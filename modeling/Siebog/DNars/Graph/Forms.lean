import Siebog.DNars.Graph.StatementAPI

/-!
# The forms of a triple

The graph keeps an edge for every form of a statement. Which forms there are depends on the triple
alone and each carries the truth value of the statement (`Statement.forms_eq`), so the forms are
studied as lists of triples.

Where `*` has only its place in an image, being a form of one another is an equivalence
(`Triple.forms_perm`), and the forms of a triple are distinct unless it is a similarity of a term
with itself (`Triple.nodup_forms`). In general neither holds, but every triple has a form that
determines the others (`Triple.exists_key`): the form with the product.
-/

set_option autoImplicit false

namespace Siebog.DNars

open AtomicTerm (placeholder)

namespace ImageFamily

theorem copula_of_mem_forms {F : ImageFamily} {st : Statement} (h : st ∈ F.forms) :
    st.copula = .inherit := by
  rcases F with ⟨_ | _, rel, a, b, t⟩ <;> rcases mem_forms.1 h with rfl | rfl | rfl <;> rfl

/-- A member of a family has three forms, those of some family it belongs to. -/
theorem exists_family {F : ImageFamily} {st : Statement} (h : st ∈ F.forms) :
    ∃ F' : ImageFamily, st ∈ F'.forms ∧ st.allImages.Perm F'.forms := by
  have hfirst : ∀ F' : ImageFamily, st = F'.first →
      ∃ F' : ImageFamily, st ∈ F'.forms ∧ st.allImages.Perm F'.forms := by
    rintro F' rfl
    refine ⟨F', by simp [forms], ?_⟩
    rw [allImages_first]
    exact List.Perm.swap _ _ _
  rcases mem_forms.1 h with rfl | rfl | rfl
  · exact ⟨F, h, by rw [allImages_packed]⟩
  · exact hfirst F rfl
  · by_cases ha : F.a = placeholder
    · -- the image with `*` on its argument position reads as a first image
      rcases F with ⟨side, rel, a, b, t⟩
      have ha' : a = placeholder := ha
      subst ha'
      exact hfirst ⟨side, rel, b, placeholder, t⟩ (by cases side <;> rfl)
    · exact ⟨F, h, allImages_perm ha h⟩

end ImageFamily

namespace Statement

/-- The forms of an inheritance are its images. -/
theorem forms_of_inherit {st : Statement} (h : st.copula = .inherit) :
    st.forms = st.allImages := by
  rw [forms, if_neg (by rw [h]; decide)]

/-- The forms of a similarity are its two directions. -/
theorem forms_of_similar {st : Statement} (h : st.copula = .similar) :
    st.forms = [st, st.opposite] := by
  rw [forms, if_pos h]

theorem mem_forms_self (st : Statement) : st ∈ st.forms := by
  rw [StatementAPI.forms_eq_cons]
  exact List.mem_cons_self

/-- An image is one of the forms. -/
theorem mem_forms_of_mem_allImages {st x : Statement} (h : x ∈ st.allImages) : x ∈ st.forms := by
  cases hc : st.copula with
  | similar =>
      rw [allImages_of_similar hc, List.mem_singleton] at h
      rw [h]
      exact mem_forms_self st
  | inherit => rwa [forms_of_inherit hc]

/-- The forms do not depend on the truth. -/
theorem forms_withTruth (st : Statement) (t : Truth) :
    (st.withTruth t).forms = st.forms.map (·.withTruth t) := by
  rw [forms, forms]
  by_cases h : st.copula = .similar
  · rw [if_pos h, if_pos (show (st.withTruth t).copula = .similar from h)]
    rfl
  · rw [if_neg h, if_neg (show ¬ (st.withTruth t).copula = .similar from h),
      allImages_withTruth]

theorem copula_of_mem_forms {st x : Statement} (h : x ∈ st.forms) : x.copula = st.copula := by
  cases hc : st.copula with
  | similar =>
      rw [forms_of_similar hc, List.mem_pair] at h
      rcases h with rfl | rfl
      · exact hc
      · rfl
  | inherit =>
      rw [forms_of_inherit hc] at h
      rcases allImages_cases st with himg | ⟨F, -, hperm⟩
      · rw [himg, List.mem_singleton] at h
        rw [h, hc]
      · exact ImageFamily.copula_of_mem_forms (hperm.mem_iff.1 h)

/-- Turned around twice a similarity is as it was. -/
theorem opposite_opposite {st : Statement} (h : st.copula = .similar) :
    st.opposite.opposite = st := by
  rcases st with ⟨s, c, p, t⟩
  cases h
  rfl

/-- The forms of a similarity are those of its other direction. -/
theorem forms_perm_of_similar {st x : Statement} (hc : st.copula = .similar) (h : x ∈ st.forms) :
    x.forms.Perm st.forms := by
  rw [forms_of_similar hc, List.mem_pair] at h
  rcases h with rfl | rfl
  · exact List.Perm.refl _
  · have hopp : st.opposite.copula = .similar := rfl
    rw [forms_of_similar hc, forms_of_similar hopp, opposite_opposite hc]
    exact List.Perm.swap _ _ _

theorem forms_perm {st x : Statement} (hst : st.PlaceholderOnly) (h : x ∈ st.forms) :
    x.forms.Perm st.forms := by
  have hx := copula_of_mem_forms h
  cases hc : st.copula with
  | similar => exact forms_perm_of_similar hc h
  | inherit =>
      rw [hc] at hx
      rw [forms_of_inherit hc] at h ⊢
      rw [forms_of_inherit hx]
      exact allImages_perm hst h

theorem placeholderOnly_of_mem_forms {st x : Statement} (hst : st.PlaceholderOnly)
    (h : x ∈ st.forms) : x.PlaceholderOnly := by
  cases hc : st.copula with
  | similar =>
      rw [forms_of_similar hc, List.mem_pair] at h
      rcases h with rfl | rfl
      · exact hst
      · exact ⟨hst.2, hst.1⟩
  | inherit =>
      rw [forms_of_inherit hc] at h
      exact placeholderOnly_of_mem_allImages hst h

/-- The forms of a statement are distinct, save for a similarity of a term with itself and a
relation between `*` and `*`. -/
theorem nodup_forms {st : Statement} (hst : st.PlaceholderOnly)
    (hself : st.copula = .similar → st.subj ≠ st.pred) : st.forms.Nodup := by
  cases hc : st.copula with
  | similar =>
      have hne : st ≠ st.opposite := fun h => hself hc (congrArg Statement.subj h)
      rw [forms_of_similar hc]
      simp [hne]
  | inherit =>
      rw [forms_of_inherit hc]
      rcases allImages_cases st with himg | ⟨F, hF, hperm⟩
      · rw [himg]
        exact List.nodup_singleton st
      · rw [hperm.nodup_iff, ImageFamily.nodup_forms_iff]
        rintro ⟨ha, -⟩
        exact ((ImageFamily.placeholderOnly_iff hF).1 hst).2.1 ha

/-- Some form of a statement determines all its forms. -/
theorem exists_key (st : Statement) :
    ∃ k ∈ st.forms, ∀ x : Statement, k ∈ x.forms → x.forms.Perm st.forms := by
  cases hc : st.copula with
  | similar =>
      -- the key of a similarity is either direction of it
      refine ⟨st, mem_forms_self st, ?_⟩
      intro x hx
      have hxc : x.copula = .similar := by rw [← copula_of_mem_forms hx, hc]
      exact (forms_perm_of_similar hxc hx).symm
  | inherit =>
      rw [forms_of_inherit hc]
      rcases allImages_cases st with himg | ⟨F, hF, hperm⟩
      · refine ⟨st, mem_allImages_self st, ?_⟩
        intro x hx
        have hxc : x.copula = .inherit := by rw [← copula_of_mem_forms hx, hc]
        rw [forms_of_inherit hxc] at hx ⊢
        rcases allImages_cases x with hximg | ⟨F, -, hperm⟩
        · rw [hximg, List.mem_singleton] at hx
          rw [hx]
        · -- a member of a family has more than one form
          obtain ⟨F', -, hperm'⟩ := ImageFamily.exists_family (hperm.mem_iff.1 hx)
          rw [himg] at hperm'
          have hlen := hperm'.length_eq
          simp [ImageFamily.forms] at hlen
      · -- the key of a family is its packed form, which only that family has
        refine ⟨F.packed, hperm.mem_iff.2 (by simp [ImageFamily.forms]), ?_⟩
        intro x hx
        have hxc : x.copula = .inherit := by
          rw [← copula_of_mem_forms hx]
          exact ImageFamily.copula_of_mem_forms (F := F) (by simp [ImageFamily.forms])
        rw [forms_of_inherit hxc] at hx ⊢
        rcases allImages_cases x with hximg | ⟨F', -, hperm'⟩
        · rw [hximg, List.mem_singleton] at hx
          rw [← hx, ImageFamily.allImages_packed]
          exact hperm.symm
        · rcases ImageFamily.mem_forms.1 (hperm'.mem_iff.1 hx) with h | h | h
          · rw [← ImageFamily.packed_injective h] at hperm'
            exact hperm'.trans hperm.symm
          · exact absurd h (ImageFamily.packed_ne_first F F')
          · exact absurd h (ImageFamily.packed_ne_second F F')

end Statement

namespace Triple

/-- The statement of a triple with a truth value. -/
def withTruth (x : Triple) (t : Truth) : Statement := ⟨x.1, x.2.1, x.2.2, t⟩

@[simp] theorem triple_withTruth (x : Triple) (t : Truth) : (x.withTruth t).triple = x := rfl

/-- The triples of the forms of a statement. -/
def forms (x : Triple) : List Triple := (x.withTruth default).forms.map Statement.triple

def PlaceholderOnly (x : Triple) : Prop := x.1.PlaceholderOnly ∧ x.2.2.PlaceholderOnly

/-- A similarity of a term with itself. -/
def SelfSimilar (x : Triple) : Prop := x.2.1 = .similar ∧ x.1 = x.2.2

end Triple

/-- The triples of the forms are the forms of the triple. -/
theorem Statement.map_triple_forms (st : Statement) :
    st.forms.map Statement.triple = st.triple.forms := by
  have hst : st.triple.withTruth default = st.withTruth default := rfl
  rw [Triple.forms, hst, Statement.forms_withTruth, List.map_map]
  rfl

/-- The forms of a statement carry its truth value. -/
theorem Statement.forms_eq (st : Statement) :
    st.forms = st.triple.forms.map (·.withTruth st.truth) := by
  have hself : st.withTruth st.truth = st := rfl
  have hforms := st.forms_withTruth st.truth
  rw [hself] at hforms
  rw [← map_triple_forms, List.map_map]
  exact hforms

/-- All forms have the truth of the statement. -/
theorem Statement.truth_of_mem_forms {st x : Statement} (h : x ∈ st.forms) :
    x.truth = st.truth := by
  rw [forms_eq] at h
  obtain ⟨y, -, rfl⟩ := List.mem_map.1 h
  rfl

/-- The triple of a form is a form of the triple. -/
theorem Statement.triple_mem_forms {st x : Statement} (h : x ∈ st.forms) :
    x.triple ∈ st.triple.forms := by
  rw [← map_triple_forms]
  exact List.mem_map_of_mem h

/-- A form is known by its triple and its truth. -/
theorem Statement.mem_forms_iff {st x : Statement} :
    x ∈ st.forms ↔ x.triple ∈ st.triple.forms ∧ x.truth = st.truth := by
  refine ⟨fun h => ⟨triple_mem_forms h, truth_of_mem_forms h⟩, ?_⟩
  rintro ⟨hx, ht⟩
  rw [forms_eq, ← ht]
  exact List.mem_map_of_mem hx

namespace Triple

theorem mem_forms_self (x : Triple) : x ∈ x.forms :=
  Statement.triple_mem_forms (x.withTruth default).mem_forms_self

/-- A form is the triple of a form of the statement. -/
theorem withTruth_mem_forms {x y : Triple} (h : y ∈ x.forms) (t : Truth) :
    y.withTruth t ∈ (x.withTruth t).forms :=
  Statement.mem_forms_iff.2 ⟨h, rfl⟩

theorem forms_perm {x y : Triple} (hx : x.PlaceholderOnly) (h : y ∈ x.forms) :
    y.forms.Perm x.forms := by
  have hst : (x.withTruth default).PlaceholderOnly := hx
  exact (Statement.forms_perm hst (withTruth_mem_forms h default)).map Statement.triple

theorem placeholderOnly_of_mem_forms {x y : Triple} (hx : x.PlaceholderOnly) (h : y ∈ x.forms) :
    y.PlaceholderOnly := by
  have hst : (x.withTruth default).PlaceholderOnly := hx
  exact Statement.placeholderOnly_of_mem_forms hst (withTruth_mem_forms h default)

/-- Triples are told apart under one truth. -/
theorem map_withTruth_injective (t : Truth) :
    Function.Injective fun x : Triple => x.withTruth t := by
  intro x y h
  exact congrArg Statement.triple h

/-- The forms are different as triples or as statements. -/
theorem nodup_forms_iff (st : Statement) : st.triple.forms.Nodup ↔ st.forms.Nodup := by
  rw [Statement.forms_eq, List.nodup_map_iff (map_withTruth_injective st.truth)]

/-- Where `*` is only a placeholder the forms are different, unless a term is similar to itself. -/
theorem nodup_forms {x : Triple} (hx : x.PlaceholderOnly) (hself : ¬ x.SelfSimilar) :
    x.forms.Nodup := by
  have hst : (x.withTruth default).PlaceholderOnly := hx
  rw [← triple_withTruth x default, nodup_forms_iff]
  apply Statement.nodup_forms hst
  intro hc hsubj
  exact hself ⟨hc, hsubj⟩

theorem exists_key (x : Triple) :
    ∃ k ∈ x.forms, ∀ y : Triple, k ∈ y.forms → y.forms.Perm x.forms := by
  obtain ⟨k, hk, hdet⟩ := (x.withTruth default).exists_key
  refine ⟨k.triple, Statement.triple_mem_forms hk, ?_⟩
  intro y hy
  have htruth : k.truth = default := Statement.truth_of_mem_forms hk
  have hky : k ∈ (y.withTruth default).forms := Statement.mem_forms_iff.2 ⟨hy, htruth⟩
  exact (hdet _ hky).map Statement.triple

/-- A term's similarity to itself has both directions the same. -/
theorem forms_of_selfSimilar {x : Triple} (h : x.SelfSimilar) : x.forms = [x, x] := by
  rcases x with ⟨s, c, p⟩
  obtain ⟨hc, hp⟩ := h
  have hc' : c = .similar := hc
  have hp' : s = p := hp
  subst hc' hp'
  rfl

/-- A form occurs among the forms of `z` as often as the triple it is a form of. -/
theorem count_forms {x y z : Triple} (hx : x.PlaceholderOnly) (hy : y ∈ x.forms)
    (hz : z.PlaceholderOnly) : z.forms.count y = z.forms.count x := by
  by_cases hself : x.SelfSimilar
  · rw [forms_of_selfSimilar hself, List.mem_pair, or_self] at hy
    rw [hy]
  · have hnodup : x.forms.Nodup := nodup_forms hx hself
    by_cases hmem : x ∈ z.forms
    · have hperm : x.forms.Perm z.forms := forms_perm hz hmem
      have hymem : y ∈ z.forms := hperm.mem_iff.1 hy
      rw [List.count_eq_one_of_mem (hperm.nodup_iff.1 hnodup) hmem,
        List.count_eq_one_of_mem (hperm.nodup_iff.1 hnodup) hymem]
    · have hynot : y ∉ z.forms := by
        intro hymem
        have hperm : x.forms.Perm z.forms := (forms_perm hx hy).symm.trans (forms_perm hz hymem)
        exact hmem (hperm.mem_iff.1 x.mem_forms_self)
      rw [List.count_eq_zero_of_not_mem hmem, List.count_eq_zero_of_not_mem hynot]

end Triple

namespace StatementAPI

/-- Inserting the forms of a statement adds its truth value under each of their triples. -/
theorem truthsAt_insertForms (g : DNarsGraph) (st : Statement) (x : Triple) :
    truthsAt (insertAll g st.forms) x =
      truthsAt g x ++ List.replicate (st.triple.forms.count x) st.truth := by
  rw [truthsAt_insertAll, Statement.forms_eq, List.filter_map, List.map_map]
  congr 1
  rw [List.eq_replicate_iff]
  constructor
  · rw [List.length_map, ← List.countP_eq_length_filter, List.count]
    apply List.countP_congr
    intro y _
    exact decide_eq_true_iff.trans beq_iff_eq.symm
  · intro t ht
    obtain ⟨y, -, rfl⟩ := List.mem_map.1 ht
    rfl

/-- Storing a truth value under the forms of a statement replaces what these hold. -/
theorem truthsAt_storeForms (t : Truth) (g : DNarsGraph) (st : Statement) (x : Triple) :
    truthsAt (storeAll t g (st.forms.map (·.triple))) x =
      if x ∈ st.triple.forms then (truthsAt g x).map fun _ => t else truthsAt g x := by
  rw [truthsAt_storeAll]
  have hforms : st.forms.map (·.triple) = st.triple.forms := st.map_triple_forms
  rw [hforms]

end StatementAPI

open StatementAPI (validStatement)

/-- The forms of a family are valid statements. -/
theorem ImageFamily.validStatement_of_mem_forms {F : ImageFamily} {st : Statement}
    (h : st ∈ F.forms) : validStatement st = true := by
  rcases F with ⟨side, rel, a, b, t⟩
  rcases mem_forms.1 h with rfl | rfl | rfl <;> cases side <;> rfl

/-- The images of a valid statement are valid. -/
theorem validStatement_of_mem_allImages {st x : Statement} (h : validStatement st = true)
    (hx : x ∈ st.allImages) : validStatement x = true := by
  rcases st.allImages_cases with himg | ⟨F, -, hperm⟩
  · rw [himg, List.mem_singleton] at hx
    rw [hx]
    exact h
  · exact ImageFamily.validStatement_of_mem_forms (hperm.mem_iff.1 hx)

end Siebog.DNars
