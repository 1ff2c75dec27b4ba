import Siebog.DNars.Base.Term
import Siebog.DNars.Base.Truth

/-!
# Statements and their structural forms

`unpack` turns a product statement into its two images, `pack` turns an image back into the product
statement and the other image, and `allImages` lists all forms of a statement. The three forms of
one relation make up an `ImageFamily`, and `allImages` of any statement is the statement alone or a
whole family (`allImages_perm_family`).

When the placeholder `*` occurs only as the single placeholder of an image, every member of a
family has that family as its forms (`allImages_perm`). Without that condition an image with `*` on
its argument position belongs to two families.
-/

set_option autoImplicit false

namespace Siebog.DNars

open AtomicTerm (placeholder)

inductive Copula where
  | inherit
  | similar
  deriving DecidableEq, Repr

def Copula.text : Copula → String
  | inherit => "->"
  | similar => "~"

/-- A statement: subject, copula, predicate and truth value. -/
structure Statement where
  subj : Term
  copula : Copula
  pred : Term
  truth : Truth
  deriving DecidableEq

namespace Statement

/-- Structural transformation of a statement with a product into its two images. -/
def unpack : Statement → List Statement
  -- (cat x bird) -> eat
  | ⟨.compound .product [t1, t2], .inherit, .atomic pred, truth⟩ =>
    -- cat -> (/ eat * bird), bird -> (/ eat cat *)
    [⟨.atomic t1, .inherit, .compound .extImage [pred, placeholder, t2], truth⟩,
      ⟨.atomic t2, .inherit, .compound .extImage [pred, t1, placeholder], truth⟩]
  -- eat -> (cat x bird)
  | ⟨.atomic subj, .inherit, .compound .product [t1, t2], truth⟩ =>
    -- (\ eat * bird) -> cat, (\ eat cat *) -> bird
    [⟨.compound .intImage [subj, placeholder, t2], .inherit, .atomic t1, truth⟩,
      ⟨.compound .intImage [subj, t1, placeholder], .inherit, .atomic t2, truth⟩]
  | _ => []

/-- Recombination of an image into the product statement, with the other image. -/
def pack : Statement → List Statement
  | ⟨.atomic s, .inherit, .compound .extImage [rel, a, b], truth⟩ =>
    -- cat -> (/ eat * bird)
    if a = placeholder then
      [⟨.compound .product [s, b], .inherit, .atomic rel, truth⟩,
        ⟨.atomic b, .inherit, .compound .extImage [rel, s, placeholder], truth⟩]
    -- bird -> (/ eat cat *)
    else if b = placeholder then
      [⟨.compound .product [a, s], .inherit, .atomic rel, truth⟩,
        ⟨.atomic a, .inherit, .compound .extImage [rel, placeholder, s], truth⟩]
    else []
  | ⟨.compound .intImage [rel, a, b], .inherit, .atomic p, truth⟩ =>
    -- (\ dissolve * solid) -> liquid
    if a = placeholder then
      [⟨.atomic rel, .inherit, .compound .product [p, b], truth⟩,
        ⟨.compound .intImage [rel, p, placeholder], .inherit, .atomic b, truth⟩]
    -- (\ dissolve liquid *) -> solid
    else if b = placeholder then
      [⟨.atomic rel, .inherit, .compound .product [a, p], truth⟩,
        ⟨.compound .intImage [rel, placeholder, p], .inherit, .atomic a, truth⟩]
    else []
  | _ => []

/-- All forms of a statement, the statement itself first. -/
def allImages (st : Statement) : List Statement :=
  let images :=
    match st.pack with
    | [a, b] => [a, b]
    | _ =>
      match st.unpack with
      | [a, b] => [a, b]
      | _ => []
  st :: images

/-- The statement with another truth value. -/
def withTruth (st : Statement) (t : Truth) : Statement := { st with truth := t }

/-- The similarity read in the other direction. -/
def opposite (st : Statement) : Statement := ⟨st.pred, .similar, st.subj, st.truth⟩

end Statement

/-! ## Image families -/

/-- The side of an inheritance on which a product stands: extensional `(x a b) -> rel`, intensional
`rel -> (x a b)`. -/
inductive ImageSide where
  | extensional
  | intensional
  deriving DecidableEq, Repr

/-- A binary relation `rel` between `a` and `b` with a truth value, written with a product. -/
structure ImageFamily where
  side : ImageSide
  rel : AtomicTerm
  a : AtomicTerm
  b : AtomicTerm
  truth : Truth
  deriving DecidableEq

namespace ImageFamily

/-- The form with the product. -/
def packed : ImageFamily → Statement
  | ⟨.extensional, rel, a, b, t⟩ => ⟨.compound .product [a, b], .inherit, .atomic rel, t⟩
  | ⟨.intensional, rel, a, b, t⟩ => ⟨.atomic rel, .inherit, .compound .product [a, b], t⟩

/-- The image with the placeholder for the first argument. -/
def first : ImageFamily → Statement
  | ⟨.extensional, rel, a, b, t⟩ => ⟨.atomic a, .inherit, .compound .extImage [rel, placeholder, b], t⟩
  | ⟨.intensional, rel, a, b, t⟩ => ⟨.compound .intImage [rel, placeholder, b], .inherit, .atomic a, t⟩

/-- The image with the placeholder for the second argument. -/
def second : ImageFamily → Statement
  | ⟨.extensional, rel, a, b, t⟩ => ⟨.atomic b, .inherit, .compound .extImage [rel, a, placeholder], t⟩
  | ⟨.intensional, rel, a, b, t⟩ => ⟨.compound .intImage [rel, a, placeholder], .inherit, .atomic b, t⟩

/-- The three forms of the relation. -/
def forms (F : ImageFamily) : List Statement := [F.packed, F.first, F.second]

/-- The three forms of a family. -/
theorem mem_forms {F : ImageFamily} {st : Statement} :
    st ∈ F.forms ↔ st = F.packed ∨ st = F.first ∨ st = F.second := by
  simp [forms]

/-- The forms from the packed one on. -/
theorem allImages_packed (F : ImageFamily) : F.packed.allImages = F.forms := by
  rcases F with ⟨side, rel, a, b, t⟩
  cases side <;> rfl

/-- The forms from the first image on. -/
theorem allImages_first (F : ImageFamily) :
    F.first.allImages = [F.first, F.packed, F.second] := by
  rcases F with ⟨side, rel, a, b, t⟩
  cases side <;> simp [Statement.allImages, Statement.pack, first, packed, second]

/-- The forms from the second image on, which is packed only if its first place is taken. -/
theorem allImages_second {F : ImageFamily} (ha : F.a ≠ placeholder) :
    F.second.allImages = [F.second, F.packed, F.first] := by
  rcases F with ⟨side, rel, a, b, t⟩
  cases side <;> simp_all [Statement.allImages, Statement.pack, first, packed, second]

/-- From every form the same three are found. -/
theorem second_perm (F : ImageFamily) : [F.second, F.packed, F.first].Perm F.forms := by
  have hcomm : ([F.second] ++ [F.packed, F.first]).Perm ([F.packed, F.first] ++ [F.second]) :=
    List.perm_append_comm
  exact hcomm

/-- Away from the placeholder, every member of a family has the family as its forms. -/
theorem allImages_perm {F : ImageFamily} (ha : F.a ≠ placeholder) {st : Statement}
    (hst : st ∈ F.forms) : st.allImages.Perm F.forms := by
  rcases mem_forms.1 hst with rfl | rfl | rfl
  · rw [allImages_packed]
  · rw [allImages_first]
    exact List.Perm.swap _ _ _
  · rw [allImages_second ha]
    exact F.second_perm

end ImageFamily

namespace Statement

/-- A statement that is unpacked is the packed form of a family. -/
theorem unpack_cases (st : Statement) :
    st.unpack = [] ∨ ∃ F : ImageFamily, st = F.packed := by
  rw [unpack.eq_def]
  split
  · rename_i t1 t2 pred truth
    exact Or.inr ⟨⟨.extensional, pred, t1, t2, truth⟩, rfl⟩
  · rename_i subj t1 t2 truth
    exact Or.inr ⟨⟨.intensional, subj, t1, t2, truth⟩, rfl⟩
  · exact Or.inl rfl

/-- A statement that is packed is an image of a family. -/
theorem pack_cases (st : Statement) :
    st.pack = [] ∨ ∃ F : ImageFamily, st = F.first ∨ (st = F.second ∧ F.a ≠ placeholder) := by
  rw [pack.eq_def]
  split
  · rename_i s rel a b truth
    split_ifs with ha hb
    · exact Or.inr ⟨⟨.extensional, rel, s, b, truth⟩, Or.inl (by rw [ha]; rfl)⟩
    · exact Or.inr ⟨⟨.extensional, rel, a, s, truth⟩, Or.inr ⟨by rw [hb]; rfl, ha⟩⟩
    · exact Or.inl rfl
  · rename_i rel a b p truth
    split_ifs with ha hb
    · exact Or.inr ⟨⟨.intensional, rel, p, b, truth⟩, Or.inl (by rw [ha]; rfl)⟩
    · exact Or.inr ⟨⟨.intensional, rel, a, p, truth⟩, Or.inr ⟨by rw [hb]; rfl, ha⟩⟩
    · exact Or.inl rfl
  · exact Or.inl rfl

/-- A statement has no other form, or it is a member of an image family that makes up its forms. -/
theorem allImages_cases (st : Statement) :
    st.allImages = [st] ∨ ∃ F : ImageFamily, st ∈ F.forms ∧ st.allImages.Perm F.forms := by
  rcases pack_cases st with hpack | ⟨F, rfl | ⟨rfl, ha⟩⟩
  · rcases unpack_cases st with hunpack | ⟨F, rfl⟩
    · left
      simp only [allImages, hpack, hunpack]
    · refine Or.inr ⟨F, by simp [ImageFamily.forms], ?_⟩
      rw [ImageFamily.allImages_packed]
  · refine Or.inr ⟨F, by simp [ImageFamily.forms], ?_⟩
    rw [ImageFamily.allImages_first]
    exact List.Perm.swap _ _ _
  · refine Or.inr ⟨F, by simp [ImageFamily.forms], ?_⟩
    rw [ImageFamily.allImages_second ha]
    exact F.second_perm

theorem mem_allImages_self (st : Statement) : st ∈ st.allImages := List.mem_cons_self

/-- Only inheritance statements have other forms. -/
theorem allImages_of_similar {st : Statement} (h : st.copula = .similar) :
    st.allImages = [st] := by
  rcases allImages_cases st with himg | ⟨F, hF, -⟩
  · exact himg
  · rcases F with ⟨side, rel, a, b, t⟩
    rcases ImageFamily.mem_forms.1 hF with rfl | rfl | rfl <;> cases side <;> cases h

theorem eq_of_withTruth_eq {st : Statement} {t u : Truth} {s p : Term} {c : Copula}
    (h : st.withTruth t = ⟨s, c, p, u⟩) : st = ⟨s, c, p, st.truth⟩ :=
  congrArg (·.withTruth st.truth) h

/-- Packing keeps the truth. -/
theorem pack_withTruth (st : Statement) (t : Truth) :
    (st.withTruth t).pack = st.pack.map (·.withTruth t) := by
  fun_cases pack st with
  | case7 st hext hint =>
      rw [pack.eq_def]
      split
      · rename_i h
        exact (hext _ _ _ _ _ (eq_of_withTruth_eq h)).elim
      · rename_i h
        exact (hint _ _ _ _ _ (eq_of_withTruth_eq h)).elim
      · rfl
  | _ => simp_all [pack, withTruth]

/-- Unpacking keeps the truth. -/
theorem unpack_withTruth (st : Statement) (t : Truth) :
    (st.withTruth t).unpack = st.unpack.map (·.withTruth t) := by
  fun_cases unpack st with
  | case3 st hext hint =>
      rw [unpack.eq_def]
      split
      · rename_i h
        exact (hext _ _ _ _ (eq_of_withTruth_eq h)).elim
      · rename_i h
        exact (hint _ _ _ _ (eq_of_withTruth_eq h)).elim
      · rfl
  | _ => rfl

/-- The truth value plays no part in the forms of a statement. -/
theorem allImages_withTruth (st : Statement) (t : Truth) :
    (st.withTruth t).allImages = st.allImages.map (·.withTruth t) := by
  rcases pack_cases st with hpack | ⟨F, hF⟩
  · simp only [allImages, pack_withTruth, unpack_withTruth, hpack]
    rcases unpack_cases st with hunpack | ⟨F, rfl⟩
    · simp [hunpack]
    · rcases F with ⟨_ | _, rel, a, b, u⟩ <;> simp [ImageFamily.packed, unpack]
  · have hpair : ∃ x y, st.pack = [x, y] := by
      rcases F with ⟨_ | _, rel, a, b, u⟩ <;> rcases hF with rfl | ⟨rfl, ha⟩ <;>
        simp_all [ImageFamily.first, ImageFamily.second, pack]
    obtain ⟨x, y, hxy⟩ := hpair
    simp [allImages, pack_withTruth, hxy]

/-- All forms have the truth of the statement. -/
theorem truth_of_mem_allImages {st x : Statement} (hx : x ∈ st.allImages) :
    x.truth = st.truth := by
  have hmap := allImages_withTruth st st.truth
  have hself : st.withTruth st.truth = st := rfl
  rw [hself] at hmap
  rw [hmap] at hx
  obtain ⟨y, -, rfl⟩ := List.mem_map.1 hx
  rfl

end Statement

/-! ## The reserved atom `*` -/

/-- `*` occurs in the term at most as the single placeholder of an image. -/
def Term.PlaceholderOnly : Term → Prop
  | .atomic a => a ≠ placeholder
  | .compound .product comps => placeholder ∉ comps
  | .compound .extImage comps => comps.count placeholder ≤ 1
  | .compound .intImage comps => comps.count placeholder ≤ 1

instance : DecidablePred Term.PlaceholderOnly := fun t =>
  match t with
  | .atomic a => inferInstanceAs (Decidable (a ≠ placeholder))
  | .compound .product comps => inferInstanceAs (Decidable (placeholder ∉ comps))
  | .compound .extImage comps => inferInstanceAs (Decidable (comps.count placeholder ≤ 1))
  | .compound .intImage comps => inferInstanceAs (Decidable (comps.count placeholder ≤ 1))

/-- `*` occurs in the statement only as the single placeholder of an image. -/
def Statement.PlaceholderOnly (st : Statement) : Prop :=
  st.subj.PlaceholderOnly ∧ st.pred.PlaceholderOnly

instance : DecidablePred Statement.PlaceholderOnly := fun st =>
  inferInstanceAs (Decidable (st.subj.PlaceholderOnly ∧ st.pred.PlaceholderOnly))

theorem count_first_le_one_iff (rel b : AtomicTerm) :
    [rel, placeholder, b].count placeholder ≤ 1 ↔ rel ≠ placeholder ∧ b ≠ placeholder := by
  by_cases hrel : rel = placeholder <;> by_cases hb : b = placeholder <;>
    simp [hrel, hb]

theorem count_second_le_one_iff (rel a : AtomicTerm) :
    [rel, a, placeholder].count placeholder ≤ 1 ↔ rel ≠ placeholder ∧ a ≠ placeholder := by
  by_cases hrel : rel = placeholder <;> by_cases ha : a = placeholder <;>
    simp [hrel, ha]

theorem notMem_pair_iff (a b : AtomicTerm) :
    placeholder ∉ [a, b] ↔ a ≠ placeholder ∧ b ≠ placeholder := by
  simp [eq_comm]

/-- `*` has its place in one form of a family exactly when it is none of the three atoms. -/
theorem ImageFamily.placeholderOnly_iff {F : ImageFamily} {st : Statement} (hst : st ∈ F.forms) :
    st.PlaceholderOnly ↔ F.rel ≠ placeholder ∧ F.a ≠ placeholder ∧ F.b ≠ placeholder := by
  rcases F with ⟨side, rel, a, b, t⟩
  rcases mem_forms.1 hst with rfl | rfl | rfl <;> cases side <;>
    simp only [packed, first, second, Statement.PlaceholderOnly, Term.PlaceholderOnly,
      count_first_le_one_iff, count_second_le_one_iff, notMem_pair_iff] <;> tauto

/-- Every form of a statement has the same forms. -/
theorem Statement.allImages_perm {st st' : Statement} (hst : st.PlaceholderOnly)
    (h : st' ∈ st.allImages) : st'.allImages.Perm st.allImages := by
  rcases allImages_cases st with himg | ⟨F, hF, hperm⟩
  · rw [himg, List.mem_singleton] at h
    rw [h]
  · have ha : F.a ≠ placeholder := ((ImageFamily.placeholderOnly_iff hF).1 hst).2.1
    exact (ImageFamily.allImages_perm ha (hperm.mem_iff.1 h)).trans hperm.symm

/-- In no form `*` occurs elsewhere than as the placeholder, if it does not in the statement. -/
theorem Statement.placeholderOnly_of_mem_allImages {st st' : Statement}
    (hst : st.PlaceholderOnly) (h : st' ∈ st.allImages) : st'.PlaceholderOnly := by
  rcases allImages_cases st with himg | ⟨F, hF, hperm⟩
  · rw [himg, List.mem_singleton] at h
    rwa [h]
  · have hproper := (ImageFamily.placeholderOnly_iff hF).1 hst
    exact (ImageFamily.placeholderOnly_iff (hperm.mem_iff.1 h)).2 hproper

/-! ## Orbits -/

namespace ImageFamily

/-- The packed form is unpacked into both images. -/
theorem unpack_packed (F : ImageFamily) : F.packed.unpack = [F.first, F.second] := by
  rcases F with ⟨side, rel, a, b, t⟩
  cases side <;> rfl

/-- The packed form is not packed any further. -/
theorem pack_packed (F : ImageFamily) : F.packed.pack = [] := by
  rcases F with ⟨side, rel, a, b, t⟩
  cases side <;> rfl

/-- The first image is packed. -/
theorem pack_first (F : ImageFamily) : F.first.pack = [F.packed, F.second] := by
  rcases F with ⟨side, rel, a, b, t⟩
  cases side <;> simp [Statement.pack, first, packed, second]

/-- The second image is packed, if its first place is taken. -/
theorem pack_second {F : ImageFamily} (ha : F.a ≠ placeholder) :
    F.second.pack = [F.packed, F.first] := by
  rcases F with ⟨side, rel, a, b, t⟩
  have hne : a ≠ placeholder := ha
  cases side <;> simp [Statement.pack, first, packed, second, hne]

/-- A family is known by its packed form. -/
theorem packed_injective : Function.Injective packed := by
  intro F F' h
  rcases F with ⟨_ | _, rel, a, b, t⟩ <;> rcases F' with ⟨_ | _, rel', a', b', t'⟩ <;>
    simp_all [packed]

/-- A product is no image. -/
theorem packed_ne_first (F F' : ImageFamily) : F.packed ≠ F'.first := by
  rcases F with ⟨_ | _, rel, a, b, t⟩ <;> rcases F' with ⟨_ | _, rel', a', b', t'⟩ <;>
    simp [packed, first]

/-- A product is no image, the second one either. -/
theorem packed_ne_second (F F' : ImageFamily) : F.packed ≠ F'.second := by
  rcases F with ⟨_ | _, rel, a, b, t⟩ <;> rcases F' with ⟨_ | _, rel', a', b', t'⟩ <;>
    simp [packed, second]

/-- The two images coincide only in a relation between `*` and `*`. -/
theorem first_eq_second_iff (F : ImageFamily) :
    F.first = F.second ↔ F.a = placeholder ∧ F.b = placeholder := by
  rcases F with ⟨_ | _, rel, a, b, t⟩ <;>
    simp only [first, second, Statement.mk.injEq, Term.compound.injEq, Term.atomic.injEq,
      List.cons.injEq, true_and, and_true] <;>
    constructor
  · rintro ⟨-, ha, hb⟩
    exact ⟨ha.symm, hb⟩
  · rintro ⟨rfl, rfl⟩
    exact ⟨rfl, rfl, rfl⟩
  · rintro ⟨⟨ha, hb⟩, -⟩
    exact ⟨ha.symm, hb⟩
  · rintro ⟨rfl, rfl⟩
    exact ⟨⟨rfl, rfl⟩, rfl⟩

/-- The three forms are different unless both places are empty. -/
theorem nodup_forms_iff (F : ImageFamily) :
    F.forms.Nodup ↔ ¬ (F.a = placeholder ∧ F.b = placeholder) := by
  rw [← first_eq_second_iff, forms]
  simp [packed_ne_first, packed_ne_second]

end ImageFamily

namespace Statement

/-- A statement with an image is a member of a family away from the placeholder. -/
theorem exists_family {st : Statement} (hst : st.PlaceholderOnly)
    (himage : ¬ (st.pack = [] ∧ st.unpack = [])) :
    ∃ F : ImageFamily, st ∈ F.forms ∧ F.a ≠ placeholder := by
  have hproper : ∀ F : ImageFamily, st ∈ F.forms → F.a ≠ placeholder := fun F hF =>
    ((ImageFamily.placeholderOnly_iff hF).1 hst).2.1
  rcases pack_cases st with hpack | ⟨F, hF⟩
  · rcases unpack_cases st with hunpack | ⟨F, hF⟩
    · exact absurd ⟨hpack, hunpack⟩ himage
    · have hmem : st ∈ F.forms := ImageFamily.mem_forms.2 (.inl hF)
      exact ⟨F, hmem, hproper F hmem⟩
  · have hmem : st ∈ F.forms := ImageFamily.mem_forms.2 (.inr (hF.imp id And.left))
    exact ⟨F, hmem, hproper F hmem⟩

/-- Only a product form can be unpacked, and no product form can be packed. -/
theorem pack_or_unpack_nil (st : Statement) : st.pack = [] ∨ st.unpack = [] := by
  rcases unpack_cases st with hunpack | ⟨F, rfl⟩
  · exact .inr hunpack
  · exact .inl F.pack_packed

/-- The statements with images fall into orbits of three: a product form and its two images, each
of which gives back the other two. -/
theorem image_orbit {st : Statement} (hst : st.PlaceholderOnly) :
    (¬ (st.pack = [] ∧ st.unpack = []) →
      ∃ p a b : Statement, st.allImages.Perm [p, a, b] ∧ [p, a, b].Nodup ∧
        p.unpack = [a, b] ∧ a.pack = [p, b] ∧ b.pack = [p, a]) ∧
      (∀ st' ∈ st.allImages, st'.truth = st.truth ∧
        ∀ x, x ∈ st'.allImages ↔ x ∈ st.allImages) ∧
      (∀ a b, st.unpack = [a, b] → a.pack = [st, b] ∧ b.pack = [st, a]) ∧
      (st.pack = [] ∨ st.unpack = []) := by
  refine ⟨?_, ?_, ?_, pack_or_unpack_nil st⟩
  · intro himage
    obtain ⟨F, hF, ha⟩ := exists_family hst himage
    exact ⟨F.packed, F.first, F.second, ImageFamily.allImages_perm ha hF,
      F.nodup_forms_iff.2 fun h => ha h.1, F.unpack_packed, F.pack_first, ImageFamily.pack_second ha⟩
  · intro st' hst'
    exact ⟨truth_of_mem_allImages hst', fun x => (allImages_perm hst hst').mem_iff⟩
  · intro a b hunpack
    rcases unpack_cases st with hnil | ⟨F, rfl⟩
    · rw [hnil] at hunpack
      cases hunpack
    · have hF : F.packed ∈ F.forms := ImageFamily.mem_forms.2 (.inl rfl)
      have ha : F.a ≠ placeholder := ((ImageFamily.placeholderOnly_iff hF).1 hst).2.1
      rw [F.unpack_packed] at hunpack
      cases hunpack
      exact ⟨F.pack_first, ImageFamily.pack_second ha⟩

/-- `(x cat cat) -> like (1.00,0.90)`, whose two images have the same subject. -/
theorem image_orbit_like :
    let st : Statement := ⟨.compound .product [atom "cat", atom "cat"], .inherit,
      .atomic (atom "like"), ⟨.val 1, .val (9 / 10)⟩⟩
    ∃ p a b : Statement, st.allImages.Perm [p, a, b] ∧ [p, a, b].Nodup ∧
      p.unpack = [a, b] ∧ a.pack = [p, b] ∧ b.pack = [p, a] :=
  (image_orbit (by decide)).1 (by decide)

end Statement

end Siebog.DNars
