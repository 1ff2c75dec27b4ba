import Siebog.Lib.Occupancy
import Siebog.DNars.Base.StatementParser
import Siebog.DNars.Graph.Forms

/-!
# When every triple has one edge

`getE` raises an error when it finds several edges, so the graph is meant to hold at most one edge
for each triple. `StatementAPI.add` looks for the statement itself only and inserts the edges of its
other forms unseen. How many edges a triple gets is the occupancy of a store that keeps an entry
under several keys (`length_truthsAt_run`), which gives the exact condition: no similarity of a term
with itself, and no relation that holds between `*` and a term in both directions
(`keepsEdgesUnique_iff`).
-/

set_option autoImplicit false

namespace Siebog.DNars

open Siebog.Lib StatementAPI
open AtomicTerm (placeholder)

/-! ## Counting edges -/

/-- Only the insertion of a new statement changes how many edges a triple has. -/
theorem length_truthsAt_addStep {g : DNarsGraph} (hg : g.Closed) (st : Statement) :
    (fun x => (truthsAt (addStep g st) x).length) =
      if validStatement st then
        occupy Statement.triple (fun st => st.triple.forms) (fun x => (truthsAt g x).length) st
      else fun x => (truthsAt g x).length := by
  have hadd := add_cases hg st
  rw [addStep, stateAfter]
  generalize (add st).run g = result at hadd ⊢
  cases hadd with
  | invalid h => rw [h]; rfl
  | inserted h hnew =>
      rw [if_pos h, occupy, if_pos (by rw [hnew]; rfl)]
      funext x
      rw [truthsAt_insertForms, List.length_append, List.length_replicate]
  | revised u h hu _ =>
      rw [if_pos h, occupy, if_neg (by rw [hu]; simp)]
      funext x
      exact length_truthsAt_storeAll _ _ g x
  | interrupted u e done h hu _ _ _ =>
      rw [if_pos h, occupy, if_neg (by rw [hu]; simp)]
      funext x
      exact length_truthsAt_storeAll _ _ g x
  | ambiguous h htwo => rw [if_pos h, occupy, if_neg (by omega)]

/-- The statements that `add` does not skip. -/
def accepted (sts : List Statement) : List Statement := sts.filter fun st => validStatement st

theorem accepted_snoc (sts : List Statement) (st : Statement) :
    accepted (sts ++ [st]) = accepted sts ++ if validStatement st then [st] else [] := by
  rw [accepted, List.filter_append, ← accepted]
  by_cases h : validStatement st = true <;> simp [h]

/-- A run of additions simulates the store that keeps an entry under every form. -/
theorem length_truthsAt_graphOf (sts : List Statement) :
    (fun x => (truthsAt (graphOf sts) x).length) =
      occupancy Statement.triple (fun st => st.triple.forms) (accepted sts) := by
  induction sts using List.reverseRecOn with
  | nil => rfl
  | append_singleton sts st ih =>
      rw [graphOf_snoc, length_truthsAt_addStep (closed_graphOf sts), ih,
        accepted_snoc]
      by_cases h : validStatement st = true
      · rw [if_pos h, if_pos h, occupancy_snoc]
      · rw [if_neg h, if_neg h, List.append_nil]

theorem nodup_vertices_addStep {g : DNarsGraph} (hg : g.Closed) (h : g.vertices.Nodup)
    (st : Statement) : (addStep g st).vertices.Nodup := by
  have hadd := add_cases hg st
  rw [addStep, stateAfter]
  generalize (add st).run g = result at hadd ⊢
  cases hadd with
  | invalid => exact h
  | inserted => exact nodup_vertices_insertAll h _
  | revised => rwa [vertices_storeAll]
  | interrupted => rwa [vertices_storeAll]
  | ambiguous => exact h

theorem nodup_vertices_graphOf (sts : List Statement) : (graphOf sts).vertices.Nodup := by
  induction sts using List.reverseRecOn with
  | nil => exact List.nodup_nil
  | append_singleton sts st ih =>
      rw [graphOf_snoc]
      exact nodup_vertices_addStep (closed_graphOf sts) ih st

/-! ## What callers of the graph expect -/

/-- The graph of `sts` has one edge for a triple, one vertex for a term, no ambiguous lookup, and
takes every statement of `sts` again as a revision. -/
structure EdgesUnique (sts : List Statement) : Prop where
  edges : ∀ x, (truthsAt (graphOf sts) x).length ≤ 1
  vertices : ∀ v ∈ (graphOf sts).vertices, (graphOf sts).vertices.count v = 1
  endpoints : ∀ e ∈ (graphOf sts).edges,
    e.out ∈ (graphOf sts).vertices ∧ e.inn ∈ (graphOf sts).vertices
  lookup : ∀ st e, EdgeAPI.getE (graphOf sts) st ≠ .error e
  again : ∀ st ∈ sts, validStatement st = true →
    ∃ g, (add st).run (graphOf sts) = .ok (some ⟨.updated, st.id⟩) g

/-- The graph has unique edges at every point of the run. -/
def KeepsEdgesUnique (sts : List Statement) : Prop :=
  ∀ added, added <+: sts → EdgesUnique added

theorem mem_accepted {sts : List Statement} {st : Statement} :
    st ∈ accepted sts ↔ st ∈ sts ∧ validStatement st = true := by
  rw [accepted, List.mem_filter]

theorem edgesUnique_iff (sts : List Statement) :
    EdgesUnique sts ↔ (∀ x, (truthsAt (graphOf sts) x).length ≤ 1) ∧
      ∀ st ∈ accepted sts, ∀ x ∈ st.triple.forms, (truthsAt (graphOf sts) x).length = 1 := by
  constructor
  · intro h
    refine ⟨h.edges, ?_⟩
    intro st hst x hx
    obtain ⟨hmem, hvalid⟩ := mem_accepted.1 hst
    obtain ⟨g, hrun⟩ := h.again st hmem hvalid
    -- adding it again is a revision, so each of its forms has one edge
    have hadd := add_cases (closed_graphOf sts) st
    rw [hrun] at hadd
    rw [← Statement.map_triple_forms] at hx
    obtain ⟨y, hy, rfl⟩ := List.mem_map.1 hx
    cases hadd with
    | revised u _ _ hall => exact hall y hy
  · rintro ⟨hle, hone⟩
    refine ⟨hle, ?_, closed_graphOf sts, ?_, ?_⟩
    · intro v hv
      exact List.count_eq_one_of_mem (nodup_vertices_graphOf sts) hv
    · intro st e herr
      have hlen := hle st.triple
      rw [getE_eq (closed_graphOf sts)] at herr
      split at herr
      · cases herr
      · cases herr
      · rename_i hnil hsingle
        rcases htruths : truthsAt (graphOf sts) st.triple with _ | ⟨u, _ | ⟨v, us⟩⟩
        · exact hnil htruths
        · exact hsingle u htruths
        · rw [htruths] at hlen
          simp at hlen
    · intro st hmem hvalid
      have hst : st ∈ accepted sts := mem_accepted.2 ⟨hmem, hvalid⟩
      have hself : (truthsAt (graphOf sts) st.triple).length = 1 :=
        hone st hst st.triple st.triple.mem_forms_self
      have hadd := add_cases (closed_graphOf sts) st
      generalize (add st).run (graphOf sts) = result at hadd ⊢
      cases hadd with
      | invalid h =>
          rw [h] at hvalid
          cases hvalid
      | inserted _ hnew =>
          rw [hnew] at hself
          cases hself
      | revised => exact ⟨_, rfl⟩
      | interrupted u e done _ _ hbad _ _ =>
          obtain ⟨x, hx, hlen⟩ := hbad
          exact absurd (hone st hst x.triple (Statement.triple_mem_forms hx)) hlen
      | ambiguous _ htwo => omega

/-- Unique edges during the whole run, as exactness of the abstract store. -/
theorem keepsEdgesUnique_iff_exact (sts : List Statement) :
    KeepsEdgesUnique sts ↔
      Exact Statement.triple (fun st => st.triple.forms) (accepted sts) := by
  have hcount : ∀ added x, (truthsAt (graphOf added) x).length =
      occupancy Statement.triple (fun st => st.triple.forms) (accepted added) x :=
    fun added x => congrFun (length_truthsAt_graphOf added) x
  constructor
  · rintro h stored ⟨later, hsplit⟩
    -- a prefix of the accepted statements is what a prefix of the run accepts
    obtain ⟨added, rest, rfl, rfl, -⟩ := List.filter_eq_append_iff.1 hsplit.symm
    have hadded := (edgesUnique_iff added).1 (h added (List.prefix_append _ _))
    simp only [hcount] at hadded
    exact hadded
  · rintro h added ⟨rest, rfl⟩
    have hpre : accepted added <+: accepted (added ++ rest) := by
      rw [accepted, accepted, List.filter_append]
      exact List.prefix_append _ _
    rw [edgesUnique_iff]
    simp only [hcount]
    exact h _ hpre

/-! ## Relations and their forms -/

/-- The statement is a form of the relation `r` between `a` and `b`. -/
def Statement.Relates (st : Statement) (side : ImageSide) (r a b : AtomicTerm) : Prop :=
  ∃ t, (⟨side, r, a, b, t⟩ : ImageFamily).packed ∈ st.allImages

/-- The triples of the forms of a relation. -/
def relationForms (side : ImageSide) (r a b : AtomicTerm) : List Triple :=
  (⟨side, r, a, b, default⟩ : ImageFamily).forms.map Statement.triple

theorem relationForms_eq (F : ImageFamily) :
    F.forms.map Statement.triple = relationForms F.side F.rel F.a F.b := by
  rcases F with ⟨_ | _, r, a, b, t⟩ <;> rfl

/-- An inheritance is a form of no relation and has no other form, or it is a form of a relation
and has the forms of that relation. -/
theorem relates_cases {st : Statement} (hc : st.copula = .inherit) :
    (st.triple.forms = [st.triple] ∧ ∀ side r a b, ¬ st.Relates side r a b) ∨
      ∃ side r a b, st.Relates side r a b ∧ st.triple.forms.Perm (relationForms side r a b) := by
  rw [← Statement.map_triple_forms, Statement.forms_of_inherit hc]
  rcases Statement.allImages_cases st with himg | ⟨F, -, hperm⟩
  · left
    rw [himg]
    refine ⟨rfl, ?_⟩
    rintro side r a b ⟨t, hmem⟩
    rw [himg, List.mem_singleton] at hmem
    -- a product statement has three forms, not one
    rw [← hmem, ImageFamily.allImages_packed] at himg
    cases himg
  · right
    refine ⟨F.side, F.rel, F.a, F.b, ⟨F.truth, hperm.mem_iff.2 (by simp [ImageFamily.forms])⟩, ?_⟩
    rw [← relationForms_eq]
    exact hperm.map _

/-- The relation of a statement is unique. -/
theorem Statement.Relates.forms {st : Statement} {side : ImageSide} {r a b : AtomicTerm}
    (h : st.Relates side r a b) :
    st.copula = .inherit ∧ st.triple.forms.Perm (relationForms side r a b) := by
  obtain ⟨t, hmem⟩ := h
  have hc : st.copula = .inherit := by
    rcases Statement.allImages_cases st with himg | ⟨F, hF, -⟩
    · rw [himg, List.mem_singleton] at hmem
      rw [← hmem]
      cases side <;> rfl
    · exact ImageFamily.copula_of_mem_forms hF
  refine ⟨hc, ?_⟩
  rw [← Statement.map_triple_forms, Statement.forms_of_inherit hc]
  rcases Statement.allImages_cases st with himg | ⟨F, -, hperm⟩
  · rw [himg, List.mem_singleton] at hmem
    rw [← hmem, ImageFamily.allImages_packed, relationForms_eq]
  · rcases ImageFamily.mem_forms.1 (hperm.mem_iff.1 hmem) with hF | hF | hF
    · rw [← ImageFamily.packed_injective hF] at hperm
      have hmap := hperm.map Statement.triple
      rwa [relationForms_eq] at hmap
    · exact absurd hF (ImageFamily.packed_ne_first _ _)
    · exact absurd hF (ImageFamily.packed_ne_second _ _)

theorem relationForms_nodup_iff (side : ImageSide) (r a b : AtomicTerm) :
    (relationForms side r a b).Nodup ↔ ¬ (a = placeholder ∧ b = placeholder) := by
  have hforms := ImageFamily.nodup_forms_iff ⟨side, r, a, b, default⟩
  rw [← hforms, relationForms]
  cases side <;> simp [ImageFamily.forms, ImageFamily.packed, ImageFamily.first,
    ImageFamily.second, Statement.triple]

/-- Every form of a relation has three forms. -/
theorem length_forms_of_mem_relationForms {side : ImageSide} {r a b : AtomicTerm} {x : Triple}
    (hx : x ∈ relationForms side r a b) : x.forms.length = 3 := by
  obtain ⟨st, hst, rfl⟩ := List.mem_map.1 hx
  obtain ⟨F, -, hperm⟩ := ImageFamily.exists_family hst
  rw [← Statement.map_triple_forms, List.length_map,
    Statement.forms_of_inherit (ImageFamily.copula_of_mem_forms hst), hperm.length_eq]
  rfl

/-- Two relations share a form only when they are the same, or one relates `*` to a term and the
other relates this term to `*`. -/
theorem relationForms_meet {side side' : ImageSide} {r a b r' a' b' : AtomicTerm} {x : Triple}
    (hx : x ∈ relationForms side r a b) (hx' : x ∈ relationForms side' r' a' b') :
    (side = side' ∧ r = r' ∧ a = a' ∧ b = b') ∨
      (side = side' ∧ r = r' ∧ a = b' ∧ b = a' ∧ (a = placeholder ∨ b = placeholder)) := by
  cases side <;> cases side' <;>
    simp only [relationForms, ImageFamily.forms, ImageFamily.packed, ImageFamily.first,
      ImageFamily.second, Statement.triple, List.map_cons, List.map_nil, List.mem_cons,
      List.not_mem_nil, or_false] at hx hx' <;>
    -- which of its three forms each relation shares
    rcases hx with rfl | rfl | rfl <;>
    simp only [Prod.mk.injEq, Term.atomic.injEq, Term.compound.injEq, List.cons.injEq, reduceCtorEq,
      false_and, and_false, false_or, or_false, true_and, and_true] at hx' ⊢ <;>
    grind

/-- No valid statement is a similarity of a term with itself, and no two valid statements, nor one
with itself, relate `*` to a term and this term to `*`. -/
structure Unambiguous (sts : List Statement) : Prop where
  similar : ∀ st ∈ accepted sts, st.copula = .similar → st.subj ≠ st.pred
  starred : ∀ st ∈ accepted sts, ∀ st' ∈ accepted sts, ∀ side r a,
    st.Relates side r placeholder a → ¬ st'.Relates side r a placeholder

theorem copula_of_triple_mem_forms {st : Statement} {x : Triple} (h : x ∈ st.triple.forms) :
    x.2.1 = st.copula := by
  rw [← Statement.map_triple_forms] at h
  obtain ⟨y, hy, rfl⟩ := List.mem_map.1 h
  exact Statement.copula_of_mem_forms hy

/-- The two forms of a similarity are read in either direction. -/
theorem forms_perm_of_similar_triple {st : Statement} (hc : st.copula = .similar) {x : Triple}
    (h : x ∈ st.triple.forms) : x.forms.Perm st.triple.forms := by
  rw [← Statement.map_triple_forms] at h
  obtain ⟨y, hy, rfl⟩ := List.mem_map.1 h
  have hperm := (Statement.forms_perm_of_similar hc hy).map Statement.triple
  rwa [Statement.map_triple_forms, Statement.map_triple_forms] at hperm

/-- Inheritances of unambiguous statements that share a form have the same forms. -/
theorem forms_perm_of_meet {st st' : Statement} (hc : st.copula = .inherit)
    (hc' : st'.copula = .inherit)
    (hstar : ∀ side r a, st.Relates side r placeholder a → ¬ st'.Relates side r a placeholder)
    (hstar' : ∀ side r a, st'.Relates side r placeholder a → ¬ st.Relates side r a placeholder)
    {x : Triple} (hx : x ∈ st.triple.forms) (hx' : x ∈ st'.triple.forms) :
    st.triple.forms.Perm st'.triple.forms := by
  -- a form of a relation is not the only form of a statement
  have hlone : ∀ {s s' : Statement} {side r a b}, s.triple.forms = [s.triple] →
      s'.triple.forms.Perm (relationForms side r a b) → x ∈ s.triple.forms →
      x ∈ s'.triple.forms → False := by
    intro s s' side r a b hs hs' hxs hxs'
    have hlen := length_forms_of_mem_relationForms (hs'.mem_iff.1 hxs')
    rw [hs, List.mem_singleton] at hxs
    rw [hxs, hs] at hlen
    cases hlen
  rcases relates_cases hc with ⟨hone, -⟩ | ⟨side, r, a, b, hrel, hforms⟩ <;>
    rcases relates_cases hc' with ⟨hone', -⟩ | ⟨side', r', a', b', hrel', hforms'⟩
  · rw [hone, List.mem_singleton] at hx
    rw [hone', List.mem_singleton] at hx'
    rw [← hx, ← hx']
  · exact (hlone hone hforms' hx hx').elim
  · exact (hlone hone' hforms hx' hx).elim
  · rcases relationForms_meet (hforms.mem_iff.1 hx) (hforms'.mem_iff.1 hx') with
      ⟨rfl, rfl, rfl, rfl⟩ | ⟨rfl, rfl, rfl, rfl, ha | hb⟩
    · exact hforms.trans hforms'.symm
    · subst ha
      exact (hstar _ _ _ hrel hrel').elim
    · subst hb
      exact (hstar' _ _ _ hrel' hrel).elim

theorem separated_of_unambiguous {sts : List Statement} (h : Unambiguous sts) :
    Separated (fun st : Statement => st.triple.forms) (accepted sts) where
  nodup st hst := by
    cases hc : st.copula with
    | similar =>
        have hne : st.triple ≠ st.opposite.triple := fun heq =>
          h.similar st hst hc (congrArg Prod.fst heq)
        rw [← Statement.map_triple_forms, Statement.forms_of_similar hc]
        simpa using hne
    | inherit =>
        rcases relates_cases hc with ⟨hone, -⟩ | ⟨side, r, a, b, hrel, hforms⟩
        · rw [hone]
          exact List.nodup_singleton _
        · rw [hforms.nodup_iff, relationForms_nodup_iff]
          rintro ⟨rfl, rfl⟩
          exact h.starred st hst st hst side r _ hrel hrel
  same st hst st' hst' x hx hx' := by
    have hcopula : st.copula = st'.copula := by
      rw [← copula_of_triple_mem_forms hx, ← copula_of_triple_mem_forms hx']
    cases hc : st.copula with
    | similar =>
        exact (forms_perm_of_similar_triple hc hx).symm.trans
          (forms_perm_of_similar_triple (hcopula ▸ hc) hx')
    | inherit =>
        exact forms_perm_of_meet hc (hcopula ▸ hc) (h.starred st hst st' hst')
          (h.starred st' hst' st hst) hx hx'

theorem unambiguous_of_separated {sts : List Statement}
    (h : Separated (fun st : Statement => st.triple.forms) (accepted sts)) : Unambiguous sts where
  similar st hst hc heq := by
    have hnodup := h.nodup st hst
    have hself : st.triple.SelfSimilar := ⟨hc, heq⟩
    rw [Triple.forms_of_selfSimilar hself] at hnodup
    simp at hnodup
  starred st hst st' hst' side r a hrel hrel' := by
    obtain ⟨-, hforms⟩ := hrel.forms
    obtain ⟨-, hforms'⟩ := hrel'.forms
    -- the second image of the one relation is the first image of the other
    have hmeet : (⟨side, r, placeholder, a, default⟩ : ImageFamily).second.triple =
        (⟨side, r, a, placeholder, default⟩ : ImageFamily).first.triple := by
      cases side <;> rfl
    have hx : (⟨side, r, placeholder, a, default⟩ : ImageFamily).second.triple ∈ st.triple.forms :=
      hforms.mem_iff.2 (List.mem_map_of_mem (by simp [ImageFamily.forms]))
    have hx' : (⟨side, r, placeholder, a, default⟩ : ImageFamily).second.triple ∈
        st'.triple.forms := by
      rw [hmeet]
      exact hforms'.mem_iff.2 (List.mem_map_of_mem (by simp [ImageFamily.forms]))
    have hperm := h.same st hst st' hst' _ hx hx'
    have hpacked : (⟨side, r, placeholder, a, default⟩ : ImageFamily).packed.triple ∈
        relationForms side r a placeholder :=
      hforms'.mem_iff.1 (hperm.mem_iff.1 (hforms.mem_iff.2
        (List.mem_map_of_mem (by simp [ImageFamily.forms]))))
    -- the relations share an image, hence the product too, which leaves `*` with itself
    have ha : a = placeholder := by
      cases side <;>
        simp only [relationForms, ImageFamily.forms, ImageFamily.packed, ImageFamily.first,
          ImageFamily.second, Statement.triple, List.map_cons, List.map_nil, List.mem_cons,
          Prod.mk.injEq, Term.compound.injEq, List.cons.injEq, reduceCtorEq, List.not_mem_nil,
          and_false, or_false, true_and, and_true] at hpacked
      · exact hpacked.2
      · exact hpacked.2
    subst ha
    have hnodup := hforms.nodup_iff.1 (h.nodup st hst)
    rw [relationForms_nodup_iff] at hnodup
    exact hnodup ⟨rfl, rfl⟩

/-- The edges stay unique during a run exactly when its statements are unambiguous. -/
theorem keepsEdgesUnique_iff (sts : List Statement) :
    KeepsEdgesUnique sts ↔ Unambiguous sts := by
  rw [keepsEdgesUnique_iff_exact, exact_iff_separated]
  · exact ⟨unambiguous_of_separated, separated_of_unambiguous⟩
  · exact fun st => st.triple.mem_forms_self
  · intro st
    obtain ⟨k, hk, hdet⟩ := st.triple.exists_key
    exact ⟨k, hk, fun st' hst' => hdet st'.triple hst'⟩

/-- `a ~ a (1.0,0.9)` is parsed and accepted, and leaves two edges for one triple. -/
theorem not_keepsEdgesUnique_selfSimilar :
    ¬ ∀ sts : List Statement, (∀ st ∈ sts, ∃ input, StatementParser.parse input = some st) →
      KeepsEdgesUnique sts := by
  intro h
  have hparse : StatementParser.parse "a ~ a (1.0,0.9)" =
      some ⟨.atomic (atom "a"), .similar, .atomic (atom "a"), ⟨.val 1, .val (9 / 10)⟩⟩ := by
    decide +kernel
  have hkeeps := h [⟨.atomic (atom "a"), .similar, .atomic (atom "a"), ⟨.val 1, .val (9 / 10)⟩⟩]
    (by
      intro st hst
      rw [List.mem_singleton] at hst
      exact ⟨_, hst ▸ hparse⟩)
  have hunique := (hkeeps _ (List.prefix_refl _)).edges
    (.atomic (atom "a"), .similar, .atomic (atom "a"))
  revert hunique
  decide +kernel

end Siebog.DNars
