import Siebog.Lib.Ledger
import Siebog.Lib.Traverse
import Siebog.DNars.Base.Evidence
import Siebog.DNars.Graph.Closure

/-!
# The graph as a knowledge base

Abstractly a knowledge base maps every triple to the evidence it was given: the sum over the added
statements that have the triple among their forms (`knowledge`). `Holds g sts` says that the graph
`g` is such a knowledge base for the statements `sts`, with a vertex for each of their terms.
`StatementAPI.add` keeps the relation (`Holds.add`), so a graph depends neither on the order of the
additions nor on the form in which a statement is written (`addSeq_rearranged`).
-/

set_option autoImplicit false

namespace Siebog.DNars

open Siebog.Lib StatementAPI

/-- A valid statement with a proper truth value and placeholders, and no `a ~ a`. -/
structure Admissible (st : Statement) : Prop where
  valid : validStatement st = true
  proper : st.PlaceholderOnly
  distinct : st.copula = .similar → st.subj ≠ st.pred
  truth : st.truth.Within (Set.Ioo 0 1)

/-- The evidence that a list of statements gives for a triple. -/
def knowledge (sts : List Statement) (x : Triple) : Evidence :=
  balance (fun st => st.triple.forms) (fun st => st.truth.evidence) sts x

/-- The vertex stands for a term of some form of one of the statements. -/
def Mentioned (sts : List Statement) (v : DNarsVertex) : Prop :=
  ∃ st ∈ sts, ∃ x ∈ st.forms, v = .ofTerm x.subj ∨ v = .ofTerm x.pred

/-- The graph holds the evidence of the statements `sts`, and nothing else. -/
structure Holds (g : DNarsGraph) (sts : List Statement) : Prop where
  closed : g.Closed
  nodup : g.vertices.Nodup
  vertices : ∀ v, v ∈ g.vertices ↔ Mentioned sts v
  truths : ∀ x, truthsAt g x = (knowledge sts x).truths

section Knowledge

variable {sts : List Statement} (hsts : ∀ st ∈ sts, Admissible st)

include hsts

/-- A triple has no evidence, or a positive weight of it. -/
theorem knowledge_cases (x : Triple) :
    knowledge sts x = 0 ∨ 0 < (knowledge sts x).2 := by
  have hcases : (∀ st ∈ sts, x ∉ st.triple.forms) ∨ 0 < (knowledge sts x).2 :=
    balance_induction (P := fun e : Evidence => 0 < e.2) (fun e e' he he' => add_pos he he')
      fun st hst => Truth.evidence_pos (hsts st hst).truth
  rcases hcases with hnone | hpos
  · exact Or.inl (balance_eq_zero hnone)
  · exact Or.inr hpos

theorem knowledge_eq_zero {x : Triple} (h : (knowledge sts x).truths = []) :
    knowledge sts x = 0 := by
  rcases knowledge_cases hsts x with hzero | hpos
  · exact hzero
  · rw [Evidence.truths_of_pos hpos] at h
    cases h

theorem knowledge_pos {x : Triple} {u : Truth} (h : (knowledge sts x).truths = [u]) :
    0 < (knowledge sts x).2 := by
  rcases knowledge_cases hsts x with hzero | hpos
  · rw [hzero, Evidence.truths_zero] at h
    cases h
  · exact hpos

theorem length_truths_knowledge (x : Triple) : (knowledge sts x).truths.length ≤ 1 := by
  rcases knowledge_cases hsts x with hzero | hpos
  · rw [hzero, Evidence.truths_zero]
    exact Nat.zero_le 1
  · rw [Evidence.truths_of_pos hpos]
    exact Nat.le_refl 1

/-- Equivalent triples have the same evidence. -/
theorem knowledge_forms {x y : Triple} (hx : x.PlaceholderOnly) (hy : y ∈ x.forms) :
    knowledge sts y = knowledge sts x := by
  apply balance_eq_of_iff
  intro st hst
  rw [← List.count_pos_iff, ← List.count_pos_iff,
    Triple.count_forms hx hy (z := st.triple) (hsts st hst).proper]

end Knowledge

theorem knowledge_snoc (sts : List Statement) (st : Statement) (x : Triple) :
    knowledge (sts ++ [st]) x =
      knowledge sts x + if x ∈ st.triple.forms then st.truth.evidence else 0 :=
  balance_snoc _ _ _

theorem mentioned_cons {sts : List Statement} {st : Statement} {v : DNarsVertex} :
    Mentioned (st :: sts) v ↔
      (∃ x ∈ st.forms, v = .ofTerm x.subj ∨ v = .ofTerm x.pred) ∨ Mentioned sts v := by
  simp only [Mentioned, List.mem_cons, exists_eq_or_imp]

theorem mentioned_snoc {sts : List Statement} {st : Statement} {v : DNarsVertex} :
    Mentioned (sts ++ [st]) v ↔
      Mentioned sts v ∨ ∃ x ∈ st.forms, v = .ofTerm x.subj ∨ v = .ofTerm x.pred := by
  induction sts with
  | nil => rw [List.nil_append, mentioned_cons, or_comm]
  | cons st' sts ih => rw [List.cons_append, mentioned_cons, ih, mentioned_cons, or_assoc]

namespace Holds

theorem empty : Holds Multigraph.empty [] where
  closed := Multigraph.closed_empty
  nodup := List.nodup_nil
  vertices v := by
    constructor
    · intro hv
      cases hv
    · rintro ⟨st, hst, -⟩
      cases hst
  truths x := by
    rw [truthsAt_empty]
    exact Evidence.truths_zero.symm

variable {g : DNarsGraph} {sts : List Statement} {st : Statement}

/-- The graph knows as much about a form of a statement as about the statement itself. -/
theorem truthsAt_form (h : Holds g sts) (hsts : ∀ x ∈ sts, Admissible x) (hst : Admissible st)
    {x : Triple} (hx : x ∈ st.triple.forms) : truthsAt g x = truthsAt g st.triple := by
  rw [h.truths, knowledge_forms hsts (x := st.triple) hst.proper hx, ← h.truths]

/-- A statement without evidence inserts its evidence under each form. -/
theorem insertForms (h : Holds g sts) (hsts : ∀ x ∈ sts, Admissible x) (hst : Admissible st)
    (hnew : truthsAt g st.triple = []) : Holds (insertAll g st.forms) (sts ++ [st]) where
  closed := closed_insertAll h.closed _
  nodup := nodup_vertices_insertAll h.nodup _
  vertices v := by rw [mem_vertices_insertAll, h.vertices, mentioned_snoc]
  truths x := by
    rw [truthsAt_insertForms, knowledge_snoc]
    by_cases hmem : x ∈ st.triple.forms
    · -- a form of a new statement is new itself
      have hzero : knowledge sts x = 0 := by
        apply knowledge_eq_zero hsts
        rw [← h.truths, h.truthsAt_form hsts hst hmem, hnew]
      have hself : ¬ st.triple.SelfSimilar := fun hs => hst.distinct hs.1 hs.2
      have hnodup := Triple.nodup_forms (x := st.triple) hst.proper hself
      rw [h.truths, hzero, Evidence.truths_zero, if_pos hmem, zero_add,
        Truth.truths_evidence hst.truth, List.count_eq_one_of_mem hnodup hmem]
      rfl
    · rw [if_neg hmem, add_zero, List.count_eq_zero_of_not_mem hmem, h.truths]
      exact List.append_nil _

/-- A statement with evidence adds its evidence under each form. -/
theorem storeForms (h : Holds g sts) (hsts : ∀ x ∈ sts, Admissible x) (hst : Admissible st)
    {u : Truth} (hu : truthsAt g st.triple = [u]) :
    Holds (storeAll (u.revision st.truth) g (st.forms.map (·.triple))) (sts ++ [st]) where
  closed := closed_storeAll h.closed _ _
  nodup := by
    rw [vertices_storeAll]
    exact h.nodup
  vertices v := by
    rw [vertices_storeAll, h.vertices, mentioned_snoc]
    refine ⟨Or.inl, ?_⟩
    rintro (hv | ⟨x, hx, hv⟩)
    · exact hv
    · -- the forms of a known statement have their vertices
      have hxu : truthsAt g x.triple = [u] := by
        rw [h.truthsAt_form hsts hst (Statement.triple_mem_forms hx), hu]
      have hends := endpoints_of_truthsAt h.closed (x := x.triple) (by rw [hxu]; simp)
      rw [← h.vertices]
      rcases hv with rfl | rfl
      · exact hends.1
      · exact hends.2
  truths x := by
    rw [truthsAt_storeForms, knowledge_snoc]
    -- at the forms the truth is revised, and the evidence added up; elsewhere both stay
    by_cases hmem : x ∈ st.triple.forms
    · have hxu : (knowledge sts x).truths = [u] := by
        rw [← h.truths, h.truthsAt_form hsts hst hmem, hu]
      rw [if_pos hmem, if_pos hmem, h.truths, hxu,
        Truth.truths_add (knowledge_pos hsts hxu) hxu hst.truth]
      rfl
    · rw [if_neg hmem, if_neg hmem, add_zero, h.truths]

/-- `add` succeeds and adds the evidence of the statement. -/
theorem add (h : Holds g sts) (hsts : ∀ x ∈ sts, Admissible x) (hst : Admissible st) :
    ∃ event g', (StatementAPI.add st).run g = .ok event g' ∧ Holds g' (sts ++ [st]) := by
  have hadd := add_cases h.closed st
  generalize (StatementAPI.add st).run g = result at hadd ⊢
  cases hadd with
  | invalid hinvalid =>
      rw [hst.valid] at hinvalid
      cases hinvalid
  | inserted _ hnew => exact ⟨_, _, rfl, h.insertForms hsts hst hnew⟩
  | revised u _ hu _ => exact ⟨_, _, rfl, h.storeForms hsts hst hu⟩
  | interrupted u e done _ hu hbad _ _ =>
      obtain ⟨x, hx, hlen⟩ := hbad
      -- all forms carry the evidence of the statement, so none stops the revision
      have hxu : truthsAt g x.triple = [u] := by
        rw [h.truthsAt_form hsts hst (Statement.triple_mem_forms hx), hu]
      rw [hxu] at hlen
      exact (hlen rfl).elim
  | ambiguous _ htwo =>
      have hone := length_truths_knowledge hsts st.triple
      rw [← h.truths] at hone
      omega

theorem addSeq (h : Holds g sts) (hsts : ∀ x ∈ sts, Admissible x) {added : List Statement}
    (hadded : ∀ x ∈ added, Admissible x) :
    ∃ g', (StatementAPI.addSeq added).run g = .ok () g' ∧ Holds g' (sts ++ added) := by
  induction added generalizing g sts with
  | nil =>
      refine ⟨g, rfl, ?_⟩
      rwa [List.append_nil]
  | cons st added ih =>
      have hst : Admissible st := hadded st List.mem_cons_self
      obtain ⟨event, g', hrun, h'⟩ := h.add hsts hst
      have hsts' : ∀ x ∈ sts ++ [st], Admissible x := by
        intro x hx
        rcases List.mem_append.1 hx with hx | hx
        · exact hsts x hx
        · rwa [List.mem_singleton.1 hx]
      obtain ⟨g'', hrest, h''⟩ := ih h' hsts' fun x hx => hadded x (List.mem_cons_of_mem _ hx)
      refine ⟨g'', ?_, by rwa [List.append_assoc] at h''⟩
      rw [addSeq_cons, bind_ok (discard_ok hrun), hrest]

end Holds

/-! ## Independence of order and form -/

/-- `sts'` is a permutation of `sts` in which statements may be replaced by other forms. -/
def Rearranged (sts sts' : List Statement) : Prop :=
  ∃ perm, sts.Perm perm ∧ List.Forall₂ (fun st st' => st' ∈ st.forms) perm sts'

section Rearranged

variable {sts sts' : List Statement}

/-- An admissible statement stays admissible in every form that is valid. -/
theorem Admissible.form {st st' : Statement} (h : Admissible st) (hform : st' ∈ st.forms)
    (hvalid : validStatement st' = true) : Admissible st' where
  valid := hvalid
  proper := Statement.placeholderOnly_of_mem_forms h.proper hform
  distinct hc' := by
    have hc : st.copula = .similar := by rw [← Statement.copula_of_mem_forms hform, hc']
    rw [Statement.forms_of_similar hc, List.mem_pair] at hform
    rcases hform with rfl | rfl
    · exact h.distinct hc
    · exact (h.distinct hc).symm
  truth := by
    rw [Statement.truth_of_mem_forms hform]
    exact h.truth

theorem Rearranged.exists_form (h : Rearranged sts sts') {st' : Statement} (hst' : st' ∈ sts') :
    ∃ st ∈ sts, st' ∈ st.forms := by
  obtain ⟨perm, hperm, hforms⟩ := h
  obtain ⟨st, hst, hform⟩ := exists_of_forall₂ hforms hst'
  exact ⟨st, hperm.mem_iff.2 hst, hform⟩

theorem Rearranged.admissible (h : Rearranged sts sts') (hsts : ∀ st ∈ sts, Admissible st)
    (hvalid : ∀ st ∈ sts', validStatement st = true) : ∀ st ∈ sts', Admissible st := by
  intro st' hst'
  obtain ⟨st, hst, hform⟩ := h.exists_form hst'
  exact (hsts st hst).form hform (hvalid st' hst')

/-- Rearranged statements give the same evidence. -/
theorem Rearranged.knowledge_eq (h : Rearranged sts sts') (hsts : ∀ st ∈ sts, Admissible st)
    (x : Triple) : knowledge sts x = knowledge sts' x := by
  obtain ⟨perm, hperm, hforms⟩ := h
  have hmem : ∀ st ∈ perm, Admissible st := fun st hst => hsts st (hperm.mem_iff.2 hst)
  have horder : knowledge sts x = knowledge perm x := balance_perm hperm x
  rw [horder]
  clear horder hperm hsts
  -- entry by entry, a form has the truth value and the forms of what it replaces
  apply balance_forall₂
  induction hforms with
  | nil => exact .nil
  | @cons st st' perm sts' hform _ ih =>
      refine .cons ⟨?_, ?_⟩ (ih fun y hy => hmem y (List.mem_cons_of_mem _ hy))
      · rw [Statement.truth_of_mem_forms hform]
      · have hproper : st.triple.PlaceholderOnly := (hmem st List.mem_cons_self).proper
        exact (Triple.forms_perm hproper (Statement.triple_mem_forms hform)).symm.mem_iff

/-- Rearranged statements mention the same terms. -/
theorem Rearranged.mentioned_iff (h : Rearranged sts sts') (hsts : ∀ st ∈ sts, Admissible st)
    (v : DNarsVertex) : Mentioned sts v ↔ Mentioned sts' v := by
  obtain ⟨perm, hperm, hforms⟩ := h
  have hmem : ∀ st ∈ perm, Admissible st := fun st hst => hsts st (hperm.mem_iff.2 hst)
  have horder : Mentioned sts v ↔ Mentioned perm v := by simp only [Mentioned, hperm.mem_iff]
  rw [horder]
  clear horder hperm hsts
  induction hforms with
  | nil => exact Iff.rfl
  | @cons st st' perm sts' hform _ ih =>
      have hst : Admissible st := hmem st List.mem_cons_self
      have hsame : st'.forms.Perm st.forms := Statement.forms_perm hst.proper hform
      have hrest : Mentioned perm v ↔ Mentioned sts' v :=
        ih fun y hy => hmem y (List.mem_cons_of_mem _ hy)
      rw [mentioned_cons, mentioned_cons, hrest]
      simp only [hsame.mem_iff]

end Rearranged

/-- Graphs that hold the same evidence and mention the same terms are the same. -/
theorem Holds.perm {g g' : DNarsGraph} {sts sts' : List Statement} (h : Holds g sts)
    (h' : Holds g' sts') (hknow : ∀ x, knowledge sts x = knowledge sts' x)
    (hterms : ∀ v, Mentioned sts v ↔ Mentioned sts' v) :
    g.vertices.Perm g'.vertices ∧ g.edges.Perm g'.edges := by
  constructor
  · apply (List.perm_ext_iff_of_nodup h.nodup h'.nodup).2
    intro v
    rw [h.vertices, h'.vertices, hterms]
  · apply Multigraph.edges_perm_of_weightsAt
    rintro ⟨u, c, v⟩
    have hkey : ((u, c, v) : DNarsVertex × Copula × DNarsVertex) =
        Triple.key (u.term, c, v.term) := by
      simp [Triple.key]
    have hsame : truthsAt g (u.term, c, v.term) = truthsAt g' (u.term, c, v.term) := by
      rw [h.truths, h'.truths, hknow]
    rw [truthsAt, truthsAt, ← hkey] at hsame
    rw [hsame]

/-- Neither the order of the additions nor the form of a statement makes a difference to the
graph. -/
theorem addSeq_rearranged {sts sts' : List Statement} (hsts : ∀ st ∈ sts, Admissible st)
    (hvalid : ∀ st ∈ sts', validStatement st = true) (h : Rearranged sts sts') :
    ∃ g g', (addSeq sts).run Multigraph.empty = .ok () g ∧
      (addSeq sts').run Multigraph.empty = .ok () g' ∧
      g.vertices.Perm g'.vertices ∧ g.edges.Perm g'.edges := by
  obtain ⟨g, hrun, hg⟩ := Holds.empty.addSeq (fun _ hx => (List.not_mem_nil hx).elim) hsts
  obtain ⟨g', hrun', hg'⟩ := Holds.empty.addSeq (fun _ hx => (List.not_mem_nil hx).elim)
    (h.admissible hsts hvalid)
  exact ⟨g, g', hrun, hrun', hg.perm hg' (h.knowledge_eq hsts) (h.mentioned_iff hsts)⟩

/-- `cat -> (/ eat * bird) (0.00,0.50)` -/
def catNotBird : Statement :=
  ⟨.atomic (atom "cat"), .inherit,
    .compound .extImage [atom "eat", AtomicTerm.placeholder, atom "bird"], ⟨.val 0, .val (1 / 2)⟩⟩

theorem admissible_catBird (t : Truth) (ht : t.Within (Set.Ioo 0 1)) :
    Admissible (catBird.withTruth t) where
  valid := rfl
  proper := by
    show catBird.PlaceholderOnly
    decide
  distinct h := by cases h
  truth := ht

theorem addSeq_catBird : ∃ g g',
    (addSeq [catBird, catBird.withTruth ⟨.val 0, .val (1 / 2)⟩]).run Multigraph.empty =
        .ok () g ∧
      (addSeq [catNotBird, catBird]).run Multigraph.empty = .ok () g' ∧
      g.vertices.Perm g'.vertices ∧ g.edges.Perm g'.edges := by
  apply addSeq_rearranged
  · intro st hst
    rcases List.mem_pair.1 hst with rfl | rfl
    · exact admissible_catBird ⟨.val 1, .val (9 / 10)⟩ (by norm_num)
    · exact admissible_catBird _ (by norm_num)
  · intro st hst
    rcases List.mem_pair.1 hst with rfl | rfl <;> rfl
  · refine ⟨_, List.Perm.swap _ _ _, .cons ?_ (.cons (Statement.mem_forms_self _) .nil)⟩
    decide +kernel

end Siebog.DNars
