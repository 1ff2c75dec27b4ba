import Siebog.DNars.Graph.Forms

/-!
# The graph is closed under equivalent forms

`FormClosed` is the invariant of additions in which `*` has only its place in an image: the edges
for a triple carry the same truth values as the edges for each of its forms. A revision then finds
exactly one edge for every form it has to update, so it is never interrupted.
-/

set_option autoImplicit false

namespace Siebog.DNars

open StatementAPI

/-- Equivalent triples carry the same truth values, and only `a ~ a` can have several edges. -/
structure FormClosed (g : DNarsGraph) : Prop where
  closed : g.Closed
  proper : ∀ x, truthsAt g x ≠ [] → x.PlaceholderOnly
  agree : ∀ x y : Triple, x.PlaceholderOnly → y ∈ x.forms → truthsAt g y = truthsAt g x
  single : ∀ x : Triple, ¬ x.SelfSimilar → (truthsAt g x).length ≤ 1

namespace FormClosed

variable {g : DNarsGraph} {st : Statement}

theorem empty : FormClosed Lib.Multigraph.empty where
  closed := Lib.Multigraph.closed_empty
  proper x hx := (hx (truthsAt_empty x)).elim
  agree x y _ _ := by rw [truthsAt_empty, truthsAt_empty]
  single x _ := by rw [truthsAt_empty]; exact Nat.zero_le 1

/-- Every form of a known statement has as many edges as the statement. -/
theorem length_truthsAt_forms (h : FormClosed g) (hst : st.PlaceholderOnly) {u : Truth}
    (hu : truthsAt g st.triple = [u]) : ∀ x ∈ st.forms, (truthsAt g x.triple).length = 1 := by
  intro x hx
  rw [h.agree st.triple x.triple hst (Statement.triple_mem_forms hx), hu]
  rfl

theorem insertForms (h : FormClosed g) (hst : st.PlaceholderOnly)
    (hnew : truthsAt g st.triple = []) : FormClosed (insertAll g st.forms) where
  closed := closed_insertAll h.closed _
  proper x hx := by
    rw [truthsAt_insertForms] at hx
    by_cases hmem : x ∈ st.triple.forms
    · exact Triple.placeholderOnly_of_mem_forms (x := st.triple) hst hmem
    · apply h.proper x
      rwa [List.count_eq_zero_of_not_mem hmem, List.replicate_zero, List.append_nil] at hx
  agree x y hx hy := by
    rw [truthsAt_insertForms, truthsAt_insertForms, h.agree x y hx hy,
      Triple.count_forms hx hy (z := st.triple) hst]
  single x hself := by
    rw [truthsAt_insertForms, List.length_append, List.length_replicate]
    by_cases hmem : x ∈ st.triple.forms
    · have hx : x.PlaceholderOnly := Triple.placeholderOnly_of_mem_forms (x := st.triple) hst hmem
      have hnodup : st.triple.forms.Nodup :=
        (Triple.forms_perm (x := st.triple) hst hmem).nodup_iff.1 (Triple.nodup_forms hx hself)
      have hold : truthsAt g x = [] := by
        rw [h.agree st.triple x hst hmem, hnew]
      rw [hold, List.count_eq_one_of_mem hnodup hmem]
      exact Nat.le_refl 1
    · rw [List.count_eq_zero_of_not_mem hmem]
      exact h.single x hself

theorem storeForms (h : FormClosed g) (hst : st.PlaceholderOnly) (t : Truth) :
    FormClosed (storeAll t g (st.forms.map (·.triple))) where
  closed := closed_storeAll h.closed _ _
  proper x hx := by
    rw [truthsAt_storeForms] at hx
    apply h.proper x
    intro hnil
    rw [hnil] at hx
    split at hx <;> exact hx rfl
  agree x y hx hy := by
    have hiff : y ∈ st.triple.forms ↔ x ∈ st.triple.forms := by
      rw [← List.count_pos_iff, ← List.count_pos_iff, Triple.count_forms hx hy (z := st.triple) hst]
    rw [truthsAt_storeForms, truthsAt_storeForms, h.agree x y hx hy]
    simp only [hiff]
  single x hself := by
    rw [truthsAt_storeForms]
    split
    · rw [List.length_map]
      exact h.single x hself
    · exact h.single x hself

/-- With the invariant an addition keeps it, and its only exception is the one for several edges. -/
theorem add (h : FormClosed g) (hst : st.PlaceholderOnly) :
    FormClosed (addStep g st) ∧
      ∀ e g', (StatementAPI.add st).run g = .error e g' → e = .multipleEdges st := by
  have hadd := add_cases h.closed st
  rw [addStep, stateAfter]
  generalize (StatementAPI.add st).run g = result at hadd ⊢
  cases hadd with
  | invalid =>
      exact ⟨h, by rintro e g' ⟨⟩⟩
  | inserted _ hnew =>
      exact ⟨h.insertForms hst hnew, by rintro e g' ⟨⟩⟩
  | revised u _ _ _ =>
      exact ⟨h.storeForms hst _, by rintro e g' ⟨⟩⟩
  | interrupted u e done _ hu hbad _ _ =>
      -- the other forms have one edge each, as the statement itself
      obtain ⟨x, hx, hlen⟩ := hbad
      exact absurd (h.length_truthsAt_forms hst hu x hx) hlen
  | ambiguous _ _ =>
      refine ⟨h, ?_⟩
      rintro e g' ⟨⟩
      rfl

end FormClosed

theorem formClosed_of_reachable {g : DNarsGraph}
    (h : Reachable Statement.PlaceholderOnly g) : FormClosed g :=
  h.invariant FormClosed.empty fun _ _ hg hst => (hg.add hst).1

/-- The graph holds every form of a statement it holds, with the same truth value. -/
theorem FormClosed.mem_statements_of_mem_forms {g : DNarsGraph} (hg : FormClosed g)
    {st x : Statement} (hst : st ∈ statements g) (hx : x ∈ st.forms) : x ∈ statements g := by
  rw [mem_statements] at hst ⊢
  have hproper : st.triple.PlaceholderOnly := hg.proper _ (List.ne_nil_of_mem hst)
  rw [hg.agree st.triple x.triple hproper (Statement.triple_mem_forms hx),
    Statement.truth_of_mem_forms hx]
  exact hst

/-- In a reachable graph every form of an edge is an edge with the same truth value, and no
revision misses an edge. -/
theorem forms_mem_of_reachable {g : DNarsGraph} (h : Reachable Statement.PlaceholderOnly g) :
    (∀ st ∈ statements g,
      (st.copula = .inherit → ∀ x ∈ st.allImages, x ∈ statements g) ∧
        (st.copula = .similar → st.opposite ∈ statements g)) ∧
    ∀ st, st.PlaceholderOnly → ∀ missing g',
      (StatementAPI.add st).run g ≠ .error (.noEdge missing) g' := by
  have hg := formClosed_of_reachable h
  constructor
  · intro st hst
    constructor
    · intro hc x hx
      apply hg.mem_statements_of_mem_forms hst
      rwa [Statement.forms_of_inherit hc]
    · intro hc
      apply hg.mem_statements_of_mem_forms hst
      rw [Statement.forms_of_similar hc]
      exact List.mem_cons_of_mem _ List.mem_cons_self
  · intro st hst missing g' hrun
    cases (hg.add hst).2 _ _ hrun

/-- `(x cat bird) -> eat (1.00,0.90)` -/
def catBird : Statement :=
  ⟨.compound .product [atom "cat", atom "bird"], .inherit, .atomic (atom "eat"),
    ⟨.val 1, .val (9 / 10)⟩⟩

theorem image_mem_catBird :
    (⟨.atomic (atom "cat"), .inherit,
      .compound .extImage [atom "eat", AtomicTerm.placeholder, atom "bird"],
      ⟨.val 1, .val (9 / 10)⟩⟩ : Statement) ∈
        statements (addStep Lib.Multigraph.empty catBird) :=
  ((forms_mem_of_reachable (.step .init (by decide))).1 catBird (by decide +kernel)).1 rfl _
    (by decide +kernel)

end Siebog.DNars
