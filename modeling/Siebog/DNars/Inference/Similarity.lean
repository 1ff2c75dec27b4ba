import Siebog.DNars.Inference.Table

/-!
# Similarity in the graph and in judgements

The graph keeps both directions of a similarity with one truth value (`similar_comm`), so it does
not matter in which direction the engines read a stored similarity (`conclusions_reverseSimilar`).
A similarity judgement is read in one direction only: all engines take its predicate as the middle
term (`mem_conclusions_similar`). The conclusions of `a ~ b` and of `b ~ a` therefore come from
different edges, and common ones are about `a` and `b` alone (`conclusions_similar`).
-/

set_option autoImplicit false

namespace Siebog.DNars

open Siebog.Lib StatementAPI

/-- The triple with subject and predicate exchanged. -/
def Triple.swap (x : Triple) : Triple := (x.2.2, x.2.1, x.1)

/-- Both directions of a similarity carry the same truth values. -/
structure SimilarSymmetric (g : DNarsGraph) : Prop where
  closed : g.Closed
  comm : ∀ x : Triple, x.2.1 = .similar → truthsAt g x.swap = truthsAt g x

namespace SimilarSymmetric

variable {g : DNarsGraph}

theorem empty : SimilarSymmetric Multigraph.empty where
  closed := Multigraph.closed_empty
  comm x _ := by rw [truthsAt_empty, truthsAt_empty]

theorem swap_swap (x : Triple) : x.swap.swap = x := rfl

/-- Both directions of a similarity occur equally often among the forms of a statement. -/
theorem count_swap (st : Statement) {x : Triple} (hx : x.2.1 = .similar) :
    st.triple.forms.count x.swap = st.triple.forms.count x := by
  cases hc : st.copula with
  | inherit =>
      have hnone : ∀ y : Triple, y.2.1 = .similar → y ∉ st.triple.forms := by
        intro y hy hmem
        rw [← Statement.map_triple_forms] at hmem
        obtain ⟨z, hz, rfl⟩ := List.mem_map.1 hmem
        have hzc : z.copula = .similar := hy
        rw [Statement.copula_of_mem_forms hz, hc] at hzc
        cases hzc
      rw [List.count_eq_zero_of_not_mem (hnone x hx),
        List.count_eq_zero_of_not_mem (hnone x.swap hx)]
  | similar =>
      have hforms : st.triple.forms = [st.triple, st.triple.swap] := by
        rw [← Statement.map_triple_forms, Statement.forms_of_similar hc]
        simp [Statement.opposite, Statement.triple, Triple.swap, hc]
      have hiff : ∀ y : Triple, y = x.swap ↔ y.swap = x := by
        intro y
        constructor
        · rintro rfl
          rfl
        · rintro rfl
          rfl
      rw [hforms]
      simp only [List.count_cons, List.count_nil, beq_iff_eq, hiff, swap_swap]
      omega

theorem add (h : SimilarSymmetric g) (st : Statement) : SimilarSymmetric (addStep g st) := by
  refine ⟨closed_addStep h.closed st, ?_⟩
  intro x hx
  have hmem : x.swap ∈ st.triple.forms ↔ x ∈ st.triple.forms := by
    rw [← List.count_pos_iff, ← List.count_pos_iff, count_swap st hx]
  have hadd := add_cases h.closed st
  rw [addStep, stateAfter]
  generalize (StatementAPI.add st).run g = result at hadd ⊢
  cases hadd with
  | invalid => exact h.comm x hx
  | inserted => rw [truthsAt_insertForms, truthsAt_insertForms, h.comm x hx, count_swap st hx]
  | revised =>
      rw [truthsAt_storeForms, truthsAt_storeForms, h.comm x hx]
      simp only [hmem]
  | interrupted u e done _ hu hbad hdone _ =>
      cases hc : st.copula with
      | similar =>
          -- the other direction has one edge as well, so this revision goes through
          obtain ⟨y, hy, hlen⟩ := hbad
          rw [Statement.forms_of_similar hc, List.mem_pair] at hy
          have hswap : st.opposite.triple = st.triple.swap := by
            simp [Statement.opposite, Statement.triple, Triple.swap, hc]
          rcases hy with rfl | rfl
          · rw [hu] at hlen
            exact (hlen rfl).elim
          · rw [hswap, h.comm st.triple hc, hu] at hlen
            exact (hlen rfl).elim
      | inherit =>
          have hnone : ∀ y : Triple, y.2.1 = .similar → y ∉ done := by
            intro y hy hydone
            obtain ⟨z, hz, rfl⟩ := List.mem_map.1 (hdone.subset hydone)
            have hzc : z.copula = .similar := hy
            rw [Statement.copula_of_mem_forms hz, hc] at hzc
            cases hzc
          rw [truthsAt_storeAll, truthsAt_storeAll, if_neg (hnone x hx), if_neg (hnone x.swap hx)]
          exact h.comm x hx
  | ambiguous => exact h.comm x hx

end SimilarSymmetric

theorem similarSymmetric_of_reachable {ok : Statement → Prop} {g : DNarsGraph}
    (h : Reachable ok g) : SimilarSymmetric g :=
  h.invariant SimilarSymmetric.empty fun _ st hg _ => hg.add st

/-- A reachable graph holds a similarity in both directions. -/
theorem similar_comm {ok : Statement → Prop} {g : DNarsGraph} (h : Reachable ok g) (a b : Term)
    (t : Truth) :
    (⟨a, .similar, b, t⟩ : Statement) ∈ statements g ↔ ⟨b, .similar, a, t⟩ ∈ statements g := by
  have hcomm := (similarSymmetric_of_reachable h).comm (a, .similar, b) rfl
  rw [mem_statements, mem_statements]
  show t ∈ truthsAt g (a, .similar, b) ↔ t ∈ truthsAt g (Triple.swap (a, .similar, b))
  rw [hcomm]

/-! ## Stored similarities read in the other direction -/

/-- The graph with every similarity edge turned around. -/
def reverseSimilar (g : DNarsGraph) : DNarsGraph :=
  { g with edges := g.edges.map fun e =>
      if e.label = .similar then ⟨e.inn, e.label, e.out, e.weight⟩ else e }

theorem closed_reverseSimilar {g : DNarsGraph} (hg : g.Closed) : (reverseSimilar g).Closed := by
  intro e he
  obtain ⟨e', he', rfl⟩ := List.mem_map.1 he
  split
  · exact (hg e' he').symm
  · exact hg e' he'

theorem mem_statements_reverseSimilar {ok : Statement → Prop} {g : DNarsGraph}
    (h : Reachable ok g) (st : Statement) :
    st ∈ statements (reverseSimilar g) ↔ st ∈ statements g := by
  have hrev : st ∈ statements (reverseSimilar g) ↔
      ∃ x ∈ statements g, st = if x.copula = .similar then ⟨x.pred, x.copula, x.subj, x.truth⟩
        else x := by
    simp only [statements, reverseSimilar, List.map_map, List.mem_map]
    constructor
    · rintro ⟨e, he, rfl⟩
      refine ⟨_, ⟨e, he, rfl⟩, ?_⟩
      by_cases hl : e.label = .similar <;> simp [edgeStatement, hl]
    · rintro ⟨x, ⟨e, he, rfl⟩, rfl⟩
      refine ⟨e, he, ?_⟩
      by_cases hl : e.label = .similar <;> simp [edgeStatement, hl]
  rw [hrev]
  constructor
  · rintro ⟨⟨s, c, p, t⟩, hx, rfl⟩
    cases c with
    | inherit => exact hx
    | similar => exact (similar_comm h s p t).1 hx
  · intro hst
    rcases st with ⟨s, c, p, t⟩
    cases c with
    | inherit => exact ⟨_, hst, rfl⟩
    | similar => exact ⟨_, (similar_comm h s p t).1 hst, rfl⟩

theorem conclusions_reverseSimilar {ok : Statement → Prop} {g : DNarsGraph} (h : Reachable ok g)
    (input : List Statement) (c : Statement) :
    c ∈ conclusions (reverseSimilar g) input ↔ c ∈ conclusions g input := by
  have hg := closed_of_reachable h
  rw [mem_conclusions_iff_of_closed (closed_reverseSimilar hg), mem_conclusions_iff_of_closed hg]
  simp only [mem_statements_reverseSimilar h]

/-! ## Similarity judgements -/

/-- The conclusions of a similarity judgement `a ~ b`: its predicate is the middle term. -/
theorem mem_conclusions_similar {g : DNarsGraph} (hg : g.Closed) {a b : Term} {t : Truth} {c : Statement} :
    c ∈ conclusions g [⟨a, .similar, b, t⟩] ↔
      c.subj ≠ c.pred ∧ validStatement c = true ∧
        ∃ P u, (⟨b, .inherit, P, u⟩ ∈ statements g ∧ c = ⟨a, .inherit, P, u.analogy t false⟩) ∨
          (⟨b, .similar, P, u⟩ ∈ statements g ∧ c = ⟨a, .similar, P, u.resemblance t⟩) ∨
          (⟨P, .inherit, b, u⟩ ∈ statements g ∧ c = ⟨P, .inherit, a, u.analogy t false⟩) := by
  -- a similarity is its only form, so the engines see this judgement alone
  have himages : (⟨a, .similar, b, t⟩ : Statement).allImages = [⟨a, .similar, b, t⟩] :=
    Statement.allImages_of_similar rfl
  rw [mem_conclusions_iff_of_closed hg]
  simp only [List.mem_singleton, exists_eq_left, himages]
  constructor
  · rintro ⟨e, he, hrule, hne, hvalid⟩
    refine ⟨hne, hvalid, ?_⟩
    cases hrule with
    | analogy S M P te tj => exact ⟨P, te, Or.inl ⟨he, rfl⟩⟩
    | resemblance S M P te tj => exact ⟨P, te, Or.inr (Or.inl ⟨he, rfl⟩)⟩
    | analogySubj S M P te tj => exact ⟨P, te, Or.inr (Or.inr ⟨he, rfl⟩)⟩
  · rintro ⟨hne, hvalid, P, u, ⟨he, rfl⟩ | ⟨he, rfl⟩ | ⟨he, rfl⟩⟩
    · exact ⟨_, he, .analogy _ _ _ _ _, hne, hvalid⟩
    · exact ⟨_, he, .resemblance _ _ _ _ _, hne, hvalid⟩
    · exact ⟨_, he, .analogySubj _ _ _ _ _, hne, hvalid⟩

/-- A conclusion of `a ~ b` mentions `a`. -/
theorem mentions_of_mem_conclusions {g : DNarsGraph} (hg : g.Closed) {a b : Term} {t : Truth}
    {c : Statement} (hc : c ∈ conclusions g [⟨a, .similar, b, t⟩]) : c.subj = a ∨ c.pred = a := by
  obtain ⟨-, -, P, u, ⟨-, rfl⟩ | ⟨-, rfl⟩ | ⟨-, rfl⟩⟩ := (mem_conclusions_similar hg).1 hc
  · exact Or.inl rfl
  · exact Or.inl rfl
  · exact Or.inr rfl

/-- Two statements that are the same once a similarity is identified with its other direction. -/
def SameUpToSwap (c c' : Statement) : Prop := c' = c ∨ (c.copula = .similar ∧ c' = c.opposite)

/-- Similarity is symmetric on the side of the graph. A similarity judgement `a ~ b` is read with
`b` as the middle term, and it shares with `b ~ a` only conclusions between `a` and `b`. -/
theorem conclusions_similar {g : DNarsGraph} (h : Reachable (fun _ => True) g) :
    (∀ a b t, (⟨a, .similar, b, t⟩ : Statement) ∈ statements g ↔
      ⟨b, .similar, a, t⟩ ∈ statements g) ∧
    (∀ input c, c ∈ conclusions (reverseSimilar g) input ↔ c ∈ conclusions g input) ∧
    ∀ (a b : Term) (t : Truth), a ≠ b →
      (∀ c, c ∈ conclusions g [⟨a, .similar, b, t⟩] ↔
        c.subj ≠ c.pred ∧ validStatement c = true ∧ ∃ P u,
          (⟨b, .inherit, P, u⟩ ∈ statements g ∧ c = ⟨a, .inherit, P, u.analogy t false⟩) ∨
          (⟨b, .similar, P, u⟩ ∈ statements g ∧ c = ⟨a, .similar, P, u.resemblance t⟩) ∨
          (⟨P, .inherit, b, u⟩ ∈ statements g ∧ c = ⟨P, .inherit, a, u.analogy t false⟩)) ∧
      ∀ c ∈ conclusions g [⟨a, .similar, b, t⟩], ∀ c' ∈ conclusions g [⟨b, .similar, a, t⟩],
        SameUpToSwap c c' → (c.subj = a ∧ c.pred = b) ∨ (c.subj = b ∧ c.pred = a) := by
  have hg := closed_of_reachable h
  refine ⟨similar_comm h, conclusions_reverseSimilar h, ?_⟩
  intro a b t hab
  refine ⟨fun c => mem_conclusions_similar hg, ?_⟩
  intro c hc c' hc' hsame
  have ha : c.subj = a ∨ c.pred = a := mentions_of_mem_conclusions hg hc
  -- identifying a similarity with its other direction exchanges the two terms
  have hb : c.subj = b ∨ c.pred = b := by
    rcases hsame with rfl | ⟨-, rfl⟩
    · exact mentions_of_mem_conclusions hg hc'
    · exact (mentions_of_mem_conclusions hg hc').symm
  rcases ha with ha | ha <;> rcases hb with hb | hb
  · exact absurd (ha.symm.trans hb) hab
  · exact Or.inl ⟨ha, hb⟩
  · exact Or.inr ⟨hb, ha⟩
  · exact absurd (ha.symm.trans hb) hab

/-- `cat -> animal (1.00,0.90)` -/
def catAnimal : Statement :=
  ⟨.atomic (atom "cat"), .inherit, .atomic (atom "animal"), ⟨.val 1, .val (9 / 10)⟩⟩

/-- Two directions of a judgement can have different conclusions: in the graph of `cat -> animal`,
`feline ~ cat` yields `feline -> animal` and `cat ~ feline` yields nothing. -/
theorem not_symmetric_catAnimal :
    ¬ ∀ g, Reachable (fun _ => True) g → ∀ (a b : Term) (t : Truth), a ≠ b →
      (∀ c ∈ conclusions g [⟨a, .similar, b, t⟩],
        ∃ c' ∈ conclusions g [⟨b, .similar, a, t⟩], SameUpToSwap c c') ∧
      ∀ c ∈ conclusions g [⟨b, .similar, a, t⟩],
        ∃ c' ∈ conclusions g [⟨a, .similar, b, t⟩], SameUpToSwap c c' := by
  intro h
  have hboth := h _ (.step .init (a := catAnimal) trivial) (.atomic (atom "feline"))
    (.atomic (atom "cat")) ⟨.val 1, .val (9 / 10)⟩ (by decide)
  have hnone : conclusions (addStep Multigraph.empty catAnimal)
      [⟨.atomic (atom "cat"), .similar, .atomic (atom "feline"), ⟨.val 1, .val (9 / 10)⟩⟩] = [] := by
    decide +kernel
  obtain ⟨c', hc', -⟩ := hboth.1
    ⟨.atomic (atom "feline"), .inherit, .atomic (atom "animal"), ⟨.val 1, .val (81 / 100)⟩⟩
    (by decide +kernel)
  rw [hnone] at hc'
  cases hc'

/-- In the graph of `cat -> animal`, the judgement `feline ~ cat` yields `feline -> animal`. -/
theorem conclusions_similar_catAnimal :
    (⟨.atomic (atom "feline"), .inherit, .atomic (atom "animal"), ⟨.val 1, .val (81 / 100)⟩⟩ :
      Statement) ∈ conclusions (addStep Multigraph.empty catAnimal)
        [⟨.atomic (atom "feline"), .similar, .atomic (atom "cat"), ⟨.val 1, .val (9 / 10)⟩⟩] :=
  (((conclusions_similar (.step .init trivial)).2.2 _ _ _ (by decide)).1 _).2
    ⟨by decide, by decide, .atomic (atom "animal"), ⟨.val 1, .val (9 / 10)⟩,
      Or.inl ⟨by decide +kernel, by decide +kernel⟩⟩

end Siebog.DNars
