import Siebog.Lib.Traverse
import Siebog.DNars.Inference.Forward

/-!
# The syllogistic table

`Syllogism e j c` is the table of the source: the statement `e` of the graph and the judgement `j`
share the middle term `M` and yield `c`. It is declarative, with one constructor for each entry of
the table, and `mem_conclusions_iff` says that the five engines together implement it exactly.

`table` lists the same entries for two given premises. It also counts how often a conclusion is
drawn: the conclusions of the engines are those of the list in another order (`conclusions_perm`).
-/

set_option autoImplicit false

namespace Siebog.DNars

open Siebog.Lib StatementAPI
open ForwardInference (keepIfValid)

/-- The table of supported premises and conclusions: statement of the graph, judgement,
conclusion. -/
inductive Syllogism : Statement → Statement → Statement → Prop
  | deduction (S M P : Term) (te tj : Truth) :
      Syllogism ⟨M, .inherit, P, te⟩ ⟨S, .inherit, M, tj⟩ ⟨S, .inherit, P, te.deduction tj⟩
  | analogy (S M P : Term) (te tj : Truth) :
      Syllogism ⟨M, .inherit, P, te⟩ ⟨S, .similar, M, tj⟩ ⟨S, .inherit, P, te.analogy tj false⟩
  | induction (S M P : Term) (te tj : Truth) :
      Syllogism ⟨M, .inherit, P, te⟩ ⟨M, .inherit, S, tj⟩ ⟨S, .inherit, P, te.induction tj⟩
  | comparisonOut (S M P : Term) (te tj : Truth) :
      Syllogism ⟨M, .inherit, P, te⟩ ⟨M, .inherit, S, tj⟩ ⟨S, .similar, P, te.comparison tj⟩
  | analogyInvPred (S M P : Term) (te tj : Truth) :
      Syllogism ⟨M, .similar, P, te⟩ ⟨S, .inherit, M, tj⟩ ⟨S, .inherit, P, te.analogy tj true⟩
  | resemblance (S M P : Term) (te tj : Truth) :
      Syllogism ⟨M, .similar, P, te⟩ ⟨S, .similar, M, tj⟩ ⟨S, .similar, P, te.resemblance tj⟩
  | analogyInvSubj (S M P : Term) (te tj : Truth) :
      Syllogism ⟨M, .similar, P, te⟩ ⟨M, .inherit, S, tj⟩ ⟨P, .inherit, S, te.analogy tj true⟩
  | abduction (S M P : Term) (te tj : Truth) :
      Syllogism ⟨P, .inherit, M, te⟩ ⟨S, .inherit, M, tj⟩ ⟨S, .inherit, P, te.abduction tj⟩
  | comparisonIn (S M P : Term) (te tj : Truth) :
      Syllogism ⟨P, .inherit, M, te⟩ ⟨S, .inherit, M, tj⟩ ⟨S, .similar, P, te.comparison tj⟩
  | analogySubj (S M P : Term) (te tj : Truth) :
      Syllogism ⟨P, .inherit, M, te⟩ ⟨S, .similar, M, tj⟩ ⟨P, .inherit, S, te.analogy tj false⟩

/-- What the engines derive from a judgement and a statement of the graph. -/
structure Derives (e j c : Statement) : Prop where
  syllogism : Syllogism e j c
  distinct : c.subj ≠ c.pred
  valid : validStatement c = true

/-! ## The table as a list -/

/-- What two premises yield when the middle term is the subject of the first and the predicate of the
second. -/
def tableSubjPred (e j : Statement) : List Statement :=
  match e.copula, j.copula with
  | .inherit, .inherit => [⟨j.subj, .inherit, e.pred, e.truth.deduction j.truth⟩]
  | .inherit, .similar => [⟨j.subj, .inherit, e.pred, e.truth.analogy j.truth false⟩]
  | .similar, .inherit => [⟨j.subj, .inherit, e.pred, e.truth.analogy j.truth true⟩]
  | .similar, .similar => [⟨j.subj, .similar, e.pred, e.truth.resemblance j.truth⟩]

/-- What they yield when it is the predicate of both. -/
def tablePredPred (e j : Statement) : List Statement :=
  match e.copula, j.copula with
  | .inherit, .inherit =>
    [⟨j.subj, .inherit, e.subj, e.truth.abduction j.truth⟩,
      ⟨j.subj, .similar, e.subj, e.truth.comparison j.truth⟩]
  | .inherit, .similar => [⟨e.subj, .inherit, j.subj, e.truth.analogy j.truth false⟩]
  | .similar, _ => []

/-- What they yield when it is the subject of both. -/
def tableSubjSubj (e j : Statement) : List Statement :=
  match e.copula, j.copula with
  | .inherit, .inherit =>
    [⟨j.pred, .inherit, e.pred, e.truth.induction j.truth⟩,
      ⟨j.pred, .similar, e.pred, e.truth.comparison j.truth⟩]
  | .similar, .inherit => [⟨e.pred, .inherit, j.pred, e.truth.analogy j.truth true⟩]
  | _, .similar => []

/-- The conclusions that relate two terms and are valid. -/
def kept (cs : List Statement) : List Statement :=
  cs.filter fun c => c.subj ≠ c.pred ∧ validStatement c = true

/-- All that a statement of the graph and a judgement yield. Premises that share their middle term in
several ways are listed under each of them. -/
def table (e j : Statement) : List Statement :=
  kept ((if e.subj = j.pred then tableSubjPred e j else []) ++
    (if e.pred = j.pred then tablePredPred e j else []) ++
      if e.subj = j.subj then tableSubjSubj e j else [])

section Entries

variable {S M P : Term} {le lj : Copula} {te tj : Truth} {c : Statement}

theorem syllogism_of_mem_subjPred (h : c ∈ tableSubjPred ⟨M, le, P, te⟩ ⟨S, lj, M, tj⟩) :
    Syllogism ⟨M, le, P, te⟩ ⟨S, lj, M, tj⟩ c := by
  cases le with
  | inherit =>
      cases lj with
      | inherit =>
          obtain rfl := List.mem_singleton.1 h
          exact .deduction S M P te tj
      | similar =>
          obtain rfl := List.mem_singleton.1 h
          exact .analogy S M P te tj
  | similar =>
      cases lj with
      | inherit =>
          obtain rfl := List.mem_singleton.1 h
          exact .analogyInvPred S M P te tj
      | similar =>
          obtain rfl := List.mem_singleton.1 h
          exact .resemblance S M P te tj

theorem syllogism_of_mem_predPred (h : c ∈ tablePredPred ⟨P, le, M, te⟩ ⟨S, lj, M, tj⟩) :
    Syllogism ⟨P, le, M, te⟩ ⟨S, lj, M, tj⟩ c := by
  cases le with
  | inherit =>
      cases lj with
      | inherit =>
          rcases List.mem_cons.1 h with rfl | h
          · exact .abduction S M P te tj
          · obtain rfl := List.mem_singleton.1 h
            exact .comparisonIn S M P te tj
      | similar =>
          obtain rfl := List.mem_singleton.1 h
          exact .analogySubj S M P te tj
  | similar => cases h

theorem syllogism_of_mem_subjSubj (h : c ∈ tableSubjSubj ⟨M, le, P, te⟩ ⟨M, lj, S, tj⟩) :
    Syllogism ⟨M, le, P, te⟩ ⟨M, lj, S, tj⟩ c := by
  cases lj with
  | inherit =>
      cases le with
      | inherit =>
          rcases List.mem_cons.1 h with rfl | h
          · exact .induction S M P te tj
          · obtain rfl := List.mem_singleton.1 h
            exact .comparisonOut S M P te tj
      | similar =>
          obtain rfl := List.mem_singleton.1 h
          exact .analogyInvSubj S M P te tj
  | similar => cases le <;> cases h

end Entries

/-- The list has the entries of the table. -/
theorem mem_table {e j c : Statement} : c ∈ table e j ↔ Derives e j c := by
  rcases e with ⟨es, ec, ep, te⟩
  rcases j with ⟨js, jc, jp, tj⟩
  simp only [table, kept, List.mem_filter, List.mem_append, decide_eq_true_eq]
  constructor
  · rintro ⟨(h | h) | h, hne, hvalid⟩
    · split_ifs at h with hM
      · obtain rfl : es = jp := hM
        exact ⟨syllogism_of_mem_subjPred h, hne, hvalid⟩
      · cases h
    · split_ifs at h with hM
      · obtain rfl : ep = jp := hM
        exact ⟨syllogism_of_mem_predPred h, hne, hvalid⟩
      · cases h
    · split_ifs at h with hM
      · obtain rfl : es = js := hM
        exact ⟨syllogism_of_mem_subjSubj h, hne, hvalid⟩
      · cases h
  · rintro ⟨hrule, hne, hvalid⟩
    refine ⟨?_, hne, hvalid⟩
    cases hrule <;> simp [tableSubjPred, tablePredPred, tableSubjSubj]

/-! ## The engines -/

section Kept

theorem kept_append (cs ds : List Statement) : kept (cs ++ ds) = kept cs ++ kept ds :=
  List.filter_append ..

theorem kept_singleton (c : Statement) :
    kept [c] = if c.subj = c.pred then [] else keepIfValid c := by
  rw [kept, List.filter_singleton, keepIfValid]
  by_cases hc : c.subj = c.pred
  · simp [hc]
  · simp [hc]

theorem kept_pair (c d : Statement) (h : c.subj = d.subj) (h' : c.pred = d.pred) :
    kept [c, d] = if c.subj = c.pred then [] else
      keepIfValid c ++ keepIfValid d := by
  have hpair : [c, d] = [c] ++ [d] := rfl
  rw [hpair, kept_append, kept_singleton, kept_singleton, ← h, ← h']
  split_ifs <;> rfl

end Kept

section Engines

variable {g : DNarsGraph}

/-- Going along some edges is going along the statements that they stand for. -/
theorem flatMap_edges {p : DNarsEdge → Prop} [DecidablePred p] {p' : Statement → Prop}
    [DecidablePred p'] {f : DNarsEdge → List Statement} {f' : Statement → List Statement}
    (hp : ∀ e, p e ↔ p' (edgeStatement e))
    (hf : ∀ e, p' (edgeStatement e) → f e = f' (edgeStatement e)) :
    (g.edges.filter fun e => p e).flatMap f =
      (statements g).flatMap fun e => if p' e then f' e else [] := by
  rw [statements, List.flatMap_map, flatMap_filter]
  apply List.flatMap_congr
  intro e _
  by_cases he : p e
  · rw [if_pos he, if_pos ((hp e).1 he), hf e ((hp e).1 he)]
  · rw [if_neg he, if_neg fun h => he ((hp e).2 h)]

theorem flatMap_outE {t : Term} {l : Copula} {f : DNarsEdge → List Statement}
    {f' : Statement → List Statement}
    (hf : ∀ e, (edgeStatement e).subj = t ∧ (edgeStatement e).copula = l →
      f e = f' (edgeStatement e)) :
    (g.outE (.ofTerm t) l).flatMap f =
      (statements g).flatMap fun e => if e.subj = t ∧ e.copula = l then f' e else [] := by
  refine flatMap_edges (fun e => and_congr_left' ?_) hf
  rw [eq_comm, DNarsVertex.ofTerm_eq_iff, eq_comm]
  rfl

theorem flatMap_inE {t : Term} {l : Copula} {f : DNarsEdge → List Statement}
    {f' : Statement → List Statement}
    (hf : ∀ e, (edgeStatement e).pred = t ∧ (edgeStatement e).copula = l →
      f e = f' (edgeStatement e)) :
    (g.inE (.ofTerm t) l).flatMap f =
      (statements g).flatMap fun e => if e.pred = t ∧ e.copula = l then f' e else [] := by
  refine flatMap_edges (fun e => and_congr_left' ?_) hf
  rw [eq_comm, DNarsVertex.ofTerm_eq_iff, eq_comm]
  rfl

variable (hg : g.Closed)
include hg

theorem DeductionAnalogy.doApply_eq (j : Statement) :
    DeductionAnalogy.doApply g j = (statements g).flatMap fun e =>
      if e.subj = j.pred ∧ e.copula = .inherit then kept (tableSubjPred e j) else [] := by
  rw [doApply, lookup_eq j.pred _ fun hv => by rw [outE_eq_nil hg _ hv]; rfl]
  refine flatMap_outE ?_
  rintro e ⟨-, hl⟩
  rw [inferForEdge, tableSubjPred, hl]
  cases hj : j.copula with
  | inherit =>
      simp only [kept_singleton]
      rfl
  | similar =>
      simp only [kept_singleton]
      rfl

theorem AnalogyResemblance.doApply_eq (j : Statement) :
    AnalogyResemblance.doApply g j = (statements g).flatMap fun e =>
      if e.subj = j.pred ∧ e.copula = .similar then kept (tableSubjPred e j) else [] := by
  rw [doApply, lookup_eq j.pred _ fun hv => by rw [outE_eq_nil hg _ hv]; rfl]
  refine flatMap_outE ?_
  rintro e ⟨-, hl⟩
  rw [inferForEdge, tableSubjPred, hl]
  cases hj : j.copula with
  | inherit =>
      simp only [kept_singleton]
      rfl
  | similar =>
      simp only [kept_singleton]
      rfl

theorem AbductionComparisonAnalogy.doApply_eq (j : Statement) :
    AbductionComparisonAnalogy.doApply g j = (statements g).flatMap fun e =>
      if e.pred = j.pred ∧ e.copula = .inherit then kept (tablePredPred e j) else [] := by
  rw [doApply, lookup_eq j.pred _ fun hv => by rw [inE_eq_nil hg _ hv]; rfl]
  refine flatMap_inE ?_
  rintro e ⟨-, hl⟩
  rw [inferForEdge, tablePredPred, hl]
  cases hj : j.copula with
  | inherit =>
      simp only [kept_pair]
      rfl
  | similar =>
      simp only [kept_singleton]
      exact if_congr eq_comm rfl rfl

theorem InductionComparison.doApply_eq (j : Statement) :
    InductionComparison.doApply g j = (statements g).flatMap fun e =>
      if e.subj = j.subj ∧ e.copula = .inherit then kept (tableSubjSubj e j) else [] := by
  rw [doApply]
  cases hj : j.copula with
  | inherit =>
      rw [if_neg (not_not.2 rfl), lookup_eq j.subj _ fun hv => by rw [outE_eq_nil hg _ hv]; rfl]
      refine flatMap_outE ?_
      rintro e ⟨-, hl⟩
      rw [inferForEdge, tableSubjSubj, hl, hj]
      simp only [kept_pair]
      rfl
  | similar =>
      rw [if_pos (by decide)]
      symm
      rw [List.flatMap_eq_nil_iff]
      intro e _
      split_ifs with hl
      · rw [tableSubjSubj, hl.2, hj]
        rfl
      · rfl

theorem AnalogyInv.doApply_eq (j : Statement) :
    AnalogyInv.doApply g j = (statements g).flatMap fun e =>
      if e.subj = j.subj ∧ e.copula = .similar then kept (tableSubjSubj e j) else [] := by
  rw [doApply]
  cases hj : j.copula with
  | inherit =>
      rw [if_neg (not_not.2 rfl), lookup_eq j.subj _ fun hv => by rw [outE_eq_nil hg _ hv]; rfl]
      refine flatMap_outE ?_
      rintro e ⟨-, hl⟩
      rw [inferForEdge, tableSubjSubj, hl, hj]
      simp only [kept_singleton]
      exact if_congr eq_comm rfl rfl
  | similar =>
      rw [if_pos (by decide)]
      symm
      rw [List.flatMap_eq_nil_iff]
      intro e _
      split_ifs with hl
      · rw [tableSubjSubj, hl.2, hj]
        rfl
      · rfl

/-- Together the engines derive what the table lists, as often as it is listed. -/
theorem engines_perm (j : Statement) :
    (engines.flatMap fun engine => engine g j).Perm ((statements g).flatMap fun e => table e j) := by
  simp only [engines, List.flatMap_cons, List.flatMap_nil, List.append_nil,
    DeductionAnalogy.doApply_eq hg, AnalogyResemblance.doApply_eq hg,
    AbductionComparisonAnalogy.doApply_eq hg, InductionComparison.doApply_eq hg,
    AnalogyInv.doApply_eq hg]
  -- one engine after the other is taken into the traversal of the statements
  refine ((((List.flatMap_append_perm _ _ _).append_left _).append_left _).append_left _).trans ?_
  refine (((List.flatMap_append_perm _ _ _).append_left _).append_left _).trans ?_
  refine ((List.flatMap_append_perm _ _ _).append_left _).trans ?_
  refine (List.flatMap_append_perm _ _ _).trans (List.Perm.of_eq ?_)
  apply List.flatMap_congr
  intro e _
  have hnil : kept [] = [] := rfl
  rw [table, kept_append, kept_append, apply_ite kept, apply_ite kept, apply_ite kept, hnil]
  cases hl : e.copula with
  | inherit => simp
  | similar =>
      have hpred : tablePredPred e j = [] := by rw [tablePredPred, hl]
      simp [hpred, hnil]

/-- What one round of inference derives from a statement, as the table lists it. -/
def derivations (g : DNarsGraph) (i : Statement) : List Statement :=
  i.allImages.flatMap fun j => (statements g).flatMap fun e => table e j

theorem conclusions_perm (input : List Statement) :
    (conclusions g input).Perm (input.flatMap (derivations g)) := by
  refine (flatMap_flatMap_perm _ engines input).trans ?_
  apply List.Perm.flatMap_left
  intro i _
  refine (flatMap_flatMap_perm _ engines i.allImages).trans ?_
  apply List.Perm.flatMap_left
  exact fun j _ => engines_perm hg j

/-- The conclusions of a list of judgements, as the table gives them. -/
theorem mem_conclusions_iff_of_closed {input : List Statement} {c : Statement} :
    c ∈ conclusions g input ↔
      ∃ i ∈ input, ∃ j ∈ i.allImages, ∃ e ∈ statements g, Derives e j c := by
  rw [(conclusions_perm hg input).mem_iff]
  simp only [derivations, List.mem_flatMap, mem_table]

end Engines

/-- `P -> M` with `M -> S` has no entry in the table: between three different terms it yields no
conclusion. -/
theorem not_derives_chain {P M S : Term} (hP : P ≠ M) (hS : S ≠ M) (te tj : Truth)
    (c : Statement) : ¬ Derives ⟨P, .inherit, M, te⟩ ⟨M, .inherit, S, tj⟩ c := by
  rintro ⟨hrule, hne, -⟩
  cases hrule with
  | deduction => exact hne rfl
  | induction => exact hP rfl
  | comparisonOut => exact hP rfl
  | abduction => exact hS rfl
  | comparisonIn => exact hS rfl

/-- The engines implement the table exactly, in every reachable graph. -/
theorem mem_conclusions_iff {g : DNarsGraph} (hg : Reachable (fun _ => True) g) :
    (∀ (input : List Statement) (c : Statement),
      c ∈ conclusions g input ↔
        ∃ i ∈ input, ∃ j ∈ i.allImages, ∃ e ∈ statements g,
          Syllogism e j c ∧ c.subj ≠ c.pred ∧ validStatement c = true) ∧
    ∀ (P M S : Term) (te tj : Truth) (c : Statement), P ≠ M → S ≠ M →
      ¬ (Syllogism ⟨P, .inherit, M, te⟩ ⟨M, .inherit, S, tj⟩ c ∧ c.subj ≠ c.pred ∧
        validStatement c = true) := by
  constructor
  · intro input c
    rw [mem_conclusions_iff_of_closed (closed_of_reachable hg)]
    constructor
    · rintro ⟨i, hi, j, hj, e, he, hrule, hne, hvalid⟩
      exact ⟨i, hi, j, hj, e, he, hrule, hne, hvalid⟩
    · rintro ⟨i, hi, j, hj, e, he, hrule, hne, hvalid⟩
      exact ⟨i, hi, j, hj, e, he, hrule, hne, hvalid⟩
  · rintro P M S te tj c hP hS ⟨hrule, hne, hvalid⟩
    exact not_derives_chain hP hS te tj c ⟨hrule, hne, hvalid⟩

/-- `tiger -> cat (1.00,0.90)` -/
def tigerCat : Statement :=
  ⟨.atomic (atom "tiger"), .inherit, .atomic (atom "cat"), ⟨.val 1, .val (9 / 10)⟩⟩

/-- With `(x cat bird) -> eat` in the graph, `tiger -> cat` yields `tiger -> (/ eat * bird)`. -/
theorem deduction_tigerCat :
    (⟨.atomic (atom "tiger"), .inherit,
      .compound .extImage [atom "eat", AtomicTerm.placeholder, atom "bird"],
      Truth.deduction ⟨.val 1, .val (9 / 10)⟩ ⟨.val 1, .val (9 / 10)⟩⟩ : Statement) ∈
        conclusions (addStep Multigraph.empty catBird) [tigerCat] :=
  ((mem_conclusions_iff (.step .init trivial)).1 _ _).2
    ⟨tigerCat, List.mem_singleton_self _, tigerCat, List.mem_cons_self, catImage,
      by decide +kernel, .deduction _ _ _ _ _, by decide, by decide⟩

end Siebog.DNars
