import Mathlib.Data.List.Sort
import Siebog.Lib.Traverse
import Siebog.DNars.Inference.Table

/-!
# Answering questions by backward inference

A question is answered by its edge, or by two rounds of forward inference: the first takes the
question as a judgement with a hypothetical truth value and yields derived questions, the second
takes these as judgements, and its conclusions about the question's terms are the answers.

The derived questions are not looked up in the graph. `answers_of_backwardInference` says exactly
what stands behind an answer.
-/

set_option autoImplicit false

namespace Siebog.DNars

open Siebog.Lib VertexAPI StatementAPI

/-- The truth value under which a question is taken as a judgement. -/
def hypothetical : Truth := ⟨.val 1, .val (9 / 10)⟩

/-- Construct derived questions such that `P` and the question yield them, and check whether the
question can be derived from `P` and a derived question. -/
def inferUsingForwardInference (g : DNarsGraph) (question : Statement) : List Statement :=
  -- construct derived questions: the question stands for a judgement
  let q := question.withTruth hypothetical
  let derivedQuestions := conclusions g [q]
  -- the derived questions become judgements themselves, held or not
  let candidates := conclusions g derivedQuestions
  -- a stable sort, the greatest expectation first
  (candidates.filter fun c => c.subj = question.subj ∧ c.pred = question.pred).insertionSort
    fun a b => ¬ a.truth.expectation < b.truth.expectation

/-- The answers to one form of a question: the edge of the form, or else what inference yields
between its terms. A form with an unknown term has none. -/
def inferBackwards (g : DNarsGraph) (question : Statement) :
    Except GraphException (List Statement) :=
  match getV g question.subj, getV g question.pred with
  | some _, some _ =>
    match EdgeAPI.getE g question with
    -- more than one edge for the question
    | .error e => .error e
    | .ok (some edge) => .ok [question.withTruth edge.weight]
    -- no edge for the question, which may still follow from others
    | .ok none => .ok (inferUsingForwardInference g question)
  -- a term that the graph does not know
  | _, _ => .ok []

/-- The answers to all forms of a question, form by form, cut at the limit. -/
def backwardInference (g : DNarsGraph) (question : Statement) (limit : Int) :
    Except GraphException (List Statement) := do
  let candidates ← question.allImages.mapM (inferBackwards g)
  return candidates.flatten.take limit.toNat

/-! ## What the answers are -/

section Answers

variable {g : DNarsGraph} {q a : Statement} {answers : List Statement}

theorem mem_inferUsingForwardInference :
    a ∈ inferUsingForwardInference g q ↔
      a ∈ conclusions g (conclusions g [q.withTruth hypothetical]) ∧
        a.subj = q.subj ∧ a.pred = q.pred := by
  simp only [inferUsingForwardInference, List.mem_insertionSort, List.mem_filter,
    decide_eq_true_eq]

/-- The outcome of a question in a closed graph. -/
theorem inferBackwards_eq (hg : g.Closed) (q : Statement) :
    inferBackwards g q =
      if DNarsVertex.ofTerm q.subj ∈ g.vertices ∧ DNarsVertex.ofTerm q.pred ∈ g.vertices then
        match truthsAt g q.triple with
        | [] => .ok (inferUsingForwardInference g q)
        | [t] => .ok [q.withTruth t]
        | _ => .error (.multipleEdges q)
      else .ok [] := by
  rw [inferBackwards, getV_eq, getV_eq]
  by_cases hends : DNarsVertex.ofTerm q.subj ∈ g.vertices ∧ DNarsVertex.ofTerm q.pred ∈ g.vertices
  · rw [if_pos hends, if_pos hends.1, if_pos hends.2, getE_eq hg]
    simp only
    rcases truthsAt g q.triple with _ | ⟨t, _ | ⟨u, us⟩⟩ <;> rfl
  · rw [if_neg hends]
    by_cases hs : DNarsVertex.ofTerm q.subj ∈ g.vertices
    · rw [if_pos hs, if_neg fun hp => hends ⟨hs, hp⟩]
    · rw [if_neg hs]

theorem mem_inferBackwards (hg : g.Closed) (h : inferBackwards g q = .ok answers)
    (ha : a ∈ answers) :
    (DNarsVertex.ofTerm q.subj ∈ g.vertices ∧ DNarsVertex.ofTerm q.pred ∈ g.vertices) ∧
      (a ∈ statements g ∧ a.triple = q.triple ∨
        truthsAt g q.triple = [] ∧ a ∈ inferUsingForwardInference g q) := by
  rw [inferBackwards_eq hg] at h
  split_ifs at h with hends
  · refine ⟨hends, ?_⟩
    rcases htruths : truthsAt g q.triple with _ | ⟨t, _ | ⟨u, us⟩⟩
    · rw [htruths] at h
      cases h
      exact Or.inr ⟨rfl, ha⟩
    · rw [htruths] at h
      cases h
      rw [List.mem_singleton] at ha
      subst ha
      refine Or.inl ⟨mem_statements.2 ?_, rfl⟩
      show t ∈ truthsAt g q.triple
      rw [htruths]
      exact List.mem_singleton_self t
    · rw [htruths] at h
      cases h
  · cases h
    cases ha

/-- The answers to a question are answers to its forms. -/
theorem exists_form_of_answer {limit : Int} (h : backwardInference g q limit = .ok answers)
    (ha : a ∈ answers) :
    ∃ q' ∈ q.allImages, ∃ found, inferBackwards g q' = .ok found ∧ a ∈ found := by
  rw [backwardInference] at h
  cases hfound : q.allImages.mapM (inferBackwards g) with
  | error e =>
      rw [hfound] at h
      cases h
  | ok founds =>
      rw [hfound] at h
      cases h
      -- the limit only cuts the list of answers short
      obtain ⟨found, hmem, hfa⟩ := List.mem_flatten.1 (List.mem_of_mem_take ha)
      obtain ⟨q', hq', hrun⟩ := exists_of_forall₂ (mapM_ok_iff.1 hfound) hmem
      exact ⟨q', hq', found, hrun, hfa⟩

end Answers

/-- The truth value of the judgement plays no part in which triples follow from it. -/
theorem exists_derives_withTruth {e j c : Statement} (h : Derives e j c) (t : Truth) :
    ∃ c', Derives e (j.withTruth t) c' ∧ c'.triple = c.triple := by
  obtain ⟨hrule, hne, hvalid⟩ := h
  cases hrule with
  | deduction => exact ⟨_, ⟨.deduction _ _ _ _ t, hne, hvalid⟩, rfl⟩
  | analogy => exact ⟨_, ⟨.analogy _ _ _ _ t, hne, hvalid⟩, rfl⟩
  | induction => exact ⟨_, ⟨.induction _ _ _ _ t, hne, hvalid⟩, rfl⟩
  | comparisonOut => exact ⟨_, ⟨.comparisonOut _ _ _ _ t, hne, hvalid⟩, rfl⟩
  | analogyInvPred => exact ⟨_, ⟨.analogyInvPred _ _ _ _ t, hne, hvalid⟩, rfl⟩
  | resemblance => exact ⟨_, ⟨.resemblance _ _ _ _ t, hne, hvalid⟩, rfl⟩
  | analogyInvSubj => exact ⟨_, ⟨.analogyInvSubj _ _ _ _ t, hne, hvalid⟩, rfl⟩
  | abduction => exact ⟨_, ⟨.abduction _ _ _ _ t, hne, hvalid⟩, rfl⟩
  | comparisonIn => exact ⟨_, ⟨.comparisonIn _ _ _ _ t, hne, hvalid⟩, rfl⟩
  | analogySubj => exact ⟨_, ⟨.analogySubj _ _ _ _ t, hne, hvalid⟩, rfl⟩

/-- A judgement has conclusions about the same triples under every truth value. -/
theorem exists_conclusion_withTruth {g : DNarsGraph} (hg : g.Closed) {d c : Statement}
    (hc : c ∈ conclusions g [d]) (t : Truth) :
    ∃ c' ∈ conclusions g [d.withTruth t], c'.triple = c.triple := by
  obtain ⟨i, hi, j, hj, e, he, h⟩ := (mem_conclusions_iff_of_closed hg).1 hc
  rw [List.mem_singleton] at hi
  subst hi
  obtain ⟨c', h', htriple⟩ := exists_derives_withTruth h t
  refine ⟨c', (mem_conclusions_iff_of_closed hg).2
    ⟨_, List.mem_singleton_self _, j.withTruth t, ?_, e, he, h'⟩, htriple⟩
  rw [Statement.allImages_withTruth]
  exact List.mem_map_of_mem hj

/-- What stands behind the answer `a` to the question `q`: an edge for a form of the question, or a
derived question that follows from a form without an edge under the hypothetical truth value. If the
graph holds the derived question, under any truth value, the triple of `a` follows from the graph. -/
def AnswerSource (g : DNarsGraph) (q a : Statement) : Prop :=
  ∃ q' ∈ q.allImages, a.subj = q'.subj ∧ a.pred = q'.pred ∧
    DNarsVertex.ofTerm a.subj ∈ g.vertices ∧ DNarsVertex.ofTerm a.pred ∈ g.vertices ∧
    (a ∈ statements g ∧ a.copula = q'.copula ∨
      truthsAt g q'.triple = [] ∧ ∃ d ∈ conclusions g [q'.withTruth hypothetical],
        a ∈ conclusions g [d] ∧
        ∀ t, d.withTruth t ∈ statements g →
          ∃ j ∈ statements g, ∃ c ∈ conclusions g [j], c.triple = a.triple)

/-- Every answer is an edge or rests on a derived question. -/
theorem answers_of_backwardInference {g : DNarsGraph} (hg : Reachable (fun _ => True) g)
    {q : Statement} {limit : Int} {answers : List Statement}
    (h : backwardInference g q limit = .ok answers) : ∀ a ∈ answers, AnswerSource g q a := by
  have hclosed := closed_of_reachable hg
  intro a ha
  obtain ⟨q', hq', found, hrun, hfa⟩ := exists_form_of_answer h ha
  obtain ⟨⟨hs, hp⟩, ⟨hmem, htriple⟩ | ⟨hnone, hinfer⟩⟩ := mem_inferBackwards hclosed hrun hfa
  · have hsubj : a.subj = q'.subj := congrArg Prod.fst htriple
    have hcopula : a.copula = q'.copula := congrArg (fun x : Triple => x.2.1) htriple
    have hpred : a.pred = q'.pred := congrArg (fun x : Triple => x.2.2) htriple
    exact ⟨q', hq', hsubj, hpred, hsubj ▸ hs, hpred ▸ hp, Or.inl ⟨hmem, hcopula⟩⟩
  · obtain ⟨hc, hsubj, hpred⟩ := mem_inferUsingForwardInference.1 hinfer
    refine ⟨q', hq', hsubj, hpred, hsubj ▸ hs, hpred ▸ hp, Or.inr ⟨hnone, ?_⟩⟩
    obtain ⟨d, hd, j, hj, e, he, hderives⟩ := (mem_conclusions_iff_of_closed hclosed).1 hc
    have had : a ∈ conclusions g [d] :=
      (mem_conclusions_iff_of_closed hclosed).2
        ⟨d, List.mem_singleton_self d, j, hj, e, he, hderives⟩
    refine ⟨d, hd, had, ?_⟩
    intro t ht
    obtain ⟨c, hcd, hca⟩ := exists_conclusion_withTruth hclosed had t
    exact ⟨_, ht, c, hcd, hca⟩

/-- `p -> x (1.00,0.90)` and `s -> y (1.00,0.90)` -/
def unrelated : List Statement :=
  [⟨.atomic (atom "p"), .inherit, .atomic (atom "x"), ⟨.val 1, .val (9 / 10)⟩⟩,
    ⟨.atomic (atom "s"), .inherit, .atomic (atom "y"), ⟨.val 1, .val (9 / 10)⟩⟩]

/-- `s -> p` under the hypothetical truth value -/
def unrelatedQuestion : Statement :=
  ⟨.atomic (atom "s"), .inherit, .atomic (atom "p"), hypothetical⟩

/-- Two unrelated statements answer the question `s -> p`, although nothing follows from either:
the question yields `s -> x` with `p -> x`, and `s -> x` yields `s -> p` with the same edge. -/
theorem unsupported_unrelated :
    ¬ ∀ g, Reachable (fun _ => True) g → ∀ q limit answers,
      backwardInference g q limit = .ok answers → ∀ a ∈ answers,
        a ∈ statements g ∨ ∃ j ∈ statements g, a ∈ conclusions g [j] := by
  intro h
  have hnone : ∀ j ∈ statements (graphOf unrelated), conclusions (graphOf unrelated) [j] = [] := by
    decide +kernel
  have hrun : backwardInference (graphOf unrelated) unrelatedQuestion 1 =
      .ok [⟨.atomic (atom "s"), .inherit, .atomic (atom "p"), ⟨.val 1, .val (729 / 1729)⟩⟩] := by
    decide +kernel
  rcases h _ (reachable_graphOf unrelated) _ _ _ hrun _ (List.mem_singleton_self _) with
    hmem | ⟨j, hj, hc⟩
  · revert hmem
    decide +kernel
  · rw [hnone j hj] at hc
    cases hc

/-- The answer to `s -> p` rests on a derived question. -/
theorem answers_unrelated :
    AnswerSource (graphOf unrelated) unrelatedQuestion
      ⟨.atomic (atom "s"), .inherit, .atomic (atom "p"), ⟨.val 1, .val (729 / 1729)⟩⟩ := by
  have hrun : backwardInference (graphOf unrelated) unrelatedQuestion 1 =
      .ok [⟨.atomic (atom "s"), .inherit, .atomic (atom "p"), ⟨.val 1, .val (729 / 1729)⟩⟩] := by
    decide +kernel
  exact answers_of_backwardInference (reachable_graphOf unrelated) hrun _
    (List.mem_singleton_self _)

end Siebog.DNars
