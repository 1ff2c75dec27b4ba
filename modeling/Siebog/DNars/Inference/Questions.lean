import Siebog.Lib.Ranking
import Siebog.DNars.Inference.Enumeration

/-!
# Questions about one term

`answer` lists the best subjects or predicates for a question with a `?`, `hasAnswer` says whether a
statement is held. The store keeps for every edge two numbers to rank it by, one for each of its
terms, and gives the edges at a vertex in the order of either; edges with the same number come in
an order of its own (`TitanOrder`).

The answers are the best ones by these numbers, each once (`answer_best`), and the two kinds of
questions agree with each other (`queries_agree`). Over a whole run, what is held is what has been
told or derived on the way, in any of its forms (`hasAnswer_iff_told`).
-/

set_option autoImplicit false

namespace Siebog.DNars

open Siebog.Lib VertexAPI EdgeAPI StatementAPI

section Model

/-- An atomic term counts one. -/
def AtomicTerm.complexity (_ : AtomicTerm) : ℕ := 1

/-- A compound term counts one more than its components together. -/
def Term.complexity : Term → ℕ
  | .atomic a => a.complexity
  | .compound _ comps => 1 + comps.foldl (fun n comp => n + comp.complexity) 0

/-- `d.toInt`: the fraction is dropped, and the result stays in the range of an `Int`. -/
def toInt : Num ℚ → ℤ
  | .val d => max (-2 ^ 31) (min (2 ^ 31 - 1) (if 0 ≤ d then d.floor else d.ceil))
  | .nan => 0

/-- What a truth value counts for one of the terms. -/
def weighed (truth : Truth) (term : Term) : ℤ :=
  toInt (truth.expectation * (.val 1 / .val (term.complexity : ℚ)) * .val 1000)

/-- Every time that an edge gets a truth value, it gets the two numbers that go with it. -/
def DNarsEdge.subjExp (e : DNarsEdge) : ℤ := weighed e.weight e.out.term

/-- The number that the predicate of an edge is ranked by. -/
def DNarsEdge.predExp (e : DNarsEdge) : ℤ := weighed e.weight e.inn.term

/-- The order in which the store gives edges, the one with the greatest number first. -/
structure TitanOrder where
  orderBy : (DNarsEdge → ℤ) → List DNarsEdge → List DNarsEdge
  perm : ∀ key edges, (orderBy key edges).Perm edges
  desc : ∀ key edges, (orderBy key edges).Pairwise fun a b => key b ≤ key a

variable (order : TitanOrder) (g : DNarsGraph)

/-- The predicates of the best edges out of a term, at most `limit` of them. -/
def getBestPredicates (subj : Term) (copula : Copula) (limit : ℕ) : List Term :=
  match getV g subj with
  | some v =>
    ((order.orderBy DNarsEdge.predExp (g.outE v copula)).take limit).map fun e => e.inn.term
  | none => []

/-- The subjects of the best edges into a term, at most `limit` of them. -/
def getBestSubjects (pred : Term) (copula : Copula) (limit : ℕ) : List Term :=
  match getV g pred with
  | some v =>
    ((order.orderBy DNarsEdge.subjExp (g.inE v copula)).take limit).map fun e => e.out.term
  | none => []

/-- The terms that a question with `?` asks for. Another question throws. -/
def answer (question : Statement) (limit : ℕ) : Except String (List Term) :=
  if question.subj = .atomic .question then
    .ok (getBestSubjects order g question.pred question.copula limit)
  else if question.pred = .atomic .question then
    .ok (getBestPredicates order g question.subj question.copula limit)
  else .error "The question should be either ? -> P or S -> ?"

/-- Whether the statement is held, whatever its truth value. -/
def hasAnswer (question : Statement) : Except GraphException Bool :=
  (getE g question).map fun edge => edge.isSome

end Model

/-! ## The best answers -/

/-- The term that a statement gives for the one that is asked for. -/
def Statement.asked (question st : Statement) : Term :=
  if question.subj = .atomic .question then st.subj else st.pred

/-- The statements of the graph that agree with a question. -/
def matching (g : DNarsGraph) (question : Statement) : List Statement :=
  (statements g).filter fun st => st.copula = question.copula ∧
    if question.subj = .atomic .question then st.pred = question.pred
    else st.subj = question.subj

/-- The number by which a statement is ranked among the answers. -/
def Statement.rank (question st : Statement) : ℤ := weighed st.truth (question.asked st)

section Answers

variable (order : TitanOrder) {g : DNarsGraph}

/-- Without the vertex nothing agrees with the question. -/
theorem matching_eq_nil_of_pred (hg : g.Closed) {q : Statement}
    (hq : q.subj = .atomic .question) (hpred : DNarsVertex.ofTerm q.pred ∉ g.vertices) :
    matching g q = [] := by
  refine List.filter_eq_nil_iff.2 fun st hst => ?_
  simp only [if_pos hq, decide_eq_true_eq]
  rintro ⟨-, heq⟩
  have hends := endpoints_of_truthsAt hg (List.ne_nil_of_mem (mem_statements.1 hst))
  exact hpred (heq ▸ hends.2)

theorem matching_eq_nil_of_subj (hg : g.Closed) {q : Statement}
    (hq : q.subj ≠ .atomic .question) (hsubj : DNarsVertex.ofTerm q.subj ∉ g.vertices) :
    matching g q = [] := by
  refine List.filter_eq_nil_iff.2 fun st hst => ?_
  simp only [if_neg hq, decide_eq_true_eq]
  rintro ⟨-, heq⟩
  have hends := endpoints_of_truthsAt hg (List.ne_nil_of_mem (mem_statements.1 hst))
  exact hsubj (heq ▸ hends.1)

theorem matching_eq_inE {q : Statement} (hq : q.subj = .atomic .question) :
    matching g q = (g.inE (.ofTerm q.pred) q.copula).map edgeStatement := by
  rw [matching, statements, Multigraph.inE, List.filter_map]
  congr 1
  refine List.filter_congr fun e _ => ?_
  simp only [Function.comp_apply, edgeStatement, if_pos hq, ← DNarsVertex.ofTerm_eq_iff, eq_comm,
    and_comm]

theorem matching_eq_outE {q : Statement} (hq : q.subj ≠ .atomic .question) :
    matching g q = (g.outE (.ofTerm q.subj) q.copula).map edgeStatement := by
  rw [matching, statements, Multigraph.outE, List.filter_map]
  congr 1
  refine List.filter_congr fun e _ => ?_
  simp only [Function.comp_apply, edgeStatement, if_neg hq, ← DNarsVertex.ofTerm_eq_iff, eq_comm,
    and_comm]

/-- The answers are the first of the matching statements in an order by rank. -/
theorem exists_ranked (hg : g.Closed) {q : Statement}
    (hq : q.subj = .atomic .question ∨ q.pred = .atomic .question) (limit : ℕ) :
    ∃ ranked : List Statement, ranked.Perm (matching g q) ∧
      ranked.Pairwise (fun a b => q.rank b ≤ q.rank a) ∧
      answer order g q limit = .ok ((ranked.take limit).map q.asked) := by
  by_cases hsubj : q.subj = .atomic .question
  · -- a question for the subject goes to the edges into the predicate
    rw [answer, if_pos hsubj, getBestSubjects, getV_eq]
    have hasked : ∀ e : DNarsEdge, q.asked (edgeStatement e) = e.out.term := fun e => if_pos hsubj
    split_ifs with hpred
    · refine ⟨(order.orderBy DNarsEdge.subjExp (g.inE (.ofTerm q.pred) q.copula)).map edgeStatement,
        ?_, ?_, ?_⟩
      · rw [matching_eq_inE hsubj]
        exact (order.perm _ _).map edgeStatement
      · refine List.pairwise_map.2 ((order.desc DNarsEdge.subjExp _).imp fun {a b} hab => ?_)
        rw [Statement.rank, Statement.rank, hasked, hasked]
        exact hab
      · rw [← List.map_take, List.map_map]
        exact congrArg Except.ok (List.map_congr_left fun e _ => (hasked e).symm)
    · refine ⟨[], ?_, List.Pairwise.nil, by rw [List.take_nil]; rfl⟩
      rw [matching_eq_nil_of_pred hg hsubj hpred]
  · -- a question for the predicate goes to the edges out of the subject
    rw [answer, if_neg hsubj, if_pos (hq.resolve_left hsubj), getBestPredicates, getV_eq]
    have hasked : ∀ e : DNarsEdge, q.asked (edgeStatement e) = e.inn.term := fun e => if_neg hsubj
    split_ifs with hvertex
    · refine ⟨(order.orderBy DNarsEdge.predExp (g.outE (.ofTerm q.subj) q.copula)).map edgeStatement,
        ?_, ?_, ?_⟩
      · rw [matching_eq_outE hsubj]
        exact (order.perm _ _).map edgeStatement
      · refine List.pairwise_map.2 ((order.desc DNarsEdge.predExp _).imp fun {a b} hab => ?_)
        rw [Statement.rank, Statement.rank, hasked, hasked]
        exact hab
      · rw [← List.map_take, List.map_map]
        exact congrArg Except.ok (List.map_congr_left fun e _ => (hasked e).symm)
    · refine ⟨[], ?_, List.Pairwise.nil, by rw [List.take_nil]; rfl⟩
      rw [matching_eq_nil_of_subj hg hsubj hvertex]

end Answers

/-- Edges with the same number in the order in which they were added. -/
def TitanOrder.stable : TitanOrder where
  orderBy key edges := edges.insertionSort fun a b => key b ≤ key a
  perm _ edges := List.perm_insertionSort _ edges
  desc _ _ := pairwise_insertionSort_key fun _ _ _ _ => Iff.rfl

theorem regular_catBird : Regular catBird where
  valid := rfl
  proper := by decide
  distinct hc := by cases hc

theorem callReachable_catBird :
    CallReachable (stateAfter (Call.exec (.add catBird)) Multigraph.empty) :=
  .step (a := Call.add catBird) .init (List.forall_mem_singleton.2 regular_catBird)

section Agree

variable (order : TitanOrder) {g : DNarsGraph}

/-- A question without a `?` is never interrupted. -/
theorem OneEdgeEach.hasAnswer_eq (hg : OneEdgeEach g) (q : Statement) :
    hasAnswer g q = .ok (!(truthsAt g q.triple).isEmpty) := by
  have hlength := hg.length_le_one q.triple
  rw [hasAnswer, getE_eq hg.forms.closed]
  rcases htruths : truthsAt g q.triple with _ | ⟨t, _ | ⟨u, us⟩⟩
  · rfl
  · rfl
  · rw [htruths, List.length_cons, List.length_cons] at hlength
    omega

theorem OneEdgeEach.hasAnswer_iff (hg : OneEdgeEach g) (q : Statement) :
    hasAnswer g q = .ok true ↔ truthsAt g q.triple ≠ [] := by
  rw [hg.hasAnswer_eq, Except.ok.injEq, Bool.not_eq_true', List.isEmpty_eq_false_iff]

/-- With a limit that nothing exceeds, the answers are all the matching terms. -/
theorem mem_answers_iff (h : CallReachable g) {q : Statement}
    (hq : q.subj = .atomic .question ∨ q.pred = .atomic .question) {limit : ℕ}
    (hlimit : (statements g).length ≤ limit) :
    ∃ answers, answer order g q limit = .ok answers ∧
      ∀ t, t ∈ answers ↔ ∃ st ∈ matching g q, q.asked st = t := by
  obtain ⟨ranked, hperm, -, hanswer⟩ :=
    exists_ranked order (oneEdgeEach_of_callReachable h).forms.closed hq limit
  refine ⟨_, hanswer, fun t => ?_⟩
  have hlength : ranked.length ≤ limit := by
    rw [hperm.length_eq]
    exact (List.length_filter_le _ _).trans hlimit
  rw [List.take_of_length_le hlength, List.mem_map]
  constructor
  · rintro ⟨st, hst, rfl⟩
    exact ⟨st, hperm.mem_iff.1 hst, rfl⟩
  · rintro ⟨st, hst, rfl⟩
    exact ⟨st, hperm.mem_iff.2 hst, rfl⟩

/-- `S c P` is held exactly when `S` is among the answers to `? c P`, and exactly when `P` is among
the answers to `S c ?`. -/
theorem queries_agree (h : CallReachable g) {limit : ℕ} (hlimit : (statements g).length ≤ limit)
    (q : Statement) (hq : q.subj ≠ .atomic .question) :
    ∃ subjects predicates,
      answer order g { q with subj := .atomic .question } limit = .ok subjects ∧
      answer order g { q with pred := .atomic .question } limit = .ok predicates ∧
      (hasAnswer g q = .ok true ↔ q.subj ∈ subjects) ∧
      (hasAnswer g q = .ok true ↔ q.pred ∈ predicates) := by
  have hg := oneEdgeEach_of_callReachable h
  obtain ⟨subjects, hsubjects, hmemS⟩ :=
    mem_answers_iff order h (q := { q with subj := .atomic .question }) (.inl rfl) hlimit
  obtain ⟨predicates, hpredicates, hmemP⟩ :=
    mem_answers_iff order h (q := { q with pred := .atomic .question }) (.inr rfl) hlimit
  -- the statement has an answer when an edge with its triple is there
  have hheld : hasAnswer g q = .ok true ↔ ∃ st ∈ statements g, st.triple = q.triple := by
    rw [hg.hasAnswer_iff]
    constructor
    · intro hne
      obtain ⟨t, ht⟩ := List.exists_mem_of_ne_nil _ hne
      exact ⟨q.withTruth t, mem_statements.2 ht, rfl⟩
    · rintro ⟨st, hst, htriple⟩
      rw [← htriple]
      exact List.ne_nil_of_mem (mem_statements.1 hst)
  refine ⟨subjects, predicates, hsubjects, hpredicates, ?_, ?_⟩
  · rw [hheld, hmemS]
    simp only [matching, List.mem_filter, Statement.asked, if_true, decide_eq_true_eq,
      Statement.triple, Prod.mk.injEq]
    constructor
    · rintro ⟨st, hst, hsubj, hcopula, hpred⟩
      exact ⟨st, ⟨hst, hcopula, hpred⟩, hsubj⟩
    · rintro ⟨st, ⟨hst, hcopula, hpred⟩, hsubj⟩
      exact ⟨st, hst, hsubj, hcopula, hpred⟩
  · rw [hheld, hmemP]
    simp only [matching, List.mem_filter, Statement.asked, if_neg hq, decide_eq_true_eq,
      Statement.triple, Prod.mk.injEq]
    constructor
    · rintro ⟨st, hst, hsubj, hcopula, hpred⟩
      exact ⟨st, ⟨hst, hcopula, hsubj⟩, hpred⟩
    · rintro ⟨st, ⟨hst, hcopula, hsubj⟩, hpred⟩
      exact ⟨st, hst, hsubj, hcopula, hpred⟩

end Agree

/-- `(x cat bird) -> eat` has three edges. -/
theorem queries_agree_catBird : ∃ subjects predicates,
    answer .stable (stateAfter (Call.exec (.add catBird)) Multigraph.empty)
        { catBird with subj := .atomic .question } 3 = .ok subjects ∧
      answer .stable (stateAfter (Call.exec (.add catBird)) Multigraph.empty)
        { catBird with pred := .atomic .question } 3 = .ok predicates ∧
      (hasAnswer (stateAfter (Call.exec (.add catBird)) Multigraph.empty) catBird = .ok true ↔
        catBird.subj ∈ subjects) ∧
      (hasAnswer (stateAfter (Call.exec (.add catBird)) Multigraph.empty) catBird = .ok true ↔
        catBird.pred ∈ predicates) := by
  refine queries_agree .stable callReachable_catBird ?_ catBird ?_
  · decide +kernel
  · decide

/-! ## What a run has told the graph -/

/-- The statements that a call adds. -/
def Call.added (g : DNarsGraph) : Call → List Statement
  | .add st => [st]
  | .includeInput input => input ++ conclusions g input

/-- The graph after a run of calls. -/
def afterCalls (calls : List Call) : DNarsGraph :=
  run (fun g (call : Call) => stateAfter call.exec g) Multigraph.empty calls

/-- One of the calls has added a form of `x`, as an input or as a conclusion that the engines have
drawn from the graph of that time. -/
def Told (calls : List Call) (x : Triple) : Prop :=
  ∃ before call after, calls = before ++ call :: after ∧
    ∃ st ∈ call.added (afterCalls before), x ∈ st.triple.forms

section Told

variable {g : DNarsGraph}

theorem oneEdgeEach_of_reachable (h : Reachable NoSelf g) : OneEdgeEach g :=
  ⟨formClosed_of_reachable (h.mono fun _ hst => hst.1), (irreflexive_of_reachable h).2⟩

/-- An addition succeeds, and adds the forms of the statement to what is held. -/
theorem add_known (h : Reachable NoSelf g) {st : Statement} (hst : NoSelf st)
    (hvalid : validStatement st = true) :
    ∃ event g', (add st).run g = .ok event g' ∧ Reachable NoSelf g' ∧
      ∀ x, truthsAt g' x ≠ [] ↔ truthsAt g x ≠ [] ∨ x ∈ st.triple.forms := by
  have hg := oneEdgeEach_of_reachable h
  have hstep : Reachable NoSelf (addStep g st) := .step h hst
  have hknown : ∀ x, truthsAt (addStep g st) x ≠ [] ↔
      truthsAt g x ≠ [] ∨ x ∈ st.triple.forms := by
    intro x
    rw [truthsAt_addStep_ne_nil_iff hg.forms.closed]
    refine or_congr_right' fun hnew => ?_
    constructor
    · exact fun hx => hx.2.2
    · intro hx
      -- the forms of a statement that is held are held
      refine ⟨hvalid, ?_, hx⟩
      rw [← hg.forms.agree st.triple x hst.1 hx]
      exact not_not.1 hnew
  cases hrun : (add st).run g with
  | ok event g' =>
      have hafter : addStep g st = g' := by rw [addStep, stateAfter, hrun]
      rw [hafter] at hstep hknown
      exact ⟨event, g', rfl, hstep, hknown⟩
  | error e g' =>
      have hcases := add_cases hg.forms.closed st
      rw [hrun] at hcases
      cases hcases with
      | interrupted u _ done _ hu hbad _ _ =>
          obtain ⟨x, hx, hlen⟩ := hbad
          exact absurd (hg.forms.length_truthsAt_forms hst.1 hu x hx) hlen
      | ambiguous _ htwo =>
          have hone := hg.length_le_one st.triple
          omega

theorem addSeq_known (sts : List Statement) : ∀ g : DNarsGraph, Reachable NoSelf g →
    (∀ st ∈ sts, NoSelf st ∧ validStatement st = true) →
    ∃ g', (addSeq sts).run g = .ok () g' ∧ Reachable NoSelf g' ∧
      ∀ x, truthsAt g' x ≠ [] ↔ truthsAt g x ≠ [] ∨ ∃ st ∈ sts, x ∈ st.triple.forms := by
  induction sts with
  | nil =>
      intro g h _
      refine ⟨g, rfl, h, fun x => ?_⟩
      simp
  | cons st sts ih =>
      intro g h hsts
      obtain ⟨hst, hvalid⟩ := hsts st List.mem_cons_self
      obtain ⟨event, g', hrun, h', hknown⟩ := add_known h hst hvalid
      obtain ⟨g'', hrest, h'', hknown'⟩ := ih g' h' fun x hx => hsts x (List.mem_cons_of_mem st hx)
      refine ⟨g'', ?_, h'', fun x => ?_⟩
      · rw [addSeq_cons, bind_ok (discard_ok hrun), hrest]
      · rw [hknown', hknown, or_assoc, List.exists_mem_cons_iff]

/-- A call adds the forms of its statements, those of the conclusions included. -/
theorem call_known (h : Reachable NoSelf g) {call : Call}
    (hcall : ∀ st ∈ call.inputs, Regular st) :
    Reachable NoSelf (stateAfter call.exec g) ∧
      ∀ x, truthsAt (stateAfter call.exec g) x ≠ [] ↔
        truthsAt g x ≠ [] ∨ ∃ st ∈ call.added g, x ∈ st.triple.forms := by
  cases call with
  | add st =>
      have hst : Regular st := hcall st List.mem_cons_self
      obtain ⟨event, g', hrun, h', hknown⟩ := add_known h hst.noSelf hst.valid
      have hafter : addStep g st = g' := by rw [addStep, stateAfter, hrun]
      rw [stateAfter_add, hafter]
      refine ⟨h', fun x => ?_⟩
      rw [hknown, Call.added]
      simp only [List.mem_singleton, exists_eq_left]
  | includeInput input =>
      have hg := oneEdgeEach_of_reachable h
      -- the conclusions are valid and not about one term twice, as the input is
      have hadded : ∀ st ∈ input ++ conclusions g input,
          NoSelf st ∧ validStatement st = true := by
        intro st hst
        rcases List.mem_append.1 hst with hin | hconcl
        · exact ⟨(hcall st hin).noSelf, (hcall st hin).valid⟩
        · obtain ⟨_, _, _, _, _, _, hderives⟩ :=
            (mem_conclusions_iff_of_closed hg.forms.closed).1 hconcl
          exact ⟨noSelf_of_conclusions hg.forms hcall st hconcl, hderives.valid⟩
      obtain ⟨g', hrun, h', hknown⟩ := addSeq_known _ g h hadded
      have hafter : stateAfter (addSeq (input ++ conclusions g input)) g = g' := by
        rw [stateAfter, hrun]
      show Reachable NoSelf (stateAfter (includeInput input) g) ∧ _
      rw [Call.exec, stateAfter_includeInput, hafter]
      exact ⟨h', hknown⟩

theorem told_snoc (calls : List Call) (call : Call) (x : Triple) :
    Told (calls ++ [call]) x ↔
      Told calls x ∨ ∃ st ∈ call.added (afterCalls calls), x ∈ st.triple.forms := by
  constructor
  · rintro ⟨before, c, after, heq, hadded⟩
    rcases List.eq_nil_or_concat after with rfl | ⟨after, last, rfl⟩
    · obtain ⟨rfl, hc⟩ := List.append_inj' heq rfl
      cases hc
      exact .inr hadded
    · rw [List.concat_eq_append, ← List.cons_append, ← List.append_assoc] at heq
      obtain ⟨rfl, -⟩ := List.append_inj' heq rfl
      exact .inl ⟨before, c, after, rfl, hadded⟩
  · rintro (⟨before, c, after, rfl, hadded⟩ | hadded)
    · exact ⟨before, c, after ++ [call], by rw [List.append_assoc, List.cons_append], hadded⟩
    · exact ⟨calls, call, [], rfl, hadded⟩

theorem afterCalls_known (calls : List Call)
    (hcalls : ∀ call ∈ calls, ∀ st ∈ call.inputs, Regular st) :
    Reachable NoSelf (afterCalls calls) ∧
      ∀ x, truthsAt (afterCalls calls) x ≠ [] ↔ Told calls x := by
  induction calls using List.reverseRecOn with
  | nil =>
      refine ⟨.init, fun x => ⟨fun hx => absurd (truthsAt_empty x) hx, ?_⟩⟩
      rintro ⟨before, call, after, heq, -⟩
      cases before <;> cases heq
  | append_singleton calls call ih =>
      obtain ⟨hreach, hknown⟩ := ih fun c hc => hcalls c (List.mem_append_left _ hc)
      have hafter : afterCalls (calls ++ [call]) = stateAfter call.exec (afterCalls calls) :=
        run_snoc _ _ _ _
      obtain ⟨hreach', hknown'⟩ := call_known hreach (hcalls call List.mem_concat_self)
      rw [hafter]
      refine ⟨hreach', fun x => ?_⟩
      rw [hknown', hknown, told_snoc]

/-- After every run, exactly the statements are held that some call has added in one of their
forms, given to it or derived by it. Nothing that was held is lost, and no question fails. -/
theorem hasAnswer_iff_told {calls : List Call}
    (hcalls : ∀ call ∈ calls, ∀ st ∈ call.inputs, Regular st) (q : Statement) :
    ∃ held, hasAnswer (afterCalls calls) q = .ok held ∧ (held = true ↔ Told calls q.triple) := by
  obtain ⟨hreach, hknown⟩ := afterCalls_known calls hcalls
  refine ⟨_, (oneEdgeEach_of_reachable hreach).hasAnswer_eq q, ?_⟩
  rw [Bool.not_eq_true', List.isEmpty_eq_false_iff, hknown]

end Told

/-- `(x cat bird) -> eat` is added, and then used by an `include`. -/
theorem hasAnswer_iff_told_catBird :
    ∃ held, hasAnswer (afterCalls [.add catBird, .includeInput [catBird]]) catBird = .ok held ∧
      (held = true ↔ Told [.add catBird, .includeInput [catBird]] catBird.triple) := by
  refine hasAnswer_iff_told (fun call hcall => ?_) catBird
  rcases List.mem_pair.1 hcall with rfl | rfl
  · exact List.forall_mem_singleton.2 regular_catBird
  · exact List.forall_mem_singleton.2 regular_catBird

end Siebog.DNars
