import Siebog.DNars.Graph.Closure

/-!
# Forward inference

The five engines of the source. Each takes a judgement, looks up the edges at one of its terms, the
middle term, and combines the truth value of every edge with that of the judgement. An engine is
applied to all forms of each judgement, and `conclusions` collects what the five engines derive.

Equivalent forms of a judgement have the same conclusions (`conclusions_form`).
-/

set_option autoImplicit false

namespace Siebog.DNars

open Siebog.Lib VertexAPI StatementAPI

/-! ## Engines -/

namespace ForwardInference

/-- A conclusion counts only when it is valid. -/
def keepIfValid (st : Statement) : List Statement := if validStatement st then [st] else []

end ForwardInference

open ForwardInference (keepIfValid)

namespace DeductionAnalogy

/-- `M -> P` with `S -> M` gives `S -> P` by deduction, with `S ~ M` by analogy. -/
def inferForEdge (judgement : Statement) (e : DNarsEdge) : List Statement :=
  let p := e.inn.term
  -- a conclusion never relates a term to itself
  if judgement.subj = p then []
  else
    let derivedTruth :=
      if judgement.copula = .inherit then e.weight.deduction judgement.truth
      else e.weight.analogy judgement.truth false
    keepIfValid ⟨judgement.subj, .inherit, p, derivedTruth⟩

/-- The middle term is the predicate of the judgement, the premises `M -> P` are its outgoing edges. -/
def doApply (g : DNarsGraph) (judgement : Statement) : List Statement :=
  match getV g judgement.pred with
  | some m => (g.outE m .inherit).flatMap (inferForEdge judgement)
  | none => []

end DeductionAnalogy

namespace AnalogyResemblance

/-- `M ~ P` with `S -> M` gives `S -> P` by analogy, with `S ~ M` gives `S ~ P` by resemblance. -/
def inferForEdge (judgement : Statement) (e : DNarsEdge) : List Statement :=
  let p := e.inn.term
  -- a conclusion about one term is none
  if judgement.subj = p then []
  else
    let derived : Statement :=
      if judgement.copula = .inherit then
        ⟨judgement.subj, .inherit, p, e.weight.analogy judgement.truth true⟩
      else ⟨judgement.subj, .similar, p, e.weight.resemblance judgement.truth⟩
    keepIfValid derived

/-- The middle term is the predicate of the judgement, the premises `M ~ P` are its outgoing edges. -/
def doApply (g : DNarsGraph) (judgement : Statement) : List Statement :=
  match getV g judgement.pred with
  | some m => (g.outE m .similar).flatMap (inferForEdge judgement)
  | none => []

end AnalogyResemblance

namespace AbductionComparisonAnalogy

/-- `S -> P`. -/
def abduction (p : Term) (judgement : Statement) (e : DNarsEdge) : List Statement :=
  keepIfValid ⟨judgement.subj, .inherit, p, e.weight.abduction judgement.truth⟩

/-- `S ~ P`. -/
def comparison (p : Term) (judgement : Statement) (e : DNarsEdge) : List Statement :=
  keepIfValid ⟨judgement.subj, .similar, p, e.weight.comparison judgement.truth⟩

/-- `P -> S`. -/
def analogy (p : Term) (judgement : Statement) (e : DNarsEdge) : List Statement :=
  keepIfValid ⟨p, .inherit, judgement.subj, e.weight.analogy judgement.truth false⟩

/-- `P -> M` with `S -> M` gives `S -> P` by abduction and `S ~ P` by comparison, with `S ~ M` gives
`P -> S` by analogy. -/
def inferForEdge (judgement : Statement) (e : DNarsEdge) : List Statement :=
  let p := e.out.term
  if judgement.subj = p then []
  else if judgement.copula = .inherit then abduction p judgement e ++ comparison p judgement e
  else analogy p judgement e

/-- The middle term is the predicate of the judgement, the premises `P -> M` are its incoming edges. -/
def doApply (g : DNarsGraph) (judgement : Statement) : List Statement :=
  match getV g judgement.pred with
  | some m => (g.inE m .inherit).flatMap (inferForEdge judgement)
  | none => []

end AbductionComparisonAnalogy

namespace InductionComparison

/-- `M -> P` with `M -> S` gives `S -> P` by induction and `S ~ P` by comparison. -/
def inferForEdge (judgement : Statement) (e : DNarsEdge) : List Statement :=
  let p := e.inn.term
  if judgement.pred = p then []
  else
    keepIfValid ⟨judgement.pred, .inherit, p, e.weight.induction judgement.truth⟩ ++
      keepIfValid ⟨judgement.pred, .similar, p, e.weight.comparison judgement.truth⟩

/-- The middle term is the subject of the judgement, which has to be an inheritance. The judgement
itself is among the edges when the graph holds it; `inferForEdge` passes over it. -/
def doApply (g : DNarsGraph) (judgement : Statement) : List Statement :=
  if judgement.copula ≠ .inherit then []
  else
    match getV g judgement.subj with
    | some m => (g.outE m .inherit).flatMap (inferForEdge judgement)
    | none => []

end InductionComparison

namespace AnalogyInv

/-- `M ~ P` with `M -> S` gives `P -> S` by analogy. -/
def inferForEdge (judgement : Statement) (e : DNarsEdge) : List Statement :=
  let p := e.inn.term
  if judgement.pred = p then []
  else keepIfValid ⟨p, .inherit, judgement.pred, e.weight.analogy judgement.truth true⟩

/-- The middle term is the subject of the judgement, which has to be an inheritance: similarities are
used only by the engines that meet the middle term in their predicate. -/
def doApply (g : DNarsGraph) (judgement : Statement) : List Statement :=
  if judgement.copula ≠ .inherit then []
  else
    match getV g judgement.subj with
    | some m => (g.outE m .similar).flatMap (inferForEdge judgement)
    | none => []

end AnalogyInv

/-- A forward inference engine: what it derives from one judgement. -/
abbrev Engine := DNarsGraph → Statement → List Statement

/-- An engine applied to every form of a judgement. -/
def ForwardInference.apply (engine : Engine) (g : DNarsGraph) (judgement : Statement) :
    List Statement :=
  judgement.allImages.flatMap (engine g)

def ForwardInference.applyAll (engine : Engine) (g : DNarsGraph) (judgements : List Statement) :
    List Statement :=
  judgements.flatMap (ForwardInference.apply engine g)

/-- The engines in the order in which the source applies them. -/
def engines : List Engine :=
  [DeductionAnalogy.doApply, AnalogyResemblance.doApply, AbductionComparisonAnalogy.doApply,
    InductionComparison.doApply, AnalogyInv.doApply]

/-- What follows from the statements by one application of each engine. -/
def conclusions (g : DNarsGraph) (input : List Statement) : List Statement :=
  engines.flatMap fun engine => ForwardInference.applyAll engine g input

/-- Add the statements and then what follows from them. -/
def includeInput (input : List Statement) : GraphM Unit := do
  -- the conclusions are drawn before anything of the input is stored
  let concl := conclusions (← get) input
  addSeq (input ++ concl)

/-- The graph after an input is the one that the input and its conclusions are added to. -/
theorem stateAfter_includeInput (g : DNarsGraph) (input : List Statement) :
    stateAfter (includeInput input) g = stateAfter (addSeq (input ++ conclusions g input)) g := rfl

/-! ## The lookup of the middle term -/

section Lookup

variable {g : DNarsGraph}

/-- In a closed graph the lookup of the middle term can be left out: without a vertex there are no
edges. -/
theorem lookup_eq {α : Type} (t : Term) (edges : DNarsVertex → List α)
    (hnone : DNarsVertex.ofTerm t ∉ g.vertices → edges (.ofTerm t) = []) :
    (match getV g t with
      | some m => edges m
      | none => []) = edges (.ofTerm t) := by
  rw [getV_eq]
  split_ifs with h
  · rfl
  · exact (hnone h).symm

/-- No edge leaves a vertex that the graph does not have. -/
theorem outE_eq_nil (hg : g.Closed) {v : DNarsVertex} (l : Copula) (hv : v ∉ g.vertices) :
    g.outE v l = [] := by
  rw [List.eq_nil_iff_forall_not_mem]
  intro e he
  obtain ⟨hmem, hout, -⟩ := Multigraph.mem_outE.1 he
  exact hv (hout ▸ (hg e hmem).1)

/-- No edge enters a vertex that the graph does not have. -/
theorem inE_eq_nil (hg : g.Closed) {v : DNarsVertex} (l : Copula) (hv : v ∉ g.vertices) :
    g.inE v l = [] := by
  rw [List.eq_nil_iff_forall_not_mem]
  intro e he
  obtain ⟨hmem, hinn, -⟩ := Multigraph.mem_inE.1 he
  exact hv (hinn ▸ (hg e hmem).2)

end Lookup

/-! ## Independence of the form of a judgement -/

/-- Equivalent forms of a judgement have the same conclusions. -/
theorem conclusions_form (g : DNarsGraph) {st st' : Statement} (hst : st.PlaceholderOnly)
    (hform : st' ∈ st.allImages) : (conclusions g [st']).Perm (conclusions g [st]) := by
  have hperm : st'.allImages.Perm st.allImages := Statement.allImages_perm hst hform
  apply List.Perm.flatMap_left
  intro engine _
  rw [ForwardInference.applyAll, ForwardInference.applyAll, List.flatMap_singleton,
    List.flatMap_singleton]
  -- each engine sees the forms of both statements, in another order
  exact hperm.flatMap_right (engine g)

/-- `cat -> (/ eat * bird) (1.00,0.90)`, a form of `catBird` -/
def catImage : Statement :=
  ⟨.atomic (atom "cat"), .inherit,
    .compound .extImage [atom "eat", AtomicTerm.placeholder, atom "bird"],
    ⟨.val 1, .val (9 / 10)⟩⟩

theorem conclusions_catImage :
    (conclusions (addStep Multigraph.empty catBird) [catImage]).Perm
      (conclusions (addStep Multigraph.empty catBird) [catBird]) :=
  conclusions_form _ (by decide) (by decide +kernel)

end Siebog.DNars
