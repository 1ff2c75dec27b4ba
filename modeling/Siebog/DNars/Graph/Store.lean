import Siebog.Lib.Multigraph
import Siebog.DNars.Graph.Wrappers
import Siebog.DNars.Base.Text

/-!
# Vertices and edges of the graph

The graph store is a multigraph whose vertices hold printed terms and whose edges carry a copula
and a truth value. `VertexAPI` and `EdgeAPI` are the lookups and insertions of the source. Mutating
operations run in `GraphM`, which keeps the changes made before an exception, as the store does.

`truthsAt g x` lists the truth values of the edges for the triple `x`. The lookups are determined by
it (`getE_eq`), and so is the set of statements a graph holds (`mem_statements`).
-/

set_option autoImplicit false

namespace Siebog.DNars

open Siebog.Lib

/-- The property graph: vertices for terms, edges labelled with copulas that carry truth values. -/
abbrev DNarsGraph := Multigraph DNarsVertex Copula Truth

/-- An edge with its two vertices, its copula and its truth value. -/
abbrev DNarsEdge := Edge DNarsVertex Copula Truth

/-- The exceptions of the graph operations. -/
inductive GraphException where
  | multipleEdges (st : Statement)
  | noEdge (st : Statement)
  deriving DecidableEq

/-- The texts of the exceptions. -/
def GraphException.message : GraphException → String
  | multipleEdges st => "Multiple edges of the same copula for " ++ st.id
  | noEdge st => "No edge for statement " ++ st.id

/-- A graph operation: an exception or a result, and the graph it leaves behind. -/
abbrev GraphM := EStateM GraphException DNarsGraph

/-- Read the graph. -/
def query {α : Type} (f : DNarsGraph → Except GraphException α) : GraphM α := fun g =>
  match f g with
  | .ok a => .ok a g
  | .error e => .error e g

namespace VertexAPI

/-- The first vertex whose stored term has the printed form of `term`. -/
def getV (g : DNarsGraph) (term : Term) : Option DNarsVertex :=
  g.vertices.find? fun v => v.id = term.id

/-- The vertex of a term, added when it is missing. -/
def getOrAddV (term : Term) : GraphM DNarsVertex := do
  match getV (← get) term with
  | some v => return v
  | none =>
    let added := DNarsVertex.ofTerm term
    modify (·.addVertex added)
    return added

end VertexAPI

namespace EdgeAPI

open VertexAPI

/-- A new edge; one with the same ends and the same copula may be there already. -/
def addE (subj : DNarsVertex) (copula : Copula) (pred : DNarsVertex) (truth : Truth) :
    GraphM Unit :=
  modify (·.addEdge ⟨subj, copula, pred, truth⟩)

/-- The edge for the statement's subject, copula and predicate. -/
def getE (g : DNarsGraph) (st : Statement) : Except GraphException (Option DNarsEdge) :=
  match getV g st.subj, getV g st.pred with
  | some subj, some pred =>
    match g.between subj st.copula pred with
    | [] => .ok none
    | [h] => .ok (some h)
    -- the assertion of the source: one edge of a copula between two vertices
    | _ => .error (.multipleEdges st)
  | _, _ => .ok none

/-- Store a truth value on an edge that `getE` has found, the only one with its key. -/
def setTruth (e : DNarsEdge) (value : Truth) : GraphM Unit := modify (·.setWeight e.key value)

end EdgeAPI

/-! ## Triples -/

/-- Subject, copula and predicate of a statement. -/
abbrev Triple := Term × Copula × Term

/-- What a statement says, without its truth value. -/
def Statement.triple (st : Statement) : Triple := (st.subj, st.copula, st.pred)

/-- The key of the edges for a triple. -/
def Triple.key (x : Triple) : DNarsVertex × Copula × DNarsVertex :=
  (.ofTerm x.1, x.2.1, .ofTerm x.2.2)

/-- Triples are told apart by the keys of their edges. -/
theorem Triple.key_inj {x y : Triple} : x.key = y.key ↔ x = y := by
  rcases x with ⟨s, c, p⟩
  rcases y with ⟨s', c', p'⟩
  simp [Triple.key, DNarsVertex.ofTerm_inj]

/-- The statement an edge stands for. -/
def edgeStatement (e : DNarsEdge) : Statement := ⟨e.out.term, e.label, e.inn.term, e.weight⟩

/-- The statement of an edge stands at the edge's key. -/
theorem key_edgeStatement (e : DNarsEdge) : Triple.key (edgeStatement e).triple = e.key := by
  simp [Triple.key, Statement.triple, edgeStatement, Edge.key]

/-- The statements the graph holds, one for each edge. -/
def statements (g : DNarsGraph) : List Statement := g.edges.map edgeStatement

/-- The truth values of the edges for a triple. -/
def truthsAt (g : DNarsGraph) (x : Triple) : List Truth := g.weightsAt x.key

@[simp] theorem truthsAt_empty (x : Triple) : truthsAt Multigraph.empty x = [] := rfl

/-- The statements of a graph are the triples with the truths at them. -/
theorem mem_statements {g : DNarsGraph} {st : Statement} :
    st ∈ statements g ↔ st.truth ∈ truthsAt g st.triple := by
  constructor
  · intro h
    obtain ⟨e, he, rfl⟩ := List.mem_map.1 h
    rw [truthsAt, key_edgeStatement]
    exact Multigraph.mem_edges_iff.1 he
  · intro h
    refine List.mem_map.2 ⟨⟨.ofTerm st.subj, st.copula, .ofTerm st.pred, st.truth⟩, ?_, ?_⟩
    · exact Multigraph.mem_edges_iff.2 h
    · simp [edgeStatement]

section Lookup

open VertexAPI EdgeAPI

variable {g : DNarsGraph}

/-- A vertex has a term's text exactly when it is the term's vertex. -/
theorem id_eq_iff {v : DNarsVertex} {t : Term} : v.id = t.id ↔ v = .ofTerm t := by
  constructor
  · intro h
    obtain ⟨id, s, rfl⟩ := v
    have hst : s = t := Term.id_injective h
    rw [hst]
    rfl
  · rintro rfl
    rfl

/-- A term's vertex is found exactly when the graph has it. -/
theorem getV_eq (g : DNarsGraph) (t : Term) :
    getV g t = if DNarsVertex.ofTerm t ∈ g.vertices then some (.ofTerm t) else none := by
  cases hfind : getV g t with
  | none =>
      rw [getV, List.find?_eq_none] at hfind
      rw [if_neg]
      intro hmem
      exact hfind _ hmem (decide_eq_true rfl)
  | some v =>
      have hid := List.find?_some hfind
      rw [decide_eq_true_eq, id_eq_iff] at hid
      subst hid
      rw [if_pos (List.mem_of_find?_eq_some hfind)]

/-- The ends of an edge are vertices of the graph. -/
theorem endpoints_of_truthsAt (hg : g.Closed) {x : Triple} (hx : truthsAt g x ≠ []) :
    DNarsVertex.ofTerm x.1 ∈ g.vertices ∧ DNarsVertex.ofTerm x.2.2 ∈ g.vertices := by
  obtain ⟨t, ht⟩ := List.exists_mem_of_ne_nil _ hx
  exact hg ⟨.ofTerm x.1, x.2.1, .ofTerm x.2.2, t⟩ (Multigraph.mem_edges_iff.2 ht)

/-- In a closed graph a lookup depends on the truth values of the triple only. -/
theorem getE_eq (hg : g.Closed) (st : Statement) :
    getE g st =
      match truthsAt g st.triple with
      | [] => .ok none
      | [t] => .ok (some ⟨.ofTerm st.subj, st.copula, .ofTerm st.pred, t⟩)
      | _ => .error (.multipleEdges st) := by
  by_cases hmem : DNarsVertex.ofTerm st.subj ∈ g.vertices ∧ DNarsVertex.ofTerm st.pred ∈ g.vertices
  · have hbetween : g.between (.ofTerm st.subj) st.copula (.ofTerm st.pred) =
        (truthsAt g st.triple).map fun t => ⟨.ofTerm st.subj, st.copula, .ofTerm st.pred, t⟩ :=
      Multigraph.between_eq_map _ _ _ _
    rw [getE, getV_eq, if_pos hmem.1, getV_eq, if_pos hmem.2]
    simp only [hbetween]
    rcases truthsAt g st.triple with _ | ⟨t, _ | ⟨u, l⟩⟩ <;> rfl
  · -- a missing endpoint leaves no edge
    have hnil : truthsAt g st.triple = [] := by
      by_contra hne
      exact hmem (endpoints_of_truthsAt hg hne)
    rw [hnil, getE, getV_eq, getV_eq]
    rw [not_and_or] at hmem
    rcases hmem with hs | hp
    · rw [if_neg hs]
    · rw [if_neg hp]
      split
      · rename_i h
        cases h
      · rfl

end Lookup

end Siebog.DNars
