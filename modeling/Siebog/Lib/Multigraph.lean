import Mathlib.Data.List.Perm.Basic
import Mathlib.Data.List.Perm.Subperm

/-!
# Labelled multigraphs with weights

A property graph as a store sees it: a list of vertices and a list of directed, labelled, weighted
edges, with repetitions. An edge's `key` is what a lookup goes by: source, label and target. Several
edges may share a key.

`weightsAt g k` lists the weights of the edges with key `k`. It determines the edges up to order
(`edges_perm_of_weightsAt`), and it changes in one place under an insertion (`weightsAt_addEdge`)
and an update (`weightsAt_setWeight`), so an invariant of a store is stated and kept on `weightsAt`
alone.
-/

set_option autoImplicit false

namespace Siebog.Lib

universe u

/-- A directed, labelled, weighted edge from `out` to `inn`. -/
structure Edge (V L W : Type u) where
  out : V
  label : L
  inn : V
  weight : W
  deriving DecidableEq

/-- The endpoints and the label. -/
def Edge.key {V L W : Type u} (e : Edge V L W) : V × L × V := (e.out, e.label, e.inn)

/-- Vertices and edges, both with repetitions. -/
structure Multigraph (V L W : Type u) where
  vertices : List V
  edges : List (Edge V L W)
  deriving DecidableEq

namespace Multigraph

variable {V L W : Type u}

/-- The graph without vertices and edges. -/
def empty : Multigraph V L W := ⟨[], []⟩

/-- Insert a vertex, also where there is one like it. -/
def addVertex (g : Multigraph V L W) (v : V) : Multigraph V L W :=
  { g with vertices := g.vertices ++ [v] }

/-- Insert an edge, also where there is one with its key. -/
def addEdge (g : Multigraph V L W) (e : Edge V L W) : Multigraph V L W :=
  { g with edges := g.edges ++ [e] }

section Lookup

variable [DecidableEq V] [DecidableEq L]

/-- The edges with label `l` that leave `v`. -/
def outE (g : Multigraph V L W) (v : V) (l : L) : List (Edge V L W) :=
  g.edges.filter fun e => e.out = v ∧ e.label = l

/-- The edges with label `l` that enter `v`. -/
def inE (g : Multigraph V L W) (v : V) (l : L) : List (Edge V L W) :=
  g.edges.filter fun e => e.inn = v ∧ e.label = l

/-- The edges with label `l` that lead from `u` to `v`. -/
def between (g : Multigraph V L W) (u : V) (l : L) (v : V) : List (Edge V L W) :=
  (g.outE u l).filter fun e => e.inn = v

/-- The weights of the edges with key `k`. -/
def weightsAt (g : Multigraph V L W) (k : V × L × V) : List W :=
  (g.edges.filter fun e => e.key = k).map (·.weight)

/-- Give every edge with key `k` the weight `w`. -/
def setWeight (g : Multigraph V L W) (k : V × L × V) (w : W) : Multigraph V L W :=
  { g with edges := g.edges.map fun e => if e.key = k then { e with weight := w } else e }

end Lookup

/-- Every edge runs between vertices of the graph. -/
def Closed (g : Multigraph V L W) : Prop :=
  ∀ e ∈ g.edges, e.out ∈ g.vertices ∧ e.inn ∈ g.vertices

/-- The empty graph has no edges to check. -/
theorem closed_empty : (empty : Multigraph V L W).Closed := by
  intro e he
  cases he

/-- A new vertex leaves the ends of the edges in the graph. -/
theorem Closed.addVertex {g : Multigraph V L W} (h : g.Closed) (v : V) :
    (g.addVertex v).Closed := by
  intro e he
  obtain ⟨hout, hinn⟩ := h e he
  exact ⟨List.mem_append_left _ hout, List.mem_append_left _ hinn⟩

/-- A graph stays closed when an edge is added between its vertices. -/
theorem Closed.addEdge {g : Multigraph V L W} (h : g.Closed) {e : Edge V L W}
    (hout : e.out ∈ g.vertices) (hinn : e.inn ∈ g.vertices) : (g.addEdge e).Closed := by
  intro e' he'
  rcases List.mem_append.1 he' with he' | he'
  · exact h e' he'
  · rw [List.mem_singleton.1 he']
    exact ⟨hout, hinn⟩

section Laws

variable [DecidableEq V] [DecidableEq L] {g : Multigraph V L W}

@[simp] theorem mem_outE {v : V} {l : L} {e : Edge V L W} :
    e ∈ g.outE v l ↔ e ∈ g.edges ∧ e.out = v ∧ e.label = l := by
  simp [outE]

@[simp] theorem mem_inE {v : V} {l : L} {e : Edge V L W} :
    e ∈ g.inE v l ↔ e ∈ g.edges ∧ e.inn = v ∧ e.label = l := by
  simp [inE]

/-- The edges between two vertices are those with their key. -/
theorem between_eq (g : Multigraph V L W) (u : V) (l : L) (v : V) :
    g.between u l v = g.edges.filter fun e => e.key = (u, l, v) := by
  rw [between, outE, List.filter_filter]
  apply List.filter_congr
  intro e _
  simp only [Edge.key, Prod.mk.injEq, Bool.decide_and]
  rw [Bool.and_comm, Bool.and_assoc]

/-- The weights at a key are those of the edges between its vertices. -/
theorem weightsAt_eq (g : Multigraph V L W) (u : V) (l : L) (v : V) :
    g.weightsAt (u, l, v) = (g.between u l v).map (·.weight) := by
  rw [between_eq, weightsAt]

/-- The edges between two vertices are known from their weights. -/
theorem between_eq_map (g : Multigraph V L W) (u : V) (l : L) (v : V) :
    g.between u l v = (g.weightsAt (u, l, v)).map fun w => ⟨u, l, v, w⟩ := by
  rw [weightsAt_eq, List.map_map]
  -- the edges between two vertices differ in their weights only
  have hid : ∀ e ∈ g.between u l v, e = ⟨u, l, v, e.weight⟩ := by
    intro e he
    rw [between_eq, List.mem_filter, decide_eq_true_eq] at he
    obtain ⟨out, label, inn, w⟩ := e
    have hkey := he.2
    simp only [Edge.key, Prod.mk.injEq] at hkey
    obtain ⟨rfl, rfl, rfl⟩ := hkey
    rfl
  calc g.between u l v = (g.between u l v).map id := (List.map_id _).symm
    _ = _ := List.map_congr_left fun e he => hid e he

/-- An edge is present exactly when its weight is among those of its key. -/
theorem mem_edges_iff {e : Edge V L W} : e ∈ g.edges ↔ e.weight ∈ g.weightsAt e.key := by
  rw [weightsAt, List.mem_map]
  constructor
  · intro he
    exact ⟨e, List.mem_filter.2 ⟨he, decide_eq_true rfl⟩, rfl⟩
  · rintro ⟨e', he', hw⟩
    rw [List.mem_filter, decide_eq_true_eq] at he'
    obtain ⟨hmem, hkey⟩ := he'
    -- an edge is its key and its weight
    have heq : e' = e := by
      cases e
      cases e'
      simp only [Edge.key, Prod.mk.injEq] at hkey hw
      obtain ⟨rfl, rfl, rfl⟩ := hkey
      rw [hw]
    rwa [← heq]

/-- A new edge adds its weight at its key. -/
theorem weightsAt_addEdge (e : Edge V L W) (k : V × L × V) :
    (g.addEdge e).weightsAt k = g.weightsAt k ++ if e.key = k then [e.weight] else [] := by
  rw [weightsAt, addEdge, List.filter_append, List.map_append]
  by_cases h : e.key = k
  · simp [weightsAt, h]
  · simp [weightsAt, h]

/-- An update gives one weight to all edges with its key, and touches no others. -/
theorem weightsAt_setWeight (k k' : V × L × V) (w : W) :
    (g.setWeight k w).weightsAt k' =
      if k' = k then (g.weightsAt k').map fun _ => w else g.weightsAt k' := by
  rcases g with ⟨vs, es⟩
  simp only [weightsAt, setWeight]
  induction es with
  | nil => simp
  | cons e es ih =>
      -- an update changes no key, so the same edges are listed before and after
      have hkey : (if e.key = k then { e with weight := w } else e).key = e.key := by
        split <;> rfl
      rw [List.map_cons, List.filter_cons, hkey, List.filter_cons]
      by_cases hk : k' = k <;> by_cases he : e.key = k' <;> simp_all

/-- An update moves no edge. -/
theorem Closed.setWeight (h : g.Closed) (k : V × L × V) (w : W) : (g.setWeight k w).Closed := by
  intro e he
  obtain ⟨e', he', rfl⟩ := List.mem_map.1 he
  split
  · exact h e' he'
  · exact h e' he'

/-- The number of copies of an edge is the number of copies of its weight under its key. -/
theorem count_edges [DecidableEq W] (e : Edge V L W) :
    g.edges.count e = (g.weightsAt e.key).count e.weight := by
  rcases g with ⟨vs, es⟩
  simp only [weightsAt]
  induction es with
  | nil => rfl
  | cons e' es ih =>
      rw [List.count_cons, ih, List.filter_cons]
      by_cases hkey : e'.key = e.key
      · have hiff : e' = e ↔ e'.weight = e.weight := by
          cases e
          cases e'
          simp_all [Edge.key]
        simp [hkey, List.count_cons, hiff]
      · have hne : e' ≠ e := by
          rintro rfl
          exact hkey rfl
        simp [hkey, hne]

/-- Graphs with the same weights under every key have the same edges, up to order. -/
theorem edges_perm_of_weightsAt [DecidableEq W] {h : Multigraph V L W}
    (hw : ∀ k, (g.weightsAt k).Perm (h.weightsAt k)) : g.edges.Perm h.edges := by
  rw [List.perm_iff_count]
  intro e
  rw [count_edges, count_edges, (hw e.key).count_eq]

end Laws

end Multigraph

end Siebog.Lib
