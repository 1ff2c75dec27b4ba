import Mathlib.Data.List.Range
import Mathlib.Data.List.Perm.Subperm

/-!
# Walks and tours

A walk is the list of the nodes that it visits. Its edges are the pairs of consecutive nodes; a node
added at its end adds one edge (`edges_concat`). A walk over the nodes below a number that visits
none of them twice and has as many nodes as there are visits them all (`perm_range`), and when it
returns to its first node it is a tour (`IsTour.of_nodup`).
-/

set_option autoImplicit false

namespace Siebog.Lib.Walk

variable {α : Type}

/-- The pairs of consecutive nodes. -/
def edges (walk : List α) : List (α × α) := walk.zip walk.tail

theorem edges_cons_cons (u v : α) (walk : List α) :
    edges (u :: v :: walk) = (u, v) :: edges (v :: walk) :=
  rfl

/-- A node at the end adds the edge from the last one. -/
theorem edges_concat {walk : List α} {u : α} (h : walk.getLast? = some u) (v : α) :
    edges (walk ++ [v]) = edges walk ++ [(u, v)] := by
  induction walk with
  | nil => cases h
  | cons w walk ih =>
      cases walk with
      | nil =>
          cases h
          rfl
      | cons w' walk =>
          rw [List.getLast?_cons_cons] at h
          have htail := ih h
          rw [List.cons_append] at htail
          rw [List.cons_append, List.cons_append, edges_cons_cons, htail, edges_cons_cons]
          rfl

theorem length_edges (walk : List α) : (edges walk).length = walk.length - 1 := by
  rw [edges, List.length_zip, List.length_tail]
  omega

/-- As many different numbers below `n` as there are. -/
theorem perm_range {walk : List ℕ} {n : ℕ} (hnodup : walk.Nodup) (hlt : ∀ v ∈ walk, v < n)
    (hlength : walk.length = n) : walk.Perm (List.range n) := by
  have hsubset : walk ⊆ List.range n := fun v hv => List.mem_range.2 (hlt v hv)
  refine (hnodup.subperm hsubset).perm_of_length_le ?_
  rw [List.length_range, hlength]

/-- A walk with fewer nodes than there are has not visited them all. -/
theorem exists_notMem {walk : List ℕ} {n : ℕ} (h : walk.length < n) : ∃ v < n, v ∉ walk := by
  by_contra hall
  have hsubset : List.range n ⊆ walk := by
    intro v hv
    by_contra hout
    exact hall ⟨v, List.mem_range.1 hv, hout⟩
  have hlength := (List.nodup_range.subperm hsubset).length_le
  rw [List.length_range] at hlength
  omega

/-- A walk through all the numbers below `n`, each once, and back to the first. -/
structure IsTour (n : ℕ) (walk : List ℕ) : Prop where
  length : walk.length = n + 1
  perm : (walk.take n).Perm (List.range n)
  closed : walk.getLast? = walk.head?

theorem IsTour.of_nodup {walk : List ℕ} {n first : ℕ} (hfirst : walk.head? = some first)
    (hnodup : walk.Nodup) (hlt : ∀ v ∈ walk, v < n) (hlength : walk.length = n) :
    IsTour n (walk ++ [first]) := by
  refine ⟨by simp [hlength], ?_, ?_⟩
  · rw [← hlength, List.take_left]
    exact hlength ▸ perm_range hnodup hlt hlength
  · rw [List.getLast?_concat, List.head?_append, hfirst]
    rfl

end Siebog.Lib.Walk
