import Siebog.Lib.Utf16
import Mathlib.Order.Interval.Finset.Nat

/-!
# Round-robin selection of nodes

Both selectors keep a counter of 32 bits, take its remainder by the number of nodes and count on.
After `2 ^ 31` calls the counter is negative, and so are most of its remainders.

`selectors_fair_iff` says for which runs every call returns a node and the nodes take turns.
-/

set_option autoImplicit false

namespace Siebog.Cluster

open Siebog.Lib.Utf16

section Model

/-- A selector is its counter. -/
structure Selector where
  index : BitVec 32

namespace Selector

/-- A new selector. -/
def start : Selector := ⟨0⟩

/-- `index++ % length`: the remainder has the sign of the counter. -/
def position (s : Selector) (length : ℕ) : ℤ := s.index.toInt.tmod length

/-- Both counters are 32 bits wide and wrap around. -/
def increment (s : Selector) : Selector := ⟨s.index + 1⟩

end Selector

/-- `none` is the exception for an index outside the array. -/
def elementAt (nodes : List Text) (position : ℤ) : Option Text :=
  if 0 ≤ position then nodes[position.toNat]? else none

/-- The counter has been incremented when the exception is thrown. -/
def RRClusterNodeSelector.selectNode (_clusterName : Text)
    (_connectedNodes availableNodes : List Text) (s : Selector) : Option Text × Selector :=
  (elementAt availableNodes (s.position availableNodes.length), s.increment)

/-- The node for a call to a deployment. The names of the deployment play no part in it. -/
def RRDeploymentNodeSelector.selectNode (eligibleNodes : List Text)
    (_appName _moduleName _distinctName : Text) (s : Selector) : Option Text × Selector :=
  (elementAt eligibleNodes (s.position eligibleNodes.length), s.increment)

/-- The arguments of a call besides the nodes to choose from. -/
structure ClusterCall where
  clusterName : Text
  connectedNodes : List Text

/-- What a caller names: an application, a module and a distinct name. -/
structure DeploymentCall where
  appName : Text
  moduleName : Text
  distinctName : Text

/-- What a run of calls returns, with the position that each call chose. -/
def run {γ : Type} (selectNode : γ → Selector → Option Text × Selector) (length : ℕ) :
    List γ → Selector → List (ℤ × Option Text)
  | [], _ => []
  | call :: calls, s =>
    (s.position length, (selectNode call s).1) ::
      run selectNode length calls (selectNode call s).2

/-- The run of a cluster selector on a fixed list of nodes. -/
def runCluster (nodes : List Text) (calls : List ClusterCall) : List (ℤ × Option Text) :=
  run (fun call => RRClusterNodeSelector.selectNode call.clusterName call.connectedNodes nodes)
    nodes.length calls .start

/-- The positions and nodes that a sequence of calls gets. -/
def runDeployment (nodes : List Text) (calls : List DeploymentCall) : List (ℤ × Option Text) :=
  run (fun call =>
      RRDeploymentNodeSelector.selectNode nodes call.appName call.moduleName call.distinctName)
    nodes.length calls .start

end Model

/-! ## What is asked of a run -/

/-- Every call returns the node at its position, and any `length` consecutive calls choose each
position exactly once. -/
structure Fair (nodes : List Text) (outcomes : List (ℤ × Option Text)) : Prop where
  inBounds : ∀ outcome ∈ outcomes, ∃ n : ℕ, ∃ h : n < nodes.length,
    outcome = ((n : ℤ), some (nodes.get ⟨n, h⟩))
  window : ∀ i, i + nodes.length ≤ outcomes.length →
    (((outcomes.drop i).take nodes.length).map Prod.fst).Perm
      ((List.range nodes.length).map Nat.cast)

/-- The counter of a run of this many calls never reaches a remainder that is negative. -/
def Short (length calls : ℕ) : Prop :=
  length = 1 ∨ calls ≤ 2 ^ 31 ∨ calls = 2 ^ 31 + 1 ∧ length ∣ 2 ^ 31

/-! ## The run of either selector -/

/-- The outcome of the call with this number. -/
def outcomeAt (nodes : List Text) (i : ℕ) : ℤ × Option Text :=
  let p := Selector.position ⟨BitVec.ofNat 32 i⟩ nodes.length
  (p, elementAt nodes p)

/-- A call chooses by the counter and counts on. -/
def Selects {γ : Type} (nodes : List Text) (selectNode : γ → Selector → Option Text × Selector) :
    Prop :=
  ∀ call s, selectNode call s = (elementAt nodes (s.position nodes.length), s.increment)

theorem increment_ofNat (i : ℕ) :
    Selector.increment ⟨BitVec.ofNat 32 i⟩ = ⟨BitVec.ofNat 32 (i + 1)⟩ := by
  rw [BitVec.ofNat_add]
  rfl

theorem run_eq {γ : Type} {nodes : List Text} {selectNode : γ → Selector → Option Text × Selector}
    (hselect : Selects nodes selectNode) (calls : List γ) (i : ℕ) :
    run selectNode nodes.length calls ⟨BitVec.ofNat 32 i⟩ =
      (List.range' i calls.length).map (outcomeAt nodes) := by
  induction calls generalizing i with
  | nil => rfl
  | cons call calls ih =>
      rw [run, hselect, increment_ofNat, ih, List.length_cons, List.range'_succ, List.map_cons]
      rfl

theorem runCluster_eq (nodes : List Text) (calls : List ClusterCall) :
    runCluster nodes calls = (List.range' 0 calls.length).map (outcomeAt nodes) :=
  run_eq (fun _ _ => rfl) calls 0

theorem runDeployment_eq (nodes : List Text) (calls : List DeploymentCall) :
    runDeployment nodes calls = (List.range' 0 calls.length).map (outcomeAt nodes) :=
  run_eq (fun _ _ => rfl) calls 0

/-! ## The counter and its remainders -/

theorem toInt_of_lt {i : ℕ} (h : i < 2 ^ 31) : (BitVec.ofNat 32 i).toInt = i := by
  rw [BitVec.toInt_ofNat', Int.bmod_def]
  omega

/-- After `2 ^ 31` calls the counter has the least value that it can have. -/
theorem toInt_of_ge {i : ℕ} (hlow : 2 ^ 31 ≤ i) (hhigh : i < 2 ^ 32) :
    (BitVec.ofNat 32 i).toInt = -((2 ^ 32 - i : ℕ) : ℤ) := by
  rw [BitVec.toInt_ofNat', Int.bmod_def]
  omega

theorem position_of_lt {i : ℕ} (h : i < 2 ^ 31) (n : ℕ) :
    Selector.position ⟨BitVec.ofNat 32 i⟩ n = ((i % n : ℕ) : ℤ) := by
  rw [Selector.position, toInt_of_lt h, ← Int.ofNat_tmod]

theorem position_of_ge {i : ℕ} (hlow : 2 ^ 31 ≤ i) (hhigh : i < 2 ^ 32) (n : ℕ) :
    Selector.position ⟨BitVec.ofNat 32 i⟩ n = -(((2 ^ 32 - i) % n : ℕ) : ℤ) := by
  rw [Selector.position, toInt_of_ge hlow hhigh, Int.neg_tmod, ← Int.ofNat_tmod]

/-- In a short run the calls choose one position after the other. -/
theorem position_of_short {n k i : ℕ} (hshort : Short n k) (hi : i < k) :
    Selector.position ⟨BitVec.ofNat 32 i⟩ n = ((i % n : ℕ) : ℤ) := by
  rcases hshort with rfl | hk | ⟨rfl, hdvd⟩
  · rw [Selector.position, Nat.mod_one]
    exact Int.tmod_one _
  · exact position_of_lt (by omega) n
  · rcases Nat.lt_succ_iff_lt_or_eq.1 hi with hi | rfl
    · exact position_of_lt hi n
    · have hzero : (2 ^ 32 - 2 ^ 31) % n = 0 := Nat.mod_eq_zero_of_dvd hdvd
      rw [position_of_ge le_rfl (by decide), hzero, Nat.mod_eq_zero_of_dvd hdvd]
      rfl

/-- Any `n` numbers in a row have all remainders. -/
theorem range'_mod_perm (i n : ℕ) : ((List.range' i n).map (· % n)).Perm (List.range n) := by
  have hinj : ∀ a ∈ List.range' i n, ∀ b ∈ List.range' i n, a % n = b % n → a = b := by
    intro a ha b hb heq
    rw [List.mem_range'_1] at ha hb
    exact Nat.mod_injOn_Ico i n (by simpa using ha) (by simpa using hb) heq
  have hnodup : ((List.range' i n).map (· % n)).Nodup :=
    (List.nodup_map_iff_inj_on (List.nodup_range' ..)).2 hinj
  refine (List.perm_ext_iff_of_nodup hnodup List.nodup_range).2 fun m => ?_
  have himage := congrArg (fun s => m ∈ s) (Nat.image_Ico_mod i n)
  simpa [List.mem_range'_1] using himage

/-! ## Which runs are fair -/

section Outcomes

variable {nodes : List Text}

theorem outcomeAt_of_short {i k : ℕ} (hne : nodes ≠ []) (hshort : Short nodes.length k)
    (hi : i < k) : ∃ h : i % nodes.length < nodes.length,
      outcomeAt nodes i = (((i % nodes.length : ℕ) : ℤ), some (nodes.get ⟨_, h⟩)) := by
  have hlt : i % nodes.length < nodes.length := Nat.mod_lt i (List.length_pos_of_ne_nil hne)
  refine ⟨hlt, ?_⟩
  have hposition := position_of_short hshort hi
  rw [outcomeAt]
  simp only [hposition]
  rw [elementAt, if_pos (Int.natCast_nonneg _), Int.toNat_natCast, List.getElem?_eq_getElem hlt]
  rfl

theorem fair_of_short {k : ℕ} (hne : nodes ≠ []) (hshort : Short nodes.length k) :
    Fair nodes ((List.range' 0 k).map (outcomeAt nodes)) := by
  constructor
  · intro outcome houtcome
    obtain ⟨i, hi, rfl⟩ := List.mem_map.1 houtcome
    rw [List.mem_range'_1] at hi
    obtain ⟨hlt, heq⟩ := outcomeAt_of_short hne hshort (show i < k by omega)
    exact ⟨_, hlt, heq⟩
  · intro i hi
    rw [List.length_map, List.length_range'] at hi
    have hwindow : ((List.range' 0 k).drop i).take nodes.length = List.range' i nodes.length := by
      rw [List.drop_range', List.take_range'_of_length_ge (by omega), Nat.zero_add, Nat.mul_one]
    have hpositions : ∀ j ∈ List.range' i nodes.length,
        (outcomeAt nodes j).1 = ((j % nodes.length : ℕ) : ℤ) := by
      intro j hj
      rw [List.mem_range'_1] at hj
      obtain ⟨_, heq⟩ := outcomeAt_of_short hne hshort (show j < k by omega)
      rw [heq]
    rw [← List.map_drop, ← List.map_take, hwindow, List.map_map]
    have hmap : (List.range' i nodes.length).map (Prod.fst ∘ outcomeAt nodes) =
        ((List.range' i nodes.length).map (· % nodes.length)).map Nat.cast := by
      rw [List.map_map]
      exact List.map_congr_left hpositions
    rw [hmap]
    exact (range'_mod_perm i nodes.length).map _

/-- A negative counter with a remainder that is not negative. -/
theorem dvd_of_fair {i k : ℕ} (hfair : Fair nodes ((List.range' 0 k).map (outcomeAt nodes)))
    (hi : i < k) (hlow : 2 ^ 31 ≤ i) (hhigh : i < 2 ^ 32) : nodes.length ∣ 2 ^ 32 - i := by
  have hmem : outcomeAt nodes i ∈ (List.range' 0 k).map (outcomeAt nodes) :=
    List.mem_map_of_mem (List.mem_range'_1.2 ⟨Nat.zero_le i, by omega⟩)
  obtain ⟨n, _, heq⟩ := hfair.inBounds _ hmem
  have hposition : (outcomeAt nodes i).1 = -(((2 ^ 32 - i) % nodes.length : ℕ) : ℤ) :=
    position_of_ge hlow hhigh nodes.length
  rw [heq] at hposition
  have hzero : (2 ^ 32 - i) % nodes.length = 0 := by
    have hneg : (n : ℤ) = -(((2 ^ 32 - i) % nodes.length : ℕ) : ℤ) := hposition
    omega
  exact Nat.dvd_of_mod_eq_zero hzero

theorem short_of_fair {k : ℕ} (hfair : Fair nodes ((List.range' 0 k).map (outcomeAt nodes))) :
    Short nodes.length k := by
  by_cases hk : k ≤ 2 ^ 31
  · exact Or.inr (Or.inl hk)
  · have hfirst : nodes.length ∣ 2 ^ 31 :=
      dvd_of_fair hfair (show 2 ^ 31 < k by omega) le_rfl (by omega)
    by_cases hlast : k = 2 ^ 31 + 1
    · exact Or.inr (Or.inr ⟨hlast, hfirst⟩)
    · have hsecond : nodes.length ∣ 2 ^ 31 - 1 :=
        dvd_of_fair hfair (show 2 ^ 31 + 1 < k by omega) (Nat.le_succ _) (by omega)
      -- two numbers in a row have no common divisor but one
      have hone : nodes.length ∣ 1 := (Nat.dvd_sub hfirst hsecond)
      exact Or.inl (Nat.dvd_one.1 hone)

theorem fair_iff_short (hne : nodes ≠ []) (k : ℕ) :
    Fair nodes ((List.range' 0 k).map (outcomeAt nodes)) ↔ Short nodes.length k :=
  ⟨short_of_fair, fair_of_short hne⟩

end Outcomes

/-- Either selector is fair on the short runs and on no others. -/
theorem selectors_fair_iff {nodes : List Text} (hne : nodes ≠ []) :
    (∀ calls : List ClusterCall,
        Fair nodes (runCluster nodes calls) ↔ Short nodes.length calls.length) ∧
      ∀ calls : List DeploymentCall,
        Fair nodes (runDeployment nodes calls) ↔ Short nodes.length calls.length := by
  constructor
  · intro calls
    rw [runCluster_eq]
    exact fair_iff_short hne calls.length
  · intro calls
    rw [runDeployment_eq]
    exact fair_iff_short hne calls.length

/-- Two calls on two nodes. -/
theorem selectors_fair_iff_two :
    Fair [text "master", text "slave"] (runDeployment [text "master", text "slave"]
      [⟨text "siebog-ear", text "siebog", []⟩, ⟨text "siebog-ear", text "siebog", []⟩]) :=
  ((selectors_fair_iff (List.cons_ne_nil _ _)).2 _).2 (Or.inr (Or.inl (by decide)))

def threeNodes : List Text := [text "master", text "slave1", text "slave2"]

/-- A run of `2 ^ 31 + 1` calls on three nodes. -/
theorem three_nodes_unfair :
    (¬ ∀ nodes ≠ [], ∀ calls : List ClusterCall, Fair nodes (runCluster nodes calls)) ∧
      ¬ ∀ nodes ≠ [], ∀ calls : List DeploymentCall, Fair nodes (runDeployment nodes calls) := by
  have hthree : ¬ Short threeNodes.length (2 ^ 31 + 1) := by
    have hlength : threeNodes.length = 3 := rfl
    rw [Short, hlength]
    omega
  constructor
  · intro hall
    have hfair := hall threeNodes (List.cons_ne_nil _ _)
      (List.replicate (2 ^ 31 + 1) ⟨text "ejb", threeNodes⟩)
    rw [runCluster_eq, List.length_replicate] at hfair
    exact hthree (short_of_fair hfair)
  · intro hall
    have hfair := hall threeNodes (List.cons_ne_nil _ _)
      (List.replicate (2 ^ 31 + 1) ⟨text "siebog-ear", text "siebog", []⟩)
    rw [runDeployment_eq, List.length_replicate] at hfair
    exact hthree (short_of_fair hfair)

end Siebog.Cluster
