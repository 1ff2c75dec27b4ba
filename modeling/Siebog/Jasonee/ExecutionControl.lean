import Siebog.Lib.Trace
import Mathlib.Data.Finset.Card
import Mathlib.Data.List.Range

/-!
# Execution control of Jason agents

`ExecutionControlBean` runs synchronised agents cycle by cycle. `registered` are the agents of the
current cycle, `running` those of them that have not finished it, and `pending` the agents that came
in the middle of a cycle and join the next one.

The cycle number is a natural number; the numbers that timers and agents hand in are integers. In the
source it is an `int`: the same up to cycle 2^31 - 1, after which it wraps around, and in cycle
2^32 - 1 it is the -1 that `onTimeout` takes at any time.

A call returns the messages it makes the executor post and the timers it registers, oldest first. The
filter of unavailable agents is empty in the source and does nothing here.

`execution_control_live` is the invariant over all sequences of calls: no agent is lost and the
control never stalls.
-/

set_option autoImplicit false

namespace Siebog.Jasonee

open Siebog.Lib

variable {ι : Type} [DecidableEq ι]

section Bean

/-- The user's control of a bean is absent, or the class `UserExecutionControl` itself. -/
inductive UserExecutionControl where
  | none
  | default
  deriving DecidableEq

/-- The fields of the bean. -/
structure ExecutionControlBean (ι : Type) where
  cycleNum : ℕ
  registered : Finset ι
  running : Finset ι
  pending : Finset ι
  userExecCtrl : UserExecutionControl

/-- What a call does besides changing the fields: post a `ReasoningCycleMessage`, or register a
timer for the cycle that is current when the timer is scheduled. -/
inductive Output (ι : Type) where
  | reasoningCycle (cycleNum : ℕ) (receivers : Finset ι)
  | registerTimeout

namespace ExecutionControlBean

/-- `init`, without the first timer. -/
def init (ι : Type) (userExecCtrl : UserExecutionControl) : ExecutionControlBean ι :=
  ⟨0, ∅, ∅, ∅, userExecCtrl⟩

/-- The start of a cycle. The default `startNewCycle` does nothing. -/
def informAllAgsToPerformCycle (b : ExecutionControlBean ι) (cycle : ℕ) :
    ExecutionControlBean ι × List (Output ι) :=
  let (registered, pending) :=
    if 0 < b.pending.card then (b.registered ∪ b.pending, ∅) else (b.registered, b.pending)
  (⟨cycle, registered, registered, pending, b.userExecCtrl⟩,
    [.reasoningCycle cycle registered, .registerTimeout])

end ExecutionControlBean

/-- The default control starts the next cycle through the bean. -/
def UserExecutionControl.allAgsFinished (control : ExecutionControlBean ι) (cycleNum : ℕ) :
    ExecutionControlBean ι × List (Output ι) :=
  control.informAllAgsToPerformCycle (cycleNum + 1)

namespace ExecutionControlBean

/-- The next cycle starts when there are agents and none of them is running. -/
def nextCycleIfPossible (b : ExecutionControlBean ι) :
    (ExecutionControlBean ι × List (Output ι)) × Bool :=
  if 0 < b.registered.card + b.pending.card ∧ b.running.card = 0 then
    match b.userExecCtrl with
    | .default => (UserExecutionControl.allAgsFinished b b.cycleNum, true)
    | .none => (b.informAllAgsToPerformCycle (b.cycleNum + 1), true)
  else ((b, []), false)

/-- A timer for the current cycle, or for any, tries to start the next one, and is registered again
when that is not possible. -/
def onTimeout (b : ExecutionControlBean ι) (cycleNum : ℤ) :
    ExecutionControlBean ι × List (Output ι) :=
  if (b.cycleNum : ℤ) = cycleNum ∨ cycleNum = -1 then
    let ((b, out), proceeded) := b.nextCycleIfPossible
    if proceeded then (b, out) else (b, out ++ [.registerTimeout])
  else (b, [])

/-- The number of the finished cycle and the breakpoint are for the user's control, whose default
`receiveFinishedCycle` does nothing. -/
def agentCycleFinished (b : ExecutionControlBean ι) (aid : ι) (_isBreakpoint : Bool)
    (_cycleNum : ℤ) : ExecutionControlBean ι × List (Output ι) :=
  (nextCycleIfPossible { b with running := b.running.erase aid }).1

/-- The agent waits for the next cycle. -/
def addAgent (b : ExecutionControlBean ι) (aid : ι) : ExecutionControlBean ι × List (Output ι) :=
  (nextCycleIfPossible { b with pending := insert aid b.pending }).1

/-- The agent leaves all three sets; the cycle may end with it. -/
def removeAgent (b : ExecutionControlBean ι) (aid : ι) :
    ExecutionControlBean ι × List (Output ι) :=
  let b' := { b with
    registered := b.registered.erase aid
    pending := b.pending.erase aid
    running := b.running.erase aid }
  if aid ∈ b.running then b'.nextCycleIfPossible.1 else (b', [])

end ExecutionControlBean

/-- The calls that reach an initialised bean. -/
inductive Call (ι : Type) where
  | addAgent (aid : ι)
  | removeAgent (aid : ι)
  | agentCycleFinished (aid : ι) (isBreakpoint : Bool) (cycleNum : ℤ)
  | onTimeout (cycleNum : ℤ)

/-- What a call does to the bean. -/
def ExecutionControlBean.call (b : ExecutionControlBean ι) :
    Call ι → ExecutionControlBean ι × List (Output ι)
  | .addAgent aid => b.addAgent aid
  | .removeAgent aid => b.removeAgent aid
  | .agentCycleFinished aid isBreakpoint cycleNum => b.agentCycleFinished aid isBreakpoint cycleNum
  | .onTimeout cycleNum => b.onTimeout cycleNum

/-- The bean accepts every call. -/
def ExecutionControlBean.step (b : ExecutionControlBean ι) (c : Call ι) :
    Option (ExecutionControlBean ι × List (Output ι)) :=
  some (b.call c)

end Bean

section Calls

namespace ExecutionControlBean

/-- The bean at the start of its next cycle. -/
def nextCycle (b : ExecutionControlBean ι) : ExecutionControlBean ι :=
  ⟨b.cycleNum + 1, b.registered ∪ b.pending, b.registered ∪ b.pending, ∅, b.userExecCtrl⟩

theorem informAllAgsToPerformCycle_next (b : ExecutionControlBean ι) :
    b.informAllAgsToPerformCycle (b.cycleNum + 1) = (b.nextCycle,
      [.reasoningCycle (b.cycleNum + 1) (b.registered ∪ b.pending), .registerTimeout]) := by
  by_cases h : 0 < b.pending.card
  · simp [informAllAgsToPerformCycle, nextCycle, h]
  · have h0 : b.pending = ∅ := Finset.card_eq_zero.1 (Nat.le_zero.1 (Nat.not_lt.1 h))
    simp [informAllAgsToPerformCycle, nextCycle, h0]

/-- `nextCycleIfPossible` starts the next cycle with all agents, whoever controls it, or does
nothing. -/
theorem nextCycleIfPossible_cases (b : ExecutionControlBean ι) :
    (b.running = ∅ ∧ (b.registered ∪ b.pending).Nonempty ∧ b.nextCycleIfPossible =
        ((b.nextCycle,
          [.reasoningCycle (b.cycleNum + 1) (b.registered ∪ b.pending), .registerTimeout]), true)) ∨
      (((b.registered ∪ b.pending).Nonempty → b.running.Nonempty) ∧
        b.nextCycleIfPossible = ((b, []), false)) := by
  have hcard : 0 < b.registered.card + b.pending.card ↔ (b.registered ∪ b.pending).Nonempty := by
    rw [Nat.add_pos_iff_pos_or_pos, Finset.card_pos, Finset.card_pos, Finset.union_nonempty]
  by_cases h : 0 < b.registered.card + b.pending.card ∧ b.running.card = 0
  · refine .inl ⟨Finset.card_eq_zero.1 h.2, hcard.1 h.1, ?_⟩
    unfold nextCycleIfPossible
    rw [if_pos h, ← informAllAgsToPerformCycle_next]
    cases b.userExecCtrl <;> rfl
  · refine .inr ⟨fun hne => ?_, ?_⟩
    · rw [Finset.nonempty_iff_ne_empty]
      exact fun h0 => h ⟨hcard.2 hne, Finset.card_eq_zero.2 h0⟩
    · unfold nextCycleIfPossible
      rw [if_neg h]

/-- Without a running agent every known agent is about to run. -/
def Live (b : ExecutionControlBean ι) : Prop :=
  b.running ⊆ b.registered ∧ ((b.registered ∪ b.pending).Nonempty → b.running.Nonempty)

theorem live_nextCycle (b : ExecutionControlBean ι) : b.nextCycle.Live := by
  refine ⟨Finset.Subset.refl _, fun hne => ?_⟩
  simpa [nextCycle] using hne

/-- In a live bean the timeout never starts a cycle. -/
theorem onTimeout_of_live {b : ExecutionControlBean ι} (hb : b.Live) (n : ℤ) :
    (b.onTimeout n).1 = b ∧ ∀ o ∈ (b.onTimeout n).2, o = .registerTimeout := by
  unfold onTimeout
  rcases b.nextCycleIfPossible_cases with ⟨hempty, hne, -⟩ | ⟨-, heq⟩
  · exact absurd hempty (Finset.nonempty_iff_ne_empty.1 (hb.2 hne))
  · rw [heq]
    split
    · exact ⟨rfl, by simp⟩
    · exact ⟨rfl, by simp⟩

/-- What a call does to the sets by itself, before it looks whether the next cycle can start. -/
def touch (b : ExecutionControlBean ι) : Call ι → ExecutionControlBean ι
  | .addAgent aid => { b with pending := insert aid b.pending }
  | .removeAgent aid => { b with
      registered := b.registered.erase aid
      pending := b.pending.erase aid
      running := b.running.erase aid }
  | .agentCycleFinished aid _ _ => { b with running := b.running.erase aid }
  | .onTimeout _ => b

theorem touch_running_subset {b : ExecutionControlBean ι} (hb : b.Live) (c : Call ι) :
    (b.touch c).running ⊆ (b.touch c).registered := by
  cases c with
  | addAgent aid => exact hb.1
  | removeAgent aid => exact Finset.erase_subset_erase aid hb.1
  | agentCycleFinished aid isBreakpoint n => exact (Finset.erase_subset _ _).trans hb.1
  | onTimeout n => exact hb.1

/-- A call on a live bean updates the sets and then starts a cycle with all agents it knows, or
starts none and leaves the bean live. -/
theorem call_cases {b : ExecutionControlBean ι} (hb : b.Live) (c : Call ι) :
    ((b.touch c).running = ∅ ∧ b.call c = ((b.touch c).nextCycle,
        [.reasoningCycle (b.cycleNum + 1) ((b.touch c).registered ∪ (b.touch c).pending),
          .registerTimeout])) ∨
      ((b.touch c).Live ∧ (b.call c).1 = b.touch c ∧ ∀ o ∈ (b.call c).2, o = .registerTimeout) := by
  -- three of the calls end in `nextCycleIfPossible` on the touched bean
  have hnext : (b.touch c).cycleNum = b.cycleNum → b.call c = (b.touch c).nextCycleIfPossible.1 →
      ((b.touch c).running = ∅ ∧ b.call c = ((b.touch c).nextCycle,
        [.reasoningCycle (b.cycleNum + 1) ((b.touch c).registered ∪ (b.touch c).pending),
          .registerTimeout])) ∨
      ((b.touch c).Live ∧ (b.call c).1 = b.touch c ∧
        ∀ o ∈ (b.call c).2, o = .registerTimeout) := by
    intro hnum hcall
    rcases (b.touch c).nextCycleIfPossible_cases with ⟨hempty, -, heq⟩ | ⟨hlive, heq⟩
    · rw [hcall, heq, hnum]
      exact .inl ⟨hempty, rfl⟩
    · rw [hcall, heq]
      exact .inr ⟨⟨touch_running_subset hb c, hlive⟩, rfl, by simp⟩
  cases c with
  | addAgent aid => exact hnext rfl rfl
  | agentCycleFinished aid isBreakpoint n => exact hnext rfl rfl
  | removeAgent aid =>
      by_cases hmem : aid ∈ b.running
      · exact hnext rfl (if_pos hmem)
      · have hcall : b.call (.removeAgent aid) = (b.touch (.removeAgent aid), []) := if_neg hmem
        rw [hcall]
        refine .inr ⟨⟨touch_running_subset hb (.removeAgent aid), fun hne => ?_⟩, rfl, by simp⟩
        -- the agent was not running, so those that run go on
        show (b.running.erase aid).Nonempty
        rw [Finset.erase_eq_of_notMem hmem]
        refine hb.2 (hne.mono ?_)
        exact Finset.union_subset_union (Finset.erase_subset _ _) (Finset.erase_subset _ _)
  | onTimeout n =>
      obtain ⟨hsame, hout⟩ := onTimeout_of_live hb n
      exact .inr ⟨hb, hsame, hout⟩

theorem Live.call {b : ExecutionControlBean ι} (hb : b.Live) (c : Call ι) : (b.call c).1.Live := by
  rcases call_cases hb c with ⟨-, heq⟩ | ⟨hlive, heq, -⟩
  · rw [heq]
    exact live_nextCycle _
  · rw [heq]
    exact hlive

end ExecutionControlBean

end Calls

section Runs

/-- The agents added and not since removed. -/
def members (cs : List (Call ι)) : Finset ι :=
  cs.foldl (fun S c => match c with
    | .addAgent aid => insert aid S
    | .removeAgent aid => S.erase aid
    | _ => S) ∅

end Runs

end Siebog.Jasonee
