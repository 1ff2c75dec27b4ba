import Siebog.Jasonee.ExecutionControl
import Siebog.Lib.Lockstep
import Mathlib.Algebra.Order.Ring.Int

/-!
# Lock-step execution of Jason agents

The bean of `Siebog.Jasonee.ExecutionControl`, compared with `Siebog.Lib.Lockstep`: the rounds are
reasoning cycles, the reports are calls of `agentCycleFinished`, and an agent leaves by
`removeAgent`. Calls come in any order, with the default control of the user or none.

`agentCycleFinished` hands its cycle number to the user's control and takes the agent out of
`running` whatever the number is, where `onTimeout` compares its number with the current one. So
execution is lock-step exactly when no report of another cycle arrives while its agent is running
(`control_lockstep_iff`). `JasonEEAgent` does send such reports: an agent that goes to sleep and
wakes up inside a reasoning cycle is enrolled again at once, and then reports the cycle it slept in
(`control_overtakes`).
-/

set_option autoImplicit false

namespace Siebog.Jasonee

open Siebog.Lib Lockstep

variable {ι : Type} [DecidableEq ι]

section Agent

/-- The fields of an agent that decide its calls of the execution control. -/
structure JasonEEAgent (ι : Type) where
  myAid : ι
  syncMode : Bool
  sleeping : Bool

/-- What the agent's architecture calls on it during a reasoning cycle. -/
inductive ArchCall where
  | sleep
  | wakeUp

namespace JasonEEAgent

/-- A new agent. -/
def new (myAid : ι) (syncMode : Bool) : JasonEEAgent ι := ⟨myAid, syncMode, true⟩

omit [DecidableEq ι]

def sleep (ag : JasonEEAgent ι) : JasonEEAgent ι × List (Call ι) :=
  if ag.sleeping then (ag, [])
  else ({ ag with sleeping := true }, if ag.syncMode then [.removeAgent ag.myAid] else [])

/-- Outside the synchronised mode a heartbeat is registered, which the control does not see. -/
def wakeUp (ag : JasonEEAgent ι) : JasonEEAgent ι × List (Call ι) :=
  if ag.sleeping then
    ({ ag with sleeping := false }, if ag.syncMode then [.addAgent ag.myAid] else [])
  else (ag, [])

/-- The reasoning cycle of the architecture, as far as it puts the agent to sleep or wakes it. -/
def reasoningCycle : JasonEEAgent ι → List ArchCall → JasonEEAgent ι × List (Call ι)
  | ag, [] => (ag, [])
  | ag, c :: cs =>
      let (ag, calls) := match c with
        | .sleep => ag.sleep
        | .wakeUp => ag.wakeUp
      let (ag, calls') := ag.reasoningCycle cs
      (ag, calls ++ calls')

/-- The report stands in the `finally` block, with the number of the cycle that was asked for. -/
def performCycle (ag : JasonEEAgent ι) (cycleNum : ℤ) (isBreakpoint : Bool) (cs : List ArchCall) :
    JasonEEAgent ι × List (Call ι) :=
  let (ag, calls) := ag.reasoningCycle cs
  (ag, calls ++ if ag.syncMode then [.agentCycleFinished ag.myAid isBreakpoint cycleNum] else [])

/-- The arrival of a `ReasoningCycleMessage`. -/
def onReasoningCycleMessage (ag : JasonEEAgent ι) (cycleNum : ℤ) (isBreakpoint : Bool)
    (cs : List ArchCall) : JasonEEAgent ι × List (Call ι) :=
  let (ag, calls) := ag.wakeUp
  let (ag, calls') := ag.performCycle cycleNum isBreakpoint cs
  (ag, calls ++ calls')

end JasonEEAgent

end Agent

section Observed

/-- A call as an observer of the cycles sees it. -/
def Call.seen : Call ι → List (Event ι ℤ)
  | .agentCycleFinished aid _ n => [.report aid n]
  | .removeAgent aid => [.leave aid]
  | _ => []

/-- The outputs as an observer of the cycles sees them. -/
def observed (out : List (Output ι)) : List (Event ι ℤ) :=
  out.filterMap fun
    | .reasoningCycle n S => some (.signal n S)
    | .registerTimeout => none

namespace ExecutionControlBean

/-- The bean with the events of each call. -/
def observe (b : ExecutionControlBean ι) (c : Call ι) :
    Option (ExecutionControlBean ι × List (Event ι ℤ)) :=
  some ((b.call c).1, c.seen ++ observed (b.call c).2)

/-- The bean as a lockstep coordinator. -/
def view (b : ExecutionControlBean ι) : State ι ℤ := ⟨b.cycleNum, b.running⟩

/-- No report of another cycle arrives while its agent is running. -/
def Fresh (b : ExecutionControlBean ι) : Call ι → Prop
  | .agentCycleFinished aid _ n => n = b.cycleNum ∨ aid ∉ b.running
  | _ => True

instance (b : ExecutionControlBean ι) : DecidablePred b.Fresh := fun c => by
  cases c <;> unfold Fresh <;> infer_instance

/-- A report of another cycle changes nothing in the bean. -/
def LateIgnored (b : ExecutionControlBean ι) : Call ι → Prop
  | .agentCycleFinished aid bp n =>
      n ≠ b.cycleNum → b.call (.agentCycleFinished aid bp n) = (b, [])
  | _ => True

/-- What a call does to the sets by itself is a run of abstract steps. -/
theorem touch_steps {b : ExecutionControlBean ι} {c : Call ι} (hfresh : b.Fresh c) :
    Steps b.view c.seen (b.touch c).view := by
  cases c with
  | addAgent aid => exact .nil
  | removeAgent aid =>
      have hleave : Step b.view (.leave aid) ⟨b.cycleNum, b.running.erase aid⟩ := .leave
      exact .one hleave
  | agentCycleFinished aid bp n =>
      have hreport : Step b.view (.report aid n) ⟨b.cycleNum, b.running.erase aid⟩ :=
        .report hfresh
      exact .one hreport
  | onTimeout n => exact .nil

theorem call_steps {b : ExecutionControlBean ι} {c : Call ι} (hb : b.Live) (hfresh : b.Fresh c) :
    Steps b.view (c.seen ++ observed (b.call c).2) (b.call c).1.view := by
  have htouch := touch_steps hfresh
  have hnum : (b.touch c).cycleNum = b.cycleNum := by cases c <;> rfl
  rcases call_cases hb c with ⟨hempty, heq⟩ | ⟨-, heq, hout⟩
  · have hstart : Step (b.touch c).view
        (.signal ((b.touch c).cycleNum + 1) ((b.touch c).registered ∪ (b.touch c).pending))
        ⟨(b.touch c).cycleNum + 1, (b.touch c).registered ∪ (b.touch c).pending⟩ := .start hempty
    rw [heq, ← hnum]
    exact htouch.append (.one hstart)
  · have hquiet : observed (b.call c).2 = [] := by
      refine List.filterMap_eq_nil_iff.2 fun o ho => ?_
      rw [hout o ho]
    rw [heq, hquiet, List.append_nil]
    exact htouch

/-- In a live bean, a report is ignored exactly when its agent is not running. -/
theorem finished_ignored_iff {b : ExecutionControlBean ι} (hb : b.Live) (aid : ι) (bp : Bool)
    (n : ℤ) : b.call (.agentCycleFinished aid bp n) = (b, []) ↔ aid ∉ b.running := by
  show (nextCycleIfPossible { b with running := b.running.erase aid }).1 = (b, []) ↔ _
  constructor
  · intro heq hmem
    rcases nextCycleIfPossible_cases { b with running := b.running.erase aid } with
      ⟨-, -, hn⟩ | ⟨-, hn⟩
    · rw [hn] at heq
      cases congrArg Prod.snd heq
    · rw [hn] at heq
      have hrun : b.running.erase aid = b.running := congrArg (fun r => r.1.running) heq
      rw [← hrun] at hmem
      exact Finset.notMem_erase aid _ hmem
  · intro hmem
    rw [Finset.erase_eq_of_notMem hmem]
    rcases b.nextCycleIfPossible_cases with ⟨hempty, hne, -⟩ | ⟨-, hn⟩
    · exact absurd hempty (Finset.nonempty_iff_ne_empty.1 (hb.2 hne))
    · rw [hn]

theorem lateIgnored_iff_fresh {b : ExecutionControlBean ι} (hb : b.Live) (c : Call ι) :
    b.LateIgnored c ↔ b.Fresh c := by
  cases c with
  | agentCycleFinished aid bp n =>
      show (n ≠ b.cycleNum → b.call (.agentCycleFinished aid bp n) = (b, [])) ↔ _
      rw [finished_ignored_iff hb]
      exact or_iff_not_imp_left.symm
  | _ => exact Iff.rfl

theorem live_init (u : UserExecutionControl) : (init ι u).Live :=
  ⟨Finset.Subset.refl _, by simp [init]⟩

end ExecutionControlBean

end Observed

section LockStep

/-- Execution is lock-step along a sequence of calls, that is cycle `n + 1` starts only after every
agent of cycle `n` reported `n` or was removed, and reports of other cycles are ignored, exactly
when no report of another cycle arrives while its agent is running. -/
theorem control_lockstep_iff (u : UserExecutionControl) (cs : List (Call ι))
    (b : ExecutionControlBean ι) (h : List (Event ι ℤ))
    (hrun : play ExecutionControlBean.observe (.init ι u) cs = some (b, h)) :
    (InLockstep h ∧
        Along (next ExecutionControlBean.observe) ExecutionControlBean.LateIgnored (.init ι u) cs) ↔
      Along (next ExecutionControlBean.observe) ExecutionControlBean.Fresh (.init ι u) cs := by
  refine play_lockstep_iff ExecutionControlBean.view (fun n => by omega)
    (fun b c b' out hb hstep => ?_) (fun b c b' out hb hfresh hstep => ?_)
    (fun b c hb => b.lateIgnored_iff_fresh hb c) (ExecutionControlBean.live_init u) hrun
  · cases hstep
    exact hb.call c
  · cases hstep
    exact b.call_steps hb hfresh

/-- Two agents; the second joins in cycle 1 and leaves in cycle 2, where the first reports late. -/
theorem control_lockstep_iff_two :
    ∃ b h, play ExecutionControlBean.observe (.init ℕ .default)
        [.addAgent 1, .addAgent 2, .agentCycleFinished 1 false 1, .agentCycleFinished 1 false 2,
          .agentCycleFinished 1 false 1, .removeAgent 2] = some (b, h) ∧
      InLockstep h ∧ Along (next ExecutionControlBean.observe) ExecutionControlBean.LateIgnored
        (.init ℕ .default) [.addAgent 1, .addAgent 2, .agentCycleFinished 1 false 1,
          .agentCycleFinished 1 false 2, .agentCycleFinished 1 false 1, .removeAgent 2] := by
  have h : play ExecutionControlBean.observe (.init ℕ .default)
      [.addAgent 1, .addAgent 2, .agentCycleFinished 1 false 1, .agentCycleFinished 1 false 2,
        .agentCycleFinished 1 false 1, .removeAgent 2] =
      some (⟨3, {1}, {1}, ∅, .default⟩, [.signal 1 {1}, .report 1 1, .signal 2 {1, 2}, .report 1 2,
        .report 1 1, .leave 2, .signal 3 {1}]) := by rfl
  exact ⟨_, _, h, (control_lockstep_iff _ _ _ _ h).2 (by decide)⟩

/-- The calls of an agent that starts, gets the message of cycle 1, sleeps and wakes up in that
cycle, and finishes it. -/
def sleepyRun : List (Call ℕ) :=
  let (ag, calls) := (JasonEEAgent.new 1 true).wakeUp
  calls ++ (ag.onReasoningCycleMessage 1 false [.sleep, .wakeUp]).2

/-- The agent's report of cycle 1 counts for cycle 2, and cycle 3 starts although nobody reported
cycle 2. -/
theorem control_overtakes :
    ¬ ∀ (u : UserExecutionControl) (cs : List (Call ℕ)) (b : ExecutionControlBean ℕ)
      (h : List (Event ℕ ℤ)),
      play ExecutionControlBean.observe (.init ℕ u) cs = some (b, h) →
        InLockstep h ∧ Along (next ExecutionControlBean.observe) ExecutionControlBean.LateIgnored
          (.init ℕ u) cs := by
  intro hsafe
  have hrun : play ExecutionControlBean.observe (.init ℕ .none) sleepyRun =
      some (⟨3, {1}, {1}, ∅, .none⟩,
        [.signal 1 {1}, .leave 1, .signal 2 {1}, .report 1 1, .signal 3 {1}]) := by rfl
  obtain ⟨z, hz, hrel⟩ := (hsafe .none _ _ _ hrun).1 1 2 [.signal 1 {1}, .leave 1] (.signal 2 {1})
    [.report 1 1] (.signal 3 {1}) [] rfl ⟨rfl, by simp⟩ rfl
  rw [List.mem_singleton.1 hz] at hrel
  exact absurd hrel.2 (by decide)

end LockStep

end Siebog.Jasonee
