import Siebog.Lib.Trace
import Mathlib.Data.Multiset.Filter
import Mathlib.Data.Finset.Basic

/-!
# The barrier of the bulk-synchronous protocol

`BarrierBean` is the agent that drives BSP agents through supersteps. It keeps the registered
agents, those of them that are still processing the current superstep, and the superstep's number;
it posts superstep messages to agents and timeout messages to itself.

Agent identifiers are a type `ι`, and the Java sets are finite sets. The liveness probe of
`filterUnavailableAgents` is an input: `order` is the order in which the iterator visits the set and
`alive` the outcome of `agentAlive`. What the handlers post or drop is returned as a list of outputs,
oldest first.

The two counters (`int` in the bean, `long` in the message) are natural numbers. Those of the source
are the same up to superstep 2^31 - 1 and then wrap around. The handlers only add one to them and
compare them for equality, so the two differ in nothing else unless a message stays under way for
2^32 supersteps.

`Bean.step` is the bean with its own timeouts in flight, and `barrier_never_stuck` its invariant
over every sequence of messages.
-/

set_option autoImplicit false

namespace Siebog.Interaction

open Siebog.Lib

variable {ι : Type} [DecidableEq ι]

section Bean

/-- The fields of the bean. -/
structure BarrierBean (ι : Type) where
  superstep : ℕ
  registered : Finset ι
  processing : Finset ι

/-- The constructor. -/
def BarrierBean.new (ι : Type) : BarrierBean ι := ⟨0, ∅, ∅⟩

/-- What a handler does besides changing the fields: post a superstep message, post a timeout
message to itself, or drop an agent that did not answer the probe. -/
inductive Output (ι : Type) where
  | superstep (counter : ℕ) (receivers : Finset ι)
  | timeout (counter : ℕ)
  | unavailable (aid : ι)

namespace BarrierBean

/-- The receivers are all processing agents; the argument is not used. -/
def buildSuperstepMsg (b : BarrierBean ι) (_receivers : Finset ι) : Output ι :=
  .superstep b.superstep b.processing

/-- Goes into the superstep and tells the agents of it. -/
def signalSuperstep (b : BarrierBean ι) (superstep : ℕ) (receivers : Finset ι) :
    BarrierBean ι × List (Output ι) :=
  let b := { b with superstep := superstep }
  (b, [b.buildSuperstepMsg receivers])

/-- A timeout message to itself, with the number of the current superstep. -/
def scheduleTimeout (b : BarrierBean ι) : Output ι := .timeout b.superstep

/-- The next superstep starts when nobody is left in this one and somebody is registered. -/
def nextSuperstepIfPossible (b : BarrierBean ι) : (BarrierBean ι × List (Output ι)) × Bool :=
  if b.processing = ∅ ∧ b.registered ≠ ∅ then
    let b := { b with processing := b.processing ∪ b.registered }
    let (b, out) := b.signalSuperstep (b.superstep + 1) b.processing
    ((b, out ++ [b.scheduleTimeout]), true)
  else ((b, []), false)

/-- The loop of the filter: agents found alive are signalled again, the others are dropped. -/
def filterUnavailableAgents (alive : ι → Bool) :
    List ι → BarrierBean ι → BarrierBean ι × List (Output ι)
  | [], b => (b, [])
  | aid :: rest, b =>
      -- an agent that answers the ping is signalled again
      if alive aid then
        let (b, out) := b.signalSuperstep b.superstep {aid}
        let (b, out') := filterUnavailableAgents alive rest b
        (b, out ++ out')
      else
        let (b, out) :=
          filterUnavailableAgents alive rest { b with processing := b.processing.erase aid }
        (b, .unavailable aid :: out)

/-- A new agent joins at the next superstep, which may be now. -/
def registerAgent (b : BarrierBean ι) (aid : ι) : BarrierBean ι × List (Output ι) :=
  (nextSuperstepIfPossible { b with registered := insert aid b.registered }).1

/-- The agent is waited for no longer. -/
def deregisterAgent (b : BarrierBean ι) (aid : ι) : BarrierBean ι × List (Output ι) :=
  let b' := { b with registered := b.registered.erase aid, processing := b.processing.erase aid }
  if aid ∈ b.processing then b'.nextSuperstepIfPossible.1 else (b', [])

/-- The agent is done. Which superstep it has completed is not said. -/
def agentCompletedSuperstep (b : BarrierBean ι) (aid : ι) : BarrierBean ι × List (Output ι) :=
  (nextSuperstepIfPossible { b with processing := b.processing.erase aid }).1

/-- The timeout of the current superstep: the agents still processing are probed, and a new timeout
is scheduled unless the next superstep has done so. Older timeouts are dropped. -/
def onTimeout (b : BarrierBean ι) (counter : ℕ) (order : List ι) (alive : ι → Bool) :
    BarrierBean ι × List (Output ι) :=
  if counter = b.superstep then
    let (b, out) := filterUnavailableAgents alive order b
    let ((b, out'), signalled) := b.nextSuperstepIfPossible
    if signalled then (b, out ++ out') else (b, out ++ out' ++ [b.scheduleTimeout])
  else (b, [])

end BarrierBean

/-- The messages the bean reacts to, with the probe a timeout makes. -/
inductive Message (ι : Type) where
  | subscribe (aid : ι)
  | cancel (aid : ι)
  | inform (aid : ι)
  | request (counter : ℕ) (order : List ι) (alive : ι → Bool)

/-- One handler for each performative. -/
def BarrierBean.onMessage (b : BarrierBean ι) : Message ι → BarrierBean ι × List (Output ι)
  | .subscribe aid => b.registerAgent aid
  | .cancel aid => b.deregisterAgent aid
  | .inform aid => b.agentCompletedSuperstep aid
  | .request counter order alive => b.onTimeout counter order alive

end Bean

section Handlers

namespace BarrierBean

/-- `nextSuperstepIfPossible` signals the next superstep to all registered agents and arms its
timeout, or does nothing. -/
theorem nextSuperstepIfPossible_cases (b : BarrierBean ι) :
    (b.processing = ∅ ∧ b.registered ≠ ∅ ∧ b.nextSuperstepIfPossible =
        ((⟨b.superstep + 1, b.registered, b.registered⟩,
          [.superstep (b.superstep + 1) b.registered, .timeout (b.superstep + 1)]), true)) ∨
      ((b.registered ≠ ∅ → b.processing ≠ ∅) ∧ b.nextSuperstepIfPossible = ((b, []), false)) := by
  by_cases h : b.processing = ∅ ∧ b.registered ≠ ∅
  · refine .inl ⟨h.1, h.2, ?_⟩
    simp [nextSuperstepIfPossible, h, signalSuperstep, buildSuperstepMsg, scheduleTimeout]
  · refine .inr ⟨fun hreg hproc => h ⟨hproc, hreg⟩, ?_⟩
    simp only [nextSuperstepIfPossible, if_neg h]

theorem filterUnavailableAgents_alive {alive : ι → Bool} {aid : ι} {rest : List ι}
    {b : BarrierBean ι} (h : alive aid = true) :
    filterUnavailableAgents alive (aid :: rest) b =
      ((filterUnavailableAgents alive rest b).1,
        .superstep b.superstep b.processing :: (filterUnavailableAgents alive rest b).2) := by
  simp [filterUnavailableAgents, h, signalSuperstep, buildSuperstepMsg]

theorem filterUnavailableAgents_dead {alive : ι → Bool} {aid : ι} {rest : List ι}
    {b : BarrierBean ι} (h : ¬ alive aid = true) :
    filterUnavailableAgents alive (aid :: rest) b =
      ((filterUnavailableAgents alive rest { b with processing := b.processing.erase aid }).1,
        .unavailable aid ::
          (filterUnavailableAgents alive rest { b with processing := b.processing.erase aid }).2) := by
  simp [filterUnavailableAgents, h]

/-- The filter takes agents out of `processing`; it posts no timeout and changes nothing else. -/
theorem filterUnavailableAgents_spec (alive : ι → Bool) (order : List ι) (b : BarrierBean ι) :
    (filterUnavailableAgents alive order b).1.superstep = b.superstep ∧
      (filterUnavailableAgents alive order b).1.registered = b.registered ∧
      (filterUnavailableAgents alive order b).1.processing ⊆ b.processing ∧
      ∀ k, Output.timeout k ∉ (filterUnavailableAgents alive order b).2 := by
  induction order generalizing b with
  | nil => exact ⟨rfl, rfl, Finset.Subset.refl _, by simp [filterUnavailableAgents]⟩
  | cons aid rest ih =>
      by_cases h : alive aid = true
      · obtain ⟨hk, hr, hp, ht⟩ := ih b
        rw [filterUnavailableAgents_alive h]
        exact ⟨hk, hr, hp, fun k => by simp [ht k]⟩
      · obtain ⟨hk, hr, hp, ht⟩ := ih { b with processing := b.processing.erase aid }
        rw [filterUnavailableAgents_dead h]
        exact ⟨hk, hr, hp.trans (Finset.erase_subset _ _), fun k => by simp [ht k]⟩

theorem le_nextSuperstepIfPossible (b : BarrierBean ι) :
    b.superstep ≤ b.nextSuperstepIfPossible.1.1.superstep := by
  rcases b.nextSuperstepIfPossible_cases with ⟨-, -, heq⟩ | ⟨-, heq⟩
  · rw [heq]
    exact Nat.le_succ _
  · rw [heq]

theorem superstep_pos_of_next {b : BarrierBean ι} {k : ℕ} {S : Finset ι}
    (h : Output.superstep k S ∈ b.nextSuperstepIfPossible.1.2) :
    b.nextSuperstepIfPossible.1.1.superstep ≠ 0 := by
  rcases b.nextSuperstepIfPossible_cases with ⟨-, -, heq⟩ | ⟨-, heq⟩
  · rw [heq]
    exact Nat.succ_ne_zero _
  · rw [heq] at h
    cases h

/-- A timeout of another superstep is ignored. -/
theorem onTimeout_stale {b : BarrierBean ι} {counter : ℕ} (h : counter ≠ b.superstep)
    (order : List ι) (alive : ι → Bool) : b.onTimeout counter order alive = (b, []) := by
  simp only [onTimeout, if_neg h]

end BarrierBean

end Handlers

section System

/-- The timeouts among the outputs. -/
def timeouts (out : List (Output ι)) : Multiset ℕ :=
  out.filterMap fun
    | .timeout k => some k
    | _ => none

omit [DecidableEq ι] in
@[simp] theorem timeouts_append (out out' : List (Output ι)) :
    timeouts (out ++ out') = timeouts out + timeouts out' := by
  simp [timeouts, List.filterMap_append]

omit [DecidableEq ι] in
theorem timeouts_eq_zero {out : List (Output ι)} (h : ∀ k, Output.timeout k ∉ out) :
    timeouts out = 0 := by
  unfold timeouts
  rw [Multiset.coe_eq_zero, List.filterMap_eq_nil_iff]
  intro o ho
  cases o with
  | superstep k S => rfl
  | timeout k => exact absurd ho (h k)
  | unavailable a => rfl

/-- The bean with the timeout messages it posted to itself and has not yet received. -/
structure System (ι : Type) where
  bean : BarrierBean ι
  timers : Multiset ℕ

namespace System

/-- A new bean, with no message in flight. -/
def init (ι : Type) : System ι := ⟨.new ι, 0⟩

/-- The agents' messages may arrive at any time; a timeout is one that was posted, and its probe
visits each processing agent once. -/
def Deliverable (s : System ι) : Message ι → Prop
  | .request counter order _ =>
      counter ∈ s.timers ∧ order.Nodup ∧ order.toFinset = s.bean.processing
  | _ => True

instance (s : System ι) : DecidablePred s.Deliverable := fun m => by
  cases m <;> unfold Deliverable <;> infer_instance

/-- The timeouts left in flight when the message is taken. -/
def take (s : System ι) : Message ι → Multiset ℕ
  | .request counter _ _ => s.timers.erase counter
  | _ => s.timers

/-- One message is handled. -/
def step (s : System ι) (m : Message ι) : Option (System ι × List (Output ι)) :=
  if s.Deliverable m then
    some (⟨(s.bean.onMessage m).1, s.take m + timeouts (s.bean.onMessage m).2⟩,
      (s.bean.onMessage m).2)
  else none

theorem step_eq_some {s t : System ι} {m : Message ι} {out : List (Output ι)} :
    s.step m = some (t, out) ↔ s.Deliverable m ∧ out = (s.bean.onMessage m).2 ∧
      t = ⟨(s.bean.onMessage m).1, s.take m + timeouts out⟩ := by
  unfold step
  by_cases h : s.Deliverable m
  · rw [if_pos h, Option.some.injEq, Prod.mk.injEq]
    constructor
    · rintro ⟨rfl, rfl⟩
      exact ⟨h, rfl, rfl⟩
    · rintro ⟨-, rfl, rfl⟩
      exact ⟨rfl, rfl⟩
  · simp [h]

end System

/-- Between two messages: only registered agents are waited for, some agent is waited for while
there is one, no timeout of a superstep to come is in flight, and one timeout of the current
superstep is, from the first superstep on. -/
structure Settled (s : System ι) : Prop where
  sub : s.bean.processing ⊆ s.bean.registered
  busy : s.bean.registered ≠ ∅ → s.bean.processing ≠ ∅
  bound : ∀ k ∈ s.timers, k ≤ s.bean.superstep
  armed : s.timers.count s.bean.superstep = if s.bean.superstep = 0 then 0 else 1

omit [DecidableEq ι] in
theorem settled_init : Settled (System.init ι) :=
  ⟨Finset.Subset.refl _, fun h => absurd rfl h, fun k hk => by simp [System.init] at hk,
    by simp [System.init, BarrierBean.new]⟩

theorem count_eq_zero_of_bound {timers : Multiset ℕ} {n : ℕ} (h : ∀ k ∈ timers, k ≤ n) :
    timers.count (n + 1) = 0 := by
  refine Multiset.count_eq_zero.2 fun hn => ?_
  have := h _ hn
  omega

omit [DecidableEq ι] in
/-- The next superstep's timeout is the only one of its superstep. -/
theorem settled_signalled {registered : Finset ι} {n : ℕ} {timers : Multiset ℕ}
    (hbound : ∀ k ∈ timers, k ≤ n) :
    Settled ⟨⟨n + 1, registered, registered⟩, timers + timeouts (ι := ι)
      [.superstep (n + 1) registered, .timeout (n + 1)]⟩ where
  sub := Finset.Subset.refl _
  busy := id
  bound := by
    intro k hk
    rcases Multiset.mem_add.1 hk with hk | hk
    · exact (hbound k hk).trans (Nat.le_succ n)
    · simp only [timeouts, List.filterMap_cons, List.filterMap_nil, Multiset.mem_coe,
        List.mem_singleton] at hk
      exact hk.le
  armed := by
    have h0 := count_eq_zero_of_bound hbound
    simp [timeouts, Multiset.count_add, h0]

/-- `nextSuperstepIfPossible` settles a state in which only the waiting set may be empty. -/
theorem settled_next {b : BarrierBean ι} {timers : Multiset ℕ}
    (hsub : b.processing ⊆ b.registered) (hbound : ∀ k ∈ timers, k ≤ b.superstep)
    (harmed : timers.count b.superstep = if b.superstep = 0 then 0 else 1) :
    Settled ⟨b.nextSuperstepIfPossible.1.1, timers + timeouts b.nextSuperstepIfPossible.1.2⟩ := by
  rcases b.nextSuperstepIfPossible_cases with ⟨-, -, heq⟩ | ⟨hbusy, heq⟩
  · rw [heq]
    exact settled_signalled hbound
  · rw [heq]
    exact ⟨hsub, hbusy, by simpa [timeouts] using hbound, by simpa [timeouts] using harmed⟩

/-- The handling of the current superstep's timeout, whose message is no longer in flight. -/
theorem settled_timeout {b : BarrierBean ι} {timers : Multiset ℕ} (order : List ι)
    (alive : ι → Bool) (hsub : b.processing ⊆ b.registered) (hpos : b.superstep ≠ 0)
    (hbound : ∀ k ∈ timers, k ≤ b.superstep) (hcount : timers.count b.superstep = 0) :
    Settled ⟨(b.onTimeout b.superstep order alive).1,
      timers + timeouts (b.onTimeout b.superstep order alive).2⟩ := by
  obtain ⟨hk, hr, hp, ht⟩ := BarrierBean.filterUnavailableAgents_spec alive order b
  have h0 := timeouts_eq_zero ht
  rcases (BarrierBean.filterUnavailableAgents alive order b).1.nextSuperstepIfPossible_cases with
    ⟨-, -, heq⟩ | ⟨hbusy, heq⟩
  · -- everybody who is left has completed, so the next superstep starts
    have hto : b.onTimeout b.superstep order alive =
        (⟨b.superstep + 1, b.registered, b.registered⟩,
          (BarrierBean.filterUnavailableAgents alive order b).2 ++
            [.superstep (b.superstep + 1) b.registered, .timeout (b.superstep + 1)]) := by
      simp only [BarrierBean.onTimeout, if_pos, heq, hk, hr]
    rw [hto, timeouts_append, h0, Multiset.zero_add]
    exact settled_signalled hbound
  · -- nobody is signalled, so the timeout is armed again for the same superstep
    have hto : b.onTimeout b.superstep order alive =
        ((BarrierBean.filterUnavailableAgents alive order b).1,
          (BarrierBean.filterUnavailableAgents alive order b).2 ++ [.timeout b.superstep]) := by
      simp [BarrierBean.onTimeout, heq, BarrierBean.scheduleTimeout, hk]
    have hone : timeouts (ι := ι) [.timeout b.superstep] = {b.superstep} := rfl
    rw [hto, timeouts_append, h0, Multiset.zero_add, hone]
    refine ⟨?_, hbusy, ?_, ?_⟩
    · rw [hr]
      exact hp.trans hsub
    · intro k hmem
      rw [hk]
      rcases Multiset.mem_add.1 hmem with hmem | hmem
      · exact hbound k hmem
      · exact (Multiset.mem_singleton.1 hmem).le
    · rw [hk, if_neg hpos, Multiset.count_add, hcount, Multiset.count_singleton_self]

theorem Settled.step {s t : System ι} {m : Message ι} {out : List (Output ι)} (hs : Settled s)
    (h : s.step m = some (t, out)) : Settled t := by
  obtain ⟨hdel, rfl, rfl⟩ := System.step_eq_some.1 h
  obtain ⟨hsub, hbusy, hbound, harmed⟩ := hs
  cases m with
  | subscribe aid =>
      exact settled_next (hsub.trans (Finset.subset_insert _ _)) hbound harmed
  | inform aid =>
      exact settled_next ((Finset.erase_subset _ _).trans hsub) hbound harmed
  | cancel aid =>
      have hsub' := Finset.erase_subset_erase aid hsub
      by_cases hmem : aid ∈ s.bean.processing
      · have heq : s.bean.onMessage (.cancel aid) = (BarrierBean.nextSuperstepIfPossible
            { s.bean with
              registered := s.bean.registered.erase aid
              processing := s.bean.processing.erase aid }).1 := if_pos hmem
        rw [heq]
        exact settled_next hsub' hbound harmed
      · have heq : s.bean.onMessage (.cancel aid) =
            (⟨s.bean.superstep, s.bean.registered.erase aid, s.bean.processing.erase aid⟩, []) :=
          if_neg hmem
        rw [heq]
        refine ⟨hsub', fun hne => ?_, by simpa [timeouts, System.take] using hbound,
          by simpa [timeouts, System.take] using harmed⟩
        -- `aid` was not waited for, so the others still are
        have hreg : s.bean.registered ≠ ∅ := fun h0 => hne (by simp [h0])
        show s.bean.processing.erase aid ≠ ∅
        rw [Finset.erase_eq_of_notMem hmem]
        exact hbusy hreg
  | request counter order alive =>
      have hbound' : ∀ k ∈ s.timers.erase counter, k ≤ s.bean.superstep :=
        fun k hk => hbound k (Multiset.mem_of_mem_erase hk)
      by_cases hcur : counter = s.bean.superstep
      · subst hcur
        have hone : 1 ≤ s.timers.count s.bean.superstep := Multiset.one_le_count_iff_mem.2 hdel.1
        have hpos : s.bean.superstep ≠ 0 := by
          intro h0
          rw [if_pos h0] at harmed
          omega
        refine settled_timeout order alive hsub hpos hbound' ?_
        show Multiset.count s.bean.superstep (s.timers.erase s.bean.superstep) = 0
        rw [Multiset.count_erase_self, harmed, if_neg hpos]
      · have heq : s.bean.onMessage (.request counter order alive) = (s.bean, []) :=
          BarrierBean.onTimeout_stale hcur order alive
        rw [heq]
        refine ⟨hsub, hbusy, by simpa [timeouts, System.take] using hbound', ?_⟩
        show Multiset.count s.bean.superstep (s.timers.erase counter + timeouts []) = _
        rw [timeouts, List.filterMap_nil, Multiset.coe_nil, Multiset.add_zero,
          Multiset.count_erase_of_ne (Ne.symm hcur), harmed]

theorem BarrierBean.le_onTimeout (b : BarrierBean ι) (counter : ℕ) (order : List ι)
    (alive : ι → Bool) : b.superstep ≤ (b.onTimeout counter order alive).1.superstep := by
  by_cases hcur : counter = b.superstep
  · have hk := (filterUnavailableAgents_spec alive order b).1
    have hle := le_nextSuperstepIfPossible (filterUnavailableAgents alive order b).1
    simp only [onTimeout, if_pos hcur]
    split <;> exact hk ▸ hle
  · rw [onTimeout_stale hcur]

/-- Once a superstep has been signalled, the counter is positive. -/
theorem Settled.step_pos {s t : System ι} {m : Message ι} {out : List (Output ι)} (hs : Settled s)
    (h : s.step m = some (t, out))
    (hsig : s.bean.superstep ≠ 0 ∨ ∃ k S, Output.superstep k S ∈ out) : t.bean.superstep ≠ 0 := by
  obtain ⟨hdel, rfl, rfl⟩ := System.step_eq_some.1 h
  -- every handler but the timeout's ends in `nextSuperstepIfPossible` on an unchanged counter
  have hnext : ∀ b : BarrierBean ι, b.superstep = s.bean.superstep →
      (s.bean.superstep ≠ 0 ∨ ∃ k S, Output.superstep k S ∈ b.nextSuperstepIfPossible.1.2) →
        b.nextSuperstepIfPossible.1.1.superstep ≠ 0 := by
    rintro b hb (hpos | ⟨k, S, hmem⟩)
    · have := b.le_nextSuperstepIfPossible
      omega
    · exact BarrierBean.superstep_pos_of_next hmem
  cases m with
  | subscribe aid => exact hnext _ rfl hsig
  | inform aid => exact hnext _ rfl hsig
  | cancel aid =>
      simp only [BarrierBean.onMessage, BarrierBean.deregisterAgent] at hsig ⊢
      split at hsig
      · next hmem =>
          rw [if_pos hmem]
          exact hnext _ rfl hsig
      · next hmem =>
          rw [if_neg hmem]
          simpa using hsig
  | request counter order alive =>
      by_cases hcur : counter = s.bean.superstep
      · -- the current superstep has a timeout in flight, so it is not the zeroth
        have hone : 1 ≤ s.timers.count s.bean.superstep :=
          Multiset.one_le_count_iff_mem.2 (hcur ▸ hdel.1)
        have hle := s.bean.le_onTimeout counter order alive
        have harmed := hs.armed
        intro h0
        have hzero : s.bean.superstep = 0 := Nat.le_zero.1 (h0 ▸ hle)
        rw [if_pos hzero] at harmed
        omega
      · have heq : s.bean.onMessage (.request counter order alive) = (s.bean, []) :=
          BarrierBean.onTimeout_stale hcur order alive
        rw [heq] at hsig ⊢
        simpa using hsig

/-- The barrier is never stuck. After every sequence of messages, with any outcome of the liveness
probes: only registered agents are waited for; while some agent is registered, some agent is waited
for; once a superstep has been signalled, exactly one timeout of the current superstep is in flight;
and every other timeout in flight is older and will be ignored. -/
theorem barrier_never_stuck (ms : List (Message ι)) (s : System ι) (out : List (Output ι))
    (h : play System.step (System.init ι) ms = some (s, out)) :
    s.bean.processing ⊆ s.bean.registered ∧
      (s.bean.registered.Nonempty → s.bean.processing.Nonempty) ∧
      ((∃ k S, Output.superstep k S ∈ out) → s.timers.count s.bean.superstep = 1) ∧
      ∀ k ∈ s.timers, k ≠ s.bean.superstep → k < s.bean.superstep ∧
        ∀ order alive, s.bean.onMessage (.request k order alive) = (s.bean, []) := by
  have hinv : Settled s ∧ ((∃ k S, Output.superstep k S ∈ out) → s.bean.superstep ≠ 0) := by
    refine play_invariant_of_step
      (fun out s => Settled s ∧ ((∃ k S, Output.superstep k S ∈ out) → s.bean.superstep ≠ 0))
      ?_ ⟨settled_init, by simp⟩ h
    rintro out s m t out' ⟨hs, hpos⟩ hstep
    refine ⟨hs.step hstep, ?_⟩
    rintro ⟨k, S, hmem⟩
    rcases List.mem_append.1 hmem with hmem | hmem
    · exact hs.step_pos hstep (.inl (hpos ⟨k, S, hmem⟩))
    · exact hs.step_pos hstep (.inr ⟨k, S, hmem⟩)
  obtain ⟨⟨hsub, hbusy, hbound, harmed⟩, hpos⟩ := hinv
  refine ⟨hsub, fun hne => ?_, fun hsig => ?_, fun k hk hne => ⟨?_, fun order alive => ?_⟩⟩
  · exact Finset.nonempty_iff_ne_empty.2 (hbusy (Finset.nonempty_iff_ne_empty.1 hne))
  · rw [harmed, if_neg (hpos hsig)]
  · exact lt_of_le_of_ne (hbound k hk) hne
  · exact BarrierBean.onTimeout_stale hne order alive

/-- Two agents join, the first finishes superstep 1 alone, and the old timeout arrives in
superstep 2. -/
theorem barrier_never_stuck_two :
    ∃ s out, play System.step (System.init ℕ)
        [.subscribe 1, .subscribe 2, .inform 1, .request 1 [2, 1] fun _ => true] = some (s, out) ∧
      s.bean.superstep = 2 ∧ s.bean.processing.Nonempty ∧
        s.timers.count s.bean.superstep = 1 := by
  have h : play System.step (System.init ℕ)
      [.subscribe 1, .subscribe 2, .inform 1, .request 1 [2, 1] fun _ => true] =
      some (⟨⟨2, {2, 1}, {2, 1}⟩, {2}⟩,
        [.superstep 1 {1}, .timeout 1, .superstep 2 {2, 1}, .timeout 2]) := by rfl
  obtain ⟨-, hbusy, hone, -⟩ := barrier_never_stuck _ _ _ h
  exact ⟨_, _, h, rfl, hbusy (by decide), hone ⟨1, {1}, by simp⟩⟩

end System

end Siebog.Interaction
