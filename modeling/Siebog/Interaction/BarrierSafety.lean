import Siebog.Interaction.BarrierBean
import Siebog.Lib.Lockstep
import Mathlib.Algebra.Group.Nat.Defs

/-!
# Barrier safety

The barrier of `Siebog.Interaction.BarrierBean` with the agents it drives. A superstep message is
posted to every receiver and stays in flight until that agent executes it; the agent then posts one
completion, which stays in flight until the bean handles it. All messages may be delayed and
overtake one another.

A completion is `INFORM` with the agent's identifier: `agentCompletedSuperstep` of the manager drops
the superstep it is for. The superstep is kept beside the message in flight here, so that the events
of a run can name it; the bean never sees it.

The protocol is compared with `Siebog.Lib.Lockstep`. It is lockstep exactly when the missing number
does no harm: no completion of another superstep is handled while its agent is waited for
(`barrier_safe_iff`). Nothing in the code ensures that. `buildSuperstepMsg` ignores the receivers it
is given, so a timeout that finds two slow agents alive signals each of them twice more, and the
superfluous completions count for later supersteps (`barrier_unsafe`).
-/

set_option autoImplicit false

namespace Siebog.Interaction

open Siebog.Lib Lockstep

variable {ι : Type} [DecidableEq ι]

section Manager

/-- `BarrierManager.agentCompletedSuperstep`: the message an agent posts when it is done. -/
def agentCompletedSuperstep (_superstep : ℕ) (aid : ι) : Message ι := .inform aid

/-- `BSPAgent.onMessage`: a superstep message is answered by one completion of that superstep. -/
def BSPAgent.onMessage (myAid : ι) (superstep : ℕ) : Message ι :=
  agentCompletedSuperstep superstep myAid

end Manager

section Network

/-- The bean with its timeouts, the superstep messages that no agent has executed yet, and the
completions that the bean has not handled yet. -/
structure Network (ι : Type) where
  barrier : System ι
  calls : Multiset (ι × ℕ)
  completions : Multiset (ι × ℕ)

namespace Network

def init (ι : Type) : Network ι := ⟨System.init ι, 0, 0⟩

/-- What happens next: a message other than a completion reaches the bean, an agent executes a
superstep message, or a completion reaches the bean. -/
inductive Action (ι : Type) where
  | subscribe (aid : ι)
  | cancel (aid : ι)
  | timeout (counter : ℕ) (order : List ι) (alive : ι → Bool)
  | execute (aid : ι) (superstep : ℕ)
  | complete (aid : ι) (superstep : ℕ)

/-- The superstep messages among the outputs, one for each receiver. -/
def posted (out : List (Output ι)) : Multiset (ι × ℕ) :=
  (out.map fun
    | .superstep k S => S.val.map fun a => (a, k)
    | _ => 0).sum

/-- The outputs as an observer of the protocol sees them. -/
def observed (out : List (Output ι)) : List (Event ι ℕ) :=
  out.filterMap fun
    | .superstep k S => some (.signal k S)
    | .unavailable a => some (.leave a)
    | .timeout _ => none

/-- The bean handles `m`, which an observer sees as the events `seen`. -/
def deliver (n : Network ι) (m : Message ι) (seen : List (Event ι ℕ)) :
    Option (Network ι × List (Event ι ℕ)) :=
  (n.barrier.step m).map fun (barrier, out) =>
    (⟨barrier, n.calls + posted out, n.completions⟩, seen ++ observed out)

def step (n : Network ι) : Action ι → Option (Network ι × List (Event ι ℕ))
  | .subscribe aid => n.deliver (.subscribe aid) []
  | .cancel aid => n.deliver (.cancel aid) [.leave aid]
  | .timeout counter order alive => n.deliver (.request counter order alive) []
  | .execute aid k =>
      if (aid, k) ∈ n.calls then
        some (⟨n.barrier, n.calls.erase (aid, k), (aid, k) ::ₘ n.completions⟩, [])
      else none
  | .complete aid k =>
      if (aid, k) ∈ n.completions then
        { n with completions := n.completions.erase (aid, k) }.deliver
          (BSPAgent.onMessage aid k) [.report aid k]
      else none

end Network

end Network

section Refinement

/-- The bean as a lockstep coordinator. -/
def BarrierBean.view (b : BarrierBean ι) : State ι ℕ := ⟨b.superstep, b.processing⟩

namespace Network

omit [DecidableEq ι] in
@[simp] theorem observed_append (out out' : List (Output ι)) :
    observed (out ++ out') = observed out ++ observed out' :=
  List.filterMap_append

/-- A step of the network is a message handled by the barrier, or an agent's own step. -/
theorem deliver_eq_some {n n' : Network ι} {m : Message ι} {seen h : List (Event ι ℕ)} :
    n.deliver m seen = some (n', h) ↔
      n.barrier.Deliverable m ∧ h = seen ++ observed (n.barrier.bean.onMessage m).2 ∧
        n' = ⟨⟨(n.barrier.bean.onMessage m).1,
            n.barrier.take m + timeouts (n.barrier.bean.onMessage m).2⟩,
          n.calls + posted (n.barrier.bean.onMessage m).2, n.completions⟩ := by
  unfold deliver System.step
  by_cases hm : n.barrier.Deliverable m
  · rw [if_pos hm, Option.map_some, Option.some.injEq, Prod.mk.injEq]
    constructor
    · rintro ⟨rfl, rfl⟩
      exact ⟨hm, rfl, rfl⟩
    · rintro ⟨-, rfl, rfl⟩
      exact ⟨rfl, rfl⟩
  · simp [hm]

end Network

open Network

namespace BarrierBean

theorem nextSuperstepIfPossible_steps (b : BarrierBean ι) :
    Steps b.view (observed b.nextSuperstepIfPossible.1.2) b.nextSuperstepIfPossible.1.1.view := by
  rcases b.nextSuperstepIfPossible_cases with ⟨hempty, -, heq⟩ | ⟨-, heq⟩
  · rw [heq]
    exact .one (.start hempty)
  · rw [heq]
    exact .nil

theorem filterUnavailableAgents_steps (alive : ι → Bool) (order : List ι) (b : BarrierBean ι) :
    Steps b.view (observed (filterUnavailableAgents alive order b).2)
      (filterUnavailableAgents alive order b).1.view := by
  induction order generalizing b with
  | nil => exact .nil
  | cons aid rest ih =>
      by_cases h : alive aid = true
      · rw [filterUnavailableAgents_alive h]
        exact .cons (.again (Finset.Subset.refl _)) (ih b)
      · rw [filterUnavailableAgents_dead h]
        have hleave : Step b.view (.leave aid) ⟨b.superstep, b.processing.erase aid⟩ := .leave
        exact .cons hleave (ih { b with processing := b.processing.erase aid })

theorem onTimeout_steps (b : BarrierBean ι) (counter : ℕ) (order : List ι) (alive : ι → Bool) :
    Steps b.view (observed (b.onTimeout counter order alive).2)
      (b.onTimeout counter order alive).1.view := by
  by_cases hcur : counter = b.superstep
  · have hfilter := filterUnavailableAgents_steps alive order b
    have hnext := nextSuperstepIfPossible_steps (filterUnavailableAgents alive order b).1
    simp only [onTimeout, if_pos hcur]
    split
    · rw [observed_append]
      exact hfilter.append hnext
    · -- arming the timeout again is not observed
      have hquiet : ∀ b : BarrierBean ι, observed [b.scheduleTimeout] = [] := fun _ => rfl
      rw [observed_append, observed_append, hquiet, List.append_nil]
      exact hfilter.append hnext
  · rw [onTimeout_stale hcur]
    exact Steps.nil

theorem deregisterAgent_steps (b : BarrierBean ι) (aid : ι) :
    Steps b.view (.leave aid :: observed (b.deregisterAgent aid).2) (b.deregisterAgent aid).1.view := by
  have hleave : Step b.view (.leave aid) ⟨b.superstep, b.processing.erase aid⟩ := .leave
  refine .cons hleave ?_
  unfold deregisterAgent
  split
  · exact nextSuperstepIfPossible_steps
      ⟨b.superstep, b.registered.erase aid, b.processing.erase aid⟩
  · exact .nil

/-- A completion is a lockstep report when it is for the current superstep, or when nobody waits
for its agent. -/
theorem agentCompletedSuperstep_steps {b : BarrierBean ι} {aid : ι} {k : ℕ}
    (h : k = b.superstep ∨ aid ∉ b.processing) :
    Steps b.view (.report aid k :: observed (b.agentCompletedSuperstep aid).2)
      (b.agentCompletedSuperstep aid).1.view :=
  .cons (.report h)
    (nextSuperstepIfPossible_steps { b with processing := b.processing.erase aid })

end BarrierBean

end Refinement

section Safety

namespace Network

/-- No completion of another superstep is handled while its agent is waited for. -/
def Fresh (n : Network ι) : Action ι → Prop
  | .complete aid k => k = n.barrier.bean.superstep ∨ aid ∉ n.barrier.bean.processing
  | _ => True

instance (n : Network ι) : DecidablePred n.Fresh := fun a => by
  cases a <;> unfold Fresh <;> infer_instance

/-- A completion of another superstep changes nothing in the bean. -/
def LateIgnored (n : Network ι) : Action ι → Prop
  | .complete aid k => k ≠ n.barrier.bean.superstep →
      n.barrier.bean.onMessage (BSPAgent.onMessage aid k) = (n.barrier.bean, [])
  | _ => True

theorem step_steps {n n' : Network ι} {a : Action ι} {h : List (Event ι ℕ)} (hfresh : n.Fresh a)
    (hstep : n.step a = some (n', h)) :
    Steps n.barrier.bean.view h n'.barrier.bean.view := by
  cases a with
  | subscribe aid =>
      obtain ⟨-, rfl, rfl⟩ := deliver_eq_some.1 hstep
      exact BarrierBean.nextSuperstepIfPossible_steps
        { n.barrier.bean with registered := insert aid n.barrier.bean.registered }
  | cancel aid =>
      obtain ⟨-, rfl, rfl⟩ := deliver_eq_some.1 hstep
      exact n.barrier.bean.deregisterAgent_steps aid
  | timeout counter order alive =>
      obtain ⟨-, rfl, rfl⟩ := deliver_eq_some.1 hstep
      exact n.barrier.bean.onTimeout_steps counter order alive
  | execute aid k =>
      -- the agent takes the signal, and the bean is as it was
      simp only [step] at hstep
      split at hstep
      · cases hstep
        exact .nil
      · cases hstep
  | complete aid k =>
      simp only [step] at hstep
      split at hstep
      · obtain ⟨-, rfl, rfl⟩ := deliver_eq_some.1 hstep
        exact BarrierBean.agentCompletedSuperstep_steps hfresh
      · cases hstep

theorem step_settled {n n' : Network ι} {a : Action ι} {h : List (Event ι ℕ)}
    (hn : Settled n.barrier) (hstep : n.step a = some (n', h)) : Settled n'.barrier := by
  -- whatever is delivered, the barrier makes a step of its own
  have hdeliver : ∀ (n₀ : Network ι) (m : Message ι) (seen : List (Event ι ℕ)),
      n₀.barrier = n.barrier → n₀.deliver m seen = some (n', h) → Settled n'.barrier := by
    intro n₀ m seen hb hd
    obtain ⟨hm, -, rfl⟩ := deliver_eq_some.1 hd
    rw [hb] at hm ⊢
    exact hn.step (System.step_eq_some.2 ⟨hm, rfl, rfl⟩)
  cases a with
  | subscribe aid => exact hdeliver n _ _ rfl hstep
  | cancel aid => exact hdeliver n _ _ rfl hstep
  | timeout counter order alive => exact hdeliver n _ _ rfl hstep
  | execute aid k =>
      simp only [step] at hstep
      split at hstep
      · cases hstep
        exact hn
      · cases hstep
  | complete aid k =>
      simp only [step] at hstep
      split at hstep
      · exact hdeliver { n with completions := n.completions.erase (aid, k) } _ _ rfl hstep
      · cases hstep

/-- In a settled barrier, a completion is ignored exactly when its agent is not waited for. -/
theorem inform_ignored_iff {s : System ι} (hs : Settled s) (aid : ι) :
    s.bean.onMessage (.inform aid) = (s.bean, []) ↔ aid ∉ s.bean.processing := by
  show s.bean.agentCompletedSuperstep aid = (s.bean, []) ↔ _
  unfold BarrierBean.agentCompletedSuperstep
  constructor
  · intro heq hmem
    rcases BarrierBean.nextSuperstepIfPossible_cases
        { s.bean with processing := s.bean.processing.erase aid } with ⟨-, -, hn⟩ | ⟨-, hn⟩
    · rw [hn] at heq
      cases congrArg Prod.snd heq
    · rw [hn] at heq
      have hproc : s.bean.processing.erase aid = s.bean.processing :=
        congrArg (fun r => r.1.processing) heq
      rw [← hproc] at hmem
      exact Finset.notMem_erase aid _ hmem
  · intro hmem
    rw [Finset.erase_eq_of_notMem hmem]
    rcases s.bean.nextSuperstepIfPossible_cases with ⟨hempty, hreg, -⟩ | ⟨-, hn⟩
    · exact absurd hempty (hs.busy hreg)
    · rw [hn]

theorem fresh_iff_lateIgnored {n : Network ι} (hn : Settled n.barrier) (a : Action ι) :
    n.LateIgnored a ↔ n.Fresh a := by
  cases a with
  | complete aid k =>
      show (k ≠ n.barrier.bean.superstep → n.barrier.bean.onMessage (.inform aid) = _) ↔ _
      rw [inform_ignored_iff hn]
      exact or_iff_not_imp_left.symm
  | _ => exact Iff.rfl

end Network

/-- The barrier is safe along a run, that is its history is lockstep and late completions are
ignored, exactly when every completion it handles is for the current superstep or from an agent it
is not waiting for. -/
theorem barrier_safe_iff (as : List (Network.Action ι)) (n : Network ι) (h : List (Event ι ℕ))
    (hrun : play Network.step (Network.init ι) as = some (n, h)) :
    (InLockstep h ∧ Along (next Network.step) Network.LateIgnored (Network.init ι) as) ↔
      Along (next Network.step) Network.Fresh (Network.init ι) as := by
  refine play_lockstep_iff (fun n => n.barrier.bean.view) (fun k => Nat.succ_ne_self k)
    (fun n a n' out hn hstep => ?_) (fun n a n' out _ hfresh hstep => ?_)
    (fun n a hn => Network.fresh_iff_lateIgnored hn a) settled_init hrun
  · exact Network.step_settled hn hstep
  · exact Network.step_steps hfresh hstep

/-- One agent, which a timeout signals again while its completion of superstep 2 is in flight. -/
theorem barrier_safe_iff_alone :
    ∃ n h, play Network.step (Network.init ℕ)
        [.subscribe 1, .execute 1 1, .complete 1 1, .execute 1 2, .timeout 2 [1] fun _ => true] =
        some (n, h) ∧
      InLockstep h ∧ Along (next Network.step) Network.LateIgnored (Network.init ℕ)
        [.subscribe 1, .execute 1 1, .complete 1 1, .execute 1 2, .timeout 2 [1] fun _ => true] := by
  have h : play Network.step (Network.init ℕ)
      [.subscribe 1, .execute 1 1, .complete 1 1, .execute 1 2, .timeout 2 [1] fun _ => true] =
      some (⟨⟨⟨2, {1}, {1}⟩, {1, 2}⟩, {(1, 2)}, {(1, 2)}⟩,
        [.signal 1 {1}, .report 1 1, .signal 2 {1}, .signal 2 {1}]) := by rfl
  exact ⟨_, _, h, (barrier_safe_iff _ _ _ h).2 (by decide)⟩

/-- Two slow agents are found alive by one timeout of superstep 2. -/
def overtakenRun : List (Network.Action ℕ) :=
  [.subscribe 1, .subscribe 2, .execute 1 1, .complete 1 1, .timeout 2 [2, 1] fun _ => true,
    .execute 1 2, .complete 1 2, .execute 2 2, .complete 2 2,
    .execute 1 2, .complete 1 2, .execute 2 2, .complete 2 2]

/-- The agents answer every message they receive once, and superstep 4 is signalled although nobody
completed superstep 3. -/
theorem barrier_unsafe :
    ¬ ∀ (as : List (Network.Action ℕ)) (n : Network ℕ) (h : List (Event ℕ ℕ)),
      play Network.step (Network.init ℕ) as = some (n, h) →
        InLockstep h ∧ Along (next Network.step) Network.LateIgnored (Network.init ℕ) as := by
  intro hsafe
  have hrun : (play Network.step (Network.init ℕ) overtakenRun).map Prod.snd =
      some ([.signal 1 {1}, .report 1 1, .signal 2 {2, 1}, .signal 2 {2, 1}, .signal 2 {2, 1},
        .report 1 2, .report 2 2, .signal 3 {2, 1}, .report 1 2, .report 2 2, .signal 4 {2, 1}]) := by
    rfl
  obtain ⟨⟨n, h⟩, hplay, rfl⟩ := Option.map_eq_some_iff.1 hrun
  -- agent 1 is signalled superstep 3 and then superstep 4, with two reports of superstep 2 between
  obtain ⟨z, hz, hrel⟩ := (hsafe _ n _ hplay).1 1 3
    [.signal 1 {1}, .report 1 1, .signal 2 {2, 1}, .signal 2 {2, 1}, .signal 2 {2, 1},
      .report 1 2, .report 2 2]
    (.signal 3 {2, 1}) [.report 1 2, .report 2 2] (.signal 4 {2, 1}) [] rfl ⟨rfl, by simp⟩ rfl
  simp only [List.mem_cons, List.not_mem_nil, or_false] at hz
  rcases hz with rfl | rfl
  · exact absurd hrel.2 (by decide)
  · exact absurd hrel.2 (by decide)
end Safety

end Siebog.Interaction
