import Siebog.DNars.Events.Batching

/-!
# The observers of a graph

The event dispatch thread hands each copy of the pending events to the observers, one after the
other in the order they were registered. By then the events are no longer pending. An observer may
throw: the thread logs an exception and goes on with the next copy, so the observers that were still
to be called never see this one; an interrupt or an error ends the thread.

`Feed` puts the registry of observers beside the machine of `Siebog.DNars.Events.EventManager`. What
an observer throws is an input of the dispatch. `Complete` says that an observer has got everything
so far, and `observer_complete_iff` when that is so.
-/

set_option autoImplicit false

namespace Siebog.DNars.Events

open Siebog.Lib

universe u v w

variable {τ : Type u} {ε : Type v} {ω : Type w}

section Model

/-- What an observer may throw, by the case of `processEvents` that it ends up in. -/
inductive Throwable where
  | interrupted
  | exception
  | error
  deriving DecidableEq

/-- An exception is logged; after an interrupt the loop of `run` stops, and nothing catches an
error. -/
def Throwable.endsThread : Throwable → Bool
  | .exception => false
  | .interrupted | .error => true

/-- The graph's machine, the registered observers, and whether the dispatch thread has ended. -/
structure Feed (τ : Type u) (ε : Type v) (ω : Type w) where
  graph : State τ ε
  observers : List ω
  ended : Bool

/-- `observers.foreach { _.onEvents(events) }`: the observers called, and what the last of them
threw. -/
def foreachObserver (throws : ω → Option Throwable) : List ω → List ω × Option Throwable
  | [] => ([], none)
  | obs :: rest =>
      match throws obs with
      | some t => ([obs], some t)
      | none =>
          let later := foreachObserver throws rest
          (obs :: later.1, later.2)

/-- What can be seen of a step: an event added to the list, and an observer called with a batch. -/
inductive FeedOut (ε : Type v) (ω : Type w) where
  | added (event : ε)
  | called (obs : ω) (events : List ε)

inductive FeedAction (τ : Type u) (ω : Type w) where
  | client (a : τ)
  | edt (throws : ω → Option Throwable)
  | wake
  | addObserver (obs : ω)
  | removeObserver (obs : ω)

/-- The event that the client's step appends to the list. -/
def State.appending (s : State τ ε) (a : τ) : List ε :=
  match s.clients a with
  | ⟨.outside, .addEvent event :: _⟩ => [event]
  | _ => []

namespace Feed

/-- The outputs of the dispatch thread reach the observers. -/
def dispatch (s : Feed τ ε ω) (throws : ω → Option Throwable) (graph : State τ ε) :
    List (Out ε) → Feed τ ε ω × List (FeedOut ε ω)
  | [.onEvents events] =>
      let called := foreachObserver throws s.observers
      ({ s with graph := graph, ended := called.2.any Throwable.endsThread },
        called.1.map (.called · events))
  | _ => ({ s with graph := graph }, [])

def step [DecidableEq τ] [DecidableEq ω] (s : Feed τ ε ω) :
    FeedAction τ ω → Option (Feed τ ε ω × List (FeedOut ε ω))
  | .client a =>
      (clientStep s.graph a).map fun r =>
        ({ s with graph := r.1 }, (s.graph.appending a).map .added)
  | .edt throws =>
      if s.ended then none
      -- an observer that throws an error ends the thread
      else (waitAndDispatch s.graph).map fun r => s.dispatch throws r.1 r.2
  | .wake =>
      match s.graph.edt with
      | .waiting => some ({ s with graph := { s.graph with edt := .notified } }, [])
      | _ => none
  | .addObserver obs => some ({ s with observers := s.observers ++ [obs] }, [])
  | .removeObserver obs => some ({ s with observers := s.observers.erase obs }, [])

/-- A graph with its observers; the clients are to make `calls`. -/
def start (calls : τ → List (Call ε)) (observers : List ω) : Feed τ ε ω :=
  ⟨Events.start calls, observers, false⟩

/-- The events that no observer has been called with yet. -/
def undispatched (s : Feed τ ε ω) : List ε := s.graph.edt.copied ++ s.graph.list

end Feed

end Model

section Histories

/-- The events added, in their order. -/
def addedEvents (h : List (FeedOut ε ω)) : List ε :=
  h.filterMap fun
    | .added event => some event
    | .called _ _ => none

/-- The events an observer was called with, in their order. -/
def receivedBy [DecidableEq ω] (obs : ω) (h : List (FeedOut ε ω)) : List ε :=
  (h.filterMap fun
    | .called o events => if o = obs then some events else none
    | .added _ => none).flatten

theorem addedEvents_append (h h' : List (FeedOut ε ω)) :
    addedEvents (h ++ h') = addedEvents h ++ addedEvents h' := List.filterMap_append

theorem addedEvents_map_added (events : List ε) :
    addedEvents (events.map (FeedOut.added (ω := ω))) = events := by
  simp [addedEvents, List.filterMap_map]

theorem addedEvents_map_called (called : List ω) (events : List ε) :
    addedEvents (called.map (FeedOut.called · events)) = [] := by
  simp [addedEvents, List.filterMap_map]

variable [DecidableEq ω]

theorem receivedBy_append (obs : ω) (h h' : List (FeedOut ε ω)) :
    receivedBy obs (h ++ h') = receivedBy obs h ++ receivedBy obs h' := by
  rw [receivedBy, List.filterMap_append, List.flatten_append]
  rfl

theorem receivedBy_map_added (obs : ω) (events : List ε) :
    receivedBy obs (events.map (FeedOut.added (ω := ω))) = [] := by
  simp [receivedBy, List.filterMap_map]

theorem receivedBy_cons_called (obs o : ω) (events : List ε) (h : List (FeedOut ε ω)) :
    receivedBy obs (.called o events :: h) =
      (if o = obs then events else []) ++ receivedBy obs h := by
  unfold receivedBy
  by_cases ho : o = obs
  · simp [ho]
  · simp [ho]

/-- An observer that is not called receives nothing. -/
theorem receivedBy_called_notMem {obs : ω} {called : List ω} (h : obs ∉ called)
    (events : List ε) : receivedBy obs (called.map (FeedOut.called · events)) = [] := by
  induction called with
  | nil => rfl
  | cons o called ih =>
      rw [List.mem_cons, not_or] at h
      rw [List.map_cons, receivedBy_cons_called, if_neg (Ne.symm h.1), ih h.2, List.append_nil]

/-- An observer that is called once receives the batch once. -/
theorem receivedBy_called_once {obs : ω} {called : List ω} (h : called.count obs = 1)
    (events : List ε) : receivedBy obs (called.map (FeedOut.called · events)) = events := by
  obtain ⟨before, later, rfl, hbefore⟩ :=
    List.eq_append_cons_of_mem (List.count_pos_iff.1 (h ▸ Nat.one_pos))
  have hlater : obs ∉ later := by
    rw [List.count_append, List.count_cons_self, List.count_eq_zero.2 hbefore] at h
    exact List.count_eq_zero.1 (by omega)
  rw [List.map_append, receivedBy_append, receivedBy_called_notMem hbefore events, List.nil_append,
    List.map_cons, receivedBy_cons_called, if_pos rfl, receivedBy_called_notMem hlater events,
    List.append_nil]

end Histories

section Dispatch

variable (throws : ω → Option Throwable)

/-- The observers are called in their order, some of them. -/
theorem foreachObserver_sublist (observers : List ω) :
    (foreachObserver throws observers).1.Sublist observers := by
  induction observers with
  | nil => exact .slnil
  | cons o rest ih =>
      unfold foreachObserver
      cases throws o with
      | some t => exact (List.nil_sublist rest).cons_cons o
      | none => exact ih.cons_cons o

/-- An observer is called when none of those before it throws. -/
theorem mem_foreachObserver_iff (before later : List ω) {obs : ω} (hfirst : obs ∉ before) :
    obs ∈ (foreachObserver throws (before ++ obs :: later)).1 ↔ ∀ o ∈ before, throws o = none := by
  induction before with
  | nil =>
      refine iff_of_true ?_ fun o ho => by cases ho
      rw [List.nil_append, foreachObserver]
      cases throws obs with
      | some t => exact List.mem_singleton_self obs
      | none => exact List.mem_cons_self
  | cons o before ih =>
      rw [List.mem_cons, not_or] at hfirst
      rw [List.cons_append, foreachObserver]
      cases ho : throws o with
      | some t =>
          refine iff_of_false (fun hmem => hfirst.1 (List.mem_singleton.1 hmem)) fun hall => ?_
          rw [hall o List.mem_cons_self] at ho
          cases ho
      | none =>
          rw [List.mem_cons, or_iff_right hfirst.1, ih hfirst.2]
          simp [ho]

end Dispatch

section Steps

variable {s s' : Feed τ ε ω} {out : List (FeedOut ε ω)} {obs : ω}

/-- A copy of the pending events is never empty. -/
def NonemptyBatch (s : Feed τ ε ω) : Prop :=
  ∀ events, s.graph.edt = .dispatching events → events ≠ []

/-- A notification changes no batch. -/
theorem nonemptyBatch_of_notified
    (hedt : s'.graph.edt = s.graph.edt ∨ s.graph.edt = .waiting ∧ s'.graph.edt = .notified)
    (hne : NonemptyBatch s) : NonemptyBatch s' := by
  intro events hevents
  rcases hedt with heq | ⟨-, heq⟩
  · exact hne events (heq ▸ hevents)
  · rw [heq] at hevents
    cases hevents

variable [DecidableEq ω]

/-- The observer is neither registered again nor removed. -/
def Keeps (obs : ω) (act : FeedAction τ ω) : Prop :=
  act ≠ .addObserver obs ∧ act ≠ .removeObserver obs

/-- No observer before it throws when a batch is dispatched. -/
def Reached (obs : ω) (s : Feed τ ε ω) (act : FeedAction τ ω) : Prop :=
  ∀ throws events, act = .edt throws → s.graph.edt = .dispatching events →
    ∀ o ∈ s.observers.takeWhile (· ≠ obs), throws o = none

/-- What a step means for an observer: events are added or nothing happens to them; or a batch
leaves the machine, and the observer gets it when it is reached. -/
inductive Effect (obs : ω) (s : Feed τ ε ω) (act : FeedAction τ ω) (s' : Feed τ ε ω)
    (out : List (FeedOut ε ω)) : Prop where
  | quiet (hreached : Reached obs s act) (hreceived : receivedBy obs out = [])
      (hpending : s'.undispatched = s.undispatched ++ addedEvents out)
  | batch (events : List ε) (hne : events ≠ []) (hadded : addedEvents out = [])
      (hpending : s.undispatched = events ++ s'.undispatched)
      (hreached : Reached obs s act → receivedBy obs out = events)
      (hmissed : ¬ Reached obs s act → receivedBy obs out = [])

/-- A step of another thread passes no observer by. -/
theorem reached_of_ne {act : FeedAction τ ω} (h : ∀ throws, act ≠ .edt throws) :
    Reached obs s act := fun throws _ heq => absurd heq (h throws)

/-- A step that dispatches nothing passes no observer by. -/
theorem reached_of_copied (act : FeedAction τ ω)
    (h : ∀ events, s.graph.edt ≠ .dispatching events) : Reached obs s act :=
  fun _ events _ heq => absurd heq (h events)

/-- The batch that a dispatch takes out of the machine, and who gets it. -/
theorem dispatch_effect {throws : ω → Option Throwable} {events : List ε} {g : State τ ε}
    (hedt : s.graph.edt = .dispatching events) (hg : g = { s.graph with edt := .outside })
    (hne : events ≠ []) (hone : s.observers.count obs = 1) :
    Effect obs s (.edt throws) (s.dispatch throws g [.onEvents events]).1
      (s.dispatch throws g [.onEvents events]).2 := by
  subst hg
  -- the loop gets as far as `obs` if none of those before it throws
  obtain ⟨before, later, hsplit, hfirst⟩ :=
    List.eq_append_cons_of_mem (List.count_pos_iff.1 (hone ▸ Nat.one_pos))
  have htake : s.observers.takeWhile (· ≠ obs) = before := by
    rw [hsplit, List.takeWhile_append_of_pos fun o ho => by
      simpa using fun heq : o = obs => hfirst (heq ▸ ho)]
    simp
  have hreached : Reached obs s (.edt throws) ↔ obs ∈ (foreachObserver throws s.observers).1 := by
    rw [hsplit, mem_foreachObserver_iff throws before later hfirst, ← htake]
    constructor
    · intro h
      exact h throws events rfl hedt
    · rintro h _ _ hact -
      cases hact
      exact h
  refine .batch events hne (addedEvents_map_called _ _) ?_ (fun h => ?_) (fun h => ?_)
  · simp [Feed.undispatched, Feed.dispatch, hedt, EDT.copied]
  · have hcount : (foreachObserver throws s.observers).1.count obs = 1 := by
      have hle := (foreachObserver_sublist throws s.observers).count_le obs
      have hpos := List.count_pos_iff.2 (hreached.1 h)
      omega
    exact receivedBy_called_once hcount events
  · exact receivedBy_called_notMem (fun hmem => h (hreached.2 hmem)) events

/-- A change of the registry that leaves the observer where it is. -/
theorem registry_effect {act : FeedAction τ ω} {observers : List ω}
    (hne : ∀ throws, act ≠ .edt throws) :
    Effect obs s act ({ s with observers := observers } : Feed τ ε ω) [] :=
  .quiet (reached_of_ne hne) rfl (List.append_nil _).symm

variable [DecidableEq τ]

/-- A client adds its event behind the others, and wakes the dispatch thread at most. -/
theorem ClientMove.pending {g g' : State τ ε} {a : τ} {out : List (Out ε)}
    (hm : ClientMove g a g' out) :
    g'.list = g.list ++ g.appending a ∧ (g'.edt = g.edt ∨ g.edt = .waiting ∧ g'.edt = .notified) := by
  cases hm with
  | append hc _ => simp [State.appending, hc]
  | read hc _ => simp [State.appending, hc]
  | back hc => simp [State.appending, hc]
  | added hc hedt => simpa [State.appending, hc] using hedt
  | pause hc _ => simp [State.appending, hc]
  | resume hc _ => simp [State.appending, hc]
  | signal hc _ hedt _ => simpa [State.appending, hc] using hedt
  | signalled hc => simp [State.appending, hc]
  | left hc => simp [State.appending, hc]

/-- A client's step has the effect of adding events. -/
theorem client_effect {a : τ} (h : s.step (.client a) = some (s', out)) :
    Effect obs s (.client a) s' out ∧ s'.observers = s.observers ∧
      (NonemptyBatch s → NonemptyBatch s') := by
  simp only [Feed.step, Option.map_eq_some_iff] at h
  obtain ⟨⟨g, o⟩, hstep, hs⟩ := h
  cases hs
  obtain ⟨hlist, hedt⟩ := (ClientMove.of_step hstep).pending
  refine ⟨.quiet (reached_of_ne nofun) (receivedBy_map_added obs _) ?_, rfl,
    nonemptyBatch_of_notified hedt⟩
  rw [Feed.undispatched, Feed.undispatched, EDT.copied_notified hedt, hlist, addedEvents_map_added,
    List.append_assoc]

/-- A step of the dispatcher has the effect of dispatching a batch, or none. -/
theorem edt_effect {throws : ω → Option Throwable} (h : s.step (.edt throws) = some (s', out))
    (hone : s.observers.count obs = 1) (hbatch : NonemptyBatch s) :
    Effect obs s (.edt throws) s' out ∧ s'.observers = s.observers ∧ NonemptyBatch s' := by
  simp only [Feed.step] at h
  split at h
  · cases h
  · rw [Option.map_eq_some_iff] at h
    obtain ⟨⟨g, o⟩, hstep, hs⟩ := h
    -- only `dispatch` calls observers; the other moves leave what is undispatched as it is
    cases EDTMove.of_step hstep with
    | enter hedt hfree =>
        cases hs
        have hcopied : ∀ events, s.graph.edt ≠ .dispatching events := by
          intro events heq
          rcases hedt with hedt | hedt
          · rw [hedt] at heq
            cases heq
          · rw [hedt] at heq
            cases heq
        refine ⟨.quiet (reached_of_copied _ hcopied) rfl ?_, rfl, fun events heq => ?_⟩
        · rcases hedt with hedt | hedt
          · simp [Feed.undispatched, EDT.copied, hedt, addedEvents]
          · simp [Feed.undispatched, EDT.copied, hedt, addedEvents]
        · cases heq
    | wait hedt hlist =>
        cases hs
        refine ⟨.quiet (reached_of_copied _ fun events heq => ?_) rfl ?_, rfl, fun events heq => ?_⟩
        · rw [hedt] at heq
          cases heq
        · simp [Feed.undispatched, EDT.copied, hedt, addedEvents]
        · cases heq
    | copy hedt hlist =>
        cases hs
        refine ⟨.quiet (reached_of_copied _ fun events heq => ?_) rfl ?_, rfl, fun events heq => ?_⟩
        · rw [hedt] at heq
          cases heq
        · simp [Feed.undispatched, EDT.copied, hedt, addedEvents]
        · cases heq
          exact hlist
    | dispatch hedt =>
        cases hs
        refine ⟨dispatch_effect hedt rfl (hbatch _ hedt) hone, rfl, fun events heq => ?_⟩
        cases heq

/-- A spurious wake-up has no effect on the events. -/
theorem wake_effect (h : s.step .wake = some (s', out)) :
    Effect obs s .wake s' out ∧ s'.observers = s.observers ∧
      (NonemptyBatch s → NonemptyBatch s') := by
  simp only [Feed.step] at h
  split at h
  · next hedt =>
      cases h
      refine ⟨.quiet (reached_of_ne nofun) rfl ?_, rfl,
        nonemptyBatch_of_notified (.inr ⟨hedt, rfl⟩)⟩
      simp [Feed.undispatched, EDT.copied, hedt, addedEvents]
  · cases h

/-- Every step has an effect on the observer, and keeps it registered once. -/
theorem step_effect {act : FeedAction τ ω} (h : s.step act = some (s', out))
    (hkeeps : Keeps obs act) (hone : s.observers.count obs = 1) (hbatch : NonemptyBatch s) :
    Effect obs s act s' out ∧ s'.observers.count obs = 1 ∧ NonemptyBatch s' := by
  cases act with
  | client a =>
      obtain ⟨heffect, hobservers, hbatch'⟩ := client_effect h
      exact ⟨heffect, hobservers ▸ hone, hbatch' hbatch⟩
  | edt throws =>
      obtain ⟨heffect, hobservers, hbatch'⟩ := edt_effect h hone hbatch
      exact ⟨heffect, hobservers ▸ hone, hbatch'⟩
  | wake =>
      obtain ⟨heffect, hobservers, hbatch'⟩ := wake_effect h
      exact ⟨heffect, hobservers ▸ hone, hbatch' hbatch⟩
  | addObserver o =>
      cases h
      have hne : o ≠ obs := fun heq => hkeeps.1 (heq ▸ rfl)
      refine ⟨registry_effect nofun, ?_, hbatch⟩
      simp [List.count_append, hone, hne]
  | removeObserver o =>
      cases h
      have hne : obs ≠ o := fun heq => hkeeps.2 (heq ▸ rfl)
      refine ⟨registry_effect nofun, ?_, hbatch⟩
      simp [List.count_erase_of_ne hne, hone]

end Steps

section Completeness

variable [DecidableEq ω] {obs : ω}

/-- The observer has got every event that has left the machine. -/
def UpToDate (obs : ω) (h : List (FeedOut ε ω)) (s : Feed τ ε ω) : Prop :=
  receivedBy obs h ++ s.undispatched = addedEvents h

/-- An event has left the machine without it. -/
def Behind (obs : ω) (h : List (FeedOut ε ω)) (s : Feed τ ε ω) : Prop :=
  (receivedBy obs h).length + s.undispatched.length < (addedEvents h).length

/-- An observer that is behind is not up to date. -/
theorem Behind.not_upToDate {h : List (FeedOut ε ω)} {s : Feed τ ε ω} (hb : Behind obs h s) :
    ¬ UpToDate obs h s := by
  intro hup
  have hlength := congrArg List.length hup
  rw [List.length_append] at hlength
  exact absurd hb (by rw [Behind, hlength]; exact Nat.lt_irrefl _)

variable {s s' : Feed τ ε ω} {act : FeedAction τ ω} {h out : List (FeedOut ε ω)}

/-- An observer stays up to date where it is reached. -/
theorem Effect.upToDate (he : Effect obs s act s' out) (hup : UpToDate obs h s)
    (hreached : Reached obs s act) : UpToDate obs (h ++ out) s' := by
  unfold UpToDate at hup ⊢
  rw [receivedBy_append, addedEvents_append, ← hup]
  cases he with
  | quiet _ hreceived hpending =>
      rw [hreceived, hpending, List.append_nil, List.append_assoc]
  | batch events _ hadded hpending hgot _ =>
      rw [hgot hreached, hadded, hpending, List.append_nil, List.append_assoc]

/-- An observer that is passed by falls behind. -/
theorem Effect.behind_of_missed (he : Effect obs s act s' out) (hup : UpToDate obs h s)
    (hmissed : ¬ Reached obs s act) : Behind obs (h ++ out) s' := by
  unfold UpToDate at hup
  unfold Behind
  rw [receivedBy_append, addedEvents_append, ← hup]
  cases he with
  | quiet hreached _ _ => exact absurd hreached hmissed
  | batch events hne hadded hpending _ hgot =>
      have hpos := List.length_pos_iff.2 hne
      rw [hgot hmissed, hadded, hpending]
      simp only [List.length_append, List.length_nil]
      omega

/-- An observer that is behind stays behind. -/
theorem Effect.behind (he : Effect obs s act s' out) (hb : Behind obs h s) :
    Behind obs (h ++ out) s' := by
  unfold Behind at hb ⊢
  rw [receivedBy_append, addedEvents_append]
  cases he with
  | quiet _ hreceived hpending =>
      rw [hreceived, hpending]
      simp only [List.length_append, List.length_nil]
      omega
  | batch events _ hadded hpending hgot hmissed =>
      rw [hpending] at hb
      have hle : (receivedBy obs out).length ≤ events.length := by
        by_cases hreached : Reached obs s act
        · rw [hgot hreached]
        · rw [hmissed hreached]
          exact Nat.zero_le _
      simp only [hadded, List.length_append, List.length_nil] at hb ⊢
      omega

variable [DecidableEq τ]

/-- Once behind, an observer stays behind. -/
theorem behind_run (acts : List (FeedAction τ ω)) (hkeeps : ∀ act ∈ acts, Keeps obs act) :
    ∀ (s t : Feed τ ε ω) (h h' : List (FeedOut ε ω)), s.observers.count obs = 1 →
      NonemptyBatch s → Behind obs h s → play Feed.step s acts = some (t, h') →
        Behind obs (h ++ h') t := by
  induction acts with
  | nil =>
      intro s t h h' _ _ hb hp
      cases hp
      rwa [List.append_nil]
  | cons act acts ih =>
      intro s t h h' hone hbatch hb hp
      obtain ⟨s', out, h'', hs, hrest, rfl⟩ := play_cons_eq_some.1 hp
      obtain ⟨he, hone', hbatch'⟩ := step_effect hs (hkeeps act List.mem_cons_self) hone hbatch
      rw [← List.append_assoc]
      exact ih (fun a ha => hkeeps a (List.mem_cons_of_mem act ha)) s' t _ h'' hone' hbatch'
        (he.behind hb) hrest

/-- An observer is up to date at the end of a run exactly when every dispatch of the run reached
it. -/
theorem upToDate_run_iff (acts : List (FeedAction τ ω)) (hkeeps : ∀ act ∈ acts, Keeps obs act) :
    ∀ (s t : Feed τ ε ω) (h h' : List (FeedOut ε ω)), s.observers.count obs = 1 →
      NonemptyBatch s → UpToDate obs h s → play Feed.step s acts = some (t, h') →
        (UpToDate obs (h ++ h') t ↔ Along (next Feed.step) (Reached obs) s acts) := by
  induction acts with
  | nil =>
      intro s t h h' _ _ hup hp
      cases hp
      rw [List.append_nil]
      exact iff_of_true hup trivial
  | cons act acts ih =>
      intro s t h h' hone hbatch hup hp
      obtain ⟨s', out, h'', hs, hrest, rfl⟩ := play_cons_eq_some.1 hp
      obtain ⟨he, hone', hbatch'⟩ := step_effect hs (hkeeps act List.mem_cons_self) hone hbatch
      have hkeeps' : ∀ a ∈ acts, Keeps obs a := fun a ha => hkeeps a (List.mem_cons_of_mem act ha)
      rw [along_cons_some hs, ← List.append_assoc]
      by_cases hreached : Reached obs s act
      · rw [and_iff_right hreached]
        exact ih hkeeps' s' t _ h'' hone' hbatch' (he.upToDate hup hreached) hrest
      · have hbehind := behind_run acts hkeeps' s' t _ h'' hone' hbatch'
          (he.behind_of_missed hup hreached) hrest
        exact iff_of_false hbehind.not_upToDate fun hall => hreached hall.1

end Completeness

section Ending

/-- The first observer that throws ends the dispatch thread. -/
def EndedBy (throws : ω → Option Throwable) (observers : List ω) : Prop :=
  ∃ before o later t, observers = before ++ o :: later ∧ (∀ b ∈ before, throws b = none) ∧
    throws o = some t ∧ t.endsThread = true

/-- The loop ends the thread exactly when the first observer to throw throws an error. -/
theorem foreachObserver_ends_iff (throws : ω → Option Throwable) (observers : List ω) :
    (foreachObserver throws observers).2.any Throwable.endsThread = true ↔
      EndedBy throws observers := by
  induction observers with
  | nil =>
      refine iff_of_false (by simp [foreachObserver]) ?_
      rintro ⟨before, o, later, t, heq, -⟩
      simp at heq
  | cons o rest ih =>
      rw [foreachObserver]
      cases ho : throws o with
      | some t =>
          -- the first observer throws, and the loop ends with it
          constructor
          · intro h
            exact ⟨[], o, rest, t, rfl, (fun b hb => by cases hb), ho, by simpa using h⟩
          · rintro ⟨before, o', later, t', heq, hbefore, ho', ht'⟩
            cases before with
            | nil =>
                cases heq
                rw [ho] at ho'
                cases ho'
                simpa using ht'
            | cons b before =>
                cases heq
                rw [hbefore o List.mem_cons_self] at ho
                cases ho
      | none =>
          -- the first observer returns, and the rest of the loop decides
          refine ih.trans ⟨?_, ?_⟩
          · rintro ⟨before, o', later, t, rfl, hbefore, ho', ht⟩
            refine ⟨o :: before, o', later, t, rfl, fun b hb => ?_, ho', ht⟩
            rcases List.mem_cons.1 hb with rfl | hb
            · exact ho
            · exact hbefore b hb
          · rintro ⟨before, o', later, t, heq, hbefore, ho', ht⟩
            cases before with
            | nil =>
                cases heq
                rw [ho] at ho'
                cases ho'
            | cons b before =>
                cases heq
                exact ⟨before, o', later, t, rfl,
                  fun c hc => hbefore c (List.mem_cons_of_mem _ hc), ho', ht⟩

/-- The thread is not ended with events still pending, and none is added after its end. -/
structure Survives (s : Feed τ ε ω) (act : FeedAction τ ω) : Prop where
  client : ∀ a, act = .client a → s.ended = true → s.graph.appending a = []
  dispatch : ∀ throws events, act = .edt throws → s.graph.edt = .dispatching events →
    EndedBy throws s.observers → s.graph.list = []

/-- No event is left in a machine that does not run any more. -/
def NoneStranded (s : Feed τ ε ω) : Prop := s.ended = true → s.undispatched = []

/-- A thread that has ended holds no batch. -/
def EndedOutside (s : Feed τ ε ω) : Prop := s.ended = true → s.graph.edt = .outside

theorem survives_of_running {s : Feed τ ε ω} {act : FeedAction τ ω} (hrunning : s.ended = false)
    (hedt : ∀ throws events, act = .edt throws → s.graph.edt ≠ .dispatching events) :
    Survives s act where
  client a _ hended := by
    rw [hrunning] at hended
    cases hended
  dispatch throws events hact hevents _ := absurd hevents (hedt throws events hact)

variable [DecidableEq τ] [DecidableEq ω] {s s' : Feed τ ε ω} {out : List (FeedOut ε ω)}

/-- A client strands events only where the dispatcher has ended. -/
theorem client_stranded {a : τ} (h : s.step (.client a) = some (s', out))
    (hended : EndedOutside s) :
    EndedOutside s' ∧ (NoneStranded s → (NoneStranded s' ↔ Survives s (.client a))) ∧
      (NoneStranded s' → NoneStranded s) := by
  simp only [Feed.step, Option.map_eq_some_iff] at h
  obtain ⟨⟨g, o⟩, hstep, hs⟩ := h
  cases hs
  obtain ⟨hlist, hedt⟩ := (ClientMove.of_step hstep).pending
  have hpending : Feed.undispatched (⟨g, s.observers, s.ended⟩ : Feed τ ε ω) =
      s.undispatched ++ s.graph.appending a := by
    rw [Feed.undispatched, Feed.undispatched, EDT.copied_notified hedt, hlist, List.append_assoc]
  refine ⟨fun hend => ?_, fun hnone => ⟨fun hnone' => ⟨?_, nofun⟩, fun hsurvives hend => ?_⟩,
    fun hnone' hend => ?_⟩
  · have houtside := hended hend
    rcases hedt with heq | ⟨hwaiting, -⟩
    · exact heq.trans houtside
    · rw [houtside] at hwaiting
      cases hwaiting
  · intro b hb hend
    cases hb
    have hnil := hnone' hend
    rw [hpending, List.append_eq_nil_iff] at hnil
    exact hnil.2
  · rw [hpending, hnone hend, hsurvives.client a rfl hend]
    rfl
  · have hnil := hnone' hend
    rw [hpending, List.append_eq_nil_iff] at hnil
    exact hnil.1

/-- A step of the dispatcher strands events only where it ends. -/
theorem edt_stranded {throws : ω → Option Throwable} (h : s.step (.edt throws) = some (s', out)) :
    s.ended = false ∧ EndedOutside s' ∧ (NoneStranded s' ↔ Survives s (.edt throws)) := by
  simp only [Feed.step] at h
  split at h
  · cases h
  · next hrunning =>
      rw [Bool.not_eq_true] at hrunning
      rw [Option.map_eq_some_iff] at h
      obtain ⟨⟨g, o⟩, hstep, hs⟩ := h
      -- before a dispatch the thread goes on
      have hgoes : ∀ e : EDT ε, s.graph.edt = e → (∀ events, e ≠ .dispatching events) →
          Survives s (.edt throws) :=
        fun e he hnot => survives_of_running hrunning fun _ events _ => he ▸ hnot events
      have houtside : ∀ t : Feed τ ε ω, t.ended = s.ended → EndedOutside t := by
        intro t ht hend
        rw [ht, hrunning] at hend
        cases hend
      have hnone : ∀ t : Feed τ ε ω, t.ended = s.ended → NoneStranded t := by
        intro t ht hend
        rw [ht, hrunning] at hend
        cases hend
      refine ⟨hrunning, ?_⟩
      cases EDTMove.of_step hstep with
      | enter hedt hfree =>
          cases hs
          refine ⟨houtside _ rfl, iff_of_true (hnone _ rfl) ?_⟩
          rcases hedt with hedt | hedt
          · exact hgoes _ hedt nofun
          · exact hgoes _ hedt nofun
      | wait hedt hlist =>
          cases hs
          exact ⟨houtside _ rfl, iff_of_true (hnone _ rfl) (hgoes _ hedt nofun)⟩
      | copy hedt hlist =>
          cases hs
          exact ⟨houtside _ rfl, iff_of_true (hnone _ rfl) (hgoes _ hedt nofun)⟩
      | @dispatch events hedt =>
          cases hs
          have hends := foreachObserver_ends_iff throws s.observers
          refine ⟨fun _ => rfl, fun hnone => ⟨nofun, ?_⟩, fun hsurvives hend => ?_⟩
          · intro throws' _ hact _ hby
            cases hact
            exact hnone (hends.2 hby)
          · exact hsurvives.dispatch throws events rfl hedt (hends.1 hend)

/-- What a step does to the events of a machine that has ended or ends. -/
theorem stranded_step {act : FeedAction τ ω} (h : s.step act = some (s', out))
    (hended : EndedOutside s) :
    EndedOutside s' ∧ (NoneStranded s → (NoneStranded s' ↔ Survives s act)) ∧
      (NoneStranded s' → NoneStranded s) := by
  cases act with
  | client a => exact client_stranded h hended
  | edt throws =>
      obtain ⟨hrunning, houtside, hiff⟩ := edt_stranded h
      refine ⟨houtside, fun _ => hiff, fun _ hend => ?_⟩
      rw [hrunning] at hend
      cases hend
  | wake =>
      simp only [Feed.step] at h
      split at h
      · next hedt =>
          cases h
          -- a dispatcher that waits has not ended
          have hrunning : s.ended = false := by
            by_contra hend
            rw [hended (by simpa using hend)] at hedt
            cases hedt
          refine ⟨fun hend => ?_, fun _ => iff_of_true (fun hend => ?_) ?_, fun _ hend => ?_⟩
          · exact absurd hend (by simp [hrunning])
          · exact absurd hend (by simp [hrunning])
          · exact survives_of_running hrunning nofun
          · exact absurd hend (by simp [hrunning])
      · cases h
  | addObserver o =>
      cases h
      exact ⟨hended, fun hnone => iff_of_true hnone ⟨nofun, nofun⟩, fun hnone => hnone⟩
  | removeObserver o =>
      cases h
      exact ⟨hended, fun hnone => iff_of_true hnone ⟨nofun, nofun⟩, fun hnone => hnone⟩

/-- A stranded event stays stranded. -/
theorem noneStranded_of_run (acts : List (FeedAction τ ω)) :
    ∀ (s t : Feed τ ε ω) (h : List (FeedOut ε ω)), EndedOutside s →
      play Feed.step s acts = some (t, h) → NoneStranded t → NoneStranded s := by
  induction acts with
  | nil =>
      intro s t h _ hp hnone
      cases hp
      exact hnone
  | cons act acts ih =>
      intro s t h hended hp hnone
      obtain ⟨s', out, h', hs, hrest, -⟩ := play_cons_eq_some.1 hp
      obtain ⟨hended', -, hback⟩ := stranded_step hs hended
      exact hback (ih s' t h' hended' hrest hnone)

/-- No event is stranded at the end of a run exactly when every step survives. -/
theorem noneStranded_run_iff (acts : List (FeedAction τ ω)) :
    ∀ (s t : Feed τ ε ω) (h : List (FeedOut ε ω)), EndedOutside s → NoneStranded s →
      play Feed.step s acts = some (t, h) →
        (NoneStranded t ↔ Along (next Feed.step) Survives s acts) := by
  induction acts with
  | nil =>
      intro s t h _ hnone hp
      cases hp
      exact iff_of_true hnone trivial
  | cons act acts ih =>
      intro s t h hended hnone hp
      obtain ⟨s', out, h', hs, hrest, -⟩ := play_cons_eq_some.1 hp
      obtain ⟨hended', hiff, -⟩ := stranded_step hs hended
      rw [along_cons_some hs, ← hiff hnone]
      by_cases hnone' : NoneStranded s'
      · rw [and_iff_right hnone', ih s' t h' hended' hnone' hrest]
      · refine iff_of_false (fun ht => hnone' ?_) fun hall => hnone' hall.1
        exact noneStranded_of_run acts s' t h' hended' hrest ht

end Ending

section Observers

variable [DecidableEq τ] [DecidableEq ω]

/-- The observer was called with every event that has left the machine, each once and in the order
they were added, and no event is left in a machine that does not run any more. -/
structure Complete (obs : ω) (h : List (FeedOut ε ω)) (s : Feed τ ε ω) : Prop where
  upToDate : receivedBy obs h ++ s.undispatched = addedEvents h
  noneStranded : s.ended = true → s.undispatched = []

/-- Whatever the clients do, an observer that is registered throughout has got everything at the end
of a run exactly when, at each dispatch of the run, no observer before it threw, and no observer
ended the thread with events pending or before events were added. -/
theorem observer_complete_iff (calls : τ → List (Call ε)) (observers : List ω) (obs : ω)
    (hone : observers.count obs = 1) (acts : List (FeedAction τ ω))
    (hkeeps : ∀ act ∈ acts, Keeps obs act) (s : Feed τ ε ω) (h : List (FeedOut ε ω))
    (hrun : play Feed.step (Feed.start calls observers) acts = some (s, h)) :
    Complete obs h s ↔
      Along (next Feed.step) (Reached obs) (Feed.start calls observers) acts ∧
        Along (next Feed.step) Survives (Feed.start calls observers) acts := by
  have hup := upToDate_run_iff acts hkeeps (Feed.start calls observers) s [] h hone nofun rfl hrun
  have hnone := noneStranded_run_iff acts (Feed.start calls observers) s h nofun nofun hrun
  rw [← hup, ← hnone]
  exact ⟨fun hc => ⟨hc.upToDate, hc.noneStranded⟩, fun hc => ⟨hc.1, hc.2⟩⟩

/-- One event is added, and copied and dispatched to two observers, of which the first throws. -/
def firstThrows : List (FeedAction Unit ℕ) :=
  [.client (), .client (), .client (), .client (), .edt fun _ => none, .edt fun _ => none,
    .edt fun obs => if obs = 0 then some .exception else none]

theorem observer_complete_iff_first :
    ∃ s h, play Feed.step (Feed.start (fun _ => [.add (some 5)]) [0, 1]) firstThrows = some (s, h) ∧
      Complete 0 h s := by
  have hrun : ∃ s h, play Feed.step
      (Feed.start (fun _ => [.add (some 5)]) [0, 1]) firstThrows = some (s, h) := ⟨_, _, rfl⟩
  obtain ⟨s, h, hp⟩ := hrun
  have hkeeps : ∀ act ∈ firstThrows, Keeps 0 act := by
    simp [firstThrows, Keeps]
  have hiff := observer_complete_iff (fun _ => [.add (some 5)]) [0, 1] 0 rfl firstThrows hkeeps s h hp
  refine ⟨s, h, hp, hiff.2 ⟨?_, ?_⟩⟩
  · have hfirst : ∀ (s : Feed Unit ℕ ℕ) act, s.observers = [0, 1] → Reached 0 s act := by
      intro s act hobs throws events _ _ o ho
      simp [hobs] at ho
    iterate 7 refine ⟨hfirst _ _ rfl, fun s hs => ?_⟩; cases hs
    trivial
  · iterate 6 refine ⟨survives_of_running rfl nofun, fun s hs => ?_⟩; cases hs
    exact ⟨⟨nofun, fun _ _ _ _ _ => rfl⟩, fun s _ => trivial⟩

/-- The second observer never gets the batch on which the first one threw. -/
theorem observer_incomplete :
    ¬ ∀ (calls : Unit → List (Call ℕ)) (observers : List ℕ) (obs : ℕ), observers.count obs = 1 →
        ∀ acts : List (FeedAction Unit ℕ), (∀ act ∈ acts, Keeps obs act) → ∀ s h,
          play Feed.step (Feed.start calls observers) acts = some (s, h) → Complete obs h s := by
  intro hall
  have hkeeps : ∀ act ∈ firstThrows, Keeps 1 act := by
    simp [firstThrows, Keeps]
  have hcomplete := hall (fun _ => [.add (some 5)]) [0, 1] 1 rfl firstThrows hkeeps _ _ rfl
  have hup := hcomplete.upToDate
  cases hup

end Observers

end Siebog.DNars.Events
