import Siebog.Lib.Monitors
import Siebog.Lib.Trace

/-!
# The event machinery of the graph

`EventManager` keeps the pending events in a list and hands them to the observers from a thread of
its own, the event dispatch thread `EDT`. Two monitors guard it: the list, entered by `addEvent`
and by the dispatch thread, and the graph itself, entered by both accessors of `paused`. Each
accessor can be called from inside the other monitor: `addEvent` reads `paused` while it is inside
the list, and `paused = false` enters the list while it is inside the graph.

A step of the model is the entering or the leaving of one monitor, together with what the thread
does until the next such point. Any number of clients (`τ`) run any lists of calls. Events are
objects of a type `ε`; nothing here looks inside them. `wake` is the spurious wakeup that
`Object.wait` permits.
-/

set_option autoImplicit false

namespace Siebog.DNars.Events

open Siebog.Lib

universe u v

/-- The graph (`this` of `EventManager`) and its list of pending events. -/
inductive Monitor where
  | graph
  | list
  deriving DecidableEq

/-- The clients and the event dispatch thread. -/
inductive Thread (τ : Type u) where
  | client (a : τ)
  | edt
  deriving DecidableEq

section Clients

variable {ε : Type v}

/-- The operations of `EventManager` that enter a monitor. -/
inductive Op (ε : Type v) where
  | addEvent (event : ε)
  | setPaused (value : Bool)

/-- A call of a client. `add(st: Statement)` raises one event, or none when the statement is not
valid; `add(st: Seq[Statement])` raises the events of its statements, up to the first exception. -/
inductive Call (ε : Type v) where
  | add (raised : Option ε)
  | addSeq (raised : List ε)
  | setPaused (value : Bool)

/-- The operations a call makes. The last one of `addSeq` stands in its `finally`. -/
def Call.ops : Call ε → List (Op ε)
  | .add raised => raised.toList.map .addEvent
  | .addSeq raised => .setPaused true :: (raised.map .addEvent ++ [.setPaused false])
  | .setPaused value => [.setPaused value]

/-- Where a client stands. In `addEvent`: `appended` before it calls `paused`, `reading` inside
that getter, `checked` after it. In `paused_=`: `resuming` when `_paused` has been set to false and
the list is not yet entered, `signalled` inside the list, `leaving` before the graph is left. -/
inductive Phase where
  | outside
  | appended
  | reading (paused : Bool)
  | checked (paused : Bool)
  | resuming
  | signalled
  | leaving
  deriving DecidableEq

/-- A client: its place and the operations it has not begun. -/
structure Client (ε : Type v) where
  phase : Phase
  ops : List (Op ε)

/-- The monitors a client is inside. -/
def Phase.inside : Phase → Monitor → Prop
  | .outside, _ => False
  | .appended, m | .checked _, m => m = .list
  | .reading _, _ | .signalled, _ => True
  | .resuming, m | .leaving, m => m = .graph

/-- The monitor a client enters next. -/
def Client.wants : Client ε → Monitor → Prop
  | ⟨.outside, .addEvent _ :: _⟩, m | ⟨.resuming, _⟩, m => m = .list
  | ⟨.outside, .setPaused _ :: _⟩, m | ⟨.appended, _⟩, m => m = .graph
  | _, _ => False

/-- Where the dispatch thread stands in `waitAndDispatch`: before it enters the list; inside it;
in the wait set of the list; out of the wait set and about to enter the list again; with a copy of
the pending events. -/
inductive EDT (ε : Type v) where
  | outside
  | checking
  | waiting
  | notified
  | dispatching (eventsToDispatch : List ε)

/-- The monitors the dispatch thread is inside. -/
def EDT.inside : EDT ε → Monitor → Prop
  | .checking, m => m = .list
  | _, _ => False

/-- The monitor the dispatch thread enters next. A thread in the wait set waits for a
notification, not for a monitor. -/
def EDT.wants : EDT ε → Monitor → Prop
  | .outside, m | .notified, m => m = .list
  | _, _ => False

end Clients

/-- The fields of the graph, the owners of its two monitors, and the threads. -/
structure State (τ : Type u) (ε : Type v) where
  list : List ε
  paused : Bool
  owner : Monitor → Option (Thread τ)
  clients : τ → Client ε
  edt : EDT ε

/-- What can be seen of a step: `_paused` set to false, and a batch given to the observers. -/
inductive Out (ε : Type v) where
  | resumed
  | onEvents (events : List ε)
  deriving DecidableEq

/-- What happens next: a client makes its next call, the thread of the manager goes on, or it is
woken up without a notification. -/
inductive Action (τ : Type u) where
  | client (a : τ)
  | edt
  | wake

variable {τ : Type u} {ε : Type v}

/-- The monitors a thread is inside, read off its own place. -/
def State.inside (s : State τ ε) : Thread τ → Monitor → Prop
  | .client a, m => (s.clients a).phase.inside m
  | .edt, m => s.edt.inside m

/-- The monitor a thread enters next. -/
def State.wants (s : State τ ε) : Thread τ → Monitor → Prop
  | .client a, m => (s.clients a).wants m
  | .edt, m => s.edt.wants m

section Steps

/-- Thread `t` enters `m` unless someone is inside. -/
def State.enter (s : State τ ε) (t : Thread τ) (m : Monitor) : Option (State τ ε) :=
  if s.owner m = none then some { s with owner := Monitors.enter s.owner t m } else none

/-- The monitor is free again. -/
def State.leave (s : State τ ε) (m : Monitor) : State τ ε :=
  { s with owner := Monitors.leave s.owner m }

/-- `list.notify`. Only the dispatch thread ever waits on the list. -/
def State.notify (s : State τ ε) : State τ ε :=
  match s.edt with
  | .waiting => { s with edt := .notified }
  | _ => s

variable [DecidableEq τ]

/-- The client goes on in another phase, with these operations still to be made. -/
def State.goto (s : State τ ε) (a : τ) (phase : Phase) (ops : List (Op ε)) : State τ ε :=
  { s with clients := Function.update s.clients a ⟨phase, ops⟩ }

/-- A step of a client: `addEvent` in the first rows, `paused_=` in the others. -/
def clientStep (s : State τ ε) (a : τ) : Option (State τ ε × List (Out ε)) :=
  match s.clients a with
  | ⟨.outside, []⟩ => none
  -- list synchronized { list += event
  | ⟨.outside, .addEvent event :: ops⟩ =>
      (s.enter (.client a) .list).map fun s =>
        ({ s with list := s.list ++ [event] }.goto a .appended ops, [])
  -- the getter: this synchronized { _paused }
  | ⟨.appended, ops⟩ =>
      (s.enter (.client a) .graph).map fun s => (s.goto a (.reading s.paused) ops, [])
  | ⟨.reading value, ops⟩ => some ((s.leave .graph).goto a (.checked value) ops, [])
  -- if (!paused) list.notify
  | ⟨.checked value, ops⟩ =>
      some (((if value then s else s.notify).leave .list).goto a .outside ops, [])
  -- this synchronized { _paused = value
  | ⟨.outside, .setPaused true :: ops⟩ =>
      (s.enter (.client a) .graph).map fun s =>
        ({ s with paused := true }.goto a .leaving ops, [])
  | ⟨.outside, .setPaused false :: ops⟩ =>
      (s.enter (.client a) .graph).map fun s =>
        ({ s with paused := false }.goto a .resuming ops, [.resumed])
  -- if (!value) list synchronized { if (list.size > 0) list.notify
  | ⟨.resuming, ops⟩ =>
      (s.enter (.client a) .list).map fun s =>
        ((if 0 < s.list.length then s.notify else s).goto a .signalled ops, [])
  | ⟨.signalled, ops⟩ => some ((s.leave .list).goto a .leaving ops, [])
  | ⟨.leaving, ops⟩ => some ((s.leave .graph).goto a .outside ops, [])

/-- A step of `waitAndDispatch`. Inside the list the thread either goes to the wait set or copies
and clears the pending events; both give up the list. -/
def waitAndDispatch (s : State τ ε) : Option (State τ ε × List (Out ε)) :=
  match s.edt with
  | .outside | .notified =>
      (s.enter .edt .list).map fun s => ({ s with edt := .checking }, [])
  | .checking =>
      if s.list.length = 0 then some ({ s.leave .list with edt := .waiting }, [])
      else some ({ s.leave .list with list := [], edt := .dispatching s.list }, [])
  | .waiting => none
  | .dispatching eventsToDispatch => some ({ s with edt := .outside }, [.onEvents eventsToDispatch])

/-- One step of one of the threads, and what it makes visible. A thread that has to wait for a
monitor makes none. -/
def step (s : State τ ε) : Action τ → Option (State τ ε × List (Out ε))
  | .client a => clientStep s a
  | .edt => waitAndDispatch s
  | .wake =>
      match s.edt with
      | .waiting => some ({ s with edt := .notified }, [])
      | _ => none

/-- A new graph: its dispatch thread has been started, and client `a` is to make `calls a`. -/
def start (calls : τ → List (Call ε)) : State τ ε where
  list := []
  paused := false
  owner := fun _ => none
  clients := fun a => ⟨.outside, (calls a).flatMap Call.ops⟩
  edt := .outside

end Steps

section Moves

/-! What a step can do, one case for each row of `clientStep` and `waitAndDispatch`. -/

/-- A monitor is entered when nobody owns it. -/
theorem State.enter_eq_some {s s' : State τ ε} {t : Thread τ} {m : Monitor} :
    s.enter t m = some s' ↔
      s.owner m = none ∧ { s with owner := Monitors.enter s.owner t m } = s' := by
  simp [State.enter]

/-- A notification wakes the dispatcher when it waits, and is lost otherwise. -/
theorem State.notify_cases (s : State τ ε) :
    (s.edt = .waiting ∧ s.notify = { s with edt := .notified }) ∨
      (s.edt ≠ .waiting ∧ s.notify = s) := by
  cases hedt : s.edt with
  | waiting =>
      left
      simp [State.notify, hedt]
  | outside | checking | notified | dispatching =>
      right
      simp [State.notify, hedt]

/-- The moves of the dispatch thread from the state `s`. -/
inductive EDTMove (s : State τ ε) : State τ ε → List (Out ε) → Prop where
  | enter (hedt : s.edt = .outside ∨ s.edt = .notified) (hfree : s.owner .list = none) :
      EDTMove s { s with owner := Monitors.enter s.owner .edt .list, edt := .checking } []
  | wait (hedt : s.edt = .checking) (hlist : s.list = []) :
      EDTMove s { s with owner := Monitors.leave s.owner .list, edt := .waiting } []
  | copy (hedt : s.edt = .checking) (hlist : s.list ≠ []) :
      EDTMove s
        { s with
          list := []
          owner := Monitors.leave s.owner .list
          edt := .dispatching s.list } []
  | dispatch {events : List ε} (hedt : s.edt = .dispatching events) :
      EDTMove s { s with edt := .outside } [.onEvents events]

/-- A step of the dispatcher is one of its moves. -/
theorem EDTMove.of_step {s s' : State τ ε} {out : List (Out ε)}
    (h : waitAndDispatch s = some (s', out)) : EDTMove s s' out := by
  cases hedt : s.edt with
  | outside =>
      simp only [waitAndDispatch, hedt, Option.map_eq_some_iff, State.enter_eq_some] at h
      obtain ⟨_, ⟨hfree, rfl⟩, hs⟩ := h
      cases hs
      exact .enter (.inl hedt) hfree
  | notified =>
      simp only [waitAndDispatch, hedt, Option.map_eq_some_iff, State.enter_eq_some] at h
      obtain ⟨_, ⟨hfree, rfl⟩, hs⟩ := h
      cases hs
      exact .enter (.inr hedt) hfree
  | checking =>
      simp only [waitAndDispatch, hedt, List.length_eq_zero_iff] at h
      by_cases hlist : s.list = []
      · rw [if_pos hlist] at h
        cases h
        exact .wait hedt hlist
      · rw [if_neg hlist] at h
        cases h
        exact .copy hedt hlist
  | waiting => simp [waitAndDispatch, hedt] at h
  | dispatching events =>
      simp only [waitAndDispatch, hedt] at h
      cases h
      exact .dispatch hedt

variable [DecidableEq τ]

/-- The moves of client `a` from the state `s`. -/
inductive ClientMove (s : State τ ε) (a : τ) : State τ ε → List (Out ε) → Prop where
  | append {event : ε} {ops : List (Op ε)} (hc : s.clients a = ⟨.outside, .addEvent event :: ops⟩)
      (hfree : s.owner .list = none) :
      ClientMove s a
        { s with
          list := s.list ++ [event]
          owner := Monitors.enter s.owner (.client a) .list
          clients := Function.update s.clients a ⟨.appended, ops⟩ } []
  | read {ops : List (Op ε)} (hc : s.clients a = ⟨.appended, ops⟩)
      (hfree : s.owner .graph = none) :
      ClientMove s a
        { s with
          owner := Monitors.enter s.owner (.client a) .graph
          clients := Function.update s.clients a ⟨.reading s.paused, ops⟩ } []
  | back {value : Bool} {ops : List (Op ε)} (hc : s.clients a = ⟨.reading value, ops⟩) :
      ClientMove s a
        { s with
          owner := Monitors.leave s.owner .graph
          clients := Function.update s.clients a ⟨.checked value, ops⟩ } []
  | added {value : Bool} {ops : List (Op ε)} {edt : EDT ε}
      (hc : s.clients a = ⟨.checked value, ops⟩)
      (hedt : edt = s.edt ∨ s.edt = .waiting ∧ edt = .notified) :
      ClientMove s a
        { s with
          owner := Monitors.leave s.owner .list
          clients := Function.update s.clients a ⟨.outside, ops⟩
          edt := edt } []
  | pause {ops : List (Op ε)} (hc : s.clients a = ⟨.outside, .setPaused true :: ops⟩)
      (hfree : s.owner .graph = none) :
      ClientMove s a
        { s with
          paused := true
          owner := Monitors.enter s.owner (.client a) .graph
          clients := Function.update s.clients a ⟨.leaving, ops⟩ } []
  | resume {ops : List (Op ε)} (hc : s.clients a = ⟨.outside, .setPaused false :: ops⟩)
      (hfree : s.owner .graph = none) :
      ClientMove s a
        { s with
          paused := false
          owner := Monitors.enter s.owner (.client a) .graph
          clients := Function.update s.clients a ⟨.resuming, ops⟩ } [.resumed]
  | signal {ops : List (Op ε)} {edt : EDT ε} (hc : s.clients a = ⟨.resuming, ops⟩)
      (hfree : s.owner .list = none)
      (hedt : edt = s.edt ∨ s.edt = .waiting ∧ edt = .notified)
      (hwake : edt = .waiting → s.list = []) :
      ClientMove s a
        { s with
          owner := Monitors.enter s.owner (.client a) .list
          clients := Function.update s.clients a ⟨.signalled, ops⟩
          edt := edt } []
  | signalled {ops : List (Op ε)} (hc : s.clients a = ⟨.signalled, ops⟩) :
      ClientMove s a
        { s with
          owner := Monitors.leave s.owner .list
          clients := Function.update s.clients a ⟨.leaving, ops⟩ } []
  | left {ops : List (Op ε)} (hc : s.clients a = ⟨.leaving, ops⟩) :
      ClientMove s a
        { s with
          owner := Monitors.leave s.owner .graph
          clients := Function.update s.clients a ⟨.outside, ops⟩ } []

/-- A step of a client is one of its moves. -/
theorem ClientMove.of_step {s s' : State τ ε} {a : τ} {out : List (Out ε)}
    (h : clientStep s a = some (s', out)) : ClientMove s a s' out := by
  cases hc : s.clients a with
  | mk phase ops =>
      cases phase with
      | outside =>
          cases ops with
          | nil => simp [clientStep, hc] at h
          | cons op ops =>
              cases op with
              | addEvent event =>
                  simp only [clientStep, hc, Option.map_eq_some_iff, State.enter_eq_some] at h
                  obtain ⟨_, ⟨hfree, rfl⟩, hs⟩ := h
                  cases hs
                  exact .append hc hfree
              | setPaused value =>
                  cases value with
                  | true =>
                      simp only [clientStep, hc, Option.map_eq_some_iff, State.enter_eq_some] at h
                      obtain ⟨_, ⟨hfree, rfl⟩, hs⟩ := h
                      cases hs
                      exact .pause hc hfree
                  | false =>
                      simp only [clientStep, hc, Option.map_eq_some_iff, State.enter_eq_some] at h
                      obtain ⟨_, ⟨hfree, rfl⟩, hs⟩ := h
                      cases hs
                      exact .resume hc hfree
      | appended =>
          simp only [clientStep, hc, Option.map_eq_some_iff, State.enter_eq_some] at h
          obtain ⟨_, ⟨hfree, rfl⟩, hs⟩ := h
          cases hs
          exact .read hc hfree
      | reading value =>
          simp only [clientStep, hc] at h
          cases h
          exact .back hc
      | checked value =>
          simp only [clientStep, hc] at h
          cases h
          -- during a pause nobody is notified
          cases value with
          | true => exact .added hc (.inl rfl)
          | false =>
              rcases s.notify_cases with ⟨hedt, hnotify⟩ | ⟨-, hnotify⟩
              · rw [if_neg Bool.false_ne_true, hnotify]
                exact .added hc (.inr ⟨hedt, rfl⟩)
              · rw [if_neg Bool.false_ne_true, hnotify]
                exact .added hc (.inl rfl)
      | resuming =>
          simp only [clientStep, hc, Option.map_eq_some_iff, State.enter_eq_some] at h
          obtain ⟨_, ⟨hfree, rfl⟩, hs⟩ := h
          cases hs
          -- with pending events the dispatch thread does not stay asleep
          by_cases hlist : 0 < s.list.length
          · rw [if_pos hlist]
            generalize hs₀ : { s with owner := Monitors.enter s.owner (.client a) .list } = s₀
            rcases s₀.notify_cases with ⟨hedt, hnotify⟩ | ⟨hedt, hnotify⟩
            · rw [hnotify]
              subst hs₀
              exact .signal hc hfree (.inr ⟨hedt, rfl⟩) nofun
            · rw [hnotify]
              subst hs₀
              exact .signal hc hfree (.inl rfl) fun hw => absurd hw hedt
          · rw [if_neg hlist]
            exact .signal hc hfree (.inl rfl) fun _ =>
              List.eq_nil_of_length_eq_zero (Nat.eq_zero_of_not_pos hlist)
      | signalled =>
          simp only [clientStep, hc] at h
          cases h
          exact .signalled hc
      | leaving =>
          simp only [clientStep, hc] at h
          cases h
          exact .left hc

/-- A spurious wake-up is one of a dispatcher that waits. -/
theorem wake_eq_some {s s' : State τ ε} {out : List (Out ε)}
    (h : step s .wake = some (s', out)) :
    s.edt = .waiting ∧ s' = { s with edt := .notified } ∧ out = [] := by
  cases hedt : s.edt with
  | waiting =>
      simp only [step, hedt] at h
      cases h
      exact ⟨rfl, rfl, rfl⟩
  | outside | checking | notified | dispatching => simp [step, hedt] at h

end Moves

end Siebog.DNars.Events
