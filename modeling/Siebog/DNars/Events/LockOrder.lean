import Siebog.DNars.Events.EventManager
import Mathlib.Order.WellFounded
import Mathlib.Data.Fintype.Order
import Mathlib.Order.BooleanAlgebra.Basic

/-!
# The order of the two monitors

`addEvent` enters the list and then the graph, `paused = false` the graph and then the list. These
are the only places where a thread inside one monitor enters the other (`nested_entry`), so a
deadlock is exactly a pair of clients standing in them at once (`deadlocked_iff_crossed`): with
either place empty, the threads enter the monitors in one order.
-/

set_option autoImplicit false

namespace Siebog.DNars.Events

open Siebog.Lib

universe u v

variable {τ : Type u} {ε : Type v} {s s' : State τ ε} {out : List (Out ε)}

section Owners

/-- The owners of the monitors are the threads whose place is inside them. -/
def Consistent (s : State τ ε) : Prop := Monitors.Agree s.owner s.inside

theorem consistent_start (calls : τ → List (Call ε)) : Consistent (start calls) := by
  intro t m
  cases t with
  | client a => simp [start, State.inside, Phase.inside]
  | edt => simp [start, State.inside, EDT.inside]

/-- A notification takes the dispatch thread into no monitor and out of none. -/
theorem EDT.inside_notified {e e' : EDT ε} (h : e' = e ∨ e = .waiting ∧ e' = .notified)
    (m : Monitor) : e'.inside m ↔ e.inside m := by
  rcases h with rfl | ⟨rfl, rfl⟩
  · exact Iff.rfl
  · exact Iff.rfl

theorem EDTMove.consistent (hm : EDTMove s s' out) (h : Consistent s) : Consistent s' := by
  have hothers : ∀ u, u ≠ Thread.edt → ∀ (e : EDT ε) (l : List ε) (o : Monitor → _) (m : Monitor),
      State.inside { s with list := l, owner := o, edt := e } u m ↔ s.inside u m := by
    intro u hu e l o m
    cases u with
    | client a => exact Iff.rfl
    | edt => exact absurd rfl hu
  -- only the dispatcher's own position changes
  cases hm with
  | enter hedt hfree =>
      apply Monitors.Agree.enter h hfree
      · intro n
        rcases hedt with hedt | hedt
        · simp [State.inside, EDT.inside, hedt]
        · simp [State.inside, EDT.inside, hedt]
      · exact fun u hu => hothers u hu _ _ _
  | wait hedt _ =>
      -- the wait gives the list up, as the end of the block does
      have hin : s.inside .edt .list := by simp [State.inside, EDT.inside, hedt]
      apply Monitors.Agree.leave h hin
      · intro n
        simp [State.inside, EDT.inside, hedt]
      · exact fun u hu => hothers u hu _ _ _
  | copy hedt _ =>
      have hin : s.inside .edt .list := by simp [State.inside, EDT.inside, hedt]
      apply Monitors.Agree.leave h hin
      · intro n
        simp [State.inside, EDT.inside, hedt]
      · exact fun u hu => hothers u hu _ _ _
  | dispatch hedt =>
      apply Monitors.Agree.congr h
      intro u n
      cases u with
      | client a => exact Iff.rfl
      | edt => simp [State.inside, EDT.inside, hedt]

variable [DecidableEq τ] {a : τ}

/-- A move of a client takes nobody else into a monitor or out of one. -/
theorem inside_others {c : Client ε} (hclients : s'.clients = Function.update s.clients a c)
    (hedt : ∀ m, s'.edt.inside m ↔ s.edt.inside m) :
    ∀ u, u ≠ Thread.client a → ∀ m, s'.inside u m ↔ s.inside u m := by
  intro u hu m
  cases u with
  | client b =>
      have hb : b ≠ a := by
        rintro rfl
        exact hu rfl
      simp [State.inside, hclients, hb]
  | edt => exact hedt m

theorem ClientMove.consistent (hm : ClientMove s a s' out) (h : Consistent s) :
    Consistent s' := by
  cases hm with
  | append hc hfree | read hc hfree | pause hc hfree | resume hc hfree =>
      apply Monitors.Agree.enter h hfree
      · intro n
        cases n with
        | graph => simp [State.inside, Phase.inside, hc]
        | list => simp [State.inside, Phase.inside, hc]
      · exact inside_others rfl fun _ => Iff.rfl
  | signal hc hfree hedt =>
      apply Monitors.Agree.enter h hfree
      · intro n
        cases n with
        | graph => simp [State.inside, Phase.inside, hc]
        | list => simp [State.inside, Phase.inside, hc]
      · exact inside_others rfl (EDT.inside_notified hedt)
  | back hc | signalled hc | left hc =>
      apply Monitors.Agree.leave h (t := Thread.client a)
      · simp [State.inside, Phase.inside, hc]
      · intro n
        cases n with
        | graph => simp [State.inside, Phase.inside, hc]
        | list => simp [State.inside, Phase.inside, hc]
      · exact inside_others rfl fun _ => Iff.rfl
  | added hc hedt =>
      apply Monitors.Agree.leave h (t := Thread.client a)
      · simp [State.inside, Phase.inside, hc]
      · intro n
        cases n with
        | graph => simp [State.inside, Phase.inside, hc]
        | list => simp [State.inside, Phase.inside, hc]
      · exact inside_others rfl (EDT.inside_notified hedt)

/-- Every step keeps the owners in agreement with the places of the threads. -/
theorem consistent_step {act : Action τ} (h : Consistent s)
    (hs : step s act = some (s', out)) : Consistent s' := by
  cases act with
  | client a => exact (ClientMove.of_step hs).consistent h
  | edt => exact (EDTMove.of_step hs).consistent h
  | wake =>
      obtain ⟨hedt, rfl, -⟩ := wake_eq_some hs
      apply Monitors.Agree.congr h
      intro u n
      cases u with
      | client a => exact Iff.rfl
      | edt => simp [State.inside, EDT.inside, hedt]

end Owners

section Deadlock

/-- Some threads, each inside one monitor, wait for monitors that others of them are inside. -/
def Deadlocked (s : State τ ε) : Prop :=
  Monitors.Deadlocked (fun t m => s.owner m = some t) s.wants

/-- One client is about to read `paused` inside the list, another one about to enter the list
inside the graph. -/
def Crossed (s : State τ ε) : Prop :=
  (∃ a, (s.clients a).phase = .appended) ∧ ∃ b, (s.clients b).phase = .resuming

/-- The two places where a thread that is inside a monitor enters another one. -/
theorem nested_entry {t : Thread τ} {m n : Monitor} (hin : s.inside t m) (hwants : s.wants t n) :
    (∃ a, (s.clients a).phase = .appended ∧ m = .list ∧ n = .graph) ∨
      ∃ b, (s.clients b).phase = .resuming ∧ m = .graph ∧ n = .list := by
  cases t with
  | edt =>
      -- the dispatch thread enters the list with nothing held
      cases hedt : s.edt with
      | checking => simp [State.wants, EDT.wants, hedt] at hwants
      | outside | waiting | notified | dispatching =>
          simp [State.inside, EDT.inside, hedt] at hin
  | client a =>
      cases hc : s.clients a with
      | mk phase ops =>
          cases phase with
          | outside => simp [State.inside, Phase.inside, hc] at hin
          | appended =>
              simp only [State.inside, Phase.inside, hc] at hin
              simp only [State.wants, Client.wants, hc] at hwants
              exact .inl ⟨a, by rw [hc], hin, hwants⟩
          | resuming =>
              simp only [State.inside, Phase.inside, hc] at hin
              simp only [State.wants, Client.wants, hc] at hwants
              exact .inr ⟨a, by rw [hc], hin, hwants⟩
          | reading | checked | signalled | leaving =>
              simp [State.wants, Client.wants, hc] at hwants

theorem deadlocked_iff_crossed (h : Consistent s) : Deadlocked s ↔ Crossed s := by
  have howner : (fun t m => s.owner m = some t) = s.inside := by
    funext t m
    exact propext (h t m)
  rw [Deadlocked, howner]
  constructor
  · contrapose!
    intro hcrossed
    by_cases happended : ∃ a, (s.clients a).phase = .appended
    · -- nobody is about to enter the list inside the graph: the graph is the higher monitor
      apply Monitors.not_deadlocked_of_rank fun m => decide (m = .graph)
      intro t m n hin hwants
      rcases nested_entry hin hwants with ⟨a, -, rfl, rfl⟩ | ⟨b, hb, -, -⟩
      · exact Bool.false_lt_true
      · exact absurd ⟨happended, b, hb⟩ hcrossed
    · -- nobody is about to read `paused` inside the list: the list is the higher monitor
      apply Monitors.not_deadlocked_of_rank fun m => decide (m = .list)
      intro t m n hin hwants
      rcases nested_entry hin hwants with ⟨a, ha, -, -⟩ | ⟨b, -, rfl, rfl⟩
      · exact absurd ⟨a, ha⟩ happended
      · exact Bool.false_lt_true
  · rintro ⟨⟨a, ha⟩, b, hb⟩
    have hne : Thread.client a ≠ Thread.client b := by
      intro heq
      cases heq
      rw [ha] at hb
      cases hb
    apply Monitors.Deadlocked.of_cross (m := .list) (n := .graph) hne
    · -- one thread holds the list and waits for the graph, the other one the reverse
      simp [State.inside, ha, Phase.inside]
    · cases hc : s.clients a with
      | mk phase ops =>
          rw [hc] at ha
          cases ha
          simp [State.wants, hc, Client.wants]
    · simp [State.inside, hb, Phase.inside]
    · cases hc : s.clients b with
      | mk phase ops =>
          rw [hc] at hb
          cases hb
          simp [State.wants, hc, Client.wants]

/-- No client enters the list in `addEvent` while another one has set `_paused` to false and not
yet entered the list, and none enters the graph in `paused = false` while another one has appended
an event and not yet read `paused`. -/
def Uncrossed (s : State τ ε) : Action τ → Prop
  | .client a =>
      (∀ event ops, s.clients a = ⟨.outside, .addEvent event :: ops⟩ →
        ∀ b, (s.clients b).phase ≠ .resuming) ∧
      ∀ ops, s.clients a = ⟨.outside, .setPaused false :: ops⟩ →
        ∀ b, (s.clients b).phase ≠ .appended
  | .edt | .wake => True

variable [DecidableEq τ] {a : τ}

/-- Whoever stands in the place `p` after a move of `a` stood there before, unless it is `a`. -/
theorem exists_phase_before {c : Client ε} {p : Phase}
    (hclients : s'.clients = Function.update s.clients a c) (h : ∃ b, (s'.clients b).phase = p) :
    c.phase = p ∨ ∃ b, (s.clients b).phase = p := by
  obtain ⟨b, hb⟩ := h
  by_cases hba : b = a
  · rw [hclients, hba, Function.update_self] at hb
    exact .inl hb
  · rw [hclients, Function.update_of_ne hba] at hb
    exact .inr ⟨b, hb⟩

theorem exists_phase_after {c : Client ε} {p : Phase}
    (hclients : s'.clients = Function.update s.clients a c) (ha : (s.clients a).phase ≠ p)
    (h : ∃ b, (s.clients b).phase = p) : ∃ b, (s'.clients b).phase = p := by
  obtain ⟨b, hb⟩ := h
  have hba : b ≠ a := by
    rintro rfl
    exact ha hb
  refine ⟨b, ?_⟩
  rw [hclients, Function.update_of_ne hba]
  exact hb

theorem exists_phase_moved {c : Client ε} (hclients : s'.clients = Function.update s.clients a c) :
    ∃ b, (s'.clients b).phase = c.phase :=
  ⟨a, by rw [hclients, Function.update_self]⟩

/-- A client that goes to neither of the two places crosses nobody. -/
theorem Crossed.of_moved {c : Client ε} (hclients : s'.clients = Function.update s.clients a c)
    (happended : c.phase ≠ .appended) (hresuming : c.phase ≠ .resuming) (h : Crossed s') :
    Crossed s :=
  ⟨(exists_phase_before hclients h.1).resolve_left happended,
    (exists_phase_before hclients h.2).resolve_left hresuming⟩

/-- Once `a` has appended its event, it crosses every client that is about to enter the list. -/
theorem crossed_iff_of_appended {ops : List (Op ε)}
    (hclients : s'.clients = Function.update s.clients a ⟨.appended, ops⟩)
    (ha : (s.clients a).phase = .outside) :
    Crossed s' ↔ ∃ b, (s.clients b).phase = .resuming := by
  constructor
  · intro h
    exact (exists_phase_before hclients h.2).resolve_left nofun
  · intro h
    exact ⟨exists_phase_moved hclients, exists_phase_after hclients (by simp [ha]) h⟩

/-- Once `a` has set `_paused` to false, it crosses every client that is about to read it. -/
theorem crossed_iff_of_resuming {ops : List (Op ε)}
    (hclients : s'.clients = Function.update s.clients a ⟨.resuming, ops⟩)
    (ha : (s.clients a).phase = .outside) :
    Crossed s' ↔ ∃ b, (s.clients b).phase = .appended := by
  constructor
  · intro h
    exact (exists_phase_before hclients h.1).resolve_left nofun
  · intro h
    exact ⟨exists_phase_after hclients (by simp [ha]) h, exists_phase_moved hclients⟩

theorem ClientMove.crossed_iff (hm : ClientMove s a s' out) (h : ¬ Crossed s) :
    ¬ Crossed s' ↔ Uncrossed s (.client a) := by
  cases hm with
  | append hc =>
      -- from here on `a` holds the list and wants the graph
      rw [crossed_iff_of_appended rfl (by rw [hc])]
      simp [Uncrossed, hc]
  | resume hc =>
      -- from here on `a` holds the graph and wants the list
      rw [crossed_iff_of_resuming rfl (by rw [hc])]
      simp [Uncrossed, hc]
  | read hc | back hc | added hc | pause hc | signal hc | signalled hc | left hc =>
      apply iff_of_true
      · exact fun hcrossed => h (hcrossed.of_moved rfl (by simp) (by simp))
      · simp [Uncrossed, hc]

/-- A step out of a state without a deadlock leads into one exactly when it is a crossing step. -/
theorem deadlocked_step_iff {act : Action τ} (hcons : Consistent s) (h : ¬ Deadlocked s)
    (hs : step s act = some (s', out)) : ¬ Deadlocked s' ↔ Uncrossed s act := by
  have hcons' : Consistent s' := consistent_step hcons hs
  rw [deadlocked_iff_crossed hcons] at h
  rw [deadlocked_iff_crossed hcons']
  cases act with
  | client a => exact (ClientMove.of_step hs).crossed_iff h
  | edt =>
      apply iff_of_true _ trivial
      cases EDTMove.of_step hs with
      | enter | wait | copy | dispatch => exact h
  | wake =>
      obtain ⟨-, rfl, -⟩ := wake_eq_some hs
      exact iff_of_true h trivial

/-- A run of clients and dispatch thread passes no deadlock exactly when no client ever takes the
first of its two monitors while another client holds the second and wants the first. -/
theorem deadlock_free_iff {calls : τ → List (Call ε)} {acts : List (Action τ)} {h : List (Out ε)}
    (hp : play step (start calls) acts = some (s, h)) :
    Throughout step (fun s => ¬ Deadlocked s) (start calls) acts ↔
      Along (next step) Uncrossed (start calls) acts := by
  have hstart : ¬ Deadlocked (start calls) := by
    rw [deadlocked_iff_crossed (consistent_start calls)]
    rintro ⟨⟨a, ha⟩, -⟩
    cases ha
  apply throughout_iff_along Uncrossed Consistent
  · exact fun s act s' out hcons hs => consistent_step hcons hs
  · exact fun s act s' out hcons hlive hs => deadlocked_step_iff hcons hlive hs
  · exact consistent_start calls
  · exact hstart
  · exact hp

/-- One client adds a statement while another one ends a pause. -/
def crossing : Bool → List (Call Unit)
  | false => [.add (some ())]
  | true => [.setPaused false]

/-- The statement is added first and `paused` read before the other client begins. -/
theorem deadlock_free_crossing_apart :
    Throughout step (fun s => ¬ Deadlocked s) (start crossing)
      [.client false, .client false, .client false, .client true] := by
  apply (deadlock_free_iff rfl).2
  simp [Along, Uncrossed, next, step, clientStep, start, crossing, Call.ops, State.enter,
    State.leave, State.goto, Monitors.enter, Monitors.leave]

/-- The event is appended, then `_paused` set to false: each client is inside the monitor that the
other one waits for. -/
theorem not_deadlock_free_crossing :
    ¬ Throughout step (fun s => ¬ Deadlocked s) (start crossing) [.client false, .client true] := by
  intro hall
  have hlive := hall 2 _ _ rfl
  apply hlive
  apply Monitors.Deadlocked.of_cross (t := Thread.client false) (u := Thread.client true)
    (m := Monitor.list) (n := Monitor.graph)
  · decide
  · rfl
  · rfl
  · rfl
  · rfl

end Deadlock

end Siebog.DNars.Events
