import Siebog.Lib.Trace
import Mathlib.Data.Finset.Basic

/-!
# Lockstep rounds

A coordinator drives members through numbered rounds: it signals a round to a set of members, and
waits until each of them has reported that round or left. What such a protocol promises is a
statement about histories of events (`InLockstep`): between a signal of round `k` to a member and a
signal of round `k + 1` to anyone, that member reported round `k` or left.

`Step` is the abstract protocol, a round number and the members still waited for. A signal of the
next round needs the waiting set to be empty, a repeated signal of the current one goes to waiting
members only, and a report takes a member out only in the round it is for. Every history of the
abstract protocol is lockstep (`Steps.lockstep`), so an implementation is proved by showing that
each of its operations is a run of abstract steps (`play_lockstep_iff`).

Members are of a type `ι`; rounds are of a type `κ` in which adding one gives another round.
-/

set_option autoImplicit false

namespace Siebog.Lib.Lockstep

universe u v

variable {ι : Type u} {κ : Type v}

/-- What an observer of the protocol sees. -/
inductive Event (ι : Type u) (κ : Type v) where
  | signal (round : κ) (receivers : Finset ι)
  | report (member : ι) (round : κ)
  | leave (member : ι)

namespace Event

/-- Round `k` is signalled to `a`. -/
def Signals (a : ι) (k : κ) : Event ι κ → Prop
  | signal j S => j = k ∧ a ∈ S
  | _ => False

/-- Round `k` is signalled to anyone at all. -/
def Starts (k : κ) : Event ι κ → Prop
  | signal j _ => j = k
  | _ => False

/-- `a` is done with round `k`: it reported that round, or it left. -/
def Releases (a : ι) (k : κ) : Event ι κ → Prop
  | report b j => b = a ∧ j = k
  | leave b => b = a
  | signal _ _ => False

end Event

open Event

/-- Nobody is overtaken: a member signalled round `k` reports round `k` or leaves before any signal
of round `k + 1`. -/
def InLockstep [Add κ] [One κ] (h : List (Event ι κ)) : Prop :=
  ∀ a k, Between (Signals a k) (Starts (k + 1)) (Releases a k) h

/-- The abstract coordinator: the current round and the members it waits for. -/
structure State (ι : Type u) (κ : Type v) where
  round : κ
  waiting : Finset ι

variable [DecidableEq ι] [Add κ] [One κ]

/-- The abstract protocol. -/
inductive Step : State ι κ → Event ι κ → State ι κ → Prop
  | start {s : State ι κ} {S : Finset ι} :
      s.waiting = ∅ → Step s (signal (s.round + 1) S) ⟨s.round + 1, S⟩
  | again {s : State ι κ} {S : Finset ι} : S ⊆ s.waiting → Step s (signal s.round S) s
  | report {s : State ι κ} {a : ι} {k : κ} :
      (k = s.round ∨ a ∉ s.waiting) → Step s (report a k) ⟨s.round, s.waiting.erase a⟩
  | leave {s : State ι κ} {a : ι} : Step s (leave a) ⟨s.round, s.waiting.erase a⟩

/-- Abstract steps one after the other, with their history. -/
inductive Steps (s : State ι κ) : List (Event ι κ) → State ι κ → Prop
  | nil : Steps s [] s
  | snoc {h : List (Event ι κ)} {t t' : State ι κ} {e : Event ι κ} :
      Steps s h t → Step t e t' → Steps s (h ++ [e]) t'

theorem Steps.one {s t : State ι κ} {e : Event ι κ} (h : Step s e t) : Steps s [e] t :=
  Steps.snoc (h := []) .nil h

theorem Steps.append {s t u : State ι κ} {h h' : List (Event ι κ)} (hst : Steps s h t)
    (htu : Steps t h' u) : Steps s (h ++ h') u := by
  induction htu with
  | nil => simpa using hst
  | snoc _ he ih =>
      rw [← List.append_assoc]
      exact .snoc ih he

theorem Steps.cons {s t u : State ι κ} {e : Event ι κ} {h : List (Event ι κ)} (he : Step s e t)
    (hs : Steps t h u) : Steps s (e :: h) u :=
  (Steps.one he).append hs

/-- A member whose signal is unanswered is one the coordinator waits for, in that round. -/
def Tracked (s : State ι κ) (h : List (Event ι κ)) : Prop :=
  ∀ a k, Open (Signals a k) (Releases a k) h → s.round = k ∧ a ∈ s.waiting

theorem Step.tracked {s t : State ι κ} {e : Event ι κ} {h : List (Event ι κ)} (he : Step s e t)
    (hs : Tracked s h) : Tracked t (h ++ [e]) := by
  intro a k hopen
  rcases open_snoc.1 hopen with hsig | ⟨hold, hrel⟩
  · cases he with
    | start _ => exact ⟨hsig.1, hsig.2⟩
    | again hsub => exact ⟨hsig.1, hsub hsig.2⟩
    | report _ => exact hsig.elim
    | leave => exact hsig.elim
  · obtain ⟨hround, hwait⟩ := hs a k hold
    cases he with
    | start hempty =>
        rw [hempty] at hwait
        exact absurd hwait (Finset.notMem_empty a)
    | again _ => exact ⟨hround, hwait⟩
    | @report b j hcur =>
        refine ⟨hround, Finset.mem_erase.2 ⟨?_, hwait⟩⟩
        rintro rfl
        -- a report that takes `a` out while it is waited for is one for the current round
        rcases hcur with rfl | hout
        · exact hrel ⟨rfl, hround⟩
        · exact hout hwait
    | @leave b =>
        refine ⟨hround, Finset.mem_erase.2 ⟨?_, hwait⟩⟩
        rintro rfl
        exact hrel rfl

/-- When the next round is signalled, no signal of the current one is unanswered. -/
theorem Step.not_open {s t : State ι κ} {e : Event ι κ} {h : List (Event ι κ)} {a : ι} {k : κ}
    (hsucc : ∀ k : κ, k + 1 ≠ k) (he : Step s e t) (hs : Tracked s h) (hstart : Starts (k + 1) e) :
    ¬ Open (Signals a k) (Releases a k) h := by
  intro hopen
  obtain ⟨hround, hwait⟩ := hs a k hopen
  cases he with
  | start hempty =>
      rw [hempty] at hwait
      exact Finset.notMem_empty a hwait
  | again _ =>
      have hk : s.round = k + 1 := hstart
      exact hsucc k (hk.symm.trans hround)
  | report _ => exact hstart
  | leave => exact hstart

/-- Histories of the abstract protocol are lockstep, whatever the state they start in. -/
theorem Steps.lockstep_tracked {s t : State ι κ} {h : List (Event ι κ)}
    (hsucc : ∀ k : κ, k + 1 ≠ k) (hs : Steps s h t) :
    InLockstep h ∧ Tracked t h := by
  induction hs with
  | nil => exact ⟨fun a k => between_nil, fun a k hopen => (not_open_nil hopen).elim⟩
  | snoc _ he ih =>
      refine ⟨fun a k => between_snoc.2 ⟨ih.1 a k, fun hstart => ?_⟩, he.tracked ih.2⟩
      exact he.not_open hsucc ih.2 hstart

theorem Steps.lockstep {s t : State ι κ} {h : List (Event ι κ)} (hsucc : ∀ k : κ, k + 1 ≠ k)
    (hs : Steps s h t) : InLockstep h :=
  (hs.lockstep_tracked hsucc).1

section Machines

variable {σ α : Type*} {step : σ → α → Option (σ × List (Event ι κ))} {Inv : σ → Prop}
  {Fresh LateIgnored : σ → α → Prop}

/-- A machine whose fresh actions are runs of abstract steps has lockstep histories along fresh
runs. When moreover an action is fresh exactly if it does not let a late report in, a run is
lockstep and closed to late reports exactly if it is fresh. -/
theorem play_lockstep_iff (view : σ → State ι κ) (hsucc : ∀ k : κ, k + 1 ≠ k)
    (hkeep : ∀ s a s' out, Inv s → step s a = some (s', out) → Inv s')
    (hsteps : ∀ s a s' out, Inv s → Fresh s a → step s a = some (s', out) →
      Steps (view s) out (view s'))
    (hlate : ∀ s a, Inv s → (LateIgnored s a ↔ Fresh s a))
    {as : List α} {s t : σ} {h : List (Event ι κ)} (hs : Inv s)
    (hrun : play step s as = some (t, h)) :
    (InLockstep h ∧ Along (next step) LateIgnored s as) ↔ Along (next step) Fresh s as := by
  have hiff : Along (next step) LateIgnored s as ↔ Along (next step) Fresh s as := by
    refine @along_iff _ _ _ (fun _ => True) Inv _ _ (fun s a hs _ => hlate s a hs) ?_ as s hs
      (fun _ _ => trivial)
    intro s a s' hs _ _ hstep
    obtain ⟨out, hstep⟩ := next_eq_some.1 hstep
    exact hkeep s a s' out hs hstep
  constructor
  · exact fun hsafe => hiff.1 hsafe.2
  · intro hfresh
    have hrefine : Steps (view s) ([] ++ h) (view t) ∧ Inv t := by
      refine play_invariant (fun h t => Steps (view s) h (view t) ∧ Inv t)
        (fun h t a t' out ht hok hstep => ?_) as [] s t h ⟨.nil, hs⟩ hfresh hrun
      exact ⟨ht.1.append (hsteps t a t' out ht.2 hok hstep), hkeep t a t' out ht.2 hstep⟩
    exact ⟨hrefine.1.lockstep hsucc, hiff.2 hfresh⟩

end Machines

end Siebog.Lib.Lockstep
