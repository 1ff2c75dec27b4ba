import Mathlib.Data.List.Basic

/-!
# Runs of a transition function

A machine is given by `step : σ → α → σ`: an action `a` takes the state `s` to `step s a`. `run`
feeds a list of actions, and `Reach` collects the states that actions of a given kind can reach. An
invariant is proved once for `init` and once for `step` (`Reach.invariant`).

`Along step Q s as` is about a machine that may stop (`step : σ → α → Option σ`): `Q` holds before
every action of the run from `s` along `as`. When an invariant makes two such conditions equivalent
step by step, they are equivalent over whole runs (`along_iff`).
-/

set_option autoImplicit false

namespace Siebog.Lib

universe u v

variable {σ : Type u} {α : Type v}

/-- The state after the actions `as`, in order. -/
def run (step : σ → α → σ) (s : σ) (as : List α) : σ := as.foldl step s

@[simp] theorem run_nil (step : σ → α → σ) (s : σ) : run step s [] = s := rfl

@[simp] theorem run_cons (step : σ → α → σ) (s : σ) (a : α) (as : List α) :
    run step s (a :: as) = run step (step s a) as := rfl

theorem run_append (step : σ → α → σ) (s : σ) (as bs : List α) :
    run step s (as ++ bs) = run step (run step s as) bs :=
  List.foldl_append

theorem run_snoc (step : σ → α → σ) (s : σ) (as : List α) (a : α) :
    run step s (as ++ [a]) = step (run step s as) a := by
  rw [run_append, run_cons, run_nil]

/-- The states reached from `init` by actions that satisfy `ok`. -/
inductive Reach (step : σ → α → σ) (ok : α → Prop) (init : σ) : σ → Prop
  | init : Reach step ok init init
  | step {s : σ} {a : α} : Reach step ok init s → ok a → Reach step ok init (step s a)

/-- A property of the initial state that every allowed action keeps holds in every reached
state. -/
theorem Reach.invariant {step : σ → α → σ} {ok : α → Prop} {init s : σ} {Inv : σ → Prop}
    (h : Reach step ok init s) (hinit : Inv init)
    (hstep : ∀ s a, Inv s → ok a → Inv (step s a)) : Inv s := by
  induction h with
  | init => exact hinit
  | step _ ha ih => exact hstep _ _ ih ha

theorem Reach.mono {step : σ → α → σ} {ok ok' : α → Prop} {init s : σ}
    (h : Reach step ok init s) (hok : ∀ a, ok a → ok' a) : Reach step ok' init s := by
  induction h with
  | init => exact .init
  | step _ ha ih => exact .step ih (hok _ ha)

theorem reach_run {step : σ → α → σ} {ok : α → Prop} {init s : σ} (h : Reach step ok init s)
    (as : List α) (has : ∀ a ∈ as, ok a) : Reach step ok init (run step s as) := by
  induction as generalizing s with
  | nil => exact h
  | cons a as ih =>
      exact ih (.step h (has a List.mem_cons_self)) fun b hb => has b (List.mem_cons_of_mem _ hb)

/-- `Q` holds of the state and the action before every step, up to the step that stops the run. -/
def Along (step : σ → α → Option σ) (Q : σ → α → Prop) : σ → List α → Prop
  | _, [] => True
  | s, a :: as => Q s a ∧ ∀ s', step s a = some s' → Along step Q s' as

/-- The state after a run that does not stop on the way. -/
def execute (step : σ → α → Option σ) : σ → List α → Option σ
  | s, [] => some s
  | s, a :: as => (step s a).bind fun s' => execute step s' as

theorem along_of_forall {step : σ → α → Option σ} {Q : σ → α → Prop} (h : ∀ s a, Q s a) :
    ∀ (s : σ) (as : List α), Along step Q s as
  | _, [] => trivial
  | s, a :: as => ⟨h s a, fun s' _ => along_of_forall h s' as⟩

theorem along_of_mem {step : σ → α → Option σ} {ok : α → Prop} :
    ∀ (s : σ) (as : List α), (∀ a ∈ as, ok a) → Along step (fun _ a => ok a) s as
  | _, [], _ => trivial
  | _, a :: as, h => ⟨h a List.mem_cons_self, fun s' _ =>
      along_of_mem s' as fun b hb => h b (List.mem_cons_of_mem a hb)⟩

theorem Along.mono {step : σ → α → Option σ} {Q Q' : σ → α → Prop} (hq : ∀ s a, Q s a → Q' s a) :
    ∀ {s : σ} {as : List α}, Along step Q s as → Along step Q' s as
  | _, [], _ => trivial
  | s, a :: _, h => ⟨hq s a h.1, fun s' hs' => (h.2 s' hs').mono hq⟩

/-- A condition may speak of the actions before and after a step. -/
theorem along_of_split {step : σ → α → Option σ} {Q : σ → α → Prop} {init : σ} {as : List α}
    (h : ∀ before a after s, as = before ++ a :: after → execute step init before = some s → Q s a) :
    Along step Q init as := by
  induction as generalizing init with
  | nil => trivial
  | cons a as ih =>
      refine ⟨h [] a as init rfl rfl, fun s' hs' => ih fun before b after s has hs => ?_⟩
      refine h (a :: before) b after s (by rw [has, List.cons_append]) ?_
      rw [execute, hs']
      exact hs

/-- What the steps of a run keep holds at its end. -/
theorem Along.invariant {step : σ → α → Option σ} {Q : σ → α → Prop} {Inv : σ → Prop}
    (hstep : ∀ s a s', Inv s → Q s a → step s a = some s' → Inv s') {s t : σ} {as : List α}
    (h : Along step Q s as) (hs : Inv s) (ht : execute step s as = some t) : Inv t := by
  induction as generalizing s with
  | nil =>
      cases ht
      exact hs
  | cons a as ih =>
      obtain ⟨s', hs', ht'⟩ := Option.bind_eq_some_iff.1 ht
      exact ih (h.2 s' hs') (hstep s a s' hs h.1 hs') ht'

/-- What the allowed actions keep holds at the end of a run of such actions. -/
theorem execute_invariant {step : σ → α → Option σ} {ok : α → Prop} {Inv : σ → Prop}
    (hstep : ∀ s a s', Inv s → ok a → step s a = some s' → Inv s') {s t : σ} {as : List α}
    (hs : Inv s) (has : ∀ a ∈ as, ok a) (ht : execute step s as = some t) : Inv t :=
  (along_of_mem s as has).invariant hstep hs ht

/-- A log that every step extends by what its action gives. -/
theorem execute_log {β : Type*} {step : σ → α → Option σ} {log : σ → List β} {out : α → List β}
    (hstep : ∀ s a s', step s a = some s' → log s' = log s ++ out a) {s t : σ} {as : List α}
    (ht : execute step s as = some t) : log t = log s ++ as.flatMap out := by
  induction as generalizing s with
  | nil =>
      cases ht
      simp
  | cons a as ih =>
      obtain ⟨s', hs', ht'⟩ := Option.bind_eq_some_iff.1 ht
      rw [ih ht', hstep s a s' hs', List.flatMap_cons, List.append_assoc]

/-- A part of the state that some actions replace is what the last of them puts there. -/
theorem Along.last {γ : Type*} {step : σ → α → Option σ} {Q : σ → α → Prop} {Inv : σ → Prop}
    {part : σ → γ} {put : α → Option γ}
    (hstep : ∀ s a s', Inv s → Q s a → step s a = some s' →
      Inv s' ∧ part s' = (put a).getD (part s)) {s t : σ} {as : List α}
    (h : Along step Q s as) (hs : Inv s) (ht : execute step s as = some t) :
    part t = (as.filterMap put).getLast?.getD (part s) := by
  induction as generalizing s with
  | nil =>
      cases ht
      rfl
  | cons a as ih =>
      obtain ⟨s', hs', ht'⟩ := Option.bind_eq_some_iff.1 ht
      obtain ⟨hinv, hpart⟩ := hstep s a s' hs h.1 hs'
      have hrest := ih (h.2 s' hs') hinv ht'
      rw [hrest, hpart]
      cases hput : put a with
      | none => rw [List.filterMap_cons_none hput, Option.getD_none]
      | some v =>
          rw [List.filterMap_cons_some hput, List.getLast?_cons, Option.getD_some, Option.getD_some]

/-- What holds after every step of a run holds at its end. -/
theorem Along.of_execute {step : σ → α → Option σ} {P : σ → Prop} {s t : σ} {as : List α}
    (h : Along step (fun s a => ∀ s', step s a = some s' → P s') s as) (hs : P s)
    (ht : execute step s as = some t) : P t :=
  h.invariant (fun _ _ s' _ hafter hs' => hafter s' hs') hs ht

/-- Two step conditions that agree under an invariant, which they keep, agree over whole runs. -/
theorem along_iff {step : σ → α → Option σ} {ok : α → Prop} {Inv : σ → Prop} {Q Q' : σ → α → Prop}
    (hiff : ∀ s a, Inv s → ok a → (Q s a ↔ Q' s a))
    (hkeep : ∀ s a s', Inv s → ok a → Q s a → step s a = some s' → Inv s') :
    ∀ (as : List α) (s : σ), Inv s → (∀ a ∈ as, ok a) →
      (Along step Q s as ↔ Along step Q' s as) := by
  intro as
  induction as with
  | nil => exact fun s _ _ => Iff.rfl
  | cons a as ih =>
      intro s hs has
      have ha : ok a := has a List.mem_cons_self
      have hrest : ∀ b ∈ as, ok b := fun b hb => has b (List.mem_cons_of_mem _ hb)
      constructor
      · rintro ⟨hq, hrun⟩
        refine ⟨(hiff s a hs ha).1 hq, ?_⟩
        intro s' hs'
        exact (ih s' (hkeep s a s' hs ha hq hs') hrest).1 (hrun s' hs')
      · rintro ⟨hq', hrun⟩
        -- the invariant is kept by `Q`, so `Q` has to be recovered first
        have hq : Q s a := (hiff s a hs ha).2 hq'
        refine ⟨hq, ?_⟩
        intro s' hs'
        exact (ih s' (hkeep s a s' hs ha hq hs') hrest).2 (hrun s' hs')

end Siebog.Lib
