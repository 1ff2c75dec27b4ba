import Mathlib.Logic.Function.Basic
import Mathlib.Order.WellFounded
import Mathlib.Data.Set.Basic

/-!
# Monitors and deadlock

Threads of type `θ` take and give back monitors of type `μ`. A table `owner : μ → Option θ` says
who is inside which monitor, `held t m` says of a thread, from its own position, that it is inside
`m`, and `wants t m` that its next step is to enter `m`. `Agree owner held` ties the first two
together; entering a free monitor and leaving one keep it.

A deadlock is a set of threads, each inside some monitor and waiting for one that another thread
of the set is inside. Threads that enter monitors upwards in a well founded order are never in one
(`not_deadlocked_of_rank`), two threads that stand crosswise are (`Deadlocked.of_cross`).
-/

set_option autoImplicit false

namespace Siebog.Lib.Monitors

universe u v w

variable {θ : Type u} {μ : Type v}

section Ownership

variable {owner : μ → Option θ} {held held' : θ → μ → Prop} {t u : θ} {m : μ}

/-- The table of owners says what the threads' own positions say. -/
def Agree (owner : μ → Option θ) (held : θ → μ → Prop) : Prop :=
  ∀ t m, owner m = some t ↔ held t m

/-- A monitor has one thread inside at most. -/
theorem Agree.unique (h : Agree owner held) (ht : held t m) (hu : held u m) : t = u := by
  have htm : owner m = some t := (h t m).2 ht
  have hum : owner m = some u := (h u m).2 hu
  rw [htm] at hum
  exact Option.some.inj hum

theorem Agree.congr (h : Agree owner held) (heq : ∀ t m, held' t m ↔ held t m) :
    Agree owner held' := by
  intro t m
  rw [h t m, heq t m]

variable [DecidableEq μ]

/-- Thread `t` enters the monitor `m`. -/
def enter (owner : μ → Option θ) (t : θ) (m : μ) : μ → Option θ :=
  Function.update owner m (some t)

/-- The monitor `m` is left. -/
def leave (owner : μ → Option θ) (m : μ) : μ → Option θ :=
  Function.update owner m none

/-- A thread that enters a free monitor is inside that one too; nobody else moves. -/
theorem Agree.enter (h : Agree owner held) (hfree : owner m = none)
    (ht : ∀ n, held' t n ↔ n = m ∨ held t n) (hu : ∀ u, u ≠ t → ∀ n, held' u n ↔ held u n) :
    Agree (Monitors.enter owner t m) held' := by
  intro u n
  have hout : ¬ held u m := by
    rw [← h u m, hfree]
    simp
  by_cases hut : u = t
  · subst hut
    rw [ht n, ← h u n]
    by_cases hn : n = m
    · simp [Monitors.enter, hn]
    · simp [Monitors.enter, hn]
  · rw [hu u hut n]
    by_cases hn : n = m
    · subst hn
      simp [Monitors.enter, hout, Ne.symm hut]
    · simp [Monitors.enter, hn, h u n]

/-- A thread that leaves a monitor it is inside keeps the others; nobody else moves. -/
theorem Agree.leave (h : Agree owner held) (hm : held t m)
    (ht : ∀ n, held' t n ↔ n ≠ m ∧ held t n) (hu : ∀ u, u ≠ t → ∀ n, held' u n ↔ held u n) :
    Agree (Monitors.leave owner m) held' := by
  intro u n
  by_cases hut : u = t
  · subst hut
    rw [ht n, ← h u n]
    by_cases hn : n = m
    · simp [Monitors.leave, hn]
    · simp [Monitors.leave, hn]
  · rw [hu u hut n]
    by_cases hn : n = m
    · subst hn
      have hout : ¬ held u n := fun hun => hut (h.unique hun hm)
      simp [Monitors.leave, hout]
    · simp [Monitors.leave, hn, h u n]

end Ownership

section Deadlock

variable {held wants : θ → μ → Prop}

/-- A set of threads, each inside a monitor and waiting for one that another of them is inside. -/
def Deadlocked (held wants : θ → μ → Prop) : Prop :=
  ∃ S : Set θ, S.Nonempty ∧
    ∀ t ∈ S, (∃ m, held t m) ∧ ∃ m, wants t m ∧ ∃ u ∈ S, u ≠ t ∧ held u m

/-- Where every thread that is inside a monitor waits for a higher one only, there is no deadlock:
whoever is inside the highest monitor waited for would be waiting for one still higher. -/
theorem not_deadlocked_of_rank {α : Type w} [Preorder α] [WellFoundedGT α] (rank : μ → α)
    (hrank : ∀ t m n, held t m → wants t n → rank m < rank n) : ¬ Deadlocked held wants := by
  rintro ⟨S, ⟨t₀, ht₀⟩, hS⟩
  have hnone : ∀ r : α, ∀ t ∈ S, ∀ m, wants t m → rank m = r → ∀ u ∈ S, held u m → False := by
    intro r
    induction r using WellFoundedGT.induction with
    | ind r ih =>
        intro t _ m _ hr u hu hum
        obtain ⟨-, n, hwants, u', hu', -, hheld⟩ := hS u hu
        have hlt : rank m < rank n := hrank u m n hum hwants
        rw [hr] at hlt
        exact ih (rank n) hlt u hu n hwants rfl u' hu' hheld
  obtain ⟨-, m, hwants, u, hu, -, hheld⟩ := hS t₀ ht₀
  exact hnone (rank m) t₀ ht₀ m hwants rfl u hu hheld

/-- Two threads, each inside the monitor the other one waits for. -/
theorem Deadlocked.of_cross {t u : θ} {m n : μ} (hne : t ≠ u) (htm : held t m) (htn : wants t n)
    (hun : held u n) (hum : wants u m) : Deadlocked held wants := by
  refine ⟨{t, u}, ⟨t, Set.mem_insert t {u}⟩, ?_⟩
  intro x hx
  rcases hx with rfl | hx
  · exact ⟨⟨m, htm⟩, n, htn, u, by simp, hne.symm, hun⟩
  · cases hx
    exact ⟨⟨n, hun⟩, m, hum, t, by simp, hne, htm⟩

end Deadlock

end Siebog.Lib.Monitors
