import Mathlib.Data.List.Forall2
import Mathlib.Data.List.Induction
import Mathlib.Data.List.Perm.Basic

/-!
# Traversals of lists

A traversal of a list with a function that may fail succeeds exactly when every step does, and then
relates the list and the results element by element (`mapM_ok_iff`). What holds of a result comes
from the element it belongs to (`exists_of_forall₂`). A loop over a list is the loop over what the elements
mean (`foldlM_ok_iff`), and keeps the last of the values put in one place (`foldl_eq_getLast?`).

Two nested traversals collect the same results, as often, whichever of them is the outer one
(`flatMap_flatMap_perm`).
-/

set_option autoImplicit false

namespace Siebog.Lib

universe u v

theorem exists_of_forall₂ {α : Type u} {β : Type v} {r : α → β → Prop} {xs : List α} {ys : List β} {y : β}
    (h : List.Forall₂ r xs ys) (hy : y ∈ ys) : ∃ x ∈ xs, r x y := by
  induction h with
  | nil => cases hy
  | @cons x y' xs ys hxy _ ih =>
      rcases List.mem_cons.1 hy with rfl | hy
      · exact ⟨x, List.mem_cons_self, hxy⟩
      · obtain ⟨x', hx', hr⟩ := ih hy
        exact ⟨x', List.mem_cons_of_mem _ hx', hr⟩

theorem forall₂_exists {α : Type u} {β : Type v} {r : α → β → Prop} {xs : List α}
    (h : ∀ x ∈ xs, ∃ y, r x y) : ∃ ys, List.Forall₂ r xs ys := by
  induction xs with
  | nil => exact ⟨[], .nil⟩
  | cons x xs ih =>
      obtain ⟨y, hy⟩ := h x List.mem_cons_self
      obtain ⟨ys, hys⟩ := ih fun z hz => h z (List.mem_cons_of_mem _ hz)
      exact ⟨y :: ys, .cons hy hys⟩

/-- A traversal succeeds with the results of its steps. -/
theorem mapM_ok_iff {α β ε : Type} {f : α → Except ε β} {xs : List α} {ys : List β} :
    xs.mapM f = .ok ys ↔ List.Forall₂ (fun x y => f x = .ok y) xs ys := by
  induction xs generalizing ys with
  | nil =>
      rw [List.mapM_nil, List.forall₂_nil_left_iff]
      constructor
      · intro h
        cases h
        rfl
      · rintro rfl
        rfl
  | cons x xs ih =>
      rw [List.mapM_cons]
      -- the first failure ends it
      cases hx : f x with
      | error e =>
          constructor
          · intro h
            cases h
          · rintro (_ | ⟨hy, -⟩)
            rw [hx] at hy
            cases hy
      | ok y =>
          cases hxs : xs.mapM f with
          | error e =>
              constructor
              · intro h
                cases h
              · intro h
                rcases h with _ | ⟨-, hrest⟩
                rw [← ih, hxs] at hrest
                cases hrest
          | ok ys' =>
              constructor
              · intro h
                cases h
                exact .cons hx (ih.1 hxs)
              · intro h
                rcases h with _ | ⟨hy, hrest⟩
                rw [hx] at hy
                rw [← ih, hxs] at hrest
                cases hy
                cases hrest
                rfl

/-! ## Loops over a list -/

/-- A loop whose rounds each apply what its element means succeeds when every element means
something, and then applies all of it. -/
theorem foldlM_ok_iff {α β σ ε : Type} {f : σ → α → Except ε σ} {r : α → β → Prop}
    {act : σ → β → σ} (hround : ∀ s x s', f s x = .ok s' ↔ ∃ y, r x y ∧ s' = act s y)
    {xs : List α} {s s' : σ} :
    xs.foldlM f s = .ok s' ↔ ∃ ys, List.Forall₂ r xs ys ∧ s' = ys.foldl act s := by
  induction xs generalizing s with
  | nil =>
      rw [List.foldlM_nil]
      constructor
      · intro h
        cases h
        exact ⟨[], .nil, rfl⟩
      · rintro ⟨ys, hys, rfl⟩
        rw [List.forall₂_nil_left_iff.1 hys]
        rfl
  | cons x xs ih =>
      rw [List.foldlM_cons]
      constructor
      · intro h
        -- the first failure ends the loop
        cases hx : f s x with
        | error e =>
            rw [hx] at h
            cases h
        | ok t =>
            rw [hx] at h
            obtain ⟨y, hy, rfl⟩ := (hround s x t).1 hx
            obtain ⟨ys, hys, rfl⟩ := ih.1 h
            exact ⟨y :: ys, .cons hy hys, rfl⟩
      · rintro ⟨ys, hys, rfl⟩
        cases hys with
        | @cons _ y _ ys hy hys =>
            rw [(hround s x (act s y)).2 ⟨y, hy, rfl⟩]
            exact ih.2 ⟨ys, hys, rfl⟩

/-- A part of the state that some elements replace is what the last of them puts there. -/
theorem foldl_eq_getLast? {β σ γ : Type} {act : σ → β → σ} {part : σ → γ} {put : β → Option γ}
    (hact : ∀ s y, part (act s y) = (put y).getD (part s)) (ys : List β) (s : σ) :
    part (ys.foldl act s) = (ys.filterMap put).getLast?.getD (part s) := by
  induction ys using List.reverseRecOn with
  | nil => rfl
  | append_singleton ys y ih =>
      rw [List.foldl_append, List.foldl_cons, List.foldl_nil, hact, ih, List.filterMap_append]
      cases hput : put y with
      | none => simp [hput]
      | some v => simp [hput]

/-- A traversal of the selected elements passes over the others. -/
theorem flatMap_filter {α β : Type} (p : α → Prop) [DecidablePred p] (f : α → List β)
    (l : List α) : (l.filter fun a => p a).flatMap f = l.flatMap fun a => if p a then f a else [] := by
  induction l with
  | nil => rfl
  | cons a l ih =>
      by_cases ha : p a
      · simp [ha, ih]
      · simp [ha, ih]

theorem flatMap_flatMap_perm {α β γ : Type} (f : α → β → List γ) (l : List α) (m : List β) :
    (l.flatMap fun a => m.flatMap (f a)).Perm (m.flatMap fun b => l.flatMap fun a => f a b) := by
  induction l with
  | nil => simp
  | cons a l ih =>
      simp only [List.flatMap_cons]
      exact (ih.append_left _).trans (List.flatMap_append_perm m (f a) _)

end Siebog.Lib
