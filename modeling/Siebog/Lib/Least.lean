import Mathlib.Data.List.Induction
import Mathlib.Order.Lattice

/-!
# The least value of a list

A loop over a list that keeps the least value below a bound, with an element that has it. When all
elements have a value below the bound the loop finds one (`exists_least`); what it finds is an
element of the list in any case (`mem_of_foldlM`).
-/

set_option autoImplicit false

namespace Siebog.Lib

variable {α β : Type} [LinearOrder β]

/-- One round of a loop that keeps the least value below a bound and an element that has it. There
is no round for an element without a value. -/
def keepLeast (value : α → Option β) (s : β × Option α) (a : α) : Option (β × Option α) :=
  (value a).map fun v => if v < s.1 then (v, some a) else s

/-- What the loop has found in a list. -/
structure Least (value : α → Option β) (bound : β) (l : List α) (s : β × Option α) : Prop where
  kept : s = (bound, none) ∨ ∃ a ∈ l, value a = some s.1 ∧ s.2 = some a
  le : ∀ a ∈ l, ∃ v, value a = some v ∧ s.1 ≤ v

variable {value : α → Option β} {bound : β}

theorem Least.concat {l : List α} {s : β × Option α} (h : Least value bound l s) {a : α} {v : β}
    (hv : value a = some v) :
    Least value bound (l ++ [a]) (if v < s.1 then (v, some a) else s) := by
  have hlast : a ∈ l ++ [a] := List.mem_append_right l List.mem_cons_self
  split_ifs with hlt
  · refine ⟨.inr ⟨a, hlast, hv, rfl⟩, ?_⟩
    intro b hb
    rcases List.mem_append.1 hb with hb | hb
    · obtain ⟨w, hw, hle⟩ := h.le b hb
      exact ⟨w, hw, le_trans (le_of_lt hlt) hle⟩
    · rw [List.mem_singleton.1 hb]
      exact ⟨v, hv, le_refl v⟩
  · constructor
    · rcases h.kept with hnone | ⟨b, hb, hkept⟩
      · exact .inl hnone
      · exact .inr ⟨b, List.mem_append_left [a] hb, hkept⟩
    · intro b hb
      rcases List.mem_append.1 hb with hb | hb
      · exact h.le b hb
      · rw [List.mem_singleton.1 hb]
        exact ⟨v, hv, not_lt.1 hlt⟩

theorem least_of_foldlM {l : List α} {s : β × Option α}
    (h : l.foldlM (keepLeast value) (bound, none) = some s) : Least value bound l s := by
  induction l using List.reverseRecOn generalizing s with
  | nil =>
      cases h
      exact ⟨.inl rfl, fun a ha => by cases ha⟩
  | append_singleton l a ih =>
      rw [List.foldlM_append] at h
      obtain ⟨s', hs', h⟩ := Option.bind_eq_some_iff.1 h
      rw [List.foldlM_cons] at h
      obtain ⟨s'', hround, h⟩ := Option.bind_eq_some_iff.1 h
      obtain ⟨v, hv, rfl⟩ := Option.map_eq_some_iff.1 hround
      cases h
      exact (ih hs').concat hv

/-- The element that the loop has kept is one of the list. -/
theorem mem_of_foldlM {l : List α} {a : α}
    (h : (l.foldlM (keepLeast value) (bound, none)).bind Prod.snd = some a) : a ∈ l := by
  obtain ⟨s, hs, hsnd⟩ := Option.bind_eq_some_iff.1 h
  rcases (least_of_foldlM hs).kept with rfl | ⟨b, hb, -, hb'⟩
  · cases hsnd
  · rw [hb'] at hsnd
    cases hsnd
    exact hb

theorem exists_foldlM {l : List α} (hvalue : ∀ a ∈ l, ∃ v, value a = some v)
    (s : β × Option α) : ∃ t, l.foldlM (keepLeast value) s = some t := by
  induction l generalizing s with
  | nil => exact ⟨s, rfl⟩
  | cons a l ih =>
      obtain ⟨v, hv⟩ := hvalue a List.mem_cons_self
      have hround : keepLeast value s a = some (if v < s.1 then (v, some a) else s) := by
        rw [keepLeast, hv]
        rfl
      rw [List.foldlM_cons, hround]
      exact ih (fun b hb => hvalue b (List.mem_cons_of_mem a hb)) _

/-- When all values are below the bound the loop finds an element with the least of them. -/
theorem exists_least {l : List α} (hne : l ≠ [])
    (hvalue : ∀ a ∈ l, ∃ v, value a = some v ∧ v < bound) :
    ∃ a ∈ l, (l.foldlM (keepLeast value) (bound, none)).bind Prod.snd = some a ∧
      ∃ v, value a = some v ∧ ∀ b ∈ l, ∃ w, value b = some w ∧ v ≤ w := by
  have hsome : ∀ a ∈ l, ∃ v, value a = some v := by
    intro a ha
    obtain ⟨v, hv, -⟩ := hvalue a ha
    exact ⟨v, hv⟩
  obtain ⟨s, hs⟩ := exists_foldlM hsome (bound, none)
  have hleast := least_of_foldlM hs
  rcases hleast.kept with rfl | ⟨a, ha, hv, hkept⟩
  · -- the first value would have been kept
    obtain ⟨a, ha⟩ := List.exists_mem_of_ne_nil l hne
    obtain ⟨v, hv, hlt⟩ := hvalue a ha
    obtain ⟨w, hw, hle⟩ := hleast.le a ha
    rw [hv] at hw
    cases hw
    exact absurd hlt (not_lt.2 hle)
  · rw [hs]
    exact ⟨a, ha, hkept, s.1, hv, hleast.le⟩

end Siebog.Lib
