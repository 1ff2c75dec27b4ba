import Mathlib.Data.List.Basic
import Mathlib.Data.List.Induction

/-!
# Output in files that are rotated

A writer appends items to the open file, and from time to time it closes that file and opens the
next one. `writeAll due` writes the items that there are; where the number of an item is due, the
files are rotated after it. A missing item is not written, and nothing is rotated in its place.

The files are the items in their order (`flatten_files`). How long they get is a matter of the
stretches without a rotation (`files_length_le_iff`).
-/

set_option autoImplicit false

namespace Siebog.Lib.Rotation

universe u

variable {α : Type u}

/-- The closed files in order, and the open one. -/
structure Writer (α : Type u) where
  closed : List (List α)
  current : List α

namespace Writer

/-- The first file is open, and nothing is written. -/
def start : Writer α := ⟨[], []⟩

/-- Write an item to the open file. -/
def write (w : Writer α) (a : α) : Writer α := { w with current := w.current ++ [a] }

/-- Close the open file and open the next one. -/
def rotate (w : Writer α) : Writer α := ⟨w.closed ++ [w.current], []⟩

/-- All files, the open one last. -/
def files (w : Writer α) : List (List α) := w.closed ++ [w.current]

end Writer

/-- Write the item with the number `k`. -/
def put (due : ℕ → Bool) (w : Writer α) (k : ℕ) : Option α → Writer α
  | none => w
  | some a => if due k then (w.write a).rotate else w.write a

/-- Write the items, which are numbered from 1. -/
def writeAll (due : ℕ → Bool) (items : List (Option α)) : Writer α :=
  (items.zipIdx 1).foldl (fun w item => put due w item.2 item.1) .start

theorem writeAll_snoc (due : ℕ → Bool) (items : List (Option α)) (x : Option α) :
    writeAll due (items ++ [x]) = put due (writeAll due items) (items.length + 1) x := by
  rw [writeAll, List.zipIdx_append, List.foldl_append, Nat.add_comm 1]
  rfl

/-- The files hold the items in order. -/
theorem flatten_files (due : ℕ → Bool) (items : List (Option α)) :
    (writeAll due items).files.flatten = items.filterMap id := by
  induction items using List.reverseRecOn with
  | nil => rfl
  | append_singleton items x ih =>
      rw [writeAll_snoc, List.filterMap_append, ← ih]
      cases x with
      | none => simp [put]
      | some a =>
          rw [put]
          split_ifs
          · simp [Writer.files, Writer.write, Writer.rotate]
          · simp [Writer.files, Writer.write]

/-! ## Stretches -/

/-- How many of the first `k` items are there. -/
def written (items : List (Option α)) (k : ℕ) : ℕ := (items.take k).countP Option.isSome

/-- The files are rotated after the item at this index, whose number is one more. -/
def Rotates (due : ℕ → Bool) (items : List (Option α)) (k : ℕ) : Prop :=
  due (k + 1) = true ∧ ∃ a, items[k]? = some (some a)

/-- Nothing is rotated from the index `i` on before the item in front of the index `j`. -/
def Clear (due : ℕ → Bool) (items : List (Option α)) (i j : ℕ) : Prop :=
  ∀ k, i ≤ k → k + 1 < j → ¬ Rotates due items k

section Append

variable {due : ℕ → Bool} {items : List (Option α)} {x : Option α} {i j k : ℕ}

theorem written_mono (items : List (Option α)) (h : i ≤ j) : written items i ≤ written items j :=
  ((List.take_sublist_take_left h).countP_le)

theorem written_append (h : k ≤ items.length) : written (items ++ [x]) k = written items k := by
  rw [written, List.take_append_of_le_length h, written]

theorem written_length_snoc (items : List (Option α)) (x : Option α) :
    written (items ++ [x]) (items.length + 1) =
      written items items.length + if x.isSome then 1 else 0 := by
  have hall : (items ++ [x]).take (items.length + 1) = items ++ [x] :=
    List.take_of_length_le (by simp)
  rw [written, hall, List.countP_append, written, List.take_length, List.countP_singleton]

theorem rotates_append (h : k < items.length) :
    Rotates due (items ++ [x]) k ↔ Rotates due items k := by
  rw [Rotates, List.getElem?_append_left h, Rotates]

theorem rotates_length : Rotates due (items ++ [x]) items.length ↔
    due (items.length + 1) = true ∧ x.isSome = true := by
  rw [Rotates, List.getElem?_concat_length]
  simp [Option.isSome_iff_exists]

theorem clear_append (h : j ≤ items.length) :
    Clear due (items ++ [x]) i j ↔ Clear due items i j := by
  constructor
  · intro hclear k hi hj hrotates
    exact hclear k hi hj ((rotates_append (by omega)).2 hrotates)
  · intro hclear k hi hj hrotates
    exact hclear k hi hj ((rotates_append (by omega)).1 hrotates)

end Append

/-- The first `r` items are in the closed files. Each of these is a stretch without a rotation in
it, and every such stretch is in one of them. -/
structure Divided (due : ℕ → Bool) (items : List (Option α)) (w : Writer α) (r : ℕ) : Prop where
  le_length : r ≤ items.length
  boundary : ∀ k, r = k + 1 → Rotates due items k
  open_clear : ∀ k, r ≤ k → ¬ Rotates due items k
  current : w.current.length + written items r = written items items.length
  closed : ∀ file ∈ w.closed, ∃ i j, i ≤ j ∧ j ≤ r ∧ Clear due items i j ∧
    file.length + written items i = written items j
  stretch : ∀ i j, i < j → j ≤ r → Clear due items i j →
    ∃ file ∈ w.closed, written items j ≤ file.length + written items i

namespace Divided

variable {due : ℕ → Bool} {items : List (Option α)} {w : Writer α} {r : ℕ}

/-- A clear stretch beyond the closed files is in the open file. -/
theorem le_current (h : Divided due items w r) {i j : ℕ} (hr : r < j) (hj : j ≤ items.length)
    (hclear : Clear due items i j) : written items j ≤ w.current.length + written items i := by
  have hi : r ≤ i := by
    by_contra hlt
    obtain ⟨k, rfl⟩ : ∃ k, r = k + 1 := ⟨r - 1, by omega⟩
    exact hclear k (by omega) hr (h.boundary k rfl)
  have hlow := written_mono items hi
  have hhigh := written_mono items hj
  have hcurrent := h.current
  omega

theorem nil : Divided due ([] : List (Option α)) .start 0 where
  le_length := Nat.le_refl 0
  boundary k hk := absurd hk.symm (Nat.succ_ne_zero k)
  open_clear k _ := by
    rintro ⟨-, a, ha⟩
    cases ha
  current := rfl
  closed file hfile := by cases hfile
  stretch i j hlt hj _ := by omega

/-- An item after which nothing is rotated, if it is there at all. -/
theorem append (h : Divided due items w r) {x : Option α} {w' : Writer α}
    (hnot : ¬ (due (items.length + 1) = true ∧ x.isSome = true)) (hclosed : w'.closed = w.closed)
    (hcurrent : w'.current.length = w.current.length + if x.isSome then 1 else 0) :
    Divided due (items ++ [x]) w' r where
  le_length := by
    have hr := h.le_length
    rw [List.length_append, List.length_singleton]
    omega
  boundary k hk := by
    have hr := h.le_length
    rw [rotates_append (by omega)]
    exact h.boundary k hk
  open_clear k hk hrotates := by
    -- the new item is the only one that could rotate the files, and does not
    rcases Nat.lt_trichotomy k items.length with hlt | rfl | hgt
    · exact h.open_clear k hk ((rotates_append hlt).1 hrotates)
    · exact hnot (rotates_length.1 hrotates)
    · obtain ⟨-, a, ha⟩ := hrotates
      rw [List.getElem?_eq_none (by rw [List.length_append, List.length_singleton]; omega)] at ha
      cases ha
  current := by
    have hold := h.current
    rw [List.length_append, List.length_singleton, written_length_snoc, hcurrent,
      written_append h.le_length]
    omega
  closed file hfile := by
    obtain ⟨i, j, hij, hj, hclear, hlength⟩ := h.closed file (hclosed ▸ hfile)
    have hr := h.le_length
    refine ⟨i, j, hij, hj, (clear_append (by omega)).2 hclear, ?_⟩
    rwa [written_append (by omega), written_append (by omega)]
  stretch i j hij hj hclear := by
    have hr := h.le_length
    obtain ⟨file, hfile, hlength⟩ := h.stretch i j hij hj ((clear_append (by omega)).1 hclear)
    refine ⟨file, hclosed ▸ hfile, ?_⟩
    rwa [written_append (by omega), written_append (by omega)]

/-- The files are rotated after an item. -/
theorem append_rotate (h : Divided due items w r) {x : Option α} {file : List α} {w' : Writer α}
    (hdue : due (items.length + 1) = true ∧ x.isSome = true)
    (hfile : file.length = w.current.length + 1) (hclosed : w'.closed = w.closed ++ [file])
    (hcurrent : w'.current = []) :
    Divided due (items ++ [x]) w' (items.length + 1) := by
  have hr := h.le_length
  have hold := h.current
  have htotal := written_length_snoc items x
  rw [if_pos hdue.2] at htotal
  -- the new closed file holds what is left of the items
  have hlast : file.length + written (items ++ [x]) r =
      written (items ++ [x]) (items.length + 1) := by
    rw [htotal, written_append hr, hfile]
    omega
  refine ⟨by simp, ?_, ?_, ?_, ?_, ?_⟩
  · rintro k hk
    obtain rfl : k = items.length := by omega
    exact rotates_length.2 hdue
  · rintro k hk ⟨-, a, ha⟩
    rw [List.getElem?_eq_none (by rw [List.length_append, List.length_singleton]; omega)] at ha
    cases ha
  · rw [hcurrent, List.length_append, List.length_singleton]
    simp
  · intro file' hfile'
    rw [hclosed, List.mem_append, List.mem_singleton] at hfile'
    rcases hfile' with hfile' | rfl
    · obtain ⟨i, j, hij, hj, hclear, hlength⟩ := h.closed file' hfile'
      refine ⟨i, j, hij, by omega, (clear_append (by omega)).2 hclear, ?_⟩
      rwa [written_append (by omega), written_append (by omega)]
    · refine ⟨r, items.length + 1, by omega, Nat.le_refl _, ?_, hlast⟩
      intro k hk hlt hrotates
      exact h.open_clear k hk ((rotates_append (by omega)).1 hrotates)
  · intro i j hij hj hclear
    by_cases hjr : j ≤ r
    · obtain ⟨file', hfile', hlength⟩ :=
        h.stretch i j hij hjr ((clear_append (by omega)).1 hclear)
      refine ⟨file', by rw [hclosed]; exact List.mem_append_left _ hfile', ?_⟩
      rwa [written_append (by omega), written_append (by omega)]
    · refine ⟨file, by rw [hclosed]; exact List.mem_append_right _ List.mem_cons_self, ?_⟩
      have hi : r ≤ i := by
        by_contra hlt
        obtain ⟨k, rfl⟩ : ∃ k, r = k + 1 := ⟨r - 1, by omega⟩
        exact hclear k (by omega) (by omega) ((rotates_append (by omega)).2 (h.boundary k rfl))
      have hlow := written_mono (items ++ [x]) hi
      have hhigh := written_mono (items ++ [x]) hj
      omega

end Divided

theorem exists_divided (due : ℕ → Bool) (items : List (Option α)) :
    ∃ r, Divided due items (writeAll due items) r := by
  induction items using List.reverseRecOn with
  | nil => exact ⟨0, .nil⟩
  | append_singleton items x ih =>
      obtain ⟨r, h⟩ := ih
      rw [writeAll_snoc]
      cases x with
      | none => exact ⟨r, h.append (by simp) rfl (by simp [put])⟩
      | some a =>
          by_cases hdue : due (items.length + 1) = true
          · rw [put, if_pos hdue]
            exact ⟨_, h.append_rotate ⟨hdue, rfl⟩ (List.length_append ..) rfl rfl⟩
          · rw [put, if_neg hdue]
            exact ⟨r, h.append (fun hboth => hdue hboth.1) rfl (List.length_append ..)⟩

/-- No file is longer than `m` exactly when no stretch without a rotation has more items. -/
theorem files_length_le_iff (due : ℕ → Bool) (items : List (Option α)) (m : ℕ) :
    (∀ file ∈ (writeAll due items).files, file.length ≤ m) ↔
      ∀ i j, i ≤ j → j ≤ items.length → Clear due items i j →
        written items j ≤ m + written items i := by
  obtain ⟨r, h⟩ := exists_divided due items
  have hmem : ∀ file, file ∈ (writeAll due items).files ↔
      file ∈ (writeAll due items).closed ∨ file = (writeAll due items).current := by
    intro file
    rw [Writer.files, List.mem_append, List.mem_singleton]
  constructor
  · intro hle i j hij hj hclear
    rcases Nat.eq_or_lt_of_le hij with rfl | hlt
    · exact Nat.le_add_left _ _
    · -- a stretch lies in one closed file or in the open one
      by_cases hjr : j ≤ r
      · obtain ⟨file, hfile, hlength⟩ := h.stretch i j hlt hjr hclear
        have hbound := hle file ((hmem file).2 (Or.inl hfile))
        omega
      · have hbound := hle _ ((hmem _).2 (Or.inr rfl))
        have hlength := h.le_current (Nat.lt_of_not_le hjr) hj hclear
        omega
  · intro hstretch file hfile
    rcases (hmem file).1 hfile with hfile | rfl
    · obtain ⟨i, j, hij, hj, hclear, hlength⟩ := h.closed file hfile
      have hbound := hstretch i j hij (Nat.le_trans hj h.le_length) hclear
      omega
    · have hbound := hstretch r items.length h.le_length (Nat.le_refl _)
        (fun k hk _ => h.open_clear k hk)
      have hlength := h.current
      omega

end Siebog.Lib.Rotation
