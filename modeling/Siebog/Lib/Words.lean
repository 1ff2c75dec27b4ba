import Siebog.Lib.Decimal
import Siebog.Lib.Separator

/-!
# Texts of words

A text protocol that puts words together with single spaces and takes them apart again by splitting
at the spaces. A word is not empty and has no unit up to the space in it, so that trimming does not
touch it either (`split_joinWords`, `trim_spaced`).
-/

set_option autoImplicit false

namespace Siebog.Lib.Words

open Siebog.Lib.Utf16

/-- The units that trimming takes away. -/
def isBlank (u : CodeUnit) : Bool := u ≤ unit ' '

/-- A word is not empty, and none of its units is trimmed away. -/
def IsWord (w : Text) : Prop := w ≠ [] ∧ ∀ u ∈ w, isBlank u = false

theorem isWord_iff (w : Text) :
    (!w.isEmpty && w.all fun u => !isBlank u) = true ↔ IsWord w := by
  simp [IsWord, List.isEmpty_eq_false_iff]

instance (w : Text) : Decidable (IsWord w) := decidable_of_iff _ (isWord_iff w)

theorem IsWord.space_notMem {w : Text} (h : IsWord w) : unit ' ' ∉ w :=
  fun hmem => absurd (h.2 _ hmem) (by decide)

/-- Words with a space between each and the next. -/
def joinWords (words : List Text) : Text := [unit ' '].intercalate words

/-- Words with a space before each. -/
def spaced (words : List Text) : Text := words.flatMap (unit ' ' :: ·)

/-- The parts between the spaces. -/
def split (t : Text) : List Text := Separator.split (unit ' ') t

/-- The text without the blanks at its ends. -/
def trim (t : Text) : Text := (t.dropWhile isBlank).rdropWhile isBlank

theorem joinWords_cons (w : Text) (words : List Text) :
    joinWords (w :: words) = w ++ spaced words := by
  induction words generalizing w with
  | nil => simp [joinWords, spaced]
  | cons v words ih =>
      have hcons : joinWords (w :: v :: words) = w ++ unit ' ' :: joinWords (v :: words) := by
        simp [joinWords, List.intercalate_cons_cons]
      rw [hcons, ih v, spaced, spaced, List.flatMap_cons]
      rfl

theorem split_joinWords {words : List Text} (hne : words ≠ []) (hwords : ∀ w ∈ words, IsWord w) :
    split (joinWords words) = words :=
  Separator.split_intercalate hne fun w hw => ⟨(hwords w hw).1, (hwords w hw).space_notMem⟩

/-- The text that starts with a word and goes on with spaced ones is split into all of them. -/
theorem split_append_spaced {w : Text} {words : List Text} (hw : IsWord w)
    (hwords : ∀ v ∈ words, IsWord v) : split (w ++ spaced words) = w :: words := by
  rw [← joinWords_cons]
  refine split_joinWords (List.cons_ne_nil w words) ?_
  intro v hv
  rcases List.mem_cons.1 hv with rfl | hv
  · exact hw
  · exact hwords v hv

/-- Words put together end in a unit that trimming leaves. -/
theorem exists_last_joinWords {words : List Text} (hne : words ≠ [])
    (hwords : ∀ w ∈ words, IsWord w) :
    ∃ t u, joinWords words = t ++ [u] ∧ isBlank u = false := by
  induction words with
  | nil => exact absurd rfl hne
  | cons w words ih =>
      have hw : IsWord w := hwords w List.mem_cons_self
      cases words with
      | nil =>
          refine ⟨w.dropLast, w.getLast hw.1, ?_, hw.2 _ (List.getLast_mem hw.1)⟩
          rw [List.dropLast_append_getLast]
          simp [joinWords]
      | cons v words =>
          obtain ⟨t, u, heq, hu⟩ := ih (List.cons_ne_nil v words) fun x hx =>
            hwords x (List.mem_cons_of_mem w hx)
          have hcons : joinWords (w :: v :: words) = w ++ unit ' ' :: joinWords (v :: words) := by
            simp [joinWords, List.intercalate_cons_cons]
          refine ⟨w ++ unit ' ' :: t, u, ?_, hu⟩
          rw [hcons, heq, List.append_assoc, List.cons_append]

/-- Trimming takes away the space before the first word. -/
theorem trim_spaced {words : List Text} (hwords : ∀ w ∈ words, IsWord w) :
    trim (spaced words) = joinWords words := by
  cases words with
  | nil => rfl
  | cons w words =>
      have hw : IsWord w := hwords w List.mem_cons_self
      have hdrop : (spaced (w :: words)).dropWhile isBlank = joinWords (w :: words) := by
        rw [joinWords_cons, spaced, List.flatMap_cons, List.cons_append,
          List.dropWhile_cons_of_pos (by decide)]
        obtain ⟨u, t, rfl⟩ := List.exists_cons_of_ne_nil hw.1
        have hu : isBlank u = false := hw.2 u List.mem_cons_self
        rw [List.cons_append, List.dropWhile_cons_of_neg (by rw [hu]; decide)]
        rfl
      obtain ⟨t, u, heq, hu⟩ := exists_last_joinWords (List.cons_ne_nil w words) hwords
      rw [trim, hdrop, heq, List.rdropWhile_concat_neg _ _ _ (by rw [hu]; decide)]

theorem isBlank_of_isDigit {u : CodeUnit} (hu : Json.isDigit u = true) : isBlank u = false := by
  have hzero : (unit '0').toNat = 48 := rfl
  have hspace : (unit ' ').toNat = 32 := rfl
  simp only [Json.isDigit, Bool.and_eq_true, decide_eq_true_eq, UInt16.le_iff_toNat_le,
    hzero] at hu
  simp only [isBlank, decide_eq_false_iff_not, UInt16.le_iff_toNat_le, hspace]
  omega

theorem isWord_ofNat (n : ℕ) : IsWord (Decimal.ofNat n) :=
  ⟨Decimal.ofNat_ne_nil n, fun u hu =>
    isBlank_of_isDigit (List.all_eq_true.1 (Decimal.all_isDigit_ofNat n) u hu)⟩

theorem isWord_ofInt (i : Int) : IsWord (Decimal.ofInt i) := by
  cases i with
  | ofNat n => exact isWord_ofNat n
  | negSucc n =>
      refine ⟨List.cons_ne_nil _ _, fun u hu => ?_⟩
      rcases List.mem_cons.1 hu with rfl | hu
      · decide
      · exact (isWord_ofNat (n + 1)).2 u hu

theorem IsWord.append {v w : Text} (hv : IsWord v) (hw : IsWord w) : IsWord (v ++ w) := by
  refine ⟨List.append_ne_nil_of_left_ne_nil hv.1 w, fun u hu => ?_⟩
  rcases List.mem_append.1 hu with hu | hu
  · exact hv.2 u hu
  · exact hw.2 u hu

/-- Which of two words with different beginnings a text starts with. -/
theorem not_prefix_append {p q : Text} (hpq : ¬ p <+: q) (hqp : ¬ q <+: p) (t : Text) :
    ¬ p <+: q ++ t := by
  intro hp
  rcases List.prefix_or_prefix_of_prefix hp (List.prefix_append q t) with h | h
  · exact hpq h
  · exact hqp h

/-! ## Trimmed texts -/

/-- A text that is there and neither starts nor ends with a unit that trimming takes away. -/
structure IsTrimmed (t : Text) : Prop where
  first : ∃ u s, t = u :: s ∧ isBlank u = false
  last : ∃ s u, t = s ++ [u] ∧ isBlank u = false

theorem IsTrimmed.ne_nil {t : Text} (h : IsTrimmed t) : t ≠ [] := by
  obtain ⟨u, s, rfl, -⟩ := h.first
  exact List.cons_ne_nil u s

theorem IsTrimmed.trim_eq {t : Text} (h : IsTrimmed t) : trim t = t := by
  have hdrop : t.dropWhile isBlank = t := by
    obtain ⟨u, s, rfl, hu⟩ := h.first
    exact List.dropWhile_cons_of_neg (by rw [hu]; decide)
  obtain ⟨s, u, heq, hu⟩ := h.last
  rw [trim, hdrop, heq]
  exact List.rdropWhile_concat_neg _ _ _ (by rw [hu]; decide)

/-- What trimming leaves, when it leaves something. -/
theorem isTrimmed_trim {t : Text} (h : trim t ≠ []) : IsTrimmed (trim t) := by
  constructor
  · -- the first unit is that of the text without the units before it
    have hprefix : trim t <+: t.dropWhile isBlank := List.rdropWhile_prefix isBlank _
    obtain ⟨u, s, heq⟩ := List.exists_cons_of_ne_nil h
    obtain ⟨rest, hrest⟩ := hprefix
    rw [heq, List.cons_append] at hrest
    refine ⟨u, s, heq, ?_⟩
    have hhead := List.head?_dropWhile_not isBlank t
    rw [← hrest, List.head?_cons] at hhead
    simpa using hhead
  · refine ⟨(trim t).dropLast, (trim t).getLast h, (List.dropLast_append_getLast h).symm, ?_⟩
    have hlast : ¬ isBlank ((trim t).getLast h) = true := List.rdropWhile_last_not isBlank _ h
    simpa using hlast

theorem mem_of_mem_trim {t : Text} {u : CodeUnit} (h : u ∈ trim t) : u ∈ t :=
  (List.dropWhile_sublist isBlank).subset ((List.rdropWhile_prefix isBlank _).subset h)

/-- A text between two trimmed ones is kept as it is. -/
theorem IsTrimmed.append_append {s t : Text} (hs : IsTrimmed s) (m : Text) (ht : IsTrimmed t) :
    IsTrimmed (s ++ (m ++ t)) := by
  obtain ⟨u, s', rfl, hu⟩ := hs.first
  obtain ⟨t', v, rfl, hv⟩ := ht.last
  exact ⟨⟨u, s' ++ (m ++ (t' ++ [v])), rfl, hu⟩, ⟨u :: s' ++ (m ++ t'), v, by simp, hv⟩⟩

end Siebog.Lib.Words
