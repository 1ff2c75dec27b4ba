import Siebog.Lib.Json
import Mathlib.Data.List.TakeWhile

/-!
# Decimal text

Numbers as they are joined to a text and parsed from one: digits without leading zeros, after a
minus sign for a negative number. `toNat?_ofNat` and `toInt?_ofInt` are the round trips, and
`isNumeral_ofInt` says that the text of an integer is a numeral of JSON.
-/

set_option autoImplicit false

namespace Siebog.Lib.Decimal

open Siebog.Lib.Utf16

/-! ## Natural numbers -/

/-- The digit of a number below 10. -/
def digit (d : ℕ) : CodeUnit := unit (Nat.digitChar d)

/-- The digits of a natural number, without leading zeros. -/
def ofNat (n : ℕ) : Text := (Nat.toDigits 10 n).map unit

/-- The value of the digits read so far and one more. -/
def shift (value : ℕ) (u : CodeUnit) : ℕ := 10 * value + (u.toNat - 48)

/-- A text of digits, at least one. -/
def toNat? (t : Text) : Option ℕ :=
  if t ≠ [] ∧ t.all Json.isDigit then some (t.foldl shift 0) else none

/-- Every number has a digit. -/
theorem ofNat_ne_nil (n : ℕ) : ofNat n ≠ [] :=
  fun hnil => Nat.toDigits_ne_nil (List.map_eq_nil_iff.1 hnil)

/-- A number below 10 is its digit. -/
theorem ofNat_of_lt {n : ℕ} (h : n < 10) : ofNat n = [digit n] := by
  rw [ofNat, Nat.toDigits_of_lt_base h]
  rfl

/-- The last digit comes after the digits of the quotient. -/
theorem ofNat_of_le {n : ℕ} (h : 10 ≤ n) : ofNat n = ofNat (n / 10) ++ [digit (n % 10)] := by
  rw [ofNat, Nat.toDigits_of_base_le (by decide) h, List.map_append]
  rfl

theorem isDigit_digit : ∀ d < 10, Json.isDigit (digit d) = true := by decide

/-- A digit read after a value. -/
theorem shift_digit (value : ℕ) {d : ℕ} (h : d < 10) : shift value (digit d) = 10 * value + d := by
  have hvalue : ∀ d < 10, (digit d).toNat - 48 = d := by decide
  rw [shift, hvalue d h]

/-- The text of a natural number has digits only. -/
theorem all_isDigit_ofNat (n : ℕ) : (ofNat n).all Json.isDigit = true := by
  induction n using Nat.strongRecOn with
  | ind n ih =>
      rcases Nat.lt_or_ge n 10 with hlt | hge
      · rw [ofNat_of_lt hlt]
        simp [isDigit_digit n hlt]
      · have hdigit := isDigit_digit (n % 10) (Nat.mod_lt n (by decide))
        have hquotient := ih (n / 10) (by omega)
        rw [ofNat_of_le hge, List.all_append, hquotient]
        simp [hdigit]

/-- The digits of a number add up to it. -/
theorem foldl_shift_ofNat (n : ℕ) : (ofNat n).foldl shift 0 = n := by
  induction n using Nat.strongRecOn with
  | ind n ih =>
      rcases Nat.lt_or_ge n 10 with hlt | hge
      · rw [ofNat_of_lt hlt]
        simp [shift_digit 0 hlt]
      · have hmod : n % 10 < 10 := Nat.mod_lt n (by decide)
        have hquotient := ih (n / 10) (by omega)
        rw [ofNat_of_le hge, List.foldl_append, hquotient]
        simp only [List.foldl_cons, List.foldl_nil, shift_digit _ hmod]
        omega

/-- A natural number is read back. -/
theorem toNat?_ofNat (n : ℕ) : toNat? (ofNat n) = some n := by
  rw [toNat?, if_pos ⟨ofNat_ne_nil n, all_isDigit_ofNat n⟩, foldl_shift_ofNat]

/-- Only the text of zero starts with a zero. -/
theorem head?_ofNat {n : ℕ} (h : n ≠ 0) : (ofNat n).head? ≠ some (unit '0') := by
  induction n using Nat.strongRecOn with
  | ind n ih =>
      rcases Nat.lt_or_ge n 10 with hlt | hge
      · have hdigit : ∀ d < 10, d ≠ 0 → digit d ≠ unit '0' := by decide
        rw [ofNat_of_lt hlt, List.head?_cons, Ne, Option.some.injEq]
        exact hdigit n hlt h
      · have hquotient := ih (n / 10) (by omega) (by omega)
        rw [ofNat_of_le hge, List.head?_append_of_ne_nil _ (ofNat_ne_nil _)]
        exact hquotient

/-! ## Integers -/

/-- An integer, with a minus sign when it is negative. -/
def ofInt : Int → Text
  | .ofNat n => ofNat n
  | .negSucc n => unit '-' :: ofNat (n + 1)

/-- A text with a sign, which may be a plus sign, or without one. -/
def toInt? : Text → Option Int
  | [] => none
  | u :: t =>
    if u = unit '-' then (toNat? t).map fun n => -(n : Int)
    else if u = unit '+' then (toNat? t).map fun n => (n : Int)
    else (toNat? (u :: t)).map fun n => (n : Int)

/-- The text of a natural number starts with a digit. -/
theorem exists_cons_ofNat (n : ℕ) :
    ∃ u t, ofNat n = u :: t ∧ Json.isDigit u = true ∧ t.all Json.isDigit = true := by
  have hall := all_isDigit_ofNat n
  cases hof : ofNat n with
  | nil => exact absurd hof (ofNat_ne_nil n)
  | cons u t =>
      rw [hof, List.all_cons, Bool.and_eq_true] at hall
      exact ⟨u, t, rfl, hall.1, hall.2⟩

/-- An integer is read back, its sign included. -/
theorem toInt?_ofInt (i : Int) : toInt? (ofInt i) = some i := by
  cases i with
  | ofNat n =>
      obtain ⟨u, t, hof, hu, -⟩ := exists_cons_ofNat n
      have hminus : u ≠ unit '-' := fun heq => absurd (heq ▸ hu) (by decide)
      have hplus : u ≠ unit '+' := fun heq => absurd (heq ▸ hu) (by decide)
      have hread := toNat?_ofNat n
      rw [ofInt, hof, toInt?, if_neg hminus, if_neg hplus, ← hof, hread]
      rfl
  | negSucc n =>
      rw [ofInt, toInt?, if_pos rfl, toNat?_ofNat]
      rfl

/-! ## Numerals of JSON -/

theorem isUnsigned_ofNat (n : ℕ) : Json.isUnsigned (ofNat n) = true := by
  obtain ⟨u, t, hof, hu, ht⟩ := exists_cons_ofNat n
  have hdrop : t.dropWhile Json.isDigit = [] := List.dropWhile_eq_nil_iff.2 (List.all_eq_true.1 ht)
  rcases Nat.eq_zero_or_pos n with rfl | hpos
  · decide
  · have hhead : u ≠ unit '0' := by
      have hne := head?_ofNat (Nat.pos_iff_ne_zero.1 hpos)
      rw [hof, List.head?_cons] at hne
      exact fun heq => hne (congrArg some heq)
    rw [hof, Json.isUnsigned, if_neg (by rw [beq_iff_eq]; exact hhead), Json.digits, hu, hdrop]
    rfl

theorem all_isNumberUnit {t : Text} (ht : t.all Json.isDigit = true) :
    t.all Json.isNumberUnit = true := by
  rw [List.all_eq_true] at ht ⊢
  intro u hu
  simp [Json.isNumberUnit, ht u hu]

/-- The text of an integer is a numeral of JSON. -/
theorem isNumeral_ofInt (i : Int) : Json.isNumeral (ofInt i) = true := by
  cases i with
  | ofNat n =>
      obtain ⟨u, t, hof, hu, -⟩ := exists_cons_ofNat n
      have hminus : (u == unit '-') = false :=
        beq_false_of_ne fun heq => absurd (heq ▸ hu) (by decide)
      have hunsigned := isUnsigned_ofNat n
      rw [ofInt, Json.isNumeral, all_isNumberUnit (all_isDigit_ofNat n), hof, Json.isSigned, hminus,
        ← hof, if_neg Bool.false_ne_true, hunsigned]
      rfl
  | negSucc n =>
      have hall := all_isNumberUnit (all_isDigit_ofNat (n + 1))
      rw [ofInt, Json.isNumeral, List.all_cons, hall, Json.isSigned, if_pos (beq_self_eq_true _),
        isUnsigned_ofNat]
      rfl

/-- The numeral of an integer. -/
def numeral (i : Int) : Json.Numeral := ⟨ofInt i, isNumeral_ofInt i⟩

end Siebog.Lib.Decimal
