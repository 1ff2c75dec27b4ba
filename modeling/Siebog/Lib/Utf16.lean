import Mathlib.Data.List.Basic

/-!
# Text as UTF-16 code units

A string of a script engine or of a virtual machine is a sequence of 16-bit code units, which need
not be well formed: a surrogate may stand without its partner. Text that leaves such a program is
encoded character by character, and a lone surrogate, which is no character, goes out as U+FFFD.
`toWellFormed` is that replacement; encoding the result and decoding it again changes nothing.
-/

set_option autoImplicit false

namespace Siebog.Lib.Utf16

/-- One unit of a text. -/
abbrev CodeUnit := UInt16

/-- A text, well formed or not. -/
abbrev Text := List CodeUnit

/-- The code unit of a character of the basic plane. -/
def unit (c : Char) : CodeUnit := UInt16.ofNat c.toNat

/-- A literal that has characters of the basic plane only. -/
def text (s : String) : Text := s.toList.map unit

/-! ## Surrogates -/

/-- The first half of a surrogate pair. -/
def isHigh (u : CodeUnit) : Bool := decide (0xD800 ≤ u) && decide (u ≤ 0xDBFF)

/-- The second half of a surrogate pair. -/
def isLow (u : CodeUnit) : Bool := decide (0xDC00 ≤ u) && decide (u ≤ 0xDFFF)

/-- Either half of a surrogate pair. -/
def isSurrogate (u : CodeUnit) : Bool := isHigh u || isLow u

theorem isSurrogate_of_isHigh {u : CodeUnit} (hu : isHigh u = true) : isSurrogate u = true := by
  rw [isSurrogate, hu, Bool.true_or]

theorem isSurrogate_of_isLow {u : CodeUnit} (hu : isLow u = true) : isSurrogate u = true := by
  rw [isSurrogate, hu, Bool.or_true]

/-- U+FFFD, the replacement character. -/
def replacement : CodeUnit := 0xFFFD

/-- Lone surrogates replaced by U+FFFD. -/
def toWellFormed : Text → Text
  | [] => []
  | [u] => [if isSurrogate u then replacement else u]
  | u :: v :: t =>
    if isHigh u && isLow v then u :: v :: toWellFormed t
    else (if isSurrogate u then replacement else u) :: toWellFormed (v :: t)

/-- Text without lone surrogates. -/
def WellFormed (t : Text) : Prop := toWellFormed t = t

instance (t : Text) : Decidable (WellFormed t) := inferInstanceAs (Decidable (_ = _))

theorem wellFormed_nil : WellFormed [] := rfl

/-- A unit that is no surrogate stays, and what follows it is replaced on its own. -/
theorem toWellFormed_cons {u : CodeUnit} (hu : isSurrogate u = false) (t : Text) :
    toWellFormed (u :: t) = u :: toWellFormed t := by
  have hhigh : isHigh u = false := by
    rw [isSurrogate, Bool.or_eq_false_iff] at hu
    exact hu.1
  cases t with
  | nil => simp [toWellFormed, hu]
  | cons v t => simp [toWellFormed, hu, hhigh]

/-- A unit that is no surrogate separates the text before it from the text after it. -/
theorem toWellFormed_append_cons {u : CodeUnit} (hu : isSurrogate u = false) (s t : Text) :
    toWellFormed (s ++ u :: t) = toWellFormed s ++ u :: toWellFormed t := by
  have hlow : isLow u = false := by
    rw [isSurrogate, Bool.or_eq_false_iff] at hu
    exact hu.2
  induction s using toWellFormed.induct with
  | case1 => exact toWellFormed_cons hu t
  | case2 w => simp [toWellFormed, hlow, toWellFormed_cons hu t]
  | case3 w v s hpair ih => simp [toWellFormed, hpair, ih]
  | case4 w v s hpair ih =>
      rw [List.cons_append] at ih
      simp [toWellFormed, hpair, ih]

/-- Well-formed text does not end inside a pair. -/
theorem WellFormed.toWellFormed_append {s : Text} (hs : WellFormed s) (t : Text) :
    toWellFormed (s ++ t) = s ++ toWellFormed t := by
  induction s using toWellFormed.induct with
  | case1 => rfl
  | case2 w =>
      have hw : isSurrogate w = false := by
        by_contra hsur
        rw [Bool.not_eq_false] at hsur
        simp only [WellFormed, toWellFormed, hsur, if_true, List.cons.injEq, and_true] at hs
        rw [← hs] at hsur
        exact absurd hsur (by decide)
      exact toWellFormed_cons hw t
  | case3 w v s hpair ih =>
      simp only [WellFormed, toWellFormed, hpair, if_true, List.cons.injEq, true_and] at hs
      simp [toWellFormed, hpair, ih hs]
  | case4 w v s hpair ih =>
      rw [WellFormed, toWellFormed, if_neg hpair, List.cons.injEq] at hs
      have htail : toWellFormed (v :: (s ++ t)) = v :: s ++ toWellFormed t := ih hs.2
      rw [List.cons_append, List.cons_append, toWellFormed, if_neg hpair, hs.1, htail]
      rfl

theorem WellFormed.append {s t : Text} (hs : WellFormed s) (ht : WellFormed t) :
    WellFormed (s ++ t) := by
  rw [WellFormed, hs.toWellFormed_append, ht]

theorem WellFormed.cons {u : CodeUnit} {t : Text} (hu : isSurrogate u = false)
    (ht : WellFormed t) : WellFormed (u :: t) := by
  rw [WellFormed, toWellFormed_cons hu, ht]

theorem wellFormed_of_forall {t : Text} (h : ∀ u ∈ t, isSurrogate u = false) : WellFormed t := by
  induction t with
  | nil => exact wellFormed_nil
  | cons u t ih =>
      have htail : WellFormed t := ih fun v hv => h v (List.mem_cons_of_mem u hv)
      exact htail.cons (h u List.mem_cons_self)

/-! ## Hexadecimal digits -/

/-- The lower-case digit of a number below 16. -/
def hexDigit (n : ℕ) : CodeUnit := UInt16.ofNat (if n < 10 then 48 + n else 87 + n)

/-- The value of a digit in either case. -/
def hexValue (u : CodeUnit) : Option ℕ :=
  let n := u.toNat
  if 48 ≤ n ∧ n ≤ 57 then some (n - 48)
  else if 97 ≤ n ∧ n ≤ 102 then some (n - 87)
  else if 65 ≤ n ∧ n ≤ 70 then some (n - 55)
  else none

theorem hexValue_hexDigit : ∀ n < 16, hexValue (hexDigit n) = some n := by decide

theorem isSurrogate_hexDigit : ∀ n < 16, isSurrogate (hexDigit n) = false := by decide

end Siebog.Lib.Utf16
