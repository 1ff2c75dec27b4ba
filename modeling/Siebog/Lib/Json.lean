import Siebog.Lib.Utf16
import Mathlib.Data.List.Basic

/-!
# The values of JSON and their text

A number is carried as its numeral, so no arithmetic is involved. The members of an object keep
their order. `stringify` writes no insignificant whitespace, and a lone surrogate as an escape: its
text is well formed whatever the strings in the value are (`wellFormed_stringify`).
-/

set_option autoImplicit false

namespace Siebog.Lib

open Siebog.Lib.Utf16

namespace Json

/-! ## Numerals -/

/-- A digit from 0 to 9. -/
def isDigit (u : CodeUnit) : Bool := decide (unit '0' ≤ u) && decide (u ≤ unit '9')

/-- A plus or a minus. -/
def isSign (u : CodeUnit) : Bool := u == unit '+' || u == unit '-'

/-- The units that occur in numerals. -/
def isNumberUnit (u : CodeUnit) : Bool :=
  isDigit u || isSign u || u == unit '.' || u == unit 'e' || u == unit 'E'

/-- Digits, at least one, and then what `next` accepts. -/
def digits (next : Text → Bool) : Text → Bool
  | [] => false
  | d :: t => isDigit d && next (t.dropWhile isDigit)

/-- The exponent of a numeral, or nothing. -/
def isExponent : Text → Bool
  | [] => true
  | u :: t =>
    (u == unit 'e' || u == unit 'E') &&
      match t with
      | [] => false
      | s :: t' => digits List.isEmpty (if isSign s then t' else s :: t')

/-- The fraction and the exponent of a numeral, each of which may be missing. -/
def isFraction : Text → Bool
  | [] => true
  | u :: t => if u == unit '.' then digits isExponent t else isExponent (u :: t)

/-- A numeral without a sign. Nothing but a fraction or an exponent follows a leading zero. -/
def isUnsigned : Text → Bool
  | [] => false
  | d :: t => if d == unit '0' then isFraction t else digits isFraction (d :: t)

/-- A numeral with or without a minus. -/
def isSigned : Text → Bool
  | [] => false
  | u :: t => if u == unit '-' then isUnsigned t else isUnsigned (u :: t)

/-- The numerals of JSON. -/
def isNumeral (t : Text) : Bool := t.all isNumberUnit && isSigned t

/-- A number, as the numeral it is written as. -/
structure Numeral where
  text : Text
  valid : isNumeral text = true

theorem Numeral.isNumberUnit_of_mem (n : Numeral) : ∀ u ∈ n.text, isNumberUnit u = true := by
  have hvalid := n.valid
  rw [isNumeral, Bool.and_eq_true, List.all_eq_true] at hvalid
  exact hvalid.1

/-- A numeral is not the empty text. -/
theorem Numeral.text_ne_nil (n : Numeral) : n.text ≠ [] := by
  intro hnil
  have hvalid := n.valid
  rw [hnil] at hvalid
  exact absurd hvalid (by decide)

end Json

/-- The values of JSON. -/
inductive Json
  | null
  | bool (b : Bool)
  | num (n : Json.Numeral)
  | str (s : Text)
  | arr (vs : List Json)
  | obj (ms : List (Text × Json))

namespace Json

/-- Induction on a value, through the lists of its parts. -/
@[elab_as_elim, induction_eliminator]
theorem induct {motive : Json → Prop} (null : motive .null) (bool : ∀ b, motive (.bool b))
    (num : ∀ n, motive (.num n)) (str : ∀ s, motive (.str s))
    (arr : ∀ vs : List Json, (∀ v ∈ vs, motive v) → motive (.arr vs))
    (obj : ∀ ms : List (Text × Json), (∀ m ∈ ms, motive m.2) → motive (.obj ms)) :
    ∀ v, motive v
  | .null => null
  | .bool b => bool b
  | .num n => num n
  | .str s => str s
  | .arr vs => arr vs fun v _ => induct null bool num str arr obj v
  | .obj ms => obj ms fun m _ => induct null bool num str arr obj m.2
termination_by v => sizeOf v
decreasing_by
  · have hmem : sizeOf v < sizeOf vs := List.sizeOf_lt_of_mem ‹_›
    simp only [Json.arr.sizeOf_spec]
    omega
  · have hmem : sizeOf m < sizeOf ms := List.sizeOf_lt_of_mem ‹_›
    cases m
    simp only [Json.obj.sizeOf_spec, Prod.mk.sizeOf_spec] at hmem ⊢
    omega

/-! ## Writing -/

/-- The escape with four hexadecimal digits. -/
def unicodeEscape (u : CodeUnit) : Text :=
  [unit '\\', unit 'u', hexDigit (u.toNat / 4096), hexDigit (u.toNat / 256 % 16),
    hexDigit (u.toNat / 16 % 16), hexDigit (u.toNat % 16)]

/-- The text of a unit within a string: short escapes, then numeric ones for the other control
characters and for lone surrogates. -/
def escapeUnit (u : CodeUnit) : Text :=
  if u = unit '"' then [unit '\\', unit '"']
  else if u = unit '\\' then [unit '\\', unit '\\']
  else if u = 0x08 then [unit '\\', unit 'b']
  else if u = 0x09 then [unit '\\', unit 't']
  else if u = 0x0A then [unit '\\', unit 'n']
  else if u = 0x0C then [unit '\\', unit 'f']
  else if u = 0x0D then [unit '\\', unit 'r']
  else if decide (u < 0x20) || isSurrogate u then unicodeEscape u
  else [u]

/-- The characters with a short escape, each with the letter that follows the backslash. -/
inductive ShortEscape : CodeUnit → CodeUnit → Prop where
  | quote : ShortEscape (unit '"') (unit '"')
  | backslash : ShortEscape (unit '\\') (unit '\\')
  | backspace : ShortEscape 0x08 (unit 'b')
  | tab : ShortEscape 0x09 (unit 't')
  | newline : ShortEscape 0x0A (unit 'n')
  | formFeed : ShortEscape 0x0C (unit 'f')
  | carriageReturn : ShortEscape 0x0D (unit 'r')

/-- What the text of a unit can be. -/
inductive EscapeOf (u : CodeUnit) : Text → Prop where
  | short {e : CodeUnit} (he : ShortEscape u e) : EscapeOf u [unit '\\', e]
  | numeric (hu : u < 0x20 ∨ isSurrogate u = true) : EscapeOf u (unicodeEscape u)
  | plain (hquote : u ≠ unit '"') (hslash : u ≠ unit '\\') (hcontrol : ¬ u < 0x20)
      (hsurrogate : isSurrogate u = false) : EscapeOf u [u]

/-- `escapeUnit` writes one of the escapes that `EscapeOf` lists. -/
theorem escapeOf_escapeUnit (u : CodeUnit) : EscapeOf u (escapeUnit u) := by
  unfold escapeUnit
  split_ifs with hquote hslash hb ht hn hf hr hnum
  · exact .short (hquote ▸ .quote)
  · exact .short (hslash ▸ .backslash)
  · exact .short (hb ▸ .backspace)
  · exact .short (ht ▸ .tab)
  · exact .short (hn ▸ .newline)
  · exact .short (hf ▸ .formFeed)
  · exact .short (hr ▸ .carriageReturn)
  · rw [Bool.or_eq_true, decide_eq_true_eq] at hnum
    exact .numeric hnum
  · rw [Bool.or_eq_true, not_or, decide_eq_true_eq, Bool.not_eq_true] at hnum
    exact .plain hquote hslash hnum.1 hnum.2

/-- The units of a string between its quotes. A surrogate pair is written as it is. -/
def escape : Text → Text
  | [] => []
  | [u] => escapeUnit u
  | u :: v :: t =>
    if isHigh u && isLow v then u :: v :: escape t else escapeUnit u ++ escape (v :: t)

/-- A string between quotes. -/
def quote (s : Text) : Text := unit '"' :: (escape s ++ [unit '"'])

/-- The items after the first, each after a comma, and the closing bracket. -/
def afterItem (close : CodeUnit) : List Text → Text
  | [] => [close]
  | x :: xs => unit ',' :: (x ++ afterItem close xs)

/-- The items between brackets, from after the opening one. -/
def items (close : CodeUnit) : List Text → Text
  | [] => [close]
  | x :: xs => x ++ afterItem close xs

mutual

/-- The text of a value. -/
def stringify : Json → Text
  | .null => text "null"
  | .bool true => text "true"
  | .bool false => text "false"
  | .num n => n.text
  | .str s => quote s
  | .arr vs => unit '[' :: items (unit ']') (stringifyAll vs)
  | .obj ms => unit '{' :: items (unit '}') (stringifyMembers ms)

/-- The texts of the items of an array. -/
def stringifyAll : List Json → List Text
  | [] => []
  | v :: vs => stringify v :: stringifyAll vs

/-- The texts of the members of an object, each a name, a colon and a value. -/
def stringifyMembers : List (Text × Json) → List Text
  | [] => []
  | (k, v) :: ms => (quote k ++ unit ':' :: stringify v) :: stringifyMembers ms

end

/-- The text of a member. -/
def stringifyMember (m : Text × Json) : Text := quote m.1 ++ unit ':' :: stringify m.2

theorem stringifyAll_eq_map (vs : List Json) : stringifyAll vs = vs.map stringify := by
  induction vs with
  | nil => rfl
  | cons v vs ih => rw [stringifyAll, ih, List.map_cons]

theorem stringifyMembers_eq_map (ms : List (Text × Json)) :
    stringifyMembers ms = ms.map stringifyMember := by
  induction ms with
  | nil => rfl
  | cons m ms ih => rw [stringifyMembers, ih, List.map_cons, stringifyMember]

theorem stringify_arr (vs : List Json) :
    stringify (.arr vs) = unit '[' :: items (unit ']') (vs.map stringify) := by
  rw [stringify, stringifyAll_eq_map]

theorem stringify_obj (ms : List (Text × Json)) :
    stringify (.obj ms) = unit '{' :: items (unit '}') (ms.map stringifyMember) := by
  rw [stringify, stringifyMembers_eq_map]

/-! ### The text is well formed -/

/-- An escape has no surrogate in it, whatever it stands for. -/
theorem isSurrogate_of_mem_unicodeEscape {u v : CodeUnit} (hv : v ∈ unicodeEscape u) :
    isSurrogate v = false := by
  have hlt : u.toNat < 65536 := u.toNat_lt
  simp only [unicodeEscape, List.mem_cons, List.not_mem_nil, or_false] at hv
  rcases hv with rfl | rfl | rfl | rfl | rfl | rfl
  · decide
  · decide
  · exact isSurrogate_hexDigit _ (by omega)
  · exact isSurrogate_hexDigit _ (by omega)
  · exact isSurrogate_hexDigit _ (by omega)
  · exact isSurrogate_hexDigit _ (by omega)

/-- The text of a single unit is well formed. -/
theorem wellFormed_escapeUnit (u : CodeUnit) : WellFormed (escapeUnit u) := by
  have hof := escapeOf_escapeUnit u
  generalize escapeUnit u = w at hof
  cases hof with
  | short he =>
      cases he with
      | quote | backslash | backspace | tab | newline | formFeed | carriageReturn => decide
  | numeric => exact wellFormed_of_forall fun v hv => isSurrogate_of_mem_unicodeEscape hv
  | plain _ _ _ hsurrogate => exact wellFormed_nil.cons hsurrogate

/-- The text between the quotes is well formed, lone surrogates or not. -/
theorem wellFormed_escape (s : Text) : WellFormed (escape s) := by
  induction s using escape.induct with
  | case1 => exact wellFormed_nil
  | case2 u => exact wellFormed_escapeUnit u
  | case3 u v t hpair ih =>
      rw [escape, if_pos hpair, WellFormed, toWellFormed, if_pos hpair, ih]
  | case4 u v t hpair ih =>
      rw [escape, if_neg hpair]
      exact (wellFormed_escapeUnit u).append ih

/-- A quoted string is well formed. -/
theorem wellFormed_quote (s : Text) : WellFormed (quote s) := by
  have hclose : WellFormed [unit '"'] := by decide
  exact ((wellFormed_escape s).append hclose).cons (by decide)

/-- Well-formed items are put together into a well-formed text. -/
theorem wellFormed_afterItem {close : CodeUnit} (hclose : isSurrogate close = false)
    {xs : List Text} (hxs : ∀ x ∈ xs, WellFormed x) : WellFormed (afterItem close xs) := by
  induction xs with
  | nil => exact wellFormed_nil.cons hclose
  | cons x xs ih =>
      have hx : WellFormed x := hxs x List.mem_cons_self
      have htail := ih fun y hy => hxs y (List.mem_cons_of_mem x hy)
      exact (hx.append htail).cons (by decide)

/-- A sequence of well-formed items is well formed. -/
theorem wellFormed_items {close : CodeUnit} (hclose : isSurrogate close = false)
    {xs : List Text} (hxs : ∀ x ∈ xs, WellFormed x) : WellFormed (items close xs) := by
  cases xs with
  | nil => exact wellFormed_nil.cons hclose
  | cons x xs =>
      have hx : WellFormed x := hxs x List.mem_cons_self
      exact hx.append (wellFormed_afterItem hclose fun y hy => hxs y (List.mem_cons_of_mem x hy))

theorem isSurrogate_of_isDigit {u : CodeUnit} (hu : isDigit u = true) : isSurrogate u = false := by
  have hnine : (unit '9').toNat = 57 := rfl
  simp only [isDigit, Bool.and_eq_true, decide_eq_true_eq, UInt16.le_iff_toNat_le, hnine] at hu
  simp only [isSurrogate, isHigh, isLow, UInt16.le_iff_toNat_le, UInt16.reduceToNat,
    Bool.or_eq_false_iff, Bool.and_eq_false_imp, decide_eq_true_eq, decide_eq_false_iff_not,
    Nat.not_le]
  omega

theorem isSurrogate_of_isNumberUnit {u : CodeUnit} (hu : isNumberUnit u = true) :
    isSurrogate u = false := by
  simp only [isNumberUnit, isSign, Bool.or_eq_true, beq_iff_eq] at hu
  rcases hu with (((hdigit | rfl | rfl) | rfl) | rfl) | rfl
  · exact isSurrogate_of_isDigit hdigit
  · decide
  · decide
  · decide
  · decide
  · decide

/-- A numeral is well formed. -/
theorem Numeral.wellFormed (n : Numeral) : WellFormed n.text :=
  wellFormed_of_forall fun u hu => isSurrogate_of_isNumberUnit (n.isNumberUnit_of_mem u hu)

/-- Whatever strings a value holds, its text has no lone surrogate. -/
theorem wellFormed_stringify (v : Json) : WellFormed (stringify v) := by
  induction v with
  | null => decide
  | bool b => cases b <;> decide
  | num n => exact n.wellFormed
  | str s => exact wellFormed_quote s
  | arr vs ih =>
      rw [stringify_arr]
      refine (wellFormed_items (by decide) ?_).cons (by decide)
      intro x hx
      obtain ⟨v, hv, rfl⟩ := List.mem_map.mp hx
      exact ih v hv
  | obj ms ih =>
      rw [stringify_obj]
      refine (wellFormed_items (by decide) ?_).cons (by decide)
      intro x hx
      obtain ⟨m, hm, rfl⟩ := List.mem_map.mp hx
      exact (wellFormed_quote m.1).append ((ih m hm).cons (by decide))

end Json

end Siebog.Lib
