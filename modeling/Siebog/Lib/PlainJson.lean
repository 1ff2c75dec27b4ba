import Siebog.Lib.Form
import Siebog.Lib.Json

/-!
# JSON in form bodies

Which values have a text that form decoding leaves alone? Brackets, commas, colons and quotes are no
separators of forms and no hexadecimal digits, so an escape cannot reach across them, and the
escapes that JSON writes contain no percent sign. `plain_stringify_iff`: the text of a value is
plain exactly when every string, member name and numeral in the value is.
-/

set_option autoImplicit false

namespace Siebog.Lib

open Siebog.Lib.Utf16

/-- `t` is a string, the name of a member or a numeral somewhere in a value. -/
inductive Json.Occurs (t : Text) : Json → Prop
  | str : Occurs t (.str t)
  | num {n : Json.Numeral} : n.text = t → Occurs t (.num n)
  | arr {vs : List Json} {v : Json} : v ∈ vs → Occurs t v → Occurs t (.arr vs)
  | name {ms : List (Text × Json)} {v : Json} : (t, v) ∈ ms → Occurs t (.obj ms)
  | member {ms : List (Text × Json)} {m : Text × Json} : m ∈ ms → Occurs t m.2 → Occurs t (.obj ms)

theorem Json.occurs_arr_iff {vs : List Json} {t : Text} :
    Json.Occurs t (.arr vs) ↔ ∃ v ∈ vs, Json.Occurs t v := by
  constructor
  · intro h
    cases h with
    | arr hv ht => exact ⟨_, hv, ht⟩
  · rintro ⟨v, hv, ht⟩
    exact Json.Occurs.arr hv ht

theorem Json.occurs_obj_iff {ms : List (Text × Json)} {t : Text} :
    Json.Occurs t (.obj ms) ↔ ∃ m ∈ ms, t = m.1 ∨ Json.Occurs t m.2 := by
  constructor
  · intro h
    cases h with
    | name hm => exact ⟨_, hm, Or.inl rfl⟩
    | member hm ht => exact ⟨_, hm, Or.inr ht⟩
  · rintro ⟨m, hm, rfl | ht⟩
    · exact Json.Occurs.name hm
    · exact Json.Occurs.member hm ht

namespace Form

variable {strict : Bool}

/-! ## Plain text -/

/-- Form decoding does not act on `u`. -/
def Inert (u : CodeUnit) : Prop := u ≠ unit '&' ∧ u ≠ unit '+' ∧ u ≠ unit '%'

instance (u : CodeUnit) : Decidable (Inert u) := inferInstanceAs (Decidable (_ ∧ _ ∧ _))

/-- Form decoding does not act on `u`, and no escape goes on with `u`. -/
def Neutral (u : CodeUnit) : Prop := Inert u ∧ hexValue u = none

instance (u : CodeUnit) : Decidable (Neutral u) := inferInstanceAs (Decidable (_ ∧ _))

/-- The value of the digit that `t` starts with. -/
def headDigit (t : Text) : Option ℕ := t.head?.bind hexValue

theorem startsEscape_cons (a : CodeUnit) (t : Text) :
    startsEscape (a :: t) = ((hexValue a).isSome && (headDigit t).isSome) := by
  cases t with
  | nil => simp [startsEscape, headDigit]
  | cons b t =>
      rw [headDigit, List.head?_cons, Option.bind_some, startsEscape, escapedByte]
      cases hexValue a with
      | none => rfl
      | some x =>
          cases hexValue b with
          | none => rfl
          | some y => rfl

theorem plain_nil : Plain strict [] := plain_of_not_mem List.not_mem_nil List.not_mem_nil
  List.not_mem_nil

theorem plain_cons {u : CodeUnit} {t : Text} :
    Plain strict (u :: t) ↔ u ≠ unit '&' ∧ u ≠ unit '+' ∧
      (u = unit '%' → strict = false ∧ startsEscape t = false) ∧ Plain strict t := by
  constructor
  · rintro ⟨hsep, hplus, hliteral⟩
    rw [List.mem_cons, not_or] at hsep hplus
    obtain ⟨hhead, htail⟩ := literal_cons.mp hliteral
    exact ⟨Ne.symm hsep.1, Ne.symm hplus.1, hhead, hsep.2, hplus.2, htail⟩
  · rintro ⟨hsep, hplus, hhead, ht⟩
    refine ⟨?_, ?_, literal_cons.mpr ⟨hhead, ht.literal⟩⟩
    · rw [List.mem_cons, not_or]
      exact ⟨Ne.symm hsep, ht.no_separator⟩
    · rw [List.mem_cons, not_or]
      exact ⟨Ne.symm hplus, ht.no_plus⟩

theorem plain_inert_cons {u : CodeUnit} (hu : Inert u) {t : Text} :
    Plain strict (u :: t) ↔ Plain strict t := by
  rw [plain_cons]
  constructor
  · exact fun h => h.2.2.2
  · exact fun h => ⟨hu.1, hu.2.1, fun hpercent => absurd hpercent hu.2.2, h⟩

theorem headDigit_neutral_cons {u : CodeUnit} (hu : Neutral u) (t : Text) :
    headDigit (u :: t) = none := by
  rw [headDigit, List.head?_cons, Option.bind_some, hu.2]

/-- A neutral unit separates a text into two texts of their own. -/
theorem plain_append_cons {u : CodeUnit} (hu : Neutral u) (s t : Text) :
    Plain strict (s ++ u :: t) ↔ Plain strict s ∧ Plain strict t := by
  have hescape : ∀ s, startsEscape (s ++ u :: t) = startsEscape s := by
    intro s
    match s with
    | [] =>
        rw [List.nil_append, startsEscape_cons, hu.2]
        rfl
    | [a] =>
        rw [List.cons_append, List.nil_append, startsEscape_cons, startsEscape_cons,
          headDigit_neutral_cons hu]
        rfl
    | a :: b :: s => rw [List.cons_append, List.cons_append, startsEscape, startsEscape]
  induction s with
  | nil =>
      rw [List.nil_append, plain_inert_cons hu.1]
      exact ⟨fun h => ⟨plain_nil, h⟩, fun h => h.2⟩
  | cons a s ih =>
      rw [List.cons_append, plain_cons, plain_cons, hescape]
      constructor
      · rintro ⟨hsep, hplus, hhead, htail⟩
        obtain ⟨hs, ht⟩ := ih.mp htail
        exact ⟨⟨hsep, hplus, hhead, hs⟩, ht⟩
      · rintro ⟨⟨hsep, hplus, hhead, hs⟩, ht⟩
        exact ⟨hsep, hplus, hhead, ih.mpr ⟨hs, ht⟩⟩

theorem plain_inert_append {w : Text} (hw : ∀ e ∈ w, Inert e) {t : Text} :
    Plain strict (w ++ t) ↔ Plain strict t := by
  induction w with
  | nil => exact Iff.rfl
  | cons e w ih =>
      rw [List.cons_append, plain_inert_cons (hw e List.mem_cons_self)]
      exact ih fun v hv => hw v (List.mem_cons_of_mem e hv)

/-! ## Strings -/

theorem inert_hexDigit : ∀ n < 16, Inert (hexDigit n) := by decide

/-- What JSON escapes by number means nothing to form decoding. -/
theorem neutral_of_escaped {u : CodeUnit} (hu : u.toNat < 32 ∨ isSurrogate u = true) :
    Neutral u := by
  have hcode : u.toNat < 32 ∨ 0xD800 ≤ u.toNat := by
    rcases hu with hlt | hsur
    · exact Or.inl hlt
    · simp only [isSurrogate, isHigh, isLow, UInt16.le_iff_toNat_le, UInt16.reduceToNat,
        Bool.or_eq_true, Bool.and_eq_true, decide_eq_true_eq] at hsur
      omega
  have hne : ∀ v : CodeUnit, 32 ≤ v.toNat → v.toNat < 0xD800 → u ≠ v := by
    rintro v hge hlt rfl
    omega
  refine ⟨⟨hne _ (by decide) (by decide), hne _ (by decide) (by decide),
    hne _ (by decide) (by decide)⟩, ?_⟩
  rw [hexValue, if_neg (by omega), if_neg (by omega), if_neg (by omega)]

theorem inert_of_mem_unicodeEscape {u e : CodeUnit} (he : e ∈ Json.unicodeEscape u) : Inert e := by
  have hlt : u.toNat < 65536 := u.toNat_lt
  simp only [Json.unicodeEscape, List.mem_cons, List.not_mem_nil, or_false] at he
  rcases he with rfl | rfl | rfl | rfl | rfl | rfl
  · decide
  · decide
  · exact inert_hexDigit _ (by omega)
  · exact inert_hexDigit _ (by omega)
  · exact inert_hexDigit _ (by omega)
  · exact inert_hexDigit _ (by omega)

/-- A unit is written as it is, or it is neutral and its escape is inert. -/
theorem escapeUnit_cases (u : CodeUnit) :
    Json.escapeUnit u = [u] ∨
      Neutral u ∧ ∃ w, Json.escapeUnit u = unit '\\' :: w ∧ ∀ e ∈ w, Inert e := by
  have hof := Json.escapeOf_escapeUnit u
  generalize Json.escapeUnit u = w at hof
  cases hof with
  | @short e he =>
      have hplain : Neutral u ∧ Inert e := by
        cases he with
        | quote | backslash | backspace | tab | newline | formFeed | carriageReturn => decide
      exact .inr ⟨hplain.1, [e], rfl, List.forall_mem_singleton.mpr hplain.2⟩
  | numeric hu =>
      rw [UInt16.lt_iff_toNat_lt] at hu
      refine .inr ⟨neutral_of_escaped hu, _, rfl, fun e he => ?_⟩
      exact inert_of_mem_unicodeEscape (List.mem_cons_of_mem (unit '\\') he)
  | plain => exact .inl rfl

theorem headDigit_escapeUnit_append (u : CodeUnit) (t : Text) :
    headDigit (Json.escapeUnit u ++ t) = hexValue u := by
  rcases escapeUnit_cases u with hraw | ⟨hu, w, hw, -⟩
  · rw [hraw]
    rfl
  · rw [hw, hu.2]
    rfl

/-- Escaping keeps the digit that a string starts with. -/
theorem headDigit_escape (s : Text) : headDigit (Json.escape s) = headDigit s := by
  match s with
  | [] => rfl
  | [u] =>
      rw [Json.escape, ← List.append_nil (Json.escapeUnit u), headDigit_escapeUnit_append]
      rfl
  | u :: v :: s =>
      rw [Json.escape]
      split_ifs
      · rfl
      · rw [headDigit_escapeUnit_append]
        rfl

/-- Escaping keeps whether an escape of the form can go on with the string. -/
theorem startsEscape_escape (s : Text) : startsEscape (Json.escape s) = startsEscape s := by
  have hunit : ∀ u t t', headDigit t' = headDigit t →
      startsEscape (Json.escapeUnit u ++ t') = startsEscape (u :: t) := by
    intro u t t' hdigit
    rcases escapeUnit_cases u with hraw | ⟨hu, w, hw, -⟩
    · rw [hraw, List.singleton_append, startsEscape_cons, startsEscape_cons, hdigit]
    · rw [hw, List.cons_append, startsEscape_cons, startsEscape_cons, hu.2]
      rfl
  match s with
  | [] => rfl
  | [u] =>
      rw [Json.escape, ← List.append_nil (Json.escapeUnit u)]
      exact hunit u [] [] rfl
  | u :: v :: s =>
      rw [Json.escape]
      split_ifs with hpair
      · have hu := isSurrogate_of_isHigh (Bool.and_eq_true_iff.mp hpair).1
        rw [startsEscape_cons, startsEscape_cons, (neutral_of_escaped (Or.inr hu)).2]
        rfl
      · exact hunit u (v :: s) _ (headDigit_escape (v :: s))

/-- What JSON escapes in a string makes no difference to form decoding. -/
theorem plain_escape_iff {s : Text} : Plain strict (Json.escape s) ↔ Plain strict s := by
  have hunit : ∀ u t, (Plain strict (Json.escape t) ↔ Plain strict t) →
      (Plain strict (Json.escapeUnit u ++ Json.escape t) ↔ Plain strict (u :: t)) := by
    intro u t ht
    rcases escapeUnit_cases u with hraw | ⟨hu, w, hw, hinert⟩
    · rw [hraw, List.singleton_append, plain_cons, plain_cons, startsEscape_escape, ht]
    · have hslash : Inert (unit '\\') := by decide
      rw [hw, List.cons_append, plain_inert_cons hslash, plain_inert_append hinert, ht,
        plain_inert_cons hu.1]
  induction s using Json.escape.induct with
  | case1 => exact Iff.rfl
  | case2 u =>
      rw [Json.escape, ← List.append_nil (Json.escapeUnit u)]
      exact hunit u [] Iff.rfl
  | case3 u v t hpair ih =>
      have hu := isSurrogate_of_isHigh (Bool.and_eq_true_iff.mp hpair).1
      have hv := isSurrogate_of_isLow (Bool.and_eq_true_iff.mp hpair).2
      rw [Json.escape, if_pos hpair, plain_inert_cons (neutral_of_escaped (Or.inr hu)).1,
        plain_inert_cons (neutral_of_escaped (Or.inr hv)).1,
        plain_inert_cons (neutral_of_escaped (Or.inr hu)).1,
        plain_inert_cons (neutral_of_escaped (Or.inr hv)).1]
      exact ih
  | case4 u v t hpair ih =>
      rw [Json.escape, if_neg hpair]
      exact hunit u (v :: t) ih

theorem plain_quote_iff {s : Text} : Plain strict (Json.quote s) ↔ Plain strict s := by
  have hneutral : Neutral (unit '"') := by decide
  rw [Json.quote, plain_inert_cons hneutral.1, plain_append_cons hneutral, plain_escape_iff]
  exact and_iff_left plain_nil

/-! ## Values -/

section Sequences

variable {close : CodeUnit}

theorem plain_append_afterItem (hclose : Neutral close) {x : Text} {xs : List Text} :
    Plain strict (x ++ Json.afterItem close xs) ↔
      Plain strict x ∧ ∀ y ∈ xs, Plain strict y := by
  induction xs generalizing x with
  | nil =>
      rw [Json.afterItem, plain_append_cons hclose, and_congr_right_iff]
      exact fun _ => ⟨fun _ y hy => absurd hy List.not_mem_nil, fun _ => plain_nil⟩
  | cons y xs ih =>
      have hcomma : Neutral (unit ',') := by decide
      rw [Json.afterItem, plain_append_cons hcomma, ih, List.forall_mem_cons]

theorem plain_items_iff (hclose : Neutral close) {xs : List Text} :
    Plain strict (Json.items close xs) ↔ ∀ x ∈ xs, Plain strict x := by
  cases xs with
  | nil =>
      rw [Json.items, plain_inert_cons hclose.1]
      exact ⟨fun _ y hy => absurd hy List.not_mem_nil, fun _ => plain_nil⟩
  | cons x xs => rw [Json.items, plain_append_afterItem hclose, List.forall_mem_cons]

end Sequences

theorem plain_stringifyMember_iff {m : Text × Json} :
    Plain strict (Json.stringifyMember m) ↔
      Plain strict m.1 ∧ Plain strict (Json.stringify m.2) := by
  have hcolon : Neutral (unit ':') := by decide
  rw [Json.stringifyMember, plain_append_cons hcolon, plain_quote_iff]

/-- The text of a value is plain exactly when every string, name and numeral in the value is. -/
theorem plain_stringify_iff {v : Json} :
    Plain strict (Json.stringify v) ↔ ∀ t, Json.Occurs t v → Plain strict t := by
  induction v with
  | null =>
      have hword : Plain strict (Json.stringify .null) :=
        plain_of_not_mem (by decide) (by decide) (by decide)
      refine ⟨fun _ t ht => ?_, fun _ => hword⟩
      cases ht
  | bool b =>
      have hword : Plain strict (Json.stringify (.bool b)) := by
        cases b with
        | false => exact plain_of_not_mem (by decide) (by decide) (by decide)
        | true => exact plain_of_not_mem (by decide) (by decide) (by decide)
      refine ⟨fun _ t ht => ?_, fun _ => hword⟩
      cases ht
  | num n =>
      refine ⟨fun h t ht => ?_, fun h => h n.text (Json.Occurs.num rfl)⟩
      cases ht with
      | num heq => exact heq ▸ h
  | str s =>
      rw [Json.stringify, plain_quote_iff]
      refine ⟨fun h t ht => ?_, fun h => h s Json.Occurs.str⟩
      cases ht
      exact h
  | arr vs ih =>
      -- the brackets and commas are inert, so only the items count
      have hopen : Inert (unit '[') := by decide
      rw [Json.stringify_arr, plain_inert_cons hopen, plain_items_iff (by decide),
        List.forall_mem_map]
      constructor
      · intro h t ht
        obtain ⟨v, hv, htv⟩ := Json.occurs_arr_iff.mp ht
        exact (ih v hv).mp (h v hv) t htv
      · intro h v hv
        exact (ih v hv).mpr fun t ht => h t (Json.Occurs.arr hv ht)
  | obj ms ih =>
      -- likewise, with a name and a value in each member
      have hopen : Inert (unit '{') := by decide
      rw [Json.stringify_obj, plain_inert_cons hopen, plain_items_iff (by decide),
        List.forall_mem_map]
      constructor
      · intro h t ht
        obtain ⟨m, hm, htm⟩ := Json.occurs_obj_iff.mp ht
        obtain ⟨hname, hvalue⟩ := plain_stringifyMember_iff.mp (h m hm)
        rcases htm with rfl | htm
        · exact hname
        · exact (ih m hm).mp hvalue t htm
      · intro h m hm
        refine plain_stringifyMember_iff.mpr ⟨h m.1 (Json.Occurs.name hm), ?_⟩
        exact (ih m hm).mpr fun t ht => h t (Json.Occurs.member hm ht)

end Form

end Siebog.Lib
