import Siebog.Lib.Utf16
import Mathlib.Data.List.Basic
import Mathlib.Data.List.Infix

/-!
# Decoding of form bodies

A body of type `application/x-www-form-urlencoded` is split at every `&`, each field at its first
`=`; in names and values `+` stands for a space and `%XX` for a byte. A run of escaped bytes is
decoded as UTF-8. An escape that lacks its two hexadecimal digits is an error for a strict decoder
and two or three ordinary units for a lenient one; everything here holds of both.

A value written into a body without encoding it comes out unchanged exactly when it is `Plain`
(`lookup_params_iff`).
-/

set_option autoImplicit false

namespace Siebog.Lib.Form

open Siebog.Lib.Utf16

/-! ## UTF-8 -/

/-- A character of which some bytes are read: how many are to come, the bits so far, and the
bounds on the next byte. -/
structure Pending where
  more : ℕ
  bits : ℕ
  low : ℕ
  high : ℕ

/-- The code units of a code point. -/
def codePoint (c : ℕ) : Text :=
  if c < 0x10000 then [UInt16.ofNat c]
  else
    [UInt16.ofNat (0xD800 + (c - 0x10000) / 0x400), UInt16.ofNat (0xDC00 + (c - 0x10000) % 0x400)]

/-- A byte between two characters. -/
def leadByte (b : ℕ) : Text × Option Pending :=
  if b < 0x80 then ([UInt16.ofNat b], none)
  else if 0xC2 ≤ b ∧ b ≤ 0xDF then ([], some ⟨1, b - 0xC0, 0x80, 0xBF⟩)
  else if b = 0xE0 then ([], some ⟨2, 0, 0xA0, 0xBF⟩)
  else if b = 0xED then ([], some ⟨2, 0xD, 0x80, 0x9F⟩)
  else if 0xE1 ≤ b ∧ b ≤ 0xEF then ([], some ⟨2, b - 0xE0, 0x80, 0xBF⟩)
  else if b = 0xF0 then ([], some ⟨3, 0, 0x90, 0xBF⟩)
  else if 0xF1 ≤ b ∧ b ≤ 0xF3 then ([], some ⟨3, b - 0xF0, 0x80, 0xBF⟩)
  else if b = 0xF4 then ([], some ⟨3, 4, 0x80, 0x8F⟩)
  else ([replacement], none)

/-- A byte that the pending character does not allow ends it with U+FFFD and starts another. -/
def nextByte (p : Option Pending) (b : ℕ) : Text × Option Pending :=
  match p with
  | none => leadByte b
  | some p =>
    if p.low ≤ b ∧ b ≤ p.high then
      let bits := 64 * p.bits + (b - 0x80)
      if p.more ≤ 1 then (codePoint bits, none) else ([], some ⟨p.more - 1, bits, 0x80, 0xBF⟩)
    else (replacement :: (leadByte b).1, (leadByte b).2)

def decodeBytes (p : Option Pending) : List UInt8 → Text
  | [] => if p.isSome then [replacement] else []
  | b :: bs => (nextByte p b.toNat).1 ++ decodeBytes (nextByte p b.toNat).2 bs

/-- UTF-8 with U+FFFD for what is malformed. -/
def utf8 (bs : List UInt8) : Text := decodeBytes none bs

/-- A pending character has been paid for by one byte. -/
def credit (p : Option Pending) : ℕ := if p.isSome then 1 else 0

/-- A character is two units at most. -/
theorem length_codePoint_le (c : ℕ) : (codePoint c).length ≤ 2 := by
  unfold codePoint
  split
  · exact Nat.le_succ 1
  · exact Nat.le_refl 2

/-- A first byte makes a unit, or room for one. -/
theorem length_leadByte (b : ℕ) : (leadByte b).1.length + credit (leadByte b).2 = 1 := by
  unfold leadByte
  split_ifs
  all_goals rfl

/-- A byte makes no more units than it adds room for. -/
theorem length_nextByte_le (p : Option Pending) (b : ℕ) :
    (nextByte p b).1.length + credit (nextByte p b).2 ≤ credit p + 1 := by
  have hlead := length_leadByte b
  have hnone : credit none = 0 := rfl
  have hsome : ∀ q, credit (some q) = 1 := fun _ => rfl
  cases p with
  | none =>
      rw [nextByte, hlead]
      omega
  | some p =>
      have hcode := length_codePoint_le (64 * p.bits + (b - 0x80))
      rw [nextByte, hsome]
      split_ifs with hbounds hmore
      · rw [hnone]
        omega
      · rw [hsome, List.length_nil]
        omega
      · show (leadByte b).1.length + 1 + credit (leadByte b).2 ≤ 1 + 1
        omega

/-- Decoding makes no more units than there are bytes. -/
theorem length_decodeBytes_le (p : Option Pending) (bs : List UInt8) :
    (decodeBytes p bs).length ≤ credit p + bs.length := by
  induction bs generalizing p with
  | nil => cases p <;> exact Nat.le_refl _
  | cons b bs ih =>
      have hstep := length_nextByte_le p b.toNat
      have htail := ih (nextByte p b.toNat).2
      rw [decodeBytes, List.length_append, List.length_cons]
      omega

/-- UTF-8 text has at most as many code units as bytes. -/
theorem length_utf8_le (bs : List UInt8) : (utf8 bs).length ≤ bs.length := by
  have h := length_decodeBytes_le none bs
  rwa [credit, Option.isSome_none, if_neg Bool.false_ne_true, Nat.zero_add] at h

/-! ## Percent decoding -/

/-- What a name or value consists of. -/
inductive Piece
  | unit (u : CodeUnit)
  | byte (b : UInt8)

/-- `+` stands for a space. -/
def plus (u : CodeUnit) : CodeUnit := if u = unit '+' then unit ' ' else u

/-- The byte that two units after a percent sign stand for. -/
def escapedByte (a b : CodeUnit) : Option UInt8 :=
  match hexValue a, hexValue b with
  | some x, some y => some (UInt8.ofNat (16 * x + y))
  | _, _ => none

def pieces (strict : Bool) : Text → Option (List Piece)
  | [] => some []
  | u :: t =>
    if u = unit '%' then
      match t with
      | a :: b :: r =>
        match escapedByte a b with
        | some x => (pieces strict r).map (.byte x :: ·)
        | none => if strict then none else (pieces strict (a :: b :: r)).map (.unit u :: ·)
      | r => if strict then none else (pieces strict r).map (.unit u :: ·)
    else (pieces strict t).map (.unit (plus u) :: ·)

/-- Runs of bytes as text between the units; `run` is the run so far. -/
def assemble (run : List UInt8) : List Piece → Text
  | [] => utf8 run
  | .byte b :: ps => assemble (run ++ [b]) ps
  | .unit u :: ps => utf8 run ++ u :: assemble [] ps

/-- A name or a value, decoded; `none` for an error of a strict decoder. -/
def decode (strict : Bool) (t : Text) : Option Text := (pieces strict t).map (assemble [])

/-- A percent sign before `t` starts an escape. -/
def startsEscape : Text → Bool
  | a :: b :: _ => (escapedByte a b).isSome
  | _ => false

/-- No percent sign of `t` is acted on: a strict decoder finds none, a lenient one none with two
hexadecimal digits after it. -/
def Literal (strict : Bool) (t : Text) : Prop :=
  ∀ r, unit '%' :: r <:+ t → strict = false ∧ startsEscape r = false

/-- A text is literal when no escape starts anywhere in it. -/
theorem literal_cons {strict : Bool} {u : CodeUnit} {t : Text} :
    Literal strict (u :: t) ↔
      (u = unit '%' → strict = false ∧ startsEscape t = false) ∧ Literal strict t := by
  constructor
  · intro h
    refine ⟨?_, fun r hr => h r (hr.trans (List.suffix_cons u t))⟩
    rintro rfl
    exact h t (List.suffix_refl _)
  · rintro ⟨hhead, htail⟩ r hr
    rcases List.suffix_cons_iff.mp hr with heq | hsuffix
    · obtain ⟨hu, rfl⟩ := List.cons.inj heq
      exact hhead hu.symm
    · exact htail r hsuffix

theorem literal_nil (strict : Bool) : Literal strict [] := by
  intro r hr
  exact absurd (List.suffix_nil.mp hr) (List.cons_ne_nil _ _)

/-- A unit that starts no escape is a piece. -/
theorem pieces_cons {strict : Bool} {u : CodeUnit} (hu : u ≠ unit '%') (t : Text) :
    pieces strict (u :: t) = (pieces strict t).map (.unit (plus u) :: ·) := by
  rw [pieces.eq_def]
  simp only [hu, if_false]

/-- An escape is a byte. -/
theorem pieces_escape {a b : CodeUnit} {x : UInt8} (hx : escapedByte a b = some x) (strict : Bool)
    (r : Text) :
    pieces strict (unit '%' :: a :: b :: r) = (pieces strict r).map (.byte x :: ·) := by
  rw [pieces.eq_def]
  simp only [if_true, hx]

/-- A malformed escape is an error, or a unit like any other. -/
theorem pieces_malformed {t : Text} (ht : startsEscape t = false) (strict : Bool) :
    pieces strict (unit '%' :: t) =
      if strict then none else (pieces strict t).map (.unit (unit '%') :: ·) := by
  rw [pieces.eq_def]
  match t with
  | [] => rfl
  | [a] => rfl
  | a :: b :: r =>
      rw [startsEscape, Option.isSome_eq_false_iff, Option.isNone_iff_eq_none] at ht
      simp only [if_true, ht]

/-- An escape has two hexadecimal digits. -/
theorem exists_of_startsEscape {t : Text} (ht : startsEscape t = true) :
    ∃ a b r x, t = a :: b :: r ∧ escapedByte a b = some x := by
  match t with
  | [] => exact absurd ht Bool.false_ne_true
  | [a] => exact absurd ht Bool.false_ne_true
  | a :: b :: r =>
      obtain ⟨x, hx⟩ := Option.isSome_iff_exists.mp ht
      exact ⟨a, b, r, x, rfl, hx⟩

/-- A text in which no percent sign is acted on is decoded unit by unit. -/
theorem pieces_of_literal {strict : Bool} {t : Text} (ht : Literal strict t) :
    pieces strict t = some (t.map fun u => .unit (plus u)) := by
  induction t with
  | nil => rfl
  | cons u t ih =>
      obtain ⟨hhead, htail⟩ := literal_cons.mp ht
      by_cases hu : u = unit '%'
      · obtain ⟨hlenient, hstart⟩ := hhead hu
        have hplus : plus (unit '%') = unit '%' := by decide
        rw [hu, pieces_malformed hstart, hlenient, if_neg Bool.false_ne_true, ← hlenient, ih htail,
          Option.map_some, List.map_cons, hplus]
      · rw [pieces_cons hu, ih htail, Option.map_some, List.map_cons]

/-- Every escape that is decoded makes the text shorter. -/
theorem length_pieces {strict : Bool} {t : Text} {ps : List Piece}
    (hps : pieces strict t = some ps) :
    ps.length ≤ t.length ∧ (ps.length = t.length → Literal strict t) := by
  induction hn : t.length using Nat.strong_induction_on generalizing t ps with
  | _ n ih =>
      subst hn
      cases t with
      | nil =>
          obtain rfl : [] = ps := Option.some.inj hps
          exact ⟨Nat.le_refl _, fun _ => literal_nil strict⟩
      | cons u t =>
          -- the two ways to read a single unit
          have hunit : ∀ v, (u = unit '%' → strict = false ∧ startsEscape t = false) →
              (pieces strict t).map (.unit v :: ·) = some ps →
              ps.length ≤ (u :: t).length ∧
                (ps.length = (u :: t).length → Literal strict (u :: t)) := by
            intro v hhead hmap
            obtain ⟨qs, hqs, rfl⟩ := Option.map_eq_some_iff.mp hmap
            obtain ⟨hle, hliteral⟩ := ih t.length (Nat.lt_succ_self _) hqs rfl
            refine ⟨Nat.succ_le_succ hle, fun heq => ?_⟩
            exact literal_cons.mpr ⟨hhead, hliteral (Nat.succ.inj heq)⟩
          by_cases hu : u = unit '%'
          · subst hu
            cases hstart : startsEscape t with
            | true =>
                obtain ⟨a, b, r, x, rfl, hx⟩ := exists_of_startsEscape hstart
                rw [pieces_escape hx, Option.map_eq_some_iff] at hps
                obtain ⟨qs, hqs, rfl⟩ := hps
                have hle := (ih r.length (by simp only [List.length_cons]; omega) hqs rfl).1
                simp only [List.length_cons]
                exact ⟨by omega, fun heq => by omega⟩
            | false =>
                rw [pieces_malformed hstart] at hps
                cases strict with
                | true => cases hps
                | false => exact hunit (unit '%') (fun _ => ⟨rfl, hstart⟩) hps
          · rw [pieces_cons hu] at hps
            exact hunit (plus u) (fun h => absurd h hu) hps

/-- Putting pieces together makes no text longer. -/
theorem length_assemble_le (run : List UInt8) (ps : List Piece) :
    (assemble run ps).length ≤ run.length + ps.length := by
  induction ps generalizing run with
  | nil => exact length_utf8_le run
  | cons p ps ih =>
      cases p with
      | byte b =>
          have htail := ih (run ++ [b])
          rw [List.length_append, List.length_singleton] at htail
          rw [assemble, List.length_cons]
          omega
      | unit u =>
          have hrun := length_utf8_le run
          have htail := ih []
          rw [List.length_nil] at htail
          rw [assemble, List.length_append, List.length_cons, List.length_cons]
          omega

/-- Units are put together as they are. -/
theorem assemble_units (t : Text) : assemble [] (t.map .unit) = t := by
  induction t with
  | nil => rfl
  | cons u t ih =>
      rw [List.map_cons, assemble, ih]
      rfl

/-- Decoding makes no text longer. -/
theorem length_decode_le {strict : Bool} {t d : Text} (hd : decode strict t = some d) :
    d.length ≤ t.length := by
  rw [decode, Option.map_eq_some_iff] at hd
  obtain ⟨ps, hps, rfl⟩ := hd
  have hassemble := length_assemble_le [] ps
  have hpieces := (length_pieces hps).1
  rw [List.length_nil] at hassemble
  omega

/-- A literal text is decoded to itself, but for its plus signs. -/
theorem decode_of_literal {strict : Bool} {t : Text} (ht : Literal strict t) :
    decode strict t = some (t.map plus) := by
  have hmap : (t.map fun u => Piece.unit (plus u)) = (t.map plus).map .unit := by
    rw [List.map_map]
    rfl
  rw [decode, pieces_of_literal ht, hmap, Option.map_some, assemble_units]

/-- Nothing is replaced in a text without plus signs. -/
theorem map_plus_eq_self_iff {t : Text} : t.map plus = t ↔ unit '+' ∉ t := by
  induction t with
  | nil => exact ⟨fun _ => List.not_mem_nil, fun _ => rfl⟩
  | cons u t ih =>
      have hhead : plus u = u ↔ unit '+' ≠ u := by
        unfold plus
        split_ifs with hu
        · subst hu
          decide
        · exact ⟨fun _ => Ne.symm hu, fun _ => rfl⟩
      rw [List.map_cons, List.cons.injEq, hhead, ih, List.mem_cons, not_or]

/-- Decoding leaves a text as it is exactly when it has no `+` and no escape. -/
theorem decode_eq_self_iff {strict : Bool} {t : Text} :
    decode strict t = some t ↔ unit '+' ∉ t ∧ Literal strict t := by
  constructor
  · intro hd
    have hliteral : Literal strict t := by
      obtain ⟨ps, hps, htext⟩ := Option.map_eq_some_iff.mp hd
      have hassemble := length_assemble_le [] ps
      rw [htext, List.length_nil, Nat.zero_add] at hassemble
      obtain ⟨hle, hliteral⟩ := length_pieces hps
      exact hliteral (Nat.le_antisymm hle hassemble)
    rw [decode_of_literal hliteral, Option.some.injEq, map_plus_eq_self_iff] at hd
    exact ⟨hd, hliteral⟩
  · rintro ⟨hplus, hliteral⟩
    rw [decode_of_literal hliteral, map_plus_eq_self_iff.mpr hplus]

/-! ## Fields -/

/-- The name and the value of a field. -/
def field (strict : Bool) (f : Text) : Option (Text × Text) :=
  (decode strict (f.takeWhile (· != unit '='))).bind fun k =>
    (decode strict ((f.dropWhile (· != unit '=')).drop 1)).map fun v => (k, v)

/-- The parameters of a body, in its order. -/
def params (strict : Bool) (body : Text) : Option (List (Text × Text)) :=
  (body.splitOn (unit '&')).mapM (field strict)

/-- The name of a field that the decoder takes as it stands. -/
def IsName (k : Text) : Prop :=
  ∀ u ∈ k, u ≠ unit '&' ∧ u ≠ unit '=' ∧ u ≠ unit '+' ∧ u ≠ unit '%'

instance (k : Text) : Decidable (IsName k) :=
  List.decidableBAll (fun u => u ≠ unit '&' ∧ u ≠ unit '=' ∧ u ≠ unit '+' ∧ u ≠ unit '%') k

/-- A value that means the same with and without form encoding. -/
structure Plain (strict : Bool) (t : Text) : Prop where
  no_separator : unit '&' ∉ t
  no_plus : unit '+' ∉ t
  literal : Literal strict t

/-- A text without percent signs is literal. -/
theorem literal_of_not_mem {t : Text} (ht : unit '%' ∉ t) (strict : Bool) : Literal strict t :=
  fun _ hr => absurd (hr.subset List.mem_cons_self) ht

/-- A text without the three signs is plain. -/
theorem plain_of_not_mem {strict : Bool} {t : Text} (hsep : unit '&' ∉ t) (hplus : unit '+' ∉ t)
    (hpercent : unit '%' ∉ t) : Plain strict t :=
  ⟨hsep, hplus, literal_of_not_mem hpercent strict⟩

/-- The name of a field ends at the equals sign. -/
theorem field_of_isName {k : Text} (hk : IsName k) (strict : Bool) (t : Text) :
    field strict (k ++ unit '=' :: t) = (decode strict t).map fun v => (k, v) := by
  have hne : ∀ u ∈ k, (u != unit '=') = true := fun u hu => bne_iff_ne.mpr (hk u hu).2.1
  have hself : (unit '=' != unit '=') = false := by decide
  have hname : decode strict k = some k := by
    refine decode_eq_self_iff.mpr ⟨fun hplus => (hk _ hplus).2.2.1 rfl, ?_⟩
    exact literal_of_not_mem (fun hpercent => (hk _ hpercent).2.2.2 rfl) strict
  have htake : (k ++ unit '=' :: t).takeWhile (· != unit '=') = k := by
    rw [List.takeWhile_append_of_pos hne, List.takeWhile_cons, hself]
    exact List.append_nil k
  have hdrop : (k ++ unit '=' :: t).dropWhile (· != unit '=') = unit '=' :: t := by
    rw [List.dropWhile_append_of_pos hne, List.dropWhile_cons, hself]
    rfl
  rw [field, htake, hdrop, hname, Option.bind_some, List.drop_one, List.tail_cons]

/-- The separator splits a body into bodies. -/
theorem params_append (strict : Bool) (s t : Text) :
    params strict (s ++ unit '&' :: t) =
      (params strict s).bind fun ps => (params strict t).map fun qs => ps ++ qs := by
  rw [params, List.splitOn_append_cons_self, List.mapM_append]
  simp only [Option.map_eq_bind]
  rfl

/-- A text without an ampersand is one field. -/
theorem params_single {f : Text} (hf : unit '&' ∉ f) (strict : Bool) :
    params strict f = (field strict f).map fun p => [p] := by
  rw [params, List.splitOn_eq_singleton hf]
  cases hfield : field strict f with
  | none => simp [hfield]
  | some p => simp [hfield]

/-- A field with a name and a value. -/
theorem params_of_isName {k t : Text} (hk : IsName k) (ht : unit '&' ∉ t) (strict : Bool) :
    params strict (k ++ unit '=' :: t) = (decode strict t).map fun v => [(k, v)] := by
  have hbody : unit '&' ∉ k ++ unit '=' :: t := by
    rw [List.mem_append, List.mem_cons, not_or, not_or]
    exact ⟨fun hmem => (hk _ hmem).1 rfl, by decide, ht⟩
  rw [params_single hbody, field_of_isName hk, Option.map_map]
  rfl

/-- A plain value arrives as it was. -/
theorem params_of_plain {strict : Bool} {k t : Text} (hk : IsName k) (ht : Plain strict t) :
    params strict (k ++ unit '=' :: t) = some [(k, t)] := by
  rw [params_of_isName hk ht.no_separator, decode_eq_self_iff.mpr ⟨ht.no_plus, ht.literal⟩]
  rfl

/-- The first field of a body ends at the first separator. -/
theorem params_first {strict : Bool} {k t : Text} {ps : List (Text × Text)} (hk : IsName k)
    (hps : params strict (k ++ unit '=' :: t) = some ps) :
    ∃ s d qs, s <+: t ∧ decode strict s = some d ∧ ps = (k, d) :: qs ∧
      (s.length = t.length → unit '&' ∉ t) := by
  by_cases hsep : unit '&' ∈ t
  · obtain ⟨s, r, rfl, hs⟩ := List.eq_append_cons_of_mem hsep
    rw [← List.cons_append, ← List.append_assoc, params_append, params_of_isName hk hs] at hps
    obtain ⟨_, hfirst, hrest⟩ := Option.bind_eq_some_iff.mp hps
    obtain ⟨d, hd, rfl⟩ := Option.map_eq_some_iff.mp hfirst
    obtain ⟨qs, -, rfl⟩ := Option.map_eq_some_iff.mp hrest
    refine ⟨s, d, qs, List.prefix_append s _, hd, rfl, fun hlength => ?_⟩
    rw [List.length_append, List.length_cons] at hlength
    omega
  · rw [params_of_isName hk hsep] at hps
    obtain ⟨d, hd, rfl⟩ := Option.map_eq_some_iff.mp hps
    exact ⟨t, d, [], List.prefix_refl t, hd, rfl, fun _ => hsep⟩

/-- A body that starts with a field of some name has a parameter of that name. -/
theorem exists_lookup {strict : Bool} {k t : Text} {ps : List (Text × Text)} (hk : IsName k)
    (hps : params strict (k ++ unit '=' :: t) = some ps) : ∃ v, ps.lookup k = some v := by
  obtain ⟨s, d, qs, -, -, rfl, -⟩ := params_first hk hps
  exact ⟨d, List.lookup_cons_self⟩

/-- A value that comes out unchanged was plain: a separator cuts it short, an escape makes it
shorter, and a `+` becomes a space. -/
theorem plain_of_lookup {strict : Bool} {k t : Text} {ps : List (Text × Text)} (hk : IsName k)
    (hps : params strict (k ++ unit '=' :: t) = some ps) (hlookup : ps.lookup k = some t) :
    Plain strict t := by
  obtain ⟨s, d, qs, hstart, hd, rfl, hsep⟩ := params_first hk hps
  rw [List.lookup_cons_self, Option.some.injEq] at hlookup
  subst hlookup
  have hlength : s.length = d.length := Nat.le_antisymm hstart.length_le (length_decode_le hd)
  rw [hstart.eq_of_length hlength] at hd
  obtain ⟨hplus, hliteral⟩ := decode_eq_self_iff.mp hd
  exact ⟨hsep hlength, hplus, hliteral⟩

/-- A value arrives as it was exactly when it is plain. -/
theorem lookup_params_iff {strict : Bool} {k t : Text} (hk : IsName k) :
    (∃ ps, params strict (k ++ unit '=' :: t) = some ps ∧ ps.lookup k = some t) ↔
      Plain strict t := by
  constructor
  · rintro ⟨ps, hps, hlookup⟩
    exact plain_of_lookup hk hps hlookup
  · intro ht
    exact ⟨_, params_of_plain hk ht, List.lookup_cons_self⟩

end Siebog.Lib.Form
