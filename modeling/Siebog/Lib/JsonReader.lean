import Siebog.Lib.Json

/-!
# Reading JSON text

The reader returns a value and the unread rest of the text. Fuel bounds the nesting and the number
of items of a sequence; the length of the text is enough of it. An object keeps every member it
reads: where a name is repeated, a later member overrides an earlier one when the name is looked up.

`Reads item w a` says that `item` reads exactly `w` and returns `a`, whatever follows it in a text.
`parse_stringify`: reading the text of a value gives the value back.
-/

set_option autoImplicit false

namespace Siebog.Lib.Json

open Siebog.Lib.Utf16

/-- A reader: a value and the unread rest of the text, or failure. -/
abbrev Reader (α : Type) := Text → Option (α × Text)

/-- Insignificant whitespace. -/
def isSpace (u : CodeUnit) : Bool := u == 0x20 || u == 0x09 || u == 0x0A || u == 0x0D

/-- The text from its first unit that is no whitespace. -/
def skip (t : Text) : Text := t.dropWhile isSpace

/-! ## Strings and numbers -/

/-- The unit that a short escape stands for. -/
def unescape (e : CodeUnit) : Option CodeUnit :=
  if e = unit '"' then some (unit '"')
  else if e = unit '\\' then some (unit '\\')
  else if e = unit '/' then some (unit '/')
  else if e = unit 'b' then some 0x08
  else if e = unit 't' then some 0x09
  else if e = unit 'n' then some 0x0A
  else if e = unit 'f' then some 0x0C
  else if e = unit 'r' then some 0x0D
  else none

/-- The unit that four hexadecimal digits stand for. -/
def hexUnit (a b c d : CodeUnit) : Option CodeUnit :=
  match hexValue a, hexValue b, hexValue c, hexValue d with
  | some a, some b, some c, some d => some (UInt16.ofNat (4096 * a + 256 * b + 16 * c + d))
  | _, _, _, _ => none

/-- One more unit in front of a string that was read. -/
def prepend (u : CodeUnit) (r : Text × Text) : Text × Text := (u :: r.1, r.2)

/-- The rest of a string, from after its opening quote. -/
def readString : Reader Text
  | [] => none
  | u :: t =>
    if u = unit '"' then some ([], t)
    else if u = unit '\\' then
      match t with
      | [] => none
      | e :: r =>
        if e = unit 'u' then
          match r with
          | a :: b :: c :: d :: r' =>
            match hexUnit a b c d with
            | some v => (readString r').map (prepend v)
            | none => none
          | _ => none
        else
          match unescape e with
          | some v => (readString r).map (prepend v)
          | none => none
    -- a control character has to be escaped
    else if u < 0x20 then none
    else (readString t).map (prepend u)

/-- The longest run of units that occur in numerals, if it is a numeral. -/
def readNumber : Reader Json := fun t =>
  if h : isNumeral (t.takeWhile isNumberUnit) = true then
    some (.num ⟨t.takeWhile isNumberUnit, h⟩, t.dropWhile isNumberUnit)
  else none

/-- The word `w`, which stands for `v`. -/
def readWord (w : Text) (v : Json) : Reader Json := fun t =>
  if w.isPrefixOf t then some (v, t.drop w.length) else none

/-- A word or a number. -/
def readAtom : Reader Json := fun t =>
  readWord (text "null") .null t <|> readWord (text "true") (.bool true) t <|>
    readWord (text "false") (.bool false) t <|> readNumber t

/-! ## Sequences and values -/

section Sequences

variable {α : Type} (item : Reader α) (close : CodeUnit)

/-- The items after the first. -/
def readAfter : ℕ → Reader (List α)
  | 0, _ => none
  | n + 1, t =>
    match skip t with
    | [] => none
    | u :: r =>
      if u = close then some ([], r)
      else if u = unit ',' then
        (item r).bind fun x => (readAfter n x.2).map fun xs => (x.1 :: xs.1, xs.2)
      else none

/-- The items of a sequence, from after its opening bracket. -/
def readItems (n : ℕ) : Reader (List α) := fun t =>
  match skip t with
  | [] => none
  | u :: r =>
    if u = close then some ([], r)
    else (item t).bind fun x => (readAfter item close n x.2).map fun xs => (x.1 :: xs.1, xs.2)

end Sequences

/-- The colon of a member and its value. -/
def readMemberValue (value : Reader Json) (k : Text) : Reader (Text × Json) := fun t =>
  match skip t with
  | [] => none
  | u :: r => if u = unit ':' then (value r).map fun v => ((k, v.1), v.2) else none

/-- A member of an object: its name, a colon and its value. -/
def readMember (value : Reader Json) : Reader (Text × Json) := fun t =>
  match skip t with
  | [] => none
  | u :: r =>
    if u = unit '"' then (readString r).bind fun k => readMemberValue value k.1 k.2 else none

/-- A value, with fuel for its nesting and for the items of each sequence in it. -/
def readValue : ℕ → Reader Json
  | 0, _ => none
  | n + 1, t =>
    match skip t with
    | [] => none
    | u :: r =>
      if u = unit '"' then (readString r).map fun s => (.str s.1, s.2)
      else if u = unit '[' then
        (readItems (readValue n) (unit ']') n r).map fun vs => (.arr vs.1, vs.2)
      else if u = unit '{' then
        (readItems (readMember (readValue n)) (unit '}') n r).map fun ms => (.obj ms.1, ms.2)
      else readAtom (u :: r)

/-- The value of a whole text, or failure. -/
def parse (t : Text) : Option Json :=
  match readValue (t.length + 1) t with
  | some (v, r) => if skip r = [] then some v else none
  | none => none

/-! ## Reading a string back -/

/-- A unit is read back from its four hexadecimal digits. -/
theorem hexUnit_digits (u : CodeUnit) :
    hexUnit (hexDigit (u.toNat / 4096)) (hexDigit (u.toNat / 256 % 16))
      (hexDigit (u.toNat / 16 % 16)) (hexDigit (u.toNat % 16)) = some u := by
  have hlt : u.toNat < 65536 := u.toNat_lt
  have hsum : 4096 * (u.toNat / 4096) + 256 * (u.toNat / 256 % 16) + 16 * (u.toNat / 16 % 16)
      + u.toNat % 16 = u.toNat := by omega
  rw [hexUnit, hexValue_hexDigit _ (by omega), hexValue_hexDigit _ (by omega),
    hexValue_hexDigit _ (by omega), hexValue_hexDigit _ (by omega)]
  simp only [hsum, UInt16.ofNat_toNat]

/-- A unit that needs no escape. -/
theorem readString_cons {u : CodeUnit} (hquote : u ≠ unit '"') (hslash : u ≠ unit '\\')
    (hcontrol : ¬ u < 0x20) (t : Text) :
    readString (u :: t) = (readString t).map (prepend u) := by
  rw [readString.eq_def]
  simp only [hquote, hslash, hcontrol, if_false]

/-- A short escape is read as the unit it stands for. -/
theorem readString_short {e v : CodeUnit} (he : e ≠ unit 'u') (hv : unescape e = some v)
    (t : Text) : readString (unit '\\' :: e :: t) = (readString t).map (prepend v) := by
  have hslash : unit '\\' ≠ unit '"' := by decide
  rw [readString.eq_def]
  simp only [hslash, he, hv, if_false, if_true]

/-- A numeric escape is read as the unit it stands for. -/
theorem readString_unicodeEscape (u : CodeUnit) (t : Text) :
    readString (unicodeEscape u ++ t) = (readString t).map (prepend u) := by
  have hslash : unit '\\' ≠ unit '"' := by decide
  rw [unicodeEscape, readString.eq_def]
  simp only [List.cons_append, List.nil_append, hslash, if_false, if_true, hexUnit_digits]

/-- However a unit is written, it is read back. -/
theorem readString_escapeUnit (u : CodeUnit) (t : Text) :
    readString (escapeUnit u ++ t) = (readString t).map (prepend u) := by
  have hof := escapeOf_escapeUnit u
  generalize escapeUnit u = w at hof
  cases hof with
  | short he =>
      cases he with
      | quote | backslash | backspace | tab | newline | formFeed | carriageReturn =>
          exact readString_short (by decide) rfl t
  | numeric => exact readString_unicodeEscape u t
  | plain hquote hslash hcontrol => exact readString_cons hquote hslash hcontrol t

/-- A surrogate is written without an escape when its partner stands next to it. -/
theorem readString_surrogate {u : CodeUnit} (hu : isSurrogate u = true) (t : Text) :
    readString (u :: t) = (readString t).map (prepend u) := by
  have hquote : u ≠ unit '"' := by
    rintro rfl
    exact absurd hu (by decide)
  have hslash : u ≠ unit '\\' := by
    rintro rfl
    exact absurd hu (by decide)
  have hcontrol : ¬ u < 0x20 := by
    intro hlt
    simp only [isSurrogate, isHigh, isLow, UInt16.le_iff_toNat_le, UInt16.reduceToNat,
      Bool.or_eq_true, Bool.and_eq_true, decide_eq_true_eq] at hu
    simp only [UInt16.lt_iff_toNat_lt, UInt16.reduceToNat] at hlt
    omega
  exact readString_cons hquote hslash hcontrol t

/-- A quote ends the string. -/
theorem readString_quote (t : Text) : readString (unit '"' :: t) = some ([], t) := by
  rw [readString.eq_def]
  simp only [if_true]

/-- A string is read back from its text between the quotes. -/
theorem readString_escape (s t : Text) : readString (escape s ++ unit '"' :: t) = some (s, t) := by
  induction s using escape.induct with
  | case1 => exact readString_quote t
  | case2 u =>
      rw [escape, readString_escapeUnit, readString_quote]
      rfl
  | case3 u v s hpair ih =>
      have hboth := Bool.and_eq_true_iff.mp hpair
      have hu := isSurrogate_of_isHigh hboth.1
      have hv := isSurrogate_of_isLow hboth.2
      rw [escape, if_pos hpair, List.cons_append, List.cons_append, readString_surrogate hu,
        readString_surrogate hv, ih]
      rfl
  | case4 u v s hpair ih =>
      rw [escape, if_neg hpair, List.append_assoc, readString_escapeUnit, ih]
      rfl

/-! ## Reading a sequence back -/

/-- `rest` does not go on with a unit that occurs in numerals. -/
def Ends (rest : Text) : Prop := ∀ u ∈ rest.head?, isNumberUnit u = false

/-- `item` reads exactly `w` before any `rest` and returns `a`. -/
def Reads {α : Type} (item : Reader α) (w : Text) (a : α) : Prop :=
  ∀ rest, Ends rest → item (w ++ rest) = some (a, rest)

/-- A text that starts an item: neither whitespace nor a closing bracket. -/
def Starts (w : Text) : Prop :=
  ∃ u t, w = u :: t ∧ isSpace u = false ∧ u ≠ unit ']' ∧ u ≠ unit '}'

/-- Nothing is skipped before a unit that is no whitespace. -/
theorem skip_cons {u : CodeUnit} (hu : isSpace u = false) (t : Text) : skip (u :: t) = u :: t := by
  rw [skip, List.dropWhile_cons, hu]
  rfl

/-- A numeral ends before a unit that occurs in none. -/
theorem ends_cons {u : CodeUnit} (hu : isNumberUnit u = false) (t : Text) : Ends (u :: t) := by
  intro v hv
  rw [List.head?_cons, Option.mem_some_iff] at hv
  rw [← hv, hu]

/-- A closing bracket. -/
def Closes (close : CodeUnit) : Prop := close = unit ']' ∨ close = unit '}'

section Sequences

variable {α : Type} {item : Reader α} {close : CodeUnit} {write : α → Text}

theorem Closes.isSpace (hclose : Closes close) : isSpace close = false := by
  rcases hclose with rfl | rfl
  · decide
  · decide

theorem Closes.comma_ne (hclose : Closes close) : unit ',' ≠ close := by
  rcases hclose with rfl | rfl
  · decide
  · decide

/-- A numeral ends where the next item or the closing bracket begins. -/
theorem Closes.ends_afterItem (hclose : Closes close) (xs : List Text) (rest : Text) :
    Ends (afterItem close xs ++ rest) := by
  cases xs with
  | nil =>
      rcases hclose with rfl | rfl
      · exact ends_cons (by decide) rest
      · exact ends_cons (by decide) rest
  | cons x xs => exact ends_cons (by decide) _

/-- The items after the first are read back, by induction on them. -/
theorem readAfter_afterItem (hclose : Closes close) {xs : List α}
    (hxs : ∀ x ∈ xs, Reads item (write x) x) {n : ℕ}
    (hn : (afterItem close (xs.map write)).length ≤ n) (rest : Text) :
    readAfter item close n (afterItem close (xs.map write) ++ rest) = some (xs, rest) := by
  induction xs generalizing n with
  | nil =>
      cases n with
      | zero => simp [afterItem] at hn
      | succ n =>
          rw [List.map_nil, afterItem, List.cons_append, readAfter, skip_cons hclose.isSpace]
          simp only [if_true, List.nil_append]
  | cons x xs ih =>
      cases n with
      | zero => simp [afterItem] at hn
      | succ n =>
          have hlength : (afterItem close (xs.map write)).length ≤ n := by
            simp only [List.map_cons, afterItem, List.length_cons, List.length_append] at hn
            omega
          have hitem := hxs x List.mem_cons_self _ (hclose.ends_afterItem (xs.map write) rest)
          have htail := ih (fun y hy => hxs y (List.mem_cons_of_mem x hy)) hlength
          rw [List.map_cons, afterItem, List.cons_append, readAfter,
            skip_cons (u := unit ',') (by decide), List.append_assoc]
          simp only [hclose.comma_ne, if_false, if_true, hitem, Option.bind_some, htail,
            Option.map_some]

/-- The items of a sequence are read back, if each of them is. -/
theorem readItems_items (hclose : Closes close) {xs : List α}
    (hxs : ∀ x ∈ xs, Reads item (write x) x) (hstarts : ∀ x ∈ xs, Starts (write x)) {n : ℕ}
    (hn : (items close (xs.map write)).length ≤ n) (rest : Text) :
    readItems item close n (items close (xs.map write) ++ rest) = some (xs, rest) := by
  cases xs with
  | nil =>
      rw [List.map_nil, items, List.cons_append, readItems, skip_cons hclose.isSpace]
      simp only [if_true, List.nil_append]
  | cons x xs =>
      have hlength : (afterItem close (xs.map write)).length ≤ n := by
        simp only [List.map_cons, items, List.length_append] at hn
        omega
      have hitem := hxs x List.mem_cons_self _ (hclose.ends_afterItem (xs.map write) rest)
      have htail := readAfter_afterItem hclose (fun y hy => hxs y (List.mem_cons_of_mem x hy))
        hlength rest
      obtain ⟨u, t, hwrite, hspace, hsquare, hcurly⟩ := hstarts x List.mem_cons_self
      have hne : u ≠ close := by
        rcases hclose with rfl | rfl
        · exact hsquare
        · exact hcurly
      rw [hwrite] at hitem
      rw [List.map_cons, items, List.append_assoc, hwrite, List.cons_append, readItems,
        skip_cons hspace]
      rw [List.cons_append] at hitem
      simp only [hne, if_false, hitem, Option.bind_some, htail, Option.map_some]

end Sequences

/-- An item is shorter than the text it is in. -/
theorem length_lt_afterItem (close : CodeUnit) {xs : List Text} {x : Text} (hx : x ∈ xs) :
    x.length < (afterItem close xs).length := by
  induction xs with
  | nil => exact absurd hx List.not_mem_nil
  | cons y xs ih =>
      rw [afterItem, List.length_cons, List.length_append]
      rcases List.mem_cons.mp hx with rfl | htail
      · omega
      · have hlt := ih htail
        omega

theorem length_afterItem_pos (close : CodeUnit) (xs : List Text) :
    0 < (afterItem close xs).length := by
  cases xs with
  | nil => exact Nat.one_pos
  | cons x xs => exact Nat.succ_pos _

/-- An item is shorter than the text of its sequence, so the fuel for the sequence is enough for it.
-/
theorem length_lt_items (close : CodeUnit) {xs : List Text} {x : Text} (hx : x ∈ xs) :
    x.length < (items close xs).length := by
  cases xs with
  | nil => exact absurd hx List.not_mem_nil
  | cons y xs =>
      rw [items, List.length_append]
      rcases List.mem_cons.mp hx with rfl | htail
      · have hpos := length_afterItem_pos close xs
        omega
      · have hlt := length_lt_afterItem close htail
        omega

/-! ## Reading a value back -/

/-- A unit of numerals starts neither a string, nor a sequence, nor a word. -/
theorem ne_of_isNumberUnit {u v : CodeUnit} (hu : isNumberUnit u = true)
    (hv : isNumberUnit v = false) : u ≠ v := by
  rintro rfl
  rw [hu] at hv
  exact absurd hv (by decide)

theorem isSpace_of_isNumberUnit {u : CodeUnit} (hu : isNumberUnit u = true) :
    isSpace u = false := by
  have hspace := ne_of_isNumberUnit (v := 0x20) hu (by decide)
  have htab := ne_of_isNumberUnit (v := 0x09) hu (by decide)
  have hline := ne_of_isNumberUnit (v := 0x0A) hu (by decide)
  have hreturn := ne_of_isNumberUnit (v := 0x0D) hu (by decide)
  rw [isSpace, beq_false_of_ne hspace, beq_false_of_ne htab, beq_false_of_ne hline,
    beq_false_of_ne hreturn]
  rfl

/-- A numeral starts with one of its units. -/
theorem Numeral.exists_cons (n : Numeral) :
    ∃ u t, n.text = u :: t ∧ isNumberUnit u = true := by
  obtain ⟨u, t, htext⟩ := List.exists_cons_of_ne_nil n.text_ne_nil
  have hmem : u ∈ n.text := by
    rw [htext]
    exact List.mem_cons_self
  exact ⟨u, t, htext, n.isNumberUnit_of_mem u hmem⟩

/-- The text of a value starts with neither whitespace nor a closing bracket. -/
theorem starts_stringify (v : Json) : Starts (stringify v) := by
  cases v with
  | null => exact ⟨unit 'n', text "ull", rfl, by decide, by decide, by decide⟩
  | bool b =>
      cases b with
      | true => exact ⟨unit 't', text "rue", rfl, by decide, by decide, by decide⟩
      | false => exact ⟨unit 'f', text "alse", rfl, by decide, by decide, by decide⟩
  | num n =>
      obtain ⟨u, t, htext, hu⟩ := n.exists_cons
      exact ⟨u, t, htext, isSpace_of_isNumberUnit hu, ne_of_isNumberUnit hu (by decide),
        ne_of_isNumberUnit hu (by decide)⟩
  | str s => exact ⟨unit '"', _, rfl, by decide, by decide, by decide⟩
  | arr vs => exact ⟨unit '[', _, rfl, by decide, by decide, by decide⟩
  | obj ms => exact ⟨unit '{', _, rfl, by decide, by decide, by decide⟩

theorem starts_stringifyMember (m : Text × Json) : Starts (stringifyMember m) :=
  ⟨unit '"', _, rfl, by decide, by decide, by decide⟩

/-- A word is read back. -/
theorem readWord_append (w : Text) (v : Json) (rest : Text) :
    readWord w v (w ++ rest) = some (v, rest) := by
  have hprefix : w.isPrefixOf (w ++ rest) = true :=
    List.isPrefixOf_iff_prefix.mpr (List.prefix_append w rest)
  rw [readWord, if_pos hprefix, List.drop_left]

/-- A word is not read from a text that starts with another unit. -/
theorem readWord_of_ne {c u : CodeUnit} (hne : c ≠ u) (w : Text) (v : Json) (t : Text) :
    readWord (c :: w) v (u :: t) = none := by
  rw [readWord, List.isPrefixOf_cons_cons, beq_false_of_ne hne]
  rfl

/-- A numeral is read back up to its end. -/
theorem readNumber_append (n : Numeral) {rest : Text} (hrest : Ends rest) :
    readNumber (n.text ++ rest) = some (.num n, rest) := by
  have hend : rest.takeWhile isNumberUnit = [] ∧ rest.dropWhile isNumberUnit = rest := by
    cases rest with
    | nil => exact ⟨rfl, rfl⟩
    | cons u t =>
        have hu : isNumberUnit u = false := hrest u rfl
        rw [List.takeWhile_cons, List.dropWhile_cons, hu]
        exact ⟨rfl, rfl⟩
  have htake : (n.text ++ rest).takeWhile isNumberUnit = n.text := by
    rw [List.takeWhile_append_of_pos n.isNumberUnit_of_mem, hend.1, List.append_nil]
  have hdrop : (n.text ++ rest).dropWhile isNumberUnit = rest := by
    rw [List.dropWhile_append_of_pos n.isNumberUnit_of_mem, hend.2]
  simp only [readNumber, htake, hdrop, n.valid, dif_pos]

theorem readAtom_null (rest : Text) : readAtom (text "null" ++ rest) = some (.null, rest) := by
  rw [readAtom, readWord_append]
  rfl

theorem readAtom_true (rest : Text) :
    readAtom (text "true" ++ rest) = some (.bool true, rest) := by
  have hnull : readWord (text "null") .null (text "true" ++ rest) = none :=
    readWord_of_ne (by decide) _ _ _
  rw [readAtom, hnull, readWord_append]
  rfl

theorem readAtom_false (rest : Text) :
    readAtom (text "false" ++ rest) = some (.bool false, rest) := by
  have hnull : readWord (text "null") .null (text "false" ++ rest) = none :=
    readWord_of_ne (by decide) _ _ _
  have htrue : readWord (text "true") (.bool true) (text "false" ++ rest) = none :=
    readWord_of_ne (by decide) _ _ _
  rw [readAtom, hnull, htrue, readWord_append]
  rfl

/-- A numeral is taken for none of the words. -/
theorem readAtom_num (n : Numeral) {rest : Text} (hrest : Ends rest) :
    readAtom (n.text ++ rest) = some (.num n, rest) := by
  obtain ⟨u, t, htext, hu⟩ := n.exists_cons
  have hword : ∀ (c : CodeUnit) (w : Text) (v : Json), isNumberUnit c = false →
      readWord (c :: w) v (n.text ++ rest) = none := by
    intro c w v hc
    rw [htext, List.cons_append]
    exact readWord_of_ne (ne_of_isNumberUnit hu hc).symm w v (t ++ rest)
  have hnull : readWord (text "null") .null (n.text ++ rest) = none := hword _ _ _ (by decide)
  have htrue : readWord (text "true") (.bool true) (n.text ++ rest) = none :=
    hword _ _ _ (by decide)
  have hfalse : readWord (text "false") (.bool false) (n.text ++ rest) = none :=
    hword _ _ _ (by decide)
  rw [readAtom, hnull, htrue, hfalse, readNumber_append n hrest]
  rfl

/-- A text that starts neither a string nor a sequence is read as a word or a number. -/
theorem readValue_of_ne {u : CodeUnit} (hspace : isSpace u = false) (hstr : u ≠ unit '"')
    (harr : u ≠ unit '[') (hobj : u ≠ unit '{') (n : ℕ) (t : Text) :
    readValue (n + 1) (u :: t) = readAtom (u :: t) := by
  rw [readValue, skip_cons hspace]
  simp only [hstr, harr, hobj, if_false]

/-- A text that starts like a word is read as an atom. -/
theorem readValue_word {c : CodeUnit} (hc : c = unit 'n' ∨ c = unit 't' ∨ c = unit 'f') (n : ℕ)
    (t : Text) : readValue (n + 1) (c :: t) = readAtom (c :: t) := by
  rcases hc with rfl | rfl | rfl
  · exact readValue_of_ne (by decide) (by decide) (by decide) (by decide) n t
  · exact readValue_of_ne (by decide) (by decide) (by decide) (by decide) n t
  · exact readValue_of_ne (by decide) (by decide) (by decide) (by decide) n t

/-- A number is read back. -/
theorem readValue_num (m : Numeral) (n : ℕ) {rest : Text} (hrest : Ends rest) :
    readValue (n + 1) (m.text ++ rest) = some (.num m, rest) := by
  obtain ⟨u, t, htext, hu⟩ := m.exists_cons
  have hatom := readAtom_num m hrest
  rw [htext, List.cons_append] at hatom ⊢
  rw [readValue_of_ne (isSpace_of_isNumberUnit hu) (ne_of_isNumberUnit hu (by decide))
    (ne_of_isNumberUnit hu (by decide)) (ne_of_isNumberUnit hu (by decide)), hatom]

/-- A string is read back. -/
theorem readValue_str (s : Text) (n : ℕ) (rest : Text) :
    readValue (n + 1) (quote s ++ rest) = some (.str s, rest) := by
  rw [quote, List.cons_append, List.append_assoc, readValue, skip_cons (by decide)]
  simp only [if_true, List.cons_append, List.nil_append, readString_escape, Option.map_some]

/-- A member is read back if its value is. -/
theorem reads_member {value : Reader Json} {m : Text × Json}
    (hvalue : Reads value (stringify m.2) m.2) :
    Reads (readMember value) (stringifyMember m) m := by
  intro rest hrest
  have hcolon : readMemberValue value m.1 (unit ':' :: (stringify m.2 ++ rest)) =
      some (m, rest) := by
    rw [readMemberValue, skip_cons (by decide)]
    simp only [if_true, hvalue rest hrest, Option.map_some]
  rw [stringifyMember, quote, List.append_assoc, List.cons_append, List.append_assoc, readMember,
    skip_cons (by decide)]
  simp only [if_true, List.cons_append, List.nil_append, readString_escape, Option.bind_some,
    hcolon]

/-- `v` is read back with enough fuel for its text. -/
def ReadsBack (v : Json) : Prop :=
  ∀ n, (stringify v).length < n → Reads (readValue n) (stringify v) v

/-- An array is read back if its items are. -/
theorem readsBack_arr {vs : List Json} (hvs : ∀ v ∈ vs, ReadsBack v) : ReadsBack (.arr vs) := by
  intro n hn rest _
  cases n with
  | zero => exact absurd hn (Nat.not_lt_zero _)
  | succ n =>
      rw [stringify_arr, List.length_cons] at hn
      have hitem : ∀ v ∈ vs, Reads (readValue n) (stringify v) v := by
        intro v hv
        have hlt := length_lt_items (unit ']') (List.mem_map_of_mem (f := stringify) hv)
        exact hvs v hv n (by omega)
      have hitems := readItems_items (Or.inl rfl) hitem (fun v _ => starts_stringify v)
        (n := n) (by omega) rest
      have hstr : unit '[' ≠ unit '"' := by decide
      rw [stringify_arr, List.cons_append, readValue, skip_cons (by decide)]
      simp only [hstr, if_false, if_true, hitems, Option.map_some]

/-- An object is read back if the values of its members are. -/
theorem readsBack_obj {ms : List (Text × Json)} (hms : ∀ m ∈ ms, ReadsBack m.2) :
    ReadsBack (.obj ms) := by
  intro n hn rest _
  cases n with
  | zero => exact absurd hn (Nat.not_lt_zero _)
  | succ n =>
      rw [stringify_obj, List.length_cons] at hn
      have hitem : ∀ m ∈ ms, Reads (readMember (readValue n)) (stringifyMember m) m := by
        intro m hm
        have hlt := length_lt_items (unit '}') (List.mem_map_of_mem (f := stringifyMember) hm)
        rw [stringifyMember, List.length_append, List.length_cons] at hlt
        exact reads_member (hms m hm n (by omega))
      have hitems := readItems_items (Or.inr rfl) hitem (fun m _ => starts_stringifyMember m)
        (n := n) (by omega) rest
      have hstr : unit '{' ≠ unit '"' := by decide
      have harr : unit '{' ≠ unit '[' := by decide
      rw [stringify_obj, List.cons_append, readValue, skip_cons (by decide)]
      simp only [hstr, harr, if_false, if_true, hitems, Option.map_some]

/-- A value that is read back with any positive fuel. -/
theorem readsBack_of_succ {v : Json}
    (hv : ∀ n rest, Ends rest → readValue (n + 1) (stringify v ++ rest) = some (v, rest)) :
    ReadsBack v := by
  intro n hn rest hrest
  cases n with
  | zero => exact absurd hn (Nat.not_lt_zero _)
  | succ n => exact hv n rest hrest

/-- Every value is read back, by induction on it. -/
theorem readsBack (v : Json) : ReadsBack v := by
  induction v with
  | null =>
      apply readsBack_of_succ
      intro n rest _
      exact (readValue_word (Or.inl rfl) n _).trans (readAtom_null rest)
  | bool b =>
      apply readsBack_of_succ
      intro n rest _
      cases b with
      | true => exact (readValue_word (Or.inr (Or.inl rfl)) n _).trans (readAtom_true rest)
      | false => exact (readValue_word (Or.inr (Or.inr rfl)) n _).trans (readAtom_false rest)
  | num m => exact readsBack_of_succ fun n rest hrest => readValue_num m n hrest
  | str s => exact readsBack_of_succ fun n rest _ => readValue_str s n rest
  | arr vs ih => exact readsBack_arr ih
  | obj ms ih => exact readsBack_obj ih

/-- Reading the text of a value gives the value back. -/
theorem parse_stringify (v : Json) : parse (stringify v) = some v := by
  have hend : Ends [] := by
    intro u hu
    cases hu
  have hread := readsBack v ((stringify v).length + 1) (Nat.lt_succ_self _) [] hend
  rw [List.append_nil] at hread
  rw [parse, hread]
  rfl

end Siebog.Lib.Json
