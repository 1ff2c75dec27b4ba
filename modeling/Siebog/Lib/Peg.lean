import Mathlib.Data.List.Basic

/-!
# Character parsers with committed choice

A parser reads a prefix of the unread characters and returns a value, or fails. Choice is
committed: `p <|> q` runs `q` on the same input, and only when `p` fails. The token parsers
`literal` and `regex` skip leading whitespace first, as parser libraries that recognise tokens with
regular expressions do; `Matcher` is the regular-expression part.

`Parses p w rest a` says that `p`, on the input `w ++ rest`, reads exactly `w` and returns `a`. It
is checked with the real continuation present, so a judgement about a sequence cannot split a
longest match. There is one rule for each combinator.
-/

set_option autoImplicit false

namespace Siebog.Lib.Peg

/-- The whitespace class `\s` of regular expressions. -/
def isSpace (c : Char) : Bool :=
  c == ' ' || c == '\t' || c == '\n' || c == '\x0b' || c == '\x0c' || c == '\x0d'

/-- A parser: a value and the unread rest of the input, or failure. -/
abbrev Parser (α : Type) := StateT (List Char) Option α

/-- The match of a regular expression at the start of the input, with the rest. -/
abbrev Matcher := List Char → Option (List Char × List Char)

/-- `[p]+`, greedy. -/
def oneOrMore (p : Char → Bool) : Matcher := fun inp =>
  match inp.takeWhile p with
  | [] => none
  | w => some (w, inp.dropWhile p)

/-- A token given by a regular expression, after optional whitespace. -/
def regex (m : Matcher) : Parser String := fun inp =>
  (m (inp.dropWhile isSpace)).map fun r => (String.ofList r.1, r.2)

/-- A literal token, after optional whitespace. -/
def literal (s : String) : Parser String := fun inp =>
  let start := inp.dropWhile isSpace
  -- no word boundary is required after the literal
  if s.toList.isPrefixOf start then some (s, start.drop s.toList.length) else none

/-- At most `n` repetitions of `p`, up to its first failure. -/
def repUpTo {α : Type} (p : Parser α) : Nat → List Char → List α × List Char
  | 0, inp => ([], inp)
  | n + 1, inp =>
    match p inp with
    | none => ([], inp)
    | some (a, rest) => (a :: (repUpTo p n rest).1, (repUpTo p n rest).2)

/-- Repetition of `p` until it fails. A parser that reads at least one character each time fails
by the time the input is exhausted, so the input's length bounds the repetitions (`rep_eq`). -/
def rep {α : Type} (p : Parser α) : Parser (List α) := fun inp => some (repUpTo p inp.length inp)

def rep1 {α : Type} (p : Parser α) : Parser (List α) := do
  let a ← p
  let as ← rep p
  return a :: as

/-- Run `p` on the whole input; trailing whitespace may remain. -/
def parseAll {α : Type} (p : Parser α) (input : String) : Option α :=
  match p input.toList with
  | some (a, rest) => if rest.dropWhile isSpace = [] then some a else none
  | none => none

/-! ## Judgements -/

/-- `p` reads exactly `w` before `rest` and returns `a`. -/
def Parses {α : Type} (p : Parser α) (w rest : List Char) (a : α) : Prop :=
  p (w ++ rest) = some (a, rest)

/-- `p` fails on `inp`. -/
def Fails {α : Type} (p : Parser α) (inp : List Char) : Prop := p inp = none

section Rules

variable {α β : Type} {p q : Parser α} {f : α → Parser β}

/-- A parser reads one value. -/
theorem Parses.unique {w rest : List Char} {a b : α} (ha : Parses p w rest a)
    (hb : Parses p w rest b) : a = b := by
  have h : some (a, rest) = some (b, rest) := ha.symm.trans hb
  cases h
  rfl

/-- A parser that reads does not fail. -/
theorem Parses.not_fails {w rest : List Char} {a : α} (ha : Parses p w rest a) :
    ¬ Fails p (w ++ rest) := by
  intro hfail
  have h : some (a, rest) = none := ha.symm.trans hfail
  cases h

theorem parses_pure (a : α) (rest : List Char) : Parses (pure a : Parser α) [] rest a := rfl

/-- Two parsers in a row read their texts in a row. -/
theorem Parses.bind {w v rest : List Char} {a : α} {b : β} (hp : Parses p w (v ++ rest) a)
    (hf : Parses (f a) v rest b) : Parses (p >>= f) (w ++ v) rest b := by
  have hp' : p (w ++ (v ++ rest)) = some (a, v ++ rest) := hp
  have hf' : f a (v ++ rest) = some (b, rest) := hf
  show (p (w ++ v ++ rest)).bind (fun r => f r.1 r.2) = some (b, rest)
  rw [List.append_assoc, hp', Option.bind_some, hf']

/-- A last step that only builds the result. -/
theorem Parses.map {w rest : List Char} {a : α} {b : β} (hp : Parses p w rest a)
    (hf : f a = pure b) : Parses (p >>= f) w rest b := by
  have h := Parses.bind (v := []) (f := f) (b := b) hp (by rw [hf]; exact parses_pure b rest)
  rwa [List.append_nil] at h

/-- A sequence fails with its first parser. -/
theorem Fails.bind {inp : List Char} (hp : Fails p inp) : Fails (p >>= f) inp := by
  have hp' : p inp = none := hp
  show (p inp).bind (fun r => f r.1 r.2) = none
  rw [hp', Option.bind_none]

/-- A failure after a step that reads `w`. -/
theorem Parses.bind_fails {w rest : List Char} {a : α} (hp : Parses p w rest a)
    (hf : Fails (f a) rest) : Fails (p >>= f) (w ++ rest) := by
  have hp' : p (w ++ rest) = some (a, rest) := hp
  have hf' : f a rest = none := hf
  show (p (w ++ rest)).bind (fun r => f r.1 r.2) = none
  rw [hp', Option.bind_some, hf']

/-- A choice fails when both alternatives do. -/
theorem Fails.orElse {inp : List Char} (hp : Fails p inp) (hq : Fails q inp) :
    Fails (p <|> q) inp := by
  have hp' : p inp = none := hp
  have hq' : q inp = none := hq
  show (p inp <|> q inp) = none
  rw [hp', hq']
  rfl

/-- The first alternative is taken if it reads. -/
theorem Parses.orElse_left {w rest : List Char} {a : α} (hp : Parses p w rest a) :
    Parses (p <|> q) w rest a := by
  have hp' : p (w ++ rest) = some (a, rest) := hp
  show (p (w ++ rest) <|> q (w ++ rest)) = some (a, rest)
  rw [hp']
  rfl

/-- The second alternative is taken if the first one fails. -/
theorem Parses.orElse_right {w rest : List Char} {a : α} (hp : Fails p (w ++ rest))
    (hq : Parses q w rest a) : Parses (p <|> q) w rest a := by
  have hp' : p (w ++ rest) = none := hp
  have hq' : q (w ++ rest) = some (a, rest) := hq
  show (p (w ++ rest) <|> q (w ++ rest)) = some (a, rest)
  rw [hp', hq']
  rfl

/-- A parser that reads the whole input. -/
theorem parseAll_of_parses {s : String} {a : α} (hp : Parses p s.toList [] a) :
    parseAll p s = some a := by
  have hp' : p s.toList = some (a, []) := by simpa [Parses] using hp
  rw [parseAll, hp']
  rfl

/-- What a sequence has read, read by its parts one after the other. -/
theorem exists_of_bind {inp rest : List Char} {b : β} (h : (p >>= f) inp = some (b, rest)) :
    ∃ a mid, p inp = some (a, mid) ∧ f a mid = some (b, rest) := by
  have hrun : (p inp).bind (fun r => f r.1 r.2) = some (b, rest) := h
  rw [Option.bind_eq_some_iff] at hrun
  obtain ⟨⟨a, mid⟩, ha, hb⟩ := hrun
  exact ⟨a, mid, ha, hb⟩

/-- What a choice has read, one of its alternatives has read. -/
theorem of_orElse {inp rest : List Char} {a : α} (h : (p <|> q) inp = some (a, rest)) :
    p inp = some (a, rest) ∨ q inp = some (a, rest) := by
  have hrun : (p inp <|> q inp) = some (a, rest) := h
  cases hp : p inp with
  | none =>
      rw [hp] at hrun
      exact Or.inr hrun
  | some r =>
      rw [hp] at hrun
      exact Or.inl hrun

/-- A parser that reads nothing returns its value. -/
theorem eq_of_pure {inp rest : List Char} {a b : α}
    (h : (pure a : Parser α) inp = some (b, rest)) : a = b := by
  cases h
  rfl

/-- A value of the whole input is one that the parser reads. -/
theorem exists_of_parseAll {s : String} {a : α} (h : parseAll p s = some a) :
    ∃ rest, p s.toList = some (a, rest) := by
  rw [parseAll] at h
  split at h
  · rename_i b rest hp
    split at h
    · cases h
      exact ⟨rest, hp⟩
    · cases h
  · cases h

end Rules

/-! ## Tokens -/

/-- `inp` does not start with a character of the class. -/
def HeadNot (p : Char → Bool) (inp : List Char) : Prop := ∀ c ∈ inp.head?, p c = false

theorem headNot_cons {p : Char → Bool} {c : Char} {cs : List Char} (h : p c = false) :
    HeadNot p (c :: cs) := by
  intro d hd
  cases hd
  exact h

/-- A run of letters ends where the rest starts with another. -/
theorem takeWhile_append_of_headNot {p : Char → Bool} {w rest : List Char}
    (hw : ∀ c ∈ w, p c = true) (hrest : HeadNot p rest) : (w ++ rest).takeWhile p = w := by
  induction w with
  | nil =>
      cases rest with
      | nil => rfl
      | cons c cs => simp [hrest c rfl]
  | cons c w ih =>
      have hc : p c = true := hw c List.mem_cons_self
      have htail := ih fun d hd => hw d (List.mem_cons_of_mem _ hd)
      simp [hc, htail]

/-- What is left after a run of letters is the rest. -/
theorem dropWhile_append_of_headNot {p : Char → Bool} {w rest : List Char}
    (hw : ∀ c ∈ w, p c = true) (hrest : HeadNot p rest) : (w ++ rest).dropWhile p = rest := by
  induction w with
  | nil =>
      cases rest with
      | nil => rfl
      | cons c cs => simp [hrest c rfl]
  | cons c w ih =>
      have hc : p c = true := hw c List.mem_cons_self
      have htail := ih fun d hd => hw d (List.mem_cons_of_mem _ hd)
      simp [hc, htail]

/-- A greedy class matches a maximal nonempty word of the class. -/
theorem oneOrMore_append {p : Char → Bool} {w rest : List Char} (hne : w ≠ [])
    (hw : ∀ c ∈ w, p c = true) (hrest : HeadNot p rest) :
    oneOrMore p (w ++ rest) = some (w, rest) := by
  rw [oneOrMore, takeWhile_append_of_headNot hw hrest, dropWhile_append_of_headNot hw hrest]
  cases w with
  | nil => exact absurd rfl hne
  | cons c w => rfl

/-- At least one letter is needed. -/
theorem oneOrMore_of_headNot {p : Char → Bool} {inp : List Char} (h : HeadNot p inp) :
    oneOrMore p inp = none := by
  have htake : inp.takeWhile p = [] := by
    cases inp with
    | nil => rfl
    | cons c cs => simp [h c rfl]
  rw [oneOrMore, htake]

/-- A token after the separating whitespace `u`. -/
theorem parses_regex {m : Matcher} {u w rest : List Char} (hu : ∀ c ∈ u, isSpace c = true)
    (hw : HeadNot isSpace (w ++ rest)) (hm : m (w ++ rest) = some (w, rest)) :
    Parses (regex m) (u ++ w) rest (String.ofList w) := by
  rw [Parses, regex, List.append_assoc, dropWhile_append_of_headNot hu hw, hm]
  rfl

/-- A pattern fails after the spaces. -/
theorem fails_regex {m : Matcher} {u inp : List Char} (hu : ∀ c ∈ u, isSpace c = true)
    (hinp : HeadNot isSpace inp) (hm : m inp = none) : Fails (regex m) (u ++ inp) := by
  rw [Fails, regex, dropWhile_append_of_headNot hu hinp, hm]
  rfl

/-- A literal is read after spaces. -/
theorem parses_literal {s : String} {u rest : List Char} (hu : ∀ c ∈ u, isSpace c = true)
    (hs : HeadNot isSpace (s.toList ++ rest)) : Parses (literal s) (u ++ s.toList) rest s := by
  rw [Parses, literal, List.append_assoc]
  simp only [dropWhile_append_of_headNot hu hs, List.drop_left]
  rw [if_pos (List.isPrefixOf_iff_prefix.2 (List.prefix_append _ _))]

/-- A literal fails on a text that does not start with it. -/
theorem fails_literal {s : String} {u inp : List Char} (hu : ∀ c ∈ u, isSpace c = true)
    (hinp : HeadNot isSpace inp) (hs : s.toList.isPrefixOf inp = false) :
    Fails (literal s) (u ++ inp) := by
  rw [Fails, literal]
  simp only [dropWhile_append_of_headNot hu hinp, hs, Bool.false_eq_true, if_false]

/-! ## Repetition -/

section Repetition

variable {α : Type} {p : Parser α}

/-- Every success of `p` reads at least one character. -/
def Consuming (p : Parser α) : Prop :=
  ∀ inp a rest, p inp = some (a, rest) → rest.length < inp.length

/-- A step after a consuming parser keeps it consuming when it gives no characters back. -/
theorem Consuming.bind {β : Type} {f : α → Parser β} (hp : Consuming p)
    (hf : ∀ a inp b rest, f a inp = some (b, rest) → rest.length ≤ inp.length) :
    Consuming (p >>= f) := by
  intro inp b rest h
  have hrun : (p inp).bind (fun r => f r.1 r.2) = some (b, rest) := h
  rw [Option.bind_eq_some_iff] at hrun
  obtain ⟨⟨a, mid⟩, ha, hb⟩ := hrun
  exact Nat.lt_of_le_of_lt (hf a mid b rest hb) (hp inp a mid ha)

/-- Rounds beyond the input's length change nothing. -/
theorem repUpTo_eq_of_le (hp : Consuming p) : ∀ (n : Nat) (inp : List Char), inp.length ≤ n →
    repUpTo p n inp = repUpTo p inp.length inp := by
  intro n
  induction n using Nat.strongRecOn with
  | ind n ih =>
    intro inp hn
    cases n with
    | zero =>
        have hlen : inp.length = 0 := by omega
        rw [hlen]
    | succ n =>
        cases hres : p inp with
        | none =>
            -- a parser that fails at once ends the repetition under any bound
            have hstop : ∀ k, repUpTo p k inp = ([], inp) := by
              intro k
              cases k with
              | zero => rfl
              | succ k => simp only [repUpTo, hres]
            rw [hstop, hstop]
        | some r =>
            obtain ⟨a, rest⟩ := r
            have hlt : rest.length < inp.length := hp inp a rest hres
            obtain ⟨k, hk⟩ : ∃ k, inp.length = k + 1 := ⟨inp.length - 1, by omega⟩
            -- the rest is shorter, so either bound is enough for it
            have h1 : repUpTo p n rest = repUpTo p rest.length rest :=
              ih n (by omega) rest (by omega)
            have h2 : repUpTo p k rest = repUpTo p rest.length rest :=
              ih k (by omega) rest (by omega)
            rw [hk]
            simp only [repUpTo, hres, h1, h2]

/-- The loop equation of repetition. -/
theorem rep_eq (hp : Consuming p) (inp : List Char) :
    rep p inp =
      match p inp with
      | none => some ([], inp)
      | some (a, rest) => (rep p rest).map fun r => (a :: r.1, r.2) := by
  cases hres : p inp with
  | none =>
      cases hinp : inp.length with
      | zero => simp only [rep, hinp, repUpTo]
      | succ k => simp only [rep, hinp, repUpTo, hres]
  | some r =>
      obtain ⟨a, rest⟩ := r
      have hlt : rest.length < inp.length := hp inp a rest hres
      obtain ⟨k, hk⟩ : ∃ k, inp.length = k + 1 := ⟨inp.length - 1, by omega⟩
      have hfuel := repUpTo_eq_of_le hp k rest (by omega)
      simp only [rep, hk, repUpTo, hres, hfuel, Option.map_some]

/-- Repetition stops where `p` fails. -/
theorem parses_rep_nil (hp : Consuming p) {rest : List Char} (hstop : Fails p rest) :
    Parses (rep p) [] rest [] := by
  have hstop' : p rest = none := hstop
  rw [Parses, List.nil_append, rep_eq hp, hstop']

/-- A repetition reads one more item. -/
theorem parses_rep_cons (hp : Consuming p) {w v rest : List Char} {a : α} {as : List α}
    (ha : Parses p w (v ++ rest) a) (has : Parses (rep p) v rest as) :
    Parses (rep p) (w ++ v) rest (a :: as) := by
  have ha' : p (w ++ (v ++ rest)) = some (a, v ++ rest) := ha
  have has' : rep p (v ++ rest) = some (as, rest) := has
  rw [Parses, List.append_assoc, rep_eq hp, ha']
  simp only [has', Option.map_some]

end Repetition

/-- A pattern takes a letter if its matcher does. -/
theorem consuming_regex {m : Matcher}
    (hm : ∀ inp w rest, m inp = some (w, rest) → rest.length < inp.length) :
    Consuming (regex m) := by
  intro inp a rest h
  rw [regex, Option.map_eq_some_iff] at h
  obtain ⟨⟨w, rest'⟩, hmatch, heq⟩ := h
  cases heq
  exact Nat.lt_of_lt_of_le (hm _ _ _ hmatch) (List.dropWhile_sublist _).length_le

/-- A choice takes a letter if both alternatives do. -/
theorem Consuming.orElse {α : Type} {p q : Parser α} (hp : Consuming p) (hq : Consuming q) :
    Consuming (p <|> q) := by
  intro inp a rest h
  have hrun : (p inp <|> q inp) = some (a, rest) := h
  cases hpr : p inp with
  | none =>
      rw [hpr] at hrun
      exact hq inp a rest hrun
  | some r =>
      rw [hpr] at hrun
      cases hrun
      exact hp inp a rest hpr

/-- A literal with at least one character. -/
theorem consuming_literal {s : String} (hs : s.toList ≠ []) : Consuming (literal s) := by
  intro inp a rest h
  simp only [literal] at h
  split at h
  · rename_i hprefix
    cases h
    have hskip : (inp.dropWhile isSpace).length ≤ inp.length := (List.dropWhile_sublist _).length_le
    have hfits : s.toList.length ≤ (inp.dropWhile isSpace).length :=
      (List.isPrefixOf_iff_prefix.1 hprefix).length_le
    have hpos : 0 < s.toList.length := List.length_pos_iff.2 hs
    rw [List.length_drop]
    omega
  · cases h

/-- At least one letter is taken. -/
theorem oneOrMore_length {p : Char → Bool} {inp w rest : List Char}
    (h : oneOrMore p inp = some (w, rest)) : rest.length < inp.length := by
  have hsplit : (inp.takeWhile p).length + (inp.dropWhile p).length = inp.length := by
    rw [← List.length_append, List.takeWhile_append_dropWhile]
  rw [oneOrMore] at h
  split at h
  · cases h
  · rename_i hne
    cases h
    -- a match is not empty, so the rest is shorter than the input
    have hpos : 0 < (inp.takeWhile p).length := List.length_pos_iff.2 hne
    omega

end Siebog.Lib.Peg
