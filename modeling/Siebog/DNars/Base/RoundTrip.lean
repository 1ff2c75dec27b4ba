import Siebog.DNars.Base.StatementParser
import Siebog.DNars.Base.Text

/-!
# Printing and parsing agree

The printed form of a statement is read chunk by chunk, each chunk with the space before it. Every
production gets one lemma about the chunk it reads, in front of any text that cannot be part of the
chunk; `parses_judgement` puts them together. A printed compound term starts with its connector, so
the prefix production, which comes first, reads all of it.

Printing rounds a truth value to hundredths, so the parsed statement has the same terms and copula
and, in exact arithmetic, a truth value within half a hundredth (`parse_id`).
-/

set_option autoImplicit false

namespace Siebog.DNars

open Siebog.Lib Peg

/-- A compound term has at least two components. -/
def Term.Printable : Term → Prop
  | .atomic _ => True
  | .compound _ comps => 2 ≤ comps.length

namespace StatementParser

variable {u rest : List Char}

/-- A text that starts with a word starts with no space. -/
theorem headNot_isSpace_of_mem {w : List Char} (hne : w ≠ [])
    (hw : ∀ c ∈ w, isSpace c = false) (rest : List Char) : HeadNot isSpace (w ++ rest) := by
  cases w with
  | nil => exact absurd rfl hne
  | cons c w => exact headNot_cons (hw c List.mem_cons_self)

/-! ## Terms -/

/-- An atomic term is read from its text, up to a letter that no term has. -/
theorem parses_atomicTerm (a : AtomicTerm) (hu : ∀ c ∈ u, isSpace c = true)
    (hrest : HeadNot isTermChar rest) : Parses atomicTerm (u ++ a.id.toList) rest a := by
  have hspace : HeadNot isSpace (a.id.toList ++ rest) :=
    headNot_isSpace_of_mem a.id_ne_nil
      (fun c hc => isSpace_of_isTermChar (a.isTermChar_of_mem hc)) rest
  have hmatch := oneOrMore_append a.id_ne_nil (fun c hc => a.isTermChar_of_mem hc) hrest
  apply (parses_regex hu hspace hmatch).map
  rw [String.ofList_toList, AtomicTerm.ofString?_id]
  rfl

/-- No atomic term starts with a letter that no term has. -/
theorem fails_atomicTerm (hu : ∀ c ∈ u, isSpace c = true) {c : Char} (hc : isTermChar c = false)
    (hspace : isSpace c = false) : Fails atomicTerm (u ++ c :: rest) :=
  (fails_regex hu (headNot_cons hspace) (oneOrMore_of_headNot (headNot_cons hc))).bind

/-- A connector is read from its text. -/
theorem parses_con (c : Connector) (hu : ∀ c ∈ u, isSpace c = true) :
    Parses (con c) (u ++ c.text.toList) rest c := by
  have htext : Parses (literal c.text) (u ++ c.text.toList) rest c.text := by
    apply parses_literal hu
    cases c <;> exact headNot_cons (by decide)
  exact htext.map rfl

/-- A connector is not read as another one. -/
theorem fails_con {c d : Connector} (hne : c ≠ d) (hu : ∀ c ∈ u, isSpace c = true) :
    Fails (con d) (u ++ (c.text.toList ++ rest)) := by
  apply Fails.bind
  apply fails_literal hu
  · cases c <;> exact headNot_cons (by decide)
  · cases c <;> cases d <;> first | exact absurd rfl hne | rfl

/-- Of all connectors the right one is read. -/
theorem parses_connector (c : Connector) (hu : ∀ c ∈ u, isSpace c = true) :
    Parses connector (u ++ c.text.toList) rest c := by
  have hfail : ∀ d, c ≠ d → Fails (con d) (u ++ c.text.toList ++ rest) := by
    intro d hne
    rw [List.append_assoc]
    exact fails_con hne hu
  cases c with
  | product => exact (parses_con .product hu).orElse_left
  | extImage =>
      apply Parses.orElse_right (hfail .product (by decide))
      exact (parses_con .extImage hu).orElse_left
  | intImage =>
      apply Parses.orElse_right (hfail .product (by decide))
      exact Parses.orElse_right (hfail .extImage (by decide)) (parses_con .intImage hu)

/-- The components of a compound, each after a space. -/
def components (comps : List AtomicTerm) : List Char := comps.flatMap fun a => ' ' :: a.id.toList

theorem space_isSpace : ∀ c ∈ [' '], isSpace c = true := by
  intro c hc
  rw [List.mem_singleton.1 hc]
  rfl

theorem nil_isSpace : ∀ c ∈ ([] : List Char), isSpace c = true := by
  intro c hc
  cases hc

/-- The components start with a space, or there are none. -/
theorem headNot_components (comps : List AtomicTerm) (hrest : HeadNot isTermChar rest) :
    HeadNot isTermChar (components comps ++ rest) := by
  cases comps with
  | nil => exact hrest
  | cons a comps => exact headNot_cons (by decide)

/-- Reading an atomic term takes at least a letter. -/
theorem consuming_atomicTerm : Consuming atomicTerm := by
  apply Consuming.bind (consuming_regex fun inp w rest hmatch => oneOrMore_length hmatch)
  intro id inp b rest h
  have hlift : (AtomicTerm.ofString? id).map (fun a => (a, inp)) = some (b, rest) := by
    rw [← h]
    cases hid : AtomicTerm.ofString? id <;> simp [StateT.lift]
  rw [Option.map_eq_some_iff] at hlift
  obtain ⟨_, _, heq⟩ := hlift
  cases heq
  exact Nat.le_refl _

/-- The components are read one after another, by induction on them. -/
theorem parses_rep_atomicTerm (comps : List AtomicTerm) (hrest : HeadNot isTermChar rest)
    (hstop : Fails atomicTerm rest) : Parses (rep atomicTerm) (components comps) rest comps := by
  induction comps with
  | nil => exact parses_rep_nil consuming_atomicTerm hstop
  | cons a comps ih =>
      have ha : Parses atomicTerm ([' '] ++ a.id.toList) (components comps ++ rest) a :=
        parses_atomicTerm a space_isSpace (headNot_components comps hrest)
      exact parses_rep_cons consuming_atomicTerm ha ih

/-- The components with a space before each are the ones with a space between them, after a first
space. -/
theorem components_eq (a : AtomicTerm) (comps : List AtomicTerm) :
    components (a :: comps) = ' ' :: [' '].intercalate ((a :: comps).map (·.id.toList)) := by
  induction comps generalizing a with
  | nil => simp [components]
  | cons b comps ih =>
      have hsplit : components (a :: b :: comps) =
          ' ' :: a.id.toList ++ components (b :: comps) := rfl
      rw [hsplit, ih b, List.map_cons, List.map_cons, List.map_cons, List.intercalate_cons_cons]
      simp

/-- The prefix production reads a connector and at least two atoms; between the connector and the
first atom there may be any whitespace, or none. -/
theorem parses_prefixCompTerm_spaced (c : Connector) (a b : AtomicTerm) (comps : List AtomicTerm)
    (hu : ∀ c ∈ u, isSpace c = true) {v : List Char} (hv : ∀ c ∈ v, isSpace c = true)
    (rest : List Char) : Parses prefixCompTerm
      (u ++ '(' :: (c.text.toList ++ (v ++ a.id.toList ++ (components (b :: comps) ++ [')'])))) rest
      (.compound c (a :: b :: comps)) := by
  have hchunks : u ++ '(' :: (c.text.toList ++
      (v ++ a.id.toList ++ (components (b :: comps) ++ [')']))) =
      (u ++ "(".toList) ++ (([] ++ c.text.toList) ++ ((v ++ a.id.toList) ++
        ((([' '] ++ b.id.toList) ++ components comps) ++ ([] ++ ")".toList)))) := by
    simp [components]
  have hclose : HeadNot isTermChar (([] ++ ")".toList) ++ rest) := headNot_cons (by decide)
  have hstop : Fails atomicTerm (([] ++ ")".toList) ++ rest) :=
    fails_atomicTerm nil_isSpace (by decide) (by decide)
  have hlist : Parses (rep1 atomicTerm) (([' '] ++ b.id.toList) ++ components comps)
      (([] ++ ")".toList) ++ rest) (b :: comps) := by
    apply (parses_atomicTerm b space_isSpace (headNot_components comps hclose)).bind
    exact (parses_rep_atomicTerm comps hclose hstop).map rfl
  rw [hchunks]
  -- each step stops in front of the next chunk, so no choice is left open
  apply (parses_literal hu (headNot_cons (by decide))).bind
  apply (parses_connector c nil_isSpace).bind
  apply (parses_atomicTerm a hv (headNot_cons (by decide))).bind
  apply hlist.bind
  exact (parses_literal nil_isSpace (headNot_cons (by decide))).map rfl

/-- The text of a compound term, by its components. -/
theorem toList_id_components (c : Connector) (a : AtomicTerm) (comps : List AtomicTerm) :
    (Term.compound c (a :: comps)).id.toList =
      '(' :: (c.text.toList ++ (components (a :: comps) ++ [')'])) := by
  rw [Term.toList_id_compound, components_eq, List.cons_append]

/-- A printed compound term is read by the production that starts with its connector. -/
theorem parses_prefixCompTerm (c : Connector) {comps : List AtomicTerm} (h : 2 ≤ comps.length)
    (hu : ∀ c ∈ u, isSpace c = true) :
    Parses prefixCompTerm (u ++ (Term.compound c comps).id.toList) rest (.compound c comps) := by
  obtain ⟨a, b, comps, rfl⟩ : ∃ a b tail, comps = a :: b :: tail := by
    match comps, h with
    | a :: b :: tail, _ => exact ⟨a, b, tail, rfl⟩
  have hsplit : components (a :: b :: comps) ++ [')'] =
      [' '] ++ a.id.toList ++ (components (b :: comps) ++ [')']) := by
    simp [components]
  rw [toList_id_components, hsplit]
  exact parses_prefixCompTerm_spaced c a b comps hu space_isSpace rest

/-- A term is read from its text, if its text shows all of it. -/
theorem parses_term {t : Term} (ht : t.Printable) (hu : ∀ c ∈ u, isSpace c = true)
    (hrest : HeadNot isTermChar rest) : Parses term (u ++ t.id.toList) rest t := by
  cases t with
  | atomic a => exact Parses.orElse_left ((parses_atomicTerm a hu hrest).map rfl)
  | compound c comps =>
      -- a parenthesis starts no atomic term
      apply Parses.orElse_right
      · rw [Term.toList_id_compound, List.append_assoc]
        exact (fails_atomicTerm hu (by decide) (by decide)).bind
      · exact (parses_prefixCompTerm c ht hu).orElse_left

/-- A copula is read from its text. -/
theorem parses_copula (c : Copula) : Parses copula ([' '] ++ c.text.toList) rest c := by
  cases c with
  | inherit =>
      apply Parses.orElse_left
      exact (parses_literal (s := "->") space_isSpace (headNot_cons (by decide))).map rfl
  | similar =>
      apply Parses.orElse_right
      · -- the arrow is tried first
        have hfail : Fails (literal "->") ([' '] ++ '~' :: rest) :=
          fails_literal space_isSpace (headNot_cons (by decide)) rfl
        exact hfail.bind
      · exact (parses_literal (s := "~") space_isSpace (headNot_cons (by decide))).map rfl

/-! ## Numbers -/

/-- The text of an amount of hundredths: a point before the last two digits. -/
theorem toList_decimal (n : ℕ) :
    (decimal n).toList = Nat.toDigits 10 (n / 100) ++
      '.' :: [(n / 10 % 10).digitChar, (n % 10).digitChar] := by
  simp [decimal]

theorem isDigit_digitChar {n : ℕ} (h : n < 10) : n.digitChar.isDigit = true := by
  interval_cases n <;> rfl

theorem isDigit_toDigits (n : ℕ) : ∀ c ∈ Nat.toDigits 10 n, c.isDigit = true :=
  fun _ hc => Nat.isDigit_of_mem_toDigits (by decide) (by decide) hc

/-- The two digits after the point are digits. -/
theorem isDigit_fraction (n : ℕ) :
    ∀ c ∈ [(n / 10 % 10).digitChar, (n % 10).digitChar], c.isDigit = true := by
  intro c hc
  rcases List.mem_pair.1 hc with rfl | rfl <;> exact isDigit_digitChar (Nat.mod_lt _ (by decide))

/-- A decimal is read up to where its digits end. -/
theorem numeral_decimal (n : ℕ) (hrest : HeadNot Char.isDigit rest) :
    numeral ((decimal n).toList ++ rest) = some ((decimal n).toList, rest) := by
  have hpoint : HeadNot Char.isDigit
      ('.' :: ([(n / 10 % 10).digitChar, (n % 10).digitChar] ++ rest)) := headNot_cons (by decide)
  have hwhole := oneOrMore_append Nat.toDigits_ne_nil (isDigit_toDigits (n / 100)) hpoint
  rw [toList_decimal, List.append_assoc, List.cons_append, numeral, hwhole]
  simp only [takeWhile_append_of_headNot (isDigit_fraction n) hrest,
    dropWhile_append_of_headNot (isDigit_fraction n) hrest]

/-- The digits of a decimal without its point. -/
theorem ofDigitChars_decimal (n : ℕ) :
    Nat.ofDigitChars 10 (Nat.toDigits 10 (n / 100) ++
      [(n / 10 % 10).digitChar, (n % 10).digitChar]) 0 = n := by
  rw [Nat.ofDigitChars_append, Nat.ofDigitChars_ten_toDigits,
    Nat.ofDigitChars_cons_digitChar_of_lt_ten (Nat.mod_lt _ (by decide)),
    Nat.ofDigitChars_cons_digitChar_of_lt_ten (Nat.mod_lt _ (by decide)), Nat.ofDigitChars_nil]
  omega

/-- Reading the decimal notation of `n` hundredths. -/
theorem toDouble_decimal (n : ℕ) : toDouble (decimal n).toList = n / 100 := by
  have hpoint : HeadNot Char.isDigit
      ('.' :: [(n / 10 % 10).digitChar, (n % 10).digitChar]) := headNot_cons (by decide)
  rw [toDouble, toList_decimal]
  simp only [takeWhile_append_of_headNot (isDigit_toDigits (n / 100)) hpoint,
    dropWhile_append_of_headNot (isDigit_toDigits (n / 100)) hpoint, List.drop_one, List.tail_cons,
    ofDigitChars_decimal]
  norm_num

/-- A decimal is read as the number it stands for. -/
theorem parses_number (n : ℕ) (hrest : HeadNot Char.isDigit rest) :
    Parses number (decimal n).toList rest (.val (n / 100)) := by
  have hspace : HeadNot isSpace ((decimal n).toList ++ rest) := by
    rw [toList_decimal, List.append_assoc]
    apply headNot_isSpace_of_mem Nat.toDigits_ne_nil
    intro c hc
    have hdigit := isDigit_toDigits _ c hc
    cases hsp : isSpace c with
    | false => rfl
    | true =>
        simp only [isSpace, Bool.or_eq_true, beq_iff_eq] at hsp
        rcases hsp with ((((rfl | rfl) | rfl) | rfl) | rfl) | rfl <;> cases hdigit
  apply (parses_regex nil_isSpace hspace (numeral_decimal n hrest)).map
  rw [String.toList_ofList, toDouble_decimal]

/-! ## Statements -/

/-- What stands in a judgement behind its subject, with the truth value in hundredths. -/
def predicateText (c : Copula) (p : List Char) (f g : ℕ) : List Char :=
  ' ' :: c.text.toList ++ (' ' :: p ++ (' ' :: '(' ::
    ((decimal f).toList ++ (',' :: ((decimal g).toList ++ [')'])))))

/-- A judgement behind any text that is read as its subject. -/
theorem parses_judgement_of {w : List Char} {s p : Term} (c : Copula) (hp : p.Printable) (f g : ℕ)
    (hs : Parses term w (predicateText c p.id.toList f g) s) :
    Parses judgement (w ++ predicateText c p.id.toList f g) []
      ⟨s, c, p, ⟨.val (f / 100), .val (g / 100)⟩⟩ := by
  rw [← List.append_nil (predicateText c p.id.toList f g)] at hs
  have hend : [')'] = [] ++ ")".toList := rfl
  apply Parses.bind hs
  rw [predicateText, hend]
  apply (parses_copula c).bind
  apply (parses_term (u := [' ']) hp space_isSpace (headNot_cons (by decide))).bind
  apply (parses_literal (s := "(") (u := [' ']) space_isSpace (headNot_cons (by decide))).bind
  -- the numbers' words are named, as the unifier would unfold `decimal` to find them
  refine Parses.bind (w := (decimal f).toList) (parses_number f ?_) ?_
  · exact headNot_cons (by decide)
  apply (parses_literal (s := ",") (u := []) nil_isSpace (headNot_cons (by decide))).bind
  refine Parses.bind (w := (decimal g).toList) (parses_number g ?_) ?_
  · exact headNot_cons (by decide)
  exact (parses_literal nil_isSpace (headNot_cons (by decide))).map rfl

/-- A judgement whose truth value is written in hundredths. -/
theorem parses_judgement {s p : Term} (c : Copula) (hs : s.Printable) (hp : p.Printable)
    (f g : ℕ) : Parses judgement
      (s.id.toList ++ (' ' :: c.text.toList ++ (' ' :: p.id.toList ++ (' ' :: '(' ::
        ((decimal f).toList ++ (',' :: ((decimal g).toList ++ [')'])))))))
      [] ⟨s, c, p, ⟨.val (f / 100), .val (g / 100)⟩⟩ :=
  parses_judgement_of c hp f g (parses_term (u := []) hs nil_isSpace (headNot_cons (by decide)))

end StatementParser

/-! ## The round trip -/

/-- The nearest number of hundredths, halves up. -/
theorem cast_hundredths {q : ℚ} (hq : 0 ≤ q) : (hundredths q : ℚ) = ⌊q * 100 + 1 / 2⌋ := by
  have hpos : 0 ≤ ⌊q * 100 + 1 / 2⌋ := Int.floor_nonneg.2 (by positivity)
  have hcast : ((hundredths q : ℤ) : ℚ) = ⌊q * 100 + 1 / 2⌋ :=
    congrArg Int.cast (Int.toNat_of_nonneg hpos)
  rw [← hcast, Int.cast_natCast]

/-- Rounding to hundredths moves a number by at most half a hundredth. -/
theorem abs_hundredths_sub_le {q : ℚ} (hq : 0 ≤ q) : |(hundredths q : ℚ) / 100 - q| ≤ 1 / 200 := by
  have hle := Int.floor_le (q * 100 + 1 / 2)
  have hlt := Int.lt_floor_add_one (q * 100 + 1 / 2)
  rw [cast_hundredths hq, abs_le]
  constructor <;> linarith

/-- An amount of hundredths is not rounded. -/
theorem hundredths_div (n : ℕ) : hundredths (n / 100) = n := by
  have hfloor : ⌊(n / 100 : ℚ) * 100 + 1 / 2⌋ = (n : ℤ) := by
    rw [Int.floor_eq_iff]
    constructor
    · push_cast
      linarith
    · push_cast
      linarith
  have hcast := cast_hundredths (q := n / 100) (by positivity)
  rw [hfloor] at hcast
  exact_mod_cast hcast

/-- A number that is not negative is printed as its hundredths. -/
theorem fixed2_val {q : ℚ} (hq : 0 ≤ q) : fixed2 (.val q) = decimal (hundredths q) := by
  rw [fixed2, if_neg (not_lt.2 hq), abs_of_nonneg hq, String.empty_append]

/-- The text of a statement, by those of its parts. -/
theorem toList_id (st : Statement) (f g : ℕ)
    (htruth : st.truth.toString = "(" ++ decimal f ++ "," ++ decimal g ++ ")") :
    st.id.toList = st.subj.id.toList ++ (' ' :: st.copula.text.toList ++
      (' ' :: st.pred.id.toList ++ (' ' :: '(' ::
        ((decimal f).toList ++ (',' :: ((decimal g).toList ++ [')'])))))) := by
  rw [Statement.id, htruth]
  simp

/-- What is read is the statement with its truth value in hundredths. -/
theorem parse_hundredths {s : Statement} (hsubj : s.subj.Printable) (hpred : s.pred.Printable)
    {f c : ℚ} (htruth : s.truth = ⟨.val f, .val c⟩) (hf : 0 ≤ f) (hc : 0 ≤ c) :
    StatementParser.parse s.id = some ⟨s.subj, s.copula, s.pred,
      ⟨.val (hundredths f / 100), .val (hundredths c / 100)⟩⟩ := by
  have hprint : s.truth.toString =
      "(" ++ decimal (hundredths f) ++ "," ++ decimal (hundredths c) ++ ")" := by
    rw [htruth, Truth.toString, fixed2_val hf, fixed2_val hc]
  -- the judgement production is the first one and reads everything
  apply parseAll_of_parses
  rw [toList_id s _ _ hprint]
  exact (StatementParser.parses_judgement s.copula hsubj hpred _ _).orElse_left

/-- Printing and parsing agree up to the rounding of the truth value, and the parsed statement
prints as the given one. The numbers are exact here; `parse_id_doubles` is about the numbers of the
source. -/
theorem parse_id {s : Statement} (hsubj : s.subj.Printable) (hpred : s.pred.Printable)
    {f c : ℚ} (htruth : s.truth = ⟨.val f, .val c⟩) (hf : 0 ≤ f) (hc : 0 ≤ c) :
    ∃ f' c' : ℚ,
      StatementParser.parse s.id = some ⟨s.subj, s.copula, s.pred, ⟨.val f', .val c'⟩⟩ ∧
      |f' - f| ≤ 1 / 200 ∧ |c' - c| ≤ 1 / 200 ∧
      (⟨s.subj, s.copula, s.pred, ⟨.val f', .val c'⟩⟩ : Statement).id = s.id := by
  refine ⟨hundredths f / 100, hundredths c / 100, parse_hundredths hsubj hpred htruth hf hc,
    abs_hundredths_sub_le hf, abs_hundredths_sub_le hc, ?_⟩
  have hprint : (⟨.val (hundredths f / 100), .val (hundredths c / 100)⟩ : Truth).toString =
      s.truth.toString := by
    rw [htruth, Truth.toString, Truth.toString, fixed2_val hf, fixed2_val hc,
      fixed2_val (by positivity), fixed2_val (by positivity), hundredths_div, hundredths_div]
  rw [Statement.id, hprint]
  rfl

end Siebog.DNars
