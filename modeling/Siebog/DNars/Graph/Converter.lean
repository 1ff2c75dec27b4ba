import Siebog.Lib.Rotation
import Siebog.DNars.Base.Infix
import Siebog.DNars.Graph.Importer
import Mathlib.Data.List.DropRight

/-!
# The converter of N-Triples

`DNarsConvert` turns each line of an N-Triples file into a statement `(x s o) -> p` and writes it to
a file, which it closes when the number of the line is a multiple of the lines for a file. To make
sure that the statement is one, the converter prints it and parses it again.

A line that cannot be converted is skipped, but with it the rotation that may be due. And where a
node is empty, the parser may find a term in what is left of the text: the connector of the prefix
notation is read as the first atom of an infix term.

`splits_right_iff` says on which inputs the files are as they should be.
-/

set_option autoImplicit false

namespace Siebog.DNars

open Siebog.Lib Peg Rotation

section Model

/-- The texts of the three nodes of a triple. -/
structure RdfStatement where
  subject : String
  predicate : String
  object : String
  deriving DecidableEq

namespace NTReader

/-- The state of the loop, with what the callback has done so far. -/
structure State (σ : Type) where
  counter : BitVec 32
  ok : Bool
  out : σ

/-- The callback: its result, or `none` for an exception. -/
abbrev Progress (σ : Type) := String → RdfStatement → BitVec 32 → σ → Option Bool × σ

/-- Empty lines and comments are left out. -/
def accepts (line : String) : Bool := !line.toList.isEmpty && line.toList.head? != some '#'

variable {σ : Type} (str2nt : String → Option RdfStatement) (progress : Progress σ)

/-- One round of the loop; an exception of the parser or of the callback ends the round only. -/
def readLine (s : State σ) (line : String) : State σ :=
  if s.ok then
    match str2nt line with
    | none => s
    | some ntStat =>
      let counter := s.counter + 1
      match progress line ntStat counter s.out with
      | (some ok, out) => ⟨counter, ok, out⟩
      | (none, out) => ⟨counter, s.ok, out⟩
  else s

def read (out : σ) (lines : List String) : State σ :=
  (lines.filter accepts).foldl (readLine str2nt progress) ⟨0, true, out⟩

end NTReader

namespace Converter

/-- Without the characters up to the space at both ends. -/
def trim (str : List Char) : List Char :=
  (str.dropWhile fun c => decide (c ≤ ' ')).rdropWhile fun c => decide (c ≤ ' ')

def replaceAll (str : List Char) : List Char :=
  str.map fun c => if isSpace c then '_' else if c = '(' then '{' else if c = ')' then '}' else c

/-- The content of the atomic term for a node; it may be empty. -/
def getAtomicTerm (node : String) : String := String.ofList (replaceAll (trim node.toList))

/-- The printed form of `(x subj objt) -> pred`. -/
def statementText (subj pred objt : String) : String :=
  "(x " ++ subj ++ " " ++ objt ++ ")" ++ " " ++ Copula.inherit.text ++ " " ++ pred ++ " " ++
    Truth.toString ⟨.val 1, .val (9 / 10)⟩

/-- `none` is the error of the parser. -/
def toDNarsStatement (ntStat : RdfStatement) : Option Statement :=
  let termSubj := getAtomicTerm ntStat.subject
  let termPred := getAtomicTerm ntStat.predicate
  let termObjt := getAtomicTerm ntStat.object
  StatementParser.parse (statementText termSubj termPred termObjt)

/-- A file is due to be closed after the line with this number. -/
def due (linesPerFile : ℤ) (counter : BitVec 32) : Bool :=
  decide (linesPerFile > 0) && decide (counter.toInt.tmod linesPerFile = 0)

/-- What the callback does with the converted statement, or with the exception in its place. -/
def println (linesPerFile : ℤ) (counter : BitVec 32) (outStream : Writer String) :
    Option Statement → Option Bool × Writer String
  | none => (none, outStream)
  | some statement =>
    let outStream := outStream.write statement.id
    if due linesPerFile counter then (some true, outStream.rotate) else (some true, outStream)

def progress (linesPerFile : ℤ) : NTReader.Progress (Writer String) :=
  fun _ ntStat counter outStream =>
    println linesPerFile counter outStream (toDNarsStatement ntStat)

/-- The files that are written, in the order of their indexes. -/
def main (str2nt : String → Option RdfStatement) (linesPerFile : ℤ) (lines : List String) :
    List (List String) :=
  (NTReader.read str2nt (progress linesPerFile) .start lines).out.files

end Converter

end Model

/-! ## What the parser makes of a printed statement -/

namespace StatementParser

/-- The text goes on after a connector. -/
def Takes (w : List Char) : Prop :=
  ∃ (c : Connector) (a : AtomicTerm), w = c.text.toList ++ a.id.toList

section Short

variable {u v w rest : List Char} (hu : ∀ c ∈ u, isSpace c = true) (hv : ∀ c ∈ v, isSpace c = true)

/-- A closing parenthesis after spaces ends a term. -/
theorem headNot_isTermChar_space {u : List Char} (hu : ∀ c ∈ u, isSpace c = true)
    (rest : List Char) : HeadNot isTermChar (u ++ ')' :: rest) := by
  cases u with
  | nil => exact headNot_cons (by decide)
  | cons c u =>
      apply headNot_cons
      rw [isTermChar, hu c List.mem_cons_self]
      rfl

/-- A word is an atom or nothing. -/
theorem word_cases {w : List Char} (hw : ∀ c ∈ w, isTermChar c = true) :
    w = [] ∨ ∃ a : AtomicTerm, a.id.toList = w := by
  by_cases hne : w = []
  · exact Or.inl hne
  · have hterm : isTermId (String.ofList w) = true := by
      simpa [isTermId, hne] using hw
    exact Or.inr ⟨⟨String.ofList w, hterm⟩, String.toList_ofList⟩

/-- An opening parenthesis is read. -/
theorem parses_open : Parses (literal "(") "(".toList rest "(" :=
  parses_literal (u := []) nil_isSpace (headNot_cons (by decide))

/-- The closing parenthesis is no connector. -/
theorem fails_connector_close {u : List Char} (hu : ∀ c ∈ u, isSpace c = true) (rest : List Char) :
    Fails connector (u ++ ')' :: rest) := by
  apply fails_connector
  intro c
  apply Fails.bind
  apply fails_literal hu (headNot_cons (by decide))
  cases c <;> rfl

/-- The connector of the prefix notation is none of an image. -/
theorem fails_image_product (rest : List Char) : Fails image ('x' :: rest) := by
  have hfails : ∀ d, Connector.product ≠ d →
      Fails (con d) ([] ++ (Connector.product.text.toList ++ rest)) :=
    fun d hne => fails_con hne nil_isSpace
  exact (hfails .extImage (by decide)).orElse (hfails .intImage (by decide))

/-- Spaces after spaces are spaces. -/
theorem isSpace_append {u v : List Char} (hu : ∀ c ∈ u, isSpace c = true)
    (hv : ∀ c ∈ v, isSpace c = true) : ∀ c ∈ u ++ v, isSpace c = true := by
  intro c hc
  rcases List.mem_append.1 hc with hc | hc
  · exact hu c hc
  · exact hv c hc

include hu hv

/-- With one component there is no prefix term. -/
theorem fails_prefixCompTerm_short (hw : ∀ c ∈ w, isTermChar c = true) :
    Fails prefixCompTerm ('(' :: 'x' :: (u ++ w ++ v ++ ')' :: rest)) := by
  have hcon : Parses connector ([] ++ Connector.product.text.toList) (u ++ w ++ v ++ ')' :: rest)
      .product := parses_connector .product nil_isSpace
  refine parses_open.bind_fails (hcon.bind_fails ?_)
  rcases word_cases hw with rfl | ⟨a, rfl⟩
  · rw [List.append_nil]
    exact (fails_atomicTerm (isSpace_append hu hv) (by decide) (by decide)).bind
  · rw [List.append_assoc]
    have hatom := parses_atomicTerm a hu (headNot_isTermChar_space hv rest)
    exact hatom.bind_fails (fails_atomicTerm hv (by decide) (by decide)).bind.bind

/-- A component is read where the text goes on after a connector. -/
theorem infixComp_short (hw : ∀ c ∈ w, isTermChar c = true) :
    (Takes w ∧ ∃ y, Parses infixComp (u ++ w) (v ++ ')' :: rest) y) ∨
      ¬ Takes w ∧ Fails infixComp (u ++ w ++ (v ++ ')' :: rest)) := by
  rcases word_cases hw with rfl | ⟨t, rfl⟩
  · -- nothing is there, and the parenthesis is no connector
    right
    constructor
    · rintro ⟨c, a, h⟩
      exact a.id_ne_nil (List.append_eq_nil_iff.1 h.symm).2
    · rw [List.append_nil, ← List.append_assoc]
      exact (fails_connector_close (isSpace_append hu hv) rest).bind
  · by_cases ht : t.StartsWithConnector
    · obtain ⟨c, hc | ⟨a, ha⟩⟩ := startsWithConnector_iff.1 ht
      · -- the connector alone
        -- a word that starts with a letter
        right
        constructor
        · rintro ⟨c', a, h⟩
          rw [hc] at h
          have hlength := congrArg List.length h
          have hone : ∀ d : Connector, d.text.toList.length = 1 := by
            intro d
            cases d <;> rfl
          have hpos := List.length_pos_of_ne_nil a.id_ne_nil
          rw [List.length_append, hone, hone] at hlength
          omega
        · rw [hc]
          exact (parses_connector c hu).bind_fails
            (fails_atomicTerm hv (by decide) (by decide)).bind
      · -- a connector with an atom after it
        left
        refine ⟨⟨c, a, ha⟩, (c, a), ?_⟩
        rw [ha, ← List.append_assoc]
        apply (parses_connector c hu).bind
        exact (parses_atomicTerm (u := []) a nil_isSpace (headNot_isTermChar_space hv rest)).map rfl
    · right
      constructor
      · rintro ⟨c, a, h⟩
        exact ht ⟨c, a.id.toList, h.symm⟩
      · rw [List.append_assoc]
        exact (fails_connector_atom ht hu _).bind

/-- What the parser makes of a text with one component or none: an infix term whose first atom is
the connector of the prefix notation, or nothing. -/
theorem term_short (hne : u ≠ []) (hw : ∀ c ∈ w, isTermChar c = true) :
    (Takes w ∧ ∃ t, Parses term ('(' :: 'x' :: (u ++ w ++ v ++ [')'])) rest t) ∨
      ¬ Takes w ∧ Fails term ('(' :: 'x' :: (u ++ w ++ v ++ ')' :: rest)) := by
  -- the first two ways to read a term fail at the parenthesis and at `x`
  have hatomic : Fails atomic ('(' :: 'x' :: (u ++ w ++ v ++ ')' :: rest)) :=
    (fails_atomicTerm (u := []) nil_isSpace (by decide) (by decide)).bind
  have hfirst : Fails prefixCompTerm ('(' :: 'x' :: (u ++ w ++ v ++ ')' :: rest)) :=
    fails_prefixCompTerm_short hu hv hw
  have hx : ∀ inp, Parses atomicTerm ([] ++ (atom "x").id.toList) (u ++ inp) (atom "x") := by
    intro inp
    apply parses_atomicTerm _ nil_isSpace
    cases u with
    | nil => exact absurd rfl hne
    | cons c u =>
        apply headNot_cons
        rw [isTermChar, hu c List.mem_cons_self]
        rfl
  have hcases : (Takes w ∧ ∃ y, Parses infixComp (u ++ w) (v ++ ')' :: rest) y) ∨
      ¬ Takes w ∧ Fails infixComp (u ++ w ++ (v ++ ')' :: rest)) := infixComp_short hu hv hw
  rcases hcases with ⟨htakes, y, hy⟩ | ⟨htakes, hfails⟩
  · left
    refine ⟨htakes, .compound y.1 [atom "x", y.2], ?_⟩
    have hstop : Fails infixComp (v ++ ')' :: rest) := (fails_connector_close hv rest).bind
    have hchunks : '(' :: 'x' :: (u ++ w ++ v ++ [')']) =
        "(".toList ++
          (([] ++ (atom "x").id.toList) ++ ((u ++ w) ++ ([] ++ (v ++ ")".toList)))) := by
      simp
    have hinfix : Parses infixCompTerm ('(' :: 'x' :: (u ++ w ++ v ++ [')'])) rest
        (.compound y.1 [atom "x", y.2]) := by
      rw [hchunks]
      apply parses_open.bind
      have hrest : ((u ++ w) ++ ([] ++ (v ++ ")".toList))) ++ rest =
          u ++ (w ++ (v ++ ')' :: rest)) := by
        simp
      refine Parses.bind (hrest ▸ hx _) ?_
      have hrest' : ([] ++ (v ++ ")".toList)) ++ rest = v ++ ')' :: rest := by
        simp
      refine Parses.bind (hrest' ▸ hy) ?_
      have hrest'' : (v ++ ")".toList) ++ rest = v ++ ')' :: rest := by
        simp
      refine Parses.bind (hrest'' ▸ parses_rep_nil consuming_infixComp hstop) ?_
      exact (parses_literal hv (headNot_cons (by decide))).map rfl
    have hsame : '(' :: 'x' :: (u ++ w ++ v ++ [')']) ++ rest =
        '(' :: 'x' :: (u ++ w ++ v ++ ')' :: rest) := by
      simp
    apply Parses.orElse_right
    · rwa [hsame]
    · apply Parses.orElse_right
      · rwa [hsame]
      · exact hinfix.orElse_left
  · -- every way to read a compound fails
    right
    refine ⟨htakes, hatomic.orElse (hfirst.orElse (Fails.orElse ?_ (Fails.orElse ?_ ?_)))⟩
    · have happend : u ++ w ++ v ++ ')' :: rest = u ++ w ++ (v ++ ')' :: rest) := by
        simp
      have hwhole := hx (w ++ (v ++ ')' :: rest))
      rw [← List.append_assoc] at hwhole
      rw [happend]
      exact parses_open.bind_fails (hwhole.bind_fails hfails.bind)
    · exact parses_open.bind_fails (fails_image_product _).bind
    · exact parses_open.bind_fails (fails_image_product _).bind

end Short

/-! ### Statements -/

section Statement

variable {s p o : List Char}

/-- The printed subject, whose components may be empty. -/
def subjectText (s o : List Char) : List Char := '(' :: 'x' :: ' ' :: (s ++ ' ' :: (o ++ [')']))

/-- The subject is there, or something else is read in its place. -/
def Reads (s o : List Char) : Prop :=
  (s ≠ [] ∧ o ≠ []) ∨ (o = [] ∧ Takes s) ∨ (s = [] ∧ Takes o)

/-- Nothing is not a connector and an atom. -/
theorem not_takes_nil : ¬ Takes [] := by
  rintro ⟨c, a, h⟩
  exact a.id_ne_nil (List.append_eq_nil_iff.1 h.symm).2

/-- The subject of a line is a term exactly when `Reads` says so. -/
theorem term_subjectText (hs : ∀ c ∈ s, isTermChar c = true) (ho : ∀ c ∈ o, isTermChar c = true)
    {rest : List Char} (hrest : HeadNot isTermChar rest) :
    (Reads s o ∧ ∃ t, Parses term (subjectText s o) rest t) ∨
      ¬ Reads s o ∧ Fails term (subjectText s o ++ rest) := by
  have hspaces : ∀ c ∈ [' ', ' '], isSpace c = true := isSpace_append space_isSpace space_isSpace
  rcases word_cases hs with rfl | ⟨a, rfl⟩
  · -- without a subject the object is the only component
    have hsame : subjectText [] o = '(' :: 'x' :: ([' ', ' '] ++ o ++ [] ++ [')']) := by
      simp [subjectText]
    have hshort :
        (Takes o ∧ ∃ t, Parses term ('(' :: 'x' :: ([' ', ' '] ++ o ++ [] ++ [')'])) rest t) ∨
        ¬ Takes o ∧ Fails term ('(' :: 'x' :: ([' ', ' '] ++ o ++ [] ++ ')' :: rest)) :=
      term_short hspaces nil_isSpace (List.cons_ne_nil _ _) ho
    rcases hshort with ⟨htakes, hparses⟩ | ⟨htakes, hfails⟩
    · exact Or.inl ⟨Or.inr (Or.inr ⟨rfl, htakes⟩), hsame ▸ hparses⟩
    · refine Or.inr ⟨?_, by simpa [subjectText] using hfails⟩
      rintro (⟨hne, -⟩ | ⟨-, hnil⟩ | ⟨-, hobject⟩)
      · exact hne rfl
      · exact not_takes_nil hnil
      · exact htakes hobject
  · rcases word_cases ho with rfl | ⟨b, rfl⟩
    · -- without an object the subject is the only component
      have hsame : subjectText a.id.toList [] =
          '(' :: 'x' :: ([' '] ++ a.id.toList ++ [' '] ++ [')']) := by
        simp [subjectText]
      have hshort : (Takes a.id.toList ∧
            ∃ t, Parses term ('(' :: 'x' :: ([' '] ++ a.id.toList ++ [' '] ++ [')'])) rest t) ∨
          ¬ Takes a.id.toList ∧
            Fails term ('(' :: 'x' :: ([' '] ++ a.id.toList ++ [' '] ++ ')' :: rest)) :=
        term_short space_isSpace space_isSpace (List.cons_ne_nil _ _) hs
      rcases hshort with ⟨htakes, hparses⟩ | ⟨htakes, hfails⟩
      · exact Or.inl ⟨Or.inr (Or.inl ⟨rfl, htakes⟩), hsame ▸ hparses⟩
      · refine Or.inr ⟨?_, by simpa [subjectText] using hfails⟩
        rintro (⟨-, hne⟩ | ⟨-, hsubject⟩ | ⟨hnil, -⟩)
        · exact hne rfl
        · exact htakes hsubject
        · exact a.id_ne_nil hnil
    · -- with both it is the text of a product
      have hsame : subjectText a.id.toList b.id.toList =
          (Term.compound .product [a, b]).id.toList := by
        rw [Term.toList_id_compound]
        simp [subjectText, Connector.text, List.intercalate_cons_cons]
      refine Or.inl ⟨Or.inl ⟨a.id_ne_nil, b.id_ne_nil⟩, .compound .product [a, b], ?_⟩
      rw [hsame]
      exact parses_term (u := []) (Nat.le_refl 2) nil_isSpace hrest

/-- The truth value of a converted statement is no term. -/
theorem fails_term_truth : Fails term "  (1.00,0.90)".toList := by
  have hnone : term "  (1.00,0.90)".toList = none := by decide +kernel
  exact hnone

/-- A question that starts with a parenthesis asks for the predicate, or is none. -/
theorem fails_question {inp : List Char} (h : Fails questionPred ('(' :: inp)) :
    Fails question ('(' :: inp) := by
  have hmark : Fails (literal "?") ([] ++ '(' :: inp) :=
    fails_literal nil_isSpace (headNot_cons (by decide)) rfl
  exact Fails.orElse hmark.bind h

/-- Behind a subject and a copula there must be a predicate. -/
theorem fails_statement_of_missing {w z : List Char} {t : Term}
    (ht : Parses term ('(' :: w) ([' '] ++ Copula.inherit.text.toList ++ z) t)
    (hterm : Fails term z) (hmark : Fails (literal "?") z) :
    Fails statement ('(' :: w ++ ([' '] ++ Copula.inherit.text.toList ++ z)) := by
  have hcopula : Parses copula ([' '] ++ Copula.inherit.text.toList) z .inherit :=
    parses_copula .inherit
  apply Fails.orElse
  · exact ht.bind_fails (hcopula.bind_fails hterm.bind)
  · exact fails_question (ht.bind_fails (hcopula.bind_fails hmark.bind))

/-- The line of a triple without a predicate. -/
theorem predicateText_nil : predicateText .inherit [] 100 90 =
    [' '] ++ Copula.inherit.text.toList ++ "  (1.00,0.90)".toList := by
  decide +kernel

/-- A printed statement is read as one exactly when its predicate is there and its subject is
read. -/
theorem statement_text (hs : ∀ c ∈ s, isTermChar c = true) (hp : ∀ c ∈ p, isTermChar c = true)
    (ho : ∀ c ∈ o, isTermChar c = true) :
    (p ≠ [] ∧ Reads s o ∧
        ∃ st, Parses statement (subjectText s o ++ predicateText .inherit p 100 90) [] st) ∨
      ¬ (p ≠ [] ∧ Reads s o) ∧
        Fails statement (subjectText s o ++ predicateText .inherit p 100 90) := by
  have hrest : HeadNot isTermChar (predicateText .inherit p 100 90) := headNot_cons (by decide)
  rcases term_subjectText hs ho hrest with ⟨hreads, t, ht⟩ | ⟨hreads, hfails⟩
  · rcases word_cases hp with rfl | ⟨b, rfl⟩
    · right
      refine ⟨fun h => h.1 rfl, ?_⟩
      rw [predicateText_nil] at ht ⊢
      have hmark : Fails (literal "?") ([' ', ' '] ++ "(1.00,0.90)".toList) :=
        fails_literal (isSpace_append space_isSpace space_isSpace) (headNot_cons (by decide)) rfl
      exact fails_statement_of_missing ht fails_term_truth hmark
    · left
      refine ⟨b.id_ne_nil, hreads,
        ⟨t, .inherit, .atomic b, ⟨.val (100 / 100), .val (90 / 100)⟩⟩, ?_⟩
      exact (parses_judgement_of (s := t) (p := .atomic b) .inherit trivial 100 90 ht).orElse_left
  · right
    refine ⟨fun h => hreads h.2, ?_⟩
    apply Fails.orElse
    · exact hfails.bind
    · exact fails_question hfails.bind

end Statement

end StatementParser

namespace Converter

open StatementParser

/-! ## Which lines are converted -/

/-- None of the three nodes is empty after trimming. -/
def Whole (nt : RdfStatement) : Prop :=
  trim nt.subject.toList ≠ [] ∧ trim nt.predicate.toList ≠ [] ∧ trim nt.object.toList ≠ []

instance : DecidablePred Whole := fun nt =>
  inferInstanceAs (Decidable (trim nt.subject.toList ≠ [] ∧ trim nt.predicate.toList ≠ [] ∧
    trim nt.object.toList ≠ []))

/-- The terms for the nodes, when there are three of them. -/
def nodes (nt : RdfStatement) : Option NTStatement := do
  let subject ← AtomicTerm.ofString? (getAtomicTerm nt.subject)
  let predicate ← AtomicTerm.ofString? (getAtomicTerm nt.predicate)
  let object ← AtomicTerm.ofString? (getAtomicTerm nt.object)
  return ⟨subject, predicate, object⟩

/-- The statement that a line stands for. -/
def converted (nt : RdfStatement) : Option Statement :=
  (nodes nt).map DNarsConvert.toDNarsStatement

/-- The subject or the object is empty, and the other begins with a connector and goes on: the
parser finds a term where there is none. -/
def Stray (nt : RdfStatement) : Prop :=
  trim nt.predicate.toList ≠ [] ∧
    ((trim nt.object.toList = [] ∧ Takes (replaceAll (trim nt.subject.toList))) ∨
      (trim nt.subject.toList = [] ∧ Takes (replaceAll (trim nt.object.toList))))

/-- Every letter of a node that no term has is replaced. -/
theorem isTermChar_getAtomicTerm (node : String) :
    ∀ c ∈ replaceAll (trim node.toList), isTermChar c = true := by
  intro c hc
  obtain ⟨d, -, rfl⟩ := List.mem_map.1 hc
  split_ifs with hspace hopen hclose
  · rfl
  · rfl
  · rfl
  · simp [isTermChar, hspace, hopen, hclose]

theorem replaceAll_eq_nil {str : List Char} : replaceAll str = [] ↔ str = [] := List.map_eq_nil_iff

/-- A node that is there has a term. -/
theorem ofString?_getAtomicTerm {node : String} (h : trim node.toList ≠ []) :
    ∃ a : AtomicTerm, AtomicTerm.ofString? (getAtomicTerm node) = some a ∧
      a.id = getAtomicTerm node := by
  rcases word_cases (isTermChar_getAtomicTerm node) with hnil | ⟨a, ha⟩
  · exact absurd (replaceAll_eq_nil.1 hnil) h
  · have hid : a.id = getAtomicTerm node := by
      rw [getAtomicTerm, ← ha, String.ofList_toList]
    exact ⟨a, hid ▸ AtomicTerm.ofString?_id a, hid⟩

/-- A node without a text is no atomic term. -/
theorem ofString?_getAtomicTerm_empty {node : String} (h : trim node.toList = []) :
    AtomicTerm.ofString? (getAtomicTerm node) = none := by
  rw [getAtomicTerm, h]
  rfl

/-- A triple that is not whole has no three nodes. -/
theorem nodes_eq_none {nt : RdfStatement} (h : ¬ Whole nt) : nodes nt = none := by
  rw [nodes]
  by_cases hs : trim nt.subject.toList = []
  · rw [ofString?_getAtomicTerm_empty hs]
    rfl
  · by_cases hp : trim nt.predicate.toList = []
    · rw [ofString?_getAtomicTerm_empty hp]
      cases AtomicTerm.ofString? (getAtomicTerm nt.subject) with
      | none => rfl
      | some a => rfl
    · have ho : trim nt.object.toList = [] := by
        by_contra ho
        exact h ⟨hs, hp, ho⟩
      rw [ofString?_getAtomicTerm_empty ho]
      cases AtomicTerm.ofString? (getAtomicTerm nt.subject) with
      | none => rfl
      | some a =>
          cases AtomicTerm.ofString? (getAtomicTerm nt.predicate) with
          | none => rfl
          | some b => rfl

/-- The text of a line, by its subject and its predicate. -/
theorem toList_statementText (subj pred objt : String) :
    (statementText subj pred objt).toList =
      subjectText subj.toList objt.toList ++ predicateText .inherit pred.toList 100 90 := by
  have htruth : Truth.toString ⟨.val 1, .val (9 / 10)⟩ =
      "(" ++ decimal 100 ++ "," ++ decimal 90 ++ ")" := by decide +kernel
  delta statementText
  rw [htruth]
  simp [subjectText, predicateText]

/-- The printed form of a statement is read as the statement. -/
theorem parse_statementText (n : NTStatement) :
    StatementParser.parse (statementText n.subject.id n.predicate.id n.object.id) =
      some (DNarsConvert.toDNarsStatement n) := by
  have hsubject : subjectText n.subject.id.toList n.object.id.toList =
      (Term.compound .product [n.subject, n.object]).id.toList := by
    rw [Term.toList_id_compound]
    simp [subjectText, Connector.text, List.intercalate_cons_cons]
  have hvalue : DNarsConvert.toDNarsStatement n =
      ⟨.compound .product [n.subject, n.object], .inherit, .atomic n.predicate,
        ⟨.val ((100 : ℕ) / 100), .val ((90 : ℕ) / 100)⟩⟩ := by
    norm_num [DNarsConvert.toDNarsStatement]
  have hrest : HeadNot isTermChar (predicateText .inherit n.predicate.id.toList 100 90) :=
    headNot_cons (by decide)
  have hterm : Parses term (subjectText n.subject.id.toList n.object.id.toList)
      (predicateText .inherit n.predicate.id.toList 100 90)
      (.compound .product [n.subject, n.object]) := by
    rw [hsubject]
    exact parses_term (u := []) (Nat.le_refl 2) nil_isSpace hrest
  have hjudgement := parses_judgement_of (p := .atomic n.predicate) .inherit trivial 100 90 hterm
  rw [hvalue]
  apply parseAll_of_parses
  rw [toList_statementText]
  exact hjudgement.orElse_left

/-- A whole line is converted into the statement it stands for. -/
theorem toDNarsStatement_of_whole {nt : RdfStatement} (h : Whole nt) :
    ∃ st, converted nt = some st ∧ toDNarsStatement nt = some st := by
  obtain ⟨s, hs, hsid⟩ := ofString?_getAtomicTerm h.1
  obtain ⟨p, hp, hpid⟩ := ofString?_getAtomicTerm h.2.1
  obtain ⟨o, ho, hoid⟩ := ofString?_getAtomicTerm h.2.2
  have hnodes : nodes nt = some ⟨s, p, o⟩ := by
    rw [nodes, hs, hp, ho]
    rfl
  have hparse := parse_statementText ⟨s, p, o⟩
  rw [hsid, hpid, hoid] at hparse
  exact ⟨_, by rw [converted, hnodes]; rfl, hparse⟩

/-- What the converter makes a statement of: the whole lines and the strays. -/
theorem toDNarsStatement_isSome_iff (nt : RdfStatement) :
    (toDNarsStatement nt).isSome = true ↔ Whole nt ∨ Stray nt := by
  have hiff : Whole nt ∨ Stray nt ↔ replaceAll (trim nt.predicate.toList) ≠ [] ∧
      Reads (replaceAll (trim nt.subject.toList)) (replaceAll (trim nt.object.toList)) := by
    simp only [Whole, Stray, Reads, ne_eq, replaceAll_eq_nil]
    constructor
    · rintro (⟨hs, hp, ho⟩ | ⟨hp, hstray⟩)
      · exact ⟨hp, Or.inl ⟨hs, ho⟩⟩
      · exact ⟨hp, Or.inr hstray⟩
    · rintro ⟨hp, ⟨hs, ho⟩ | hstray⟩
      · exact Or.inl ⟨hs, hp, ho⟩
      · exact Or.inr ⟨hp, hstray⟩
  rw [hiff, toDNarsStatement, StatementParser.parse, parseAll, toList_statementText]
  simp only [getAtomicTerm, String.toList_ofList]
  rcases statement_text (isTermChar_getAtomicTerm nt.subject)
    (isTermChar_getAtomicTerm nt.predicate) (isTermChar_getAtomicTerm nt.object) with
    ⟨hp, hreads, st, hst⟩ | ⟨hnot, hfails⟩
  · rw [Parses, List.append_nil] at hst
    rw [hst]
    exact iff_of_true rfl ⟨hp, hreads⟩
  · rw [Fails] at hfails
    rw [hfails]
    exact iff_of_false (by decide) hnot

/-- A whole triple is not stray. -/
theorem not_stray_of_whole {nt : RdfStatement} (h : Whole nt) : ¬ Stray nt := by
  rintro ⟨-, ⟨ho, -⟩ | ⟨hs, -⟩⟩
  · exact h.2.2 ho
  · exact h.1 hs

/-- A triple that is not whole is converted to nothing. -/
theorem converted_eq_none {nt : RdfStatement} (h : ¬ Whole nt) : converted nt = none := by
  rw [converted, nodes_eq_none h]
  rfl

/-! ## The run -/

section Run

variable (str2nt : String → Option RdfStatement) (linesPerFile : ℤ)

/-- The triples of the lines that are parsed, in their order. -/
def triples (lines : List String) : List RdfStatement :=
  (lines.filter NTReader.accepts).filterMap str2nt

/-- What is to be written for a triple. -/
def output (nt : RdfStatement) : Option String := (toDNarsStatement nt).map Statement.id

/-- Without strays the converter does what it should. -/
theorem output_eq_iff (nt : RdfStatement) :
    output nt = (converted nt).map Statement.id ↔ ¬ Stray nt := by
  by_cases hw : Whole nt
  · obtain ⟨st, hconverted, hst⟩ := toDNarsStatement_of_whole hw
    rw [output, hconverted, hst]
    exact iff_of_true rfl (not_stray_of_whole hw)
  · rw [output, converted_eq_none hw, Option.map_none, Option.map_eq_none_iff,
      ← Option.not_isSome_iff_eq_none, toDNarsStatement_isSome_iff, or_iff_right hw]

/-- A whole triple is written as its statement. -/
theorem output_of_whole {nt : RdfStatement} (h : Whole nt) :
    output nt = (converted nt).map Statement.id := (output_eq_iff nt).2 (not_stray_of_whole h)

/-- The files are due to be rotated after the line with this number. -/
def dueAt (k : ℕ) : Bool := due linesPerFile (BitVec.ofNat 32 k)

/-- A triple is written, or the exception of its conversion is caught. -/
theorem readLine_triple {line : String} {nt : RdfStatement} (hline : str2nt line = some nt) (n : ℕ)
    (w : Writer String) :
    NTReader.readLine str2nt (progress linesPerFile) ⟨BitVec.ofNat 32 n, true, w⟩ line =
      ⟨BitVec.ofNat 32 (n + 1), true, put (dueAt linesPerFile) w (n + 1) (output nt)⟩ := by
  have hcounter : BitVec.ofNat 32 n + 1 = BitVec.ofNat 32 (n + 1) := by
    rw [BitVec.ofNat_add]
    rfl
  rw [NTReader.readLine, if_pos rfl, hline]
  simp only [progress, hcounter, output]
  cases toDNarsStatement nt with
  | none => rfl
  | some st =>
      rw [Option.map_some, put, println, dueAt]
      split_ifs <;> rfl

/-- The loop writes what there is for each triple. -/
theorem read_eq (lines : List String) :
    NTReader.read str2nt (progress linesPerFile) .start lines =
      ⟨BitVec.ofNat 32 (triples str2nt lines).length, true,
        writeAll (dueAt linesPerFile) ((triples str2nt lines).map output)⟩ := by
  rw [NTReader.read, triples]
  induction lines.filter NTReader.accepts using List.reverseRecOn with
  | nil => rfl
  | append_singleton lines line ih =>
      rw [List.foldl_append, ih, List.foldl_cons, List.foldl_nil, List.filterMap_append]
      cases hline : str2nt line with
      | none =>
          rw [NTReader.readLine, if_pos rfl, hline]
          simp [hline]
      | some nt =>
          have hlast : [line].filterMap str2nt = [nt] := by simp [hline]
          rw [readLine_triple str2nt linesPerFile hline, hlast, List.map_append, List.map_singleton,
            writeAll_snoc, List.length_append, List.length_singleton, List.length_map]

end Run

/-! ## When the files are right -/

section Files

variable {str2nt : String → Option RdfStatement} {linesPerFile : ℤ} {lines : List String}

/-- The files hold the statements of the whole lines in their order, and none is too long. -/
structure SplitsRight (str2nt : String → Option RdfStatement) (linesPerFile : ℤ)
    (lines : List String) : Prop where
  concatenation : (main str2nt linesPerFile lines).flatten =
    (triples str2nt lines).filterMap fun nt => (converted nt).map Statement.id
  bound : ∀ file ∈ main str2nt linesPerFile lines, (file.length : ℤ) ≤ linesPerFile

/-- How many of the first `k` triples are whole. -/
def wholeBefore (nts : List RdfStatement) (k : ℕ) : ℕ := (nts.take k).countP fun nt => Whole nt

/-- A stretch of triples in which none but the last is whole and due holds at most as many whole
triples as belong in a file. -/
def Spaced (linesPerFile : ℤ) (nts : List RdfStatement) : Prop :=
  ∀ i j, i ≤ j → j ≤ nts.length →
    (∀ k, i ≤ k → k + 1 < j → ∀ nt, nts[k]? = some nt → Whole nt →
      dueAt linesPerFile (k + 1) = false) →
    (wholeBefore nts j : ℤ) ≤ linesPerFile + wholeBefore nts i

section FilterMap

variable {α β : Type} {f g : α → Option β} (h : ∀ a, (g a).isSome = true → f a = g a)

include h

theorem length_filterMap_le (l : List α) : (l.filterMap g).length ≤ (l.filterMap f).length := by
  induction l with
  | nil => exact le_rfl
  | cons a l ih =>
      cases hg : g a with
      | none =>
          rw [List.filterMap_cons_none hg]
          refine ih.trans ?_
          rw [List.filterMap_cons]
          split
          · exact le_rfl
          · exact Nat.le_succ _
      | some b =>
          have hf : f a = some b := by rw [h a (by rw [hg]; rfl), hg]
          rw [List.filterMap_cons_some hg, List.filterMap_cons_some hf]
          exact Nat.succ_le_succ ih

/-- A function that gives more elsewhere gives the same list only where it gives the same. -/
theorem filterMap_eq_iff (l : List α) :
    l.filterMap f = l.filterMap g ↔ ∀ a ∈ l, f a = g a := by
  induction l with
  | nil => exact iff_of_true rfl (fun _ hmem => nomatch hmem)
  | cons a l ih =>
      rw [List.forall_mem_cons]
      cases hg : g a with
      | some b =>
          have hf : f a = some b := by rw [h a (by rw [hg]; rfl), hg]
          rw [List.filterMap_cons_some hg, List.filterMap_cons_some hf, hf, List.cons_inj_right, ih]
          exact (and_iff_right rfl).symm
      | none =>
          rw [List.filterMap_cons_none hg]
          cases hf : f a with
          | none =>
              rw [List.filterMap_cons_none hf, ih]
              exact (and_iff_right rfl).symm
          | some b =>
              -- the longer list is not the shorter one
              rw [List.filterMap_cons_some hf]
              have hlength := length_filterMap_le h l
              refine iff_of_false (fun heq => ?_) (fun hboth => ?_)
              · rw [← heq, List.length_cons] at hlength
                omega
              · cases hboth.1

end FilterMap

/-- The files of a run are those of a writer that rotates when the counter says so. -/
theorem main_eq (str2nt : String → Option RdfStatement) (linesPerFile : ℤ) (lines : List String) :
    main str2nt linesPerFile lines =
      (writeAll (dueAt linesPerFile) ((triples str2nt lines).map output)).files := by
  rw [main, read_eq]

/-- The files hold the right statements exactly when no line is a stray. -/
theorem concatenation_iff :
    (main str2nt linesPerFile lines).flatten =
        ((triples str2nt lines).filterMap fun nt => (converted nt).map Statement.id) ↔
      ∀ nt ∈ triples str2nt lines, ¬ Stray nt := by
  have hagree : ∀ nt : RdfStatement, ((converted nt).map Statement.id).isSome = true →
      output nt = (converted nt).map Statement.id := by
    intro nt hsome
    have hwhole : Whole nt := by
      by_contra hnot
      rw [converted_eq_none hnot] at hsome
      cases hsome
    exact output_of_whole hwhole
  rw [main_eq, flatten_files, List.filterMap_map, Function.id_comp, filterMap_eq_iff hagree]
  exact forall₂_congr fun nt _ => output_eq_iff nt

/-- Without strays the items that are there are those of the whole triples. -/
theorem isSome_output {nt : RdfStatement} (h : ¬ Stray nt) :
    (output nt).isSome = true ↔ Whole nt := by
  rw [output, Option.isSome_map, toDNarsStatement_isSome_iff, or_iff_left h]

/-- Without stray triples, the whole ones are those written. -/
theorem written_output {nts : List RdfStatement} (h : ∀ nt ∈ nts, ¬ Stray nt) (k : ℕ) :
    written (nts.map output) k = wholeBefore nts k := by
  rw [written, wholeBefore, ← List.map_take, List.countP_map]
  apply List.countP_congr
  intro nt hnt
  rw [Function.comp_apply, isSome_output (h nt (List.mem_of_mem_take hnt)), decide_eq_true_eq]

/-- A stretch without a rotation, by the whole triples in it. -/
theorem clear_output {nts : List RdfStatement} (h : ∀ nt ∈ nts, ¬ Stray nt) (i j : ℕ) :
    Clear (dueAt linesPerFile) (nts.map output) i j ↔
      ∀ k, i ≤ k → k + 1 < j → ∀ nt, nts[k]? = some nt → Whole nt →
        dueAt linesPerFile (k + 1) = false := by
  refine forall_congr' fun k => forall_congr' fun _ => forall_congr' fun _ => ?_
  rw [Rotates, List.getElem?_map]
  cases hk : nts[k]? with
  | none => simp
  | some nt =>
      have hnt : ¬ Stray nt := h nt (List.mem_of_getElem? hk)
      have hiff := isSome_output hnt
      rw [Option.isSome_iff_exists] at hiff
      simp only [Option.map_some, Option.some.injEq, hiff, not_and, forall_eq']
      rw [← Bool.not_eq_true]
      exact ⟨fun hnot hw hdue => hnot hdue hw, fun hnot hdue hw => hnot hw hdue⟩

/-- No file is too long exactly when the whole triples are spaced. -/
theorem bound_iff (hpos : 0 < linesPerFile) (h : ∀ nt ∈ triples str2nt lines, ¬ Stray nt) :
    (∀ file ∈ main str2nt linesPerFile lines, (file.length : ℤ) ≤ linesPerFile) ↔
      Spaced linesPerFile (triples str2nt lines) := by
  obtain ⟨m, rfl⟩ : ∃ m : ℕ, linesPerFile = m := ⟨_, (Int.toNat_of_nonneg hpos.le).symm⟩
  have hlengths := files_length_le_iff (dueAt m) ((triples str2nt lines).map output) m
  rw [main_eq]
  simp only [Nat.cast_le]
  rw [hlengths, List.length_map, Spaced]
  simp only [clear_output h, written_output h]
  norm_cast

end Files

/-- The files are right exactly when no line is a stray and the whole lines are spaced. -/
theorem splits_right_iff (str2nt : String → Option RdfStatement) {linesPerFile : ℤ}
    (hpos : 0 < linesPerFile) (lines : List String) :
    SplitsRight str2nt linesPerFile lines ↔
      (∀ nt ∈ triples str2nt lines, ¬ Stray nt) ∧
        Spaced linesPerFile (triples str2nt lines) := by
  constructor
  · rintro ⟨hconcatenation, hbound⟩
    have hstray := concatenation_iff.1 hconcatenation
    exact ⟨hstray, (bound_iff hpos hstray).1 hbound⟩
  · rintro ⟨hstray, hspaced⟩
    exact ⟨concatenation_iff.2 hstray, (bound_iff hpos hstray).2 hspaced⟩

/-! ### Lines of a file -/

def linkLine : String := "<http://ex/a> <http://ex/p> <http://ex/b> ."

/-- The object is the empty literal. -/
def emptyLine : String := "<http://ex/a> <http://ex/p> \"\" ."

/-- The parser on these lines. -/
def parseLine (line : String) : Option RdfStatement :=
  if line = linkLine then some ⟨"http://ex/a", "http://ex/p", "http://ex/b"⟩
  else if line = emptyLine then some ⟨"http://ex/a", "http://ex/p", ""⟩
  else none

theorem wholeBefore_le (nts : List RdfStatement) (k : ℕ) : wholeBefore nts k ≤ nts.length :=
  (List.countP_le_length).trans (List.length_take_le' k nts)

/-- The first file is full after two statements. The third line is a comment, and the statement of
the fourth goes to the next file. -/
theorem splits_right_iff_link :
    (main parseLine 2 [linkLine, linkLine, "# links", linkLine]).map List.length = [2, 1] ∧
      SplitsRight parseLine 2 [linkLine, linkLine, "# links", linkLine] := by
  refine ⟨by decide +kernel, (splits_right_iff parseLine (by decide) _).2 ?_⟩
  have htriples : triples parseLine [linkLine, linkLine, "# links", linkLine] =
      List.replicate 3 ⟨"http://ex/a", "http://ex/p", "http://ex/b"⟩ := by decide +kernel
  rw [htriples]
  constructor
  · intro nt hnt
    rw [List.eq_of_mem_replicate hnt]
    exact not_stray_of_whole (by decide +kernel)
  · intro i j hij hj hdue
    rw [List.length_replicate] at hj
    have hcount : ∀ k ≤ 3, wholeBefore (List.replicate 3
        ⟨"http://ex/a", "http://ex/p", "http://ex/b"⟩) k = k := by decide +kernel
    rw [hcount j hj, hcount i (hij.trans hj)]
    -- a stretch of three triples has the second one in it, which is due
    have hshort : ¬ (i = 0 ∧ j = 3) := by
      rintro ⟨rfl, rfl⟩
      have hfull := hdue 1 (by decide) (by decide) _ rfl (by decide +kernel)
      revert hfull
      decide +kernel
    omega

/-- The second of four lines is not converted, and the first file takes the other three. -/
theorem rotation_skipped :
    ¬ ∀ (str2nt : String → Option RdfStatement) (linesPerFile : ℤ), 0 < linesPerFile →
      ∀ lines, SplitsRight str2nt linesPerFile lines := by
  intro hall
  have hright := hall parseLine 2 (by decide) [linkLine, emptyLine, linkLine, linkLine]
  have hstray := concatenation_iff.1 hright.concatenation
  have hspaced := (bound_iff (by decide) hstray).1 hright.bound
  have htriples : triples parseLine [linkLine, emptyLine, linkLine, linkLine] =
      [⟨"http://ex/a", "http://ex/p", "http://ex/b"⟩, ⟨"http://ex/a", "http://ex/p", ""⟩,
        ⟨"http://ex/a", "http://ex/p", "http://ex/b"⟩,
        ⟨"http://ex/a", "http://ex/p", "http://ex/b"⟩] := by decide +kernel
  rw [htriples] at hspaced
  have hthree := hspaced 0 4 (by decide) (by decide) ?_
  · revert hthree
    decide +kernel
  · rintro (_ | _ | _ | k) - hk nt hnt hw
    · decide
    · -- the line that is due is not whole
      cases hnt
      exact absurd hw (by decide +kernel)
    · decide
    · omega

end Converter

end Siebog.DNars
