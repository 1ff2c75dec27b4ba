import Siebog.Lib.Peg

/-!
# Terms

An atomic term is a nonempty string without whitespace and parentheses: the strings the regular
expression `[^\s()]+` of the statement grammar accepts, and the only ones the system builds terms
from. `AtomicTerm` carries that fact, so a term with an ambiguous printed form cannot be built.
A compound term is a connector with a list of atomic components.

`Term.id` is the printed form, which also is the key under which the graph stores the term.
-/

set_option autoImplicit false

namespace Siebog.DNars

open Siebog.Lib

/-- The character class `[^\s()]`. -/
def isTermChar (c : Char) : Bool := !Peg.isSpace c && c != '(' && c != ')'

/-- The whole string matches `[^\s()]+`. -/
def isTermId (id : String) : Bool := !id.toList.isEmpty && id.toList.all isTermChar

/-- Atomic term with a string content. -/
structure AtomicTerm where
  id : String
  wf : isTermId id = true
  deriving DecidableEq

/-- The atomic term with the given content. -/
abbrev atom (id : String) (wf : isTermId id = true := by exact Eq.refl true) : AtomicTerm := ⟨id, wf⟩

namespace AtomicTerm

/-- The term that a question asks for. -/
def question : AtomicTerm := atom "?"
/-- The place of a component in an image. -/
def placeholder : AtomicTerm := atom "*"

/-- The atomic term with content `id`, when `id` is one. -/
def ofString? (id : String) : Option AtomicTerm :=
  if h : isTermId id = true then some ⟨id, h⟩ else none

/-- Atomic terms are told apart by their text. -/
theorem eq_of_id {a b : AtomicTerm} (h : a.id = b.id) : a = b := by
  cases a
  cases b
  cases h
  rfl

/-- The text of an atomic term is not empty. -/
theorem id_ne_nil (a : AtomicTerm) : a.id.toList ≠ [] := by
  have h := a.wf
  simp only [isTermId, Bool.and_eq_true, Bool.not_eq_true', List.isEmpty_eq_false_iff] at h
  exact h.1

/-- The text of an atomic term has letters of the alphabet only. -/
theorem isTermChar_of_mem (a : AtomicTerm) {c : Char} (hc : c ∈ a.id.toList) :
    isTermChar c = true := by
  have h := a.wf
  simp only [isTermId, Bool.and_eq_true, List.all_eq_true] at h
  exact h.2 c hc

/-- An atomic term is read back from its text. -/
theorem ofString?_id (a : AtomicTerm) : ofString? a.id = some a := by
  rw [ofString?, dif_pos a.wf]

end AtomicTerm

/-- No letter of the alphabet is a space. -/
theorem isSpace_of_isTermChar {c : Char} (h : isTermChar c = true) : Peg.isSpace c = false := by
  simp only [isTermChar, Bool.and_eq_true, Bool.not_eq_true'] at h
  exact h.1.1

/-- Connectors for compound terms. -/
inductive Connector where
  | product
  | extImage
  | intImage
  deriving DecidableEq, Repr

/-- The connector as it is printed and parsed. -/
def Connector.text : Connector → String
  | product => "x"
  | extImage => "/"
  | intImage => "\\"

/-- Terms: atomic, or compound with a connector and a list of atomic components. -/
inductive Term where
  | atomic (a : AtomicTerm)
  | compound (con : Connector) (comps : List AtomicTerm)
  deriving DecidableEq

namespace Term

/-- The printed form: `comps.mkString(s"($con ", " ", ")")` for a compound. -/
def id : Term → String
  | atomic a => a.id
  | compound con comps => "(" ++ con.text ++ " " ++ " ".intercalate (comps.map (·.id)) ++ ")"

/-- The text of an atomic term, as a term. -/
theorem id_atomic (a : AtomicTerm) : (atomic a).id = a.id := rfl

/-- The text of a compound term: the connector and the components in parentheses, with single
spaces. -/
theorem toList_id_compound (con : Connector) (comps : List AtomicTerm) :
    (compound con comps).id.toList =
      '(' :: (con.text.toList ++ ' ' :: ([' '].intercalate (comps.map (·.id.toList)) ++ [')'])) := by
  simp [id, String.toList_append, String.toList_intercalate, Function.comp_def]

end Term

end Siebog.DNars
