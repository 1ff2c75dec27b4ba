import Siebog.DNars.Base.Statement

/-!
# The statement grammar

`StatementParser` reads a judgement, subject, copula, predicate and truth value, or a question with
`?` for one of its terms. The productions are those of the source, in its order: choice is
committed, tokens are greedy and skip leading whitespace, and connectors are matched without word
boundaries.
-/

set_option autoImplicit false

namespace Siebog.DNars

open Siebog.Lib

namespace StatementParser

open Peg

/-- `\d+(\.\d*)?` -/
def numeral : Matcher := fun inp =>
  match oneOrMore Char.isDigit inp with
  | some (whole, '.' :: rest) =>
    some (whole ++ '.' :: rest.takeWhile Char.isDigit, rest.dropWhile Char.isDigit)
  | r => r

/-- The value of a numeral. -/
def toDouble (numeral : List Char) : ℚ :=
  let whole := numeral.takeWhile Char.isDigit
  let fraction := (numeral.dropWhile Char.isDigit).drop 1
  (Nat.ofDigitChars 10 (whole ++ fraction) 0 : ℚ) / 10 ^ fraction.length

/-- A frequency or a confidence. -/
def number : Parser (Num ℚ) := do
  let digits ← regex numeral
  return .val (toDouble digits.toList)

/-- `[^\s()]+`; what the regular expression matches is the content of an atomic term. -/
def atomicTerm : Parser AtomicTerm := do
  let id ← regex (oneOrMore isTermChar)
  StateT.lift (AtomicTerm.ofString? id)

/-- A connector as a literal. -/
def con (c : Connector) : Parser Connector := do
  let _ ← literal c.text
  return c

/-- A connector of images. -/
def image : Parser Connector := con .extImage <|> con .intImage

/-- Any connector; products are tried first. -/
def connector : Parser Connector := con .product <|> image

/-- `(con t u ...)`, with at least two components. -/
def prefixCompTerm : Parser Term := do
  let _ ← literal "("
  let con ← connector
  let t ← atomicTerm
  let list ← rep1 atomicTerm
  let _ ← literal ")"
  return .compound con (t :: list)

/-- A connector and the component after it. -/
def infixComp : Parser (Connector × AtomicTerm) := do
  let con ← connector
  let t ← atomicTerm
  return (con, t)

/-- `(t con u con v ...)`. The first connector counts, the others are read and dropped. -/
def infixCompTerm : Parser Term := do
  let _ ← literal "("
  let t ← atomicTerm
  let head ← infixComp
  let list ← rep infixComp
  let _ ← literal ")"
  return .compound head.1 (t :: (head :: list).map (·.2))

/-- `(img rel * t)`. -/
def imgCompTerm1 : Parser Term := do
  let _ ← literal "("
  let img ← image
  let rel ← atomicTerm
  let _ ← literal "*"
  let t ← atomicTerm
  let _ ← literal ")"
  return .compound img [rel, .placeholder, t]

/-- `(img rel t *)`. -/
def imgCompTerm2 : Parser Term := do
  let _ ← literal "("
  let img ← image
  let rel ← atomicTerm
  let t ← atomicTerm
  let _ ← literal "*"
  let _ ← literal ")"
  return .compound img [rel, t, .placeholder]

/-- The four ways to write a compound term; the first that reads the input counts. Images are thus
read by `prefixCompTerm` as well, with the placeholder as an atomic term. -/
def compoundTerm : Parser Term :=
  prefixCompTerm <|> infixCompTerm <|> imgCompTerm1 <|> imgCompTerm2

/-- An atomic term as a term. -/
def atomic : Parser Term := do
  let t ← atomicTerm
  return .atomic t

/-- A term starts with a parenthesis exactly when it is compound. -/
def term : Parser Term := atomic <|> compoundTerm

/-- A copula as a literal. -/
def cop (c : Copula) : Parser Copula := do
  let _ ← literal c.text
  return c

/-- `->` or `~`. -/
def copula : Parser Copula := cop .inherit <|> cop .similar

/-- A statement with its truth value, `s r p (f,c)`. -/
def judgement : Parser Statement := do
  let s ← term
  let r ← copula
  let p ← term
  let _ ← literal "("
  let f ← number
  let _ ← literal ","
  let c ← number
  let _ ← literal ")"
  return ⟨s, r, p, ⟨f, c⟩⟩

/-- The truth value of a question. -/
def questionTruth : Truth := ⟨.val 1, .val (9 / 10)⟩

/-- `? r p`. -/
def questionSubj : Parser Statement := do
  let _ ← literal "?"
  let r ← copula
  let p ← term
  return ⟨.atomic .question, r, p, questionTruth⟩

/-- `s r ?`. -/
def questionPred : Parser Statement := do
  let s ← term
  let r ← copula
  let _ ← literal "?"
  return ⟨s, r, .atomic .question, questionTruth⟩

/-- A question for the subject or for the predicate. -/
def question : Parser Statement := questionSubj <|> questionPred

/-- What the parser accepts: a judgement or a question. -/
def statement : Parser Statement := judgement <|> question

/-- The statement a string parses to; the source raises an error where this is `none`. -/
def parse (input : String) : Option Statement := parseAll statement input

example : parse "cat ~ dog (1.0,0.9)" =
    some ⟨.atomic (atom "cat"), .similar, .atomic (atom "dog"), ⟨.val 1, .val (9 / 10)⟩⟩ := by
  decide +kernel

end StatementParser

end Siebog.DNars
