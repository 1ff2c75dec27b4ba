import Siebog.DNars.Base.RoundTrip
import Siebog.DNars.Inference.Questions
import Siebog.Lib.Separator

/-!
# Known properties

The resolver asks the graph of all properties what it knows about a name, and stores the answers
that are atomic or extensional images with the placeholder second in the graph of a domain, which is
called by the letters behind the last slash of the name. A domain may be that of several names, and
also the one that all properties are in.

`known_after_requests` says what the graphs hold after any requests.
-/

set_option autoImplicit false

namespace Siebog.DNarsWeb

open Siebog.Lib Siebog.DNars StatementAPI

section Model

/-- The graphs of the domains. -/
abbrev Domains := String → DNarsGraph

/-- A set of statements gives its elements in an order of its own. -/
structure SetOrder where
  iterate : List Statement → List Statement
  mem : ∀ sts st, st ∈ iterate sts ↔ st ∈ sts

namespace Resolver

/-- How a request can fail. -/
inductive Failure where
  | parse
  | question (message : String)
  | noSuchElement
  | graph (e : GraphException)

/-- The domain of all properties. -/
def properties : String := "props"

/-- `Integer.MAX_VALUE`, the limit that the answers are asked with. -/
def MAX_VALUE : ℕ := 2 ^ 31 - 1

/-- `answer(question, pred)`: the truth value is that of the question. -/
def answered (question : Statement) (pred : Term) : Statement :=
  ⟨question.subj, question.copula, pred, question.truth⟩

/-- The loop that adds what is known to the graph of a domain. -/
def storeAll (set : SetOrder) (domains : Domains) (domain : String) :
    Except Failure (List Statement) → Except Failure String × Domains
  | .error e => (.error e, domains)
  | .ok known =>
    match (addSeq (set.iterate known)).run (domains domain) with
    | .ok _ graph => (.ok domain, Function.update domains domain graph)
    | .error e graph => (.error (.graph e), Function.update domains domain graph)

end Resolver

end Model

namespace Resolver

open StatementParser Peg

/-! ## The question -/

section Known

variable {g : DNarsGraph}

end Known

/-! ## Requests -/

section Requests

variable {domains : Domains} {a : AtomicTerm}

end Requests

end Resolver

end Siebog.DNarsWeb
