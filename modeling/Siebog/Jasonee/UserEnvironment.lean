import Siebog.Lib.Trace
import Mathlib.Data.Finset.Basic

/-!
# Percepts of the user environment

`UserEnvironment` keeps a list of percepts for all agents, a list for each agent that has percepts
of its own, and the set `uptodateAgs` of the agents that have seen the current lists. Executor
threads change the lists while agents read them, and every call on one of these collections is
atomic.

An operation is a list of calls still to be made. Executing the first of them changes the fields and
puts the calls that follow from its answer in its place (`Op.exec`). A thread of the executor is
such a list; the reader of an agent is a `Phase`, as its calls are always the same.

Agents are named by a type `Ag`, literals are a type `L`, and `unifies` is the unifier. The lists of
an agent are numbered in the order in which they are put into the map, so a number stands for the
identity of a list. Calls whose arguments are `null` return at once and are not modelled, and so is
`size`, which only sets the capacity of the copy.
-/

set_option autoImplicit false

namespace Siebog.Jasonee

open Siebog.Lib

variable {Ag L : Type} [DecidableEq Ag] [DecidableEq L]

section Fields

/-- The shared fields. `created` counts the lists made so far, and `lists` are their contents. -/
structure UserEnvironment (Ag L : Type) where
  percepts : List L
  agPercepts : List (Ag × ℕ)
  created : ℕ
  lists : Ag → ℕ → List L
  uptodateAgs : Finset Ag

namespace UserEnvironment

/-- A new environment. -/
def new (Ag L : Type) : UserEnvironment Ag L := ⟨[], [], 0, fun _ _ => [], ∅⟩

/-- `agPercepts.get`. -/
def get (e : UserEnvironment Ag L) (agName : Ag) : Option ℕ := e.agPercepts.lookup agName

/-- The contents of the agent's list, none if it has no list. -/
def agl (e : UserEnvironment Ag L) (agName : Ag) : Option ℕ → List L
  | none => []
  | some r => e.lists agName r

def consultPercepts (e : UserEnvironment Ag L) (agName : Ag) : List L :=
  e.percepts ++ e.agl agName (e.get agName)

/-- The contents of one list are replaced. -/
def setList (e : UserEnvironment Ag L) (agName : Ag) (r : ℕ) (l : List L) :
    UserEnvironment Ag L :=
  { e with lists := fun ag n => if ag = agName ∧ n = r then l else e.lists ag n }

/-- A new list is put into the map. -/
def putList (e : UserEnvironment Ag L) (agName : Ag) : UserEnvironment Ag L :=
  { e.setList agName e.created [] with
    agPercepts := (agName, e.created) :: e.agPercepts
    created := e.created + 1 }

end UserEnvironment

end Fields

section Mutators

/-- A change of a list by one call. -/
inductive Write (L : Type) where
  | add (per : L)
  | remove (per : L)
  | clear

/-- The list after the call. -/
def Write.apply : Write L → List L → List L
  | .add per, l => l ++ [per]
  | .remove per, l => l.erase per
  | .clear, _ => []

/-- A call on a shared collection, with what its caller does after it. The calls of the global
methods come first, then those of the methods for one agent, under the name of the method where they
are its first. -/
inductive Op (Ag L : Type) where
  /-- `percepts.contains` -/
  | addPercept (per : L)
  /-- `percepts.add` -/
  | perceptsAdd (per : L)
  /-- `uptodateAgs.clear`, as the last call of its method -/
  | marksClear
  /-- `uptodateAgs.clear`, before the list is changed -/
  | unmarkAll (w : Write L)
  /-- `percepts.remove` or `percepts.clear` -/
  | perceptsWrite (w : Write L)
  /-- `percepts.isEmpty` -/
  | removePerceptsByUnif (per : L)
  /-- the loop of `removePerceptsByUnif`, which holds the lock of the list -/
  | perceptsFilter (per : L)
  /-- `percepts.isEmpty` -/
  | clearPercepts
  /-- `agPercepts.keySet` -/
  | clearEach
  /-- `agPercepts.get` -/
  | addPerceptAg (agName : Ag) (per : List L)
  /-- `agPercepts.put` -/
  | put (agName : Ag) (per : List L)
  /-- `agl.contains` -/
  | addOne (agName : Ag) (r : ℕ) (p : L)
  /-- `agPercepts.get` -/
  | removePerceptAg (agName : Ag) (per : L)
  /-- `agPercepts.get` -/
  | clearPerceptsAg (agName : Ag)
  /-- `uptodateAgs.remove`, before the list is changed -/
  | unmark (agName : Ag) (r : ℕ) (w : Write L)
  /-- `agl.add`, `agl.remove` or `agl.clear` -/
  | aglWrite (agName : Ag) (r : ℕ) (w : Write L)
  /-- `agPercepts.get` -/
  | removePerceptsByUnifAg (agName : Ag) (per : L)
  /-- the loop of `removePerceptsByUnif`, which holds the lock of the list -/
  | aglFilter (agName : Ag) (r : ℕ) (per : L)
  /-- `uptodateAgs.remove`, as the last call of its method -/
  | markRemove (agName : Ag)

/-- The methods that change percepts. -/
inductive Mutator (Ag L : Type) where
  | addPercept (per : L)
  | removePercept (per : L)
  | removePerceptsByUnif (per : L)
  | clearPercepts
  | addPerceptAg (agName : Ag) (per : List L)
  | removePerceptAg (agName : Ag) (per : L)
  | removePerceptsByUnifAg (agName : Ag) (per : L)
  | clearPerceptsAg (agName : Ag)
  | clearAllPercepts

/-- The calls a method starts with. -/
def Mutator.body : Mutator Ag L → List (Op Ag L)
  | .addPercept per => [.addPercept per]
  | .removePercept per => [.unmarkAll (.remove per)]
  | .removePerceptsByUnif per => [.removePerceptsByUnif per]
  | .clearPercepts => [.clearPercepts]
  | .addPerceptAg agName per => [.addPerceptAg agName per]
  | .removePerceptAg agName per => [.removePerceptAg agName per]
  | .removePerceptsByUnifAg agName per => [.removePerceptsByUnifAg agName per]
  | .clearPerceptsAg agName => [.clearPerceptsAg agName]
  | .clearAllPercepts => [.clearPercepts, .clearEach]

variable (unifies : L → L → Bool)

/-- One call: the fields after it, and the calls that follow from its answer. `keys` are the keys
that the iterator over the map will show. -/
def Op.exec (e : UserEnvironment Ag L) (keys : List Ag) :
    Op Ag L → UserEnvironment Ag L × List (Op Ag L)
  -- the test and the write are two steps: another thread may come between them
  | .addPercept per => (e, if per ∈ e.percepts then [] else [.perceptsAdd per])
  | .perceptsAdd per => ({ e with percepts := e.percepts ++ [per] }, [.marksClear])
  | .marksClear => ({ e with uptodateAgs := ∅ }, [])
  -- the marks are cleared first, and the list is written after that
  | .unmarkAll w => ({ e with uptodateAgs := ∅ }, [.perceptsWrite w])
  | .perceptsWrite w => ({ e with percepts := w.apply e.percepts }, [])
  | .removePerceptsByUnif per => (e, if e.percepts = [] then [] else [.perceptsFilter per])
  | .perceptsFilter per =>
      ({ e with percepts := e.percepts.filter fun l => !unifies l per },
        if e.percepts.any fun l => unifies l per then [.marksClear] else [])
  | .clearPercepts => (e, if e.percepts = [] then [] else [.unmarkAll .clear])
  | .clearEach => (e, keys.map .clearPerceptsAg)
  | .addPerceptAg agName per =>
      (e, match e.get agName with
        | none => [.put agName per]
        | some r => per.map (.addOne agName r))
  -- the entry is put in the map, and the list is filled after that
  | .put agName per => (e.putList agName, per.map (.addOne agName e.created))
  | .addOne agName r p =>
      (e, if p ∈ e.lists agName r then [] else [.unmark agName r (.add p)])
  | .removePerceptAg agName per =>
      (e, match e.get agName with
        | none => []
        | some r => [.unmark agName r (.remove per)])
  | .clearPerceptsAg agName =>
      (e, match e.get agName with
        | none => []
        | some r => [.unmark agName r .clear])
  | .unmark agName r w =>
      ({ e with uptodateAgs := e.uptodateAgs.erase agName }, [.aglWrite agName r w])
  | .aglWrite agName r w => (e.setList agName r (w.apply (e.lists agName r)), [])
  | .removePerceptsByUnifAg agName per =>
      (e, match e.get agName with
        | none => []
        | some r => [.aglFilter agName r per])
  | .aglFilter agName r per =>
      (e.setList agName r ((e.lists agName r).filter fun l => !unifies l per),
        if (e.lists agName r).any fun l => unifies l per then [.markRemove agName] else [])
  | .markRemove agName => ({ e with uptodateAgs := e.uptodateAgs.erase agName }, [])

end Mutators

section Reader

/-- Where the reader of an agent stands in `getPercepts`: outside, before `uptodateAgs.add`, before
`agPercepts.get`, before `percepts.isEmpty` and before the copy of `percepts` with the agent's list
in hand, and before the copy of the agent's list with the copied percepts in hand. -/
inductive Phase (L : Type) where
  | idle
  | checked
  | marked
  | found (agl : Option ℕ)
  | nonEmpty (agl : Option ℕ)
  | copied (agl : Option ℕ) (p : List L)
  deriving DecidableEq

/-- A returned value: to whom, and what; `none` is `null`. -/
abbrev Returned (Ag L : Type) := Ag × Option (List L)

/-- One call of `getPercepts`. The last copy returns. -/
def getPercepts (e : UserEnvironment Ag L) (agName : Ag) :
    Phase L → UserEnvironment Ag L × Phase L × List (Returned Ag L)
  | .idle =>
      if agName ∈ e.uptodateAgs then (e, .idle, [(agName, none)]) else (e, .checked, [])
  -- the agent is marked before its percepts are read
  | .checked => ({ e with uptodateAgs := insert agName e.uptodateAgs }, .marked, [])
  | .marked => (e, .found (e.get agName), [])
  | .found agl => (e, if e.percepts = [] then .copied agl [] else .nonEmpty agl, [])
  | .nonEmpty agl => (e, .copied agl e.percepts, [])
  | .copied agl p => (e, .idle, [(agName, some (p ++ e.agl agName agl))])

end Reader

section System

/-- The environment, the threads of the executor, and the readers of the agents. Only the agent
itself calls `getPercepts`, so there is one reader for each. -/
structure Perception (Ag L : Type) where
  env : UserEnvironment Ag L
  threads : List (List (Op Ag L))
  readers : Ag → Phase L

/-- What happens next: a method is started in a new thread, a thread makes its next call, or a
reader does. -/
inductive Action (Ag L : Type) where
  | start (m : Mutator Ag L)
  | mutate (thread : ℕ) (keys : List Ag)
  | read (agName : Ag)

namespace Perception

def init (Ag L : Type) : Perception Ag L := ⟨.new Ag L, [], fun _ => .idle⟩

variable (unifies : L → L → Bool)

/-- The keys shown by an iterator over the map include those that are there when it is made. -/
def step (s : Perception Ag L) :
    Action Ag L → Option (Perception Ag L × List (Returned Ag L))
  | .start m => some ({ s with threads := s.threads ++ [m.body] }, [])
  | .mutate t keys =>
      match s.threads[t]? with
      | some (op :: rest) =>
          if ∀ entry ∈ s.env.agPercepts, entry.1 ∈ keys then
            let (env, ops) := op.exec unifies s.env keys
            some ({ s with env := env, threads := s.threads.set t (ops ++ rest) }, [])
          else none
      | _ => none
  | .read agName =>
      let (env, phase, out) := getPercepts s.env agName (s.readers agName)
      some ({ s with
        env := env
        readers := fun ag => if ag = agName then phase else s.readers ag }, out)

end Perception

end System

end Siebog.Jasonee
