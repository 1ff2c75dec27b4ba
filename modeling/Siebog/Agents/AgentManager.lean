import Siebog.Agents.AID
import Mathlib.Logic.Function.Basic

/-!
# Starting an agent

The agent manager keeps the running agents in a cache. Starting an agent under an identifier that is
in the cache stops the old agent first; then the bean is looked up, a stateful one before a
stateless one, put into the cache and initialised. Four overloads lead there.

Whatever throws on the way leaves the cache as it is at that moment, and the overload that takes a
class, a name and `replace` passes on everything but `replace`. `start_all_or_nothing_iff` says
which calls are all or nothing all the same.
-/

set_option autoImplicit false

namespace Siebog.Agents.AgentManager

open Siebog.Lib Siebog.Lib.Utf16

variable {α : Type}

section Model

/-- The running agents. Identifiers are compared by `str`. -/
abbrev Cache (α : Type) := Text → Option α

namespace Cache

/-- An agent runs under the identifier. -/
def containsKey (c : Cache α) (aid : AID) : Bool := (c aid.str).isSome

/-- The agent runs under the identifier, whatever ran there before. -/
def put (c : Cache α) (aid : AID) (agent : α) : Cache α := Function.update c aid.str (some agent)

/-- Nothing runs under the identifier any more. -/
def remove (c : Cache α) (aid : AID) : Cache α := Function.update c aid.str none

end Cache

/-- The named arguments an agent starts with. -/
abbrev AgentInitArgs := Text → Option Text

/-- The argument under a name, or the default. -/
def AgentInitArgs.get (args : AgentInitArgs) (key default : Text) : Text := (args key).getD default

/-- The exceptions of a start: the identifier is taken, no bean has the name, or the agent's own
initialisation failed. -/
inductive StartException where
  | alreadyRunning (aid : AID)
  | lookupFailed (name : Text)
  | init (message : String)
  deriving DecidableEq

/-- What the manager calls: the bean under a name, if there is one, and the initialisation of an
agent. An agent may use the manager while it is initialised, to stop itself for instance, so its
initialisation leaves a cache of its own, and possibly an exception. -/
structure Container (α : Type) where
  lookup : Text → Option α
  init : α → AID → Option AgentInitArgs → Cache α → Cache α × Option String

/-- A call: the caches it went through, from the one before the call on, and the exception. -/
structure Call (α : Type) where
  before : Cache α
  later : List (Cache α)
  thrown : Option StartException

namespace Call

/-- The cache that the call leaves. -/
def after (call : Call α) : Cache α := call.later.getLast?.getD call.before

/-- All caches that another caller may have seen, the first and the last included. -/
def caches (call : Call α) : List (Cache α) := call.before :: call.later

end Call

/-- The name that the bean of an agent class is looked up under. -/
def getAgentLookup (agClass : AgentClass) (stateful : Bool) : Text :=
  text "ejb:/" ++ agClass.module ++ text "//" ++ agClass.ejbName ++ text "!siebog.agents.Agent" ++
    if stateful then text "?stateful" else []

/-- Takes the agent out of the cache; nothing happens when none runs under the identifier. -/
def stopAgent (c : Cache α) (aid : AID) : Cache α :=
  if c.containsKey aid then c.remove aid else c

variable (E : Container α)

/-- A stateless bean is looked up when there is no stateful one. -/
def findAgent (agClass : AgentClass) : Option α :=
  match E.lookup (getAgentLookup agClass true) with
  | some agent => some agent
  | none => E.lookup (getAgentLookup agClass false)

/-- The agent is put into the cache before it is initialised. -/
def initAgent (c : Cache α) (agent : α) (aid : AID) (args : Option AgentInitArgs) :
    List (Cache α) × Option StartException :=
  let left := E.init agent aid args (c.put aid agent)
  ([c.put aid agent, left.1], left.2.map .init)

/-- `startServerAgent(aid, args, replace)`. -/
def startReplace (c : Cache α) (aid : AID) (args : Option AgentInitArgs) (replace : Bool) :
    Call α :=
  if c.containsKey aid && !replace then ⟨c, [], some (.alreadyRunning aid)⟩
  else
    -- the agent that runs is stopped before the new one is looked up
    let stopped := if c.containsKey aid then stopAgent c aid else c
    match findAgent E aid.agClass with
    | none => ⟨c, [stopped], some (.lookupFailed (getAgentLookup aid.agClass false))⟩
    | some agent =>
      let initialised := initAgent E stopped agent aid args
      ⟨c, stopped :: initialised.1, initialised.2⟩

/-- `startServerAgent(aid, args)`. -/
def start (c : Cache α) (aid : AID) (args : Option AgentInitArgs) : Call α :=
  startReplace E c aid args true

/-- The identifier of an agent started by class and name. -/
def aidOf (agClass : AgentClass) (name : Text) (args : Option AgentInitArgs) : AID :=
  let host := match args with
    | some args => args.get (text "host") AID.HOST_NAME
    | none => AID.HOST_NAME
  AID.ofHost name (some host) agClass

/-- `startServerAgent(agClass, name, args, replace)`. -/
def startClassReplace (c : Cache α) (agClass : AgentClass) (name : Text)
    (args : Option AgentInitArgs) (_replace : Bool) : Call α :=
  start E c (aidOf agClass name args) args

/-- `startServerAgent(agClass, runtimeName, args)`. -/
def startClass (c : Cache α) (agClass : AgentClass) (runtimeName : Text)
    (args : Option AgentInitArgs) : Call α :=
  startClassReplace E c agClass runtimeName args true

/-- A call of one of the overloads. -/
inductive Overload where
  | ofAid (aid : AID) (args : Option AgentInitArgs)
  | ofAidReplace (aid : AID) (args : Option AgentInitArgs) (replace : Bool)
  | ofClass (agClass : AgentClass) (runtimeName : Text) (args : Option AgentInitArgs)
  | ofClassReplace (agClass : AgentClass) (name : Text) (args : Option AgentInitArgs)
      (replace : Bool)

namespace Overload

/-- The call as the overload hands it on. -/
def run (c : Cache α) : Overload → Call α
  | .ofAid aid args => start E c aid args
  | .ofAidReplace aid args replace => startReplace E c aid args replace
  | .ofClass agClass runtimeName args => startClass E c agClass runtimeName args
  | .ofClassReplace agClass name args replace => startClassReplace E c agClass name args replace

/-- The identifier the agent is started under. -/
def aid : Overload → AID
  | .ofAid aid _ => aid
  | .ofAidReplace aid _ _ => aid
  | .ofClass agClass runtimeName args => aidOf agClass runtimeName args
  | .ofClassReplace agClass name args _ => aidOf agClass name args

/-- The arguments that the overload was called with. -/
def args : Overload → Option AgentInitArgs
  | .ofAid _ args => args
  | .ofAidReplace _ args _ => args
  | .ofClass _ _ args => args
  | .ofClassReplace _ _ args _ => args

/-- The overloads without the parameter replace. -/
def replace : Overload → Bool
  | .ofAidReplace _ _ replace => replace
  | .ofClassReplace _ _ _ replace => replace
  | _ => true

end Overload

end Model

section Steps

variable (E : Container α) (c : Cache α)

theorem stopped_eq (aid : AID) :
    (if c.containsKey aid then stopAgent c aid else c) = c.remove aid := by
  unfold stopAgent
  cases hkey : c.containsKey aid with
  | true => rfl
  | false =>
      rw [Cache.containsKey, Option.isSome_eq_false_iff, Option.isNone_iff_eq_none] at hkey
      exact (Function.update_eq_self_iff.2 hkey.symm).symm

theorem put_remove (aid : AID) (agent : α) : (c.remove aid).put aid agent = c.put aid agent :=
  Function.update_idem _ _ _

theorem remove_eq_self_iff (aid : AID) : c.remove aid = c ↔ c aid.str = none :=
  Function.update_eq_self_iff.trans eq_comm

/-- The call that comes to the lookup: the old agent is gone by then. -/
def replacing (aid : AID) (args : Option AgentInitArgs) : Call α :=
  match findAgent E aid.agClass with
  | none => ⟨c, [c.remove aid], some (.lookupFailed (getAgentLookup aid.agClass false))⟩
  | some agent =>
    let left := E.init agent aid args (c.put aid agent)
    ⟨c, [c.remove aid, c.put aid agent, left.1], left.2.map .init⟩

/-- A start is refused when the identifier is taken and must not be replaced; otherwise it
replaces. -/
theorem startReplace_eq (aid : AID) (args : Option AgentInitArgs) (replace : Bool) :
    startReplace E c aid args replace =
      if c.containsKey aid = true ∧ replace = false then ⟨c, [], some (.alreadyRunning aid)⟩
      else replacing E c aid args := by
  rw [startReplace, stopped_eq]
  by_cases hrefused : c.containsKey aid = true ∧ replace = false
  · rw [if_pos hrefused, if_pos (by simp [hrefused])]
  · rw [if_neg hrefused, if_neg (by simpa using hrefused), replacing]
    cases findAgent E aid.agClass with
    | none => rfl
    | some agent => simp only [initAgent, put_remove]

/-- The value of replace that the start of the agent gets to see. -/
def Overload.heeded : Overload → Bool
  | .ofAidReplace _ _ replace => replace
  | _ => true

theorem run_eq (o : Overload) : o.run E c = startReplace E c o.aid o.args o.heeded := by
  cases o with
  | ofAid aid args => rfl
  | ofAidReplace aid args replace => rfl
  | ofClass agClass runtimeName args => rfl
  | ofClassReplace agClass name args replace => rfl

end Steps

section AllOrNothing

variable (E : Container α) (c : Cache α)

/-- The overload with an identifier refuses to replace the agent that runs under it. -/
def Overload.Refused (o : Overload) : Prop := c.containsKey o.aid = true ∧ o.heeded = false

/-- A call that throws leaves the cache as it was, and one that must not replace keeps the agent
that was running the whole time. -/
structure AllOrNothing (o : Overload) : Prop where
  unchanged : (o.run E c).thrown ≠ none → (o.run E c).after = c
  kept : o.replace = false → ∀ agent, c o.aid.str = some agent →
    ∀ c' ∈ (o.run E c).caches, c' o.aid.str = some agent

/-- Nothing that the start does has to be undone: without a bean no agent was stopped for it, an
initialisation that throws leaves the cache as it was before the call, and where nothing may be
replaced nothing is running. -/
structure NothingToUndo (o : Overload) : Prop where
  lookup : findAgent E o.aid.agClass = none → c o.aid.str = none
  init : ∀ agent, findAgent E o.aid.agClass = some agent → ∀ left e,
    E.init agent o.aid o.args (c.put o.aid agent) = (left, some e) → left = c
  replace : o.replace = false → c o.aid.str = none

theorem allOrNothing_of_refused {o : Overload} (h : o.Refused c) : AllOrNothing E c o := by
  have hrun : o.run E c = ⟨c, [], some (.alreadyRunning o.aid)⟩ := by
    rw [run_eq, startReplace_eq]
    exact if_pos h
  refine ⟨fun _ => by rw [hrun]; rfl, fun _ agent hagent c' hc' => ?_⟩
  rw [hrun] at hc'
  rw [List.mem_singleton.1 hc']
  exact hagent

/-- The old agent is gone in a replacing call, so an overload that must not replace keeps it only
if there is none. -/
theorem kept_replacing_iff (o : Overload) :
    (o.replace = false → ∀ agent, c o.aid.str = some agent →
        ∀ c' ∈ (replacing E c o.aid o.args).caches, c' o.aid.str = some agent) ↔
      (o.replace = false → c o.aid.str = none) := by
  have hremoved : c.remove o.aid ∈ (replacing E c o.aid o.args).caches := by
    unfold replacing
    cases findAgent E o.aid.agClass with
    | none => simp [Call.caches]
    | some agent => simp [Call.caches]
  refine imp_congr_right fun _ => ⟨fun h => ?_, fun hnone agent hagent => ?_⟩
  · cases hrunning : c o.aid.str with
    | none => rfl
    | some agent =>
        have hstill := h agent hrunning _ hremoved
        rw [Cache.remove, Function.update_self] at hstill
        cases hstill
  · rw [hnone] at hagent
    cases hagent

/-- Each way a replacing call can throw, with the cache it leaves. -/
theorem unchanged_replacing_iff (aid : AID) (args : Option AgentInitArgs) :
    ((replacing E c aid args).thrown ≠ none → (replacing E c aid args).after = c) ↔
      (findAgent E aid.agClass = none → c aid.str = none) ∧
        ∀ agent, findAgent E aid.agClass = some agent → ∀ left e,
          E.init agent aid args (c.put aid agent) = (left, some e) → left = c := by
  unfold replacing
  cases hfound : findAgent E aid.agClass with
  | none => simp [Call.after, remove_eq_self_iff]
  | some agent =>
      rcases hinit : E.init agent aid args (c.put aid agent) with ⟨left, e⟩
      cases e with
      | none => simp [hinit]
      | some e => simp [hinit, Call.after]

/-- A call of an overload is all or nothing exactly when it is refused or has nothing to undo. -/
theorem start_all_or_nothing_iff (o : Overload) :
    AllOrNothing E c o ↔ o.Refused c ∨ NothingToUndo E c o := by
  by_cases hrefused : o.Refused c
  · exact iff_of_true (allOrNothing_of_refused E c hrefused) (.inl hrefused)
  · have hrun : o.run E c = replacing E c o.aid o.args := by
      rw [run_eq, startReplace_eq]
      exact if_neg hrefused
    have hunchanged := unchanged_replacing_iff E c o.aid o.args
    have hkept := kept_replacing_iff E c o
    rw [← hrun] at hunchanged hkept
    rw [or_iff_right hrefused]
    constructor
    · intro h
      obtain ⟨hlookup, hinit⟩ := hunchanged.1 h.unchanged
      exact ⟨hlookup, hinit, hkept.1 h.kept⟩
    · intro h
      exact ⟨hunchanged.2 ⟨h.lookup, h.init⟩, hkept.2 h.replace⟩

/-- The overload with a class and a name does not pass replace on. -/
theorem start_replaces_all_the_same :
    ¬ ∀ (E : Container ℕ) (c : Cache ℕ) (o : Overload), AllOrNothing E c o := by
  intro hall
  let E : Container ℕ := ⟨fun _ => some 1, fun _ _ _ c => (c, none)⟩
  let o : Overload := .ofClassReplace (AgentClass.forSiebogEjb (text "Ping")) (text "ping") none false
  -- nothing but the agent `ping` runs before the call
  let c : Cache ℕ := Cache.put (fun _ => none) o.aid 0
  have hruns : c o.aid.str = some 0 := Function.update_self _ _ _
  have hremoved := (hall E c o).kept rfl 0 hruns (c.remove o.aid) ?_
  · rw [Cache.remove, Function.update_self] at hremoved
    cases hremoved
  · -- the overload is heard as one that replaces
    have hreplaces : o.run E c = replacing E c o.aid o.args := by
      rw [run_eq, startReplace_eq]
      exact if_neg fun h => Bool.noConfusion h.2
    rw [hreplaces]
    exact List.mem_cons_of_mem c List.mem_cons_self

end AllOrNothing

end Siebog.Agents.AgentManager
