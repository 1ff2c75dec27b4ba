import Siebog.Agents.AgentClass
import Mathlib.Data.List.Nodup

/-!
# Discovery of agents in the naming tree

The parser lists the modules of the naming tree, and in each module the names that end with the
interface of agents. What stands before that suffix is the name of a bean.

Two classes are to be left out. They are in a set of classes, and the test for membership is made
with a name, which is in no such set: the test never succeeds. `parse_exact_iff` says on which trees
this makes no difference.
-/

set_option autoImplicit false

namespace Siebog.Agents

open Siebog.Lib Siebog.Lib.Utf16 Siebog.Lib.Separator

section Model

/-- A class and its package. -/
structure JavaClass where
  package : Text
  simpleName : Text
  deriving DecidableEq

namespace JavaClass

/-- `Class.getName`, the name with the package before it. -/
def getName (c : JavaClass) : Text := c.package ++ unit '.' :: c.simpleName

def agent : JavaClass := ⟨text "siebog.agents", text "Agent"⟩

def jasonEEAgent : JavaClass := ⟨text "siebog.jasonee", text "JasonEEAgent"⟩

def guiAgent : JavaClass := ⟨text "siebog.agents.xjaf", text "GUIAgent"⟩

end JavaClass

/-- What a set may be asked for. A text and a class are never equal. -/
inductive JavaObject where
  | string (t : Text)
  | cls (c : JavaClass)
  deriving DecidableEq

/-- The part of the tree where exported modules are. -/
def EXP : Text := text "java:jboss/exported/"

/-- The path under which a module is listed. -/
def modulePath (module : Text) : Text := EXP ++ unit '/' :: module

/-- The modules with the names that each lists; a name may be missing. -/
structure JndiTree where
  modules : List (Text × List (Option Text))
  nodup : (modules.map Prod.fst).Nodup

namespace JndiTree

/-- The list of the root. -/
def listModules (tree : JndiTree) : List Text := tree.modules.map Prod.fst

/-- The list of another path; `none` is the exception for a path that names nothing. -/
def list (tree : JndiTree) (path : Text) : Option (List (Option Text)) :=
  (tree.modules.find? fun m => modulePath m.1 == path).map Prod.snd

end JndiTree

namespace JndiTreeParser

/-- What the name of an agent bean ends in: the interface that it is exported with. -/
def INTF : Text := unit '!' :: JavaClass.agent.getName

/-- The classes whose beans are no agents to start. -/
def ignored : List JavaClass := [.jasonEEAgent, .guiAgent]

/-- The set takes any object and compares it with its classes. -/
def ignoredContains (o : JavaObject) : Bool := decide (o ∈ ignored.map JavaObject.cls)

/-- Without the suffix the index is -1, which `substring` refuses. -/
def extractAgentName (ejbName : Text) : Option Text :=
  (lastIndexOfList INTF ejbName).map fun n => ejbName.take n

/-- The class of an agent, with the path that its module has in the tree. -/
def agentClass (module ejbName : Text) : AgentClass :=
  ⟨module, ejbName, unit '/' :: module ++ text "/agents/xjaf"⟩

/-- The agent class for an entry, unless it is ignored. `none` is an exception. -/
def parseEjbName (module ejbName : Text) : Option (Option AgentClass) := do
  let ejbName ← extractAgentName ejbName
  return if !ignoredContains (.string ejbName) then some (agentClass module ejbName) else none

/-- Entries that are no agents, and entries without a name, are passed over. -/
def parseEjbNameIfValid (module : Text) : Option Text → Option (Option AgentClass)
  | some ejbName => if INTF <:+ ejbName then parseEjbName module ejbName else some none
  | none => some none

/-- One round of the inner loop. -/
def processName (module : Text) (result : List AgentClass) (name : Option Text) :
    Option (List AgentClass) := do
  match ← parseEjbNameIfValid module name with
  | some agClass => return result ++ [agClass]
  | none => return result

/-- Adds the agent classes of one module to the result. -/
def processModule (tree : JndiTree) (result : List AgentClass) (module : Text) :
    Option (List AgentClass) := do
  let agentList ← tree.list (modulePath module)
  agentList.foldlM (processName module) result

/-- The agent classes of all modules, in the order of the tree. -/
def parse (tree : JndiTree) : Option (List AgentClass) :=
  tree.listModules.foldlM (processModule tree) []

end JndiTreeParser

end Model

namespace JndiTreeParser

/-! ## What is asked of a listing -/

/-- An entry of the tree: its module and its name. -/
abbrev Entry := Text × Option Text

/-- All entries in listing order. -/
def entries (tree : JndiTree) : List Entry :=
  tree.modules.flatMap fun m => m.2.map fun name => (m.1, name)

/-- The entry is the bean of this name. -/
def IsBean (entry : Entry) (n : Text) : Prop := entry.2 = some (n ++ INTF)

instance (entry : Entry) (n : Text) : Decidable (IsBean entry n) :=
  inferInstanceAs (Decidable (_ = _))

section Spec

variable (nameOf : JavaClass → Text)

/-- The name is the name of an ignored class. -/
def IsIgnored (n : Text) : Prop := ∃ c ∈ ignored, n = nameOf c

/-- One class for each entry of a bean that is not ignored, in the order of the entries. -/
inductive Listed : List Entry → List AgentClass → Prop
  | nil : Listed [] []
  | agent {entry : Entry} {n : Text} {es : List Entry} {result : List AgentClass} :
      IsBean entry n → ¬ IsIgnored nameOf n → Listed es result →
        Listed (entry :: es) (agentClass entry.1 n :: result)
  | ignored {entry : Entry} {n : Text} {es : List Entry} {result : List AgentClass} :
      IsBean entry n → IsIgnored nameOf n → Listed es result → Listed (entry :: es) result
  | other {entry : Entry} {es : List Entry} {result : List AgentClass} :
      (∀ n, ¬ IsBean entry n) → Listed es result → Listed (entry :: es) result

end Spec

theorem IsBean.name_unique {entry : Entry} {n n' : Text} (h : IsBean entry n)
    (h' : IsBean entry n') : n = n' :=
  List.append_cancel_right (Option.some.inj (h.symm.trans h'))

/-! ## What the parser lists -/

/-- A name is no class. -/
theorem ignoredContains_string (n : Text) : ignoredContains (.string n) = false := by
  refine decide_eq_false fun hmem => ?_
  obtain ⟨c, -, hc⟩ := List.mem_map.1 hmem
  cases hc

theorem parseEjbNameIfValid_of_isBean {entry : Entry} {n : Text} (h : IsBean entry n) :
    parseEjbNameIfValid entry.1 entry.2 = some (some (agentClass entry.1 n)) := by
  rw [h, parseEjbNameIfValid, if_pos (List.suffix_append n INTF), parseEjbName, extractAgentName,
    lastIndexOfList_append, Option.map_some, List.take_left]
  simp [ignoredContains_string]

theorem parseEjbNameIfValid_of_not_isBean {entry : Entry} (h : ∀ n, ¬ IsBean entry n) :
    parseEjbNameIfValid entry.1 entry.2 = some none := by
  obtain ⟨module, name⟩ := entry
  cases name with
  | none => rfl
  | some ejbName =>
      refine if_neg ?_
      rintro ⟨n, rfl⟩
      exact h n rfl

/-- The classes of all beans, the ignored ones with them. -/
inductive AllListed : List Entry → List AgentClass → Prop
  | nil : AllListed [] []
  | agent {entry : Entry} {n : Text} {es : List Entry} {result : List AgentClass} :
      IsBean entry n → AllListed es result →
        AllListed (entry :: es) (agentClass entry.1 n :: result)
  | other {entry : Entry} {es : List Entry} {result : List AgentClass} :
      (∀ n, ¬ IsBean entry n) → AllListed es result → AllListed (entry :: es) result

theorem AllListed.append {es es' : List Entry} {result result' : List AgentClass}
    (h : AllListed es result) (h' : AllListed es' result') :
    AllListed (es ++ es') (result ++ result') := by
  induction h with
  | nil => exact h'
  | agent hbean _ ih => exact .agent hbean ih
  | other hother _ ih => exact .other hother ih

/-- The inner loop adds the classes of the entries of its module. -/
theorem exists_foldlM_processName (module : Text) (names : List (Option Text)) :
    ∃ listed, AllListed (names.map fun name => (module, name)) listed ∧
      ∀ result, names.foldlM (processName module) result = some (result ++ listed) := by
  induction names with
  | nil =>
      refine ⟨[], .nil, fun result => ?_⟩
      rw [List.append_nil]
      rfl
  | cons name names ih =>
      obtain ⟨listed, hlisted, hfold⟩ := ih
      by_cases h : ∃ n, IsBean (module, name) n
      · obtain ⟨n, hbean⟩ := h
        refine ⟨_, .agent hbean hlisted, fun result => ?_⟩
        have hname : parseEjbNameIfValid module name = some (some (agentClass module n)) :=
          parseEjbNameIfValid_of_isBean hbean
        simp only [List.foldlM_cons, processName, hname, Option.bind_eq_bind, Option.bind_some,
          Option.pure_def, hfold, List.append_assoc, List.cons_append, List.nil_append]
      · have hother := not_exists.1 h
        refine ⟨listed, .other hother hlisted, fun result => ?_⟩
        have hname : parseEjbNameIfValid module name = some none :=
          parseEjbNameIfValid_of_not_isBean hother
        simp only [List.foldlM_cons, processName, hname, Option.bind_eq_bind, Option.bind_some,
          Option.pure_def, hfold]

end JndiTreeParser

theorem modulePath_injective {module module' : Text} (h : modulePath module = modulePath module') :
    module = module' := by
  have hcons := List.append_cancel_left h
  exact (List.cons.inj hcons).2

/-- A module is listed with its own names. -/
theorem JndiTree.list_modulePath (tree : JndiTree) {m : Text × List (Option Text)}
    (h : m ∈ tree.modules) : tree.list (modulePath m.1) = some m.2 := by
  obtain ⟨modules, hnodup⟩ := tree
  change Option.map Prod.snd (modules.find? _) = _
  induction modules with
  | nil => cases h
  | cons first modules ih =>
      rw [List.map_cons, List.nodup_cons] at hnodup
      by_cases hfirst : modulePath first.1 = modulePath m.1
      · have hname := modulePath_injective hfirst
        rcases List.mem_cons.1 h with rfl | h
        · rw [List.find?_cons, beq_self_eq_true]
          rfl
        · exact absurd (hname ▸ List.mem_map_of_mem h) hnodup.1
      · rcases List.mem_cons.1 h with rfl | h
        · exact absurd rfl hfirst
        · rw [List.find?_cons, beq_false_of_ne hfirst]
          exact ih hnodup.2 h

namespace JndiTreeParser

/-- The outer loop over some of the modules. -/
theorem exists_foldlM_processModule (tree : JndiTree) {modules : List (Text × List (Option Text))}
    (hsub : ∀ m ∈ modules, m ∈ tree.modules) :
    ∃ listed, AllListed (modules.flatMap fun m => m.2.map fun name => (m.1, name)) listed ∧
      ∀ result, (modules.map Prod.fst).foldlM (processModule tree) result =
        some (result ++ listed) := by
  induction modules with
  | nil =>
      refine ⟨[], .nil, fun result => ?_⟩
      rw [List.append_nil]
      rfl
  | cons m modules ih =>
      rw [List.forall_mem_cons] at hsub
      obtain ⟨first, hfirst, hinner⟩ := exists_foldlM_processName m.1 m.2
      obtain ⟨rest, hrest, houter⟩ := ih hsub.2
      refine ⟨first ++ rest, hfirst.append hrest, fun result => ?_⟩
      simp only [List.map_cons, List.foldlM_cons, processModule, tree.list_modulePath hsub.1,
        Option.bind_eq_bind, Option.bind_some, hinner, houter, List.append_assoc]

/-- Every entry of a bean is listed. -/
theorem exists_parse (tree : JndiTree) :
    ∃ listed, AllListed (entries tree) listed ∧ parse tree = some listed := by
  obtain ⟨listed, hlisted, hfold⟩ := exists_foldlM_processModule tree fun _ hm => hm
  exact ⟨listed, hlisted, hfold []⟩

/-! ## Where the two listings are the same -/

section Compare

variable {nameOf : JavaClass → Text} {es : List Entry} {listed result : List AgentClass}

theorem Listed.length_le (h : Listed nameOf es result) (hall : AllListed es listed) :
    result.length ≤ listed.length := by
  induction h generalizing listed with
  | nil => exact Nat.zero_le _
  | agent hbean _ _ ih =>
      cases hall with
      | agent _ hrest => exact Nat.succ_le_succ (ih hrest)
      | other hother _ => exact absurd hbean (hother _)
  | ignored hbean _ _ ih =>
      cases hall with
      | agent _ hrest => exact (ih hrest).trans (Nat.le_succ _)
      | other hother _ => exact absurd hbean (hother _)
  | other hother _ ih =>
      cases hall with
      | agent hbean _ => exact absurd hbean (hother _)
      | other _ hrest => exact ih hrest

/-- A listing that leaves something out is shorter. -/
theorem Listed.not_ignored (h : Listed nameOf es listed) (hall : AllListed es listed) :
    ∀ entry ∈ es, ∀ n, IsBean entry n → ¬ IsIgnored nameOf n := by
  generalize hresult : listed = result at h
  induction h generalizing listed with
  | nil => exact fun _ hmem => nomatch hmem
  | agent hbean hname hrest ih =>
      cases hall with
      | agent hbean' hall =>
          rw [List.forall_mem_cons]
          refine ⟨fun n hn => hbean.name_unique hn ▸ hname, ?_⟩
          exact ih hall (List.cons.inj hresult).2
      | other hother _ => exact absurd hbean (hother _)
  | ignored hbean hname hrest ih =>
      cases hall with
      | agent hbean' hall =>
          have hlength := hrest.length_le hall
          rw [← hresult, List.length_cons] at hlength
          omega
      | other hother _ => exact absurd hbean (hother _)
  | other hother hrest ih =>
      cases hall with
      | agent hbean _ => exact absurd hbean (hother _)
      | other hother' hall =>
          rw [List.forall_mem_cons]
          exact ⟨fun n hn => absurd hn (hother n), ih hall hresult⟩

theorem AllListed.toListed (hall : AllListed es listed)
    (h : ∀ entry ∈ es, ∀ n, IsBean entry n → ¬ IsIgnored nameOf n) : Listed nameOf es listed := by
  induction hall with
  | nil => exact .nil
  | agent hbean _ ih =>
      rw [List.forall_mem_cons] at h
      exact .agent hbean (h.1 _ hbean) (ih h.2)
  | other hother _ ih =>
      rw [List.forall_mem_cons] at h
      exact .other hother (ih h.2)

end Compare

section Exact

variable (nameOf : JavaClass → Text)

/-- The parser returns the listing that is asked for. -/
def Exact (tree : JndiTree) : Prop :=
  ∃ result, parse tree = some result ∧ Listed nameOf (entries tree) result

variable {nameOf}

theorem Exact.not_ignored {tree : JndiTree} (h : Exact nameOf tree) :
    ∀ entry ∈ entries tree, ∀ n, IsBean entry n → ¬ IsIgnored nameOf n := by
  obtain ⟨result, hresult, hlisted⟩ := h
  obtain ⟨listed, hall, hparse⟩ := exists_parse tree
  obtain rfl : listed = result := Option.some.inj (hparse.symm.trans hresult)
  exact hlisted.not_ignored hall

end Exact

/-- The listing is exact where no bean has the name of an ignored class. -/
theorem parse_exact_iff (nameOf : JavaClass → Text) (tree : JndiTree) :
    Exact nameOf tree ↔ ∀ entry ∈ entries tree, ∀ n, IsBean entry n → ¬ IsIgnored nameOf n := by
  constructor
  · intro h
    exact h.not_ignored
  · intro h
    obtain ⟨listed, hall, hparse⟩ := exists_parse tree
    exact ⟨listed, hparse, hall.toListed h⟩

/-- The module of the server, with the agent that shows a window under both names of its class. -/
def guiTree : JndiTree where
  modules := [(text "siebog", [some (text "GUIAgent!siebog.agents.Agent"),
    some (text "siebog.agents.xjaf.GUIAgent!siebog.agents.Agent")])]
  nodup := List.nodup_singleton _

/-- An ignored class is listed, whether its name is the simple one or the full one. -/
theorem ignored_listed :
    (¬ ∀ tree, Exact JavaClass.simpleName tree) ∧ ¬ ∀ tree, Exact JavaClass.getName tree := by
  have hmem : JavaClass.guiAgent ∈ ignored := List.mem_cons_of_mem _ List.mem_cons_self
  constructor
  · intro hall
    have hbean : IsBean (text "siebog", some (text "GUIAgent!siebog.agents.Agent"))
        (text "GUIAgent") := by decide
    exact (hall guiTree).not_ignored _ List.mem_cons_self _ hbean ⟨_, hmem, rfl⟩
  · intro hall
    have hbean : IsBean (text "siebog",
        some (text "siebog.agents.xjaf.GUIAgent!siebog.agents.Agent"))
        (text "siebog.agents.xjaf.GUIAgent") := by decide
    refine (hall guiTree).not_ignored _ (List.mem_cons_of_mem _ List.mem_cons_self) _ hbean
      ⟨_, hmem, ?_⟩
    decide

end JndiTreeParser

end Siebog.Agents
