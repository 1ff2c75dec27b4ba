import Siebog.Lib.JsonReader
import Siebog.Lib.PlainJson
import Mathlib.Data.List.Nodup

/-!
# Payloads from the browser to the server

A migrating agent writes its properties as JSON; `accept` puts that text, the agent's url and its
identifier into a form body, and `sendMessage` does the same with a message. Neither encodes what it
puts there. The server decodes the body: the state goes into the agent's initial arguments, from
which the stub restores a script agent with `setState`, and the message's text to the constructor of
the ACL message.

The script a url stands for, the constructor of identifiers and the treatment of malformed escapes
belong to the server's environment and are parameters. `payloads_unchanged_iff` says exactly when
both texts arrive as they were written.
-/

set_option autoImplicit false

namespace Siebog.Radigost

open Siebog.Lib Siebog.Lib.Utf16

section Model

/-- A property of a script object. A function has no JSON text. -/
inductive Property
  | function
  | data (v : Json)

/-- `this[prop] = value`: a new property comes last in the order of enumeration. -/
def assign (prop : Text) (value : Property) : List (Text × Property) → List (Text × Property)
  | [] => [(prop, value)]
  | m :: ms => if m.1 = prop then (prop, value) :: ms else m :: assign prop value ms

/-- A property keeps its place, and a new one comes last. -/
theorem fst_assign (prop : Text) (value : Property) (ms : List (Text × Property)) :
    (assign prop value ms).map Prod.fst =
      if prop ∈ ms.map Prod.fst then ms.map Prod.fst else ms.map Prod.fst ++ [prop] := by
  induction ms with
  | nil => rfl
  | cons m ms ih =>
      by_cases hm : m.1 = prop
      · simp [assign, hm]
      · have hm' : prop ≠ m.1 := Ne.symm hm
        rw [assign, if_neg hm, List.map_cons, ih]
        simp only [List.map_cons, List.mem_cons, hm', false_or]
        split_ifs
        · rfl
        · rfl

/-- No two properties have one name. -/
theorem nodup_assign {ms : List (Text × Property)} (hms : (ms.map Prod.fst).Nodup) (prop : Text)
    (value : Property) : ((assign prop value ms).map Prod.fst).Nodup := by
  rw [fst_assign]
  split_ifs with hmem
  · exact hms
  · exact List.nodup_append_comm.mp (List.nodup_cons.mpr ⟨hmem, hms⟩)

/-- A script agent: its enumerable properties, the inherited ones included, in their order. -/
structure Agent where
  props : List (Text × Property)
  nodup : (props.map Prod.fst).Nodup

namespace Agent

def get (ag : Agent) (prop : Text) : Option Property := ag.props.lookup prop

def put (ag : Agent) (prop : Text) (value : Property) : Agent :=
  ⟨assign prop value ag.props, nodup_assign ag.nodup prop value⟩

/-- `this.aid`, which is `null` until the agent is initialised. -/
def aid (ag : Agent) : Json :=
  match ag.get (text "aid") with
  | some (.data v) => v
  | _ => .null

/-- The properties that are no functions. -/
def getState (ag : Agent) : List (Text × Json) :=
  ag.props.filterMap fun m =>
    match m.2 with
    | .data v => some (m.1, v)
    | .function => none

end Agent

/-- What `for (prop in st)` visits, with the values it finds there. -/
def members : Json → List (Text × Json)
  | .obj ms => ms
  | .arr vs => vs.zipIdx.map fun v => (text (toString v.2), v.1)
  | .str s => s.zipIdx.map fun u => (text (toString u.2), .str [u.1])
  | _ => []

namespace Agent

/-- `this[prop] = st[prop]` for the properties of `st`. -/
def assignAll (ag : Agent) (ms : List (Text × Json)) : Agent :=
  ms.foldl (fun ag m => ag.put m.1 (.data m.2)) ag

/-- A string is parsed first; `none` is the parser's exception. -/
def setState (ag : Agent) (state : Json) : Option Agent :=
  match state with
  | .str s => (Json.parse s).map fun st => ag.assignAll (members st)
  | st => some (ag.assignAll (members st))

end Agent

/-- The message a migrating agent posts to its page. -/
structure MoveToServer where
  aid : Json
  state : Text

def Agent.moveToServer (ag : Agent) : MoveToServer := ⟨ag.aid, Json.stringify (.obj ag.getState)⟩

/-! ### Requests -/

/-- The body of the request that hands an agent over. -/
def accept (url : Text) (aid : Json) (state : Text) : Text :=
  text "url=" ++ url ++ text "&aid=" ++ Json.stringify aid ++ text "&state=" ++ state

/-- The body of the request that sends a message. -/
def sendMessage (request : Json) : Text := text "acl=" ++ Json.stringify request

/-- The body as the server reads it: what is sent is well-formed text. -/
def received (body : Text) : Text := toWellFormed body

/-! ### The server -/

/-- The named arguments an agent starts with. -/
def AgentInitArgs := String → Option Text

namespace AgentInitArgs

def new : AgentInitArgs := fun _ => none

def put (args : AgentInitArgs) (key : String) (value : Option Text) : AgentInitArgs :=
  fun k => if k = key then value else args k

def get (args : AgentInitArgs) (key : String) (default : Text) : Text := (args key).getD default

theorem put_self (args : AgentInitArgs) (key : String) (value : Option Text) :
    args.put key value key = value := if_pos rfl

theorem put_of_ne {k key : String} (hk : k ≠ key) (args : AgentInitArgs) (value : Option Text) :
    args.put key value k = args k := if_neg hk

end AgentInitArgs

/-- The call that starts an agent on the server. -/
structure ServerAgent (ι : Type) where
  aid : Option ι
  args : AgentInitArgs

/-- A parameter through the constructor of its type; a missing one is `null`. -/
def formParam {ι : Type} (construct : Text → Option ι) : Option Text → Option (Option ι)
  | none => some none
  | some t => (construct t).map some

/-- `none` when the body or the identifier is refused. -/
def acceptRadigostAgent {ι : Type} (strict : Bool) (newAID : Text → Option ι) (body : Text) :
    Option (ServerAgent ι) :=
  (Form.params strict body).bind fun ps =>
    (formParam newAID (ps.lookup (text "aid"))).map fun aid =>
      { aid := aid
        args := (AgentInitArgs.new.put "url" (ps.lookup (text "url"))).put "state"
          (ps.lookup (text "state")) }

/-- The script that `url` names, with the state put into it. -/
def load (script : Text → Agent) (url state : Text) : Option Agent :=
  (script url).setState (.str state)

/-- The stub without a url is empty and has no script agent. -/
def onInit (script : Text → Agent) (args : AgentInitArgs) : Option Agent :=
  if args "url" = none then none
  else load script (args.get "url" []) (args.get "state" (text "{}"))

/-- The text the constructor of the message is called with. -/
def postedACL (strict : Bool) (body : Text) : Option Text :=
  (Form.params strict body).bind fun ps => ps.lookup (text "acl")

end Model

/-! ## Restoring a state -/

theorem lookup_cons_eq_ite (q k : Text) (x : Property) (ms : List (Text × Property)) :
    ((k, x) :: ms).lookup q = if q = k then some x else ms.lookup q := by
  by_cases hq : q = k
  · rw [hq, List.lookup_cons_self, if_pos rfl]
  · rw [List.lookup_cons, beq_false_of_ne hq, if_neg hq]

/-- What is assigned is found under its name, and the rest as before. -/
theorem lookup_assign (prop q : Text) (value : Property) (ms : List (Text × Property)) :
    (assign prop value ms).lookup q = if q = prop then some value else ms.lookup q := by
  induction ms with
  | nil => exact lookup_cons_eq_ite q prop value []
  | cons m ms ih =>
      obtain ⟨k, x⟩ := m
      by_cases hk : k = prop
      · rw [assign, if_pos hk, lookup_cons_eq_ite, lookup_cons_eq_ite, hk]
        split_ifs
        · rfl
        · rfl
      · rw [assign, if_neg hk, lookup_cons_eq_ite, lookup_cons_eq_ite, ih]
        by_cases hq : q = k
        · have hne : q ≠ prop := fun h => hk (hq.symm.trans h)
          rw [if_pos hq, if_neg hne, if_pos hq]
        · rw [if_neg hq, if_neg hq]

namespace Agent

/-- What is put is found under its name, and the rest as before. -/
theorem get_put (ag : Agent) (prop q : Text) (value : Property) :
    (ag.put prop value).get q = if q = prop then some value else ag.get q :=
  lookup_assign prop q value ag.props

/-- Properties that are not assigned stay as they are. -/
theorem get_assignAll_of_not_mem {ms : List (Text × Json)} {prop : Text}
    (hprop : prop ∉ ms.map Prod.fst) (ag : Agent) : (ag.assignAll ms).get prop = ag.get prop := by
  induction ms generalizing ag with
  | nil => rfl
  | cons m ms ih =>
      rw [List.map_cons, List.mem_cons, not_or] at hprop
      have htail : ((ag.put m.1 (.data m.2)).assignAll ms).get prop =
          (ag.put m.1 (.data m.2)).get prop := ih hprop.2 _
      rw [get_put, if_neg hprop.1] at htail
      exact htail

/-- Properties that are assigned are found. -/
theorem get_assignAll_of_mem {ms : List (Text × Json)} (hms : (ms.map Prod.fst).Nodup)
    {prop : Text} {v : Json} (hmem : (prop, v) ∈ ms) (ag : Agent) :
    (ag.assignAll ms).get prop = some (.data v) := by
  induction ms generalizing ag with
  | nil => exact absurd hmem List.not_mem_nil
  | cons m ms ih =>
      rw [List.map_cons, List.nodup_cons] at hms
      rcases List.mem_cons.mp hmem with rfl | htail
      · have hlater : ((ag.put prop (.data v)).assignAll ms).get prop =
            (ag.put prop (.data v)).get prop := get_assignAll_of_not_mem hms.1 _
        rw [get_put, if_pos rfl] at hlater
        exact hlater
      · exact ih hms.2 htail _

/-- The state has some of the properties, in their order. -/
theorem getState_fst_sublist (ag : Agent) :
    (ag.getState.map Prod.fst).Sublist (ag.props.map Prod.fst) := by
  rw [getState]
  induction ag.props with
  | nil => exact List.Sublist.slnil
  | cons m ms ih =>
      rw [List.map_cons]
      cases hm : m.2 with
      | function =>
          rw [List.filterMap_cons_none (by rw [hm])]
          exact ih.cons m.1
      | data v =>
          rw [List.filterMap_cons_some (by rw [hm])]
          exact ih.cons_cons m.1

/-- No two members of the state have one name. -/
theorem nodup_getState (ag : Agent) : (ag.getState.map Prod.fst).Nodup :=
  ag.nodup.sublist ag.getState_fst_sublist

/-- A property is found when it is there, since its name is its own. -/
theorem get_eq_some_iff {ag : Agent} {prop : Text} {x : Property} :
    ag.get prop = some x ↔ (prop, x) ∈ ag.props := by
  constructor
  · intro hget
    obtain ⟨l₁, l₂, hprops, -⟩ := List.lookup_eq_some_iff.mp hget
    rw [hprops]
    exact List.mem_append_right l₁ List.mem_cons_self
  · intro hmem
    obtain ⟨l₁, l₂, hprops⟩ := List.append_of_mem hmem
    refine List.lookup_eq_some_iff.mpr ⟨l₁, l₂, hprops, fun m hm => ?_⟩
    have hnodup := ag.nodup
    rw [hprops, List.map_append, List.map_cons] at hnodup
    have hdisjoint := List.disjoint_of_nodup_append hnodup
    rw [bne_iff_ne]
    rintro rfl
    exact hdisjoint (List.mem_map_of_mem hm) List.mem_cons_self

/-- The state has the properties that are data. -/
theorem mem_getState_iff {ag : Agent} {prop : Text} {v : Json} :
    (prop, v) ∈ ag.getState ↔ ag.get prop = some (.data v) := by
  rw [get_eq_some_iff, getState, List.mem_filterMap]
  constructor
  · rintro ⟨⟨q, x⟩, hmem, hdata⟩
    cases x with
    | function => cases hdata
    | data w =>
        obtain ⟨rfl, rfl⟩ := Prod.mk.inj (Option.some.inj hdata)
        exact hmem
  · intro hmem
    exact ⟨_, hmem, rfl⟩

/-- Whatever agent takes over the state of `ag` has every property of `ag` that is no function. -/
theorem setState_moveToServer (ag target : Agent) :
    ∃ restored, target.setState (.str ag.moveToServer.state) = some restored ∧
      ∀ prop v, ag.get prop = some (.data v) → restored.get prop = some (.data v) := by
  refine ⟨target.assignAll ag.getState, ?_, ?_⟩
  · rw [moveToServer, setState, Json.parse_stringify]
    rfl
  · intro prop v hget
    exact get_assignAll_of_mem ag.nodup_getState (mem_getState_iff.mpr hget) target

end Agent

/-! ## What the server reads -/

/-- The body of the request up to the state. -/
def preamble (url : Text) (aid : Json) : Text :=
  text "url=" ++ url ++ text "&aid=" ++ Json.stringify aid

/-- The first two fields of the form. -/
theorem received_preamble (url : Text) (aid : Json) :
    received (preamble url aid) = text "url" ++ unit '=' ::
      (received url ++ unit '&' :: (text "aid" ++ unit '=' :: Json.stringify aid)) := by
  have hbody : preamble url aid = text "url=" ++
      (url ++ unit '&' :: (text "aid=" ++ Json.stringify aid)) := by
    rw [preamble, List.append_assoc, List.append_assoc]
    rfl
  have hurl : WellFormed (text "url=") := by decide
  have haid : WellFormed (text "aid=" ++ Json.stringify aid) :=
    WellFormed.append (by decide) (Json.wellFormed_stringify aid)
  rw [received, hbody, hurl.toWellFormed_append, toWellFormed_append_cons (by decide), haid]
  rfl

/-- The form of an agent that moves, with its state at the end. -/
theorem received_accept (url : Text) (aid : Json) {state : Text} (hstate : WellFormed state) :
    received (accept url aid state) =
      received (preamble url aid) ++ unit '&' :: (text "state" ++ unit '=' :: state) := by
  have hbody : accept url aid state =
      preamble url aid ++ unit '&' :: (text "state=" ++ state) := by
    rw [accept, List.append_assoc]
    rfl
  have htail : WellFormed (text "state=" ++ state) := WellFormed.append (by decide) hstate
  rw [received, hbody, toWellFormed_append_cons (by decide), htail]
  rfl

/-- The form of a message. -/
theorem received_sendMessage (request : Json) :
    received (sendMessage request) = text "acl" ++ unit '=' :: Json.stringify request := by
  have hbody : WellFormed (sendMessage request) :=
    WellFormed.append (by decide) (Json.wellFormed_stringify request)
  rw [received, hbody]
  rfl

/-- The url and the identifier that get through have a parameter each. -/
theorem lookup_preamble {strict : Bool} {url : Text} {aid : Json} {ps : List (Text × Text)}
    (hps : Form.params strict (received (preamble url aid)) = some ps) :
    (∃ v, ps.lookup (text "url") = some v) ∧ ∃ v, ps.lookup (text "aid") = some v := by
  rw [received_preamble] at hps
  refine ⟨Form.exists_lookup (by decide) hps, ?_⟩
  rw [← List.cons_append, ← List.append_assoc, Form.params_append] at hps
  obtain ⟨ps₁, -, hrest⟩ := Option.bind_eq_some_iff.mp hps
  obtain ⟨ps₂, hps₂, rfl⟩ := Option.map_eq_some_iff.mp hrest
  obtain ⟨v, hv⟩ := Form.exists_lookup (by decide) hps₂
  rw [List.lookup_append, hv]
  cases ps₁.lookup (text "aid") with
  | none => exact ⟨v, rfl⟩
  | some w => exact ⟨w, rfl⟩

/-! ## Payloads -/

section Payloads

variable {ι : Type} (strict : Bool) (newAID : Text → Option ι) (script : Text → Agent)

/-- The state reaches the initial arguments as it was written, and the stub's script agent gets
every property of `ag` that is no function. -/
def StateArrives (url : Text) (ag : Agent) : Prop :=
  ∃ call, acceptRadigostAgent strict newAID
      (received (accept url ag.moveToServer.aid ag.moveToServer.state)) = some call ∧
    call.args "state" = some ag.moveToServer.state ∧
    ∃ restored, onInit script call.args = some restored ∧
      ∀ prop v, ag.get prop = some (.data v) → restored.get prop = some (.data v)

/-- The text of the message reaches the constructor as it was written. -/
def MessageArrives (request : Json) : Prop :=
  postedACL strict (received (sendMessage request)) = some (Json.stringify request)

/-- No string, no name and no numeral in the value has anything that form decoding acts on. -/
def PlainValue (v : Json) : Prop := ∀ t, Json.Occurs t v → Form.Plain strict t

/-- The same of the properties that are no functions, and of their names. -/
def PlainState (ag : Agent) : Prop :=
  ∀ prop v, ag.get prop = some (.data v) → Form.Plain strict prop ∧ PlainValue strict v

/-- What has to hold of an agent and its url for the state to arrive. The url and the identifier
must be decodable and make an identifier. Then the state has to be plain; or, where the url or the
identifier contains a field `state` itself, that field has to be the same text. -/
def Transparent (url : Text) (ag : Agent) : Prop :=
  ∃ ps, Form.params strict (received (preamble url ag.aid)) = some ps ∧
    (formParam newAID (ps.lookup (text "aid"))).isSome ∧
    (ps.lookup (text "state") = none ∧ PlainState strict ag ∨
      ps.lookup (text "state") = some ag.moveToServer.state ∧
        (Form.params strict (text "state" ++ unit '=' :: ag.moveToServer.state)).isSome)

variable {strict newAID script}

/-- The state is among the arguments. -/
theorem initArgs_state (u s : Option Text) :
    ((AgentInitArgs.new.put "url" u).put "state" s) "state" = s :=
  AgentInitArgs.put_self (AgentInitArgs.new.put "url" u) "state" s

/-- So is the address. -/
theorem initArgs_url (u s : Option Text) :
    ((AgentInitArgs.new.put "url" u).put "state" s) "url" = u := by
  have hkey : "url" ≠ "state" := by decide
  rw [AgentInitArgs.put_of_ne hkey, AgentInitArgs.put_self]

/-- A request that is accepted: the first field `state` of its body, in the preamble or after it,
is the state. -/
theorem state_of_accepted {url : Text} {aid : Json} {state : Text} (hstate : WellFormed state)
    {call : ServerAgent ι}
    (hcall : acceptRadigostAgent strict newAID (received (accept url aid state)) = some call) :
    ∃ ps qs, Form.params strict (received (preamble url aid)) = some ps ∧
      Form.params strict (text "state" ++ unit '=' :: state) = some qs ∧
      (formParam newAID (ps.lookup (text "aid"))).isSome ∧
      call.args "state" = (ps.lookup (text "state")).or (qs.lookup (text "state")) := by
  rw [acceptRadigostAgent, received_accept url aid hstate, Form.params_append] at hcall
  obtain ⟨all, hall, hmake⟩ := Option.bind_eq_some_iff.mp hcall
  obtain ⟨ps, hps, hrest⟩ := Option.bind_eq_some_iff.mp hall
  obtain ⟨qs, hqs, rfl⟩ := Option.map_eq_some_iff.mp hrest
  obtain ⟨-, w, hw⟩ := lookup_preamble hps
  obtain ⟨made, hmade, rfl⟩ := Option.map_eq_some_iff.mp hmake
  rw [List.lookup_append, hw, Option.some_or] at hmade
  refine ⟨ps, qs, hps, hqs, ?_, ?_⟩
  · rw [hw, hmade, Option.isSome_some]
  · rw [← List.lookup_append]
    exact initArgs_state ((ps ++ qs).lookup (text "url")) ((ps ++ qs).lookup (text "state"))

/-- The request is accepted when both parts of its body decode and the identifier is made. -/
theorem exists_accepted {url : Text} {aid : Json} {state : Text} (hstate : WellFormed state)
    {ps qs : List (Text × Text)}
    (hps : Form.params strict (received (preamble url aid)) = some ps)
    (hqs : Form.params strict (text "state" ++ unit '=' :: state) = some qs)
    (haid : (formParam newAID (ps.lookup (text "aid"))).isSome) :
    ∃ call, acceptRadigostAgent strict newAID (received (accept url aid state)) = some call ∧
      (∃ u, call.args "url" = some u) ∧
      call.args "state" = (ps.lookup (text "state")).or (qs.lookup (text "state")) := by
  obtain ⟨⟨u, hu⟩, ⟨w, hw⟩⟩ := lookup_preamble hps
  obtain ⟨made, hmade⟩ := Option.isSome_iff_exists.mp haid
  have hurl : (ps ++ qs).lookup (text "url") = some u := by
    rw [List.lookup_append, hu, Option.some_or]
  have hmade' : formParam newAID ((ps ++ qs).lookup (text "aid")) = some made := by
    rw [List.lookup_append, hw, Option.some_or, ← hw, hmade]
  rw [acceptRadigostAgent, received_accept url aid hstate, Form.params_append, hps,
    Option.bind_some, hqs, Option.map_some, Option.bind_some, hmade', Option.map_some]
  refine ⟨_, rfl, ⟨u, ?_⟩, ?_⟩
  · rw [← hurl]
    exact initArgs_url ((ps ++ qs).lookup (text "url")) ((ps ++ qs).lookup (text "state"))
  · rw [← List.lookup_append]
    exact initArgs_state ((ps ++ qs).lookup (text "url")) ((ps ++ qs).lookup (text "state"))

/-- An agent started with a url and the state of `ag` is restored. -/
theorem onInit_restores {args : AgentInitArgs} {ag : Agent} {url : Text}
    (hurl : args "url" = some url) (hstate : args "state" = some ag.moveToServer.state) :
    ∃ restored, onInit script args = some restored ∧
      ∀ prop v, ag.get prop = some (.data v) → restored.get prop = some (.data v) := by
  have hne : args "url" ≠ none := by
    rw [hurl]
    exact Option.some_ne_none url
  obtain ⟨restored, hrestored, hprops⟩ := ag.setState_moveToServer (script url)
  refine ⟨restored, ?_, hprops⟩
  rw [onInit, if_neg hne, AgentInitArgs.get, AgentInitArgs.get, hurl, hstate, Option.getD_some,
    Option.getD_some, load, hrestored]

/-- The text of the state is plain when the state is. -/
theorem plain_moveToServer_iff {ag : Agent} :
    Form.Plain strict ag.moveToServer.state ↔ PlainState strict ag := by
  rw [Agent.moveToServer, Form.plain_stringify_iff]
  constructor
  · intro h prop v hget
    have hmem := Agent.mem_getState_iff.mpr hget
    exact ⟨h prop (Json.Occurs.name hmem), fun t ht => h t (Json.Occurs.member hmem ht)⟩
  · intro h t ht
    obtain ⟨⟨prop, v⟩, hmem, hoccurs⟩ := Json.occurs_obj_iff.mp ht
    obtain ⟨hname, hvalue⟩ := h prop v (Agent.mem_getState_iff.mp hmem)
    rcases hoccurs with rfl | hoccurs
    · exact hname
    · exact hvalue t hoccurs

/-- The state arrives exactly when nothing on the way changes it. -/
theorem stateArrives_iff (url : Text) (ag : Agent) :
    StateArrives strict newAID script url ag ↔ Transparent strict newAID url ag := by
  have hwell : WellFormed ag.moveToServer.state := Json.wellFormed_stringify _
  constructor
  · rintro ⟨call, hcall, hstate, -⟩
    obtain ⟨ps, qs, hps, hqs, haid, hargs⟩ := state_of_accepted hwell hcall
    rw [hargs] at hstate
    refine ⟨ps, hps, haid, ?_⟩
    cases hown : ps.lookup (text "state") with
    | none =>
        rw [hown, Option.none_or] at hstate
        have hplain := Form.plain_of_lookup (by decide) hqs hstate
        exact Or.inl ⟨rfl, plain_moveToServer_iff.mp hplain⟩
    | some v =>
        rw [hown, Option.some_or] at hstate
        exact Or.inr ⟨hstate, by rw [hqs, Option.isSome_some]⟩
  · rintro ⟨ps, hps, haid, hcase⟩
    -- either way the first field `state` of the body holds the text as it was written
    have hfirst : ∃ qs, Form.params strict
        (text "state" ++ unit '=' :: ag.moveToServer.state) = some qs ∧
        (ps.lookup (text "state")).or (qs.lookup (text "state")) =
          some ag.moveToServer.state := by
      rcases hcase with ⟨hown, hplain⟩ | ⟨hown, hdecodes⟩
      · refine ⟨_, Form.params_of_plain (by decide) (plain_moveToServer_iff.mpr hplain), ?_⟩
        rw [hown, Option.none_or, List.lookup_cons_self]
      · obtain ⟨qs, hqs⟩ := Option.isSome_iff_exists.mp hdecodes
        exact ⟨qs, hqs, by rw [hown, Option.some_or]⟩
    obtain ⟨qs, hqs, hvalue⟩ := hfirst
    obtain ⟨call, hcall, ⟨u, hurl⟩, hargs⟩ := exists_accepted hwell hps hqs haid
    rw [hvalue] at hargs
    exact ⟨call, hcall, hargs, onInit_restores hurl hargs⟩

/-- A message arrives exactly when its text is plain. -/
theorem messageArrives_iff (request : Json) :
    MessageArrives strict request ↔ PlainValue strict request := by
  rw [MessageArrives, postedACL, received_sendMessage, Option.bind_eq_some_iff,
    Form.lookup_params_iff (by decide), Form.plain_stringify_iff]
  exact Iff.rfl

/-- A plain url and a plain identifier that the constructor takes leave the condition on the state
alone. -/
theorem transparent_iff_of_plain {url : Text} {ag : Agent} (hurl : WellFormed url)
    (hplain : Form.Plain strict url) (haid : PlainValue strict ag.aid)
    (hnew : (newAID (Json.stringify ag.aid)).isSome) :
    Transparent strict newAID url ag ↔ PlainState strict ag := by
  have htext : Form.Plain strict (Json.stringify ag.aid) := Form.plain_stringify_iff.mpr haid
  have hps : Form.params strict (received (preamble url ag.aid)) =
      some [(text "url", url), (text "aid", Json.stringify ag.aid)] := by
    have hreceived : received url = url := hurl
    rw [received_preamble, hreceived, ← List.cons_append, ← List.append_assoc,
      Form.params_append, Form.params_of_plain (by decide) hplain, Option.bind_some,
      Form.params_of_plain (by decide) htext]
    rfl
  have hfirst : [(text "url", url), (text "aid", Json.stringify ag.aid)].lookup (text "aid") =
      some (Json.stringify ag.aid) := rfl
  have hnone : [(text "url", url), (text "aid", Json.stringify ag.aid)].lookup (text "state") =
      none := rfl
  constructor
  · rintro ⟨ps, hps', -, hcase⟩
    obtain rfl : _ = ps := Option.some.inj (hps.symm.trans hps')
    rcases hcase with ⟨-, hstate⟩ | ⟨hown, -⟩
    · exact hstate
    · rw [hnone] at hown
      cases hown
  · intro hstate
    refine ⟨_, hps, ?_, Or.inl ⟨hnone, hstate⟩⟩
    rw [hfirst, formParam, Option.isSome_map]
    exact hnew

/-- Client-to-server payloads arrive unchanged exactly when they have nothing that form decoding
acts on. -/
theorem payloads_unchanged_iff (strict : Bool) (newAID : Text → Option ι) (script : Text → Agent)
    (url : Text) (ag : Agent) (request : Json) :
    (StateArrives strict newAID script url ag ↔ Transparent strict newAID url ag) ∧
    (MessageArrives strict request ↔ PlainValue strict request) :=
  ⟨stateArrives_iff url ag, messageArrives_iff request⟩

end Payloads

/-- An agent that keeps the sum it was given. -/
def adder : Agent where
  props := [(text "aid", .data (.obj [(text "name", .str (text "adder")),
      (text "host", .str (text "page")), (text "radigost", .bool true),
      (text "str", .str (text "adder@page"))])),
    (text "sum", .data (.str (text "1+1"))), (text "onMessage", .function)]
  nodup := by decide

/-- A message with an ampersand in its content. -/
def question : Json := .obj [(text "performative", .str (text "REQUEST")),
  (text "content", .str (text "Q&A"))]

/-- Neither the state of `adder` nor the text of `question` arrives. -/
theorem payloads_altered :
    ¬ StateArrives true Json.parse (fun _ => adder) (text "/siebog/js/agents/adder.js") adder ∧
    ¬ MessageArrives true question := by
  constructor
  · have hnew : (Json.parse (Json.stringify adder.aid)).isSome := by
      rw [Json.parse_stringify, Option.isSome_some]
    have hurl : Form.Plain true (text "/siebog/js/agents/adder.js") :=
      Form.plain_of_not_mem (by decide) (by decide) (by decide)
    have haid : PlainValue true adder.aid :=
      Form.plain_stringify_iff.mp (Form.plain_of_not_mem (by decide) (by decide) (by decide))
    rw [stateArrives_iff, transparent_iff_of_plain (by decide) hurl haid hnew]
    intro hstate
    have hsum := (hstate (text "sum") (.str (text "1+1")) rfl).2 _ .str
    exact hsum.no_plus (by decide)
  · rw [messageArrives_iff]
    intro hmessage
    have hcontent : Json.Occurs (text "Q&A") question :=
      .member (List.mem_cons_of_mem _ List.mem_cons_self) .str
    exact (hmessage _ hcontent).no_separator (by decide)

/-- The constructor gets a text that ends inside a string. -/
example : postedACL true (received (sendMessage question)) =
    some (text "\x7b\"performative\":\"REQUEST\",\"content\":\"Q") := by
  decide +kernel

end Siebog.Radigost
