import Siebog.Agents.AgentClass

/-!
# Identifiers and their text

An agent identifier has a name, a host, the class of its agent and the string `str` that identifiers
are compared by. It is written as a JSON object, in which the class stands as its own text, and read
back by the constructor that takes a text.

The constructors work out `str` from different things: the one that takes the host from its
parameter, before a missing host is replaced by the name of this one, and the one that reads a text
from the host it ends up with. `roundTrip_iff` says which identifiers are read back as they were.
-/

set_option autoImplicit false

namespace Siebog.Agents

open Siebog.Lib Siebog.Lib.Utf16

section Model

/-- Agent identifier, consists of the runtime name and the platform identifier. -/
structure AID where
  name : Text
  host : Text
  str : Text
  agClass : AgentClass
  deriving DecidableEq

/-- The class of the agents that stand on the server for browser agents. -/
def RadigostStub.AGENT_CLASS : AgentClass :=
  AgentClass.forSiebogEjb (text "RadigostStub")

namespace AID

def HOST_NAME : Text := text "xjaf"

/-- A missing text is written as `null` where texts are joined. -/
def joined (t : Option Text) : Text := t.getD (text "null")

/-- The constructor that takes a host, which may be missing. -/
def ofHost (name : Text) (host : Option Text) (agClass : AgentClass) : AID where
  name := name
  host := host.getD HOST_NAME
  str := name ++ unit '@' :: joined host
  agClass := agClass

/-- The constructor without a host. -/
def ofName (name : Text) (agClass : AgentClass) : AID := ofHost name (some HOST_NAME) agClass

def EXTERNAL_CLIENT : AID := ofHost [] (some []) (AgentClass.ofNames [] [])

/-- `new AID(jsonStr)`: the class of a browser agent is not read. -/
def constructor (lib : JSONLibrary) (jsonStr : Text) : Except DecodeException AID :=
  match lib.read jsonStr with
  | none => .error .illegalJson
  | some json =>
    match json.getString (text "name"),
      if json.has (text "host") then json.getString (text "host") else some HOST_NAME with
    | some name, some host =>
      let str := name ++ unit '@' :: host
      -- the class of a browser agent is not read from the text
      if json.optBoolean (text "radigost") then .ok ⟨name, host, str, RadigostStub.AGENT_CLASS⟩
      else
        match json.getString (text "agClass") with
        | none => .error .illegalJson
        | some moduleAndEjbName =>
          (AgentClass.constructor lib moduleAndEjbName).map fun agClass =>
            ⟨name, host, str, agClass⟩
    | _, _ => .error .illegalJson

/-- Identifiers are compared by `str`. -/
def equals (aid other : AID) : Bool := aid.str == other.str

/-- The fields of an identifier; the flag is required by Radigost. -/
def fields (aid : AID) : List (Text × Field) :=
  [(text "name", .text aid.name), (text "host", .text aid.host),
    (text "agClass", .text aid.agClass.toString)] ++
  (if aid.agClass.equals RadigostStub.AGENT_CLASS then [(text "radigost", .flag true)] else []) ++
  [(text "str", .text aid.str)]

def toString (lib : JSONLibrary) (aid : AID) : Text := lib.write aid.fields

end AID

end Model

namespace AID

/-! ## Reading what was written -/

section Fields

variable (aid : AID)

theorem nodup_fields : (aid.fields.map Prod.fst).Nodup := by
  unfold fields
  split_ifs
  · simp only [List.map_append, List.map_cons, List.map_nil]
    decide
  · simp only [List.map_append, List.map_cons, List.map_nil]
    decide

theorem lookup_name : aid.fields.lookup (text "name") = some (.text aid.name) := by rfl

theorem lookup_host : aid.fields.lookup (text "host") = some (.text aid.host) := by rfl

theorem lookup_agClass :
    aid.fields.lookup (text "agClass") = some (.text aid.agClass.toString) := by rfl

theorem lookup_radigost : aid.fields.lookup (text "radigost") =
    if aid.agClass.equals RadigostStub.AGENT_CLASS then some (.flag true) else none := by
  unfold fields
  split_ifs
  · rfl
  · rfl

end Fields

variable (lib : JSONLibrary)

/-- The identifier's text is read as its name, its host and the class that the class's text is read
as. -/
theorem constructor_toString (h : lib.Faithful) (aid : AID) :
    constructor lib (aid.toString lib) =
      if aid.agClass.equals RadigostStub.AGENT_CLASS then
        .ok ⟨aid.name, aid.host, aid.name ++ unit '@' :: aid.host, RadigostStub.AGENT_CLASS⟩
      else (AgentClass.constructor lib aid.agClass.toString).map fun agClass =>
        ⟨aid.name, aid.host, aid.name ++ unit '@' :: aid.host, agClass⟩ := by
  rw [constructor, toString, h aid.fields aid.nodup_fields]
  simp only [JSONObject.getString, JSONObject.has, JSONObject.optBoolean, lookup_name, lookup_host,
    lookup_agClass, lookup_radigost, Option.isSome_some, if_true]
  by_cases hradigost : aid.agClass.equals RadigostStub.AGENT_CLASS = true
  · simp only [hradigost, if_true]
  · simp only [hradigost, if_false, Bool.false_eq_true]

/-- What is read from an identifier's text is the identifier. -/
def RoundTrip (aid : AID) : Prop :=
  ∃ read, constructor lib (aid.toString lib) = .ok read ∧ read.equals aid = true ∧
    read.name = aid.name ∧ read.host = aid.host ∧ read.str = aid.str ∧
    read.agClass.equals aid.agClass = true

/-- Whatever the class, the string is worked out from the host that was written. -/
theorem str_of_constructor (h : lib.Faithful) {aid read : AID}
    (hread : constructor lib (aid.toString lib) = .ok read) :
    read.str = aid.name ++ unit '@' :: aid.host := by
  rw [constructor_toString lib h] at hread
  split_ifs at hread with hradigost
  · cases hread
    rfl
  · cases hclass : AgentClass.constructor lib aid.agClass.toString with
    | error e =>
        rw [hclass] at hread
        cases hread
    | ok agClass =>
        rw [hclass] at hread
        cases hread
        rfl

/-- An identifier with a host: only the class can fail to be read back. -/
theorem roundTrip_host_iff (h : lib.Faithful) (name host : Text) (agClass : AgentClass) :
    RoundTrip lib (ofHost name (some host) agClass) ↔
      agClass.equals RadigostStub.AGENT_CLASS = true ∨
        AgentClass.ReadsAs (AgentClass.constructor lib agClass.toString) agClass := by
  have hclass : (ofHost name (some host) agClass).agClass = agClass := rfl
  rw [RoundTrip, constructor_toString lib h, hclass]
  by_cases hradigost : agClass.equals RadigostStub.AGENT_CLASS = true
  · rw [if_pos hradigost]
    refine iff_of_true ⟨_, rfl, ?_, rfl, rfl, rfl, ?_⟩ (.inl hradigost)
    · exact beq_iff_eq.2 rfl
    · exact AgentClass.equals_comm hradigost
  · rw [if_neg hradigost, or_iff_right hradigost]
    constructor
    · rintro ⟨read, hread, -, -, -, -, heq⟩
      cases hc : AgentClass.constructor lib agClass.toString with
      | error e =>
          rw [hc] at hread
          cases hread
      | ok readClass =>
          rw [hc] at hread
          cases hread
          exact ⟨readClass, rfl, heq⟩
    · rintro ⟨readClass, hc, heq⟩
      rw [hc]
      exact ⟨_, rfl, beq_iff_eq.2 rfl, rfl, rfl, rfl, heq⟩

/-- An identifier is read back as it was exactly when it was given a host, and its class is that of
the browser agents or one that the decoder of classes reads back. -/
theorem roundTrip_iff (h : lib.Faithful) (name : Text) (host : Option Text)
    (agClass : AgentClass) :
    RoundTrip lib (ofHost name host agClass) ↔
      host ≠ none ∧ (agClass.equals RadigostStub.AGENT_CLASS = true ∨
        if agClass.module.head? = some (unit '{') then AgentClass.IsJsonOfItself lib agClass
        else agClass.Splits) := by
  rw [← AgentClass.constructor_toString_iff]
  cases host with
  | some host =>
      rw [roundTrip_host_iff lib h, and_iff_right (Option.some_ne_none host)]
  | none =>
      refine iff_of_false ?_ fun hc => hc.1 rfl
      rintro ⟨read, hread, -, -, -, hstr, -⟩
      rw [str_of_constructor lib h hread] at hstr
      -- the same name, and then the name of this host and the text of a missing one
      have hhost : unit '@' :: HOST_NAME = unit '@' :: joined none := List.append_cancel_left hstr
      exact absurd hhost (by decide)

/-- A class of this module. -/
theorem roundTrip_iff_ping :
    RoundTrip plainJson (ofHost (text "ping") (some (text "xjaf"))
      (AgentClass.forSiebogEjb (text "Ping"))) := by
  refine (roundTrip_iff plainJson plainJson_faithful _ _ _).2 ⟨Option.some_ne_none _, .inr ?_⟩
  rw [if_neg (by decide)]
  exact ⟨by decide, by decide, by decide⟩

/-- The class of the external client is not read back. -/
theorem external_client_refused :
    ¬ ∀ lib : JSONLibrary, lib.Faithful → ∀ (name : Text) (host : Option Text)
        (agClass : AgentClass), RoundTrip lib (ofHost name host agClass) := by
  intro hall
  have hclient : RoundTrip plainJson EXTERNAL_CLIENT := hall plainJson plainJson_faithful _ _ _
  obtain ⟨read, hread, -⟩ := hclient
  rw [constructor_toString plainJson plainJson_faithful] at hread
  cases hread

end AID

end Siebog.Agents
