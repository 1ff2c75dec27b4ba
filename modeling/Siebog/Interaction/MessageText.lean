import Siebog.Agents.AID
import Siebog.Lib.Decimal
import Siebog.Lib.FlatMap

/-!
# Messages and their text

A message is written as one flat JSON object, in which the user arguments stand under prefixed keys,
and read back by the constructor that takes a text. What a message lacks is not put into the object.
The constructor looks whether there is an identifier before it reads one, but takes over the empty
text that the library gives for a missing field.

`messageText_roundTrip_iff` says which messages are read back as they were.
-/

set_option autoImplicit false

namespace Siebog.Interaction.MessageText

open Siebog.Lib Siebog.Lib.Utf16 Siebog.Agents

/-! ## The JSON library -/

section Library

/-- The value of a field: an integer, an array of texts, or the text of anything else. -/
inductive Value where
  | text (t : Text)
  | long (n : Int64)
  | texts (ts : List Text)

/-- The fields of a message as one flat object. -/
abbrev MessageObject := FlatMap Text Value

/-- What messages use of the library besides what identifiers use of it: the text of an object, the
object that a text stands for, and what the accessors make of a value. -/
structure MessageLibrary extends JSONLibrary where
  writeMessage : MessageObject → Text
  readMessage : Text → Option MessageObject
  valueText : Value → Text
  toLong : Value → Int64

/-- Every key keeps its value, in whatever order the keys are read. -/
structure MessageLibrary.Faithful (lib : MessageLibrary) : Prop where
  fields : lib.toJSONLibrary.Faithful
  read_nil : lib.read [] = none
  object : ∀ obj : MessageObject, ∃ read, lib.readMessage (lib.writeMessage obj) = some read ∧
    ∀ key, read.lookup key = obj.lookup key
  valueText_text : ∀ t, lib.valueText (.text t) = t
  toLong_long : ∀ n, lib.toLong (.long n) = n

section Accessors

variable (lib : MessageLibrary) (obj : MessageObject)

/-- `none` is the exception for a name the object lacks. -/
def getString (key : Text) : Option Text := (obj.lookup key).map lib.valueText

/-- A missing field counts as an empty text. -/
def optString (key : Text) : Text := (getString lib obj key).getD []

/-- The number in a field, 0 when there is none. -/
def optLong (key : Text) : Int64 := ((obj.lookup key).map lib.toLong).getD 0

/-- Anything that is no array counts as missing. -/
def optJSONArray (key : Text) : Option (List Text) :=
  match obj.lookup key with
  | some (.texts ts) => some ts
  | _ => none

end Accessors
/-! ### A codec of the library's kind -/

section Codec

namespace Value

/-- The JSON value of a field. -/
def toJson : Value → Json
  | .text t => .str t
  | .long n => .num (Decimal.numeral n.toInt)
  | .texts ts => .arr (ts.map .str)

/-- The text of an item or of a value that is neither a number nor an array. -/
def textOfJson : Json → Text
  | .str t => t
  | v => Json.stringify v

/-- A number is an integer when its numeral is that of a 64-bit one. -/
def ofNumeral (n : Json.Numeral) : Value :=
  match Decimal.toInt? n.text with
  | none => .text n.text
  | some i => if (Int64.ofInt i).toInt = i then .long (Int64.ofInt i) else .text n.text

/-- What the library makes of a JSON value; whatever is no number and no array becomes a text. -/
def ofJson : Json → Value
  | .num n => ofNumeral n
  | .arr vs => .texts (vs.map textOfJson)
  | v => .text (textOfJson v)

/-- A value is read back from its JSON. -/
theorem ofJson_toJson (value : Value) : ofJson (toJson value) = value := by
  cases value with
  | text t => rfl
  | long n =>
      have hread : Decimal.toInt? (Decimal.numeral n.toInt).text = some n.toInt :=
        Decimal.toInt?_ofInt n.toInt
      simp only [toJson, ofJson, ofNumeral, hread, Int64.ofInt_toInt, if_true]
  | texts ts =>
      rw [toJson, ofJson, List.map_map]
      exact congrArg Value.texts (List.map_id ts)

end Value

/-- The object of the members, of which none has a name twice. -/
def ofMembers (ms : List (Text × Json)) : MessageObject :=
  FlatMap.putAll ∅ (ms.map fun m => (m.1, some (Value.ofJson m.2)))

def plainMessages : MessageLibrary where
  toJSONLibrary := plainJson
  writeMessage obj := Json.stringify (.obj (obj.entries.map fun e => (e.1, e.2.toJson)))
  readMessage t :=
    match Json.parse t with
    | some (.obj ms) => some (ofMembers ms)
    | _ => none
  valueText
    | .text t => t
    | .long n => Decimal.ofInt n.toInt
    | .texts ts => Json.stringify (.arr (ts.map .str))
  toLong
    | .long n => n
    | .text t => ((Decimal.toInt? t).map Int64.ofInt).getD 0
    | .texts _ => 0

/-- Every field is found in the members that are read back. -/
theorem lookup_ofMembers (obj : MessageObject) (key : Text) :
    (ofMembers (obj.entries.map fun e => (e.1, e.2.toJson))).lookup key = obj.lookup key := by
  have hentries : (obj.entries.map fun e => (e.1, e.2.toJson)).map
      (fun m => (m.1, some (Value.ofJson m.2))) = obj.entries.map fun e => (e.1, some e.2) := by
    simp only [List.map_map, Function.comp_def, Value.ofJson_toJson]
  rw [ofMembers, hentries]
  exact FlatMap.lookup_putAll_entries obj key

/-- A library that reads messages back, so that the hypotheses are met by one. -/
theorem plainMessages_faithful : plainMessages.Faithful where
  fields := plainJson_faithful
  read_nil := by rfl
  object obj := by
    refine ⟨_, ?_, lookup_ofMembers obj⟩
    simp only [plainMessages, Json.parse_stringify]
  valueText_text _ := rfl
  toLong_long _ := rfl

end Codec

end Library

/-! ## Messages -/

section Model

/-- The performatives of FIPA ACL. -/
inductive Performative where
  | ACCEPT_PROPOSAL | AGREE | CANCEL | CALL_FOR_PROPOSAL | CONFIRM | DISCONFIRM | FAILURE | INFORM
  | INFORM_IF | INFORM_REF | NOT_UNDERSTOOD | PROPAGATE | PROPOSE | PROXY | QUERY_IF | QUERY_REF
  | REFUSE | REJECT_PROPOSAL | REQUEST | REQUEST_WHEN | REQUEST_WHENEVER | SUBSCRIBE
  deriving DecidableEq

namespace Performative

/-- All performatives, in the order of the declaration. -/
def values : List Performative :=
  [ACCEPT_PROPOSAL, AGREE, CANCEL, CALL_FOR_PROPOSAL, CONFIRM, DISCONFIRM, FAILURE, INFORM,
    INFORM_IF, INFORM_REF, NOT_UNDERSTOOD, PROPAGATE, PROPOSE, PROXY, QUERY_IF, QUERY_REF,
    REFUSE, REJECT_PROPOSAL, REQUEST, REQUEST_WHEN, REQUEST_WHENEVER, SUBSCRIBE]

/-- `Enum.name`. -/
def name : Performative → Text
  | ACCEPT_PROPOSAL => text "ACCEPT_PROPOSAL"
  | AGREE => text "AGREE"
  | CANCEL => text "CANCEL"
  | CALL_FOR_PROPOSAL => text "CALL_FOR_PROPOSAL"
  | CONFIRM => text "CONFIRM"
  | DISCONFIRM => text "DISCONFIRM"
  | FAILURE => text "FAILURE"
  | INFORM => text "INFORM"
  | INFORM_IF => text "INFORM_IF"
  | INFORM_REF => text "INFORM_REF"
  | NOT_UNDERSTOOD => text "NOT_UNDERSTOOD"
  | PROPAGATE => text "PROPAGATE"
  | PROPOSE => text "PROPOSE"
  | PROXY => text "PROXY"
  | QUERY_IF => text "QUERY_IF"
  | QUERY_REF => text "QUERY_REF"
  | REFUSE => text "REFUSE"
  | REJECT_PROPOSAL => text "REJECT_PROPOSAL"
  | REQUEST => text "REQUEST"
  | REQUEST_WHEN => text "REQUEST_WHEN"
  | REQUEST_WHENEVER => text "REQUEST_WHENEVER"
  | SUBSCRIBE => text "SUBSCRIBE"

/-- `none` is the exception for a name that no performative has. -/
def valueOf (t : Text) : Option Performative := values.find? fun p => p.name == t

end Performative

/-- The lower-case letters of ASCII as upper-case ones. -/
def toUpper (u : CodeUnit) : CodeUnit := if 97 ≤ u.toNat ∧ u.toNat ≤ 122 then u - 32 else u

/-- A FIPA ACL message without a content object. -/
structure ACLMessage where
  performative : Option Performative
  sender : Option AID
  receivers : List AID
  replyTo : Option AID
  content : Option Text
  language : Option Text
  encoding : Option Text
  ontology : Option Text
  protocol : Option Text
  conversationId : Option Text
  replyWith : Option Text
  inReplyTo : Option Text
  replyBy : Int64
  userArgs : FlatMap Text Value

/-- What the key of a user argument starts with, among the fields of its message. -/
def USERARG_PREFIX : Text := text "X-"

/-- The exceptions of the constructor: a refusal of the JSON library, a name that no performative
has, and what the constructor of identifiers throws. -/
inductive ReadException where
  | illegalJson
  | noPerformative
  | aid (e : DecodeException)

namespace ACLMessage

/-- The constructor that takes a performative. -/
def ofPerformative (performative : Option Performative) : ACLMessage where
  performative := performative
  sender := none
  receivers := []
  replyTo := none
  content := none
  language := none
  encoding := none
  ontology := none
  protocol := none
  conversationId := none
  replyWith := none
  inReplyTo := none
  replyBy := 0
  userArgs := ∅

variable (lib : MessageLibrary)

/-- What the fields are put as. The library writes a performative and an identifier as the text of
its `toString`, with quotes. -/
def entries (msg : ACLMessage) : List (Text × Option Value) :=
  let aidText (aid : AID) : Text := aid.toString lib.toJSONLibrary
  [(text "performative", msg.performative.map fun p => .text p.name),
    (text "sender", msg.sender.map fun aid => .text (aidText aid)),
    (text "receivers", some (.texts (msg.receivers.map aidText))),
    (text "replyTo", msg.replyTo.map fun aid => .text (aidText aid)),
    (text "content", msg.content.map .text),
    (text "language", msg.language.map .text),
    (text "encoding", msg.encoding.map .text),
    (text "ontology", msg.ontology.map .text),
    (text "protocol", msg.protocol.map .text),
    (text "conversationId", msg.conversationId.map .text),
    (text "replyWith", msg.replyWith.map .text),
    (text "inReplyTo", msg.inReplyTo.map .text),
    (text "replyBy", some (.long msg.replyBy))]

/-- The object that is written: the fields, and then the user arguments. -/
def toObject (msg : ACLMessage) : MessageObject :=
  FlatMap.putPrefixed USERARG_PREFIX msg.userArgs (FlatMap.putAll ∅ (msg.entries lib))

/-- The text of a message. -/
def toString (msg : ACLMessage) : Text := lib.writeMessage (msg.toObject lib)

/-- `new AID(str)`. -/
def readAid (str : Text) : Except ReadException AID :=
  (AID.constructor lib.toJSONLibrary str).mapError .aid

/-- An identifier is read only when its text is not empty. -/
def optAid (str : Text) : Except ReadException (Option AID) :=
  if str = [] then .ok none else (readAid lib str).map some

/-- The performative, in capital or small letters. It has to be there. -/
def readPerformative (obj : MessageObject) : Except ReadException Performative :=
  match getString lib obj (text "performative") with
  | none => .error .illegalJson
  | some str =>
    match Performative.valueOf (str.map toUpper) with
    | none => .error .noPerformative
    | some performative => .ok performative

/-- The fields that are read from an object without exceptions. -/
def plainFields (obj : MessageObject) : ACLMessage :=
  { ofPerformative none with
    content := some (optString lib obj (text "content"))
    language := some (optString lib obj (text "language"))
    encoding := some (optString lib obj (text "encoding"))
    ontology := some (optString lib obj (text "ontology"))
    protocol := some (optString lib obj (text "protocol"))
    conversationId := some (optString lib obj (text "conversationId"))
    replyWith := some (optString lib obj (text "replyWith"))
    inReplyTo := some (optString lib obj (text "inReplyTo"))
    replyBy := optLong lib obj (text "replyBy")
    userArgs := FlatMap.unprefixed USERARG_PREFIX obj }

/-- The message of a parsed object. -/
def ofObject (obj : MessageObject) : Except ReadException ACLMessage := do
  let performative ← readPerformative lib obj
  let sender ← optAid lib (optString lib obj (text "sender"))
  let receivers ← ((optJSONArray obj (text "receivers")).getD []).mapM (readAid lib)
  let replyTo ← optAid lib (optString lib obj (text "replyTo"))
  return { plainFields lib obj with
    performative := some performative
    sender := sender
    receivers := receivers
    replyTo := replyTo }

/-- `new ACLMessage(jsonString)`. -/
def constructor (jsonString : Text) : Except ReadException ACLMessage :=
  match lib.readMessage jsonString with
  | none => .error .illegalJson
  | some obj => ofObject lib obj

end ACLMessage

end Model

/-! ## What is read back -/

/-- An identifier as it is read back. -/
def SameAid (read aid : AID) : Prop :=
  read.equals aid = true ∧ read.name = aid.name ∧ read.host = aid.host ∧ read.str = aid.str ∧
    read.agClass.equals aid.agClass = true

/-- An identifier is read back when one is read that is the same. -/
theorem roundTrip_iff_sameAid (lib : JSONLibrary) (aid : AID) : AID.RoundTrip lib aid ↔
    ∃ read, AID.constructor lib (aid.toString lib) = .ok read ∧ SameAid read aid :=
  Iff.rfl

namespace ACLMessage

/-- The identifiers of a message. -/
def aids (msg : ACLMessage) : List AID :=
  msg.sender.toList ++ msg.receivers ++ msg.replyTo.toList

/-- The text fields of a message. -/
def texts (msg : ACLMessage) : List (Option Text) :=
  [msg.content, msg.language, msg.encoding, msg.ontology, msg.protocol, msg.conversationId,
    msg.replyWith, msg.inReplyTo]

/-- Two messages agree in every field. -/
structure Same (read msg : ACLMessage) : Prop where
  performative : read.performative = msg.performative
  sender : Option.Rel SameAid read.sender msg.sender
  receivers : List.Forall₂ SameAid read.receivers msg.receivers
  replyTo : Option.Rel SameAid read.replyTo msg.replyTo
  texts : read.texts = msg.texts
  replyBy : read.replyBy = msg.replyBy
  userArgs : ∀ key, read.userArgs.lookup key = msg.userArgs.lookup key

/-! ### The object -/

section Object

variable (lib : MessageLibrary)

/-- The names of the fields. -/
def names : List Text :=
  [text "performative", text "sender", text "receivers", text "replyTo", text "content",
    text "language", text "encoding", text "ontology", text "protocol", text "conversationId",
    text "replyWith", text "inReplyTo", text "replyBy"]

theorem map_fst_entries (msg : ACLMessage) : (msg.entries lib).map Prod.fst = names := by rfl

theorem nodup_names : names.Nodup := by decide

theorem not_prefix_of_mem_names : ∀ key ∈ names, ¬ USERARG_PREFIX <+: key := by decide

/-- The user arguments leave the fields alone. -/
theorem lookup_toObject (msg : ACLMessage) {key : Text} {value : Option Value}
    (hmem : (key, value) ∈ msg.entries lib) : (msg.toObject lib).lookup key = value := by
  have hname : key ∈ names := map_fst_entries lib msg ▸ List.mem_map_of_mem hmem
  rw [toObject, FlatMap.lookup_putPrefixed_of_not (not_prefix_of_mem_names key hname)]
  refine FlatMap.lookup_putAll ?_ hmem ∅
  rw [map_fst_entries]
  exact nodup_names

/-- A user's argument is found under its own name with the prefix. -/
theorem lookup_userArg (msg : ACLMessage) (key : Text) :
    (msg.toObject lib).lookup (USERARG_PREFIX ++ key) = msg.userArgs.lookup key := by
  refine FlatMap.lookup_putPrefixed ?_ msg.userArgs key
  intro name hname
  refine not_prefix_of_mem_names name ?_
  by_contra hout
  -- a key that is no field's has not been put
  rw [← map_fst_entries lib msg] at hout
  have hnone := FlatMap.lookup_putAll_of_notMem hout ∅
  rw [AList.lookup_empty, AList.lookup_eq_none] at hnone
  exact hnone hname

end Object

/-! ### The fields -/

section Fields

variable {lib : MessageLibrary} (h : lib.Faithful)
include h

/-- A text that is missing is read as the empty one. -/
theorem optString_of_lookup {obj : MessageObject} {key : Text} {t : Option Text}
    (hlookup : obj.lookup key = t.map .text) : optString lib obj key = t.getD [] := by
  rw [optString, getString, hlookup]
  cases t with
  | none => rfl
  | some t =>
      rw [Option.map_some, Option.map_some, h.valueText_text]

/-- A performative is read back from its name. -/
theorem readPerformative_of_lookup {obj : MessageObject} {p : Performative}
    (hlookup : obj.lookup (text "performative") = some (.text p.name)) :
    readPerformative lib obj = .ok p := by
  have hvalueOf : Performative.valueOf (p.name.map toUpper) = some p := by
    cases p <;> decide
  rw [readPerformative, getString, hlookup, Option.map_some, h.valueText_text]
  simp only [hvalueOf]

/-- The text of an identifier that is read back is not empty. -/
theorem optAid_toString {aid : AID} (haid : AID.RoundTrip lib.toJSONLibrary aid) :
    optAid lib (aid.toString lib.toJSONLibrary) =
      (readAid lib (aid.toString lib.toJSONLibrary)).map some := by
  refine if_neg fun hnil => ?_
  obtain ⟨read, hread, -⟩ := haid
  rw [hnil, AID.constructor, h.read_nil] at hread
  cases hread

omit h in
/-- An identifier that is read back. -/
theorem exists_readAid {aid : AID} (haid : AID.RoundTrip lib.toJSONLibrary aid) :
    ∃ read, readAid lib (aid.toString lib.toJSONLibrary) = .ok read ∧ SameAid read aid := by
  obtain ⟨read, hread, hsame⟩ := (roundTrip_iff_sameAid _ aid).1 haid
  refine ⟨read, ?_, hsame⟩
  rw [readAid, hread]
  rfl

/-- An identifier that may be missing is read back. -/
theorem exists_optAid {aid : Option AID}
    (haid : ∀ a ∈ aid.toList, AID.RoundTrip lib.toJSONLibrary a) {obj : MessageObject} {key : Text}
    (hlookup : obj.lookup key = aid.map fun a => .text (a.toString lib.toJSONLibrary)) :
    ∃ read, optAid lib (optString lib obj key) = .ok read ∧ Option.Rel SameAid read aid := by
  have hstring : obj.lookup key = (aid.map (AID.toString lib.toJSONLibrary)).map .text := by
    rw [hlookup, Option.map_map]
    rfl
  rw [optString_of_lookup h hstring]
  cases aid with
  | none => exact ⟨none, if_pos rfl, .none⟩
  | some a =>
      have ha : AID.RoundTrip lib.toJSONLibrary a := haid a (by simp)
      obtain ⟨read, hread, hsame⟩ := exists_readAid ha
      refine ⟨some read, ?_, .some hsame⟩
      rw [Option.map_some, Option.getD_some, optAid_toString h ha, hread]
      rfl

omit h in
/-- The identifiers of a list are read back one by one. -/
theorem exists_readAids {aids : List AID}
    (haids : ∀ a ∈ aids, AID.RoundTrip lib.toJSONLibrary a) :
    ∃ reads, (aids.map (AID.toString lib.toJSONLibrary)).mapM (readAid lib) = .ok reads ∧
      List.Forall₂ SameAid reads aids := by
  induction aids with
  | nil => exact ⟨[], rfl, .nil⟩
  | cons aid aids ih =>
      obtain ⟨read, hread, hsame⟩ := exists_readAid (haids aid List.mem_cons_self)
      obtain ⟨reads, hreads, hsames⟩ := ih fun a ha => haids a (List.mem_cons_of_mem aid ha)
      refine ⟨read :: reads, ?_, .cons hsame hsames⟩
      rw [List.map_cons, List.mapM_cons, hread, hreads]
      rfl

end Fields

/-! ### The message -/

section Message

variable {lib : MessageLibrary} (h : lib.Faithful)
include h

/-- Without a performative the text is refused. -/
theorem constructor_of_missing {msg : ACLMessage} (hp : msg.performative = none) :
    constructor lib (msg.toString lib) = .error .illegalJson := by
  obtain ⟨obj, hread, hobj⟩ := h.object (msg.toObject lib)
  have hmem : (text "performative", none) ∈ msg.entries lib := by
    rw [entries, hp]
    exact List.mem_cons_self
  have hlookup := (hobj _).trans (lookup_toObject lib msg hmem)
  simp only [constructor, toString, hread, ofObject, readPerformative, getString, hlookup]
  rfl

omit h in
/-- The object that is read has the fields that were put. -/
theorem lookup_of_mem {msg : ACLMessage} {obj : MessageObject}
    (hobj : ∀ key, obj.lookup key = (msg.toObject lib).lookup key) {key : Text}
    {value : Option Value} (hmem : (key, value) ∈ msg.entries lib) : obj.lookup key = value :=
  (hobj key).trans (lookup_toObject lib msg hmem)

/-- A text field is read as the text that was put, and a missing one as an empty text. -/
theorem texts_plainFields {msg : ACLMessage} {obj : MessageObject}
    (hobj : ∀ key, obj.lookup key = (msg.toObject lib).lookup key) :
    (plainFields lib obj).texts = msg.texts.map fun t => some (t.getD []) := by
  have hstring : ∀ {key : Text} {t : Option Text}, (key, t.map Value.text) ∈ msg.entries lib →
      optString lib obj key = t.getD [] :=
    fun hmem => optString_of_lookup h (lookup_of_mem hobj hmem)
  have hcontent : optString lib obj (text "content") = msg.content.getD [] :=
    hstring (by simp [entries])
  have hlanguage : optString lib obj (text "language") = msg.language.getD [] :=
    hstring (by simp [entries])
  have hencoding : optString lib obj (text "encoding") = msg.encoding.getD [] :=
    hstring (by simp [entries])
  have hontology : optString lib obj (text "ontology") = msg.ontology.getD [] :=
    hstring (by simp [entries])
  have hprotocol : optString lib obj (text "protocol") = msg.protocol.getD [] :=
    hstring (by simp [entries])
  have hconversationId : optString lib obj (text "conversationId") = msg.conversationId.getD [] :=
    hstring (by simp [entries])
  have hreplyWith : optString lib obj (text "replyWith") = msg.replyWith.getD [] :=
    hstring (by simp [entries])
  have hinReplyTo : optString lib obj (text "inReplyTo") = msg.inReplyTo.getD [] :=
    hstring (by simp [entries])
  simp only [plainFields, texts, List.map_cons, List.map_nil, hcontent, hlanguage, hencoding,
    hontology, hprotocol, hconversationId, hreplyWith, hinReplyTo]

/-- The deadline is read back. -/
theorem replyBy_plainFields {msg : ACLMessage} {obj : MessageObject}
    (hobj : ∀ key, obj.lookup key = (msg.toObject lib).lookup key) :
    (plainFields lib obj).replyBy = msg.replyBy := by
  have hlong : obj.lookup (text "replyBy") = some (.long msg.replyBy) :=
    lookup_of_mem hobj (by simp [entries])
  rw [plainFields, optLong, hlong, Option.map_some, Option.getD_some, h.toLong_long]

omit h in
/-- The user's arguments are read back. -/
theorem userArgs_plainFields {msg : ACLMessage} {obj : MessageObject}
    (hobj : ∀ key, obj.lookup key = (msg.toObject lib).lookup key) (key : Text) :
    (plainFields lib obj).userArgs.lookup key = msg.userArgs.lookup key := by
  rw [plainFields, FlatMap.lookup_unprefixed, hobj, lookup_userArg]

/-- The text of a message with a performative is read: every field is as it was, but for the missing
texts, which are now empty. -/
theorem constructor_toString {msg : ACLMessage} {p : Performative}
    (hp : msg.performative = some p)
    (haids : ∀ aid ∈ msg.aids, AID.RoundTrip lib.toJSONLibrary aid) :
    ∃ read, constructor lib (msg.toString lib) = .ok read ∧
      read.texts = (msg.texts.map fun t => some (t.getD [])) ∧
      (read.texts = msg.texts → Same read msg) := by
  obtain ⟨obj, hread, hobj⟩ := h.object (msg.toObject lib)
  have hperformative : readPerformative lib obj = .ok p := by
    refine readPerformative_of_lookup h (lookup_of_mem hobj ?_)
    rw [entries, hp]
    exact List.mem_cons_self
  -- the two optional identifiers, and those of the array
  have hsenderAid : ∀ a ∈ msg.sender.toList, AID.RoundTrip lib.toJSONLibrary a :=
    fun a ha => haids a (by simp [aids, Option.mem_toList.1 ha])
  have hreplyToAid : ∀ a ∈ msg.replyTo.toList, AID.RoundTrip lib.toJSONLibrary a :=
    fun a ha => haids a (by simp [aids, Option.mem_toList.1 ha])
  have hreceiverAids : ∀ a ∈ msg.receivers, AID.RoundTrip lib.toJSONLibrary a :=
    fun a ha => haids a (by simp [aids, ha])
  have harray : obj.lookup (text "receivers") =
      some (.texts (msg.receivers.map (AID.toString lib.toJSONLibrary))) :=
    lookup_of_mem hobj (by simp [entries])
  obtain ⟨sender, hsender, hsameSender⟩ := exists_optAid h hsenderAid
    (lookup_of_mem hobj (by simp [entries]) : obj.lookup (text "sender") = _)
  obtain ⟨replyTo, hreplyTo, hsameReplyTo⟩ := exists_optAid h hreplyToAid
    (lookup_of_mem hobj (by simp [entries]) : obj.lookup (text "replyTo") = _)
  obtain ⟨receivers, hreceivers, hsameReceivers⟩ := exists_readAids hreceiverAids
  refine ⟨{ plainFields lib obj with
    performative := some p
    sender := sender
    receivers := receivers
    replyTo := replyTo }, ?_, texts_plainFields h hobj, fun htexts => ?_⟩
  · have hreceivers' : ((optJSONArray obj (text "receivers")).getD []).mapM (readAid lib) =
        .ok receivers := by
      simp only [optJSONArray, harray, Option.getD_some, hreceivers]
    rw [constructor, toString, hread]
    simp only [ofObject, hperformative, hsender, hreceivers', hreplyTo]
    rfl
  · exact ⟨hp.symm, hsameSender, hsameReceivers, hsameReplyTo, htexts, replyBy_plainFields h hobj,
      userArgs_plainFields hobj⟩

/-- A message is read back as it was exactly when it has a performative and no text field is
missing. -/
theorem messageText_roundTrip_iff {msg : ACLMessage}
    (haids : ∀ aid ∈ msg.aids, AID.RoundTrip lib.toJSONLibrary aid) :
    (∃ read, constructor lib (msg.toString lib) = .ok read ∧ Same read msg) ↔
      msg.performative ≠ none ∧ ∀ t ∈ msg.texts, t ≠ none := by
  cases hp : msg.performative with
  | none =>
      refine iff_of_false ?_ fun hc => hc.1 rfl
      rintro ⟨read, hread, -⟩
      rw [constructor_of_missing h hp] at hread
      cases hread
  | some p =>
      obtain ⟨read, hread, htexts, hsame⟩ := constructor_toString h hp haids
      rw [and_iff_right (Option.some_ne_none p)]
      constructor
      · rintro ⟨other, hother, hmsg⟩
        rw [hread] at hother
        cases hother
        intro t ht
        -- what was read has every text
        rw [← hmsg.texts, htexts, List.mem_map] at ht
        obtain ⟨_, -, rfl⟩ := ht
        exact Option.some_ne_none _
      · intro hall
        refine ⟨read, hread, hsame ?_⟩
        rw [htexts]
        refine (List.map_congr_left fun t ht => ?_).trans (List.map_id _)
        obtain ⟨u, rfl⟩ := Option.ne_none_iff_exists'.1 (hall t ht)
        rfl

end Message

/-- A request to a browser agent, with an argument of the user's and with texts that are there. -/
def requestOfClient : ACLMessage :=
  { ofPerformative (some .REQUEST) with
    sender := some (AID.ofName (text "client") RadigostStub.AGENT_CLASS)
    receivers := [AID.ofName (text "ping") RadigostStub.AGENT_CLASS]
    content := some (text "hello")
    language := some []
    encoding := some []
    ontology := some []
    protocol := some []
    conversationId := some (text "c1")
    replyWith := some []
    inReplyTo := some []
    userArgs := AList.insert (text "key") (.text (text "value")) ∅ }

/-- The identifier of a browser agent is read back. -/
theorem roundTrip_radigost (name : Text) :
    AID.RoundTrip plainJson (AID.ofName name RadigostStub.AGENT_CLASS) := by
  refine (AID.roundTrip_host_iff plainJson plainJson_faithful name AID.HOST_NAME _).2 (.inl ?_)
  decide

theorem messageText_roundTrip_iff_client :
    ∃ read, constructor plainMessages (requestOfClient.toString plainMessages) = .ok read ∧
      Same read requestOfClient := by
  refine (messageText_roundTrip_iff plainMessages_faithful ?_).2 ⟨Option.some_ne_none _, ?_⟩
  · intro aid haid
    have hname : aid = AID.ofName (text "client") RadigostStub.AGENT_CLASS ∨
        aid = AID.ofName (text "ping") RadigostStub.AGENT_CLASS := by
      simpa [aids, requestOfClient, ofPerformative] using haid
    rcases hname with rfl | rfl
    · exact roundTrip_radigost (text "client")
    · exact roundTrip_radigost (text "ping")
  · intro t ht
    simp only [texts, requestOfClient, List.mem_cons, List.not_mem_nil, or_false] at ht
    rcases ht with rfl | rfl | rfl | rfl | rfl | rfl | rfl | rfl <;> exact Option.some_ne_none _

/-- A request that nothing has been set in: its content comes back as an empty text. -/
theorem missing_content_read :
    ¬ ∀ lib : MessageLibrary, lib.Faithful → ∀ msg : ACLMessage, msg.performative ≠ none →
        (∀ aid ∈ msg.aids, AID.RoundTrip lib.toJSONLibrary aid) →
        ∃ read, constructor lib (msg.toString lib) = .ok read ∧ Same read msg := by
  intro hall
  have haids : ∀ aid ∈ (ofPerformative (some .REQUEST)).aids,
      AID.RoundTrip plainMessages.toJSONLibrary aid := fun aid haid =>
    absurd haid List.not_mem_nil
  obtain ⟨other, hother, hsame⟩ := hall plainMessages plainMessages_faithful
    (ofPerformative (some .REQUEST)) (Option.some_ne_none _) haids
  obtain ⟨read, hread, htexts, -⟩ := constructor_toString plainMessages_faithful rfl haids
  rw [hread] at hother
  cases hother
  have hcontent : some [] = (none : Option Text) :=
    List.head_eq_of_cons_eq (htexts.symm.trans hsame.texts)
  cases hcontent

end ACLMessage

end Siebog.Interaction.MessageText
