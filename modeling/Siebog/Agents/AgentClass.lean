import Siebog.Lib.Separator
import Siebog.Lib.JsonReader

/-!
# Agent classes and their text

The class of an agent is written as its module and its bean name with a `$` between them. Two
decoders read that text. The constructor splits it at the first separator and refuses a split that
leaves a part empty; `valueOf` splits it at the last separator and refuses nothing but a text
without one. A text that starts with a brace is read as a JSON object by the constructor only.

`constructor_toString_iff` and `valueOf_toString_iff` say which classes each decoder reads back, and
`decoders_agree_iff` on which texts the two agree.
-/

set_option autoImplicit false

namespace Siebog.Agents

open Siebog.Lib Siebog.Lib.Utf16 Siebog.Lib.Separator

/-! ## The JSON library -/

section Library

/-- The value of a field: a flag, or the text of anything else. -/
inductive Field where
  | flag (b : Bool)
  | text (t : Text)

/-- A parsed object: its fields by name. -/
abbrev JSONObject := Text → Option Field

namespace JSONObject

def has (json : JSONObject) (key : Text) : Bool := (json key).isSome

/-- `none` is the exception for a name the object lacks. -/
def getString (json : JSONObject) (key : Text) : Option Text :=
  match json key with
  | some (.text t) => some t
  | some (.flag b) => some (Utf16.text (toString b))
  | none => none

/-- The upper-case letters of ASCII as lower-case ones. -/
def toLower (u : CodeUnit) : CodeUnit := if 65 ≤ u.toNat ∧ u.toNat ≤ 90 then u + 32 else u

/-- True only for the flag and for its text in whatever case. -/
def optBoolean (json : JSONObject) (key : Text) : Bool :=
  match json key with
  | some (.flag b) => b
  | some (.text t) => t.map toLower == Utf16.text "true"
  | none => false

end JSONObject

/-- What the program uses of the library: the text of the fields that were put into an object, and
the object that a text stands for. `none` is the exception for a text that stands for none. -/
structure JSONLibrary where
  write : List (Text × Field) → Text
  read : Text → Option JSONObject

/-- Writing and reading keep the fields, whatever their texts. -/
def JSONLibrary.Faithful (lib : JSONLibrary) : Prop :=
  ∀ fields : List (Text × Field), (fields.map Prod.fst).Nodup →
    lib.read (lib.write fields) = some fun key => fields.lookup key

/-! ### A codec of the library's kind -/

def Field.toJson : Field → Json
  | .flag b => .bool b
  | .text t => .str t

def Field.ofJson : Json → Field
  | .bool b => .flag b
  | .str t => .text t
  | v => .text (Json.stringify v)

theorem Field.ofJson_toJson (field : Field) : ofJson (toJson field) = field := by
  cases field with
  | flag b => rfl
  | text t => rfl

/-- Every field is a member of one object. -/
def plainJson : JSONLibrary where
  write fields := Json.stringify (.obj (fields.map fun field => (field.1, field.2.toJson)))
  read t :=
    match Json.parse t with
    | some (.obj ms) => some fun key => (ms.lookup key).map Field.ofJson
    | _ => none

theorem lookup_toJson (key : Text) (fields : List (Text × Field)) :
    ((fields.map fun field => (field.1, field.2.toJson)).lookup key).map Field.ofJson =
      fields.lookup key := by
  induction fields with
  | nil => rfl
  | cons field fields ih =>
      obtain ⟨name, value⟩ := field
      by_cases hkey : key = name
      · simp [hkey, Field.ofJson_toJson]
      · rw [List.map_cons, List.lookup_cons, List.lookup_cons, beq_false_of_ne hkey]
        exact ih

theorem plainJson_faithful : plainJson.Faithful := by
  intro fields _
  simp only [plainJson, Json.parse_stringify, lookup_toJson]

end Library

/-! ## The two decoders -/

section Model

/-- Description of a deployed agent. -/
structure AgentClass where
  module : Text
  ejbName : Text
  path : Text
  deriving DecidableEq

/-- The exceptions of the decoders: an illegal argument with its message, one that a refusal of the
JSON library caused, and an index outside the text. -/
inductive DecodeException where
  | illegalArgument (message : String)
  | illegalJson
  | stringIndexOutOfBounds
  deriving DecidableEq

def SEPARATOR : CodeUnit := unit '$'

namespace AgentClass

/-- The constructor that takes the two names. -/
def ofNames (module ejbName : Text) : AgentClass := ⟨module, ejbName, []⟩

/-- The class of a bean of this module, by its simple name. -/
def forSiebogEjb (simpleName : Text) : AgentClass := ofNames (text "siebog") simpleName

/-- The path does not count. -/
def equals (ac other : AgentClass) : Bool :=
  ac.module == other.module && ac.ejbName == other.ejbName

def toString (ac : AgentClass) : Text := ac.module ++ SEPARATOR :: ac.ejbName

/-- The path of an object may be left out. -/
def pathOf (json : JSONObject) : Option Text :=
  if json.has (text "path") then json.getString (text "path") else some []

/-- The class of the object that a text starting with a brace stands for. -/
def ofJson (lib : JSONLibrary) (moduleAndEjbName : Text) : Option AgentClass := do
  let json ← lib.read moduleAndEjbName
  let module ← json.getString (text "module")
  let ejbName ← json.getString (text "ejbName")
  let path ← pathOf json
  return ⟨module, ejbName, path⟩

/-- The constructor that takes the text. -/
def constructor (lib : JSONLibrary) (moduleAndEjbName : Text) :
    Except DecodeException AgentClass :=
  -- the two forms are told apart by the first unit alone
  if moduleAndEjbName.head? = some (unit '{') then
    match ofJson lib moduleAndEjbName with
    | some ac => .ok ac
    | none => .error .illegalJson
  else
    match indexOf SEPARATOR moduleAndEjbName with
    | none => .error (.illegalArgument "Expected module$ejbName.")
    | some n =>
      if n = 0 ∨ n ≥ moduleAndEjbName.length - 1 then
        .error (.illegalArgument "Expected module$ejbName.")
      else .ok ⟨moduleAndEjbName.take n, moduleAndEjbName.drop (n + 1), []⟩

/-- Without a separator the index is -1, which `substring` refuses. -/
def valueOf (str : Text) : Except DecodeException AgentClass :=
  match lastIndexOf SEPARATOR str with
  | none => .error .stringIndexOutOfBounds
  | some n => .ok (ofNames (str.take n) (str.drop (n + 1)))

end AgentClass

end Model

/-! ## What the decoders make of a split text -/

namespace AgentClass

/-- A decoder's result is the class. -/
def ReadsAs (r : Except DecodeException AgentClass) (ac : AgentClass) : Prop :=
  ∃ read, r = .ok read ∧ read.equals ac = true

theorem equals_iff {ac other : AgentClass} :
    ac.equals other = true ↔ ac.module = other.module ∧ ac.ejbName = other.ejbName := by
  rw [equals, Bool.and_eq_true, beq_iff_eq, beq_iff_eq]

theorem equals_comm {ac other : AgentClass} (h : ac.equals other = true) :
    other.equals ac = true := by
  obtain ⟨hmodule, hejbName⟩ := equals_iff.1 h
  exact equals_iff.2 ⟨hmodule.symm, hejbName.symm⟩

theorem valueOf_of_notMem {str : Text} (h : SEPARATOR ∉ str) :
    valueOf str = .error .stringIndexOutOfBounds := by
  rw [valueOf, lastIndexOf_of_notMem h]

theorem valueOf_split (module : Text) {ejbName : Text} (h : SEPARATOR ∉ ejbName) :
    valueOf (module ++ SEPARATOR :: ejbName) = .ok (ofNames module ejbName) := by
  obtain ⟨htake, hdrop⟩ := take_drop_split module ejbName SEPARATOR
  rw [valueOf, lastIndexOf_append_cons module h]
  simp only [htake, hdrop]

/-- The text of a class is split by `valueOf` where it was put together, or later. -/
theorem valueOf_toString_iff (ac : AgentClass) :
    ReadsAs (valueOf ac.toString) ac ↔ SEPARATOR ∉ ac.ejbName := by
  constructor
  · rintro ⟨read, hread, heq⟩ hmem
    obtain ⟨s, t, hsplit, ht⟩ := exists_last hmem
    have hlater : valueOf ac.toString = .ok (ofNames (ac.module ++ SEPARATOR :: s) t) := by
      rw [toString, hsplit, ← valueOf_split _ ht, List.append_assoc, List.cons_append]
    rw [hlater] at hread
    cases hread
    have hmodule : ac.module ++ SEPARATOR :: s = ac.module := (equals_iff.1 heq).1
    have hlength := congrArg List.length hmodule
    rw [List.length_append, List.length_cons] at hlength
    omega
  · intro h
    exact ⟨_, valueOf_split ac.module h, equals_iff.2 ⟨rfl, rfl⟩⟩

variable (lib : JSONLibrary)

theorem constructor_of_notMem {str : Text} (hbrace : str.head? ≠ some (unit '{'))
    (h : SEPARATOR ∉ str) :
    constructor lib str = .error (.illegalArgument "Expected module$ejbName.") := by
  rw [constructor, if_neg hbrace, indexOf_of_notMem h]

theorem constructor_split {module ejbName : Text}
    (hbrace : (module ++ SEPARATOR :: ejbName).head? ≠ some (unit '{'))
    (h : SEPARATOR ∉ module) :
    constructor lib (module ++ SEPARATOR :: ejbName) =
      if module = [] ∨ ejbName = [] then .error (.illegalArgument "Expected module$ejbName.")
      else .ok (ofNames module ejbName) := by
  obtain ⟨htake, hdrop⟩ := take_drop_split module ejbName SEPARATOR
  have hends : (module.length = 0 ∨
      module.length ≥ (module ++ SEPARATOR :: ejbName).length - 1) ↔
        module = [] ∨ ejbName = [] := by
    rw [List.length_append, List.length_cons, List.length_eq_zero_iff,
      ← List.length_eq_zero_iff (l := ejbName)]
    refine or_congr_right ?_
    omega
  rw [constructor, if_neg hbrace, indexOf_append_cons h]
  simp only [hends, htake, hdrop]
  rfl

/-- The library reads an object with the class's two names from its text. -/
def IsJsonOfItself (ac : AgentClass) : Prop :=
  ∃ json, lib.read ac.toString = some json ∧ json.getString (text "module") = some ac.module ∧
    json.getString (text "ejbName") = some ac.ejbName

/-- The class has a text that its constructor splits where it was put together. -/
structure Splits (ac : AgentClass) : Prop where
  module_ne_nil : ac.module ≠ []
  ejbName_ne_nil : ac.ejbName ≠ []
  notMem : SEPARATOR ∉ ac.module

theorem head?_toString (ac : AgentClass) :
    ac.toString.head? = some (unit '{') ↔ ac.module.head? = some (unit '{') := by
  cases hm : ac.module with
  | nil =>
      rw [toString, hm]
      simp only [List.nil_append, List.head?_cons, List.head?_nil, reduceCtorEq, iff_false]
      decide
  | cons u t => rw [toString, hm, List.cons_append, List.head?_cons, List.head?_cons]

/-- A field that is there has a text. -/
theorem exists_pathOf (json : JSONObject) : ∃ path, pathOf json = some path := by
  unfold pathOf JSONObject.has JSONObject.getString
  cases json (text "path") with
  | none => exact ⟨[], rfl⟩
  | some field =>
      cases field with
      | flag b => exact ⟨_, rfl⟩
      | text t => exact ⟨t, rfl⟩

theorem ofJson_toString_iff (ac : AgentClass) :
    (∃ read, ofJson lib ac.toString = some read ∧ read.equals ac = true) ↔
      IsJsonOfItself lib ac := by
  constructor
  · rintro ⟨read, hread, heq⟩
    simp only [ofJson, Option.bind_eq_bind, Option.bind_eq_some_iff, Option.pure_def,
      Option.some.injEq] at hread
    obtain ⟨json, hjson, module, hmodule, ejbName, hejbName, path, -, rfl⟩ := hread
    obtain ⟨rfl, rfl⟩ := equals_iff.1 heq
    exact ⟨json, hjson, hmodule, hejbName⟩
  · rintro ⟨json, hjson, hmodule, hejbName⟩
    obtain ⟨path, hpath⟩ := exists_pathOf json
    refine ⟨⟨ac.module, ac.ejbName, path⟩, ?_, equals_iff.2 ⟨rfl, rfl⟩⟩
    simp only [ofJson, hjson, hmodule, hejbName, hpath, Option.bind_eq_bind, Option.bind_some,
      Option.pure_def]

/-- The constructor reads a class back when its two names are there and its module has no
separator; a text that starts with a brace is another matter. -/
theorem constructor_toString_iff (ac : AgentClass) :
    ReadsAs (constructor lib ac.toString) ac ↔
      if ac.module.head? = some (unit '{') then IsJsonOfItself lib ac else ac.Splits := by
  by_cases hbrace : ac.module.head? = some (unit '{')
  · rw [if_pos hbrace, ← ofJson_toString_iff, ReadsAs, constructor,
      if_pos ((head?_toString ac).2 hbrace)]
    -- the text looks like an object of JSON, and only that reading is tried
    cases ofJson lib ac.toString with
    | none => simp
    | some read => simp
  · have hhead : ac.toString.head? ≠ some (unit '{') := fun h => hbrace ((head?_toString ac).1 h)
    rw [if_neg hbrace]
    constructor
    · rintro ⟨read, hread, heq⟩
      have hmem : SEPARATOR ∈ ac.toString := by simp [toString]
      -- the constructor cuts at the first separator, wherever `toString` has put its own
      obtain ⟨s, t, hsplit, hs⟩ := List.eq_append_cons_of_mem hmem
      rw [hsplit] at hread hhead
      rw [constructor_split lib hhead hs] at hread
      split at hread
      · cases hread
      · next hne =>
          cases hread
          rw [not_or] at hne
          obtain ⟨hmodule, hejbName⟩ := equals_iff.1 heq
          rw [ofNames] at hmodule hejbName
          exact ⟨hmodule ▸ hne.1, hejbName ▸ hne.2, hmodule ▸ hs⟩
    · intro h
      have hne : ¬(ac.module = [] ∨ ac.ejbName = []) :=
        not_or.2 ⟨h.module_ne_nil, h.ejbName_ne_nil⟩
      refine ⟨ofNames ac.module ac.ejbName, ?_, equals_iff.2 ⟨rfl, rfl⟩⟩
      rw [toString, constructor_split lib hhead h.notMem, if_neg hne]

/-! ## Agreement -/

/-- Both decoders fail, or both give the same class. -/
def Agree : Except DecodeException AgentClass → Except DecodeException AgentClass → Prop
  | .ok a, .ok b => a.equals b = true
  | .error _, .error _ => True
  | _, _ => False

/-- On a text with a separator, `valueOf` never fails; the constructor agrees with it when it finds
two parts and no second separator. -/
theorem agree_split_iff {module rest : Text}
    (hbrace : (module ++ SEPARATOR :: rest).head? ≠ some (unit '{')) (h : SEPARATOR ∉ module) :
    Agree (constructor lib (module ++ SEPARATOR :: rest))
        (valueOf (module ++ SEPARATOR :: rest)) ↔
      module ≠ [] ∧ rest ≠ [] ∧ SEPARATOR ∉ rest := by
  rw [constructor_split lib hbrace h]
  by_cases hempty : module = [] ∨ rest = []
  · rw [if_pos hempty]
    have hmem : SEPARATOR ∈ module ++ SEPARATOR :: rest := by simp
    obtain ⟨s, t, hsplit, ht⟩ := exists_last hmem
    rw [hsplit, valueOf_split s ht]
    refine iff_of_false (fun hagree => hagree) ?_
    rintro ⟨hmodule, hrest, -⟩
    exact hempty.elim hmodule hrest
  · rw [if_neg hempty]
    rw [not_or] at hempty
    have hiff : ReadsAs (valueOf (module ++ SEPARATOR :: rest)) (ofNames module rest) ↔
        SEPARATOR ∉ rest := valueOf_toString_iff (ofNames module rest)
    rw [and_iff_right hempty.1, and_iff_right hempty.2, ← hiff]
    cases valueOf (module ++ SEPARATOR :: rest) with
    | error e => exact iff_of_false (fun h => h) (fun ⟨_, h, _⟩ => by cases h)
    | ok read =>
        constructor
        · intro h
          exact ⟨read, rfl, equals_comm h⟩
        · rintro ⟨_, hread, h⟩
          cases hread
          exact equals_comm h

/-- The decoders read a class back, both of them, exactly when its bean name has no separator and
its module is no text of an object, has no separator either and neither name is empty; and they
agree on a text exactly when it has no separator, or one that is neither its first unit nor its
last. -/
theorem decoders_agree_iff :
    (∀ ac : AgentClass,
      (ReadsAs (constructor lib ac.toString) ac ∧ ReadsAs (valueOf ac.toString) ac) ↔
        (if ac.module.head? = some (unit '{') then IsJsonOfItself lib ac else ac.Splits) ∧
          SEPARATOR ∉ ac.ejbName) ∧
      ∀ str : Text, str.head? ≠ some (unit '{') →
        (Agree (constructor lib str) (valueOf str) ↔
          SEPARATOR ∉ str ∨ ∃ module ejbName, str = module ++ SEPARATOR :: ejbName ∧
            module ≠ [] ∧ ejbName ≠ [] ∧ SEPARATOR ∉ module ∧ SEPARATOR ∉ ejbName) := by
  refine ⟨fun ac => and_congr (constructor_toString_iff lib ac) (valueOf_toString_iff ac), ?_⟩
  intro str hbrace
  by_cases hmem : SEPARATOR ∈ str
  · obtain ⟨module, rest, rfl, hmodule⟩ := List.eq_append_cons_of_mem hmem
    rw [agree_split_iff lib hbrace hmodule, or_iff_right (not_not.2 hmem)]
    constructor
    · rintro ⟨hne, hrest, hsep⟩
      exact ⟨module, rest, rfl, hne, hrest, hmodule, hsep⟩
    · rintro ⟨m, e, hsplit, hm, he, hmsep, hesep⟩
      -- both splits are at a first separator
      obtain ⟨rfl, -, rfl⟩ := (List.append_cons_inj_of_notMem hmsep hesep).1 hsplit.symm
      exact ⟨hm, he, hesep⟩
  · rw [constructor_of_notMem lib hbrace hmem, valueOf_of_notMem hmem]
    exact iff_of_true trivial (.inl hmem)

/-- One separator inside the text. -/
theorem decoders_agree_iff_ping :
    Agree (constructor plainJson (text "siebog$Ping")) (valueOf (text "siebog$Ping")) := by
  have hiff := (decoders_agree_iff plainJson).2 (text "siebog$Ping") (by decide)
  exact hiff.2 (.inr ⟨text "siebog", text "Ping", by decide, by decide, by decide, by decide,
    by decide⟩)

/-- The class of the external client has an empty module, which the constructor refuses. -/
theorem decoders_disagree :
    ¬((∀ ac : AgentClass, ReadsAs (constructor plainJson ac.toString) ac ∧
          ReadsAs (valueOf ac.toString) ac) ∧
        ∀ str : Text, str.head? ≠ some (unit '{') →
          Agree (constructor plainJson str) (valueOf str)) := by
  rintro ⟨hclass, -⟩
  obtain ⟨⟨read, hread, -⟩, -⟩ := hclass (ofNames [] [])
  cases hread

end AgentClass

end Siebog.Agents
