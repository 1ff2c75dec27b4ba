import Siebog.Lib.Separator
import Siebog.Lib.Traverse
import Siebog.Agents.AgentManager
import Mathlib.Data.List.Nodup

/-!
# Named arguments

The arguments an agent starts with are built from strings `key=value`. Each string is split at all
separators, and only the first two pieces are used: the value loses whatever follows a separator in
it, and an empty value leaves no second piece at all.

`args_round_trip_iff` says for which pairs the arguments are the pairs.
-/

set_option autoImplicit false

namespace Siebog.Agents

open Siebog.Lib Siebog.Lib.Utf16 Siebog.Lib.Separator

section Model

/-- The value of an argument; a field of its own, which may be missing. -/
structure StringWrapper where
  value : Option Text

/-- The arguments of an agent: a wrapper, possibly of `null`, under each key that was put. -/
structure AgentInitArgs where
  args : Text → Option StringWrapper

namespace AgentInitArgs

def EQUALS : CodeUnit := unit '='

/-- Without arguments. -/
def empty : AgentInitArgs := ⟨fun _ => none⟩

/-- Puts a value under a key, over the one that was there. -/
def put (a : AgentInitArgs) (key : Text) (value : Option Text) : AgentInitArgs :=
  ⟨Function.update a.args key (some ⟨value⟩)⟩

/-- The value under a key. The default stands in for a missing key, and for `null`. -/
def get (a : AgentInitArgs) (key d : Text) : Text :=
  match a.args key with
  | some arg => arg.value.getD d
  | none => d

/-- The values without their wrappers; a key that was put with `null` is still there. -/
def toStringMap (a : AgentInitArgs) : Text → Option (Option Text) :=
  fun key => (a.args key).map StringWrapper.value

/-- One round of the constructor's loop; the exception is an index outside the array of pieces. -/
def putKeyValue (a : AgentInitArgs) (str : Text) : Option AgentInitArgs :=
  let kv := split EQUALS str
  match kv[1]?, kv[0]? with
  | some value, some key => some (a.put key (some value))
  | _, _ => none

/-- Accepts strings in the form of `key=value`. -/
def new (keyValues : List Text) : Option AgentInitArgs := keyValues.foldlM putKeyValue empty

end AgentInitArgs

end Model

namespace AgentInitArgs

/-- `key=value` -/
def keyValue (pair : Text × Text) : Text := pair.1 ++ EQUALS :: pair.2

/-- The manager's view of the arguments. -/
theorem get_eq_manager (a : AgentInitArgs) (key d : Text) :
    a.get key d =
      AgentManager.AgentInitArgs.get (fun k => (a.args k).bind StringWrapper.value) key d := by
  rw [get, AgentManager.AgentInitArgs.get]
  cases a.args key with
  | none => rfl
  | some arg => rfl

/-- The arguments are the pairs: each key has its value, every other key the default. -/
structure Holds (pairs : List (Text × Text)) (a : AgentInitArgs) : Prop where
  value : ∀ pair ∈ pairs, ∀ d, a.get pair.1 d = pair.2
  absent : ∀ key ∉ pairs.map Prod.fst, ∀ d, a.get key d = d
  map : ∀ key, a.toStringMap key = (pairs.lookup key).map some

section Loop

variable {pairs : List (Text × Text)}

/-- The arguments after a run of the loop on whole values. -/
def putAll (a : AgentInitArgs) (pairs : List (Text × Text)) : AgentInitArgs :=
  pairs.foldl (fun a pair => a.put pair.1 (some pair.2)) a

theorem putKeyValue_whole (a : AgentInitArgs) {pair : Text × Text} (hkey : pair.1 ≠ [])
    (hsep : EQUALS ∉ pair.1) (hvalue : pair.2 ≠ []) (hvsep : EQUALS ∉ pair.2) :
    a.putKeyValue (keyValue pair) = some (a.put pair.1 (some pair.2)) := by
  rw [putKeyValue, keyValue, split_append_cons hkey hsep hvalue hvsep]
  rfl

theorem foldlM_whole (a : AgentInitArgs)
    (hkeys : ∀ pair ∈ pairs, pair.1 ≠ [] ∧ EQUALS ∉ pair.1)
    (hvalues : ∀ pair ∈ pairs, pair.2 ≠ [] ∧ EQUALS ∉ pair.2) :
    (pairs.map keyValue).foldlM putKeyValue a = some (putAll a pairs) := by
  induction pairs generalizing a with
  | nil => rfl
  | cons pair pairs ih =>
      rw [List.forall_mem_cons] at hkeys hvalues
      rw [List.map_cons, List.foldlM_cons,
        putKeyValue_whole a hkeys.1.1 hkeys.1.2 hvalues.1.1 hvalues.1.2]
      exact ih _ hkeys.2 hvalues.2

theorem args_putAll_of_notMem (a : AgentInitArgs) {key : Text} (h : key ∉ pairs.map Prod.fst) :
    (putAll a pairs).args key = a.args key := by
  induction pairs generalizing a with
  | nil => rfl
  | cons pair pairs ih =>
      rw [List.map_cons, List.mem_cons, not_or] at h
      refine (ih (a.put pair.1 (some pair.2)) h.2).trans ?_
      exact Function.update_of_ne h.1 _ _

theorem args_putAll (a : AgentInitArgs) (hnodup : (pairs.map Prod.fst).Nodup) {pair : Text × Text}
    (h : pair ∈ pairs) : (putAll a pairs).args pair.1 = some ⟨some pair.2⟩ := by
  induction pairs generalizing a with
  | nil => cases h
  | cons first pairs ih =>
      rw [List.map_cons, List.nodup_cons] at hnodup
      rcases List.mem_cons.1 h with rfl | h
      · refine (args_putAll_of_notMem _ hnodup.1).trans ?_
        exact Function.update_self _ _ _
      · exact ih _ hnodup.2 h

theorem exists_of_putKeyValue {a a' : AgentInitArgs} {pair : Text × Text}
    (hsep : EQUALS ∉ pair.1) (h : a.putKeyValue (keyValue pair) = some a') :
    ∃ value, (split EQUALS (keyValue pair))[1]? = some value ∧
      a' = a.put pair.1 (some value) := by
  rw [putKeyValue] at h
  cases hvalue : (split EQUALS (keyValue pair))[1]? with
  | none => simp [hvalue] at h
  | some value =>
      cases hkey : (split EQUALS (keyValue pair))[0]? with
      | none => simp [hvalue, hkey] at h
      | some key =>
          have hfirst : key = pair.1 := eq_of_split_first hsep hkey
          simp only [hvalue, hkey, Option.some.injEq] at h
          exact ⟨value, rfl, by rw [← h, hfirst]⟩

/-- What a run that throws nothing has put under the keys. -/
theorem exists_of_foldlM {a a' : AgentInitArgs} (hkeys : ∀ pair ∈ pairs, EQUALS ∉ pair.1)
    (h : (pairs.map keyValue).foldlM putKeyValue a = some a') :
    ∃ read, List.Forall₂ (fun pair r => r.1 = pair.1 ∧
        (split EQUALS (keyValue pair))[1]? = some r.2) pairs read ∧ a' = putAll a read := by
  induction pairs generalizing a with
  | nil =>
      cases h
      exact ⟨[], .nil, rfl⟩
  | cons pair pairs ih =>
      rw [List.forall_mem_cons] at hkeys
      rw [List.map_cons, List.foldlM_cons, Option.bind_eq_bind, Option.bind_eq_some_iff] at h
      obtain ⟨a₁, hfirst, hrest⟩ := h
      obtain ⟨value, hvalue, rfl⟩ := exists_of_putKeyValue hkeys.1 hfirst
      obtain ⟨read, hread, rfl⟩ := ih hkeys.2 hrest
      exact ⟨(pair.1, value) :: read, .cons ⟨rfl, hvalue⟩ hread, rfl⟩

theorem keys_of_read {read : List (Text × Text)} {r : Text × Text → Text × Text → Prop}
    (h : List.Forall₂ (fun pair x => x.1 = pair.1 ∧ r pair x) pairs read) :
    read.map Prod.fst = pairs.map Prod.fst := by
  induction h with
  | nil => rfl
  | cons h _ ih => rw [List.map_cons, List.map_cons, h.1, ih]

end Loop

/-- Whole values are taken as they are. -/
theorem exists_of_whole {pairs : List (Text × Text)} (hnodup : (pairs.map Prod.fst).Nodup)
    (hkeys : ∀ pair ∈ pairs, pair.1 ≠ [] ∧ EQUALS ∉ pair.1)
    (hvalues : ∀ pair ∈ pairs, pair.2 ≠ [] ∧ EQUALS ∉ pair.2) :
    ∃ a, new (pairs.map keyValue) = some a ∧ Holds pairs a := by
  refine ⟨putAll empty pairs, foldlM_whole empty hkeys hvalues, ?_, ?_, ?_⟩
  · intro pair hpair d
    rw [get, args_putAll _ hnodup hpair]
    rfl
  · intro key hkey d
    rw [get, args_putAll_of_notMem _ hkey]
    rfl
  · intro key
    rw [toStringMap]
    -- the map of strings has a key exactly when one of the pairs has
    cases hlookup : pairs.lookup key with
    | none =>
        have habsent : key ∉ pairs.map Prod.fst := by
          intro hmem
          obtain ⟨pair, hpair, rfl⟩ := List.mem_map.1 hmem
          have hne := List.lookup_eq_none_iff.1 hlookup pair hpair
          rw [bne_self_eq_false] at hne
          cases hne
        rw [args_putAll_of_notMem _ habsent]
        rfl
    | some value =>
        obtain ⟨l₁, l₂, rfl, -⟩ := List.lookup_eq_some_iff.1 hlookup
        have hpair : (key, value) ∈ l₁ ++ (key, value) :: l₂ := by simp
        rw [args_putAll _ hnodup hpair]
        rfl

/-- A string without a separator has no second piece. -/
theorem new_of_notMem {str : Text} (h : EQUALS ∉ str) (keyValues : List Text) :
    new (str :: keyValues) = none := by
  have hput : empty.putKeyValue str = none := by
    rw [putKeyValue, split, if_neg h]
    rfl
  rw [new, List.foldlM_cons, hput]
  rfl

/-- The arguments hold the pairs exactly when every value is there and has no separator in it. -/
theorem args_round_trip_iff {pairs : List (Text × Text)} (hnodup : (pairs.map Prod.fst).Nodup)
    (hkeys : ∀ pair ∈ pairs, pair.1 ≠ [] ∧ EQUALS ∉ pair.1) :
    (∃ a, new (pairs.map keyValue) = some a ∧ Holds pairs a) ↔
      ∀ pair ∈ pairs, pair.2 ≠ [] ∧ EQUALS ∉ pair.2 := by
  constructor
  · rintro ⟨a, hnew, hholds⟩ pair hpair
    obtain ⟨read, hread, rfl⟩ := exists_of_foldlM (fun p hp => (hkeys p hp).2) hnew
    have hsame : read.map Prod.fst = pairs.map Prod.fst := keys_of_read hread
    obtain ⟨r, hr, hkey, hvalue⟩ : ∃ r ∈ read, r.1 = pair.1 ∧
        (split EQUALS (keyValue pair))[1]? = some r.2 := exists_of_forall₂ hread.flip hpair
    have hget := hholds.value pair hpair []
    rw [get, ← hkey, args_putAll _ (hsame ▸ hnodup) hr] at hget
    have hwhole : r.2 = pair.2 := hget
    rw [hwhole] at hvalue
    exact of_split_second (hkeys pair hpair).2 hvalue
  · intro hvalues
    exact exists_of_whole hnodup hkeys hvalues

/-- `fileName=ulysses16.tsp` and a host. -/
def twoArguments : List (Text × Text) :=
  [(text "fileName", text "ulysses16.tsp"), (text "host", text "xjaf@localhost")]

theorem args_round_trip_iff_fileName :
    ∃ a, new (twoArguments.map keyValue) = some a ∧ Holds twoArguments a := by
  refine (args_round_trip_iff (by decide) ?_).2 ?_
  · intro pair hpair
    rcases List.mem_pair.1 hpair with rfl | rfl <;> decide
  · intro pair hpair
    rcases List.mem_pair.1 hpair with rfl | rfl <;> decide

/-- An empty value leaves no second piece. -/
theorem empty_value_throws :
    ¬ ∀ pairs : List (Text × Text), (pairs.map Prod.fst).Nodup →
      (∀ pair ∈ pairs, pair.1 ≠ [] ∧ EQUALS ∉ pair.1) →
        ∃ a, new (pairs.map keyValue) = some a ∧ Holds pairs a := by
  intro hall
  have hkeys : ∀ pair ∈ [(text "host", ([] : Text))], pair.1 ≠ [] ∧ EQUALS ∉ pair.1 := by
    intro pair hpair
    rw [List.mem_singleton.1 hpair]
    decide
  obtain ⟨a, hnew, -⟩ := hall [(text "host", [])] (List.nodup_singleton _) hkeys
  have hnone : new ([(text "host", [])].map keyValue) = none := by decide
  rw [hnone] at hnew
  cases hnew

end AgentInitArgs

end Siebog.Agents
