import Mathlib.Data.List.AList

/-!
# Maps inside one flat map

An object of named fields holds a second, open map by giving its keys a prefix of their own. Putting
a missing value takes the key away, so a key that is absent and one that was put without a value
cannot be told apart.

`lookup_putAll` reads back what a sequence of puts has written, and `lookup_unprefixed` says that
the inner map is found again under the prefix.
-/

set_option autoImplicit false

namespace Siebog.Lib

/-- A finite map: its keys, each once, with their values. -/
abbrev FlatMap (κ β : Type) := AList fun _ : κ => β

namespace FlatMap

section Put

variable {κ β : Type} [DecidableEq κ]

/-- A missing value takes the key away. -/
def put (m : FlatMap κ β) (key : κ) : Option β → FlatMap κ β
  | some value => m.insert key value
  | none => m.erase key

theorem lookup_put_self (m : FlatMap κ β) (key : κ) (value : Option β) :
    (put m key value).lookup key = value := by
  cases value with
  | none => exact AList.lookup_erase key m
  | some value => exact AList.lookup_insert m

theorem lookup_put_of_ne (m : FlatMap κ β) {key k : κ} (h : k ≠ key) (value : Option β) :
    (put m key value).lookup k = m.lookup k := by
  cases value with
  | none => exact AList.lookup_erase_ne h
  | some value => exact AList.lookup_insert_ne h

/-- Several puts, one after the other. -/
def putAll (m : FlatMap κ β) (entries : List (κ × Option β)) : FlatMap κ β :=
  entries.foldl (fun m entry => put m entry.1 entry.2) m

theorem putAll_cons (m : FlatMap κ β) (entry : κ × Option β) (entries : List (κ × Option β)) :
    putAll m (entry :: entries) = putAll (put m entry.1 entry.2) entries :=
  rfl

/-- A key that nothing is put under keeps its value. -/
theorem lookup_putAll_of_notMem {k : κ} {entries : List (κ × Option β)}
    (h : k ∉ entries.map Prod.fst) (m : FlatMap κ β) :
    (putAll m entries).lookup k = m.lookup k := by
  induction entries generalizing m with
  | nil => rfl
  | cons entry entries ih =>
      rw [List.map_cons, List.mem_cons, not_or] at h
      rw [putAll_cons, ih h.2, lookup_put_of_ne m h.1]

/-- With the keys all different, every put is there at the end. -/
theorem lookup_putAll {entries : List (κ × Option β)} (hnodup : (entries.map Prod.fst).Nodup)
    {key : κ} {value : Option β} (hmem : (key, value) ∈ entries) (m : FlatMap κ β) :
    (putAll m entries).lookup key = value := by
  induction entries generalizing m with
  | nil => exact absurd hmem List.not_mem_nil
  | cons entry entries ih =>
      rw [List.map_cons, List.nodup_cons] at hnodup
      rw [putAll_cons]
      rcases List.mem_cons.1 hmem with rfl | hlater
      · rw [lookup_putAll_of_notMem hnodup.1, lookup_put_self]
      · exact ih hnodup.2 hlater _

/-- A map is put together again from its entries. -/
theorem lookup_putAll_entries (m : FlatMap κ β) (key : κ) :
    (putAll ∅ (m.entries.map fun entry => (entry.1, some entry.2))).lookup key = m.lookup key := by
  have hkeys : (m.entries.map fun entry => (entry.1, some entry.2)).map Prod.fst = m.keys := by
    rw [List.map_map, AList.keys, List.keys]
    rfl
  cases hlookup : m.lookup key with
  | some value =>
      have hmem : ⟨key, value⟩ ∈ m.entries := AList.mem_lookup_iff.1 hlookup
      refine lookup_putAll ?_ (List.mem_map.2 ⟨_, hmem, rfl⟩) ∅
      rw [hkeys]
      exact m.keys_nodup
  | none =>
      have hout : key ∉ m.keys := AList.lookup_eq_none.1 hlookup
      rw [lookup_putAll_of_notMem (hkeys ▸ hout), AList.lookup_empty]

end Put

/-! ## Prefixed keys -/

section Prefixed

variable {α β : Type} [DecidableEq α] (pre : List α)

/-- The entries of `args`, each under its prefixed key. -/
def putPrefixed (args m : FlatMap (List α) β) : FlatMap (List α) β :=
  putAll m (args.entries.map fun entry => (pre ++ entry.1, some entry.2))

/-- What follows the prefix, in a key that starts with it. -/
def subKey (key : List α) : Option (List α) :=
  if pre <+: key then some (key.drop pre.length) else none

/-- The entries whose keys start with the prefix, without it. -/
def unprefixed (m : FlatMap (List α) β) : FlatMap (List α) β :=
  putAll ∅ (m.entries.filterMap fun entry =>
    (subKey pre entry.1).map fun key => (key, some entry.2))

theorem subKey_eq_some_iff {key sub : List α} : subKey pre key = some sub ↔ key = pre ++ sub := by
  unfold subKey
  constructor
  · intro h
    split_ifs at h with hpre
    obtain ⟨rest, rfl⟩ := hpre
    rw [List.drop_left, Option.some.injEq] at h
    rw [h]
  · rintro rfl
    rw [if_pos (List.prefix_append pre sub), List.drop_left]

variable {pre}

/-- The keys without the prefix do not change. -/
theorem lookup_putPrefixed_of_not {key : List α} (h : ¬ pre <+: key)
    (args m : FlatMap (List α) β) : (putPrefixed pre args m).lookup key = m.lookup key := by
  refine lookup_putAll_of_notMem ?_ m
  rw [List.map_map, List.mem_map]
  rintro ⟨entry, -, rfl⟩
  exact h (List.prefix_append pre entry.1)

/-- Where no key starts with the prefix, the prefixed keys are those of `args`. -/
theorem lookup_putPrefixed {m : FlatMap (List α) β} (hm : ∀ key ∈ m, ¬ pre <+: key)
    (args : FlatMap (List α) β) (key : List α) :
    (putPrefixed pre args m).lookup (pre ++ key) = args.lookup key := by
  have hkeys : (args.entries.map fun entry => (pre ++ entry.1, some entry.2)).map Prod.fst =
      args.keys.map (pre ++ ·) := by
    rw [List.map_map, AList.keys, List.keys, List.map_map]
    rfl
  cases hlookup : args.lookup key with
  | some value =>
      have hmem : ⟨key, value⟩ ∈ args.entries := AList.mem_lookup_iff.1 hlookup
      refine lookup_putAll ?_ (List.mem_map.2 ⟨_, hmem, rfl⟩) m
      rw [hkeys]
      exact args.keys_nodup.map (List.append_right_injective pre)
  | none =>
      have hout : key ∉ args.keys := AList.lookup_eq_none.1 hlookup
      rw [putPrefixed, lookup_putAll_of_notMem, AList.lookup_eq_none]
      · exact fun hmem => hm _ hmem (List.prefix_append pre key)
      · rw [hkeys, List.mem_map]
        rintro ⟨other, hother, heq⟩
        exact hout (List.append_cancel_left heq ▸ hother)

/-- The inner map, found again under the prefix. -/
theorem lookup_unprefixed (m : FlatMap (List α) β) (key : List α) :
    (unprefixed pre m).lookup key = m.lookup (pre ++ key) := by
  have hkeys : (m.entries.filterMap fun entry =>
      (subKey pre entry.1).map fun key => (key, some entry.2)).map Prod.fst =
        m.keys.filterMap (subKey pre) := by
    rw [List.map_filterMap, AList.keys, List.keys, List.filterMap_map]
    simp only [Option.map_map, Function.comp_def, Option.map_id_fun', id]
  cases hlookup : m.lookup (pre ++ key) with
  | some value =>
      have hmem : ⟨pre ++ key, value⟩ ∈ m.entries := AList.mem_lookup_iff.1 hlookup
      have hsub : subKey pre (pre ++ key) = some key := (subKey_eq_some_iff pre).2 rfl
      refine lookup_putAll ?_ (List.mem_filterMap.2 ⟨_, hmem, by rw [hsub]; rfl⟩) ∅
      rw [hkeys]
      refine m.keys_nodup.filterMap ?_
      intro k k' sub hk hk'
      rw [(subKey_eq_some_iff pre).1 hk, (subKey_eq_some_iff pre).1 hk']
  | none =>
      have hout : pre ++ key ∉ m.keys := AList.lookup_eq_none.1 hlookup
      rw [unprefixed, lookup_putAll_of_notMem, AList.lookup_empty]
      rw [hkeys, List.mem_filterMap]
      rintro ⟨k, hk, hsub⟩
      exact hout ((subKey_eq_some_iff pre).1 hsub ▸ hk)

end Prefixed

end FlatMap

end Siebog.Lib
