import Siebog.Lib.Run
import Mathlib.Data.List.Induction
import Mathlib.Data.List.Nodup

/-!
# Stores that keep an entry under several keys

An item of such a store has a main key and a list of keys, its span. Storing an item whose main key
is free puts one entry under every key of its span; storing an item whose main key is taken adds no
entry. `occupy` counts the entries under each key.

A caller of such a store expects that no key ever holds two entries and that the keys of a stored
item are all taken (`Exact`). That holds exactly when the spans are free of repetitions and any two
of them are disjoint or have the same keys (`exact_iff_separated`), provided that every span has a
key that determines it.
-/

set_option autoImplicit false

namespace Siebog.Lib

universe u v

variable {α : Type u} {κ : Type v} [BEq κ]

/-- The number of entries under each key after the item `a` is stored. -/
def occupy (main : α → κ) (span : α → List κ) (n : κ → ℕ) (a : α) : κ → ℕ :=
  if n (main a) = 0 then fun k => n k + (span a).count k else n

/-- The number of entries under each key after the items are stored in order. -/
def occupancy (main : α → κ) (span : α → List κ) (items : List α) : κ → ℕ :=
  run (occupy main span) (fun _ => 0) items

/-- No span repeats a key, and two spans that meet have the same keys. -/
structure Separated (span : α → List κ) (items : List α) : Prop where
  nodup : ∀ a ∈ items, (span a).Nodup
  same : ∀ a ∈ items, ∀ b ∈ items, ∀ k, k ∈ span a → k ∈ span b → (span a).Perm (span b)

/-- At every point no key holds two entries and every key of a stored item holds one. -/
def Exact (main : α → κ) (span : α → List κ) (items : List α) : Prop :=
  ∀ stored, stored <+: items →
    (∀ k, occupancy main span stored k ≤ 1) ∧
      ∀ a ∈ stored, ∀ k ∈ span a, occupancy main span stored k = 1

variable {main : α → κ} {span : α → List κ}

theorem occupancy_snoc (items : List α) (a : α) :
    occupancy main span (items ++ [a]) = occupy main span (occupancy main span items) a :=
  run_snoc _ _ _ _

omit [BEq κ] in
theorem Separated.of_isPrefix {items stored : List α} (h : Separated span items)
    (hpre : stored <+: items) : Separated span stored where
  nodup a ha := h.nodup a (hpre.subset ha)
  same a ha b hb := h.same a (hpre.subset ha) b (hpre.subset hb)

theorem Exact.of_isPrefix {items stored : List α} (h : Exact main span items)
    (hpre : stored <+: items) : Exact main span stored :=
  fun s hs => h s (hs.trans hpre)

variable [LawfulBEq κ]

/-- Separated spans hold one entry under each of their keys. -/
theorem occupancy_of_separated (hmain : ∀ a, main a ∈ span a) {items : List α}
    (h : Separated span items) (k : κ) :
    occupancy main span items k = if ∃ a ∈ items, k ∈ span a then 1 else 0 := by
  induction items using List.reverseRecOn generalizing k with
  | nil => simp [occupancy]
  | append_singleton items a ih =>
      have hrest : Separated span items := h.of_isPrefix (List.prefix_append _ _)
      have ha : a ∈ items ++ [a] := List.mem_append_right _ (List.mem_singleton_self a)
      rw [occupancy_snoc, occupy, ih hrest (main a)]
      by_cases hknown : ∃ b ∈ items, main a ∈ span b
      · -- the span of `a` is that of an item stored before
        rw [if_pos hknown, if_neg Nat.one_ne_zero, ih hrest k]
        obtain ⟨b, hb, hkey⟩ := hknown
        have hsame : (span b).Perm (span a) :=
          h.same b (List.mem_append_left _ hb) a ha _ hkey (hmain a)
        congr 1
        apply propext
        constructor
        · rintro ⟨c, hc, hk⟩
          exact ⟨c, List.mem_append_left _ hc, hk⟩
        · rintro ⟨c, hc, hk⟩
          rcases List.mem_append.1 hc with hc | hc
          · exact ⟨c, hc, hk⟩
          · rw [List.mem_singleton.1 hc] at hk
            exact ⟨b, hb, hsame.mem_iff.2 hk⟩
      · -- the span of `a` is disjoint from those of the items stored before
        rw [if_neg hknown, if_pos rfl, ih hrest k]
        by_cases hk : k ∈ span a
        · have hfree : ¬ ∃ b ∈ items, k ∈ span b := by
            rintro ⟨b, hb, hkb⟩
            have hsame : (span b).Perm (span a) :=
              h.same b (List.mem_append_left _ hb) a ha k hkb hk
            exact hknown ⟨b, hb, hsame.mem_iff.2 (hmain a)⟩
          rw [if_neg hfree, if_pos ⟨a, ha, hk⟩, List.count_eq_one_of_mem (h.nodup a ha) hk]
        · rw [List.count_eq_zero_of_not_mem hk, Nat.add_zero]
          congr 1
          apply propext
          constructor
          · rintro ⟨c, hc, hkc⟩
            exact ⟨c, List.mem_append_left _ hc, hkc⟩
          · rintro ⟨c, hc, hkc⟩
            rcases List.mem_append.1 hc with hc | hc
            · exact ⟨c, hc, hkc⟩
            · rw [List.mem_singleton.1 hc] at hkc
              exact (hk hkc).elim

theorem exact_of_separated (hmain : ∀ a, main a ∈ span a) {items : List α}
    (h : Separated span items) : Exact main span items := by
  intro stored hpre
  have hocc := occupancy_of_separated hmain (h.of_isPrefix hpre)
  constructor
  · intro k
    rw [hocc k]
    split_ifs
    · exact Nat.le_refl 1
    · exact Nat.zero_le 1
  · intro a ha k hk
    rw [hocc k, if_pos ⟨a, ha, hk⟩]

/-- An item that keeps the store exact has a span that is new or that of an earlier item. -/
theorem separated_snoc (hmain : ∀ a, main a ∈ span a)
    (hkey : ∀ a, ∃ k ∈ span a, ∀ b, k ∈ span b → (span b).Perm (span a)) {items : List α} {a : α}
    (hrest : Separated span items) (h : Exact main span (items ++ [a])) :
    Separated span (items ++ [a]) := by
  obtain ⟨hle, hone⟩ := h _ (List.prefix_refl _)
  have ha : a ∈ items ++ [a] := List.mem_append_right _ (List.mem_singleton_self a)
  have hocc := occupancy_of_separated hmain hrest
  rw [occupancy_snoc] at hle hone
  rw [occupy] at hle hone
  -- what has to be shown about `a` alone
  suffices hnew : (span a).Nodup ∧
      ∀ b ∈ items, ∀ k, k ∈ span b → k ∈ span a → (span b).Perm (span a) by
    refine ⟨?_, ?_⟩
    · intro b hb
      rcases List.mem_append.1 hb with hb | hb
      · exact hrest.nodup b hb
      · rw [List.mem_singleton.1 hb]
        exact hnew.1
    · intro b hb c hc k hkb hkc
      rcases List.mem_append.1 hb with hb | hb <;> rcases List.mem_append.1 hc with hc | hc
      · exact hrest.same b hb c hc k hkb hkc
      · rw [List.mem_singleton.1 hc] at hkc ⊢
        exact hnew.2 b hb k hkb hkc
      · rw [List.mem_singleton.1 hb] at hkb ⊢
        exact (hnew.2 c hc k hkc hkb).symm
      · rw [List.mem_singleton.1 hb, List.mem_singleton.1 hc]
  by_cases hzero : occupancy main span items (main a) = 0
  · simp only [if_pos hzero] at hle
    constructor
    · rw [List.nodup_iff_count_le_one]
      intro k
      exact Nat.le_trans (Nat.le_add_left _ _) (hle k)
    · intro b hb k hkb hka
      have htaken : occupancy main span items k = 1 := by rw [hocc k, if_pos ⟨b, hb, hkb⟩]
      have hpos : 0 < (span a).count k := List.count_pos_iff.2 hka
      have hsum := hle k
      omega
  · simp only [if_neg hzero] at hone
    -- the main key and the determining key of `a` belong to earlier items, and these to one span
    have hstored : ∀ k ∈ span a, ∃ b ∈ items, k ∈ span b := by
      intro k hk
      by_contra hfree
      have hk1 := hone a ha k hk
      rw [hocc k, if_neg hfree] at hk1
      exact Nat.zero_ne_one hk1
    obtain ⟨key, hkeya, hdet⟩ := hkey a
    obtain ⟨b, hb, hkeyb⟩ := hstored key hkeya
    have hba : (span b).Perm (span a) := hdet b hkeyb
    constructor
    · exact hba.nodup_iff.1 (hrest.nodup b hb)
    · intro c hc k hkc hka
      exact (hrest.same c hc b hb k hkc (hba.mem_iff.2 hka)).trans hba

/-- The store stays exact exactly when the spans of the items are separated. -/
theorem exact_iff_separated (hmain : ∀ a, main a ∈ span a)
    (hkey : ∀ a, ∃ k ∈ span a, ∀ b, k ∈ span b → (span b).Perm (span a)) {items : List α} :
    Exact main span items ↔ Separated span items := by
  refine ⟨?_, exact_of_separated hmain⟩
  induction items using List.reverseRecOn with
  | nil => exact fun _ => ⟨by simp, by simp⟩
  | append_singleton items a ih =>
      intro h
      exact separated_snoc hmain hkey (ih (h.of_isPrefix (List.prefix_append _ _))) h

end Siebog.Lib
