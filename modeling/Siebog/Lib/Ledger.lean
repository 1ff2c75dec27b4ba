import Mathlib.Algebra.BigOperators.Group.List.Basic
import Mathlib.Data.List.Forall2

/-!
# Ledgers

An entry of a ledger credits an amount to every key of its span. The balance of a key is the sum of
the amounts of the entries whose span contains it. Balances depend neither on the order of the
entries (`balance_perm`) nor on how a span is written (`balance_forall₂`), and keys that occur in
the same spans have the same balance (`balance_eq_of_iff`).
-/

set_option autoImplicit false

namespace Siebog.Lib

universe u v w

variable {α : Type u} {κ : Type v} {μ : Type w} [BEq κ] [LawfulBEq κ] [AddCommMonoid μ]

/-- The sum of the amounts of the entries whose span contains `k`. -/
def balance (span : α → List κ) (amount : α → μ) (entries : List α) (k : κ) : μ :=
  ((entries.filter fun a => k ∈ span a).map amount).sum

variable {span : α → List κ} {amount : α → μ}

theorem balance_cons (a : α) (entries : List α) (k : κ) :
    balance span amount (a :: entries) k =
      (if k ∈ span a then amount a else 0) + balance span amount entries k := by
  rw [balance, balance, List.filter_cons]
  by_cases h : k ∈ span a
  · simp [h]
  · simp [h]

theorem balance_snoc (entries : List α) (a : α) (k : κ) :
    balance span amount (entries ++ [a]) k =
      balance span amount entries k + if k ∈ span a then amount a else 0 := by
  rw [balance, List.filter_append, List.map_append, List.sum_append, ← balance]
  by_cases h : k ∈ span a
  · simp [h]
  · simp [h]

/-- The order of the entries does not matter. -/
theorem balance_perm {entries entries' : List α} (h : entries.Perm entries') (k : κ) :
    balance span amount entries k = balance span amount entries' k :=
  ((h.filter _).map amount).sum_eq

/-- An entry may be replaced by one with the same keys and the same amount. -/
theorem balance_forall₂ {entries entries' : List α} {k : κ}
    (h : List.Forall₂ (fun a b => amount a = amount b ∧ (k ∈ span a ↔ k ∈ span b))
      entries entries') :
    balance span amount entries k = balance span amount entries' k := by
  induction h with
  | nil => rfl
  | cons hab _ ih =>
      obtain ⟨hamount, hspan⟩ := hab
      rw [balance_cons, balance_cons, ih, hamount]
      simp only [hspan]

/-- Keys that occur in the same spans have the same balance. -/
theorem balance_eq_of_iff {entries : List α} {k k' : κ}
    (h : ∀ a ∈ entries, k ∈ span a ↔ k' ∈ span a) :
    balance span amount entries k = balance span amount entries k' := by
  rw [balance, balance]
  congr 2
  apply List.filter_congr
  intro a ha
  simp only [h a ha]

theorem balance_eq_zero {entries : List α} {k : κ} (h : ∀ a ∈ entries, k ∉ span a) :
    balance span amount entries k = 0 := by
  rw [balance, List.filter_eq_nil_iff.2 fun a ha => by simpa using h a ha]
  rfl

/-- A property of amounts that sums keep holds of the balance of every key that some span
contains. -/
theorem balance_induction {P : μ → Prop} (hadd : ∀ x y, P x → P y → P (x + y))
    {entries : List α} {k : κ} (hamount : ∀ a ∈ entries, P (amount a)) :
    (∀ a ∈ entries, k ∉ span a) ∨ P (balance span amount entries k) := by
  induction entries with
  | nil => exact Or.inl fun a ha => (List.not_mem_nil ha).elim
  | cons a entries ih =>
      have ha : P (amount a) := hamount a List.mem_cons_self
      rw [balance_cons]
      -- without an earlier credit the balance is the new amount alone
      rcases ih fun b hb => hamount b (List.mem_cons_of_mem _ hb) with hnone | hrest
      · have hzero : balance span amount entries k = 0 := balance_eq_zero hnone
        by_cases hk : k ∈ span a
        · right
          rwa [if_pos hk, hzero, add_zero]
        · left
          intro b hb
          rcases List.mem_cons.1 hb with rfl | hb
          · exact hk
          · exact hnone b hb
      · right
        by_cases hk : k ∈ span a
        · rw [if_pos hk]
          exact hadd _ _ ha hrest
        · rwa [if_neg hk, zero_add]

end Siebog.Lib
