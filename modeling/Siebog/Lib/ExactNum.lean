import Mathlib.Tactic

/-!
# Exact numbers with an undefined value

Floating-point code that is read in exact arithmetic computes over an ordered field, except that a
division by zero has no value there. `Num K` is the field `K` with one extra element `nan`, which
every operation propagates and which a division by zero returns. On defined numbers the operations
are those of the field (`val_add`, `val_sub`, `val_mul`, `val_div`).

`Num.In s x` says that `x` is defined and lies in the set `s`. The unit-interval rules at the end
are the ones a range analysis of such code uses.
-/

set_option autoImplicit false

namespace Siebog.Lib

universe u

/-- A number of `K`, or the undefined result of a division by zero. -/
inductive Num (K : Type u) where
  | val (x : K)
  | nan
  deriving DecidableEq, Repr

namespace Num

variable {K : Type u}

instance : Inhabited (Num K) := ⟨nan⟩

/-- Apply a field operation to two defined numbers. -/
def lift₂ (f : K → K → K) : Num K → Num K → Num K
  | val x, val y => val (f x y)
  | _, _ => nan

instance [Add K] : Add (Num K) := ⟨lift₂ (· + ·)⟩
instance [Sub K] : Sub (Num K) := ⟨lift₂ (· - ·)⟩
instance [Mul K] : Mul (Num K) := ⟨lift₂ (· * ·)⟩
instance [OfNat K 0] : OfNat (Num K) 0 := ⟨val 0⟩
instance [OfNat K 1] : OfNat (Num K) 1 := ⟨val 1⟩

/-- Division: the field's, undefined when the divisor is zero. -/
def div [Div K] [Zero K] [DecidableEq K] : Num K → Num K → Num K
  | val x, val y => if y = 0 then nan else val (x / y)
  | _, _ => nan

instance [Div K] [Zero K] [DecidableEq K] : Div (Num K) := ⟨div⟩

/-- Order of defined numbers; no comparison with `nan` holds. -/
def lt [LT K] : Num K → Num K → Prop
  | val x, val y => x < y
  | _, _ => False

instance [LT K] : LT (Num K) := ⟨lt⟩

instance [LT K] [DecidableLT K] : DecidableLT (Num K) := fun x y =>
  match x, y with
  | val x, val y => inferInstanceAs (Decidable (x < y))
  | val _, nan => .isFalse id
  | nan, val _ => .isFalse id
  | nan, nan => .isFalse id

@[simp] theorem val_add [Add K] (x y : K) : (val x + val y : Num K) = val (x + y) := rfl
@[simp] theorem val_sub [Sub K] (x y : K) : (val x - val y : Num K) = val (x - y) := rfl
@[simp] theorem val_mul [Mul K] (x y : K) : (val x * val y : Num K) = val (x * y) := rfl
@[simp] theorem zero_eq [OfNat K 0] : (0 : Num K) = val 0 := rfl
@[simp] theorem one_eq [OfNat K 1] : (1 : Num K) = val 1 := rfl

@[simp] theorem val_lt_val [LT K] (x y : K) : (val x : Num K) < val y ↔ x < y := Iff.rfl

/-- Nothing is less than itself, `NaN` included. -/
theorem lt_irrefl [Preorder K] (x : Num K) : ¬ x < x := by
  intro h
  cases x with
  | val v => exact ((val_lt_val v v).1 h).ne rfl
  | nan => cases h

/-- The order is transitive, since `NaN` is in no relation. -/
theorem lt_trans [Preorder K] {x y z : Num K} (hxy : x < y) (hyz : y < z) : x < z := by
  cases x with
  | nan => cases hxy
  | val u =>
      cases y with
      | nan => cases hxy
      | val v =>
          cases z with
          | nan => cases hyz
          | val w =>
              have huv : u < v := hxy
              have hvw : v < w := hyz
              exact (val_lt_val u w).2 (huv.trans hvw)

section Field

variable [Field K] [DecidableEq K]

/-- A division by 0 is `NaN`. -/
theorem val_div (x y : K) : (val x / val y : Num K) = if y = 0 then nan else val (x / y) := rfl

theorem val_div_of_ne {y : K} (x : K) (hy : y ≠ 0) : (val x / val y : Num K) = val (x / y) := by
  rw [val_div, if_neg hy]

@[simp] theorem val_div_zero (x : K) : (val x / val 0 : Num K) = nan := by
  rw [val_div, if_pos rfl]

end Field

/-- The number is defined and lies in `s`. -/
def In (s : Set K) (x : Num K) : Prop := ∃ v ∈ s, x = val v

@[simp] theorem in_val {s : Set K} {v : K} : In s (val v) ↔ v ∈ s := by
  constructor
  · rintro ⟨w, hw, h⟩
    cases h
    exact hw
  · intro hv
    exact ⟨v, hv, rfl⟩

@[simp] theorem not_in_nan {s : Set K} : ¬ In s (nan : Num K) := by
  rintro ⟨w, -, h⟩
  cases h

/-- What is in a set is in a greater one. -/
theorem In.mono {s t : Set K} {x : Num K} (h : In s x) (hst : s ⊆ t) : In t x := by
  obtain ⟨v, hv, rfl⟩ := h
  exact ⟨v, hst hv, rfl⟩

end Num

/-! ## Unit-interval rules -/

section UnitInterval

variable {K : Type u} [Field K] [LinearOrder K] [IsStrictOrderedRing K]

/-- The product of two numbers from 0 to 1 is from 0 to 1. -/
theorem mul_mem_Icc {x y : K} (hx : x ∈ Set.Icc (0 : K) 1) (hy : y ∈ Set.Icc (0 : K) 1) :
    x * y ∈ Set.Icc (0 : K) 1 :=
  ⟨mul_nonneg hx.1 hy.1, mul_le_one₀ hx.2 hy.1 hy.2⟩

/-- The product is below 1 if one factor is. -/
theorem mul_mem_Ico {x y : K} (hx : x ∈ Set.Icc (0 : K) 1) (hy : y ∈ Set.Ico (0 : K) 1) :
    x * y ∈ Set.Ico (0 : K) 1 :=
  ⟨mul_nonneg hx.1 hy.1, (mul_le_of_le_one_left hy.1 hx.2).trans_lt hy.2⟩

/-- Noisy or of two unit-interval numbers stays in the unit interval. -/
theorem add_sub_mul_mem_Icc {x y : K} (hx : x ∈ Set.Icc (0 : K) 1) (hy : y ∈ Set.Icc (0 : K) 1) :
    x + y - x * y ∈ Set.Icc (0 : K) 1 := by
  obtain ⟨hx0, hx1⟩ := hx
  obtain ⟨hy0, hy1⟩ := hy
  constructor
  · nlinarith [mul_nonneg hx0 (sub_nonneg.2 hy1)]
  · nlinarith [mul_nonneg (sub_nonneg.2 hx1) (sub_nonneg.2 hy1)]

/-- Noisy or vanishes only on two zeros. -/
theorem add_sub_mul_eq_zero_iff {x y : K} (hx : x ∈ Set.Icc (0 : K) 1)
    (hy : y ∈ Set.Icc (0 : K) 1) : x + y - x * y = 0 ↔ x = 0 ∧ y = 0 := by
  obtain ⟨hx0, hx1⟩ := hx
  obtain ⟨hy0, hy1⟩ := hy
  constructor
  · intro h
    have hxy : 0 ≤ y * (1 - x) := mul_nonneg hy0 (sub_nonneg.2 hx1)
    have hyx : 0 ≤ x * (1 - y) := mul_nonneg hx0 (sub_nonneg.2 hy1)
    constructor <;> nlinarith
  · rintro ⟨rfl, rfl⟩
    simp

/-- `x / (x + 1)` maps the non-negative numbers into `[0, 1)`. -/
theorem div_add_one_mem_Ico {x : K} (hx : 0 ≤ x) : x / (x + 1) ∈ Set.Ico (0 : K) 1 := by
  have hpos : 0 < x + 1 := by linarith
  exact ⟨div_nonneg hx hpos.le, (div_lt_one hpos).2 (by linarith)⟩

/-- A discounted product of two unit-interval numbers is at most either. -/
theorem mul_mul_le_min {x c d : K} (hx : x ∈ Set.Icc (0 : K) 1) (hc : c ∈ Set.Icc (0 : K) 1)
    (hd : d ∈ Set.Icc (0 : K) 1) : x * c * d ≤ min c d := by
  have hxc : x * c ≤ c := mul_le_of_le_one_left hc.1 hx.2
  apply le_min
  · exact (mul_le_of_le_one_right (mul_mem_Icc hx hc).1 hd.2).trans hxc
  · exact mul_le_of_le_one_left hd.1 (mul_mem_Icc hx hc).2

/-- `x / (x + 1)` does not increase a non-negative number. -/
theorem div_add_one_le {x : K} (hx : 0 ≤ x) : x / (x + 1) ≤ x :=
  div_le_self hx (le_add_of_nonneg_left hx)

/-- Below 1, `x / (x + 1)` is below one half. -/
theorem div_add_one_lt_half {x : K} (hx : x ∈ Set.Ico (0 : K) 1) : x / (x + 1) < 1 / 2 := by
  have hpos : 0 < x + 1 := add_pos_of_nonneg_of_pos hx.1 one_pos
  rw [div_lt_div_iff₀ hpos two_pos]
  linarith [hx.2]

/-- A weighted mean of two unit-interval numbers is in the unit interval. -/
theorem weightedMean_mem_Icc {x y p q : K} (hx : x ∈ Set.Icc (0 : K) 1)
    (hy : y ∈ Set.Icc (0 : K) 1) (hp : 0 ≤ p) (hq : 0 ≤ q) (hpq : 0 < p + q) :
    (x * p + y * q) / (p + q) ∈ Set.Icc (0 : K) 1 := by
  constructor
  · exact div_nonneg (add_nonneg (mul_nonneg hx.1 hp) (mul_nonneg hy.1 hq)) hpq.le
  · rw [div_le_one hpq]
    nlinarith [mul_nonneg (sub_nonneg.2 hx.2) hp, mul_nonneg (sub_nonneg.2 hy.2) hq]

end UnitInterval

end Siebog.Lib
