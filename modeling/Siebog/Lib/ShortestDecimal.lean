import Siebog.Lib.FloatingPoint

/-!
# Shortest decimals

A floating-point number is written with as few digits as it takes to tell it from the other numbers
of its format: of all decimals that are rounded to it, one with the fewest digits, and of those the
nearest. `scan` looks at the grids of the multiples of `10 ^ -k`, from a coarse one on, and on each
at the two points that the number lies between; `toDecimal` starts with a single digit.

The decimal is rounded to the number it is written for (`round_toDecimal`), and it lies on every grid
that has a point that is (`toDecimal_mem_grid`).
-/

set_option autoImplicit false

namespace Siebog.Lib.FloatFormat

variable (F : FloatFormat)

/-- The point of the multiples of `10 ^ -k` next to `d` that is rounded to it, if there is one; of
two the nearer, and the even one when both are equally near. -/
def gridPoint (d : ℚ) (k : ℤ) : Option ℚ :=
  let n := ⌊d * 10 ^ k⌋
  let low : ℚ := n / 10 ^ k
  let high : ℚ := (n + 1 : ℤ) / 10 ^ k
  if F.round low = d then
    if F.round high = d ∧ (high - d < d - low ∨ high - d = d - low ∧ n % 2 = 1) then some high
    else some low
  else if F.round high = d then some high
  else none

/-- The first grids in turn, from the multiples of `10 ^ -k` on. -/
def scan (d : ℚ) : ℕ → ℤ → ℚ
  | 0, _ => d
  | fuel + 1, k => (F.gridPoint d k).getD (scan d fuel (k + 1))

/-- The shortest decimal of a number that is not negative. Seventeen digits are always enough for a
`double`, and there is a decimal with two digits behind the point among those that are looked at. -/
def toDecimal (d : ℚ) : ℚ := F.scan d ((Int.log 10 d).toNat + 18) (-Int.log 10 d)

variable {F} {d x : ℚ} {k j : ℤ}

theorem ten_zpow_pos (k : ℤ) : (0 : ℚ) < 10 ^ k := zpow_pos (by norm_num) k

/-- The points of a grid are on every finer one. -/
theorem exists_eq_div_of_le (hkj : k ≤ j) (n : ℤ) : ∃ m : ℤ, (n : ℚ) / 10 ^ k = m / 10 ^ j := by
  obtain ⟨i, rfl⟩ := Int.le.dest hkj
  refine ⟨n * 10 ^ i, ?_⟩
  have hpos := (ten_zpow_pos k).ne'
  have hpow : (10 : ℚ) ^ i ≠ 0 := pow_ne_zero i (by norm_num)
  rw [zpow_add₀ (by norm_num), zpow_natCast]
  push_cast
  rw [mul_div_mul_right _ _ hpow]

/-! ## One grid -/

theorem gridPoint_mem (h : F.gridPoint d k = some x) :
    F.round x = d ∧ ∃ n : ℤ, ⌊d * 10 ^ k⌋ ≤ n ∧ x = n / 10 ^ k := by
  simp only [gridPoint] at h
  split_ifs at h with hlow hboth hhigh
  · cases h
    exact ⟨hboth.1, _, Int.le_add_one le_rfl, rfl⟩
  · cases h
    exact ⟨hlow, _, le_rfl, rfl⟩
  · cases h
    exact ⟨hhigh, _, Int.le_add_one le_rfl, rfl⟩

/-- When some point of the grid is rounded to `d`, then so is one of the two next to it. -/
theorem exists_gridPoint (hd : 0 ≤ d) (hround : F.round d = d) {n : ℤ} (hn : 0 ≤ n)
    (h : F.round (n / 10 ^ k) = d) : ∃ x, F.gridPoint d k = some x := by
  have hpos := ten_zpow_pos k
  have hscaled : 0 ≤ d * 10 ^ k := mul_nonneg hd hpos.le
  have hfloor : (0 : ℚ) ≤ ⌊d * 10 ^ k⌋ := Int.cast_nonneg (Int.floor_nonneg.2 hscaled)
  have hlow : (⌊d * 10 ^ k⌋ : ℚ) / 10 ^ k ≤ d := (div_le_iff₀ hpos).2 (Int.floor_le _)
  have hhigh : d ≤ ((⌊d * 10 ^ k⌋ + 1 : ℤ) : ℚ) / 10 ^ k := by
    rw [le_div_iff₀ hpos]
    push_cast
    exact (Int.lt_floor_add_one _).le
  have hside : F.round ((⌊d * 10 ^ k⌋ : ℚ) / 10 ^ k) = d ∨
      F.round (((⌊d * 10 ^ k⌋ + 1 : ℤ) : ℚ) / 10 ^ k) = d := by
    -- rounding is monotone, and both the point and `d` are rounded to `d`
    rcases le_or_gt n ⌊d * 10 ^ k⌋ with hle | hgt
    · left
      have hmono : (n : ℚ) / 10 ^ k ≤ ⌊d * 10 ^ k⌋ / 10 ^ k :=
        div_le_div_of_nonneg_right (Int.cast_le.2 hle) hpos.le
      apply le_antisymm
      · exact (round_mono (div_nonneg hfloor hpos.le) hlow).trans_eq hround
      · exact h.symm.trans_le (round_mono (div_nonneg (Int.cast_nonneg hn) hpos.le) hmono)
    · right
      have hmono : ((⌊d * 10 ^ k⌋ + 1 : ℤ) : ℚ) / 10 ^ k ≤ n / 10 ^ k :=
        div_le_div_of_nonneg_right (Int.cast_le.2 hgt) hpos.le
      apply le_antisymm
      · exact (round_mono (hd.trans hhigh) hmono).trans_eq h
      · exact hround.symm.trans_le (round_mono hd hhigh)
  simp only [gridPoint]
  split_ifs with hlow hboth hhigh
  · exact ⟨_, rfl⟩
  · exact ⟨_, rfl⟩
  · exact ⟨_, rfl⟩
  · exact absurd hside (not_or.2 ⟨hlow, hhigh⟩)

/-! ## All grids -/

theorem scan_spec (hd : 0 ≤ d) (hround : F.round d = d) (fuel : ℕ) (k : ℤ) :
    F.round (F.scan d fuel k) = d ∧ 0 ≤ F.scan d fuel k := by
  induction fuel generalizing k with
  | zero => exact ⟨hround, hd⟩
  | succ fuel ih =>
      rw [scan]
      cases hpoint : F.gridPoint d k with
      | none => exact ih (k + 1)
      | some x =>
          obtain ⟨hx, n, hn, hpos⟩ := gridPoint_mem hpoint
          have hfloor : 0 ≤ ⌊d * 10 ^ k⌋ :=
            Int.floor_nonneg.2 (mul_nonneg hd (ten_zpow_pos k).le)
          refine ⟨hx, ?_⟩
          rw [Option.getD_some, hpos]
          exact div_nonneg (Int.cast_nonneg (hfloor.trans hn)) (ten_zpow_pos k).le

/-- The scan stops at a grid that has a point that is rounded to `d`, if not before. -/
theorem scan_mem_grid (hd : 0 ≤ d) (hround : F.round d = d) {n : ℤ} (hn : 0 ≤ n)
    (h : F.round (n / 10 ^ j) = d) {fuel : ℕ} {k : ℤ} (hk : k ≤ j) (hj : j < k + fuel) :
    ∃ m : ℤ, F.scan d fuel k = m / 10 ^ j := by
  induction fuel generalizing k with
  | zero =>
      rw [Nat.cast_zero, add_zero] at hj
      exact absurd hk (not_le.2 hj)
  | succ fuel ih =>
      rw [scan]
      cases hpoint : F.gridPoint d k with
      | some x =>
          obtain ⟨-, m, -, hx⟩ := gridPoint_mem hpoint
          rw [Option.getD_some, hx]
          exact exists_eq_div_of_le hk m
      | none =>
          have hne : k ≠ j := by
            rintro rfl
            obtain ⟨x, hx⟩ := exists_gridPoint hd hround hn h
            rw [hpoint] at hx
            cases hx
          push_cast at hj
          exact ih (by omega) (by omega)

/-! ## The shortest decimal -/

theorem round_toDecimal (hd : 0 ≤ d) (hround : F.round d = d) : F.round (F.toDecimal d) = d :=
  (scan_spec hd hround _ _).1

theorem toDecimal_nonneg (hd : 0 ≤ d) (hround : F.round d = d) : 0 ≤ F.toDecimal d :=
  (scan_spec hd hround _ _).2

/-- The decimal has no more digits behind the point than another one that is rounded to the same
number, up to 17. -/
theorem toDecimal_mem_grid (hd : 0 ≤ d) (hround : F.round d = d) {n : ℤ} (hn : 0 ≤ n)
    (h : F.round (n / 10 ^ j) = d) (hk : -Int.log 10 d ≤ j) (hj : j ≤ 17) :
    ∃ m : ℤ, F.toDecimal d = m / 10 ^ j := by
  refine scan_mem_grid hd hround hn h hk ?_
  have hnat := Int.self_le_toNat (Int.log 10 d)
  push_cast
  omega

end Siebog.Lib.FloatFormat
