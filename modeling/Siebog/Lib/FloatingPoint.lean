import Mathlib.Data.Int.Log
import Mathlib.Data.Rat.Floor
import Mathlib.Algebra.Order.Ring.Int
import Mathlib.Tactic.Linarith
import Mathlib.Tactic.Positivity
import Mathlib.Tactic.Ring

/-!
# Binary floating-point numbers

A format has numbers of a fixed number of bits, whose last bit is not below a least one. The spacing
of a number is the value of its last bit, and `round` takes a number to the nearest multiple of its
spacing, to an even one when two are equally near. Signs are stored apart, so the results are about
numbers that are not negative; there is no overflow, and a largest number is for the user to
compare with.

Rounding moves a number by half of its spacing at most (`abs_round_sub_le`), is monotone
(`round_mono`) and leaves its results alone (`round_round`). All of this comes from the powers of two
in between: a power of two that is not below the spacing is a multiple of it, and no rounding steps
over such a multiple (`le_round`, `round_le`).
-/

set_option autoImplicit false

namespace Siebog.Lib

/-- The number of bits, and the exponent of the last bit of the smallest numbers. -/
structure FloatFormat where
  precision : ℕ
  leastExp : ℤ
  precision_pos : 0 < precision

/-- The nearest integer, the even one of two. -/
def roundEven (x : ℚ) : ℤ :=
  if x - ⌊x⌋ < 1 / 2 then ⌊x⌋
  else if 1 / 2 < x - ⌊x⌋ then ⌊x⌋ + 1
  else if ⌊x⌋ % 2 = 0 then ⌊x⌋ else ⌊x⌋ + 1

/-! ## Integers -/

section Integers

variable {x y : ℚ} {n : ℤ}

/-- An integer next to the number, and the nearer one. -/
theorem roundEven_mem (x : ℚ) :
    (roundEven x = ⌊x⌋ ∧ x - ⌊x⌋ ≤ 1 / 2) ∨ (roundEven x = ⌊x⌋ + 1 ∧ 1 / 2 ≤ x - ⌊x⌋) := by
  unfold roundEven
  split_ifs with hlow hhigh heven
  · exact .inl ⟨rfl, hlow.le⟩
  · exact .inr ⟨rfl, hhigh.le⟩
  · exact .inl ⟨rfl, not_lt.1 hhigh⟩
  · exact .inr ⟨rfl, not_lt.1 hlow⟩

/-- Rounding is off by a half at most. -/
theorem abs_roundEven_sub_le (x : ℚ) : |(roundEven x : ℚ) - x| ≤ 1 / 2 := by
  have hle := Int.floor_le x
  have hlt := Int.lt_floor_add_one x
  rcases roundEven_mem x with ⟨h, hhalf⟩ | ⟨h, hhalf⟩
  · rw [h, abs_le]
    constructor <;> linarith
  · rw [h, abs_le]
    push_cast
    constructor <;> linarith

/-- An integer that is less than one half away is the nearest. -/
theorem roundEven_eq (h : |x - n| < 1 / 2) : roundEven x = n := by
  have hnear := abs_roundEven_sub_le x
  rw [abs_lt] at h
  rw [abs_le] at hnear
  have hlt : (roundEven x : ℚ) < n + 1 := by linarith
  have hgt : (n : ℚ) < roundEven x + 1 := by linarith
  have hlt' : roundEven x < n + 1 := by exact_mod_cast hlt
  have hgt' : n < roundEven x + 1 := by exact_mod_cast hgt
  omega

/-- An integer is not rounded. -/
theorem roundEven_intCast (n : ℤ) : roundEven (n : ℚ) = n := by
  apply roundEven_eq
  rw [sub_self, abs_zero]
  norm_num

/-- Rounding passes no integer on the way down. -/
theorem le_roundEven (h : (n : ℚ) ≤ x) : n ≤ roundEven x := by
  have hfloor : n ≤ ⌊x⌋ := Int.le_floor.2 h
  rcases roundEven_mem x with ⟨hx, -⟩ | ⟨hx, -⟩ <;> omega

/-- Rounding passes no integer on the way up. -/
theorem roundEven_le (h : x ≤ (n : ℚ)) : roundEven x ≤ n := by
  have hfloor : ⌊x⌋ ≤ n := by exact_mod_cast (Int.floor_le x).trans h
  rcases roundEven_mem x with ⟨hx, -⟩ | ⟨hx, hhalf⟩
  · omega
  · rcases hfloor.lt_or_eq with hlt | heq
    · omega
    · -- above the floor there is no integer left
      rw [heq] at hhalf
      linarith

/-- Rounding keeps the order. -/
theorem roundEven_mono (h : x ≤ y) : roundEven x ≤ roundEven y := by
  rcases (Int.floor_le_floor h).lt_or_eq with hlt | heq
  · have hup : (⌊x⌋ + 1 : ℤ) ≤ y := (Int.cast_le.2 hlt).trans (Int.floor_le y)
    have hx : roundEven x ≤ ⌊x⌋ + 1 := by
      rcases roundEven_mem x with ⟨hx, -⟩ | ⟨hx, -⟩ <;> omega
    exact hx.trans (le_roundEven hup)
  · unfold roundEven
    rw [← heq]
    split_ifs <;> first | omega | (exfalso; linarith)

end Integers

/-! ## Spacing -/

namespace FloatFormat

variable (F : FloatFormat)

/-- The exponent of the last bit of a number. -/
def lastExp (q : ℚ) : ℤ :=
  if q = 0 then F.leastExp else max (Int.log 2 |q| + 1 - F.precision) F.leastExp

/-- The distance of a number to the next ones of its size. -/
def spacing (q : ℚ) : ℚ := 2 ^ F.lastExp q

/-- The nearest number of the format, of unbounded size. -/
def round (q : ℚ) : ℚ := roundEven (q / F.spacing q) * F.spacing q

/-- The 53 bits of a `double`. -/
def binary64 : FloatFormat := ⟨53, -1074, by decide⟩

variable {F} {a b q d : ℚ} {k : ℤ}

theorem spacing_pos (F : FloatFormat) (q : ℚ) : 0 < F.spacing q := zpow_pos (by norm_num) _

theorem lastExp_zero (F : FloatFormat) : F.lastExp 0 = F.leastExp := if_pos rfl

/-- The last place of a number that is not 0. -/
theorem lastExp_of_pos (h : 0 < q) :
    F.lastExp q = max (Int.log 2 q + 1 - F.precision) F.leastExp := by
  rw [lastExp, if_neg h.ne', abs_of_pos h]

/-- No place is below the last one of the format. -/
theorem leastExp_le (F : FloatFormat) (q : ℚ) : F.leastExp ≤ F.lastExp q := by
  unfold lastExp
  split_ifs
  · exact le_rfl
  · exact le_max_right _ _

/-- Greater numbers have no lower last place. -/
theorem lastExp_mono (ha : 0 ≤ a) (h : a ≤ b) : F.lastExp a ≤ F.lastExp b := by
  rcases ha.eq_or_lt with rfl | ha
  · rw [lastExp_zero]
    exact leastExp_le F b
  · rw [lastExp_of_pos ha, lastExp_of_pos (ha.trans_le h)]
    have hlog := Int.log_mono_right (b := 2) ha h
    exact max_le_max_right _ (by omega)

/-- Greater numbers are no denser. -/
theorem spacing_mono (ha : 0 ≤ a) (h : a ≤ b) : F.spacing a ≤ F.spacing b :=
  zpow_le_zpow_right₀ (by norm_num) (lastExp_mono ha h)

/-- The last bit is below the first one, but for the smallest numbers. -/
theorem lastExp_le_log (h : 0 < q) (hq : F.leastExp < F.lastExp q) :
    F.lastExp q = Int.log 2 q + 1 - F.precision ∧ F.lastExp q ≤ Int.log 2 q := by
  have hpos := F.precision_pos
  rw [lastExp_of_pos h] at hq ⊢
  have hmax := (lt_max_iff.1 hq).resolve_right (lt_irrefl _)
  rw [max_eq_left hmax.le]
  exact ⟨rfl, by omega⟩

/-- A power of two whose bit is not below the last one is a multiple of the spacing. -/
theorem zpow_eq_mul_spacing (h : F.lastExp q ≤ k) : ∃ n : ℤ, (2 : ℚ) ^ k = n * F.spacing q := by
  obtain ⟨m, hm⟩ := Int.le.dest h
  refine ⟨2 ^ m, ?_⟩
  rw [spacing, ← hm, zpow_add₀ (by norm_num), mul_comm]
  push_cast
  rw [zpow_natCast]

/-! ## Rounding -/

/-- Rounding moves a number by half of its spacing at most. -/
theorem abs_round_sub_le (F : FloatFormat) (q : ℚ) : |F.round q - q| ≤ F.spacing q / 2 := by
  have hpos := spacing_pos F q
  have hscaled : F.round q - q = (roundEven (q / F.spacing q) - q / F.spacing q) *
      F.spacing q := by
    rw [round, sub_mul, div_mul_cancel₀ q hpos.ne']
  rw [hscaled, abs_mul, abs_of_pos hpos]
  have hnear := mul_le_mul_of_nonneg_right (abs_roundEven_sub_le (q / F.spacing q)) hpos.le
  linarith

/-- No multiple of the spacing is stepped over. -/
theorem le_round {n : ℤ} (h : n * F.spacing q ≤ q) : n * F.spacing q ≤ F.round q := by
  have hpos := spacing_pos F q
  have hn := le_roundEven ((le_div_iff₀ hpos).2 h)
  exact mul_le_mul_of_nonneg_right (Int.cast_le.2 hn) hpos.le

/-- Rounding passes no multiple of the spacing. -/
theorem round_le {n : ℤ} (h : q ≤ n * F.spacing q) : F.round q ≤ n * F.spacing q := by
  have hpos := spacing_pos F q
  have hn := roundEven_le ((div_le_iff₀ hpos).2 h)
  exact mul_le_mul_of_nonneg_right (Int.cast_le.2 hn) hpos.le

/-- Rounding passes no power of two on the way down. -/
theorem zpow_le_round (hk : F.lastExp q ≤ k) (h : 2 ^ k ≤ q) : 2 ^ k ≤ F.round q := by
  obtain ⟨n, hn⟩ := zpow_eq_mul_spacing hk
  rw [hn] at h ⊢
  exact le_round h

/-- Rounding passes no power of two on the way up. -/
theorem round_le_zpow (hk : F.lastExp q ≤ k) (h : q ≤ 2 ^ k) : F.round q ≤ 2 ^ k := by
  obtain ⟨n, hn⟩ := zpow_eq_mul_spacing hk
  rw [hn] at h ⊢
  exact round_le h

@[simp] theorem round_zero (F : FloatFormat) : F.round 0 = 0 := by
  have hzero : roundEven (0 : ℚ) = 0 := roundEven_intCast 0
  rw [round, zero_div, hzero, Int.cast_zero, zero_mul]

theorem round_nonneg (h : 0 ≤ q) : 0 ≤ F.round q := by
  have hzero : ((0 : ℤ) : ℚ) * F.spacing q ≤ q := by simpa using h
  simpa using le_round hzero

/-- A multiple of its own spacing is a number of the format. -/
theorem round_of_eq_mul {n : ℤ} (h : q = n * F.spacing q) : F.round q = q := by
  have hquot : q / F.spacing q = n := by
    rw [div_eq_iff (spacing_pos F q).ne']
    exact h
  rw [round, hquot, roundEven_intCast]
  exact h.symm

/-- The result is a multiple of the spacing. -/
theorem round_eq_mul (F : FloatFormat) (q : ℚ) :
    ∃ n : ℤ, F.round q = n * F.spacing q := ⟨_, rfl⟩

/-- Numbers with the same last bit are rounded to the same multiples. -/
theorem round_mono (ha : 0 ≤ a) (h : a ≤ b) : F.round a ≤ F.round b := by
  rcases (F.lastExp_mono ha h).eq_or_lt with heq | hlt
  · -- both are rounded to multiples of the same spacing
    have hspacing : F.spacing a = F.spacing b := congrArg (2 ^ ·) heq
    have hpos := spacing_pos F b
    rw [round, round, hspacing]
    have hscaled := roundEven_mono (div_le_div_of_nonneg_right h hpos.le)
    exact mul_le_mul_of_nonneg_right (Int.cast_le.2 hscaled) hpos.le
  · -- a power of two lies between them
    have hb : 0 < b := by
      rcases (ha.trans h).eq_or_lt with rfl | hb
      · rw [le_antisymm h ha] at hlt
        exact absurd hlt (lt_irrefl _)
      · exact hb
    obtain ⟨hexp, hlog⟩ := lastExp_le_log hb ((leastExp_le F a).trans_lt hlt)
    have hbelow : (2 : ℚ) ^ Int.log 2 b ≤ b := by
      exact_mod_cast Int.zpow_log_le_self (by norm_num) hb
    have habove : a ≤ 2 ^ Int.log 2 b := by
      rcases ha.eq_or_lt with rfl | ha
      · exact zpow_nonneg (by norm_num) _
      · rw [lastExp_of_pos ha, hexp] at hlt
        have hlogs : Int.log 2 a < Int.log 2 b := by
          have hle := (le_max_left (Int.log 2 a + 1 - F.precision) F.leastExp).trans_lt hlt
          omega
        exact_mod_cast ((Int.lt_zpow_iff_log_lt (by norm_num) ha).2 hlogs).le
    exact (round_le_zpow (hlt.le.trans hlog) habove).trans (zpow_le_round hlog hbelow)

/-- A rounded number has no finer spacing. -/
theorem lastExp_le_lastExp_round (h : 0 ≤ q) : F.lastExp q ≤ F.lastExp (F.round q) := by
  rcases h.eq_or_lt with rfl | h
  · rw [round_zero]
  · rcases (leastExp_le F q).eq_or_lt with heq | hlt
    · rw [← heq]
      exact leastExp_le F _
    · obtain ⟨hexp, hlog⟩ := lastExp_le_log h hlt
      have hpower := zpow_le_round hlog (by exact_mod_cast Int.zpow_log_le_self (by norm_num) h)
      have hpos : (0 : ℚ) < 2 ^ Int.log 2 q := zpow_pos (by norm_num) _
      have hround : 0 < F.round q := hpos.trans_le hpower
      have hlogs : Int.log 2 q ≤ Int.log 2 (F.round q) :=
        (Int.zpow_le_iff_le_log (by norm_num) hround).1 (by exact_mod_cast hpower)
      rw [lastExp_of_pos hround, hexp]
      exact le_max_of_le_left (by omega)

/-- The result has the spacing of the number, or a wider one. -/
theorem spacing_le_spacing_round (h : 0 ≤ q) : F.spacing q ≤ F.spacing (F.round q) :=
  zpow_le_zpow_right₀ (by norm_num) (lastExp_le_lastExp_round h)

/-- What has been rounded is a number of the format. -/
theorem round_round (h : 0 ≤ q) : F.round (F.round q) = F.round q := by
  obtain ⟨n, hn⟩ := round_eq_mul F q
  rcases (lastExp_le_lastExp_round (F := F) h).eq_or_lt with heq | hlt
  · -- the result is a multiple of the spacing it is rounded with
    have hspacing : F.spacing q = F.spacing (F.round q) := congrArg (2 ^ ·) heq
    exact round_of_eq_mul (n := n) (hspacing ▸ hn)
  · -- it has been rounded up to the next power of two
    have hq : 0 < q := by
      rcases h.eq_or_lt with rfl | hq
      · rw [round_zero] at hlt
        exact absurd hlt (lt_irrefl _)
      · exact hq
    have hround : 0 < F.round q := by
      rcases (round_nonneg (F := F) h).eq_or_lt with hzero | hround
      · rw [← hzero, lastExp_zero] at hlt
        exact absurd (leastExp_le F q) (not_le.2 hlt)
      · exact hround
    obtain ⟨hexp, hlog⟩ := lastExp_le_log hround ((leastExp_le F q).trans_lt hlt)
    have hqexp : Int.log 2 q + 1 - F.precision ≤ F.lastExp q := by
      rw [lastExp_of_pos hq]
      exact le_max_left _ _
    have hbelow : (2 : ℚ) ^ Int.log 2 (F.round q) ≤ F.round q := by
      exact_mod_cast Int.zpow_log_le_self (by norm_num) hround
    have habove : q ≤ 2 ^ Int.log 2 (F.round q) := by
      have hlogs : Int.log 2 q < Int.log 2 (F.round q) := by omega
      exact_mod_cast ((Int.lt_zpow_iff_log_lt (by norm_num) hq).2 hlogs).le
    have hpower : F.round q = 2 ^ Int.log 2 (F.round q) :=
      le_antisymm (round_le_zpow (hlt.le.trans hlog) habove) hbelow
    obtain ⟨m, hm⟩ := zpow_eq_mul_spacing hlog
    exact round_of_eq_mul (hpower.trans hm)

/-- A number within half of the spacing of a number of the format, and of the same size, is rounded
to it. -/
theorem round_eq_of_abs_sub_lt (hd : F.round d = d) (hexp : F.lastExp q = F.lastExp d)
    (h : |q - d| < F.spacing d / 2) : F.round q = d := by
  have hspacing : F.spacing q = F.spacing d := congrArg (2 ^ ·) hexp
  have hpos := spacing_pos F d
  obtain ⟨n, hn⟩ := round_eq_mul F d
  rw [hd] at hn
  have hquot : |q / F.spacing d - n| < 1 / 2 := by
    have hscaled : q / F.spacing d - n = (q - d) / F.spacing d := by
      rw [sub_div, hn, mul_div_assoc, ← hn]
      rw [div_self hpos.ne', mul_one]
    rw [hscaled, abs_div, abs_of_pos hpos, div_lt_iff₀ hpos]
    linarith
  rw [round, hspacing, roundEven_eq hquot]
  exact hn.symm

/-- A number of the format below a power of two is below it by its spacing. -/
theorem add_spacing_le (hd : F.round d = d) (hk : F.lastExp d ≤ k) (h : d < 2 ^ k) :
    d + F.spacing d ≤ 2 ^ k := by
  have hpos := spacing_pos F d
  obtain ⟨n, hn⟩ := round_eq_mul F d
  obtain ⟨m, hm⟩ := zpow_eq_mul_spacing hk
  rw [hd] at hn
  have hlt : (n : ℚ) < m := lt_of_mul_lt_mul_right (hn ▸ hm ▸ h) hpos.le
  have hle : ((n + 1 : ℤ) : ℚ) ≤ m := Int.cast_le.2 (Int.cast_lt.1 hlt)
  have hscaled := mul_le_mul_of_nonneg_right hle hpos.le
  push_cast at hscaled
  linarith

/-- Numbers that are rounded to the same one are no further apart than its spacing. -/
theorem abs_sub_le_spacing (ha : 0 ≤ a) (hb : 0 ≤ b) (h : F.round a = F.round b) :
    |a - b| ≤ F.spacing (F.round a) := by
  have hfirst := abs_round_sub_le F a
  have hsecond := abs_round_sub_le F b
  have hfirst' := spacing_le_spacing_round (F := F) ha
  have hsecond' := spacing_le_spacing_round (F := F) hb
  rw [abs_le] at hfirst hsecond ⊢
  rw [← h] at hsecond hsecond'
  constructor <;> linarith

end FloatFormat

end Siebog.Lib
