import Siebog.Lib.ExactNum

/-!
# Truth values and truth functions

`Truth` pairs a frequency and a confidence. The source computes them in `Double`; here they are
exact rationals, with `Num.nan` for a quotient whose divisor is zero. The truth functions are those
of the source, operation by operation.

`Truth.Within cs t` says that the frequency of `t` lies in `[0, 1]` and its confidence in `cs`.
Six of the eight functions map truths with confidences in `[0, 1)` to such truths. `comparison`
does so exactly when the two frequencies are not both zero (`within_comparison_iff`), and
`revision` exactly when the two confidences are not both zero (`within_revision_iff`).
-/

set_option autoImplicit false

namespace Siebog.DNars

open Siebog.Lib

/-- Frequency and confidence of a statement. -/
structure Truth where
  freq : Num ℚ
  conf : Num ℚ
  deriving DecidableEq, Repr, Inhabited

namespace Truth

/-- The evidential horizon of the source, `Truth.K`. -/
def K : Num ℚ := 1

/-- The truth of what two inheritances in a row conclude. -/
def deduction (t other : Truth) : Truth :=
  let f := t.freq * other.freq
  ⟨f, f * t.conf * other.conf⟩

/-- The truth of an inheritance between two predicates of one subject. The evidence `i` becomes the
confidence `i / (i + K)`. -/
def induction (t other : Truth) : Truth :=
  let i := other.freq * t.conf * other.conf
  ⟨t.freq, i / (i + K)⟩

/-- The truth of an inheritance between two subjects of one predicate: `induction` with the two
frequencies in each other's place. -/
def abduction (t other : Truth) : Truth :=
  let i := t.freq * t.conf * other.conf
  ⟨other.freq, i / (i + K)⟩

/-- The truth of a similarity between two terms that share a subject or a predicate. The frequency
`i / j` is undefined when both frequencies are zero. -/
def comparison (t other : Truth) : Truth :=
  let i := t.freq * other.freq
  let j := t.freq + other.freq - i
  let k := j * t.conf * other.conf
  ⟨i / j, k / (k + K)⟩

/-- The truth of an inheritance after one of its terms is replaced by a similar one. The confidence
is weighed with the frequency of the similarity, which is `t` when `inv` and `other` otherwise. -/
def analogy (t other : Truth) (inv : Bool) : Truth :=
  let f := t.freq * other.freq
  let c := t.conf * other.conf
  if inv then ⟨f, t.freq * c⟩ else ⟨f, other.freq * c⟩

/-- The truth of what two similarities in a row conclude. -/
def resemblance (t other : Truth) : Truth :=
  let f := t.freq * other.freq
  ⟨f, (t.freq + other.freq - f) * t.conf * other.conf⟩

/-- The truth of a statement that is told twice. The evidence for either truth weighs with the doubt
in the other one. -/
def revision (t other : Truth) : Truth :=
  let fb := t.freq * t.conf * (1 - other.conf) + other.freq * other.conf * (1 - t.conf)
  let fi := t.conf * (1 - other.conf) + other.conf * (1 - t.conf)
  let cb := t.conf * (1 - other.conf) + other.conf * (1 - t.conf)
  let ci := cb + (1 - t.conf) * (1 - other.conf)
  ⟨fb / fi, cb / ci⟩

/-- Degree of belief: `conf * (freq - 0.5) + 0.5`. -/
def expectation (t : Truth) : Num ℚ := t.conf * (t.freq - .val (1 / 2)) + .val (1 / 2)

/-- The truth functions of inference and revision, both variants of `analogy` included. -/
def functions : List (Truth → Truth → Truth) :=
  [deduction, induction, abduction, comparison, fun t u => t.analogy u false,
    fun t u => t.analogy u true, resemblance, revision]

/-- The frequency is defined and in `[0, 1]`, the confidence is defined and in `cs`. -/
def Within (cs : Set ℚ) (t : Truth) : Prop :=
  Num.In (Set.Icc 0 1) t.freq ∧ Num.In cs t.conf

/-- A wider range of confidences holds more truths. -/
theorem Within.mono {cs ds : Set ℚ} {t : Truth} (h : t.Within cs) (hcd : cs ⊆ ds) :
    t.Within ds :=
  ⟨h.1, h.2.mono hcd⟩

@[simp] theorem within_val {cs : Set ℚ} {f c : ℚ} :
    Within cs ⟨.val f, .val c⟩ ↔ f ∈ Set.Icc (0 : ℚ) 1 ∧ c ∈ cs := by
  simp [Within]

/-- A truth within bounds is a pair of numbers within them, neither of which is `NaN`. -/
theorem within_iff {cs : Set ℚ} {t : Truth} :
    t.Within cs ↔ ∃ f ∈ Set.Icc (0 : ℚ) 1, ∃ c ∈ cs, t = ⟨.val f, .val c⟩ := by
  constructor
  · rcases t with ⟨tf, tc⟩
    rintro ⟨⟨f, hf, rfl⟩, ⟨c, hc, rfl⟩⟩
    exact ⟨f, hf, c, hc, rfl⟩
  · rintro ⟨f, hf, c, hc, rfl⟩
    exact within_val.2 ⟨hf, hc⟩

/-! ## The truth functions on defined truths -/

section Values

variable (f c g d : ℚ)

/-- Deduction of numbers. -/
theorem deduction_val : deduction ⟨.val f, .val c⟩ ⟨.val g, .val d⟩ =
    ⟨.val (f * g), .val (f * g * c * d)⟩ := rfl

/-- Induction of numbers. -/
theorem induction_val : induction ⟨.val f, .val c⟩ ⟨.val g, .val d⟩ =
    ⟨.val f, .val (g * c * d) / .val (g * c * d + 1)⟩ := rfl

/-- Abduction of numbers. -/
theorem abduction_val : abduction ⟨.val f, .val c⟩ ⟨.val g, .val d⟩ =
    ⟨.val g, .val (f * c * d) / .val (f * c * d + 1)⟩ := rfl

/-- Comparison of numbers. The frequency is undefined when both frequencies are 0. -/
theorem comparison_val : comparison ⟨.val f, .val c⟩ ⟨.val g, .val d⟩ =
    ⟨.val (f * g) / .val (f + g - f * g),
      .val ((f + g - f * g) * c * d) / .val ((f + g - f * g) * c * d + 1)⟩ := rfl

/-- Analogy of numbers. `inv` says whose frequency discounts the confidence. -/
theorem analogy_val (inv : Bool) : analogy ⟨.val f, .val c⟩ ⟨.val g, .val d⟩ inv =
    ⟨.val (f * g), .val ((if inv then f else g) * (c * d))⟩ := by
  cases inv <;> rfl

/-- Resemblance of numbers. -/
theorem resemblance_val : resemblance ⟨.val f, .val c⟩ ⟨.val g, .val d⟩ =
    ⟨.val (f * g), .val ((f + g - f * g) * c * d)⟩ := rfl

/-- Revision of numbers. It is undefined when both confidences are 0. -/
theorem revision_val : revision ⟨.val f, .val c⟩ ⟨.val g, .val d⟩ =
    ⟨.val (f * c * (1 - d) + g * d * (1 - c)) / .val (c * (1 - d) + d * (1 - c)),
      .val (c * (1 - d) + d * (1 - c)) /
        .val (c * (1 - d) + d * (1 - c) + (1 - c) * (1 - d))⟩ := rfl

end Values

/-! ## Ranges -/

section Ranges

variable {t u : Truth}

/-- A product of confidences below 1 is below 1, with a factor up to 1 as well. -/
private theorem conf_mul_mem {x c d : ℚ} (hx : x ∈ Set.Icc (0 : ℚ) 1)
    (hc : c ∈ Set.Ico (0 : ℚ) 1) (hd : d ∈ Set.Ico (0 : ℚ) 1) : x * c * d ∈ Set.Ico (0 : ℚ) 1 :=
  mul_mem_Ico (Set.Ico_subset_Icc_self (mul_mem_Ico hx hc)) hd

/-- The confidence `x / (x + 1)` of an amount of evidence is below 1. -/
private theorem horizon_mem {x : ℚ} (hx : 0 ≤ x) :
    Num.In (Set.Ico 0 1) (.val x / .val (x + 1) : Num ℚ) := by
  rw [Num.val_div_of_ne x (by linarith)]
  exact Num.in_val.2 (div_add_one_mem_Ico hx)

/-- Deduction stays within the bounds. -/
theorem within_deduction (ht : t.Within (Set.Ico 0 1)) (hu : u.Within (Set.Ico 0 1)) :
    (t.deduction u).Within (Set.Ico 0 1) := by
  obtain ⟨f, hf, c, hc, rfl⟩ := within_iff.1 ht
  obtain ⟨g, hg, d, hd, rfl⟩ := within_iff.1 hu
  rw [deduction_val, within_val]
  exact ⟨mul_mem_Icc hf hg, conf_mul_mem (mul_mem_Icc hf hg) hc hd⟩

/-- Induction stays within the bounds. -/
theorem within_induction (ht : t.Within (Set.Ico 0 1)) (hu : u.Within (Set.Ico 0 1)) :
    (t.induction u).Within (Set.Ico 0 1) := by
  obtain ⟨f, hf, c, hc, rfl⟩ := within_iff.1 ht
  obtain ⟨g, hg, d, hd, rfl⟩ := within_iff.1 hu
  rw [induction_val]
  exact ⟨Num.in_val.2 hf, horizon_mem (conf_mul_mem hg hc hd).1⟩

/-- Abduction stays within the bounds. -/
theorem within_abduction (ht : t.Within (Set.Ico 0 1)) (hu : u.Within (Set.Ico 0 1)) :
    (t.abduction u).Within (Set.Ico 0 1) := by
  obtain ⟨f, hf, c, hc, rfl⟩ := within_iff.1 ht
  obtain ⟨g, hg, d, hd, rfl⟩ := within_iff.1 hu
  rw [abduction_val]
  exact ⟨Num.in_val.2 hg, horizon_mem (conf_mul_mem hf hc hd).1⟩

/-- Analogy stays within the bounds, either way. -/
theorem within_analogy (ht : t.Within (Set.Ico 0 1)) (hu : u.Within (Set.Ico 0 1)) (inv : Bool) :
    (t.analogy u inv).Within (Set.Ico 0 1) := by
  obtain ⟨f, hf, c, hc, rfl⟩ := within_iff.1 ht
  obtain ⟨g, hg, d, hd, rfl⟩ := within_iff.1 hu
  have hw : (if inv then f else g) ∈ Set.Icc (0 : ℚ) 1 := by
    split
    · exact hf
    · exact hg
  rw [analogy_val, within_val, ← mul_assoc]
  exact ⟨mul_mem_Icc hf hg, conf_mul_mem hw hc hd⟩

/-- Resemblance stays within the bounds. -/
theorem within_resemblance (ht : t.Within (Set.Ico 0 1)) (hu : u.Within (Set.Ico 0 1)) :
    (t.resemblance u).Within (Set.Ico 0 1) := by
  obtain ⟨f, hf, c, hc, rfl⟩ := within_iff.1 ht
  obtain ⟨g, hg, d, hd, rfl⟩ := within_iff.1 hu
  rw [resemblance_val, within_val]
  exact ⟨mul_mem_Icc hf hg, conf_mul_mem (add_sub_mul_mem_Icc hf hg) hc hd⟩

/-- Two zero frequencies leave the frequency of a comparison undefined. -/
theorem comparison_freq_of_zero (ht : t.freq = 0) (hu : u.freq = 0) :
    (t.comparison u).freq = .nan := by
  simp [comparison, ht, hu]

/-- Comparison stays within the bounds where its frequency is defined. -/
theorem within_comparison (ht : t.Within (Set.Ico 0 1)) (hu : u.Within (Set.Ico 0 1))
    (h : ¬ (t.freq = 0 ∧ u.freq = 0)) : (t.comparison u).Within (Set.Ico 0 1) := by
  obtain ⟨f, hf, c, hc, rfl⟩ := within_iff.1 ht
  obtain ⟨g, hg, d, hd, rfl⟩ := within_iff.1 hu
  have hj : f + g - f * g ∈ Set.Icc (0 : ℚ) 1 := add_sub_mul_mem_Icc hf hg
  have hj0 : f + g - f * g ≠ 0 := by
    rw [Ne, add_sub_mul_eq_zero_iff hf hg]
    simpa using h
  have hjpos : 0 < f + g - f * g := lt_of_le_of_ne hj.1 (Ne.symm hj0)
  refine ⟨?_, horizon_mem (conf_mul_mem hj hc hd).1⟩
  rw [comparison_val, Num.val_div_of_ne _ hj0, Num.in_val]
  refine ⟨div_nonneg (mul_nonneg hf.1 hg.1) hjpos.le, (div_le_one hjpos).2 ?_⟩
  nlinarith [mul_nonneg hf.1 (sub_nonneg.2 hg.2), mul_nonneg hg.1 (sub_nonneg.2 hf.2)]

/-- The comparison is in a range, half open or wider, unless both frequencies are 0. -/
theorem within_comparison_iff {cs : Set ℚ} (hcs : Set.Ico 0 1 ⊆ cs) (ht : t.Within (Set.Ico 0 1))
    (hu : u.Within (Set.Ico 0 1)) :
    (t.comparison u).Within cs ↔ ¬ (t.freq = 0 ∧ u.freq = 0) := by
  refine ⟨?_, fun h => (within_comparison ht hu h).mono hcs⟩
  rintro h ⟨hf, hg⟩
  have hfreq := h.1
  rw [comparison_freq_of_zero hf hg] at hfreq
  exact Num.not_in_nan hfreq

/-- Two zero confidences leave the frequency of a revision undefined. -/
theorem revision_freq_of_zero (f g : ℚ) :
    (revision ⟨.val f, 0⟩ ⟨.val g, 0⟩).freq = .nan := by
  simp [revision]

/-- Revision stays within the bounds where it is defined. -/
theorem within_revision (ht : t.Within (Set.Ico 0 1)) (hu : u.Within (Set.Ico 0 1))
    (h : ¬ (t.conf = 0 ∧ u.conf = 0)) : (t.revision u).Within (Set.Ico 0 1) := by
  obtain ⟨f, hf, c, ⟨hc0, hc1⟩, rfl⟩ := within_iff.1 ht
  obtain ⟨g, hg, d, ⟨hd0, hd1⟩, rfl⟩ := within_iff.1 hu
  have hp : 0 ≤ c * (1 - d) := mul_nonneg hc0 (by linarith)
  have hq : 0 ≤ d * (1 - c) := mul_nonneg hd0 (by linarith)
  have hr : 0 < (1 - c) * (1 - d) := mul_pos (by linarith) (by linarith)
  have hsum : c * (1 - d) + d * (1 - c) ≠ 0 := by
    intro hz
    have hcz : c * (1 - d) = 0 := by linarith
    have hdz : d * (1 - c) = 0 := by linarith
    rw [mul_eq_zero] at hcz hdz
    apply h
    simp only [Num.zero_eq, Num.val.injEq]
    constructor
    · rcases hcz with hcz | hcz
      · exact hcz
      · linarith
    · rcases hdz with hdz | hdz
      · exact hdz
      · linarith
  have hpos : 0 < c * (1 - d) + d * (1 - c) := lt_of_le_of_ne (by linarith) (Ne.symm hsum)
  rw [revision_val, Num.val_div_of_ne _ hsum, Num.val_div_of_ne _ (by linarith), within_val]
  constructor
  · rw [mul_assoc f, mul_assoc g]
    exact weightedMean_mem_Icc hf hg hp hq hpos
  · exact ⟨div_nonneg hpos.le (by linarith), (div_lt_one (by linarith)).2 (by linarith)⟩

/-- Revision is within bounds exactly where it is defined, however wide the bounds are. -/
theorem within_revision_iff {cs : Set ℚ} (hcs : Set.Ico 0 1 ⊆ cs) (ht : t.Within (Set.Ico 0 1))
    (hu : u.Within (Set.Ico 0 1)) :
    (t.revision u).Within cs ↔ ¬ (t.conf = 0 ∧ u.conf = 0) := by
  refine ⟨?_, fun h => (within_revision ht hu h).mono hcs⟩
  rintro h ⟨hc, hd⟩
  obtain ⟨f, -, c, -, rfl⟩ := within_iff.1 ht
  obtain ⟨g, -, d, -, rfl⟩ := within_iff.1 hu
  have hfreq := h.1
  simp only at hc hd
  rw [hc, hd, revision_freq_of_zero] at hfreq
  exact Num.not_in_nan hfreq

end Ranges

end Truth

end Siebog.DNars
