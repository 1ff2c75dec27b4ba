import Siebog.DNars.Base.Truth

/-!
# The confidence of a single inference step

A truth function of inference multiplies the two confidences and a number of the unit interval. The
result is the confidence of a strong rule, and `k / (k + 1)` of it, which is no more, the confidence
of a weak one. So one step never is more confident than its premises, and a weak step never reaches
one half (`single_step_conf`). Revision, which does add confidence, is no such step.
-/

set_option autoImplicit false

namespace Siebog.DNars

open Siebog.Lib

namespace Truth

/-- The rules whose confidence is a product. -/
def strongRules : List (Truth → Truth → Truth) :=
  [deduction, fun t u => t.analogy u false, fun t u => t.analogy u true, resemblance]

/-- The rules whose confidence is bounded by the evidential horizon. -/
def weakRules : List (Truth → Truth → Truth) := [induction, abduction, comparison]

section Bounds

variable {f g c d : ℚ}

/-- The confidence of a strong rule: a factor of the unit interval times both confidences. -/
theorem strong_conf (hf : f ∈ Set.Icc (0 : ℚ) 1) (hg : g ∈ Set.Icc (0 : ℚ) 1)
    {rule : Truth → Truth → Truth} (hrule : rule ∈ strongRules) :
    ∃ x ∈ Set.Icc (0 : ℚ) 1, (rule ⟨.val f, .val c⟩ ⟨.val g, .val d⟩).conf = .val (x * c * d) := by
  simp only [strongRules, List.mem_cons, List.not_mem_nil, or_false] at hrule
  rcases hrule with rfl | rfl | rfl | rfl
  · exact ⟨f * g, mul_mem_Icc hf hg, congrArg conf (deduction_val f c g d)⟩
  · refine ⟨g, hg, ?_⟩
    show (analogy _ _ false).conf = _
    rw [analogy_val, if_neg Bool.false_ne_true, mul_assoc]
  · refine ⟨f, hf, ?_⟩
    show (analogy _ _ true).conf = _
    rw [analogy_val, if_pos rfl, mul_assoc]
  · exact ⟨f + g - f * g, add_sub_mul_mem_Icc hf hg, congrArg conf (resemblance_val f c g d)⟩

/-- The confidence of a weak rule: such a product `k`, over `k + 1`. -/
theorem weak_conf (hf : f ∈ Set.Icc (0 : ℚ) 1) (hg : g ∈ Set.Icc (0 : ℚ) 1)
    {rule : Truth → Truth → Truth} (hrule : rule ∈ weakRules) :
    ∃ x ∈ Set.Icc (0 : ℚ) 1, (rule ⟨.val f, .val c⟩ ⟨.val g, .val d⟩).conf =
      .val (x * c * d) / .val (x * c * d + 1) := by
  simp only [weakRules, List.mem_cons, List.not_mem_nil, or_false] at hrule
  rcases hrule with rfl | rfl | rfl
  · exact ⟨g, hg, congrArg conf (induction_val f c g d)⟩
  · exact ⟨f, hf, congrArg conf (abduction_val f c g d)⟩
  · exact ⟨f + g - f * g, add_sub_mul_mem_Icc hf hg, congrArg conf (comparison_val f c g d)⟩

/-- A single inference step is at most as confident as its premises, and a weak one is below one
half. -/
theorem single_step_conf (hf : f ∈ Set.Icc (0 : ℚ) 1) (hg : g ∈ Set.Icc (0 : ℚ) 1)
    (hc : c ∈ Set.Ico (0 : ℚ) 1) (hd : d ∈ Set.Ico (0 : ℚ) 1) :
    (∀ rule ∈ strongRules ++ weakRules,
      Num.In (Set.Iic (min c d)) (rule ⟨.val f, .val c⟩ ⟨.val g, .val d⟩).conf) ∧
    ∀ rule ∈ weakRules, Num.In (Set.Iio (1 / 2)) (rule ⟨.val f, .val c⟩ ⟨.val g, .val d⟩).conf := by
  have hbound : ∀ x ∈ Set.Icc (0 : ℚ) 1, x * c * d ≤ min c d := fun x hx =>
    mul_mul_le_min hx (Set.Ico_subset_Icc_self hc) (Set.Ico_subset_Icc_self hd)
  have hprod : ∀ x ∈ Set.Icc (0 : ℚ) 1, x * c * d ∈ Set.Ico (0 : ℚ) 1 := fun x hx =>
    mul_mem_Ico (Set.Ico_subset_Icc_self (mul_mem_Ico hx hc)) hd
  -- the divisor `k + 1` of a weak rule is never zero
  have hweak : ∀ rule ∈ weakRules, ∃ x ∈ Set.Icc (0 : ℚ) 1,
      (rule ⟨.val f, .val c⟩ ⟨.val g, .val d⟩).conf = .val (x * c * d / (x * c * d + 1)) := by
    intro rule hrule
    obtain ⟨x, hx, hconf⟩ := weak_conf hf hg hrule
    refine ⟨x, hx, ?_⟩
    rw [hconf, Num.val_div_of_ne _ (add_pos_of_nonneg_of_pos (hprod x hx).1 one_pos).ne']
  constructor
  · intro rule hrule
    rcases List.mem_append.1 hrule with hrule | hrule
    · obtain ⟨x, hx, hconf⟩ := strong_conf hf hg hrule
      rw [hconf, Num.in_val]
      exact hbound x hx
    · obtain ⟨x, hx, hconf⟩ := hweak rule hrule
      rw [hconf, Num.in_val]
      exact (div_add_one_le (hprod x hx).1).trans (hbound x hx)
  · intro rule hrule
    obtain ⟨x, hx, hconf⟩ := hweak rule hrule
    rw [hconf, Num.in_val]
    exact div_add_one_lt_half (hprod x hx)

/-- Premises `(1.00,0.90)` and `(0.00,0.50)`. -/
theorem single_step_conf_opposed :
    (∀ rule ∈ strongRules ++ weakRules, Num.In (Set.Iic (min (9 / 10) (1 / 2)))
      (rule ⟨.val 1, .val (9 / 10)⟩ ⟨.val 0, .val (1 / 2)⟩).conf) ∧
    ∀ rule ∈ weakRules,
      Num.In (Set.Iio (1 / 2)) (rule ⟨.val 1, .val (9 / 10)⟩ ⟨.val 0, .val (1 / 2)⟩).conf :=
  single_step_conf (by norm_num) (by norm_num) (by norm_num) (by norm_num)

end Bounds

end Truth

end Siebog.DNars
