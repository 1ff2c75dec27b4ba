import Siebog.DNars.Base.Truth

/-!
# Evidence

A truth value with a confidence strictly between 0 and 1 stands for an amount of evidence: the
weight `c / (1 - c)`, of which the fraction `f` is positive. Amounts of evidence add up, and
`revision` is their addition (`truths_add`). What a knowledge base should hold about a statement is
the sum of the evidence it was given, whatever the order.

Addition of evidence is commutative and associative, so revision is (`revision_adds_evidence`). A
confidence is `w / (w + 1)`, which grows with the weight, and the frequency of a sum is the mediant
of the two frequencies.
-/

set_option autoImplicit false

namespace Siebog.DNars

open Siebog.Lib

/-- Positive and total evidence. -/
abbrev Evidence := ℚ × ℚ

namespace Evidence

/-- The truth value of an amount of evidence, none when there is no evidence. -/
def truths (e : Evidence) : List Truth :=
  if e.2 = 0 then [] else [⟨.val (e.1 / e.2), .val (e.2 / (e.2 + 1))⟩]

@[simp] theorem truths_zero : truths 0 = [] := if_pos rfl

theorem truths_of_pos {e : Evidence} (h : 0 < e.2) :
    e.truths = [⟨.val (e.1 / e.2), .val (e.2 / (e.2 + 1))⟩] :=
  if_neg (ne_of_gt h)

end Evidence

namespace Truth

/-- The evidence a truth value stands for. -/
def evidence : Truth → Evidence
  | ⟨.val f, .val c⟩ => (f * (c / (1 - c)), c / (1 - c))
  | _ => 0

theorem evidence_pos {t : Truth} (ht : t.Within (Set.Ioo 0 1)) : 0 < t.evidence.2 := by
  obtain ⟨f, -, c, ⟨hc0, hc1⟩, rfl⟩ := within_iff.1 ht
  exact div_pos hc0 (sub_pos.2 hc1)

/-- A truth value is determined by the evidence it stands for. -/
theorem truths_evidence {t : Truth} (ht : t.Within (Set.Ioo 0 1)) : t.evidence.truths = [t] := by
  rw [Evidence.truths_of_pos (evidence_pos ht)]
  obtain ⟨f, -, c, ⟨hc0, hc1⟩, rfl⟩ := within_iff.1 ht
  have hc : c ≠ 0 := hc0.ne'
  have hd : 1 - c ≠ 0 := (sub_pos.2 hc1).ne'
  have hfreq : f * (c / (1 - c)) / (c / (1 - c)) = f := by
    rw [mul_div_assoc, div_self (div_ne_zero hc hd), mul_one]
  -- the weight `w = c / (1 - c)` has confidence `w / (w + 1) = c`
  have hsum : c / (1 - c) + 1 = 1 / (1 - c) := by
    field_simp
    ring
  have hconf : c / (1 - c) / (c / (1 - c) + 1) = c := by
    rw [hsum]
    field_simp
  simp only [evidence, hfreq, hconf]

/-- Revision adds evidence. -/
theorem truths_add {e : Evidence} {t u : Truth} (he : 0 < e.2) (hu : e.truths = [u])
    (ht : t.Within (Set.Ioo 0 1)) : (e + t.evidence).truths = [u.revision t] := by
  rw [Evidence.truths_of_pos he, List.singleton_inj] at hu
  rcases e with ⟨p, w⟩
  have hw : 0 < w := he
  obtain ⟨f, -, c, ⟨hc0, hc1⟩, rfl⟩ := within_iff.1 ht
  have hc : 0 < c / (1 - c) := div_pos hc0 (sub_pos.2 hc1)
  have hd : 0 < 1 - c := sub_pos.2 hc1
  have hpos : 0 < ((p, w) + evidence ⟨.val f, .val c⟩ : Evidence).2 := add_pos hw hc
  rw [Evidence.truths_of_pos hpos, ← hu, revision_val]
  -- the sums of the code are the sums of evidence over a common divisor
  have hrest : 1 - w / (w + 1) = 1 / (w + 1) := by
    field_simp
    ring
  have hfi : w / (w + 1) * (1 - c) + c * (1 - w / (w + 1)) =
      (w + c / (1 - c)) * ((1 - c) / (w + 1)) := by
    rw [hrest]
    field_simp
  have hfb : p / w * (w / (w + 1)) * (1 - c) + f * c * (1 - w / (w + 1)) =
      (p + f * (c / (1 - c))) * ((1 - c) / (w + 1)) := by
    rw [hrest]
    field_simp
  have hci : w / (w + 1) * (1 - c) + c * (1 - w / (w + 1)) + (1 - w / (w + 1)) * (1 - c) =
      (w + c / (1 - c) + 1) * ((1 - c) / (w + 1)) := by
    rw [hfi, hrest]
    field_simp
  -- and the common divisor cancels from both quotients
  have hscale : (1 - c) / (w + 1) ≠ 0 := (div_pos hd (by linarith)).ne'
  have hsum : w + c / (1 - c) ≠ 0 := (add_pos hw hc).ne'
  have hsum1 : w + c / (1 - c) + 1 ≠ 0 := by positivity
  rw [hci, hfi, hfb, Num.val_div_of_ne _ (mul_ne_zero hsum hscale),
    Num.val_div_of_ne _ (mul_ne_zero hsum1 hscale), mul_div_mul_right _ _ hscale,
    mul_div_mul_right _ _ hscale]
  rfl

end Truth

/-! ## Revision through evidence -/

/-- There is some evidence, and the positive part of it is a part. -/
structure Evidence.Proper (e : Evidence) : Prop where
  nonneg : 0 ≤ e.1
  le : e.1 ≤ e.2
  pos : 0 < e.2

namespace Evidence

theorem Proper.add {e e' : Evidence} (h : e.Proper) (h' : e'.Proper) : (e + e').Proper where
  nonneg := add_nonneg h.nonneg h'.nonneg
  le := add_le_add h.le h'.le
  pos := add_pos h.pos h'.pos

theorem Proper.within {e : Evidence} {t : Truth} (h : e.Proper) (ht : e.truths = [t]) :
    t.Within (Set.Ioo 0 1) := by
  rw [truths_of_pos h.pos, List.singleton_inj] at ht
  have hsucc : 0 < e.2 + 1 := add_pos h.pos one_pos
  rw [← ht, Truth.within_val]
  constructor
  · exact ⟨div_nonneg h.nonneg h.pos.le, (div_le_one h.pos).2 h.le⟩
  · exact ⟨div_pos h.pos hsucc, (div_lt_one hsucc).2 (lt_add_one e.2)⟩

/-- The truth value of an amount of evidence stands for that amount. -/
theorem Proper.evidence_eq {e : Evidence} {t : Truth} (h : e.Proper) (ht : e.truths = [t]) :
    t.evidence = e := by
  rw [truths_of_pos h.pos, List.singleton_inj] at ht
  have hw : e.2 ≠ 0 := h.pos.ne'
  have hsucc : e.2 + 1 ≠ 0 := (add_pos h.pos one_pos).ne'
  have hrest : 1 - e.2 / (e.2 + 1) = 1 / (e.2 + 1) := by
    field_simp
    ring
  have hweight : e.2 / (e.2 + 1) / (1 - e.2 / (e.2 + 1)) = e.2 := by
    rw [hrest]
    field_simp
  rw [← ht, Truth.evidence, hweight, div_mul_cancel₀ _ hw]

/-- More weight is more confidence. -/
theorem div_succ_lt_div_succ {v w : ℚ} (hv : 0 < v) (hvw : v < w) : v / (v + 1) < w / (w + 1) := by
  rw [div_lt_div_iff₀ (by linarith) (by linarith)]
  linarith

/-- The mediant of two quotients lies between them. -/
theorem mediant_mem_uIcc {p q v w : ℚ} (hv : 0 < v) (hw : 0 < w) :
    (p + q) / (v + w) ∈ Set.uIcc (p / v) (q / w) := by
  have hvw : 0 < v + w := add_pos hv hw
  rcases le_total (p / v) (q / w) with h | h
  · rw [Set.uIcc_of_le h]
    rw [div_le_div_iff₀ hv hw] at h
    constructor
    · rw [div_le_div_iff₀ hv hvw]
      linarith
    · rw [div_le_div_iff₀ hvw hw]
      linarith
  · rw [Set.uIcc_of_ge h]
    rw [div_le_div_iff₀ hw hv] at h
    constructor
    · rw [div_le_div_iff₀ hw hvw]
      linarith
    · rw [div_le_div_iff₀ hvw hv]
      linarith

end Evidence

namespace Truth

section Revision

variable {t u v : Truth}

theorem evidence_proper (ht : t.Within (Set.Ioo 0 1)) : t.evidence.Proper := by
  have hpos : 0 < t.evidence.2 := evidence_pos ht
  obtain ⟨f, ⟨hf0, hf1⟩, c, -, rfl⟩ := within_iff.1 ht
  exact ⟨mul_nonneg hf0 hpos.le, mul_le_of_le_one_left hpos.le hf1, hpos⟩

/-- The frequency and the confidence as quotients of the evidence. -/
theorem eq_of_evidence (ht : t.Within (Set.Ioo 0 1)) :
    t = ⟨.val (t.evidence.1 / t.evidence.2), .val (t.evidence.2 / (t.evidence.2 + 1))⟩ := by
  have h := truths_evidence ht
  rw [Evidence.truths_of_pos (evidence_pos ht), List.singleton_inj] at h
  exact h.symm

theorem truths_add_evidence (ht : t.Within (Set.Ioo 0 1)) (hu : u.Within (Set.Ioo 0 1)) :
    (t.evidence + u.evidence).truths = [t.revision u] :=
  truths_add (evidence_pos ht) (truths_evidence ht) hu

theorem within_revision_of_pos (ht : t.Within (Set.Ioo 0 1)) (hu : u.Within (Set.Ioo 0 1)) :
    (t.revision u).Within (Set.Ioo 0 1) :=
  ((evidence_proper ht).add (evidence_proper hu)).within (truths_add_evidence ht hu)

theorem evidence_revision (ht : t.Within (Set.Ioo 0 1)) (hu : u.Within (Set.Ioo 0 1)) :
    (t.revision u).evidence = t.evidence + u.evidence :=
  ((evidence_proper ht).add (evidence_proper hu)).evidence_eq (truths_add_evidence ht hu)

/-- Two truth values that stand for the same evidence are the same. -/
theorem eq_of_evidence_eq (ht : t.Within (Set.Ioo 0 1)) (hu : u.Within (Set.Ioo 0 1))
    (h : t.evidence = u.evidence) : t = u := by
  rw [eq_of_evidence ht, eq_of_evidence hu, h]

theorem revision_comm (ht : t.Within (Set.Ioo 0 1)) (hu : u.Within (Set.Ioo 0 1)) :
    t.revision u = u.revision t := by
  apply eq_of_evidence_eq (within_revision_of_pos ht hu) (within_revision_of_pos hu ht)
  rw [evidence_revision ht hu, evidence_revision hu ht, add_comm]

theorem revision_assoc (ht : t.Within (Set.Ioo 0 1)) (hu : u.Within (Set.Ioo 0 1))
    (hv : v.Within (Set.Ioo 0 1)) : (t.revision u).revision v = t.revision (u.revision v) := by
  have htu := within_revision_of_pos ht hu
  have huv := within_revision_of_pos hu hv
  apply eq_of_evidence_eq (within_revision_of_pos htu hv) (within_revision_of_pos ht huv)
  rw [evidence_revision htu hv, evidence_revision ht hu, evidence_revision ht huv,
    evidence_revision hu hv, add_assoc]

theorem conf_lt_conf_revision (ht : t.Within (Set.Ioo 0 1)) (hu : u.Within (Set.Ioo 0 1)) :
    t.conf < (t.revision u).conf := by
  rw [eq_of_evidence (within_revision_of_pos ht hu), evidence_revision ht hu]
  conv_lhs => rw [eq_of_evidence ht]
  have hmore : t.evidence.2 < (t.evidence + u.evidence).2 :=
    lt_add_of_pos_right _ (evidence_pos hu)
  exact Evidence.div_succ_lt_div_succ (evidence_pos ht) hmore

theorem freq_revision_mem_uIcc (ht : t.Within (Set.Ioo 0 1)) (hu : u.Within (Set.Ioo 0 1))
    {f g : ℚ} (hf : t.freq = .val f) (hg : u.freq = .val g) :
    Num.In (Set.uIcc f g) (t.revision u).freq := by
  have hft : Num.val f = .val (t.evidence.1 / t.evidence.2) :=
    hf.symm.trans (congrArg freq (eq_of_evidence ht))
  have hgu : Num.val g = .val (u.evidence.1 / u.evidence.2) :=
    hg.symm.trans (congrArg freq (eq_of_evidence hu))
  cases hft
  cases hgu
  rw [eq_of_evidence (within_revision_of_pos ht hu), evidence_revision ht hu]
  apply Num.in_val.2
  exact Evidence.mediant_mem_uIcc (evidence_pos ht) (evidence_pos hu)

/-- The evidence of a revision is the sum of the evidence of the two truth values, positive and in
total. So revision is commutative and associative, it adds confidence to both, and its frequency is
between theirs. -/
theorem revision_adds_evidence (ht : t.Within (Set.Ioo 0 1)) (hu : u.Within (Set.Ioo 0 1))
    (hv : v.Within (Set.Ioo 0 1)) :
    (t.revision u).evidence = t.evidence + u.evidence ∧
      t.revision u = u.revision t ∧
      (t.revision u).revision v = t.revision (u.revision v) ∧
      t.conf < (t.revision u).conf ∧ u.conf < (t.revision u).conf ∧ (t.revision u).conf < 1 ∧
      ∀ f g, t.freq = .val f → u.freq = .val g →
        Num.In (Set.uIcc f g) (t.revision u).freq := by
  refine ⟨evidence_revision ht hu, revision_comm ht hu, revision_assoc ht hu hv,
    conf_lt_conf_revision ht hu, ?_, ?_, fun f g hf hg => freq_revision_mem_uIcc ht hu hf hg⟩
  · rw [revision_comm ht hu]
    exact conf_lt_conf_revision hu ht
  · obtain ⟨c, hc, heq⟩ := (within_revision_of_pos ht hu).2
    rw [heq]
    exact hc.2

/-- Evidence for, evidence against, and a weak even judgement. -/
theorem revision_adds_evidence_opposed :
    (revision ⟨.val 1, .val (9 / 10)⟩ ⟨.val 0, .val (9 / 10)⟩).evidence = (9, 9) + (0, 9) ∧
      revision ⟨.val 1, .val (9 / 10)⟩ ⟨.val 0, .val (9 / 10)⟩ =
        revision ⟨.val 0, .val (9 / 10)⟩ ⟨.val 1, .val (9 / 10)⟩ ∧
      Num.In (Set.uIcc 1 0) (revision ⟨.val 1, .val (9 / 10)⟩ ⟨.val 0, .val (9 / 10)⟩).freq := by
  have hpro : Within (Set.Ioo 0 1) ⟨.val 1, .val (9 / 10)⟩ :=
    within_val.2 ⟨by norm_num, by norm_num⟩
  have hcon : Within (Set.Ioo 0 1) ⟨.val 0, .val (9 / 10)⟩ :=
    within_val.2 ⟨by norm_num, by norm_num⟩
  have heven : Within (Set.Ioo 0 1) ⟨.val (1 / 2), .val (1 / 2)⟩ :=
    within_val.2 ⟨by norm_num, by norm_num⟩
  obtain ⟨hsum, hcomm, -, -, -, -, hfreq⟩ := revision_adds_evidence hpro hcon heven
  refine ⟨?_, hcomm, hfreq 1 0 rfl rfl⟩
  rw [hsum]
  norm_num [evidence]

end Revision

end Truth

end Siebog.DNars
