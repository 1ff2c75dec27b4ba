import Siebog.DNars.Inference.Table

/-!
# Truth values stay in range

A truth value is in range when its frequency is defined and in `[0, 1]` and its confidence is
defined and in `[0, 1]`; one that is not 1 stays below 1. Two divisions of the code have no value on
truth values in range: the comparison of two frequencies 0, and the revision of confidence 0 with
confidence 0. Inputs have positive confidence, but a deduction with a frequency of 0 has confidence
0, so `include` can meet both. `range_kept_iff` says that these are the only ways out of range, over
runs of `add` and `include`.

The proofs carry the half-open range `[0, 1)` of confidences along the run. The range `cs` of a
lemma may be any that includes it: an undefined value is in none of them.
-/

set_option autoImplicit false

namespace Siebog.DNars

open Siebog.Lib StatementAPI

/-! ## One application of a truth function -/

theorem Truth.within_ico {t : Truth} (h : t.Within (Set.Ioo 0 1)) : t.Within (Set.Ico 0 1) :=
  h.mono Set.Ioo_subset_Ico_self

theorem Truth.conf_ne_zero {t : Truth} (h : t.Within (Set.Ioo 0 1)) : t.conf ≠ 0 := by
  obtain ⟨f, -, c, ⟨hc, -⟩, rfl⟩ := within_iff.1 h
  intro hzero
  cases hzero
  exact lt_irrefl 0 hc

/-- On proper truth values only the comparison of two frequencies 0 is out of range. -/
theorem Truth.within_functions_iff {t u : Truth} (ht : t.Within (Set.Ioo 0 1))
    (hu : u.Within (Set.Ioo 0 1)) :
    (∀ f ∈ Truth.functions, (f t u).Within (Set.Ico 0 1)) ↔ ¬ (t.freq = 0 ∧ u.freq = 0) := by
  have ht' := within_ico ht
  have hu' := within_ico hu
  constructor
  · intro h
    exact (within_comparison_iff subset_rfl ht' hu').1 (h comparison (by simp [functions]))
  · intro h f hf
    simp only [functions, List.mem_cons, List.not_mem_nil, or_false] at hf
    rcases hf with rfl | rfl | rfl | rfl | rfl | rfl | rfl | rfl
    · exact within_deduction ht' hu'
    · exact within_induction ht' hu'
    · exact within_abduction ht' hu'
    · exact within_comparison ht' hu' h
    · exact within_analogy ht' hu' false
    · exact within_analogy ht' hu' true
    · exact within_resemblance ht' hu'
    · exact within_revision ht' hu' fun hzero => conf_ne_zero ht hzero.1

/-! ## Additions -/

/-- Every truth value stored in the graph is in range, with a confidence in `cs`. -/
def InRange (cs : Set ℚ) (g : DNarsGraph) : Prop := ∀ st ∈ statements g, st.truth.Within cs

theorem InRange.mono {cs ds : Set ℚ} {g : DNarsGraph} (h : InRange cs g) (hcd : cs ⊆ ds) :
    InRange ds g :=
  fun st hst => (h st hst).mono hcd

theorem inRange_iff {cs : Set ℚ} {g : DNarsGraph} :
    InRange cs g ↔ ∀ x, ∀ t ∈ truthsAt g x, t.Within cs := by
  constructor
  · intro h x t ht
    exact h (x.withTruth t) (mem_statements.2 ht)
  · intro h st hst
    exact h st.triple st.truth (mem_statements.1 hst)

/-- The addition revises a stored confidence 0 with a confidence 0. -/
def ZeroRevision (g : DNarsGraph) (st : Statement) : Prop :=
  validStatement st = true ∧ st.truth.conf = 0 ∧ ∃ u, truthsAt g st.triple = [u] ∧ u.conf = 0

theorem inRange_insertForms {cs : Set ℚ} {g : DNarsGraph} {st : Statement} (h : InRange cs g)
    (hst : st.truth.Within cs) : InRange cs (insertAll g st.forms) := by
  rw [inRange_iff] at h ⊢
  intro x t ht
  rw [truthsAt_insertForms] at ht
  rcases List.mem_append.1 ht with ht | ht
  · exact h x t ht
  · rwa [List.eq_of_mem_replicate ht]

/-- Storing a truth value under triples, one of which has edges, is in range exactly when the truth
value is. -/
theorem inRange_storeAll_iff {cs : Set ℚ} {g : DNarsGraph} (h : InRange cs g) {t : Truth}
    {xs : List Triple} {x : Triple} (hx : x ∈ xs) (hedge : truthsAt g x ≠ []) :
    InRange cs (storeAll t g xs) ↔ t.Within cs := by
  rw [inRange_iff] at h ⊢
  constructor
  · intro hstored
    apply hstored x
    obtain ⟨u, hu⟩ := List.exists_mem_of_ne_nil _ hedge
    rw [truthsAt_storeAll, if_pos hx]
    exact List.mem_map.2 ⟨u, hu, rfl⟩
  · intro ht y u hu
    rw [truthsAt_storeAll] at hu
    split at hu
    · obtain ⟨-, -, rfl⟩ := List.mem_map.1 hu
      exact ht
    · exact h y u hu

/-- A statement in range leaves the graph in range exactly when it revises no confidence 0 with
confidence 0. -/
theorem inRange_addStep_iff {cs : Set ℚ} (hcs : Set.Ico 0 1 ⊆ cs) {g : DNarsGraph} (hg : g.Closed)
    (h : InRange (Set.Ico 0 1) g) {st : Statement} (hst : st.truth.Within (Set.Ico 0 1)) :
    InRange cs (addStep g st) ↔ ¬ ZeroRevision g st := by
  -- where a truth is revised, the new one has to be in the range
  have hrevised : ∀ {u xs}, validStatement st = true → truthsAt g st.triple = [u] →
      st.triple ∈ xs →
      (InRange cs (storeAll (u.revision st.truth) g xs) ↔ ¬ ZeroRevision g st) := by
    intro u xs hvalid hu hmem
    have hurange : u.Within (Set.Ico 0 1) :=
      inRange_iff.1 h st.triple u (by rw [hu]; exact List.mem_singleton_self u)
    rw [inRange_storeAll_iff (h.mono hcs) hmem (by rw [hu]; simp),
      Truth.within_revision_iff hcs hurange hst]
    simp [ZeroRevision, hvalid, hu, and_comm]
  have hadd := add_cases hg st
  rw [addStep, stateAfter]
  generalize (add st).run g = result at hadd ⊢
  -- only a revision computes a truth
  cases hadd with
  | invalid hinvalid => simp [h.mono hcs, ZeroRevision, hinvalid]
  | inserted _ hnew =>
      simp [inRange_insertForms (h.mono hcs) (hst.mono hcs), ZeroRevision, hnew]
  | revised u hvalid hu _ =>
      exact hrevised hvalid hu (List.mem_map_of_mem st.mem_forms_self)
  | interrupted u e done hvalid hu _ _ hself => exact hrevised hvalid hu hself
  | ambiguous _ htwo =>
      have hnone : ∀ u, truthsAt g st.triple ≠ [u] := by
        intro u hu
        rw [hu] at htwo
        simp at htwo
      simp [h.mono hcs, ZeroRevision, hnone]

/-- A statement of an input has positive confidence, so its addition stays in range. -/
theorem inRange_addStep {cs : Set ℚ} (hcs : Set.Ico 0 1 ⊆ cs) {g : DNarsGraph} (hg : g.Closed)
    (h : InRange (Set.Ico 0 1) g) {st : Statement} (hst : st.truth.Within (Set.Ioo 0 1)) :
    InRange cs (addStep g st) := by
  apply (inRange_addStep_iff hcs hg h (Truth.within_ico hst)).2
  rintro ⟨-, hzero, -⟩
  exact Truth.conf_ne_zero hst hzero

/-! ## Conclusions -/

/-- The inputs and the graph have two premises of frequency 0 that the engines compare. -/
def ZeroComparison (g : DNarsGraph) (input : List Statement) : Prop :=
  ∃ i ∈ input, ∃ j ∈ i.allImages, ∃ e ∈ statements g,
    e.copula = .inherit ∧ j.copula = .inherit ∧ e.truth.freq = 0 ∧ j.truth.freq = 0 ∧
      ∃ S P : Term, S ≠ P ∧ validStatement ⟨S, .similar, P, j.truth⟩ = true ∧
        ((e.subj = j.subj ∧ S = j.pred ∧ P = e.pred) ∨ (e.pred = j.pred ∧ S = j.subj ∧ P = e.subj))

/-- The conclusions are in range exactly when no two premises of frequency 0 are compared. -/
theorem conclusions_within_iff {cs : Set ℚ} (hcs : Set.Ico 0 1 ⊆ cs) {g : DNarsGraph}
    (hg : g.Closed) (h : InRange (Set.Ico 0 1) g) {input : List Statement}
    (hinput : ∀ i ∈ input, i.truth.Within (Set.Ico 0 1)) :
    (∀ c ∈ conclusions g input, c.truth.Within cs) ↔ ¬ ZeroComparison g input := by
  constructor
  · rintro hrange ⟨i, hi, j, hj, e, he, hec, hjc, hef, hjf, S, P, hne, hvalid, hends⟩
    -- two frequencies 0 make the engines derive a similarity without a frequency
    have hmem : (⟨S, .similar, P, e.truth.comparison j.truth⟩ : Statement) ∈
        conclusions g input := by
      refine (mem_conclusions_iff_of_closed hg).2 ⟨i, hi, j, hj, e, he, ?_, hne, hvalid⟩
      rcases e with ⟨es, ec, ep, et⟩
      rcases j with ⟨js, jc, jp, jt⟩
      cases hec
      cases hjc
      rcases hends with ⟨hm, rfl, rfl⟩ | ⟨hm, rfl, rfl⟩
      · cases hm
        exact .comparisonOut _ _ _ _ _
      · cases hm
        exact .comparisonIn _ _ _ _ _
    have hfreq := (hrange _ hmem).1
    simp only [Truth.comparison_freq_of_zero hef hjf] at hfreq
    exact Num.not_in_nan hfreq
  · intro hzero c hc
    obtain ⟨i, hi, j, hj, e, he, hrule, hne, hvalid⟩ := (mem_conclusions_iff_of_closed hg).1 hc
    have hte : e.truth.Within (Set.Ico 0 1) := h e he
    have htj : j.truth.Within (Set.Ico 0 1) := by
      rw [Statement.truth_of_mem_allImages hj]
      exact hinput i hi
    apply Truth.Within.mono _ hcs
    cases hrule with
    | deduction => exact Truth.within_deduction hte htj
    | analogy => exact Truth.within_analogy hte htj false
    | induction => exact Truth.within_induction hte htj
    | comparisonOut S M P te tj =>
        apply Truth.within_comparison hte htj
        rintro ⟨hef, hjf⟩
        exact hzero ⟨i, hi, _, hj, _, he, rfl, rfl, hef, hjf, S, P, hne, hvalid,
          Or.inl ⟨rfl, rfl, rfl⟩⟩
    | analogyInvPred => exact Truth.within_analogy hte htj true
    | resemblance => exact Truth.within_resemblance hte htj
    | analogyInvSubj => exact Truth.within_analogy hte htj true
    | abduction => exact Truth.within_abduction hte htj
    | comparisonIn S M P te tj =>
        apply Truth.within_comparison hte htj
        rintro ⟨hef, hjf⟩
        exact hzero ⟨i, hi, _, hj, _, he, rfl, rfl, hef, hjf, S, P, hne, hvalid,
          Or.inr ⟨rfl, rfl, rfl⟩⟩
    | analogySubj => exact Truth.within_analogy hte htj false

/-! ## Runs of `add` and `include` -/

/-- A call of the graph's interface. -/
inductive Call where
  | add (st : Statement)
  | includeInput (input : List Statement)

/-- The statements passed to the call. -/
def Call.inputs : Call → List Statement
  | add st => [st]
  | includeInput input => input

def Call.exec : Call → GraphM Unit
  | add st => discard (StatementAPI.add st)
  | includeInput input => DNars.includeInput input

/-- The graph a call leaves behind. -/
def callStep (g : DNarsGraph) (call : Call) : Option DNarsGraph := some (stateAfter call.exec g)

/-- Whatever the call derives, and the graph after each of its additions, is in range, with
confidences in `cs`. -/
def RangeKept (cs : Set ℚ) (g : DNarsGraph) : Call → Prop
  | .add st => InRange cs (addStep g st)
  | .includeInput input =>
    (∀ c ∈ conclusions g input, c.truth.Within cs) ∧
      Along addNext (fun g st => InRange cs (addStep g st)) g (input ++ conclusions g input)

/-- The call compares no two frequencies 0 and revises no confidence 0 with confidence 0. -/
def ZeroFree (g : DNarsGraph) : Call → Prop
  | .add _ => True
  | .includeInput input =>
    ¬ ZeroComparison g input ∧
      Along addNext (fun g st => ¬ ZeroRevision g st) g (input ++ conclusions g input)

theorem stateAfter_add (g : DNarsGraph) (st : Statement) :
    stateAfter (Call.exec (.add st)) g = addStep g st := by
  rw [Call.exec, addStep, stateAfter, stateAfter]
  cases hrun : (add st).run g with
  | ok r g' => rw [discard_ok hrun]
  | error e g' => rw [discard_error hrun]

/-- When the graph is in range after each addition, it is in range after the sequence. -/
theorem inRange_addSeq {cs : Set ℚ} (sts : List Statement) : ∀ g, InRange cs g →
    Along addNext (fun g st => InRange cs (addStep g st)) g sts →
      InRange cs (stateAfter (addSeq sts) g) := by
  induction sts with
  | nil => exact fun g hg _ => hg
  | cons st sts ih =>
      rintro g - ⟨hst, hrest⟩
      rw [stateAfter_addSeq_cons]
      cases hadd : addNext g st with
      | none => exact hst
      | some g' =>
          rw [addStep_eq_of_addNext hadd] at hst
          -- the next addition starts from the graph this one leaves behind
          exact ih g' hst (hrest g' hadd)

/-- A graph in range with its edges between its vertices. -/
structure Ranged (g : DNarsGraph) : Prop where
  closed : g.Closed
  range : InRange (Set.Ico 0 1) g

theorem ranged_empty : Ranged Multigraph.empty where
  closed := Multigraph.closed_empty
  range st hst := by cases hst

theorem ranged_callStep {g g' : DNarsGraph} {call : Call} (hg : Ranged g)
    (h : RangeKept (Set.Ico 0 1) g call) (hstep : callStep g call = some g') : Ranged g' := by
  obtain rfl := Option.some.inj hstep
  cases call with
  | add st =>
      rw [stateAfter_add]
      exact ⟨closed_addStep hg.closed st, h⟩
  | includeInput input =>
      constructor
      · have hstep : ∀ (g : DNarsGraph) (st : Statement), g.Closed → True → (addStep g st).Closed :=
          fun _ st hg _ => closed_addStep hg st
        exact addSeq_induction hstep _ g hg.closed fun _ _ => trivial
      · exact inRange_addSeq _ g hg.range h.2

section Runs

variable {cs : Set ℚ} (hcs : Set.Ico 0 1 ⊆ cs)

include hcs

/-- Within a sequence of statements in range, staying in range is revising no confidence 0 with
confidence 0. -/
theorem along_addNext_iff {g : DNarsGraph} (hg : Ranged g) {sts : List Statement}
    (hsts : ∀ st ∈ sts, st.truth.Within (Set.Ico 0 1)) :
    Along addNext (fun g st => InRange cs (addStep g st)) g sts ↔
      Along addNext (fun g st => ¬ ZeroRevision g st) g sts := by
  have hiff : ∀ (g : DNarsGraph) (st : Statement), Ranged g → st.truth.Within (Set.Ico 0 1) →
      (InRange cs (addStep g st) ↔ ¬ ZeroRevision g st) :=
    fun g st hg hst => inRange_addStep_iff hcs hg.closed hg.range hst
  have hkeep : ∀ (g : DNarsGraph) (st : Statement) (g' : DNarsGraph), Ranged g →
      st.truth.Within (Set.Ico 0 1) → InRange cs (addStep g st) → addNext g st = some g' →
      Ranged g' := by
    intro g st g' hg hst hrange hnext
    have hzero : ¬ ZeroRevision g st := (hiff g st hg hst).1 hrange
    rw [← addStep_eq_of_addNext hnext]
    exact ⟨closed_addStep hg.closed st,
      (inRange_addStep_iff subset_rfl hg.closed hg.range hst).2 hzero⟩
  exact along_iff hiff hkeep sts g hg hsts

theorem rangeKept_iff {g : DNarsGraph} (hg : Ranged g) {call : Call}
    (hcall : ∀ st ∈ call.inputs, st.truth.Within (Set.Ioo 0 1)) :
    RangeKept cs g call ↔ ZeroFree g call := by
  cases call with
  | add st =>
      have hst : st.truth.Within (Set.Ioo 0 1) := hcall st (List.mem_singleton_self st)
      exact iff_true_intro (inRange_addStep hcs hg.closed hg.range hst)
  | includeInput input =>
      have hinput : ∀ i ∈ input, i.truth.Within (Set.Ico 0 1) :=
        fun i hi => Truth.within_ico (hcall i hi)
      rw [RangeKept, ZeroFree, conclusions_within_iff hcs hg.closed hg.range hinput]
      apply and_congr_right
      intro hzero
      apply along_addNext_iff hcs hg
      intro st hst
      -- `include` adds its inputs and then what it derived from them
      rcases List.mem_append.1 hst with hst | hst
      · exact hinput st hst
      · exact (conclusions_within_iff subset_rfl hg.closed hg.range hinput).2 hzero st hst

end Runs

/-- Truth values stay in range exactly as long as no two frequencies 0 are compared and no
confidence 0 is revised with confidence 0. -/
theorem range_kept_iff {t u : Truth} (ht : t.Within (Set.Ioo 0 1)) (hu : u.Within (Set.Ioo 0 1))
    {calls : List Call}
    (hcalls : ∀ call ∈ calls, ∀ st ∈ call.inputs, st.truth.Within (Set.Ioo 0 1)) :
    ((∀ f ∈ Truth.functions, (f t u).Within (Set.Ico 0 1)) ↔ ¬ (t.freq = 0 ∧ u.freq = 0)) ∧
      (Along callStep (RangeKept (Set.Icc 0 1)) Multigraph.empty calls ↔
        Along callStep ZeroFree Multigraph.empty calls) := by
  constructor
  · exact Truth.within_functions_iff ht hu
  · have hiff : ∀ (g : DNarsGraph) (call : Call), Ranged g →
        (∀ st ∈ call.inputs, st.truth.Within (Set.Ioo 0 1)) →
        (RangeKept (Set.Icc 0 1) g call ↔ ZeroFree g call) :=
      fun g call hg hcall => rangeKept_iff Set.Ico_subset_Icc_self hg hcall
    apply along_iff hiff _ calls _ ranged_empty hcalls
    intro g call g' hg hcall hrange hstep
    -- what is in the closed range is in the half-open one, which the next call starts from
    have hzero : ZeroFree g call := (hiff g call hg hcall).1 hrange
    exact ranged_callStep hg ((rangeKept_iff subset_rfl hg hcall).2 hzero) hstep

/-- `a -> b (0.00,0.90)` -/
def notAB : Statement := ⟨.atomic (atom "a"), .inherit, .atomic (atom "b"), ⟨.val 0, .val (9 / 10)⟩⟩

/-- `a -> c (0.00,0.90)` -/
def notAC : Statement := ⟨.atomic (atom "a"), .inherit, .atomic (atom "c"), ⟨.val 0, .val (9 / 10)⟩⟩

theorem notAB_within : notAB.truth.Within (Set.Ioo 0 1) :=
  Truth.within_val.2 ⟨by norm_num, by norm_num⟩

/-- Comparing `a -> b (0.00,0.90)` with `a -> c (0.00,0.90)` divides 0 by 0, also in a run. -/
theorem not_range_kept_notAB :
    ¬ ((∀ t u : Truth, t.Within (Set.Ioo 0 1) → u.Within (Set.Ioo 0 1) →
        ∀ f ∈ Truth.functions, (f t u).Within (Set.Ico 0 1)) ∨
      ∀ calls : List Call, (∀ call ∈ calls, ∀ st ∈ call.inputs, st.truth.Within (Set.Ioo 0 1)) →
        Along callStep (RangeKept (Set.Icc 0 1)) Multigraph.empty calls) := by
  rintro (hpairs | hruns)
  · have hfreq := (hpairs notAB.truth notAB.truth notAB_within notAB_within Truth.comparison
      (by simp [Truth.functions])).1
    simp only [Truth.comparison_freq_of_zero (t := notAB.truth) (u := notAB.truth) rfl rfl] at hfreq
    exact Num.not_in_nan hfreq
  · have hrun := hruns [.add notAB, .includeInput [notAC]] (by
      intro call hcall st hst
      rcases List.mem_pair.1 hcall with rfl | rfl <;> rw [List.mem_singleton.1 hst] <;>
        exact notAB_within)
    have hconcl := (hrun.2 _ rfl).1.1
      ⟨.atomic (atom "c"), .similar, .atomic (atom "b"), ⟨.nan, .val 0⟩⟩ (by decide +kernel)
    exact Num.not_in_nan hconcl.1

/-- Additions alone never leave the range. -/
theorem range_kept_notAB :
    Along callStep (RangeKept (Set.Icc 0 1)) Multigraph.empty [.add notAB, .add notAB] := by
  have hcalls : ∀ call ∈ [Call.add notAB, .add notAB], ∀ st ∈ call.inputs,
      st.truth.Within (Set.Ioo 0 1) := by
    intro call hcall st hst
    rcases List.mem_pair.1 hcall with rfl | rfl <;> rw [List.mem_singleton.1 hst] <;>
      exact notAB_within
  exact (range_kept_iff notAB_within notAB_within hcalls).2.2
    ⟨trivial, fun _ _ => ⟨trivial, fun _ _ => trivial⟩⟩

end Siebog.DNars
