import Siebog.DNars.Graph.Uniqueness
import Siebog.DNars.Inference.TruthRange

/-!
# Which stored statements are valid

`add` skips a statement that is not valid, and then inserts the other forms of a valid one without
asking again. All images of a valid inheritance are valid. The opposite of a valid similarity need
not be: an extensional image may stand on the right of `~` and an intensional one on the left, but
not the other way round (`OneSided`).

`valid_kept_iff` says that this is the only way an invalid statement gets into the graph, over runs
of `add` and `include`.
-/

set_option autoImplicit false

namespace Siebog.DNars

open Siebog.Lib StatementAPI

/-! ## Forms of a valid statement -/

/-- A valid similarity with an invalid opposite. -/
def OneSided (st : Statement) : Prop :=
  st.copula = .similar ∧ validStatement st = true ∧ validStatement st.opposite = false

/-- All forms of a valid statement are valid unless it is one-sided. -/
theorem forms_valid_iff {st : Statement} (h : validStatement st = true) :
    (∀ x ∈ st.forms, validStatement x = true) ↔ ¬ OneSided st := by
  cases hc : st.copula with
  | similar =>
      rw [Statement.forms_of_similar hc]
      simp [OneSided, hc, h]
  | inherit =>
      rw [Statement.forms_of_inherit hc]
      have hnot : ¬ OneSided st := by
        rintro ⟨hsim, -⟩
        rw [hc] at hsim
        cases hsim
      exact ⟨fun _ => hnot, fun _ x hx => validStatement_of_mem_allImages h hx⟩

/-- What a one-sided similarity looks like: an extensional image as its predicate, or an intensional
one as its subject. -/
theorem oneSided_iff (st : Statement) : OneSided st ↔
    st.copula = .similar ∧ validStatement st = true ∧
      ((∃ comps, st.pred = .compound .extImage comps) ∨
        ∃ comps, st.subj = .compound .intImage comps) := by
  rcases st with ⟨s, c, p, t⟩
  rw [OneSided]
  apply and_congr_right
  intro hc
  have hc : c = .similar := hc
  subst hc
  apply and_congr_right
  intro _
  rcases s with a | ⟨_ | _ | _, comps⟩ <;> rcases p with b | ⟨_ | _ | _, comps'⟩ <;>
    simp [Statement.opposite, validStatement]

/-! ## Stored triples -/

/-- Every stored statement is valid. -/
def AllValid (g : DNarsGraph) : Prop := ∀ st ∈ statements g, validStatement st = true

theorem allValid_iff {g : DNarsGraph} :
    AllValid g ↔ ∀ x : Triple, truthsAt g x ≠ [] → validStatement (x.withTruth default) = true := by
  constructor
  · intro h x hx
    obtain ⟨t, ht⟩ := List.exists_mem_of_ne_nil _ hx
    exact h (x.withTruth t) (mem_statements.2 ht)
  · intro h st hst
    exact h st.triple (List.ne_nil_of_mem (mem_statements.1 hst))

/-- What has an edge after an addition: what had one before, and the forms of a new statement. -/
theorem truthsAt_addStep_ne_nil_iff {g : DNarsGraph} (hg : g.Closed) (st : Statement) (x : Triple) :
    truthsAt (addStep g st) x ≠ [] ↔ truthsAt g x ≠ [] ∨
      (validStatement st = true ∧ truthsAt g st.triple = [] ∧ x ∈ st.triple.forms) := by
  have hlen := congrFun (length_truthsAt_addStep hg st) x
  rw [← List.length_pos_iff, hlen, ← List.length_pos_iff, ← List.length_eq_zero_iff]
  by_cases hvalid : validStatement st = true
  · rw [if_pos hvalid, occupy]
    split
    · rename_i hnew
      rw [Nat.add_pos_iff_pos_or_pos, List.count_pos_iff]
      simp only [hvalid, hnew, true_and]
    · rename_i hold
      simp only [hold, false_and, and_false, or_false]
  · rw [if_neg hvalid]
    exact ⟨.inl, fun h => h.resolve_right fun hnew => hvalid hnew.1⟩

theorem truthsAt_addStep_ne_nil {g : DNarsGraph} (hg : g.Closed) (st : Statement) {x : Triple}
    (hx : truthsAt g x ≠ []) : truthsAt (addStep g st) x ≠ [] :=
  (truthsAt_addStep_ne_nil_iff hg st x).2 (.inl hx)

/-- No edge is lost in a sequence of additions. -/
theorem truthsAt_addSeq_ne_nil {g : DNarsGraph} (hg : g.Closed) (sts : List Statement) {x : Triple}
    (hx : truthsAt g x ≠ []) : truthsAt (stateAfter (addSeq sts) g) x ≠ [] := by
  have hstep : ∀ (g : DNarsGraph) (st : Statement), (g.Closed ∧ truthsAt g x ≠ []) → True →
      (addStep g st).Closed ∧ truthsAt (addStep g st) x ≠ [] :=
    fun g st h _ => ⟨closed_addStep h.1 st, truthsAt_addStep_ne_nil h.1 st h.2⟩
  exact (addSeq_induction hstep sts g ⟨hg, hx⟩ fun _ _ => trivial).2

/-- The graph holds valid statements only, and every similarity in both directions. -/
structure Sound (g : DNarsGraph) : Prop where
  closed : g.Closed
  mirror : ∀ st : Statement, st.copula = .similar → truthsAt g st.triple ≠ [] →
    truthsAt g st.opposite.triple ≠ []
  valid : AllValid g

theorem sound_empty : Sound Multigraph.empty where
  closed := Multigraph.closed_empty
  mirror st _ hst := (hst (truthsAt_empty _)).elim
  valid st hst := by cases hst

theorem mirror_addStep {g : DNarsGraph} (hg : Sound g) (added st : Statement)
    (hc : st.copula = .similar) (hst : truthsAt (addStep g added) st.triple ≠ []) :
    truthsAt (addStep g added) st.opposite.triple ≠ [] := by
  rw [truthsAt_addStep_ne_nil_iff hg.closed] at hst ⊢
  rcases hst with hold | ⟨hvalid, hnew, hform⟩
  · exact .inl (hg.mirror st hc hold)
  · refine .inr ⟨hvalid, hnew, ?_⟩
    -- a form of `added` that is a similarity is `added` or its opposite
    have hmem := Triple.withTruth_mem_forms hform default
    have hac : (added.triple.withTruth default).copula = .similar := by
      rw [← Statement.copula_of_mem_forms hmem]
      exact hc
    have hopp : st.opposite.withTruth default ∈ (st.triple.withTruth default).forms := by
      have hsim : (st.triple.withTruth default).copula = .similar := hc
      rw [Statement.forms_of_similar hsim]
      exact List.mem_cons_of_mem _ List.mem_cons_self
    have hperm := Statement.forms_perm_of_similar hac hmem
    have hopp' : st.opposite.withTruth default ∈ (added.triple.withTruth default).forms :=
      hperm.mem_iff.1 hopp
    have htriple : (st.opposite.withTruth default).triple ∈
        (added.triple.withTruth default).triple.forms := Statement.triple_mem_forms hopp'
    exact htriple

/-- An addition to a sound graph keeps all statements valid unless it adds a one-sided one. -/
theorem allValid_addStep_iff {g : DNarsGraph} (hg : Sound g) (st : Statement) :
    AllValid (addStep g st) ↔ ¬ OneSided st := by
  constructor
  · intro hall honesided
    obtain ⟨hc, hvalid, hopp⟩ := honesided
    have hstored : truthsAt (addStep g st) st.triple ≠ [] := by
      rw [truthsAt_addStep_ne_nil_iff hg.closed]
      by_cases hnew : truthsAt g st.triple = []
      · exact .inr ⟨hvalid, hnew, st.triple.mem_forms_self⟩
      · exact .inl hnew
    -- its opposite is stored with it
    have hmirror := mirror_addStep hg st st hc hstored
    have hoppvalid : validStatement st.opposite = true :=
      allValid_iff.1 hall st.opposite.triple hmirror
    rw [hopp] at hoppvalid
    cases hoppvalid
  · intro honesided
    rw [allValid_iff]
    intro x hx
    rcases (truthsAt_addStep_ne_nil_iff hg.closed st x).1 hx with hold | ⟨hvalid, -, hform⟩
    · exact allValid_iff.1 hg.valid x hold
    · have hmem : x.withTruth st.truth ∈ st.forms := Triple.withTruth_mem_forms hform st.truth
      have hvalidx : validStatement (x.withTruth st.truth) = true :=
        (forms_valid_iff hvalid).2 honesided _ hmem
      exact hvalidx

theorem Sound.addStep {g : DNarsGraph} (hg : Sound g) {st : Statement} (hst : ¬ OneSided st) :
    Sound (addStep g st) where
  closed := closed_addStep hg.closed st
  mirror := mirror_addStep hg st
  valid := (allValid_addStep_iff hg st).2 hst

/-! ## Runs -/

/-- After a sequence of additions all statements are valid exactly when none of the statements that
were added is one-sided. -/
theorem allValid_addSeq_iff (sts : List Statement) : ∀ g, Sound g →
    (AllValid (stateAfter (addSeq sts) g) ↔ Along addNext (fun _ st => ¬ OneSided st) g sts) := by
  induction sts with
  | nil => exact fun g hg => iff_of_true hg.valid trivial
  | cons st sts ih =>
      intro g hg
      have hone := allValid_addStep_iff hg st
      rw [stateAfter_addSeq_cons, Along]
      cases hadd : addNext g st with
      | none =>
          -- the exception ends the sequence
          rw [hone]
          simp
      | some g' =>
          have hg' : addStep g st = g' := addStep_eq_of_addNext hadd
          simp only [Option.some.injEq, forall_eq']
          constructor
          · intro hall
            -- what the first addition stored is still there at the end
            have hfirst : AllValid (addStep g st) := by
              rw [allValid_iff] at hall ⊢
              intro x hx
              rw [hg'] at hx
              have hclosed : g'.Closed := hg' ▸ closed_addStep hg.closed st
              exact hall x (truthsAt_addSeq_ne_nil hclosed sts hx)
            have hst := hone.1 hfirst
            exact ⟨hst, (ih g' (hg' ▸ hg.addStep hst)).1 hall⟩
          · rintro ⟨hst, hrest⟩
            exact (ih g' (hg' ▸ hg.addStep hst)).2 hrest

/-- Along a sequence without one-sided statements the graph stays sound. -/
theorem sound_addSeq (sts : List Statement) : ∀ g, Sound g →
    Along addNext (fun _ st => ¬ OneSided st) g sts → Sound (stateAfter (addSeq sts) g) := by
  induction sts with
  | nil => exact fun g hg _ => hg
  | cons st sts ih =>
      rintro g hg ⟨hst, hrest⟩
      rw [stateAfter_addSeq_cons]
      cases hadd : addNext g st with
      | none => exact hg.addStep hst
      | some g' =>
          have hg' : addStep g st = g' := addStep_eq_of_addNext hadd
          exact ih g' (hg' ▸ hg.addStep hst) (hrest g' hadd)

/-- What is told without a similarity that has an extensional image as its predicate or an
intensional one as its subject leaves valid statements only. -/
theorem allValid_of_told {sts : List Statement}
    (h : ∀ st ∈ sts, st.copula = .similar →
      (∀ comps, st.pred ≠ .compound .extImage comps) ∧
        ∀ comps, st.subj ≠ .compound .intImage comps) :
    AllValid (stateAfter (addSeq sts) Multigraph.empty) := by
  have hnot : ∀ st ∈ sts, ¬ OneSided st := by
    intro st hst honesided
    obtain ⟨hc, -, himage⟩ := (oneSided_iff st).1 honesided
    obtain ⟨hpred, hsubj⟩ := h st hst hc
    rcases himage with ⟨comps, heq⟩ | ⟨comps, heq⟩
    · exact hpred comps heq
    · exact hsubj comps heq
  exact (sound_addSeq sts _ sound_empty (along_of_mem _ sts hnot)).valid

/-- All statements are valid after the call. -/
def ValidKept (g : DNarsGraph) (call : Call) : Prop := AllValid (stateAfter call.exec g)

/-- The call adds no one-sided statement. -/
def TwoSided (g : DNarsGraph) : Call → Prop
  | .add st => ¬ OneSided st
  | .includeInput input =>
    Along addNext (fun _ st => ¬ OneSided st) g (input ++ conclusions g input)

theorem validKept_iff {g : DNarsGraph} (hg : Sound g) (call : Call) :
    ValidKept g call ↔ TwoSided g call := by
  cases call with
  | add st =>
      rw [ValidKept, stateAfter_add]
      exact allValid_addStep_iff hg st
  | includeInput input => exact allValid_addSeq_iff _ g hg

theorem sound_callStep {g g' : DNarsGraph} (hg : Sound g) {call : Call} (h : TwoSided g call)
    (hstep : callStep g call = some g') : Sound g' := by
  obtain rfl := Option.some.inj hstep
  cases call with
  | add st =>
      rw [stateAfter_add]
      exact hg.addStep h
  | includeInput input => exact sound_addSeq _ g hg h

/-- Over every run of `add` and `include`, the graph holds valid statements only exactly as long as
no one-sided statement is added, as an input or as a conclusion. -/
theorem valid_kept_iff (calls : List Call) :
    Along callStep ValidKept Multigraph.empty calls ↔
      Along callStep TwoSided Multigraph.empty calls := by
  have hiff : ∀ (g : DNarsGraph) (call : Call), Sound g → True →
      (ValidKept g call ↔ TwoSided g call) := fun g call hg _ => validKept_iff hg call
  apply along_iff hiff _ calls _ sound_empty fun _ _ => trivial
  intro g call g' hg _ hvalid hstep
  exact sound_callStep hg ((validKept_iff hg call).1 hvalid) hstep

/-- Adding `eaten ~ (/ eat cat *) (1.0,0.9)` stores `(/ eat cat *) ~ eaten` as well. -/
theorem not_valid_kept_eaten :
    ¬ ∀ calls : List Call,
      (∀ call ∈ calls, ∀ st ∈ call.inputs, ∃ s, StatementParser.parse s = some st) →
        Along callStep ValidKept Multigraph.empty calls := by
  intro h
  let eaten : Statement := ⟨.atomic (atom "eaten"), .similar,
    .compound .extImage [atom "eat", atom "cat", .placeholder], ⟨.val 1, .val (9 / 10)⟩⟩
  have hparse : StatementParser.parse "eaten ~ (/ eat cat *) (1.0,0.9)" = some eaten := by
    decide +kernel
  have hkept := (h [.add eaten] (by
    intro call hcall st hst
    rw [List.mem_singleton.1 hcall] at hst
    rw [List.mem_singleton.1 hst]
    exact ⟨_, hparse⟩)).1
  have honesided : OneSided eaten := ⟨rfl, rfl, rfl⟩
  exact (validKept_iff sound_empty (.add eaten)).1 hkept honesided

end Siebog.DNars
