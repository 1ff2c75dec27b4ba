import Siebog.Interaction.ContractNet

/-!
# The outcome of a contract-net round

A round ends in `success` or in `failure`, after which the status is 3, and nothing more should
happen until the next call for proposals. The delayed messages respect that, because they look at
the status. The handlers of answers do not: `handleDone`, `handleFailure`, `handlePropose` and
`handleRefuse` run in every status.

`one_outcome_iff` says which messages must stay away from a finished round, and `two_outcomes` runs
into one of them: a contractor that was late is replaced, and then both answer.
-/

set_option autoImplicit false

namespace Siebog.Interaction

open Siebog.Lib

variable {ι : Type} [DecidableEq ι]

namespace Answer

/-- The callbacks that end a round. -/
def IsOutcome : Answer ι → Prop
  | .success _ => True
  | .failure => True
  | _ => False

/-- What may happen at most once at the end of a round, or not at all after it. -/
def Binds : Answer ι → Prop
  | .acceptProposal _ => True
  | o => o.IsOutcome

/-- The start of a round. -/
def IsCall : Answer ι → Prop
  | .callForProposal _ => True
  | _ => False

end Answer

open Answer

/-- After `success` or `failure`, no further `success` or `failure` and no acceptance before the
next call for proposals. -/
def OneOutcome (h : List (Answer ι)) : Prop := Between IsOutcome Binds IsCall h

/-- The round is over: it had its outcome and the next one has not been called. -/
def Over (h : List (Answer ι)) : Prop := Open IsOutcome IsCall h

section Histories

variable (h : List (Answer ι))

omit [DecidableEq ι]

theorem over_call (receivers : List ι) : ¬ Over (h ++ [.callForProposal receivers, .replyBy]) := by
  rw [Over, List.append_cons, open_snoc, open_snoc]
  simp [IsOutcome, IsCall]

theorem oneOutcome_call (receivers : List ι) :
    OneOutcome (h ++ [.callForProposal receivers, .replyBy]) ↔ OneOutcome h := by
  rw [OneOutcome, List.append_cons, between_snoc, between_snoc]
  simp [Binds, IsOutcome, OneOutcome]

theorem over_accept (p : Proposal ι) (a : ι) (n : ℕ) :
    Over (h ++ [.acceptProposal p, .waiting a n]) ↔ Over h := by
  rw [Over, List.append_cons, open_snoc, open_snoc]
  simp [IsOutcome, IsCall, Over]

theorem oneOutcome_accept (p : Proposal ι) (a : ι) (n : ℕ) :
    OneOutcome (h ++ [.acceptProposal p, .waiting a n]) ↔ OneOutcome h ∧ ¬ Over h := by
  rw [OneOutcome, List.append_cons, between_snoc, between_snoc]
  simp [Binds, IsOutcome, OneOutcome, Over]

theorem over_failure : Over (h ++ [.failure]) := open_snoc.2 (.inl trivial)

theorem oneOutcome_failure : OneOutcome (h ++ [.failure]) ↔ OneOutcome h ∧ ¬ Over h := by
  rw [OneOutcome, between_snoc]
  simp [Binds, IsOutcome, OneOutcome, Over]

theorem over_done (receivers : List ι) (result : Result) :
    Over (h ++ [.rejectProposal receivers, .success result]) := by
  rw [Over, List.append_cons]
  exact open_snoc.2 (.inl trivial)

theorem oneOutcome_done (receivers : List ι) (result : Result) :
    OneOutcome (h ++ [.rejectProposal receivers, .success result]) ↔ OneOutcome h ∧ ¬ Over h := by
  rw [OneOutcome, List.append_cons, between_snoc, between_snoc, open_snoc]
  simp [Binds, IsOutcome, IsCall, OneOutcome, Over]

end Histories

section Rounds

namespace Initiator

/-- In a round that is over, no message arrives whose handler would act: no `INFORM`; no `FAILURE`
unless exactly one proposal is left; no `PROPOSE` that brings the counter to zero; and no `REFUSE`
that does so while a proposal is left. -/
def Quiet (s : Initiator ι) (d : Delivery ι) : Prop :=
  s.status = 3 → match d.msg with
    | .inform _ => False
    | .failure => s.proposals.length = 1
    | .propose _ => s.pendingProposals ≠ 1
    | .refuse => s.pendingProposals = 1 → s.proposals = []
    | _ => True

instance (s : Initiator ι) : DecidablePred s.Quiet
  | ⟨_, .inform _⟩ => inferInstanceAs (Decidable (s.status = 3 → False))
  | ⟨_, .failure⟩ => inferInstanceAs (Decidable (s.status = 3 → s.proposals.length = 1))
  | ⟨_, .propose _⟩ => inferInstanceAs (Decidable (s.status = 3 → s.pendingProposals ≠ 1))
  | ⟨_, .refuse⟩ =>
      inferInstanceAs (Decidable (s.status = 3 → s.pendingProposals = 1 → s.proposals = []))
  | ⟨_, .request _⟩ | ⟨_, .callForProposal⟩ | ⟨_, .replyBy⟩ | ⟨_, .waiting _⟩ =>
      .isTrue fun _ => trivial

/-- The status is 3 exactly in rounds that are over, and then no contractor is awaited. -/
def Tracks (h : List (Answer ι)) (s : Initiator ι) : Prop :=
  (Over h ↔ s.status = 3) ∧ (s.status = 3 → s.bestProposal = none)

/-- What the history and the invariant make of an answer, given the condition `Q` on the state
before: the history stays good exactly under `Q`, and under `Q` the invariant is kept. -/
def Decides (h : List (Answer ι)) (r : Initiator ι × List (Answer ι)) (Q : Prop) : Prop :=
  (OneOutcome (h ++ r.2) ↔ OneOutcome h ∧ Q) ∧ (Q → Tracks (h ++ r.2) r.1)

omit [DecidableEq ι] in
theorem Decides.congr {h : List (Answer ι)} {r : Initiator ι × List (Answer ι)} {Q Q' : Prop}
    (hd : Decides h r Q) (hiff : Q ↔ Q') : Decides h r Q' := by
  rw [← hiff]
  exact hd

omit [DecidableEq ι] in
/-- Nothing is answered, and the status stays. -/
theorem decides_nil {h : List (Answer ι)} {s s' : Initiator ι} (hs : Tracks h s)
    (hstatus : s'.status = s.status) (hbest : s'.status = 3 → s'.bestProposal = none) :
    Decides h (s', []) True := by
  refine ⟨by simp, fun _ => ⟨?_, hbest⟩⟩
  rw [List.append_nil, hs.1, hstatus]

theorem acceptProposal_decides (C : Chooser ι) {h : List (Answer ι)} {s : Initiator ι}
    (hover : Over h ↔ s.status = 3) :
    Decides h (s.acceptProposal C) (s.status = 3 → s.proposals = []) := by
  rcases s.acceptProposal_cases C with ⟨hnil, heq⟩ | ⟨p, hp, heq⟩
  · rw [heq]
    exact ⟨by simp [hnil], fun _ => ⟨by simpa using hover, fun _ => rfl⟩⟩
  · have hne : s.proposals ≠ [] := List.ne_nil_of_mem hp
    have hQ : (s.status = 3 → s.proposals = []) ↔ ¬ Over h := by
      rw [hover]
      exact ⟨fun hq hs => hne (hq hs), fun hq hs => absurd hs hq⟩
    rw [heq, hQ]
    have h2 : ¬ 2 = 3 := by decide
    refine ⟨oneOutcome_accept h p _ _, fun hq => ⟨?_, fun h0 => absurd h0 h2⟩⟩
    rw [over_accept]
    exact ⟨fun ho => absurd ho hq, fun h0 => absurd h0 h2⟩

theorem handleFailure_decides (C : Chooser ι) {h : List (Answer ι)} {s : Initiator ι}
    (hover : Over h ↔ s.status = 3) :
    Decides h (s.handleFailure C) (s.status = 3 → s.proposals.length = 1) := by
  rcases s.handleFailure_cases C with ⟨hnil, heq⟩ | ⟨p, hp, heq⟩
  · have hQ : (s.status = 3 → s.proposals.length = 1) ↔ ¬ Over h := by
      rw [hover, hnil]
      exact ⟨fun hq hs => Nat.zero_ne_one (hq hs), fun hq hs => absurd hs hq⟩
    rw [heq, hQ]
    exact ⟨oneOutcome_failure h, fun _ => ⟨⟨fun _ => rfl, fun _ => over_failure h⟩, fun _ => rfl⟩⟩
  · rw [heq]
    refine Decides.congr (acceptProposal_decides C (s := ⟨_, _, _, _, s.status⟩) hover) ?_
    -- one proposal is taken out, so the list is empty afterwards if it had one element
    have hlen := List.length_erase_of_mem hp
    have hpos := List.length_pos_of_mem hp
    refine imp_congr_right fun _ => ?_
    rw [← List.length_eq_zero_iff, hlen]
    omega

/-- An answer that has been counted: with the last one a proposal is accepted. -/
theorem last_answer_decides (C : Chooser ι) {h : List (Answer ι)} {s s' : Initiator ι}
    (hs : Tracks h s) (hstatus : s'.status = s.status) (hbest : s'.bestProposal = s.bestProposal)
    (hpending : s'.pendingProposals = s.pendingProposals - 1) :
    Decides h (if s'.pendingProposals = 0 then s'.acceptProposal C else (s', []))
      (s.status = 3 → s.pendingProposals = 1 → s'.proposals = []) := by
  by_cases hzero : s'.pendingProposals = 0
  · have hone : s.pendingProposals = 1 := by omega
    have hover : Over h ↔ s'.status = 3 := by rw [hstatus, hs.1]
    rw [if_pos hzero]
    apply (acceptProposal_decides C hover).congr
    simp [hstatus, hone]
  · have hone : s.pendingProposals ≠ 1 := by omega
    rw [if_neg hzero]
    apply (decides_nil hs hstatus _).congr
    · simp [hone]
    · rw [hstatus, hbest]
      exact hs.2

/-- One message: the history stays good exactly if the message is quiet, and then the status goes
on telling whether the round is over. -/
theorem onMessage_decides {h : List (Answer ι)} {s : Initiator ι} (hs : Tracks h s)
    (d : Delivery ι) : Decides h (s.onMessage d) (s.Quiet d) := by
  obtain ⟨C, msg⟩ := d
  cases msg with
  | request participants =>
      have h03 : ¬ 0 = 3 := by decide
      refine ⟨?_, fun _ => ⟨?_, fun h0 => absurd h0 h03⟩⟩
      · show OneOutcome (h ++ [.callForProposal participants, .replyBy]) ↔ _
        rw [oneOutcome_call]
        simp [Quiet]
      · exact ⟨fun ho => absurd ho (over_call h participants), fun h0 => absurd h0 h03⟩
  | propose p =>
      show Decides h (s.handlePropose C p) (s.status = 3 → s.pendingProposals ≠ 1)
      have hlast : Decides h (s.handlePropose C p)
          (s.status = 3 → s.pendingProposals = 1 → s.proposals ++ [p] = []) :=
        last_answer_decides C hs rfl rfl rfl
      -- the new proposal is in the list
      exact hlast.congr (by simp)
  | refuse =>
      show Decides h (s.handleRefuse C) (s.status = 3 → s.pendingProposals = 1 → s.proposals = [])
      exact last_answer_decides C hs rfl rfl rfl
  | inform result =>
      have hQ : s.Quiet ⟨C, .inform result⟩ ↔ ¬ Over h := by
        rw [hs.1]
        exact Iff.rfl
      rw [hQ]
      refine ⟨oneOutcome_done h _ result, fun _ => ⟨⟨fun _ => rfl, fun _ => ?_⟩, fun _ => rfl⟩⟩
      exact over_done h _ result
  | failure => exact handleFailure_decides C hs.1
  | callForProposal =>
      exact (decides_nil hs rfl hs.2).congr (by simp [Quiet])
  | replyBy =>
      have hQ : s.Quiet ⟨C, .replyBy⟩ ↔ True := by simp [Quiet]
      rw [hQ]
      by_cases hlow : s.status < 1
      · have heq : s.onMessage ⟨C, .replyBy⟩ = acceptProposal C { s with pendingProposals := 0 } :=
          if_pos hlow
        rw [heq]
        refine Decides.congr (acceptProposal_decides C hs.1) ⟨fun _ => trivial, fun _ h3 => ?_⟩
        have h3 : s.status = 3 := h3
        omega
      · have heq : s.onMessage ⟨C, .replyBy⟩ = (s, []) := if_neg hlow
        rw [heq]
        exact decides_nil hs rfl hs.2
  | waiting a =>
      have hQ : s.Quiet ⟨C, .waiting a⟩ ↔ True := by simp [Quiet]
      rw [hQ]
      by_cases haw : s.Awaits a
      · have heq : s.onMessage ⟨C, .waiting a⟩ = s.handleFailure C := if_pos haw
        rw [heq]
        refine (handleFailure_decides C hs.1).congr ⟨fun _ => trivial, fun _ h3 => ?_⟩
        -- a round that is over awaits nobody
        obtain ⟨-, p, hp, -⟩ := haw
        rw [hs.2 h3] at hp
        cases hp
      · have heq : s.onMessage ⟨C, .waiting a⟩ = (s, []) := if_neg haw
        rw [heq]
        exact decides_nil hs rfl hs.2

end Initiator

/-- Over whole runs, any number of rounds and any order of messages: every round has at most one
outcome, and no acceptance is sent after it, exactly when all messages of finished rounds are
quiet. -/
theorem one_outcome_iff (ds : List (Delivery ι)) (s : Initiator ι) (h : List (Answer ι))
    (hrun : play Initiator.step (.new ι) ds = some (s, h)) :
    OneOutcome h ↔ Along (next Initiator.step) Initiator.Quiet (.new ι) ds := by
  have hnew : Initiator.Tracks [] (Initiator.new ι) :=
    ⟨⟨fun ho => (not_open_nil ho).elim, fun h0 => absurd h0 (by simp [Initiator.new])⟩,
      fun _ => rfl⟩
  have hdec : OneOutcome ([] ++ h) ↔
      OneOutcome ([] : List (Answer ι)) ∧
        Along (next Initiator.step) Initiator.Quiet (.new ι) ds := by
    refine between_iff_along Initiator.Quiet Initiator.Tracks (fun h s d s' out hs hstep => ?_)
      (fun h s d s' out hs hq hstep => ?_) ds [] _ s h hnew hrun
    · have hd := Initiator.onMessage_decides hs d
      rw [Option.some.inj hstep] at hd
      exact hd.1
    · have hd := Initiator.onMessage_decides hs d
      rw [Option.some.inj hstep] at hd
      exact hd.2 hq
  exact hdec.trans ⟨fun hb => hb.2, fun ha => ⟨between_nil, ha⟩⟩

/-- Two bidders; the chosen one is done, its delayed `waiting` is harmless, and the next round is
called. -/
theorem one_outcome_iff_two :
    ∃ s h, play Initiator.step (.new ℕ) (([.request [0, 1, 2], .propose ⟨1, 1, "5", 9, 1⟩,
        .propose ⟨2, 2, "7", 9, 1⟩, .inform ⟨"45"⟩, .waiting 1, .request [0, 1]]).map
          (Delivery.mk .first)) = some (s, h) ∧ OneOutcome h := by
  have h : play Initiator.step (.new ℕ) (([.request [0, 1, 2], .propose ⟨1, 1, "5", 9, 1⟩,
      .propose ⟨2, 2, "7", 9, 1⟩, .inform ⟨"45"⟩, .waiting 1, .request [0, 1]]).map
        (Delivery.mk .first)) =
      some (⟨1, none, [], [⟨2, 2, "7", 9, 1⟩], 0⟩, [.callForProposal [0, 1, 2], .replyBy,
        .acceptProposal ⟨1, 1, "5", 9, 1⟩, .waiting 1 9, .rejectProposal [2], .success ⟨"45"⟩,
        .callForProposal [0, 1], .replyBy]) := by rfl
  exact ⟨_, _, h, (one_outcome_iff _ _ _ h).2 (by decide)⟩

/-- The first contractor is late, the task is awarded again, and then both contractors answer. -/
def lateRun : List (Delivery ℕ) :=
  ([.request [0, 1, 2, 3], .propose ⟨1, 1, "5", 9, 1⟩, .propose ⟨2, 2, "7", 9, 1⟩,
    .propose ⟨3, 3, "8", 9, 1⟩, .waiting 1, .inform ⟨"45"⟩, .inform ⟨"45"⟩]).map
      (Delivery.mk .first)

/-- The round of `lateRun` calls `success` twice. -/
theorem two_outcomes :
    ¬ ∀ (ds : List (Delivery ℕ)) (s : Initiator ℕ) (h : List (Answer ℕ)),
      play Initiator.step (.new ℕ) ds = some (s, h) → OneOutcome h := by
  intro hall
  have hrun : play Initiator.step (.new ℕ) lateRun =
      some (⟨0, none, [], [], 3⟩, [.callForProposal [0, 1, 2, 3], .replyBy,
        .acceptProposal ⟨1, 1, "5", 9, 1⟩, .waiting 1 9, .acceptProposal ⟨3, 3, "8", 9, 1⟩,
        .waiting 3 9, .rejectProposal [], .success ⟨"45"⟩, .rejectProposal [], .success ⟨"45"⟩]) := by
    rfl
  obtain ⟨z, hz, hcall⟩ := hall _ _ _ hrun [.callForProposal [0, 1, 2, 3], .replyBy,
      .acceptProposal ⟨1, 1, "5", 9, 1⟩, .waiting 1 9, .acceptProposal ⟨3, 3, "8", 9, 1⟩,
      .waiting 3 9, .rejectProposal []] (.success ⟨"45"⟩) [.rejectProposal []] (.success ⟨"45"⟩) []
    rfl trivial trivial
  rw [List.mem_singleton.1 hz] at hcall
  exact hcall

end Rounds

end Siebog.Interaction
