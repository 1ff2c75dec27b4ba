import Siebog.Interaction.ContractNet

/-!
# Exceptions in the contract net

`Siebog.Interaction.ContractNet` leaves open whether a handler that answers nothing has returned or
thrown. Here the handlers that may throw say which: `acceptProposal` takes the participant of the
best proposal before it looks whether there is one, and whoever calls it on an empty list ends in a
`NullPointerException`. What is sent and what is left of the fields is the same as there
(`handle_eq_onMessage`).

A failed contractor's place is given to the proposal that is chosen after another one has been taken
out of the list, so the failure is handled as it should be only when no proposal is left
(`failure_handled_iff`).
-/

set_option autoImplicit false

namespace Siebog.Interaction

variable {ι : Type} [DecidableEq ι]

section Model

/-- How the handling of a message ends: the fields, what was sent, and whether a
`NullPointerException` was thrown. -/
structure Handling (ι : Type) where
  initiator : Initiator ι
  answers : List (Answer ι)
  thrown : Bool

namespace Handling

/-- A handler that returns. -/
def returned (out : Initiator ι × List (Answer ι)) : Handling ι := ⟨out.1, out.2, false⟩

/-- Without a best proposal its participant is read from `null`, which throws. -/
def acceptProposal (C : Chooser ι) (s : Initiator ι) : Handling ι :=
  match C.getOptimalProposal s.proposals with
  | some p =>
      returned ({ s with
          bestProposal := some p
          proposals := s.proposals.erase p
          rejectedAID := s.rejectedAID.erase p.participant
          status := 2 },
        [.acceptProposal p, .waiting p.participant p.timeEstimate])
  | none => ⟨{ s with bestProposal := none }, [], true⟩

/-- The last answer makes the initiator accept a proposal, and may throw there. -/
def handleRefuse (C : Chooser ι) (s : Initiator ι) : Handling ι :=
  let s := { s with pendingProposals := s.pendingProposals - 1 }
  if s.pendingProposals = 0 then acceptProposal C s else returned (s, [])

/-- So may the last answer when it is a proposal. -/
def handlePropose (C : Chooser ι) (s : Initiator ι) (p : Proposal ι) : Handling ι :=
  let s := { s with
    proposals := s.proposals ++ [p]
    rejectedAID := s.rejectedAID ++ [p.participant]
    pendingProposals := s.pendingProposals - 1 }
  if s.pendingProposals = 0 then acceptProposal C s else returned (s, [])

/-- One proposal is chosen here and taken from the list, another one in `acceptProposal`. -/
def handleFailure (C : Chooser ι) (s : Initiator ι) : Handling ι :=
  match C.getOptimalProposal s.proposals with
  | none => returned ({ s with bestProposal := none, status := 3 }, [.failure])
  | some p =>
      acceptProposal C { s with
        bestProposal := some p
        proposals := s.proposals.erase p
        rejectedAID := s.rejectedAID.erase p.participant }

end Handling

/-- `onMessage` with its exceptions. -/
def Initiator.handle (s : Initiator ι) (d : Delivery ι) : Handling ι :=
  match d.msg with
  | .propose p => .handlePropose d.choose s p
  | .refuse => .handleRefuse d.choose s
  | .failure => .handleFailure d.choose s
  | .replyBy =>
      if s.status < 1 then .acceptProposal d.choose { s with pendingProposals := 0 }
      else .returned (s, [])
  | .waiting participant =>
      if s.Awaits participant then .handleFailure d.choose s else .returned (s, [])
  | .request participants => .returned (s.cfp participants)
  | .inform result => .returned (s.handleDone result)
  | .callForProposal => .returned (s, [])

end Model

section Agreement

/-- The fields and the answers of a handling. -/
def Handling.out (h : Handling ι) : Initiator ι × List (Answer ι) := (h.initiator, h.answers)

namespace Handling

theorem acceptProposal_out (C : Chooser ι) (s : Initiator ι) :
    (acceptProposal C s).out = s.acceptProposal C := by
  unfold acceptProposal Initiator.acceptProposal
  cases C.getOptimalProposal s.proposals with
  | none => rfl
  | some p => rfl

theorem handleFailure_out (C : Chooser ι) (s : Initiator ι) :
    (handleFailure C s).out = s.handleFailure C := by
  unfold handleFailure Initiator.handleFailure
  cases C.getOptimalProposal s.proposals with
  | none => rfl
  | some p => exact acceptProposal_out C _

/-- An award throws when there is no proposal. -/
theorem acceptProposal_thrown (C : Chooser ι) (s : Initiator ι) :
    (acceptProposal C s).thrown = true ↔ s.proposals = [] := by
  rw [← C.eq_none_iff s.proposals, acceptProposal]
  cases C.getOptimalProposal s.proposals with
  | none => simp
  | some p => simp [returned]

end Handling

/-- Apart from the exception, a message is handled as in the model without exceptions. -/
theorem handle_eq_onMessage (s : Initiator ι) (d : Delivery ι) :
    (s.handle d).out = s.onMessage d := by
  obtain ⟨C, msg⟩ := d
  -- each handler ends in the choice of the next proposal, or does not reach it
  cases msg with
  | request participants => rfl
  | inform result => rfl
  | callForProposal => rfl
  | failure => exact Handling.handleFailure_out C s
  | propose p =>
      simp only [Initiator.handle, Initiator.onMessage, Handling.handlePropose,
        Initiator.handlePropose]
      split
      · exact Handling.acceptProposal_out C _
      · rfl
  | refuse =>
      simp only [Initiator.handle, Initiator.onMessage, Handling.handleRefuse,
        Initiator.handleRefuse]
      split
      · exact Handling.acceptProposal_out C _
      · rfl
  | replyBy =>
      simp only [Initiator.handle, Initiator.onMessage]
      split
      · exact Handling.acceptProposal_out C _
      · rfl
  | waiting participant =>
      simp only [Initiator.handle, Initiator.onMessage]
      split
      · exact Handling.handleFailure_out C s
      · rfl

end Agreement

section Failure

/-- A contractor has been awarded. -/
def Initiator.Awarded (s : Initiator ι) (p : Proposal ι) : Prop :=
  s.status = 2 ∧ s.bestProposal = some p

/-- The messages that report a failure of the contractor. -/
inductive ReportsFailure (s : Initiator ι) : Incoming ι → Prop where
  | failure {p : Proposal ι} (h : s.Awarded p) : ReportsFailure s .failure
  | waiting {p : Proposal ι} (h : s.Awarded p) : ReportsFailure s (.waiting p.participant)

/-- The messages that end the collection of proposals when there is none. -/
inductive EndsEmpty (s : Initiator ι) : Incoming ι → Prop where
  | replyBy (hstatus : s.status < 1) (hnone : s.proposals = []) : EndsEmpty s .replyBy
  | refuse (hlast : s.pendingProposals = 1) (hnone : s.proposals = []) : EndsEmpty s .refuse

/-- A failure handled as it should be: without an exception, and with the task given to the best of
the remaining proposals, which alone is removed, or with one call of `failure` when none remains. -/
structure FailureHandled (C : Chooser ι) (s : Initiator ι) (h : Handling ι) : Prop where
  returned : h.thrown = false
  accepted : ∀ p, C.getOptimalProposal s.proposals = some p →
    (∃ q, Answer.acceptProposal q ∈ h.answers ∧ q.participant = p.participant) ∧
      h.initiator.proposals = s.proposals.erase p
  failed : C.getOptimalProposal s.proposals = none → h.answers = [.failure]

/-- What a report of failure leads to. -/
theorem handle_of_reportsFailure {s : Initiator ι} {msg : Incoming ι} (h : ReportsFailure s msg)
    (C : Chooser ι) : s.handle ⟨C, msg⟩ = .handleFailure C s := by
  cases h with
  | failure _ => rfl
  | @waiting p h =>
      have hawaits : s.Awaits p.participant := ⟨by rw [h.1]; decide, p, h.2, rfl⟩
      exact if_pos hawaits

/-- With a proposal left, one is taken out before another one is awarded. -/
theorem not_failureHandled {C : Chooser ι} {s : Initiator ι} (hne : s.proposals ≠ []) :
    ¬ FailureHandled C s (.handleFailure C s) := by
  intro h
  obtain ⟨p, hp, hbest⟩ := C.mem s.proposals hne
  have hproposals := (h.accepted p hbest).2
  have hreturned := h.returned
  simp only [Handling.handleFailure, hbest] at hproposals hreturned
  unfold Handling.acceptProposal at hproposals hreturned
  cases hnext : C.getOptimalProposal (s.proposals.erase p) with
  | none =>
      rw [hnext] at hreturned
      cases hreturned
  | some q =>
      have hq : q ∈ s.proposals.erase p := C.mem_of_eq_some hnext
      simp only [hnext, Handling.returned] at hproposals
      have hlength := congrArg List.length hproposals
      rw [List.length_erase_of_mem hq] at hlength
      have hpos := List.length_pos_of_mem hq
      omega

theorem failureHandled_of_nil {C : Chooser ι} {s : Initiator ι} (hnil : s.proposals = []) :
    FailureHandled C s (.handleFailure C s) := by
  have hnone : C.getOptimalProposal s.proposals = none := (C.eq_none_iff _).2 hnil
  refine ⟨?_, fun p hp => ?_, fun _ => ?_⟩
  · simp only [Handling.handleFailure, hnone, Handling.returned]
  · rw [hnone] at hp
    cases hp
  · simp only [Handling.handleFailure, hnone, Handling.returned]

/-- When the collection of proposals ends without any, the award throws. -/
theorem thrown_of_endsEmpty {s : Initiator ι} {msg : Incoming ι} (h : EndsEmpty s msg)
    (C : Chooser ι) : (s.handle ⟨C, msg⟩).thrown = true := by
  cases h with
  | replyBy hstatus hnone =>
      simp only [Initiator.handle, if_pos hstatus]
      exact (Handling.acceptProposal_thrown C _).2 hnone
  | refuse hlast hnone =>
      have hzero : s.pendingProposals - 1 = 0 := by omega
      simp only [Initiator.handle, Handling.handleRefuse, if_pos hzero]
      exact (Handling.acceptProposal_thrown C _).2 hnone

/-- A failure is handled as it should be exactly when no proposal is left, and an end of the
collection without a proposal always throws. -/
theorem failure_handled_iff (C : Chooser ι) (s : Initiator ι) (msg : Incoming ι) :
    (ReportsFailure s msg →
        (FailureHandled C s (s.handle ⟨C, msg⟩) ↔ s.proposals = [])) ∧
      (EndsEmpty s msg → ¬ (s.handle ⟨C, msg⟩).thrown = false) := by
  refine ⟨fun h => ?_, fun h => ?_⟩
  · rw [handle_of_reportsFailure h C]
    refine ⟨fun hhandled => ?_, failureHandled_of_nil⟩
    by_contra hne
    exact not_failureHandled hne hhandled
  · rw [thrown_of_endsEmpty h C]
    decide

/-- The only bidder has been awarded and fails. -/
theorem failure_handled_iff_single :
    FailureHandled Chooser.first (⟨0, some ⟨0, 7, "offer", 5, 1⟩, [], [], 2⟩ : Initiator ℕ)
      (Initiator.handle ⟨0, some ⟨0, 7, "offer", 5, 1⟩, [], [], 2⟩ ⟨Chooser.first, .failure⟩) := by
  have hiff := (failure_handled_iff Chooser.first
    (⟨0, some ⟨0, 7, "offer", 5, 1⟩, [], [], 2⟩ : Initiator ℕ) .failure).1
  exact (hiff (.failure ⟨rfl, rfl⟩)).2 rfl

/-- With one proposal left, the failure of the contractor ends in an exception. -/
theorem failure_throws :
    ¬ ∀ (C : Chooser ℕ) (s : Initiator ℕ) (msg : Incoming ℕ),
        (ReportsFailure s msg → FailureHandled C s (s.handle ⟨C, msg⟩)) ∧
          (EndsEmpty s msg → (s.handle ⟨C, msg⟩).thrown = false) := by
  intro hall
  let s : Initiator ℕ :=
    ⟨0, some ⟨0, 7, "offer", 5, 1⟩, [8], [⟨1, 8, "second offer", 9, 1⟩], 2⟩
  have hhandled := (hall Chooser.first s .failure).1 (.failure ⟨rfl, rfl⟩)
  have hreturned := hhandled.returned
  cases hreturned

end Failure

end Siebog.Interaction
