import Siebog.Lib.Trace
import Mathlib.Data.Int.Notation

/-!
# The initiator of the contract net

`Initiator` calls for proposals, awards the task to the best one, and awards it again when the
contractor fails or is late. `proposals` are the proposals it may still award, and `rejectedAID` the
participants that are told so when another contractor is done.

Agent identifiers are a type `ι`. The status is the number of the source: 0 while proposals come in,
2 after an acceptance, 3 when all is done; nothing sets it to 1. `getOptimalProposal` is abstract in
the source and a `Chooser` here, which may be another one for each message.

`acceptProposal` dereferences the best proposal before it compares it with `null`. The exception
leaves every caller, is caught where the message is delivered, and leaves the fields as they are at
that moment, so it is modelled as an empty answer.
-/

set_option autoImplicit false

namespace Siebog.Interaction

open Siebog.Lib

/-- A proposal. `ref` is the identity of the object, by which lists of proposals compare, and `call`
the number of the call for proposals that it answers, which the source does not keep. -/
structure Proposal (ι : Type) where
  ref : ℕ
  participant : ι
  content : String
  timeEstimate : ℕ
  call : ℕ
  deriving DecidableEq

/-- The result of a task, as far as the initiator passes it on. -/
structure Result where
  content : String

/-- An implementation of `getOptimalProposal`: `null` on the empty list, else one of the list. -/
structure Chooser (ι : Type) where
  getOptimalProposal : List (Proposal ι) → Option (Proposal ι)
  nil : getOptimalProposal [] = none
  mem : ∀ l, l ≠ [] → ∃ p ∈ l, getOptimalProposal l = some p

theorem Chooser.exists_head? {ι : Type} (l : List (Proposal ι)) (h : l ≠ []) :
    ∃ p ∈ l, l.head? = some p := by
  cases l with
  | nil => exact absurd rfl h
  | cons p rest => exact ⟨p, List.mem_cons_self, rfl⟩

/-- The choice of the first proposal. -/
def Chooser.first {ι : Type} : Chooser ι := ⟨List.head?, rfl, Chooser.exists_head?⟩

variable {ι : Type} [DecidableEq ι]

/-- The fields of the initiator. -/
structure Initiator (ι : Type) where
  pendingProposals : ℤ
  bestProposal : Option (Proposal ι)
  rejectedAID : List ι
  proposals : List (Proposal ι)
  status : ℕ

/-- A new initiator. -/
def Initiator.new (ι : Type) : Initiator ι := ⟨0, none, [], [], 0⟩

/-- What a handler posts, to others or delayed to itself, and the callbacks it makes. -/
inductive Answer (ι : Type) where
  | callForProposal (receivers : List ι)
  | replyBy
  | acceptProposal (proposal : Proposal ι)
  | waiting (participant : ι) (timeEstimate : ℕ)
  | rejectProposal (receivers : List ι)
  | success (result : Result)
  | failure

namespace Initiator

/-- The participants are the running agents, the initiator among them. -/
def cfp (s : Initiator ι) (participants : List ι) : Initiator ι × List (Answer ι) :=
  ({ s with status := 0, pendingProposals := participants.length - 1 },
    [.callForProposal participants, .replyBy])

/-- All participants that are left on the list are rejected. -/
def rejectProposal (s : Initiator ι) : Initiator ι × List (Answer ι) :=
  ({ s with rejectedAID := [], bestProposal := none }, [.rejectProposal s.rejectedAID])

/-- The best proposal is accepted and waited for; without one nothing is sent. -/
def acceptProposal (C : Chooser ι) (s : Initiator ι) : Initiator ι × List (Answer ι) :=
  match C.getOptimalProposal s.proposals with
  | some p =>
      ({ s with
          bestProposal := some p
          proposals := s.proposals.erase p
          rejectedAID := s.rejectedAID.erase p.participant
          status := 2 },
        [.acceptProposal p, .waiting p.participant p.timeEstimate])
  -- the source throws here, and only the field has changed
  | none => ({ s with bestProposal := none }, [])

/-- One answer less to wait for; after the last one a proposal is accepted. -/
def handleRefuse (C : Chooser ι) (s : Initiator ι) : Initiator ι × List (Answer ι) :=
  let s := { s with pendingProposals := s.pendingProposals - 1 }
  if s.pendingProposals = 0 then s.acceptProposal C else (s, [])

/-- The proposal is kept, and its participant counts as rejected until it is accepted. -/
def handlePropose (C : Chooser ι) (s : Initiator ι) (p : Proposal ι) :
    Initiator ι × List (Answer ι) :=
  let s := { s with
    proposals := s.proposals ++ [p]
    rejectedAID := s.rejectedAID ++ [p.participant]
    pendingProposals := s.pendingProposals - 1 }
  if s.pendingProposals = 0 then s.acceptProposal C else (s, [])

/-- The best of the proposals that are left is taken from the list, and `acceptProposal` chooses among
the others. When none is left the task has failed. -/
def handleFailure (C : Chooser ι) (s : Initiator ι) : Initiator ι × List (Answer ι) :=
  match C.getOptimalProposal s.proposals with
  | none => ({ s with bestProposal := none, status := 3 }, [.failure])
  | some p =>
      acceptProposal C { s with
        bestProposal := some p
        proposals := s.proposals.erase p
        rejectedAID := s.rejectedAID.erase p.participant }

/-- The task is done, and the others are rejected. -/
def handleDone (s : Initiator ι) (result : Result) : Initiator ι × List (Answer ι) :=
  let (s, out) := rejectProposal { s with status := 3 }
  (s, out ++ [.success result])

end Initiator

/-- The messages an initiator gets. A `REQUEST` makes it call for proposals, among the agents that
run at that moment; `replyBy` and `waiting` are its own delayed messages. -/
inductive Incoming (ι : Type) where
  | request (participants : List ι)
  | propose (proposal : Proposal ι)
  | refuse
  | inform (result : Result)
  | failure
  | callForProposal
  | replyBy
  | waiting (participant : ι)

/-- A message, and the choice function in force when it is handled. -/
structure Delivery (ι : Type) where
  choose : Chooser ι
  msg : Incoming ι

namespace Initiator

/-- The contractor that `waiting` is about is the one whose answer is awaited. -/
def Awaits (s : Initiator ι) (participant : ι) : Prop :=
  1 < s.status ∧ ∃ p, s.bestProposal = some p ∧ participant = p.participant

instance (s : Initiator ι) (participant : ι) : Decidable (s.Awaits participant) :=
  match h : s.bestProposal with
  | none => .isFalse (by rintro ⟨-, p, hp, -⟩; rw [h] at hp; cases hp)
  | some p => decidable_of_iff (1 < s.status ∧ participant = p.participant) (by simp [Awaits, h])

/-- One handler for each performative. -/
def onMessage (s : Initiator ι) (d : Delivery ι) : Initiator ι × List (Answer ι) :=
  match d.msg with
  | .request participants => s.cfp participants
  | .propose p => s.handlePropose d.choose p
  | .refuse => s.handleRefuse d.choose
  | .inform result => s.handleDone result
  | .failure => s.handleFailure d.choose
  | .callForProposal => (s, [])
  | .replyBy =>
      -- a proposal has not been accepted yet
      if s.status < 1 then acceptProposal d.choose { s with pendingProposals := 0 } else (s, [])
  | .waiting participant => if s.Awaits participant then s.handleFailure d.choose else (s, [])

/-- An initiator takes every message. -/
def step (s : Initiator ι) (d : Delivery ι) : Option (Initiator ι × List (Answer ι)) :=
  some (s.onMessage d)

end Initiator

section Handlers

omit [DecidableEq ι] in
theorem Chooser.eq_none_iff (C : Chooser ι) (l : List (Proposal ι)) :
    C.getOptimalProposal l = none ↔ l = [] := by
  constructor
  · intro h
    by_contra hne
    obtain ⟨p, -, hp⟩ := C.mem l hne
    rw [h] at hp
    cases hp
  · rintro rfl
    exact C.nil

omit [DecidableEq ι] in
theorem Chooser.mem_of_eq_some (C : Chooser ι) {l : List (Proposal ι)} {p : Proposal ι}
    (h : C.getOptimalProposal l = some p) : p ∈ l := by
  have hne : l ≠ [] := fun h0 => by simp [(C.eq_none_iff l).2 h0] at h
  obtain ⟨q, hq, hs⟩ := C.mem l hne
  rw [h] at hs
  cases hs
  exact hq

namespace Initiator

/-- `acceptProposal` awards one of the proposals, which it takes out of both lists, or there is
none and it answers nothing. -/
theorem acceptProposal_cases (C : Chooser ι) (s : Initiator ι) :
    (s.proposals = [] ∧ s.acceptProposal C = ({ s with bestProposal := none }, [])) ∨
      ∃ p ∈ s.proposals, s.acceptProposal C =
        (⟨s.pendingProposals, some p, s.rejectedAID.erase p.participant, s.proposals.erase p, 2⟩,
          [.acceptProposal p, .waiting p.participant p.timeEstimate]) := by
  cases h : C.getOptimalProposal s.proposals with
  | none => exact .inl ⟨(C.eq_none_iff _).1 h, by simp only [acceptProposal, h]⟩
  | some p => exact .inr ⟨p, C.mem_of_eq_some h, by simp only [acceptProposal, h]⟩

/-- `handleFailure` gives up when there is no proposal. Otherwise it takes one out of both lists,
and goes on to award another. -/
theorem handleFailure_cases (C : Chooser ι) (s : Initiator ι) :
    (s.proposals = [] ∧
        s.handleFailure C = ({ s with bestProposal := none, status := 3 }, [.failure])) ∨
      ∃ p ∈ s.proposals, s.handleFailure C = acceptProposal C
        ⟨s.pendingProposals, some p, s.rejectedAID.erase p.participant, s.proposals.erase p,
          s.status⟩ := by
  cases h : C.getOptimalProposal s.proposals with
  | none => exact .inl ⟨(C.eq_none_iff _).1 h, by simp only [handleFailure, h]⟩
  | some p => exact .inr ⟨p, C.mem_of_eq_some h, by simp only [handleFailure, h]⟩

end Initiator

end Handlers

end Siebog.Interaction
