import Siebog.Lib.Trace
import Mathlib.Data.Int.Notation

/-!
# The participant of the contract net

`Participant` bids on calls for proposals and performs the task it is awarded. It keeps one call
only, the latest it bid on, and an award names no call: `handleAcceptProposal` does not even get the
message. So a bid on another initiator's call replaces the call that is about to be awarded, and the
award is answered to the wrong initiator.

`awards_fulfilled_iff` says that this is the only way to miss an award. The invariant is that the
field holds the latest of all bids; `Negotiations` keeps the list of bids beside the participant.
-/

set_option autoImplicit false

namespace Siebog.Interaction.Participant

open Siebog.Lib

section Model

variable {ι : Type}

/-- A call for proposals. -/
structure CallForProposal (ι : Type) where
  replyBy : ℤ
  content : String
  initiator : ι
  deriving DecidableEq

/-- A proposal as the participant makes it; `proposing` is false when it does not bid. -/
structure Proposal (ι : Type) where
  content : String
  participant : ι
  initiator : ι
  proposing : Bool
  timeEstimate : ℕ
  deriving DecidableEq

/-- The result of a task. -/
structure Result where
  succesful : Bool
  content : String
  deriving DecidableEq

/-- The abstract methods of the participant, which may do something else for each message. -/
structure Skills (ι : Type) where
  createProposal : CallForProposal ι → Proposal ι
  performTask : CallForProposal ι → Result

/-- The messages a participant gets. -/
inductive Incoming (ι : Type) where
  | callForProposal (sender : ι) (replyBy : ℤ) (contentObj : CallForProposal ι)
  | rejectProposal (sender : ι)
  | acceptProposal (sender : ι)
  | other

/-- What a handler posts, and the task it performs. -/
inductive Reply (ι : Type) where
  | propose (receiver : ι) (proposal : Proposal ι)
  | refuse (receiver : ι)
  | performTask (cfp : CallForProposal ι)
  | inform (receiver : ι) (result : Result)
  | failure (receiver : ι)
  deriving DecidableEq

/-- The reply to an award: `INFORM` with the result, or `FAILURE`. -/
def outcome (initiator : ι) (result : Result) : Reply ι :=
  if result.succesful then .inform initiator result else .failure initiator

/-- The call that is kept, `null` at first. -/
structure State (ι : Type) where
  cfp : Option (CallForProposal ι)
  deriving DecidableEq

/-- A proposal goes to its initiator. -/
def propose (proposal : Proposal ι) : Reply ι := .propose proposal.initiator proposal

/-- So does a refusal. -/
def refuse (proposal : Proposal ι) : Reply ι := .refuse proposal.initiator

/-- A call for proposals is answered in time or not at all. The participant remembers the last call
that it made a proposal for. -/
def handleCfp (s : State ι) (skills : Skills ι) (currentTimeMillis : ℤ) (sender : ι) (replyBy : ℤ)
    (contentObj : CallForProposal ι) : State ι × List (Reply ι) :=
  if replyBy < currentTimeMillis then (s, [])
  else
    let proposal := { skills.createProposal contentObj with initiator := sender }
    if proposal.proposing then (⟨some contentObj⟩, [propose proposal])
    else (s, [refuse proposal])

/-- It performs the task of the call that it remembers, whichever has been accepted. -/
def handleAcceptProposal (s : State ι) (skills : Skills ι) : State ι × List (Reply ι) :=
  match s.cfp with
  -- there is no initiator to answer to: the exception is caught where the message is delivered
  | none => (s, [])
  | some cfp => (s, [.performTask cfp, outcome cfp.initiator (skills.performTask cfp)])

/-- A message, with the time and the methods in force when it is handled. -/
structure Delivery (ι : Type) where
  skills : Skills ι
  currentTimeMillis : ℤ
  msg : Incoming ι

/-- One handler for each performative. -/
def onMessage (s : State ι) (d : Delivery ι) : State ι × List (Reply ι) :=
  match d.msg with
  | .callForProposal sender replyBy contentObj =>
      handleCfp s d.skills d.currentTimeMillis sender replyBy contentObj
  | .rejectProposal _ => (s, [])
  | .acceptProposal _ => handleAcceptProposal s d.skills
  | .other => (s, [])

end Model

section Negotiating

variable {ι : Type} [DecidableEq ι]

/-- What the initiators send. A call goes out with the agent that makes it as the initiator and as
the sender, and with the deadline of the call. -/
inductive Move (ι : Type) where
  | cfp (myAid : ι) (proposal : CallForProposal ι)
  | rejectProposal (myAid : ι)
  | acceptProposal (myAid : ι)

/-- The message that a move sends to the participant. -/
def Move.message : Move ι → Incoming ι
  | .cfp myAid proposal =>
      .callForProposal myAid proposal.replyBy { proposal with initiator := myAid }
  | .rejectProposal myAid => .rejectProposal myAid
  | .acceptProposal myAid => .acceptProposal myAid

/-- A move of an initiator, and the circumstances under which the participant handles it. -/
structure Event (ι : Type) where
  skills : Skills ι
  currentTimeMillis : ℤ
  move : Move ι

/-- The move as it arrives, with the skills and the time that it finds. -/
def Event.delivery (e : Event ι) : Delivery ι := ⟨e.skills, e.currentTimeMillis, e.move.message⟩

/-- The call that the participant bids on when it handles the event. -/
def Event.bid (e : Event ι) : Option (CallForProposal ι) :=
  match e.move with
  | .cfp myAid proposal =>
      let cfp := { proposal with initiator := myAid }
      if ¬ cfp.replyBy < e.currentTimeMillis ∧ (e.skills.createProposal cfp).proposing then some cfp
      else none
  | _ => none

/-- A participant and the calls it bid on, oldest first. -/
structure Negotiations (ι : Type) where
  participant : State ι
  bids : List (CallForProposal ι)

namespace Negotiations

/-- A new participant. -/
def new (ι : Type) : Negotiations ι := ⟨⟨none⟩, []⟩

/-- One move of an initiator, the replies to it, and the bids so far. -/
def step (s : Negotiations ι) (e : Event ι) : Option (Negotiations ι × List (Reply ι)) :=
  some (⟨(onMessage s.participant e.delivery).1, s.bids ++ e.bid.toList⟩,
    (onMessage s.participant e.delivery).2)

/-- The latest call of the initiator on which the participant bid. -/
def bidFor (s : Negotiations ι) (initiator : ι) : Option (CallForProposal ι) :=
  (s.bids.filter (·.initiator = initiator)).getLast?

/-- On an award for a bid the participant performs the task of that bid, and sends the outcome to the
initiator that awarded it. -/
def Fulfils (s : Negotiations ι) (e : Event ι) : Prop :=
  ∀ initiator cfp, e.move = .acceptProposal initiator → s.bidFor initiator = some cfp →
    (onMessage s.participant e.delivery).2 =
      [.performTask cfp, outcome initiator (e.skills.performTask cfp)]

/-- On an award for a bid no other initiator's call was bid on since. -/
def Undisturbed (s : Negotiations ι) (e : Event ι) : Prop :=
  ∀ initiator cfp, e.move = .acceptProposal initiator → s.bidFor initiator = some cfp →
    ∀ last ∈ s.bids.getLast?, last.initiator = initiator

end Negotiations

end Negotiating

section Awards

variable {ι : Type} [DecidableEq ι]

namespace Negotiations

/-- The participant keeps the latest call it bid on. -/
def Inv (s : Negotiations ι) : Prop := s.participant.cfp = s.bids.getLast?

omit [DecidableEq ι] in
/-- A message replaces the call exactly when the participant bids. -/
theorem cfp_onMessage (s : State ι) (e : Event ι) :
    (onMessage s e.delivery).1.cfp = e.bid.or s.cfp := by
  obtain ⟨skills, now, move⟩ := e
  cases move with
  | cfp myAid proposal =>
      simp only [Event.delivery, Move.message, onMessage, handleCfp, Event.bid]
      by_cases hlate : proposal.replyBy < now
      · simp [hlate]
      · by_cases hbid : (skills.createProposal { proposal with initiator := myAid }).proposing
        · simp [hlate, hbid]
        · simp [hlate, hbid]
  | rejectProposal myAid => rfl
  | acceptProposal myAid =>
      show (handleAcceptProposal s skills).1.cfp = s.cfp
      rw [handleAcceptProposal]
      split <;> rfl

omit [DecidableEq ι] in
theorem Inv.step {s s' : Negotiations ι} {e : Event ι} {out : List (Reply ι)} (hs : s.Inv)
    (hstep : s.step e = some (s', out)) : s'.Inv := by
  obtain ⟨rfl, rfl⟩ := Prod.mk.inj (Option.some.inj hstep)
  show (onMessage s.participant e.delivery).1.cfp = (s.bids ++ e.bid.toList).getLast?
  rw [cfp_onMessage, hs]
  cases e.bid with
  | none => rw [Option.toList_none, List.append_nil, Option.none_or]
  | some cfp => rw [Option.toList_some, List.getLast?_concat, Option.some_or]

/-- A bid for an initiator is one of the bids, and on a call of that initiator. -/
theorem bidFor_mem {s : Negotiations ι} {initiator : ι} {cfp : CallForProposal ι}
    (h : s.bidFor initiator = some cfp) : cfp ∈ s.bids ∧ cfp.initiator = initiator := by
  have hmem := List.mem_filter.1 (List.mem_of_getLast? h)
  exact ⟨hmem.1, of_decide_eq_true hmem.2⟩

/-- When the latest bid is on a call of the initiator, it is the bid for that initiator. -/
theorem bidFor_getLast {s : Negotiations ι} {last : CallForProposal ι}
    (h : s.bids.getLast? = some last) : s.bidFor last.initiator = some last := by
  obtain ⟨before, hbefore⟩ := List.getLast?_eq_some_iff.1 h
  rw [bidFor, hbefore, List.filter_append, List.filter_singleton, decide_eq_true rfl, cond_true,
    List.getLast?_concat]

omit [DecidableEq ι] in
/-- The reply to an award, whoever it is from. -/
theorem onMessage_acceptProposal {s : Negotiations ι} (hs : s.Inv) {e : Event ι} {initiator : ι}
    (he : e.move = .acceptProposal initiator) {last : CallForProposal ι}
    (hlast : s.bids.getLast? = some last) : (onMessage s.participant e.delivery).2 =
      [.performTask last, outcome last.initiator (e.skills.performTask last)] := by
  have hcfp : s.participant.cfp = some last := hs.trans hlast
  simp only [Event.delivery, he, Move.message, onMessage, handleAcceptProposal, hcfp]

/-- An award is answered as it should be exactly when the latest bid was on a call of the awarding
initiator. -/
theorem fulfils_iff {s : Negotiations ι} (hs : s.Inv) (e : Event ι) :
    s.Fulfils e ↔ s.Undisturbed e := by
  constructor
  · intro h initiator cfp he hbid last hlast
    have hreply := h initiator cfp he hbid
    rw [onMessage_acceptProposal hs he hlast] at hreply
    -- the task that is performed shows which call was kept
    have htask : last = cfp := Reply.performTask.inj (List.cons.inj hreply).1
    rw [htask]
    exact (bidFor_mem hbid).2
  · intro h initiator cfp he hbid
    cases hlast : s.bids.getLast? with
    | none =>
        have hmem := (bidFor_mem hbid).1
        rw [List.getLast?_eq_none_iff.1 hlast] at hmem
        cases hmem
    | some last =>
        have hinit : last.initiator = initiator := h initiator cfp he hbid last hlast
        have hsame : cfp = last := by
          have hlastBid := bidFor_getLast hlast
          rw [hinit, hbid] at hlastBid
          exact Option.some.inj hlastBid
        rw [onMessage_acceptProposal hs he hlast, hsame, hinit]

end Negotiations

/-- In every run, over any number of negotiations, the participant performs the tasks it is awarded
and answers to the awarding initiators exactly when no award for a bid comes after a bid on another
initiator's call. -/
theorem awards_fulfilled_iff (es : List (Event ι)) :
    Along (next Negotiations.step) Negotiations.Fulfils (.new ι) es ↔
      Along (next Negotiations.step) Negotiations.Undisturbed (.new ι) es := by
  have hiff : ∀ (s : Negotiations ι) (e : Event ι), s.Inv → True →
      (s.Fulfils e ↔ s.Undisturbed e) := fun s e hs _ => Negotiations.fulfils_iff hs e
  have hnew : (Negotiations.new ι).Inv := rfl
  apply along_iff hiff _ es _ hnew fun _ _ => trivial
  -- the invariant is kept by every step, whether its award is answered or not
  intro s e s' hs _ _ hstep
  obtain ⟨out, hout⟩ := next_eq_some.1 hstep
  exact hs.step hout

/-- A participant that bids on every call and succeeds in every task. -/
def eager : Skills ℕ :=
  ⟨fun cfp => ⟨cfp.content, 0, cfp.initiator, true, 9⟩, fun cfp => ⟨true, cfp.content⟩⟩

/-- Calls of the initiators 1 and 2, then the award of initiator 1. -/
def overlapping : List (Event ℕ) :=
  ([.cfp 1 ⟨5, "paint", 1⟩, .cfp 2 ⟨5, "clean", 2⟩, .acceptProposal 1] : List (Move ℕ)).map
    (Event.mk eager 0)

/-- In the run `overlapping` the participant cleans for initiator 2 instead of painting for
initiator 1. -/
theorem not_awards_fulfilled_overlapping :
    ¬ ∀ es : List (Event ℕ),
      Along (next Negotiations.step) Negotiations.Fulfils (.new ℕ) es := by
  intro h
  obtain ⟨-, hrest⟩ := h overlapping
  obtain ⟨-, hrest⟩ := hrest _ rfl
  obtain ⟨haward, -⟩ := hrest _ rfl
  have hreply := haward 1 ⟨5, "paint", 1⟩ rfl rfl
  revert hreply
  decide

end Awards

end Siebog.Interaction.Participant
