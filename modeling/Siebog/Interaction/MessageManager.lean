import Siebog.Agents.AID

/-!
# Posting a message

The message manager goes through the receivers of a message and enqueues one JMS message for each,
with the receiver's position as a property. The consumer takes the receiver at that position of the
list it finds in the message, and hands the message to the agent running under it.

A missing receiver is refused, but only once the loop has come to it: what was enqueued for the
receivers before it stays. `post_atomic_iff` says when posting is all or nothing.
-/

set_option autoImplicit false

namespace Siebog.Interaction.MessageManager

open Siebog.Lib Siebog.Lib.Utf16 Siebog.Agents

section Model

/-- What the manager and the consumer read of a message. A receiver may be missing. -/
structure ACLMessage where
  receivers : List (Option AID)
  inReplyTo : Option Text
  content : Text
  deriving DecidableEq

/-- The queue of the agents and that of the test clients. -/
inductive Queue where
  | siebog
  | test
  deriving DecidableEq

/-- The mark of a message to a test client. -/
def REPLY_WITH_TEST : Text := text "siebog-test"

/-- A JMS message: the message and the properties it was set up with. -/
structure ObjectMessage where
  object : ACLMessage
  JMSXGroupID : Text
  AIDIndex : ℕ
  scheduledDelay : Option Int
  queue : Queue
  deriving DecidableEq

/-- What has been enqueued when posting ends, and the message of the exception it ended with. -/
structure Posting where
  sent : List ObjectMessage
  thrown : Option String

/-- The JMS message for one receiver. It belongs to the group of the receiver. -/
def setupJmsMsg (msg : ACLMessage) (aid : AID) (index : ℕ) (delayMillisec : Int) (queue : Queue) :
    ObjectMessage where
  object := msg
  JMSXGroupID := aid.str
  AIDIndex := index
  scheduledDelay := if delayMillisec > 0 then some delayMillisec else none
  queue := queue

/-- Test clients have a queue of their own. -/
def getProducer (msg : ACLMessage) : Queue :=
  if msg.inReplyTo = some REPLY_WITH_TEST then .test else .siebog

/-- What is sent for one receiver. -/
def postToReceiver (msg : ACLMessage) (aid : AID) (index : ℕ) (delayMillisec : Int) : ObjectMessage :=
  setupJmsMsg msg aid index delayMillisec (getProducer msg)

/-- The loop from a position on. -/
def postFrom (msg : ACLMessage) (delayMillisec : Int) : ℕ → List (Option AID) → Posting
  | _, [] => ⟨[], none⟩
  | _, none :: _ => ⟨[], some "AID cannot be null."⟩
  | i, some aid :: rest =>
    let later := postFrom msg delayMillisec (i + 1) rest
    ⟨postToReceiver msg aid i delayMillisec :: later.sent, later.thrown⟩

/-- `post(msg, delayMillisec)`, one message for each receiver. -/
def post (msg : ACLMessage) (delayMillisec : Int) : Posting :=
  postFrom msg delayMillisec 0 msg.receivers

/-! ### The consumer -/

/-- The outer `none` is the exception for an index outside the list. -/
def getAid (msg : ObjectMessage) (acl : ACLMessage) : Option (Option AID) :=
  acl.receivers[msg.AIDIndex]?

/-- A message handed to the agent that runs under a string. -/
structure Handed where
  agent : Text
  msg : ACLMessage
  deriving DecidableEq

/-- `running` tells under which strings an agent is in the cache; for a missing identifier nobody is
handed the message. -/
def deliverMessage (running : Text → Bool) (acl : ACLMessage) (aid : Option AID) : List Handed :=
  match aid with
  | none => []
  | some aid => if running aid.str then [⟨aid.str, acl⟩] else []

/-- What the consumer does with a message; one without a receiver is handed to nobody. -/
def processMessage (running : Text → Bool) (msg : ObjectMessage) : List Handed :=
  match getAid msg msg.object with
  | none => []
  | some aid => deliverMessage running msg.object aid

end Model

section Loop

variable (msg : ACLMessage) (delayMillisec : Int)

/-- The loop throws when it comes to a missing receiver, wherever that is. -/
theorem postFrom_thrown (i : ℕ) (rs : List (Option AID)) :
    (postFrom msg delayMillisec i rs).thrown =
      if none ∈ rs then some "AID cannot be null." else none := by
  induction rs generalizing i with
  | nil => rfl
  | cons r rs ih =>
      cases r with
      | none => exact (if_pos List.mem_cons_self).symm
      | some aid => simpa [postFrom] using ih (i + 1)

/-- Nothing is enqueued only when there is nothing to post or the first receiver is missing. -/
theorem postFrom_sent_eq_nil (i : ℕ) (rs : List (Option AID)) :
    (postFrom msg delayMillisec i rs).sent = [] ↔ rs = [] ∨ rs.head? = some none := by
  cases rs with
  | nil => exact iff_of_true rfl (.inl rfl)
  | cons r rs =>
      cases r with
      | none => exact iff_of_true rfl (.inr rfl)
      | some aid => simp [postFrom]

theorem object_of_mem_postFrom {i : ℕ} {rs : List (Option AID)} {jms : ObjectMessage}
    (h : jms ∈ (postFrom msg delayMillisec i rs).sent) : jms.object = msg := by
  induction rs generalizing i with
  | nil => cases h
  | cons r rs ih =>
      cases r with
      | none => cases h
      | some aid =>
          rcases List.mem_cons.1 h with rfl | hlater
          · rfl
          · exact ih hlater

/-- Every message is resolved to the receiver it was enqueued for, when the loop is at the position
of the rest of the list. -/
theorem postFrom_resolved {i : ℕ} {rs : List (Option AID)} (hrest : msg.receivers.drop i = rs)
    (h : none ∉ rs) :
    (postFrom msg delayMillisec i rs).sent.map (fun jms => getAid jms jms.object) =
      rs.map some := by
  induction rs generalizing i with
  | nil => rfl
  | cons r rs ih =>
      cases r with
      | none => exact absurd List.mem_cons_self h
      | some aid =>
          rw [List.mem_cons, not_or] at h
          have hhere : msg.receivers[i]? = some (some aid) := by
            rw [← List.head?_drop, hrest]
            rfl
          have hnext : msg.receivers.drop (i + 1) = rs := by
            rw [← List.tail_drop, hrest, List.tail_cons]
          have hlater := ih hnext h.2
          simp only [postFrom, List.map_cons, hlater]
          exact congrArg (· :: rs.map some) hhere

end Loop

section Handing

variable (running : Text → Bool) (msg : ACLMessage)

theorem count_deliverMessage (r : Option AID) {str : Text} (hrun : running str = true) :
    (deliverMessage running msg r).count ⟨str, msg⟩ =
      if (r.map AID.str == some str) = true then 1 else 0 := by
  cases r with
  | none => rfl
  | some aid =>
      rw [deliverMessage, Option.map_some]
      by_cases hstr : aid.str = str
      · subst hstr
        simp [hrun]
      · have hne : (⟨aid.str, msg⟩ : Handed) ≠ ⟨str, msg⟩ := fun h => hstr (congrArg Handed.agent h)
        have hother : ¬(some aid.str == some str) = true := by simpa using hstr
        rw [if_neg hother]
        cases running aid.str with
        | true => exact List.count_eq_zero.2 fun h => hne (List.mem_singleton.1 h).symm
        | false => rfl

/-- An agent that runs is handed the message once for each time it is listed. -/
theorem count_handed (rs : List (Option AID)) {str : Text} (hrun : running str = true) :
    (rs.flatMap (deliverMessage running msg)).count ⟨str, msg⟩ =
      rs.countP fun r => r.map AID.str == some str := by
  induction rs with
  | nil => rfl
  | cons r rs ih =>
      rw [List.flatMap_cons, List.count_append, ih, count_deliverMessage running msg r hrun,
        List.countP_cons, Nat.add_comm]

end Handing

section Atomicity

/-- One message for each position of the receivers, in order, that the consumer resolves to the
receiver there, and so hands once for each time an agent that runs is listed. -/
structure IndexExact (running : Text → Bool) (msg : ACLMessage) (sent : List ObjectMessage) :
    Prop where
  object : ∀ jms ∈ sent, jms.object = msg
  resolved : sent.map (fun jms => getAid jms jms.object) = msg.receivers.map some
  handed : ∀ str, running str = true →
    (sent.flatMap (processMessage running)).count ⟨str, msg⟩ =
      msg.receivers.countP fun r => r.map AID.str == some str

/-- Either the call throws because of a missing receiver and nothing has been enqueued, or it does
not throw and every receiver has its message. -/
def AllOrNothing (running : Text → Bool) (msg : ACLMessage) (delayMillisec : Int) : Prop :=
  ((post msg delayMillisec).thrown ≠ none ∧ none ∈ msg.receivers ∧
      (post msg delayMillisec).sent = []) ∨
    ((post msg delayMillisec).thrown = none ∧
      IndexExact running msg (post msg delayMillisec).sent)

variable (running : Text → Bool) (msg : ACLMessage) (delayMillisec : Int)

/-- The messages that are resolved to the receivers are handed to them. -/
theorem handed_eq {sent : List ObjectMessage} (hobject : ∀ jms ∈ sent, jms.object = msg)
    (hresolved : sent.map (fun jms => getAid jms jms.object) = msg.receivers.map some) :
    sent.flatMap (processMessage running) =
      msg.receivers.flatMap (deliverMessage running msg) := by
  let hand : Option (Option AID) → List Handed := fun r => r.elim [] (deliverMessage running msg)
  have hsent : sent.flatMap (processMessage running) =
      (sent.map fun jms => getAid jms jms.object).flatMap hand := by
    rw [List.flatMap_map]
    refine List.flatMap_congr fun jms hjms => ?_
    rw [processMessage, hobject jms hjms]
    cases getAid jms msg with
    | none => rfl
    | some aid => rfl
  rw [hsent, hresolved, List.flatMap_map]
  rfl

theorem indexExact_post (h : none ∉ msg.receivers) :
    IndexExact running msg (post msg delayMillisec).sent := by
  have hobject : ∀ jms ∈ (post msg delayMillisec).sent, jms.object = msg :=
    fun jms hjms => object_of_mem_postFrom msg delayMillisec hjms
  have hresolved := postFrom_resolved msg delayMillisec (List.drop_zero (l := msg.receivers)) h
  refine ⟨hobject, hresolved, fun str hrun => ?_⟩
  rw [handed_eq running msg hobject hresolved, count_handed running msg _ hrun]

/-- Posting is all or nothing exactly when no receiver is missing or the first one is. -/
theorem post_atomic_iff :
    AllOrNothing running msg delayMillisec ↔
      none ∉ msg.receivers ∨ msg.receivers.head? = some none := by
  have hthrown := postFrom_thrown msg delayMillisec 0 msg.receivers
  have hnil := postFrom_sent_eq_nil msg delayMillisec 0 msg.receivers
  constructor
  · rintro (⟨-, hmem, hsent⟩ | ⟨hreturned, -⟩)
    · rcases hnil.1 hsent with hempty | hfirst
      · rw [hempty] at hmem
        cases hmem
      · exact .inr hfirst
    · refine .inl fun hmem => ?_
      rw [post, hthrown, if_pos hmem] at hreturned
      cases hreturned
  · rintro (hpresent | hfirst)
    · refine .inr ⟨?_, indexExact_post running msg delayMillisec hpresent⟩
      rw [post, hthrown, if_neg hpresent]
    · have hmem : none ∈ msg.receivers := List.mem_of_mem_head? hfirst
      refine .inl ⟨?_, hmem, hnil.2 (.inr hfirst)⟩
      rw [post, hthrown, if_pos hmem]
      exact Option.some_ne_none _

/-- The message for the receiver before a missing one is enqueued. -/
theorem post_not_atomic :
    ¬ ∀ (running : Text → Bool) (msg : ACLMessage) (delayMillisec : Int),
        AllOrNothing running msg delayMillisec := by
  intro hall
  let ping : AID := AID.ofName (text "ping") (AgentClass.forSiebogEjb (text "Ping"))
  rcases hall (fun _ => false) ⟨[some ping, none], none, []⟩ 0 with ⟨-, -, hsent⟩ | ⟨hreturned, -⟩
  · cases hsent
  · cases hreturned

end Atomicity

end Siebog.Interaction.MessageManager
