import Siebog.Agents.AgentManager
import Siebog.Interaction.MessageManager
import Siebog.Lib.Queue
import Siebog.Lib.Run

/-!
# The platform

Clients and agents post messages, start and stop agents, and ask which agents run, all at the same
time. The messages wait in one JMS queue, for the factory takes the producer of the test clients to
the queue of the agents. The consumer takes them out one by one and hands each to the agent that
runs under its receiver at that moment, if there is one.

A start goes on in steps of its own, and other calls come between them: the identifier is checked,
the old agent is stopped, the bean is looked up, put into the cache and initialised. What an agent
does while it is initialised, or with a message, are other actions of the run.

`accounted` says that no message is lost in the queue, handed twice or made up; `in_order` that
messages for one agent are taken out in the order they were posted in, when the queue keeps the
order of a message group; `registered_reached` that an agent gets its messages from before its
initialisation on.
-/

set_option autoImplicit false

namespace Siebog.Interaction

open Siebog.Lib Siebog.Lib.Utf16 Siebog.Agents Siebog.Agents.AgentManager
  Siebog.Interaction.MessageManager

section Model

variable {α : Type}

/-- The next step of a start. -/
inductive Stage (α : Type) where
  | check (replace : Bool)
  | stop
  | lookup
  | register (agent : α)
  | init (agent : α)
  deriving DecidableEq

/-- A call of `startServerAgent(aid, args, replace)` under way. -/
structure Starting (α : Type) where
  aid : AID
  stage : Stage α
  deriving DecidableEq

/-- A message that was taken out of the queue, and the cache at that moment. -/
structure Taken (α : Type) where
  agents : Cache α
  jms : ObjectMessage

/-- The cache, the starts under way and the queue, with a record of what was enqueued and of what
was taken out. -/
structure Platform (α : Type) where
  agents : Cache α
  starting : List (Starting α)
  queue : List ObjectMessage
  sent : List ObjectMessage
  taken : List (Taken α)

namespace Platform

/-- What the callers of the managers and the container do. The beans that can be looked up may be
others at another time, and `getRunningAgents` looks at any one of the agents. -/
inductive Action (α : Type) where
  | start (aid : AID) (replace : Bool)
  | proceed (E : Container α) (k : ℕ)
  | stop (aid : AID)
  | getRunningAgents (E : Container α) (aid : AID)
  | post (msg : ACLMessage) (delayMillisec : Int)
  | onMessage (k : ℕ)

/-- No agent runs and no message waits. -/
def new (α : Type) : Platform α := ⟨fun _ => none, [], [], [], []⟩

/-- The cache after the next step of a start, and the step after it unless the call ends. -/
def nextStage (E : Container α) (agents : Cache α) (aid : AID) :
    Stage α → Cache α × Option (Stage α)
  | .check replace =>
    -- the test and the stop are two steps, and others can come between them
    if agents.containsKey aid then (agents, if replace then some .stop else none)
    else (agents, some .lookup)
  | .stop => (stopAgent agents aid, some .lookup)
  | .lookup => (agents, (findAgent E aid.agClass).map .register)
  -- the agent is in the cache before its `onInit` runs
  | .register agent => (agents.put aid agent, some (.init agent))
  | .init _ => (agents, none)

/-- The first of the running agents shows whether the beans can still be looked up. -/
def getRunningAgents (E : Container α) (agents : Cache α) (aid : AID) : Cache α :=
  if agents.containsKey aid && (findAgent E aid.agClass).isNone then fun _ => none else agents

/-- One action. `none` when there is no such call under way or no such message in the queue. -/
def step (s : Platform α) : Action α → Option (Platform α)
  | .start aid replace => some { s with starting := s.starting ++ [⟨aid, .check replace⟩] }
  | .proceed E k =>
    match s.starting[k]? with
    | none => none
    | some call =>
      let next := nextStage E s.agents call.aid call.stage
      some { s with
        agents := next.1
        starting := match next.2 with
          | some stage => s.starting.set k ⟨call.aid, stage⟩
          | none => s.starting.eraseIdx k }
  | .stop aid => some { s with agents := stopAgent s.agents aid }
  | .getRunningAgents E aid => some { s with agents := getRunningAgents E s.agents aid }
  | .post msg delayMillisec =>
    let posting := MessageManager.post msg delayMillisec
    some { s with queue := s.queue ++ posting.sent, sent := s.sent ++ posting.sent }
  | .onMessage k =>
    match s.queue[k]? with
    | none => none
    | some jms =>
      some { s with queue := s.queue.eraseIdx k, taken := s.taken ++ [⟨s.agents, jms⟩] }

end Platform

/-- What the consumer does with a message. -/
def Taken.handed (t : Taken α) : List Handed :=
  processMessage (fun str => (t.agents str).isSome) t.jms

end Model

namespace Platform

variable {α : Type}

/-! ## The messages for one agent -/

section History

variable (str : Text)

/-- The message is for the agent with this string. -/
def forAgent (jms : ObjectMessage) : Bool := jms.JMSXGroupID == str

/-- A message without a delay. -/
def prompt (jms : ObjectMessage) : Bool := forAgent str jms && jms.scheduledDelay.isNone

/-- A message is posted once for each time the agent is listed before a missing receiver. -/
def copies (msg : ACLMessage) : List ACLMessage :=
  List.replicate
    ((msg.receivers.takeWhile Option.isSome).countP fun r => r.map AID.str == some str) msg

/-- The messages that an action posts for the agent. -/
def postedTo : Action α → List ACLMessage
  | .post msg _ => copies str msg
  | _ => []

/-- Those among them that are posted without a delay. -/
def promptlyTo : Action α → List ACLMessage
  | .post msg delayMillisec => if delayMillisec > 0 then [] else copies str msg
  | _ => []

variable (s : Platform α)

/-- The messages that were handed to the agents that ran under the string. -/
def handedTo : List ACLMessage :=
  (s.taken.flatMap Taken.handed).filterMap fun h => if h.agent = str then some h.msg else none

/-- The messages that were taken out when no agent ran under the string. -/
def missed : List ACLMessage :=
  (s.taken.filter fun t => forAgent str t.jms && (t.agents str).isNone).map (·.jms.object)

/-- The messages for the agent in the queue. -/
def waitingFor : List ACLMessage := (s.queue.filter (forAgent str)).map ObjectMessage.object

end History

section Posting

/-- A message that the consumer finds its receiver in, which is the one it was grouped by. -/
def Addressed (jms : ObjectMessage) : Prop :=
  ∃ aid, getAid jms jms.object = some (some aid) ∧ aid.str = jms.JMSXGroupID

variable (msg : ACLMessage) (delayMillisec : Int)

/-- A posted message is for one receiver, whom it names. -/
theorem addressed_of_mem_postFrom {i : ℕ} {rs : List (Option AID)}
    (hrest : msg.receivers.drop i = rs) {jms : ObjectMessage}
    (h : jms ∈ (postFrom msg delayMillisec i rs).sent) : Addressed jms := by
  induction rs generalizing i with
  | nil => cases h
  | cons r rs ih =>
      cases r with
      | none => cases h
      | some aid =>
          rcases List.mem_cons.1 h with rfl | hlater
          · refine ⟨aid, ?_, rfl⟩
            have hhere : msg.receivers[i]? = some (some aid) := by
              rw [← List.head?_drop, hrest]
              rfl
            exact hhere
          · refine ih ?_ hlater
            rw [← List.tail_drop, hrest, List.tail_cons]

/-- The messages that are posted for one agent. -/
theorem forAgent_postFrom (str : Text) (i : ℕ) (rs : List (Option AID)) :
    ((postFrom msg delayMillisec i rs).sent.filter (forAgent str)).map ObjectMessage.object =
      List.replicate ((rs.takeWhile Option.isSome).countP fun r => r.map AID.str == some str)
        msg := by
  induction rs generalizing i with
  | nil => rfl
  | cons r rs ih =>
      cases r with
      | none => rfl
      | some aid =>
          rw [postFrom, List.takeWhile_cons_of_pos rfl, List.countP_cons, List.filter_cons]
          by_cases hstr : aid.str = str
          · have hfor : forAgent str (postToReceiver msg aid i delayMillisec) = true :=
              beq_iff_eq.2 hstr
            rw [if_pos hfor, List.map_cons, ih, if_pos (by simp [hstr]), List.replicate_succ]
            rfl
          · have hfor : ¬ forAgent str (postToReceiver msg aid i delayMillisec) = true :=
              fun h => hstr (beq_iff_eq.1 h)
            rw [if_neg hfor, ih, if_neg (by simp [hstr]), Nat.add_zero]

/-- A posted message has the delay of the post, if that is one. -/
theorem scheduledDelay_of_mem_postFrom {i : ℕ} {rs : List (Option AID)} {jms : ObjectMessage}
    (h : jms ∈ (postFrom msg delayMillisec i rs).sent) :
    jms.scheduledDelay = if delayMillisec > 0 then some delayMillisec else none := by
  induction rs generalizing i with
  | nil => cases h
  | cons r rs ih =>
      cases r with
      | none => cases h
      | some aid =>
          rcases List.mem_cons.1 h with rfl | hlater
          · rfl
          · exact ih hlater

/-- What an action enqueues. -/
def sentBy : Action α → List ObjectMessage
  | .post msg delayMillisec => (MessageManager.post msg delayMillisec).sent
  | _ => []

/-- Every message that is sent names its receiver. -/
theorem addressed_of_mem_sentBy {a : Action α} {jms : ObjectMessage} (h : jms ∈ sentBy a) :
    Addressed jms := by
  cases a with
  | post msg delayMillisec => exact addressed_of_mem_postFrom msg delayMillisec List.drop_zero h
  | _ => cases h

/-- The messages sent for an agent are those posted to it. -/
theorem forAgent_sentBy (str : Text) (a : Action α) :
    ((sentBy a).filter (forAgent str)).map ObjectMessage.object = postedTo str a := by
  cases a with
  | post msg delayMillisec => exact forAgent_postFrom msg delayMillisec str 0 msg.receivers
  | _ => rfl

/-- The messages sent for an agent without delay are those posted to it without. -/
theorem prompt_sentBy (str : Text) (a : Action α) :
    ((sentBy a).filter (prompt str)).map ObjectMessage.object = promptlyTo str a := by
  cases a with
  | post msg delayMillisec =>
      rw [promptlyTo]
      have hdelay := fun jms (hjms : jms ∈ (MessageManager.post msg delayMillisec).sent) =>
        scheduledDelay_of_mem_postFrom msg delayMillisec hjms
      split_ifs with hpositive
      · have hnone : (sentBy (.post msg delayMillisec : Action α)).filter (prompt str) = [] := by
          refine List.filter_eq_nil_iff.2 fun jms hjms => ?_
          rw [prompt, hdelay jms hjms, if_pos hpositive]
          simp
        rw [hnone]
        rfl
      · have hall : (sentBy (.post msg delayMillisec : Action α)).filter (prompt str) =
            (sentBy (.post msg delayMillisec : Action α)).filter (forAgent str) := by
          refine List.filter_congr fun jms hjms => ?_
          rw [prompt, hdelay jms hjms, if_neg hpositive]
          simp
        rw [hall]
        exact forAgent_sentBy str _
  | _ => rfl

end Posting

/-! ## What a step does to the messages -/

section Steps

variable {s s' : Platform α} {a : Action α}

/-- An action enqueues messages, or takes one out, or leaves them alone. -/
theorem step_mail (h : step s a = some s') :
    (s'.sent = s.sent ++ sentBy a ∧ s'.queue = s.queue ++ sentBy a ∧ s'.taken = s.taken) ∨
      ∃ k jms, a = .onMessage k ∧ s.queue[k]? = some jms ∧ s'.sent = s.sent ∧
        s'.queue = s.queue.eraseIdx k ∧ s'.taken = s.taken ++ [⟨s.agents, jms⟩] := by
  -- only `post` sends, and only `onMessage` takes
  cases a with
  | start aid replace =>
      cases h
      exact .inl ⟨(List.append_nil _).symm, (List.append_nil _).symm, rfl⟩
  | proceed E k =>
      rw [step] at h
      cases hk : s.starting[k]? with
      | none =>
          rw [hk] at h
          cases h
      | some call =>
          rw [hk] at h
          cases h
          exact .inl ⟨(List.append_nil _).symm, (List.append_nil _).symm, rfl⟩
  | stop aid =>
      cases h
      exact .inl ⟨(List.append_nil _).symm, (List.append_nil _).symm, rfl⟩
  | getRunningAgents E aid =>
      cases h
      exact .inl ⟨(List.append_nil _).symm, (List.append_nil _).symm, rfl⟩
  | post msg delayMillisec =>
      cases h
      exact .inl ⟨rfl, rfl, rfl⟩
  | onMessage k =>
      rw [step] at h
      cases hk : s.queue[k]? with
      | none =>
          rw [hk] at h
          cases h
      | some jms =>
          rw [hk] at h
          cases h
          exact .inr ⟨k, jms, rfl, hk, rfl, rfl, rfl⟩

/-- A step sends what its action sends. -/
theorem sent_step (h : step s a = some s') : s'.sent = s.sent ++ sentBy a := by
  rcases step_mail h with ⟨hsent, -, -⟩ | ⟨k, jms, rfl, -, hsent, -, -⟩
  · exact hsent
  · rw [hsent]
    exact (List.append_nil _).symm

/-- A run sends what its actions send, in their order. -/
theorem sent_execute {acts : List (Action α)} (h : execute step (new α) acts = some s) :
    s.sent = acts.flatMap sentBy :=
  execute_log (fun _ _ _ => sent_step) h

/-- Everything enqueued is taken out once or still waiting, and has a receiver. -/
structure Exact (s : Platform α) : Prop where
  perm : s.sent.Perm (s.taken.map Taken.jms ++ s.queue)
  addressed : ∀ jms ∈ s.sent, Addressed jms

/-- Nothing has been sent at the start. -/
theorem exact_new : Exact (new α) := ⟨List.Perm.refl _, fun _ h => absurd h List.not_mem_nil⟩

/-- A step loses no message and makes up none. -/
theorem Exact.step (hs : s.Exact) (h : step s a = some s') : s'.Exact := by
  have haddressed : ∀ jms ∈ s'.sent, Addressed jms := by
    intro jms hjms
    rw [sent_step h] at hjms
    rcases List.mem_append.1 hjms with hjms | hjms
    · exact hs.addressed jms hjms
    · exact addressed_of_mem_sentBy hjms
  rcases step_mail h with ⟨hsent, hqueue, htaken⟩ | ⟨k, jms, rfl, hk, hsent, hqueue, htaken⟩
  · refine ⟨?_, haddressed⟩
    rw [hsent, hqueue, htaken]
    exact Queue.perm_put hs.perm _
  · refine ⟨?_, haddressed⟩
    rw [hsent, hqueue, htaken, List.map_append]
    exact Queue.perm_take hs.perm hk

end Steps

/-! ## Every message is accounted for -/

section Accounting

/-- The consumer hands a message with a receiver to the agent that runs under it, and to nobody
else. -/
theorem handed_of_addressed {t : Taken α} (h : Addressed t.jms) :
    t.handed =
      if (t.agents t.jms.JMSXGroupID).isSome then [⟨t.jms.JMSXGroupID, t.jms.object⟩] else [] := by
  obtain ⟨aid, haid, hstr⟩ := h
  rw [Taken.handed, processMessage, haid, ← hstr]
  rfl

/-- What was taken out for an agent was handed to it or missed. -/
theorem handed_append_missed (str : Text) {s : Platform α}
    (h : ∀ t ∈ s.taken, Addressed t.jms) :
    ((s.taken.map Taken.jms).filter (forAgent str)).map ObjectMessage.object |>.Perm
      (s.handedTo str ++ s.missed str) := by
  rw [handedTo, missed]
  generalize s.taken = taken at h
  induction taken with
  | nil => exact List.Perm.refl _
  | cons t taken ih =>
      have hrest := ih fun t ht => h t (List.mem_cons_of_mem _ ht)
      have ht := handed_of_addressed (h t List.mem_cons_self)
      rw [List.map_cons, List.flatMap_cons, List.filterMap_append, ht]
      by_cases hfor : forAgent str t.jms = true
      · have hstr : t.jms.JMSXGroupID = str := beq_iff_eq.1 hfor
        cases hrun : t.agents str with
        | none =>
            have hmissed := (hrest.cons t.jms.object).trans List.perm_middle.symm
            simpa [hfor, hstr, hrun] using hmissed
        | some agent => simpa [hfor, hstr, hrun] using hrest
      · have hstr : t.jms.JMSXGroupID ≠ str := fun heq => hfor (beq_iff_eq.2 heq)
        cases hrun : (t.agents t.jms.JMSXGroupID).isSome <;> simpa [hfor, hstr, hrun] using hrest

/-- Every message that is taken names its receiver. -/
theorem Exact.addressed_taken {s : Platform α} (hs : s.Exact) :
    ∀ t ∈ s.taken, Addressed t.jms := fun _ ht =>
  hs.addressed _ (hs.perm.mem_iff.2 (List.mem_append_left _ (List.mem_map_of_mem ht)))

/-- A run loses no message and makes up none. -/
theorem exact_execute {acts : List (Action α)} {s t : Platform α} (hs : s.Exact)
    (h : execute step s acts = some t) : t.Exact :=
  (along_of_forall (fun _ _ => trivial) s acts : Along step (fun _ _ => True) s acts).invariant
    (fun _ _ _ hs _ => hs.step) hs h

/-- In every run, the messages that were posted for an agent are those that were handed to it, those
taken out when it was not running, and those still waiting. -/
theorem accounted {acts : List (Action α)} {s : Platform α}
    (h : execute step (new α) acts = some s) (str : Text) :
    (acts.flatMap (postedTo str)).Perm (s.handedTo str ++ s.missed str ++ s.waitingFor str) := by
  have hexact : s.Exact := exact_execute exact_new h
  have hposted : acts.flatMap (postedTo str) =
      (s.sent.filter (forAgent str)).map ObjectMessage.object := by
    rw [sent_execute h, List.filter_flatMap, List.map_flatMap]
    exact List.flatMap_congr fun a _ => (forAgent_sentBy str a).symm
  have hsplit := (hexact.perm.filter (forAgent str)).map ObjectMessage.object
  rw [List.filter_append, List.map_append] at hsplit
  rw [hposted]
  exact hsplit.trans ((handed_append_missed str hexact.addressed_taken).append_right _)

/-- An agent, a container that has its bean, and a message with the agent listed twice. -/
def ping : AID := AID.ofName (text "ping") (AgentClass.forSiebogEjb (text "Ping"))

def pingContainer : Container ℕ := ⟨fun _ => some 1, fun _ _ _ c => (c, none)⟩

def hello : ACLMessage := ⟨[some ping, some ping], none, text "hello"⟩

def early : ACLMessage := ⟨[some ping], none, text "early"⟩

/-- The first message comes before its receiver has started. -/
def pingRun : List (Action ℕ) :=
  [.post early 0, .onMessage 0, .start ping true, .proceed pingContainer 0,
    .proceed pingContainer 0, .proceed pingContainer 0, .post hello 0, .onMessage 0]

theorem accounted_ping :
    ∃ s, execute step (new ℕ) pingRun = some s ∧
      (s.handedTo ping.str, s.missed ping.str, s.waitingFor ping.str) =
        ([hello], [early], [hello]) ∧
      (pingRun.flatMap (postedTo ping.str)).Perm
        (s.handedTo ping.str ++ s.missed ping.str ++ s.waitingFor ping.str) := by
  have hrun : (execute step (new ℕ) pingRun).map (fun s =>
      (s.handedTo ping.str, s.missed ping.str, s.waitingFor ping.str)) =
      some ([hello], [early], [hello]) := by decide +kernel
  obtain ⟨s, hs, hend⟩ := Option.map_eq_some_iff.1 hrun
  exact ⟨s, hs, hend, accounted hs ping.str⟩

end Accounting

/-! ## The order of the messages for one agent -/

section Order

/-- What the queue promises of a group: its messages go to one consumer in their order, but for those
that are due later. -/
def Grouped (s : Platform α) : Action α → Prop
  | .onMessage k => ∀ jms, s.queue[k]? = some jms → jms.scheduledDelay = none →
      ∀ earlier ∈ s.queue.take k, earlier.scheduledDelay = none →
        earlier.JMSXGroupID ≠ jms.JMSXGroupID
  | _ => True

/-- The messages without a delay that were taken out for an agent. -/
def promptlyTaken (str : Text) (s : Platform α) : List ACLMessage :=
  ((s.taken.map Taken.jms).filter (prompt str)).map ObjectMessage.object

/-- The messages for the agent in the queue that have no delay. -/
def promptlyWaiting (str : Text) (s : Platform α) : List ACLMessage :=
  (s.queue.filter (prompt str)).map ObjectMessage.object

/-- The messages for the agent without a delay have been taken out in the order they were sent in.
-/
def InOrder (str : Text) (s : Platform α) : Prop :=
  s.sent.filter (prompt str) = (s.taken.map Taken.jms ++ s.queue).filter (prompt str)

/-- A step keeps the order of an agent's messages, if the queue keeps that of the group. -/
theorem InOrder.step {str : Text} {s s' : Platform α} {a : Action α} (hs : s.InOrder str)
    (hgrouped : s.Grouped a) (h : step s a = some s') : s'.InOrder str := by
  rcases step_mail h with ⟨hsent, hqueue, htaken⟩ | ⟨k, jms, rfl, hk, hsent, hqueue, htaken⟩
  · rw [InOrder, hsent, hqueue, htaken]
    exact Queue.filter_put hs _
  · rw [InOrder, hsent, hqueue, htaken, List.map_append]
    refine Queue.filter_take hs hk ?_
    intro hprompt earlier hearlier
    simp only [prompt, forAgent, Bool.and_eq_true, beq_iff_eq, Option.isNone_iff_eq_none] at hprompt
    -- a prompt message for the same agent would be an earlier one of the group
    by_contra hne
    rw [Bool.not_eq_false] at hne
    simp only [prompt, forAgent, Bool.and_eq_true, beq_iff_eq, Option.isNone_iff_eq_none] at hne
    exact hgrouped jms hk hprompt.2 earlier hearlier hne.2 (hne.1.trans hprompt.1.symm)

/-- In every run of a queue that keeps its promise, the messages posted for an agent without a delay
are taken out in the order they were posted in, whoever posted them. -/
theorem in_order {acts : List (Action α)} {s : Platform α}
    (h : execute step (new α) acts = some s) (hgrouped : Along step Grouped (new α) acts)
    (str : Text) :
    acts.flatMap (promptlyTo str) = s.promptlyTaken str ++ s.promptlyWaiting str := by
  have horder : s.InOrder str := hgrouped.invariant (fun _ _ _ hs hq => hs.step hq) rfl h
  have hposted : acts.flatMap (promptlyTo str) =
      (s.sent.filter (prompt str)).map ObjectMessage.object := by
    rw [sent_execute h, List.filter_flatMap, List.map_flatMap]
    exact List.flatMap_congr fun a _ => (prompt_sentBy str a).symm
  rw [hposted, horder, List.filter_append, List.map_append]
  rfl

def orderRun : List (Action ℕ) :=
  [.post early 0, .post hello 10, .post hello 0, .onMessage 0, .onMessage 2]

theorem grouped_orderRun : Along step Grouped (new ℕ) orderRun := by
  refine ⟨trivial, ?_⟩
  rintro _ ⟨⟩
  refine ⟨trivial, ?_⟩
  rintro _ ⟨⟩
  refine ⟨trivial, ?_⟩
  rintro _ ⟨⟩
  refine ⟨?_, ?_⟩
  · intro jms _ _ earlier hearlier
    cases hearlier
  rintro _ ⟨⟩
  refine ⟨?_, fun _ _ => trivial⟩
  intro jms _ _ earlier hearlier hprompt
  -- the messages before it have a delay
  have hdelayed : earlier ∈ [postToReceiver hello ping 0 10, postToReceiver hello ping 1 10] :=
    hearlier
  simp only [List.mem_cons, List.not_mem_nil, or_false] at hdelayed
  rcases hdelayed with rfl | rfl
  · cases hprompt
  · cases hprompt

/-- Delayed messages are overtaken. -/
theorem in_order_ping :
    ∃ s, execute step (new ℕ) orderRun = some s ∧ promptlyTaken ping.str s = [early, hello] ∧
      orderRun.flatMap (promptlyTo ping.str) =
        promptlyTaken ping.str s ++ promptlyWaiting ping.str s := by
  have hrun : (execute step (new ℕ) orderRun).map (promptlyTaken ping.str) =
      some [early, hello] := by decide +kernel
  obtain ⟨s, hs, htaken⟩ := Option.map_eq_some_iff.1 hrun
  exact ⟨s, hs, htaken, in_order hs grouped_orderRun ping.str⟩

end Order

/-! ## A start on its own -/

section Alone

variable (s : Platform α) (E : Container α)

/-- The platform with a start that was begun last, and without it. -/
def during (agents : Cache α) (call : Starting α) : Platform α :=
  { s with agents := agents, starting := s.starting ++ [call] }

/-- The platform with another cache. -/
def afterwards (agents : Cache α) : Platform α := { s with agents := agents }

variable (aid : AID)

/-- The start that was begun last makes its next step. -/
theorem proceed_during (agents : Cache α) (stage : Stage α) :
    step (s.during agents ⟨aid, stage⟩) (.proceed E s.starting.length) =
      some (match (nextStage E agents aid stage).2 with
        | some stage' => s.during (nextStage E agents aid stage).1 ⟨aid, stage'⟩
        | none => s.afterwards (nextStage E agents aid stage).1) := by
  have hlast : (s.during agents ⟨aid, stage⟩).starting[s.starting.length]? = some ⟨aid, stage⟩ := by
    simp [during]
  rw [step, hlast]
  cases hnext : (nextStage E agents aid stage).2 with
  | none => simp [during, afterwards, hnext, List.eraseIdx_append_of_length_le]
  | some stage' => simp [during, hnext]

/-- The steps from the lookup on. -/
theorem execute_lookup (agents : Cache α) :
    ∃ n, execute step (s.during agents ⟨aid, .lookup⟩)
        (List.replicate n (.proceed E s.starting.length)) =
      some (s.afterwards (match findAgent E aid.agClass with
        | none => agents
        | some agent => agents.put aid agent)) := by
  cases hfound : findAgent E aid.agClass with
  | none =>
      refine ⟨1, ?_⟩
      rw [List.replicate_one, execute, proceed_during]
      simp only [nextStage, hfound]
      rfl
  | some agent =>
      -- the bean is put into the cache, and then initialised
      refine ⟨3, ?_⟩
      rw [List.replicate_succ, execute, proceed_during]
      simp only [nextStage, hfound, Option.map_some, Option.bind_some]
      rw [List.replicate_succ, execute, proceed_during]
      simp only [nextStage, Option.bind_some]
      rw [List.replicate_one, execute, proceed_during]
      rfl

/-- Where nothing comes between its steps, and the initialisation leaves the cache alone, a start
does to the cache what the whole call does. -/
theorem start_alone (args : Option AgentManager.AgentInitArgs) (replace : Bool)
    (hinit : ∀ agent c, E.init agent aid args c = (c, none)) :
    ∃ n, execute step s (.start aid replace :: List.replicate n (.proceed E s.starting.length)) =
      some (s.afterwards (startReplace E s.agents aid args replace).after) := by
  have hbegin : ∀ acts, execute step s (.start aid replace :: acts) =
      execute step (s.during s.agents ⟨aid, .check replace⟩) acts := fun _ => rfl
  -- the call as a whole, once the old agent is gone
  have hreplacing : (replacing E s.agents aid args).after =
      match findAgent E aid.agClass with
      | none => s.agents.remove aid
      | some agent => s.agents.put aid agent := by
    rw [replacing]
    cases findAgent E aid.agClass with
    | none => rfl
    | some agent => simp [Call.after, hinit]
  obtain ⟨n, hn⟩ := execute_lookup s E aid (s.agents.remove aid)
  simp only [put_remove] at hn
  rw [startReplace_eq]
  cases hkey : s.agents.containsKey aid with
  | false =>
      have hremove : s.agents.remove aid = s.agents := by
        have hstopped := stopped_eq s.agents aid
        rwa [hkey, if_neg (by decide), eq_comm] at hstopped
      refine ⟨n + 1, ?_⟩
      rw [hbegin, List.replicate_succ, execute, proceed_during]
      simp only [nextStage, hkey, Bool.false_eq_true, false_and, if_false, Option.bind_some,
        hreplacing]
      rw [hremove] at hn
      rw [hremove]
      exact hn
  | true =>
      cases replace with
      | false =>
          refine ⟨1, ?_⟩
          rw [hbegin, List.replicate_one, execute, proceed_during]
          simp only [nextStage, hkey, if_true]
          rfl
      | true =>
          have hstop : stopAgent s.agents aid = s.agents.remove aid := if_pos hkey
          refine ⟨n + 2, ?_⟩
          rw [hbegin, List.replicate_succ, execute, proceed_during]
          simp only [nextStage, hkey, if_true, Option.bind_some]
          rw [List.replicate_succ, execute, proceed_during]
          simp only [nextStage, hstop, Option.bind_some, Bool.true_eq_false, and_false, if_false,
            hreplacing]
          exact hn

end Alone

/-! ## An agent that has been registered -/

section Registration

variable {s s' : Platform α} {a : Action α} {str : Text}

/-- The action does not take the agent under `str` out of the cache, and does not put another one
there. -/
def Spares (str : Text) (s : Platform α) : Action α → Prop
  | .proceed _ k => ∀ call, s.starting[k]? = some call → call.aid.str = str →
      call.stage ≠ .stop ∧ ∀ agent, call.stage ≠ .register agent
  | .stop aid => aid.str ≠ str
  | .getRunningAgents E aid => (findAgent E aid.agClass).isSome
  | _ => True

/-- The cache changes for one agent only, when it is stopped or registered. -/
theorem agents_nextStage (E : Container α) (agents : Cache α) {aid : AID} {stage : Stage α}
    (h : aid.str = str → stage ≠ .stop ∧ ∀ agent, stage ≠ .register agent) :
    (nextStage E agents aid stage).1 str = agents str := by
  cases stage with
  | check replace =>
      rw [nextStage]
      split_ifs <;> rfl
  | stop =>
      have hne : str ≠ aid.str := fun heq => (h heq.symm).1 rfl
      rw [nextStage, stopAgent]
      split_ifs
      · exact Function.update_of_ne hne _ _
      · rfl
  | lookup => rfl
  | register agent =>
      have hne : str ≠ aid.str := fun heq => (h heq.symm).2 agent rfl
      exact Function.update_of_ne hne _ _
  | init agent => rfl

/-- A step that spares an agent leaves its place in the cache as it is. -/
theorem agents_step (hspares : s.Spares str a) (h : step s a = some s') :
    s'.agents str = s.agents str := by
  cases a with
  | start aid replace =>
      cases h
      rfl
  | proceed E k =>
      rw [step] at h
      cases hk : s.starting[k]? with
      | none =>
          rw [hk] at h
          cases h
      | some call =>
          rw [hk] at h
          cases h
          exact agents_nextStage E s.agents (hspares call hk)
  | stop aid =>
      cases h
      -- another agent is stopped
      have hne : str ≠ aid.str := fun heq => hspares heq.symm
      simp only [stopAgent]
      split_ifs
      · exact Function.update_of_ne hne _ _
      · rfl
  | getRunningAgents E aid =>
      cases h
      obtain ⟨agent, hagent⟩ := Option.isSome_iff_exists.1 hspares
      simp [getRunningAgents, hagent]
  | post msg delayMillisec =>
      cases h
      rfl
  | onMessage k =>
      rw [step] at h
      cases hk : s.queue[k]? with
      | none =>
          rw [hk] at h
          cases h
      | some jms =>
          rw [hk] at h
          cases h
          rfl

/-- What is taken out while the agent is left alone is taken out in its presence. -/
theorem taken_spared {agent : α} {acts : List (Action α)} (hagent : s.agents str = some agent)
    (hspares : Along step (Spares str) s acts) (h : execute step s acts = some s') :
    ∃ later, s'.taken = s.taken ++ later ∧ ∀ t ∈ later, t.agents str = some agent := by
  let Inv : Platform α → Prop := fun t => t.agents str = some agent ∧
    ∃ later, t.taken = s.taken ++ later ∧ ∀ m ∈ later, m.agents str = some agent
  have hstep : ∀ t a t', Inv t → t.Spares str a → step t a = some t' → Inv t' := by
    rintro t a t' ⟨ht, later, htaken, hlater⟩ hspares hstep
    refine ⟨(agents_step hspares hstep).trans ht, ?_⟩
    rcases step_mail hstep with ⟨-, -, hsame⟩ | ⟨k, jms, -, -, -, -, hmore⟩
    · exact ⟨later, hsame.trans htaken, hlater⟩
    · refine ⟨later ++ [⟨t.agents, jms⟩], by rw [hmore, htaken, List.append_assoc], ?_⟩
      intro m hm
      rcases List.mem_append.1 hm with hm | hm
      · exact hlater m hm
      · rw [List.mem_singleton.1 hm]
        exact ht
  have hinit : Inv s := ⟨hagent, [], (List.append_nil _).symm, fun _ hm => absurd hm List.not_mem_nil⟩
  exact (hspares.invariant hstep hinit h).2

/-- From the step that puts an agent into the cache on, after which its initialisation comes, every
message taken out for it is handed to it, until it is stopped or replaced or the cache is cleared. -/
theorem registered_reached {acts later : List (Action α)} {s t : Platform α} {E : Container α}
    {k : ℕ} {aid : AID} {agent : α} (hs : execute step (new α) acts = some s)
    (hcall : s.starting[k]? = some ⟨aid, .register agent⟩)
    (ht : execute step s (.proceed E k :: later) = some t)
    (hspares : ∀ s', step s (.proceed E k) = some s' → Along step (Spares aid.str) s' later) :
    (∃ s', step s (.proceed E k) = some s' ∧ s'.starting[k]? = some ⟨aid, .init agent⟩) ∧
      ∃ taken, t.taken = s.taken ++ taken ∧ ∀ m ∈ taken, m.jms.JMSXGroupID = aid.str →
        m.agents aid.str = some agent ∧ m.handed = [⟨aid.str, m.jms.object⟩] := by
  obtain ⟨s', hs', ht'⟩ := Option.bind_eq_some_iff.1 ht
  have hregistered : s'.agents aid.str = some agent ∧ s'.taken = s.taken ∧
      s'.starting[k]? = some ⟨aid, .init agent⟩ := by
    have hk : k < s.starting.length := (List.getElem?_eq_some_iff.1 hcall).1
    rw [step, hcall] at hs'
    cases hs'
    exact ⟨Function.update_self _ _ _, rfl, List.getElem?_set_self hk⟩
  obtain ⟨hagent, hsame, hnext⟩ := hregistered
  obtain ⟨taken, htaken, hpresent⟩ := taken_spared hagent (hspares s' hs') ht'
  have hexact : t.Exact := exact_execute ((exact_execute exact_new hs).step hs') ht'
  refine ⟨⟨s', hs', hnext⟩, taken, htaken.trans (congrArg (· ++ taken) hsame), fun m hm hstr => ?_⟩
  have hmem : m ∈ t.taken := by
    rw [htaken]
    exact List.mem_append_right _ hm
  refine ⟨hpresent m hm, ?_⟩
  rw [handed_of_addressed (hexact.addressed_taken m hmem), hstr, hpresent m hm]
  rfl

/-- The agent posts to itself while it is initialised. -/
theorem registered_reached_ping :
    ∃ s t : Platform ℕ, ∃ taken,
      execute step s [.proceed pingContainer 0, .post early 0, .onMessage 0] = some t ∧
      t.taken = s.taken ++ taken ∧ ∀ m ∈ taken, m.jms.JMSXGroupID = ping.str →
        m.agents ping.str = some 1 ∧ m.handed = [⟨ping.str, m.jms.object⟩] := by
  have hs : execute step (new ℕ) [.start ping true, .proceed pingContainer 0,
      .proceed pingContainer 0] = some ⟨fun _ => none, [⟨ping, .register 1⟩], [], [], []⟩ := rfl
  have hrun : (execute step (⟨fun _ => none, [⟨ping, .register 1⟩], [], [], []⟩ : Platform ℕ)
      [.proceed pingContainer 0, .post early 0, .onMessage 0]).map (fun t => t.queue) =
      some [] := by decide +kernel
  obtain ⟨t, ht, -⟩ := Option.map_eq_some_iff.1 hrun
  obtain ⟨-, taken, htaken⟩ := registered_reached hs rfl ht fun s' _ =>
    ⟨trivial, fun _ _ => ⟨trivial, fun _ _ => trivial⟩⟩
  exact ⟨_, t, taken, ht, htaken⟩

end Registration

end Platform

end Siebog.Interaction
