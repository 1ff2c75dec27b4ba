import Mathlib.Data.List.Nodup

/-!
# Routing in the browser client

A message posted in a client goes to the workers of the receivers that the client runs; the other
receivers stay in the message, which is then handed to the service object of the server.

The routing looks at the `radigost` flag of a receiver first: a browser agent of another client has
the flag and no worker here, and is dropped. The service object is called by the name `post`, which
is none of its functions. `post_routes_iff` says for which messages the routing does what it is for.
-/

set_option autoImplicit false

namespace Siebog.Radigost.Routing

section Model

/-- An identifier in the browser. -/
structure AID where
  str : String
  radigost : Bool
  deriving DecidableEq

/-- The receivers of a message and what it says. -/
structure Message where
  receivers : List AID
  content : String
  deriving DecidableEq

/-- Workers are told apart by numbers. -/
abbrev Worker := ℕ

/-- An agent of the client. One without a worker cannot be posted to. -/
structure Agent where
  worker : Option Worker

/-- The `running` table of a client. No two agents have one worker: `start` makes a new one. -/
structure Client where
  running : String → Option Agent
  distinct : ∀ k ag k' ag' w, running k = some ag → running k' = some ag' →
    ag.worker = some w → ag'.worker = some w → k = k'

namespace Client

/-- The running agent with an identifier, looked up by the identifier's text. -/
def getAgent (c : Client) (aid : AID) : Option Agent := c.running aid.str

/-- A client without agents. -/
def empty : Client where
  running _ := none
  distinct := by
    intro k ag k' ag' w h
    cases h

/-- The agent's worker is one that no running agent has. -/
def putAgent (c : Client) (aid : AID) (ag : Agent)
    (hnew : ∀ k ag' w, c.running k = some ag' → ag.worker = some w → ag'.worker ≠ some w) :
    Client where
  running k := if k = aid.str then some ag else c.running k
  distinct := by
    intro k ag₁ k' ag₂ w h₁ h₂ hw₁ hw₂
    split_ifs at h₁ h₂ with hk hk'
    · rw [hk, hk']
    · cases h₁
      exact absurd hw₂ (hnew k' ag₂ w h₂ hw₁)
    · cases h₂
      exact absurd hw₁ (hnew k ag₁ w h₁ hw₂)
    · exact c.distinct k ag₁ k' ag₂ w h₁ h₂ hw₁ hw₂

/-- The worker that a receiver's agent has in this client. -/
def worker (c : Client) (aid : AID) : Option Worker := (c.getAgent aid).bind Agent.worker

end Client

/-! ### The service object of the server -/

/-- Whether a member of an object can be called. -/
inductive Member where
  | data
  | function
  deriving DecidableEq

/-- What the service object consists of. -/
def XJAF : List (String × Member) :=
  [("agentManagerUrl", .data), ("messageManagerUrl", .data), ("agents", .data),
    ("getAgentClasses", .function), ("getRunning", .function), ("startAgent", .function),
    ("getPerformatives", .function), ("sendMessage", .function), ("accept", .function)]

/-- A message handed to a member of the service object. -/
def call (name : String) (message : Message) : Except String Message :=
  match XJAF.lookup name with
  | some .function => .ok message
  | _ => .error ("TypeError: xjaf." ++ name ++ " is not a function")

/-! ### Posting -/

/-- The copies posted to workers, the messages handed to the server, and the exception. -/
structure Outcome where
  posted : List (Worker × Message)
  requests : List Message
  thrown : Option String

/-- The message goes to the server after the copies have been posted. -/
def handOver (posted : List (Worker × Message)) (name : String) (message : Message) : Outcome :=
  match call name message with
  | .ok request => ⟨posted, [request], none⟩
  | .error e => ⟨posted, [], some e⟩

/-- Hand a message to the server as it is. -/
def postToServer (message : Message) : Outcome := handOver [] "sendMessage" message

/-- The loop over the receivers: the copies posted, and the receivers for the server. A worker gets
a copy of the message as it is at that time. -/
def route (c : Client) (message : Message) : List AID → List (Worker × Message) × List AID
  | [] => ([], [])
  | aid :: rest =>
    let later := route c message rest
    if aid.radigost then
      match c.getAgent aid with
      | some ⟨some w⟩ => ((w, message) :: later.1, later.2)
      -- an agent of another client, or one without a worker, is dropped
      | _ => later
    else (later.1, aid :: later.2)

/-- Post a message: copies to the workers, and the rest of the receivers to the server. -/
def post (c : Client) (message : Message) : Outcome :=
  let routed := route c message message.receivers
  if routed.2.length > 0 then handOver routed.1 "post" { message with receivers := routed.2 }
  else ⟨routed.1, [], none⟩

end Model

section Loop

variable (c : Client) (message : Message)

/-- The server gets the receivers without the flag. -/
theorem route_server (receivers : List AID) :
    (route c message receivers).2 = receivers.filter fun aid => !aid.radigost := by
  induction receivers with
  | nil => rfl
  | cons aid rest ih =>
      cases hflag : aid.radigost with
      | true =>
          rw [route, if_pos hflag, List.filter_cons_of_neg (by simp [hflag]), ← ih]
          split
          · rfl
          · rfl
      | false =>
          rw [route, if_neg (by simp [hflag]), List.filter_cons_of_pos (by simp [hflag]), ← ih]

/-- A copy goes to the worker of each receiver with the flag that has one. -/
theorem route_posted (receivers : List AID) :
    (route c message receivers).1 =
      (receivers.filter AID.radigost).filterMap fun aid => (c.worker aid).map (·, message) := by
  induction receivers with
  | nil => rfl
  | cons aid rest ih =>
      cases hflag : aid.radigost with
      | true =>
          rw [route, if_pos hflag, List.filter_cons_of_pos hflag, List.filterMap_cons, ← ih]
          cases hagent : c.getAgent aid with
          | none => simp [Client.worker, hagent]
          | some ag =>
              obtain ⟨w⟩ := ag
              cases w with
              | none => simp [Client.worker, hagent]
              | some w => simp [Client.worker, hagent]
      | false =>
          rw [route, if_neg (by simp [hflag]), List.filter_cons_of_neg (by simp [hflag]), ← ih]

/-- Calling the server by a name it does not have ends the posting. -/
theorem post_eq :
    post c message =
      if (message.receivers.filter fun aid => !aid.radigost) = [] then
        ⟨(route c message message.receivers).1, [], none⟩
      else ⟨(route c message message.receivers).1, [],
        some "TypeError: xjaf.post is not a function"⟩ := by
  rw [← route_server c message message.receivers]
  unfold post
  cases hserver : (route c message message.receivers).2 with
  | nil => simp only [hserver, List.length_nil, gt_iff_lt, Nat.lt_irrefl, if_false, if_true]
  | cons aid rest =>
      have hpost : XJAF.lookup "post" = none := rfl
      simp [hserver, handOver, call, hpost]

/-- `postToServer` calls `sendMessage`, which is there. -/
example : postToServer message = ⟨[], [message], none⟩ := rfl

end Loop

section Routes

/-- The receivers that the client runs no worker for. -/
def remaining (c : Client) (message : Message) : List AID :=
  message.receivers.filter fun aid => (c.worker aid).isNone

/-- What the routing is for: one copy to each worker of a receiver and to no other, one message for
the server with the other receivers, none when there are none, and no exception. -/
structure Routes (c : Client) (message : Message) (out : Outcome) : Prop where
  returned : out.thrown = none
  once : ∀ aid ∈ message.receivers, ∀ w, c.worker aid = some w →
    out.posted.count (w, message) = 1
  only : ∀ copy ∈ out.posted, copy.2 = message ∧
    ∃ aid ∈ message.receivers, c.worker aid = some copy.1
  server : out.requests = if remaining c message = [] then []
    else [{ message with receivers := remaining c message }]

variable (c : Client) (message : Message)

/-- Distinct receivers have distinct workers. -/
theorem nodup_copies (hdistinct : (message.receivers.map AID.str).Nodup) :
    (message.receivers.filterMap fun aid => (c.worker aid).map (·, message)).Nodup := by
  have hpairwise := List.pairwise_map.1 hdistinct
  refine List.pairwise_filterMap.2 (hpairwise.imp ?_)
  rintro a b hne copy ha _ hb rfl
  simp only [Client.worker, Client.getAgent, Option.map_eq_some_iff, Option.bind_eq_some_iff]
    at ha hb
  obtain ⟨w, ⟨ag, hag, hw⟩, rfl⟩ := ha
  obtain ⟨w', ⟨ag', hag', hw'⟩, heq⟩ := hb
  cases heq
  exact hne (c.distinct _ _ _ _ w hag hag' hw hw')

/-- Every receiver has the flag and a worker here: the copies are all there is to do. -/
theorem routes_of_local (hdistinct : (message.receivers.map AID.str).Nodup)
    (hlocal : ∀ aid ∈ message.receivers, aid.radigost = true ∧ (c.worker aid).isSome = true) :
    Routes c message (post c message) := by
  have hflags : message.receivers.filter AID.radigost = message.receivers :=
    List.filter_eq_self.2 fun aid haid => (hlocal aid haid).1
  have hserver : (message.receivers.filter fun aid => !aid.radigost) = [] :=
    List.filter_eq_nil_iff.2 fun aid haid => by simp [(hlocal aid haid).1]
  have hremaining : remaining c message = [] :=
    List.filter_eq_nil_iff.2 fun aid haid => by
      simpa using Option.isSome_iff_ne_none.1 (hlocal aid haid).2
  rw [post_eq, if_pos hserver, route_posted, hflags]
  refine ⟨rfl, fun aid haid w hw => ?_, fun copy hcopy => ?_, ?_⟩
  · refine List.count_eq_one_of_mem (nodup_copies c message hdistinct) ?_
    exact List.mem_filterMap.2 ⟨aid, haid, by rw [hw]; rfl⟩
  · obtain ⟨aid, haid, hmap⟩ := List.mem_filterMap.1 hcopy
    obtain ⟨w, hw, rfl⟩ := Option.map_eq_some_iff.1 hmap
    exact ⟨rfl, aid, haid, hw⟩
  · rw [if_pos hremaining]

/-- The routing does what it is for exactly when every receiver has the flag and runs in this
client. -/
theorem post_routes_iff (hdistinct : (message.receivers.map AID.str).Nodup) :
    Routes c message (post c message) ↔
      ∀ aid ∈ message.receivers, aid.radigost = true ∧ (c.worker aid).isSome = true := by
  refine ⟨fun h aid haid => ?_, routes_of_local c message hdistinct⟩
  have hserver : (message.receivers.filter fun aid => !aid.radigost) = [] := by
    by_contra hne
    have hthrown := h.returned
    rw [post_eq, if_neg hne] at hthrown
    cases hthrown
  constructor
  · -- a receiver without the flag would be handed over
    have hflag := List.filter_eq_nil_iff.1 hserver aid haid
    simpa using hflag
  · -- a receiver without a worker would be missing in what is handed over
    have hrequests := h.server
    rw [post_eq, if_pos hserver] at hrequests
    have hremaining : remaining c message = [] := by
      by_contra hne
      rw [if_neg hne] at hrequests
      cases hrequests
    have hworker := List.filter_eq_nil_iff.1 hremaining aid haid
    rw [Option.isNone_iff_eq_none] at hworker
    exact Option.isSome_iff_ne_none.2 hworker

/-- A client that has started one agent. -/
def helloWorld : Client :=
  Client.empty.putAgent ⟨"HelloWorld@Examples", true⟩ ⟨some 0⟩ (by
    intro k ag' w h
    cases h)

theorem post_routes_iff_helloWorld :
    Routes helloWorld ⟨[⟨"HelloWorld@Examples", true⟩], "hello"⟩
      (post helloWorld ⟨[⟨"HelloWorld@Examples", true⟩], "hello"⟩) := by
  have hdistinct : ([⟨"HelloWorld@Examples", true⟩].map AID.str).Nodup := List.nodup_singleton _
  refine (post_routes_iff helloWorld _ hdistinct).2 fun aid haid => ?_
  rw [List.mem_singleton.1 haid]
  exact ⟨rfl, rfl⟩

/-- A message to an agent of the server ends in an exception. -/
theorem post_to_server_throws :
    ¬ ∀ (c : Client) (message : Message), (message.receivers.map AID.str).Nodup →
        Routes c message (post c message) := by
  intro hall
  have hthrown := (hall helloWorld ⟨[⟨"Ping@xjaf", false⟩], "hello"⟩ (List.nodup_singleton _)).returned
  cases hthrown

end Routes

end Siebog.Radigost.Routing
