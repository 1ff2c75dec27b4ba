import Siebog.Lib.Trace
import Mathlib.Logic.Function.Basic

/-!
# The blackboard

`Blackboard` tells the knowledge sources that subscribed to the name of an event about the event,
collects their estimates, and two seconds later accepts one of them. The knowledge source that made
it handles the event, its result goes to the control component, and that may tell the blackboard the
next event.

Estimates are collected in a map from event names to lists. Nothing is ever taken out of it.

`System` is a blackboard with the messages that are posted and not delivered yet, which any agent
may get at any time. The notifications are numbered: an event carries the number of the notification
that announced it, and the delayed message the number of the one that posted it. The source has no
such numbers, and no handler looks at them.
-/

set_option autoImplicit false

namespace Siebog.Interaction.Blackboard

open Siebog.Lib

variable {ι : Type}

/-! ## Data -/

/-- An event. `kss` is the source's `KSs`, and `occurrence` the number of its notification. -/
structure Event (ι : Type) where
  name : String
  content : String
  kss : List ι
  occurrence : ℕ
  deriving DecidableEq

/-- What a knowledge source proposes, and for which event. -/
structure Estimate (ι : Type) where
  content : String
  aid : ι
  event : Event ι
  deriving DecidableEq

/-- The messages of the agents. `delayed` is the message that the blackboard sends to itself, with
the name of an event. -/
inductive Message (ι : Type) where
  | request (receiver : ι)
  | subscribe (sender : ι) (content : String)
  | inform (receiver : ι) (contentObj : Event ι)
  | informBlackboard (content : String) (contentObj : Event ι)
  | propose (contentObj : Estimate ι)
  | acceptProposal (receiver : ι) (contentObj : Estimate ι)
  | delayed (content : String) (occurrence : ℕ)
  deriving DecidableEq

/-- The abstract methods of a control component. It chooses one of the proposals or `null`, which
`acceptProposal` dereferences before it posts anything. -/
structure ControlComponent (ι : Type) where
  chooseBestProposal : List (Estimate ι) → Option (Estimate ι)
  mem : ∀ l e, chooseBestProposal l = some e → e ∈ l
  handleEvent : Event ι → Event ι

/-- The abstract methods of a knowledge source. -/
structure KnowledgeSource (ι : Type) where
  defineTriggers : List String
  giveEstimate : Event ι → Estimate ι
  handleEvent : Event ι → Event ι

/-- The agents, which may behave in another way for each message. -/
structure Agents (ι : Type) where
  control : ControlComponent ι
  source : ι → KnowledgeSource ι

/-- The fields of the blackboard. -/
structure Board (ι : Type) where
  notifications : String → Option (List ι)
  estimates : String → Option (List (Estimate ι))

/-- `map.put(key, list)` when there is no list, else `map.get(key).add(x)`. -/
def addTo {α : Type} (map : String → Option (List α)) (key : String) (x : α) :
    String → Option (List α) :=
  Function.update map key (some ((map key).getD [] ++ [x]))

/-! ## The blackboard's handlers -/

/-- A blackboard and the undelivered messages, with the names of the notified events. -/
structure System (ι : Type) where
  board : Board ι
  posted : List (Message ι)
  notified : List String

namespace System

/-- No subscription, no estimate, no message. -/
def new (ι : Type) : System ι := ⟨⟨fun _ => none, fun _ => none⟩, [], []⟩

/-- The sender is to be told of events with this name. -/
def addTriggers (s : System ι) (sender : ι) (content : String) : System ι :=
  { s with board.notifications := addTo s.board.notifications content sender }

/-- The messages to the subscribers, and the delayed message. -/
def newEventNotification (s : System ι) (event : Event ι) : System ι × List (Message ι) :=
  let event := { event with occurrence := s.notified.length }
  ({ s with notified := s.notified ++ [event.name] },
    ((s.board.notifications event.name).getD []).map (.inform · event) ++
      [.delayed event.name event.occurrence])

/-- The estimate joins all those ever made under the name of its event. -/
def handleProposal (s : System ι) (e : Estimate ι) : System ι :=
  { s with board.estimates := addTo s.board.estimates e.event.name e }

/-- The running agents are told of the event, whatever they subscribed to. -/
def startBlackboard (s : System ι) (runningAgents : List ι) (event : Event ι) :
    System ι × List (Message ι) :=
  newEventNotification { s with
    board.notifications := Function.update s.board.notifications event.name (some runningAgents) }
    event

end System

/-- The award, sent to the knowledge source that made the estimate. -/
def acceptProposal (e : Estimate ι) : Message ι := .acceptProposal e.aid e

/-- The default branch of `onMessage`, where the delayed messages go. -/
def award (C : ControlComponent ι) (board : Board ι) (content : String) : List (Message ι) :=
  match board.estimates content with
  | none => []
  | some l =>
      if 1 < l.length then (C.chooseBestProposal l).toList.map acceptProposal
      else l.head?.toList.map acceptProposal

/-- `receiveEvent` of the control component. -/
def receiveEvent (C : ControlComponent ι) (e : Event ι) : List (Message ι) :=
  (if e.name = "START" then e.kss.map .request else []) ++
    [.informBlackboard "CC" (C.handleEvent e)]

/-! ## The knowledge sources' handlers -/

/-- A knowledge source asks to be told of events with this name. -/
def sendTrigger (myAid : ι) (trigger : String) : Message ι := .subscribe myAid trigger

/-- A knowledge source makes its estimate for an event. -/
def handleInform (K : KnowledgeSource ι) (contentObj : Event ι) : Message ι :=
  .propose { K.giveEstimate contentObj with event := contentObj }

/-- A knowledge source handles the event that it has been awarded. -/
def handleAcceptProposal (K : KnowledgeSource ι) (contentObj : Estimate ι) : Message ι :=
  .informBlackboard "KS" (K.handleEvent contentObj.event)

/-! ## Runs -/

namespace System

/-- The `onMessage` of the receiver: what it posts, and what it changes in the blackboard. -/
def handle (A : Agents ι) (s : System ι) : Message ι → System ι × List (Message ι)
  | .request receiver => (s, (A.source receiver).defineTriggers.map (sendTrigger receiver))
  | .subscribe sender content => (s.addTriggers sender content, [])
  | .inform receiver contentObj => (s, [handleInform (A.source receiver) contentObj])
  | .informBlackboard content contentObj =>
      if content = "CC" then s.newEventNotification contentObj
      else (s, receiveEvent A.control contentObj)
  | .propose contentObj => (s.handleProposal contentObj, [])
  | .acceptProposal receiver contentObj =>
      (s, [handleAcceptProposal (A.source receiver) contentObj])
  | .delayed content _ => (s, award A.control s.board content)

/-- Post the messages that a handler returned. -/
def post (r : System ι × List (Message ι)) : System ι × List (Message ι) :=
  ({ r.1 with posted := r.1.posted ++ r.2 }, r.2)

end System

/-- What happens to the system: a knowledge source adds a trigger, an agent informs the blackboard
of an event, the blackboard is started, or one of the posted messages is delivered. -/
inductive Action (ι : Type) where
  | addTrigger (myAid : ι) (trigger : String)
  | inform (content : String) (contentObj : Event ι)
  | startBlackboard (runningAgents : List ι) (event : Event ι)
  | deliver (A : Agents ι) (i : ℕ)

/-- One action, and the messages that it posts. `none` when there is no such message to deliver. -/
def System.step (s : System ι) : Action ι → Option (System ι × List (Message ι))
  | .addTrigger myAid trigger => some (post (s, [sendTrigger myAid trigger]))
  | .inform content contentObj => some (post (s, [.informBlackboard content contentObj]))
  | .startBlackboard runningAgents event => some (post (s.startBlackboard runningAgents event))
  | .deliver A i =>
      match s.posted[i]? with
      | none => none
      | some m => some (post (handle A { s with posted := s.posted.eraseIdx i } m))

/-! ## Awards -/

/-- The estimates that the messages accept. -/
def accepted (out : List (Message ι)) : List (Estimate ι) :=
  out.filterMap fun
    | .acceptProposal _ e => some e
    | _ => none

/-- When a delayed message is delivered, at most one estimate is accepted, which was made for the
occurrence that the message is about; whatever the control component chooses. -/
def Matches (s : System ι) : Action ι → Prop
  | .deliver A i => ∀ content k, s.posted[i]? = some (.delayed content k) →
      ∀ C, (accepted (s.handle { A with control := C } (.delayed content k)).2).length ≤ 1 ∧
        ∀ e ∈ accepted (s.handle { A with control := C } (.delayed content k)).2,
          e.event.occurrence = k
  | _ => True

/-- When a delayed message is delivered, all estimates collected under its name so far were made for
the occurrence that the message is about. -/
def Fresh (s : System ι) : Action ι → Prop
  | .deliver _ i => ∀ content k, s.posted[i]? = some (.delayed content k) →
      ∀ e ∈ (s.board.estimates content).getD [], e.event.occurrence = k
  | _ => True

end Siebog.Interaction.Blackboard
