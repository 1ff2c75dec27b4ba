import Siebog.Agents.AID
import Siebog.Lib.Barrier
import Siebog.Lib.Decimal
import Siebog.Lib.Network
import Siebog.Lib.Run
import Mathlib.Data.List.Nodup

/-!
# Actions and their feedback

An agent that acts keeps the action under a number of its own, and has the environment execute it.
The environment executes the actions in its thread pool, in any order, and sends the result back
with that number; messages arrive in any order or not at all. An agent whose architecture is built
anew forgets the actions it waits for, but goes on counting.

For each agent, the numbers go through one round of `Siebog.Lib.Round`, which every action joins. So
an agent hears of an action at most once, and with the result of its own execution
(`Session.feedback_sound`); and it hears of all of them when nothing is lost
(`Session.feedback_complete`).
-/

set_option autoImplicit false

namespace Siebog.Jasonee.Actions

open Siebog.Lib
open Siebog.Lib.Utf16 (Text text)

section Model

/-- The identifiers of the agents as text. The environment is given the text of an identifier, and
makes an identifier of it. These are identifiers that are read back as they were. -/
structure Names (AID : Type) where
  toString : AID → Text
  ofString : Text → Option AID
  ofString_toString : ∀ aid, ofString (toString aid) = some aid

variable {AID ActionExec Structure : Type} [DecidableEq AID]

/-! ## The agents of a project -/

/-- The class that `createAgent` starts the agents with. -/
def agClass : Agents.AgentClass := Agents.AgentClass.forSiebogEjb (text "JasonEEAgent")

/-- The runtime name of such an agent is read back from the text of its identifier. -/
theorem name_constructor_toString {lib : Agents.JSONLibrary} (h : lib.Faithful)
    (runtimeName : Text) :
    (Agents.AID.constructor lib ((Agents.AID.ofName runtimeName agClass).toString lib)).toOption.map
      Agents.AID.name = some runtimeName := by
  have hread : Agents.AgentClass.ReadsAs
      (Agents.AgentClass.constructor lib agClass.toString) agClass := by
    refine (Agents.AgentClass.constructor_toString_iff lib agClass).2 ?_
    rw [if_neg (by decide)]
    exact ⟨by decide, by decide, by decide⟩
  obtain ⟨read, hclass, -⟩ := hread
  have hself : (Agents.AID.ofName runtimeName agClass).agClass = agClass := rfl
  rw [Agents.AID.constructor_toString lib h, hself, if_neg (by decide), hclass]
  rfl

/-- The agents that `createAgent` starts, by their runtime names. -/
def Names.ofProject (lib : Agents.JSONLibrary) (h : lib.Faithful) : Names Text where
  toString runtimeName := (Agents.AID.ofName runtimeName agClass).toString lib
  ofString str := (Agents.AID.constructor lib str).toOption.map Agents.AID.name
  ofString_toString := name_constructor_toString h

/-! ## Agents -/

/-- The fields of an agent's architecture that its actions use. -/
structure JasonEEAgArch (ActionExec : Type) where
  running : Bool
  scheduledActions : List (Text × ActionExec)
  actionId : ℕ

namespace JasonEEAgArch

variable (arch : JasonEEAgArch ActionExec)

/-- The text that goes with the action number `n`. -/
def replyWith (n : ℕ) : Text := text "rw" ++ Decimal.ofNat n

/-- `Map.put`, on the entries of the map. -/
def put (key : Text) (action : ActionExec) (m : List (Text × ActionExec)) :
    List (Text × ActionExec) :=
  m.filter (fun p => p.1 ≠ key) ++ [(key, action)]

/-- The agent's next state, and the text for the action unless the agent has been stopped. -/
def act (action : ActionExec) : JasonEEAgArch ActionExec × Option Text :=
  if arch.running then
    let key := replyWith (arch.actionId + 1)
    ({ arch with
        scheduledActions := put key action arch.scheduledActions
        actionId := arch.actionId + 1 }, some key)
  else (arch, none)

/-- The action that the feedback is for is removed; `none` is one that is not waited for. -/
def onActionFeedback (userData : Text) : JasonEEAgArch ActionExec × Option ActionExec :=
  ({ arch with scheduledActions := arch.scheduledActions.filter fun p => p.1 ≠ userData },
    arch.scheduledActions.lookup userData)

/-- The architecture after a passivation has lost its transient fields. -/
def init : JasonEEAgArch ActionExec := { arch with scheduledActions := [] }

/-- A stopped agent schedules no more actions. -/
def stop : JasonEEAgArch ActionExec := { arch with running := false }

end JasonEEAgArch

/-! ## The environment -/

/-- What `scheduleAction` gives to the thread pool. -/
structure Runnable (Structure : Type) where
  agName : Text
  action : Structure
  infraData : Text

/-- The result of an action on its way back to the agent. -/
structure ActionFeedbackMessage (AID : Type) where
  receiver : AID
  success : Bool
  userData : Text

/-- An action is done by an agent, a runnable is run with the outcome of `executeAction`, and an
agent's circumstance gets an action with its result. -/
inductive Happening (AID ActionExec Structure : Type) where
  | acted (aid : AID) (replyWith : Text) (action : ActionExec)
  | ran (runnable : Runnable Structure) (outcome : Option Bool)
  | fed (aid : AID) (userData : Text) (action : ActionExec) (result : Bool)

/-- The agents, the environment with its pool, the messages in flight, and what has happened. -/
structure Session (AID ActionExec Structure : Type) where
  arch : AID → JasonEEAgArch ActionExec
  isRunning : Bool
  pool : List (Runnable Structure)
  flight : List (ActionFeedbackMessage AID)
  history : List (Happening AID ActionExec Structure)

/-- `run` has the outcome of `executeAction`, which is `none` for an exception. -/
inductive Event (AID ActionExec : Type) where
  | act (aid : AID) (action : ActionExec)
  | run (k : ℕ) (outcome : Option Bool)
  | deliver (k : ℕ)
  | lose (k : ℕ)
  | initArch (aid : AID)
  | stopAgent (aid : AID)
  | stop

/-- The event is one of the exchange itself: an action, a run that ends with a result or the
delivery of one. -/
def Event.Lossless : Event AID ActionExec → Prop
  | .act _ _ => True
  | .run _ outcome => outcome.isSome
  | .deliver _ => True
  | _ => False

namespace Session

/-- The agents have been started, and nothing has been done. -/
def initial : Session AID ActionExec Structure :=
  ⟨fun _ => ⟨true, [], 0⟩, true, [], [], []⟩

variable (names : Names AID) (getActionTerm : ActionExec → Structure)
  (s : Session AID ActionExec Structure)

/-- An agent acts: its action goes into the pool, unless the agent has been stopped. -/
def act (aid : AID) (action : ActionExec) : Session AID ActionExec Structure :=
  match (s.arch aid).act action with
  | (_, none) => s
  | (arch, some key) =>
    { s with
      arch := Function.update s.arch aid arch
      pool := s.pool ++ [⟨names.toString aid, getActionTerm action, key⟩]
      history := s.history ++ [.acted aid key action] }

/-- A runnable does nothing once the environment has been stopped. An exception, that of a name that
is no text of an agent included, is logged. -/
def runAction (k : ℕ) (runnable : Runnable Structure) (outcome : Option Bool) :
    Session AID ActionExec Structure :=
  let outcome := if s.isRunning then outcome else none
  { s with
    pool := s.pool.eraseIdx k
    flight := s.flight ++
      (match outcome, names.ofString runnable.agName with
      | some success, some aid => [⟨aid, success, runnable.infraData⟩]
      | _, _ => [])
    history := s.history ++ [.ran runnable outcome] }

/-- The feedback at `k` arrives. An action that is not waited for is nothing to the agent. -/
def deliver (k : ℕ) (msg : ActionFeedbackMessage AID) : Session AID ActionExec Structure :=
  let (arch, action) := (s.arch msg.receiver).onActionFeedback msg.userData
  { s with
    arch := Function.update s.arch msg.receiver arch
    flight := s.flight.eraseIdx k
    history := s.history ++ action.toList.map fun a => .fed msg.receiver msg.userData a msg.success }

/-- One event; `none` when the index is that of no runnable or message. -/
def step : Event AID ActionExec → Option (Session AID ActionExec Structure)
  | .act aid action => some (s.act names getActionTerm aid action)
  | .run k outcome => s.pool[k]?.map fun runnable => s.runAction names k runnable outcome
  | .deliver k => s.flight[k]?.map fun msg => s.deliver k msg
  | .lose k => s.flight[k]?.map fun _ => { s with flight := s.flight.eraseIdx k }
  | .initArch aid => some { s with arch := Function.update s.arch aid (s.arch aid).init }
  | .stopAgent aid => some { s with arch := Function.update s.arch aid (s.arch aid).stop }
  | .stop => some { s with isRunning := false }

end Session

end Model

/-! ## What has happened to an agent's actions -/

section History

variable {AID ActionExec Structure : Type} [DecidableEq AID]

/-- The action of the agent `aid` that has been scheduled, with its text. -/
def Happening.actedBy (aid : AID) : Happening AID ActionExec Structure → Option (Text × ActionExec)
  | .acted i key action => if i = aid then some (key, action) else none
  | _ => none

/-- The execution of an action of the agent `aid`, with its outcome. -/
def Happening.ranFor (names : Names AID) (aid : AID) :
    Happening AID ActionExec Structure → Option (Text × Structure × Option Bool)
  | .ran r outcome =>
    if r.agName = names.toString aid then some (r.infraData, r.action, outcome) else none
  | _ => none

/-- The feedback that the agent `aid` has taken in. -/
def Happening.fedTo (aid : AID) :
    Happening AID ActionExec Structure → Option (Text × ActionExec × Bool)
  | .fed i key action result => if i = aid then some (key, action, result) else none
  | _ => none

namespace Session

variable (names : Names AID) (s : Session AID ActionExec Structure) (aid : AID)

/-- The actions that an agent has done, with their keys. -/
def acted : List (Text × ActionExec) := s.history.filterMap (Happening.actedBy aid)

/-- The actions of the agent that the pool has run, with their outcomes. -/
def ran : List (Text × Structure × Option Bool) := s.history.filterMap (Happening.ranFor names aid)

/-- The actions that the agent has got the results of. -/
def fed : List (Text × ActionExec × Bool) := s.history.filterMap (Happening.fedTo aid)

/-- The keys of the agent's actions in the pool. -/
def pooled : List Text :=
  s.pool.filterMap fun r => if r.agName = names.toString aid then some r.infraData else none

/-- The keys of the results on their way to the agent. -/
def answering : List Text :=
  s.flight.filterMap fun msg => if msg.receiver = aid then some msg.userData else none

/-- Each action is done, run and fed back under a key of its own, with the result of its own run. -/
structure FeedbackSound (getActionTerm : ActionExec → Structure) : Prop where
  acted_once : ((s.acted aid).map Prod.fst).Nodup
  ran_once : ((s.ran names aid).map Prod.fst).Nodup
  fed_once : ((s.fed aid).map Prod.fst).Nodup
  ran_acted : ∀ key term outcome, (key, term, outcome) ∈ s.ran names aid →
    ∃ action, (key, action) ∈ s.acted aid ∧ getActionTerm action = term
  fed_ran : ∀ key action result, (key, action, result) ∈ s.fed aid →
    (key, action) ∈ s.acted aid ∧ (key, getActionTerm action, some result) ∈ s.ran names aid

end Session

end History

/-! ## The keys of an agent -/

section Keys

variable {AID ActionExec Structure : Type} [DecidableEq AID] {names : Names AID}
  {getActionTerm : ActionExec → Structure}

/-- The texts of different numbers are different. -/
theorem replyWith_injective {m n : ℕ}
    (h : JasonEEAgArch.replyWith m = JasonEEAgArch.replyWith n) : m = n := by
  have hdigits : Decimal.ofNat m = Decimal.ofNat n := List.append_cancel_left h
  have hread := Decimal.toNat?_ofNat m
  rw [hdigits, Decimal.toNat?_ofNat, Option.some.injEq] at hread
  exact hread.symm

omit [DecidableEq AID] in
/-- Agents are told apart by the texts of their identifiers. -/
theorem Names.toString_injective {i j : AID} (h : names.toString i = names.toString j) :
    i = j := by
  have hi := names.ofString_toString i
  rw [h, names.ofString_toString, Option.some.injEq] at hi
  exact hi.symm

namespace Session

/-- The keys of an agent's actions are numbered, and each goes through the round. -/
structure Exchanged (names : Names AID) (getActionTerm : ActionExec → Structure)
    (s : Session AID ActionExec Structure) : Prop where
  round : ∀ aid, Round ((s.acted aid).map Prod.fst) (s.pooled names aid)
    ((s.ran names aid).map Prod.fst) (s.answering aid) ((s.fed aid).map Prod.fst)
  numbered : ∀ aid, (s.acted aid).map Prod.fst =
    (List.range (s.arch aid).actionId).map fun n => JasonEEAgArch.replyWith (n + 1)
  scheduled : ∀ aid, ∀ p ∈ (s.arch aid).scheduledActions, p ∈ s.acted aid
  pool : ∀ r ∈ s.pool, ∃ aid action, r.agName = names.toString aid ∧
    (r.infraData, action) ∈ s.acted aid ∧ getActionTerm action = r.action
  ran : ∀ aid key term outcome, (key, term, outcome) ∈ s.ran names aid →
    ∃ action, (key, action) ∈ s.acted aid ∧ getActionTerm action = term
  flight : ∀ msg ∈ s.flight, ∃ term,
    (msg.userData, term, some msg.success) ∈ s.ran names msg.receiver
  fed : ∀ aid key action result, (key, action, result) ∈ s.fed aid →
    (key, action) ∈ s.acted aid ∧ (key, getActionTerm action, some result) ∈ s.ran names aid

variable {s : Session AID ActionExec Structure}

/-- Nothing has been exchanged at the start. -/
theorem exchanged_initial :
    Exchanged names getActionTerm (initial : Session AID ActionExec Structure) where
  round _ := Round.start []
  numbered _ := rfl
  scheduled _ _ h := absurd h List.not_mem_nil
  pool _ h := absurd h List.not_mem_nil
  ran _ _ _ _ h := absurd h List.not_mem_nil
  flight _ h := absurd h List.not_mem_nil
  fed _ _ _ _ h := absurd h List.not_mem_nil

/-- An agent gives no two actions one text. -/
theorem Exchanged.nodup_acted (h : s.Exchanged names getActionTerm) (aid : AID) :
    ((s.acted aid).map Prod.fst).Nodup := by
  rw [h.numbered]
  refine List.Nodup.map (fun m n hmn => ?_) List.nodup_range
  exact Nat.succ_injective (replyWith_injective hmn)

/-- The numbers go through the round, so no action is fed back twice. -/
theorem Exchanged.sound (h : s.Exchanged names getActionTerm) (aid : AID) :
    s.FeedbackSound names aid getActionTerm := by
  obtain ⟨hran, hfed⟩ := (h.round aid).nodup (h.nodup_acted aid)
  exact
    { acted_once := h.nodup_acted aid
      ran_once := hran.sublist (List.sublist_append_right _ _)
      fed_once := hfed.sublist (List.sublist_append_right _ _)
      ran_acted := h.ran aid
      fed_ran := h.fed aid }

/-- The action of a key. -/
theorem Exchanged.action_unique (h : s.Exchanged names getActionTerm) {aid : AID} {key : Text}
    {action action' : ActionExec} (haction : (key, action) ∈ s.acted aid)
    (haction' : (key, action') ∈ s.acted aid) : action = action' := by
  have hpair := List.inj_on_of_nodup_map (h.nodup_acted aid) haction haction' rfl
  exact congrArg Prod.snd hpair

/-! ## Steps -/

/-- The actions of an agent grow by those of the happenings. -/
theorem acted_append (s s' : Session AID ActionExec Structure) (happenings : List _) (aid : AID)
    (h : s'.history = s.history ++ happenings) :
    s'.acted aid = s.acted aid ++ happenings.filterMap (Happening.actedBy aid) := by
  rw [acted, h, List.filterMap_append]
  rfl

omit [DecidableEq AID] in
/-- The executions for an agent grow by those of the happenings. -/
theorem ran_append (s s' : Session AID ActionExec Structure) (happenings : List _) (aid : AID)
    (h : s'.history = s.history ++ happenings) :
    s'.ran names aid = s.ran names aid ++ happenings.filterMap (Happening.ranFor names aid) := by
  rw [ran, h, List.filterMap_append]
  rfl

/-- The feedback of an agent grows by that of the happenings. -/
theorem fed_append (s s' : Session AID ActionExec Structure) (happenings : List _) (aid : AID)
    (h : s'.history = s.history ++ happenings) :
    s'.fed aid = s.fed aid ++ happenings.filterMap (Happening.fedTo aid) := by
  rw [fed, h, List.filterMap_append]
  rfl

/-- What an agent that has not been stopped does with an action. -/
structure Acted (names : Names AID) (getActionTerm : ActionExec → Structure)
    (s s' : Session AID ActionExec Structure) (aid : AID) (key : Text) (action : ActionExec) :
    Prop where
  numbered : key = JasonEEAgArch.replyWith ((s.arch aid).actionId + 1)
  acted : ∀ i, s'.acted i = s.acted i ++ if aid = i then [(key, action)] else []
  ran : ∀ i, s'.ran names i = s.ran names i
  fed : ∀ i, s'.fed i = s.fed i
  pool : s'.pool = s.pool ++ [⟨names.toString aid, getActionTerm action, key⟩]
  pooled : ∀ i, s'.pooled names i = s.pooled names i ++ if aid = i then [key] else []
  flight : s'.flight = s.flight
  isRunning : s'.isRunning = s.isRunning
  arch : ∀ i, s'.arch i = if aid = i then { s.arch aid with
    scheduledActions := JasonEEAgArch.put key action (s.arch aid).scheduledActions
    actionId := (s.arch aid).actionId + 1 } else s.arch i

/-- What an agent that runs does when it acts. -/
theorem act_spec {aid : AID} (hrunning : (s.arch aid).running = true) (action : ActionExec) :
    ∃ key, Acted names getActionTerm s (s.act names getActionTerm aid action) aid key action := by
  generalize hkey : JasonEEAgArch.replyWith ((s.arch aid).actionId + 1) = key
  refine ⟨key, ?_⟩
  generalize hs' : s.act names getActionTerm aid action = s'
  rw [Session.act, JasonEEAgArch.act, if_pos hrunning] at hs'
  simp only [hkey] at hs'
  have hhistory : s'.history = s.history ++ [.acted aid key action] := by rw [← hs']
  have hpool : s'.pool = s.pool ++ [⟨names.toString aid, getActionTerm action, key⟩] := by
    rw [← hs']
  refine ⟨hkey.symm, fun i => ?_, fun i => ?_, fun i => ?_, hpool, fun i => ?_, ?_, ?_, fun i => ?_⟩
  · -- the action is this agent's and nobody else's
    rw [acted_append s s' _ i hhistory]
    by_cases hi : aid = i <;> simp [Happening.actedBy, hi]
  · exact (ran_append s s' _ i hhistory).trans (List.append_nil _)
  · exact (fed_append s s' _ i hhistory).trans (List.append_nil _)
  · rw [Session.pooled, hpool, List.filterMap_append, ← Session.pooled]
    by_cases hi : aid = i
    · simp [hi]
    · have hname : names.toString aid ≠ names.toString i := fun heq =>
        hi (names.toString_injective heq)
      simp [hi, hname]
  · rw [← hs']
  · rw [← hs']
  · rw [← hs']
    by_cases hi : aid = i
    · subst hi
      rw [if_pos rfl]
      exact Function.update_self _ _ _
    · rw [if_neg hi]
      exact Function.update_of_ne (Ne.symm hi) _ _

/-- What the pool does with a runnable at index `k`, which is one of agent `aid`. -/
structure Ran (names : Names AID) (s s' : Session AID ActionExec Structure) (aid : AID)
    (r : Runnable Structure) (outcome : Option Bool) : Prop where
  acted : ∀ i, s'.acted i = s.acted i
  ran : ∀ i, s'.ran names i =
    s.ran names i ++ if aid = i then [(r.infraData, r.action, outcome)] else []
  fed : ∀ i, s'.fed i = s.fed i
  pool : ∀ r' ∈ s'.pool, r' ∈ s.pool
  pooled : ∀ i, (s.pooled names i).Perm
    ((if aid = i then [r.infraData] else []) ++ s'.pooled names i)
  flight : s'.flight = s.flight ++ outcome.toList.map fun success => ⟨aid, success, r.infraData⟩
  isRunning : s'.isRunning = s.isRunning
  arch : s'.arch = s.arch

/-- What the environment does when it executes an action of an agent. -/
theorem runAction_spec {k : ℕ} {r : Runnable Structure} (hk : s.pool[k]? = some r) {aid : AID}
    (hname : r.agName = names.toString aid) (outcome : Option Bool) :
    Ran names s (s.runAction names k r outcome) aid r (if s.isRunning then outcome else none) := by
  have hof : names.ofString r.agName = some aid := by rw [hname, names.ofString_toString]
  generalize hs' : s.runAction names k r outcome = s'
  rw [Session.runAction] at hs'
  simp only [hof] at hs'
  -- a stopped environment runs nothing, which is like an exception
  generalize (if s.isRunning then outcome else none) = outcome at hs' ⊢
  have hhistory : s'.history = s.history ++ [.ran r outcome] := by rw [← hs']
  have hpool : s'.pool = s.pool.eraseIdx k := by rw [← hs']
  refine ⟨fun i => ?_, fun i => ?_, fun i => ?_, fun r' hr' => ?_, fun i => ?_, ?_, ?_, ?_⟩
  · exact (acted_append s s' _ i hhistory).trans (List.append_nil _)
  · rw [ran_append s s' _ i hhistory]
    by_cases hi : aid = i
    · simp [Happening.ranFor, hname, hi]
    · have hne : names.toString aid ≠ names.toString i := fun heq =>
        hi (names.toString_injective heq)
      simp [Happening.ranFor, hname, hi, hne]
  · exact (fed_append s s' _ i hhistory).trans (List.append_nil _)
  · rw [hpool] at hr'
    exact List.mem_of_mem_eraseIdx hr'
  · rw [Session.pooled, Session.pooled, hpool]
    refine (Network.filterMap_eraseIdx_perm hk _).trans (List.Perm.of_eq ?_)
    by_cases hi : aid = i
    · rw [if_pos hi, if_pos (hname.trans (congrArg names.toString hi))]
      rfl
    · have hne : r.agName ≠ names.toString i := fun heq =>
        hi (names.toString_injective (hname.symm.trans heq))
      rw [if_neg hi, if_neg hne]
      rfl
  · rw [← hs']
    cases outcome with
    | none => rfl
    | some success => rfl
  · rw [← hs']
  · rw [← hs']

/-- What an agent does with the feedback; `found` is the action it is for. -/
structure Delivered (names : Names AID) (s s' : Session AID ActionExec Structure)
    (msg : ActionFeedbackMessage AID) (found : Option ActionExec) : Prop where
  acted : ∀ i, s'.acted i = s.acted i
  ran : ∀ i, s'.ran names i = s.ran names i
  fed : ∀ i, s'.fed i = s.fed i ++
    if msg.receiver = i then found.toList.map fun a => (msg.userData, a, msg.success) else []
  pool : s'.pool = s.pool
  flight : ∀ msg' ∈ s'.flight, msg' ∈ s.flight
  answering : ∀ i, (s.answering i).Perm
    ((if msg.receiver = i then [msg.userData] else []) ++ s'.answering i)
  isRunning : s'.isRunning = s.isRunning
  arch : ∀ i, s'.arch i = { s.arch i with
    scheduledActions := (s.arch i).scheduledActions.filter fun p =>
      ¬ (msg.receiver = i ∧ p.1 = msg.userData) }

/-- What an agent does when feedback arrives. -/
theorem deliver_spec {k : ℕ} {msg : ActionFeedbackMessage AID} (hk : s.flight[k]? = some msg) :
    Delivered names s (s.deliver k msg) msg
      ((s.arch msg.receiver).scheduledActions.lookup msg.userData) := by
  generalize hs' : s.deliver k msg = s'
  rw [Session.deliver, JasonEEAgArch.onActionFeedback] at hs'
  simp only at hs'
  -- the agent may not wait for the action any more
  generalize (s.arch msg.receiver).scheduledActions.lookup msg.userData = found at hs' ⊢
  have hhistory : s'.history = s.history ++
      found.toList.map fun a => .fed msg.receiver msg.userData a msg.success := by rw [← hs']
  have hflight : s'.flight = s.flight.eraseIdx k := by rw [← hs']
  refine ⟨fun i => ?_, fun i => ?_, fun i => ?_, ?_, fun msg' hmsg' => ?_, fun i => ?_, ?_,
    fun i => ?_⟩
  · rw [acted_append s s' _ i hhistory]
    cases found with
    | none => exact List.append_nil _
    | some a => exact List.append_nil _
  · rw [ran_append s s' _ i hhistory]
    cases found with
    | none => exact List.append_nil _
    | some a => exact List.append_nil _
  · rw [fed_append s s' _ i hhistory]
    by_cases hi : msg.receiver = i
    · cases found with
      | none => simp
      | some a => simp [Happening.fedTo, hi]
    · cases found with
      | none => simp
      | some a => simp [Happening.fedTo, hi]
  · rw [← hs']
  · rw [hflight] at hmsg'
    exact List.mem_of_mem_eraseIdx hmsg'
  · rw [Session.answering, Session.answering, hflight]
    refine (Network.filterMap_eraseIdx_perm hk _).trans (List.Perm.of_eq ?_)
    by_cases hi : msg.receiver = i
    · rw [if_pos hi, if_pos hi]
      rfl
    · rw [if_neg hi, if_neg hi]
      rfl
  · rw [← hs']
  · rw [← hs']
    by_cases hi : msg.receiver = i
    · subst hi
      simp only [Function.update_self, true_and, ne_eq]
    · simp only [Function.update_of_ne (Ne.symm hi)]
      simp [hi]

/-! ## Invariants -/

/-- The action joins the round of its agent under a new number. -/
theorem Exchanged.act (h : s.Exchanged names getActionTerm) (aid : AID) (action : ActionExec) :
    (s.act names getActionTerm aid action).Exchanged names getActionTerm := by
  by_cases hrunning : (s.arch aid).running = true
  · obtain ⟨key, hspec⟩ : ∃ key, Acted names getActionTerm s _ aid key action :=
      act_spec hrunning action
    generalize s.act names getActionTerm aid action = s' at hspec
    -- nothing that an agent has done is taken back
    have hgrown : ∀ i p, p ∈ s.acted i → p ∈ s'.acted i := by
      intro i p hp
      rw [hspec.acted]
      exact List.mem_append_left _ hp
    have hself : (key, action) ∈ s'.acted aid := by
      rw [hspec.acted, if_pos rfl]
      exact List.mem_concat_self
    constructor
    · intro i
      rw [hspec.acted, hspec.ran, hspec.fed, hspec.pooled, answering, hspec.flight, ← answering,
        List.map_append]
      by_cases hi : aid = i
      · rw [if_pos hi, if_pos hi]
        -- the agent's round gets a new member
        exact (h.round i).invite key
      · simpa [hi] using h.round i
    · intro i
      rw [hspec.acted, List.map_append, h.numbered, hspec.arch]
      by_cases hi : aid = i
      · subst hi
        rw [if_pos rfl, if_pos rfl, List.range_succ, List.map_append, hspec.numbered]
        rfl
      · rw [if_neg hi, if_neg hi]
        exact List.append_nil _
    · intro i p hp
      rw [hspec.arch] at hp
      by_cases hi : aid = i
      · subst hi
        rw [if_pos rfl] at hp
        rcases List.mem_append.1 hp with hp | hp
        · exact hgrown aid p (h.scheduled aid p (List.mem_of_mem_filter hp))
        · rw [List.mem_singleton.1 hp]
          exact hself
      · rw [if_neg hi] at hp
        exact hgrown i p (h.scheduled i p hp)
    · intro r hr
      rw [hspec.pool] at hr
      rcases List.mem_append.1 hr with hr | hr
      · obtain ⟨i, a, hname, hmem, hterm⟩ := h.pool r hr
        exact ⟨i, a, hname, hgrown i _ hmem, hterm⟩
      · rw [List.mem_singleton.1 hr]
        exact ⟨aid, action, rfl, hself, rfl⟩
    · intro i k term outcome hmem
      rw [hspec.ran] at hmem
      obtain ⟨a, ha, hterm⟩ := h.ran i k term outcome hmem
      exact ⟨a, hgrown i _ ha, hterm⟩
    · intro msg hmsg
      rw [hspec.flight] at hmsg
      rw [hspec.ran]
      exact h.flight msg hmsg
    · intro i k a result hmem
      rw [hspec.fed] at hmem
      obtain ⟨ha, hr⟩ := h.fed i k a result hmem
      rw [hspec.ran]
      exact ⟨hgrown i _ ha, hr⟩
  · rw [Session.act, JasonEEAgArch.act, if_neg hrunning]
    exact h

/-- A runnable is taken out of the pool, and its result is under way unless there is none. -/
theorem Exchanged.runAction (h : s.Exchanged names getActionTerm) {k : ℕ}
    {r : Runnable Structure} (hk : s.pool[k]? = some r) (outcome : Option Bool) :
    (s.runAction names k r outcome).Exchanged names getActionTerm := by
  obtain ⟨aid, action, hname, hmem, hterm⟩ := h.pool r (List.mem_of_getElem? hk)
  have hspec := runAction_spec hk hname outcome
  generalize s.runAction names k r outcome = s' at hspec ⊢
  generalize (if s.isRunning then outcome else none) = outcome at hspec
  have hgrown : ∀ i x, x ∈ s.ran names i → x ∈ s'.ran names i := by
    intro i x hx
    rw [hspec.ran]
    exact List.mem_append_left _ hx
  have hself : (r.infraData, r.action, outcome) ∈ s'.ran names aid := by
    rw [hspec.ran, if_pos rfl]
    exact List.mem_concat_self
  constructor
  · intro i
    have hanswering : s'.answering i = s.answering i ++
        outcome.toList.filterMap fun _ => if aid = i then some r.infraData else none := by
      rw [answering, answering, hspec.flight, List.filterMap_append, List.filterMap_map]
      rfl
    have hround := (h.round i).perm (hspec.pooled i) (List.Perm.refl _)
    rw [hspec.acted, hspec.fed, hspec.ran, hanswering, List.map_append]
    by_cases hi : aid = i
    · -- an exception leaves the member asked and without an answer
      simp only [if_pos hi] at hround ⊢
      cases outcome with
      | none => simpa using hround.ask
      | some success => exact hround.reply
    · simp only [if_neg hi] at hround ⊢
      cases outcome with
      | none => simpa using hround
      | some success => simpa using hround
  · intro i
    rw [hspec.acted, hspec.arch]
    exact h.numbered i
  · intro i p hp
    rw [hspec.acted]
    rw [hspec.arch] at hp
    exact h.scheduled i p hp
  · intro r' hr'
    obtain ⟨i, a, hname', hmem', hterm'⟩ := h.pool r' (hspec.pool r' hr')
    exact ⟨i, a, hname', (hspec.acted i).symm ▸ hmem', hterm'⟩
  · intro i key term outcome' hx
    rw [hspec.ran] at hx
    rw [hspec.acted]
    rcases List.mem_append.1 hx with hx | hx
    · exact h.ran i key term outcome' hx
    · split_ifs at hx with hi
      · cases List.mem_singleton.1 hx
        exact ⟨action, hi ▸ hmem, hterm⟩
      · cases hx
  · intro msg hmsg
    rw [hspec.flight] at hmsg
    rcases List.mem_append.1 hmsg with hmsg | hmsg
    · obtain ⟨term, hran'⟩ := h.flight msg hmsg
      exact ⟨term, hgrown _ _ hran'⟩
    · obtain ⟨success, hsuccess, rfl⟩ := List.mem_map.1 hmsg
      rw [Option.mem_toList] at hsuccess
      cases hsuccess
      exact ⟨r.action, hself⟩
  · intro i key a result hx
    rw [hspec.fed] at hx
    obtain ⟨ha, hr⟩ := h.fed i key a result hx
    exact ⟨(hspec.acted i).symm ▸ ha, hgrown _ _ hr⟩

/-- The result is taken out of the flight, and the action out of those that are waited for. -/
theorem Exchanged.deliver (h : s.Exchanged names getActionTerm) {k : ℕ}
    {msg : ActionFeedbackMessage AID} (hk : s.flight[k]? = some msg) :
    (s.deliver k msg).Exchanged names getActionTerm := by
  obtain ⟨term, hterm⟩ := h.flight msg (List.mem_of_getElem? hk)
  have hspec : Delivered names s _ msg _ := deliver_spec hk
  generalize s.deliver k msg = s' at hspec ⊢
  generalize hfound : (s.arch msg.receiver).scheduledActions.lookup msg.userData = found at hspec
  constructor
  · intro i
    have hround := (h.round i).perm (List.Perm.refl _) (hspec.answering i)
    rw [hspec.acted, hspec.ran, hspec.fed, pooled, hspec.pool, ← pooled]
    by_cases hi : msg.receiver = i
    · simp only [if_pos hi] at hround ⊢
      cases found with
      | none => simpa using hround.lose
      | some a => simpa using hround.answer
    · simpa [hi] using hround
  · intro i
    rw [hspec.acted, hspec.arch]
    exact h.numbered i
  · intro i p hp
    rw [hspec.arch] at hp
    rw [hspec.acted]
    exact h.scheduled i p (List.mem_of_mem_filter hp)
  · intro r hr
    rw [hspec.pool] at hr
    obtain ⟨i, a, hname, hmem, hterm'⟩ := h.pool r hr
    exact ⟨i, a, hname, (hspec.acted i).symm ▸ hmem, hterm'⟩
  · intro i key term outcome hx
    rw [hspec.ran] at hx
    rw [hspec.acted]
    exact h.ran i key term outcome hx
  · intro msg' hmsg'
    rw [hspec.ran]
    exact h.flight msg' (hspec.flight msg' hmsg')
  · intro i key a result hx
    rw [hspec.fed] at hx
    rw [hspec.acted, hspec.ran]
    rcases List.mem_append.1 hx with hx | hx
    · exact h.fed i key a result hx
    · split_ifs at hx with hi
      · obtain ⟨a', ha', heq⟩ := List.mem_map.1 hx
        rw [Option.mem_toList] at ha'
        cases ha'
        cases heq
        subst hi
        -- the action that waits under the key is the one that has been run under it
        obtain ⟨before, after, hsplit, -⟩ := List.lookup_eq_some_iff.1 hfound
        obtain ⟨action, haction, hrun⟩ := h.ran _ _ _ _ hterm
        have hwaiting : (msg.userData, a) ∈ (s.arch msg.receiver).scheduledActions := by
          rw [hsplit]
          exact List.mem_append_right before List.mem_cons_self
        have hdone := h.scheduled _ _ hwaiting
        rw [h.action_unique hdone haction]
        exact ⟨haction, hrun ▸ hterm⟩
      · cases hx

/-- An agent that goes on counting where it was, and waits for no more than it did. -/
theorem Exchanged.update (h : s.Exchanged names getActionTerm) {aid : AID}
    {arch : JasonEEAgArch ActionExec} (hid : arch.actionId = (s.arch aid).actionId)
    (hscheduled : ∀ p ∈ arch.scheduledActions, p ∈ (s.arch aid).scheduledActions) :
    { s with arch := Function.update s.arch aid arch }.Exchanged names getActionTerm := by
  refine ⟨h.round, ?_, ?_, h.pool, h.ran, h.flight, h.fed⟩
  · intro i
    refine (h.numbered i).trans ?_
    by_cases hi : i = aid
    · subst hi
      simp only [Function.update_self, hid]
    · simp only [Function.update_of_ne hi]
  · intro i p hp
    by_cases hi : i = aid
    · subst hi
      simp only [Function.update_self] at hp
      exact h.scheduled i p (hscheduled p hp)
    · simp only [Function.update_of_ne hi] at hp
      exact h.scheduled i p hp

/-- The result of an action is lost. -/
theorem Exchanged.lose (h : s.Exchanged names getActionTerm) {k : ℕ}
    {msg : ActionFeedbackMessage AID} (hk : s.flight[k]? = some msg) :
    { s with flight := s.flight.eraseIdx k }.Exchanged names getActionTerm := by
  refine ⟨?_, h.numbered, h.scheduled, h.pool, h.ran, ?_, h.fed⟩
  · intro i
    have hanswering := Network.filterMap_eraseIdx_perm hk
      fun msg => if msg.receiver = i then some msg.userData else none
    have hround := (h.round i).perm (List.Perm.refl _) hanswering
    by_cases hi : msg.receiver = i
    · rw [if_pos hi] at hround
      exact hround.lose
    · rw [if_neg hi] at hround
      exact hround
  · intro msg' hmsg'
    exact h.flight msg' (List.mem_of_mem_eraseIdx hmsg')

/-- Every event keeps the invariant. -/
theorem Exchanged.step (h : s.Exchanged names getActionTerm) {e : Event AID ActionExec}
    {s' : Session AID ActionExec Structure} (hs' : s.step names getActionTerm e = some s') :
    s'.Exchanged names getActionTerm := by
  cases e with
  | act aid action =>
      cases hs'
      exact h.act aid action
  | run k outcome =>
      obtain ⟨r, hk, rfl⟩ := Option.map_eq_some_iff.1 hs'
      exact h.runAction hk outcome
  | deliver k =>
      obtain ⟨msg, hk, rfl⟩ := Option.map_eq_some_iff.1 hs'
      exact h.deliver hk
  | lose k =>
      obtain ⟨msg, hk, rfl⟩ := Option.map_eq_some_iff.1 hs'
      exact h.lose hk
  | initArch aid =>
      cases hs'
      exact h.update rfl fun p hp => absurd hp List.not_mem_nil
  | stopAgent aid =>
      cases hs'
      exact h.update rfl fun p hp => hp
  | stop =>
      cases hs'
      exact ⟨h.round, h.numbered, h.scheduled, h.pool, h.ran, h.flight, h.fed⟩

/-- The invariant holds in every state that is reached. -/
theorem exchanged_of_execute {events : List (Event AID ActionExec)}
    (hrun : execute (Session.step names getActionTerm) initial events = some s) :
    s.Exchanged names getActionTerm := by
  have hall : Along (Session.step names getActionTerm) (fun _ _ => True) initial events :=
    along_of_forall (fun _ _ => trivial) _ _
  exact hall.invariant (fun _ _ _ h _ hs' => h.step hs') exchanged_initial hrun

/-! ## Runs in which nothing is lost -/

/-- What the agents and the environment are like while none of them is stopped, and what becomes of
an action: the agent has its result, or waits for one that is yet to be found or to arrive. -/
structure Kept (names : Names AID) (s : Session AID ActionExec Structure) : Prop where
  running : ∀ aid, (s.arch aid).running = true
  isRunning : s.isRunning = true
  kept : ∀ aid key action, (key, action) ∈ s.acted aid →
    (∃ result, (key, action, result) ∈ s.fed aid) ∨
      (key, action) ∈ (s.arch aid).scheduledActions ∧
        (key ∈ s.pooled names aid ∨ key ∈ s.answering aid)

/-- Nothing is lost at the start. -/
theorem kept_initial : Kept names (initial : Session AID ActionExec Structure) where
  running _ := rfl
  isRunning := rfl
  kept _ _ _ h := absurd h List.not_mem_nil

/-- An action is not lost. -/
theorem Kept.act (hkept : s.Kept names) (h : s.Exchanged names getActionTerm) (aid : AID)
    (action : ActionExec) : (s.act names getActionTerm aid action).Kept names := by
  have hnext := h.act aid action
  obtain ⟨key, hspec⟩ : ∃ key, Acted names getActionTerm s _ aid key action :=
    act_spec (hkept.running aid) action
  generalize s.act names getActionTerm aid action = s' at hspec hnext
  refine ⟨fun i => ?_, hspec.isRunning.trans hkept.isRunning, ?_⟩
  · rw [hspec.arch]
    split_ifs
    · exact hkept.running aid
    · exact hkept.running i
  · intro i key' action' hmem
    -- the key is new, so `put` takes the place of no other action
    have hnodup := hnext.nodup_acted i
    rw [hspec.acted] at hmem hnodup
    rw [hspec.fed, hspec.arch, hspec.pooled, answering, hspec.flight, ← answering]
    by_cases hi : aid = i
    · subst hi
      simp only [if_true] at hmem hnodup ⊢
      rcases List.mem_append.1 hmem with hold | hself
      · refine (hkept.kept aid key' action' hold).imp_right ?_
        rintro ⟨hwaits, hway⟩
        have hne : key' ≠ key := by
          rintro rfl
          rw [List.map_append, List.nodup_append] at hnodup
          exact hnodup.2.2 _ (List.mem_map_of_mem hold) _ List.mem_cons_self rfl
        refine ⟨List.mem_append_left _ (List.mem_filter.2 ⟨hwaits, ?_⟩), ?_⟩
        · exact decide_eq_true hne
        · exact hway.imp_left (List.mem_append_left _)
      · cases List.mem_singleton.1 hself
        exact .inr ⟨List.mem_concat_self, .inl List.mem_concat_self⟩
    · simp only [if_neg hi, List.append_nil] at hmem ⊢
      exact hkept.kept i key' action' hmem

/-- A result is not lost. -/
theorem Kept.runAction (hkept : s.Kept names) (h : s.Exchanged names getActionTerm) {k : ℕ}
    {r : Runnable Structure} (hk : s.pool[k]? = some r) (success : Bool) :
    (s.runAction names k r (some success)).Kept names := by
  obtain ⟨aid, -, hname, -⟩ := h.pool r (List.mem_of_getElem? hk)
  have hspec := runAction_spec hk hname (some success)
  generalize s.runAction names k r (some success) = s' at hspec ⊢
  rw [if_pos hkept.isRunning] at hspec
  refine ⟨fun i => ?_, hspec.isRunning.trans hkept.isRunning, fun i key action hmem => ?_⟩
  · rw [hspec.arch]
    exact hkept.running i
  · rw [hspec.acted] at hmem
    rw [hspec.fed, hspec.arch, answering, hspec.flight, List.filterMap_append, ← answering]
    refine (hkept.kept i key action hmem).imp_right (And.imp_right ?_)
    rintro (hpool | hflight)
    · rcases List.mem_append.1 ((hspec.pooled i).mem_iff.1 hpool) with hself | hpool
      · split_ifs at hself with hi
        · rw [List.mem_singleton.1 hself]
          refine .inr (List.mem_append_right _ ?_)
          simp [hi]
        · cases hself
      · exact .inl hpool
    · exact .inr (List.mem_append_left _ hflight)

/-- Feedback that arrives is not lost. -/
theorem Kept.deliver (hkept : s.Kept names) (h : s.Exchanged names getActionTerm) {k : ℕ}
    {msg : ActionFeedbackMessage AID} (hk : s.flight[k]? = some msg) :
    (s.deliver k msg).Kept names := by
  have hspec : Delivered names s _ msg _ := deliver_spec hk
  generalize s.deliver k msg = s' at hspec ⊢
  refine ⟨fun i => ?_, hspec.isRunning.trans hkept.isRunning, fun i key action hmem => ?_⟩
  · rw [hspec.arch]
    exact hkept.running i
  · rw [hspec.acted] at hmem
    rw [hspec.fed, hspec.arch, pooled, hspec.pool, ← pooled]
    rcases hkept.kept i key action hmem with ⟨result, hfed⟩ | ⟨hwaits, hway⟩
    · exact .inl ⟨result, List.mem_append_left _ hfed⟩
    · by_cases hself : msg.receiver = i ∧ key = msg.userData
      · obtain ⟨rfl, rfl⟩ := hself
        -- the action that waits under the key is found, for there is only one
        cases hfound : (s.arch msg.receiver).scheduledActions.lookup msg.userData with
        | none =>
            have hno := List.lookup_eq_none_iff.1 hfound _ hwaits
            exact absurd hno (by simp)
        | some action' =>
            obtain ⟨before, after, hsplit, -⟩ := List.lookup_eq_some_iff.1 hfound
            have hwaiting : (msg.userData, action') ∈ (s.arch msg.receiver).scheduledActions := by
              rw [hsplit]
              exact List.mem_append_right before List.mem_cons_self
            have haction := h.action_unique hmem (h.scheduled _ _ hwaiting)
            refine .inl ⟨msg.success, List.mem_append_right _ ?_⟩
            simp [haction]
      · refine .inr ⟨List.mem_filter.2 ⟨hwaits, decide_eq_true hself⟩, hway.imp_right ?_⟩
        intro hflight
        rcases List.mem_append.1 ((hspec.answering i).mem_iff.1 hflight) with hmsg | hflight
        · split_ifs at hmsg with hi
          · exact absurd ⟨hi, List.mem_singleton.1 hmsg⟩ hself
          · cases hmsg
        · exact hflight

/-- A lossless event loses nothing. -/
theorem kept_step (h : s.Exchanged names getActionTerm ∧ s.Kept names) {e : Event AID ActionExec}
    (he : e.Lossless) {s' : Session AID ActionExec Structure}
    (hs' : s.step names getActionTerm e = some s') :
    s'.Exchanged names getActionTerm ∧ s'.Kept names := by
  refine ⟨h.1.step hs', ?_⟩
  cases e with
  | act aid action =>
      cases hs'
      exact h.2.act h.1 aid action
  | run k outcome =>
      obtain ⟨r, hk, rfl⟩ := Option.map_eq_some_iff.1 hs'
      obtain ⟨success, rfl⟩ := Option.isSome_iff_exists.1 he
      exact h.2.runAction h.1 hk success
  | deliver k =>
      obtain ⟨msg, hk, rfl⟩ := Option.map_eq_some_iff.1 hs'
      exact h.2.deliver h.1 hk
  | lose k => exact he.elim
  | initArch aid => exact he.elim
  | stopAgent aid => exact he.elim
  | stop => exact he.elim

/-! ## Feedback -/

/-- In every run, an agent hears of each of its actions at most once, and with the result of that
action. -/
theorem feedback_sound {events : List (Event AID ActionExec)}
    (hrun : execute (step names getActionTerm) initial events = some s) (aid : AID) :
    s.FeedbackSound names aid getActionTerm :=
  (exchanged_of_execute hrun).sound aid

/-- The agents of a project, in runs where actions are texts. -/
abbrev twoAgents : Names Text := Names.ofProject Agents.plainJson Agents.plainJson_faithful

/-- The architecture of one of two agents is built anew while it waits for the result of its second
action. -/
theorem feedback_sound_twoAgents :
    ∃ events, ∃ s : Session Text Text Text, execute (step twoAgents id) initial events = some s ∧
      (s.fed (text "bob")).map Prod.fst = [text "rw1"] ∧
      s.FeedbackSound twoAgents (text "bob") id := by
  have hrun : (execute (step twoAgents id) (initial : Session Text Text Text)
      [.act (text "bob") (text "pick"), .act (text "alice") (text "look"),
        .act (text "bob") (text "drop"), .run 2 (some false), .run 0 (some true), .deliver 1,
        .initArch (text "bob"), .deliver 0]).map (fun s => (s.fed (text "bob")).map Prod.fst) =
      some [text "rw1"] := by decide +kernel
  obtain ⟨s, hs, hfed⟩ := Option.map_eq_some_iff.1 hrun
  exact ⟨_, s, hs, hfed, feedback_sound hs (text "bob")⟩

/-- When nothing has been lost and nothing is left to be done, each agent has heard of exactly the
actions that it has done. -/
theorem feedback_complete {events : List (Event AID ActionExec)}
    (hevents : ∀ e ∈ events, e.Lossless)
    (hrun : execute (step names getActionTerm) initial events = some s) (hpool : s.pool = [])
    (hflight : s.flight = []) (aid : AID) :
    ((s.fed aid).map fun p => (p.1, p.2.1)).Perm (s.acted aid) := by
  have hinv : s.Exchanged names getActionTerm ∧ s.Kept names :=
    execute_invariant (fun _ _ _ h he hs' => kept_step h he hs')
      ⟨exchanged_initial, kept_initial⟩ hevents hrun
  obtain ⟨h, hkept⟩ := hinv
  have hsound := h.sound aid
  have hacted : (s.acted aid).Nodup := hsound.acted_once.of_map _
  have hfed : ((s.fed aid).map fun p => (p.1, p.2.1)).Nodup := by
    refine List.Nodup.of_map Prod.fst ?_
    rw [List.map_map]
    exact hsound.fed_once
  refine (List.perm_ext_iff_of_nodup hfed hacted).2 fun p => ⟨fun hp => ?_, fun hp => ?_⟩
  · obtain ⟨⟨key, action, result⟩, hmem, rfl⟩ := List.mem_map.1 hp
    exact (hsound.fed_ran key action result hmem).1
  · rcases hkept.kept aid p.1 p.2 hp with ⟨result, hmem⟩ | ⟨-, hway⟩
    · exact List.mem_map.2 ⟨_, hmem, rfl⟩
    · rw [pooled, answering, hpool, hflight] at hway
      rcases hway with hway | hway
      · cases hway
      · cases hway

/-- The results of two agents arrive in an order other than that of their actions. -/
theorem feedback_complete_twoAgents :
    ∃ s : Session Text Text Text,
      s.acted (text "bob") =
        [(text "rw1", text "pick"), (text "rw2", text "drop")] ∧
      ((s.fed (text "bob")).map fun p => (p.1, p.2.1)).Perm (s.acted (text "bob")) := by
  have hrun : (execute (step twoAgents id) (initial : Session Text Text Text)
      [.act (text "bob") (text "pick"), .act (text "alice") (text "look"),
        .act (text "bob") (text "drop"), .run 2 (some false), .run 0 (some true), .deliver 0,
        .run 0 (some true), .deliver 1, .deliver 0]).map
        (fun s => (s.pool.isEmpty, s.flight.isEmpty, s.acted (text "bob"))) =
      some (true, true, [(text "rw1", text "pick"), (text "rw2", text "drop")]) := by
    decide +kernel
  obtain ⟨s, hs, hend⟩ := Option.map_eq_some_iff.1 hrun
  obtain ⟨hpool, hflight, hacted⟩ : s.pool.isEmpty = true ∧ s.flight.isEmpty = true ∧ _ := by
    simpa only [Prod.mk.injEq] using hend
  refine ⟨s, hacted, feedback_complete ?_ hs (List.isEmpty_iff.1 hpool)
    (List.isEmpty_iff.1 hflight) (text "bob")⟩
  simp [Event.Lossless]

end Session

end Keys

end Siebog.Jasonee.Actions
