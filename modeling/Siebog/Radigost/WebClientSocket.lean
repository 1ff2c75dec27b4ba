import Siebog.Lib.Queue
import Siebog.Lib.Separator
import Siebog.Lib.Trace
import Siebog.Lib.Utf16
import Mathlib.Data.List.Basic

/-!
# The websocket of the server

A client sends text over its websocket: it registers the platform it is, or takes it back, and it
asks for the state of an agent, or to store one. States go to a table. A write is asynchronous: it
is under way when the text has been handled, and reaches the table at some later time.

No client is told when its write is done, so a read may miss it. Still a read never mixes agents
(`read_stored`), and it gives the last state of the agent once its writes are through, if they came
to the table in order (`read_latest`). A message goes to the session that was the last to register
the platform of the receiver (`fire_registered`).
-/

set_option autoImplicit false

namespace Siebog.Radigost.WebClientSocket

open Siebog.Lib Siebog.Lib.Utf16

/-! ## The socket -/

section Model

/-- The sessions by the platforms they registered, the table of states, and the writes to the table
that are under way. -/
structure Server (σ : Type) where
  sessions : Text → Option σ
  states : Text → Option Text
  writes : List (Text × Text)

/-- A text that is sent to a session. -/
structure Sent (σ : Type) where
  session : σ
  text : Text
  deriving DecidableEq

variable {σ : Type}

/-- No registration, an empty table. -/
def Server.new (σ : Type) : Server σ := ⟨fun _ => none, fun _ => none, []⟩

/-- `setState` of the store. The statement is executed later. -/
def setState (s : Server σ) (aid state : Text) : Server σ :=
  { s with writes := s.writes ++ [(aid, state)] }

/-- `getState` of the store. -/
def getStored (s : Server σ) (aid : Text) : Text := (s.states aid).getD []

def doRegister (s : Server σ) (platformId : Text) (session : σ) : Server σ :=
  { s with sessions := Function.update s.sessions platformId (some session) }

def doUnregister (s : Server σ) (platformId : Text) : Server σ :=
  { s with sessions := Function.update s.sessions platformId none }

def doGetState (s : Server σ) (aid : Text) (session : σ) : List (Sent σ) :=
  [⟨session, getStored s aid⟩]

def getDelimiter (content : Text) : Except String ℕ :=
  match Separator.indexOf (unit '$') content with
  | some (n + 1) => .ok (n + 1)
  -- at the start, or not there, which is `-1`
  | _ => .error "AID cannot be empty."

def getState (content : Text) (delimiter : ℕ) : Text :=
  if delimiter = content.length - 1 then [] else content.drop (delimiter + 1)

def doStoreState (s : Server σ) (content : Text) : Except String (Server σ) := do
  let delimiter ← getDelimiter content
  let aid := content.take delimiter
  let state := getState content delimiter
  .ok (setState s aid state)

/-- Other commands are ignored. -/
def onMessage (s : Server σ) (message : Text) (session : σ) :
    Except String (Server σ × List (Sent σ)) :=
  match message with
  | [] => .error "Messages cannot be empty."
  | cmd :: content =>
    if cmd = unit 'r' then .ok (doRegister s content session, [])
    else if cmd = unit 'd' then .ok (doUnregister s content, [])
    else if cmd = unit 'g' then .ok (s, doGetState s content session)
    else if cmd = unit 's' then (doStoreState s content).map fun s => (s, [])
    else .ok (s, [])

/-- `sendMessageToClient`, for a message that has a receiver on `host` as its first. -/
def sendMessageToClient (s : Server σ) (host msg : Text) : List (Sent σ) :=
  ((s.sessions host).map fun session => ⟨session, msg⟩).toList

/-- What happens to the server: a session sends a text, a stub fires a message to its platform, or a
write reaches the table. -/
inductive Action (σ : Type) where
  | message (session : σ) (message : Text)
  | fire (host msg : Text)
  | write (i : ℕ)

/-- A text whose handler throws has no effect. -/
def Server.step (s : Server σ) : Action σ → Option (Server σ × List (Sent σ))
  | .message session message =>
      match onMessage s message session with
      | .ok r => some r
      -- the container catches the exception of a handler
      | .error _ => some (s, [])
  | .fire host msg => some (s, sendMessageToClient s host msg)
  | .write i =>
      match s.writes[i]? with
      | none => none
      | some (aid, state) =>
          some ({ s with
            states := Function.update s.states aid (some state)
            writes := s.writes.eraseIdx i }, [])

end Model

/-! ## What the texts ask for -/

section Texts

variable {σ : Type}

/-- The start of the texts that store a state of the agent. -/
def storeText (aid : Text) : Text := unit 's' :: (aid ++ [unit '$'])

/-- The state that an action asks to store for the agent. An agent with the separator in its
identifier, or without an identifier, cannot be stored. -/
def storedBy (aid : Text) : Action σ → Option Text
  | .message _ message =>
      if aid ≠ [] ∧ unit '$' ∉ aid ∧ storeText aid <+: message then
        some (message.drop (storeText aid).length)
      else none
  | _ => none

/-- What an action does to the entry of the platform: a session registers it, or takes it back. -/
def registeredBy (host : Text) : Action σ → Option (Option σ)
  | .message session message =>
      if message = unit 'r' :: host then some (some session)
      else if message = unit 'd' :: host then some none
      else none
  | _ => none

/-- A text is split at the first separator only. -/
theorem storedBy_store {aid state : Text} (haid : aid ≠ []) (hsep : unit '$' ∉ aid) (session : σ)
    (aid' : Text) :
    storedBy aid' (.message session (unit 's' :: (aid ++ unit '$' :: state))) =
      if aid' = aid then some state else none := by
  rw [storedBy]
  by_cases heq : aid' = aid
  · have hprefix : storeText aid ++ state = unit 's' :: (aid ++ unit '$' :: state) := by
      simp [storeText]
    rw [heq, if_pos rfl, ← hprefix, if_pos ⟨haid, hsep, List.prefix_append _ _⟩, List.drop_left]
  · rw [if_neg heq, if_neg]
    rintro ⟨-, hsep', rest, hrest⟩
    have hsplit : aid' ++ unit '$' :: rest = aid ++ unit '$' :: state := by
      simpa [storeText] using hrest
    exact heq (Separator.split_unique hsep' hsep hsplit).1

/-- A text that stores nothing: it has another command, or no identifier. -/
theorem storedBy_eq_none {session : σ} {message : Text}
    (h : ∀ aid state, aid ≠ [] → unit '$' ∉ aid →
      message ≠ unit 's' :: (aid ++ unit '$' :: state)) (aid : Text) :
    storedBy aid (.message session message) = none := by
  rw [storedBy, if_neg]
  rintro ⟨haid, hsep, state, rfl⟩
  apply h aid state haid hsep
  simp [storeText]

end Texts

/-! ## One step -/

section Steps

variable {σ : Type} {s : Server σ}

/-- The handler of the command takes every text that is made of an identifier, the separator and a
state, and no other. -/
theorem doStoreState_cases (s : Server σ) (content : Text) :
    (∃ aid state, aid ≠ [] ∧ unit '$' ∉ aid ∧ content = aid ++ unit '$' :: state ∧
        doStoreState s content = .ok (setState s aid state)) ∨
      doStoreState s content = .error "AID cannot be empty." ∧
        ∀ aid state, aid ≠ [] → unit '$' ∉ aid → content ≠ aid ++ unit '$' :: state := by
  cases hindex : Separator.indexOf (unit '$') content with
  | none =>
      -- without a separator
      right
      constructor
      · rw [doStoreState, getDelimiter, hindex]
        rfl
      · rintro aid state - hsep rfl
        rw [Separator.indexOf_append_cons hsep] at hindex
        cases hindex
  | some n =>
      obtain ⟨aid, state, rfl, hsep, rfl⟩ := Separator.exists_of_indexOf hindex
      cases aid with
      | nil =>
          -- the separator comes first
          right
          constructor
          · rw [doStoreState, getDelimiter, hindex]
            rfl
          · intro aid' state' haid' hsep' heq
            exact haid' (Separator.split_unique hsep' hsep heq.symm).1
      | cons u aid =>
          left
          refine ⟨u :: aid, state, List.cons_ne_nil u aid, hsep, rfl, ?_⟩
          obtain ⟨htake, hdrop⟩ := Separator.take_drop_split (u :: aid) state (unit '$')
          have hstate : getState (u :: aid ++ unit '$' :: state) (u :: aid).length = state := by
            rw [getState, hdrop]
            split_ifs with hlast
            · -- nothing stands behind the separator
              rw [List.length_append, List.length_cons, List.length_cons] at hlast
              exact (List.length_eq_zero_iff.1 (by omega)).symm
            · rfl
          have hdelimiter : getDelimiter (u :: aid ++ unit '$' :: state) =
              .ok (u :: aid).length := by
            rw [getDelimiter, hindex]
            rfl
          rw [doStoreState, hdelimiter]
          show Except.ok (setState s _ _) = _
          rw [htake, hstate]

/-- What an action does to the table and to its writes. -/
inductive Effect (s : Server σ) (a : Action σ) (s' : Server σ) : Prop
  | stores (aid state : Text)
      (stored : ∀ aid', storedBy aid' a = if aid' = aid then some state else none)
      (writes : s'.writes = s.writes ++ [(aid, state)]) (states : s'.states = s.states)
  | rests (stored : ∀ aid', storedBy aid' a = none) (writes : s'.writes = s.writes)
      (states : s'.states = s.states)
  | writes (i : ℕ) (aid state : Text) (action : a = .write i)
      (stored : ∀ aid', storedBy aid' a = none) (taken : s.writes[i]? = some (aid, state))
      (writes : s'.writes = s.writes.eraseIdx i)
      (states : s'.states = Function.update s.states aid (some state))

/-- A text with another command stores nothing. -/
theorem storedBy_of_ne {cmd : CodeUnit} (hcmd : cmd ≠ unit 's') (content : Text) (session : σ)
    (aid : Text) : storedBy aid (.message session (cmd :: content)) = none := by
  apply storedBy_eq_none
  intro aid' state _ _ heq
  exact hcmd (List.cons.inj heq).1

theorem message_effect {s' : Server σ} {session : σ} {message : Text} {out : List (Sent σ)}
    (h : s.step (.message session message) = some (s', out)) :
    Effect s (.message session message) s' := by
  simp only [Server.step] at h
  cases message with
  | nil =>
      cases h
      refine .rests (storedBy_eq_none ?_) rfl rfl
      intro aid state _ _ heq
      cases heq
  | cons cmd content =>
      by_cases hs : cmd = unit 's'
      · subst hs
        rw [onMessage, if_neg (by decide), if_neg (by decide), if_neg (by decide), if_pos rfl] at h
        rcases doStoreState_cases s content with
          ⟨aid, state, haid, hsep, rfl, hstore⟩ | ⟨hstore, hnot⟩
        · rw [hstore] at h
          cases h
          exact .stores aid state (storedBy_store haid hsep session) rfl rfl
        · rw [hstore] at h
          cases h
          refine .rests (storedBy_eq_none ?_) rfl rfl
          intro aid state haid hsep heq
          exact hnot aid state haid hsep (List.cons.inj heq).2
      · -- the other commands leave the table and its writes alone
        have hrests := storedBy_of_ne hs content session
        rw [onMessage, if_neg hs] at h
        split_ifs at h <;> cases h <;> exact .rests hrests rfl rfl

theorem step_effect {s' : Server σ} {a : Action σ} {out : List (Sent σ)}
    (h : s.step a = some (s', out)) : Effect s a s' := by
  cases a with
  | message session message => exact message_effect h
  | fire host msg =>
      cases h
      exact .rests (fun _ => rfl) rfl rfl
  | write i =>
      simp only [Server.step] at h
      split at h
      · cases h
      · rename_i aid state htaken
        cases h
        exact .writes i aid state rfl (fun _ => rfl) htaken rfl rfl

/-- A read replies with the entry of the table. -/
theorem read_step {s' : Server σ} {session : σ} {aid : Text} {out : List (Sent σ)}
    (h : s.step (.message session (unit 'g' :: aid)) = some (s', out)) :
    out = [⟨session, getStored s aid⟩] := by
  simp only [Server.step] at h
  rw [onMessage, if_neg (by decide), if_neg (by decide), if_pos rfl] at h
  cases h
  rfl

end Steps

/-! ## Reads -/

section Reads

variable {σ : Type} {as : List (Action σ)} {t : Server σ}

/-- All that is in the table or on its way to it is in the log. -/
structure Logged (log : Text → Text → Prop) (s : Server σ) : Prop where
  states : ∀ aid state, s.states aid = some state → log aid state
  writes : ∀ w ∈ s.writes, log w.1 w.2

theorem Logged.step {log : Text → Text → Prop} {s s' : Server σ} {a : Action σ}
    (h : Logged log s) (ha : ∀ aid state, storedBy aid a = some state → log aid state)
    (hstep : next Server.step s a = some s') : Logged log s' := by
  obtain ⟨⟨s'', out⟩, hout, rfl⟩ := Option.map_eq_some_iff.1 hstep
  obtain ⟨aid, state, hstored, hwrites, hstates⟩ | ⟨-, hwrites, hstates⟩ |
    ⟨i, aid, state, -, -, htaken, hwrites, hstates⟩ := step_effect hout
  · constructor
    · rw [hstates]
      exact h.states
    · intro w hw
      rw [hwrites] at hw
      rcases List.mem_append.1 hw with hw | hw
      · exact h.writes w hw
      · rw [List.mem_singleton.1 hw]
        exact ha aid state (by rw [hstored, if_pos rfl])
  · constructor
    · rw [hstates]
      exact h.states
    · rw [hwrites]
      exact h.writes
  · constructor
    · intro aid' state' hstate
      rw [hstates] at hstate
      -- a write that is taken was under way before
      by_cases heq : aid' = aid
      · rw [heq, Function.update_self, Option.some.injEq] at hstate
        rw [heq, ← hstate]
        exact h.writes _ (List.mem_of_getElem? htaken)
      · rw [Function.update_of_ne heq] at hstate
        exact h.states aid' state' hstate
    · intro w hw
      rw [hwrites] at hw
      exact h.writes w (List.mem_of_mem_eraseIdx hw)

/-- Whatever the order of the writes, a client that reads the state of an agent gets no state, or
one that a text has stored for this agent. -/
theorem read_stored (ht : execute (next Server.step) (.new σ) as = some t) {t' : Server σ}
    {session : σ} {aid : Text} {out : List (Sent σ)}
    (hread : t.step (.message session (unit 'g' :: aid)) = some (t', out)) :
    ∃ state, out = [⟨session, state⟩] ∧
      (state = [] ∨ ∃ a ∈ as, storedBy aid a = some state) := by
  refine ⟨getStored t aid, read_step hread, ?_⟩
  let log (aid state : Text) : Prop := ∃ a ∈ as, storedBy aid a = some state
  have hnew : Logged log (Server.new σ) := by
    constructor
    · intro aid state h
      cases h
    · intro w hw
      cases hw
  have hstep : ∀ s a s', Logged log s → a ∈ as → next Server.step s a = some s' → Logged log s' :=
    fun s a s' hs ha hnext => hs.step (fun aid state h => ⟨a, ha, h⟩) hnext
  have hlogged : Logged log t := execute_invariant hstep hnew (fun a ha => ha) ht
  cases hstate : t.states aid with
  | none =>
      left
      rw [getStored, hstate]
      rfl
  | some state =>
      right
      rw [getStored, hstate]
      exact hlogged.states aid state hstate

/-- The writes of an agent. -/
def isOf (aid : Text) (w : Text × Text) : Bool := decide (w.1 = aid)

/-- What the table holds for the agent when the writes under way are through. -/
def held (s : Server σ) (aid : Text) : Text :=
  ((s.writes.filter (isOf aid)).getLast?.map Prod.snd).getD (getStored s aid)

/-- No write overtakes another one of the agent. -/
def InOrder (aid : Text) (s : Server σ) : Action σ → Prop
  | .write i => s.writes[i]?.map (isOf aid) = some true → ∀ w ∈ s.writes.take i, isOf aid w = false
  | _ => True

instance (aid : Text) (s : Server σ) (a : Action σ) : Decidable (InOrder aid s a) :=
  match a with
  | .write _ => inferInstanceAs (Decidable (_ → _))
  | .message _ _ => isTrue trivial
  | .fire _ _ => isTrue trivial

/-- A text for the agent replaces what the table will hold, and nothing else does. -/
theorem held_step {s s' : Server σ} {a : Action σ} {aid : Text} (ha : InOrder aid s a)
    (hstep : next Server.step s a = some s') :
    held s' aid = (storedBy aid a).getD (held s aid) := by
  obtain ⟨⟨s'', out⟩, hout, rfl⟩ := Option.map_eq_some_iff.1 hstep
  obtain ⟨aid', state, hstored, hwrites, hstates⟩ | ⟨hstored, hwrites, hstates⟩ |
    ⟨i, aid', state, rfl, hstored, htaken, hwrites, hstates⟩ := step_effect hout
  · -- a text has stored a state, of this agent or of another one
    rw [hstored, held, hwrites, List.filter_append]
    by_cases heq : aid = aid'
    · simp [isOf, heq]
    · simp [isOf, held, getStored, hstates, heq, Ne.symm heq]
  · rw [hstored, held, getStored, hwrites, hstates]
    rfl
  · -- the writes before and after the one that is taken
    have hfilter : s.writes.filter (isOf aid) =
        (s.writes.take i).filter (isOf aid) ++
          ((aid', state) :: s.writes.drop (i + 1)).filter (isOf aid) := by
      rw [← List.filter_append, ← Queue.split_at htaken]
    rw [hstored, Option.getD_none, held, held, hwrites, List.eraseIdx_eq_take_drop_succ, hfilter,
      List.filter_append]
    by_cases heq : aid' = aid
    · -- none of the writes before it is one of the agent
      subst heq
      have hof : isOf aid' (aid', state) = true := decide_eq_true rfl
      have hnone : (s.writes.take i).filter (isOf aid') = [] := by
        apply List.filter_eq_nil_iff.2
        intro w hw
        rw [ha (by rw [htaken, Option.map_some, hof]) w hw]
        exact Bool.false_ne_true
      rw [hnone, List.filter_cons_of_pos hof, List.nil_append, List.nil_append,
        List.getLast?_cons, getStored, hstates, Function.update_self]
      cases ((s.writes.drop (i + 1)).filter (isOf aid')).getLast? <;> rfl
    · rw [List.filter_cons_of_neg (by simpa [isOf] using heq), getStored, getStored, hstates,
        Function.update_of_ne (Ne.symm heq)]

/-- When the writes of the agent have reached the table, in the order in which they were made, a
client that reads the state of the agent gets the last one that a text has stored. -/
theorem read_latest {aid : Text} (horder : Along (next Server.step) (InOrder aid) (.new σ) as)
    (ht : execute (next Server.step) (.new σ) as = some t) (hdone : ∀ w ∈ t.writes, w.1 ≠ aid)
    {t' : Server σ} {session : σ} {out : List (Sent σ)}
    (hread : t.step (.message session (unit 'g' :: aid)) = some (t', out)) :
    out = [⟨session, (as.filterMap (storedBy aid)).getLast?.getD []⟩] := by
  have hlast : held t aid = (as.filterMap (storedBy aid)).getLast?.getD (held (.new σ) aid) := by
    have hstep : ∀ (s : Server σ) a s', True → InOrder aid s a → next Server.step s a = some s' →
        True ∧ held s' aid = (storedBy aid a).getD (held s aid) :=
      fun s a s' _ ha hnext => ⟨trivial, held_step ha hnext⟩
    exact horder.last hstep trivial ht
  have hstored : held t aid = getStored t aid := by
    have hnone : t.writes.filter (isOf aid) = [] := by
      apply List.filter_eq_nil_iff.2
      intro w hw
      simpa [isOf] using hdone w hw
    rw [held, hnone]
    rfl
  rw [read_step hread, ← hstored, hlast]
  rfl

end Reads

/-! ## Messages to clients -/

section Sessions

variable {σ : Type} {as : List (Action σ)} {t : Server σ}

/-- The other commands leave the sessions alone. -/
theorem registeredBy_of_ne {cmd : CodeUnit} (hr : cmd ≠ unit 'r') (hd : cmd ≠ unit 'd')
    (content : Text) (session : σ) (host : Text) :
    registeredBy host (.message session (cmd :: content)) = none := by
  rw [registeredBy, if_neg, if_neg]
  · exact fun heq => hd (List.cons.inj heq).1
  · exact fun heq => hr (List.cons.inj heq).1

theorem sessions_onMessage {s s' : Server σ} {session : σ} {message : Text} {out : List (Sent σ)}
    (h : onMessage s message session = .ok (s', out)) (host : Text) :
    s'.sessions host = (registeredBy host (.message session message)).getD (s.sessions host) := by
  cases message with
  | nil => cases h
  | cons cmd content =>
      by_cases hr : cmd = unit 'r'
      · subst hr
        rw [onMessage, if_pos rfl] at h
        cases h
        by_cases heq : host = content
        · simp [doRegister, registeredBy, heq]
        · have hcmd : unit 'r' ≠ unit 'd' := by decide
          simp [doRegister, registeredBy, heq, Ne.symm heq, hcmd]
      by_cases hd : cmd = unit 'd'
      · -- any session may take a platform back
        subst hd
        rw [onMessage, if_neg hr, if_pos rfl] at h
        cases h
        by_cases heq : host = content
        · simp [doUnregister, registeredBy, heq, hr]
        · simp [doUnregister, registeredBy, heq, Ne.symm heq]
      · rw [registeredBy_of_ne hr hd]
        rw [onMessage, if_neg hr, if_neg hd] at h
        split_ifs at h
        · cases h
          rfl
        · -- the handler puts a write under way, or throws
          rcases doStoreState_cases s content with ⟨aid, state, -, -, -, hstore⟩ | ⟨hstore, -⟩
          · rw [hstore] at h
            cases h
            rfl
          · rw [hstore] at h
            cases h
        · cases h
          rfl

/-- A text that registers a platform, or takes it back, is handled. -/
theorem registeredBy_of_error {s : Server σ} {session : σ} {message : Text} {error : String}
    (h : onMessage s message session = .error error) (host : Text) :
    registeredBy host (.message session message) = none := by
  cases message with
  | nil => rfl
  | cons cmd content =>
      apply registeredBy_of_ne
      · rintro rfl
        rw [onMessage, if_pos rfl] at h
        cases h
      · rintro rfl
        rw [onMessage, if_neg (by decide), if_pos rfl] at h
        cases h

theorem sessions_step {s s' : Server σ} {a : Action σ} (host : Text)
    (hstep : next Server.step s a = some s') :
    s'.sessions host = (registeredBy host a).getD (s.sessions host) := by
  obtain ⟨⟨s'', out⟩, hout, rfl⟩ := Option.map_eq_some_iff.1 hstep
  cases a with
  | message session message =>
      simp only [Server.step] at hout
      split at hout
      · rename_i hmessage
        cases hout
        exact sessions_onMessage hmessage host
      · rename_i hmessage
        cases hout
        rw [registeredBy_of_error hmessage]
        rfl
  | fire host' msg =>
      cases hout
      rfl
  | write i =>
      simp only [Server.step] at hout
      split at hout
      · cases hout
      · cases hout
        rfl

/-- A message goes to the session that was the last to register the platform of the receiver, unless
the platform has been taken back since, and to no other. -/
theorem fire_registered (ht : execute (next Server.step) (.new σ) as = some t) {t' : Server σ}
    {host msg : Text} {out : List (Sent σ)} (hfire : t.step (.fire host msg) = some (t', out)) :
    out = (((as.filterMap (registeredBy host)).getLast?.getD none).map fun session =>
      ⟨session, msg⟩).toList := by
  have hstep : ∀ (s : Server σ) a s', True → True → next Server.step s a = some s' →
      True ∧ s'.sessions host = (registeredBy host a).getD (s.sessions host) :=
    fun s a s' _ _ hnext => ⟨trivial, sessions_step host hnext⟩
  have hlast : t.sessions host = (as.filterMap (registeredBy host)).getLast?.getD none :=
    (along_of_forall (fun _ _ => trivial) _ as).last hstep trivial ht
  cases hfire
  rw [sendMessageToClient, hlast]

end Sessions

/-! ## A run -/

/-- Two sessions use the socket: the second takes the platform of the first over, and an identifier
holds a state of its own although it starts with another one. -/
def shared : List (Action ℕ) :=
  [.message 1 (text "rbrowser"), .message 2 (text "rbrowser"), .message 1 (text "sann$one"),
    .message 2 (text "sanna$two"), .message 1 (text "sann$three"), .write 1, .write 0, .write 0]

theorem state_shared :
    (execute (next Server.step) (.new ℕ) shared).map (fun t =>
      (t.sessions (text "browser"), t.states (text "ann"), t.writes)) =
        some (some 2, some (text "three"), []) := by
  decide +kernel

theorem inOrder_shared :
    Along (next Server.step) (InOrder (text "ann")) (.new ℕ) shared := by
  decide +kernel

theorem read_stored_shared :
    ∃ t t' out, execute (next Server.step) (.new ℕ) shared = some t ∧
      t.step (.message 7 (unit 'g' :: text "ann")) = some (t', out) ∧
      ∃ state, out = [⟨7, state⟩] ∧
        (state = [] ∨ ∃ a ∈ shared, storedBy (text "ann") a = some state) := by
  obtain ⟨t, ht, -⟩ := Option.map_eq_some_iff.1 state_shared
  exact ⟨t, t, _, ht, rfl, read_stored ht rfl⟩

theorem read_latest_shared :
    ∃ t t' out, execute (next Server.step) (.new ℕ) shared = some t ∧
      t.step (.message 7 (unit 'g' :: text "ann")) = some (t', out) ∧
      out = [⟨7, (shared.filterMap (storedBy (text "ann"))).getLast?.getD []⟩] := by
  obtain ⟨t, ht, hstate⟩ := Option.map_eq_some_iff.1 state_shared
  obtain ⟨-, -, hwrites⟩ : _ ∧ _ ∧ t.writes = [] := by simpa using hstate
  have hdone : ∀ w ∈ t.writes, w.1 ≠ text "ann" := by
    rw [hwrites]
    intro w hw
    cases hw
  exact ⟨t, t, _, ht, rfl, read_latest inOrder_shared ht hdone rfl⟩

theorem fire_registered_shared :
    ∃ t t' out, execute (next Server.step) (.new ℕ) shared = some t ∧
      t.step (.fire (text "browser") (text "hello")) = some (t', out) ∧
      out = (((shared.filterMap (registeredBy (text "browser"))).getLast?.getD none).map
        fun session => ⟨session, text "hello"⟩).toList := by
  obtain ⟨t, ht, -⟩ := Option.map_eq_some_iff.1 state_shared
  exact ⟨t, t, _, ht, rfl, fire_registered ht rfl⟩

end Siebog.Radigost.WebClientSocket
