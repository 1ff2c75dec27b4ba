import Siebog.Lib.Trace
import Mathlib.Data.Multiset.Bind
import Mathlib.Data.List.Nodup

/-!
# Delivery to browser agents

A message posted on the server travels in three hops. The message manager puts one JMS message for
each receiver; the consumer hands the message to the agent that runs under that receiver, and an
empty Radigost stub gives it to the websocket; the client that gets the text posts it to every
receiver it runs a worker for. Each hop sees the whole list of receivers.

The hops are asynchronous, so a state is what is in flight: the indices of the JMS messages not yet
consumed, and the hosts of the clients with a text on its way. The outputs are the workers that were
posted a copy. Whatever the order, the copies posted in the end are those that the receivers cause
one by one (`copies_conserved`), and `delivery_once_iff` counts them.
-/

set_option autoImplicit false

namespace Siebog.Radigost

open Siebog.Lib

section Model

/-- An agent identifier. Identifiers are compared by `str`. -/
structure AID where
  name : String
  host : String
  deriving DecidableEq

def AID.str (aid : AID) : String := aid.name ++ "@" ++ aid.host

/-- A browser client: the identifiers its `running` map has workers for. -/
structure Client where
  running : List String

/-- A worker is known by the host its client registered and by its key in the client's map. -/
structure Worker where
  host : String
  key : String
  deriving DecidableEq

/-- What `getAgentReference` finds on the server. -/
inductive AgentKind where
  | emptyStub
  | server
  deriving DecidableEq

/-- The agents on the server by the `str` of their identifiers, and the clients of the registered
sessions by host. -/
structure Deployment where
  agents : String → Option AgentKind
  sessions : String → Option Client

/-- `postToClient`, in the client that registered `host`: one copy for each receiver it runs. -/
def postToClient (host : String) (client : Client) (receivers : List AID) : List Worker :=
  receivers.filterMap fun aid =>
    if aid.str ∈ client.running then some ⟨host, aid.str⟩ else none

namespace Deployment

/-- `sendMessageToClient`: the text goes to the session of the first receiver's host. -/
def sendMessageToClient (D : Deployment) (receivers : List AID) : Multiset String :=
  match receivers.head? with
  | none => 0
  | some aid => if (D.sessions aid.host).isSome then {aid.host} else 0

/-- `RadigostStub.onMessage` for an empty stub; agents that run on the server send no text. -/
def handleMessage (D : Deployment) (receivers : List AID) : Option AgentKind → Multiset String
  | some .emptyStub => D.sendMessageToClient receivers
  | _ => 0

/-- `processMessage`: the message goes to the agent of the receiver at the index. -/
def processMessage (D : Deployment) (receivers : List AID) (index : ℕ) : Multiset String :=
  match receivers[index]? with
  | none => 0
  | some aid => D.handleMessage receivers (D.agents aid.str)

/-- The client's `onMessage`. -/
def receiveText (D : Deployment) (receivers : List AID) (host : String) : List Worker :=
  match D.sessions host with
  | none => []
  | some client => postToClient host client receivers

end Deployment

/-- What is in flight. -/
structure Flight where
  jms : Multiset ℕ
  texts : Multiset String

/-- `post`: one JMS message for each receiver, with its index. -/
def post (receivers : List AID) : Flight := ⟨List.range receivers.length, 0⟩

/-- What happens next: a JMS message is consumed, or a text reaches the client of a host. -/
inductive Event where
  | consume (index : ℕ)
  | text (host : String)

def Deployment.step (D : Deployment) (receivers : List AID) (f : Flight) :
    Event → Option (Flight × List Worker)
  | .consume i =>
      if i ∈ f.jms then some (⟨f.jms.erase i, f.texts + D.processMessage receivers i⟩, []) else none
  | .text host =>
      if host ∈ f.texts then
        some (⟨f.jms, f.texts.erase host⟩, D.receiveText receivers host)
      else none

end Model

section Placement

/-- The worker of a browser agent, in the client of its host. -/
def AID.worker (aid : AID) : Worker := ⟨aid.host, aid.str⟩

namespace Deployment

/-- The identifier is that of a Radigost agent: an empty stub stands for it on the server. -/
def IsRadigost (D : Deployment) (aid : AID) : Prop := D.agents aid.str = some .emptyStub

instance (D : Deployment) : DecidablePred D.IsRadigost := fun aid => by
  unfold IsRadigost
  infer_instance

/-- A receiver of the message: a Radigost agent runs in the registered session of its host and
nowhere else, and an agent of the server runs in no session. -/
structure Placed (D : Deployment) (aid : AID) : Prop where
  runs : D.IsRadigost aid → ∃ client, D.sessions aid.host = some client ∧ aid.str ∈ client.running
  only : ∀ host client, D.sessions host = some client → aid.str ∈ client.running →
    D.IsRadigost aid ∧ host = aid.host

/-- The Radigost receivers of a message. -/
def browser (D : Deployment) (receivers : List AID) : List AID := receivers.filter D.IsRadigost

end Deployment

end Placement

section Conservation

namespace Deployment

variable (D : Deployment) (receivers : List AID)

/-- The copies that one text leads to. -/
def copiesOn (host : String) : Multiset Worker := D.receiveText receivers host

/-- The copies that one JMS message leads to. -/
def copiesOf (index : ℕ) : Multiset Worker :=
  (D.processMessage receivers index).bind (D.copiesOn receivers)

/-- The copies that what is in flight will lead to. -/
def due (f : Flight) : Multiset Worker :=
  f.texts.bind (D.copiesOn receivers) + f.jms.bind (D.copiesOf receivers)

theorem step_due {f f' : Flight} {e : Event} {out : List Worker}
    (h : D.step receivers f e = some (f', out)) :
    (out : Multiset Worker) + D.due receivers f' = D.due receivers f := by
  cases e with
  | consume i =>
      simp only [step] at h
      split at h
      · next hi =>
          cases h
          -- the copies of one message move from the queue to the texts
          have hjms : f.jms.bind (D.copiesOf receivers) =
              D.copiesOf receivers i + (f.jms.erase i).bind (D.copiesOf receivers) := by
            rw [← Multiset.cons_bind, Multiset.cons_erase hi]
          simp only [due, Multiset.coe_nil, Multiset.zero_add, Multiset.add_bind]
          rw [hjms, Multiset.add_assoc]
          rfl
      · cases h
  | text host =>
      simp only [step] at h
      split at h
      · next hhost =>
          cases h
          -- the copies of one text go out to the workers
          have htexts : f.texts.bind (D.copiesOn receivers) =
              D.copiesOn receivers host + (f.texts.erase host).bind (D.copiesOn receivers) := by
            rw [← Multiset.cons_bind, Multiset.cons_erase hhost]
          simp only [due]
          rw [htexts, Multiset.add_assoc]
          rfl
      · cases h

/-- Nothing is lost on the way: in every run, what was posted and what is due are together what the
message manager put in flight. -/
theorem copies_conserved (es : List Event) (f : Flight) (h : List Worker)
    (hrun : play (D.step receivers) (post receivers) es = some (f, h)) :
    (h : Multiset Worker) + D.due receivers f = D.due receivers (post receivers) := by
  refine play_invariant_of_step
    (fun (h : List Worker) f => (h : Multiset Worker) + D.due receivers f =
      D.due receivers (post receivers)) ?_ (by simp) hrun
  intro h f e f' out hinv hstep
  rw [← Multiset.coe_add, Multiset.add_assoc, D.step_due receivers hstep]
  exact hinv

end Deployment

end Conservation

section Counting

namespace Deployment

variable (D : Deployment)

/-- The copies of one text for the first receiver's client. -/
def firstCopies (receivers : List AID) : Multiset Worker :=
  match receivers.head? with
  | none => 0
  | some aid => D.copiesOn receivers aid.host

theorem sendMessageToClient_copies (receivers : List AID) :
    (D.sendMessageToClient receivers).bind (D.copiesOn receivers) = D.firstCopies receivers := by
  unfold sendMessageToClient firstCopies
  cases receivers.head? with
  | none => rfl
  | some aid =>
      cases hs : D.sessions aid.host with
      | none => simp [hs, copiesOn, receiveText]
      | some client => simp [hs]

/-- A JMS message leads to copies exactly when its receiver is a Radigost agent, and then to those
of one text, whoever the receiver is. -/
theorem handleMessage_copies (receivers : List AID) (aid : AID) :
    (D.handleMessage receivers (D.agents aid.str)).bind (D.copiesOn receivers) =
      if D.IsRadigost aid then D.firstCopies receivers else 0 := by
  by_cases h : D.IsRadigost aid
  · rw [if_pos h, show D.agents aid.str = some .emptyStub from h]
    exact D.sendMessageToClient_copies receivers
  · rw [if_neg h]
    cases hkind : D.agents aid.str with
    | none => rfl
    | some kind =>
        cases kind with
        | emptyStub => exact absurd hkind h
        | server => rfl

theorem count_bind_ite {α β : Type} [DecidableEq β] (p : α → Prop) [DecidablePred p]
    (F : Multiset β) (b : β) (l : List α) :
    ((l : Multiset α).bind fun a => if p a then F else 0).count b =
      (l.filter p).length * F.count b := by
  induction l with
  | nil => simp
  | cons a l ih =>
      rw [← Multiset.cons_coe, Multiset.cons_bind, Multiset.count_add, ih, List.filter_cons]
      by_cases h : p a
      · simp [h, Nat.add_mul, Nat.add_comm]
      · simp [h]

theorem range_map_getElem? {α : Type} (l : List α) :
    (List.range l.length).map (fun i => l[i]?) = l.map some := by
  refine List.ext_getElem? fun i => ?_
  by_cases hi : i < l.length
  · simp [hi]
  · simp [hi]

/-- What the message manager put in flight, counted by worker: every Radigost receiver causes the
copies of one text. -/
theorem count_due_post (receivers : List AID) (w : Worker) :
    (D.due receivers (post receivers)).count w =
      (D.browser receivers).length * (D.firstCopies receivers).count w := by
  let g : Option AID → Multiset Worker := fun o => match o with
    | none => 0
    | some aid => if D.IsRadigost aid then D.firstCopies receivers else 0
  have hg : ∀ i, D.copiesOf receivers i = g receivers[i]? := by
    intro i
    unfold copiesOf processMessage
    cases receivers[i]? with
    | none => rfl
    | some aid => exact D.handleMessage_copies receivers aid
  have hmap : (List.range receivers.length : Multiset ℕ).bind (fun i => g receivers[i]?) =
      (receivers : Multiset AID).bind fun aid => g (some aid) := by
    rw [← Multiset.bind_map _ g, Multiset.map_coe, range_map_getElem?, ← Multiset.map_coe,
      Multiset.bind_map]
  have hdue : D.due receivers (post receivers) =
      (receivers : Multiset AID).bind fun aid => g (some aid) := by
    simp only [due, post, Multiset.zero_bind, Multiset.zero_add]
    rw [← hmap]
    exact Multiset.bind_congr fun i _ => hg i
  rw [hdue]
  exact count_bind_ite D.IsRadigost (D.firstCopies receivers) w receivers

/-- A text posts at most to workers of the client that gets it, and only to receivers. -/
theorem mem_copiesOn {receivers : List AID} {host : String} {w : Worker}
    (h : w ∈ D.copiesOn receivers host) : ∃ client aid, D.sessions host = some client ∧
      aid ∈ receivers ∧ aid.str ∈ client.running ∧ w = ⟨host, aid.str⟩ := by
  unfold copiesOn receiveText at h
  cases hs : D.sessions host with
  | none => simp [hs] at h
  | some client =>
      simp only [hs, postToClient, Multiset.mem_coe, List.mem_filterMap] at h
      obtain ⟨aid, haid, hw⟩ := h
      by_cases hrun : aid.str ∈ client.running
      · rw [if_pos hrun] at hw
        exact ⟨client, aid, rfl, haid, hrun, (Option.some.inj hw).symm⟩
      · rw [if_neg hrun] at hw
        cases hw

theorem postToClient_key_sublist (host : String) (client : Client) (receivers : List AID) :
    ((postToClient host client receivers).map Worker.key).Sublist (receivers.map AID.str) := by
  induction receivers with
  | nil => exact .slnil
  | cons a rest ih =>
      unfold postToClient at ih ⊢
      by_cases ha : a.str ∈ client.running
      · simpa [List.filterMap_cons, ha] using ih
      · simpa [List.filterMap_cons, ha] using ih.cons a.str

/-- A text posts once to the worker of a Radigost receiver whose client gets it, and not at all to
those of other clients. -/
theorem count_copiesOn {receivers : List AID} (hdistinct : (receivers.map AID.str).Nodup)
    {aid : AID} (haid : aid ∈ receivers) (hplaced : D.Placed aid) (hradigost : D.IsRadigost aid)
    (host : String) :
    (D.copiesOn receivers host).count aid.worker = if host = aid.host then 1 else 0 := by
  by_cases hhost : host = aid.host
  · subst hhost
    obtain ⟨client, hs, hrun⟩ := hplaced.runs hradigost
    have hone : ((postToClient aid.host client receivers).map Worker.key).Nodup :=
      (postToClient_key_sublist aid.host client receivers).nodup hdistinct
    have hmem : aid.worker ∈ postToClient aid.host client receivers :=
      List.mem_filterMap.2 ⟨aid, haid, if_pos hrun⟩
    rw [if_pos rfl]
    simp only [copiesOn, receiveText, hs, Multiset.coe_count]
    exact List.count_eq_one_of_mem hone.of_map hmem
  · rw [if_neg hhost, Multiset.count_eq_zero]
    intro hmem
    obtain ⟨client, b, -, -, -, heq⟩ := D.mem_copiesOn hmem
    exact hhost (congrArg Worker.host heq).symm

/-- The first receiver's client posts once to the worker of a Radigost receiver of its own. -/
theorem count_firstCopies {receivers : List AID} (hdistinct : (receivers.map AID.str).Nodup)
    {aid : AID} (haid : aid ∈ receivers) (hplaced : D.Placed aid) (hradigost : D.IsRadigost aid) :
    (D.firstCopies receivers).count aid.worker =
      if receivers.head?.map AID.host = some aid.host then 1 else 0 := by
  unfold firstCopies
  cases receivers.head? with
  | none => simp
  | some first =>
      have hone := D.count_copiesOn hdistinct haid hplaced hradigost first.host
      simp [hone]

/-- It posts to no worker but those of Radigost receivers. -/
theorem mem_firstCopies {receivers : List AID} (hplaced : ∀ aid ∈ receivers, D.Placed aid)
    {w : Worker} (hw : w ∈ D.firstCopies receivers) :
    ∃ aid ∈ D.browser receivers, w = aid.worker := by
  unfold firstCopies at hw
  cases hhead : receivers.head? with
  | none => simp [hhead] at hw
  | some first =>
      rw [hhead] at hw
      obtain ⟨client, aid, hs, haid, hrun, rfl⟩ := D.mem_copiesOn hw
      obtain ⟨hradigost, hhost⟩ := (hplaced aid haid).only _ _ hs hrun
      refine ⟨aid, List.mem_filter.2 ⟨haid, by simpa using hradigost⟩, ?_⟩
      rw [AID.worker, ← hhost]

end Deployment

end Counting

section ExactlyOnce

/-- Once everything in flight has been consumed, in any order, each Radigost receiver's worker has
been posted exactly one copy and no other worker received one, exactly when the message has at most
one Radigost receiver and that receiver's host is the host of the first receiver. The receivers are
distinct, and each is a Radigost agent running in the registered session of its host, or an agent of
the server. -/
theorem delivery_once_iff (D : Deployment) (receivers : List AID)
    (hdistinct : (receivers.map AID.str).Nodup) (hplaced : ∀ aid ∈ receivers, D.Placed aid)
    (es : List Event) (f : Flight) (h : List Worker)
    (hrun : play (D.step receivers) (post receivers) es = some (f, h))
    (hdone : f.jms = 0 ∧ f.texts = 0) :
    ((∀ aid ∈ D.browser receivers, h.count aid.worker = 1) ∧
        ∀ w ∈ h, ∃ aid ∈ D.browser receivers, w = aid.worker) ↔
      D.browser receivers = [] ∨ ∃ aid, D.browser receivers = [aid] ∧
        receivers.head?.map AID.host = some aid.host := by
  have hposted : (h : Multiset Worker) = D.due receivers (post receivers) := by
    rw [← D.copies_conserved receivers es f h hrun, Deployment.due, hdone.1, hdone.2]
    simp
  have hcount : ∀ w,
      h.count w = (D.browser receivers).length * (D.firstCopies receivers).count w := by
    intro w
    rw [← Multiset.coe_count, hposted, D.count_due_post]
  have hbrowser : ∀ aid ∈ D.browser receivers, aid ∈ receivers ∧ D.IsRadigost aid := by
    intro aid haid
    simpa [Deployment.browser] using haid
  -- a worker is posted as many copies as there are Radigost receivers, or none
  have hworker : ∀ aid ∈ D.browser receivers, h.count aid.worker =
      if receivers.head?.map AID.host = some aid.host then (D.browser receivers).length else 0 := by
    intro aid haid
    obtain ⟨hmem, hradigost⟩ := hbrowser aid haid
    rw [hcount, D.count_firstCopies hdistinct hmem (hplaced aid hmem) hradigost]
    split
    · exact Nat.mul_one _
    · rfl
  have hother : ∀ w ∈ h, ∃ aid ∈ D.browser receivers, w = aid.worker := by
    intro w hw
    have hpos : 0 < (D.firstCopies receivers).count w := by
      have hpos := List.count_pos_iff.2 hw
      rw [hcount] at hpos
      exact Nat.pos_of_mul_pos_left hpos
    exact D.mem_firstCopies hplaced (Multiset.count_pos.1 hpos)
  rw [and_iff_left hother]
  constructor
  · intro hall
    cases hb : D.browser receivers with
    | nil => exact .inl rfl
    | cons aid rest =>
        have haid : aid ∈ D.browser receivers := by simp [hb]
        have hone := hall aid haid
        rw [hworker aid haid] at hone
        split at hone
        · next hhost =>
            rw [hb, List.length_cons] at hone
            have hrest : rest = [] := List.length_eq_zero_iff.1 (by omega)
            exact .inr ⟨aid, by rw [hrest], hhost⟩
        · cases hone
  · rintro (hnil | ⟨b, hb, hhost⟩) aid haid
    · rw [hnil] at haid
      cases haid
    · rw [hworker aid haid]
      rw [hb] at haid ⊢
      rw [List.mem_singleton.1 haid, if_pos hhost]
      rfl

/-- One browser window of host `h` running the agents `a` and `b`, and an agent `s` of the server. -/
def oneWindow : Deployment where
  agents str := if str = "a@h" ∨ str = "b@h" then some .emptyStub
    else if str = "s@xjaf" then some .server else none
  sessions host := if host = "h" then some ⟨["a@h", "b@h"]⟩ else none

theorem oneWindow_placed (aid : AID)
    (h : aid = ⟨"a", "h"⟩ ∨ aid = ⟨"b", "h"⟩ ∨ aid = ⟨"s", "xjaf"⟩) : oneWindow.Placed aid := by
  constructor
  · intro hr
    refine ⟨⟨["a@h", "b@h"]⟩, ?_, ?_⟩
    · rcases h with rfl | rfl | rfl
      · rfl
      · rfl
      · exact absurd hr (by decide)
    · rcases h with rfl | rfl | rfl
      · decide
      · decide
      · exact absurd hr (by decide)
  · intro host client hs hrun
    simp only [oneWindow, Option.ite_none_right_eq_some, Option.some.injEq] at hs
    obtain ⟨rfl, rfl⟩ := hs
    rcases h with rfl | rfl | rfl
    · exact ⟨by decide, rfl⟩
    · exact ⟨by decide, rfl⟩
    · exact absurd hrun (by decide)

/-- A browser agent and an agent of the server. -/
theorem delivery_once_iff_mixed :
    ∃ f h, play (oneWindow.step [⟨"a", "h"⟩, ⟨"s", "xjaf"⟩]) (post [⟨"a", "h"⟩, ⟨"s", "xjaf"⟩])
        [.consume 0, .text "h", .consume 1] = some (f, h) ∧ h.count ⟨"h", "a@h"⟩ = 1 := by
  have h : play (oneWindow.step [⟨"a", "h"⟩, ⟨"s", "xjaf"⟩]) (post [⟨"a", "h"⟩, ⟨"s", "xjaf"⟩])
      [.consume 0, .text "h", .consume 1] = some (⟨0, 0⟩, [⟨"h", "a@h"⟩]) := by rfl
  have hplaced : ∀ aid ∈ [(⟨"a", "h"⟩ : AID), ⟨"s", "xjaf"⟩], oneWindow.Placed aid := by
    intro aid haid
    simp only [List.mem_cons, List.not_mem_nil, or_false] at haid
    exact oneWindow_placed aid (haid.imp_right .inr)
  have hiff := delivery_once_iff oneWindow _ (by decide) hplaced _ _ _ h ⟨rfl, rfl⟩
  exact ⟨_, _, h, (hiff.2 (.inr ⟨⟨"a", "h"⟩, by decide, rfl⟩)).1 ⟨"a", "h"⟩ (by decide)⟩

/-- Two browser agents of one window are posted the message twice each. -/
theorem delivered_twice :
    ¬ ∀ (D : Deployment) (receivers : List AID), (receivers.map AID.str).Nodup →
      (∀ aid ∈ receivers, D.Placed aid) → ∀ (es : List Event) (f : Flight) (h : List Worker),
        play (D.step receivers) (post receivers) es = some (f, h) → f.jms = 0 ∧ f.texts = 0 →
          (∀ aid ∈ D.browser receivers, h.count aid.worker = 1) ∧
            ∀ w ∈ h, ∃ aid ∈ D.browser receivers, w = aid.worker := by
  intro hall
  have h : play (oneWindow.step [⟨"a", "h"⟩, ⟨"b", "h"⟩]) (post [⟨"a", "h"⟩, ⟨"b", "h"⟩])
      [.consume 0, .text "h", .consume 1, .text "h"] = some (⟨0, 0⟩,
        [⟨"h", "a@h"⟩, ⟨"h", "b@h"⟩, ⟨"h", "a@h"⟩, ⟨"h", "b@h"⟩]) := by rfl
  have hplaced : ∀ aid ∈ [(⟨"a", "h"⟩ : AID), ⟨"b", "h"⟩], oneWindow.Placed aid := by
    intro aid haid
    simp only [List.mem_cons, List.not_mem_nil, or_false] at haid
    exact oneWindow_placed aid (haid.imp_right .inl)
  have hone := (hall oneWindow _ (by decide) hplaced _ _ _ h ⟨rfl, rfl⟩).1 ⟨"a", "h"⟩ (by decide)
  exact absurd hone (by decide)

end ExactlyOnce

end Siebog.Radigost
