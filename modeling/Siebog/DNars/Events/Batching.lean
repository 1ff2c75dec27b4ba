import Siebog.DNars.Events.LockOrder

/-!
# One batch for one `add(Seq)`

`add(st: Seq[Statement])` pauses the events, adds its statements one by one and resumes. A pause
only withholds `list.notify`: the dispatch thread never reads `paused`, so one that is not in the
wait set, or is woken there spuriously, copies the pending events whenever it finds some
(`Undisturbed` says that it does not). Until then the events of the call travel as one parcel: they
gather in the list, are copied together and handed to the observers together (`Batching`).

The runs are those of one client, which makes the call, and the dispatch thread. `evs` are the
events of the call, new objects all of them.
-/

set_option autoImplicit false

namespace Siebog.DNars.Events

open Siebog.Lib

universe u v

variable {ε : Type v} {evs : List ε}

section Call

/-- Which operations of the call are not begun, by the events it has added so far. -/
inductive Stage (evs : List ε) : List (Op ε) → List ε → Prop where
  | called : Stage evs (Call.addSeq evs).ops []
  | adding {done rest : List ε} (heq : done ++ rest = evs) :
      Stage evs (rest.map .addEvent ++ [.setPaused false]) done
  | finished : Stage evs [] evs

variable {ops : List (Op ε)} {done : List ε}

/-- The next event of the batch is added. -/
theorem Stage.append {event : ε} (h : Stage evs (.addEvent event :: ops) done) :
    event ∈ evs ∧ ops ≠ [] ∧ Stage evs ops (done ++ [event]) := by
  generalize hops : Op.addEvent event :: ops = ops₀ at h
  cases h with
  | called => cases hops
  | finished => cases hops
  | @adding _ rest heq =>
      cases rest with
      | nil => cases hops
      | cons e rest =>
          cases hops
          refine ⟨by simp [← heq], by simp, .adding ?_⟩
          rw [← heq, List.append_assoc, List.singleton_append]

/-- The batch begins with a pause. -/
theorem Stage.pause (h : Stage evs (.setPaused true :: ops) done) :
    ops ≠ [] ∧ Stage evs ops done := by
  generalize hops : Op.setPaused true :: ops = ops₀ at h
  cases h with
  | called =>
      cases hops
      exact ⟨by simp, .adding rfl⟩
  | finished => cases hops
  | @adding _ rest heq =>
      cases rest with
      | nil => cases hops
      | cons e rest => cases hops

/-- The batch ends with the pause. -/
theorem Stage.resume (h : Stage evs (.setPaused false :: ops) done) :
    ops = [] ∧ Stage evs [] done := by
  generalize hops : Op.setPaused false :: ops = ops₀ at h
  cases h with
  | called => cases hops
  | finished => cases hops
  | @adding _ rest heq =>
      cases rest with
      | nil =>
          cases hops
          rw [List.append_nil] at heq
          exact ⟨rfl, heq ▸ .finished⟩
      | cons e rest => cases hops

/-- At the end all events have been added. -/
theorem Stage.eq_of_finished (h : Stage evs [] done) : done = evs := by
  generalize hops : ([] : List (Op ε)) = ops₀ at h
  cases h with
  | called => cases hops
  | adding => simp at hops
  | finished => rfl

/-- The call has `paused = false` before it until it has begun its last operation. -/
theorem Stage.mem_iff (h : Stage evs ops done) : .setPaused false ∈ ops ↔ ops ≠ [] := by
  cases h with
  | called => simp [Call.ops]
  | adding => simp
  | finished => simp

end Call

section History

def Out.events? : Out ε → Option (List ε)
  | .resumed => none
  | .onEvents events => some events

/-- The copy of the pending events that the dispatch thread has in hand. -/
def EDT.copied : EDT ε → List ε
  | .dispatching events => events
  | _ => []

/-- No event of the call is handed to the observers before `_paused` is set back to false. -/
def Withheld (evs : List ε) (h : List (Out ε)) : Prop :=
  ∀ h₁ events h₂, h = h₁ ++ .onEvents events :: h₂ → (∃ e ∈ events, e ∈ evs) → .resumed ∈ h₁

/-- A notification copies nothing. -/
theorem EDT.copied_notified {e e' : EDT ε} (h : e' = e ∨ e = .waiting ∧ e' = .notified) :
    e'.copied = e.copied := by
  rcases h with rfl | ⟨rfl, rfl⟩
  · rfl
  · rfl

/-- Nothing has been handed out yet. -/
theorem withheld_nil : Withheld evs [] := by
  intro h₁ events h₂ heq
  simp at heq

/-- The end of the pause hands nothing out. -/
theorem withheld_snoc_resumed {h : List (Out ε)} (hw : Withheld evs h) :
    Withheld evs (h ++ [.resumed]) := by
  intro h₁ events h₂ heq hmem
  rcases snoc_eq_append_cons.1 heq with ⟨-, hx, -⟩ | ⟨h₂', -, hh⟩
  · cases hx
  · exact hw h₁ events h₂' hh hmem

variable [DecidableEq ε]

/-- The events of the call among `events`. -/
def share (evs events : List ε) : List ε := events.filter (· ∈ evs)

/-- What the observers were given of the call, batch by batch; batches with nothing of it are left
out. -/
def shares (evs : List ε) (h : List (Out ε)) : List (List ε) :=
  ((h.filterMap Out.events?).map (share evs)).filter (· ≠ [])

/-- The events of the call added so far, by the batches they are in: those handed to the observers,
the copy, and the list. -/
def parcels (evs : List ε) (h : List (Out ε)) (copied list : List ε) : List (List ε) :=
  shares evs h ++ [share evs copied, share evs list].filter (· ≠ [])

/-- The share of two lists is made of theirs. -/
theorem share_append (evs l l' : List ε) : share evs (l ++ l') = share evs l ++ share evs l' :=
  List.filter_append l l'

/-- A list without a share has none of the events. -/
theorem share_eq_nil {l : List ε} : share evs l = [] ↔ ∀ e ∈ l, e ∉ evs := by
  simp [share]

theorem shares_snoc_resumed (h : List (Out ε)) : shares evs (h ++ [.resumed]) = shares evs h := by
  simp [shares, Out.events?]

/-- A call of the observers adds its share, if there is one. -/
theorem shares_snoc_onEvents (h : List (Out ε)) (events : List ε) :
    shares evs (h ++ [.onEvents events]) = shares evs h ++ [share evs events].filter (· ≠ []) := by
  simp [shares, Out.events?]

/-- Events are withheld as long as no call before the end of the pause has a share. -/
theorem withheld_snoc_onEvents {h : List (Out ε)} {events : List ε} :
    Withheld evs (h ++ [.onEvents events]) ↔
      Withheld evs h ∧ (share evs events ≠ [] → .resumed ∈ h) := by
  have hshare : share evs events ≠ [] ↔ ∃ e ∈ events, e ∈ evs := by
    rw [Ne, share_eq_nil]
    simp
  rw [hshare]
  constructor
  · intro hw
    refine ⟨fun h₁ events' h₂ heq hmem => ?_, fun hmem => hw h events [] rfl hmem⟩
    exact hw h₁ events' (h₂ ++ [.onEvents events]) (by simp [heq]) hmem
  · rintro ⟨hw, hlast⟩ h₁ events' h₂ heq hmem
    rcases snoc_eq_append_cons.1 heq with ⟨rfl, hx, -⟩ | ⟨h₂', -, hh⟩
    · cases hx
      exact hlast hmem
    · exact hw h₁ events' h₂' hh hmem

section Parcels

variable {h : List (Out ε)} {copied : List ε}

/-- With nothing handed over and nothing copied, the events so far are those in the list. -/
theorem flatten_parcels_of_gathering (hg : shares evs h = [] ∧ share evs copied = [])
    (list : List ε) : (parcels evs h copied list).flatten = share evs list := by
  rw [parcels, hg.1, List.nil_append, List.flatten_filter_ne_nil, hg.2]
  simp

/-- While nothing has been copied, there is at most one parcel. -/
theorem length_parcels_of_gathering (hg : shares evs h = [] ∧ share evs copied = [])
    (list : List ε) : (parcels evs h copied list).length ≤ 1 := by
  have hone : ([[], share evs list].filter (· ≠ [])).length ≤ 1 := by
    simpa using List.length_filter_le (· ≠ []) [share evs list]
  rw [parcels, hg.1, List.nil_append, hg.2]
  exact hone

/-- The end of the pause makes no parcel. -/
theorem parcels_resumed (copied list : List ε) :
    parcels evs (h ++ [.resumed]) copied list = parcels evs h copied list := by
  rw [parcels, shares_snoc_resumed, parcels]

/-- A copy moves the events of the call from the list to the dispatch thread, all at once. -/
theorem parcels_copy (list : List ε) : parcels evs h list [] = parcels evs h [] list := by
  have hnil : share evs [] = [] := rfl
  rw [parcels, parcels, hnil]
  by_cases hlist : share evs list = []
  · rw [hlist]
  · simp [hlist]

/-- A dispatch moves them on to the observers. -/
theorem parcels_dispatch (events list : List ε) :
    parcels evs (h ++ [.onEvents events]) [] list = parcels evs h events list := by
  have hnil : share evs [] = [] := rfl
  rw [parcels, parcels, shares_snoc_onEvents, hnil, List.append_assoc, ← List.filter_append]
  simp [List.filter_cons]

end Parcels

end History

section Runs

variable [DecidableEq ε] {s s' t : State Unit ε} {h out : List (Out ε)}

/-- Where the events of the call are. While the call has operations ahead, they are all in the
list; afterwards they are in one place; and the dispatch thread does not sleep on them once the
call has entered the list to notify it. -/
structure Batching (evs : List ε) (h : List (Out ε)) (s : State Unit ε) : Prop where
  stage : Stage evs (s.clients ()).ops (parcels evs h s.edt.copied s.list).flatten
  gathering : (s.clients ()).ops ≠ [] → shares evs h = [] ∧ share evs s.edt.copied = []
  single : (parcels evs h s.edt.copied s.list).length ≤ 1
  resumed : .resumed ∈ h ↔ (s.clients ()).ops = []
  withheld : Withheld evs h
  woken : s.edt = .waiting → (s.clients ()).ops = [] → (s.clients ()).phase ≠ .resuming →
    share evs s.list = []

/-- While the call has `paused = false` before it, the dispatch thread does not copy events of the
call. -/
def Undisturbed (evs : List ε) (s : State Unit ε) : Action Unit → Prop
  | .edt => s.edt = .checking → .setPaused false ∈ (s.clients ()).ops → ∀ e ∈ s.list, e ∉ evs
  | .client _ | .wake => True

/-- Steps that neither move events nor begin an operation. -/
theorem Batching.of_same (hb : Batching evs h s) (hlist : s'.list = s.list)
    (hcopied : s'.edt.copied = s.edt.copied) (hops : (s'.clients ()).ops = (s.clients ()).ops)
    (hwoken : s'.edt = .waiting → (s.clients ()).ops = [] → (s'.clients ()).phase ≠ .resuming →
      share evs s.list = []) : Batching evs h s' := by
  constructor
  · rw [hops, hcopied, hlist]
    exact hb.stage
  · rw [hops, hcopied]
    exact hb.gathering
  · rw [hcopied, hlist]
    exact hb.single
  · rw [hops]
    exact hb.resumed
  · exact hb.withheld
  · rw [hops, hlist]
    exact hwoken

/-- A move of the client keeps the batch together. -/
theorem ClientMove.batching (hm : ClientMove s () s' out) (hb : Batching evs h s) :
    Batching evs (h ++ out) s' := by
  have hstage := hb.stage
  cases hm with
  | @append event ops hc =>
      -- the event joins those of the call that wait in the list
      rw [List.append_nil]
      have hg := hb.gathering (by simp [hc])
      rw [flatten_parcels_of_gathering hg, hc] at hstage
      obtain ⟨hevent, hops, hstage'⟩ := hstage.append
      have hshare : share evs (s.list ++ [event]) = share evs s.list ++ [event] := by
        rw [share_append]
        simp [share, hevent]
      constructor
      · simp only [Function.update_self]
        rw [flatten_parcels_of_gathering hg, hshare]
        exact hstage'
      · exact fun _ => hg
      · exact length_parcels_of_gathering hg _
      · rw [hb.resumed]
        simp [hc, hops]
      · exact hb.withheld
      · intro _ hnil
        simp [hops] at hnil
  | @pause ops hc =>
      -- nothing moves, and the additions are still ahead
      rw [List.append_nil]
      have hg := hb.gathering (by simp [hc])
      rw [hc] at hstage
      obtain ⟨hops, hstage'⟩ := hstage.pause
      constructor
      · simp only [Function.update_self]
        exact hstage'
      · exact fun _ => hg
      · exact hb.single
      · rw [hb.resumed]
        simp [hc, hops]
      · exact hb.withheld
      · intro _ hnil
        simp [hops] at hnil
  | @resume ops hc =>
      -- the last operation: what the call has added is all of it
      rw [hc] at hstage
      obtain ⟨rfl, hstage'⟩ := hstage.resume
      constructor
      · simp only [Function.update_self]
        rw [parcels_resumed]
        exact hstage'
      · intro hnil
        simp at hnil
      · rw [parcels_resumed]
        exact hb.single
      · simp
      · exact withheld_snoc_resumed hb.withheld
      · intro _ _ hphase
        simp at hphase
  | read hc | back hc | signalled hc | left hc =>
      rw [List.append_nil]
      refine hb.of_same rfl rfl ?_ ?_
      · simp [hc]
      · intro hw hnil _
        exact hb.woken hw hnil (by simp [hc])
  | added hc hedt =>
      rw [List.append_nil]
      refine hb.of_same rfl (EDT.copied_notified hedt) ?_ ?_
      · simp [hc]
      · intro hw hnil _
        rcases hedt with rfl | ⟨-, rfl⟩
        · exact hb.woken hw hnil (by simp [hc])
        · cases hw
  | signal hc _ hedt hwake =>
      rw [List.append_nil]
      refine hb.of_same rfl (EDT.copied_notified hedt) ?_ ?_
      · simp [hc]
      · intro hw _ _
        -- no notification was sent, so the list is empty
        rw [hwake hw]
        rfl

/-- An undisturbed move of the dispatcher keeps the batch together. -/
theorem EDTMove.batching (hm : EDTMove s s' out) (hok : Undisturbed evs s .edt)
    (hb : Batching evs h s) : Batching evs (h ++ out) s' := by
  cases hm with
  | enter hedt =>
      rw [List.append_nil]
      refine hb.of_same rfl ?_ rfl nofun
      rcases hedt with hedt | hedt
      · rw [hedt]
        rfl
      · rw [hedt]
        rfl
  | wait hedt hlist =>
      rw [List.append_nil]
      refine hb.of_same rfl ?_ rfl ?_
      · rw [hedt]
        rfl
      · intro _ _ _
        rw [hlist]
        rfl
  | copy hedt =>
      rw [List.append_nil]
      have hcopied : s.edt.copied = [] := by
        rw [hedt]
        rfl
      constructor
      · change Stage evs (s.clients ()).ops (parcels evs h s.list []).flatten
        rw [parcels_copy, ← hcopied]
        exact hb.stage
      · intro hops
        -- during the pause there is nothing of the call to copy
        have hlist := hok hedt (hb.stage.mem_iff.2 hops)
        exact ⟨(hb.gathering hops).1, share_eq_nil.2 hlist⟩
      · change (parcels evs h s.list []).length ≤ 1
        rw [parcels_copy, ← hcopied]
        exact hb.single
      · exact hb.resumed
      · exact hb.withheld
      · exact nofun
  | @dispatch events hedt =>
      have hcopied : s.edt.copied = events := by
        rw [hedt]
        rfl
      constructor
      · change Stage evs (s.clients ()).ops (parcels evs _ [] s.list).flatten
        rw [parcels_dispatch, ← hcopied]
        exact hb.stage
      · intro hops
        obtain ⟨hshares, hevents⟩ := hb.gathering hops
        rw [hcopied] at hevents
        rw [shares_snoc_onEvents, hshares, hevents]
        exact ⟨rfl, rfl⟩
      · change (parcels evs _ [] s.list).length ≤ 1
        rw [parcels_dispatch, ← hcopied]
        exact hb.single
      · rw [List.mem_append, hb.resumed]
        simp
      · rw [withheld_snoc_onEvents, hb.resumed, ← hcopied]
        refine ⟨hb.withheld, fun hevents => ?_⟩
        -- with operations ahead the copy would have nothing of the call
        by_contra hops
        exact hevents (hb.gathering hops).2
      · exact nofun

/-- An undisturbed step keeps the batch together. -/
theorem batching_step {act : Action Unit} (hok : Undisturbed evs s act) (hb : Batching evs h s)
    (hs : step s act = some (s', out)) : Batching evs (h ++ out) s' := by
  cases act with
  | client a => exact (ClientMove.of_step hs).batching hb
  | edt => exact (EDTMove.of_step hs).batching hok hb
  | wake =>
      obtain ⟨hedt, rfl, rfl⟩ := wake_eq_some hs
      rw [List.append_nil]
      refine hb.of_same rfl ?_ rfl nofun
      rw [hedt]
      rfl

/-- The call of `add(Seq)` is about to begin. The dispatch thread may be anywhere, and other events
may be pending or copied; those of the call are new. -/
structure Called (evs : List ε) (s : State Unit ε) : Prop where
  client : s.clients () = ⟨.outside, (Call.addSeq evs).ops⟩
  consistent : Consistent s
  new : ∀ e ∈ s.edt.copied ++ s.list, e ∉ evs

/-- Nothing has been added when the batch is called for. -/
theorem Called.batching (hcall : Called evs s) : Batching evs [] s := by
  have hcopied : share evs s.edt.copied = [] :=
    share_eq_nil.2 fun e he => hcall.new e (List.mem_append_left _ he)
  have hlist : share evs s.list = [] :=
    share_eq_nil.2 fun e he => hcall.new e (List.mem_append_right _ he)
  have hops : (s.clients ()).ops ≠ [] := by simp [hcall.client, Call.ops]
  have hg : shares evs [] = [] ∧ share evs s.edt.copied = [] := ⟨rfl, hcopied⟩
  constructor
  · rw [flatten_parcels_of_gathering hg, hlist, hcall.client]
    exact .called
  · exact fun _ => hg
  · exact length_parcels_of_gathering hg _
  · simp [hops]
  · exact withheld_nil
  · intro _ hnil
    exact absurd hnil hops

/-- What every undisturbed run keeps. -/
theorem Called.batching_run {acts : List (Action Unit)} (hcall : Called evs s)
    (hall : Along (next step) (Undisturbed evs) s acts)
    (hp : play step s acts = some (t, h)) : Batching evs h t := by
  have hrun := play_invariant (Batching evs)
    (fun _ _ _ _ _ hb hok hs => batching_step hok hb hs) acts [] s t h hcall.batching hall hp
  rwa [List.nil_append] at hrun

/-- When the call has no operation ahead, no step disturbs it or gives it one. -/
theorem batching_step_of_nil {act : Action Unit} (hb : Batching evs h s)
    (hops : (s.clients ()).ops = []) (hs : step s act = some (s', out)) :
    Batching evs (h ++ out) s' ∧ (s'.clients ()).ops = [] := by
  have hok : Undisturbed evs s act := by
    cases act with
    | edt => simp [Undisturbed, hops]
    | client | wake => trivial
  refine ⟨batching_step hok hb hs, ?_⟩
  cases act with
  | client a =>
      cases ClientMove.of_step hs with
      | append hc | pause hc | resume hc => simp [hc] at hops
      | read hc | back hc | added hc | signal hc | signalled hc | left hc =>
          simpa [hc] using hops
  | edt =>
      cases EDTMove.of_step hs with
      | enter | wait | copy | dispatch => exact hops
  | wake =>
      obtain ⟨-, rfl, -⟩ := wake_eq_some hs
      exact hops

/-- The observers have been given the whole call, as one batch, or nothing of it yet. -/
theorem Batching.shares_eq (hb : Batching evs h s) :
    shares evs h = [] ∨ shares evs h = [evs] := by
  by_cases hops : (s.clients ()).ops = []
  · have hstage := hb.stage
    have hsingle := hb.single
    rw [hops] at hstage
    have hevs := hstage.eq_of_finished
    cases hshares : shares evs h with
    | nil => exact .inl rfl
    | cons x xs =>
        -- a share is handed over: it is the only parcel, so it is the whole call
        right
        rw [parcels, hshares, List.cons_append, List.length_cons] at hsingle
        have hnil := List.eq_nil_of_length_eq_zero (Nat.le_zero.1 (Nat.le_of_succ_le_succ hsingle))
        rw [parcels, hshares, List.cons_append, hnil, List.flatten_singleton] at hevs
        rw [hevs, (List.append_eq_nil_iff.1 hnil).1]
  · exact .inl (hb.gathering hops).1

/-- The call is over, and neither the dispatch thread nor the list has anything of it left. -/
theorem Batching.shares_eq_of_drained (hb : Batching evs h s) (hops : (s.clients ()).ops = [])
    (hcopied : share evs s.edt.copied = []) (hlist : share evs s.list = []) (hne : evs ≠ []) :
    shares evs h = [evs] := by
  rcases hb.shares_eq with hshares | hshares
  · have hstage := hb.stage
    rw [hops, flatten_parcels_of_gathering ⟨hshares, hcopied⟩, hlist] at hstage
    exact absurd hstage.eq_of_finished.symm hne
  · exact hshares

end Runs

section Dispatch

variable {τ : Type u} [DecidableEq τ] {s s' : State τ ε} {out : List (Out ε)}

/-- The dispatch thread, running alone, empties the list and its own hands. -/
def Drains (s : State τ ε) : Prop :=
  ∃ n t h, play step s (List.replicate n .edt) = some (t, h) ∧ t.list = [] ∧ t.edt.copied = []

/-- The dispatcher drains everything if it does so after its next step. -/
theorem Drains.of_step (hs : step s .edt = some (s', out)) (h : Drains s') : Drains s := by
  obtain ⟨n, t, g, hp, hlist, hcopied⟩ := h
  refine ⟨n + 1, t, out ++ g, ?_, hlist, hcopied⟩
  rw [List.replicate_succ]
  exact play_cons_eq_some.2 ⟨s', out, g, hs, hp, rfl⟩

theorem drains_of_empty (hlist : s.list = []) (hcopied : s.edt.copied = []) : Drains s :=
  ⟨0, s, [], rfl, hlist, hcopied⟩

theorem drains_checking (hedt : s.edt = .checking) : Drains s := by
  by_cases hlist : s.list = []
  · apply drains_of_empty hlist
    rw [hedt]
    rfl
  · have hcopy : step s .edt =
        some ({ s.leave .list with list := [], edt := .dispatching s.list }, []) := by
      simp [step, waitAndDispatch, hedt, hlist]
    apply Drains.of_step hcopy
    apply Drains.of_step rfl
    exact drains_of_empty rfl rfl

theorem drains_outside (hedt : s.edt = .outside ∨ s.edt = .notified)
    (hfree : s.owner .list = none) : Drains s := by
  have henter : step s .edt =
      some ({ s with owner := Monitors.enter s.owner .edt .list, edt := .checking }, []) := by
    rcases hedt with hedt | hedt
    · simp [step, waitAndDispatch, State.enter, hedt, hfree]
    · simp [step, waitAndDispatch, State.enter, hedt, hfree]
  exact Drains.of_step henter (drains_checking rfl)

/-- With every client outside, the dispatch thread gets through unless it is asleep. -/
theorem drains_of_outside (hcons : Consistent s) (hclients : ∀ a, (s.clients a).phase = .outside)
    (hedt : s.edt ≠ .waiting) : Drains s := by
  -- nobody but the dispatch thread can be inside the list
  have hfree : s.edt ≠ .checking → s.owner .list = none := by
    intro hchecking
    rw [Option.eq_none_iff_forall_ne_some]
    intro t ht
    have hin : s.inside t .list := (hcons t .list).1 ht
    cases t with
    | client a => simp [State.inside, hclients a, Phase.inside] at hin
    | edt =>
        cases hedt' : s.edt with
        | checking => exact hchecking hedt'
        | outside | waiting | notified | dispatching =>
            simp [State.inside, EDT.inside, hedt'] at hin
  cases hedt' : s.edt with
  | outside => exact drains_outside (.inl hedt') (hfree (by simp [hedt']))
  | notified => exact drains_outside (.inr hedt') (hfree (by simp [hedt']))
  | checking => exact drains_checking hedt'
  | waiting => exact absurd hedt' hedt
  | dispatching events =>
      have hdispatch : step s .edt = some ({ s with edt := .outside }, [.onEvents events]) := by
        simp [step, waitAndDispatch, hedt']
      apply Drains.of_step hdispatch
      exact drains_outside (.inl rfl) (hfree (by simp [hedt']))

end Dispatch

section AddSeq

variable [DecidableEq ε] {s t : State Unit ε} {h : List (Out ε)}

/-- Left to itself, the dispatch thread has the observers given the whole call, as one batch. -/
def Delivered (evs : List ε) (h : List (Out ε)) (t : State Unit ε) : Prop :=
  ∃ n u g, play step t (List.replicate n .edt) = some (u, g) ∧ shares evs (h ++ g) = [evs]

/-- When the call is over, its events are delivered as one batch. -/
theorem Batching.delivered (hb : Batching evs h t) (hcons : Consistent t)
    (hover : t.clients () = ⟨.outside, []⟩) (hne : evs ≠ []) : Delivered evs h t := by
  have hops : (t.clients ()).ops = [] := by rw [hover]
  by_cases hedt : t.edt = .waiting
  · -- asleep after the call: nothing of it was left when the call entered the list
    have hcopied : share evs t.edt.copied = [] := by
      rw [hedt]
      rfl
    have hlist : share evs t.list = [] := hb.woken hedt hops (by simp [hover])
    refine ⟨0, t, [], rfl, ?_⟩
    rw [List.append_nil]
    exact hb.shares_eq_of_drained hops hcopied hlist hne
  · -- awake: it goes on until the list and its own hands are empty
    obtain ⟨n, u, g, hp, hlist, hcopied⟩ :=
      drains_of_outside hcons (fun a => by rw [hover]) hedt
    have hall : Along (next step) (fun _ _ => True) t (List.replicate n .edt) :=
      along_of_forall (fun _ _ => trivial) t _
    have hrun := play_invariant (fun h s => Batching evs h s ∧ (s.clients ()).ops = [])
      (fun _ _ _ _ _ hinv _ hs => batching_step_of_nil hinv.1 hinv.2 hs) _ h t u g ⟨hb, hops⟩ hall hp
    refine ⟨n, u, g, hp, hrun.1.shares_eq_of_drained hrun.2 ?_ ?_ hne⟩
    · rw [hcopied]
      rfl
    · rw [hlist]
      rfl

/-- A disturbing step has the observers given events of the call while the pause is on. -/
theorem not_withheld_of_disturbed {act : Action Unit} (hb : Batching evs h s)
    (hbad : ¬ Undisturbed evs s act) :
    act = .edt ∧ ∃ u g, play step s [.edt, .edt] = some (u, g) ∧ ¬ Withheld evs (h ++ g) := by
  cases act with
  | client | wake => exact absurd trivial hbad
  | edt =>
      refine ⟨rfl, ?_⟩
      simp only [Undisturbed, Classical.not_imp] at hbad
      obtain ⟨hedt, hmem, hlist⟩ := hbad
      have hshare : share evs s.list ≠ [] := fun hnil => hlist (share_eq_nil.1 hnil)
      have hne : s.list ≠ [] := by
        intro hnil
        rw [hnil] at hshare
        exact hshare rfl
      have hcopy : step s .edt =
          some ({ s.leave .list with list := [], edt := .dispatching s.list }, []) := by
        simp [step, waitAndDispatch, hedt, hne]
      refine ⟨_, [.onEvents s.list], play_cons_eq_some.2 ⟨_, [], _, hcopy, rfl, rfl⟩, ?_⟩
      rw [withheld_snoc_onEvents, hb.resumed]
      exact fun hw => hb.stage.mem_iff.1 hmem (hw.2 hshare)

/-- One call of `add(Seq)` with the dispatch thread at any place. As long as that thread copies no
event of the call before `_paused` is false again, nothing of the call is handed over before that,
and afterwards the observers get all of it, in order and in one batch. A run in which it does copy
one can go on so that the observers get it too early. -/
theorem addSeq_batched (hcall : Called evs s) (acts : List (Action Unit)) :
    (Along (next step) (Undisturbed evs) s acts → ∀ t h, play step s acts = some (t, h) →
      Withheld evs h ∧ (shares evs h = [] ∨ shares evs h = [evs]) ∧
        (t.clients () = ⟨.outside, []⟩ → evs ≠ [] → Delivered evs h t)) ∧
    (¬ Along (next step) (Undisturbed evs) s acts →
      ∃ acts₁ acts₂ u g, acts = acts₁ ++ acts₂ ∧
        play step s (acts₁ ++ [.edt]) = some (u, g) ∧ ¬ Withheld evs g) := by
  constructor
  · intro hall t h hp
    have hb : Batching evs h t := hcall.batching_run hall hp
    have hcons : Consistent t :=
      play_invariant_of_step (fun _ s => Consistent s)
        (fun _ _ _ _ _ hcons hs => consistent_step hcons hs) hcall.consistent hp
    exact ⟨hb.withheld, hb.shares_eq, fun hover hne => hb.delivered hcons hover hne⟩
  · intro hnot
    obtain ⟨acts₁, act, acts₂, t, h, rfl, hgood, hp, hbad⟩ := exists_of_not_along hnot
    have hb : Batching evs h t := hcall.batching_run hgood hp
    obtain ⟨rfl, u, g, hp', hearly⟩ := not_withheld_of_disturbed hb hbad
    have hp'' := play_append_eq_some hp hp'
    refine ⟨acts₁ ++ [.edt], acts₂, u, h ++ g, by simp, ?_, hearly⟩
    rwa [List.append_assoc]

/-- A new graph, and a client that adds two statements with one call. -/
def addTwo : State Unit Nat := start fun _ => [.addSeq [1, 2]]

/-- The dispatch thread has gone to sleep before the call, which is made without a break. -/
theorem addSeq_batched_asleep :
    ∃ t h, play step { addTwo with edt := .waiting } (List.replicate 14 (.client ())) = some (t, h) ∧
      Withheld [1, 2] h ∧ Delivered [1, 2] h t := by
  have hcall : Called [1, 2] { addTwo with edt := .waiting } := by
    constructor
    · rfl
    · intro t m
      cases t with
      | client a => simp [addTwo, start, State.inside, Phase.inside]
      | edt => simp [addTwo, start, State.inside, EDT.inside]
    · simp [addTwo, start, EDT.copied]
  have hall : Along (next step) (Undisturbed [1, 2]) { addTwo with edt := .waiting }
      (List.replicate 14 (.client ())) := by
    simp [Along, Undisturbed, List.replicate]
  have hrun := (addSeq_batched hcall _).1 hall _ _ rfl
  exact ⟨_, _, rfl, hrun.1, hrun.2.2 rfl (by simp)⟩

/-- The dispatch thread is not yet waiting when the call begins: it finds the first event and hands
it over during the pause. -/
theorem not_withheld_not_waiting :
    ¬ ∀ acts t h, play step addTwo acts = some (t, h) → Withheld [1, 2] h := by
  intro hall
  have hearly := hall
    [.client (), .client (), .client (), .client (), .client (), .client (), .edt, .edt, .edt] _ _ rfl
  have hmem := hearly [] [1] [] rfl (by simp)
  cases hmem

end AddSeq

end Siebog.DNars.Events
