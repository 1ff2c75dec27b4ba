import Siebog.Interaction.Blackboard

/-!
# The blackboard's awards

A delayed message should make the blackboard accept an estimate for the occurrence that the message
is about. What it accepts comes from the list of all estimates that were ever collected under the
name, so a recurring name mixes the occurrences: `awards_match_iff` says that the awards are right
exactly when no list does when its delayed message is delivered.

The numbers of the occurrences are sound: whatever carries the number `k` carries the name of the
`k`-th notification (`Inv`). So names that never recur are enough (`fresh_of_nodup`).

`awards_match_iff` asks for awards that are right whatever the control component chooses;
`awards_match_own` is about the one that takes part in the run.
-/

set_option autoImplicit false

namespace Siebog.Interaction.Blackboard

open Siebog.Lib

variable {ι : Type}

/-! ## One award -/

theorem accepted_map (l : List (Estimate ι)) : accepted (l.map acceptProposal) = l := by
  induction l with
  | nil => rfl
  | cons e l ih =>
      rw [List.map_cons]
      show e :: accepted (l.map acceptProposal) = e :: l
      rw [ih]

/-- The estimate that an award accepts. -/
def winner (C : ControlComponent ι) (board : Board ι) (content : String) : Option (Estimate ι) :=
  let l := (board.estimates content).getD []
  if 1 < l.length then C.chooseBestProposal l else l.head?

theorem accepted_award (C : ControlComponent ι) (board : Board ι) (content : String) :
    accepted (award C board content) = (winner C board content).toList := by
  rw [award, winner]
  cases board.estimates content with
  | none => rfl
  | some l =>
      simp only [Option.getD_some]
      split <;> exact accepted_map _

/-- An award accepts one of the estimates collected under the name. -/
theorem winner_mem {C : ControlComponent ι} {board : Board ι} {content : String} {e : Estimate ι}
    (h : winner C board content = some e) : e ∈ (board.estimates content).getD [] := by
  simp only [winner] at h
  split at h
  · exact C.mem _ _ h
  · exact List.mem_of_head? h

/-- The control component that insists on one estimate. -/
def ControlComponent.insisting [DecidableEq ι] (e : Estimate ι) : ControlComponent ι where
  chooseBestProposal l := if e ∈ l then some e else none
  mem l e' h := by
    split at h
    · cases h
      assumption
    · cases h
  handleEvent := id

/-- Any of the collected estimates may be accepted. -/
theorem winner_insisting [DecidableEq ι] {board : Board ι} {content : String} {e : Estimate ι}
    (he : e ∈ (board.estimates content).getD []) :
    winner (.insisting e) board content = some e := by
  simp only [winner]
  split
  · exact if_pos he
  · rename_i hlen
    obtain ⟨e', hl⟩ : ∃ e', (board.estimates content).getD [] = [e'] := by
      apply List.length_eq_one_iff.1
      have hpos := List.length_pos_of_mem he
      omega
    rw [hl] at he ⊢
    rw [List.mem_singleton.1 he]
    rfl

/-- The awards of a step are right, whatever the control component, exactly when the estimates that
it chooses from are. -/
theorem matches_iff_fresh [DecidableEq ι] (s : System ι) (a : Action ι) :
    Matches s a ↔ Fresh s a := by
  cases a with
  | addTrigger myAid trigger => exact Iff.rfl
  | inform content contentObj => exact Iff.rfl
  | startBlackboard runningAgents event => exact Iff.rfl
  | deliver A i =>
      constructor
      · intro h content k hm e he
        -- among all control components there is one that insists on `e`
        have hmatch := (h content k hm (.insisting e)).2
        apply hmatch
        show e ∈ accepted (award _ s.board content)
        rw [accepted_award, winner_insisting he]
        exact List.mem_singleton_self e
      · intro h content k hm C
        show (accepted (award C s.board content)).length ≤ 1 ∧
          ∀ e ∈ accepted (award C s.board content), e.event.occurrence = k
        rw [accepted_award]
        constructor
        · cases winner C s.board content with
          | none => exact Nat.zero_le 1
          | some e => exact Nat.le_refl 1
        · intro e he
          exact h content k hm e (winner_mem (Option.mem_toList.1 he))

/-! ## Sound numbers -/

/-- The event has the name of the notification whose number it carries. -/
def Numbered (notified : List String) (event : Event ι) : Prop :=
  notified[event.occurrence]? = some event.name

/-- What a message carries has the name of the notification whose number it carries. Events that are
not notified yet have no number. -/
def Message.Numbered (notified : List String) : Message ι → Prop
  | .request _ => True
  | .subscribe _ _ => True
  | .inform _ contentObj => Blackboard.Numbered notified contentObj
  | .informBlackboard _ _ => True
  | .propose contentObj => Blackboard.Numbered notified contentObj.event
  | .acceptProposal _ contentObj => Blackboard.Numbered notified contentObj.event
  | .delayed content k => notified[k]? = some content

/-- All numbers are those of notifications, and estimates are filed under the names of their
events. -/
structure Inv (s : System ι) : Prop where
  posted : ∀ m ∈ s.posted, m.Numbered s.notified
  estimates : ∀ name, ∀ e ∈ (s.board.estimates name).getD [],
    e.event.name = name ∧ Numbered s.notified e.event

theorem inv_new : Inv (System.new ι) where
  posted m hm := by cases hm
  estimates name e he := by cases he

theorem Message.Numbered.append {notified : List String} {m : Message ι} (h : m.Numbered notified)
    (name : String) : m.Numbered (notified ++ [name]) := by
  have hsome : ∀ (k : ℕ) (content : String), notified[k]? = some content →
      (notified ++ [name])[k]? = some content := by
    intro k content hk
    obtain ⟨hlt, -⟩ := List.getElem?_eq_some_iff.1 hk
    rw [List.getElem?_append_left hlt, hk]
  cases m with
  | inform receiver contentObj => exact hsome _ _ h
  | propose contentObj => exact hsome _ _ h
  | acceptProposal receiver contentObj => exact hsome _ _ h
  | delayed content k => exact hsome _ _ h
  | request receiver => exact trivial
  | subscribe sender content => exact trivial
  | informBlackboard content contentObj => exact trivial

/-- What a handler does to the numbers: the names of notifications are only added to, the invariant
is kept and the messages it posts are numbered. -/
structure Kept (s : System ι) (r : System ι × List (Message ι)) : Prop where
  grows : s.notified <+: r.1.notified
  inv : Inv r.1
  out : ∀ m ∈ r.2, m.Numbered r.1.notified

theorem Kept.post {s : System ι} {r : System ι × List (Message ι)} (h : Kept s r) :
    Kept s (System.post r) where
  grows := h.grows
  inv := ⟨fun m hm => (List.mem_append.1 hm).elim (h.inv.posted m) (h.out m), h.inv.estimates⟩
  out := h.out

/-- A handler that leaves the system as it is. -/
theorem Kept.of_out {s : System ι} {out : List (Message ι)} (hs : Inv s)
    (h : ∀ m ∈ out, m.Numbered s.notified) : Kept s (s, out) :=
  ⟨List.prefix_refl _, hs, h⟩

theorem newEventNotification_kept {s : System ι} (hs : Inv s) (event : Event ι) :
    Kept s (s.newEventNotification event) where
  grows := List.prefix_append _ _
  inv := by
    constructor
    · intro m hm
      exact (hs.posted m hm).append event.name
    · intro name e he
      obtain ⟨hname, hnum⟩ := hs.estimates name e he
      have happend := Message.Numbered.append (m := .propose e) hnum event.name
      exact ⟨hname, happend⟩
  out := by
    have hlast : (s.notified ++ [event.name])[s.notified.length]? = some event.name := by
      rw [List.getElem?_append_right (Nat.le_refl _), Nat.sub_self]
      rfl
    intro m hm
    rcases List.mem_append.1 hm with hm | hm
    · obtain ⟨receiver, -, rfl⟩ := List.mem_map.1 hm
      exact hlast
    · rw [List.mem_singleton.1 hm]
      exact hlast

theorem handleProposal_kept {s : System ι} (hs : Inv s) {e : Estimate ι}
    (he : Numbered s.notified e.event) : Kept s (s.handleProposal e, []) where
  grows := List.prefix_refl _
  inv := by
    refine ⟨hs.posted, ?_⟩
    intro name e' he'
    simp only [System.handleProposal, addTo] at he'
    -- only the list under the name of the event has grown
    by_cases hname : name = e.event.name
    · rw [hname, Function.update_self, Option.getD_some] at he'
      rcases List.mem_append.1 he' with he' | he'
      · rw [hname]
        exact hs.estimates _ e' he'
      · rw [List.mem_singleton.1 he']
        exact ⟨hname.symm, he⟩
    · rw [Function.update_of_ne hname] at he'
      exact hs.estimates name e' he'
  out m hm := by cases hm

theorem handle_kept (A : Agents ι) {s : System ι} (hs : Inv s) {m : Message ι}
    (hm : m.Numbered s.notified) : Kept s (s.handle A m) := by
  cases m with
  | request receiver =>
      apply Kept.of_out hs
      intro m hm
      obtain ⟨trigger, -, rfl⟩ := List.mem_map.1 hm
      exact trivial
  | subscribe sender content =>
      exact ⟨List.prefix_refl _, ⟨hs.posted, hs.estimates⟩, fun m hm => by cases hm⟩
  | inform receiver contentObj =>
      apply Kept.of_out hs
      intro m hm'
      rw [List.mem_singleton.1 hm']
      exact hm
  | informBlackboard content contentObj =>
      simp only [System.handle]
      split
      · exact newEventNotification_kept hs contentObj
      · apply Kept.of_out hs
        intro m hm
        simp only [receiveEvent, List.mem_append, List.mem_singleton] at hm
        rcases hm with hm | rfl
        · split at hm
          · obtain ⟨receiver, -, rfl⟩ := List.mem_map.1 hm
            exact trivial
          · cases hm
        · exact trivial
  | propose contentObj => exact handleProposal_kept hs hm
  | acceptProposal receiver contentObj =>
      apply Kept.of_out hs
      intro m hm'
      rw [List.mem_singleton.1 hm']
      exact trivial
  | delayed content k =>
      apply Kept.of_out hs
      intro m hm
      have hposts : ∀ l : List (Estimate ι), m ∈ l.map acceptProposal →
          ∃ e ∈ l, m = acceptProposal e := by
        intro l hl
        obtain ⟨e, he, rfl⟩ := List.mem_map.1 hl
        exact ⟨e, he, rfl⟩
      -- no list: the delayed message has no effect
      simp only [award] at hm
      split at hm
      · cases hm
      · rename_i l hl
        have hcollected : ∀ e ∈ l, Message.Numbered s.notified (acceptProposal e) := by
          intro e he
          exact (hs.estimates content e (by rw [hl]; exact he)).2
        split at hm
        · obtain ⟨e, he, rfl⟩ := hposts _ hm
          exact hcollected e (A.control.mem l e (Option.mem_toList.1 he))
        · obtain ⟨e, he, rfl⟩ := hposts _ hm
          exact hcollected e (List.mem_of_head? (Option.mem_toList.1 he))

/-- One step lemma for the whole system. -/
theorem step_kept {s s' : System ι} {a : Action ι} {out : List (Message ι)} (hs : Inv s)
    (hstep : s.step a = some (s', out)) : Kept s (s', out) := by
  cases a with
  | addTrigger myAid trigger =>
      rw [← Option.some.inj hstep]
      apply Kept.post
      apply Kept.of_out hs
      intro m hm
      rw [List.mem_singleton.1 hm]
      exact trivial
  | inform content contentObj =>
      rw [← Option.some.inj hstep]
      apply Kept.post
      apply Kept.of_out hs
      intro m hm
      rw [List.mem_singleton.1 hm]
      exact trivial
  | startBlackboard runningAgents event =>
      rw [← Option.some.inj hstep]
      let board : Board ι :=
        ⟨Function.update s.board.notifications event.name (some runningAgents), s.board.estimates⟩
      -- the estimates stay, and the notifications of the event are replaced
      have hstart : Inv { s with board := board } := ⟨hs.posted, hs.estimates⟩
      have hkept := newEventNotification_kept hstart event
      exact Kept.post ⟨hkept.grows, hkept.inv, hkept.out⟩
  | deliver A i =>
      simp only [System.step] at hstep
      split at hstep
      · cases hstep
      · rename_i m hm
        rw [← Option.some.inj hstep]
        -- the message is taken from the ones posted, and handled
        have hrest : Inv { s with posted := s.posted.eraseIdx i } :=
          ⟨fun m hm => hs.posted m (List.mem_of_mem_eraseIdx hm), hs.estimates⟩
        have hkept := handle_kept A hrest (hs.posted m (List.mem_of_getElem? hm))
        exact Kept.post ⟨hkept.grows, hkept.inv, hkept.out⟩

/-! ## Runs -/

/-- As long as no name recurs, every list of estimates is about one occurrence. -/
theorem fresh_of_notified_nodup {s : System ι} (hs : Inv s) (hnodup : s.notified.Nodup)
    (a : Action ι) : Fresh s a := by
  cases a with
  | deliver A i =>
      intro content k hm e he
      obtain ⟨hname, hnum⟩ := hs.estimates content e he
      have hk : s.notified[k]? = some content := hs.posted _ (List.mem_of_getElem? hm)
      have hnum : s.notified[e.event.occurrence]? = some content := by
        rw [← hname]
        exact hnum
      obtain ⟨hlt, -⟩ := List.getElem?_eq_some_iff.1 hnum
      -- both numbers are those of a notification with the name `content`
      exact (List.getElem?_inj hlt hnodup).1 (hnum.trans hk.symm)
  | addTrigger myAid trigger => exact trivial
  | inform content contentObj => exact trivial
  | startBlackboard runningAgents event => exact trivial

/-- In a run that notifies no name twice all awards are right. -/
theorem fresh_of_nodup (as : List (Action ι)) : ∀ (s t : System ι) (h : List (Message ι)), Inv s →
    play System.step s as = some (t, h) → t.notified.Nodup →
      s.notified <+: t.notified ∧ Along (next System.step) Fresh s as := by
  induction as with
  | nil =>
      intro s t h _ hp _
      cases hp
      exact ⟨List.prefix_refl _, trivial⟩
  | cons a as ih =>
      intro s t h hs hp hnodup
      obtain ⟨s', out, h', hstep, hrest, rfl⟩ := play_cons_eq_some.1 hp
      have hkept := step_kept hs hstep
      obtain ⟨hgrows, halong⟩ := ih s' t h' hkept.inv hrest hnodup
      have hgrown := hkept.grows.trans hgrows
      refine ⟨hgrown, (along_cons_some hstep).2 ⟨?_, halong⟩⟩
      exact fresh_of_notified_nodup hs (hnodup.sublist hgrown.sublist) a

/-- The awards of a step are right with the control component that takes part in it. -/
def MatchesOwn (s : System ι) : Action ι → Prop
  | .deliver A i => ∀ content k, s.posted[i]? = some (.delayed content k) →
      (accepted (s.handle A (.delayed content k)).2).length ≤ 1 ∧
        ∀ e ∈ accepted (s.handle A (.delayed content k)).2, e.event.occurrence = k
  | _ => True

/-- With the control component of a run only the estimates that it chooses have to be right. -/
def FreshChoice (s : System ι) : Action ι → Prop
  | .deliver A i => ∀ content k, s.posted[i]? = some (.delayed content k) →
      ∀ e, winner A.control s.board content = some e → e.event.occurrence = k
  | _ => True

theorem matchesOwn_iff (s : System ι) (a : Action ι) : MatchesOwn s a ↔ FreshChoice s a := by
  cases a with
  | addTrigger myAid trigger => exact Iff.rfl
  | inform content contentObj => exact Iff.rfl
  | startBlackboard runningAgents event => exact Iff.rfl
  | deliver A i =>
      refine forall_congr' fun content => forall_congr' fun k => imp_congr_right fun _ => ?_
      show (accepted (award A.control s.board content)).length ≤ 1 ∧
        (∀ e ∈ accepted (award A.control s.board content), e.event.occurrence = k) ↔ _
      rw [accepted_award]
      cases winner A.control s.board content with
      | none => simp
      | some e => simp

/-- The awards of a run with its own control components are right when the estimates that these
choose from are; they are right exactly when those that they do choose are. -/
theorem awards_match_own (as : List (Action ι)) :
    (Along (next System.step) Fresh (.new ι) as → Along (next System.step) MatchesOwn (.new ι) as) ∧
      (Along (next System.step) MatchesOwn (.new ι) as ↔
        Along (next System.step) FreshChoice (.new ι) as) := by
  have hiff : ∀ (s : System ι) (a : Action ι), True → True → (MatchesOwn s a ↔ FreshChoice s a) :=
    fun s a _ _ => matchesOwn_iff s a
  refine ⟨Along.mono ?_, along_iff hiff (fun _ _ _ _ _ _ _ => trivial) as _ trivial
    fun _ _ => trivial⟩
  intro s a hfresh
  rw [matchesOwn_iff]
  cases a with
  | addTrigger myAid trigger => trivial
  | inform content contentObj => trivial
  | startBlackboard runningAgents event => trivial
  | deliver A i =>
      intro content k hm e he
      exact hfresh content k hm e (winner_mem he)

/-- In every run, each delayed message makes the blackboard accept at most one estimate, made for
the occurrence it is about, exactly when the estimates collected under the name are all made for
that occurrence each time a delayed message is delivered. -/
theorem awards_match_iff [DecidableEq ι] (as : List (Action ι)) :
    Along (next System.step) Matches (.new ι) as ↔ Along (next System.step) Fresh (.new ι) as := by
  have hiff : ∀ (s : System ι) (a : Action ι), True → True → (Matches s a ↔ Fresh s a) :=
    fun s a _ _ => matches_iff_fresh s a
  exact along_iff hiff (fun _ _ _ _ _ _ _ => trivial) as _ trivial fun _ _ => trivial

/-- A knowledge source that estimates every event, and a control component that takes the first
estimate. -/
def agents : Agents ℕ where
  control := ⟨List.head?, fun _ _ h => List.mem_of_head? h, id⟩
  source aid := ⟨[], fun event => ⟨"5", aid, event⟩, id⟩

/-- The event `GENERATE`, which the blackboard numbers. -/
def generate (occurrence : ℕ) : Event ℕ := ⟨"GENERATE", "", [], occurrence⟩

/-- The event is notified, estimated and awarded, and notified again. -/
def recurring : List (Action ℕ) :=
  [.addTrigger 1 "GENERATE", .deliver agents 0, .inform "CC" (generate 0), .deliver agents 0,
    .deliver agents 0, .deliver agents 1, .deliver agents 0, .inform "CC" (generate 0),
    .deliver agents 1]

/-- After `recurring` the second delayed message comes before any estimate for the second
occurrence, and the estimate for the first is accepted once more. -/
theorem not_awards_match_recurring :
    ¬ ∀ as : List (Action ℕ), Along (next System.step) Matches (.new ℕ) as := by
  intro h
  have hmatch := along_last (h (recurring ++ [.deliver agents 2])) rfl
  have hfirst := (hmatch "GENERATE" 1 rfl agents.control).2 ⟨"5", 1, generate 0⟩ (by decide +kernel)
  cases hfirst

end Siebog.Interaction.Blackboard
