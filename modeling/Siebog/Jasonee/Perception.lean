import Siebog.Jasonee.UserEnvironment

/-!
# Perception updates

An agent in `uptodateAgs` gets `null` from `getPercepts`, so what it got last should be what it
would get now. `addPercept` for all agents and `removePerceptsByUnif` see to that by taking the
marks away after they change the list. The other methods take the marks away first; a reader that
comes between the two calls is marked again and copies the old list.

`perception_kept` is the invariant over all interleavings: an agent that is marked has current
copies as far as its reader has got, or some thread is still going to take its mark away.
-/

set_option autoImplicit false

namespace Siebog.Jasonee

open Siebog.Lib

variable {Ag L : Type} [DecidableEq Ag] [DecidableEq L]

section Invariant

/-- The list last returned to the agent. -/
def lastReturned (agName : Ag) (h : List (Returned Ag L)) : Option (List L) :=
  (h.filterMap fun r => if r.1 = agName then r.2 else none).getLast?

namespace Phase

/-- The percepts have been copied, and maybe returned. -/
def HasPercepts : Phase L → Prop
  | .idle => True
  | .copied _ _ => True
  | _ => False

instance : DecidablePred (HasPercepts (L := L)) := fun ph => by
  cases ph <;> unfold HasPercepts <;> infer_instance

/-- The agent's list, when the reader has looked for it; `some none` when there was none. -/
def inHand : Phase L → Option (Option ℕ)
  | .found r => some r
  | .nonEmpty r => some r
  | .copied r _ => some r
  | _ => none

end Phase

namespace UserEnvironment

/-- The reader's list of the agent is the current one, or it has none and the current one is
empty. -/
def Current (e : UserEnvironment Ag L) (agName : Ag) (r : Option ℕ) : Prop :=
  r = e.get agName ∨ (r = none ∧ e.agl agName (e.get agName) = [])

/-- What the reader of a marked agent has in hand, or has returned, is current. -/
def Agrees (e : UserEnvironment Ag L) (agName : Ag) (last : Option (List L)) : Phase L → Prop
  | .idle => last = some (e.consultPercepts agName)
  | .checked => True
  | .marked => True
  | .found r => e.Current agName r
  | .nonEmpty r => e.Current agName r
  | .copied r p => p = e.percepts ∧ e.Current agName r

end UserEnvironment

namespace Op

/-- The call takes the agent's mark away, after its method has changed a list. -/
def Owes (agName : Ag) : Op Ag L → Prop
  | .marksClear => True
  | .markRemove ag => ag = agName
  | _ => False

/-- The call has a list of the agent in hand. -/
def Holds (agName : Ag) : Op Ag L → Prop
  | .addOne ag _ _ => ag = agName
  | .unmark ag _ _ => ag = agName
  | .aglWrite ag _ _ => ag = agName
  | .aglFilter ag _ _ => ag = agName
  | _ => False

/-- The call changes a list of the agent, after its method has taken the mark away. -/
def Writes (agName : Ag) : Op Ag L → Prop
  | .aglWrite ag _ _ => ag = agName
  | _ => False

/-- A call that changes a list after its method has taken the marks away finds no marked agent whose
reader has copied that list, and `put` finds no list of the agent. -/
def InOrder (e : UserEnvironment Ag L) (readers : Ag → Phase L) : Op Ag L → Prop
  | .perceptsWrite w => w.apply e.percepts ≠ e.percepts →
      ∀ ag ∈ e.uptodateAgs, ¬ (readers ag).HasPercepts
  | .aglWrite ag r w => w.apply (e.lists ag r) ≠ e.lists ag r →
      ag ∈ e.uptodateAgs → readers ag ≠ .idle
  | .put ag _ => e.get ag = none
  | _ => True

instance (e : UserEnvironment Ag L) (readers : Ag → Phase L) :
    DecidablePred (InOrder e readers) := fun op => by
  cases op <;> unfold InOrder <;> infer_instance

end Op

namespace Perception

/-- The next call of a thread, if it has one. -/
def nextCall (s : Perception Ag L) (t : ℕ) : Option (Op Ag L) := s.threads[t]?.bind List.head?

/-- The next call of a thread is in order. -/
def Ordered (s : Perception Ag L) : Action Ag L → Prop
  | .mutate t _ => ∀ op ∈ s.nextCall t, op.InOrder s.env s.readers
  | _ => True

instance (s : Perception Ag L) : DecidablePred s.Ordered := fun a => by
  cases a <;> unfold Ordered <;> infer_instance

/-- The call is still to be made by some thread. -/
def Pending (s : Perception Ag L) (op : Op Ag L) : Prop := ∃ ops ∈ s.threads, op ∈ ops

/-- What holds between two calls. -/
structure Inv (h : List (Returned Ag L)) (s : Perception Ag L) : Prop where
  unread : ∀ ag, s.readers ag = .checked → ag ∉ s.env.uptodateAgs
  known : ∀ op, s.Pending op → ∀ ag, op.Holds ag → s.env.get ag ≠ none
  exposed : ∀ op, s.Pending op → ∀ ag, op.Writes ag → (s.readers ag).inHand = some none →
    ag ∉ s.env.uptodateAgs
  settled : ∀ ag ∈ s.env.uptodateAgs, (∃ op, s.Pending op ∧ op.Owes ag) ∨
    s.env.Agrees ag (lastReturned ag h) (s.readers ag)

end Perception

end Invariant

section Calls

namespace UserEnvironment

variable {e e' : UserEnvironment Ag L} {agName : Ag} {last : Option (List L)} {ph : Phase L}

omit [DecidableEq L] in
theorem agl_setList_of_ne (e : UserEnvironment Ag L) {ag : Ag} (h : ag ≠ agName) (r : ℕ)
    (l : List L) : (e.setList agName r l).agl ag = e.agl ag := by
  funext o
  cases o with
  | none => rfl
  | some n => exact if_neg fun hc => h hc.1

omit [DecidableEq L] in
theorem setList_self (e : UserEnvironment Ag L) (ag : Ag) (r : ℕ) :
    e.setList ag r (e.lists ag r) = e := by
  have hlists : (fun a n => if a = ag ∧ n = r then e.lists ag r else e.lists a n) = e.lists := by
    funext a n
    split
    · next h => rw [h.1, h.2]
    · rfl
  simp only [setList, hlists]

omit [DecidableEq L] in
/-- What the agreement depends on, phase by phase. -/
theorem Agrees.imp (h : e.Agrees agName last ph)
    (hidle : ph = .idle → e'.consultPercepts agName = e.consultPercepts agName)
    (hpercepts : ph.HasPercepts → e'.percepts = e.percepts)
    (hcur : ∀ r, ph.inHand = some r → e.Current agName r → e'.Current agName r) :
    e'.Agrees agName last ph := by
  cases ph with
  | idle => exact h.trans (congrArg some (hidle rfl).symm)
  | checked => trivial
  | marked => trivial
  | found r => exact hcur r rfl h
  | nonEmpty r => exact hcur r rfl h
  | copied r p => exact ⟨h.1.trans (hpercepts trivial).symm, hcur r rfl h.2⟩

omit [DecidableEq L] in
theorem Current.congr {r : Option ℕ} (hg : e'.get agName = e.get agName)
    (hl : e'.agl agName = e.agl agName) (h : e.Current agName r) : e'.Current agName r := by
  unfold Current at h ⊢
  rw [hg, hl]
  exact h

omit [DecidableEq L] in
/-- Nothing of the agent's changes. -/
theorem Agrees.congr (h : e.Agrees agName last ph) (hp : e'.percepts = e.percepts)
    (hg : e'.get agName = e.get agName) (hl : e'.agl agName = e.agl agName) :
    e'.Agrees agName last ph := by
  refine h.imp (fun _ => ?_) (fun _ => hp) fun r _ hr => hr.congr hg hl
  unfold consultPercepts
  rw [hp, hg, hl]

omit [DecidableEq L] in
/-- The agent's own list changes while its reader has not copied it. -/
theorem Agrees.of_not_idle (h : e.Agrees agName last ph) (hp : e'.percepts = e.percepts)
    (hg : e'.get agName = e.get agName) (hidle : ph ≠ .idle) (hnone : ph.inHand ≠ some none) :
    e'.Agrees agName last ph := by
  refine h.imp (fun h0 => absurd h0 hidle) (fun _ => hp) fun r hr hc => ?_
  rcases hc with hc | ⟨rfl, -⟩
  · exact .inl (hc.trans hg.symm)
  · exact absurd hr hnone

omit [DecidableEq L] in
/-- The global list changes while the reader has not copied it. -/
theorem Agrees.of_not_hasPercepts (h : e.Agrees agName last ph) (hg : e'.get agName = e.get agName)
    (hl : e'.agl agName = e.agl agName) (hph : ¬ ph.HasPercepts) : e'.Agrees agName last ph := by
  refine h.imp (fun h0 => absurd ?_ hph) (fun h0 => absurd h0 hph) fun r _ hr => hr.congr hg hl
  rw [h0]
  trivial

omit [DecidableEq L] in
theorem get_putList (e : UserEnvironment Ag L) (agName ag : Ag) :
    (e.putList agName).get ag = if ag = agName then some e.created else e.get ag := by
  show List.lookup ag ((agName, e.created) :: e.agPercepts) = _
  rw [List.lookup_cons]
  by_cases h : ag = agName
  · simp [h]
  · have hne : (ag == agName) = false := beq_eq_false_iff_ne.2 h
    simp [h, hne, get]

omit [DecidableEq L] in
/-- An agent without a list gets an empty one. -/
theorem Agrees.putList {ag : Ag} (h : e.Agrees ag last ph) (hget : e.get agName = none) :
    (e.putList agName).Agrees ag last ph := by
  by_cases hag : ag = agName
  · subst hag
    have hg := e.get_putList ag ag
    rw [if_pos rfl] at hg
    have hempty : (e.putList ag).agl ag (some e.created) = [] := if_pos ⟨rfl, rfl⟩
    refine h.imp (fun _ => ?_) (fun _ => rfl) fun r _ hr => .inr ⟨?_, by rw [hg, hempty]⟩
    · unfold consultPercepts
      rw [hg, hempty, hget]
      rfl
    · rcases hr with hr | hr
      · exact hr.trans hget
      · exact hr.1
  · have hg := e.get_putList agName ag
    rw [if_neg hag] at hg
    exact h.congr rfl hg (e.agl_setList_of_ne hag e.created [])

end UserEnvironment

namespace Op

variable (unifies : L → L → Bool) (e : UserEnvironment Ag L) (keys : List Ag)

/-- A call of a mutator marks nobody. -/
theorem exec_uptodateAgs (op : Op Ag L) : (op.exec unifies e keys).1.uptodateAgs ⊆ e.uptodateAgs := by
  cases op with
  | marksClear => exact Finset.empty_subset _
  | unmarkAll w => exact Finset.empty_subset _
  | unmark ag r w => exact Finset.erase_subset _ _
  | markRemove ag => exact Finset.erase_subset _ _
  | _ => exact Finset.Subset.refl _

/-- No list leaves the map. -/
theorem exec_get (op : Op Ag L) {ag : Ag} (h : e.get ag ≠ none) :
    (op.exec unifies e keys).1.get ag ≠ none := by
  cases op with
  | put ag' per =>
      show (e.putList ag').get ag ≠ none
      rw [e.get_putList]
      split
      · exact Option.some_ne_none _
      · exact h
  | _ => exact h

/-- A list that a later call has in hand is in the map. -/
theorem exec_known {op : Op Ag L} (hop : ∀ ag, op.Holds ag → e.get ag ≠ none) {op' : Op Ag L}
    (hmem : op' ∈ (op.exec unifies e keys).2) {ag : Ag} (hholds : op'.Holds ag) :
    (op.exec unifies e keys).1.get ag ≠ none := by
  -- the calls after an `agPercepts.get` use the list that it found
  have hfound : ∀ agName, (∀ r, e.get agName = some r → agName = ag) → e.get agName ≠ none →
      e.get ag ≠ none := by
    intro agName hsome hne
    obtain ⟨r, hr⟩ := Option.ne_none_iff_exists'.1 hne
    rw [← hsome r hr]
    exact hne
  cases op with
  | addPercept per | removePerceptsByUnif per | clearPercepts =>
      simp only [exec] at hmem
      split at hmem
      · cases hmem
      · rw [List.mem_singleton.1 hmem] at hholds
        exact hholds.elim
  | perceptsFilter per | aglFilter ag' r per =>
      simp only [exec] at hmem
      split at hmem
      · rw [List.mem_singleton.1 hmem] at hholds
        exact hholds.elim
      · cases hmem
  | perceptsAdd per | unmarkAll w =>
      rw [List.mem_singleton.1 hmem] at hholds
      exact hholds.elim
  | marksClear | perceptsWrite w | aglWrite ag' r w | markRemove ag' => cases hmem
  | clearEach =>
      obtain ⟨key, -, rfl⟩ := List.mem_map.1 hmem
      exact hholds.elim
  | addPerceptAg ag' per =>
      refine hfound ag' (fun r hr => ?_) (fun hnone => ?_)
      · simp only [exec, hr] at hmem
        obtain ⟨p, -, rfl⟩ := List.mem_map.1 hmem
        exact hholds
      · simp only [exec, hnone] at hmem
        rw [List.mem_singleton.1 hmem] at hholds
        exact hholds
  | put ag' per =>
      obtain ⟨p, -, rfl⟩ := List.mem_map.1 hmem
      show (e.putList ag').get ag ≠ none
      rw [e.get_putList, if_pos (Eq.symm hholds)]
      exact Option.some_ne_none _
  | addOne ag' r p =>
      simp only [exec] at hmem
      split at hmem
      · cases hmem
      · rw [List.mem_singleton.1 hmem] at hholds
        exact hop ag hholds
  | removePerceptAg ag' per | clearPerceptsAg ag' | removePerceptsByUnifAg ag' per =>
      refine hfound ag' (fun r hr => ?_) (fun hnone => ?_)
      · simp only [exec, hr] at hmem
        rw [List.mem_singleton.1 hmem] at hholds
        exact hholds
      · simp only [exec, hnone] at hmem
        cases hmem
  | unmark ag' r w =>
      rw [List.mem_singleton.1 hmem] at hholds
      exact hop ag hholds

/-- A call that will change a list of an agent follows the one that takes the agent's mark away. -/
theorem exec_exposed {op op' : Op Ag L} (hmem : op' ∈ (op.exec unifies e keys).2) {ag : Ag}
    (hwrites : op'.Writes ag) : ag ∉ (op.exec unifies e keys).1.uptodateAgs := by
  cases op' with
  | aglWrite ag' r w =>
      obtain rfl : ag' = ag := hwrites
      cases op with
      | unmark ag r' w' =>
          simp only [exec, List.mem_singleton, aglWrite.injEq] at hmem
          rw [hmem.1]
          exact Finset.notMem_erase ag _
      | addPerceptAg ag per =>
          simp only [exec] at hmem
          split at hmem <;> simp at hmem
      | removePerceptAg ag per | clearPerceptsAg ag | removePerceptsByUnifAg ag per =>
          simp only [exec] at hmem
          split at hmem <;> simp at hmem
      | _ => simp [exec] at hmem
  | _ => exact hwrites.elim

/-- A call that a thread owes pays the debt. -/
theorem exec_owes {op : Op Ag L} {ag : Ag} (h : op.Owes ag) :
    ag ∉ (op.exec unifies e keys).1.uptodateAgs := by
  cases op with
  | marksClear => exact Finset.notMem_empty ag
  | markRemove ag' =>
      obtain rfl : ag' = ag := h
      exact Finset.notMem_erase ag' _
  | _ => exact h.elim

/-- What a call does to a marked agent: its method owes it an unmark, or the copies of its reader
stay current. -/
theorem exec_agrees {op : Op Ag L} {readers : Ag → Phase L} (horder : op.InOrder e readers)
    (hexposed : ∀ ag, op.Writes ag → (readers ag).inHand = some none → ag ∉ e.uptodateAgs)
    {ag : Ag} (hag : ag ∈ (op.exec unifies e keys).1.uptodateAgs) :
    (∃ op' ∈ (op.exec unifies e keys).2, op'.Owes ag) ∨
      ∀ last, e.Agrees ag last (readers ag) →
        (op.exec unifies e keys).1.Agrees ag last (readers ag) := by
  have hmarked : ag ∈ e.uptodateAgs := op.exec_uptodateAgs unifies e keys hag
  cases op with
  | perceptsAdd per => exact .inl ⟨.marksClear, List.mem_singleton_self _, trivial⟩
  | perceptsWrite w =>
      by_cases heff : w.apply e.percepts = e.percepts
      · exact .inr fun last hl => hl.congr heff rfl rfl
      · exact .inr fun last hl => hl.of_not_hasPercepts rfl rfl (horder heff ag hmarked)
  | perceptsFilter per =>
      by_cases hany : e.percepts.any (fun l => unifies l per) = true
      · exact .inl ⟨.marksClear, by simp [exec, hany], trivial⟩
      · have hsame : e.percepts.filter (fun l => !unifies l per) = e.percepts := by
          simpa using hany
        exact .inr fun last hl => hl.congr hsame rfl rfl
  | put ag' per => exact .inr fun last hl => hl.putList horder
  | aglWrite ag' r w =>
      by_cases heff : w.apply (e.lists ag' r) = e.lists ag' r
      · have hsame : (exec unifies e keys (.aglWrite ag' r w)).1 = e := by
          simp only [exec, heff, e.setList_self]
        rw [hsame]
        exact .inr fun last hl => hl
      · by_cases hag' : ag = ag'
        · subst hag'
          refine .inr fun last hl => hl.of_not_idle rfl rfl (horder heff hmarked) fun hnone => ?_
          exact hexposed ag rfl hnone hmarked
        · exact .inr fun last hl => hl.congr rfl rfl (e.agl_setList_of_ne hag' r _)
  | aglFilter ag' r per =>
      by_cases hany : (e.lists ag' r).any (fun l => unifies l per) = true
      · by_cases hag' : ag = ag'
        · exact .inl ⟨.markRemove ag', by simp [exec, hany], hag'.symm⟩
        · exact .inr fun last hl => hl.congr rfl rfl (e.agl_setList_of_ne hag' r _)
      · have hfilter : (e.lists ag' r).filter (fun l => !unifies l per) = e.lists ag' r := by
          simpa using hany
        have hsame : (exec unifies e keys (.aglFilter ag' r per)).1 = e := by
          simp only [exec, hfilter, e.setList_self]
        rw [hsame]
        exact .inr fun last hl => hl
  | _ => exact .inr fun last hl => hl.congr rfl rfl rfl

end Op

end Calls

section Runs

variable {unifies : L → L → Bool}

namespace Perception

omit [DecidableEq Ag] [DecidableEq L] in
theorem nextCall_eq_some {s : Perception Ag L} {t : ℕ} {op : Op Ag L} :
    s.nextCall t = some op ↔ ∃ rest, s.threads[t]? = some (op :: rest) := by
  unfold nextCall
  cases s.threads[t]? with
  | none => simp
  | some ops => cases ops <;> simp

omit [DecidableEq Ag] [DecidableEq L] in
/-- After a call of a thread, what is pending was so before or follows from the call. -/
theorem pending_of_set {s : Perception Ag L} {t : ℕ} {op o : Op Ag L} {rest ops : List (Op Ag L)}
    {e : UserEnvironment Ag L} (ht : s.threads[t]? = some (op :: rest))
    (h : Pending ⟨e, s.threads.set t (ops ++ rest), s.readers⟩ o) : o ∈ ops ∨ s.Pending o := by
  obtain ⟨l, hl, ho⟩ := h
  rcases List.mem_or_eq_of_mem_set hl with hl | rfl
  · exact .inr ⟨l, hl, ho⟩
  · rcases List.mem_append.1 ho with ho | ho
    · exact .inl ho
    · exact .inr ⟨op :: rest, List.mem_of_getElem? ht, List.mem_cons_of_mem _ ho⟩

omit [DecidableEq Ag] [DecidableEq L] in
/-- After a call of a thread, only that call is no longer pending. -/
theorem pending_set {s : Perception Ag L} {t : ℕ} {op o : Op Ag L} {rest ops : List (Op Ag L)}
    {e : UserEnvironment Ag L} (ht : s.threads[t]? = some (op :: rest))
    (h : s.Pending o) : o = op ∨ Pending ⟨e, s.threads.set t (ops ++ rest), s.readers⟩ o := by
  obtain ⟨l, hl, ho⟩ := h
  obtain ⟨i, hi⟩ := List.mem_iff_getElem?.1 hl
  by_cases hit : i = t
  · subst hit
    rw [ht, Option.some.injEq] at hi
    rw [← hi] at ho
    rcases List.mem_cons.1 ho with rfl | ho
    · exact .inl rfl
    · have hlt : i < s.threads.length := (List.getElem?_eq_some_iff.1 ht).1
      exact .inr ⟨ops ++ rest, List.mem_set hlt _, List.mem_append_right _ ho⟩
  · refine .inr ⟨l, List.mem_iff_getElem?.2 ⟨i, ?_⟩, ho⟩
    show (s.threads.set t (ops ++ rest))[i]? = some l
    rw [List.getElem?_set_ne (Ne.symm hit), hi]

omit [DecidableEq L] in
theorem lastReturned_quiet {h out : List (Returned Ag L)} {ag : Ag}
    (hout : ∀ r ∈ out, r.1 = ag → r.2 = none) :
    lastReturned ag (h ++ out) = lastReturned ag h := by
  have hnil : (out.filterMap fun r => if r.1 = ag then r.2 else none) = [] := by
    refine List.filterMap_eq_nil_iff.2 fun r hr => ?_
    split
    · next heq => exact hout r hr heq
    · rfl
  unfold lastReturned
  rw [List.filterMap_append, hnil, List.append_nil]

omit [DecidableEq L] in
theorem lastReturned_some (h : List (Returned Ag L)) (ag : Ag) (p : List L) :
    lastReturned ag (h ++ [(ag, some p)]) = some p := by
  simp [lastReturned, List.filterMap_append]

omit [DecidableEq L] in
theorem Inv.start {h : List (Returned Ag L)} {s : Perception Ag L} (hs : Inv h s)
    (m : Mutator Ag L) : Inv h { s with threads := s.threads ++ [m.body] } := by
  -- no method starts with a list in hand
  have hbody : ∀ o ∈ m.body, ∀ ag, ¬ o.Holds ag := by
    intro o ho ag hh
    cases m with
    | clearAllPercepts =>
        simp only [Mutator.body, List.mem_cons, List.not_mem_nil, or_false] at ho
        rcases ho with rfl | rfl
        · exact hh
        · exact hh
    | _ =>
        rw [List.mem_singleton.1 ho] at hh
        exact hh
  have hpending : ∀ o, Pending { s with threads := s.threads ++ [m.body] } o →
      s.Pending o ∨ o ∈ m.body := by
    rintro o ⟨l, hl, ho⟩
    rcases List.mem_append.1 hl with hl | hl
    · exact .inl ⟨l, hl, ho⟩
    · rw [List.mem_singleton.1 hl] at ho
      exact .inr ho
  refine ⟨hs.unread, fun o ho ag hh => ?_, fun o ho ag hw => ?_, fun ag hag => ?_⟩
  · rcases hpending o ho with ho | ho
    · exact hs.known o ho ag hh
    · exact absurd hh (hbody o ho ag)
  · rcases hpending o ho with ho | ho
    · exact hs.exposed o ho ag hw
    · cases o with
      | aglWrite ag' r w => exact absurd hw (hbody _ ho ag)
      | _ => exact hw.elim
  · rcases hs.settled ag hag with ⟨o, ⟨l, hl, ho⟩, howes⟩ | hagrees
    · exact .inl ⟨o, ⟨l, List.mem_append_left _ hl, ho⟩, howes⟩
    · exact .inr hagrees

theorem Inv.mutate {h : List (Returned Ag L)} {s : Perception Ag L} (hs : Inv h s) {t : ℕ}
    {op : Op Ag L} {rest : List (Op Ag L)} (ht : s.threads[t]? = some (op :: rest))
    (horder : op.InOrder s.env s.readers) (keys : List Ag) :
    Inv h ⟨(op.exec unifies s.env keys).1,
      s.threads.set t ((op.exec unifies s.env keys).2 ++ rest), s.readers⟩ := by
  have hop : s.Pending op := ⟨op :: rest, List.mem_of_getElem? ht, List.mem_cons_self⟩
  have hsub := op.exec_uptodateAgs unifies s.env keys
  have hlt : t < s.threads.length := (List.getElem?_eq_some_iff.1 ht).1
  refine ⟨fun ag hph hag => hs.unread ag hph (hsub hag), fun o ho ag hh => ?_,
    fun o ho ag hw hnone hag => ?_, fun ag hag => ?_⟩
  · rcases pending_of_set ht ho with ho | ho
    · exact Op.exec_known unifies s.env keys (hs.known op hop) ho hh
    · exact op.exec_get unifies s.env keys (hs.known o ho ag hh)
  · rcases pending_of_set ht ho with ho | ho
    · exact Op.exec_exposed unifies s.env keys ho hw hag
    · exact hs.exposed o ho ag hw hnone (hsub hag)
  · rcases hs.settled ag (hsub hag) with ⟨o, ho, howes⟩ | hagrees
    · rcases pending_set ht ho with rfl | ho
      · exact absurd hag (Op.exec_owes unifies s.env keys howes)
      · exact .inl ⟨o, ho, howes⟩
    · rcases Op.exec_agrees unifies s.env keys horder (hs.exposed op hop) hag with
        ⟨o, ho, howes⟩ | hkeep
      · exact .inl ⟨o, ⟨_, List.mem_set hlt _, List.mem_append_left _ ho⟩, howes⟩
      · exact .inr (hkeep _ hagrees)

omit [DecidableEq L] in
/-- A call of a reader that marks nobody. -/
theorem Inv.look {h out : List (Returned Ag L)} {s : Perception Ag L} (hs : Inv h s) (ag : Ag)
    (ph : Phase L) (hout : ∀ r ∈ out, r.1 = ag)
    (hchecked : ph = .checked → ag ∉ s.env.uptodateAgs)
    (hnone : ph.inHand = some none → (s.readers ag).inHand = some none ∨ s.env.get ag = none)
    (hagrees : ag ∈ s.env.uptodateAgs → s.env.Agrees ag (lastReturned ag h) (s.readers ag) →
      s.env.Agrees ag (lastReturned ag (h ++ out)) ph) :
    Inv (h ++ out) { s with readers := fun a => if a = ag then ph else s.readers a } := by
  refine ⟨fun a ha => ?_, hs.known, fun o ho a hw hn => ?_, fun a ha => ?_⟩
  · by_cases heq : a = ag
    · subst heq
      exact hchecked (by simpa using ha)
    · exact hs.unread a (by simpa [heq] using ha)
  · by_cases heq : a = ag
    · subst heq
      rcases hnone (by simpa using hn) with hold | hget
      · exact hs.exposed o ho a hw hold
      · -- a call that writes the list has it in hand, so the reader would have found it
        have hholds : o.Holds a := by
          cases o with
          | aglWrite ag' r w => exact hw
          | _ => exact hw.elim
        exact absurd hget (hs.known o ho a hholds)
    · exact hs.exposed o ho a hw (by simpa [heq] using hn)
  · rcases hs.settled a ha with hdebt | hold
    · exact .inl hdebt
    · by_cases heq : a = ag
      · subst heq
        exact .inr (by simpa using hagrees ha hold)
      · have hlast : lastReturned a (h ++ out) = lastReturned a h :=
          lastReturned_quiet fun r hr hra => absurd (hra.symm.trans (hout r hr)) heq
        exact .inr (by simpa [heq, hlast] using hold)

omit [DecidableEq L] in
/-- The call of a reader that marks its agent. -/
theorem Inv.mark {h : List (Returned Ag L)} {s : Perception Ag L} (hs : Inv h s) (ag : Ag) :
    Inv h ⟨{ s.env with uptodateAgs := insert ag s.env.uptodateAgs }, s.threads,
      fun a => if a = ag then .marked else s.readers a⟩ := by
  refine ⟨fun a ha hmem => ?_, hs.known, fun o ho a hw hn hmem => ?_, fun a ha => ?_⟩
  · by_cases heq : a = ag
    · simp [heq] at ha
    · simp only [heq, if_false] at ha
      exact hs.unread a ha ((Finset.mem_insert.1 hmem).resolve_left heq)
  · by_cases heq : a = ag
    · simp [heq, Phase.inHand] at hn
    · simp only [heq, if_false] at hn
      exact hs.exposed o ho a hw hn ((Finset.mem_insert.1 hmem).resolve_left heq)
  · by_cases heq : a = ag
    · exact .inr (by simp [heq, UserEnvironment.Agrees])
    · rcases hs.settled a ((Finset.mem_insert.1 ha).resolve_left heq) with hdebt | hold
      · exact .inl hdebt
      · refine .inr ?_
        simp only [heq, if_false]
        exact hold.congr rfl rfl rfl

omit [DecidableEq L] in
theorem Inv.read {h : List (Returned Ag L)} {s : Perception Ag L} (hs : Inv h s) (ag : Ag) :
    Inv (h ++ (getPercepts s.env ag (s.readers ag)).2.2)
      ⟨(getPercepts s.env ag (s.readers ag)).1, s.threads,
        fun a => if a = ag then (getPercepts s.env ag (s.readers ag)).2.1 else s.readers a⟩ := by
  cases hph : s.readers ag with
  | idle =>
      by_cases hmem : ag ∈ s.env.uptodateAgs
      · simp only [getPercepts, if_pos hmem]
        refine hs.look ag .idle (by simp) (fun h0 => by cases h0) (fun h0 => by cases h0) ?_
        intro _ hold
        rw [lastReturned_quiet (by simp), ← hph]
        exact hold
      · simp only [getPercepts, if_neg hmem]
        exact hs.look ag .checked (by simp) (fun _ => hmem) (fun h0 => by cases h0)
          fun h0 => absurd h0 hmem
  | checked =>
      simp only [getPercepts, List.append_nil]
      exact hs.mark ag
  | marked =>
      refine hs.look ag (.found (s.env.get ag)) (by simp [getPercepts]) (fun h0 => by cases h0)
        (fun h0 => .inr (Option.some.inj h0)) fun _ _ => .inl rfl
  | found r =>
      simp only [getPercepts]
      refine hs.look ag _ (by simp) ?_ (fun h0 => .inl ?_) fun _ hold => ?_
      · split <;> exact fun h0 => by cases h0
      · rw [hph]
        split at h0 <;> exact h0
      · rw [hph] at hold
        split
        · next hempty => exact ⟨hempty.symm, hold⟩
        · exact hold
  | nonEmpty r =>
      simp only [getPercepts]
      refine hs.look ag _ (by simp) (fun h0 => by cases h0) (fun h0 => .inl ?_) fun _ hold => ?_
      · rw [hph]
        exact h0
      · rw [hph] at hold
        exact ⟨rfl, hold⟩
  | copied r p =>
      simp only [getPercepts]
      refine hs.look ag .idle (by simp) (fun h0 => by cases h0) (fun h0 => by cases h0) ?_
      intro _ hold
      rw [hph] at hold
      obtain ⟨rfl, hcur⟩ := hold
      show lastReturned ag _ = _
      rw [lastReturned_some]
      unfold UserEnvironment.consultPercepts
      rcases hcur with rfl | ⟨rfl, hempty⟩
      · rfl
      · rw [hempty]
        rfl

theorem Inv.step {h : List (Returned Ag L)} {s s' : Perception Ag L} {a : Action Ag L}
    {out : List (Returned Ag L)} (hs : Inv h s) (horder : s.Ordered a)
    (hstep : s.step unifies a = some (s', out)) : Inv (h ++ out) s' := by
  cases a with
  | start m =>
      cases hstep
      rw [List.append_nil]
      exact hs.start m
  | mutate t keys =>
      simp only [Perception.step] at hstep
      split at hstep
      · next op rest ht =>
          split at hstep
          · cases hstep
            rw [List.append_nil]
            exact hs.mutate ht (horder op (nextCall_eq_some.2 ⟨rest, ht⟩)) keys
          · cases hstep
      · cases hstep
  | read ag =>
      cases hstep
      exact hs.read ag

end Perception

/-- Perception updates are not lost. In every interleaving in which the calls that change a list
after the marks were taken away find no marked agent with a copy of that list, and in which no list
of an agent is put over another: whenever no mutator is in progress and the agent is marked, its
reader not being inside `getPercepts`, the list last returned to it is its current perception. -/
theorem perception_kept (unifies : L → L → Bool) (as : List (Action Ag L)) (s : Perception Ag L)
    (h : List (Returned Ag L))
    (horder : Along (next (Perception.step unifies)) Perception.Ordered (.init Ag L) as)
    (hrun : play (Perception.step unifies) (.init Ag L) as = some (s, h)) (agName : Ag)
    (hthreads : ∀ ops ∈ s.threads, ops = []) (hmarked : agName ∈ s.env.uptodateAgs)
    (hidle : s.readers agName = .idle) :
    lastReturned agName h = some (s.env.consultPercepts agName) := by
  have hinit : Perception.Inv [] (.init Ag L) := by
    refine ⟨fun ag _ => Finset.notMem_empty ag, ?_, ?_,
      fun ag hag => absurd hag (Finset.notMem_empty ag)⟩
    · rintro op ⟨l, hl, -⟩
      cases hl
    · rintro op ⟨l, hl, -⟩
      cases hl
  have hinv : Perception.Inv ([] ++ h) s :=
    play_invariant Perception.Inv (fun _ _ _ _ _ hs hok hstep => hs.step hok hstep) as [] _ s h
      hinit horder hrun
  rcases hinv.settled agName hmarked with ⟨op, ⟨ops, hops, hop⟩, -⟩ | hagrees
  · rw [hthreads ops hops] at hop
    cases hop
  · rw [hidle] at hagrees
    exact hagrees

/-- The agent reads while `p` is added, and has copied the percepts when `q` is. It loses its mark
under way, so that it reads once more, and then finds nothing new. -/
def readRun : List (Action ℕ String) :=
  [.start (.addPercept "p"), .mutate 0 [], .read 1, .mutate 0 [], .read 1, .read 1, .mutate 0 [],
    .start (.addPercept "q"), .read 1, .mutate 1 [], .read 1, .mutate 1 [], .read 1, .mutate 1 [],
    .read 1, .read 1, .read 1, .read 1, .read 1, .read 1, .read 1]

theorem perception_kept_read :
    ∃ s h, play (Perception.step fun a b => a == b) (.init ℕ String) readRun = some (s, h) ∧
      h = [(1, some ["p"]), (1, some ["p", "q"]), (1, none)] ∧
      lastReturned 1 h = some (s.env.consultPercepts 1) := by
  have hsome : (play (Perception.step fun a b => a == b) (.init ℕ String) readRun).map
      (fun r => (r.1.threads, r.1.env.uptodateAgs, r.1.readers 1, r.2)) =
      some ([[], []], {1}, .idle, [(1, some ["p"]), (1, some ["p", "q"]), (1, none)]) := by rfl
  obtain ⟨⟨s, h⟩, hrun, hs⟩ := Option.map_eq_some_iff.1 hsome
  obtain ⟨hthreads, hmarked, hidle, hreturned⟩ : s.threads = [[], []] ∧ s.env.uptodateAgs = {1} ∧
      s.readers 1 = .idle ∧ h = [(1, some ["p"]), (1, some ["p", "q"]), (1, none)] := by
    simpa using hs
  refine ⟨s, h, hrun, hreturned,
    perception_kept _ readRun s h (by decide) hrun 1 ?_ ?_ hidle⟩
  · rw [hthreads]
    simp
  · rw [hmarked]
    exact Finset.mem_singleton_self 1

/-- The percept is removed by a thread whose two calls enclose the agent's reading. -/
def staleRun : List (Action ℕ String) :=
  [.start (.addPercept "p"), .mutate 0 [], .mutate 0 [], .mutate 0 [], .start (.removePercept "p"),
    .mutate 1 [], .read 1, .read 1, .read 1, .read 1, .read 1, .read 1, .mutate 1 []]

/-- After `staleRun` the agent is marked, and what it got last is not its current perception. -/
theorem perception_lost :
    ¬ ∀ (unifies : String → String → Bool) (as : List (Action ℕ String)) (s : Perception ℕ String)
      (h : List (Returned ℕ String)),
      play (Perception.step unifies) (.init ℕ String) as = some (s, h) →
        ∀ agName, (∀ ops ∈ s.threads, ops = []) → agName ∈ s.env.uptodateAgs →
          s.readers agName = .idle → lastReturned agName h = some (s.env.consultPercepts agName) := by
  intro hall
  have hsome : (play (Perception.step fun a b => a == b) (.init ℕ String) staleRun).map
      (fun r => (r.1.threads, r.1.env.uptodateAgs, r.1.readers 1, r.1.env.consultPercepts 1, r.2)) =
      some ([[], []], {1}, .idle, [], [(1, some ["p"])]) := by rfl
  obtain ⟨⟨s, h⟩, hrun, hs⟩ := Option.map_eq_some_iff.1 hsome
  obtain ⟨hthreads, hmarked, hidle, hconsult, rfl⟩ : s.threads = [[], []] ∧
      s.env.uptodateAgs = {1} ∧ s.readers 1 = .idle ∧ s.env.consultPercepts 1 = [] ∧
        h = [(1, some ["p"])] := by simpa using hs
  have hkept := hall _ staleRun s _ hrun 1 (by rw [hthreads]; simp)
    (by rw [hmarked]; exact Finset.mem_singleton_self 1) hidle
  rw [hconsult] at hkept
  exact absurd hkept (by decide)

end Runs

end Siebog.Jasonee
