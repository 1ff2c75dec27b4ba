import Siebog.Interaction.BarrierBean
import Mathlib.Data.List.Nodup

/-!
# Signals of a barrier timeout

A timeout of the current superstep probes the pending agents one after the other, drops those that
do not answer and signals the superstep again to those that do. The signal is asked for one agent,
but the message takes its receivers from the set that is being probed, so each agent found alive
causes a copy for every agent that is still in it. How many copies an agent receives therefore
depends on the order of the probes: `copies_alive` and `copies_dead` count them, and
`timeout_targeted_iff` says when every agent receives what is meant for it.
-/

set_option autoImplicit false

namespace Siebog.Interaction

variable {ι : Type} [DecidableEq ι]

section Copies

/-- How many messages of the superstep are posted to the agent. -/
def copies (counter : ℕ) (aid : ι) (out : List (Output ι)) : ℕ :=
  out.countP fun
    | .superstep k receivers => k = counter ∧ aid ∈ receivers
    | _ => false

theorem copies_append (counter : ℕ) (aid : ι) (out out' : List (Output ι)) :
    copies counter aid (out ++ out') = copies counter aid out + copies counter aid out' :=
  List.countP_append

theorem copies_signal (counter : ℕ) (aid : ι) (receivers : Finset ι) (out : List (Output ι)) :
    copies counter aid (.superstep counter receivers :: out) =
      copies counter aid out + if aid ∈ receivers then 1 else 0 := by
  simp [copies, List.countP_cons]

theorem copies_unavailable (counter : ℕ) (aid dropped : ι) (out : List (Output ι)) :
    copies counter aid (.unavailable dropped :: out) = copies counter aid out := by
  simp [copies]

namespace BarrierBean

variable (alive : ι → Bool)

/-- An agent that is not pending receives nothing. -/
theorem copies_notMem (order : List ι) {b : BarrierBean ι} {aid : ι} (h : aid ∉ b.processing) :
    copies b.superstep aid (filterUnavailableAgents alive order b).2 = 0 := by
  induction order generalizing b with
  | nil => rfl
  | cons a rest ih =>
      by_cases ha : alive a = true
      · rw [filterUnavailableAgents_alive ha, copies_signal, ih h, if_neg h]
      · rw [filterUnavailableAgents_dead ha, copies_unavailable]
        exact ih (b := { b with processing := b.processing.erase a })
          fun hmem => h (Finset.mem_of_mem_erase hmem)

/-- A pending agent that answers stays in the set, and receives a copy for each agent that
answers. -/
theorem copies_alive (order : List ι) {b : BarrierBean ι} {aid : ι} (h : aid ∈ b.processing)
    (halive : alive aid = true) :
    copies b.superstep aid (filterUnavailableAgents alive order b).2 = order.countP alive := by
  induction order generalizing b with
  | nil => rfl
  | cons a rest ih =>
      by_cases ha : alive a = true
      · rw [filterUnavailableAgents_alive ha, copies_signal, ih h, if_pos h,
          List.countP_cons_of_pos ha]
      · have hne : aid ≠ a := fun heq => ha (heq ▸ halive)
        rw [filterUnavailableAgents_dead ha, copies_unavailable, List.countP_cons_of_neg ha]
        exact ih (b := { b with processing := b.processing.erase a })
          (Finset.mem_erase.2 ⟨hne, h⟩)

/-- A pending agent that does not answer receives a copy for each agent that answered before it was
probed. -/
theorem copies_dead (earlier later : List ι) {b : BarrierBean ι} {aid : ι}
    (h : aid ∈ b.processing) (hdead : ¬ alive aid = true) (hfirst : aid ∉ earlier) :
    copies b.superstep aid (filterUnavailableAgents alive (earlier ++ aid :: later) b).2 =
      earlier.countP alive := by
  induction earlier generalizing b with
  | nil =>
      rw [List.nil_append, filterUnavailableAgents_dead hdead, copies_unavailable]
      exact copies_notMem alive later (b := { b with processing := b.processing.erase aid })
        (Finset.notMem_erase aid _)
  | cons a earlier ih =>
      rw [List.mem_cons, not_or] at hfirst
      rw [List.cons_append]
      by_cases ha : alive a = true
      · rw [filterUnavailableAgents_alive ha, copies_signal, ih h hfirst.2, if_pos h,
          List.countP_cons_of_pos ha]
      · rw [filterUnavailableAgents_dead ha, copies_unavailable, List.countP_cons_of_neg ha]
        exact ih (b := { b with processing := b.processing.erase a })
          (Finset.mem_erase.2 ⟨hfirst.1, h⟩) hfirst.2

/-- The agents that do not answer are dropped, and no others. -/
theorem filterUnavailableAgents_processing (order : List ι) (b : BarrierBean ι) :
    (filterUnavailableAgents alive order b).1.processing =
      b.processing.filter fun aid => aid ∈ order → alive aid = true := by
  induction order generalizing b with
  | nil => simp [filterUnavailableAgents]
  | cons a rest ih =>
      by_cases ha : alive a = true
      · rw [filterUnavailableAgents_alive ha, ih]
        refine Finset.filter_congr fun aid _ => ⟨fun h hmem => ?_, fun h hmem => ?_⟩
        · rcases List.mem_cons.1 hmem with rfl | hrest
          · exact ha
          · exact h hrest
        · exact h (List.mem_cons_of_mem a hmem)
      · rw [filterUnavailableAgents_dead ha, ih]
        ext aid
        simp only [Finset.mem_filter, Finset.mem_erase, List.mem_cons]
        constructor
        · rintro ⟨⟨hne, hmem⟩, h⟩
          exact ⟨hmem, fun hor => h (hor.resolve_left hne)⟩
        · rintro ⟨hmem, h⟩
          have hne : aid ≠ a := fun heq => ha (heq ▸ h (.inl heq))
          exact ⟨⟨hne, hmem⟩, fun hrest => h (.inr hrest)⟩

end BarrierBean

end Copies

section Targets

namespace BarrierBean

variable (b : BarrierBean ι) (order : List ι) (alive : ι → Bool)

/-- What follows the probes is a signal of the next superstep or none, and a timeout message. -/
theorem copies_onTimeout (aid : ι) :
    copies b.superstep aid (b.onTimeout b.superstep order alive).2 =
      copies b.superstep aid (filterUnavailableAgents alive order b).2 := by
  have hk := (filterUnavailableAgents_spec alive order b).1
  rcases (filterUnavailableAgents alive order b).1.nextSuperstepIfPossible_cases with
    ⟨-, -, heq⟩ | ⟨-, heq⟩
  · simp only [onTimeout, if_pos, heq, hk, copies_append]
    simp [copies]
  · simp only [onTimeout, if_pos, heq]
    simp [copies, scheduleTimeout]

/-- The pending agents afterwards are those that answered, or all registered ones in the next
superstep when none did. -/
theorem processing_onTimeout (hvisits : order.toFinset = b.processing) :
    (b.onTimeout b.superstep order alive).1.processing =
      if b.processing.filter (fun aid => alive aid = true) = ∅ ∧ b.registered ≠ ∅ then b.registered
      else b.processing.filter fun aid => alive aid = true := by
  obtain ⟨-, hr, -, -⟩ := filterUnavailableAgents_spec alive order b
  have hleft : (filterUnavailableAgents alive order b).1.processing =
      b.processing.filter fun aid => alive aid = true := by
    rw [filterUnavailableAgents_processing]
    refine Finset.filter_congr fun aid hmem => ?_
    rw [← hvisits, List.mem_toFinset] at hmem
    exact ⟨fun h => h hmem, fun h _ => h⟩
  rw [← hleft, ← hr]
  rcases (filterUnavailableAgents alive order b).1.nextSuperstepIfPossible_cases with
    ⟨hempty, hreg, heq⟩ | ⟨hbusy, heq⟩
  · rw [if_pos ⟨hempty, hreg⟩]
    simp only [onTimeout, if_pos, heq]
  · rw [if_neg fun h => hbusy h.2 h.1]
    simp only [onTimeout, if_pos, heq]
    rfl

/-- The superstep is posted once to each pending agent found alive and to no other agent, and the
pending agents that did not answer are dropped. -/
structure Targeted : Prop where
  once : ∀ aid, copies b.superstep aid (b.onTimeout b.superstep order alive).2 =
    if aid ∈ b.processing ∧ alive aid = true then 1 else 0
  dropped : (b.onTimeout b.superstep order alive).1.processing =
    if b.processing.filter (fun aid => alive aid = true) = ∅ ∧ b.registered ≠ ∅ then b.registered
    else b.processing.filter fun aid => alive aid = true

end BarrierBean

open BarrierBean

variable {b : BarrierBean ι} {order : List ι} {alive : ι → Bool}

/-- If nobody answers before the last probe, only the last agent can receive a copy, and only its
own. -/
theorem once_of_dropLast (hvisits : order.toFinset = b.processing)
    (hlast : ∀ aid ∈ order.dropLast, alive aid = false) (aid : ι) :
    copies b.superstep aid (filterUnavailableAgents alive order b).2 =
      if aid ∈ b.processing ∧ alive aid = true then 1 else 0 := by
  have hnone : ∀ l : List ι, (∀ a ∈ l, a ∈ order.dropLast) → l.countP alive = 0 := by
    intro l hl
    exact List.countP_eq_zero.2 fun a ha => by simp [hlast a (hl a ha)]
  by_cases hmem : aid ∈ b.processing
  · have hvisited : aid ∈ order := by
      rw [← List.mem_toFinset, hvisits]
      exact hmem
    by_cases halive : alive aid = true
    · rw [if_pos ⟨hmem, halive⟩, copies_alive alive order hmem halive]
      have hne : order ≠ [] := List.ne_nil_of_mem hvisited
      -- the agent that answers is the last one
      have haid : order.getLast hne = aid := by
        rw [← List.dropLast_append_getLast hne, List.mem_append, List.mem_singleton] at hvisited
        rcases hvisited with hearly | heq
        · rw [hlast aid hearly] at halive
          cases halive
        · exact heq.symm
      rw [← List.dropLast_append_getLast hne, haid, List.countP_append, hnone _ fun a ha => ha,
        List.countP_cons_of_pos halive, List.countP_nil]
    · rw [if_neg fun h => halive h.2]
      obtain ⟨earlier, later, rfl, hfirst⟩ := List.eq_append_cons_of_mem hvisited
      rw [copies_dead alive earlier later hmem halive hfirst]
      refine hnone earlier fun a ha => ?_
      rw [List.dropLast_append_of_ne_nil (List.cons_ne_nil _ _)]
      exact List.mem_append_left _ ha
  · rw [if_neg fun h => hmem h.1, copies_notMem alive order hmem]

/-- A timeout is targeted exactly when no pending agent answers except perhaps the one that is
probed last. The probes visit each pending agent once. -/
theorem timeout_targeted_iff (hnodup : order.Nodup) (hvisits : order.toFinset = b.processing) :
    Targeted b order alive ↔ ∀ aid ∈ order.dropLast, alive aid = false := by
  constructor
  · intro h aid haid
    by_contra hne
    have halive : alive aid = true := by simpa using hne
    have horder : order ≠ [] := fun hnil => by simp [hnil] at haid
    have hsplit := List.dropLast_append_getLast horder
    have hpos : 0 < order.dropLast.countP alive := List.countP_pos_iff.2 ⟨aid, haid, halive⟩
    have hpending : ∀ a ∈ order, a ∈ b.processing := fun a ha => by
      rw [← hvisits, List.mem_toFinset]
      exact ha
    have hlastmem := hpending _ (List.getLast_mem horder)
    have honce := h.once
    simp only [copies_onTimeout] at honce
    by_cases hlast : alive (order.getLast horder) = true
    · -- both answer, and each of the two signals reaches the last one
      have hcopies := honce (order.getLast horder)
      rw [copies_alive alive order hlastmem hlast, if_pos ⟨hlastmem, hlast⟩] at hcopies
      rw [← hsplit, List.countP_append, List.countP_cons_of_pos hlast] at hcopies
      omega
    · -- the last one is still pending when the other one is signalled
      have hfirst : order.getLast horder ∉ order.dropLast := by
        rw [← hsplit, List.nodup_append] at hnodup
        exact fun hmem => hnodup.2.2 _ hmem _ (List.mem_singleton_self _) rfl
      have hcopies := honce (order.getLast horder)
      rw [if_neg fun hc => hlast hc.2] at hcopies
      have hdead := copies_dead alive order.dropLast [] hlastmem hlast hfirst
      rw [hsplit, hcopies] at hdead
      omega
  · -- nobody before the last one answers, so there is one signal at most
    intro hlast
    refine ⟨fun aid => ?_, processing_onTimeout b order alive hvisits⟩
    rw [copies_onTimeout, once_of_dropLast hvisits hlast]

/-- The first agent has gone and the second one is slow. -/
theorem timeout_targeted_iff_slow :
    Targeted (⟨1, {1, 2}, {1, 2}⟩ : BarrierBean ℕ) [1, 2] (fun aid => aid == 2) := by
  refine (timeout_targeted_iff (by decide) (by decide)).2 fun aid haid => ?_
  have hone : aid = 1 := List.mem_singleton.1 haid
  rw [hone]
  rfl

/-- Of two slow agents, each receives two copies. -/
theorem timeout_not_targeted :
    ¬ ∀ (b : BarrierBean ℕ) (order : List ℕ) (alive : ℕ → Bool), order.Nodup →
        order.toFinset = b.processing → Targeted b order alive := by
  intro hall
  have hcopies := (hall ⟨1, {1, 2}, {1, 2}⟩ [1, 2] (fun _ => true) (by decide) (by decide)).once 1
  exact absurd hcopies (by decide)

end Targets

end Siebog.Interaction
