import Siebog.Interaction.ContractNet
import Mathlib.Data.List.Induction

/-!
# Isolation of contract-net rounds

A proposal should be accepted only in the round whose call it answers. The initiator does not keep
the number of the call, and `cfp` resets the status and the counter but not the lists: what was left
over from the last round stays in `proposals`, and so does a proposal that comes late.

`rounds_isolated` is the invariant that the rounds need: `proposals` holds answers to the latest
call only. It survives every message except the two that break it, a call for proposals made while
proposals are left, and a proposal that answers an earlier call.
-/

set_option autoImplicit false

namespace Siebog.Interaction

open Siebog.Lib

variable {ι : Type} [DecidableEq ι]

section Model

/-- An initiator and the number of calls for proposals it has made. -/
structure Rounds (ι : Type) where
  initiator : Initiator ι
  call : ℕ

namespace Rounds

/-- A new initiator, before its first call. -/
def new (ι : Type) : Rounds ι := ⟨.new ι, 0⟩

/-- The number of the round after the message. -/
def callAfter (r : Rounds ι) (d : Delivery ι) : ℕ :=
  match d.msg with
  | .request _ => r.call + 1
  | _ => r.call

def step (r : Rounds ι) (d : Delivery ι) : Option (Rounds ι × List (Answer ι)) :=
  some (⟨(r.initiator.onMessage d).1, r.callAfter d⟩, (r.initiator.onMessage d).2)

/-- A call for proposals finds no proposal of the last round, and a proposal answers the latest
call. -/
def Clean (r : Rounds ι) (d : Delivery ι) : Prop :=
  match d.msg with
  | .request _ => r.initiator.proposals = []
  | .propose p => p.call = r.call
  | _ => True

instance (r : Rounds ι) : DecidablePred r.Clean
  | ⟨_, .request _⟩ => inferInstanceAs (Decidable (r.initiator.proposals = []))
  | ⟨_, .propose p⟩ => inferInstanceAs (Decidable (p.call = r.call))
  | ⟨_, .refuse⟩ | ⟨_, .inform _⟩ | ⟨_, .failure⟩ | ⟨_, .callForProposal⟩ | ⟨_, .replyBy⟩
  | ⟨_, .waiting _⟩ => .isTrue trivial

end Rounds

/-- The number of calls for proposals in a history. -/
def calls (h : List (Answer ι)) : ℕ :=
  h.countP fun
    | .callForProposal _ => true
    | _ => false

/-- Every proposal is accepted in the round whose call it answers. -/
def Isolated (h : List (Answer ι)) : Prop :=
  ∀ h₁ p h₂, h = h₁ ++ .acceptProposal p :: h₂ → p.call = calls h₁

end Model

section Isolation

omit [DecidableEq ι] in
theorem calls_append (h h' : List (Answer ι)) : calls (h ++ h') = calls h + calls h' :=
  List.countP_append

omit [DecidableEq ι] in
theorem isolated_nil : Isolated ([] : List (Answer ι)) := by
  intro h₁ p h₂ heq
  simp at heq

omit [DecidableEq ι] in
theorem isolated_snoc {h : List (Answer ι)} {o : Answer ι} (hh : Isolated h)
    (ho : ∀ p, o = .acceptProposal p → p.call = calls h) : Isolated (h ++ [o]) := by
  intro h₁ p h₂ heq
  rcases snoc_eq_append_cons.1 heq with ⟨rfl, rfl, -⟩ | ⟨h₂', -, hold⟩
  · exact ho p rfl
  · exact hh h₁ p h₂' hold

omit [DecidableEq ι] in
/-- Answers of which none is an acceptance or all acceptances are of the current round. -/
theorem isolated_append {h : List (Answer ι)} {n : ℕ} (hn : calls h = n) :
    ∀ (out : List (Answer ι)), calls out = 0 → Isolated h →
      (∀ p, .acceptProposal p ∈ out → p.call = n) → Isolated (h ++ out) := by
  intro out
  induction out using List.reverseRecOn with
  | nil => simp
  | append_singleton out o ih =>
      intro hcalls hh hout
      have hsplit := calls_append out [o]
      rw [hcalls] at hsplit
      rw [← List.append_assoc]
      refine isolated_snoc (ih (by omega) hh fun p hp => hout p (List.mem_append_left _ hp)) ?_
      rintro p rfl
      rw [calls_append, hn, hout p (by simp)]
      omega

namespace Initiator

/-- All proposals that can still be chosen answer call `n`. -/
def Current (s : Initiator ι) (n : ℕ) : Prop := ∀ p ∈ s.proposals, p.call = n

/-- A handler keeps the proposals current, makes no call and accepts current proposals only. -/
structure Keeps (n : ℕ) (r : Initiator ι × List (Answer ι)) : Prop where
  current : r.1.Current n
  quiet : calls r.2 = 0
  accepts : ∀ p, .acceptProposal p ∈ r.2 → p.call = n

theorem acceptProposal_keeps (C : Chooser ι) {s : Initiator ι} {n : ℕ} (hs : s.Current n) :
    Keeps n (s.acceptProposal C) := by
  rcases s.acceptProposal_cases C with ⟨-, heq⟩ | ⟨p, hp, heq⟩
  · rw [heq]
    exact ⟨hs, rfl, by simp⟩
  · rw [heq]
    refine ⟨fun q hq => hs q (List.mem_of_mem_erase hq), rfl, fun q hq => ?_⟩
    simp only [List.mem_cons, Answer.acceptProposal.injEq, reduceCtorEq, List.not_mem_nil,
      or_false] at hq
    rw [hq]
    exact hs p hp

theorem handleFailure_keeps (C : Chooser ι) {s : Initiator ι} {n : ℕ} (hs : s.Current n) :
    Keeps n (s.handleFailure C) := by
  rcases s.handleFailure_cases C with ⟨-, heq⟩ | ⟨p, hp, heq⟩
  · rw [heq]
    exact ⟨hs, rfl, by simp⟩
  · rw [heq]
    exact acceptProposal_keeps C fun q hq => hs q (List.mem_of_mem_erase hq)

/-- Every message but a call for proposals and an outdated proposal keeps the proposals current. -/
theorem onMessage_keeps {s : Initiator ι} {n : ℕ} (hs : s.Current n) {d : Delivery ι}
    (hcall : ∀ participants, d.msg ≠ .request participants)
    (hpropose : ∀ p, d.msg = .propose p → p.call = n) : Keeps n (s.onMessage d) := by
  obtain ⟨C, m⟩ := d
  have hsame : Keeps n (s, []) := ⟨hs, rfl, by simp⟩
  cases m with
  | request participants => exact absurd rfl (hcall participants)
  | propose p =>
      have hp := hpropose p rfl
      -- the proposal that comes in belongs to the call that is open
      have hadd : ∀ q ∈ s.proposals ++ [p], q.call = n := by
        intro q hq
        rcases List.mem_append.1 hq with hq | hq
        · exact hs q hq
        · rw [List.mem_singleton.1 hq]
          exact hp
      show Keeps n (s.handlePropose C p)
      simp only [handlePropose]
      split
      · exact acceptProposal_keeps C hadd
      · exact ⟨hadd, rfl, by simp⟩
  | refuse =>
      show Keeps n (s.handleRefuse C)
      simp only [handleRefuse]
      split
      · exact acceptProposal_keeps C hs
      · exact ⟨hs, rfl, by simp⟩
  | inform result => exact ⟨hs, rfl, by simp [onMessage, handleDone, rejectProposal]⟩
  | failure => exact handleFailure_keeps C hs
  | callForProposal => exact hsame
  | replyBy =>
      simp only [onMessage]
      split
      · exact acceptProposal_keeps C hs
      · exact hsame
  | waiting a =>
      simp only [onMessage]
      split
      · exact handleFailure_keeps C hs
      · exact hsame

end Initiator

/-- What holds between two messages of a clean run. -/
structure Rounds.Inv (h : List (Answer ι)) (r : Rounds ι) : Prop where
  isolated : Isolated h
  count : calls h = r.call
  current : r.initiator.Current r.call

theorem Rounds.Inv.step {h : List (Answer ι)} {r r' : Rounds ι} {d : Delivery ι}
    {out : List (Answer ι)} (hr : Rounds.Inv h r) (hclean : r.Clean d)
    (hstep : r.step d = some (r', out)) : Rounds.Inv (h ++ out) r' := by
  obtain ⟨rfl, rfl⟩ := Prod.mk.inj (Option.some.inj hstep)
  by_cases hcall : ∃ participants, d.msg = .request participants
  · obtain ⟨C, m⟩ := d
    obtain ⟨participants, rfl⟩ := hcall
    -- a new call finds no proposals of the one before
    have hempty : r.initiator.proposals = [] := hclean
    refine ⟨?_, ?_, ?_⟩
    · -- the two answers of `cfp` accept nothing
      show Isolated (h ++ [.callForProposal participants, .replyBy])
      rw [List.append_cons]
      exact isolated_snoc (isolated_snoc hr.isolated (by simp)) (by simp)
    · show calls (h ++ [.callForProposal participants, .replyBy]) = r.call + 1
      rw [calls_append, hr.count]
      rfl
    · intro p hp
      have hp : p ∈ r.initiator.proposals := hp
      rw [hempty] at hp
      cases hp
  · have hsame : r.callAfter d = r.call := by
      obtain ⟨C, m⟩ := d
      cases m with
      | request participants => exact absurd ⟨participants, rfl⟩ hcall
      | _ => rfl
    have hpropose : ∀ p, d.msg = .propose p → p.call = r.call := by
      intro p hp
      obtain ⟨C, m⟩ := d
      cases hp
      exact hclean
    obtain ⟨hcur, hquiet, hacc⟩ := Initiator.onMessage_keeps hr.current
      (fun participants heq => hcall ⟨participants, heq⟩) hpropose
    refine ⟨isolated_append hr.count _ hquiet hr.isolated hacc, ?_, ?_⟩
    · rw [calls_append, hr.count, hquiet, hsame, Nat.add_zero]
    · rw [hsame]
      exact hcur

/-- In every run, over any number of rounds, in which each call for proposals finds no proposal left
and each proposal answers the latest call, every proposal is accepted in the round whose call it
answers. -/
theorem rounds_isolated (ds : List (Delivery ι)) (r : Rounds ι) (h : List (Answer ι))
    (hclean : Along (next Rounds.step) Rounds.Clean (.new ι) ds)
    (hrun : play Rounds.step (.new ι) ds = some (r, h)) : Isolated h := by
  have hinv : Rounds.Inv ([] ++ h) r :=
    play_invariant Rounds.Inv (fun _ _ _ _ _ hr hok hstep => hr.step hok hstep) ds [] _ r h
      ⟨isolated_nil, rfl, by simp [Initiator.Current, Rounds.new, Initiator.new]⟩ hclean hrun
  exact hinv.isolated

/-- Two rounds; the only bidder of the first is accepted and done before the second is called. -/
theorem rounds_isolated_two :
    ∃ r h, play Rounds.step (.new ℕ) (([.request [0, 1], .propose ⟨1, 1, "5", 9, 1⟩,
        .inform ⟨"45"⟩, .request [0, 1], .propose ⟨2, 1, "6", 9, 2⟩]).map
          (Delivery.mk .first)) = some (r, h) ∧ Isolated h := by
  have h : play Rounds.step (.new ℕ) (([.request [0, 1], .propose ⟨1, 1, "5", 9, 1⟩,
      .inform ⟨"45"⟩, .request [0, 1], .propose ⟨2, 1, "6", 9, 2⟩]).map (Delivery.mk .first)) =
      some (⟨⟨0, some ⟨2, 1, "6", 9, 2⟩, [], [], 2⟩, 2⟩, [.callForProposal [0, 1], .replyBy,
        .acceptProposal ⟨1, 1, "5", 9, 1⟩, .waiting 1 9, .rejectProposal [], .success ⟨"45"⟩,
        .callForProposal [0, 1], .replyBy, .acceptProposal ⟨2, 1, "6", 9, 2⟩, .waiting 1 9]) := by
    rfl
  exact ⟨_, _, h, rounds_isolated _ _ _ (by decide) h⟩

/-- Two bidders in the first round, of which one is left over; both refuse in the second. -/
def leftOverRun : List (Delivery ℕ) :=
  ([.request [0, 1, 2], .propose ⟨1, 1, "5", 9, 1⟩, .propose ⟨2, 2, "7", 9, 1⟩, .inform ⟨"45"⟩,
    .request [0, 1, 2], .refuse, .refuse]).map (Delivery.mk .first)

/-- The rejected proposal of the first round of `leftOverRun` is accepted in the second. -/
theorem rounds_mixed :
    ¬ ∀ (ds : List (Delivery ℕ)) (r : Rounds ℕ) (h : List (Answer ℕ)),
      play Rounds.step (.new ℕ) ds = some (r, h) → Isolated h := by
  intro hall
  have hrun : play Rounds.step (.new ℕ) leftOverRun =
      some (⟨⟨0, some ⟨2, 2, "7", 9, 1⟩, [], [], 2⟩, 2⟩, [.callForProposal [0, 1, 2], .replyBy,
        .acceptProposal ⟨1, 1, "5", 9, 1⟩, .waiting 1 9, .rejectProposal [2], .success ⟨"45"⟩,
        .callForProposal [0, 1, 2], .replyBy, .acceptProposal ⟨2, 2, "7", 9, 1⟩, .waiting 2 9]) := by
    rfl
  have htwo := hall _ _ _ hrun [.callForProposal [0, 1, 2], .replyBy,
    .acceptProposal ⟨1, 1, "5", 9, 1⟩, .waiting 1 9, .rejectProposal [2], .success ⟨"45"⟩,
    .callForProposal [0, 1, 2], .replyBy] _ [.waiting 2 9] rfl
  exact absurd htwo (by decide)

end Isolation

end Siebog.Interaction
