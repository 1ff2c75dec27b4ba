import Mathlib.Data.List.Perm.Basic

/-!
# One round of a barrier

Each member is asked once. Its answer is under way until it arrives, unless it is lost or never
given at all. `Round` says how the four lists of members belong together: those that the question
has not reached yet, those that it has reached, those whose answers are under way and those whose
answers have arrived. When as many answers have arrived as there are members, each member has
answered once and nothing of the round is left (`Round.complete`).
-/

set_option autoImplicit false

namespace Siebog.Lib

open List

universe u

variable {α : Type u}

/-- How the members of a round are spread: each has been asked or is still to be, and only a member
that has been asked has an answer, at most one, under way or arrived. -/
structure Round (members pending asked answering answered : List α) : Prop where
  asks : pending ++ asked ~ members
  answers : answering ++ answered <+~ asked

variable {members pending pending' asked answering answering' answered : List α} {a : α}

namespace Round

/-- A round starts with all members pending. -/
theorem start (members : List α) : Round members members [] [] [] where
  asks := by rw [append_nil]
  answers := nil_subperm

/-- The pending and the answering members may be in any order. -/
theorem perm (h : Round members pending asked answering answered) (hpending : pending ~ pending')
    (hanswering : answering ~ answering') : Round members pending' asked answering' answered where
  asks := (hpending.append_right asked).symm.trans h.asks
  answers := (hanswering.append_right answered).subperm_right.1 h.answers

/-- One more member is asked. -/
theorem invite (h : Round members pending asked answering answered) (a : α) :
    Round (members ++ [a]) (pending ++ [a]) asked answering answered where
  asks := by
    have hmoved : pending ++ [a] ++ asked ~ pending ++ asked ++ [a] := by
      rw [append_assoc, append_assoc]
      exact perm_append_comm.append_left pending
    exact hmoved.trans (h.asks.append_right [a])
  answers := h.answers

/-- A question arrives, and is not answered. -/
theorem ask (h : Round members (a :: pending) asked answering answered) :
    Round members pending (asked ++ [a]) answering answered where
  asks := by
    have hmoved : pending ++ (asked ++ [a]) ~ a :: pending ++ asked := by
      rw [← append_assoc]
      exact perm_append_singleton a (pending ++ asked)
    exact hmoved.trans h.asks
  answers := h.answers.trans (sublist_append_left asked [a]).subperm

/-- A question arrives, and the answer is under way. -/
theorem reply (h : Round members (a :: pending) asked answering answered) :
    Round members pending (asked ++ [a]) (answering ++ [a]) answered where
  asks := h.ask.asks
  answers := by
    have hmoved : answering ++ [a] ++ answered ~ a :: (answering ++ answered) := by
      rw [append_assoc]
      exact perm_middle
    have hasked : a :: (answering ++ answered) <+~ a :: asked := (subperm_cons a).2 h.answers
    exact hmoved.subperm_right.2 ((perm_append_singleton a asked).subperm_left.2 hasked)

/-- An answer arrives. -/
theorem answer (h : Round members pending asked (a :: answering) answered) :
    Round members pending asked answering (answered ++ [a]) where
  asks := h.asks
  answers := by
    have hmoved : answering ++ (answered ++ [a]) ~ a :: answering ++ answered := by
      rw [← append_assoc]
      exact perm_append_singleton a (answering ++ answered)
    exact hmoved.subperm_right.2 h.answers

/-- An answer is lost. -/
theorem lose (h : Round members pending asked (a :: answering) answered) :
    Round members pending asked answering answered where
  asks := h.asks
  answers := (sublist_cons_self a (answering ++ answered)).subperm.trans h.answers

/-- Different members are asked once, and answer once. -/
theorem nodup (h : Round members pending asked answering answered) (hmembers : members.Nodup) :
    (pending ++ asked).Nodup ∧ (answering ++ answered).Nodup := by
  have hasks : (pending ++ asked).Nodup := h.asks.nodup_iff.2 hmembers
  have hasked : asked.Nodup := hasks.sublist (sublist_append_right pending asked)
  obtain ⟨answers, hperm, hsub⟩ := h.answers
  exact ⟨hasks, hperm.nodup_iff.1 (hasked.sublist hsub)⟩

/-- With all the answers there, the round is over. -/
theorem complete (h : Round members pending asked answering answered)
    (hlength : members.length ≤ answered.length) :
    pending = [] ∧ answering = [] ∧ asked ~ members ∧ answered ~ members := by
  have hasks := h.asks.length_eq
  have hanswers := h.answers.length_le
  rw [length_append] at hasks hanswers
  have hpending : pending = [] := length_eq_zero_iff.1 (by omega)
  have hanswering : answering = [] := length_eq_zero_iff.1 (by omega)
  have hasked : asked ~ members := by
    have hperm := h.asks
    rw [hpending, nil_append] at hperm
    exact hperm
  have hanswered : answered <+~ asked := by
    have hsubperm := h.answers
    rw [hanswering, nil_append] at hsubperm
    exact hsubperm
  refine ⟨hpending, hanswering, hasked, (hanswered.perm_of_length_le ?_).trans hasked⟩
  omega

end Round

end Siebog.Lib
