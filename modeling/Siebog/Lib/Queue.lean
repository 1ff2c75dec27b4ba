import Mathlib.Data.List.Perm.Basic

/-!
# Queues with a record of what went through

What was put into a queue, what has been taken out of it and what is still waiting, as lists. Taking
any element keeps them the same elements (`perm_take`), and the order of those that satisfy `p` is
kept when none of them is overtaken by another (`filter_take`).
-/

set_option autoImplicit false

namespace Siebog.Lib.Queue

variable {α : Type} {sent taken waiting : List α} {k : ℕ} {a : α}

/-- The parts of a queue around one of its elements. -/
theorem split_at (hk : waiting[k]? = some a) :
    waiting = waiting.take k ++ a :: waiting.drop (k + 1) := by
  obtain ⟨hlt, hget⟩ := List.getElem?_eq_some_iff.1 hk
  rw [← hget, List.getElem_cons_drop, List.take_append_drop]

/-- Nothing is lost or made up when items are put in. -/
theorem perm_put (h : sent.Perm (taken ++ waiting)) (new : List α) :
    (sent ++ new).Perm (taken ++ (waiting ++ new)) := by
  rw [← List.append_assoc]
  exact h.append_right new

/-- Nothing is lost or made up when an item is taken out. -/
theorem perm_take (h : sent.Perm (taken ++ waiting)) (hk : waiting[k]? = some a) :
    sent.Perm (taken ++ [a] ++ waiting.eraseIdx k) := by
  obtain ⟨hlt, hget⟩ := List.getElem?_eq_some_iff.1 hk
  have hperm : waiting.Perm (a :: waiting.eraseIdx k) :=
    hget ▸ (List.getElem_cons_eraseIdx_perm hlt).symm
  rw [List.append_assoc]
  exact h.trans (hperm.append_left taken)

section Order

variable {p : α → Bool}

/-- Items that are put in come after those of their kind. -/
theorem filter_put (h : sent.filter p = (taken ++ waiting).filter p) (new : List α) :
    (sent ++ new).filter p = (taken ++ (waiting ++ new)).filter p := by
  rw [List.filter_append, h, ← List.append_assoc, ← List.filter_append]

/-- No element that satisfies `p` stands before the one that is taken, if that one does. -/
def First (p : α → Bool) (waiting : List α) (k : ℕ) (a : α) : Prop :=
  p a = true → ∀ b ∈ waiting.take k, p b = false

/-- The first item of its kind that is taken out keeps the order of its kind. -/
theorem filter_take (h : sent.filter p = (taken ++ waiting).filter p) (hk : waiting[k]? = some a)
    (hfirst : First p waiting k a) :
    sent.filter p = (taken ++ [a] ++ waiting.eraseIdx k).filter p := by
  have hwaiting : waiting.filter p = ([a] ++ waiting.eraseIdx k).filter p := by
    rw [List.eraseIdx_eq_take_drop_succ]
    refine (congrArg (List.filter p) (split_at hk)).trans ?_
    simp only [List.filter_append, List.filter_cons, List.filter_nil]
    cases hp : p a with
    | false => simp
    | true =>
        have hnone : (waiting.take k).filter p = [] :=
          List.filter_eq_nil_iff.2 fun b hb => by rw [hfirst hp b hb]; decide
        simp [hnone]
  rw [h, List.append_assoc, List.filter_append, hwaiting, ← List.filter_append]

end Order

end Siebog.Lib.Queue
