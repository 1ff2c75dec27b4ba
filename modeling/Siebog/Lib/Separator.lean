import Mathlib.Data.List.DropRight

/-!
# Splitting at a separator

The index of the first and of the last occurrence of a separator, given by the split it makes:
nothing before the first occurrence, and nothing after the last, is a separator
(`indexOf_append_cons`, `lastIndexOf_append_cons`).

`split` gives the pieces between all separators, without the empty ones at the end.
-/

set_option autoImplicit false

namespace Siebog.Lib.Separator

variable {α : Type}

/-- A list with a separator ends in a part that has none. -/
theorem exists_last {sep : α} {l : List α} (h : sep ∈ l) :
    ∃ s t, l = s ++ sep :: t ∧ sep ∉ t := by
  obtain ⟨s, t, heq, hs⟩ := List.eq_append_cons_of_mem (List.mem_reverse.2 h)
  refine ⟨t.reverse, s.reverse, ?_, fun hmem => hs (List.mem_reverse.1 hmem)⟩
  calc l = (s ++ sep :: t).reverse := by rw [← heq, List.reverse_reverse]
    _ = t.reverse ++ sep :: s.reverse := by simp

/-- What stands before and after the place of a split. -/
theorem take_drop_split (s t : List α) (sep : α) :
    (s ++ sep :: t).take s.length = s ∧ (s ++ sep :: t).drop (s.length + 1) = t := by
  refine ⟨List.take_left, ?_⟩
  rw [List.drop_append]
  simp

variable [DecidableEq α]

/-- The index of the first occurrence. -/
def indexOf (sep : α) : List α → Option ℕ
  | [] => none
  | a :: l => if a = sep then some 0 else (indexOf sep l).map (· + 1)

/-- The index of the last occurrence. -/
def lastIndexOf (sep : α) : List α → Option ℕ
  | [] => none
  | a :: l =>
    match lastIndexOf sep l with
    | some n => some (n + 1)
    | none => if a = sep then some 0 else none

theorem indexOf_of_notMem {sep : α} {l : List α} (h : sep ∉ l) : indexOf sep l = none := by
  induction l with
  | nil => rfl
  | cons a l ih =>
      rw [List.mem_cons, not_or] at h
      rw [indexOf, if_neg (Ne.symm h.1), ih h.2]
      rfl

theorem indexOf_append_cons {sep : α} {s : List α} (h : sep ∉ s) (t : List α) :
    indexOf sep (s ++ sep :: t) = some s.length := by
  induction s with
  | nil => exact if_pos rfl
  | cons a s ih =>
      rw [List.mem_cons, not_or] at h
      rw [List.cons_append, indexOf, if_neg (Ne.symm h.1), ih h.2]
      rfl

/-- An index that is found is the length of what stands before the first occurrence. -/
theorem exists_of_indexOf {sep : α} {l : List α} {n : ℕ} (h : indexOf sep l = some n) :
    ∃ s t, l = s ++ sep :: t ∧ sep ∉ s ∧ n = s.length := by
  by_cases hmem : sep ∈ l
  · obtain ⟨s, t, rfl, hs⟩ := List.eq_append_cons_of_mem hmem
    rw [indexOf_append_cons hs, Option.some.injEq] at h
    exact ⟨s, t, rfl, hs, h.symm⟩
  · rw [indexOf_of_notMem hmem] at h
    cases h

theorem notMem_of_indexOf {sep : α} {l : List α} (h : indexOf sep l = none) : sep ∉ l := by
  intro hmem
  obtain ⟨s, t, rfl, hs⟩ := List.eq_append_cons_of_mem hmem
  rw [indexOf_append_cons hs] at h
  cases h

/-- A list is split at its first separator in one way. -/
theorem split_unique {sep : α} {s s' t t' : List α} (h : sep ∉ s) (h' : sep ∉ s')
    (heq : s ++ sep :: t = s' ++ sep :: t') : s = s' ∧ t = t' := by
  have hlength : s.length = s'.length := by
    have hindex := congrArg (indexOf sep) heq
    rwa [indexOf_append_cons h, indexOf_append_cons h', Option.some.injEq] at hindex
  obtain ⟨rfl, htail⟩ := List.append_inj heq hlength
  exact ⟨rfl, List.tail_eq_of_cons_eq htail⟩

theorem lastIndexOf_of_notMem {sep : α} {l : List α} (h : sep ∉ l) : lastIndexOf sep l = none := by
  induction l with
  | nil => rfl
  | cons a l ih =>
      rw [List.mem_cons, not_or] at h
      rw [lastIndexOf, ih h.2]
      exact if_neg (Ne.symm h.1)

theorem lastIndexOf_append_cons {sep : α} (s : List α) {t : List α} (h : sep ∉ t) :
    lastIndexOf sep (s ++ sep :: t) = some s.length := by
  induction s with
  | nil =>
      rw [List.nil_append, lastIndexOf, lastIndexOf_of_notMem h]
      exact if_pos rfl
  | cons a s ih =>
      rw [List.cons_append, lastIndexOf, ih]
      rfl

/-! ## A pattern in place of the separator -/

/-- The index of the last place where the pattern occurs. -/
def lastIndexOfList (pat : List α) : List α → Option ℕ
  | [] => if pat = [] then some 0 else none
  | a :: l =>
    match lastIndexOfList pat l with
    | some n => some (n + 1)
    | none => if pat <+: a :: l then some 0 else none

/-- A pattern does not occur in a shorter list. -/
theorem lastIndexOfList_of_length_lt {pat l : List α} (h : l.length < pat.length) :
    lastIndexOfList pat l = none := by
  induction l with
  | nil => exact if_neg (List.ne_nil_of_length_pos h)
  | cons a l ih =>
      rw [List.length_cons] at h
      rw [lastIndexOfList, ih (by omega)]
      refine if_neg fun hprefix => ?_
      have hlength := hprefix.length_le
      rw [List.length_cons] at hlength
      omega

/-- A pattern at the end occurs nowhere later. -/
theorem lastIndexOfList_append (s pat : List α) :
    lastIndexOfList pat (s ++ pat) = some s.length := by
  induction s with
  | nil =>
      cases pat with
      | nil => exact if_pos rfl
      | cons a pat =>
          have hshort : lastIndexOfList (a :: pat) pat = none :=
            lastIndexOfList_of_length_lt (Nat.lt_succ_self _)
          rw [List.nil_append, lastIndexOfList, hshort]
          exact if_pos (List.prefix_refl _)
  | cons a s ih =>
      rw [List.cons_append, lastIndexOfList, ih]
      rfl

/-! ## All pieces -/

/-- The pieces between the separators, without trailing empty pieces; a list without a separator is
its only piece, even when it is empty. -/
def split (sep : α) (l : List α) : List (List α) :=
  if sep ∈ l then (l.splitOn sep).rdropWhile List.isEmpty else [l]

theorem splitOn_append_cons {sep : α} {s : List α} (h : sep ∉ s) (t : List α) :
    (s ++ sep :: t).splitOn sep = s :: t.splitOn sep :=
  List.splitOn_append_cons_self_of_not_mem h t

/-- A list of words without separators, put together and split again; none of them may be empty. -/
theorem split_intercalate {sep : α} {words : List (List α)} (hne : words ≠ [])
    (hwords : ∀ w ∈ words, w ≠ [] ∧ sep ∉ w) : split sep ([sep].intercalate words) = words := by
  have hsplit : ([sep].intercalate words).splitOn sep = words :=
    List.splitOn_intercalate sep (fun w hw => (hwords w hw).2) hne
  rw [split]
  split_ifs with hmem
  · rw [hsplit, List.rdropWhile_eq_self_iff]
    intro hl
    have hlast := (hwords _ (List.getLast_mem hl)).1
    rwa [List.isEmpty_iff]
  · -- a single word
    rw [List.splitOn_eq_singleton hmem] at hsplit
    exact hsplit

omit [DecidableEq α] in
/-- The first word, and each of the others after a separator. -/
theorem intercalate_cons (sep : α) (w : List α) (words : List (List α)) :
    [sep].intercalate (w :: words) = w ++ words.flatMap (sep :: ·) := by
  induction words generalizing w with
  | nil => simp
  | cons v words ih =>
      rw [List.intercalate_cons_cons, ih v, List.flatMap_cons]
      simp

/-- Two parts are split where they were put together when the second is there and whole. -/
theorem split_append_cons {sep : α} {s t : List α} (hs : s ≠ []) (hsep : sep ∉ s) (ht : t ≠ [])
    (htsep : sep ∉ t) : split sep (s ++ sep :: t) = [s, t] := by
  have hwords : ∀ w ∈ [s, t], w ≠ [] ∧ sep ∉ w := by
    simp [hs, hsep, ht, htsep]
  have hjoin : [sep].intercalate [s, t] = s ++ sep :: t := by
    simp [List.intercalate_cons_cons]
  rw [← hjoin]
  exact split_intercalate (List.cons_ne_nil _ _) hwords

/-- Nothing but the part before the first separator comes first. -/
theorem eq_of_split_first {sep : α} {s t w : List α} (hsep : sep ∉ s)
    (h : (split sep (s ++ sep :: t))[0]? = some w) : w = s := by
  rw [split, if_pos (List.mem_append_right s List.mem_cons_self), splitOn_append_cons hsep] at h
  obtain ⟨rest, hrest⟩ := List.rdropWhile_prefix List.isEmpty (l := s :: t.splitOn sep)
  have hfirst : (s :: t.splitOn sep)[0]? = some w := by
    rw [← hrest, List.getElem?_append_left (List.getElem?_eq_some_iff.1 h).1]
    exact h
  exact (Option.some.inj hfirst).symm

/-- The part after the first separator is a piece of its own only when it is there and whole. -/
theorem of_split_second {sep : α} {s t : List α} (hsep : sep ∉ s)
    (h : (split sep (s ++ sep :: t))[1]? = some t) : t ≠ [] ∧ sep ∉ t := by
  rw [split, if_pos (List.mem_append_right s List.mem_cons_self), splitOn_append_cons hsep] at h
  constructor
  · rintro rfl
    -- what is empty at the end is dropped
    have hdrop : [s, []].rdropWhile List.isEmpty = [s].rdropWhile List.isEmpty :=
      List.rdropWhile_concat_pos List.isEmpty [s] [] rfl
    rw [List.splitOn_nil, hdrop] at h
    have hlength := (List.rdropWhile_prefix List.isEmpty (l := [s])).length_le
    have hindex := (List.getElem?_eq_some_iff.1 h).1
    rw [List.length_singleton] at hlength
    omega
  · intro hmem
    obtain ⟨u, v, rfl, hu⟩ := List.eq_append_cons_of_mem hmem
    rw [splitOn_append_cons hu] at h
    obtain ⟨rest, hrest⟩ := List.rdropWhile_prefix List.isEmpty (l := s :: u :: v.splitOn sep)
    have hsecond : (s :: u :: v.splitOn sep)[1]? = some (u ++ sep :: v) := by
      rw [← hrest, List.getElem?_append_left (List.getElem?_eq_some_iff.1 h).1]
      exact h
    have hlength := congrArg List.length (Option.some.inj hsecond)
    rw [List.length_append, List.length_cons] at hlength
    omega

end Siebog.Lib.Separator
