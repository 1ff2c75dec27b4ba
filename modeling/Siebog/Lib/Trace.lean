import Siebog.Lib.Run

/-!
# Runs with outputs

A machine whose actions may be refused and emit outputs: `step : σ → α → Option (σ × List β)`.
`play` feeds it a list of actions and collects the outputs, oldest first. A run is constrained by
`Along (next step) ok`, which asks `ok` of the state and the action before every step, and
`play_invariant` is the induction over such runs: the invariant speaks of the history so far and of
the state.

The second half is about histories alone. `Between A B C h` says that in `h` no `B` follows an `A`
without a `C` in between; `Open A C h` says that some `A` of `h` has no `C` after it. Both are
computed event by event (`open_snoc`, `between_snoc`), so a monitor for them is a fold.
-/

set_option autoImplicit false

namespace Siebog.Lib

universe u v w

variable {σ : Type u} {α : Type v} {β : Type w}

section Play

/-- The machine without its outputs. -/
def next (step : σ → α → Option (σ × List β)) (s : σ) (a : α) : Option σ :=
  (step s a).map Prod.fst

/-- The state after the actions and the outputs they gave; `none` when one of them is refused. -/
def play (step : σ → α → Option (σ × List β)) : σ → List α → Option (σ × List β)
  | s, [] => some (s, [])
  | s, a :: as =>
      match step s a with
      | none => none
      | some (s', out) => (play step s' as).map fun r => (r.1, out ++ r.2)

variable {step : σ → α → Option (σ × List β)}

theorem play_cons_eq_some {s t : σ} {a : α} {as : List α} {h : List β} :
    play step s (a :: as) = some (t, h) ↔
      ∃ s' out h', step s a = some (s', out) ∧ play step s' as = some (t, h') ∧ h = out ++ h' := by
  cases hs : step s a with
  | none => simp [play, hs]
  | some r =>
      obtain ⟨s', out⟩ := r
      constructor
      · intro hp
        simp only [play, hs, Option.map_eq_some_iff, Prod.mk.injEq] at hp
        obtain ⟨⟨t', h'⟩, hp, ht, hh⟩ := hp
        exact ⟨s', out, h', rfl, ht ▸ hp, hh.symm⟩
      · rintro ⟨s'', out', h', heq, hp, rfl⟩
        cases heq
        simp [play, hs, hp]

theorem play_snoc_eq_some {s t : σ} {as : List α} {a : α} {h : List β} :
    play step s (as ++ [a]) = some (t, h) ↔
      ∃ s' h' out, play step s as = some (s', h') ∧ step s' a = some (t, out) ∧ h = h' ++ out := by
  induction as generalizing s h with
  | nil =>
      rw [List.nil_append, play_cons_eq_some]
      constructor
      · rintro ⟨s', out, h', ha, hrest, rfl⟩
        cases hrest
        exact ⟨s, [], out, rfl, ha, by simp⟩
      · rintro ⟨s', h', out, hplay, ha, rfl⟩
        cases hplay
        exact ⟨t, out, [], ha, rfl, by simp⟩
  | cons b as ih =>
      rw [List.cons_append, play_cons_eq_some]
      constructor
      · rintro ⟨s₁, out₁, h₁, hb, hrest, rfl⟩
        obtain ⟨s', h', out, hplay, ha, rfl⟩ := ih.1 hrest
        exact ⟨s', out₁ ++ h', out, play_cons_eq_some.2 ⟨s₁, out₁, h', hb, hplay, rfl⟩, ha, by simp⟩
      · rintro ⟨s', h', out, hplay, ha, rfl⟩
        obtain ⟨s₁, out₁, h₁, hb, hrest, rfl⟩ := play_cons_eq_some.1 hplay
        exact ⟨s₁, out₁, h₁ ++ out, hb, ih.2 ⟨s', h₁, out, hrest, ha, rfl⟩, by simp⟩

theorem play_append_eq_some {s t u : σ} {as bs : List α} {h g : List β}
    (hp : play step s as = some (t, h)) (hq : play step t bs = some (u, g)) :
    play step s (as ++ bs) = some (u, h ++ g) := by
  induction as generalizing s h with
  | nil =>
      cases hp
      exact hq
  | cons a as ih =>
      obtain ⟨s', out, h', hs, hrest, rfl⟩ := play_cons_eq_some.1 hp
      rw [List.cons_append, List.append_assoc]
      exact play_cons_eq_some.2 ⟨s', out, h' ++ g, hs, ih hrest, rfl⟩

theorem next_eq_some {s s' : σ} {a : α} :
    next step s a = some s' ↔ ∃ out, step s a = some (s', out) := by
  simp [next]

theorem along_cons_some {ok : σ → α → Prop} {s s' : σ} {a : α} {out : List β} {as : List α}
    (h : step s a = some (s', out)) :
    Along (next step) ok s (a :: as) ↔ ok s a ∧ Along (next step) ok s' as := by
  simp [Along, next, h]

/-- A run that breaks a step condition does so at a first step. -/
theorem exists_of_not_along {ok : σ → α → Prop} {s : σ} {as : List α}
    (hnot : ¬ Along (next step) ok s as) :
    ∃ as₁ a as₂ t h, as = as₁ ++ a :: as₂ ∧ Along (next step) ok s as₁ ∧
      play step s as₁ = some (t, h) ∧ ¬ ok t a := by
  induction as generalizing s with
  | nil => exact absurd trivial hnot
  | cons a as ih =>
      by_cases hok : ok s a
      · have hrest : ∃ s', next step s a = some s' ∧ ¬ Along (next step) ok s' as := by
          by_contra hall
          apply hnot
          refine ⟨hok, fun s' hs' => ?_⟩
          by_contra hs
          exact hall ⟨s', hs', hs⟩
        obtain ⟨s', hs', hnot'⟩ := hrest
        obtain ⟨out, hs⟩ := next_eq_some.1 hs'
        obtain ⟨as₁, b, as₂, t, h, rfl, hgood, hp, hbad⟩ := ih hnot'
        refine ⟨a :: as₁, b, as₂, t, out ++ h, rfl, (along_cons_some hs).2 ⟨hok, hgood⟩, ?_, hbad⟩
        exact play_cons_eq_some.2 ⟨s', out, h, hs, hp, rfl⟩
      · exact ⟨[], a, as, s, [], rfl, trivial, rfl, hok⟩

/-- What holds before every action of a run holds before its last one. -/
theorem along_last {ok : σ → α → Prop} {s t : σ} {as : List α} {a : α} {h : List β}
    (hall : Along (next step) ok s (as ++ [a])) (hp : play step s as = some (t, h)) : ok t a := by
  induction as generalizing s h with
  | nil =>
      cases hp
      exact hall.1
  | cons b as ih =>
      obtain ⟨s', out, h', hs, hrest, rfl⟩ := play_cons_eq_some.1 hp
      exact ih ((along_cons_some hs).1 hall).2 hrest

instance decidableAlong (step : σ → α → Option σ) (ok : σ → α → Prop)
    [∀ s a, Decidable (ok s a)] : ∀ (s : σ) (as : List α), Decidable (Along step ok s as)
  | _, [] => .isTrue trivial
  | s, a :: as =>
      match hs : step s a with
      | none => decidable_of_iff (ok s a) (by simp [Along, hs])
      | some s' =>
          have := decidableAlong step ok s' as
          decidable_of_iff (ok s a ∧ Along step ok s' as) (by simp [Along, hs])

/-- What the start satisfies with no history, and every allowed step hands on with the outputs
added, is true at the end of every allowed run. -/
theorem play_invariant {ok : σ → α → Prop} (Inv : List β → σ → Prop)
    (hstep : ∀ h s a s' out, Inv h s → ok s a → step s a = some (s', out) → Inv (h ++ out) s') :
    ∀ (as : List α) (h : List β) (s t : σ) (h' : List β), Inv h s → Along (next step) ok s as →
      play step s as = some (t, h') → Inv (h ++ h') t := by
  intro as
  induction as with
  | nil =>
      intro h s t h' hinv _ hp
      cases hp
      simpa using hinv
  | cons a as ih =>
      intro h s t h' hinv hok hp
      obtain ⟨s', out, h'', hs, hrest, rfl⟩ := play_cons_eq_some.1 hp
      have hok' := (along_cons_some hs).1 hok
      rw [← List.append_assoc]
      exact ih (h ++ out) s' t h'' (hstep h s a s' out hinv hok'.1 hs) hok'.2 hrest

/-- The rule for invariants that every step keeps. -/
theorem play_invariant_of_step (Inv : List β → σ → Prop)
    (hstep : ∀ h s a s' out, Inv h s → step s a = some (s', out) → Inv (h ++ out) s')
    {as : List α} {s t : σ} {h : List β} (hs : Inv [] s) (hp : play step s as = some (t, h)) :
    Inv h t := by
  have hall : Along (next step) (fun _ _ => True) s as :=
    along_of_forall (fun _ _ => trivial) s as
  rw [← List.nil_append h]
  exact play_invariant Inv (fun h s a s' out hinv _ hs' => hstep h s a s' out hinv hs')
    as [] s t h hs hall hp

/-- `P` holds of every state the run passes, the first and the last included. -/
def Throughout (step : σ → α → Option (σ × List β)) (P : σ → Prop) (s : σ) (as : List α) : Prop :=
  ∀ n t h, play step s (as.take n) = some (t, h) → P t

theorem throughout_nil {P : σ → Prop} {s : σ} : Throughout step P s [] ↔ P s := by
  simp [Throughout, play]

theorem throughout_cons {P : σ → Prop} {s s' : σ} {a : α} {out : List β} {as : List α}
    (hs : step s a = some (s', out)) :
    Throughout step P s (a :: as) ↔ P s ∧ Throughout step P s' as := by
  constructor
  · intro hall
    refine ⟨hall 0 s [] rfl, fun n t h hp => ?_⟩
    apply hall (n + 1) t (out ++ h)
    rw [List.take_succ_cons, play_cons_eq_some]
    exact ⟨s', out, h, hs, hp, rfl⟩
  · rintro ⟨hhead, htail⟩ n t h hp
    cases n with
    | zero =>
        cases hp
        exact hhead
    | succ n =>
        rw [List.take_succ_cons, play_cons_eq_some] at hp
        obtain ⟨s'', out', h', hs', hrest, -⟩ := hp
        rw [hs] at hs'
        cases hs'
        exact htail n t h' hrest

/-- A property of states that each step decides by a condition on the state and the action before
it holds throughout a run when that condition does along it. -/
theorem throughout_iff_along {P : σ → Prop} (Q : σ → α → Prop) (Inv : σ → Prop)
    (hkeep : ∀ s a s' out, Inv s → step s a = some (s', out) → Inv s')
    (hiff : ∀ s a s' out, Inv s → P s → step s a = some (s', out) → (P s' ↔ Q s a)) :
    ∀ (as : List α) (s t : σ) (h : List β), Inv s → P s → play step s as = some (t, h) →
      (Throughout step P s as ↔ Along (next step) Q s as) := by
  intro as
  induction as with
  | nil =>
      intro s t h _ hP _
      rw [throughout_nil]
      exact iff_of_true hP trivial
  | cons a as ih =>
      intro s t h hinv hP hp
      obtain ⟨s', out, h', hs, hrest, -⟩ := play_cons_eq_some.1 hp
      have hone : P s' ↔ Q s a := hiff s a s' out hinv hP hs
      have hinv' : Inv s' := hkeep s a s' out hinv hs
      rw [throughout_cons hs, along_cons_some hs]
      -- where the condition fails for the first time, so does the property
      by_cases hQ : Q s a
      · have htail := ih s' t h' hinv' (hone.2 hQ) hrest
        simp [hP, hQ, htail]
      · constructor
        · rintro ⟨-, htail⟩
          exact absurd (hone.1 (htail 0 s' [] rfl)) hQ
        · rintro ⟨hQ', -⟩
          exact absurd hQ' hQ

end Play

section Histories

variable {A B C : β → Prop} {h : List β} {e : β}

/-- Some `A` of the history has no `C` after it. -/
def Open (A C : β → Prop) (h : List β) : Prop :=
  ∃ h₁ x h₂, h = h₁ ++ x :: h₂ ∧ A x ∧ ∀ z ∈ h₂, ¬ C z

/-- Between an `A` and a later `B` there is always a `C`. -/
def Between (A B C : β → Prop) (h : List β) : Prop :=
  ∀ h₁ x h₂ y h₃, h = h₁ ++ x :: (h₂ ++ y :: h₃) → A x → B y → ∃ z ∈ h₂, C z

theorem not_open_nil : ¬ Open A C [] := by
  rintro ⟨h₁, x, h₂, heq, -⟩
  simp at heq

theorem between_nil : Between A B C [] := by
  intro h₁ x h₂ y h₃ heq
  simp at heq

/-- Where an event of a longer history stands: it is the new one, or it was there before. -/
theorem snoc_eq_append_cons {h h₁ h₂ : List β} {e x : β} :
    h ++ [e] = h₁ ++ x :: h₂ ↔
      (h = h₁ ∧ e = x ∧ h₂ = []) ∨ ∃ h₂', h₂ = h₂' ++ [e] ∧ h = h₁ ++ x :: h₂' := by
  constructor
  · intro heq
    rcases List.eq_nil_or_concat h₂ with rfl | ⟨h₂', z, rfl⟩
    · obtain ⟨hh, he⟩ := List.append_inj' heq rfl
      exact .inl ⟨hh, List.singleton_inj.1 he, rfl⟩
    · have heq' : h ++ [e] = (h₁ ++ x :: h₂') ++ [z] := by simpa using heq
      obtain ⟨hh, he⟩ := List.append_inj' heq' rfl
      exact .inr ⟨h₂', by rw [List.singleton_inj.1 he, List.concat_eq_append], hh⟩
  · rintro (⟨rfl, rfl, rfl⟩ | ⟨h₂', rfl, rfl⟩)
    · rfl
    · simp

theorem open_snoc : Open A C (h ++ [e]) ↔ A e ∨ (Open A C h ∧ ¬ C e) := by
  constructor
  · rintro ⟨h₁, x, h₂, heq, hx, hC⟩
    rcases snoc_eq_append_cons.1 heq with ⟨-, rfl, -⟩ | ⟨h₂', rfl, hh⟩
    · exact .inl hx
    · exact .inr ⟨⟨h₁, x, h₂', hh, hx, fun z hz => hC z (List.mem_append_left _ hz)⟩, hC e (by simp)⟩
  · rintro (hA | ⟨⟨h₁, x, h₂, rfl, hx, hC⟩, he⟩)
    · exact ⟨h, e, [], rfl, hA, by simp⟩
    · refine ⟨h₁, x, h₂ ++ [e], by simp, hx, fun z hz => ?_⟩
      rcases List.mem_append.1 hz with hz | hz
      · exact hC z hz
      · rw [List.mem_singleton.1 hz]
        exact he

theorem between_snoc : Between A B C (h ++ [e]) ↔ Between A B C h ∧ (B e → ¬ Open A C h) := by
  constructor
  · intro hb
    refine ⟨fun h₁ x h₂ y h₃ heq hx hy => ?_, ?_⟩
    · exact hb h₁ x h₂ y (h₃ ++ [e]) (by simp [heq]) hx hy
    · rintro he ⟨h₁, x, h₂, rfl, hx, hC⟩
      obtain ⟨z, hz, hCz⟩ := hb h₁ x h₂ e [] (by simp) hx he
      exact hC z hz hCz
  · rintro ⟨hb, he⟩ h₁ x h₂ y h₃ heq hx hy
    rw [← List.cons_append, ← List.append_assoc] at heq
    rcases snoc_eq_append_cons.1 heq with ⟨hh, rfl, -⟩ | ⟨h₃', -, hh⟩
    · by_contra hC
      exact he hy ⟨h₁, x, h₂, hh, hx, fun z hz hCz => hC ⟨z, hz, hCz⟩⟩
    · exact hb h₁ x h₂ y h₃' (by simpa using hh) hx hy

theorem Between.left {h' : List β} (hb : Between A B C (h ++ h')) : Between A B C h := by
  intro h₁ x h₂ y h₃ heq hx hy
  exact hb h₁ x h₂ y (h₃ ++ h') (by simp [heq]) hx hy

/-- A temporal property that each step decides by a condition on the state and the action before it
is decided by that condition along the whole run. The invariant has to be kept by good steps only:
a bad step spoils the property for good. -/
theorem between_iff_along {step : σ → α → Option (σ × List β)} (Q : σ → α → Prop)
    (Inv : List β → σ → Prop)
    (hiff : ∀ h s a s' out, Inv h s → step s a = some (s', out) →
      (Between A B C (h ++ out) ↔ Between A B C h ∧ Q s a))
    (hkeep : ∀ h s a s' out, Inv h s → Q s a → step s a = some (s', out) → Inv (h ++ out) s') :
    ∀ (as : List α) (h : List β) (s t : σ) (h' : List β), Inv h s →
      play step s as = some (t, h') →
        (Between A B C (h ++ h') ↔ Between A B C h ∧ Along (next step) Q s as) := by
  intro as
  induction as with
  | nil =>
      intro h s t h' _ hp
      cases hp
      simp [Along]
  | cons a as ih =>
      intro h s t h' hinv hp
      obtain ⟨s', out, h'', hs, hrest, rfl⟩ := play_cons_eq_some.1 hp
      have hone := hiff h s a s' out hinv hs
      rw [along_cons_some hs, ← List.append_assoc]
      by_cases hQ : Q s a
      · rw [ih (h ++ out) s' t h'' (hkeep h s a s' out hinv hQ hs) hrest, hone]
        simp [hQ]
      · constructor
        · exact fun hb => absurd (hone.1 hb.left).2 hQ
        · exact fun hb => absurd hb.2.1 hQ

end Histories

end Siebog.Lib
