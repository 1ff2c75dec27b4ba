import Siebog.DNars.Base.RoundTrip

/-!
# Infix and prefix notation

A compound term may be written `(c t₁ ... tₙ)` or `(t₁ c t₂ c ... tₙ)`. The prefix production is
tried first, and it takes a connector wherever the text goes on with one: the first character of
`(xylophone x drum)` is as good a connector as any. From there on every word is an atom, the
connectors included, so the production always succeeds and the infix production never gets its turn
(`parses_taken`). Otherwise the infix production reads the term; it keeps the first connector and
drops the others.

`notations_agree_iff` says when an infix text is read as it is meant.
-/

set_option autoImplicit false

namespace Siebog.DNars

open Siebog.Lib Peg

/-! ## Infix texts -/

/-- `(t c₁ t₁ ... cₙ tₙ)`, with the tokens separated by spaces. -/
def infixText (t : AtomicTerm) (comps : List (Connector × AtomicTerm)) : String :=
  "(" ++ " ".intercalate (t.id :: comps.flatMap fun y => [y.1.text, y.2.id]) ++ ")"

/-- What should hold of the infix text with the first atom `t` and the components `x :: comps`: with
one connector it is read as the term that the prefix notation denotes, with different connectors it
is rejected. -/
def NotationsAgree (t : AtomicTerm) (x : Connector × AtomicTerm)
    (comps : List (Connector × AtomicTerm)) (rest : List Char) : Prop :=
  ((∀ y ∈ comps, y.1 = x.1) →
    Parses StatementParser.compoundTerm (infixText t (x :: comps)).toList rest
        (.compound x.1 (t :: x.2 :: comps.map (·.2))) ∧
      Parses StatementParser.compoundTerm
        (Term.compound x.1 (t :: x.2 :: comps.map (·.2))).id.toList rest
        (.compound x.1 (t :: x.2 :: comps.map (·.2)))) ∧
    (¬ (∀ y ∈ comps, y.1 = x.1) →
      Fails StatementParser.compoundTerm ((infixText t (x :: comps)).toList ++ rest))

/-- The text of the atom starts with a connector. -/
def AtomicTerm.StartsWithConnector (t : AtomicTerm) : Prop :=
  ∃ c : Connector, c.text.toList <+: t.id.toList

/-- A connector that stands where an atom is expected. -/
def Connector.word : Connector → AtomicTerm
  | product => atom "x"
  | extImage => atom "/"
  | intImage => atom "\\"

theorem Connector.id_word (c : Connector) : c.word.id = c.text := by
  cases c <;> rfl

/-- The words after the first one, as atoms. -/
def words (comps : List (Connector × AtomicTerm)) : List AtomicTerm :=
  comps.flatMap fun y => [y.1.word, y.2]

theorem length_words (comps : List (Connector × AtomicTerm)) :
    (words comps).length = 2 * comps.length := by
  induction comps with
  | nil => rfl
  | cons y comps ih =>
      have hsplit : words (y :: comps) = y.1.word :: y.2 :: words comps := rfl
      rw [hsplit, List.length_cons, List.length_cons, ih, List.length_cons]
      omega

namespace StatementParser

theorem toList_infixText (t : AtomicTerm) (comps : List (Connector × AtomicTerm)) :
    (infixText t comps).toList = '(' :: (t.id.toList ++ (components (words comps) ++ [')'])) := by
  have hwords : (t.id :: comps.flatMap fun y => [y.1.text, y.2.id]).map String.toList =
      (t :: words comps).map (·.id.toList) := by
    simp [words, List.map_flatMap, Connector.id_word]
  have hjoin : [' '].intercalate ((t :: words comps).map (·.id.toList)) =
      t.id.toList ++ components (words comps) := by
    have h := components_eq t (words comps)
    rw [← List.cons_inj_right ' ', ← h]
    rfl
  rw [infixText, String.toList_append, String.toList_append, String.toList_intercalate, hwords]
  show '(' :: ([' '].intercalate _ ++ [')']) = _
  rw [hjoin, List.append_assoc]

/-! ## The prefix production -/

/-- An atom that starts with a connector: the connector alone, or the connector and an atom. -/
theorem startsWithConnector_iff {t : AtomicTerm} :
    t.StartsWithConnector ↔ ∃ c : Connector, t.id = c.text ∨
      ∃ a : AtomicTerm, t.id.toList = c.text.toList ++ a.id.toList := by
  constructor
  · rintro ⟨c, s, hs⟩
    refine ⟨c, ?_⟩
    -- what follows the connector is nothing or the characters of an atom
    cases s with
    | nil =>
        rw [List.append_nil] at hs
        exact .inl (String.toList_injective hs.symm)
    | cons d s =>
        have hterm : isTermId (String.ofList (d :: s)) = true := by
          have hall : ∀ e ∈ d :: s, isTermChar e = true := fun e he =>
            t.isTermChar_of_mem (hs ▸ List.mem_append_right _ he)
          simpa [isTermId] using hall
        refine .inr ⟨⟨String.ofList (d :: s), hterm⟩, ?_⟩
        rw [String.toList_ofList, hs]
  · rintro ⟨c, hc | ⟨a, ha⟩⟩
    · exact ⟨c, [], by rw [hc, List.append_nil]⟩
    · exact ⟨c, a.id.toList, ha.symm⟩

theorem fails_connector {inp : List Char} (h : ∀ c, Fails (con c) inp) : Fails connector inp :=
  (h .product).orElse ((h .extImage).orElse (h .intImage))

/-- An atom that does not start with a connector is not read as one. -/
theorem fails_connector_atom {t : AtomicTerm} (ht : ¬ t.StartsWithConnector) {u : List Char}
    (hu : ∀ c ∈ u, isSpace c = true) (rest : List Char) :
    Fails connector (u ++ (t.id.toList ++ rest)) := by
  have hspace : HeadNot isSpace (t.id.toList ++ rest) :=
    headNot_isSpace_of_mem t.id_ne_nil
      (fun c hc => isSpace_of_isTermChar (t.isTermChar_of_mem hc)) rest
  apply fails_connector
  intro c
  have hprefix : c.text.toList.isPrefixOf (t.id.toList ++ rest) = false := by
    rw [Bool.eq_false_iff, Ne, List.isPrefixOf_iff_prefix]
    intro h
    obtain ⟨d, w, hw⟩ := List.exists_cons_of_ne_nil t.id_ne_nil
    apply ht
    refine ⟨c, ?_⟩
    rw [hw] at h ⊢
    -- a connector is one character, the first of the atom
    cases c <;> simpa [Connector.text] using h
  exact (fails_literal hu hspace hprefix).bind

/-- No connector, no prefix term. -/
theorem fails_prefixCompTerm {t : AtomicTerm} (ht : ¬ t.StartsWithConnector) (rest : List Char) :
    Fails prefixCompTerm ('(' :: (t.id.toList ++ rest)) := by
  have hopen : Parses (literal "(") "(".toList (t.id.toList ++ rest) "(" :=
    parses_literal (u := []) nil_isSpace (headNot_cons (by decide))
  exact hopen.bind_fails (fails_connector_atom ht (u := []) nil_isSpace rest).bind

/-- The infix text of a term whose first atom starts with a connector is taken for a prefix term of
that connector, with all other words as its components. -/
theorem parses_taken {t : AtomicTerm} {c : Connector} (x : Connector × AtomicTerm)
    (comps : List (Connector × AtomicTerm)) (rest : List Char) :
    (t.id = c.text → Parses prefixCompTerm (infixText t (x :: comps)).toList rest
        (.compound c (words (x :: comps)))) ∧
      ∀ a : AtomicTerm, t.id.toList = c.text.toList ++ a.id.toList →
        Parses prefixCompTerm (infixText t (x :: comps)).toList rest
          (.compound c (a :: words (x :: comps))) := by
  have hsplit : words (x :: comps) = x.1.word :: x.2 :: words comps := rfl
  constructor
  · intro ht
    have h := parses_prefixCompTerm_spaced c x.1.word x.2 (words comps) nil_isSpace space_isSpace
      rest
    rw [toList_infixText, ht, hsplit]
    simpa [components] using h
  · intro a ht
    have h := parses_prefixCompTerm_spaced c a x.1.word (x.2 :: words comps) nil_isSpace nil_isSpace
      rest
    rw [toList_infixText, ht, hsplit]
    simpa using h

/-! ## The infix production -/

theorem parses_infixComp (y : Connector × AtomicTerm) {rest : List Char}
    (hrest : HeadNot isTermChar rest) :
    Parses infixComp (components [y.1.word, y.2]) rest y := by
  have hchunks : components [y.1.word, y.2] =
      ([' '] ++ y.1.text.toList) ++ ([' '] ++ y.2.id.toList) := by
    simp [components, Connector.id_word]
  rw [hchunks]
  apply (parses_connector y.1 space_isSpace).bind
  exact (parses_atomicTerm y.2 space_isSpace hrest).map rfl

theorem consuming_con (c : Connector) : Consuming (con c) := by
  have htext : Consuming (literal c.text) := by
    apply consuming_literal
    cases c <;> decide
  apply htext.bind
  intro _ inp d rest h
  cases h
  exact Nat.le_refl _

theorem consuming_infixComp : Consuming infixComp := by
  have hcon : Consuming connector :=
    (consuming_con .product).orElse ((consuming_con .extImage).orElse (consuming_con .intImage))
  have hatom : ∀ c : Connector, Consuming (do let t ← atomicTerm; return (c, t)) := by
    intro c
    apply consuming_atomicTerm.bind
    intro _ inp d rest h
    cases h
    exact Nat.le_refl _
  apply hcon.bind
  intro c inp y rest h
  exact (hatom c inp y rest h).le

theorem parses_rep_infixComp (comps : List (Connector × AtomicTerm)) {rest : List Char}
    (hrest : HeadNot isTermChar rest) (hstop : Fails infixComp rest) :
    Parses (rep infixComp) (components (words comps)) rest comps := by
  induction comps with
  | nil => exact parses_rep_nil consuming_infixComp hstop
  | cons y comps ih =>
      have hsplit : components (words (y :: comps)) =
          components [y.1.word, y.2] ++ components (words comps) := by
        simp [words, components]
      rw [hsplit]
      exact parses_rep_cons consuming_infixComp
        (parses_infixComp y (headNot_components _ hrest)) ih

/-- The infix production reads every infix text, and keeps its first connector. -/
theorem parses_infixCompTerm (t : AtomicTerm) (x : Connector × AtomicTerm)
    (comps : List (Connector × AtomicTerm)) (rest : List Char) :
    Parses infixCompTerm (infixText t (x :: comps)).toList rest
      (.compound x.1 (t :: x.2 :: comps.map (·.2))) := by
  have hchunks : (infixText t (x :: comps)).toList =
      ([] ++ "(".toList) ++ (([] ++ t.id.toList) ++ (components [x.1.word, x.2] ++
        (components (words comps) ++ ([] ++ ")".toList)))) := by
    rw [toList_infixText]
    simp [words, components]
  have hclose : HeadNot isTermChar (([] ++ ")".toList) ++ rest) := headNot_cons (by decide)
  have hstop : Fails infixComp (([] ++ ")".toList) ++ rest) := by
    apply Fails.bind
    apply fails_connector
    intro c
    apply Fails.bind
    apply fails_literal (u := []) nil_isSpace (headNot_cons (by decide))
    cases c <;> rfl
  have hhead : Parses infixComp (components [x.1.word, x.2])
      (components (words comps) ++ ([] ++ ")".toList) ++ rest) x := by
    rw [List.append_assoc]
    exact parses_infixComp x (headNot_components _ hclose)
  have hlist := parses_rep_infixComp comps hclose hstop
  rw [hchunks]
  apply (parses_literal nil_isSpace (headNot_cons (by decide))).bind
  apply (parses_atomicTerm t nil_isSpace (headNot_cons (by decide))).bind
  apply hhead.bind
  apply hlist.bind
  exact (parses_literal nil_isSpace (headNot_cons (by decide))).map rfl

/-! ## The choice between the two -/

/-- What the parser makes of an infix text: an infix term, unless its first atom starts with a
connector. -/
theorem compoundTerm_cases (t : AtomicTerm) (x : Connector × AtomicTerm)
    (comps : List (Connector × AtomicTerm)) (rest : List Char) :
    (¬ t.StartsWithConnector ∧ Parses compoundTerm (infixText t (x :: comps)).toList rest
        (.compound x.1 (t :: x.2 :: comps.map (·.2)))) ∨
      (∃ c : Connector, t.id = c.text ∧
        Parses compoundTerm (infixText t (x :: comps)).toList rest
          (.compound c (words (x :: comps)))) ∨
      ∃ (c : Connector) (a : AtomicTerm), t.StartsWithConnector ∧
        Parses compoundTerm (infixText t (x :: comps)).toList rest
          (.compound c (a :: words (x :: comps))) := by
  by_cases ht : t.StartsWithConnector
  · obtain ⟨c, hc | ⟨a, ha⟩⟩ := startsWithConnector_iff.1 ht
    · exact .inr (.inl ⟨c, hc, ((parses_taken x comps rest).1 hc).orElse_left⟩)
    · exact .inr (.inr ⟨c, a, ht, ((parses_taken x comps rest).2 a ha).orElse_left⟩)
  · refine .inl ⟨ht, ?_⟩
    have hfail : Fails prefixCompTerm ((infixText t (x :: comps)).toList ++ rest) := by
      rw [toList_infixText, List.cons_append, List.append_assoc]
      exact fails_prefixCompTerm ht _
    exact Parses.orElse_right hfail (parses_infixCompTerm t x comps rest).orElse_left

end StatementParser

/-- An infix text is read as it is meant exactly when it has one connector and its first atom does
not start with a connector, or when it has two components and its first atom is the connector. -/
theorem notations_agree_iff (t : AtomicTerm) (x : Connector × AtomicTerm)
    (comps : List (Connector × AtomicTerm)) (rest : List Char) :
    NotationsAgree t x comps rest ↔
      (∀ y ∈ comps, y.1 = x.1) ∧
        (¬ t.StartsWithConnector ∨ (comps = [] ∧ t.id = x.1.text)) := by
  have hcases := StatementParser.compoundTerm_cases t x comps rest
  constructor
  · rintro ⟨hsame, hmixed⟩
    have huniform : ∀ y ∈ comps, y.1 = x.1 := by
      by_contra h
      have hfail := hmixed h
      -- whichever production reads the text, the parser does not fail
      rcases hcases with ⟨-, hp⟩ | ⟨c, -, hp⟩ | ⟨c, a, -, hp⟩
      · exact hp.not_fails hfail
      · exact hp.not_fails hfail
      · exact hp.not_fails hfail
    refine ⟨huniform, ?_⟩
    have hmeant := (hsame huniform).1
    rcases hcases with ⟨ht, -⟩ | ⟨c, hc, hp⟩ | ⟨c, a, -, hp⟩
    · exact .inl ht
    · obtain ⟨hcon, hcomps⟩ := Term.compound.inj (hp.unique hmeant)
      -- twice as many components as meant, so there is only one after the first
      have hlen := congrArg List.length hcomps
      rw [length_words, List.length_cons, List.length_cons, List.length_cons,
        List.length_map] at hlen
      refine .inr ⟨List.eq_nil_of_length_eq_zero (by omega), ?_⟩
      rw [hc, hcon]
    · obtain ⟨-, hcomps⟩ := Term.compound.inj (hp.unique hmeant)
      have hlen := congrArg List.length hcomps
      rw [List.length_cons, length_words, List.length_cons, List.length_cons, List.length_cons,
        List.length_map] at hlen
      omega
  · rintro ⟨huniform, hfirst⟩
    refine ⟨fun _ => ⟨?_, ?_⟩, fun hmixed => absurd huniform hmixed⟩
    · rcases hfirst with ht | ⟨rfl, ht⟩
      · rcases hcases with ⟨-, hp⟩ | ⟨c, hc, -⟩ | ⟨c, a, ht', -⟩
        · exact hp
        · exact absurd ⟨c, [], by rw [hc, List.append_nil]⟩ ht
        · exact absurd ht' ht
      · have hword : t = x.1.word := AtomicTerm.eq_of_id (ht.trans x.1.id_word.symm)
        have hp := ((StatementParser.parses_taken x [] rest).1 ht).orElse_left
          (q := StatementParser.infixCompTerm <|> StatementParser.imgCompTerm1 <|>
            StatementParser.imgCompTerm2)
        rw [hword] at hp ⊢
        exact hp
    · have hlen : 2 ≤ (t :: x.2 :: comps.map (·.2)).length := by simp
      exact (StatementParser.parses_prefixCompTerm x.1 hlen StatementParser.nil_isSpace).orElse_left

/-- `(xylophone x drum)` is read as `(x ylophone x drum)`. -/
theorem not_notations_agree_xylophone :
    ¬ ∀ (t : AtomicTerm) (x : Connector × AtomicTerm) (comps : List (Connector × AtomicTerm))
      (rest : List Char), NotationsAgree t x comps rest := by
  intro h
  have hmeant := ((h (atom "xylophone") (.product, atom "drum") [] []).1 (by simp)).1
  have hread : Parses StatementParser.compoundTerm
      (infixText (atom "xylophone") [(.product, atom "drum")]).toList []
      (.compound .product [atom "ylophone", atom "x", atom "drum"]) :=
    ((StatementParser.parses_taken (.product, atom "drum") [] []).2 (atom "ylophone")
      rfl).orElse_left
  have heq := hread.unique hmeant
  revert heq
  decide

end Siebog.DNars
