import Siebog.DNars.Graph.StatementAPI
import Siebog.DNars.Base.RoundTrip

/-!
# Terms of the parser in the store

Every production that reads a compound term reads at least two components, so what the parser
produces is printed in a form that the parser reads back (`Term.Produced.printable`). The decoder of
the stored property reads it back as well, so a vertex or an edge stands for exactly the terms that
were added (`term_storage_faithful`).
-/

set_option autoImplicit false

namespace Siebog.DNars

open Siebog.Lib Peg VertexAPI EdgeAPI StatementAPI

/-- A term that the parser reads from some input. -/
def Term.Produced (t : Term) : Prop :=
  ∃ inp rest, StatementParser.term inp = some (t, rest)

namespace StatementParser

/-! ## What the productions produce -/

section Productions

variable {inp rest : List Char} {t : Term}

theorem printable_of_prefixCompTerm (h : prefixCompTerm inp = some (t, rest)) : t.Printable := by
  obtain ⟨_, _, -, h⟩ := exists_of_bind h
  obtain ⟨con, _, -, h⟩ := exists_of_bind h
  obtain ⟨a, _, -, h⟩ := exists_of_bind h
  obtain ⟨list, _, hlist, h⟩ := exists_of_bind h
  obtain ⟨_, _, -, h⟩ := exists_of_bind h
  obtain rfl := eq_of_pure h
  -- the repetition reads one component or more
  obtain ⟨b, _, -, hlist⟩ := exists_of_bind hlist
  obtain ⟨bs, _, -, hlist⟩ := exists_of_bind hlist
  obtain rfl := eq_of_pure hlist
  exact Nat.le_add_left 2 bs.length

theorem printable_of_infixCompTerm (h : infixCompTerm inp = some (t, rest)) : t.Printable := by
  obtain ⟨_, _, -, h⟩ := exists_of_bind h
  obtain ⟨a, _, -, h⟩ := exists_of_bind h
  obtain ⟨head, _, -, h⟩ := exists_of_bind h
  obtain ⟨list, _, -, h⟩ := exists_of_bind h
  obtain ⟨_, _, -, h⟩ := exists_of_bind h
  obtain rfl := eq_of_pure h
  exact Nat.succ_le_succ (Nat.succ_le_succ (Nat.zero_le _))

theorem printable_of_imgCompTerm1 (h : imgCompTerm1 inp = some (t, rest)) : t.Printable := by
  obtain ⟨_, _, -, h⟩ := exists_of_bind h
  obtain ⟨img, _, -, h⟩ := exists_of_bind h
  obtain ⟨rel, _, -, h⟩ := exists_of_bind h
  obtain ⟨_, _, -, h⟩ := exists_of_bind h
  obtain ⟨a, _, -, h⟩ := exists_of_bind h
  obtain ⟨_, _, -, h⟩ := exists_of_bind h
  obtain rfl := eq_of_pure h
  exact Nat.le_succ 2

theorem printable_of_imgCompTerm2 (h : imgCompTerm2 inp = some (t, rest)) : t.Printable := by
  obtain ⟨_, _, -, h⟩ := exists_of_bind h
  obtain ⟨img, _, -, h⟩ := exists_of_bind h
  obtain ⟨rel, _, -, h⟩ := exists_of_bind h
  obtain ⟨a, _, -, h⟩ := exists_of_bind h
  obtain ⟨_, _, -, h⟩ := exists_of_bind h
  obtain ⟨_, _, -, h⟩ := exists_of_bind h
  obtain rfl := eq_of_pure h
  exact Nat.le_succ 2

theorem printable_of_term (h : term inp = some (t, rest)) : t.Printable := by
  rcases of_orElse h with hatomic | hcompound
  · obtain ⟨a, _, -, h⟩ := exists_of_bind hatomic
    obtain rfl := eq_of_pure h
    trivial
  · rcases of_orElse hcompound with h | h
    · exact printable_of_prefixCompTerm h
    · rcases of_orElse h with h | h
      · exact printable_of_infixCompTerm h
      · rcases of_orElse h with h | h
        · exact printable_of_imgCompTerm1 h
        · exact printable_of_imgCompTerm2 h

end Productions

/-! ## What statements are made of -/

theorem produced_question : (Term.atomic .question).Produced :=
  ⟨"?".toList, [], by decide⟩

/-- The terms of a statement that was read are terms that the parser reads. -/
theorem produced_of_parse {input : String} {st : Statement} (h : parse input = some st) :
    st.subj.Produced ∧ st.pred.Produced := by
  obtain ⟨_, hstatement⟩ := exists_of_parseAll h
  rcases of_orElse hstatement with h | h
  · obtain ⟨s, _, hs, h⟩ := exists_of_bind h
    obtain ⟨_, _, -, h⟩ := exists_of_bind h
    obtain ⟨p, _, hp, h⟩ := exists_of_bind h
    obtain ⟨_, _, -, h⟩ := exists_of_bind h
    obtain ⟨_, _, -, h⟩ := exists_of_bind h
    obtain ⟨_, _, -, h⟩ := exists_of_bind h
    obtain ⟨_, _, -, h⟩ := exists_of_bind h
    obtain ⟨_, _, -, h⟩ := exists_of_bind h
    obtain rfl := eq_of_pure h
    exact ⟨⟨_, _, hs⟩, _, _, hp⟩
  · rcases of_orElse h with h | h
    · obtain ⟨_, _, -, h⟩ := exists_of_bind h
      obtain ⟨_, _, -, h⟩ := exists_of_bind h
      obtain ⟨p, _, hp, h⟩ := exists_of_bind h
      obtain rfl := eq_of_pure h
      exact ⟨produced_question, _, _, hp⟩
    · obtain ⟨s, _, hs, h⟩ := exists_of_bind h
      obtain ⟨_, _, -, h⟩ := exists_of_bind h
      obtain ⟨_, _, -, h⟩ := exists_of_bind h
      obtain rfl := eq_of_pure h
      exact ⟨⟨_, _, hs⟩, produced_question⟩

end StatementParser

theorem Term.Produced.printable {t : Term} (h : t.Produced) : t.Printable := by
  obtain ⟨inp, rest, h⟩ := h
  exact StatementParser.printable_of_term h

/-! ## What the store gives back -/

/-- The id of a term is a key for it, which the vertex's decoder and the parser read back. -/
structure Term.StoredAs (t : Term) : Prop where
  decode : decodeTerm t.id = some t
  vertex : (DNarsVertex.ofTerm t).term = t
  parse : ∀ con comps, t = .compound con comps →
    StatementParser.term t.id.toList = some (t, []) ∧ decodeTerm t.id = some t
  key : ∀ t' : Term, t'.Produced → t' ≠ t → t'.id ≠ t.id

/-- In every graph, a term is found at its own vertex, and an edge is read back as the statement
that was added. -/
structure ReadsBack (g : DNarsGraph) (st : Statement) : Prop where
  getV : ∀ t ∈ [st.subj, st.pred], ∀ v, getV g t = some v → v.term = t
  getOrAddV : ∀ t ∈ [st.subj, st.pred], ∃ v g', (getOrAddV t).run g = .ok v g' ∧ v.term = t
  addE : ∃ g', (addE st).run g = .ok () g' ∧ statements g' = statements g ++ [st]

theorem Term.Produced.storedAs {t : Term} (h : t.Produced) : t.StoredAs where
  decode := decodeTerm_id t
  vertex := DNarsVertex.term_ofTerm t
  parse con comps _ := by
    have hparses : Parses StatementParser.term ([] ++ t.id.toList) [] t :=
      StatementParser.parses_term h.printable StatementParser.nil_isSpace fun _ hc => nomatch hc
    rw [Parses, List.append_nil] at hparses
    exact ⟨hparses, decodeTerm_id t⟩
  key t' _ hne heq := hne (Term.id_injective heq)

/-- The two terms of a statement that was read are kept faithfully. -/
theorem storedAs_of_parse {input : String} {st : Statement}
    (h : StatementParser.parse input = some st) : st.subj.StoredAs ∧ st.pred.StoredAs := by
  obtain ⟨hsubj, hpred⟩ := StatementParser.produced_of_parse h
  exact ⟨hsubj.storedAs, hpred.storedAs⟩

theorem statements_insertEdge (g : DNarsGraph) (st : Statement) :
    statements (insertEdge g st) = statements g ++ [st] := by
  have hedges : (touch (touch g st.subj) st.pred).edges = g.edges := by
    rw [touch, touch]
    split_ifs <;> rfl
  rw [statements, insertEdge, Multigraph.addEdge, hedges, List.map_append, List.map_singleton,
    edgeStatement, DNarsVertex.term_ofTerm, DNarsVertex.term_ofTerm]
  rfl

theorem readsBack (g : DNarsGraph) (st : Statement) : ReadsBack g st where
  getV t _ v hv := by
    rw [getV_eq] at hv
    split_ifs at hv
    cases hv
    exact DNarsVertex.term_ofTerm t
  getOrAddV t _ := ⟨_, _, getOrAddV_run g t, DNarsVertex.term_ofTerm t⟩
  addE := ⟨_, addE_run g st, statements_insertEdge g st⟩

/-- The stored id of a term is a faithful key, and the graph gives back the terms it was given. -/
theorem term_storage_faithful {t : Term} (ht : t.Produced) :
    t.StoredAs ∧ ∀ (g : DNarsGraph) (st : Statement), ReadsBack g st :=
  ⟨ht.storedAs, readsBack⟩

/-- `(x cat bird)` -/
theorem term_storage_faithful_product :
    (Term.compound .product [atom "cat", atom "bird"]).StoredAs :=
  (term_storage_faithful ⟨"(x cat bird)".toList, [], by decide⟩).1

end Siebog.DNars
