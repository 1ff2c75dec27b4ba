import Siebog.DNars.Base.Term

/-!
# Stored terms

A vertex of the graph keeps its term only as the property `term`, the printed form of the term;
reading the term back decodes that string (`DNarsVertex.term`). The codec loses nothing:
`decodeTerm_id` reads back every printed term, so two terms never share a key (`Term.id_injective`)
and vertices correspond to terms one to one (`DNarsVertex.term_ofTerm`, `DNarsVertex.ofTerm_term`).
-/

set_option autoImplicit false

namespace Siebog.DNars

/-- `str.split(" ")`: the pieces between single spaces, without trailing empty pieces. -/
def splitSpaces (cs : List Char) : List (List Char) :=
  ((cs.splitOn ' ').reverse.dropWhile List.isEmpty).reverse

/-- The connector with the given text. -/
def Connector.ofText? (s : String) : Option Connector :=
  if s = "x" then some .product
  else if s = "/" then some .extImage
  else if s = "\\" then some .intImage
  else none

/-- The decoder of the stored property: a leading parenthesis marks a compound term, whose inner
text is split at spaces into the connector and the components. -/
def decodeTerm (id : String) : Option Term :=
  match id.toList with
  | [] => none
  -- `(con t1 t2 ...)`: the closing parenthesis is dropped, the connector comes first
  | '(' :: rest =>
    match splitSpaces rest.dropLast with
    | [] => none
    | con :: comps => do
      let con ← Connector.ofText? (String.ofList con)
      let comps ← comps.mapM fun c => AtomicTerm.ofString? (String.ofList c)
      return .compound con comps
  | _ => (AtomicTerm.ofString? id).map .atomic

theorem Connector.ofText?_text (con : Connector) : ofText? con.text = some con := by
  cases con <;> decide

private theorem mapM_ofString? (comps : List AtomicTerm) :
    (comps.map (·.id.toList)).mapM (fun c => AtomicTerm.ofString? (String.ofList c)) =
      some comps := by
  induction comps with
  | nil => rfl
  | cons a comps ih =>
      rw [List.map_cons, List.mapM_cons, String.ofList_toList, AtomicTerm.ofString?_id, ih]
      rfl

theorem space_notMem_id (a : AtomicTerm) : ' ' ∉ a.id.toList := by
  intro h
  exact absurd (a.isTermChar_of_mem h) (by decide)

theorem space_notMem_text (con : Connector) : ' ' ∉ con.text.toList := by
  cases con <;> decide

/-- The inner text of a printed compound splits into its parts. -/
theorem splitSpaces_compound (con : Connector) (comps : List AtomicTerm) :
    splitSpaces (con.text.toList ++ ' ' :: [' '].intercalate (comps.map (·.id.toList))) =
      con.text.toList :: comps.map (·.id.toList) := by
  cases comps with
  | nil =>
      cases con <;> decide
  | cons a comps =>
      have hparts : con.text.toList ++ ' ' :: [' '].intercalate ((a :: comps).map (·.id.toList)) =
          [' '].intercalate (con.text.toList :: (a :: comps).map (·.id.toList)) := by
        rw [List.map_cons, List.intercalate_cons_cons]
        simp
      have hsplit : ([' '].intercalate (con.text.toList :: (a :: comps).map (·.id.toList))).splitOn
          ' ' = con.text.toList :: (a :: comps).map (·.id.toList) := by
        apply List.splitOn_intercalate
        · intro l hl
          rcases List.mem_cons.1 hl with rfl | hl
          · exact space_notMem_text con
          · obtain ⟨b, -, rfl⟩ := List.mem_map.1 hl
            exact space_notMem_id b
        · simp
      -- no piece is empty, so no trailing piece is dropped
      have hpieces : ∀ l ∈ (con.text.toList :: (a :: comps).map (·.id.toList)).reverse,
          l.isEmpty = false := by
        intro l hl
        rcases List.mem_cons.1 (List.mem_reverse.1 hl) with rfl | hl
        · cases con <;> decide
        · obtain ⟨b, -, rfl⟩ := List.mem_map.1 hl
          simpa using b.id_ne_nil
      rw [splitSpaces, hparts, hsplit]
      generalize (con.text.toList :: (a :: comps).map (·.id.toList)) = pieces at hpieces ⊢
      have hkeep : pieces.reverse.dropWhile List.isEmpty = pieces.reverse := by
        cases hrev : pieces.reverse with
        | nil => rfl
        | cons l ls =>
            have hl : l.isEmpty = false := hpieces l (by rw [hrev]; exact List.mem_cons_self)
            rw [List.dropWhile_cons, hl]
            rfl
      rw [hkeep, List.reverse_reverse]

/-- Decoding a stored term gives the term back. -/
theorem decodeTerm_id (t : Term) : decodeTerm t.id = some t := by
  cases t with
  | atomic a =>
      rw [Term.id_atomic, decodeTerm]
      have hhead : ∀ cs, a.id.toList ≠ '(' :: cs := by
        intro cs h
        have hmem : '(' ∈ a.id.toList := by rw [h]; exact List.mem_cons_self
        exact absurd (a.isTermChar_of_mem hmem) (by decide)
      split
      · rename_i h
        exact absurd h a.id_ne_nil
      · rename_i cs h
        exact absurd h (hhead cs)
      · rw [AtomicTerm.ofString?_id]
        rfl
  | compound con comps =>
      have hdrop : (con.text.toList ++ ' ' :: ([' '].intercalate (comps.map (·.id.toList)) ++
          [')'])).dropLast = con.text.toList ++ ' ' :: [' '].intercalate (comps.map (·.id.toList)) := by
        rw [← List.cons_append, ← List.append_assoc, List.dropLast_concat]
      rw [decodeTerm, Term.toList_id_compound]
      simp only [hdrop, splitSpaces_compound, String.ofList_toList, Connector.ofText?_text,
        mapM_ofString?]
      rfl

/-- Two different terms never have the same printed form. -/
theorem Term.id_injective : Function.Injective Term.id := by
  intro s t h
  have hs := decodeTerm_id s
  rw [h, decodeTerm_id t] at hs
  exact (Option.some.inj hs).symm

/-- A vertex of the graph: the stored property `term`, which is the printed form of a term. -/
structure DNarsVertex where
  id : String
  isTerm : ∃ t : Term, t.id = id
  deriving DecidableEq

namespace DNarsVertex

/-- A vertex whose property was set to `t`. -/
def ofTerm (t : Term) : DNarsVertex := ⟨t.id, t, rfl⟩

theorem decodable (v : DNarsVertex) : (decodeTerm v.id).isSome = true := by
  obtain ⟨id, t, rfl⟩ := v
  rw [decodeTerm_id]
  rfl

/-- The term of a vertex, decoded from the stored property. -/
def term (v : DNarsVertex) : Term := (decodeTerm v.id).get v.decodable

@[simp] theorem term_ofTerm (t : Term) : (ofTerm t).term = t := by
  simp only [term, ofTerm, decodeTerm_id, Option.get_some]

@[simp] theorem ofTerm_term (v : DNarsVertex) : ofTerm v.term = v := by
  obtain ⟨id, t, rfl⟩ := v
  exact congrArg ofTerm (term_ofTerm t)

theorem ofTerm_eq_iff {t : Term} {v : DNarsVertex} : ofTerm t = v ↔ t = v.term := by
  constructor
  · rintro rfl
    exact (term_ofTerm t).symm
  · rintro rfl
    exact ofTerm_term v

theorem ofTerm_inj {s t : Term} : ofTerm s = ofTerm t ↔ s = t := by
  rw [ofTerm_eq_iff, term_ofTerm]

end DNarsVertex

end Siebog.DNars
