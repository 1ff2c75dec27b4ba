import Siebog.DNars.Graph.Uniqueness

/-!
# Bulk import

`DNarsImporter` loads a file of statements `(x s o) -> p` through a batch graph. It stores the same
three edges for a statement as `StatementAPI.add` does for a new one, and finds vertices by their
external identifiers, which it sets to the printed terms. It never looks for edges.

So the two graphs are the same as long as no edge is stored twice (`importer_eq_graphOf`). That is
the case exactly when no statement is repeated and no two relate `*` to a term and this term to `*`
(`bulk_import_agrees_iff`).
-/

set_option autoImplicit false

namespace Siebog.DNars

open Siebog.Lib StatementAPI
open AtomicTerm (placeholder)

/-! ## The importer -/

/-- A batch graph: a graph under construction with an external identifier for every vertex. What is
loaded is the graph itself; the identifiers only serve to find the vertices again. -/
structure BatchGraph where
  State : Type
  wrap : State
  getVertex : State → String → Option DNarsVertex
  addVertex : State → String → DNarsVertex → State
  addEdge : State → DNarsEdge → State
  graph : State → DNarsGraph
  graph_wrap : graph wrap = Multigraph.empty
  graph_addVertex : ∀ g id v, graph (addVertex g id v) = (graph g).addVertex v
  graph_addEdge : ∀ g e, graph (addEdge g e) = (graph g).addEdge e
  getVertex_wrap : ∀ id, getVertex wrap id = none
  getVertex_addVertex : ∀ g id v id',
    getVertex (addVertex g id v) id' = if id' = id then some v else getVertex g id'
  getVertex_addEdge : ∀ g e id, getVertex (addEdge g e) id = getVertex g id

/-- What a line of an imported file says: subject, predicate and object of a triple. -/
structure NTStatement where
  subject : AtomicTerm
  predicate : AtomicTerm
  object : AtomicTerm
  deriving DecidableEq

/-- `(x subject object) -> predicate (1.00,0.90)` -/
def DNarsConvert.toDNarsStatement (nt : NTStatement) : Statement :=
  ⟨.compound .product [nt.subject, nt.object], .inherit, .atomic nt.predicate,
    ⟨.val 1, .val (9 / 10)⟩⟩

namespace DNarsImporter

variable (B : BatchGraph)

/-- The vertex for a term, added with the printed term as its external identifier if need be. -/
def getVertex (g : B.State) (t : Term) : DNarsVertex × B.State :=
  match B.getVertex g t.id with
  | some v => (v, g)
  | none => (.ofTerm t, B.addVertex g t.id (.ofTerm t))

def addSt (g : B.State) (st : Statement) : B.State :=
  let (s, g) := getVertex B g st.subj
  let (p, g) := getVertex B g st.pred
  B.addEdge g ⟨s, st.copula, p, st.truth⟩

def add (g : B.State) (st : Statement) : B.State :=
  let g := addSt B g st
  match st.unpack with
  | [st1, st2] => addSt B (addSt B g st1) st2
  | _ => g

/-- The main loop over the statements of a file. -/
def main (sts : List Statement) : DNarsGraph := B.graph (sts.foldl (add B) B.wrap)

end DNarsImporter

/-- Bulk import has left the graph that `add` leaves: no lookup of an edge throws, and there are the
same vertices and the same edges, one each. -/
structure BulkAgrees (imported added : DNarsGraph) : Prop where
  lookup : ∀ st e, EdgeAPI.getE imported st ≠ .error e
  vertices : imported.vertices.Perm added.vertices
  edges : ∀ x, truthsAt imported x ≠ [] ↔ truthsAt added x ≠ []
  once : ∀ x, (truthsAt imported x).length ≤ 1 ∧ (truthsAt added x).length ≤ 1

/-! ## What the importer stores -/

namespace DNarsImporter

variable {B : BatchGraph}

/-- External identifiers find what the property `term` finds. -/
def Synced (g : B.State) : Prop := ∀ t : Term, B.getVertex g t.id = VertexAPI.getV (B.graph g) t

theorem synced_wrap : Synced B.wrap := by
  intro t
  rw [B.getVertex_wrap, B.graph_wrap]
  rfl

theorem getV_addVertex (g : DNarsGraph) (s t : Term) :
    VertexAPI.getV (g.addVertex (.ofTerm s)) t =
      if t = s then some (.ofTerm s) else VertexAPI.getV g t := by
  rw [getV_eq, getV_eq]
  by_cases hts : t = s
  · have hmem : DNarsVertex.ofTerm s ∈ (g.addVertex (.ofTerm s)).vertices :=
      List.mem_append_right _ (List.mem_singleton_self _)
    rw [if_pos hts, hts, if_pos hmem]
  · have hmem : DNarsVertex.ofTerm t ∈ (g.addVertex (.ofTerm s)).vertices ↔
        DNarsVertex.ofTerm t ∈ g.vertices := by
      simp [Multigraph.addVertex, DNarsVertex.ofTerm_inj, hts]
    rw [if_neg hts]
    simp only [hmem]

theorem getVertex_spec {g : B.State} (hg : Synced g) (t : Term) :
    (getVertex B g t).1 = .ofTerm t ∧ B.graph (getVertex B g t).2 = touch (B.graph g) t ∧
      Synced (getVertex B g t).2 := by
  have hget := (hg t).trans (getV_eq (B.graph g) t)
  by_cases hmem : DNarsVertex.ofTerm t ∈ (B.graph g).vertices
  · rw [if_pos hmem] at hget
    rw [getVertex, hget, touch, if_pos hmem]
    exact ⟨rfl, rfl, hg⟩
  · rw [if_neg hmem] at hget
    rw [getVertex, hget, touch, if_neg hmem]
    refine ⟨rfl, B.graph_addVertex g _ _, ?_⟩
    intro t'
    rw [B.getVertex_addVertex, B.graph_addVertex, getV_addVertex, hg t']
    simp only [Term.id_injective.eq_iff]

theorem addSt_eq (g : B.State) (st : Statement) :
    addSt B g st = B.addEdge (getVertex B (getVertex B g st.subj).2 st.pred).2
      ⟨(getVertex B g st.subj).1, st.copula, (getVertex B (getVertex B g st.subj).2 st.pred).1,
        st.truth⟩ := rfl

/-- One call of `addSt` inserts an edge and its endpoints. -/
theorem addSt_spec {g : B.State} (hg : Synced g) (st : Statement) :
    B.graph (addSt B g st) = insertEdge (B.graph g) st ∧ Synced (addSt B g st) := by
  obtain ⟨hs, hgs, hsynced⟩ := getVertex_spec hg st.subj
  obtain ⟨hp, hgp, hsynced'⟩ := getVertex_spec hsynced st.pred
  rw [addSt_eq]
  constructor
  · rw [B.graph_addEdge, hgp, hgs, hs, hp]
    rfl
  · intro t
    rw [B.getVertex_addEdge, B.graph_addEdge]
    exact hsynced' t

/-- `add` inserts an edge for every form of a statement that DNarsConvert has written. -/
theorem add_spec {g : B.State} (hg : Synced g) (nt : NTStatement) :
    B.graph (add B g (DNarsConvert.toDNarsStatement nt)) =
        insertAll (B.graph g) (DNarsConvert.toDNarsStatement nt).forms ∧
      Synced (add B g (DNarsConvert.toDNarsStatement nt)) := by
  obtain ⟨h, hsynced⟩ := addSt_spec hg (DNarsConvert.toDNarsStatement nt)
  obtain ⟨h1, hsynced1⟩ := addSt_spec hsynced
    (⟨.extensional, nt.predicate, nt.subject, nt.object, ⟨.val 1, .val (9 / 10)⟩⟩ :
      ImageFamily).first
  obtain ⟨h2, hsynced2⟩ := addSt_spec hsynced1
    (⟨.extensional, nt.predicate, nt.subject, nt.object, ⟨.val 1, .val (9 / 10)⟩⟩ :
      ImageFamily).second
  refine ⟨?_, hsynced2⟩
  rw [h1, h] at h2
  exact h2

/-- The edges of the imported graph, in the order of the file. -/
theorem main_eq (nts : List NTStatement) :
    main B (nts.map DNarsConvert.toDNarsStatement) =
      insertAll Multigraph.empty (nts.flatMap fun nt => (DNarsConvert.toDNarsStatement nt).forms) := by
  have hloop : ∀ (nts : List NTStatement) (g : B.State), Synced g →
      B.graph ((nts.map DNarsConvert.toDNarsStatement).foldl (add B) g) =
        insertAll (B.graph g) (nts.flatMap fun nt => (DNarsConvert.toDNarsStatement nt).forms) := by
    intro nts
    induction nts with
    | nil => exact fun g _ => rfl
    | cons nt nts ih =>
        intro g hg
        obtain ⟨hadd, hsynced⟩ := add_spec hg nt
        rw [List.map_cons, List.foldl_cons, ih _ hsynced, hadd, List.flatMap_cons, insertAll,
          insertAll, insertAll, List.foldl_append]
  rw [main, hloop nts B.wrap synced_wrap, B.graph_wrap]

end DNarsImporter

/-! ## When no edge is stored twice -/

/-- The triples that an imported statement stores. -/
def NTStatement.triples (nt : NTStatement) : List Triple :=
  relationForms .extensional nt.predicate nt.subject nt.object

/-- No statement is repeated, and none relates `*` to a term when another, or the same, relates this
term to `*`. -/
structure Distinct (nts : List NTStatement) : Prop where
  nodup : nts.Nodup
  starred : ∀ p a, ¬ (⟨a, p, placeholder⟩ ∈ nts ∧ ⟨placeholder, p, a⟩ ∈ nts)

/-- Two different statements share a triple only when they relate `*` and a term both ways. -/
theorem NTStatement.triples_meet {nt nt' : NTStatement} (hne : nt ≠ nt') {x : Triple}
    (hx : x ∈ nt.triples) (hx' : x ∈ nt'.triples) :
    ∃ p a, (nt = ⟨a, p, placeholder⟩ ∧ nt' = ⟨placeholder, p, a⟩) ∨
      (nt' = ⟨a, p, placeholder⟩ ∧ nt = ⟨placeholder, p, a⟩) := by
  rcases nt with ⟨s, p, o⟩
  rcases nt' with ⟨s', p', o'⟩
  rcases relationForms_meet hx hx' with ⟨-, hp, hs, ho⟩ | ⟨-, hp, hs, ho, hstar⟩
  · have hp : p = p' := hp
    have hs : s = s' := hs
    have ho : o = o' := ho
    subst hp hs ho
    exact absurd rfl hne
  · have hp : p = p' := hp
    have hs : s = o' := hs
    have ho : o = s' := ho
    have hstar : s = placeholder ∨ o = placeholder := hstar
    subst hp hs ho
    rcases hstar with rfl | rfl
    · exact ⟨p, o, .inr ⟨rfl, rfl⟩⟩
    · exact ⟨p, s, .inl ⟨rfl, rfl⟩⟩

/-- The second image of `(x * a) -> p` is the first image of `(x a *) -> p`. -/
theorem NTStatement.exists_shared (p a : AtomicTerm) :
    ∃ x, x ∈ NTStatement.triples ⟨a, p, placeholder⟩ ∧
      x ∈ NTStatement.triples ⟨placeholder, p, a⟩ := by
  refine ⟨(.atomic a, .inherit, .compound .extImage [p, placeholder, placeholder]), ?_, ?_⟩
  · exact List.mem_cons_of_mem _ List.mem_cons_self
  · exact List.mem_cons_of_mem _ (List.mem_cons_of_mem _ List.mem_cons_self)

theorem nodup_triples_iff (nts : List NTStatement) :
    (nts.flatMap NTStatement.triples).Nodup ↔ Distinct nts := by
  rw [List.nodup_flatMap]
  constructor
  · rintro ⟨heach, hpair⟩
    have hsymm : Std.Symm (Function.onFun List.Disjoint NTStatement.triples) :=
      ⟨fun _ _ h => List.Disjoint.symm h⟩
    refine ⟨?_, ?_⟩
    · apply hpair.imp
      rintro nt nt' hdisjoint rfl
      exact hdisjoint List.mem_cons_self List.mem_cons_self
    · rintro p a ⟨hmem, hmem'⟩
      obtain ⟨x, hx, hx'⟩ := NTStatement.exists_shared p a
      -- `(x * *) -> p` shares a triple with itself
      by_cases ha : a = placeholder
      · have hnodup := heach _ hmem
        rw [NTStatement.triples, relationForms_nodup_iff] at hnodup
        exact hnodup ⟨ha, rfl⟩
      · apply hpair.forall hmem hmem' _ hx hx'
        intro heq
        exact ha (congrArg NTStatement.subject heq)
  · rintro ⟨hnodup, hstar⟩
    constructor
    · rintro ⟨s, p, o⟩ hmem
      rw [NTStatement.triples, relationForms_nodup_iff]
      rintro ⟨hs, ho⟩
      have hs : s = placeholder := hs
      have ho : o = placeholder := ho
      subst hs ho
      exact hstar p placeholder ⟨hmem, hmem⟩
    · apply hnodup.pairwise_of_forall_ne
      intro nt hnt nt' hnt' hne x hx hx'
      obtain ⟨p, a, ⟨rfl, rfl⟩ | ⟨rfl, rfl⟩⟩ := NTStatement.triples_meet hne hx hx'
      · exact hstar p a ⟨hnt, hnt'⟩
      · exact hstar p a ⟨hnt', hnt⟩

/-! ## Agreement with `add` -/

theorem length_truthsAt_insertAll_empty (sts : List Statement) (x : Triple) :
    (truthsAt (insertAll Multigraph.empty sts) x).length = (sts.map Statement.triple).count x := by
  rw [truthsAt_insertAll, truthsAt_empty, List.nil_append, List.length_map,
    ← List.countP_eq_length_filter, List.count, List.countP_map]
  apply List.countP_congr
  intro st _
  exact decide_eq_true_iff.trans beq_iff_eq.symm

theorem map_triple_flatMap (nts : List NTStatement) :
    (nts.flatMap fun nt => (DNarsConvert.toDNarsStatement nt).forms).map Statement.triple =
      nts.flatMap NTStatement.triples := by
  rw [List.map_flatMap]
  rfl

/-- Distinct statements are all new to `add`, which then inserts what the importer inserts. -/
theorem importer_eq_graphOf (B : BatchGraph) {nts : List NTStatement} (h : Distinct nts) :
    DNarsImporter.main B (nts.map DNarsConvert.toDNarsStatement) =
      graphOf (nts.map DNarsConvert.toDNarsStatement) := by
  rw [← nodup_triples_iff] at h
  rw [DNarsImporter.main_eq]
  induction nts using List.reverseRecOn with
  | nil => rfl
  | append_singleton nts nt ih =>
      rw [List.flatMap_append, List.flatMap_singleton, List.nodup_append] at h
      obtain ⟨hnodup, -, hdisjoint⟩ := h
      have hgraph := ih hnodup
      have hself : (DNarsConvert.toDNarsStatement nt).triple ∈ nt.triples := List.mem_cons_self
      -- the statement has no edge yet, so `add` does not revise anything
      have hnew : truthsAt (graphOf (nts.map DNarsConvert.toDNarsStatement))
          (DNarsConvert.toDNarsStatement nt).triple = [] := by
        rw [← hgraph, ← List.length_eq_zero_iff, length_truthsAt_insertAll_empty,
          map_triple_flatMap, List.count_eq_zero]
        intro hmem
        exact hdisjoint _ hmem _ hself rfl
      have hadd := add_cases (closed_graphOf (nts.map DNarsConvert.toDNarsStatement))
        (DNarsConvert.toDNarsStatement nt)
      rw [List.map_append, List.map_singleton, graphOf_snoc, addStep, stateAfter]
      generalize (StatementAPI.add _).run _ = result at hadd ⊢
      cases hadd with
      | invalid hinvalid => cases hinvalid
      | inserted =>
          rw [← hgraph, List.flatMap_append, List.flatMap_singleton, insertAll, insertAll,
            insertAll, List.foldl_append]
      | revised u _ hu _ =>
          rw [hnew] at hu
          cases hu
      | interrupted u e done _ hu _ _ _ =>
          rw [hnew] at hu
          cases hu
      | ambiguous _ htwo =>
          rw [hnew] at htwo
          simp at htwo

/-- Bulk import leaves what `add` leaves exactly when no statement is repeated and no two relate `*`
and a term both ways. -/
theorem bulk_import_agrees_iff (B : BatchGraph) (nts : List NTStatement) :
    BulkAgrees (DNarsImporter.main B (nts.map DNarsConvert.toDNarsStatement))
        (graphOf (nts.map DNarsConvert.toDNarsStatement)) ↔ Distinct nts := by
  have hcount : ∀ x, (truthsAt (DNarsImporter.main B (nts.map DNarsConvert.toDNarsStatement))
      x).length = (nts.flatMap NTStatement.triples).count x := by
    intro x
    rw [DNarsImporter.main_eq, length_truthsAt_insertAll_empty, map_triple_flatMap]
  constructor
  · intro h
    rw [← nodup_triples_iff, List.nodup_iff_count_le_one]
    intro x
    rw [← hcount]
    exact (h.once x).1
  · intro h
    have hle : ∀ x, (truthsAt (DNarsImporter.main B (nts.map DNarsConvert.toDNarsStatement))
        x).length ≤ 1 := by
      intro x
      rw [hcount]
      exact List.nodup_iff_count_le_one.1 ((nodup_triples_iff nts).2 h) x
    have heq := importer_eq_graphOf B h
    rw [heq] at hle ⊢
    refine ⟨?_, List.Perm.refl _, fun x => Iff.rfl, fun x => ⟨hle x, hle x⟩⟩
    intro st e herr
    have hlen := hle st.triple
    rw [getE_eq (closed_graphOf _)] at herr
    -- only a second edge makes a lookup throw
    rcases htruths : truthsAt (graphOf (nts.map DNarsConvert.toDNarsStatement)) st.triple with
      _ | ⟨u, _ | ⟨v, us⟩⟩
    · rw [htruths] at herr
      cases herr
    · rw [htruths] at herr
      cases herr
    · rw [htruths] at hlen
      simp at hlen

/-- A batch graph that keeps a table of the external identifiers. -/
def BatchGraph.table : BatchGraph where
  State := DNarsGraph × (String → Option DNarsVertex)
  wrap := (Multigraph.empty, fun _ => none)
  getVertex g id := g.2 id
  addVertex g id v := (g.1.addVertex v, fun id' => if id' = id then some v else g.2 id')
  addEdge g e := (g.1.addEdge e, g.2)
  graph := Prod.fst
  graph_wrap := rfl
  graph_addVertex _ _ _ := rfl
  graph_addEdge _ _ := rfl
  getVertex_wrap _ := rfl
  getVertex_addVertex _ _ _ _ := rfl
  getVertex_addEdge _ _ _ := rfl

/-- `(x cat bird) -> eat` on two lines leaves two edges each. -/
theorem not_bulk_import_agrees_twice :
    ¬ ∀ (B : BatchGraph) (nts : List NTStatement),
      BulkAgrees (DNarsImporter.main B (nts.map DNarsConvert.toDNarsStatement))
        (graphOf (nts.map DNarsConvert.toDNarsStatement)) := by
  intro h
  let nt : NTStatement := ⟨atom "cat", atom "eat", atom "bird"⟩
  have honce := (h .table [nt, nt]).once (DNarsConvert.toDNarsStatement nt).triple
  revert honce
  decide +kernel

end Siebog.DNars
