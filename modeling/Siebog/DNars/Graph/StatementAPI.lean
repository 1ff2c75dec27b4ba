import Siebog.Lib.Run
import Siebog.DNars.Graph.Store

/-!
# Adding statements to the graph

`StatementAPI.add` keeps an edge for every form of a statement: all its images for an inheritance,
both directions for a similarity (`Statement.forms`). A new statement inserts an edge for each form,
a known one revises the truth value of its edge and stores the result on the other forms.

`add_cases` says everything an `add` can do to a closed graph. The invariants of the later modules
come from it through `truthsAt_insertAll` and `truthsAt_storeAll`, without unfolding the operations
again.
-/

set_option autoImplicit false

namespace Siebog.DNars

open Siebog.Lib VertexAPI EdgeAPI

/-- Whether a statement was new to the graph or had been there before. -/
inductive EventType where
  | added
  | updated
  deriving DecidableEq, Repr

/-- A graph event: what happened, and the printed statement. -/
structure EventPayload where
  type : EventType
  statement : String
  deriving DecidableEq, Repr

namespace StatementAPI

/-- What may be stored. Inheritance relates a product to atomic terms only, and an extensional image
is never a subject, an intensional one never a predicate. -/
def validStatement (st : Statement) : Bool :=
  match st.subj, st.copula, st.pred with
  -- predicate should be an atomic term
  | .compound .product _, .inherit, .compound _ _ => false
  -- subject should be an atomic term
  | .compound _ _, .inherit, .compound .product _ => false
  -- extensional image on the intensional side
  | .compound .extImage _, _, _ => false
  -- intensional image on the extensional side
  | _, _, .compound .intImage _ => false
  | _, _, _ => true

/-- Gives a form the truth value. It throws when the form has no edge. -/
def setTruthValue (st : Statement) (truth : Truth) : GraphM Unit := do
  match ← query (getE · st) with
  | some e => setTruth e truth
  | none => throw (.noEdge st)

/-- The opposite of a similarity is revised with it. -/
def reviseOppositeEdge (st : Statement) (revisedTruth : Truth) : GraphM Unit :=
  setTruthValue st.opposite revisedTruth

/-- The images of a statement are revised with it. -/
def reviseImages (st : Statement) (truth : Truth) : GraphM Unit :=
  st.allImages.tail.forM (setTruthValue · truth)

/-- A statement that is held already gets a new truth value, in all its forms. -/
def reviseExistingStatement (st : Statement) (e : DNarsEdge) : GraphM Unit := do
  -- the stored truth value comes first, that of the statement second
  let revisedTruth := e.weight.revision st.truth
  setTruth e revisedTruth
  if st.copula = .similar then reviseOppositeEdge st revisedTruth
  else reviseImages st revisedTruth

/-- Adds the vertices where they are missing, and an edge between them. -/
def addE (st : Statement) : GraphM Unit := do
  let subj ← getOrAddV st.subj
  let pred ← getOrAddV st.pred
  EdgeAPI.addE subj st.copula pred st.truth

/-- Adds an edge for each form after the first. -/
def addNewImages (st : Statement) : GraphM Unit := st.allImages.tail.forM addE

/-- A statement that is not held yet is added with all its forms. -/
def addNewStatement (st : Statement) : GraphM Unit := do
  addE st
  -- only the statement itself was looked up, its other forms are inserted unseen
  if st.copula = .similar then addE st.opposite else addNewImages st

/-- Add a statement; the result is the event handed to `addEvent`, if any. -/
def add (st : Statement) : GraphM (Option EventPayload) :=
  if validStatement st then do
    match ← query (getE · st) with
    | some e =>
      reviseExistingStatement st e
      -- the event shows the truth value that was passed in, not the revised one
      return some ⟨.updated, st.id⟩
    | none =>
      addNewStatement st
      return some ⟨.added, st.id⟩
  else return none

/-- Add statements one by one; the first exception ends the loop. -/
def addSeq (sts : List Statement) : GraphM Unit := sts.forM fun st => discard (add st)

end StatementAPI

/-- The graph an operation leaves behind, also when it ends in an exception. -/
def stateAfter {α : Type} (x : GraphM α) (g : DNarsGraph) : DNarsGraph :=
  match x.run g with
  | .ok _ g' => g'
  | .error _ g' => g'

/-- One call of `add`: the graph it leaves behind. -/
def StatementAPI.addStep (g : DNarsGraph) (st : Statement) : DNarsGraph :=
  stateAfter (StatementAPI.add st) g

/-- The graphs that additions of statements with `ok` reach from the empty graph. -/
abbrev Reachable (ok : Statement → Prop) : DNarsGraph → Prop :=
  Reach StatementAPI.addStep ok Multigraph.empty

/-- The forms for which the graph keeps an edge when it holds `st`. -/
def Statement.forms (st : Statement) : List Statement :=
  if st.copula = .similar then [st, st.opposite] else st.allImages

namespace StatementAPI

/-! ## Sequencing -/

section Sequencing

variable {α β : Type} {x : GraphM α} {f : α → GraphM β} {g g' : DNarsGraph}

/-- A computation goes on after a result. -/
theorem bind_ok {a : α} (h : x.run g = .ok a g') : (x >>= f).run g = (f a).run g' := by
  rw [EStateM.run_bind, h]

/-- A computation ends with the first exception. -/
theorem bind_error {e : GraphException} (h : x.run g = .error e g') :
    (x >>= f).run g = .error e g' := by
  rw [EStateM.run_bind, h]

/-- A result that is not used. -/
theorem discard_ok {a : α} (h : x.run g = .ok a g') : (discard x).run g = .ok () g' := by
  have hunfold : (discard x).run g = (x >>= fun _ => pure ()).run g := rfl
  rw [hunfold, bind_ok h]
  rfl

/-- An exception is not discarded. -/
theorem discard_error {e : GraphException} (h : x.run g = .error e g') :
    (discard x).run g = .error e g' := by
  have hunfold : (discard x).run g = (x >>= fun _ => pure ()).run g := rfl
  rw [hunfold, bind_error h]

/-- A query leaves the graph alone. -/
theorem query_ok {f : DNarsGraph → Except GraphException α} {a : α} (h : f g = .ok a) :
    (query f).run g = .ok a g := by
  rw [EStateM.run, query, h]

/-- A query that fails leaves the graph alone. -/
theorem query_error {f : DNarsGraph → Except GraphException α} {e : GraphException}
    (h : f g = .error e) : (query f).run g = .error e g := by
  rw [EStateM.run, query, h]

end Sequencing

/-! ## Insertion -/

/-- The graph with a vertex for `t`. -/
def touch (g : DNarsGraph) (t : Term) : DNarsGraph :=
  if DNarsVertex.ofTerm t ∈ g.vertices then g else g.addVertex (.ofTerm t)

/-- The graph with one more edge for `st`, and its endpoints. -/
def insertEdge (g : DNarsGraph) (st : Statement) : DNarsGraph :=
  (touch (touch g st.subj) st.pred).addEdge
    ⟨.ofTerm st.subj, st.copula, .ofTerm st.pred, st.truth⟩

/-- The graph with an edge for each statement of a list. -/
def insertAll (g : DNarsGraph) (sts : List Statement) : DNarsGraph := sts.foldl insertEdge g

/-- Looking a vertex up, or adding it, never fails. -/
theorem getOrAddV_run (g : DNarsGraph) (t : Term) :
    (getOrAddV t).run g = .ok (.ofTerm t) (touch g t) := by
  have hget : (get : GraphM DNarsGraph).run g = .ok g g := rfl
  rw [getOrAddV, bind_ok hget, getV_eq, touch]
  split_ifs <;> rfl

/-- Adding an edge never fails. -/
theorem addE_run (g : DNarsGraph) (st : Statement) :
    (addE st).run g = .ok () (insertEdge g st) := by
  rw [addE, bind_ok (getOrAddV_run g st.subj), bind_ok (getOrAddV_run _ st.pred)]
  rfl

/-- Adding edges one after another never fails. -/
theorem forM_addE_run (sts : List Statement) (g : DNarsGraph) :
    (sts.forM addE).run g = .ok () (insertAll g sts) := by
  induction sts generalizing g with
  | nil => rfl
  | cons st sts ih =>
      show (addE st >>= fun _ => sts.forM addE).run g = _
      rw [bind_ok (addE_run g st), ih]
      rfl

/-- The forms of a statement start with the statement itself. -/
theorem forms_eq_cons (st : Statement) :
    st.forms = st :: if st.copula = .similar then [st.opposite] else st.allImages.tail := by
  rw [Statement.forms]
  split <;> rfl

/-- A new statement inserts one edge for each of its forms. -/
theorem addNewStatement_run (g : DNarsGraph) (st : Statement) :
    (addNewStatement st).run g = .ok () (insertAll g st.forms) := by
  rw [insertAll, addNewStatement, bind_ok (addE_run g st), forms_eq_cons, List.foldl_cons]
  split
  · rw [addE_run]
    rfl
  · exact forM_addE_run _ _

/-- Touching a term adds its vertex and no other. -/
theorem mem_vertices_touch {g : DNarsGraph} {t : Term} {v : DNarsVertex} :
    v ∈ (touch g t).vertices ↔ v ∈ g.vertices ∨ v = .ofTerm t := by
  rw [touch]
  split_ifs with h
  · constructor
    · exact Or.inl
    · rintro (hv | rfl)
      · exact hv
      · exact h
  · simp [Multigraph.addVertex]

/-- Touching a term keeps the vertices apart. -/
theorem nodup_vertices_touch {g : DNarsGraph} (h : g.vertices.Nodup) (t : Term) :
    (touch g t).vertices.Nodup := by
  rw [touch]
  split_ifs with hmem
  · exact h
  · exact List.nodup_append.2 ⟨h, List.nodup_singleton _, by
      intro v hv w hw
      rw [List.mem_singleton.1 hw]
      exact ne_of_mem_of_not_mem hv hmem⟩

/-- Touching a term keeps every edge between vertices of the graph. -/
theorem closed_touch {g : DNarsGraph} (hg : g.Closed) (t : Term) : (touch g t).Closed := by
  rw [touch]
  split_ifs
  · exact hg
  · exact hg.addVertex _

/-- Touching a term changes no edge. -/
theorem weightsAt_touch (g : DNarsGraph) (t : Term) (k : DNarsVertex × Copula × DNarsVertex) :
    (touch g t).weightsAt k = g.weightsAt k := by
  rw [touch]
  split_ifs <;> rfl

/-- An edge is inserted between vertices of the graph. -/
theorem closed_insertEdge {g : DNarsGraph} (hg : g.Closed) (st : Statement) :
    (insertEdge g st).Closed := by
  apply (closed_touch (closed_touch hg st.subj) st.pred).addEdge
  · exact mem_vertices_touch.2 (Or.inl (mem_vertices_touch.2 (Or.inr rfl)))
  · exact mem_vertices_touch.2 (Or.inr rfl)

/-- An inserted edge adds its truth where it stands and nowhere else. -/
theorem truthsAt_insertEdge (g : DNarsGraph) (st : Statement) (x : Triple) :
    truthsAt (insertEdge g st) x =
      truthsAt g x ++ if st.triple = x then [st.truth] else [] := by
  rw [truthsAt, insertEdge, Multigraph.weightsAt_addEdge, weightsAt_touch, weightsAt_touch]
  have hkey : (Edge.key ⟨.ofTerm st.subj, st.copula, .ofTerm st.pred, st.truth⟩ = x.key) ↔
      st.triple = x := Triple.key_inj (x := st.triple)
  simp only [hkey]
  rfl

/-- The vertices after an insertion are the ones before and the two ends. -/
theorem mem_vertices_insertEdge {g : DNarsGraph} {st : Statement} {v : DNarsVertex} :
    v ∈ (insertEdge g st).vertices ↔
      v ∈ g.vertices ∨ v = .ofTerm st.subj ∨ v = .ofTerm st.pred := by
  show v ∈ (touch (touch g st.subj) st.pred).vertices ↔ _
  rw [mem_vertices_touch, mem_vertices_touch, or_assoc]

/-- Edges are inserted between vertices of the graph. -/
theorem closed_insertAll {g : DNarsGraph} (hg : g.Closed) (sts : List Statement) :
    (insertAll g sts).Closed := by
  induction sts generalizing g with
  | nil => exact hg
  | cons st sts ih => exact ih (closed_insertEdge hg st)

/-- Insertions keep the vertices apart. -/
theorem nodup_vertices_insertAll {g : DNarsGraph} (h : g.vertices.Nodup) (sts : List Statement) :
    (insertAll g sts).vertices.Nodup := by
  induction sts generalizing g with
  | nil => exact h
  | cons st sts ih => exact ih (nodup_vertices_touch (nodup_vertices_touch h st.subj) st.pred)

/-- The vertices after insertions are the ones before and the ends of the new edges. -/
theorem mem_vertices_insertAll {g : DNarsGraph} {sts : List Statement} {v : DNarsVertex} :
    v ∈ (insertAll g sts).vertices ↔
      v ∈ g.vertices ∨ ∃ st ∈ sts, v = .ofTerm st.subj ∨ v = .ofTerm st.pred := by
  induction sts generalizing g with
  | nil => simp [insertAll]
  | cons st sts ih =>
      rw [insertAll, List.foldl_cons, ← insertAll, ih, mem_vertices_insertEdge, or_assoc]
      simp

/-- Inserted edges add their truths where they stand, in their order. -/
theorem truthsAt_insertAll (sts : List Statement) (x : Triple) (g : DNarsGraph) :
    truthsAt (insertAll g sts) x =
      truthsAt g x ++ (sts.filter fun st => st.triple = x).map (·.truth) := by
  induction sts generalizing g with
  | nil => simp [insertAll]
  | cons st sts ih =>
      rw [insertAll, List.foldl_cons, ← insertAll, ih, truthsAt_insertEdge, List.filter_cons]
      by_cases h : st.triple = x <;> simp [h]

/-! ## Revision -/

/-- The graph with the truth value `t` stored under the triple `x`. -/
def storeTruth (t : Truth) (g : DNarsGraph) (x : Triple) : DNarsGraph := g.setWeight x.key t

/-- Setting a truth fails unless there is exactly one edge to set it on. -/
theorem setTruthValue_run {g : DNarsGraph} (hg : g.Closed) (st : Statement) (t : Truth) :
    (setTruthValue st t).run g =
      match truthsAt g st.triple with
      | [] => .error (.noEdge st) g
      | [_] => .ok () (storeTruth t g st.triple)
      | _ => .error (.multipleEdges st) g := by
  have hget := getE_eq hg st
  rw [setTruthValue]
  rcases htruths : truthsAt g st.triple with _ | ⟨u, _ | ⟨v, us⟩⟩
  · rw [htruths] at hget
    rw [bind_ok (query_ok hget)]
    rfl
  · rw [htruths] at hget
    rw [bind_ok (query_ok hget)]
    rfl
  · rw [htruths] at hget
    rw [bind_error (query_error hget)]

/-- Storing a truth keeps every edge between vertices of the graph. -/
theorem closed_storeTruth {g : DNarsGraph} (hg : g.Closed) (t : Truth) (x : Triple) :
    (storeTruth t g x).Closed :=
  hg.setWeight _ _

/-- A truth is stored at one key and nowhere else. -/
theorem truthsAt_storeTruth (g : DNarsGraph) (t : Truth) (x y : Triple) :
    truthsAt (storeTruth t g x) y =
      if y = x then (truthsAt g y).map fun _ => t else truthsAt g y := by
  rw [truthsAt, storeTruth, Multigraph.weightsAt_setWeight]
  simp only [Triple.key_inj]
  rfl

/-- Storing a truth adds no edge and removes none. -/
theorem length_truthsAt_storeTruth (g : DNarsGraph) (t : Truth) (x y : Triple) :
    (truthsAt (storeTruth t g x) y).length = (truthsAt g y).length := by
  rw [truthsAt_storeTruth]
  split
  · rw [List.length_map]
  · rfl

/-- The graph with `t` stored under every triple of `xs`. -/
def storeAll (t : Truth) (g : DNarsGraph) (xs : List Triple) : DNarsGraph :=
  xs.foldl (storeTruth t) g

/-- Storing a truth value on several statements stops at the first without exactly one edge. -/
theorem forM_setTruthValue_run (t : Truth) (sts : List Statement) :
    ∀ g : DNarsGraph, g.Closed →
      (∀ st ∈ sts, (truthsAt g st.triple).length = 1) ∧
        (sts.forM (setTruthValue · t)).run g =
          .ok () (storeAll t g (sts.map (·.triple))) ∨
      (∃ st ∈ sts, (truthsAt g st.triple).length ≠ 1) ∧
        ∃ e done, done <+: sts ∧
          (sts.forM (setTruthValue · t)).run g =
            .error e (storeAll t g (done.map (·.triple))) := by
  induction sts with
  | nil => exact fun g _ => Or.inl ⟨by simp, rfl⟩
  | cons st sts ih =>
      intro g hg
      have hrun := setTruthValue_run hg st t
      have hunfold : (st :: sts).forM (setTruthValue · t) =
          (setTruthValue st t >>= fun _ => sts.forM (setTruthValue · t)) := rfl
      rw [hunfold]
      rcases htruths : truthsAt g st.triple with _ | ⟨u, _ | ⟨v, us⟩⟩
      · rw [htruths] at hrun
        -- without an edge the loop stops here and has stored nothing
        exact Or.inr ⟨⟨st, List.mem_cons_self, by simp [htruths]⟩, .noEdge st, [],
          List.nil_prefix, bind_error hrun⟩
      · rw [htruths] at hrun
        rw [bind_ok hrun]
        -- one edge: the loop goes on in a graph with as many edges for each triple
        rcases ih _ (closed_storeTruth hg t st.triple) with ⟨hall, hok⟩ | ⟨⟨x, hx, hlen⟩, hfail⟩
        · refine Or.inl ⟨?_, hok⟩
          intro x hx
          rcases List.mem_cons.1 hx with rfl | hx
          · rw [htruths]
            rfl
          · rw [← length_truthsAt_storeTruth g t st.triple]
            exact hall x hx
        · rw [length_truthsAt_storeTruth] at hlen
          obtain ⟨e, done, hdone, herr⟩ := hfail
          refine Or.inr ⟨⟨x, List.mem_cons_of_mem _ hx, hlen⟩, e, st :: done, ?_, herr⟩
          exact (List.prefix_cons_inj st).2 hdone
      · rw [htruths] at hrun
        exact Or.inr ⟨⟨st, List.mem_cons_self, by simp [htruths]⟩, .multipleEdges st, [],
          List.nil_prefix, bind_error hrun⟩

/-- Storing truths keeps every edge between vertices of the graph. -/
theorem closed_storeAll {g : DNarsGraph} (hg : g.Closed) (t : Truth) (xs : List Triple) :
    (storeAll t g xs).Closed := by
  induction xs generalizing g with
  | nil => exact hg
  | cons x xs ih => exact ih (closed_storeTruth hg t x)

/-- A truth is stored at the keys of a list and nowhere else. -/
theorem truthsAt_storeAll (t : Truth) (xs : List Triple) (y : Triple) (g : DNarsGraph) :
    truthsAt (storeAll t g xs) y =
      if y ∈ xs then (truthsAt g y).map fun _ => t else truthsAt g y := by
  induction xs generalizing g with
  | nil => simp [storeAll]
  | cons x xs ih =>
      rw [storeAll, List.foldl_cons, ← storeAll, ih, truthsAt_storeTruth]
      by_cases hx : y = x <;> by_cases hxs : y ∈ xs <;> simp [hx, hxs]

/-- Storing truths adds no edge and removes none. -/
theorem length_truthsAt_storeAll (t : Truth) (xs : List Triple) (g : DNarsGraph) (x : Triple) :
    (truthsAt (storeAll t g xs) x).length = (truthsAt g x).length := by
  rw [truthsAt_storeAll]
  split
  · rw [List.length_map]
  · rfl

/-- Storing truths changes no vertex. -/
theorem vertices_storeAll (t : Truth) (xs : List Triple) (g : DNarsGraph) :
    (storeAll t g xs).vertices = g.vertices := by
  induction xs generalizing g with
  | nil => rfl
  | cons x xs ih => exact ih (storeTruth t g x)

/-! ## What an addition does -/

/-- Revising a statement stores the revised truth value under all its forms, or stops at the first
form that does not have exactly one edge. -/
theorem reviseExistingStatement_run {g : DNarsGraph} (hg : g.Closed) {st : Statement} {u : Truth}
    (hu : truthsAt g st.triple = [u]) :
    (∀ x ∈ st.forms, (truthsAt g x.triple).length = 1) ∧
      (reviseExistingStatement st ⟨.ofTerm st.subj, st.copula, .ofTerm st.pred, u⟩).run g =
        .ok () (storeAll (u.revision st.truth) g (st.forms.map (·.triple))) ∨
    (∃ x ∈ st.forms, (truthsAt g x.triple).length ≠ 1) ∧
      ∃ e done, done <+: st.forms.map (·.triple) ∧ st.triple ∈ done ∧
        (reviseExistingStatement st ⟨.ofTerm st.subj, st.copula, .ofTerm st.pred, u⟩).run g =
          .error e (storeAll (u.revision st.truth) g done) := by
  have hrest : (reviseExistingStatement st ⟨.ofTerm st.subj, st.copula, .ofTerm st.pred, u⟩).run g =
      ((if st.copula = .similar then [st.opposite] else st.allImages.tail).forM
        (setTruthValue · (u.revision st.truth))).run
          (storeTruth (u.revision st.truth) g st.triple) := by
    have hset : (setTruth ⟨.ofTerm st.subj, st.copula, .ofTerm st.pred, u⟩
        (u.revision st.truth)).run g = .ok () (storeTruth (u.revision st.truth) g st.triple) := rfl
    rw [reviseExistingStatement, bind_ok hset]
    split
    · exact (congrFun (bind_pure_unit (x := setTruthValue st.opposite _)) _).symm
    · rfl
  rw [hrest, forms_eq_cons]
  generalize (if st.copula = .similar then [st.opposite] else st.allImages.tail) = sts
  -- the edge itself is stored, what remains is the loop over the other forms
  rcases forM_setTruthValue_run (u.revision st.truth) sts _
      (closed_storeTruth hg (u.revision st.truth) st.triple) with
    ⟨hall, hok⟩ | ⟨⟨x, hx, hlen⟩, e, done, hdone, herr⟩
  · refine Or.inl ⟨?_, hok⟩
    intro x hx
    rcases List.mem_cons.1 hx with rfl | hx
    · rw [hu]
      rfl
    · rw [← length_truthsAt_storeTruth g (u.revision st.truth) st.triple]
      exact hall x hx
  · rw [length_truthsAt_storeTruth] at hlen
    refine Or.inr ⟨⟨x, List.mem_cons_of_mem _ hx, hlen⟩, e, st.triple :: done.map Statement.triple,
      ?_, List.mem_cons_self, herr⟩
    rw [List.map_cons, List.prefix_cons_inj]
    exact hdone.map _

/-- What adding a statement to a closed graph can do. -/
inductive Added (g : DNarsGraph) (st : Statement) :
    EStateM.Result GraphException DNarsGraph (Option EventPayload) → Prop
  /-- An invalid statement is skipped. -/
  | invalid : validStatement st = false → Added g st (.ok none g)
  /-- A new statement gets an edge for each form. -/
  | inserted : validStatement st = true → truthsAt g st.triple = [] →
      Added g st (.ok (some ⟨.added, st.id⟩) (insertAll g st.forms))
  /-- A known statement is revised under each form. -/
  | revised (u : Truth) : validStatement st = true → truthsAt g st.triple = [u] →
      (∀ x ∈ st.forms, (truthsAt g x.triple).length = 1) →
      Added g st (.ok (some ⟨.updated, st.id⟩)
        (storeAll (u.revision st.truth) g (st.forms.map (·.triple))))
  /-- A form without exactly one edge stops the revision half way. -/
  | interrupted (u : Truth) (e : GraphException) (done : List Triple) : validStatement st = true →
      truthsAt g st.triple = [u] → (∃ x ∈ st.forms, (truthsAt g x.triple).length ≠ 1) →
      done <+: st.forms.map (·.triple) → st.triple ∈ done →
      Added g st (.error e (storeAll (u.revision st.truth) g done))
  /-- A statement with several edges is rejected. -/
  | ambiguous : validStatement st = true → 2 ≤ (truthsAt g st.triple).length →
      Added g st (.error (.multipleEdges st) g)

/-- Adding a statement does one of the things that `Added` lists. -/
theorem add_cases {g : DNarsGraph} (hg : g.Closed) (st : Statement) :
    Added g st ((add st).run g) := by
  have hget := getE_eq hg st
  rw [add]
  by_cases hvalid : validStatement st = true
  · rw [if_pos hvalid]
    rcases htruths : truthsAt g st.triple with _ | ⟨u, _ | ⟨v, us⟩⟩
    · rw [htruths] at hget
      rw [bind_ok (query_ok hget), bind_ok (addNewStatement_run g st)]
      exact .inserted hvalid htruths
    · rw [htruths] at hget
      rw [bind_ok (query_ok hget)]
      rcases reviseExistingStatement_run hg htruths with ⟨hall, hok⟩ | ⟨hex, e, done, hdone, hself, herr⟩
      · rw [bind_ok hok]
        exact .revised u hvalid htruths hall
      · rw [bind_error herr]
        exact .interrupted u e done hvalid htruths hex hdone hself
    · rw [htruths] at hget
      rw [bind_error (query_error hget)]
      exact .ambiguous hvalid (by rw [htruths]; simp)
  · rw [if_neg hvalid]
    exact .invalid (Bool.eq_false_iff.2 hvalid)

/-- No addition leaves an edge without its vertices. -/
theorem closed_addStep {g : DNarsGraph} (hg : g.Closed) (st : Statement) :
    (addStep g st).Closed := by
  have hadd := add_cases hg st
  rw [addStep, stateAfter]
  generalize (add st).run g = result at hadd ⊢
  cases hadd with
  | invalid => exact hg
  | inserted => exact closed_insertAll hg _
  | revised => exact closed_storeAll hg _ _
  | interrupted => exact closed_storeAll hg _ _
  | ambiguous => exact hg

/-- In a reachable graph every edge is between vertices of the graph. -/
theorem closed_of_reachable {ok : Statement → Prop} {g : DNarsGraph} (h : Reachable ok g) :
    g.Closed :=
  h.invariant Multigraph.closed_empty fun _ st hg _ => closed_addStep hg st

/-! ## Sequences of additions -/

/-- The graph after an addition that raises no exception. -/
def addNext (g : DNarsGraph) (st : Statement) : Option DNarsGraph :=
  match (add st).run g with
  | .ok _ g' => some g'
  | .error _ _ => none

/-- A step that is a transition is the one that `addStep` makes. -/
theorem addStep_eq_of_addNext {g g' : DNarsGraph} {st : Statement} (h : addNext g st = some g') :
    addStep g st = g' := by
  rw [addNext] at h
  rw [addStep, stateAfter]
  generalize (add st).run g = result at h ⊢
  cases result with
  | ok r g'' => exact Option.some.inj h
  | error e g'' => cases h

theorem addSeq_cons (st : Statement) (sts : List Statement) :
    addSeq (st :: sts) = (discard (add st) >>= fun _ => addSeq sts) := rfl

/-- An exception ends the sequence and leaves what the last addition has done. -/
theorem stateAfter_addSeq_cons (g : DNarsGraph) (st : Statement) (sts : List Statement) :
    stateAfter (addSeq (st :: sts)) g =
      match addNext g st with
      | some g' => stateAfter (addSeq sts) g'
      | none => addStep g st := by
  rw [stateAfter, addSeq_cons, addNext, addStep, stateAfter]
  cases hrun : (add st).run g with
  | ok r g' =>
      rw [bind_ok (discard_ok hrun)]
      rfl
  | error e g' => rw [bind_error (discard_error hrun)]

/-- A property that every addition keeps holds after a sequence of additions. -/
theorem addSeq_induction {Inv : DNarsGraph → Prop} {ok : Statement → Prop}
    (hstep : ∀ g st, Inv g → ok st → Inv (addStep g st)) (sts : List Statement) :
    ∀ g, Inv g → (∀ st ∈ sts, ok st) → Inv (stateAfter (addSeq sts) g) := by
  induction sts with
  | nil => exact fun g hg _ => hg
  | cons st sts ih =>
      intro g hg hsts
      have hnext : Inv (addStep g st) := hstep g st hg (hsts st List.mem_cons_self)
      rw [stateAfter_addSeq_cons]
      cases hadd : addNext g st with
      -- the exception ends the sequence in the state of this addition
      | none => exact hnext
      | some g' =>
          rw [addStep_eq_of_addNext hadd] at hnext
          exact ih g' hnext fun x hx => hsts x (List.mem_cons_of_mem _ hx)

/-- Sequences of additions reach no other graphs than single additions. -/
theorem reachable_addSeq {ok : Statement → Prop} {g : DNarsGraph} (h : Reachable ok g)
    {sts : List Statement} (hsts : ∀ st ∈ sts, ok st) :
    Reachable ok (stateAfter (addSeq sts) g) :=
  addSeq_induction (fun _ _ hg hst => .step hg hst) sts g h hsts

end StatementAPI

/-- The graph left behind by adding statements one by one to an empty graph. -/
def graphOf (sts : List Statement) : DNarsGraph := run StatementAPI.addStep Multigraph.empty sts

/-- The graph of statements grows by the last one. -/
theorem graphOf_snoc (sts : List Statement) (st : Statement) :
    graphOf (sts ++ [st]) = StatementAPI.addStep (graphOf sts) st :=
  run_snoc _ _ _ _

/-- The graph of any statements is reachable. -/
theorem reachable_graphOf (sts : List Statement) : Reachable (fun _ => True) (graphOf sts) :=
  reach_run .init sts fun _ _ => trivial

/-- In the graph of any statements every edge is between vertices of the graph. -/
theorem closed_graphOf (sts : List Statement) : (graphOf sts).Closed :=
  StatementAPI.closed_of_reachable (reachable_graphOf sts)

end Siebog.DNars
