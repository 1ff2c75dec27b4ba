import Siebog.DNars.Inference.Validity

/-!
# Two enumerations of the knowledge base

`getAll` keeps the edges that cannot be packed, `forEachStatement` packs every edge and puts the
results into a set, whose equality compares truth values by their hundredths. On a graph that holds
every form of a relation once, with one truth value, both give the product form of a relation with
images and every other edge as it is.

`enumerations_agree` says so of every graph that calls of `add` and `include` reach.
-/

set_option autoImplicit false

namespace Siebog.DNars

open Siebog.Lib StatementAPI
open AtomicTerm (placeholder)

section Model

/-- `(d * 100).toInt`: the fraction is dropped, and the result stays in the range of an `Int`. -/
def hundredthsInt : Num ℚ → ℤ
  | .val d =>
    let whole := if 0 ≤ d then (d * 100).floor else (d * 100).ceil
    max (-2 ^ 31) (min (2 ^ 31 - 1) whole)
  | .nan => 0

def Truth.equals (t that : Truth) : Bool :=
  hundredthsInt t.freq == hundredthsInt that.freq && hundredthsInt t.conf == hundredthsInt that.conf

/-- Equality of the case class. -/
def Statement.equals (st that : Statement) : Bool :=
  st.subj == that.subj && st.copula == that.copula && st.pred == that.pred &&
    st.truth.equals that.truth

/-- A set takes the first of equal elements. -/
def toSet (sts : List Statement) : List Statement :=
  sts.foldl (fun set st => if set.any st.equals then set else set ++ [st]) []

/-- The packed version of a statement; `none` is the error for an image with other than two
results. -/
def packedVersion (st : Statement) : Option Statement :=
  match st.pack with
  | [] => some st
  | [h, _] => some h
  | _ => none

namespace DNarsGraph

/-- All statements in the graph. -/
def getAll (g : DNarsGraph) : List Statement := (statements g).filter fun st => st.pack.isEmpty

/-- What is passed to the callback. -/
def forEachStatement (g : DNarsGraph) : Option (List Statement) :=
  ((statements g).mapM packedVersion).map toSet

end DNarsGraph

end Model

/-! ## Sets of statements -/

section Sets

variable {sts : List Statement}

/-- A statement equals itself. -/
theorem Statement.equals_self (st : Statement) : st.equals st = true := by
  simp [Statement.equals, Truth.equals]

/-- Equal statements have one triple. -/
theorem Statement.triple_eq_of_equals {st that : Statement} (h : st.equals that = true) :
    st.triple = that.triple := by
  simp only [Statement.equals, Bool.and_eq_true, beq_iff_eq] at h
  obtain ⟨⟨⟨hsubj, hcopula⟩, hpred⟩, -⟩ := h
  rw [Statement.triple, Statement.triple, hsubj, hcopula, hpred]

/-- A statement enters the set unless an equal one is in it. -/
theorem toSet_snoc (sts : List Statement) (st : Statement) :
    toSet (sts ++ [st]) =
      if (toSet sts).any st.equals then toSet sts else toSet sts ++ [st] := by
  rw [toSet, List.foldl_concat]
  rfl

/-- When only the same statements count as equal, the set has each statement once. -/
theorem nodup_toSet (h : ∀ a ∈ sts, ∀ b ∈ sts, a.equals b = true → a = b) :
    (toSet sts).Nodup ∧ ∀ x, x ∈ toSet sts ↔ x ∈ sts := by
  induction sts using List.reverseRecOn with
  | nil => exact ⟨List.nodup_nil, fun _ => Iff.rfl⟩
  | append_singleton sts st ih =>
      obtain ⟨hnodup, hmem⟩ := ih fun a ha b hb =>
        h a (List.mem_append_left _ ha) b (List.mem_append_left _ hb)
      -- equal statements are the same one, so that the set has it already
      have hany : (toSet sts).any st.equals = true ↔ st ∈ sts := by
        rw [List.any_eq_true]
        constructor
        · rintro ⟨x, hx, heq⟩
          have hxs := (hmem x).1 hx
          have hsame : st = x := h st List.mem_concat_self x (List.mem_append_left _ hxs) heq
          exact hsame ▸ hxs
        · intro hst
          exact ⟨st, (hmem st).2 hst, st.equals_self⟩
      rw [toSet_snoc]
      split_ifs with hold
      · refine ⟨hnodup, fun x => ?_⟩
        rw [hmem, List.mem_append, List.mem_singleton]
        refine ⟨Or.inl, ?_⟩
        rintro (hx | rfl)
        · exact hx
        · exact hany.1 hold
      · have hnew : st ∉ toSet sts := fun hst => hold (hany.2 ((hmem st).1 hst))
        refine ⟨?_, fun x => by rw [List.mem_append, List.mem_append, hmem]⟩
        rw [List.nodup_append]
        refine ⟨hnodup, List.nodup_singleton st, fun a ha b hb => ?_⟩
        rw [List.mem_singleton.1 hb]
        exact ne_of_mem_of_not_mem ha hnew

end Sets

/-! ## Reachable graphs -/

/-- A valid statement with proper placeholders, and no `a ~ a`. -/
structure Regular (st : Statement) : Prop where
  valid : validStatement st = true
  proper : st.PlaceholderOnly
  distinct : st.copula = .similar → st.subj ≠ st.pred

/-- The graphs that calls with regular statements reach. -/
abbrev CallReachable : DNarsGraph → Prop :=
  Reach (fun g (call : Call) => stateAfter call.exec g)
    (fun call => ∀ st ∈ call.inputs, Regular st) Multigraph.empty

/-- What the additions of a reachable graph have in common, the derived ones included. -/
def NoSelf (st : Statement) : Prop :=
  st.PlaceholderOnly ∧ (st.copula = .similar → st.subj ≠ st.pred)

/-- In a graph closed under forms `*` is only a placeholder. -/
theorem mem_statements_proper {g : DNarsGraph} (hg : FormClosed g) {st : Statement}
    (hst : st ∈ statements g) : st.PlaceholderOnly :=
  hg.proper st.triple (List.ne_nil_of_mem (mem_statements.1 hst))

/-- The table relates terms of its two premises, never a term to itself. -/
theorem Derives.noSelf {e j c : Statement} (h : Derives e j c) (he : e.PlaceholderOnly)
    (hj : j.PlaceholderOnly) : NoSelf c := by
  refine ⟨?_, fun _ => h.distinct⟩
  cases h.syllogism with
  | deduction => exact ⟨hj.1, he.2⟩
  | analogy => exact ⟨hj.1, he.2⟩
  | induction => exact ⟨hj.2, he.2⟩
  | comparisonOut => exact ⟨hj.2, he.2⟩
  | analogyInvPred => exact ⟨hj.1, he.2⟩
  | resemblance => exact ⟨hj.1, he.2⟩
  | analogyInvSubj => exact ⟨he.2, hj.2⟩
  | abduction => exact ⟨hj.1, he.1⟩
  | comparisonIn => exact ⟨hj.1, he.1⟩
  | analogySubj => exact ⟨he.1, hj.1⟩

/-- No conclusion from a regular input is about one term twice. -/
theorem noSelf_of_conclusions {g : DNarsGraph} (hg : FormClosed g) {input : List Statement}
    (hinput : ∀ st ∈ input, Regular st) : ∀ c ∈ conclusions g input, NoSelf c := by
  intro c hc
  obtain ⟨i, hi, j, hj, e, he, hderives⟩ := (mem_conclusions_iff_of_closed hg.closed).1 hc
  have hproper := Statement.placeholderOnly_of_mem_allImages (hinput i hi).proper hj
  exact hderives.noSelf (mem_statements_proper hg he) hproper

theorem Regular.noSelf {st : Statement} (h : Regular st) : NoSelf st := ⟨h.proper, h.distinct⟩

/-- Calls reach nothing that additions do not reach. -/
theorem reachable_of_callReachable {g : DNarsGraph} (h : CallReachable g) : Reachable NoSelf g := by
  induction h with
  | init => exact .init
  | @step g call _ hinputs ih =>
      have hclosed : FormClosed g := formClosed_of_reachable (ih.mono fun _ hst => hst.1)
      cases call with
      | add st =>
          rw [stateAfter_add]
          exact .step ih (hinputs st List.mem_cons_self).noSelf
      | includeInput input =>
          refine reachable_addSeq ih fun st hst => ?_
          rcases List.mem_append.1 hst with hin | hconcl
          · exact (hinputs st hin).noSelf
          · exact noSelf_of_conclusions hclosed hinputs st hconcl

/-- Every form of a relation is stored once, with one truth value, and no term is similar to
itself. -/
structure OneEdgeEach (g : DNarsGraph) : Prop where
  forms : FormClosed g
  irreflexive : ∀ x : Triple, truthsAt g x ≠ [] → ¬ x.SelfSimilar

/-- No triple has two edges. -/
theorem OneEdgeEach.length_le_one {g : DNarsGraph} (hg : OneEdgeEach g) (x : Triple) :
    (truthsAt g x).length ≤ 1 := by
  by_cases hx : truthsAt g x = []
  · rw [hx]
    exact Nat.zero_le 1
  · exact hg.forms.single x (hg.irreflexive x hx)

/-- A reachable graph has no statement of a term's similarity to itself. -/
theorem irreflexive_of_reachable {g : DNarsGraph} (h : Reachable NoSelf g) :
    g.Closed ∧ ∀ x : Triple, truthsAt g x ≠ [] → ¬ x.SelfSimilar := by
  apply h.invariant
  · exact ⟨Multigraph.closed_empty, fun x hx => absurd (truthsAt_empty x) hx⟩
  rintro g st ⟨hclosed, hirr⟩ ⟨hproper, hdistinct⟩
  refine ⟨closed_addStep hclosed st, fun x hx hself => ?_⟩
  rcases (truthsAt_addStep_ne_nil_iff hclosed st x).1 hx with hold | ⟨-, -, hform⟩
  · exact hirr x hold hself
  · -- the forms of `a ~ a` are that statement only
    have hperm := Triple.forms_perm (x := st.triple) hproper hform
    have hmem : st.triple ∈ x.forms := hperm.mem_iff.2 st.triple.mem_forms_self
    rw [Triple.forms_of_selfSimilar hself, List.mem_pair, or_self] at hmem
    rw [← hmem] at hself
    exact hdistinct hself.1 hself.2

/-- However the calls are made, no triple has two edges. -/
theorem oneEdgeEach_of_callReachable {g : DNarsGraph} (h : CallReachable g) : OneEdgeEach g := by
  have hreach := reachable_of_callReachable h
  exact ⟨formClosed_of_reachable (hreach.mono fun _ hst => hst.1),
    (irreflexive_of_reachable hreach).2⟩

/-! ## The two enumerations -/

/-- A statement has images: it is a product form or one of its images. -/
def Statement.HasImages (st : Statement) : Prop := ¬ (st.pack = [] ∧ st.unpack = [])

/-- The packed version of a statement. -/
def Statement.packed (st : Statement) : Statement := st.pack.headD st

/-- A statement is packed into itself, or into the product form of a family that it belongs to. -/
theorem Statement.packed_cases (st : Statement) :
    (st.pack = [] ∧ st.packed = st) ∨
      ∃ F : ImageFamily, st ∈ F.forms ∧ st.allImages.Perm F.forms ∧ st.packed = F.packed := by
  rcases pack_cases st with hpack | ⟨F, rfl | ⟨rfl, ha⟩⟩
  · exact Or.inl ⟨hpack, by rw [packed, hpack]; rfl⟩
  · refine Or.inr ⟨F, by simp [ImageFamily.forms], ?_, by rw [packed, F.pack_first]; rfl⟩
    rw [ImageFamily.allImages_first]
    exact List.Perm.swap _ _ _
  · refine Or.inr ⟨F, by simp [ImageFamily.forms], ?_,
      by rw [packed, ImageFamily.pack_second ha]; rfl⟩
    rw [ImageFamily.allImages_second ha]
    exact F.second_perm

/-- An image has exactly two results, so packing never fails. -/
theorem packedVersion_eq (st : Statement) : packedVersion st = some st.packed := by
  rcases Statement.pack_cases st with hpack | ⟨F, rfl | ⟨rfl, ha⟩⟩
  · rw [packedVersion, Statement.packed, hpack]
    rfl
  · rw [packedVersion, Statement.packed, F.pack_first]
    rfl
  · rw [packedVersion, Statement.packed, ImageFamily.pack_second ha]
    rfl

/-- Edges are told apart by their statements. -/
theorem edgeStatement_injective : Function.Injective edgeStatement := by
  intro e e' h
  have hkey : e.key = e'.key := by
    rw [← key_edgeStatement, h, key_edgeStatement]
  have hweight : e.weight = e'.weight := congrArg Statement.truth h
  obtain ⟨out, label, inn, weight⟩ := e
  obtain ⟨out', label', inn', weight'⟩ := e'
  simp only [Edge.key, Prod.mk.injEq] at hkey hweight
  obtain ⟨rfl, rfl, rfl⟩ := hkey
  rw [hweight]

section Enumerations

variable {g : DNarsGraph}

/-- The query returns the statements that cannot be packed. -/
theorem mem_getAll {st : Statement} :
    st ∈ g.getAll ↔ st ∈ statements g ∧ st.pack = [] := by
  rw [DNarsGraph.getAll, List.mem_filter, List.isEmpty_iff]

/-- The loop visits the packed forms of all statements, each once. -/
theorem forEachStatement_eq (g : DNarsGraph) :
    g.forEachStatement = some (toSet ((statements g).map Statement.packed)) := by
  have hversion : packedVersion = fun st => pure st.packed := funext packedVersion_eq
  rw [DNarsGraph.forEachStatement, hversion, List.mapM_pure]
  rfl

variable (hg : OneEdgeEach g)

include hg

/-- Two edges for the same triple are the same edge. -/
theorem OneEdgeEach.eq_of_triple_eq {st that : Statement} (hst : st ∈ statements g)
    (hthat : that ∈ statements g) (h : st.triple = that.triple) : st = that := by
  rw [mem_statements] at hst hthat
  rw [← h] at hthat
  have htruth : st.truth = that.truth := by
    have hlength := hg.length_le_one st.triple
    rcases hlist : truthsAt g st.triple with _ | ⟨t, _ | ⟨u, us⟩⟩
    · rw [hlist] at hst
      cases hst
    · rw [hlist, List.mem_singleton] at hst hthat
      rw [hst, hthat]
    · rw [hlist, List.length_cons, List.length_cons] at hlength
      omega
  obtain ⟨s, c, p, t⟩ := st
  obtain ⟨s', c', p', t'⟩ := that
  simp only [Statement.triple, Prod.mk.injEq] at h htruth
  obtain ⟨rfl, rfl, rfl⟩ := h
  rw [htruth]

/-- No statement is there twice. -/
theorem OneEdgeEach.nodup_statements : (statements g).Nodup := by
  refine List.Nodup.map edgeStatement_injective (List.nodup_iff_count_le_one.2 fun e => ?_)
  rw [Multigraph.count_edges, ← key_edgeStatement]
  exact List.count_le_length.trans (hg.length_le_one (edgeStatement e).triple)

/-- The packed version of an edge is an edge that cannot be packed. -/
theorem OneEdgeEach.packed_mem_getAll {st : Statement} (hst : st ∈ statements g) :
    st.packed ∈ g.getAll := by
  rcases st.packed_cases with ⟨hpack, hpacked⟩ | ⟨F, hmem, hperm, hpacked⟩
  · rw [hpacked]
    exact mem_getAll.2 ⟨hst, hpack⟩
  · rw [hpacked]
    refine mem_getAll.2 ⟨?_, F.pack_packed⟩
    apply hg.forms.mem_statements_of_mem_forms hst
    rw [Statement.forms_of_inherit (ImageFamily.copula_of_mem_forms hmem), hperm.mem_iff]
    exact ImageFamily.mem_forms.2 (Or.inl rfl)

/-- The set passed to the callback has the statements of `getAll`. -/
theorem OneEdgeEach.toSet_perm :
    (toSet ((statements g).map Statement.packed)).Perm g.getAll := by
  have hmem : ∀ x, x ∈ (statements g).map Statement.packed ↔ x ∈ g.getAll := by
    intro x
    rw [List.mem_map]
    constructor
    · rintro ⟨st, hst, rfl⟩
      exact hg.packed_mem_getAll hst
    · intro hx
      obtain ⟨hst, hpack⟩ := mem_getAll.1 hx
      exact ⟨x, hst, by rw [Statement.packed, hpack]; rfl⟩
  have hsame : ∀ a ∈ (statements g).map Statement.packed,
      ∀ b ∈ (statements g).map Statement.packed, a.equals b = true → a = b := by
    intro a ha b hb heq
    have ha' := (mem_getAll.1 ((hmem a).1 ha)).1
    have hb' := (mem_getAll.1 ((hmem b).1 hb)).1
    exact hg.eq_of_triple_eq ha' hb' (Statement.triple_eq_of_equals heq)
  obtain ⟨hnodup, hset⟩ := nodup_toSet hsame
  have hnodup' : g.getAll.Nodup := hg.nodup_statements.filter _
  refine (List.perm_ext_iff_of_nodup hnodup hnodup').2 fun x => ?_
  rw [hset, hmem]

/-- The query returns a statement that cannot be packed once. -/
theorem OneEdgeEach.count_getAll {st : Statement} (hst : st ∈ statements g)
    (hpack : st.pack = []) : g.getAll.count st = 1 :=
  List.count_eq_one_of_mem (hg.nodup_statements.filter _) (mem_getAll.2 ⟨hst, hpack⟩)

/-- Of the forms of a relation with images, only the product form is listed. -/
theorem OneEdgeEach.filter_getAll {st : Statement} (hst : st ∈ statements g)
    (himages : st.HasImages) :
    ∃ p ∈ st.allImages, p.unpack ≠ [] ∧ g.getAll.filter (· ∈ st.allImages) = [p] := by
  have hproper := mem_statements_proper hg.forms hst
  obtain ⟨F, hF, ha⟩ := Statement.exists_family hproper himages
  have hperm := ImageFamily.allImages_perm ha hF
  have hmem : F.packed ∈ st.allImages := hperm.mem_iff.2 (ImageFamily.mem_forms.2 (Or.inl rfl))
  have hstored : ∀ x ∈ st.allImages, x ∈ statements g := by
    intro x hx
    apply hg.forms.mem_statements_of_mem_forms hst
    rwa [Statement.forms_of_inherit (ImageFamily.copula_of_mem_forms hF)]
  refine ⟨F.packed, hmem, by rw [F.unpack_packed]; exact List.cons_ne_nil _ _, ?_⟩
  have hnodup : (g.getAll.filter (· ∈ st.allImages)).Nodup :=
    (hg.nodup_statements.filter _).filter _
  refine List.perm_singleton.1 ((List.perm_ext_iff_of_nodup hnodup (List.nodup_singleton _)).2 ?_)
  intro x
  rw [List.mem_filter, List.mem_singleton, mem_getAll, decide_eq_true_eq]
  constructor
  · rintro ⟨⟨-, hpack⟩, hx⟩
    rcases ImageFamily.mem_forms.1 (hperm.mem_iff.1 hx) with rfl | rfl | rfl
    · rfl
    · -- an image can be packed
      rw [F.pack_first] at hpack
      cases hpack
    · rw [ImageFamily.pack_second ha] at hpack
      cases hpack
  · rintro rfl
    exact ⟨⟨hstored _ hmem, F.pack_packed⟩, hmem⟩

end Enumerations

/-- Every relation of the graph is listed exactly once, and nothing else is. -/
structure OncePerRelation (g : DNarsGraph) (sts : List Statement) : Prop where
  stored : ∀ st ∈ sts, st ∈ statements g
  similar : ∀ st ∈ statements g, st.copula = .similar →
    sts.count st = 1 ∧ sts.count st.opposite = 1
  plain : ∀ st ∈ statements g, st.copula = .inherit → ¬ st.HasImages → sts.count st = 1
  product : ∀ st ∈ statements g, st.HasImages →
    ∃ p ∈ st.allImages, p.unpack ≠ [] ∧ sts.filter (· ∈ st.allImages) = [p]

/-- A similarity is not packed. -/
theorem pack_of_similar {st : Statement} (h : st.copula = .similar) : st.pack = [] := by
  rcases Statement.pack_cases st with hpack | ⟨F, rfl | ⟨rfl, -⟩⟩
  · exact hpack
  · rw [ImageFamily.copula_of_mem_forms (F := F) (by simp [ImageFamily.forms])] at h
    cases h
  · rw [ImageFamily.copula_of_mem_forms (F := F) (by simp [ImageFamily.forms])] at h
    cases h

/-- The query returns each relation once. -/
theorem OneEdgeEach.oncePerRelation {g : DNarsGraph} (hg : OneEdgeEach g) :
    OncePerRelation g g.getAll where
  stored st hst := (mem_getAll.1 hst).1
  similar st hst hc := by
    have hopposite : st.opposite ∈ statements g := by
      apply hg.forms.mem_statements_of_mem_forms hst
      rw [Statement.forms_of_similar hc]
      exact List.mem_cons_of_mem _ List.mem_cons_self
    exact ⟨hg.count_getAll hst (pack_of_similar hc),
      hg.count_getAll hopposite (pack_of_similar rfl)⟩
  plain st hst _ himages := hg.count_getAll hst (not_not.1 himages).1
  product st hst himages := hg.filter_getAll hst himages

/-- In every reachable graph the two enumerations have the same statements, each relation once. -/
theorem enumerations_agree {g : DNarsGraph} (h : CallReachable g) :
    ∃ passed, g.forEachStatement = some passed ∧ passed.Perm g.getAll ∧
      OncePerRelation g g.getAll := by
  have hg := oneEdgeEach_of_callReachable h
  exact ⟨_, forEachStatement_eq g, hg.toSet_perm, hg.oncePerRelation⟩

/-- `(x cat bird) -> eat` is listed, and none of its images. -/
theorem enumerations_agree_catBird : ∃ passed,
    (stateAfter (Call.exec (.add catBird)) Multigraph.empty).forEachStatement = some passed ∧
      passed.Perm (stateAfter (Call.exec (.add catBird)) Multigraph.empty).getAll ∧
      OncePerRelation (stateAfter (Call.exec (.add catBird)) Multigraph.empty)
        (stateAfter (Call.exec (.add catBird)) Multigraph.empty).getAll := by
  refine enumerations_agree (.step (a := Call.add catBird) .init ?_)
  intro st hst
  rw [List.mem_singleton.1 hst]
  refine ⟨rfl, by decide, fun hc => ?_⟩
  cases hc

end Siebog.DNars
