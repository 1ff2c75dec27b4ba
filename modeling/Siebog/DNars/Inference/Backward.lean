import Siebog.DNars.Graph.Uniqueness
import Siebog.DNars.Inference.Resolution
import Siebog.DNars.Inference.Similarity

/-!
# Backward inference covers forward inference

A conclusion of a statement of the graph, asked as a question, is answered by its edge or by a route
of two syllogisms: one from the question to a derived question, one back. There is a route for each
entry of the table, usually through the premise of the judgement.

A derived question is kept only when it is valid and relates two different terms. `Uncovered` lists
the six kinds of derivation for which every route is lost that way: four need a statement `M -> M`,
two an intensional image as the middle term.
-/

set_option autoImplicit false

namespace Siebog.DNars

open Siebog.Lib StatementAPI
open AtomicTerm (placeholder)

/-! ## Validity of the statements a graph holds -/

/-- A triple with an edge had one before the addition or is a form of the added statement. -/
theorem known_of_known_addStep {g : DNarsGraph} (hg : g.Closed) {st : Statement} {x : Triple}
    (h : truthsAt (addStep g st) x ≠ []) :
    truthsAt g x ≠ [] ∨ (validStatement st = true ∧ x ∈ st.triple.forms) := by
  rw [← List.length_pos_iff] at h ⊢
  have hlen := congrFun (length_truthsAt_addStep hg st) x
  by_cases hvalid : validStatement st = true
  · rw [if_pos hvalid, occupy] at hlen
    split at hlen
    · by_cases hmem : x ∈ st.triple.forms
      · exact Or.inr ⟨hvalid, hmem⟩
      · left
        have hcount : st.triple.forms.count x = 0 := List.count_eq_zero_of_not_mem hmem
        dsimp only at hlen
        omega
    · left
      rwa [hlen] at h
  · rw [if_neg hvalid] at hlen
    left
    rwa [hlen] at h

/-- The inheritances of a reachable graph are valid statements. -/
theorem validStatement_of_held {ok : Statement → Prop} {g : DNarsGraph} (h : Reachable ok g)
    {s p : Term} {t : Truth} (hst : ⟨s, .inherit, p, t⟩ ∈ statements g) (u : Truth) :
    validStatement ⟨s, .inherit, p, u⟩ = true := by
  have hinv : g.Closed ∧ ∀ x : Triple, x.2.1 = .inherit → truthsAt g x ≠ [] →
      validStatement (x.withTruth default) = true := by
    apply h.invariant
    · exact ⟨Multigraph.closed_empty, fun x _ hx => (hx (truthsAt_empty x)).elim⟩
    · rintro g added ⟨hclosed, hvalid⟩ -
      refine ⟨closed_addStep hclosed added, ?_⟩
      intro x hx hknown
      rcases known_of_known_addStep hclosed hknown with hold | ⟨hadded, hform⟩
      · exact hvalid x hx hold
      · have hac : (added.withTruth default).copula = .inherit := by
          rw [← hx]
          exact (copula_of_triple_mem_forms hform).symm
        have hmem : x.withTruth default ∈ (added.withTruth default).forms :=
          Triple.withTruth_mem_forms hform default
        -- the other forms of a valid statement are inserted unchecked, but valid
        rw [Statement.forms_of_inherit hac] at hmem
        have hadded' : validStatement (added.withTruth default) = true := hadded
        exact validStatement_of_mem_allImages hadded' hmem
  exact hinv.2 (s, .inherit, p) rfl (List.ne_nil_of_mem (mem_statements.1 hst))

/-- Only an atomic term stands in a valid inheritance with itself. -/
theorem exists_atomic_of_self {M : Term} {t : Truth}
    (h : validStatement ⟨M, .inherit, M, t⟩ = true) : ∃ a, M = .atomic a := by
  cases M with
  | atomic a => exact ⟨a, rfl⟩
  | compound con comps => cases con <;> cases h

/-- An extensional image. -/
def Term.IsExtImage (t : Term) : Prop := ∃ comps, t = .compound .extImage comps

/-- An intensional image. -/
def Term.IsIntImage (t : Term) : Prop := ∃ comps, t = .compound .intImage comps

/-- The subject of a valid statement is no extensional image. -/
theorem not_isExtImage_subj {S P : Term} {c : Copula} {t : Truth}
    (h : validStatement ⟨S, c, P, t⟩ = true) : ¬ S.IsExtImage := by
  rintro ⟨comps, rfl⟩
  cases c <;> rcases P with b | ⟨_ | _ | _, ds⟩ <;> cases h

/-- A similarity is valid unless an image stands on the wrong side. -/
theorem validStatement_similar {S P : Term} (t : Truth) (hS : ¬ S.IsExtImage)
    (hP : ¬ P.IsIntImage) : validStatement ⟨S, .similar, P, t⟩ = true := by
  rcases S with a | ⟨_ | _ | _, cs⟩ <;> rcases P with b | ⟨_ | _ | _, ds⟩ <;>
    first
    | rfl
    | exact absurd ⟨_, rfl⟩ hS
    | exact absurd ⟨_, rfl⟩ hP

/-- A valid inheritance can be turned around unless an image comes to the wrong side. -/
theorem validStatement_swap {S M : Term} {t u : Truth}
    (h : validStatement ⟨M, .inherit, S, t⟩ = true) (hS : ¬ S.IsExtImage) (hM : ¬ M.IsIntImage) :
    validStatement ⟨S, .inherit, M, u⟩ = true := by
  rcases S with a | ⟨_ | _ | _, cs⟩ <;> rcases M with b | ⟨_ | _ | _, ds⟩ <;>
    first
    | rfl
    | exact absurd ⟨_, rfl⟩ hS
    | exact absurd ⟨_, rfl⟩ hM
    | cases h

/-! ## Routes through a derived question -/

/-- A derived question by which the question `c` is answered: it follows from the question with one
edge, and the question follows from it with another. -/
def Route (g : DNarsGraph) (c : Statement) : Prop :=
  ∃ e₁ ∈ statements g, ∃ e₂ ∈ statements g, ∃ d t,
    Derives e₁ (c.withTruth hypothetical) d ∧ Derives e₂ d (c.withTruth t)

theorem Route.intro {g : DNarsGraph} {c e₁ e₂ d : Statement} {t : Truth}
    (hne : c.subj ≠ c.pred) (hc : validStatement c = true)
    (he₁ : e₁ ∈ statements g) (h₁ : Syllogism e₁ (c.withTruth hypothetical) d)
    (hdne : d.subj ≠ d.pred) (hd : validStatement d = true)
    (he₂ : e₂ ∈ statements g) (h₂ : Syllogism e₂ d (c.withTruth t)) : Route g c :=
  ⟨e₁, he₁, e₂, he₂, d, t, ⟨h₁, hdne, hd⟩, ⟨h₂, hne, hc⟩⟩

/-- A route is found by the two rounds of forward inference. -/
theorem Route.infers {g : DNarsGraph} (hg : g.Closed) {c : Statement} (h : Route g c) :
    inferUsingForwardInference g c ≠ [] := by
  obtain ⟨e₁, he₁, e₂, he₂, d, t, h₁, h₂⟩ := h
  have hd : d ∈ conclusions g [c.withTruth hypothetical] :=
    (mem_conclusions_iff_of_closed hg).2
      ⟨_, List.mem_singleton_self _, _, Statement.mem_allImages_self _, e₁, he₁, h₁⟩
  have ha : c.withTruth t ∈ conclusions g (conclusions g [c.withTruth hypothetical]) :=
    (mem_conclusions_iff_of_closed hg).2 ⟨d, hd, _, Statement.mem_allImages_self _, e₂, he₂, h₂⟩
  exact List.ne_nil_of_mem (mem_inferUsingForwardInference.2 ⟨ha, rfl, rfl⟩)

/-- The kinds of derivation whose conclusion need not have a route: statement of the graph,
judgement, conclusion. -/
inductive Uncovered : Statement → Statement → Statement → Prop
  | comparisonOut (M P : Term) (te tj tc : Truth) :
      Uncovered ⟨M, .inherit, P, te⟩ ⟨M, .inherit, M, tj⟩ ⟨M, .similar, P, tc⟩
  | comparisonIn (M P : Term) (te tj tc : Truth) :
      Uncovered ⟨P, .inherit, M, te⟩ ⟨M, .inherit, M, tj⟩ ⟨M, .similar, P, tc⟩
  | analogyInvPred (M P : Term) (te tj tc : Truth) (hP : P.IsExtImage) :
      Uncovered ⟨M, .similar, P, te⟩ ⟨M, .inherit, M, tj⟩ ⟨M, .inherit, P, tc⟩
  | analogySubj (S M : Term) (te tj tc : Truth) (hS : S.IsExtImage) :
      Uncovered ⟨M, .inherit, M, te⟩ ⟨S, .similar, M, tj⟩ ⟨M, .inherit, S, tc⟩
  | induction (S M P : Term) (te tj tc : Truth) (hM : M.IsIntImage) :
      Uncovered ⟨M, .inherit, P, te⟩ ⟨M, .inherit, S, tj⟩ ⟨S, .inherit, P, tc⟩
  | resemblance (S M P : Term) (te tj tc : Truth) (hM : M.IsIntImage) :
      Uncovered ⟨M, .similar, P, te⟩ ⟨S, .similar, M, tj⟩ ⟨S, .similar, P, tc⟩

/-- A deduction from two different statements is covered. -/
theorem not_uncovered_deduction {S M P : Term} (hSM : S ≠ M) (te tj tc : Truth) :
    ¬ Uncovered ⟨M, .inherit, P, te⟩ ⟨S, .inherit, M, tj⟩ ⟨S, .inherit, P, tc⟩ := by
  intro h
  cases h
  exact hSM rfl

/-- `X -> M` has a route through itself where `M -> M` is held. -/
theorem route_of_self_pred {g : DNarsGraph} {M X : Term} {t u : Truth}
    (hself : ⟨M, .inherit, M, u⟩ ∈ statements g) (hne : X ≠ M)
    (hc : validStatement ⟨X, .inherit, M, t⟩ = true) : Route g ⟨X, .inherit, M, t⟩ :=
  Route.intro hne hc hself (.abduction X M M u hypothetical) hne hc hself (.deduction X M M u _)

section Routes

variable {ok : Statement → Prop} {g : DNarsGraph} (hg : Reachable ok g)
variable {S M P : Term} {te tj tc : Truth}

include hg

/-- `M -> P` has a route through `P ~ M` where `M -> M` is held. -/
theorem route_of_self_subj (hself : ⟨M, .inherit, M, tj⟩ ∈ statements g) (hne : M ≠ P)
    (hc : validStatement ⟨M, .inherit, P, tc⟩ = true) (hP : ¬ P.IsExtImage) :
    Route g ⟨M, .inherit, P, tc⟩ := by
  obtain ⟨a, rfl⟩ := exists_atomic_of_self (validStatement_of_held hg hself default)
  have hM : ¬ (Term.atomic a).IsIntImage := by
    rintro ⟨comps, hcomps⟩
    cases hcomps
  exact Route.intro hne hc hself (.comparisonOut P (.atomic a) (.atomic a) tj hypothetical) hne.symm
    (validStatement_similar _ hP hM) hself (.analogySubj P (.atomic a) (.atomic a) tj _)

theorem route_of_deduction (he : ⟨M, .inherit, P, te⟩ ∈ statements g)
    (hj : ⟨S, .inherit, M, tj⟩ ∈ statements g) (hne : S ≠ P)
    (hc : validStatement ⟨S, .inherit, P, tc⟩ = true) (hSM : S ≠ M) :
    Route g ⟨S, .inherit, P, tc⟩ :=
  Route.intro hne hc he (.abduction S P M te hypothetical) hSM
    (validStatement_of_held hg hj _) he (.deduction S M P te _)

theorem route_of_analogy (he : ⟨M, .inherit, P, te⟩ ∈ statements g)
    (hj : ⟨S, .similar, M, tj⟩ ∈ statements g) (hne : S ≠ P)
    (hc : validStatement ⟨S, .inherit, P, tc⟩ = true) : Route g ⟨S, .inherit, P, tc⟩ := by
  by_cases hMP : M = P
  · subst hMP
    exact route_of_self_pred he hne hc
  · exact Route.intro hne hc hj (.analogyInvSubj P S M tj hypothetical) hMP
      (validStatement_of_held hg he _) ((similar_comm hg S M tj).1 hj)
      (.analogyInvSubj P M S tj _)

theorem route_of_induction (he : ⟨M, .inherit, P, te⟩ ∈ statements g)
    (hj : ⟨M, .inherit, S, tj⟩ ∈ statements g) (hne : S ≠ P)
    (hc : validStatement ⟨S, .inherit, P, tc⟩ = true) (hSM : S ≠ M) (hM : ¬ M.IsIntImage) :
    Route g ⟨S, .inherit, P, tc⟩ := by
  have hvalid : validStatement ⟨M, .inherit, S, tj⟩ = true :=
    validStatement_of_held hg hj _
  exact Route.intro hne hc he (.abduction S P M te hypothetical) hSM
    (validStatement_swap hvalid (not_isExtImage_subj hc) hM) he (.deduction S M P te _)

theorem route_of_comparisonOut (he : ⟨M, .inherit, P, te⟩ ∈ statements g)
    (hj : ⟨M, .inherit, S, tj⟩ ∈ statements g) (hne : S ≠ P)
    (hc : validStatement ⟨S, .similar, P, tc⟩ = true) (hSM : S ≠ M) :
    Route g ⟨S, .similar, P, tc⟩ :=
  Route.intro hne hc he (.analogySubj S P M te hypothetical) hSM.symm
    (validStatement_of_held hg hj _) he (.comparisonOut S M P te _)

theorem route_of_analogyInvPred (he : ⟨M, .similar, P, te⟩ ∈ statements g)
    (hj : ⟨S, .inherit, M, tj⟩ ∈ statements g) (hne : S ≠ P)
    (hc : validStatement ⟨S, .inherit, P, tc⟩ = true) (hP : S = M → ¬ P.IsExtImage) :
    Route g ⟨S, .inherit, P, tc⟩ := by
  by_cases hSM : S = M
  · subst hSM
    exact route_of_self_subj hg hj hne hc (hP rfl)
  · exact Route.intro hne hc ((similar_comm hg M P te).1 he)
      (.analogyInvPred S P M te hypothetical) hSM (validStatement_of_held hg hj _) he
      (.analogyInvPred S M P te _)

theorem route_of_resemblance (he : ⟨M, .similar, P, te⟩ ∈ statements g) (hne : S ≠ P)
    (hc : validStatement ⟨S, .similar, P, tc⟩ = true) (hSM : S ≠ M) (hM : ¬ M.IsIntImage) :
    Route g ⟨S, .similar, P, tc⟩ :=
  Route.intro hne hc ((similar_comm hg M P te).1 he) (.resemblance S P M te hypothetical) hSM
    (validStatement_similar _ (not_isExtImage_subj hc) hM) he (.resemblance S M P te _)

theorem route_of_analogyInvSubj (he : ⟨M, .similar, P, te⟩ ∈ statements g)
    (hj : ⟨M, .inherit, S, tj⟩ ∈ statements g) (hne : P ≠ S)
    (hc : validStatement ⟨P, .inherit, S, tc⟩ = true) : Route g ⟨P, .inherit, S, tc⟩ := by
  by_cases hSM : M = S
  · subst hSM
    exact route_of_self_pred hj hne hc
  · exact Route.intro hne hc ((similar_comm hg M P te).1 he)
      (.analogyInvSubj S P M te hypothetical) hSM (validStatement_of_held hg hj _) he
      (.analogyInvSubj S M P te _)

theorem route_of_abduction (he : ⟨P, .inherit, M, te⟩ ∈ statements g)
    (hj : ⟨S, .inherit, M, tj⟩ ∈ statements g) (hne : S ≠ P)
    (hc : validStatement ⟨S, .inherit, P, tc⟩ = true) : Route g ⟨S, .inherit, P, tc⟩ := by
  by_cases hSM : S = M
  · subst hSM
    have hP : ¬ P.IsExtImage := not_isExtImage_subj (validStatement_of_held hg he default)
    exact route_of_self_subj hg hj hne hc hP
  · exact Route.intro hne hc he (.deduction S P M te hypothetical) hSM
      (validStatement_of_held hg hj _) he (.abduction S M P te _)

theorem route_of_comparisonIn (he : ⟨P, .inherit, M, te⟩ ∈ statements g)
    (hj : ⟨S, .inherit, M, tj⟩ ∈ statements g) (hne : S ≠ P)
    (hc : validStatement ⟨S, .similar, P, tc⟩ = true) (hSM : S ≠ M) :
    Route g ⟨S, .similar, P, tc⟩ :=
  Route.intro hne hc he (.analogy S P M te hypothetical) hSM
    (validStatement_of_held hg hj _) he (.comparisonIn S M P te _)

theorem route_of_analogySubj (he : ⟨P, .inherit, M, te⟩ ∈ statements g)
    (hj : ⟨S, .similar, M, tj⟩ ∈ statements g) (hne : P ≠ S)
    (hc : validStatement ⟨P, .inherit, S, tc⟩ = true) (hS : P = M → ¬ S.IsExtImage) :
    Route g ⟨P, .inherit, S, tc⟩ := by
  by_cases hPM : P = M
  · subst hPM
    exact route_of_self_subj hg he hne hc (hS rfl)
  · -- the judgement is read in its stored direction first, in the opposite one then
    exact Route.intro hne hc hj (.analogyInvPred P S M tj hypothetical) hPM
      (validStatement_of_held hg he _) ((similar_comm hg S M tj).1 hj)
      (.analogyInvPred P M S tj _)

/-- Outside the uncovered kinds, a conclusion from two statements of the graph is itself held or
has a route. -/
theorem known_or_route {e j c : Statement} (he : e ∈ statements g) (hj : j ∈ statements g)
    (h : Derives e j c) (hcovered : ¬ Uncovered e j c) :
    truthsAt g c.triple ≠ [] ∨ Route g c := by
  obtain ⟨hrule, hne, hc⟩ := h
  -- in the first figure and its like, `S = M` makes the conclusion the edge itself
  have hknown : c.triple = e.triple → truthsAt g c.triple ≠ [] := by
    intro htriple
    rw [htriple]
    exact List.ne_nil_of_mem (mem_statements.1 he)
  cases hrule with
  | deduction S M P te tj =>
      by_cases hSM : S = M
      · exact Or.inl (hknown (by rw [hSM]; rfl))
      · exact Or.inr (route_of_deduction hg he hj hne hc hSM)
  | analogy S M P te tj => exact Or.inr (route_of_analogy hg he hj hne hc)
  | induction S M P te tj =>
      by_cases hSM : S = M
      · exact Or.inl (hknown (by rw [hSM]; rfl))
      · have hM : ¬ M.IsIntImage := fun hM => hcovered (.induction S M P te tj _ hM)
        exact Or.inr (route_of_induction hg he hj hne hc hSM hM)
  | comparisonOut S M P te tj =>
      have hSM : S ≠ M := by
        rintro rfl
        exact hcovered (.comparisonOut S P te tj _)
      exact Or.inr (route_of_comparisonOut hg he hj hne hc hSM)
  | analogyInvPred S M P te tj =>
      have hP : S = M → ¬ P.IsExtImage := by
        rintro rfl hP
        exact hcovered (.analogyInvPred S P te tj _ hP)
      exact Or.inr (route_of_analogyInvPred hg he hj hne hc hP)
  | resemblance S M P te tj =>
      by_cases hSM : S = M
      · exact Or.inl (hknown (by rw [hSM]; rfl))
      · have hM : ¬ M.IsIntImage := fun hM => hcovered (.resemblance S M P te tj _ hM)
        exact Or.inr (route_of_resemblance hg he hne hc hSM hM)
  | analogyInvSubj S M P te tj => exact Or.inr (route_of_analogyInvSubj hg he hj hne hc)
  | abduction S M P te tj => exact Or.inr (route_of_abduction hg he hj hne hc)
  | comparisonIn S M P te tj =>
      have hSM : S ≠ M := by
        rintro rfl
        exact hcovered (.comparisonIn S P te tj _)
      exact Or.inr (route_of_comparisonIn hg he hj hne hc hSM)
  | analogySubj S M P te tj =>
      have hS : P = M → ¬ S.IsExtImage := by
        rintro rfl hS
        exact hcovered (.analogySubj S P te tj _ hS)
      exact Or.inr (route_of_analogySubj hg he hj hne hc hS)

/-- A conclusion relates terms of its premises, so the graph has a vertex for each. -/
theorem endpoints_of_derives {e j c : Statement} (he : e ∈ statements g) (hj : j ∈ statements g)
    (h : Derives e j c) :
    DNarsVertex.ofTerm c.subj ∈ g.vertices ∧ DNarsVertex.ofTerm c.pred ∈ g.vertices := by
  have hends : ∀ st ∈ statements g,
      DNarsVertex.ofTerm st.subj ∈ g.vertices ∧ DNarsVertex.ofTerm st.pred ∈ g.vertices :=
    fun st hst =>
      endpoints_of_truthsAt (closed_of_reachable hg) (List.ne_nil_of_mem (mem_statements.1 hst))
  obtain ⟨hes, hep⟩ := hends e he
  obtain ⟨hjs, hjp⟩ := hends j hj
  cases h.syllogism with
  | deduction | analogy | analogyInvPred | resemblance => exact ⟨hjs, hep⟩
  | induction | comparisonOut => exact ⟨hjp, hep⟩
  | analogyInvSubj => exact ⟨hep, hjp⟩
  | abduction | comparisonIn => exact ⟨hjs, hes⟩
  | analogySubj => exact ⟨hes, hjs⟩

end Routes

/-! ## Answers -/

/-- Backward inference without a limit returns an answer. -/
def Answered (g : DNarsGraph) (c : Statement) : Prop :=
  ∃ answers, backwardInference g c 2147483647 = .ok answers ∧ answers ≠ []

section Answers

variable {g : DNarsGraph} {c : Statement}

/-- A question is interrupted only by a form with several edges. -/
theorem exists_inferBackwards (hg : g.Closed) (hc : (truthsAt g c.triple).length ≤ 1) :
    ∃ found, inferBackwards g c = .ok found := by
  rw [inferBackwards_eq hg]
  split_ifs
  · rcases htruths : truthsAt g c.triple with _ | ⟨t, _ | ⟨u, us⟩⟩
    · exact ⟨_, rfl⟩
    · exact ⟨_, rfl⟩
    · rw [htruths] at hc
      simp at hc
  · exact ⟨_, rfl⟩

/-- A question between known terms that is held or has a route finds something. -/
theorem inferBackwards_ne_nil (hg : g.Closed)
    (hends : DNarsVertex.ofTerm c.subj ∈ g.vertices ∧ DNarsVertex.ofTerm c.pred ∈ g.vertices)
    (h : truthsAt g c.triple ≠ [] ∨ Route g c) {found : List Statement}
    (hfound : inferBackwards g c = .ok found) : found ≠ [] := by
  rw [inferBackwards_eq hg, if_pos hends] at hfound
  rcases htruths : truthsAt g c.triple with _ | ⟨t, _ | ⟨u, us⟩⟩
  · rw [htruths] at h hfound
    cases hfound
    rcases h with h | hroute
    · exact (h rfl).elim
    · exact hroute.infers hg
  · rw [htruths] at hfound
    cases hfound
    exact List.cons_ne_nil _ _
  · rw [htruths] at hfound
    cases hfound

/-- No form of a statement about two terms is a similarity of a term with itself. -/
theorem not_selfSimilar_of_mem_allImages (hne : c.subj ≠ c.pred) {x : Statement}
    (hx : x ∈ c.allImages) : ¬ x.triple.SelfSimilar := by
  rintro ⟨hxc, hself⟩
  have hcopula : x.copula = c.copula :=
    Statement.copula_of_mem_forms (Statement.mem_forms_of_mem_allImages hx)
  have hc : c.copula = .similar := hcopula.symm.trans hxc
  rw [Statement.allImages_of_similar hc, List.mem_singleton] at hx
  subst hx
  exact hne hself

theorem answered_of_inferBackwards (hok : ∀ x ∈ c.allImages, ∃ found, inferBackwards g x = .ok found)
    (hc : ∀ found, inferBackwards g c = .ok found → found ≠ []) : Answered g c := by
  obtain ⟨founds, hfounds⟩ := forall₂_exists hok
  refine ⟨founds.flatten.take (2147483647 : Int).toNat, ?_, ?_⟩
  · rw [backwardInference, mapM_ok_iff.2 hfounds]
    rfl
  · -- the question is the first of its forms, so what it finds comes first
    rw [Statement.allImages] at hfounds
    cases hfounds with
    | cons hfirst _ =>
        rw [List.flatten_cons]
        intro htake
        rcases List.take_eq_nil_iff.1 htake with hzero | hnil
        · exact absurd hzero (by decide)
        · exact hc _ hfirst (List.append_eq_nil_iff.1 hnil).1

end Answers

/-- Backward inference answers every conclusion of a statement of the graph that has a derivation
outside the uncovered kinds, from a form of the statement that the graph holds, unless several edges
for a form of the conclusion interrupt it. Where `*` has only its place in an image, the graph holds
every form and nothing interrupts. -/
theorem answered_or_uncovered {g : DNarsGraph} (hg : Reachable (fun _ => True) g) :
    (∀ j ∈ statements g, ∀ c ∈ conclusions g [j],
      (∀ x ∈ c.allImages, (truthsAt g x.triple).length ≤ 1) →
        Answered g c ∨ ∀ e ∈ statements g, ∀ j' ∈ j.allImages, j' ∈ statements g →
          Derives e j' c → Uncovered e j' c) ∧
    (Reachable Statement.PlaceholderOnly g →
      ∀ j ∈ statements g, ∀ c ∈ conclusions g [j],
        Answered g c ∨ ∀ e ∈ statements g, ∀ j' ∈ j.allImages,
          Derives e j' c → Uncovered e j' c) := by
  have hclosed := closed_of_reachable hg
  -- a way to derive `c` that is covered leads back to an answer
  have hgeneral : ∀ c, (∀ x ∈ c.allImages, (truthsAt g x.triple).length ≤ 1) →
      ∀ e ∈ statements g, ∀ j ∈ statements g, Derives e j c → ¬ Uncovered e j c → Answered g c := by
    intro c hsingle e he j hj hderives hcovered
    apply answered_of_inferBackwards
    · intro x hx
      exact exists_inferBackwards hclosed (hsingle x hx)
    · intro found
      exact inferBackwards_ne_nil hclosed (endpoints_of_derives hg he hj hderives)
        (known_or_route hg he hj hderives hcovered)
  constructor
  · intro j _ c _ hsingle
    refine or_iff_not_imp_left.2 ?_
    intro hunanswered e he j' _ hj' hderives
    by_contra hcovered
    exact hunanswered (hgeneral c hsingle e he j' hj' hderives hcovered)
  · intro hproper j hj c _
    have hforms := formClosed_of_reachable hproper
    refine or_iff_not_imp_left.2 ?_
    intro hunanswered e he j' hj' hderives
    by_contra hcovered
    -- a graph closed under forms has every form of the premise
    have hmem : j' ∈ statements g :=
      hforms.mem_statements_of_mem_forms hj (Statement.mem_forms_of_mem_allImages hj')
    have hsingle : ∀ x ∈ c.allImages, (truthsAt g x.triple).length ≤ 1 := by
      intro x hx
      exact hforms.single _ (not_selfSimilar_of_mem_allImages hderives.distinct hx)
    exact hunanswered (hgeneral c hsingle e he j' hmem hderives hcovered)

/-- `tiger -> cat (1.00,0.90)` and `cat -> animal (1.00,0.90)` -/
def tigerAnimal : List Statement := [tigerCat, catAnimal]

/-- `tiger -> cat` yields `tiger -> animal`, which is answered. -/
theorem answered_tigerAnimal :
    Answered (graphOf tigerAnimal)
      ⟨.atomic (atom "tiger"), .inherit, .atomic (atom "animal"), ⟨.val 1, .val (81 / 100)⟩⟩ := by
  have hmem : tigerCat ∈ statements (graphOf tigerAnimal) := by decide +kernel
  have hedge : catAnimal ∈ statements (graphOf tigerAnimal) := by decide +kernel
  rcases (answered_or_uncovered (reachable_graphOf tigerAnimal)).1 tigerCat hmem
      ⟨.atomic (atom "tiger"), .inherit, .atomic (atom "animal"), ⟨.val 1, .val (81 / 100)⟩⟩
      (by decide +kernel) (by decide +kernel) with hanswered | hall
  · exact hanswered
  · have htruth : catAnimal.truth.deduction tigerCat.truth = ⟨.val 1, .val (81 / 100)⟩ := by
      decide +kernel
    have hderives : Derives catAnimal tigerCat
        ⟨.atomic (atom "tiger"), .inherit, .atomic (atom "animal"), ⟨.val 1, .val (81 / 100)⟩⟩ := by
      rw [← htruth]
      exact ⟨.deduction _ _ _ _ _, by decide, by decide⟩
    exact absurd (hall _ hedge _ (Statement.mem_allImages_self _) hmem hderives)
      (not_uncovered_deduction (by decide) _ _ _)

section Unanswered

/-- The statement with the truth value of a question. -/
private def asserted (s : Term) (c : Copula) (p : Term) : Statement := ⟨s, c, p, hypothetical⟩

private def term (id : String) (wf : isTermId id = true := by exact Eq.refl true) : Term :=
  .atomic ⟨id, wf⟩

/-- `(/ dissolve * salt)` or `(\ dissolve * salt)` -/
private def dissolving (con : Connector) : Term :=
  .compound con [atom "dissolve", placeholder, atom "salt"]

/-- Statements of a graph, and one among their forms with a conclusion that has no answer: one graph
for each uncovered kind, and one with `*` on an argument position. -/
def unanswered : List (List Statement × Statement) :=
  [([asserted (term "m") .inherit (term "m"), asserted (term "m") .inherit (term "p")],
      asserted (term "m") .inherit (term "m")),
    ([asserted (term "m") .inherit (term "m"), asserted (term "p") .inherit (term "m")],
      asserted (term "m") .inherit (term "m")),
    ([asserted (term "m") .inherit (term "m"), asserted (term "m") .similar (dissolving .extImage)],
      asserted (term "m") .inherit (term "m")),
    ([asserted (term "m") .inherit (term "m"), asserted (term "m") .similar (dissolving .extImage)],
      asserted (dissolving .extImage) .similar (term "m")),
    ([asserted (dissolving .intImage) .inherit (term "water"),
        asserted (dissolving .intImage) .inherit (term "oil")],
      asserted (dissolving .intImage) .inherit (term "water")),
    ([asserted (dissolving .intImage) .similar (term "p"),
        asserted (dissolving .intImage) .similar (term "s")],
      asserted (term "s") .similar (dissolving .intImage)),
    ([asserted (.compound .product [placeholder, atom "s"]) .inherit (term "r"),
        asserted (term "r") .inherit (term "t")],
      asserted (term "s") .inherit (.compound .extImage [atom "r", placeholder, placeholder]))]

/-- In each graph of `unanswered` a conclusion has no answer, so not every conclusion of a statement
of a reachable graph has one. -/
theorem not_answered_unanswered :
    (∀ x ∈ unanswered, x.2 ∈ statements (graphOf x.1) ∧
      ∃ c ∈ conclusions (graphOf x.1) [x.2],
        backwardInference (graphOf x.1) c 2147483647 = .ok []) ∧
    ¬ ∀ g, Reachable (fun _ => True) g → ∀ j ∈ statements g, ∀ c ∈ conclusions g [j],
      Answered g c := by
  have hsamples : ∀ x ∈ unanswered, x.2 ∈ statements (graphOf x.1) ∧
      ∃ c ∈ conclusions (graphOf x.1) [x.2],
        backwardInference (graphOf x.1) c 2147483647 = .ok [] := by
    decide +kernel
  refine ⟨hsamples, ?_⟩
  intro h
  obtain ⟨hj, c, hc, hnone⟩ := hsamples _ List.mem_cons_self
  obtain ⟨answers, hrun, hne⟩ := h _ (reachable_graphOf _) _ hj c hc
  rw [hnone] at hrun
  cases hrun
  exact hne rfl

end Unanswered

end Siebog.DNars
