import Siebog.Pso.Iterations

/-!
# Where the particles search

With random numbers of `[0, 1)`, as the source's generators give them, no arithmetic of a session is
undefined: every particle stays in the box between `minX` and `maxX`, its velocity stays within
bounds, and the fitness values of the particles and of the swarm are those of the objective function
at the positions that are stored beside them (`Session.search_sound`).

`Particle.Searches` is what the steps keep of one particle, `Known` of a solution in a message or in
the swarm. The box is kept by the second clamp of an iteration alone, whatever the swarm has sent.
-/

set_option autoImplicit false

namespace Siebog.Pso

open Siebog.Lib

/-! ## Clamped numbers -/

section Clamp

variable {K : Type} [LinearOrder K]

theorem clamp_val_mem_Icc {lo hi : K} (h : lo ≤ hi) (x : K) :
    Num.In (Set.Icc lo hi) (clamp (.val lo) (.val hi) (.val x)) := by
  unfold clamp
  split
  · exact Num.in_val.2 ⟨le_refl lo, h⟩
  · next hlo =>
      split
      · exact Num.in_val.2 ⟨h, le_refl hi⟩
      · next hhi => exact Num.in_val.2 ⟨not_lt.1 hlo, not_lt.1 hhi⟩

/-- A number that is clamped between a bound and its negative does not exceed the bound, of
whatever sign it is. -/
theorem abs_clamp_le [Field K] [IsStrictOrderedRing K] (m x : K) :
    Num.In {v | |v| ≤ |m|} (clamp (.val (-m)) (.val m) (.val x)) := by
  unfold clamp
  split
  · exact Num.in_val.2 (abs_neg m).le
  · next hlo =>
      split
      · exact Num.in_val.2 (le_refl |m|)
      · next hhi =>
          have hx : |x| ≤ m := abs_le.2 ⟨not_lt.1 hlo, not_lt.1 hhi⟩
          exact Num.in_val.2 (hx.trans (le_abs_self m))

end Clamp

section Search

variable {K : Type} [Field K] [LinearOrder K] {d : ℕ}

/-! ## What is kept of particles and of solutions -/

/-- The numbers are those of a random generator. -/
def Draw.Unit (draw : Draw K d) : Prop :=
  ∀ j, Num.In (Set.Ico 0 1) (draw.r1 j) ∧ Num.In (Set.Ico 0 1) (draw.r2 j)

/-- Each coordinate is between the bounds of the search. -/
def InBox (settings : Settings K d) (position : Position K d) : Prop :=
  ∀ j, Num.In (Set.Icc settings.minX settings.maxX) (position j)

/-- The coordinates of a point are numbers. -/
def Defined (position : Position K d) : Prop := ∀ j, ∃ v, position j = .val v

/-- The first velocity is within the size of the box, the later ones within `maxX`. -/
def speedLimit (settings : Settings K d) : K :=
  max |settings.maxX - settings.minX| |settings.maxX|

/-- A particle that searches: it and its best position are in the box, its speed is within the
limit, and its two fitnesses are those of its two positions, the best of which is no worse. -/
structure Particle.Searches (settings : Settings K d) (particle : Particle K d) : Prop where
  position : InBox settings particle.position
  bestPosition : InBox settings particle.bestPosition
  velocity : ∀ j, Num.In {v | |v| ≤ speedLimit settings} (particle.velocity j)
  fitness : particle.fitness = settings.objectiveFunction particle.position
  bestFitness : particle.bestFitness = settings.objectiveFunction particle.bestPosition
  best : ¬ particle.fitness < particle.bestFitness

/-- The solution is the one that the swarm starts with, or the objective function gives the fitness
at the position, which is in the box. -/
def Known (settings : Settings K d) (fitness : Num K) (position : Position K d) : Prop :=
  (fitness = .val settings.MAX_VALUE ∧ position = fun _ => .val 0) ∨
    (InBox settings position ∧ fitness = settings.objectiveFunction position)

variable {settings : Settings K d}

omit [Field K] in
theorem InBox.defined {position : Position K d} (h : InBox settings position) :
    Defined position := fun j => by
  obtain ⟨v, -, hv⟩ := h j
  exact ⟨v, hv⟩

theorem Known.defined {fitness : Num K} {position : Position K d}
    (h : Known settings fitness position) : Defined position := by
  rcases h with ⟨-, rfl⟩ | ⟨hbox, -⟩
  · exact fun _ => ⟨0, rfl⟩
  · exact hbox.defined

/-! ## Particles -/

section Particles

variable [IsStrictOrderedRing K]

/-- A particle starts in the box. -/
theorem Particle.searches_onInit (hle : settings.minX ≤ settings.maxX) (name : AgentName)
    {draw : Draw K d} (hdraw : draw.Unit) : (onInit settings name draw).1.Searches settings := by
  have hposition : InBox settings (onInit settings name draw).1.position := by
    intro j
    obtain ⟨r, ⟨hr0, hr1⟩, hr⟩ := (hdraw j).1
    have hsub : 0 ≤ settings.maxX - settings.minX := sub_nonneg.2 hle
    simp only [onInit, hr, Num.val_sub, Num.val_mul, Num.val_add, Num.in_val, Set.mem_Icc]
    constructor
    · linarith [mul_nonneg hsub hr0]
    · linarith [mul_le_of_le_one_right hsub hr1.le]
  have hvelocity : ∀ j, Num.In {v | |v| ≤ speedLimit settings}
      ((onInit settings name draw).1.velocity j) := by
    intro j
    obtain ⟨r, ⟨hr0, hr1⟩, hr⟩ := (hdraw j).2
    have habs : 0 ≤ |settings.maxX - settings.minX| := abs_nonneg _
    simp only [onInit, hr, Num.val_sub, Num.val_mul, Num.val_add, Num.in_val,
      Set.mem_ofPred_eq]
    -- the range is from `-|maxX - minX|` to `|maxX - minX|`
    refine le_trans (abs_le.2 ⟨?_, ?_⟩) (le_max_left _ _)
    · linarith [mul_nonneg habs hr0]
    · linarith [mul_le_of_le_one_right habs hr1.le]
  exact ⟨hposition, hposition, hvelocity, rfl, rfl, Num.lt_irrefl _⟩

variable {particle : Particle K d} {bestGlobalPosition : Position K d} {draw : Draw K d}

theorem Particle.abs_newVelocity_le (h : particle.Searches settings)
    (hglobal : Defined bestGlobalPosition) (hdraw : draw.Unit) (j : Fin d) :
    Num.In {v | |v| ≤ |settings.maxX|}
      (particle.newVelocity settings bestGlobalPosition draw j) := by
  obtain ⟨v, -, hv⟩ := h.velocity j
  obtain ⟨x, -, hx⟩ := h.position j
  obtain ⟨b, -, hb⟩ := h.bestPosition j
  obtain ⟨g, hg⟩ := hglobal j
  obtain ⟨⟨r1, -, hr1⟩, r2, -, hr2⟩ := hdraw j
  simp only [newVelocity, w, c1, c2, hv, hx, hb, hg, hr1, hr2, Num.val_sub, Num.val_mul,
    Num.val_add, neg_mul, one_mul]
  exact abs_clamp_le _ _

theorem Particle.inBox_newPosition (hle : settings.minX ≤ settings.maxX)
    (h : particle.Searches settings) (hglobal : Defined bestGlobalPosition) (hdraw : draw.Unit) :
    InBox settings (particle.newPosition settings bestGlobalPosition draw) := by
  intro j
  obtain ⟨v, -, hv⟩ := abs_newVelocity_le h hglobal hdraw j
  obtain ⟨x, -, hx⟩ := h.position j
  simp only [newPosition, hv, hx, Num.val_add]
  exact clamp_val_mem_Icc hle _

theorem Particle.Searches.move (hle : settings.minX ≤ settings.maxX)
    (h : particle.Searches settings) (hglobal : Defined bestGlobalPosition) (hdraw : draw.Unit) :
    (particle.move settings bestGlobalPosition draw).Searches settings := by
  have hposition := inBox_newPosition hle h hglobal hdraw
  have hvelocity : ∀ j, Num.In {v | |v| ≤ speedLimit settings}
      (particle.newVelocity settings bestGlobalPosition draw j) := fun j =>
    (abs_newVelocity_le h hglobal hdraw j).mono fun _ hv => le_trans hv (le_max_right _ _)
  by_cases hless : settings.objectiveFunction
      (particle.newPosition settings bestGlobalPosition draw) < particle.bestFitness
  · rw [Particle.move, if_pos hless]
    exact ⟨hposition, hposition, hvelocity, rfl, rfl, Num.lt_irrefl _⟩
  · rw [Particle.move, if_neg hless]
    exact ⟨hposition, h.bestPosition, hvelocity, rfl, h.bestFitness, hless⟩

end Particles

/-! ## The swarm -/

theorem Known.improve {swarm : Swarm K d} {psoMessage : PsoMessage K d}
    (hswarm : Known settings swarm.bestGlobalFitness swarm.bestGlobalPosition)
    (hmessage : Known settings psoMessage.fitness psoMessage.position) :
    Known settings (swarm.improve psoMessage).bestGlobalFitness
      (swarm.improve psoMessage).bestGlobalPosition := by
  unfold Swarm.improve
  split
  · exact hmessage
  · exact hswarm

omit [Field K] [LinearOrder K] in
theorem iterate_best (settings : Settings K d) (swarm : Swarm K d) :
    (swarm.iterate settings).1.bestGlobalFitness = swarm.bestGlobalFitness ∧
      (swarm.iterate settings).1.bestGlobalPosition = swarm.bestGlobalPosition := by
  unfold Swarm.iterate
  split
  · exact ⟨rfl, rfl⟩
  · exact ⟨rfl, rfl⟩

/-! ## Agents and messages -/

/-- What is kept of an agent. -/
def AgentSearches (settings : Settings K d) : ∀ name : AgentName, AgentState K d name → Prop
  | .swarm, swarm => Known settings swarm.bestGlobalFitness swarm.bestGlobalPosition
  | .particle i, particle => OfAgent (.particle i) particle ∧ particle.Searches settings

/-- What is kept of a message in flight. -/
def MessageSearches (settings : Settings K d) (name : AgentName) (message : Message K d) : Prop :=
  OfMessage name message ∧
    ∀ psoMessage, message.content = some psoMessage →
      Known settings psoMessage.fitness psoMessage.position

theorem messageSearches_iterate {swarm : Swarm K d}
    (h : Known settings swarm.bestGlobalFitness swarm.bestGlobalPosition) :
    ∀ p ∈ (swarm.iterate settings).2, MessageSearches settings p.1 p.2 := by
  intro p hp
  refine ⟨ofMessage_iterate settings swarm p hp, ?_⟩
  rcases Nat.lt_or_ge swarm.iteration settings.numberIterations with hlt | hge
  · rw [iterate_of_lt hlt] at hp
    obtain ⟨i, -, rfl⟩ := List.mem_map.1 hp
    intro psoMessage hcontent
    cases hcontent
    exact h
  · rw [iterate_of_le hge] at hp
    exact absurd hp List.not_mem_nil

/-! ## Steps and runs -/

section Runs

variable [IsStrictOrderedRing K]

/-- What the agents make of a message with such random numbers. -/
theorem behaviour_searches (hle : settings.minX ≤ settings.maxX) :
    Network.Keeps (fun name s message (draw : {draw : Draw K d // draw.Unit}) =>
      behaviour settings name s message draw.1)
      (AgentSearches settings) (MessageSearches settings) := by
  intro name s message draw s' posts hs hmessage hout
  obtain ⟨hkind, hknown⟩ := hmessage
  have hnil : ∀ p ∈ ([] : List (AgentName × Message K d)), MessageSearches settings p.1 p.2 :=
    fun p hp => absurd hp List.not_mem_nil
  cases hkind with
  | update i fitness position =>
      simp only [behaviour, Swarm.onMessage_update] at hout
      split at hout
      · cases hout
      · cases hout
        exact ⟨Known.improve hs (hknown _ rfl), hnil⟩
  | inform i =>
      simp only [behaviour, Swarm.onMessage_inform] at hout
      split at hout
      · cases hout
      · split at hout
        · cases hout
        · split at hout
          · rw [Option.some.injEq] at hout
            -- the next iteration asks with the best solution so far
            have hbest := iterate_best settings (Swarm.counted s)
            have hs' : s' = ((Swarm.counted s).iterate settings).1 := by rw [hout]
            have hposts : posts = ((Swarm.counted s).iterate settings).2 := by rw [hout]
            rw [hs', hposts]
            refine ⟨?_, messageSearches_iterate hs⟩
            show Known settings _ _
            rw [hbest.1, hbest.2]
            exact hs
          · cases hout
            exact ⟨hs, hnil⟩
  | request fitness position i =>
      obtain ⟨⟨haid, hswarm⟩, hsearches⟩ := hs
      simp only [behaviour, Particle.onMessage_request hswarm haid, Option.some.injEq,
        Prod.mk.injEq] at hout
      obtain ⟨rfl, rfl⟩ := hout
      have hnames := @Particle.move_names K _ _ d settings s position draw.1
      -- a particle moves within the box, towards positions in the box
      have hmoved := hsearches.move hle (hknown _ rfl).defined draw.2
      refine ⟨⟨⟨hnames.1.trans haid, hnames.2.trans hswarm⟩, hmoved⟩, ?_⟩
      split
      · exact hnil
      · exact List.forall_mem_singleton.2 ⟨.inform i, fun psoMessage h => by cases h⟩

namespace Session

/-- Every agent and every message in flight keep to the search. -/
def Searching (settings : Settings K d) (session : Session K d) : Prop :=
  Network.Local (AgentSearches settings) (MessageSearches settings) session.net

theorem searching_initial (hle : settings.minX ≤ settings.maxX) {draws : ℕ → Draw K d}
    (hdraws : ∀ i, (draws i).Unit) : (initial settings draws).Searching settings := by
  have hknown : Known settings (Swarm.initial settings).bestGlobalFitness
      (Swarm.initial settings).bestGlobalPosition := .inl ⟨rfl, rfl⟩
  refine ⟨fun name => ?_, fun p hp => ?_⟩
  · cases name with
    | swarm =>
        have hbest := iterate_best settings (Swarm.initial settings)
        show Known settings _ _
        exact hbest.1 ▸ hbest.2 ▸ hknown
    | particle i => exact ⟨⟨rfl, rfl⟩, Particle.searches_onInit hle _ (hdraws i)⟩
  · rw [flight_initial] at hp
    rcases List.mem_append.1 hp with hp | hp
    · obtain ⟨i, -, rfl⟩ := List.mem_map.1 hp
      refine ⟨.update i _ _, fun psoMessage hcontent => ?_⟩
      cases hcontent
      have hstarted := Particle.searches_onInit hle (.particle i) (hdraws i)
      exact .inr ⟨hstarted.position, hstarted.fitness⟩
    · exact messageSearches_iterate hknown p hp

theorem Searching.step (hle : settings.minX ≤ settings.maxX) {session session' : Session K d}
    {event : Event K d} (h : session.Searching settings) (hdraw : event.draw.Unit)
    (hstep : Session.step settings session event = some session') :
    session'.Searching settings := by
  obtain ⟨p, hp, rfl⟩ := exists_of_step hstep
  exact Network.Local.handled h (behaviour_searches hle) hp ⟨event.draw, hdraw⟩

/-- In every run, the particles stay in the box, and every fitness is the one that the objective
function gives at the position beside it. -/
theorem search_sound (hle : settings.minX ≤ settings.maxX) {draws : ℕ → Draw K d}
    (hdraws : ∀ i, (draws i).Unit) {events : List (Event K d)}
    (hevents : ∀ event ∈ events, event.draw.Unit) {session : Session K d}
    (h : execute (step settings) (initial settings draws) events = some session) :
    (∀ i, (session.particle i).Searches settings) ∧
      Known settings session.swarm.bestGlobalFitness session.swarm.bestGlobalPosition ∧
      ∀ p ∈ session.net.flight, ∀ psoMessage, p.2.content = some psoMessage →
        Known settings psoMessage.fitness psoMessage.position := by
  have hsearching : session.Searching settings :=
    execute_invariant (fun _ _ _ hs hdraw hstep => Searching.step hle hs hdraw hstep)
      (searching_initial hle hdraws) hevents h
  refine ⟨fun i => ?_, hsearching.state .swarm, fun p hp => ?_⟩
  · exact (hsearching.state (.particle i)).2
  · exact (hsearching.flight p hp).2

/-- The first particle of the source's session moves once, and is asked for no more. -/
theorem search_sound_tenParticles :
    ∃ session, execute (step tenParticles) (initial tenParticles fun _ => halves) [⟨10, halves⟩] =
        some session ∧
      (session.particle 0).Searches tenParticles := by
  have hhalf : Num.In (Set.Ico (0 : ℚ) 1) (.val (1 / 2)) := Num.in_val.2 (by norm_num)
  have hhalves : halves.Unit := fun _ => ⟨hhalf, hhalf⟩
  have hle : tenParticles.minX ≤ tenParticles.maxX := by norm_num [tenParticles, Settings.source]
  have hevents : ∀ event ∈ [(⟨10, halves⟩ : Event ℚ 2)], event.draw.Unit :=
    List.forall_mem_singleton.2 hhalves
  exact ⟨_, rfl, (search_sound hle (fun _ => hhalves) hevents rfl).1 0⟩

end Session

end Runs

end Search

end Siebog.Pso
