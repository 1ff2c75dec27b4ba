import Siebog.Lib.Barrier
import Siebog.Lib.Run
import Siebog.Pso.Swarm

/-!
# Iterations of a swarm

In every run the swarm goes on to its next iteration only after each particle has handled its
request and has been heard from (`barrier_execute`). What a step can do is said once, by
`happens_of_step`: `Sound` describes the agents and the messages in flight, and `Counted` the round
of the barrier.

A particle that has a better fitness to report does not know whom to report it to, and so does not
answer either. `iterations_complete_iff` says in which runs every request is answered and the swarm
holds the best of the reports, also for particles that are started by hand after the swarm has
thrown its exception (`Started`), and `iteration_le_one` that without any answers the swarm never
leaves its first iteration.
-/

set_option autoImplicit false

namespace Siebog.Pso

open Siebog.Lib

/-! ## Kinds of messages -/

section Kinds

variable {K : Type} {d : ℕ}

/-- The particle that a message asks for an iteration. -/
def requestedOf (p : AgentName × Message K d) : Option ℕ :=
  match p.1 with
  | .swarm => none
  | .particle i =>
    if p.2.performative = .REQUEST ∧ p.2.content.map PsoMessage.action = some .ITERATE_PARTICLE then
      some i
    else none

/-- The particle that a message informs the swarm of. -/
def informedBy (p : AgentName × Message K d) : Option ℕ :=
  match p.1, p.2.sender with
  | .swarm, some (.particle i) => if p.2.performative = .INFORM then some i else none
  | _, _ => none

/-- The fitness that a message reports to the swarm, and its position. -/
def reportOf (p : AgentName × Message K d) : Option (Num K × Position K d) :=
  match p.1, p.2.content with
  | .swarm, some psoMessage =>
    if p.2.performative = .REQUEST ∧ psoMessage.action = .UPDATE_GLOBAL_SOLUTION then
      some (psoMessage.fitness, psoMessage.position)
    else none
  | _, _ => none

/-- The message by which particle `i` informs the swarm. -/
def Particle.inform (i : ℕ) : Message K d := ⟨.INFORM, some (.particle i), some .swarm, none⟩

namespace Session

/-- The messages that have been handled in iteration `k`. -/
def during (session : Session K d) (k : ℕ) : List (AgentName × Message K d) :=
  session.handled.filterMap fun h => if h.1 = k then some h.2 else none

/-- The particles that have handled a request in iteration `k`. -/
def requested (session : Session K d) (k : ℕ) : List ℕ :=
  (session.during k).filterMap requestedOf

/-- The particles that the swarm has heard from in iteration `k`. -/
def answered (session : Session K d) (k : ℕ) : List ℕ :=
  (session.during k).filterMap informedBy

/-- What has been reported to the swarm. -/
def reports (session : Session K d) : List (Num K × Position K d) :=
  session.handled.filterMap fun h => reportOf h.2

/-- In every earlier iteration each particle has handled one request, and the swarm has heard from
it once. -/
def Barrier (settings : Settings K d) (session : Session K d) : Prop :=
  ∀ k, 1 ≤ k → k < session.swarm.iteration →
    (session.requested k).Perm (List.range settings.numberParticles) ∧
      (session.answered k).Perm (List.range settings.numberParticles)

/-- The best solution is the one with the least fitness that has been reported. -/
def Best [LT K] (settings : Settings K d) (session : Session K d) : Prop :=
  (session.reports = [] → session.swarm.bestGlobalFitness = .val settings.MAX_VALUE) ∧
    (session.reports ≠ [] →
      (session.swarm.bestGlobalFitness, session.swarm.bestGlobalPosition) ∈ session.reports ∧
        ∀ report ∈ session.reports, ¬ report.1 < session.swarm.bestGlobalFitness)

end Session

end Kinds

/-! ## What the agents make of them -/

section Handlers

variable {K : Type} [Field K] [LinearOrder K] {d : ℕ} {settings : Settings K d}

/-- A particle without the swarm's name answers unless it has to report. -/
theorem Particle.onMessage_request {particle : Particle K d} (haid : particle.swarmAID = none)
    {j : ℕ} (hname : particle.myAid = .particle j) (fitness : Num K) (position : Position K d)
    (i : ℕ) (draw : Draw K d) :
    particle.onMessage settings (Swarm.request fitness position i) draw =
      some (particle.move settings position draw,
        if settings.objectiveFunction (particle.newPosition settings position draw) < fitness
        then [] else [(.swarm, inform j)]) := by
  have hreply : particle.reply (Swarm.request fitness position i) = some (.swarm, inform j) := by
    rw [inform, ← hname]
    rfl
  by_cases hless :
      settings.objectiveFunction (particle.newPosition settings position draw) < fitness
  · -- the report has no receiver, and the exception leaves the handler
    have hiteration : particle.iteration settings fitness position draw = none := by
      rw [iteration, haid]
      exact if_pos hless
    simp only [onMessage, Swarm.request, PsoMessage.valueOf, Option.bind_eq_bind, Option.bind_some,
      if_true, hiteration, if_pos hless]
  · have hiteration : particle.iteration settings fitness position draw = some [] := by
      rw [iteration, haid]
      exact if_neg hless
    have hreplied : (particle.reply (Swarm.request fitness position i)).toList =
        [(.swarm, inform j)] := by
      rw [hreply]
      rfl
    rw [if_neg hless, ← hreplied]
    simp only [onMessage, Swarm.request, PsoMessage.valueOf, Option.bind_eq_bind, Option.bind_some,
      if_true, hiteration, List.nil_append]

omit [Field K] in
/-- A report is compared with the best solution so far. -/
theorem Swarm.onMessage_update (swarm : Swarm K d) (name : AgentName) (receiver : Option AgentName)
    (fitness : Num K) (position : Position K d) :
    swarm.onMessage settings (Particle.update name receiver fitness position) =
      some (swarm.improve ⟨.UPDATE_GLOBAL_SOLUTION, fitness, position⟩, []) := rfl

/-- The swarm after it has heard from one more particle. -/
def Swarm.counted (swarm : Swarm K d) : Swarm K d :=
  { swarm with iteratedParticles := swarm.iteratedParticles + 1 }

omit [Field K] in
/-- The last particle to finish starts the next iteration. -/
theorem Swarm.onMessage_inform (swarm : Swarm K d) (i : ℕ) :
    swarm.onMessage settings (Particle.inform i) =
      if settings.throwsOnNull then none
      else if swarm.iteratedParticles + 1 = settings.numberParticles then
        some (swarm.counted.iterate settings)
      else some (swarm.counted, []) := by
  by_cases hthrows : settings.throwsOnNull
  · simp only [onMessage, Particle.inform, PsoMessage.valueOf, if_pos hthrows]
    rfl
  · simp only [onMessage, Particle.inform, PsoMessage.valueOf, if_neg hthrows]
    rfl

end Handlers

/-! ## The messages in flight -/

section Flight

variable {K : Type} {d : ℕ}

/-- A particle does not know the swarm. -/
def OfAgent : ∀ name : AgentName, AgentState K d name → Prop
  | .swarm, _ => True
  | .particle i, particle => particle.myAid = .particle i ∧ particle.swarmAID = none

/-- The messages that are in flight, each to its receiver. -/
inductive OfMessage : AgentName → Message K d → Prop where
  | update (i : ℕ) (fitness : Num K) (position : Position K d) :
      OfMessage .swarm (Particle.update (.particle i) (some .swarm) fitness position)
  | request (fitness : Num K) (position : Position K d) (i : ℕ) :
      OfMessage (.particle i) (Swarm.request fitness position i)
  | inform (i : ℕ) : OfMessage .swarm (Particle.inform i)

/-- The requests that the swarm posts in an iteration. -/
def requests (settings : Settings K d) (swarm : Swarm K d) : List (AgentName × Message K d) :=
  (List.range settings.numberParticles).map fun i =>
    (.particle i, Swarm.request swarm.bestGlobalFitness swarm.bestGlobalPosition i)

/-- An iteration that is left starts. -/
theorem iterate_of_lt {settings : Settings K d} {swarm : Swarm K d}
    (h : swarm.iteration < settings.numberIterations) :
    swarm.iterate settings =
      ({ swarm with iteration := swarm.iteration + 1, iteratedParticles := 0 },
        requests settings swarm) := by
  rw [Swarm.iterate, if_pos h, requests, ← List.filterMap_eq_map']
  rfl

/-- After the last iteration the swarm is finished. -/
theorem iterate_of_le {settings : Settings K d} {swarm : Swarm K d}
    (h : settings.numberIterations ≤ swarm.iteration) :
    swarm.iterate settings = (swarm.finish, []) := by
  rw [Swarm.iterate, if_neg (Nat.not_lt.2 h)]

/-- The requests of an iteration are messages of the swarm. -/
theorem ofMessage_requests (settings : Settings K d) (swarm : Swarm K d) :
    ∀ p ∈ requests settings swarm, OfMessage p.1 p.2 := by
  intro p hp
  obtain ⟨i, -, rfl⟩ := List.mem_map.1 hp
  exact .request _ _ i

/-- What the swarm posts are messages of the swarm. -/
theorem ofMessage_iterate (settings : Settings K d) (swarm : Swarm K d) :
    ∀ p ∈ (swarm.iterate settings).2, OfMessage p.1 p.2 := by
  rcases Nat.lt_or_ge swarm.iteration settings.numberIterations with hlt | hle
  · rw [iterate_of_lt hlt]
    exact ofMessage_requests settings swarm
  · rw [iterate_of_le hle]
    exact fun p hp => absurd hp List.not_mem_nil

end Flight

section Keeps

variable {K : Type} [Field K] [LinearOrder K] {d : ℕ} {settings : Settings K d}

/-- A particle keeps its names when it moves. -/
theorem Particle.move_names (particle : Particle K d) (position : Position K d) (draw : Draw K d) :
    (particle.move settings position draw).myAid = particle.myAid ∧
      (particle.move settings position draw).swarmAID = particle.swarmAID := by
  by_cases hless : settings.objectiveFunction (particle.newPosition settings position draw) <
      particle.bestFitness
  · simp only [move, if_pos hless, and_self]
  · simp only [move, if_neg hless, and_self]

/-- The agents answer the messages there are with messages there are. -/
theorem behaviour_keeps :
    Network.Keeps (behaviour settings) (@OfAgent K d) OfMessage := by
  intro name s message draw s' posts hs hmessage hout
  have hnil : ∀ p ∈ ([] : List (AgentName × Message K d)), OfMessage p.1 p.2 := fun p hp =>
    absurd hp List.not_mem_nil
  -- one case for each kind of message there is
  cases hmessage with
  | update i fitness position =>
      simp only [behaviour, Swarm.onMessage_update] at hout
      split at hout
      · cases hout
      · cases hout
        exact ⟨trivial, hnil⟩
  | inform i =>
      simp only [behaviour, Swarm.onMessage_inform] at hout
      refine ⟨trivial, ?_⟩
      split at hout
      · cases hout
      · split at hout
        · cases hout
        · split at hout
          · -- the last particle has reported, and the next iteration is asked for
            rw [Option.some.injEq] at hout
            have hposts : posts = ((Swarm.counted s).iterate settings).2 := by rw [hout]
            rw [hposts]
            exact ofMessage_iterate settings _
          · cases hout
            exact hnil
  | request fitness position i =>
      obtain ⟨haid, hswarm⟩ := hs
      simp only [behaviour, Particle.onMessage_request hswarm haid, Option.some.injEq,
        Prod.mk.injEq] at hout
      obtain ⟨rfl, rfl⟩ := hout
      have hnames : (s.move settings position draw).myAid = s.myAid ∧
          (s.move settings position draw).swarmAID = s.swarmAID :=
        Particle.move_names s position draw
      refine ⟨⟨hnames.1.trans haid, hnames.2.trans hswarm⟩, ?_⟩
      split
      · exact hnil
      · exact List.forall_mem_singleton.2 (.inform i)

namespace Session

/-- What holds of each agent and of each message in flight. -/
def Sound (session : Session K d) : Prop := Network.Local OfAgent OfMessage session.net

/-- The reports that the particles post when they are started. -/
def updates (settings : Settings K d) (draws : ℕ → Draw K d) : List (AgentName × Message K d) :=
  (List.range settings.numberParticles).map fun i =>
    let started := (Particle.onInit settings (.particle i) (draws i)).1
    (.swarm, Particle.update (.particle i) (some .swarm) started.fitness started.position)

/-- A run starts with the reports of the particles and the requests to them in flight. -/
theorem flight_initial (settings : Settings K d) (draws : ℕ → Draw K d) :
    (initial settings draws).net.flight =
      updates settings draws ++ ((Swarm.initial settings).iterate settings).2 := by
  rw [updates, ← List.filterMap_eq_map']
  rfl

/-- The state that the swarm is meant to start in is sound. -/
theorem sound_initial (settings : Settings K d) (draws : ℕ → Draw K d) :
    (initial settings draws).Sound := by
  refine ⟨fun name => ?_, fun p hp => ?_⟩
  · cases name with
    | swarm => exact trivial
    | particle i => exact ⟨rfl, rfl⟩
  · rw [flight_initial] at hp
    rcases List.mem_append.1 hp with hp | hp
    · obtain ⟨i, -, rfl⟩ := List.mem_map.1 hp
      exact .update i _ _
    · exact ofMessage_iterate settings _ p hp

/-- A step delivers a message in flight. -/
theorem exists_of_step {session session' : Session K d} {event : Event K d}
    (h : step settings session event = some session') :
    ∃ p, session.net.flight[event.k]? = some p ∧
      session' = session.delivered event.k p
        (behaviour settings p.1 (session.net.state p.1) p.2 event.draw) := by
  obtain ⟨p, hp, heq⟩ := Option.map_eq_some_iff.1 h
  exact ⟨p, hp, heq.symm⟩

/-- A delivery keeps a session sound. -/
theorem Sound.step {session session' : Session K d} {event : Event K d} (h : session.Sound)
    (hstep : step settings session event = some session') : session'.Sound := by
  obtain ⟨p, hp, rfl⟩ := exists_of_step hstep
  exact Network.Local.handled h behaviour_keeps hp event.draw

/-- What a step can do. -/
inductive Happens (settings : Settings K d) (session : Session K d) (event : Event K d) :
    Session K d → Prop where
  | stopped (message : Message K d) (hk : session.net.flight[event.k]? = some (.swarm, message))
      (hstopped : session.swarm.stopped = true) :
      Happens settings session event (session.delivered event.k (.swarm, message) none)
  | thrown (i : ℕ) (hk : session.net.flight[event.k]? = some (.swarm, Particle.inform i)) :
      Happens settings session event (session.delivered event.k (.swarm, Particle.inform i) none)
  | update (i : ℕ) (fitness : Num K) (position : Position K d)
      (hk : session.net.flight[event.k]? =
        some (.swarm, Particle.update (.particle i) (some .swarm) fitness position))
      (hrunning : session.swarm.stopped = false) :
      Happens settings session event (session.delivered event.k
        (.swarm, Particle.update (.particle i) (some .swarm) fitness position)
        (some (session.swarm.improve ⟨.UPDATE_GLOBAL_SOLUTION, fitness, position⟩, [])))
  | inform (i : ℕ) (out : Swarm K d × List (AgentName × Message K d))
      (hk : session.net.flight[event.k]? = some (.swarm, Particle.inform i))
      (hrunning : session.swarm.stopped = false)
      (hout : session.swarm.onMessage settings (Particle.inform i) = some out) :
      Happens settings session event
        (session.delivered event.k (.swarm, Particle.inform i) (some out))
  | request (i : ℕ) (fitness : Num K) (position : Position K d)
      (hk : session.net.flight[event.k]? =
        some (.particle i, Swarm.request fitness position i)) :
      Happens settings session event (session.delivered event.k
        (.particle i, Swarm.request fitness position i)
        (some ((session.particle i).move settings position event.draw,
          if settings.objectiveFunction
              ((session.particle i).newPosition settings position event.draw) < fitness then []
          else [(.swarm, Particle.inform i)])))

omit [Field K] [LinearOrder K] in
/-- A particle knows its own name, and not the swarm's. -/
theorem Sound.particle {session : Session K d} (h : session.Sound) (i : ℕ) :
    (session.particle i).myAid = .particle i ∧ (session.particle i).swarmAID = none :=
  h.state (.particle i)

/-- A delivery in a sound session does one of the things that `Happens` lists. -/
theorem happens_of_step {session session' : Session K d} {event : Event K d}
    (hsound : session.Sound) (hstep : step settings session event = some session') :
    Happens settings session event session' := by
  obtain ⟨⟨name, message⟩, hk, rfl⟩ := exists_of_step hstep
  have hmessage : OfMessage name message := hsound.of_flight hk
  cases name with
  | swarm =>
      -- a stopped swarm handles nothing
      by_cases hstopped : session.swarm.stopped = true
      · have hout : behaviour settings .swarm (session.net.state .swarm) message event.draw =
            none := if_pos hstopped
        rw [hout]
        exact .stopped message hk hstopped
      · have hout : behaviour settings .swarm (session.net.state .swarm) message event.draw =
            session.swarm.onMessage settings message := if_neg hstopped
        have hrunning : session.swarm.stopped = false := Bool.not_eq_true _ ▸ hstopped
        rw [hout]
        cases hmessage with
        | update i fitness position => exact .update i fitness position hk hrunning
        | inform i =>
            cases hhandled : session.swarm.onMessage settings (Particle.inform i) with
            | none => exact .thrown i hk
            | some out => exact .inform i out hk hrunning hhandled
  | particle i =>
      cases hmessage with
      | request fitness position =>
          obtain ⟨haid, hswarm⟩ := hsound.particle i
          have hout : behaviour settings (.particle i) (session.net.state (.particle i))
              (Swarm.request fitness position i) event.draw = _ :=
            Particle.onMessage_request hswarm haid fitness position i event.draw
          rw [hout]
          exact .request i fitness position hk

end Session

end Keeps

/-! ## Counting -/

section Counting

variable {K : Type} {d : ℕ} {settings : Settings K d}

@[simp] theorem requestedOf_swarm (message : Message K d) :
    requestedOf (.swarm, message) = none := rfl

@[simp] theorem requestedOf_request (fitness : Num K) (position : Position K d) (i : ℕ) :
    requestedOf (.particle i, Swarm.request fitness position i) = some i := rfl

@[simp] theorem informedBy_particle (i : ℕ) (message : Message K d) :
    informedBy (.particle i, message) = none := rfl

@[simp] theorem informedBy_inform (i : ℕ) :
    informedBy ((.swarm, Particle.inform i) : AgentName × Message K d) = some i := rfl

@[simp] theorem informedBy_update (i : ℕ) (receiver : Option AgentName) (fitness : Num K)
    (position : Position K d) :
    informedBy (.swarm, Particle.update (.particle i) receiver fitness position) = none := rfl

/-- An iteration asks every particle once. -/
theorem requests_requestedOf (settings : Settings K d) (swarm : Swarm K d) :
    (requests settings swarm).filterMap requestedOf = List.range settings.numberParticles := by
  rw [requests, List.filterMap_map]
  exact List.filterMap_some

/-- No request says that a particle has finished. -/
theorem requests_informedBy (settings : Settings K d) (swarm : Swarm K d) :
    (requests settings swarm).filterMap informedBy = [] := by
  rw [requests, List.filterMap_map]
  exact List.filterMap_eq_nil_iff.2 fun i _ => rfl

/-- The particles that are asked in iteration `k`. The swarm is in iteration 0 only before the
first, and when there is none. -/
def members (settings : Settings K d) (k : ℕ) : List ℕ :=
  if k = 0 then [] else List.range settings.numberParticles

/-- An iteration has at most as many members as there are particles. -/
theorem length_members_le (settings : Settings K d) (k : ℕ) :
    (members settings k).length ≤ settings.numberParticles := by
  rw [members]
  split
  · exact Nat.zero_le _
  · exact Nat.le_of_eq List.length_range

namespace Session

/-- The round of the iteration that the swarm is in, and that every earlier one has been complete.
-/
structure Counted (settings : Settings K d) (session : Session K d) : Prop where
  round : Round (members settings session.swarm.iteration)
    (session.net.flight.filterMap requestedOf) (session.requested session.swarm.iteration)
    (session.net.flight.filterMap informedBy) (session.answered session.swarm.iteration)
  count : session.swarm.stopped = false →
    session.swarm.iteratedParticles = (session.answered session.swarm.iteration).length
  past : ∀ j < session.swarm.iteration, (session.requested j).Perm (members settings j) ∧
    (session.answered j).Perm (members settings j)
  le : ∀ h ∈ session.handled, h.1 ≤ session.swarm.iteration

/-- The swarm that counts right goes on only when all have finished. -/
theorem Counted.barrier {session : Session K d} (h : session.Counted settings) :
    session.Barrier settings := by
  intro k hk hlt
  have hpast := h.past k hlt
  rw [members, if_neg (Nat.ne_of_gt hk)] at hpast
  exact hpast

variable {session : Session K d} {k : ℕ} {p : AgentName × Message K d}
  {out : AgentState K d p.1 × List (AgentName × Message K d)}

/-- The swarm after a message to it. -/
theorem swarm_delivered_swarm (message : Message K d)
    (out : Swarm K d × List (AgentName × Message K d)) :
    (session.delivered k (.swarm, message) (some out)).swarm = out.1 :=
  Network.state_handled_some session.net k .swarm out.1 out.2

/-- A message to a particle leaves the swarm alone. -/
theorem swarm_delivered_particle (i : ℕ) (message : Message K d)
    (out : Option (Particle K d × List (AgentName × Message K d))) :
    (session.delivered k (.particle i, message) out).swarm = session.swarm := by
  have hne : AgentName.swarm ≠ .particle i := fun heq => by cases heq
  exact Network.state_handled_of_ne session.net k hne out

/-- A handled message is a report or adds none. -/
theorem reports_delivered :
    (session.delivered k p (some out)).reports = session.reports ++ (reportOf p).toList := by
  rw [reports, delivered, Option.isSome_some, if_pos rfl, List.filterMap_append]
  cases hp : reportOf p <;> simp [reports, hp]

/-- What has been handled during an iteration grows by the message, if it is the current one. -/
theorem filterMap_during_delivered {β : Type} (f : AgentName × Message K d → Option β) (j : ℕ) :
    ((session.delivered k p (some out)).during j).filterMap f =
      (session.during j).filterMap f ++
        if session.swarm.iteration = j then (f p).toList else [] := by
  have hduring : (session.delivered k p (some out)).during j =
      session.during j ++ if session.swarm.iteration = j then [p] else [] := by
    simp only [during, delivered, Option.isSome_some, if_true, List.filterMap_append]
    split <;> simp [*]
  rw [hduring, List.filterMap_append]
  split
  · cases hp : f p <;> simp [hp]
  · rfl

/-- Nothing is handled during an iteration that is over. -/
theorem filterMap_during_delivered_of_ne {β : Type} (f : AgentName × Message K d → Option β) {j : ℕ}
    (hne : session.swarm.iteration ≠ j) :
    ((session.delivered k p (some out)).during j).filterMap f = (session.during j).filterMap f := by
  rw [filterMap_during_delivered, if_neg hne, List.append_nil]

/-- The earlier iterations stay as they were. -/
theorem Counted.past_delivered (h : session.Counted settings) :
    ∀ j < session.swarm.iteration,
      ((session.delivered k p (some out)).requested j).Perm (members settings j) ∧
        ((session.delivered k p (some out)).answered j).Perm (members settings j) := by
  intro j hj
  rw [requested, answered, filterMap_during_delivered_of_ne _ (Nat.ne_of_gt hj),
    filterMap_during_delivered_of_ne _ (Nat.ne_of_gt hj)]
  exact h.past j hj

/-- No message is handled in an iteration that is yet to come. -/
theorem Counted.le_delivered (h : session.Counted settings) :
    ∀ e ∈ (session.delivered k p (some out)).handled, e.1 ≤ session.swarm.iteration := by
  intro e he
  rcases List.mem_append.1 he with he | he
  · exact h.le e he
  · rw [Option.isSome_some, if_pos rfl, List.mem_singleton] at he
    rw [he]

/-- What is in flight after a delivery: the message is gone, and the posts are there. -/
theorem filterMap_flight_delivered {β : Type} (f : AgentName × Message K d → Option β) :
    (session.delivered k p (some out)).net.flight.filterMap f =
      (session.net.flight.eraseIdx k).filterMap f ++ out.2.filterMap f :=
  List.filterMap_append

/-- The round as it is for the messages in flight, with the one that is delivered in front. -/
theorem Counted.round_of_flight (h : session.Counted settings)
    (hk : session.net.flight[k]? = some p) :
    Round (members settings session.swarm.iteration)
      ((requestedOf p).toList ++ (session.net.flight.eraseIdx k).filterMap requestedOf)
      (session.requested session.swarm.iteration)
      ((informedBy p).toList ++ (session.net.flight.eraseIdx k).filterMap informedBy)
      (session.answered session.swarm.iteration) :=
  h.round.perm (Network.filterMap_flight_perm hk requestedOf)
    (Network.filterMap_flight_perm hk informedBy)

/-- The swarm stays in its iteration. -/
theorem Counted.delivered_same (h : session.Counted settings)
    (hiteration : (session.delivered k p (some out)).swarm.iteration = session.swarm.iteration)
    (hround : Round (members settings session.swarm.iteration)
      ((session.net.flight.eraseIdx k).filterMap requestedOf ++ out.2.filterMap requestedOf)
      (session.requested session.swarm.iteration ++ (requestedOf p).toList)
      ((session.net.flight.eraseIdx k).filterMap informedBy ++ out.2.filterMap informedBy)
      (session.answered session.swarm.iteration ++ (informedBy p).toList))
    (hcount : (session.delivered k p (some out)).swarm.stopped = false →
      (session.delivered k p (some out)).swarm.iteratedParticles =
        (session.answered session.swarm.iteration ++ (informedBy p).toList).length) :
    (session.delivered k p (some out)).Counted settings := by
  have hrequested : (session.delivered k p (some out)).requested session.swarm.iteration =
      session.requested session.swarm.iteration ++ (requestedOf p).toList := by
    rw [requested, filterMap_during_delivered, if_pos rfl, requested]
  have hanswered : (session.delivered k p (some out)).answered session.swarm.iteration =
      session.answered session.swarm.iteration ++ (informedBy p).toList := by
    rw [answered, filterMap_during_delivered, if_pos rfl, answered]
  refine ⟨?_, ?_, ?_, ?_⟩
  · rw [hiteration, filterMap_flight_delivered, filterMap_flight_delivered, hrequested, hanswered]
    exact hround
  · rw [hiteration, hanswered]
    exact hcount
  · rw [hiteration]
    exact h.past_delivered
  · rw [hiteration]
    exact h.le_delivered

/-- The swarm goes on to its next iteration, with requests to all the particles. -/
theorem Counted.delivered_next (h : session.Counted settings) {swarm : Swarm K d}
    (hiteration : (session.delivered k p (some out)).swarm.iteration = session.swarm.iteration + 1)
    (hiterated : (session.delivered k p (some out)).swarm.iteratedParticles = 0)
    (hposts : out.2 = requests settings swarm)
    (hrequested : (session.net.flight.eraseIdx k).filterMap requestedOf = [])
    (hinformed : (session.net.flight.eraseIdx k).filterMap informedBy = [])
    (hasked : (session.requested session.swarm.iteration ++ (requestedOf p).toList).Perm
      (members settings session.swarm.iteration))
    (hanswered : (session.answered session.swarm.iteration ++ (informedBy p).toList).Perm
      (members settings session.swarm.iteration)) :
    (session.delivered k p (some out)).Counted settings := by
  have hle : ∀ e ∈ (session.delivered k p (some out)).handled, e.1 ≤ session.swarm.iteration :=
    h.le_delivered
  -- nothing has been handled in the new iteration
  have hduring : (session.delivered k p (some out)).during (session.swarm.iteration + 1) = [] := by
    refine List.filterMap_eq_nil_iff.2 fun e he => if_neg ?_
    have hbefore := hle e he
    omega
  refine ⟨?_, fun _ => ?_, ?_, ?_⟩
  · rw [hiteration, filterMap_flight_delivered, filterMap_flight_delivered, hposts, hrequested,
      hinformed, requests_requestedOf, requests_informedBy, requested, answered, hduring]
    exact Round.start _
  · rw [hiteration, hiterated, answered, hduring]
    rfl
  · rw [hiteration]
    intro j hj
    rcases Nat.lt_or_eq_of_le (Nat.le_of_lt_succ hj) with hlt | rfl
    · exact h.past_delivered j hlt
    · rw [requested, answered, filterMap_during_delivered, filterMap_during_delivered, if_pos rfl,
        if_pos rfl]
      exact ⟨hasked, hanswered⟩
  · rw [hiteration]
    exact fun e he => Nat.le_succ_of_le (hle e he)

/-- An exception takes the message away and does nothing else. -/
theorem delivered_none : session.delivered k p none =
    { session with net := { session.net with flight := session.net.flight.eraseIdx k } } := by
  rw [delivered, Option.isSome_none, if_neg Bool.false_ne_true, List.append_nil]
  rfl

/-- A message is lost. -/
theorem Counted.lost (h : session.Counted settings) (hk : session.net.flight[k]? = some p)
    (hrequested : requestedOf p = none) : (session.delivered k p none).Counted settings := by
  have hround := h.round_of_flight hk
  rw [hrequested] at hround
  rw [delivered_none]
  refine ⟨?_, h.count, h.past, h.le⟩
  cases hinformed : informedBy p with
  | none =>
      rw [hinformed] at hround
      exact hround
  | some i =>
      rw [hinformed] at hround
      exact hround.lose

/-- A particle handles a request, and informs the swarm or does not. -/
theorem Counted.request (h : session.Counted settings) {i : ℕ} {fitness : Num K}
    {position : Position K d}
    (hk : session.net.flight[k]? = some (.particle i, Swarm.request fitness position i))
    {out : Particle K d × List (AgentName × Message K d)}
    (hposts : out.2 = [] ∨ out.2 = [(.swarm, Particle.inform i)]) :
    (session.delivered k (.particle i, Swarm.request fitness position i)
      (some out)).Counted settings := by
  have hround := h.round_of_flight hk
  refine h.delivered_same ?_ ?_ ?_
  · rw [swarm_delivered_particle]
  · rcases hposts with hposts | hposts
    · rw [hposts]
      simpa using hround.ask
    · rw [hposts]
      simpa [List.filterMap_cons] using hround.reply
  · rw [swarm_delivered_particle, informedBy_particle, Option.toList_none, List.append_nil]
    exact h.count

end Session

end Counting

section Steps

variable {K : Type} [Field K] [LinearOrder K] {d : ℕ} {settings : Settings K d}

namespace Session

variable {session : Session K d} {k : ℕ}

omit [Field K] in
/-- The swarm hears from a particle. -/
theorem Counted.inform (h : session.Counted settings) {i : ℕ}
    (hk : session.net.flight[k]? = some (.swarm, Particle.inform i))
    (hstopped : session.swarm.stopped = false) {out : Swarm K d × List (AgentName × Message K d)}
    (hout : session.swarm.onMessage settings (Particle.inform i) = some out) :
    (session.delivered k (.swarm, Particle.inform i) (some out)).Counted settings := by
  have hround := (h.round_of_flight hk).answer
  have hcount := h.count hstopped
  have hasks : session.requested session.swarm.iteration ++
      (requestedOf ((.swarm, Particle.inform i) : AgentName × Message K d)).toList =
        session.requested session.swarm.iteration := List.append_nil _
  rw [Swarm.onMessage_inform] at hout
  split at hout
  · cases hout
  · by_cases hlast : session.swarm.iteratedParticles + 1 = settings.numberParticles
    · rw [if_pos hlast, Option.some.injEq] at hout
      -- all the particles have answered
      have hlength : (members settings session.swarm.iteration).length ≤
          (session.answered session.swarm.iteration ++ [i]).length := by
        rw [List.length_append, List.length_singleton, ← hcount, hlast]
        exact length_members_le settings _
      rcases Nat.lt_or_ge session.swarm.iteration settings.numberIterations with hlt | hle
      · obtain ⟨hrequested, hinformed, hasked, hanswered⟩ := hround.complete hlength
        have hnext : session.swarm.counted.iterate settings = _ := iterate_of_lt hlt
        rw [hnext] at hout
        subst hout
        refine h.delivered_next ?_ ?_ rfl hrequested hinformed (hasks.symm ▸ hasked) hanswered
        · rw [swarm_delivered_swarm]
          rfl
        · rw [swarm_delivered_swarm]
      · have hfinish : session.swarm.counted.iterate settings = _ := iterate_of_le hle
        rw [hfinish] at hout
        subst hout
        refine h.delivered_same ?_ ?_ ?_
        · rw [swarm_delivered_swarm]
          rfl
        · rw [hasks]
          simpa using hround
        · rw [swarm_delivered_swarm]
          intro hrunning
          cases hrunning
    · rw [if_neg hlast, Option.some.injEq] at hout
      subst hout
      refine h.delivered_same ?_ ?_ ?_
      · rw [swarm_delivered_swarm]
        rfl
      · rw [hasks]
        simpa using hround
      · rw [swarm_delivered_swarm]
        intro _
        rw [List.length_append, ← hcount]
        rfl

omit [Field K] in
/-- A report changes the best solution only. -/
theorem improve_fields (swarm : Swarm K d) (psoMessage : PsoMessage K d) :
    (swarm.improve psoMessage).iteration = swarm.iteration ∧
      (swarm.improve psoMessage).iteratedParticles = swarm.iteratedParticles ∧
      (swarm.improve psoMessage).stopped = swarm.stopped := by
  unfold Swarm.improve
  split
  · exact ⟨rfl, rfl, rfl⟩
  · exact ⟨rfl, rfl, rfl⟩

omit [Field K] in
/-- The swarm handles a report. -/
theorem Counted.update (h : session.Counted settings) {i : ℕ} {fitness : Num K}
    {position : Position K d}
    (hk : session.net.flight[k]? =
      some (.swarm, Particle.update (.particle i) (some .swarm) fitness position)) :
    (session.delivered k (.swarm, Particle.update (.particle i) (some .swarm) fitness position)
      (some (session.swarm.improve ⟨.UPDATE_GLOBAL_SOLUTION, fitness, position⟩, []))).Counted
        settings := by
  obtain ⟨hiteration, hiterated, hstopped⟩ :=
    improve_fields session.swarm ⟨.UPDATE_GLOBAL_SOLUTION, fitness, position⟩
  refine h.delivered_same ?_ ?_ ?_
  · rw [swarm_delivered_swarm, hiteration]
  · simpa using h.round_of_flight hk
  · rw [swarm_delivered_swarm, hiterated, hstopped, informedBy_update, Option.toList_none,
      List.append_nil]
    exact h.count

/-- What a session counts is kept by every step. -/
theorem Counted.step {session' : Session K d} {event : Event K d} (hsound : session.Sound)
    (h : session.Counted settings) (hstep : Session.step settings session event = some session') :
    session'.Counted settings := by
  cases happens_of_step hsound hstep with
  | stopped message hk hstopped => exact h.lost hk rfl
  | thrown i hk => exact h.lost hk rfl
  | update i fitness position hk hrunning => exact h.update hk
  | inform i out hk hrunning hout => exact h.inform hk hrunning hout
  | request i fitness position hk =>
      refine h.request hk ?_
      split
      · exact .inl rfl
      · exact .inr rfl

/-- The first reports are nothing but reports. -/
theorem filterMap_updates (settings : Settings K d) (draws : ℕ → Draw K d)
    {f : AgentName × Message K d → Option ℕ}
    (hf : ∀ i fitness position,
      f (.swarm, Particle.update (.particle i) (some .swarm) fitness position) = none) :
    (updates settings draws).filterMap f = [] := by
  refine List.filterMap_eq_nil_iff.2 fun p hp => ?_
  obtain ⟨i, -, rfl⟩ := List.mem_map.1 hp
  exact hf i _ _

/-- The first iteration starts with requests to all the particles. -/
theorem counted_initial (settings : Settings K d) (draws : ℕ → Draw K d) :
    (initial settings draws).Counted settings := by
  have hswarm : (initial settings draws).swarm =
      ((Swarm.initial settings).iterate settings).1 := rfl
  have hrequested := filterMap_updates settings draws (f := requestedOf) fun _ _ _ => rfl
  have hinformed := filterMap_updates settings draws (f := informedBy) fun _ _ _ => rfl
  have hle : ∀ e ∈ (initial settings draws).handled,
      e.1 ≤ (initial settings draws).swarm.iteration := fun e he => absurd he List.not_mem_nil
  rcases Nat.lt_or_ge (Swarm.initial settings).iteration settings.numberIterations with hlt | hge
  · rw [iterate_of_lt hlt] at hswarm
    refine ⟨?_, fun _ => ?_, ?_, hle⟩
    · rw [flight_initial, List.filterMap_append, List.filterMap_append, hrequested, hinformed,
        iterate_of_lt hlt, requests_requestedOf, requests_informedBy, hswarm]
      exact Round.start _
    · rw [hswarm]
      rfl
    · rw [hswarm]
      intro j hj
      rw [Nat.lt_one_iff.1 hj]
      exact ⟨List.Perm.nil, List.Perm.nil⟩
  · rw [iterate_of_le hge] at hswarm
    refine ⟨?_, fun _ => ?_, ?_, hle⟩
    · rw [flight_initial, List.filterMap_append, List.filterMap_append, hrequested, hinformed,
        iterate_of_le hge, hswarm]
      exact Round.start _
    · rw [hswarm]
      rfl
    · rw [hswarm]
      exact fun j hj => absurd hj (Nat.not_lt_zero j)

end Session

end Steps

/-! ## The best solution -/

section Reports

variable {K : Type} [Field K] [LinearOrder K] {d : ℕ} {settings : Settings K d}

namespace Session

variable {session : Session K d} {k : ℕ}

omit [Field K] in
/-- The best solution is right by the reports and by what the swarm keeps. -/
theorem Best.congr {session' : Session K d} (hreports : session'.reports = session.reports)
    (hfitness : session'.swarm.bestGlobalFitness = session.swarm.bestGlobalFitness)
    (hposition : session'.swarm.bestGlobalPosition = session.swarm.bestGlobalPosition) :
    session'.Best settings ↔ session.Best settings := by
  rw [Best, Best, hreports, hfitness, hposition]

/-- The first report that the swarm handles improves on what it starts with, or is what it starts
with. -/
def FirstReport (session : Session K d) (event : Event K d) : Prop :=
  ∀ i fitness position, session.net.flight[event.k]? =
      some (.swarm, Particle.update (.particle i) (some .swarm) fitness position) →
    session.swarm.stopped = false → session.reports = [] →
      fitness < session.swarm.bestGlobalFitness ∨
        fitness = session.swarm.bestGlobalFitness ∧ position = session.swarm.bestGlobalPosition

omit [Field K] in
/-- A report that is not the first keeps the best solution, and the first one gives it under this
condition. -/
theorem best_update_iff (hbest : session.Best settings) {i : ℕ} {fitness : Num K}
    {position : Position K d} :
    (session.delivered k (.swarm, Particle.update (.particle i) (some .swarm) fitness position)
      (some (session.swarm.improve ⟨.UPDATE_GLOBAL_SOLUTION, fitness, position⟩, []))).Best
        settings ↔
      (session.reports = [] → fitness < session.swarm.bestGlobalFitness ∨
        fitness = session.swarm.bestGlobalFitness ∧
          position = session.swarm.bestGlobalPosition) := by
  generalize hafter : session.delivered k
    (.swarm, Particle.update (.particle i) (some .swarm) fitness position)
      (some (session.swarm.improve ⟨.UPDATE_GLOBAL_SOLUTION, fitness, position⟩, [])) = after
  have hreports : after.reports = session.reports ++ [(fitness, position)] := by
    rw [← hafter, reports_delivered]
    rfl
  have hswarm : after.swarm =
      session.swarm.improve ⟨.UPDATE_GLOBAL_SOLUTION, fitness, position⟩ := by
    rw [← hafter, swarm_delivered_swarm]
  have hne : after.reports ≠ [] := by
    rw [hreports]
    exact List.append_ne_nil_of_right_ne_nil _ (List.cons_ne_nil _ _)
  constructor
  · intro h hnil
    -- a first report that is no better is not kept
    by_cases hless : fitness < session.swarm.bestGlobalFitness
    · exact .inl hless
    · right
      have hmem := (h.2 hne).1
      rw [hreports, hnil, hswarm, Swarm.improve, if_neg hless, List.nil_append, List.mem_singleton,
        Prod.mk.injEq] at hmem
      exact ⟨hmem.1.symm, hmem.2.symm⟩
  · intro hfirst
    refine ⟨fun hnil => absurd hnil hne, fun _ => ?_⟩
    by_cases hless : fitness < session.swarm.bestGlobalFitness
    · rw [hswarm, Swarm.improve, if_pos hless, hreports]
      refine ⟨List.mem_append_right _ (List.mem_singleton.2 rfl), fun report hreport => ?_⟩
      rcases List.mem_append.1 hreport with hreport | hreport
      · have hnot := (hbest.2 (List.ne_nil_of_mem hreport)).2 report hreport
        exact fun hlt => hnot (Num.lt_trans hlt hless)
      · rw [List.mem_singleton.1 hreport]
        exact Num.lt_irrefl fitness
    · rw [hswarm, Swarm.improve, if_neg hless, hreports]
      refine ⟨?_, fun report hreport => ?_⟩
      · -- the best one stays, and is among the reports if there are any
        by_cases hnil : session.reports = []
        · obtain ⟨rfl, rfl⟩ := (hfirst hnil).resolve_left hless
          exact List.mem_append_right _ (List.mem_singleton.2 rfl)
        · exact List.mem_append_left _ (hbest.2 hnil).1
      · rcases List.mem_append.1 hreport with hreport | hreport
        · exact (hbest.2 (List.ne_nil_of_mem hreport)).2 report hreport
        · rw [List.mem_singleton.1 hreport]
          exact hless

omit [Field K] in
/-- The end of an iteration leaves the best solution alone. -/
theorem onMessage_inform_best {swarm : Swarm K d} {i : ℕ}
    {out : Swarm K d × List (AgentName × Message K d)}
    (hout : swarm.onMessage settings (Particle.inform i) = some out) :
    out.1.bestGlobalFitness = swarm.bestGlobalFitness ∧
      out.1.bestGlobalPosition = swarm.bestGlobalPosition := by
  rw [Swarm.onMessage_inform] at hout
  split at hout
  · cases hout
  · split at hout
    · rw [Option.some.injEq] at hout
      subst hout
      unfold Swarm.iterate
      split
      · exact ⟨rfl, rfl⟩
      · exact ⟨rfl, rfl⟩
    · cases hout
      exact ⟨rfl, rfl⟩

/-- Only a first report can part the best solution from the reports. -/
theorem best_step_iff {session' : Session K d} {event : Event K d} (hsound : session.Sound)
    (hbest : session.Best settings) (hstep : Session.step settings session event = some session') :
    session'.Best settings ↔ session.FirstReport event := by
  -- a message of another kind is no first report
  have hvacuous : ∀ name message, session.net.flight[event.k]? = some (name, message) →
      message.performative ≠ .REQUEST ∨ name ≠ .swarm → session.FirstReport event := by
    intro name message hk hkind i fitness position hk'
    rw [hk, Option.some.injEq, Prod.mk.injEq] at hk'
    obtain ⟨rfl, rfl⟩ := hk'
    exact absurd rfl (hkind.resolve_right (not_not_intro rfl))
  cases happens_of_step hsound hstep with
  | stopped message hk hstopped =>
      rw [delivered_none]
      refine iff_of_true hbest fun i fitness position hk' hrunning => ?_
      rw [hstopped] at hrunning
      cases hrunning
  | thrown i hk =>
      rw [delivered_none]
      refine iff_of_true hbest (hvacuous .swarm _ hk (.inl fun heq => ?_))
      cases heq
  | update i fitness position hk hrunning =>
      rw [best_update_iff hbest]
      constructor
      · intro h j fitness' position' hk'
        rw [hk] at hk'
        cases hk'
        exact fun _ => h
      · exact fun h => h i fitness position hk hrunning
  | inform i out hk hrunning hout =>
      obtain ⟨hfitness, hposition⟩ := onMessage_inform_best hout
      refine iff_of_true ((Best.congr ?_ ?_ ?_).2 hbest) (hvacuous .swarm _ hk (.inl fun heq => ?_))
      · rw [reports_delivered]
        exact List.append_nil _
      · rw [swarm_delivered_swarm, hfitness]
      · rw [swarm_delivered_swarm, hposition]
      · cases heq
  | request i fitness position hk =>
      have hne : AgentName.particle i ≠ .swarm := fun heq => by cases heq
      refine iff_of_true ((Best.congr ?_ ?_ ?_).2 hbest) (hvacuous (.particle i) _ hk (.inr hne))
      · rw [reports_delivered]
        exact List.append_nil _
      · rw [swarm_delivered_particle]
      · rw [swarm_delivered_particle]

end Session

end Reports

/-! ## Whole runs -/

section Runs

variable {K : Type} [Field K] [LinearOrder K] {d : ℕ} {settings : Settings K d}

namespace Session

/-- A particle that handles a request for an iteration posts one message that informs the swarm. -/
def Answers (settings : Settings K d) (session : Session K d) (event : Event K d) : Prop :=
  ∀ i message, session.net.flight[event.k]? = some (.particle i, message) →
    requestedOf (.particle i, message) = some i →
      ∃ particle posts, behaviour settings (.particle i) (session.net.state (.particle i)) message
        event.draw = some (particle, posts) ∧ posts.filterMap informedBy = [i]

/-- What an iteration has to be like. -/
structure Complete (settings : Settings K d) (session : Session K d) (event : Event K d) :
    Prop where
  answers : session.Answers settings event
  after : ∀ session', step settings session event = some session' →
    session'.Barrier settings ∧ session'.Best settings

/-- No particle finds a fitness below the one that its request has come with. -/
def NoneBetter (settings : Settings K d) (session : Session K d) (event : Event K d) : Prop :=
  ∀ i fitness position,
    session.net.flight[event.k]? = some (.particle i, Swarm.request fitness position i) →
      ¬ settings.objectiveFunction
        ((session.particle i).newPosition settings position event.draw) < fitness

/-- A particle answers a request exactly when it has found nothing better. -/
theorem answers_iff {session : Session K d} {event : Event K d} (hsound : session.Sound) :
    session.Answers settings event ↔ session.NoneBetter settings event := by
  have hhandles : ∀ i fitness position, behaviour settings (.particle i)
      (session.net.state (.particle i)) (Swarm.request fitness position i) event.draw = _ :=
    fun i fitness position => Particle.onMessage_request (hsound.particle i).2 (hsound.particle i).1
      fitness position i event.draw
  constructor
  · intro h i fitness position hk hless
    obtain ⟨particle, posts, hout, hposts⟩ := h i _ hk rfl
    rw [hhandles, Option.some.injEq, Prod.mk.injEq, if_pos hless] at hout
    rw [← hout.2] at hposts
    cases hposts
  · intro h i message hk _
    have hmessage : OfMessage (.particle i) message := hsound.of_flight hk
    cases hmessage with
    | request fitness position =>
        refine ⟨_, _, hhandles i fitness position, ?_⟩
        rw [if_neg (h i fitness position hk)]
        rfl

/-- Without reports there is nothing to be the best of. -/
theorem best_initial (settings : Settings K d) (draws : ℕ → Draw K d) :
    (initial settings draws).Best settings := by
  refine ⟨fun _ => ?_, fun hne => absurd rfl hne⟩
  have hswarm : (initial settings draws).swarm =
      ((Swarm.initial settings).iterate settings).1 := rfl
  rw [hswarm, Swarm.iterate]
  split
  · rfl
  · rfl

/-- The swarm goes on only after all the particles, in every run. -/
theorem barrier_execute (settings : Settings K d) (draws : ℕ → Draw K d)
    {events : List (Event K d)} {session : Session K d}
    (h : execute (step settings) (initial settings draws) events = some session) :
    session.Barrier settings := by
  have hrun : Along (step settings) (fun _ _ => True) (initial settings draws) events :=
    along_of_forall (fun _ _ => trivial) _ events
  have hinvariant := @Along.invariant _ _ (step settings) _
    (fun session : Session K d => session.Sound ∧ session.Counted settings)
    (fun session event session' hinv _ hstep =>
      ⟨hinv.1.step hstep, hinv.2.step hinv.1 hstep⟩) _ _ _ hrun
    ⟨sound_initial settings draws, counted_initial settings draws⟩ h
  exact hinvariant.2.barrier

/-! ### Particles started by hand -/

/-- The state that is reached by hand is sound. -/
theorem sound_byHand (settings : Settings K d) (draws : ℕ → Draw K d)
    (requests : List (Fin settings.numberParticles × Num K × Position K d)) :
    (byHand settings draws requests).Sound := by
  refine ⟨fun name => ?_, fun p hp => ?_⟩
  · cases name with
    | swarm => exact trivial
    | particle i => exact ⟨rfl, rfl⟩
  · rcases List.mem_append.1 hp with hp | hp
    · obtain ⟨i, -, hi⟩ := List.mem_filterMap.1 hp
      cases hi
      exact .update i _ _
    · obtain ⟨r, -, hr⟩ := List.mem_filterMap.1 hp
      cases hr
      exact .request _ _ _

/-- There is no swarm: nothing is asked in its name that it counts, and nothing reported to it is
handled. -/
structure Discarded (settings : Settings K d) (session : Session K d) : Prop where
  swarm : session.swarm = (Swarm.initial settings).finish
  reports : session.reports = []

/-- In the state that is reached by hand the swarm is discarded. -/
theorem discarded_byHand (settings : Settings K d) (draws : ℕ → Draw K d)
    (requests : List (Fin settings.numberParticles × Num K × Position K d)) :
    (byHand settings draws requests).Discarded settings := ⟨rfl, rfl⟩

omit [LinearOrder K] in
/-- A discarded swarm starts no iteration too early. -/
theorem Discarded.barrier {session : Session K d} (h : session.Discarded settings) :
    session.Barrier settings := by
  intro k hk hlt
  rw [h.swarm] at hlt
  exact absurd hlt (Nat.not_lt_zero k)

/-- A discarded swarm has heard no reports. -/
theorem Discarded.best {session : Session K d} (h : session.Discarded settings) :
    session.Best settings := by
  refine ⟨fun _ => ?_, fun hne => absurd h.reports hne⟩
  rw [h.swarm]
  rfl

/-- A discarded swarm stays discarded. -/
theorem Discarded.step {session session' : Session K d} {event : Event K d} (hsound : session.Sound)
    (h : session.Discarded settings) (hstep : Session.step settings session event = some session') :
    session'.Discarded settings := by
  have hstopped : session.swarm.stopped = true := congrArg Swarm.stopped h.swarm
  -- only the particles are still there
  cases happens_of_step hsound hstep with
  | stopped message hk _ =>
      rw [delivered_none]
      exact ⟨h.swarm, h.reports⟩
  | thrown i hk =>
      rw [delivered_none]
      exact ⟨h.swarm, h.reports⟩
  | update i fitness position hk hrunning => cases hstopped.symm.trans hrunning
  | inform i out hk hrunning hout => cases hstopped.symm.trans hrunning
  | request i fitness position hk =>
      refine ⟨?_, ?_⟩
      · rw [swarm_delivered_particle]
        exact h.swarm
      · rw [reports_delivered, h.reports]
        rfl

/-- What every run keeps, wherever it starts. -/
structure Kept (settings : Settings K d) (session : Session K d) : Prop where
  sound : session.Sound
  counted : session.Counted settings ∨ session.Discarded settings
  best : session.Best settings

/-- The barrier is right in every state that is kept. -/
theorem Kept.barrier {session : Session K d} (h : session.Kept settings) :
    session.Barrier settings :=
  h.counted.elim Counted.barrier Discarded.barrier

/-- The invariant holds where a run starts. -/
theorem Started.kept {start : Session K d} (h : Started settings start) :
    start.Kept settings := by
  cases h with
  | meant draws =>
      exact ⟨sound_initial settings draws, .inl (counted_initial settings draws),
        best_initial settings draws⟩
  | byHand draws requests =>
      have hdiscarded := discarded_byHand settings draws requests
      exact ⟨sound_byHand settings draws requests, .inr hdiscarded, hdiscarded.best⟩

/-- A delivery keeps the invariant where the best solution is right after it. -/
theorem Kept.step {session session' : Session K d} {event : Event K d} (h : session.Kept settings)
    (hbest : session'.Best settings)
    (hstep : Session.step settings session event = some session') : session'.Kept settings :=
  ⟨h.sound.step hstep, h.counted.imp (fun hcounted => hcounted.step h.sound hstep)
    fun hdiscarded => hdiscarded.step h.sound hstep, hbest⟩

/-- One delivery is complete exactly when no particle finds something better, and a first report is
one that counts. -/
theorem complete_iff {session : Session K d} {event : Event K d} (h : session.Kept settings) :
    session.Complete settings event ↔
      session.NoneBetter settings event ∧ session.FirstReport event := by
  rw [← answers_iff h.sound]
  constructor
  · intro hcomplete
    refine ⟨hcomplete.answers, ?_⟩
    cases hstep : Session.step settings session event with
    | none =>
        intro i fitness position hk
        rw [Session.step, hk] at hstep
        cases hstep
    | some session' => exact (best_step_iff h.sound h.best hstep).1 (hcomplete.after session' hstep).2
  · rintro ⟨hanswers, hfirst⟩
    refine ⟨hanswers, fun session' hstep => ?_⟩
    have hbest := (best_step_iff h.sound h.best hstep).2 hfirst
    exact ⟨(h.step hbest hstep).barrier, hbest⟩

/-- The iterations of a run are complete when, in all of it, no particle finds a fitness below the
one that its request has come with, and the first report improves on what the swarm starts with. -/
theorem iterations_complete_iff {start : Session K d} (hstart : Started settings start)
    (events : List (Event K d)) :
    start.Barrier settings ∧ start.Best settings ∧
      (Along (step settings) (Complete settings) start events ↔
        Along (step settings)
          (fun session event => session.NoneBetter settings event ∧ session.FirstReport event)
          start events) := by
  have hkept := hstart.kept
  refine ⟨hkept.barrier, hkept.best, ?_⟩
  have hruns := @along_iff (Session K d) (Event K d) (step settings) (fun _ => True) (Kept settings)
    (Complete settings)
    (fun session event => session.NoneBetter settings event ∧ session.FirstReport event)
    (fun session event h _ => complete_iff h)
    (fun session event session' h _ hcomplete hstep =>
      h.step (hcomplete.after session' hstep).2 hstep)
  exact hruns events start hkept fun _ _ => trivial

/-! ### A swarm that does not go on -/

/-- Every particle finds a fitness below the one that its request has come with. -/
def AllBetter (settings : Settings K d) (session : Session K d) (event : Event K d) : Prop :=
  ∀ i fitness position,
    session.net.flight[event.k]? = some (.particle i, Swarm.request fitness position i) →
      settings.objectiveFunction
        ((session.particle i).newPosition settings position event.draw) < fitness

/-- No message informs the swarm, which is in its first iteration at most. -/
def Waiting (session : Session K d) : Prop :=
  (∀ p ∈ session.net.flight, informedBy p = none) ∧ session.swarm.iteration ≤ 1

/-- Where every particle finds something better, the swarm goes on waiting. -/
theorem Waiting.step {session session' : Session K d} {event : Event K d} (hsound : session.Sound)
    (h : session.Waiting) (hbetter : session.AllBetter settings event)
    (hstep : Session.step settings session event = some session') : session'.Waiting := by
  obtain ⟨hflight, hiteration⟩ := h
  have herase : ∀ p ∈ session.net.flight.eraseIdx event.k, informedBy p = none := fun p hp =>
    hflight p (List.mem_of_mem_eraseIdx hp)
  have hkept : ∀ p ∈ session.net.flight.eraseIdx event.k ++ [], informedBy p = none := by
    rw [List.append_nil]
    exact herase
  cases happens_of_step hsound hstep with
  | stopped message hk hstopped =>
      rw [delivered_none]
      exact ⟨herase, hiteration⟩
  | thrown i hk =>
      rw [delivered_none]
      exact ⟨herase, hiteration⟩
  | update i fitness position hk hrunning =>
      refine ⟨hkept, ?_⟩
      rw [swarm_delivered_swarm, (improve_fields session.swarm _).1]
      exact hiteration
  | inform i out hk hrunning hout =>
      -- no particle has told the swarm that it is finished
      have hnone := hflight _ (List.mem_of_getElem? hk)
      cases hnone
  | request i fitness position hk =>
      -- the report throws, so that nothing is posted
      rw [if_pos (hbetter i fitness position hk)]
      refine ⟨hkept, ?_⟩
      rw [swarm_delivered_particle]
      exact hiteration

/-- At the start the swarm waits in its first iteration. -/
theorem waiting_initial (settings : Settings K d) (draws : ℕ → Draw K d) :
    (initial settings draws).Waiting := by
  have hupdates : ∀ p ∈ updates settings draws, informedBy p = none := by
    intro p hp
    obtain ⟨i, -, rfl⟩ := List.mem_map.1 hp
    rfl
  have hswarm : (initial settings draws).swarm =
      ((Swarm.initial settings).iterate settings).1 := rfl
  rw [Waiting, flight_initial, hswarm]
  rcases Nat.lt_or_ge (Swarm.initial settings).iteration settings.numberIterations with hlt | hge
  · rw [iterate_of_lt hlt]
    refine ⟨fun p hp => ?_, Nat.le_refl 1⟩
    rcases List.mem_append.1 hp with hp | hp
    · exact hupdates p hp
    · obtain ⟨i, -, rfl⟩ := List.mem_map.1 hp
      rfl
  · rw [iterate_of_le hge, List.append_nil]
    exact ⟨hupdates, Nat.zero_le 1⟩

/-- The swarm asks no particle for a second iteration as long as every one of them has something to
report, and none informs it. The requests of the first iteration come with the largest number. -/
theorem iteration_le_one (settings : Settings K d) (draws : ℕ → Draw K d)
    {events : List (Event K d)} {session : Session K d}
    (hbetter : Along (step settings) (AllBetter settings) (initial settings draws) events)
    (h : execute (step settings) (initial settings draws) events = some session) :
    session.swarm.iteration ≤ 1 ∧ ∀ p ∈ session.net.flight, informedBy p = none := by
  have hinvariant := @Along.invariant _ _ (step settings) _
    (fun session : Session K d => session.Sound ∧ session.Waiting)
    (fun session event session' hinv hbetter hstep =>
      ⟨hinv.1.step hstep, hinv.2.step hinv.1 hbetter hstep⟩) _ _ _ hbetter
    ⟨sound_initial settings draws, waiting_initial settings draws⟩ h
  exact hinvariant.2.symm

/-- Random numbers that are all one half. -/
def halves : Draw ℚ 2 := ⟨fun _ => .val (1 / 2), fun _ => .val (1 / 2)⟩

/-- The ten particles of the source, with the largest number of 64 bits. -/
def tenParticles : Settings ℚ 2 := Settings.source ((2 - 1 / 2 ^ 52) * 2 ^ 1023) false

/-- One request to `Particle0`, with the largest number. -/
def oneRequest : List (Fin tenParticles.numberParticles × Num ℚ × Position ℚ 2) :=
  [(⟨0, by decide⟩, .val tenParticles.MAX_VALUE, fun _ => .val 0)]

/-- The swarm has thrown its exception, and the particles have been started by hand. The first of
them is asked for an iteration. It finds a fitness of 3, and does not answer. -/
theorem first_iteration_unanswered :
    ¬ ∀ (settings : Settings ℚ 2) (start : Session ℚ 2), Started settings start →
        ∀ events : List (Event ℚ 2), Along (step settings) (Complete settings) start events := by
  intro hall
  have hstart : Started tenParticles (byHand tenParticles (fun _ => halves) oneRequest) :=
    .byHand (fun _ => halves) oneRequest
  have hcomplete : Complete tenParticles (byHand tenParticles (fun _ => halves) oneRequest)
      ⟨10, halves⟩ := (hall tenParticles _ hstart [⟨10, halves⟩]).1
  have hnone := (answers_iff hstart.kept.sound).1 hcomplete.answers
  exact hnone 0 _ _ rfl (by decide +kernel)

/-- One particle, which has nothing to report. -/
def oneParticle : Settings ℚ 2 :=
  { tenParticles with numberParticles := 1, MAX_VALUE := 0, objectiveFunction := fun _ => .val 0 }

/-- Two requests to `Particle0`. -/
def twoRequests : List (Fin oneParticle.numberParticles × Num ℚ × Position ℚ 2) :=
  List.replicate 2 (⟨0, by decide⟩, .val 0, fun _ => .val 0)

/-- It is asked twice by hand, and answers each time. -/
theorem iterations_complete_iff_oneParticle :
    Along (step oneParticle) (Complete oneParticle)
      (byHand oneParticle (fun _ => halves) twoRequests)
      [⟨1, halves⟩, ⟨1, halves⟩, ⟨0, halves⟩] := by
  have hstart : Started oneParticle (byHand oneParticle (fun _ => halves) twoRequests) :=
    .byHand _ _
  refine (iterations_complete_iff hstart _).2.2.2 ?_
  -- the objective function is 0 everywhere, and the swarm has been stopped
  refine ⟨⟨?_, ?_⟩, fun _ hfirst => ⟨⟨?_, ?_⟩, fun _ hsecond => ⟨⟨?_, ?_⟩, fun _ _ => trivial⟩⟩⟩
  · exact fun i fitness position hk => by cases hk; decide +kernel
  · exact fun i fitness position hk => by cases hk
  · cases hfirst
    exact fun i fitness position hk => by cases hk; decide +kernel
  · cases hfirst
    exact fun i fitness position hk => by cases hk
  · cases hfirst
    cases hsecond
    exact fun i fitness position hk => by cases hk
  · cases hfirst
    cases hsecond
    exact fun i fitness position hk hrunning => by cases hrunning

/-- The particle answers, and the swarm goes into its second iteration. -/
theorem barrier_execute_oneParticle :
    ∃ session, execute (step oneParticle) (initial oneParticle fun _ => halves)
        [⟨1, halves⟩, ⟨1, halves⟩] = some session ∧
      session.swarm.iteration = 2 ∧ session.Barrier oneParticle := by
  refine ⟨_, rfl, ?_, ?_⟩
  · rfl
  · exact @barrier_execute ℚ _ _ 2 oneParticle (fun _ => halves) [⟨1, halves⟩, ⟨1, halves⟩] _ rfl

/-- The first of ten particles does not answer. -/
theorem iteration_le_one_tenParticles :
    ∃ session, execute (step tenParticles) (initial tenParticles fun _ => halves)
        [⟨10, halves⟩] = some session ∧ session.swarm.iteration ≤ 1 ∧
      ∀ p ∈ session.net.flight, informedBy p = none := by
  have hbetter : Along (step tenParticles) (AllBetter tenParticles)
      (initial tenParticles fun _ => halves) [⟨10, halves⟩] := by
    refine ⟨fun i fitness position hk => ?_, fun _ _ => trivial⟩
    cases hk
    decide +kernel
  exact ⟨_, rfl, iteration_le_one tenParticles (fun _ => halves) hbetter rfl⟩

end Session

end Runs

end Siebog.Pso
