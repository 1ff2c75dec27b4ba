import Siebog.Agents.AgentInitArgs
import Siebog.Interaction.MessageText
import Siebog.Lib.ExactNum
import Siebog.Lib.Network
import Mathlib.Data.Fin.VecNotation

/-!
# Particle swarm optimization

The swarm asks its particles for one iteration after the other. A particle moves to a new position,
reports a fitness below the best one that the request has come with, and tells the swarm that its
iteration is finished; the swarm goes on when it has heard from as many particles as there are.

`Swarm.onMessage` and `Particle.onMessage` are the handlers of the two agents, and a `Session` is
the swarm with its particles, the messages in flight between them, and a record of the messages that
have been handled. Texts of messages are left out: a content is the message that it encodes.

`Session.onInit` is how the swarm starts. The arguments that it makes for its particles are ones
that their constructor does not take, so that it comes no further than the first of them
(`onInit_arrow`). `Session.initial` is the state that it is meant to reach, `Session.byHand` one
that is reached without it: somebody else starts the particles and posts requests to them.
-/

set_option autoImplicit false

namespace Siebog.Pso

open Siebog.Lib Siebog.Lib.Utf16
open Siebog.Interaction.MessageText (Performative)

section Model

variable {K : Type} [Field K] [LinearOrder K] {d : ℕ}

/-- A point of the search space. -/
abbrev Position (K : Type) (d : ℕ) : Type := Fin d → Num K

/-! ## Messages -/

/-- The swarm, and its particles by their numbers. -/
inductive AgentName where
  | swarm
  | particle (i : ℕ)
  deriving DecidableEq

/-- What a request asks for. -/
inductive Action where
  | UPDATE_GLOBAL_SOLUTION
  | ITERATE_PARTICLE
  deriving DecidableEq

/-- The content of a request, a solution with its fitness. -/
structure PsoMessage (K : Type) (d : ℕ) where
  action : Action
  fitness : Num K
  position : Position K d

/-- What the agents use of a message, which is for one receiver. The receiver can be `null`. -/
structure Message (K : Type) (d : ℕ) where
  performative : Performative
  sender : Option AgentName
  receiver : Option AgentName
  content : Option (PsoMessage K d)

/-- `none` is the exception for a message without a sender. -/
def Message.makeReply (message : Message K d) (performative : Performative) :
    Option (Message K d) :=
  message.sender.map fun sender => ⟨performative, none, some sender, none⟩

/-- `MessageManagerBean.post`. `none` is its exception for a receiver that is `null`. -/
def post (message : Message K d) : Option (AgentName × Message K d) :=
  message.receiver.map fun receiver => (receiver, message)

/-- What a session is made of. The source has a function to minimize for two dimensions, and does
not say what the JSON library makes of a content that is `null`: it can throw an exception other
than the one that `PsoMessage.valueOf` catches. -/
structure Settings (K : Type) (d : ℕ) where
  numberParticles : ℕ
  numberIterations : ℕ
  minX : K
  maxX : K
  MAX_VALUE : K
  objectiveFunction : Position K d → Num K
  throwsOnNull : Bool

/-- The outer `none` is an exception, the inner one is `null`. -/
def PsoMessage.valueOf (settings : Settings K d) :
    Option (PsoMessage K d) → Option (Option (PsoMessage K d))
  | some psoMessage => some (some psoMessage)
  | none => if settings.throwsOnNull then none else some none

/-! ## Particles -/

/-- The fields of a particle that change. -/
structure Particle (K : Type) (d : ℕ) where
  myAid : AgentName
  swarmAID : Option AgentName
  position : Position K d
  fitness : Num K
  velocity : Position K d
  bestPosition : Position K d
  bestFitness : Num K

/-- Random numbers, for each dimension. -/
structure Draw (K : Type) (d : ℕ) where
  r1 : Position K d
  r2 : Position K d

/-- A value outside of the range becomes its nearest bound. -/
def clamp (lo hi x : Num K) : Num K := if x < lo then lo else if hi < x then hi else x

namespace Particle

/-- The inertia weight. -/
def w : Num K := .val (729 / 1000)

/-- The cognitive weight. -/
def c1 : Num K := .val (149445 / 100000)

/-- The social weight. -/
def c2 : Num K := .val (149445 / 100000)

/-- What a particle reports to `swarmAID`. -/
def update (myAid : AgentName) (swarmAID : Option AgentName) (fitness : Num K)
    (position : Position K d) : Message K d :=
  ⟨.REQUEST, some myAid, swarmAID, some ⟨.UPDATE_GLOBAL_SOLUTION, fitness, position⟩⟩

/-- The swarm's name goes into a local variable that hides the field, which stays `null`. -/
def onInit (settings : Settings K d) (myAid : AgentName) (draw : Draw K d) :
    Particle K d × Option (AgentName × Message K d) :=
  let position : Position K d := fun j =>
    (.val settings.maxX - .val settings.minX) * draw.r1 j + .val settings.minX
  let range : Num K := .val |settings.maxX - settings.minX|
  let lo : Num K := .val (-1) * range
  let velocity : Position K d := fun j => (range - lo) * draw.r2 j + lo
  let fitness := settings.objectiveFunction position
  let swarmAID := some AgentName.swarm
  (⟨myAid, none, position, fitness, velocity, position, fitness⟩,
    post (update myAid swarmAID fitness position))

/-- The next velocity: inertia, the pull of the particle's own best position and that of the best of
all. -/
def newVelocity (settings : Settings K d) (particle : Particle K d)
    (bestGlobalPosition : Position K d) (draw : Draw K d) : Position K d := fun j =>
  clamp (.val (-1) * .val settings.maxX) (.val settings.maxX)
    (w * particle.velocity j +
      c1 * draw.r1 j * (particle.bestPosition j - particle.position j) +
      c2 * draw.r2 j * (bestGlobalPosition j - particle.position j))

/-- The next position, kept between the bounds. -/
def newPosition (settings : Settings K d) (particle : Particle K d)
    (bestGlobalPosition : Position K d) (draw : Draw K d) : Position K d := fun j =>
  clamp (.val settings.minX) (.val settings.maxX)
    (particle.position j + particle.newVelocity settings bestGlobalPosition draw j)

/-- The particle after an iteration. -/
def move (settings : Settings K d) (particle : Particle K d) (bestGlobalPosition : Position K d)
    (draw : Draw K d) : Particle K d :=
  let newPosition := particle.newPosition settings bestGlobalPosition draw
  let newFitness := settings.objectiveFunction newPosition
  let moved := { particle with
    velocity := particle.newVelocity settings bestGlobalPosition draw
    position := newPosition
    fitness := newFitness }
  if newFitness < particle.bestFitness then
    { moved with bestPosition := newPosition, bestFitness := newFitness }
  else moved

/-- What an iteration posts; `none` is the exception of `post`. -/
def iteration (settings : Settings K d) (particle : Particle K d) (bestGlobalFitness : Num K)
    (bestGlobalPosition : Position K d) (draw : Draw K d) :
    Option (List (AgentName × Message K d)) :=
  let newPosition := particle.newPosition settings bestGlobalPosition draw
  let newFitness := settings.objectiveFunction newPosition
  if newFitness < bestGlobalFitness then
    (post (update particle.myAid particle.swarmAID newFitness newPosition)).map fun p => [p]
  else some []

/-- The reply to the swarm that the iteration is finished. The swarm's name is added to the
receivers of the request, not of the reply. -/
def reply (particle : Particle K d) (message : Message K d) :
    Option (AgentName × Message K d) := do
  let reply ← message.makeReply .INFORM
  post { reply with sender := some particle.myAid }

/-- `none` is an exception before anything has changed. -/
def onMessage (settings : Settings K d) (particle : Particle K d) (message : Message K d)
    (draw : Draw K d) : Option (Particle K d × List (AgentName × Message K d)) := do
  let psoMessage ← PsoMessage.valueOf settings message.content
  if message.performative = .REQUEST then
    let psoMessage ← psoMessage
    if psoMessage.action = .ITERATE_PARTICLE then
      let moved := particle.move settings psoMessage.position draw
      match particle.iteration settings psoMessage.fitness psoMessage.position draw with
      -- the particle has moved by then, and the reply is not posted
      | none => some (moved, [])
      | some posts => some (moved, posts ++ (particle.reply message).toList)
    else some (particle, [])
  else some (particle, [])

end Particle

/-! ## The swarm -/

/-- The fields of the swarm that change. -/
structure Swarm (K : Type) (d : ℕ) where
  iteration : ℕ
  iteratedParticles : ℕ
  bestGlobalPosition : Position K d
  bestGlobalFitness : Num K
  stopped : Bool

namespace Swarm

/-- The swarm before its first iteration. -/
def initial (settings : Settings K d) : Swarm K d :=
  ⟨0, 0, fun _ => .val 0, .val settings.MAX_VALUE, false⟩

/-- The request to particle `i` for an iteration. -/
def request (bestGlobalFitness : Num K) (bestGlobalPosition : Position K d) (i : ℕ) :
    Message K d :=
  ⟨.REQUEST, some .swarm, some (.particle i),
    some ⟨.ITERATE_PARTICLE, bestGlobalFitness, bestGlobalPosition⟩⟩

/-- The particles are stopped as well. They have nothing left to handle then. -/
def finish (swarm : Swarm K d) : Swarm K d := { swarm with stopped := true }

/-- The next iteration is asked of all particles, or the swarm is finished. -/
def iterate (settings : Settings K d) (swarm : Swarm K d) :
    Swarm K d × List (AgentName × Message K d) :=
  if swarm.iteration < settings.numberIterations then
    ({ swarm with iteration := swarm.iteration + 1, iteratedParticles := 0 },
      (List.range settings.numberParticles).filterMap fun i =>
        post (request swarm.bestGlobalFitness swarm.bestGlobalPosition i))
  else (swarm.finish, [])

/-- The best solution after one that has been reported. -/
def improve (swarm : Swarm K d) (psoMessage : PsoMessage K d) : Swarm K d :=
  if psoMessage.fitness < swarm.bestGlobalFitness then
    { swarm with
      bestGlobalFitness := psoMessage.fitness
      bestGlobalPosition := psoMessage.position }
  else swarm

/-- `none` is an exception. -/
def onMessage (settings : Settings K d) (swarm : Swarm K d) (message : Message K d) :
    Option (Swarm K d × List (AgentName × Message K d)) := do
  let psoMessage ← PsoMessage.valueOf settings message.content
  if message.performative = .REQUEST then
    let psoMessage ← psoMessage
    if psoMessage.action = .UPDATE_GLOBAL_SOLUTION then
      some (swarm.improve psoMessage, [])
    else some (swarm, [])
  else if message.performative = .INFORM then
    let counted := { swarm with iteratedParticles := swarm.iteratedParticles + 1 }
    if counted.iteratedParticles = settings.numberParticles then some (counted.iterate settings)
    else some (counted, [])
  else some (swarm, [])

end Swarm

/-! ## Sessions -/

/-- What an agent keeps. -/
abbrev AgentState (K : Type) (d : ℕ) : AgentName → Type
  | .swarm => Swarm K d
  | .particle _ => Particle K d

/-- What an agent does with a message. A swarm that has been stopped does nothing. -/
def behaviour (settings : Settings K d) :
    Network.Behaviour (AgentState K d) (Message K d) (Draw K d)
  | .swarm, swarm, message, _ =>
    if swarm.stopped then none else Swarm.onMessage settings swarm message
  | .particle _, particle, message, draw => Particle.onMessage settings particle message draw

/-- The agents, and the messages that have been handled, each with its receiver and with the
iteration that the swarm was in. -/
structure Session (K : Type) (d : ℕ) where
  net : Network (AgentState K d) (Message K d)
  handled : List (ℕ × AgentName × Message K d)

/-- The message in flight at index `k` is delivered. -/
structure Event (K : Type) (d : ℕ) where
  k : ℕ
  draw : Draw K d

/-- The arguments for a particle, with `sep` between the key and the value of each. The source has
`->` there, where `AgentInitArgs` looks for `=`. `none` is the exception of the constructor. -/
def Swarm.mapArgs (sep dimension minX maxX : Text) : Option Agents.AgentInitArgs :=
  Agents.AgentInitArgs.new [text "dimension" ++ sep ++ dimension, text "minx" ++ sep ++ minX,
    text "maxx" ++ sep ++ maxX]

namespace Session

/-- The state that `Swarm.onInit` is meant to reach: the swarm has started its particles, and gone
into its first iteration. -/
def initial (settings : Settings K d) (draws : ℕ → Draw K d) : Session K d :=
  let started := fun i => Particle.onInit settings (.particle i) (draws i)
  let iterated := (Swarm.initial settings).iterate settings
  { net :=
      { state := fun
          | .swarm => iterated.1
          | .particle i => (started i).1
        flight := (List.range settings.numberParticles).filterMap (fun i => (started i).2) ++
          iterated.2 }
    handled := [] }

/-- `Swarm.onInit`. `none` is an exception before any particle has been started. -/
def onInit (settings : Settings K d) (sep dimension minX maxX : Text) (draws : ℕ → Draw K d) :
    Option (Session K d) := do
  let _ ← (List.range settings.numberParticles).mapM fun _ =>
    Swarm.mapArgs sep dimension minX maxX
  return initial settings draws

/-- The exception has left `Swarm.onInit`, so the swarm is discarded. Its name is still in the
cache, where the manager has put it before. Somebody has started the particles with arguments that
the constructor takes, and has posted requests to them in the swarm's name. -/
def byHand (settings : Settings K d) (draws : ℕ → Draw K d)
    (requests : List (Fin settings.numberParticles × Num K × Position K d)) : Session K d :=
  let started := fun i => Particle.onInit settings (.particle i) (draws i)
  { net :=
      { state := fun
          | .swarm => (Swarm.initial settings).finish
          | .particle i => (started i).1
        flight := (List.range settings.numberParticles).filterMap (fun i => (started i).2) ++
          requests.filterMap fun r => post (Swarm.request r.2.1 r.2.2 r.1) }
    handled := [] }

/-- Where a run starts. -/
inductive Started (settings : Settings K d) : Session K d → Prop where
  | meant (draws : ℕ → Draw K d) : Started settings (initial settings draws)
  | byHand (draws : ℕ → Draw K d)
      (requests : List (Fin settings.numberParticles × Num K × Position K d)) :
      Started settings (byHand settings draws requests)

/-- The swarm of the session. -/
def swarm (session : Session K d) : Swarm K d := session.net.state .swarm

/-- Particle `i` of the session. -/
def particle (session : Session K d) (i : ℕ) : Particle K d := session.net.state (.particle i)

/-- The session after message `p` has been delivered. -/
def delivered (session : Session K d) (k : ℕ) (p : AgentName × Message K d)
    (out : Option (AgentState K d p.1 × List (AgentName × Message K d))) : Session K d where
  net := session.net.handled k p.1 out
  handled := session.handled ++ if out.isSome then [(session.swarm.iteration, p)] else []

/-- One delivery; `none` when no message is in flight at the index. -/
def step (settings : Settings K d) (session : Session K d) (event : Event K d) :
    Option (Session K d) :=
  session.net.flight[event.k]?.map fun p => session.delivered event.k p
    (behaviour settings p.1 (session.net.state p.1) p.2 event.draw)

end Session

end Model

/-! ## Starting -/

section Starting

open Agents.AgentInitArgs (EQUALS Holds keyValue exists_of_whole new_of_notMem)

variable {K : Type} [Field K] [LinearOrder K] {d : ℕ} {dimension minX maxX : Text}

/-- The constructor finds no value behind an arrow. -/
theorem Swarm.mapArgs_arrow (h : EQUALS ∉ dimension) :
    mapArgs (text "->") dimension minX maxX = none := by
  apply new_of_notMem
  intro hmem
  rcases List.mem_append.1 hmem with hmem | hmem
  · exact absurd hmem (by decide)
  · exact h hmem

/-- With the sign that the constructor looks for, the arguments hold what they are made from. -/
theorem Swarm.mapArgs_equals (hvalues : ∀ value ∈ [dimension, minX, maxX],
      value ≠ [] ∧ EQUALS ∉ value) :
    ∃ args, mapArgs (text "=") dimension minX maxX = some args ∧
      Holds [(text "dimension", dimension), (text "minx", minX), (text "maxx", maxX)] args := by
  have hkeys : ∀ key ∈ [text "dimension", text "minx", text "maxx"], key ≠ [] ∧ EQUALS ∉ key := by
    decide
  have hargs : mapArgs (text "=") dimension minX maxX = Agents.AgentInitArgs.new
      ([(text "dimension", dimension), (text "minx", minX), (text "maxx", maxX)].map keyValue) := by
    have hsign : text "=" = [EQUALS] := rfl
    rw [mapArgs, hsign]
    simp only [List.append_assoc, List.singleton_append]
    rfl
  rw [hargs]
  refine exists_of_whole ?_ (fun pair hpair => hkeys pair.1 ?_) (fun pair hpair =>
    hvalues pair.2 ?_)
  · show [text "dimension", text "minx", text "maxx"].Nodup
    decide
  · exact List.mem_map_of_mem (f := Prod.fst) hpair
  · exact List.mem_map_of_mem (f := Prod.snd) hpair

namespace Session

variable {settings : Settings K d} (draws : ℕ → Draw K d)

/-- The source's swarm starts no particle and posts no request. -/
theorem onInit_arrow (hparticles : 0 < settings.numberParticles) (h : EQUALS ∉ dimension) :
    onInit settings (text "->") dimension minX maxX draws = none := by
  obtain ⟨n, hn⟩ := Nat.exists_eq_succ_of_ne_zero hparticles.ne'
  rw [onInit, Swarm.mapArgs_arrow h, hn, List.range_succ_eq_map, List.mapM_cons]
  rfl

/-- The state that it would reach with arguments that the constructor takes. -/
theorem onInit_equals (hvalues : ∀ value ∈ [dimension, minX, maxX], value ≠ [] ∧ EQUALS ∉ value) :
    onInit settings (text "=") dimension minX maxX draws = some (initial settings draws) := by
  obtain ⟨args, hargs, -⟩ := Swarm.mapArgs_equals hvalues
  have hall : ∀ particles : List ℕ,
      (particles.mapM fun _ => Swarm.mapArgs (text "=") dimension minX maxX) =
        some (particles.map fun _ => args) := by
    intro particles
    induction particles with
    | nil => rfl
    | cons i particles ih =>
        rw [List.mapM_cons, ih, hargs]
        rfl
  rw [onInit, hall]
  rfl

end Session

end Starting

/-! ## The source's settings -/

section Settings

variable {K : Type} [Field K]

/-- The function to minimize. -/
def Particle.objectiveFunction (x : Position K 2) : Num K := .val 3 + x 0 * x 0 + x 1 * x 1

/-- Ten particles in two dimensions. -/
def Settings.source (MAX_VALUE : K) (throwsOnNull : Bool) : Settings K 2 where
  numberParticles := 10
  numberIterations := 1000
  minX := -100
  maxX := 100
  MAX_VALUE := MAX_VALUE
  objectiveFunction := Particle.objectiveFunction
  throwsOnNull := throwsOnNull

end Settings

end Siebog.Pso
