import Siebog.Aco.Ant
import Siebog.Lib.Network
import Mathlib.Data.List.Nodup

/-!
# A colony

The map and any number of ants, with their messages in flight and delivered in any order. An ant is
started by its question for the size of the map, and gone after it has stopped.

An ant reports the edges of its tour against the direction in which it has taken them, and the map
sets the level of one direction only. `pheromone_symmetric_iff` says in which runs the levels stay
symmetric all the same: those in which every update writes the level that it finds. What an update
writes is computed with floats in the source, so the result is about every function of the factor,
the level and the term that it could be (`Write`), with exact arithmetic as one of them.
-/

set_option autoImplicit false

namespace Siebog.Aco

open Siebog.Lib Siebog.Lib.Utf16 Siebog.Lib.Words

section Model

variable {K : Type} [Field K] [LinearOrder K]

/-- The states of the agents. An ant that has stopped is gone. -/
abbrev AgentState (K : Type) : AgentName → Type
  | .map => Map K
  | .ant _ => Option (Ant K)

abbrev Colony (K : Type) : Type := Network (AgentState K) Message

/-- Messages are in flight to their receivers. -/
def addressed (posts : List Message) : List (AgentName × Message) :=
  posts.map fun message => (message.receiver, message)

/-- What an agent does with a message. -/
def behaviour (fl : Floats K) : Network.Behaviour (AgentState K) Message (Draw K)
  | .map, map, message, _ =>
    (Map.onMessage fl map message).map fun out => (out.1, addressed out.2)
  | .ant _, none, _, _ => none
  | .ant _, some ant, message, draw =>
    (Ant.onMessage fl ant message draw).map fun out =>
      (if out.stopped then none else some out.ant, addressed out.posts)

namespace Colony

/-- No ant has been started. -/
def initial (fl : Floats K) (nodes : List (Node K)) : Colony K where
  state
    | .map => Map.loadMap fl nodes
    | .ant a => some (Ant.initial (.ant a))
  flight := []

/-- What can happen: an ant is started, or a message is delivered. -/
inductive Event (K : Type) where
  | start (a : ℕ)
  | deliver (k : ℕ) (draw : Draw K)

def Event.action : Event K → Network.Action AgentName Message (Draw K)
  | start a => .post .map (Ant.sizeRequest (.ant a))
  | deliver k draw => .deliver k draw

def step (fl : Floats K) (colony : Colony K) (event : Event K) : Option (Colony K) :=
  Network.step (behaviour fl) colony event.action

/-- The map of a colony. -/
def map (colony : Colony K) : Map K := colony.state .map

end Colony

/-! ### Rounded levels -/

/-- What an update writes, from its factor, the level that is there and its term. -/
abbrev Write (K : Type) : Type := Num K → Num K → Num K → Num K

/-- The level without rounding. -/
def Write.exact : Write K := fun factor level term => factor * level + term

/-- `Map.inform`, where an update writes what `write` makes of its numbers. -/
def Map.informWith (fl : Floats K) (write : Write K) (map : Map K) (content : Text) :
    Option (Map K) :=
  let parts := split content
  if text "UpdatePheromone" <+: content then do
    let i ← parts[1]?.bind parseInt
    let j ← parts[2]?.bind parseInt
    let factor ← parts[3]?.bind fl.parseFloat
    let term ← parts[4]?.bind fl.parseFloat
    let level ← map.getPheromoneLevel i j
    map.setPheromoneLevel i j (write factor level term)
  else map.inform fl content

def Map.onMessageWith (fl : Floats K) (write : Write K) (map : Map K) (message : Message) :
    Option (Map K × List Message) :=
  match message.performative with
  | .INFORM => do
    let content ← message.content
    let map ← map.informWith fl write content
    return (map, [])
  | _ => map.onMessage fl message

def behaviourWith (fl : Floats K) (write : Write K) :
    Network.Behaviour (AgentState K) Message (Draw K)
  | .map, map, message, _ =>
    (Map.onMessageWith fl write map message).map fun out => (out.1, addressed out.2)
  | .ant a, ant, message, draw => behaviour fl (.ant a) ant message draw

/-- The steps of a colony whose map rounds. -/
def Colony.stepWith (fl : Floats K) (write : Write K) (colony : Colony K) (event : Event K) :
    Option (Colony K) :=
  Network.step (behaviourWith fl write) colony event.action

/-- The level of an edge does not depend on the direction. -/
def Map.Symmetric (map : Map K) : Prop :=
  ∀ i j : Int, map.getPheromoneLevel i j = map.getPheromoneLevel j i

end Model

/-! ## What holds of ants and messages -/

section Assertions

variable {K : Type}

/-- Phases 1 and 2: the ant is on a walk through different nodes. -/
structure Walking (n : ℕ) (ant : Ant K) : Prop where
  mapSize : ant.mapSize = n
  ne_nil : ant.tourSoFar ≠ []
  nodup : ant.tourSoFar.Nodup
  lt : ∀ v ∈ ant.tourSoFar, v < n

/-- Phases 3 and 4: the walk has led back to its first node. -/
def Returned (n : ℕ) (ant : Ant K) : Prop :=
  ∃ first walk, ant.tourSoFar = first :: walk ++ [first] ∧ ant.currentMapPosIndex = first ∧
    walk ≠ [] ∧ (first :: walk).Nodup ∧ ∀ v ∈ first :: walk, v < n

/-- Phase 5: the node that the ant is at is not the last one of what is left of its tour. -/
structure Returning (n : ℕ) (ant : Ant K) : Prop where
  nodup : ant.tourSoFar.Nodup
  lt : ∀ v ∈ ant.tourSoFar, v < n
  current_lt : ant.currentMapPosIndex < n
  last_ne : ant.tourSoFar.getLast? ≠ some ant.currentMapPosIndex

/-- An ant in one of its phases. -/
inductive Shape (n : ℕ) (ant : Ant K) : Prop where
  | fresh (hphase : ant.phase = 0)
  | choosing (hphase : ant.phase = 1) (h : Walking n ant)
  | asked (hphase : ant.phase = 2) (h : Walking n ant)
      (hpotential : ant.potentialNodeIndices = joinWords (ant.unvisited.map Decimal.ofNat))
  | closing (hphase : ant.phase = 3) (h : Returned n ant)
  | closed (hphase : ant.phase = 4) (h : Returned n ant)
  | backtracking (hphase : ant.phase = 5) (h : Returning n ant)

/-- The messages that are in flight to an ant: replies about the size, and others that are none. -/
def ToAnt (n a : ℕ) (message : Message) : Prop :=
  message.receiver = .ant a ∧ (message.inReplyTo = none ∨
    message.inReplyTo = some (text "MapSize") ∧
      (message.content = some (text "DONE") ∨ message.content = some (Decimal.ofNat n)))

variable [Field K]

/-- A node that has not been visited is added to the walk. -/
theorem Walking.goTo {n : ℕ} {ant : Ant K} (h : Walking n ant) {v : ℕ} (hv : v ∈ ant.unvisited)
    (weight : Num K) : Walking n (ant.goTo v weight) := by
  rw [Ant.mem_unvisited, h.mapSize] at hv
  refine ⟨h.mapSize, List.append_ne_nil_of_right_ne_nil _ (List.cons_ne_nil v []), ?_, ?_⟩
  · refine List.nodup_append.2 ⟨h.nodup, List.nodup_singleton v, ?_⟩
    rintro u hu w hw rfl
    exact hv.2 (List.mem_singleton.1 hw ▸ hu)
  · intro u hu
    rcases List.mem_append.1 hu with hu | hu
    · exact h.lt u hu
    · exact List.mem_singleton.1 hu ▸ hv.1

variable [LinearOrder K]

/-- The messages that are in flight to the map. An update is one of an edge between two nodes. -/
inductive ToMap (fl : Floats K) (n : ℕ) : Message → Prop where
  | size (a : ℕ) : ToMap fl n (Ant.sizeRequest (.ant a))
  | request {message : Message} (a : ℕ) (hrequest : message.performative = .REQUEST)
      (hsender : message.sender = some (.ant a)) (hreply : message.replyWith = none) :
      ToMap fl n message
  | bestTour (sender : AgentName) (weight : Num K) (tour : List ℕ) :
      ToMap fl n (Ant.bestTour fl sender weight tour)
  | update (sender : AgentName) (delta : Num K) {i j : ℕ} (hi : i < n) (hj : j < n)
      (hne : i ≠ j) : ToMap fl n (Ant.update fl sender delta (i, j))

/-- What holds of each agent. -/
def OfAgent (nodes : List (Node K)) : ∀ name, AgentState K name → Prop
  | .map, map => map.nodes = nodes
  | .ant _, none => True
  | .ant a, some ant => ant.myAid = .ant a ∧ Shape nodes.length ant

/-- What holds of each message. -/
def OfMessage (fl : Floats K) (n : ℕ) : AgentName → Message → Prop
  | .map, message => ToMap fl n message
  | .ant a, message => ToAnt n a message

end Assertions

/-! ### The map keeps them -/

section MapKeeps

variable {K : Type} [Field K] [LinearOrder K] {fl : Floats K}

/-- The map answers every message with messages that their receivers expect. -/
theorem map_keeps {nodes : List (Node K)} {map map' : Map K} {message : Message}
    {posts : List Message} (hnodes : map.nodes = nodes) (hmessage : ToMap fl nodes.length message)
    (h : map.onMessage fl message = some (map', posts)) :
    map'.nodes = nodes ∧ ∀ m ∈ posts, OfMessage fl nodes.length m.receiver m := by
  cases hmessage with
  | size a =>
      obtain ⟨rfl, sender, content, hsender, ⟨question, hquestion, hcontent⟩, rfl⟩ :=
        Map.onMessage_request rfl h
      cases hsender
      cases hquestion
      refine ⟨hnodes, List.forall_mem_singleton.2 ⟨rfl, .inr ⟨rfl, ?_⟩⟩⟩
      rw [Map.replyContent, if_pos rfl, Option.some.injEq] at hcontent
      rw [← hcontent, ← hnodes]
      by_cases hdone : map'.done = true
      · rw [if_pos hdone]
        exact .inl rfl
      · rw [if_neg hdone]
        exact .inr rfl
  | request a hrequest hsender hreply =>
      obtain ⟨rfl, sender, content, hsender', -, rfl⟩ := Map.onMessage_request hrequest h
      rw [hsender, Option.some.injEq] at hsender'
      subst hsender'
      exact ⟨hnodes, List.forall_mem_singleton.2 ⟨rfl, .inl hreply⟩⟩
  | bestTour sender weight tour =>
      obtain ⟨rfl, content, -, hmap⟩ := Map.onMessage_inform rfl h
      exact ⟨(Map.inform_nodes hmap).trans hnodes, fun m hm => absurd hm List.not_mem_nil⟩
  | update sender delta hi hj hne =>
      obtain ⟨rfl, content, -, hmap⟩ := Map.onMessage_inform rfl h
      exact ⟨(Map.inform_nodes hmap).trans hnodes, fun m hm => absurd hm List.not_mem_nil⟩

/-- Without rounding, the map is the one of the source in exact arithmetic. -/
theorem informWith_exact (fl : Floats K) (map : Map K) (content : Text) :
    map.informWith fl .exact content = map.inform fl content := by
  rw [Map.informWith]
  by_cases hupdate : text "UpdatePheromone" <+: content
  · -- the report of a tour is another one
    have hbest : ¬ text "UpdateBestTour" <+: content := by
      obtain ⟨rest, rfl⟩ := hupdate
      exact not_prefix_append (by decide) (by decide) _
    rw [Map.inform, if_pos hupdate, if_neg hbest, if_pos hupdate]
    rfl
  · rw [if_neg hupdate]

/-- The map that writes exactly is the map. -/
theorem onMessageWith_exact (fl : Floats K) (map : Map K) (message : Message) :
    map.onMessageWith fl .exact message = map.onMessage fl message := by
  unfold Map.onMessageWith Map.onMessage
  simp only [informWith_exact]
  cases message.performative <;> rfl

/-- The agents with a map that writes exactly are the agents. -/
theorem behaviourWith_exact (fl : Floats K) : behaviourWith fl .exact = behaviour fl := by
  funext name s message draw
  cases name with
  | map => exact congrArg (Option.map _) (onMessageWith_exact fl s message)
  | ant a => rfl

/-- A colony with a map that writes exactly is the colony. -/
theorem stepWith_exact (fl : Floats K) : Colony.stepWith fl .exact = Colony.step fl := by
  funext colony event
  rw [Colony.stepWith, behaviourWith_exact, Colony.step]

variable {write : Write K}

/-- However a level is written, no node changes. -/
theorem informWith_nodes {map map' : Map K} {content : Text}
    (h : map.informWith fl write content = some map') : map'.nodes = map.nodes := by
  unfold Map.informWith at h
  split_ifs at h
  · simp only [Option.bind_eq_bind, Option.bind_eq_some_iff] at h
    obtain ⟨i, -, j, -, factor, -, term, -, level, -, hmap⟩ := h
    exact Map.setPheromoneLevel_nodes hmap
  · exact Map.inform_nodes h

/-- Rounding changes what a map makes of a report, and of no other message. -/
theorem onMessageWith_cases {map map' : Map K} {message : Message} {posts : List Message}
    (h : map.onMessageWith fl write message = some (map', posts)) :
    (message.performative = .INFORM ∧ posts = [] ∧ ∃ content, message.content = some content ∧
      map.informWith fl write content = some map') ∨
    (message.performative ≠ .INFORM ∧ map.onMessage fl message = some (map', posts)) := by
  by_cases hinform : message.performative = .INFORM
  · left
    rw [Map.onMessageWith, hinform] at h
    simp only [Option.bind_eq_bind, Option.bind_eq_some_iff] at h
    obtain ⟨content, hcontent, map'', hmap, hout⟩ := h
    cases hout
    exact ⟨hinform, rfl, content, hcontent, hmap⟩
  · right
    refine ⟨hinform, ?_⟩
    unfold Map.onMessageWith at h
    split at h
    · next heq => exact absurd heq hinform
    · exact h

/-- Questions are answered without writing a level. -/
theorem onMessageWith_request {map : Map K} {message : Message}
    (h : message.performative = .REQUEST) :
    map.onMessageWith fl write message = map.onMessage fl message := by
  rw [Map.onMessageWith, h]

/-- `map_keeps`, however a level is written. -/
theorem mapWith_keeps {nodes : List (Node K)} {map map' : Map K} {message : Message}
    {posts : List Message} (hnodes : map.nodes = nodes) (hmessage : ToMap fl nodes.length message)
    (h : map.onMessageWith fl write message = some (map', posts)) :
    map'.nodes = nodes ∧ ∀ m ∈ posts, OfMessage fl nodes.length m.receiver m := by
  rcases onMessageWith_cases h with ⟨-, rfl, content, -, hmap⟩ | ⟨-, hout⟩
  · exact ⟨(informWith_nodes hmap).trans hnodes, fun m hm => absurd hm List.not_mem_nil⟩
  · exact map_keeps hnodes hmessage hout

end MapKeeps

/-! ### The ants keep them -/

section AntKeeps

variable {K : Type} [Field K] [LinearOrder K] {fl : Floats K} {n a : ℕ} {ant : Ant K}
  {message : Message} {draw : Draw K} {out : Outcome K}

/-- What comes of a message when the assertions are kept. -/
def Kept (fl : Floats K) (n a : ℕ) (out : Outcome K) : Prop :=
  (out.stopped = true ∨ out.ant.myAid = .ant a ∧ Shape n out.ant) ∧
    ∀ m ∈ out.posts, OfMessage fl n m.receiver m

/-- The message that the ant posts to itself again. -/
theorem ofMessage_again (hmessage : ToAnt n a message) :
    OfMessage fl n message.receiver message := by
  rw [hmessage.1]
  exact hmessage

/-- The reply with the size starts a tour; after `DONE` nothing has changed. -/
theorem kept_startTour (haid : ant.myAid = .ant a) (hshape : Shape n ant)
    (hcontent : message.content = some (text "DONE") ∨ message.content = some (Decimal.ofNat n))
    (h : ant.startTour message draw = some out) : Kept fl n a out := by
  rcases hcontent with hcontent | hcontent
  · rw [Ant.startTour_done hcontent, Option.some.injEq] at h
    subst h
    exact ⟨.inr ⟨haid, hshape⟩, fun m hm => absurd hm List.not_mem_nil⟩
  · rcases Nat.eq_zero_or_pos n with rfl | hn
    · -- no node can be drawn
      simp only [Ant.startTour, hcontent, Option.bind_eq_bind, Option.bind_some,
        if_neg (Ant.ofNat_ne_done 0), parseInt_ofNat] at h
      cases h
    · rw [Ant.startTour_ofNat hn hcontent, Option.some.injEq] at h
      subst h
      refine ⟨.inr ⟨haid, .choosing rfl ⟨rfl, List.cons_ne_nil _ _, List.nodup_singleton _, ?_⟩⟩,
        ?_⟩
      · intro v hv
        rw [List.mem_singleton.1 hv]
        exact Nat.mod_lt _ hn
      · refine List.forall_mem_singleton.2 ?_
        rw [haid]
        exact ⟨rfl, .inl rfl⟩

/-- The question for the levels is about the nodes that are left. -/
theorem kept_requestLevels (haid : ant.myAid = .ant a) (h : Walking n ant) :
    Kept fl n a ant.requestLevels := by
  refine ⟨.inr ⟨haid, .asked rfl ⟨h.mapSize, h.ne_nil, h.nodup, h.lt⟩
    (Ant.trim_getPotentialNodeIndices ant)⟩, List.forall_mem_singleton.2 ?_⟩
  exact .request a rfl (congrArg some haid) rfl

/-- The ant arrives, with nodes left or with none. -/
theorem kept_arrive (haid : ant.myAid = .ant a) (h : Walking n ant)
    (hlength : 1 < ant.tourSoFar.length) (hmessage : ToAnt n a message)
    (hout : ant.arrive message = some out) : Kept fl n a out := by
  obtain ⟨first, walk, hwalk⟩ := List.exists_cons_of_ne_nil h.ne_nil
  by_cases hall : ant.tourSoFar.length = ant.mapSize
  · rw [Ant.arrive_of_eq hall (by rw [hwalk, List.head?_cons]), Option.some.injEq] at hout
    subst hout
    refine ⟨.inr ⟨haid, .closing rfl ⟨first, walk, ?_, rfl, ?_, ?_, ?_⟩⟩,
      List.forall_mem_singleton.2 (.request a rfl (congrArg some haid) rfl)⟩
    · rw [hwalk]
    · rintro rfl
      rw [hwalk, List.length_singleton] at hlength
      exact absurd hlength (Nat.lt_irrefl 1)
    · exact hwalk ▸ h.nodup
    · exact hwalk ▸ h.lt
  · rw [Ant.arrive_of_ne hall, Option.some.injEq] at hout
    subst hout
    exact ⟨.inr ⟨haid, .choosing rfl ⟨h.mapSize, h.ne_nil, h.nodup, h.lt⟩⟩,
      List.forall_mem_singleton.2 (ofMessage_again hmessage)⟩

/-- The chosen node is one that has not been visited. -/
theorem kept_chooseNext (haid : ant.myAid = .ant a) (h : Walking n ant)
    (hpotential : ant.potentialNodeIndices = joinWords (ant.unvisited.map Decimal.ofNat))
    (hmessage : ToAnt n a message) (hout : ant.chooseNext fl message draw = some out) :
    Kept fl n a out := by
  obtain ⟨v, hv, weight, harrive⟩ := Ant.exists_of_chooseNext hpotential hout
  have hlength : 1 < (ant.goTo v weight).tourSoFar.length := by
    have hpos := List.length_pos_of_ne_nil h.ne_nil
    have heq : (ant.goTo v weight).tourSoFar.length = ant.tourSoFar.length + 1 :=
      List.length_append
    omega
  have hmoved : (ant.goTo v weight).myAid = .ant a := haid
  exact kept_arrive hmoved (h.goTo hv weight) hlength hmessage harrive

/-- The tour is still one that has returned when its weight is complete. -/
theorem kept_closeTour (haid : ant.myAid = .ant a) (h : Returned n ant)
    (hmessage : ToAnt n a message) (hout : ant.closeTour fl message = some out) :
    Kept fl n a out := by
  simp only [Ant.closeTour, Option.bind_eq_bind, Option.bind_eq_some_iff] at hout
  obtain ⟨weight, -, hout⟩ := hout
  cases hout
  exact ⟨.inr ⟨haid, .closed rfl h⟩, List.forall_mem_singleton.2 (ofMessage_again hmessage)⟩

/-- The report is of a whole tour. -/
theorem kept_reportTour (haid : ant.myAid = .ant a) (h : Returned n ant)
    (hmessage : ToAnt n a message) : Kept fl n a (ant.reportTour fl message) := by
  obtain ⟨first, walk, htour, hcurrent, hne, hnodup, hlt⟩ := h
  have hdrop : ant.tourSoFar.dropLast = first :: walk := by
    rw [htour, List.dropLast_concat]
  rw [Ant.reportTour_eq]
  refine ⟨.inr ⟨haid, .backtracking rfl ⟨?_, ?_, ?_, ?_⟩⟩,
    List.forall_mem_cons.2
      ⟨.bestTour _ _ _, List.forall_mem_singleton.2 (ofMessage_again hmessage)⟩⟩
  · exact hdrop ▸ hnodup
  · exact hdrop ▸ hlt
  · exact hcurrent ▸ hlt first List.mem_cons_self
  · -- the last node comes after the first, which occurs only once
    have hlast : ant.tourSoFar.dropLast.getLast? = walk.getLast? := by
      rw [hdrop, List.getLast?_cons_of_ne_nil hne]
    intro heq
    rw [hlast, hcurrent] at heq
    exact (List.nodup_cons.1 hnodup).1 (List.mem_of_getLast? heq)

/-- The way back is along the edges of the tour. -/
theorem kept_backtrack (haid : ant.myAid = .ant a) (hphase : ant.phase = 5) (h : Returning n ant)
    (hmessage : ToAnt n a message) : Kept fl n a (ant.backtrack fl message) := by
  rcases List.eq_nil_or_concat ant.tourSoFar with hnil | ⟨walk, v, hconcat⟩
  · rw [Ant.backtrack_nil fl hnil]
    exact ⟨.inl rfl, fun m hm => absurd hm List.not_mem_nil⟩
  · rw [List.concat_eq_append] at hconcat
    have hnodup := h.nodup
    have hlt := h.lt
    have hlast := h.last_ne
    rw [hconcat] at hnodup hlt hlast
    rw [List.getLast?_concat, Ne, Option.some.injEq] at hlast
    rw [Ant.backtrack_concat fl hconcat]
    have hv : v < n := hlt v (by simp)
    refine ⟨.inr ⟨haid, .backtracking hphase ⟨?_, ?_, hv, ?_⟩⟩, List.forall_mem_cons.2
      ⟨.update _ _ h.current_lt hv (Ne.symm hlast),
        List.forall_mem_singleton.2 (ofMessage_again hmessage)⟩⟩
    · exact (List.nodup_append.1 hnodup).1
    · exact fun u hu => hlt u (List.mem_append_left _ hu)
    · intro heq
      exact (List.nodup_append.1 hnodup).2.2 v (List.mem_of_getLast? heq) v (by simp) rfl

/-- The ant keeps its shape in every phase. -/
theorem ant_keeps (haid : ant.myAid = .ant a) (hshape : Shape n ant) (hmessage : ToAnt n a message)
    (hout : ant.onMessage fl message draw = some out) : Kept fl n a out := by
  obtain ⟨hreceiver, hreply | ⟨hreply, hcontent⟩⟩ := id hmessage
  · cases hshape with
    | fresh hphase =>
        rw [Ant.onMessage, if_neg (Ant.inReplyTo_ne_size hreply)] at hout
        simp only [hphase] at hout
        cases hout
    | choosing hphase h =>
        rw [Ant.onMessage_phase_one fl hreply hphase, Option.some.injEq] at hout
        exact hout ▸ kept_requestLevels haid h
    | asked hphase h hpotential =>
        rw [Ant.onMessage_phase_two fl hreply hphase] at hout
        exact kept_chooseNext haid h hpotential hmessage hout
    | closing hphase h =>
        rw [Ant.onMessage_phase_three fl hreply hphase] at hout
        exact kept_closeTour haid h hmessage hout
    | closed hphase h =>
        rw [Ant.onMessage_phase_four fl hreply hphase, Option.some.injEq] at hout
        exact hout ▸ kept_reportTour haid h hmessage
    | backtracking hphase h =>
        rw [Ant.onMessage_phase_five fl hreply hphase, Option.some.injEq] at hout
        exact hout ▸ kept_backtrack haid hphase h hmessage
  · rw [Ant.onMessage, if_pos hreply] at hout
    exact kept_startTour haid hshape hcontent hout

end AntKeeps

/-! ### Whole colonies -/

section Whole

variable {K : Type} [Field K] [LinearOrder K] {fl : Floats K} {nodes : List (Node K)}

omit [Field K] [LinearOrder K] in
theorem ofAgent_of_kept {a : ℕ} {ant : Ant K} {stopped : Bool}
    (h : stopped = true ∨ ant.myAid = .ant a ∧ Shape nodes.length ant) :
    OfAgent nodes (.ant a) (if stopped then none else some ant) := by
  cases stopped with
  | true => exact trivial
  | false => exact h.resolve_left Bool.false_ne_true

/-- Every agent keeps to what the others expect, however a level is written. -/
theorem behaviourWith_keeps (write : Write K) :
    Network.Keeps (behaviourWith fl write) (OfAgent nodes) (OfMessage fl nodes.length) := by
  intro name s message draw s' posts hs hmessage hout
  have haddressed : ∀ posts : List Message, (∀ m ∈ posts, OfMessage fl nodes.length m.receiver m) →
      ∀ p ∈ addressed posts, OfMessage fl nodes.length p.1 p.2 := by
    intro posts hposts p hp
    obtain ⟨m, hm, rfl⟩ := List.mem_map.1 hp
    exact hposts m hm
  cases name with
  | map =>
      obtain ⟨⟨map', posts'⟩, hmap, heq⟩ := Option.map_eq_some_iff.1 hout
      cases heq
      obtain ⟨hnodes, hposts⟩ := mapWith_keeps hs hmessage hmap
      exact ⟨hnodes, haddressed posts' hposts⟩
  | ant a =>
      cases s with
      | none => cases hout
      | some ant =>
          obtain ⟨out, hant, heq⟩ := Option.map_eq_some_iff.1 hout
          cases heq
          have hkept : Kept fl nodes.length a out := ant_keeps hs.1 hs.2 hmessage hant
          obtain ⟨hstate, hposts⟩ := hkept
          exact ⟨ofAgent_of_kept hstate, haddressed out.posts hposts⟩

namespace Colony

/-- The nodes of the map, and the assertions about ants and messages. -/
def Sound (fl : Floats K) (nodes : List (Node K)) (colony : Colony K) : Prop :=
  Network.Local (OfAgent nodes) (OfMessage fl nodes.length) colony

/-- The colony starts sound. -/
theorem sound_initial : Sound fl nodes (initial fl nodes) := by
  refine ⟨fun name => ?_, fun p hp => absurd hp List.not_mem_nil⟩
  cases name with
  | map => exact (rfl : nodes = nodes)
  | ant a => exact ⟨rfl, .fresh rfl⟩

/-- A delivery keeps a colony sound, however a level is written. -/
theorem Sound.stepWith {write : Write K} {colony colony' : Colony K} (h : Sound fl nodes colony)
    {event : Event K} (hstep : stepWith fl write colony event = some colony') :
    Sound fl nodes colony' := by
  refine Network.Local.step h (behaviourWith_keeps write) ?_ hstep
  intro name message hpost
  cases event with
  | start a =>
      cases hpost
      exact .size a
  | deliver k draw => cases hpost

/-- A delivery keeps a colony sound. -/
theorem Sound.step {colony colony' : Colony K} (h : Sound fl nodes colony) {event : Event K}
    (hstep : step fl colony event = some colony') : Sound fl nodes colony' := by
  rw [← stepWith_exact] at hstep
  exact h.stepWith hstep

end Colony

end Whole

/-! ## Symmetric levels -/

section Cells

variable {K : Type}

/-- The levels are symmetric when the table is, at the indices of nodes. -/
theorem Map.symmetric_iff (map : Map K) : map.Symmetric ↔
    ∀ i < map.nodes.length, ∀ j < map.nodes.length, map.pheromone i j = map.pheromone j i := by
  constructor
  · intro h i hi j hj
    have hlevels := h i j
    rw [getPheromoneLevel_natCast map hi hj, getPheromoneLevel_natCast map hj hi,
      Option.some.injEq] at hlevels
    exact hlevels
  · intro h i j
    cases hi : map.index i with
    | none => cases hj : map.index j <;> simp [getPheromoneLevel, hi, hj]
    | some k =>
        cases hj : map.index j with
        | none => simp [getPheromoneLevel, hi, hj]
        | some l =>
            simp only [getPheromoneLevel, hi, hj, Option.bind_eq_bind, Option.bind_some]
            exact congrArg some
              (h k (exists_natCast_of_index hi).1 l (exists_natCast_of_index hj).1)

/-- Symmetry is a matter of nodes and levels only. -/
theorem Map.Symmetric.congr {map map' : Map K} (h : map.Symmetric) (hnodes : map'.nodes = map.nodes)
    (hpheromone : map'.pheromone = map.pheromone) : map'.Symmetric := by
  rw [Map.symmetric_iff] at h ⊢
  rw [hnodes, hpheromone]
  exact h

/-- A level that is set in one direction only has to be the one that is there. -/
theorem Map.symmetric_setPheromoneLevel_iff {map map' : Map K} (h : map.Symmetric) {i j : ℕ}
    (hi : i < map.nodes.length) (hj : j < map.nodes.length) (hne : i ≠ j) {val : Num K}
    (hset : map.setPheromoneLevel i j val = some map') :
    map'.Symmetric ↔ val = map.pheromone i j := by
  rw [Map.symmetric_iff] at h
  simp only [setPheromoneLevel, index_natCast map hi, index_natCast map hj, Option.bind_eq_bind,
    Option.bind_some] at hset
  cases hset
  rw [Map.symmetric_iff]
  constructor
  · intro hsymm
    have hcell := hsymm i hi j hj
    simp only [Function.update_self, Function.update_of_ne hne.symm] at hcell
    rw [hcell]
    exact h j hj i hi
  · rintro rfl
    simp only [Function.update_eq_self]
    exact h

end Cells

section Levels

variable {K : Type} [Field K] [LinearOrder K] [IsStrictOrderedRing K]

theorem ro_eq : (Ant.ro : Num K) = .val (1 / 10) := by
  have hten : (10 : K) ≠ 0 := by norm_num
  rw [Ant.ro, Num.one_eq, Num.val_div_of_ne 1 hten]

/-- An update leads to the level that is there when that is the inverse of the tour's weight, or is
undefined. -/
theorem updated_eq_iff (level delta : Num K) :
    (1 - Ant.ro) * level + Ant.ro * delta = level ↔ level = .nan ∨ level = delta := by
  rw [ro_eq]
  cases level with
  | nan => exact iff_of_true rfl (.inl rfl)
  | val x =>
      cases delta with
      | nan =>
          refine iff_of_false (fun h => ?_) (fun h => ?_)
          · cases h
          · rcases h with h | h
            · cases h
            · cases h
      | val d =>
          simp only [Num.one_eq, Num.val_sub, Num.val_mul, Num.val_add, Num.val.injEq,
            reduceCtorEq, false_or]
          constructor
          · intro h
            linarith
          · rintro rfl
            ring

end Levels

/-! ## Updates -/

section Updates

variable {K : Type} [Field K] [LinearOrder K] {fl : Floats K}

theorem ofNat_injective {i j : ℕ} (h : Decimal.ofNat i = Decimal.ofNat j) : i = j := by
  have hread := Decimal.toNat?_ofNat i
  rw [h, Decimal.toNat?_ofNat, Option.some.injEq] at hread
  exact hread.symm

/-- An update names its edge. -/
theorem update_injective (hfl : fl.Faithful) {sender sender' : AgentName} {delta delta' : Num K}
    {i j i' j' : ℕ}
    (h : Ant.update fl sender delta (i, j) = Ant.update fl sender' delta' (i', j')) :
    i = i' ∧ j = j' := by
  have hsplit : ∀ (d : Num K) (k l : ℕ), split (text "UpdatePheromone" ++ spaced
      [Decimal.ofNat k, Decimal.ofNat l, fl.toString (1 - Ant.ro), fl.toString (Ant.ro * d)]) =
      [text "UpdatePheromone", Decimal.ofNat k, Decimal.ofNat l, fl.toString (1 - Ant.ro),
        fl.toString (Ant.ro * d)] := by
    intro d k l
    exact split_append_spaced (by decide) (by simp [isWord_ofNat, hfl.isWord])
  have hcontent := congrArg (fun m => m.content.map split) h
  simp only [Ant.update, Ant.toMap, Option.map_some, hsplit, Option.some.injEq, List.cons.injEq]
    at hcontent
  exact ⟨ofNat_injective hcontent.2.1, ofNat_injective hcontent.2.2.1⟩

/-- The updates that are in flight are of edges between two nodes. -/
theorem ToMap.of_update (hfl : fl.Faithful) {n : ℕ} {sender : AgentName} {delta : Num K} {i j : ℕ}
    (h : ToMap fl n (Ant.update fl sender delta (i, j))) : i < n ∧ j < n ∧ i ≠ j := by
  generalize hm : Ant.update fl sender delta (i, j) = message at h
  cases h with
  | size a => cases congrArg Message.performative hm
  | request a hrequest =>
      rw [← hm] at hrequest
      cases hrequest
  | bestTour sender' weight tour =>
      -- the two start with different words
      have hcontent := congrArg Message.content hm
      simp only [Ant.update, Ant.bestTour, Ant.toMap, Option.some.injEq] at hcontent
      have hprefix : text "UpdatePheromone" <+: text "UpdateBestTour" ++ spaced
          (fl.toString weight :: tour.map Decimal.ofNat) := hcontent ▸ List.prefix_append _ _
      exact absurd hprefix (not_prefix_append (by decide) (by decide) _)
  | update sender' delta' hi hj hne =>
      obtain ⟨rfl, rfl⟩ := update_injective hfl hm
      exact ⟨hi, hj, hne⟩

/-- An update writes what `write` makes of the numbers of the ant and of the level that is there. -/
theorem informWith_updatePheromone (hfl : fl.Faithful) (write : Write K) (map : Map K) {i j : ℕ}
    (hi : i < map.nodes.length) (hj : j < map.nodes.length) (factor term : Num K) :
    map.informWith fl write (text "UpdatePheromone" ++
        spaced [Decimal.ofNat i, Decimal.ofNat j, fl.toString factor, fl.toString term]) =
      map.setPheromoneLevel i j (write factor (map.pheromone i j) term) := by
  have hwords : ∀ w ∈ [Decimal.ofNat i, Decimal.ofNat j, fl.toString factor, fl.toString term],
      IsWord w := by
    simp [isWord_ofNat, hfl.isWord]
  have hsplit := split_append_spaced (w := text "UpdatePheromone") (by decide) hwords
  rw [Map.informWith, if_pos (List.prefix_append _ _), hsplit]
  simp only [List.getElem?_cons_succ, List.getElem?_cons_zero, Option.bind_some, parseInt_ofNat,
    Option.bind_eq_bind, hfl.parseFloat_toString, Map.getPheromoneLevel_natCast map hi hj]

/-- An update writes the level of one direction. -/
theorem onMessageWith_update (hfl : fl.Faithful) (write : Write K) (map : Map K) {i j : ℕ}
    (hi : i < map.nodes.length) (hj : j < map.nodes.length) (sender : AgentName) (delta : Num K) :
    map.onMessageWith fl write (Ant.update fl sender delta (i, j)) =
      (map.setPheromoneLevel i j
        (write (1 - Ant.ro) (map.pheromone i j) (Ant.ro * delta))).map fun map' => (map', []) := by
  have hinform := informWith_updatePheromone hfl write map hi hj (1 - Ant.ro) (Ant.ro * delta)
  simp only [Map.onMessageWith, Ant.update, Ant.toMap, Message.ofPerformative, Option.bind_eq_bind,
    Option.bind_some, hinform, Option.pure_def]
  rw [Option.map_eq_bind]
  rfl

/-- A report of another kind is handled without rounding. -/
theorem informWith_of_bestTour (write : Write K) (map : Map K) (words : List Text) :
    map.informWith fl write (text "UpdateBestTour" ++ spaced words) =
      map.inform fl (text "UpdateBestTour" ++ spaced words) := by
  have hupdate : ¬ text "UpdatePheromone" <+: text "UpdateBestTour" ++ spaced words :=
    not_prefix_append (by decide) (by decide) _
  rw [Map.informWith, if_neg hupdate]

namespace Colony

/-- An update that is delivered writes the level that it finds. -/
def Settled (fl : Floats K) (write : Write K) (colony : Colony K) (event : Event K) : Prop :=
  ∀ k draw sender delta i j, event = .deliver k draw →
    colony.flight[k]? = some (.map, Ant.update fl sender delta (i, j)) →
      write (1 - Ant.ro) (colony.map.pheromone i j) (Ant.ro * delta) = colony.map.pheromone i j

/-- The levels are symmetric after an event. -/
def SymmetricAfter (fl : Floats K) (write : Write K) (colony : Colony K) (event : Event K) : Prop :=
  ∀ colony', stepWith fl write colony event = some colony' → colony'.map.Symmetric

variable {write : Write K} {nodes : List (Node K)} {colony : Colony K}

/-- What the map makes of a message that is no update keeps the levels. -/
theorem symmetric_of_not_update {message : Message} (hmessage : ToMap fl nodes.length message)
    (hnot : ∀ sender delta i j, message ≠ Ant.update fl sender delta (i, j)) {map map' : Map K}
    (hsymm : map.Symmetric) {posts : List Message}
    (hout : map.onMessageWith fl write message = some (map', posts)) : map'.Symmetric := by
  cases hmessage with
  | size a =>
      rw [onMessageWith_request rfl] at hout
      exact (Map.onMessage_request rfl hout).1 ▸ hsymm
  | request a hrequest =>
      rw [onMessageWith_request hrequest] at hout
      exact (Map.onMessage_request hrequest hout).1 ▸ hsymm
  | bestTour sender weight tour =>
      rcases onMessageWith_cases hout with ⟨-, -, content, hcontent, hmap⟩ | ⟨hinform, -⟩
      · cases hcontent
        rw [informWith_of_bestTour] at hmap
        exact hsymm.congr (Map.inform_nodes hmap) (Map.inform_bestTour_pheromone hmap)
      · exact absurd rfl hinform
  | update sender delta => exact absurd rfl (hnot sender delta _ _)

/-- An update keeps the levels symmetric when it writes the level that it finds. -/
theorem symmetricAfter_update_iff (hfl : fl.Faithful) (h : Sound fl nodes colony)
    (hsymm : colony.map.Symmetric) {k : ℕ} {sender : AgentName} {delta : Num K} {i j : ℕ}
    (hk : colony.flight[k]? = some (.map, Ant.update fl sender delta (i, j))) (draw : Draw K) :
    SymmetricAfter fl write colony (.deliver k draw) ↔
      write (1 - Ant.ro) (colony.map.pheromone i j) (Ant.ro * delta) =
        colony.map.pheromone i j := by
  have hmessage : ToMap fl nodes.length (Ant.update fl sender delta (i, j)) := h.of_flight hk
  obtain ⟨hi, hj, hne⟩ := hmessage.of_update hfl
  have hnodes : colony.map.nodes = nodes := h.state .map
  rw [← hnodes] at hi hj
  obtain ⟨map', hset⟩ : ∃ map', colony.map.setPheromoneLevel i j
      (write (1 - Ant.ro) (colony.map.pheromone i j) (Ant.ro * delta)) = some map' := by
    rw [Map.setPheromoneLevel, Map.index_natCast _ hi, Map.index_natCast _ hj]
    exact ⟨_, rfl⟩
  have hout : behaviourWith fl write .map (colony.state .map)
      (Ant.update fl sender delta (i, j)) draw = some (map', []) := by
    have honMessage := onMessageWith_update hfl write colony.map hi hj sender delta
    rw [hset] at honMessage
    exact congrArg (Option.map _) honMessage
  -- the delivery is the update and nothing else
  have hstep : stepWith fl write colony (.deliver k draw) =
      some (colony.handled k .map (some (map', []))) :=
    (Network.step_of_flight hk draw).trans
      (congrArg (fun out => some (colony.handled k .map out)) hout)
  have hmap : Colony.map (colony.handled k .map (some (map', []))) = map' :=
    Network.state_handled_some colony k .map map' []
  -- the cell in the other direction keeps its level
  rw [← Map.symmetric_setPheromoneLevel_iff hsymm hi hj hne hset]
  constructor
  · intro hafter
    rw [← hmap]
    exact hafter _ hstep
  · intro hmap' colony' hcolony'
    rw [hstep, Option.some.injEq] at hcolony'
    rw [← hcolony', hmap]
    exact hmap'

/-- One event: only an update can break the symmetry. -/
theorem symmetricAfter_iff (hfl : fl.Faithful) (h : Sound fl nodes colony)
    (hsymm : colony.map.Symmetric) (event : Event K) :
    SymmetricAfter fl write colony event ↔ Settled fl write colony event := by
  constructor
  · intro hafter k draw sender delta i j hevent hk
    subst hevent
    exact (symmetricAfter_update_iff hfl h hsymm hk draw).1 hafter
  · intro hsettled colony' hstep
    cases event with
    | start a =>
        cases hstep
        exact hsymm
    | deliver k draw =>
        obtain ⟨name, message, hk, rfl⟩ := Network.exists_of_deliver hstep
        cases name with
        | ant a =>
            -- the map is as it was
            have hne : AgentName.map ≠ .ant a := fun heq => by cases heq
            have hsame : Colony.map (colony.handled k (.ant a)
                (behaviourWith fl write (.ant a) (colony.state (.ant a)) message draw)) =
                  colony.map := Network.state_handled_of_ne colony k hne _
            rw [hsame]
            exact hsymm
        | map =>
            by_cases hupdate : ∃ sender delta i j, message = Ant.update fl sender delta (i, j)
            · obtain ⟨sender, delta, i, j, rfl⟩ := hupdate
              exact (symmetricAfter_update_iff hfl h hsymm hk draw).2
                (hsettled k draw sender delta i j rfl hk) _ hstep
            · have hmessage : ToMap fl nodes.length message := h.of_flight hk
              have hnot : ∀ sender delta i j, message ≠ Ant.update fl sender delta (i, j) :=
                fun sender delta i j heq => hupdate ⟨sender, delta, i, j, heq⟩
              cases hout : Map.onMessageWith fl write colony.map message with
              | none =>
                  have hbehaviour : behaviourWith fl write .map (colony.state .map) message draw =
                      none := congrArg (Option.map _) hout
                  rw [hbehaviour]
                  exact hsymm
              | some out =>
                  obtain ⟨map', posts⟩ := out
                  have hbehaviour : behaviourWith fl write .map (colony.state .map) message draw =
                      some (map', addressed posts) := congrArg (Option.map _) hout
                  have hmap : Colony.map (colony.handled k .map (some (map', addressed posts))) =
                      map' := Network.state_handled_some colony k .map map' _
                  rw [hbehaviour, hmap]
                  exact symmetric_of_not_update hmessage hnot hsymm hout

/-- The levels are symmetric at the start, and they stay so throughout a run exactly when every
update that is delivered in it writes the level that it finds. This is so however the map rounds
what it writes. The weights are symmetric in any case. -/
theorem pheromone_symmetric_iff (hfl : fl.Faithful) (write : Write K) (nodes : List (Node K))
    (events : List (Event K)) :
    (initial fl nodes).map.Symmetric ∧
      (∀ (map : Map K) (i j : Int), map.getEdgeWeight fl i j = map.getEdgeWeight fl j i) ∧
      (Along (stepWith fl write) (SymmetricAfter fl write) (initial fl nodes) events ↔
        Along (stepWith fl write) (Settled fl write) (initial fl nodes) events) := by
  have hinitial : (initial fl nodes).map.Symmetric :=
    (Map.symmetric_iff _).2 fun _ _ _ _ => rfl
  refine ⟨hinitial, Map.getEdgeWeight_comm fl, ?_⟩
  have hruns := @along_iff (Colony K) (Event K) (stepWith fl write) (fun _ => True)
    (fun colony => Sound fl nodes colony ∧ colony.map.Symmetric) (SymmetricAfter fl write)
    (Settled fl write)
    (fun colony event h _ => symmetricAfter_iff hfl h.1 h.2 event)
    (fun colony event colony' h _ hafter hstep => ⟨h.1.stepWith hstep, hafter colony' hstep⟩)
  exact hruns events (initial fl nodes) ⟨sound_initial, hinitial⟩ fun _ _ => trivial

/-- Without rounding, the level that an update finds is the inverse of the weight of the ant's tour,
or is undefined. -/
theorem settled_exact_iff [IsStrictOrderedRing K] (event : Event K) :
    Settled fl .exact colony event ↔
      ∀ k draw sender delta i j, event = .deliver k draw →
        colony.flight[k]? = some (.map, Ant.update fl sender delta (i, j)) →
          colony.map.pheromone i j = .nan ∨ colony.map.pheromone i j = delta := by
  have hlevel : ∀ (i j : ℕ) (delta : Num K),
      Write.exact (1 - Ant.ro) (colony.map.pheromone i j) (Ant.ro * delta) =
        colony.map.pheromone i j ↔
          colony.map.pheromone i j = .nan ∨ colony.map.pheromone i j = delta :=
    fun i j delta => updated_eq_iff _ delta
  simp only [Settled, hlevel]

/-- A triangle with sides of 3, 4 and 5. -/
def threeNodes : List (Node ℚ) := [⟨0, 0⟩, ⟨3, 0⟩, ⟨0, 4⟩]

/-- One ant, up to its first update. -/
def firstUpdate : List (Event ℚ) := .start 0 :: List.replicate 14 (.deliver 0 ⟨0, 0⟩)

theorem pheromone_symmetric_iff_threeNodes :
    (initial fractions threeNodes).map.Symmetric ∧
      (∀ (map : Map ℚ) (i j : Int),
        map.getEdgeWeight fractions i j = map.getEdgeWeight fractions j i) ∧
      (Along (stepWith fractions .exact) (SymmetricAfter fractions .exact)
          (initial fractions threeNodes) firstUpdate ↔
        Along (stepWith fractions .exact) (Settled fractions .exact)
          (initial fractions threeNodes) firstUpdate) :=
  pheromone_symmetric_iff fractions_faithful .exact threeNodes firstUpdate

/-- The update raises the level from the first node to the last, and not that from the last to the
first, although the ant has gone from the last to the first. -/
theorem first_update_asymmetric :
    ¬ ∀ fl : Floats ℚ, fl.Faithful → ∀ (nodes : List (Node ℚ)) (events : List (Event ℚ)),
        Along (stepWith fl .exact) (SymmetricAfter fl .exact) (initial fl nodes) events := by
  intro hall
  have hlevels : (execute (stepWith fractions .exact) (initial fractions threeNodes)
      firstUpdate).map
        (fun colony => (colony.map.getPheromoneLevel 0 2, colony.map.getPheromoneLevel 2 0)) =
          some (some (.val (11 / 240)), some (.val (1 / 24))) := by
    decide +kernel
  obtain ⟨colony, hcolony, hpair⟩ := Option.map_eq_some_iff.1 hlevels
  have hsymm : colony.map.Symmetric :=
    @Along.of_execute _ _ _ (fun colony : Colony ℚ => colony.map.Symmetric) _ _ _
      (hall fractions fractions_faithful threeNodes firstUpdate)
      ((Map.symmetric_iff _).2 fun _ _ _ _ => rfl) hcolony
  have hsame := hsymm 0 2
  rw [(Prod.mk.inj hpair).1, (Prod.mk.inj hpair).2] at hsame
  exact absurd hsame (by decide +kernel)

end Colony

end Updates

end Siebog.Aco
