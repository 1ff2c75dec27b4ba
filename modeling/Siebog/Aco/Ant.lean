import Siebog.Aco.Map

/-!
# The ants of a colony

An ant asks the map for its size, starts at a random node and goes on to a node it has not visited
until none is left. Where it goes next is drawn from the pheromone levels and the weights that the
map replies with. It then asks for the weight of the edge back to its first node, reports the tour,
goes back over it reporting a pheromone update for each edge, and starts an ant in its place.

The phases are those of the class. `readLevels_levelWords` and `select_mem` are what later proofs
use of the step in which a node is drawn: the reply is read as what the map has written, and
whatever the probabilities are, the index that is drawn is one of an offer.
-/

set_option autoImplicit false

namespace Siebog.Aco

open Siebog.Lib Siebog.Lib.Utf16 Siebog.Lib.Words
open Siebog.Interaction.MessageText (Performative)

section Model

variable {K : Type} [Field K] [LinearOrder K]

/-- What the random generators give while a message is handled. -/
structure Draw (K : Type) where
  int : ℕ
  double : K

/-- A draw below a bound. -/
def Draw.nextInt (draw : Draw K) (bound : ℕ) : ℕ := draw.int % bound

/-- The state of an ant. Before the phases start, at 0, it has no tour. -/
structure Ant (K : Type) where
  myAid : AgentName
  mapSize : ℕ
  currentMapPosIndex : ℕ
  tourSoFar : List ℕ
  tourSoFarWeights : List (Num K)
  totalWeightSoFar : Num K
  phase : ℕ
  delta : Num K
  potentialNodeIndices : Text

/-- What comes of a message: the state, the messages that are posted, and whether the ant has
started another one and stopped itself. -/
structure Outcome (K : Type) where
  ant : Ant K
  posts : List Message
  stopped : Bool

namespace Ant

/-- Local pheromone influence control parameter. -/
def alpha : ℕ := 1

/-- Edge weight influence control parameter. -/
def beta : ℕ := 5

/-- Pheromone evaporation rate. -/
def ro : Num K := 1 / .val 10

/-- `Math.pow` with an exponent that is a natural number. -/
def pow (x : Num K) : ℕ → Num K
  | 0 => 1
  | n + 1 => pow x n * x

/-- A new ant. -/
def initial (myAid : AgentName) : Ant K where
  myAid := myAid
  mapSize := 0
  currentMapPosIndex := 0
  tourSoFar := []
  tourSoFarWeights := []
  totalWeightSoFar := 0
  phase := 0
  delta := 0
  potentialNodeIndices := []

/-- The message that `onInit` posts. -/
def sizeRequest (myAid : AgentName) : Message :=
  { Message.ofPerformative .REQUEST .map with
    content := some (text "MapSize?")
    sender := some myAid
    replyWith := some (text "MapSize") }

/-! ### The tour -/

def addNodeToTour (ant : Ant K) (nodeIndex : ℕ) : Ant K :=
  { ant with tourSoFar := ant.tourSoFar ++ [nodeIndex] }

def addWeightToTour (ant : Ant K) (weight : Num K) : Ant K :=
  { ant with
    tourSoFarWeights := ant.tourSoFarWeights ++ [weight]
    totalWeightSoFar := ant.totalWeightSoFar + weight }

/-- The nodes that are not on the tour. -/
def unvisited (ant : Ant K) : List ℕ :=
  (List.range ant.mapSize).filter fun i => i ∉ ant.tourSoFar

/-- Their indices, with a space before each. -/
def getPotentialNodeIndices (ant : Ant K) : Text := spaced (ant.unvisited.map Decimal.ofNat)

/-! ### Phases 1 and 2 -/

/-- Phase 1: the levels and weights of the edges to the unvisited nodes are asked for. -/
def requestLevels (ant : Ant K) : Outcome K :=
  let potentialNodeIndices := trim ant.getPotentialNodeIndices
  { ant := { ant with potentialNodeIndices := potentialNodeIndices, phase := 2 }
    posts := [{ Message.ofPerformative .REQUEST .map with
      content := some (text "PheromoneLevels? " ++ Decimal.ofNat ant.currentMapPosIndex ++
        unit ' ' :: potentialNodeIndices)
      sender := some ant.myAid }]
    stopped := false }

variable (fl : Floats K)

/-- The value of a pheromone level and a weight, and the weight, for each pair of numbers. `none` is
the exception for a number that is not one or is not there. -/
def readLevels : List Text → Option (List (Num K × Num K))
  | [] => some []
  | [_] => none
  | level :: weight :: parts => do
    let weight ← fl.parseFloat weight
    let pheromoneLevel ← fl.parseFloat level
    let later ← readLevels parts
    return (pow pheromoneLevel alpha * pow (1 / weight) beta, weight) :: later

/-- The probability of each offer. -/
def probabilities (offers : List (Num K × Num K)) : List (Num K) :=
  let total : Num K := offers.foldl (fun total offer => total + offer.1) 0
  offers.map fun offer => offer.1 / total

/-- The loop from an index on, with the sum of the probabilities up to it and those after it. -/
def selectFrom (random : K) : ℕ → Num K → List (Num K) → ℕ
  | i, _, [] => i
  | i, val, p :: ps => if .val random < val then i else selectFrom random (i + 1) (val + p) ps

/-- The index that is drawn, counted from 1. `none` is the exception for no offers. -/
def select (random : K) : List (Num K) → Option ℕ
  | [] => none
  | p :: ps => some (selectFrom random 1 p ps)

/-- The ant has come to a node. When the tour has all nodes, the weight of the edge back to the
first one is asked for. -/
def arrive (ant : Ant K) (message : Message) : Option (Outcome K) :=
  if ant.tourSoFar.length = ant.mapSize then do
    let firstMapPosIndex ← ant.tourSoFar[0]?
    return {
      ant := { ant.addNodeToTour firstMapPosIndex with
        currentMapPosIndex := firstMapPosIndex
        phase := 3 }
      posts := [{ Message.ofPerformative .REQUEST .map with
        content := some (text "EdgeWeight? " ++ Decimal.ofNat ant.currentMapPosIndex ++
          unit ' ' :: Decimal.ofNat firstMapPosIndex)
        sender := some ant.myAid }]
      stopped := false }
  else
    some { ant := { ant with phase := 1 }, posts := [message], stopped := false }

/-- Phase 2: the ant goes on to the node that is drawn. The local update is put together but not
posted. -/
def chooseNext (ant : Ant K) (message : Message) (draw : Draw K) : Option (Outcome K) := do
  let content ← message.content
  let offers ← readLevels fl ((split content).drop 1)
  -- the index counts from 1, and the offers from 0
  let i ← select draw.double (probabilities offers)
  let seg ← (split ant.potentialNodeIndices)[i - 1]?
  let newNodeIndex ← parseInt seg
  let offer ← offers[i - 1]?
  (({ ant with currentMapPosIndex := newNodeIndex.toNat }.addNodeToTour
    newNodeIndex.toNat).addWeightToTour offer.2).arrive message

/-! ### Phases 3 to 5 -/

/-- Phase 3: the weight of the last edge has come. -/
def closeTour (ant : Ant K) (message : Message) : Option (Outcome K) := do
  let weight ← message.content.bind fl.parseFloat
  return {
    ant := { ant.addWeightToTour weight with phase := 4 }
    posts := [message]
    stopped := false }

/-- Phase 4: the tour is reported, and its last node, which is the same as the first, removed. -/
def reportTour (ant : Ant K) (message : Message) : Outcome K :=
  { ant := { ant with
      delta := 1 / ant.totalWeightSoFar
      tourSoFar := ant.tourSoFar.dropLast
      phase := 5 }
    posts := [{ Message.ofPerformative .INFORM .map with
      content := some (text "UpdateBestTour " ++ fl.toString ant.totalWeightSoFar ++
        spaced (ant.tourSoFar.map Decimal.ofNat))
      sender := some ant.myAid }, message]
    stopped := false }

/-- Phase 5: an update for the edge from the current node to the last one of what is left of the
tour, which is removed. When nothing is left, another ant is started in place of this one. -/
def backtrack (ant : Ant K) (message : Message) : Outcome K :=
  match ant.tourSoFar.getLast? with
  | none => { ant := { ant with phase := 6 }, posts := [], stopped := true }
  | some nextNodeIndex =>
    { ant := { ant with
        tourSoFar := ant.tourSoFar.dropLast
        currentMapPosIndex := nextNodeIndex }
      posts := [{ Message.ofPerformative .INFORM .map with
        content := some (text "UpdatePheromone " ++ Decimal.ofNat ant.currentMapPosIndex ++
          unit ' ' :: Decimal.ofNat nextNodeIndex ++ unit ' ' :: fl.toString (1 - ro) ++
          unit ' ' :: fl.toString (ro * ant.delta))
        sender := some ant.myAid }, message]
      stopped := false }

/-! ### Messages -/

/-- The reply with the size of the map. `none` is an exception, also that of a draw below 0 or a
smaller bound. -/
def startTour (ant : Ant K) (message : Message) (draw : Draw K) : Option (Outcome K) := do
  let content ← message.content
  if content = text "DONE" then return { ant := ant, posts := [], stopped := false }
  let mapSize ← parseInt content
  -- `nextInt` throws for a bound that is not positive
  if mapSize ≤ 0 then none
  let start := draw.nextInt mapSize.toNat
  return {
    ant := { ant with
      mapSize := mapSize.toNat
      currentMapPosIndex := start
      tourSoFar := [start]
      tourSoFarWeights := []
      phase := 1 }
    posts := [Message.ofPerformative .REQUEST ant.myAid]
    stopped := false }

/-- What a message leads to. The ant posts the message it handles to itself again where it goes on
by itself. `none` is an exception, which leaves the ant alone. -/
def onMessage (ant : Ant K) (message : Message) (draw : Draw K) : Option (Outcome K) :=
  if message.inReplyTo = some (text "MapSize") then ant.startTour message draw
  else
    match ant.phase with
    | 0 => none
    | 1 => some ant.requestLevels
    | 2 => ant.chooseNext fl message draw
    | 3 => ant.closeTour fl message
    | 4 => some (ant.reportTour fl message)
    -- phase 5; an ant in phase 6 has stopped
    | _ => some (ant.backtrack fl message)

end Ant

end Model

namespace Ant

/-! ## The draw -/

section Draw

variable {K : Type} [Field K] [LinearOrder K]

/-- The loop ends at one of the indices that are left. -/
theorem selectFrom_bounds (random : K) (i : ℕ) (val : Num K) (ps : List (Num K)) :
    i ≤ selectFrom random i val ps ∧ selectFrom random i val ps ≤ i + ps.length := by
  induction ps generalizing i val with
  | nil => exact ⟨Nat.le_refl i, Nat.le_refl i⟩
  | cons p ps ih =>
      rw [selectFrom, List.length_cons]
      split_ifs with hdrawn
      · omega
      · have hlater := ih (i + 1) (val + p)
        omega

/-- Whatever the probabilities are, defined or not, the index is that of one of them. -/
theorem select_bounds {random : K} {ps : List (Num K)} {i : ℕ} (h : select random ps = some i) :
    1 ≤ i ∧ i ≤ ps.length := by
  cases ps with
  | nil => cases h
  | cons p ps =>
      cases h
      have hbounds := selectFrom_bounds random 1 p ps
      rw [List.length_cons]
      omega

/-- Of a list that is not empty something is selected. -/
theorem exists_select (random : K) {ps : List (Num K)} (h : ps ≠ []) :
    ∃ i, select random ps = some i := by
  cases ps with
  | nil => exact absurd rfl h
  | cons p ps => exact ⟨_, rfl⟩

end Draw

/-! ## The texts of requests and replies -/

section Texts

variable {K : Type}

/-- Indices are words. -/
theorem isWord_map_ofNat (vs : List ℕ) : ∀ w ∈ vs.map Decimal.ofNat, IsWord w := by
  intro w hw
  obtain ⟨v, -, rfl⟩ := List.mem_map.1 hw
  exact isWord_ofNat v

theorem trim_getPotentialNodeIndices (ant : Ant K) :
    trim ant.getPotentialNodeIndices = joinWords (ant.unvisited.map Decimal.ofNat) :=
  trim_spaced (isWord_map_ofNat ant.unvisited)

/-- An ant has not visited the nodes that are not in its tour. -/
theorem mem_unvisited {ant : Ant K} {v : ℕ} :
    v ∈ ant.unvisited ↔ v < ant.mapSize ∧ v ∉ ant.tourSoFar := by
  rw [unvisited, List.mem_filter, List.mem_range, decide_eq_true_eq]

/-- The segments of the list of potential nodes: a single empty one when it is empty. -/
theorem split_joinWords_ofNat {vs : List ℕ} (h : vs ≠ []) :
    split (joinWords (vs.map Decimal.ofNat)) = vs.map Decimal.ofNat :=
  split_joinWords (fun hnil => h (List.map_eq_nil_iff.1 hnil)) (isWord_map_ofNat vs)

/-- A segment that is a number is that of a potential node. -/
theorem mem_of_segment {vs : List ℕ} {k : ℕ} {seg : Text} {n : Int}
    (hseg : (split (joinWords (vs.map Decimal.ofNat)))[k]? = some seg)
    (hn : parseInt seg = some n) : vs[k]? = some n.toNat := by
  by_cases hnil : vs = []
  · -- the only segment is empty, which is no number
    subst hnil
    have hempty : split (joinWords (([] : List ℕ).map Decimal.ofNat)) = [[]] := by rfl
    rw [hempty] at hseg
    have hk : seg = [] := List.mem_singleton.1 (List.mem_of_getElem? hseg)
    rw [hk] at hn
    cases hn
  · rw [split_joinWords_ofNat hnil, List.getElem?_map, Option.map_eq_some_iff] at hseg
    obtain ⟨v, hv, rfl⟩ := hseg
    rw [parseInt_ofNat, Option.some.injEq] at hn
    rw [hv, ← hn, Int.toNat_natCast]

/-- The texts of levels and weights, in turn. -/
def levelWords (fl : Floats K) (levels : List (Num K × Num K)) : List Text :=
  levels.flatMap fun level => [fl.toString level.1, fl.toString level.2]

/-- Levels and weights are words. -/
theorem isWord_levelWords {fl : Floats K} (h : fl.Faithful) (levels : List (Num K × Num K)) :
    ∀ w ∈ levelWords fl levels, IsWord w := by
  intro w hw
  obtain ⟨level, -, hw⟩ := List.mem_flatMap.1 hw
  simp only [List.mem_cons, List.not_mem_nil, or_false] at hw
  rcases hw with rfl | rfl
  · exact h.isWord _
  · exact h.isWord _

variable [Field K] [LinearOrder K]

/-- The value that an ant gives to an offer, and its weight. -/
def offer (level : Num K × Num K) : Num K × Num K :=
  (pow level.1 alpha * pow (1 / level.2) beta, level.2)

/-- What the map has written is what the ant reads. -/
theorem readLevels_levelWords {fl : Floats K} (h : fl.Faithful)
    (levels : List (Num K × Num K)) :
    readLevels fl (levelWords fl levels) = some (levels.map offer) := by
  induction levels with
  | nil => rfl
  | cons level levels ih =>
      have hcons : levelWords fl (level :: levels) =
          fl.toString level.1 :: fl.toString level.2 :: levelWords fl levels := rfl
      rw [hcons, readLevels, h.parseFloat_toString, h.parseFloat_toString, ih]
      rfl

end Texts

/-! ## The messages of an ant, as words -/

section Posts

variable {K : Type}

/-- A message to the map. -/
def toMap (performative : Performative) (sender : AgentName) (head : Text) (words : List Text) :
    Message :=
  { Message.ofPerformative performative .map with
    content := some (head ++ spaced words)
    sender := some sender }

/-- The request for the levels of the edges to some nodes. -/
def levelsRequest (sender : AgentName) (i : ℕ) (js : List ℕ) : Message :=
  toMap .REQUEST sender (text "PheromoneLevels?") (Decimal.ofNat i :: js.map Decimal.ofNat)

def weightRequest (sender : AgentName) (i j : ℕ) : Message :=
  toMap .REQUEST sender (text "EdgeWeight?") [Decimal.ofNat i, Decimal.ofNat j]

theorem spaced_cons (w : Text) (words : List Text) :
    spaced (w :: words) = unit ' ' :: (w ++ spaced words) :=
  rfl

/-- The request of phase 1, when there are nodes to go on to. -/
theorem requestLevels_eq {ant : Ant K} (hne : ant.unvisited ≠ []) :
    ant.requestLevels =
      { ant := { ant with
          potentialNodeIndices := joinWords (ant.unvisited.map Decimal.ofNat)
          phase := 2 }
        posts := [levelsRequest ant.myAid ant.currentMapPosIndex ant.unvisited]
        stopped := false } := by
  obtain ⟨v, vs, hvs⟩ := List.exists_cons_of_ne_nil hne
  have hspace : text "PheromoneLevels? " = text "PheromoneLevels?" ++ [unit ' '] := by rfl
  simp only [requestLevels, trim_getPotentialNodeIndices, levelsRequest, toMap, hspace, hvs,
    List.map_cons, joinWords_cons, spaced_cons, List.append_assoc, List.cons_append,
    List.nil_append]

/-- On arriving at a node before the last, the ant goes on by itself. -/
theorem arrive_of_ne {ant : Ant K} (h : ant.tourSoFar.length ≠ ant.mapSize) (message : Message) :
    ant.arrive message =
      some { ant := { ant with phase := 1 }, posts := [message], stopped := false } :=
  if_neg h

/-- On arriving at the last node, it asks for the weight of the edge back to the first. -/
theorem arrive_of_eq {ant : Ant K} (h : ant.tourSoFar.length = ant.mapSize) {first : ℕ}
    (hfirst : ant.tourSoFar.head? = some first) (message : Message) :
    ant.arrive message =
      some {
        ant := { ant with
          tourSoFar := ant.tourSoFar ++ [first]
          currentMapPosIndex := first
          phase := 3 }
        posts := [weightRequest ant.myAid ant.currentMapPosIndex first]
        stopped := false } := by
  have hspace : text "EdgeWeight? " = text "EdgeWeight?" ++ [unit ' '] := by rfl
  have hnil : spaced ([] : List Text) = [] := by rfl
  rw [List.head?_eq_getElem?] at hfirst
  rw [arrive, if_pos h, hfirst]
  simp only [Option.bind_eq_bind, Option.bind_some, addNodeToTour, weightRequest, toMap, hspace,
    spaced_cons, hnil, List.append_assoc, List.singleton_append, List.append_nil]
  rfl

variable (fl : Floats K)

/-- The report of a tour. -/
def bestTour (sender : AgentName) (weight : Num K) (tour : List ℕ) : Message :=
  toMap .INFORM sender (text "UpdateBestTour") (fl.toString weight :: tour.map Decimal.ofNat)

variable [Field K] [LinearOrder K]

/-- The update of the level of an edge, after a tour whose weight has the inverse `delta`. -/
def update (sender : AgentName) (delta : Num K) (edge : ℕ × ℕ) : Message :=
  toMap .INFORM sender (text "UpdatePheromone") [Decimal.ofNat edge.1, Decimal.ofNat edge.2,
    fl.toString (1 - ro), fl.toString (ro * delta)]

/-- A complete tour is reported, and its last node removed. -/
theorem reportTour_eq (ant : Ant K) (message : Message) :
    ant.reportTour fl message =
      { ant := { ant with
          delta := 1 / ant.totalWeightSoFar
          tourSoFar := ant.tourSoFar.dropLast
          phase := 5 }
        posts := [bestTour fl ant.myAid ant.totalWeightSoFar ant.tourSoFar, message]
        stopped := false } := by
  have hspace : text "UpdateBestTour " = text "UpdateBestTour" ++ [unit ' '] := by rfl
  simp only [reportTour, bestTour, toMap, hspace, spaced_cons, List.append_assoc,
    List.cons_append, List.nil_append]

/-- While there is something left of the tour, the edge to its last node is reported. -/
theorem backtrack_concat {ant : Ant K} {tour : List ℕ} {v : ℕ} (htour : ant.tourSoFar = tour ++ [v])
    (message : Message) :
    ant.backtrack fl message =
      { ant := { ant with tourSoFar := tour, currentMapPosIndex := v }
        posts := [update fl ant.myAid ant.delta (ant.currentMapPosIndex, v), message]
        stopped := false } := by
  have hspace : text "UpdatePheromone " = text "UpdatePheromone" ++ [unit ' '] := by rfl
  have hnil : spaced ([] : List Text) = [] := by rfl
  simp only [backtrack, htour, List.getLast?_concat, List.dropLast_concat, update, toMap, hspace,
    spaced_cons, hnil, List.append_assoc, List.nil_append, List.cons_append, List.append_nil]

/-- Back at the start the ant stops. -/
theorem backtrack_nil {ant : Ant K} (htour : ant.tourSoFar = []) (message : Message) :
    ant.backtrack fl message =
      { ant := { ant with phase := 6 }, posts := [], stopped := true } := by
  rw [backtrack, htour]
  rfl

end Posts

/-! ## The phases -/

section Phases

/-- A message that replies to nothing is not the reply with the size. -/
theorem inReplyTo_ne_size {message : Message} (hreply : message.inReplyTo = none) :
    message.inReplyTo ≠ some (text "MapSize") := by
  rw [hreply]
  exact (Option.some_ne_none _).symm

variable {K : Type} [Field K] [LinearOrder K] (fl : Floats K) {ant : Ant K} {message : Message}

/-- Phase 1 asks for the levels. -/
theorem onMessage_phase_one (hreply : message.inReplyTo = none) (hphase : ant.phase = 1)
    (draw : Draw K) : ant.onMessage fl message draw = some ant.requestLevels := by
  rw [onMessage, if_neg (inReplyTo_ne_size hreply)]
  simp only [hphase]

/-- Phase 2 chooses the next node. -/
theorem onMessage_phase_two (hreply : message.inReplyTo = none) (hphase : ant.phase = 2)
    (draw : Draw K) : ant.onMessage fl message draw = ant.chooseNext fl message draw := by
  rw [onMessage, if_neg (inReplyTo_ne_size hreply)]
  simp only [hphase]

/-- Phase 3 closes the tour. -/
theorem onMessage_phase_three (hreply : message.inReplyTo = none) (hphase : ant.phase = 3)
    (draw : Draw K) : ant.onMessage fl message draw = ant.closeTour fl message := by
  rw [onMessage, if_neg (inReplyTo_ne_size hreply)]
  simp only [hphase]

/-- Phase 4 reports the tour. -/
theorem onMessage_phase_four (hreply : message.inReplyTo = none) (hphase : ant.phase = 4)
    (draw : Draw K) : ant.onMessage fl message draw = some (ant.reportTour fl message) := by
  rw [onMessage, if_neg (inReplyTo_ne_size hreply)]
  simp only [hphase]

/-- Phase 5 goes back along the tour. -/
theorem onMessage_phase_five (hreply : message.inReplyTo = none) (hphase : ant.phase = 5)
    (draw : Draw K) : ant.onMessage fl message draw = some (ant.backtrack fl message) := by
  rw [onMessage, if_neg (inReplyTo_ne_size hreply)]
  simp only [hphase]

end Phases

/-! ## The start -/

section Start

variable {K : Type}

/-- No number is read as the end. -/
theorem ofNat_ne_done (n : ℕ) : Decimal.ofNat n ≠ text "DONE" := by
  intro heq
  have hdigits := Decimal.all_isDigit_ofNat n
  rw [heq] at hdigits
  exact absurd hdigits (by decide)

/-- The ant starts at a node that is drawn, and goes on by itself. -/
theorem startTour_ofNat {ant : Ant K} {message : Message} {n : ℕ} (hn : 0 < n)
    (hcontent : message.content = some (Decimal.ofNat n)) (draw : Draw K) :
    ant.startTour message draw = some
      { ant := { ant with
          mapSize := n
          currentMapPosIndex := draw.nextInt n
          tourSoFar := [draw.nextInt n]
          tourSoFarWeights := []
          phase := 1 }
        posts := [Message.ofPerformative .REQUEST ant.myAid]
        stopped := false } := by
  have hpos : ¬ (n : Int) ≤ 0 := by omega
  simp only [startTour, hcontent, Option.bind_eq_bind, Option.bind_some, if_neg (ofNat_ne_done n),
    parseInt_ofNat, if_neg hpos, Int.toNat_natCast]
  rfl

/-- When the map says that it is done, nothing comes of it. -/
theorem startTour_done {ant : Ant K} {message : Message}
    (hcontent : message.content = some (text "DONE")) (draw : Draw K) :
    ant.startTour message draw = some { ant := ant, posts := [], stopped := false } := by
  simp only [startTour, hcontent, Option.bind_eq_bind, Option.bind_some, if_true]
  rfl

end Start

/-! ## The choice of a node -/

section Choice

variable {K : Type} [Field K] [LinearOrder K] {fl : Floats K}

/-- The ant at a node that it has gone on to. -/
def goTo (ant : Ant K) (v : ℕ) (weight : Num K) : Ant K :=
  ({ ant with currentMapPosIndex := v }.addNodeToTour v).addWeightToTour weight

/-- Whatever the reply is, the ant goes on to one of the nodes it has asked for. -/
theorem exists_of_chooseNext {ant : Ant K} {message : Message} {draw : Draw K} {out : Outcome K}
    {vs : List ℕ} (hvs : ant.potentialNodeIndices = joinWords (vs.map Decimal.ofNat))
    (h : ant.chooseNext fl message draw = some out) :
    ∃ v ∈ vs, ∃ weight, (ant.goTo v weight).arrive message = some out := by
  simp only [chooseNext, Option.bind_eq_bind, Option.bind_eq_some_iff] at h
  obtain ⟨content, -, offers, -, i, -, seg, hseg, n, hn, offer, -, hout⟩ := h
  rw [hvs] at hseg
  exact ⟨n.toNat, List.mem_of_getElem? (mem_of_segment hseg hn), offer.2, hout⟩

/-- With the reply of the map, the weight that is added is that of the node. -/
theorem exists_chooseNext (hfl : fl.Faithful) {ant : Ant K} {message : Message} (draw : Draw K)
    {vs : List ℕ} (hne : vs ≠ [])
    (hvs : ant.potentialNodeIndices = joinWords (vs.map Decimal.ofNat))
    {levels : ℕ → Num K × Num K} (hcontent : message.content =
      some (text "PheromoneLevels:" ++ spaced (levelWords fl (vs.map levels)))) :
    ∃ v ∈ vs, ant.chooseNext fl message draw = (ant.goTo v (levels v).2).arrive message := by
  have hoffers : readLevels fl (((split (text "PheromoneLevels:" ++
      spaced (levelWords fl (vs.map levels)))).drop 1)) = some ((vs.map levels).map offer) := by
    rw [split_append_spaced (by decide) (isWord_levelWords hfl _)]
    exact readLevels_levelWords hfl _
  have hprobabilities : probabilities ((vs.map levels).map offer) ≠ [] := by
    simp [probabilities, hne]
  obtain ⟨i, hi⟩ := exists_select draw.double hprobabilities
  have hbounds := select_bounds hi
  simp only [probabilities, List.length_map] at hbounds
  have hlt : i - 1 < vs.length := by omega
  refine ⟨vs[i - 1], List.getElem_mem hlt, ?_⟩
  have hseg : (split ant.potentialNodeIndices)[i - 1]? = some (Decimal.ofNat vs[i - 1]) := by
    rw [hvs, split_joinWords_ofNat hne, List.getElem?_map, List.getElem?_eq_getElem hlt]
    rfl
  have hoffer : ((vs.map levels).map offer)[i - 1]? = some (offer (levels vs[i - 1])) := by
    rw [List.getElem?_map, List.getElem?_map, List.getElem?_eq_getElem hlt]
    rfl
  simp only [chooseNext, hcontent, Option.bind_eq_bind, Option.bind_some, hoffers, hi, hseg, hoffer,
    parseInt_ofNat, Int.toNat_natCast]
  rfl

end Choice

end Ant

end Siebog.Aco
