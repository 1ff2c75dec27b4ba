import Siebog.Interaction.MessageText
import Siebog.Lib.ExactNum
import Siebog.Lib.Words

/-!
# The map of an ant colony

The map agent holds the nodes of a travelling salesman problem and the pheromone level of every pair
of nodes. The ants ask it for its size, for the levels and the weights of the edges they could take
next and for the weight of a single edge, and report tours and pheromone updates, all in texts of
words.

`onMessage_levels`, `onMessage_weight` and the lemmas beside them say what the map makes of each
message of an ant. The weight of an edge is the same in both directions (`getEdgeWeight_comm`); the
level is set in one direction only.
-/

set_option autoImplicit false

namespace Siebog.Aco

open Siebog.Lib Siebog.Lib.Utf16 Siebog.Lib.Words
open Siebog.Interaction.MessageText (Performative)

/-! ## Messages -/

section Message

/-- The agents of a colony. -/
inductive AgentName where
  | map
  | ant (a : ℕ)
  deriving DecidableEq

/-- What the agents of a colony use of a message. -/
structure Message where
  performative : Performative
  sender : Option AgentName
  receiver : AgentName
  content : Option Text
  replyWith : Option Text
  inReplyTo : Option Text
  deriving DecidableEq

/-- A message without any field of the conversation. -/
def Message.ofPerformative (performative : Performative) (receiver : AgentName) : Message :=
  ⟨performative, none, receiver, none, none, none⟩

/-- `none` is the exception for a message without a sender. -/
def Message.makeReply (message : Message) (performative : Performative) : Option Message :=
  message.sender.map fun sender =>
    { ofPerformative performative sender with inReplyTo := message.replyWith }

end Message

/-! ## Numbers -/

section Numbers

/-- What the agents use of floating-point numbers besides arithmetic, which is exact here: the
square root, the largest number, and the text of a number and back. -/
structure Floats (K : Type) where
  sqrt : K → K
  MAX_VALUE : Num K
  toString : Num K → Text
  parseFloat : Text → Option (Num K)

/-- A number is written as a word and read back from it. -/
structure Floats.Faithful {K : Type} (fl : Floats K) : Prop where
  isWord : ∀ x, IsWord (fl.toString x)
  parseFloat_toString : ∀ x, fl.parseFloat (fl.toString x) = some x

/-! ### Fractions -/

/-- Fractions as texts, with the square root of those that are squares of natural numbers. -/
def fractions : Floats ℚ where
  sqrt q := (Nat.sqrt q.num.toNat : ℚ)
  MAX_VALUE := .val ((2 - 1 / 2 ^ 23) * 2 ^ 127)
  toString
    | .nan => text "NaN"
    | .val q => Decimal.ofInt q.num ++ unit '/' :: Decimal.ofNat q.den
  parseFloat t :=
    match Separator.split (unit '/') t with
    | [num, den] =>
      match Decimal.toInt? num, Decimal.toNat? den with
      | some num, some den => some (.val (num / den))
      | _, _ => none
    | _ => if t = text "NaN" then some .nan else none

/-- A natural number is written without a fraction bar. -/
theorem slash_notMem_ofNat (n : ℕ) : unit '/' ∉ Decimal.ofNat n := fun hmem =>
  absurd (List.all_eq_true.1 (Decimal.all_isDigit_ofNat n) _ hmem) (by decide)

theorem slash_notMem_ofInt (i : Int) : unit '/' ∉ Decimal.ofInt i := by
  cases i with
  | ofNat n => exact slash_notMem_ofNat n
  | negSucc n =>
      rw [Decimal.ofInt, List.mem_cons, not_or]
      exact ⟨by decide, slash_notMem_ofNat (n + 1)⟩

/-- Fractions are words and are read back, so they can stand for the texts of numbers. -/
theorem fractions_faithful : fractions.Faithful where
  isWord x := by
    cases x with
    | nan => decide
    | val q =>
        have hslash : IsWord [unit '/'] := by decide
        have hword := (isWord_ofInt q.num).append (hslash.append (isWord_ofNat q.den))
        exact hword
  parseFloat_toString x := by
    cases x with
    | nan => decide
    | val q =>
        have hsplit := Separator.split_append_cons (isWord_ofInt q.num).1 (slash_notMem_ofInt q.num)
          (isWord_ofNat q.den).1 (slash_notMem_ofNat q.den)
        simp only [fractions, hsplit, Decimal.toInt?_ofInt, Decimal.toNat?_ofNat, Rat.num_div_den]

/-- `Integer.parseInt`; `none` is its exception. -/
def parseInt (t : Text) : Option Int := Decimal.toInt? t

/-- `Integer.parseInt` reads an index back from its text. -/
theorem parseInt_ofNat (n : ℕ) : parseInt (Decimal.ofNat n) = some (n : Int) :=
  Decimal.toInt?_ofInt (.ofNat n)

end Numbers

/-! ## The agent -/

section Model

variable {K : Type} [Field K] [LinearOrder K]

/-- A single graph vertex. -/
structure Node (K : Type) where
  x : K
  y : K

/-- The state of the map agent. -/
structure Map (K : Type) where
  nodes : List (Node K)
  tau0 : Num K
  pheromone : ℕ → ℕ → Num K
  bestTourWeight : Num K
  bestTour : List Int
  nIterationsBestTourNotUpdated : ℕ
  done : Bool

/-- After so many reports in a row without a better tour the next one makes the map finish. -/
def MAX_STATIONARY_ITERATIONS : ℕ := 500

namespace Map

/-- The number of nodes. -/
def getMapSize (map : Map K) : ℕ := map.nodes.length

/-- An index of the arrays; `none` is the exception for one outside them. -/
def index (map : Map K) (i : Int) : Option ℕ :=
  if 0 ≤ i ∧ i < map.nodes.length then some i.toNat else none

/-- `pheromone[i][j]`, which throws when an index is out of range. -/
def getPheromoneLevel (map : Map K) (i j : Int) : Option (Num K) := do
  let i ← map.index i
  let j ← map.index j
  return map.pheromone i j

/-- Only the cell of the pair in this order is set. -/
def setPheromoneLevel (map : Map K) (i j : Int) (val : Num K) : Option (Map K) := do
  let i ← map.index i
  let j ← map.index j
  return { map with
    pheromone := Function.update map.pheromone i (Function.update (map.pheromone i) j val) }

variable (fl : Floats K)

/-- The Euclidean distance of two nodes. -/
def distance (ni nj : Node K) : K := fl.sqrt ((ni.x - nj.x) ^ 2 + (ni.y - nj.y) ^ 2)

/-- The distance of two nodes; an index out of range throws. -/
def getEdgeWeight (map : Map K) (i j : Int) : Option (Num K) := do
  let i ← map.index i
  let j ← map.index j
  let ni ← map.nodes[i]?
  let nj ← map.nodes[j]?
  return .val (distance fl ni nj)

/-- The average edge weight, over all pairs of nodes. -/
def getAverageWeight (nodes : List (Node K)) : Num K :=
  let result : Num K := nodes.foldl (fun result ni =>
    nodes.foldl (fun result nj => result + .val (distance fl ni nj)) result) 0
  result / .val ((nodes.length * nodes.length : ℕ) : K)

/-- The state after `loadMap` has read these nodes. -/
def loadMap (nodes : List (Node K)) : Map K :=
  let n : Num K := .val (nodes.length : K)
  let tau0 := 1 / (n * (n * getAverageWeight fl nodes))
  { nodes := nodes
    tau0 := tau0
    pheromone := fun _ _ => tau0
    bestTourWeight := fl.MAX_VALUE
    bestTour := []
    nIterationsBestTourNotUpdated := 0
    done := false }

/-- The pheromone level and the weight of an edge to the node that a part of a request names. -/
def levelTexts (map : Map K) (i : Int) (part : Text) : Option (List Text) := do
  let newJ ← parseInt part
  let level ← map.getPheromoneLevel i newJ
  let weight ← map.getEdgeWeight fl i newJ
  return [fl.toString level, fl.toString weight]

/-- The content of the reply to a request, which stays missing for a request that is not known. The
outer `none` is an exception. -/
def replyContent (map : Map K) (content : Text) : Option (Option Text) :=
  let parts := split content
  if content = text "MapSize?" then
    some (some (if map.done then text "DONE" else Decimal.ofNat map.getMapSize))
  else if text "PheromoneLevels?" <+: content then do
    let i ← parts[1]?.bind parseInt
    let levels ← (parts.drop 2).mapM (map.levelTexts fl i)
    return some (text "PheromoneLevels:" ++ spaced levels.flatten)
  else if text "EdgeWeight?" <+: content then do
    let i ← parts[1]?.bind parseInt
    let j ← parts[2]?.bind parseInt
    let weight ← map.getEdgeWeight fl i j
    return some (fl.toString weight)
  else some none

/-- A tour is taken over when it is better than the best one, and counted when it is not. -/
def updateBestTour (map : Map K) (newTourWeight : Num K) (tour : List Text) : Option (Map K) :=
  -- the report that ends the search is not looked at
  if map.nIterationsBestTourNotUpdated ≥ MAX_STATIONARY_ITERATIONS then
    some { map with done := true }
  else if newTourWeight < map.bestTourWeight then do
    let bestTour ← tour.mapM parseInt
    return { map with
      nIterationsBestTourNotUpdated := 0
      bestTourWeight := newTourWeight
      -- the nodes are numbered from 1 in the result
      bestTour := bestTour.map (· + 1) }
  else
    some { map with nIterationsBestTourNotUpdated := map.nIterationsBestTourNotUpdated + 1 }

/-- The state after a report. `none` is an exception, which leaves the state alone but for a best
tour with a part that is no number; ants do not report such a one. -/
def inform (map : Map K) (content : Text) : Option (Map K) :=
  let parts := split content
  if text "UpdateBestTour" <+: content then do
    let newTourWeight ← parts[1]?.bind fl.parseFloat
    map.updateBestTour newTourWeight (parts.drop 2)
  else if text "UpdatePheromone" <+: content then do
    let i ← parts[1]?.bind parseInt
    let j ← parts[2]?.bind parseInt
    let factor ← parts[3]?.bind fl.parseFloat
    let term ← parts[4]?.bind fl.parseFloat
    let level ← map.getPheromoneLevel i j
    map.setPheromoneLevel i j (factor * level + term)
  -- no ant sends this one
  else if text "UpdateLocalPheromone" <+: content then do
    let i ← parts[1]?.bind parseInt
    let j ← parts[2]?.bind parseInt
    let ksi ← parts[3]?.bind fl.parseFloat
    let level ← map.getPheromoneLevel i j
    map.setPheromoneLevel i j ((1 - ksi) * level + ksi * map.tau0)
  else some map

/-- The state after a message and the messages that are posted. `none` is an exception. -/
def onMessage (map : Map K) (message : Message) : Option (Map K × List Message) :=
  match message.performative with
  | .REQUEST => do
    let reply ← message.makeReply .INFORM
    let content ← message.content
    let replyContent ← map.replyContent fl content
    return (map, [{ reply with content := replyContent }])
  | .INFORM => do
    let content ← message.content
    let map ← map.inform fl content
    return (map, [])
  | .CANCEL => some ({ map with done := true }, [])
  | _ => some (map, [])

end Map

end Model

namespace Map

variable {K : Type}

/-! ## Levels and weights -/

section Access

/-- The index of a node is in the range. -/
theorem index_natCast (map : Map K) {i : ℕ} (hi : i < map.nodes.length) :
    map.index (i : Int) = some i := by
  rw [index, if_pos ⟨Int.natCast_nonneg i, Int.ofNat_lt.2 hi⟩, Int.toNat_natCast]

/-- What is in the range is the index of a node. -/
theorem exists_natCast_of_index {map : Map K} {i : Int} {k : ℕ} (h : map.index i = some k) :
    k < map.nodes.length ∧ i = (k : Int) := by
  unfold index at h
  split_ifs at h with hi
  cases h
  have hnat : (i.toNat : Int) = i := Int.toNat_of_nonneg hi.1
  exact ⟨by omega, hnat.symm⟩

/-- The level between two nodes is there. -/
theorem getPheromoneLevel_natCast (map : Map K) {i j : ℕ} (hi : i < map.nodes.length)
    (hj : j < map.nodes.length) :
    map.getPheromoneLevel (i : Int) (j : Int) = some (map.pheromone i j) := by
  rw [getPheromoneLevel, index_natCast map hi, index_natCast map hj]
  rfl

/-- A new level changes no node. -/
theorem setPheromoneLevel_nodes {map map' : Map K} {i j : Int} {val : Num K}
    (h : map.setPheromoneLevel i j val = some map') : map'.nodes = map.nodes := by
  simp only [setPheromoneLevel, Option.bind_eq_bind, Option.bind_eq_some_iff] at h
  obtain ⟨i, -, j, -, hmap⟩ := h
  cases hmap
  rfl

/-- A new best tour changes neither nodes nor levels. -/
theorem updateBestTour_nodes [LinearOrder K] {map map' : Map K} {weight : Num K}
    {tour : List Text} (h : map.updateBestTour weight tour = some map') :
    map'.nodes = map.nodes ∧ map'.pheromone = map.pheromone := by
  unfold updateBestTour at h
  split_ifs at h
  · cases h
    exact ⟨rfl, rfl⟩
  · simp only [Option.bind_eq_bind, Option.bind_eq_some_iff] at h
    obtain ⟨bestTour, -, hmap⟩ := h
    cases hmap
    exact ⟨rfl, rfl⟩
  · cases h
    exact ⟨rfl, rfl⟩

variable [Field K] (fl : Floats K)

/-- The weight of an edge between two nodes that are there. -/
def edgeWeight (nodes : List (Node K)) (i j : ℕ) : K :=
  match nodes[i]?, nodes[j]? with
  | some ni, some nj => distance fl ni nj
  | _, _ => 0

/-- The weight between two nodes is their distance. -/
theorem getEdgeWeight_natCast (map : Map K) {i j : ℕ} (hi : i < map.nodes.length)
    (hj : j < map.nodes.length) :
    map.getEdgeWeight fl (i : Int) (j : Int) = some (.val (edgeWeight fl map.nodes i j)) := by
  simp only [getEdgeWeight, edgeWeight, index_natCast map hi, index_natCast map hj,
    Option.bind_eq_bind, Option.bind_some, List.getElem?_eq_getElem hi,
    List.getElem?_eq_getElem hj, Option.pure_def]

/-- The distance is the same in both directions. -/
theorem edgeWeight_comm (nodes : List (Node K)) (i j : ℕ) :
    edgeWeight fl nodes i j = edgeWeight fl nodes j i := by
  unfold edgeWeight
  cases nodes[i]? with
  | none => cases nodes[j]? <;> rfl
  | some ni =>
      cases nodes[j]? with
      | none => rfl
      | some nj =>
          -- the squares of the differences
          have hsquares : (ni.x - nj.x) ^ 2 + (ni.y - nj.y) ^ 2 =
              (nj.x - ni.x) ^ 2 + (nj.y - ni.y) ^ 2 := by ring
          exact congrArg fl.sqrt hsquares

/-- The weight is the same in both directions, also where it is missing. -/
theorem getEdgeWeight_comm (map : Map K) (i j : Int) :
    map.getEdgeWeight fl i j = map.getEdgeWeight fl j i := by
  cases hi : map.index i with
  | none => cases hj : map.index j <;> simp [getEdgeWeight, hi, hj]
  | some k =>
      cases hj : map.index j with
      | none => simp [getEdgeWeight, hi, hj]
      | some l =>
          obtain ⟨hk, rfl⟩ := exists_natCast_of_index hi
          obtain ⟨hl, rfl⟩ := exists_natCast_of_index hj
          rw [getEdgeWeight_natCast fl map hk hl, getEdgeWeight_natCast fl map hl hk,
            edgeWeight_comm]

end Access

/-! ## The messages of the ants -/

section Messages

variable [Field K] {fl : Floats K}

/-- The texts of levels and weights for a list of nodes. -/
theorem mapM_levelTexts (map : Map K) {i : ℕ} (hi : i < map.nodes.length) {js : List ℕ}
    (hjs : ∀ j ∈ js, j < map.nodes.length) :
    (js.map Decimal.ofNat).mapM (map.levelTexts fl (i : Int)) =
      some (js.map fun j => [fl.toString (map.pheromone i j),
        fl.toString (.val (edgeWeight fl map.nodes i j))]) := by
  induction js with
  | nil => rfl
  | cons j js ih =>
      have hj : j < map.nodes.length := hjs j List.mem_cons_self
      have hlevel : map.levelTexts fl (i : Int) (Decimal.ofNat j) =
          some [fl.toString (map.pheromone i j),
            fl.toString (.val (edgeWeight fl map.nodes i j))] := by
        simp only [levelTexts, parseInt_ofNat, Option.bind_eq_bind, Option.bind_some,
          getPheromoneLevel_natCast map hi hj, getEdgeWeight_natCast fl map hi hj]
        rfl
      rw [List.map_cons, List.mapM_cons, hlevel,
        ih fun k hk => hjs k (List.mem_cons_of_mem j hk)]
      rfl

/-- The levels and the weights of the edges that were asked for, in the order of the request. -/
theorem replyContent_levels (map : Map K) {i : ℕ} (hi : i < map.nodes.length) {js : List ℕ}
    (hjs : ∀ j ∈ js, j < map.nodes.length) :
    map.replyContent fl (text "PheromoneLevels?" ++
        spaced (Decimal.ofNat i :: js.map Decimal.ofNat)) =
      some (some (text "PheromoneLevels:" ++ spaced (js.flatMap fun j =>
        [fl.toString (map.pheromone i j),
          fl.toString (.val (edgeWeight fl map.nodes i j))]))) := by
  have hwords : ∀ w ∈ Decimal.ofNat i :: js.map Decimal.ofNat, IsWord w := by
    intro w hw
    rw [← List.map_cons, List.mem_map] at hw
    obtain ⟨j, -, rfl⟩ := hw
    exact isWord_ofNat j
  have hsplit := split_append_spaced (w := text "PheromoneLevels?") (by decide) hwords
  have hsize : text "PheromoneLevels?" ++ spaced (Decimal.ofNat i :: js.map Decimal.ofNat) ≠
      text "MapSize?" := by
    intro heq
    exact absurd (List.head_eq_of_cons_eq heq) (by decide)
  rw [replyContent, if_neg hsize, if_pos (List.prefix_append _ _), hsplit]
  simp only [List.drop_succ_cons, List.drop_zero, List.getElem?_cons_succ,
    List.getElem?_cons_zero, Option.bind_some, parseInt_ofNat, Option.bind_eq_bind,
    mapM_levelTexts map hi hjs]
  rfl

/-- The reply to a question for a weight is the weight. -/
theorem replyContent_weight (map : Map K) {i j : ℕ} (hi : i < map.nodes.length)
    (hj : j < map.nodes.length) :
    map.replyContent fl (text "EdgeWeight?" ++ spaced [Decimal.ofNat i, Decimal.ofNat j]) =
      some (some (fl.toString (.val (edgeWeight fl map.nodes i j)))) := by
  have hwords : ∀ w ∈ [Decimal.ofNat i, Decimal.ofNat j], IsWord w := by
    simp [isWord_ofNat]
  have hsplit := split_append_spaced (w := text "EdgeWeight?") (by decide) hwords
  have hsize : text "EdgeWeight?" ++ spaced [Decimal.ofNat i, Decimal.ofNat j] ≠
      text "MapSize?" := by
    intro heq
    exact absurd (List.head_eq_of_cons_eq heq) (by decide)
  have hlevels : ¬ text "PheromoneLevels?" <+:
      text "EdgeWeight?" ++ spaced [Decimal.ofNat i, Decimal.ofNat j] :=
    not_prefix_append (by decide) (by decide) _
  rw [replyContent, if_neg hsize, if_neg hlevels, if_pos (List.prefix_append _ _), hsplit]
  simp only [List.getElem?_cons_succ, List.getElem?_cons_zero, Option.bind_some, parseInt_ofNat,
    Option.bind_eq_bind, getEdgeWeight_natCast fl map hi hj]
  rfl

/-- The reply to a question for the size is the number of nodes. -/
theorem replyContent_size (map : Map K) (h : map.done = false) :
    map.replyContent fl (text "MapSize?") = some (some (Decimal.ofNat map.nodes.length)) := by
  rw [replyContent, if_pos rfl, h]
  rfl

/-! ### What a message changes -/

variable [LinearOrder K] {map map' : Map K}

/-- What the ants inform the map of changes no node. -/
theorem inform_nodes {content : Text} (h : map.inform fl content = some map') :
    map'.nodes = map.nodes := by
  unfold inform at h
  split_ifs at h
  · simp only [Option.bind_eq_bind, Option.bind_eq_some_iff] at h
    obtain ⟨weight, -, hmap⟩ := h
    exact (updateBestTour_nodes hmap).1
  · simp only [Option.bind_eq_bind, Option.bind_eq_some_iff] at h
    obtain ⟨i, -, j, -, factor, -, term, -, level, -, hmap⟩ := h
    exact setPheromoneLevel_nodes hmap
  · simp only [Option.bind_eq_bind, Option.bind_eq_some_iff] at h
    obtain ⟨i, -, j, -, ksi, -, level, -, hmap⟩ := h
    exact setPheromoneLevel_nodes hmap
  · cases h
    rfl

/-- A report of a tour leaves the levels alone. -/
theorem inform_bestTour_pheromone {words : List Text}
    (h : map.inform fl (text "UpdateBestTour" ++ spaced words) = some map') :
    map'.pheromone = map.pheromone := by
  rw [inform, if_pos (List.prefix_append _ _)] at h
  simp only [Option.bind_eq_bind, Option.bind_eq_some_iff] at h
  obtain ⟨weight, -, hmap⟩ := h
  exact (updateBestTour_nodes hmap).2

/-- A request leaves the state alone, and is answered with one message. -/
theorem onMessage_request {message : Message} {posts : List Message}
    (hrequest : message.performative = .REQUEST)
    (h : map.onMessage fl message = some (map', posts)) :
    map' = map ∧ ∃ sender content, message.sender = some sender ∧
      (∃ text, message.content = some text ∧ map.replyContent fl text = some content) ∧
      posts = [{ Message.ofPerformative .INFORM sender with
        content := content
        inReplyTo := message.replyWith }] := by
  rw [onMessage, hrequest] at h
  simp only [Message.makeReply, Option.bind_eq_bind, Option.bind_eq_some_iff,
    Option.map_eq_some_iff] at h
  obtain ⟨reply, ⟨sender, hsender, rfl⟩, content, hcontent, replyContent, hreply, hout⟩ := h
  cases hout
  exact ⟨rfl, sender, replyContent, hsender, ⟨content, hcontent, hreply⟩, rfl⟩

/-- A report is not answered. -/
theorem onMessage_inform {message : Message} {posts : List Message}
    (hinform : message.performative = .INFORM)
    (h : map.onMessage fl message = some (map', posts)) :
    posts = [] ∧ ∃ content, message.content = some content ∧
      map.inform fl content = some map' := by
  rw [onMessage, hinform] at h
  simp only [Option.bind_eq_bind, Option.bind_eq_some_iff] at h
  obtain ⟨content, hcontent, map'', hmap, hout⟩ := h
  cases hout
  exact ⟨rfl, content, hcontent, hmap⟩

end Messages

end Map

end Siebog.Aco
