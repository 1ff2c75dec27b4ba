import Siebog.Aco.Ant
import Siebog.Lib.Run
import Siebog.Lib.Walk
import Mathlib.Data.List.Nodup
import Mathlib.Data.List.Induction

/-!
# The tour of an ant

A session is what passes between an ant and the map: the ant handles one message after another, and
its requests are answered from the levels that the map holds at that time, which other ants may have
changed in between. Only the nodes of the map stay the same.

`ant_tour` says what an ant has sent when it stops, whatever the levels and the draws were:
requests, then one report of a tour through all nodes with its weight, and then one update for each
edge of the tour, from the last to the first and against the direction in which it was travelled.
-/

set_option autoImplicit false

namespace Siebog.Aco

open Siebog.Lib Siebog.Lib.Utf16 Siebog.Lib.Words Siebog.Lib.Walk

section Model

variable {K : Type} [Field K] [LinearOrder K]

/-- What one message of an ant meets: the map that its requests reach, and the draws. -/
structure Turn (K : Type) where
  map : Map K
  draw : Draw K

/-- An ant, the messages that have come for it, and those it has sent to the map. -/
structure Session (K : Type) where
  ant : Ant K
  inbox : List Message
  sent : List Message
  stopped : Bool

namespace Session

variable (fl : Floats K)

/-- What comes for the ant when it posts a message: the map's replies, or the message itself, which
it has posted to itself. -/
def arrivals (map : Map K) (message : Message) : List Message :=
  match message.receiver with
  | .map => ((map.onMessage fl message).map Prod.snd).getD []
  | .ant _ => [message]

/-- The ant has asked for the size of the map. -/
def start (myAid : AgentName) (map : Map K) : Session K where
  ant := Ant.initial myAid
  inbox := arrivals fl map (Ant.sizeRequest myAid)
  sent := [Ant.sizeRequest myAid]
  stopped := false

/-- The ant handles the next message. One that it throws an exception at is gone. -/
def turn (s : Session K) (t : Turn K) : Session K :=
  if s.stopped then s
  else
    match s.inbox with
    | [] => s
    | message :: inbox =>
      match s.ant.onMessage fl message t.draw with
      -- the exception is logged, and the message is gone
      | none => { s with inbox := inbox }
      | some out =>
        { ant := out.ant
          inbox := inbox ++ out.posts.flatMap (arrivals fl t.map)
          sent := s.sent ++ out.posts.filter (·.receiver = .map)
          stopped := out.stopped }

end Session

/-- The weight of a walk: the sum of the map's weights of its edges. -/
def pathWeight (fl : Floats K) (nodes : List (Node K)) (walk : List ℕ) : K :=
  ((edges walk).map fun e => Map.edgeWeight fl nodes e.1 e.2).sum

end Model

/-! ## Walks -/

section Walks

variable {K : Type} [Field K] (fl : Floats K) (nodes : List (Node K))

theorem pathWeight_concat {walk : List ℕ} {u : ℕ} (h : walk.getLast? = some u) (v : ℕ) :
    pathWeight fl nodes (walk ++ [v]) =
      pathWeight fl nodes walk + Map.edgeWeight fl nodes u v := by
  rw [pathWeight, edges_concat h, List.map_append, List.sum_append]
  simp [pathWeight]

/-- The ant has come to the end of a walk through different nodes. -/
structure OnTour (ant : Ant K) (walk : List ℕ) : Prop where
  mapSize : ant.mapSize = nodes.length
  tourSoFar : ant.tourSoFar = walk
  nodup : walk.Nodup
  lt : ∀ v ∈ walk, v < nodes.length
  current : walk.getLast? = some ant.currentMapPosIndex
  total : ant.totalWeightSoFar = .val (pathWeight fl nodes walk)

variable {fl nodes}

/-- The phase and the list of potential nodes do not count. -/
theorem OnTour.withPhase {ant : Ant K} {walk : List ℕ} (h : OnTour fl nodes ant walk)
    (phase : ℕ) (potential : Text) :
    OnTour fl nodes { ant with phase := phase, potentialNodeIndices := potential } walk :=
  ⟨h.mapSize, h.tourSoFar, h.nodup, h.lt, h.current, h.total⟩

theorem OnTour.unvisited_ne_nil {ant : Ant K} {walk : List ℕ} (h : OnTour fl nodes ant walk)
    (hlength : walk.length < nodes.length) : ant.unvisited ≠ [] := by
  obtain ⟨v, hv, hout⟩ := exists_notMem hlength
  refine List.ne_nil_of_mem (Ant.mem_unvisited.2 ⟨?_, ?_⟩ : v ∈ ant.unvisited)
  · rw [h.mapSize]
    exact hv
  · rw [h.tourSoFar]
    exact hout

/-- The walk with an unvisited node at its end, and the weight of the edge to that node. -/
theorem OnTour.goTo {ant : Ant K} {walk : List ℕ} (h : OnTour fl nodes ant walk) {v : ℕ}
    (hv : v ∈ ant.unvisited) :
    OnTour fl nodes
      (ant.goTo v (.val (Map.edgeWeight fl nodes ant.currentMapPosIndex v))) (walk ++ [v]) := by
  rw [Ant.mem_unvisited, h.mapSize, h.tourSoFar] at hv
  refine ⟨h.mapSize, ?_, ?_, ?_, List.getLast?_concat, ?_⟩
  · rw [← h.tourSoFar]
    rfl
  · refine List.nodup_append.2 ⟨h.nodup, List.nodup_singleton v, ?_⟩
    rintro u hu w hw rfl
    exact hv.2 (List.mem_singleton.1 hw ▸ hu)
  · intro u hu
    rcases List.mem_append.1 hu with hu | hu
    · exact h.lt u hu
    · exact List.mem_singleton.1 hu ▸ hv.1
  · rw [pathWeight_concat fl nodes h.current, ← Num.val_add, ← h.total]
    rfl

end Walks

namespace Session

variable {K : Type} [Field K] [LinearOrder K] {fl : Floats K}

/-! ## One turn -/

section Turns

theorem turn_of_stopped {s : Session K} (h : s.stopped = true) (t : Turn K) : turn fl s t = s :=
  if_pos h

theorem turn_of_some {s : Session K} {t : Turn K} {message : Message} {out : Outcome K}
    (hrunning : s.stopped = false) (hinbox : s.inbox = [message])
    (hout : s.ant.onMessage fl message t.draw = some out) :
    turn fl s t =
      { ant := out.ant
        inbox := out.posts.flatMap (arrivals fl t.map)
        sent := s.sent ++ out.posts.filter (·.receiver = .map)
        stopped := out.stopped } := by
  rw [turn, if_neg (by rw [hrunning]; decide), hinbox]
  simp only [hout, List.nil_append]

theorem run_of_stopped {s : Session K} (h : s.stopped = true) (ts : List (Turn K)) :
    run (turn fl) s ts = s := by
  induction ts with
  | nil => rfl
  | cons t ts ih => rw [run_cons, turn_of_stopped h, ih]

/-- Without a message nothing happens. -/
theorem run_of_nil {s : Session K} (h : s.inbox = []) (ts : List (Turn K)) :
    run (turn fl) s ts = s := by
  have hturn : ∀ t, turn fl s t = s := by
    intro t
    rw [turn, h]
    exact ite_self s
  induction ts with
  | nil => rfl
  | cons t ts ih => rw [run_cons, hturn, ih]

/-- Nothing comes back for a report. -/
theorem arrivals_inform (fl : Floats K) (map : Map K) {message : Message}
    (hreceiver : message.receiver = .map) (hinform : message.performative = .INFORM) :
    arrivals fl map message = [] := by
  rw [arrivals, hreceiver]
  simp only [Map.onMessage, hinform]
  cases message.content with
  | none => rfl
  | some content =>
      cases hstate : map.inform fl content with
      | none => simp [hstate]
      | some map' => simp [hstate]

/-- For a request that the map knows there is one reply. -/
theorem arrivals_request (fl : Floats K) (map : Map K) {a : ℕ} {message : Message} {content : Text}
    {reply : Option Text} (hreceiver : message.receiver = .map)
    (hrequest : message.performative = .REQUEST) (hsender : message.sender = some (.ant a))
    (hcontent : message.content = some content)
    (hreply : map.replyContent fl content = some reply) :
    arrivals fl map message =
      [{ Message.ofPerformative .INFORM (.ant a) with
        content := reply
        inReplyTo := message.replyWith }] := by
  rw [arrivals, hreceiver]
  simp only [Map.onMessage, hrequest, Message.makeReply, hsender, hcontent, hreply, Option.map_some,
    Option.bind_eq_bind, Option.bind_some]
  rfl

theorem arrivals_self (fl : Floats K) (map : Map K) {a : ℕ} {message : Message}
    (hreceiver : message.receiver = .ant a) : arrivals fl map message = [message] := by
  rw [arrivals, hreceiver]

end Turns

/-! ## The stages of a session -/

section Stages

variable (fl) (nodes : List (Node K)) (a : ℕ)

/-- A single message waits for the ant, one that is no reply to the question for the size. -/
structure Waiting (s : Session K) (message : Message) : Prop where
  running : s.stopped = false
  myAid : s.ant.myAid = .ant a
  inbox : s.inbox = [message]
  receiver : message.receiver = .ant a
  inReplyTo : message.inReplyTo = none

/-- Phase 1. -/
def Visiting (walk : List ℕ) (s : Session K) : Prop :=
  s.ant.phase = 1 ∧ OnTour fl nodes s.ant walk ∧ ∃ message, Waiting a s message

/-- Phase 2: the levels and weights of all edges to unvisited nodes have come. -/
def Asked (walk : List ℕ) (s : Session K) : Prop :=
  s.ant.phase = 2 ∧ OnTour fl nodes s.ant walk ∧
    s.ant.potentialNodeIndices = joinWords (s.ant.unvisited.map Decimal.ofNat) ∧
    ∃ message, Waiting a s message ∧ ∃ level : ℕ → Num K, message.content =
      some (text "PheromoneLevels:" ++ spaced (Ant.levelWords fl (s.ant.unvisited.map fun v =>
        (level v, .val (Map.edgeWeight fl nodes s.ant.currentMapPosIndex v)))))

/-- Phase 3: the weight of the edge from the last node of the walk to the first has come. -/
def Closing (walk : List ℕ) (s : Session K) : Prop :=
  s.ant.phase = 3 ∧ walk.Nodup ∧ (∀ v ∈ walk, v < nodes.length) ∧ walk.length = nodes.length ∧
    ∃ first last, walk.head? = some first ∧ walk.getLast? = some last ∧
      s.ant.tourSoFar = walk ++ [first] ∧ s.ant.currentMapPosIndex = first ∧
      s.ant.totalWeightSoFar = .val (pathWeight fl nodes walk) ∧
      ∃ message, Waiting a s message ∧
        message.content = some (fl.toString (.val (Map.edgeWeight fl nodes last first)))

/-- Phase 4: the tour is there, with its weight. -/
def Closed (tour : List ℕ) (s : Session K) : Prop :=
  s.ant.phase = 4 ∧ s.ant.tourSoFar = tour ∧ tour.getLast? = some s.ant.currentMapPosIndex ∧
    s.ant.totalWeightSoFar = .val (pathWeight fl nodes tour) ∧ ∃ message, Waiting a s message

/-- Phase 5: the edges of the walk and the one to the current node are still to be reported. -/
def Backtracking (delta : Num K) (walk : List ℕ) (current : ℕ) (s : Session K) : Prop :=
  s.ant.phase = 5 ∧ s.ant.delta = delta ∧ s.ant.tourSoFar = walk ∧
    s.ant.currentMapPosIndex = current ∧ ∃ message, Waiting a s message

end Stages

/-! ## From stage to stage -/

section Steps

variable {nodes : List (Node K)} {a : ℕ}

/-- The ant handles what waits for it in one of its phases. -/
theorem turn_of_waiting {s : Session K} {t : Turn K} {message : Message} {out : Outcome K}
    (hwaiting : Waiting a s message) (hout : s.ant.onMessage fl message t.draw = some out) :
    turn fl s t =
      { ant := out.ant
        inbox := out.posts.flatMap (arrivals fl t.map)
        sent := s.sent ++ out.posts.filter (·.receiver = .map)
        stopped := out.stopped } :=
  turn_of_some hwaiting.running hwaiting.inbox hout

/-- What the ant posts to itself does not reach the map. -/
theorem filter_self {message : Message} (h : message.receiver = .ant a) :
    [message].filter (fun m => decide (m.receiver = .map)) = [] := by
  rw [List.filter_singleton, h]
  rfl

/-- Phase 1: the reply has the levels and the weights of the edges to all unvisited nodes. -/
theorem asked_of_visiting {walk : List ℕ} {s : Session K} (h : Visiting fl nodes a walk s)
    (hlength : walk.length < nodes.length) {t : Turn K} (ht : t.map.nodes = nodes) :
    Asked fl nodes a walk (turn fl s t) ∧ ∃ request : Message,
      request.performative = .REQUEST ∧ (turn fl s t).sent = s.sent ++ [request] := by
  obtain ⟨hphase, htour, message, hwaiting⟩ := h
  have hne : s.ant.unvisited ≠ [] := htour.unvisited_ne_nil hlength
  have hcurrent : s.ant.currentMapPosIndex < t.map.nodes.length := by
    rw [ht]
    exact htour.lt _ (List.mem_of_getLast? htour.current)
  have hunvisited : ∀ j ∈ s.ant.unvisited, j < t.map.nodes.length := by
    intro j hj
    rw [ht, ← htour.mapSize]
    exact (Ant.mem_unvisited.1 hj).1
  let request := Ant.levelsRequest s.ant.myAid s.ant.currentMapPosIndex s.ant.unvisited
  have hmessage := Ant.onMessage_phase_one fl hwaiting.inReplyTo hphase t.draw
  rw [Ant.requestLevels_eq hne] at hmessage
  have hsender : request.sender = some (.ant a) := congrArg some hwaiting.myAid
  have harrivals := arrivals_request fl t.map (rfl : request.receiver = .map) rfl hsender rfl
    (Map.replyContent_levels t.map hcurrent hunvisited)
  rw [turn_of_waiting hwaiting hmessage]
  refine ⟨⟨rfl, htour.withPhase 2 _, rfl, _, ⟨rfl, hwaiting.myAid,
    (List.append_nil _).trans harrivals, rfl, rfl⟩, t.map.pheromone s.ant.currentMapPosIndex, ?_⟩,
    request, rfl, rfl⟩
  rw [ht, Ant.levelWords, List.flatMap_map]
  rfl

/-- Phase 2: the ant goes on to an unvisited node; from the last one it asks for the way back. -/
theorem visiting_of_asked (hfl : fl.Faithful) {walk : List ℕ} {s : Session K}
    (h : Asked fl nodes a walk s) (hlength : walk.length < nodes.length) {t : Turn K}
    (ht : t.map.nodes = nodes) :
    ∃ v, (if walk.length + 1 = nodes.length then Closing fl nodes a (walk ++ [v]) (turn fl s t)
        else Visiting fl nodes a (walk ++ [v]) (turn fl s t)) ∧
      ∃ requests : List Message, (∀ m ∈ requests, m.performative = .REQUEST) ∧
        (turn fl s t).sent = s.sent ++ requests := by
  obtain ⟨hphase, htour, hpotential, message, hwaiting, level, hcontent⟩ := h
  obtain ⟨v, hv, hchoose⟩ := Ant.exists_chooseNext hfl t.draw (htour.unvisited_ne_nil hlength)
    hpotential hcontent
  have hmoved := htour.goTo hv
  let moved := s.ant.goTo v (.val (Map.edgeWeight fl nodes s.ant.currentMapPosIndex v))
  have hlengths : moved.tourSoFar.length = walk.length + 1 := by
    rw [hmoved.tourSoFar, List.length_append, List.length_singleton]
  have hmessage := Ant.onMessage_phase_two fl hwaiting.inReplyTo hphase t.draw
  rw [hchoose] at hmessage
  refine ⟨v, ?_⟩
  split_ifs with hlast
  · -- the last node: the way back to the first
    have hall : moved.tourSoFar.length = moved.mapSize := by
      rw [hlengths, hmoved.mapSize, hlast]
    obtain ⟨first, hfirst⟩ : ∃ first, (walk ++ [v]).head? = some first :=
      Option.isSome_iff_exists.1 (by rw [List.isSome_head?]; simp)
    have hfirstTour : moved.tourSoFar.head? = some first := by rw [hmoved.tourSoFar, hfirst]
    rw [Ant.arrive_of_eq hall hfirstTour] at hmessage
    have hv' : v < t.map.nodes.length := by
      rw [ht]
      exact hmoved.lt v (by simp)
    have hfirst' : first < t.map.nodes.length := by
      rw [ht]
      exact hmoved.lt first (List.mem_of_head? hfirst)
    let request := Ant.weightRequest moved.myAid v first
    have hsender : request.sender = some (.ant a) := congrArg some hwaiting.myAid
    have harrivals := arrivals_request fl t.map (rfl : request.receiver = .map) rfl hsender rfl
      (Map.replyContent_weight t.map hv' hfirst')
    rw [turn_of_waiting hwaiting hmessage]
    refine ⟨⟨rfl, hmoved.nodup, hmoved.lt, ?_, first, v, hfirst, List.getLast?_concat, ?_, rfl,
      hmoved.total, _, ⟨rfl, hwaiting.myAid, (List.append_nil _).trans harrivals, rfl, rfl⟩, ?_⟩,
      [request], ?_, rfl⟩
    · rw [List.length_append, List.length_singleton, hlast]
    · rw [← hmoved.tourSoFar]
    · rw [ht]
    · intro m hm
      rw [List.mem_singleton.1 hm]
      rfl
  · -- nodes are left, and the ant sends the message on to itself
    have hsome : moved.tourSoFar.length ≠ moved.mapSize := by
      rw [hlengths, hmoved.mapSize]
      exact hlast
    rw [Ant.arrive_of_ne hsome] at hmessage
    have harrivals := arrivals_self fl t.map hwaiting.receiver
    rw [turn_of_waiting hwaiting hmessage]
    refine ⟨⟨rfl, hmoved.withPhase 1 _, message, ⟨rfl, hwaiting.myAid,
      (List.append_nil _).trans harrivals, hwaiting.receiver, hwaiting.inReplyTo⟩⟩, [], ?_, ?_⟩
    · exact fun m hm => absurd hm List.not_mem_nil
    · exact congrArg (s.sent ++ ·) (filter_self hwaiting.receiver)

/-- Phase 3: the weight that has come completes that of the tour. -/
theorem closed_of_closing (hfl : fl.Faithful) {walk : List ℕ} {s : Session K}
    (h : Closing fl nodes a walk s) (t : Turn K) :
    ∃ first, walk.head? = some first ∧ Closed fl nodes a (walk ++ [first]) (turn fl s t) ∧
      (turn fl s t).sent = s.sent := by
  obtain ⟨hphase, -, -, -, first, last, hfirst, hlast, htour, hcurrent, htotal, message, hwaiting,
    hcontent⟩ := h
  have hmessage := Ant.onMessage_phase_three fl hwaiting.inReplyTo hphase t.draw
  have hclose : s.ant.closeTour fl message = some {
      ant := { s.ant.addWeightToTour (.val (Map.edgeWeight fl nodes last first)) with phase := 4 }
      posts := [message]
      stopped := false } := by
    rw [Ant.closeTour, hcontent, Option.bind_some, hfl.parseFloat_toString]
    rfl
  rw [hclose] at hmessage
  have harrivals := arrivals_self fl t.map hwaiting.receiver
  rw [turn_of_waiting hwaiting hmessage]
  refine ⟨first, hfirst, ⟨rfl, htour, ?_, ?_, message, ⟨rfl, hwaiting.myAid,
    (List.append_nil _).trans harrivals, hwaiting.receiver, hwaiting.inReplyTo⟩⟩, ?_⟩
  · rw [List.getLast?_concat, ← hcurrent]
    rfl
  · rw [pathWeight_concat fl nodes hlast, ← Num.val_add, ← htotal]
    rfl
  · exact (congrArg (s.sent ++ ·) (filter_self hwaiting.receiver)).trans (List.append_nil _)

/-- Phase 4: the tour is reported with its weight. -/
theorem backtracking_of_closed {walk : List ℕ} {first : ℕ} {s : Session K}
    (h : Closed fl nodes a (walk ++ [first]) s) (t : Turn K) :
    Backtracking a (1 / .val (pathWeight fl nodes (walk ++ [first]))) walk first (turn fl s t) ∧
      (turn fl s t).sent = s.sent ++
        [Ant.bestTour fl (.ant a) (.val (pathWeight fl nodes (walk ++ [first])))
          (walk ++ [first])] := by
  obtain ⟨hphase, htour, hcurrent, htotal, message, hwaiting⟩ := h
  have hmessage := Ant.onMessage_phase_four fl hwaiting.inReplyTo hphase t.draw
  rw [Ant.reportTour_eq, hwaiting.myAid, htotal, htour] at hmessage
  have hreport := arrivals_inform fl t.map
    (rfl : (Ant.bestTour fl (.ant a) (.val (pathWeight fl nodes (walk ++ [first])))
      (walk ++ [first])).receiver = .map) rfl
  have hself := arrivals_self fl t.map hwaiting.receiver
  rw [List.getLast?_concat, Option.some.injEq] at hcurrent
  rw [turn_of_waiting hwaiting hmessage]
  refine ⟨⟨rfl, rfl, List.dropLast_concat, hcurrent.symm, message, ⟨rfl, rfl, ?_,
    hwaiting.receiver, hwaiting.inReplyTo⟩⟩, ?_⟩
  · simp only [List.flatMap_cons, List.flatMap_nil, hreport, hself, List.nil_append,
      List.append_nil]
  · exact congrArg (fun l => s.sent ++ (_ :: l)) (filter_self hwaiting.receiver)

/-- Phase 5, while something of the tour is left: the edge to its last node is reported. -/
theorem backtracking_of_concat {delta : Num K} {walk : List ℕ} {v current : ℕ} {s : Session K}
    (h : Backtracking a delta (walk ++ [v]) current s) (t : Turn K) :
    Backtracking a delta walk v (turn fl s t) ∧
      (turn fl s t).sent = s.sent ++ [Ant.update fl (.ant a) delta (current, v)] := by
  obtain ⟨hphase, hdelta, htour, hcurrent, message, hwaiting⟩ := h
  have hmessage := Ant.onMessage_phase_five fl hwaiting.inReplyTo hphase t.draw
  rw [Ant.backtrack_concat fl htour, hwaiting.myAid, hdelta, hcurrent] at hmessage
  have hreport := arrivals_inform fl t.map
    (rfl : (Ant.update fl (.ant a) delta (current, v)).receiver = .map) rfl
  have hself := arrivals_self fl t.map hwaiting.receiver
  rw [turn_of_waiting hwaiting hmessage]
  refine ⟨⟨hphase, rfl, rfl, rfl, message, ⟨rfl, rfl, ?_,
    hwaiting.receiver, hwaiting.inReplyTo⟩⟩, ?_⟩
  · simp only [List.flatMap_cons, List.flatMap_nil, hreport, hself, List.nil_append,
      List.append_nil]
  · exact congrArg (fun l => s.sent ++ (_ :: l)) (filter_self hwaiting.receiver)

/-- Phase 5, when nothing is left: the ant stops. -/
theorem stopped_of_nil {delta : Num K} {current : ℕ} {s : Session K}
    (h : Backtracking a delta [] current s) (t : Turn K) :
    (turn fl s t).stopped = true ∧ (turn fl s t).sent = s.sent := by
  obtain ⟨hphase, -, htour, -, message, hwaiting⟩ := h
  have hmessage := Ant.onMessage_phase_five fl hwaiting.inReplyTo hphase t.draw
  rw [Ant.backtrack_nil fl htour] at hmessage
  rw [turn_of_waiting hwaiting hmessage]
  exact ⟨rfl, List.append_nil _⟩

end Steps

/-! ## Whole sessions -/

section Runs

variable {nodes : List (Node K)} {a : ℕ}

/-- A round of phases 1 and 2 adds a node to the walk. -/
theorem visiting_round (hfl : fl.Faithful) {walk : List ℕ} {s : Session K}
    (h : Visiting fl nodes a walk s) (hlength : walk.length < nodes.length) {t u : Turn K}
    (ht : t.map.nodes = nodes) (hu : u.map.nodes = nodes) :
    ∃ v, (if walk.length + 1 = nodes.length
        then Closing fl nodes a (walk ++ [v]) (run (turn fl) s [t, u])
        else Visiting fl nodes a (walk ++ [v]) (run (turn fl) s [t, u])) ∧
      ∃ requests : List Message, (∀ m ∈ requests, m.performative = .REQUEST) ∧
        (run (turn fl) s [t, u]).sent = s.sent ++ requests := by
  obtain ⟨hasked, request, hrequest, hsent⟩ := asked_of_visiting h hlength ht
  obtain ⟨v, hv, requests, hrequests, hsent'⟩ := visiting_of_asked hfl hasked hlength hu
  refine ⟨v, hv, request :: requests, List.forall_mem_cons.2 ⟨hrequest, hrequests⟩, ?_⟩
  rw [run_cons, run_cons, run_nil, hsent', hsent, List.append_assoc, List.singleton_append]

/-- From phase 1 on, the walk becomes one through all nodes. -/
theorem closing_of_visiting (hfl : fl.Faithful) {walk : List ℕ} {s : Session K} {r : ℕ}
    (h : Visiting fl nodes a walk s) (hr : walk.length + (r + 1) = nodes.length)
    {ts : List (Turn K)} (hts : ∀ t ∈ ts, t.map.nodes = nodes) (hlength : ts.length = 2 * (r + 1)) :
    ∃ tour, Closing fl nodes a tour (run (turn fl) s ts) ∧ ∃ requests : List Message,
      (∀ m ∈ requests, m.performative = .REQUEST) ∧
        (run (turn fl) s ts).sent = s.sent ++ requests := by
  induction r generalizing walk s ts with
  | zero =>
      -- the last node takes two turns, one to ask and one to choose
      obtain ⟨t, u, rfl⟩ := List.length_eq_two.1 hlength
      obtain ⟨v, hv, hround⟩ := visiting_round hfl h (by omega) (hts t (by simp)) (hts u (by simp))
      rw [if_pos (by omega)] at hv
      exact ⟨walk ++ [v], hv, hround⟩
  | succ r ih =>
      obtain ⟨t, ts, rfl⟩ := List.exists_cons_of_length_pos (by omega : 0 < ts.length)
      rw [List.length_cons] at hlength
      obtain ⟨u, ts, rfl⟩ := List.exists_cons_of_length_pos (by omega : 0 < ts.length)
      rw [List.length_cons] at hlength
      -- any other node takes two turns as well, and the walk is longer by it
      obtain ⟨v, hv, requests, hrequests, hsent⟩ :=
        visiting_round hfl h (by omega) (hts t (by simp)) (hts u (by simp))
      rw [if_neg (by omega)] at hv
      have hwalk : (walk ++ [v]).length + (r + 1) = nodes.length := by
        rw [List.length_append, List.length_singleton]
        omega
      have hrest : ∀ w ∈ ts, w.map.nodes = nodes := fun w hw =>
        hts w (List.mem_cons_of_mem t (List.mem_cons_of_mem u hw))
      have hlengthRest : ts.length = 2 * (r + 1) := by omega
      obtain ⟨tour, htour, later, hlater, hsent'⟩ := ih hv hwalk hrest hlengthRest
      refine ⟨tour, htour, requests ++ later, ?_, ?_⟩
      · exact List.forall_mem_append.2 ⟨hrequests, hlater⟩
      · rw [← List.append_assoc, ← hsent]
        exact hsent'

/-- From phase 5 on, the edges up to the current node are reported from the last to the first. -/
theorem run_of_backtracking {delta : Num K} {walk : List ℕ} {current : ℕ} {s : Session K}
    (h : Backtracking a delta walk current s) {ts : List (Turn K)}
    (hlength : ts.length = walk.length + 1) :
    (run (turn fl) s ts).stopped = true ∧ (run (turn fl) s ts).sent = s.sent ++
      (edges (walk ++ [current])).reverse.map fun e => Ant.update fl (.ant a) delta e.swap := by
  induction walk using List.reverseRecOn generalizing current s ts with
  | nil =>
      obtain ⟨t, rfl⟩ := List.length_eq_one_iff.1 hlength
      obtain ⟨hstopped, hsent⟩ := stopped_of_nil h t
      exact ⟨hstopped, hsent.trans (List.append_nil _).symm⟩
  | append_singleton walk v ih =>
      rw [List.length_append, List.length_singleton] at hlength
      obtain ⟨t, ts, rfl⟩ := List.exists_cons_of_length_pos (by omega : 0 < ts.length)
      rw [List.length_cons] at hlength
      obtain ⟨hstep, hsent⟩ := backtracking_of_concat h t
      have hlengthRest : ts.length = walk.length + 1 := by omega
      obtain ⟨hstopped, hsent'⟩ := ih hstep hlengthRest
      refine ⟨hstopped, ?_⟩
      -- the edge that was reported first is the last one of the walk
      rw [run_cons, hsent', hsent, edges_concat List.getLast?_concat, List.reverse_append,
        List.append_assoc]
      rfl

/-- The first turn: the ant is at a node that has been drawn. -/
theorem visiting_of_start (fl : Floats K) (a : ℕ) {map : Map K} (hn : 0 < map.nodes.length)
    (hdone : map.done = false) (t : Turn K) :
    ∃ v, Visiting fl map.nodes a [v] (turn fl (start fl (.ant a) map) t) ∧
      (turn fl (start fl (.ant a) map) t).sent = [Ant.sizeRequest (.ant a)] := by
  let reply : Message := { Message.ofPerformative .INFORM (.ant a) with
    content := some (Decimal.ofNat map.nodes.length)
    inReplyTo := some (text "MapSize") }
  have hinbox : arrivals fl map (Ant.sizeRequest (.ant a)) = [reply] :=
    arrivals_request fl map rfl rfl rfl rfl (Map.replyContent_size map hdone)
  have hreply : reply.inReplyTo = some (text "MapSize") := rfl
  have hmessage : (start fl (.ant a) map).ant.onMessage fl reply t.draw = _ :=
    (if_pos hreply).trans (Ant.startTour_ofNat hn rfl t.draw)
  rw [turn_of_some rfl hinbox hmessage]
  refine ⟨t.draw.nextInt map.nodes.length, ⟨rfl, ⟨rfl, rfl, List.nodup_singleton _, ?_, rfl, ?_⟩,
    Message.ofPerformative .REQUEST (.ant a), ⟨rfl, rfl, ?_, rfl, rfl⟩⟩, ?_⟩
  · intro v hv
    rw [List.mem_singleton.1 hv]
    exact Nat.mod_lt _ hn
  · rfl
  · rfl
  · rfl

theorem exists_append {α : Type} {l : List α} {k : ℕ} (h : k ≤ l.length) :
    ∃ l₁ l₂, l = l₁ ++ l₂ ∧ l₁.length = k :=
  ⟨l.take k, l.drop k, (List.take_append_drop k l).symm, List.length_take_of_le h⟩

/-- Whatever levels an ant is told of and whatever it draws, the draw gives the index of an offer,
and the ant stops after having sent requests, one report of a tour through all nodes and back with
the sum of the map's weights, and one update for each edge of that tour, from the last to the first
and against its direction. -/
theorem ant_tour (hfl : fl.Faithful) {map : Map K} (hn : 2 ≤ map.nodes.length)
    (hdone : map.done = false) (a : ℕ) {ts : List (Turn K)}
    (hts : ∀ t ∈ ts, t.map.nodes = map.nodes) (hlength : 3 * map.nodes.length + 2 ≤ ts.length) :
    (∀ (random : K) (ps : List (Num K)), ps ≠ [] →
      ∃ i, Ant.select random ps = some i ∧ 1 ≤ i ∧ i ≤ ps.length) ∧
    ∃ tour requests, IsTour map.nodes.length tour ∧ (edges tour).length = map.nodes.length ∧
      (∀ m ∈ requests, m.performative = .REQUEST) ∧
      (run (turn fl) (start fl (.ant a) map) ts).stopped = true ∧
      (run (turn fl) (start fl (.ant a) map) ts).sent = requests ++
        Ant.bestTour fl (.ant a) (.val (pathWeight fl map.nodes tour)) tour ::
          (edges tour).reverse.map fun e =>
            Ant.update fl (.ant a) (1 / .val (pathWeight fl map.nodes tour)) e.swap := by
  refine ⟨fun random ps hps => ?_, ?_⟩
  · obtain ⟨i, hi⟩ := Ant.exists_select random hps
    exact ⟨i, hi, Ant.select_bounds hi⟩
  obtain ⟨r, hr⟩ : ∃ r, map.nodes.length = r + 2 := ⟨map.nodes.length - 2, by omega⟩
  -- the turns of the start, of phases 1 and 2, of phases 3 and 4, and of phase 5
  obtain ⟨t, ts, rfl⟩ := List.exists_cons_of_length_pos (by omega : 0 < ts.length)
  rw [List.length_cons] at hlength
  obtain ⟨visits, ts, rfl, hvisits⟩ := exists_append (by omega : 2 * (r + 1) ≤ ts.length)
  rw [List.length_append] at hlength
  obtain ⟨u, ts, rfl⟩ := List.exists_cons_of_length_pos (by omega : 0 < ts.length)
  rw [List.length_cons] at hlength
  obtain ⟨w, ts, rfl⟩ := List.exists_cons_of_length_pos (by omega : 0 < ts.length)
  rw [List.length_cons] at hlength
  obtain ⟨back, ts, rfl, hback⟩ := exists_append (by omega : r + 3 ≤ ts.length)
  obtain ⟨v, hstart, hsentStart⟩ := visiting_of_start fl a (by omega) hdone t
  have hvisitsNodes : ∀ t ∈ visits, t.map.nodes = map.nodes := fun t' ht' => hts t' (by simp [ht'])
  have hsingle : [v].length + (r + 1) = map.nodes.length := by
    rw [List.length_singleton]
    omega
  obtain ⟨walk, hclosing, requests, hrequests, hsentVisits⟩ :=
    closing_of_visiting hfl hstart hsingle hvisitsNodes hvisits
  obtain ⟨-, hnodup, hlt, hwalk, -⟩ := id hclosing
  obtain ⟨first, hfirst, hclosed, hsentClose⟩ := closed_of_closing hfl hclosing u
  obtain ⟨hbacktracking, hsentReport⟩ := backtracking_of_closed hclosed w
  have hbackLength : back.length = walk.length + 1 := by omega
  obtain ⟨hstopped, hsentBack⟩ := run_of_backtracking hbacktracking hbackLength
  have htour : IsTour map.nodes.length (walk ++ [first]) :=
    IsTour.of_nodup hfirst hnodup hlt hwalk
  refine ⟨walk ++ [first], Ant.sizeRequest (.ant a) :: requests, htour,
    by rw [length_edges, htour.length, Nat.add_sub_cancel],
    List.forall_mem_cons.2 ⟨rfl, hrequests⟩, ?_⟩
  rw [run_cons, run_append, run_cons, run_cons, run_append, run_of_stopped hstopped]
  refine ⟨hstopped, ?_⟩
  rw [hsentBack, hsentReport, hsentClose, hsentVisits, hsentStart]
  simp only [List.append_assoc, List.cons_append, List.nil_append]

/-- Two nodes at a distance of 5. -/
def twoNodes : Map ℚ := Map.loadMap fractions [⟨0, 0⟩, ⟨3, 4⟩]

theorem ant_tour_twoNodes :
    (∀ (random : ℚ) (ps : List (Num ℚ)), ps ≠ [] →
      ∃ i, Ant.select random ps = some i ∧ 1 ≤ i ∧ i ≤ ps.length) ∧
    ∃ tour requests, IsTour 2 tour ∧ (edges tour).length = 2 ∧
      (∀ m ∈ requests, m.performative = .REQUEST) ∧
      (run (turn fractions) (start fractions (.ant 0) twoNodes)
        (List.replicate 8 ⟨twoNodes, 0, 0⟩)).stopped = true ∧
      (run (turn fractions) (start fractions (.ant 0) twoNodes)
        (List.replicate 8 ⟨twoNodes, 0, 0⟩)).sent = requests ++
        Ant.bestTour fractions (.ant 0) (.val (pathWeight fractions twoNodes.nodes tour)) tour ::
          (edges tour).reverse.map fun e =>
            Ant.update fractions (.ant 0)
              (1 / .val (pathWeight fractions twoNodes.nodes tour)) e.swap := by
  have hn : 2 ≤ twoNodes.nodes.length := Nat.le_refl 2
  have hts : ∀ t ∈ List.replicate 8 (⟨twoNodes, 0, 0⟩ : Turn ℚ), t.map.nodes = twoNodes.nodes := by
    intro t ht
    rw [List.eq_of_mem_replicate ht]
  exact ant_tour fractions_faithful hn rfl 0 hts (Nat.le_refl 8)

/-- An ant that is told that the map is done does nothing more. -/
theorem run_of_done {map : Map K} (hdone : map.done = true) (a : ℕ) (ts : List (Turn K)) :
    (run (turn fl) (start fl (.ant a) map) ts).stopped = false := by
  let reply : Message := { Message.ofPerformative .INFORM (.ant a) with
    content := some (text "DONE")
    inReplyTo := some (text "MapSize") }
  have hcontent : map.replyContent fl (text "MapSize?") = some (some (text "DONE")) := by
    rw [Map.replyContent, if_pos rfl, hdone]
    rfl
  have hinbox : arrivals fl map (Ant.sizeRequest (.ant a)) = [reply] :=
    arrivals_request fl map rfl rfl rfl rfl hcontent
  cases ts with
  | nil => rfl
  | cons t ts =>
      have hreply : reply.inReplyTo = some (text "MapSize") := rfl
      have hmessage : (start fl (.ant a) map).ant.onMessage fl reply t.draw = _ :=
        (if_pos hreply).trans (Ant.startTour_done rfl t.draw)
      rw [run_cons, turn_of_some rfl hinbox hmessage, run_of_nil rfl]

/-- The map has been searched long enough when the ant asks for its size. -/
theorem ant_of_done :
    ¬ ∀ fl : Floats ℚ, fl.Faithful → ∀ map : Map ℚ, 2 ≤ map.nodes.length → ∀ (a : ℕ)
        (ts : List (Turn ℚ)), (∀ t ∈ ts, t.map.nodes = map.nodes) →
        3 * map.nodes.length + 2 ≤ ts.length →
        ∃ tour requests, IsTour map.nodes.length tour ∧
          (∀ m ∈ requests, m.performative = .REQUEST) ∧
          (run (turn fl) (start fl (.ant a) map) ts).stopped = true ∧
          (run (turn fl) (start fl (.ant a) map) ts).sent = requests ++
            Ant.bestTour fl (.ant a) (.val (pathWeight fl map.nodes tour)) tour ::
              (edges tour).reverse.map fun e =>
                Ant.update fl (.ant a) (1 / .val (pathWeight fl map.nodes tour)) e.swap := by
  intro hall
  let map : Map ℚ := { twoNodes with done := true }
  have hts : ∀ t ∈ List.replicate 8 (⟨map, 0, 0⟩ : Turn ℚ), t.map.nodes = map.nodes := by
    intro t ht
    rw [List.eq_of_mem_replicate ht]
  obtain ⟨tour, requests, -, -, hstopped, -⟩ :=
    hall fractions fractions_faithful map (Nat.le_refl 2) 0 _ hts (Nat.le_refl 8)
  rw [run_of_done rfl] at hstopped
  cases hstopped

end Runs

end Session

end Siebog.Aco
