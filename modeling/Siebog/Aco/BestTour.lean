import Siebog.Aco.Colony
import Siebog.Aco.Tour

/-!
# The best tour of a colony

The tours that the ants of a colony report are put together from the replies of the map, while the
messages of all ants are delivered in any order. Still an ant hears the reply to its own last
question: what passes between the map and an ant that is started once is a thread with a single
message in flight, and `Stage` says what that message is in each phase of the ant.

So the best tour that the map holds is a tour through all nodes, and its weight is the one of that
tour (`Colony.bestTour_sound`). No tour that has been reported before the map stopped counting is
better (`Colony.bestTour_least`).
-/

set_option autoImplicit false

namespace Siebog.Aco

open Siebog.Lib Siebog.Lib.Utf16 Siebog.Lib.Words Siebog.Lib.Walk

/-! ## The stages of an ant -/

section Stages

/-- The ant whose question or whose reply a message is. Reports belong to none. -/
def owner : AgentName × Message → Option ℕ
  | (.ant a, _) => some a
  | (.map, message) =>
    match message.performative, message.sender with
    | .REQUEST, some (.ant a) => some a
    | _, _ => none

variable {K : Type} [Field K] [LinearOrder K] (fl : Floats K) (nodes : List (Node K)) (a : ℕ)

/-- A message that the ant can post to itself again. -/
structure Again (message : Message) : Prop where
  receiver : message.receiver = .ant a
  inReplyTo : message.inReplyTo = none

/-- Phases 1 and 2: nodes are left to be visited. -/
structure Underway (ant : Ant K) (walk : List ℕ) : Prop where
  myAid : ant.myAid = .ant a
  onTour : OnTour fl nodes ant walk
  length_lt : walk.length < nodes.length

/-- Phase 3: the weight of the edge from the last node to the first is still to be added. -/
structure Closing (ant : Ant K) (walk : List ℕ) (first last : ℕ) : Prop where
  myAid : ant.myAid = .ant a
  nodup : walk.Nodup
  lt : ∀ v ∈ walk, v < nodes.length
  length : walk.length = nodes.length
  head : walk.head? = some first
  last : walk.getLast? = some last
  tourSoFar : ant.tourSoFar = walk ++ [first]
  total : ant.totalWeightSoFar = .val (pathWeight fl nodes walk)

/-- An ant and its messages in flight. The ant is gone, or silent: it has not been started, or has
been told that the map is done, or a message has been lost on it. Otherwise there is one message. -/
inductive Stage : Option (Ant K) → List (AgentName × Message) → Prop where
  | gone : Stage none []
  | silent (ant : Ant K) : Stage (some ant) []
  | asksSize : Stage (some (Ant.initial (.ant a))) [(.map, Ant.sizeRequest (.ant a))]
  | hearsSize {message : Message} (hreply : message.inReplyTo = some (text "MapSize"))
      (hcontent : message.content = some (text "DONE") ∨
        message.content = some (Decimal.ofNat nodes.length)) :
      Stage (some (Ant.initial (.ant a))) [(.ant a, message)]
  | visits {ant : Ant K} {walk : List ℕ} {message : Message} (hphase : ant.phase = 1)
      (h : Underway fl nodes a ant walk) (hmessage : Again a message) :
      Stage (some ant) [(.ant a, message)]
  | asksLevels {ant : Ant K} {walk : List ℕ} (hphase : ant.phase = 2)
      (h : Underway fl nodes a ant walk)
      (hpotential : ant.potentialNodeIndices = joinWords (ant.unvisited.map Decimal.ofNat)) :
      Stage (some ant)
        [(.map, Ant.levelsRequest (.ant a) ant.currentMapPosIndex ant.unvisited)]
  | hearsLevels {ant : Ant K} {walk : List ℕ} {message : Message} (hphase : ant.phase = 2)
      (h : Underway fl nodes a ant walk)
      (hpotential : ant.potentialNodeIndices = joinWords (ant.unvisited.map Decimal.ofNat))
      (hmessage : Again a message) (level : ℕ → Num K)
      (hcontent : message.content = some (text "PheromoneLevels:" ++ spaced
        (Ant.levelWords fl (ant.unvisited.map fun v =>
          (level v, .val (Map.edgeWeight fl nodes ant.currentMapPosIndex v)))))) :
      Stage (some ant) [(.ant a, message)]
  | asksWeight {ant : Ant K} {walk : List ℕ} {first last : ℕ} (hphase : ant.phase = 3)
      (h : Closing fl nodes a ant walk first last) :
      Stage (some ant) [(.map, Ant.weightRequest (.ant a) last first)]
  | hearsWeight {ant : Ant K} {walk : List ℕ} {first last : ℕ} {message : Message}
      (hphase : ant.phase = 3) (h : Closing fl nodes a ant walk first last)
      (hmessage : Again a message)
      (hcontent : message.content =
        some (fl.toString (.val (Map.edgeWeight fl nodes last first)))) :
      Stage (some ant) [(.ant a, message)]
  | reports {ant : Ant K} {message : Message} (hphase : ant.phase = 4)
      (hmyAid : ant.myAid = .ant a) (htour : IsTour nodes.length ant.tourSoFar)
      (htotal : ant.totalWeightSoFar = .val (pathWeight fl nodes ant.tourSoFar))
      (hmessage : Again a message) : Stage (some ant) [(.ant a, message)]
  | returns {ant : Ant K} {message : Message} (hphase : ant.phase = 5)
      (hmyAid : ant.myAid = .ant a) (hmessage : Again a message) :
      Stage (some ant) [(.ant a, message)]

/-- What is in flight to the map: questions, updates, and reports of tours with their weights. -/
inductive Truthful : Message → Prop where
  | request {message : Message} (hrequest : message.performative = .REQUEST)
      (hsender : message.sender = some (.ant a)) : Truthful message
  | update (delta : Num K) (edge : ℕ × ℕ) : Truthful (Ant.update fl (.ant a) delta edge)
  | bestTour {tour : List ℕ} (htour : IsTour nodes.length tour) :
      Truthful (Ant.bestTour fl (.ant a) (.val (pathWeight fl nodes tour)) tour)

variable {fl nodes a}

omit [LinearOrder K] in
/-- An ant has one message in flight at most. -/
theorem Stage.length_le_one {state : Option (Ant K)} {messages : List (AgentName × Message)}
    (h : Stage fl nodes a state messages) : messages.length ≤ 1 := by
  cases h <;> simp

omit [LinearOrder K] in
/-- A message that is lost leaves the ant silent. -/
theorem Stage.lost {state : Option (Ant K)} {p : AgentName × Message}
    (h : Stage fl nodes a state [p]) : Stage fl nodes a state [] := by
  cases h <;> exact .silent _

end Stages

/-! ## The ant goes on -/

section Ants

variable {K : Type} [Field K] [LinearOrder K] {fl : Floats K} {nodes : List (Node K)} {a : ℕ}

/-- What becomes of the ant, and what it posts. -/
structure GoesOn (fl : Floats K) (nodes : List (Node K)) (a : ℕ) (out : Outcome K) : Prop where
  stage : Stage fl nodes a (if out.stopped then none else some out.ant)
    (Network.thread owner a (addressed out.posts))
  posts : ∀ m ∈ out.posts, m.receiver = .ant a ∨ m.receiver = .map ∧ Truthful fl nodes a m

/-- A message is in the thread of the ant that it is for, or from. -/
theorem thread_single {message : Message} (h : owner (message.receiver, message) = some a) :
    Network.thread owner a (addressed [message]) = [(message.receiver, message)] :=
  Network.thread_cons_self h

/-- A message that an ant sends to itself is in its thread. -/
theorem thread_again {message : Message} (h : message.receiver = .ant a) :
    Network.thread owner a (addressed [message]) = [(.ant a, message)] := by
  have howner : owner (message.receiver, message) = some a := by
    rw [h]
    rfl
  rw [thread_single howner, h]

/-- A report does not belong to the thread. -/
theorem thread_report {report message : Message} (hreport : owner (report.receiver, report) = none)
    (h : message.receiver = .ant a) :
    Network.thread owner a (addressed [report, message]) = [(.ant a, message)] := by
  have hne : owner (report.receiver, report) ≠ some a := by
    rw [hreport]
    exact (Option.some_ne_none a).symm
  exact (Network.thread_cons_of_ne hne).trans (thread_again h)

/-- The ant starts a tour, or waits for nothing. -/
theorem goesOn_startTour (hn : 2 ≤ nodes.length) {message : Message} {draw : Draw K}
    {out : Outcome K}
    (hcontent : message.content = some (text "DONE") ∨
      message.content = some (Decimal.ofNat nodes.length))
    (hout : (Ant.initial (.ant a)).startTour message draw = some out) :
    GoesOn fl nodes a out := by
  rcases hcontent with hcontent | hcontent
  · rw [Ant.startTour_done hcontent, Option.some.injEq] at hout
    subst hout
    exact ⟨.silent _, fun m hm => absurd hm List.not_mem_nil⟩
  · rw [Ant.startTour_ofNat (by omega) hcontent, Option.some.injEq] at hout
    subst hout
    refine ⟨?_, List.forall_mem_singleton.2 (.inl rfl)⟩
    rw [thread_again rfl]
    refine .visits rfl ⟨rfl, ⟨rfl, rfl, List.nodup_singleton _, ?_, rfl, rfl⟩, hn⟩ ⟨rfl, rfl⟩
    intro v hv
    rw [List.mem_singleton.1 hv]
    exact Nat.mod_lt _ (by omega)

variable {ant : Ant K} {walk : List ℕ} {message : Message} {draw : Draw K} {out : Outcome K}

/-- The ant asks for the levels of the nodes that are left. -/
theorem goesOn_requestLevels (h : Underway fl nodes a ant walk) :
    GoesOn fl nodes a ant.requestLevels := by
  rw [Ant.requestLevels_eq (h.onTour.unvisited_ne_nil h.length_lt), h.myAid]
  refine ⟨?_, List.forall_mem_singleton.2 (.inr ⟨rfl, .request rfl rfl⟩)⟩
  rw [thread_single rfl]
  obtain ⟨hmapSize, htour, hnodup, hlt, hcurrent, htotal⟩ := h.onTour
  exact .asksLevels rfl ⟨rfl, ⟨hmapSize, htour, hnodup, hlt, hcurrent, htotal⟩, h.length_lt⟩ rfl

/-- The ant goes on to the node it has chosen. -/
theorem goesOn_chooseNext (hfl : fl.Faithful) (h : Underway fl nodes a ant walk)
    (hpotential : ant.potentialNodeIndices = joinWords (ant.unvisited.map Decimal.ofNat))
    (hmessage : Again a message) {level : ℕ → Num K}
    (hcontent : message.content = some (text "PheromoneLevels:" ++ spaced
      (Ant.levelWords fl (ant.unvisited.map fun v =>
        (level v, .val (Map.edgeWeight fl nodes ant.currentMapPosIndex v))))))
    (hout : ant.chooseNext fl message draw = some out) : GoesOn fl nodes a out := by
  obtain ⟨v, hv, hchoose⟩ := Ant.exists_chooseNext hfl draw
    (h.onTour.unvisited_ne_nil h.length_lt) hpotential hcontent
  rw [hchoose] at hout
  have hmoved := h.onTour.goTo hv
  have hmyAid : (ant.goTo v (.val (Map.edgeWeight fl nodes ant.currentMapPosIndex v))).myAid =
      .ant a := h.myAid
  have hcurrent : (ant.goTo v (.val (Map.edgeWeight fl nodes ant.currentMapPosIndex
      v))).currentMapPosIndex = v := rfl
  -- only what `goTo` does to the tour matters from here on
  generalize ant.goTo v (.val (Map.edgeWeight fl nodes ant.currentMapPosIndex v)) = moved at *
  have hlength : moved.tourSoFar.length = walk.length + 1 := by
    rw [hmoved.tourSoFar, List.length_append, List.length_singleton]
  have hlt := h.length_lt
  by_cases hall : moved.tourSoFar.length = moved.mapSize
  · -- from the last node the ant asks for the way back
    obtain ⟨first, hfirst⟩ : ∃ first, (walk ++ [v]).head? = some first :=
      Option.isSome_iff_exists.1 (by rw [List.isSome_head?]; simp)
    have hfirstTour : moved.tourSoFar.head? = some first := by rw [hmoved.tourSoFar, hfirst]
    rw [Ant.arrive_of_eq hall hfirstTour, Option.some.injEq, hmyAid, hcurrent] at hout
    subst hout
    refine ⟨?_, List.forall_mem_singleton.2 (.inr ⟨rfl, .request rfl rfl⟩)⟩
    rw [thread_single rfl]
    refine .asksWeight rfl ⟨rfl, hmoved.nodup, hmoved.lt, ?_, hfirst, List.getLast?_concat, ?_,
      hmoved.total⟩
    · rw [← hmoved.tourSoFar, hall, hmoved.mapSize]
    · rw [← hmoved.tourSoFar]
  · -- with nodes left it goes on to ask for the levels
    rw [Ant.arrive_of_ne hall, Option.some.injEq] at hout
    subst hout
    refine ⟨?_, List.forall_mem_singleton.2 (.inl hmessage.receiver)⟩
    rw [thread_again hmessage.receiver]
    refine .visits rfl ⟨hmyAid, hmoved.withPhase 1 _, ?_⟩ hmessage
    rw [hlength, hmoved.mapSize] at hall
    rw [List.length_append, List.length_singleton]
    omega

/-- The ant closes its tour. -/
theorem goesOn_closeTour (hfl : fl.Faithful) {first last : ℕ}
    (h : Closing fl nodes a ant walk first last) (hmessage : Again a message)
    (hcontent : message.content = some (fl.toString (.val (Map.edgeWeight fl nodes last first))))
    (hout : ant.closeTour fl message = some out) : GoesOn fl nodes a out := by
  simp only [Ant.closeTour, hcontent, Option.bind_some, hfl.parseFloat_toString,
    Option.bind_eq_bind] at hout
  cases hout
  refine ⟨?_, List.forall_mem_singleton.2 (.inl hmessage.receiver)⟩
  rw [thread_again hmessage.receiver]
  refine .reports rfl h.myAid ?_ ?_ hmessage
  · show IsTour nodes.length ant.tourSoFar
    rw [h.tourSoFar]
    exact IsTour.of_nodup h.head h.nodup h.lt h.length
  · show ant.totalWeightSoFar + _ = .val (pathWeight fl nodes ant.tourSoFar)
    rw [h.total, h.tourSoFar, pathWeight_concat fl nodes h.last, Num.val_add]

/-- The ant reports its tour with the weight of it. -/
theorem goesOn_reportTour (hmyAid : ant.myAid = .ant a)
    (htour : IsTour nodes.length ant.tourSoFar)
    (htotal : ant.totalWeightSoFar = .val (pathWeight fl nodes ant.tourSoFar))
    (hmessage : Again a message) : GoesOn fl nodes a (ant.reportTour fl message) := by
  rw [Ant.reportTour_eq, hmyAid, htotal]
  refine ⟨?_, List.forall_mem_cons.2 ⟨.inr ⟨rfl, .bestTour htour⟩,
    List.forall_mem_singleton.2 (.inl hmessage.receiver)⟩⟩
  rw [thread_report rfl hmessage.receiver]
  exact .returns rfl rfl hmessage

/-- The ant goes back. -/
theorem goesOn_backtrack (hphase : ant.phase = 5) (hmyAid : ant.myAid = .ant a)
    (hmessage : Again a message) : GoesOn fl nodes a (ant.backtrack fl message) := by
  rcases List.eq_nil_or_concat ant.tourSoFar with hnil | ⟨walk, v, hconcat⟩
  · rw [Ant.backtrack_nil fl hnil]
    exact ⟨.gone, fun m hm => absurd hm List.not_mem_nil⟩
  · rw [List.concat_eq_append] at hconcat
    rw [Ant.backtrack_concat fl hconcat, hmyAid]
    refine ⟨?_, List.forall_mem_cons.2 ⟨.inr ⟨rfl, .update _ _⟩,
      List.forall_mem_singleton.2 (.inl hmessage.receiver)⟩⟩
    rw [thread_report rfl hmessage.receiver]
    exact .returns hphase rfl hmessage

/-- The ant handles the only message of its thread. -/
theorem goesOn_onMessage (hfl : fl.Faithful) (hn : 2 ≤ nodes.length)
    (h : Stage fl nodes a (some ant) [(.ant a, message)])
    (hout : ant.onMessage fl message draw = some out) : GoesOn fl nodes a out := by
  cases h with
  | hearsSize hreply hcontent =>
      rw [Ant.onMessage, if_pos hreply] at hout
      exact goesOn_startTour hn hcontent hout
  | visits hphase h hmessage =>
      rw [Ant.onMessage_phase_one fl hmessage.inReplyTo hphase, Option.some.injEq] at hout
      exact hout ▸ goesOn_requestLevels h
  | hearsLevels hphase h hpotential hmessage level hcontent =>
      rw [Ant.onMessage_phase_two fl hmessage.inReplyTo hphase] at hout
      exact goesOn_chooseNext hfl h hpotential hmessage hcontent hout
  | hearsWeight hphase h hmessage hcontent =>
      rw [Ant.onMessage_phase_three fl hmessage.inReplyTo hphase] at hout
      exact goesOn_closeTour hfl h hmessage hcontent hout
  | reports hphase hmyAid htour htotal hmessage =>
      rw [Ant.onMessage_phase_four fl hmessage.inReplyTo hphase, Option.some.injEq] at hout
      exact hout ▸ goesOn_reportTour hmyAid htour htotal hmessage
  | returns hphase hmyAid hmessage =>
      rw [Ant.onMessage_phase_five fl hmessage.inReplyTo hphase, Option.some.injEq] at hout
      exact hout ▸ goesOn_backtrack hphase hmyAid hmessage

end Ants

/-! ## The map answers and keeps the best tour -/

section Best

variable {K : Type} [Field K] [LinearOrder K]

/-- The best tour of the map: none yet, or a tour through all nodes, which are counted from 1, with
its weight. -/
def Best (fl : Floats K) (nodes : List (Node K)) (map : Map K) : Prop :=
  (map.bestTourWeight = fl.MAX_VALUE ∧ map.bestTour = []) ∨
    ∃ tour, IsTour nodes.length tour ∧ map.bestTour = tour.map (fun v => (v : Int) + 1) ∧
      map.bestTourWeight = .val (pathWeight fl nodes tour)

variable {fl : Floats K} {nodes : List (Node K)} {a : ℕ} {map map' : Map K} {message : Message}
  {posts : List Message}

/-- The map answers the question of an ant. -/
theorem stage_reply (hnodes : map.nodes = nodes) {state : Option (Ant K)}
    (h : Stage fl nodes a state [(.map, message)])
    (hout : map.onMessage fl message = some (map', posts)) :
    Stage fl nodes a state (Network.thread owner a (addressed posts)) := by
  cases h with
  | asksSize =>
      obtain ⟨-, sender, content, hsender, ⟨question, hquestion, hcontent⟩, rfl⟩ :=
        Map.onMessage_request rfl hout
      cases hsender
      cases hquestion
      rw [thread_again rfl]
      refine .hearsSize rfl ?_
      -- a map that is done replies `DONE` in place of the size
      rw [Map.replyContent, if_pos rfl, Option.some.injEq] at hcontent
      rw [← hcontent, ← hnodes]
      by_cases hdone : map.done = true
      · rw [if_pos hdone]
        exact .inl rfl
      · rw [if_neg hdone]
        exact .inr rfl
  | @asksLevels ant walk hphase h hpotential =>
      obtain ⟨-, sender, content, hsender, ⟨question, hquestion, hcontent⟩, rfl⟩ :=
        Map.onMessage_request rfl hout
      cases hsender
      cases hquestion
      have hcurrent : ant.currentMapPosIndex < map.nodes.length := by
        rw [hnodes]
        exact h.onTour.lt _ (List.mem_of_getLast? h.onTour.current)
      -- the nodes that the ant asks about are nodes of the map
      have hunvisited : ∀ j ∈ ant.unvisited, j < map.nodes.length := by
        intro j hj
        rw [hnodes, ← h.onTour.mapSize]
        exact (Ant.mem_unvisited.1 hj).1
      rw [Map.replyContent_levels map hcurrent hunvisited, Option.some.injEq] at hcontent
      subst hcontent
      rw [thread_again rfl]
      refine .hearsLevels hphase h hpotential ⟨rfl, rfl⟩
        (map.pheromone ant.currentMapPosIndex) ?_
      rw [hnodes, Ant.levelWords, List.flatMap_map]
  | @asksWeight ant walk first last hphase h =>
      obtain ⟨-, sender, content, hsender, ⟨question, hquestion, hcontent⟩, rfl⟩ :=
        Map.onMessage_request rfl hout
      cases hsender
      cases hquestion
      have hlast : last < map.nodes.length := by
        rw [hnodes]
        exact h.lt last (List.mem_of_getLast? h.last)
      have hfirst : first < map.nodes.length := by
        rw [hnodes]
        exact h.lt first (List.mem_of_head? h.head)
      rw [Map.replyContent_weight map hlast hfirst, Option.some.injEq] at hcontent
      subst hcontent
      rw [thread_again rfl]
      refine .hearsWeight hphase h ⟨rfl, rfl⟩ ?_
      rw [hnodes]

/-- A report of a tour is read as the tour and its weight. -/
theorem inform_bestTour (hfl : fl.Faithful) (map : Map K) (weight : Num K) (tour : List ℕ) :
    map.inform fl (text "UpdateBestTour" ++
        spaced (fl.toString weight :: tour.map Decimal.ofNat)) =
      map.updateBestTour weight (tour.map Decimal.ofNat) := by
  have hwords : ∀ w ∈ fl.toString weight :: tour.map Decimal.ofNat, IsWord w :=
    List.forall_mem_cons.2 ⟨hfl.isWord weight, Ant.isWord_map_ofNat tour⟩
  rw [Map.inform, if_pos (List.prefix_append _ _), split_append_spaced (by decide) hwords]
  simp only [List.getElem?_cons_succ, List.getElem?_cons_zero, Option.bind_some,
    hfl.parseFloat_toString, List.drop_succ_cons, List.drop_zero, Option.bind_eq_bind]

/-- The nodes of a tour are read back. -/
theorem mapM_parseInt_ofNat (tour : List ℕ) :
    (tour.map Decimal.ofNat).mapM parseInt = some (tour.map fun v => (v : Int)) := by
  induction tour with
  | nil => rfl
  | cons v tour ih =>
      rw [List.map_cons, List.mapM_cons, parseInt_ofNat, ih]
      rfl

/-- An update leaves the best tour alone. -/
theorem inform_update_best {words : List Text}
    (h : map.inform fl (text "UpdatePheromone" ++ spaced words) = some map') :
    map'.bestTour = map.bestTour ∧ map'.bestTourWeight = map.bestTourWeight := by
  have hbest : ¬ text "UpdateBestTour" <+: text "UpdatePheromone" ++ spaced words :=
    not_prefix_append (by decide) (by decide) _
  rw [Map.inform, if_neg hbest, if_pos (List.prefix_append _ _)] at h
  simp only [Option.bind_eq_bind, Option.bind_eq_some_iff, Map.setPheromoneLevel] at h
  obtain ⟨i, -, j, -, factor, -, term, -, level, -, k, -, l, -, hmap⟩ := h
  cases hmap
  exact ⟨rfl, rfl⟩

omit [LinearOrder K] in
/-- The best tour is right by the tour and the weight that the map keeps. -/
theorem Best.congr (h : Best fl nodes map) (htour : map'.bestTour = map.bestTour)
    (hweight : map'.bestTourWeight = map.bestTourWeight) : Best fl nodes map' := by
  rw [Best, htour, hweight]
  exact h

/-- A tour that is taken over is one through all nodes, with its weight. -/
theorem Best.updateBestTour {tour : List ℕ} (h : Best fl nodes map)
    (htour : IsTour nodes.length tour)
    (hmap : map.updateBestTour (.val (pathWeight fl nodes tour)) (tour.map Decimal.ofNat) =
      some map') : Best fl nodes map' := by
  unfold Map.updateBestTour at hmap
  split_ifs at hmap
  · cases hmap
    exact h.congr rfl rfl
  · rw [mapM_parseInt_ofNat] at hmap
    cases hmap
    exact .inr ⟨tour, htour, List.map_map, rfl⟩
  · cases hmap
    exact h.congr rfl rfl

/-- What the map makes of a truthful message keeps its best tour one of the map. -/
theorem Best.onMessage (hfl : fl.Faithful) (h : Best fl nodes map)
    (hmessage : Truthful fl nodes a message)
    (hout : map.onMessage fl message = some (map', posts)) : Best fl nodes map' := by
  cases hmessage with
  | request hrequest => exact (Map.onMessage_request hrequest hout).1 ▸ h
  | update delta edge =>
      obtain ⟨-, content, hcontent, hmap⟩ := Map.onMessage_inform rfl hout
      cases hcontent
      obtain ⟨htour, hweight⟩ := inform_update_best hmap
      exact h.congr htour hweight
  | bestTour htour =>
      obtain ⟨-, content, hcontent, hmap⟩ := Map.onMessage_inform rfl hout
      cases hcontent
      rw [inform_bestTour hfl] at hmap
      exact h.updateBestTour htour hmap

/-- The messages that the map posts are replies to the owner of the question. -/
theorem receiver_of_onMessage (hmessage : Truthful fl nodes a message)
    (hout : map.onMessage fl message = some (map', posts)) :
    map'.nodes = map.nodes ∧
      ∀ m ∈ posts, ∃ b, m.receiver = .ant b ∧ owner (.map, message) = some b := by
  cases hmessage with
  | request hrequest hsender =>
      obtain ⟨rfl, sender, content, hsender', -, rfl⟩ := Map.onMessage_request hrequest hout
      rw [hsender, Option.some.injEq] at hsender'
      subst hsender'
      refine ⟨rfl, List.forall_mem_singleton.2 ⟨a, rfl, ?_⟩⟩
      rw [owner, hrequest, hsender]
  | update delta edge =>
      obtain ⟨rfl, content, -, hmap⟩ := Map.onMessage_inform rfl hout
      exact ⟨Map.inform_nodes hmap, fun m hm => absurd hm List.not_mem_nil⟩
  | bestTour htour =>
      obtain ⟨rfl, content, -, hmap⟩ := Map.onMessage_inform rfl hout
      exact ⟨Map.inform_nodes hmap, fun m hm => absurd hm List.not_mem_nil⟩

/-- What an ant posts does not belong to another one. -/
theorem owner_ne_of_posts {b : ℕ} (hb : b ≠ a)
    (h : message.receiver = .ant a ∨ message.receiver = .map ∧ Truthful fl nodes a message) :
    owner (message.receiver, message) ≠ some b := by
  rcases h with hreceiver | ⟨hreceiver, htruthful⟩
  · rw [hreceiver]
    exact fun heq => hb (Option.some.inj heq).symm
  · rw [hreceiver]
    cases htruthful with
    | request hrequest hsender =>
        rw [owner, hrequest, hsender]
        exact fun heq => hb (Option.some.inj heq).symm
    | update delta edge => exact (Option.some_ne_none b).symm
    | bestTour htour => exact (Option.some_ne_none b).symm

end Best

/-! ## Whole colonies -/

namespace Colony

section Guided

variable {K : Type} [Field K] [LinearOrder K]

/-- The messages in flight that belong to an ant. -/
def threadOf (colony : Colony K) (a : ℕ) : List (AgentName × Message) :=
  Network.thread owner a colony.flight

/-- Every ant is in a stage, what is in flight to the map is true, and so is the best tour. -/
structure Guided (fl : Floats K) (nodes : List (Node K)) (colony : Colony K) : Prop where
  map_nodes : colony.map.nodes = nodes
  stage : ∀ a, Stage fl nodes a (colony.state (.ant a)) (colony.threadOf a)
  truthful : ∀ message, (.map, message) ∈ colony.flight → ∃ a, Truthful fl nodes a message
  best : Best fl nodes colony.map

/-- The ant has not been started. -/
def Unstarted (colony : Colony K) (a : ℕ) : Prop :=
  colony.state (.ant a) = some (Ant.initial (.ant a)) ∧ colony.threadOf a = []

variable {fl : Floats K} {nodes : List (Node K)} {colony colony' : Colony K} {k : ℕ}

/-- The colony starts guided. -/
theorem guided_initial : Guided fl nodes (initial fl nodes) where
  map_nodes := rfl
  stage _ := .silent _
  truthful _ h := absurd h List.not_mem_nil
  best := .inl ⟨rfl, rfl⟩

/-- An ant is started. -/
theorem Guided.start (h : Guided fl nodes colony) {a : ℕ} (ha : colony.Unstarted a)
    (hstep : step fl colony (.start a) = some colony') :
    Guided fl nodes colony' ∧ ∀ b, b ≠ a → colony.Unstarted b → colony'.Unstarted b := by
  cases hstep
  have hother : ∀ b, b ≠ a → Network.thread owner b
      (colony.flight ++ [(.map, Ant.sizeRequest (.ant a))]) = colony.threadOf b := by
    intro b hb
    have hne : owner (AgentName.map, Ant.sizeRequest (.ant a)) ≠ some b := fun heq =>
      hb (Option.some.inj heq).symm
    rw [Network.thread_append, Network.thread_cons_of_ne hne]
    exact List.append_nil _
  refine ⟨⟨h.map_nodes, fun b => ?_, fun message hmessage => ?_, h.best⟩, fun b hb hunstarted => ?_⟩
  · by_cases hb : b = a
    · subst hb
      obtain ⟨hstate, hthread⟩ := ha
      have hown : Network.thread owner b (colony.flight ++ [(.map, Ant.sizeRequest (.ant b))]) =
          [(.map, Ant.sizeRequest (.ant b))] := by
        rw [Network.thread_append, ← threadOf, hthread, List.nil_append]
        exact Network.thread_cons_self rfl
      show Stage fl nodes b (colony.state (.ant b)) (Network.thread owner b _)
      rw [hown, hstate]
      exact .asksSize
    · show Stage fl nodes b (colony.state (.ant b)) (Network.thread owner b _)
      rw [hother b hb]
      exact h.stage b
  · rcases List.mem_append.1 hmessage with hmessage | hmessage
    · exact h.truthful message hmessage
    · cases List.mem_singleton.1 hmessage
      exact ⟨a, .request rfl rfl⟩
  · exact ⟨hunstarted.1, (hother b hb).trans hunstarted.2⟩

/-- A message is gone, and with it the thread that it belonged to. -/
theorem Guided.lose (h : Guided fl nodes colony) {p : AgentName × Message}
    (hk : colony.flight[k]? = some p) (name : AgentName) :
    Guided fl nodes (colony.handled k name none) := by
  refine ⟨h.map_nodes, fun a => ?_, fun message hmessage => ?_, h.best⟩
  · have hstage := h.stage a
    show Stage fl nodes a (colony.state (.ant a)) (Network.thread owner a (colony.flight.eraseIdx k))
    by_cases howner : owner p = some a
    · rw [Network.thread_eraseIdx_self hk howner hstage.length_le_one]
      rw [threadOf, Network.thread_eq_single hk howner hstage.length_le_one] at hstage
      exact hstage.lost
    · rw [Network.thread_eraseIdx_of_ne hk howner]
      exact hstage
  · exact h.truthful message (List.mem_of_mem_eraseIdx hmessage)

/-- What is posted for a message belongs to the thread of that message, if to any. -/
theorem Guided.owner_posts (hfl : fl.Faithful) (hn : 2 ≤ nodes.length)
    (h : Guided fl nodes colony) {name : AgentName} {message : Message}
    (hk : colony.flight[k]? = some (name, message)) {draw : Draw K} {state : AgentState K name}
    {posts : List (AgentName × Message)}
    (hout : behaviour fl name (colony.state name) message draw = some (state, posts))
    {q : AgentName × Message} (hq : q ∈ posts) {b : ℕ} (hb : owner q = some b) :
    owner (name, message) = some b := by
  cases name with
  | map =>
      -- the map replies to the sender, so the thread stays with the same ant
      obtain ⟨a, htruthful⟩ := h.truthful message (List.mem_of_getElem? hk)
      obtain ⟨⟨map', posts'⟩, hmap, heq⟩ := Option.map_eq_some_iff.1 hout
      cases heq
      obtain ⟨m, hm, rfl⟩ := List.mem_map.1 hq
      obtain ⟨c, hreceiver, hc⟩ := (receiver_of_onMessage htruthful hmap).2 m hm
      rw [hreceiver] at hb
      exact hc.trans hb
  | ant a =>
      have hstage := h.stage a
      have hself : owner (.ant a, message) = some a := rfl
      rw [threadOf, Network.thread_eq_single hk hself hstage.length_le_one] at hstage
      cases hstate : colony.state (.ant a) with
      | none =>
          rw [hstate] at hout
          cases hout
      | some ant =>
          rw [hstate] at hstage hout
          obtain ⟨out, hant, heq⟩ := Option.map_eq_some_iff.1 hout
          cases heq
          obtain ⟨m, hm, rfl⟩ := List.mem_map.1 hq
          -- what an ant posts is for itself or in its own name
          by_contra hne
          have hba : b ≠ a := fun heq => hne (hself.trans (congrArg some heq.symm))
          exact owner_ne_of_posts hba ((goesOn_onMessage hfl hn hstage hant).posts m hm) hb

/-- An ant that has not been started is not concerned. -/
theorem Guided.unstarted (hfl : fl.Faithful) (hn : 2 ≤ nodes.length) (h : Guided fl nodes colony)
    {name : AgentName} {message : Message} (hk : colony.flight[k]? = some (name, message))
    (draw : Draw K) {a : ℕ} (ha : colony.Unstarted a) :
    Unstarted (colony.handled k name (behaviour fl name (colony.state name) message draw)) a := by
  obtain ⟨hstate, hthread⟩ := ha
  have howner : owner (name, message) ≠ some a := by
    intro heq
    have hmem := Network.mem_thread_of_getElem? hk heq
    rw [← threadOf, hthread] at hmem
    cases hmem
  have hname : AgentName.ant a ≠ name := by
    rintro rfl
    exact howner rfl
  refine ⟨(Network.state_handled_of_ne colony k hname _).trans hstate, ?_⟩
  rw [← hthread]
  cases hout : behaviour fl name (colony.state name) message draw with
  | none => exact Network.thread_eraseIdx_of_ne hk howner
  | some out =>
      refine Network.thread_posts_of_ne hk howner fun q hq heq => ?_
      exact howner (h.owner_posts hfl hn hk hout hq heq)

/-- The map handles a message. -/
theorem Guided.map (hfl : fl.Faithful) (hn : 2 ≤ nodes.length) (h : Guided fl nodes colony)
    {message : Message}
    (hk : colony.flight[k]? = some (.map, message)) (draw : Draw K) :
    Guided fl nodes (colony.handled k .map (behaviour fl .map colony.map message draw)) := by
  obtain ⟨a, htruthful⟩ := h.truthful message (List.mem_of_getElem? hk)
  cases hout : Map.onMessage fl colony.map message with
  | none =>
      have hbehaviour : behaviour fl .map colony.map message draw = none :=
        congrArg (Option.map _) hout
      rw [hbehaviour]
      exact h.lose hk .map
  | some out =>
      obtain ⟨map', posts⟩ := out
      have hbehaviour : behaviour fl .map colony.map message draw = some (map', addressed posts) :=
        congrArg (Option.map _) hout
      obtain ⟨hnodes, hposts⟩ := receiver_of_onMessage htruthful hout
      have hmap : Colony.map (colony.handled k .map (some (map', addressed posts))) = map' :=
        Network.state_handled_some colony k .map map' _
      rw [hbehaviour]
      refine ⟨?_, fun b => ?_, fun m hm => ?_, ?_⟩
      · rw [hmap, hnodes, h.map_nodes]
      · have hstage := h.stage b
        have hstate : (colony.handled k .map (some (map', addressed posts))).state (.ant b) =
            colony.state (.ant b) :=
          Network.state_handled_of_ne colony k (fun heq => by cases heq) _
        rw [hstate]
        show Stage fl nodes b _ (Network.thread owner b (colony.flight.eraseIdx k ++ _))
        -- one thread gets the reply, and the others are as they were
        by_cases howner : owner (.map, message) = some b
        · rw [Network.thread_posts hk howner hstage.length_le_one]
          rw [threadOf, Network.thread_eq_single hk howner hstage.length_le_one] at hstage
          exact stage_reply h.map_nodes hstage hout
        · rw [Network.thread_posts_of_ne hk howner fun q hq heq =>
            howner (h.owner_posts hfl hn hk hbehaviour hq heq)]
          exact hstage
      · rcases List.mem_append.1 hm with hm | hm
        · exact h.truthful m (List.mem_of_mem_eraseIdx hm)
        · obtain ⟨m', hm', heq⟩ := List.mem_map.1 hm
          obtain ⟨c, hreceiver, -⟩ := hposts m' hm'
          rw [hreceiver] at heq
          cases heq
      · rw [hmap]
        exact h.best.onMessage hfl htruthful hout

/-- An ant handles a message. -/
theorem Guided.ant (hfl : fl.Faithful) (hn : 2 ≤ nodes.length) (h : Guided fl nodes colony) {a : ℕ}
    {message : Message} (hk : colony.flight[k]? = some (.ant a, message)) (draw : Draw K) :
    Guided fl nodes
      (colony.handled k (.ant a) (behaviour fl (.ant a) (colony.state (.ant a)) message draw)) := by
  have hstage := h.stage a
  have hself : owner (.ant a, message) = some a := rfl
  rw [threadOf, Network.thread_eq_single hk hself hstage.length_le_one] at hstage
  cases hstate : colony.state (.ant a) with
  | none => exact h.lose hk (.ant a)
  | some ant =>
      rw [hstate] at hstage
      cases hout : ant.onMessage fl message draw with
      | none =>
          have hbehaviour : behaviour fl (.ant a) (some ant) message draw = none :=
            congrArg (Option.map _) hout
          rw [hbehaviour]
          exact h.lose hk (.ant a)
      | some out =>
          have hbehaviour : behaviour fl (.ant a) (some ant) message draw =
              some (if out.stopped then none else some out.ant, addressed out.posts) :=
            congrArg (Option.map _) hout
          obtain ⟨hnext, hposts⟩ := goesOn_onMessage hfl hn hstage hout
          rw [hbehaviour]
          generalize (if out.stopped then none else some out.ant) = state at hnext hbehaviour
          have hmap : Colony.map (colony.handled k (.ant a) (some (state, addressed out.posts))) =
              colony.map :=
            Network.state_handled_of_ne colony k (fun heq => by cases heq) _
          refine ⟨?_, fun b => ?_, fun m hm => ?_, ?_⟩
          · rw [hmap, h.map_nodes]
          · have hstageb := h.stage b
            show Stage fl nodes b _ (Network.thread owner b (colony.flight.eraseIdx k ++ _))
            -- the ant's own thread goes on, and the others are as they were
            by_cases hb : b = a
            · subst hb
              rw [Network.state_handled_some, Network.thread_posts hk hself hstageb.length_le_one]
              exact hnext
            · have hne : AgentName.ant b ≠ .ant a := fun heq => hb (AgentName.ant.inj heq)
              have howner : owner (.ant a, message) ≠ some b := fun heq =>
                hb (Option.some.inj heq).symm
              have hout' : behaviour fl (.ant a) (colony.state (.ant a)) message draw =
                  some (state, addressed out.posts) := by
                rw [hstate, hbehaviour]
              rw [Network.state_handled_of_ne _ _ hne, Network.thread_posts_of_ne hk howner
                fun q hq heq => howner (h.owner_posts hfl hn hk hout' hq heq)]
              exact hstageb
          · rcases List.mem_append.1 hm with hm | hm
            · exact h.truthful m (List.mem_of_mem_eraseIdx hm)
            · obtain ⟨m', hm', heq⟩ := List.mem_map.1 hm
              obtain ⟨hmap', rfl⟩ := Prod.mk.inj heq
              rcases hposts m' hm' with hreceiver | ⟨-, htruthful⟩
              · rw [hmap'] at hreceiver
                cases hreceiver
              · exact ⟨a, htruthful⟩
          · rw [hmap]
            exact h.best

/-- The ant that an event starts. -/
def Event.started : Event K → Option ℕ
  | .start a => some a
  | .deliver _ _ => none

/-- One event, when the ant that it starts has not been started before. -/
theorem Guided.step (hfl : fl.Faithful) (hn : 2 ≤ nodes.length) (h : Guided fl nodes colony)
    {event : Event K} (hevent : ∀ a, event.started = some a → colony.Unstarted a)
    (hstep : step fl colony event = some colony') :
    Guided fl nodes colony' ∧
      ∀ b, event.started ≠ some b → colony.Unstarted b → colony'.Unstarted b := by
  cases event with
  | start a =>
      obtain ⟨hguided, hunstarted⟩ := h.start (hevent a rfl) hstep
      exact ⟨hguided, fun b hb => hunstarted b fun heq => hb (congrArg some heq.symm)⟩
  | deliver k draw =>
      obtain ⟨name, message, hk, rfl⟩ := Network.exists_of_deliver hstep
      refine ⟨?_, fun b _ hb => h.unstarted hfl hn hk draw hb⟩
      cases name with
      | map => exact h.map hfl hn hk draw
      | ant a => exact h.ant hfl hn hk draw

/-- A run keeps a colony guided, if no ant is started twice. -/
theorem Guided.run (hfl : fl.Faithful) (hn : 2 ≤ nodes.length) {events : List (Event K)}
    (h : Guided fl nodes colony) (hnodup : (events.filterMap Event.started).Nodup)
    (hunstarted : ∀ a ∈ events.filterMap Event.started, colony.Unstarted a)
    (hrun : execute (Colony.step fl) colony events = some colony') : Guided fl nodes colony' := by
  induction events generalizing colony with
  | nil =>
      cases hrun
      exact h
  | cons event events ih =>
      obtain ⟨next, hstep, hrun⟩ := Option.bind_eq_some_iff.1 hrun
      have hevent : ∀ a, event.started = some a → colony.Unstarted a := fun a ha =>
        hunstarted a (List.mem_filterMap.2 ⟨event, List.mem_cons_self, ha⟩)
      obtain ⟨hguided, hkept⟩ := h.step hfl hn hevent hstep
      have hrest : (events.filterMap Event.started).Nodup :=
        hnodup.sublist ((List.sublist_cons_self event events).filterMap _)
      refine ih hguided hrest (fun a ha => ?_) hrun
      refine hkept a (fun heq => ?_) ?_
      · -- the event has started it, and no event does so again
        rw [List.filterMap_cons_some heq] at hnodup
        exact (List.nodup_cons.1 hnodup).1 ha
      · exact hunstarted a (((List.sublist_cons_self event events).filterMap _).subset ha)

/-- In every run in which no ant is started twice, the best tour of the map is a tour through all
nodes, with the sum of the weights of its edges, once there is one. -/
theorem bestTour_sound (hfl : fl.Faithful) (hn : 2 ≤ nodes.length) {events : List (Event K)}
    (hstarts : (events.filterMap Event.started).Nodup)
    (hrun : execute (Colony.step fl) (initial fl nodes) events = some colony) :
    Best fl nodes colony.map :=
  (guided_initial.run hfl hn hstarts (fun _ _ => ⟨rfl, rfl⟩) hrun).best

/-- One ant on its way round a triangle. -/
theorem bestTour_sound_threeNodes :
    ∃ colony, execute (Colony.step fractions) (initial fractions threeNodes) firstUpdate =
        some colony ∧ colony.map.bestTour = [1, 2, 3, 1] ∧
      Best fractions threeNodes colony.map := by
  have hrun : (execute (Colony.step fractions) (initial fractions threeNodes) firstUpdate).map
      (fun colony => colony.map.bestTour) = some [1, 2, 3, 1] := by decide +kernel
  obtain ⟨colony, hcolony, htour⟩ := Option.map_eq_some_iff.1 hrun
  exact ⟨colony, hcolony, htour,
    bestTour_sound fractions_faithful (by decide) (by decide) hcolony⟩

end Guided

/-! ## No better tour has been reported -/

section Least

variable {K : Type} [Field K] [LinearOrder K] {fl : Floats K}

omit [Field K] in
/-- A report does not make the best weight greater. -/
theorem updateBestTour_weight_le {map map' : Map K} {weight : Num K} {tour : List Text} {b : K}
    (hb : map.bestTourWeight = .val b) (h : map.updateBestTour weight tour = some map') :
    ∃ b' ≤ b, map'.bestTourWeight = .val b' := by
  unfold Map.updateBestTour at h
  split_ifs at h with hcount hless
  · cases h
    exact ⟨b, le_refl b, hb⟩
  · obtain ⟨bestTour, -, hmap⟩ := Option.bind_eq_some_iff.1 h
    cases hmap
    rw [hb] at hless
    -- an undefined weight is not less than any
    cases weight with
    | nan => cases hless
    | val w => exact ⟨w, le_of_lt hless, rfl⟩
  · cases h
    exact ⟨b, le_refl b, hb⟩

omit [LinearOrder K] [Field K] in
/-- A level does not change the best weight. -/
theorem setPheromoneLevel_weight {map map' : Map K} {i j : Int} {level : Num K}
    (h : map.setPheromoneLevel i j level = some map') :
    map'.bestTourWeight = map.bestTourWeight := by
  simp only [Map.setPheromoneLevel, Option.bind_eq_bind, Option.bind_eq_some_iff] at h
  obtain ⟨k, -, l, -, hmap⟩ := h
  cases hmap
  rfl

/-- What the ants inform the map of does not make the best weight greater. -/
theorem inform_weight_le {map map' : Map K} {content : Text} {b : K}
    (hb : map.bestTourWeight = .val b) (h : map.inform fl content = some map') :
    ∃ b' ≤ b, map'.bestTourWeight = .val b' := by
  unfold Map.inform at h
  split_ifs at h
  · simp only [Option.bind_eq_bind, Option.bind_eq_some_iff] at h
    obtain ⟨weight, -, hmap⟩ := h
    exact updateBestTour_weight_le hb hmap
  · simp only [Option.bind_eq_bind, Option.bind_eq_some_iff] at h
    obtain ⟨i, -, j, -, factor, -, term, -, level, -, hmap⟩ := h
    exact ⟨b, le_refl b, (setPheromoneLevel_weight hmap).trans hb⟩
  · simp only [Option.bind_eq_bind, Option.bind_eq_some_iff] at h
    obtain ⟨i, -, j, -, ksi, -, level, -, hmap⟩ := h
    exact ⟨b, le_refl b, (setPheromoneLevel_weight hmap).trans hb⟩
  · cases h
    exact ⟨b, le_refl b, hb⟩

/-- No message makes the best tour worse. -/
theorem onMessage_weight_le {map map' : Map K} {message : Message} {posts : List Message} {b : K}
    (hb : map.bestTourWeight = .val b) (h : map.onMessage fl message = some (map', posts)) :
    ∃ b' ≤ b, map'.bestTourWeight = .val b' := by
  by_cases hrequest : message.performative = .REQUEST
  · exact ⟨b, le_refl b, (Map.onMessage_request hrequest h).1 ▸ hb⟩
  by_cases hinform : message.performative = .INFORM
  · obtain ⟨-, content, -, hmap⟩ := Map.onMessage_inform hinform h
    exact inform_weight_le hb hmap
  · have hsame : map'.bestTourWeight = map.bestTourWeight := by
      unfold Map.onMessage at h
      split at h
      · next heq => exact absurd heq hrequest
      · next heq => exact absurd heq hinform
      · cases h
        rfl
      · cases h
        rfl
    exact ⟨b, le_refl b, hsame.trans hb⟩

variable {colony colony' : Colony K}

/-- The map after a delivery to it. -/
theorem map_of_onMessage {k : ℕ} {message : Message} {draw : Draw K} {map' : Map K}
    {posts : List Message} (hk : colony.flight[k]? = some (.map, message))
    (hout : Map.onMessage fl colony.map message = some (map', posts))
    (hstep : step fl colony (.deliver k draw) = some colony') : colony'.map = map' := by
  have hbehaviour : behaviour fl .map (colony.state .map) message draw =
      some (map', addressed posts) := congrArg (Option.map _) hout
  have hnext : step fl colony (.deliver k draw) =
      some (colony.handled k .map (behaviour fl .map (colony.state .map) message draw)) :=
    Network.step_of_flight hk draw
  rw [hnext, hbehaviour, Option.some.injEq] at hstep
  subst hstep
  exact Network.state_handled_some colony k .map map' _

/-- Only what the map makes of a message changes it. -/
theorem map_of_deliver {k : ℕ} {draw : Draw K}
    (hstep : step fl colony (.deliver k draw) = some colony') :
    colony'.map = colony.map ∨
      ∃ message posts, Map.onMessage fl colony.map message = some (colony'.map, posts) := by
  obtain ⟨name, message, hk, hnext⟩ := Network.exists_of_deliver hstep
  cases name with
  | ant a =>
      rw [hnext]
      exact .inl (Network.state_handled_of_ne colony k (fun heq => by cases heq) _)
  | map =>
      cases hout : Map.onMessage fl colony.map message with
      | none =>
          have hbehaviour : behaviour fl .map (colony.state .map) message draw = none :=
            congrArg (Option.map _) hout
          rw [hnext, hbehaviour]
          exact .inl rfl
      | some out =>
          refine .inr ⟨message, out.2, ?_⟩
          rw [map_of_onMessage hk hout hstep]
          exact hout

/-- A step does not make the best weight greater. -/
theorem step_weight_le {b : K} (hb : ∃ b' ≤ b, colony.map.bestTourWeight = .val b')
    {event : Event K} (hstep : step fl colony event = some colony') :
    ∃ b' ≤ b, colony'.map.bestTourWeight = .val b' := by
  obtain ⟨b', hle, hb'⟩ := hb
  cases event with
  | start a =>
      cases hstep
      exact ⟨b', hle, hb'⟩
  | deliver k draw =>
      rcases map_of_deliver hstep with hmap | ⟨message, posts, hout⟩
      · rw [hmap]
        exact ⟨b', hle, hb'⟩
      · obtain ⟨b'', hle', hb''⟩ := onMessage_weight_le hb' hout
        exact ⟨b'', hle'.trans hle, hb''⟩

/-- A run does not make the best weight greater. -/
theorem execute_weight_le {b : K} (hb : ∃ b' ≤ b, colony.map.bestTourWeight = .val b')
    {events : List (Event K)} (hrun : execute (step fl) colony events = some colony') :
    ∃ b' ≤ b, colony'.map.bestTourWeight = .val b' := by
  have hall : Along (step fl) (fun _ _ => True) colony events :=
    along_of_forall (fun _ _ => trivial) _ _
  exact hall.invariant (fun _ _ _ hb _ hstep => step_weight_le hb hstep) hb hrun

/-- A report that is delivered while the map is still counting leaves a best tour that is no
worse. -/
theorem report_weight_le (hfl : fl.Faithful) {b : K} (hb : colony.map.bestTourWeight = .val b)
    {k : ℕ} {sender : AgentName} {w : K} {tour : List ℕ}
    (hk : colony.flight[k]? = some (.map, Ant.bestTour fl sender (.val w) tour))
    (hcount : colony.map.nIterationsBestTourNotUpdated < MAX_STATIONARY_ITERATIONS)
    {draw : Draw K} (hstep : step fl colony (.deliver k draw) = some colony') :
    ∃ b' ≤ w, colony'.map.bestTourWeight = .val b' := by
  have hcount' : ¬ colony.map.nIterationsBestTourNotUpdated ≥ MAX_STATIONARY_ITERATIONS := by
    omega
  obtain ⟨map', hupdate, hle⟩ : ∃ map',
      colony.map.updateBestTour (.val w) (tour.map Decimal.ofNat) = some map' ∧
        ∃ b' ≤ w, map'.bestTourWeight = .val b' := by
    rw [Map.updateBestTour, if_neg hcount', mapM_parseInt_ofNat]
    split_ifs with hless
    · exact ⟨_, rfl, w, le_refl w, rfl⟩
    · rw [hb, Num.val_lt_val] at hless
      exact ⟨_, rfl, b, not_lt.1 hless, hb⟩
  have hinform := (inform_bestTour hfl colony.map (.val w) tour).trans hupdate
  have hreport : Map.onMessage fl colony.map (Ant.bestTour fl sender (.val w) tour) =
      some (map', []) := by
    simp only [Map.onMessage, Ant.bestTour, Ant.toMap, Message.ofPerformative,
      Option.bind_eq_bind, Option.bind_some, hinform, Option.pure_def]
  rw [map_of_onMessage hk hreport hstep]
  exact hle

/-- In every run, the best tour at the end is no worse than a tour that has been reported before
the map has stopped counting, whatever has happened before and since. -/
theorem bestTour_least (hfl : fl.Faithful) {m : K} (hmax : fl.MAX_VALUE = .val m)
    {nodes : List (Node K)} {before after : List (Event K)} {final : Colony K}
    (hbefore : execute (step fl) (initial fl nodes) before = some colony) {k : ℕ}
    {sender : AgentName} {w : K} {tour : List ℕ}
    (hk : colony.flight[k]? = some (.map, Ant.bestTour fl sender (.val w) tour))
    (hcount : colony.map.nIterationsBestTourNotUpdated < MAX_STATIONARY_ITERATIONS) {draw : Draw K}
    (hafter : execute (step fl) colony (.deliver k draw :: after) = some final) :
    ∃ b ≤ w, final.map.bestTourWeight = .val b := by
  obtain ⟨next, hstep, hrest⟩ := Option.bind_eq_some_iff.1 hafter
  have hinitial : ∃ b ≤ m, (initial fl nodes).map.bestTourWeight = .val b := ⟨m, le_refl m, hmax⟩
  obtain ⟨b, -, hb⟩ := execute_weight_le hinitial hbefore
  exact execute_weight_le (report_weight_le hfl hb hk hcount hstep) hrest

/-- The only ant of a colony reports the way round a triangle. -/
theorem bestTour_least_threeNodes :
    ∃ colony final : Colony ℚ,
      execute (step fractions) (initial fractions threeNodes)
        (.start 0 :: List.replicate 11 (.deliver 0 ⟨0, 0⟩)) = some colony ∧
      colony.flight[0]? =
        some (.map, Ant.bestTour fractions (.ant 0) (.val 12) [0, 1, 2, 0]) ∧
      execute (step fractions) colony [.deliver 0 ⟨0, 0⟩] = some final ∧
      ∃ b ≤ 12, final.map.bestTourWeight = .val b := by
  have hrun : (execute (step fractions) (initial fractions threeNodes)
      (.start 0 :: List.replicate 11 (.deliver 0 ⟨0, 0⟩))).map
        (fun colony => (colony.flight[0]?, colony.map.nIterationsBestTourNotUpdated)) =
      some (some (.map, Ant.bestTour fractions (.ant 0) (.val 12) [0, 1, 2, 0]), 0) := by
    decide +kernel
  obtain ⟨colony, hcolony, hpair⟩ := Option.map_eq_some_iff.1 hrun
  obtain ⟨hk, hcount⟩ := Prod.mk.inj hpair
  have hlt : colony.map.nIterationsBestTourNotUpdated < MAX_STATIONARY_ITERATIONS := by
    rw [hcount]
    decide
  obtain ⟨final, hafter⟩ : ∃ final,
      execute (step fractions) colony [.deliver 0 ⟨0, 0⟩] = some final := by
    have hnext : step fractions colony (.deliver 0 ⟨0, 0⟩) =
        some (colony.handled 0 .map (behaviour fractions .map (colony.state .map) _ ⟨0, 0⟩)) :=
      Network.step_of_flight hk (⟨0, 0⟩ : Draw ℚ)
    rw [execute, hnext]
    exact ⟨_, rfl⟩
  exact ⟨colony, final, hcolony, hk, hafter,
    bestTour_least fractions_faithful rfl hcolony hk hlt hafter⟩

end Least

end Colony

end Siebog.Aco
