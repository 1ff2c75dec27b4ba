import Siebog.DNars.Base.RoundTrip
import Siebog.DNars.Inference.Questions

/-!
# The belief methods of an agent

A `DNarsAgent` sends the batches of events of its graph to itself. `EventHandler` parses the
statements of a batch, and calls each method that is annotated for added or for updated beliefs with
those that match its patterns.

`beliefs_delivered` goes from the additions to the methods: whatever batches the events come in, a
method gets the matching ones of the statements that were new, or known, when they were added, each
once and in their order, with the truth values that they were added with, rounded by the printing.
-/

set_option autoImplicit false

namespace Siebog.DNarsWeb

open Siebog.Lib Siebog.DNars StatementAPI

section Model

/-! ## Annotated methods -/

/-- The arguments of the annotations `BeliefAdded` and `BeliefUpdated`: regular expressions. -/
structure Patterns where
  subj : String
  copula : String
  pred : String
  truth : String
  deriving DecidableEq

/-- A public method of the agent's class. -/
structure Method where
  name : String
  parameterTypes : List String
  beliefAdded : Option Patterns
  beliefUpdated : Option Patterns
  deriving DecidableEq

/-- A method with the patterns of its annotation. -/
structure ParsedMethod extends Patterns where
  ref : Method
  deriving DecidableEq

/-- The methods to tell of new statements, and those to tell of revised ones. -/
structure EventParser where
  added : List ParsedMethod
  updated : List ParsedMethod

namespace EventParser

/-- The method takes one list and nothing else. -/
def checkArgs (m : Method) : Except String Unit :=
  if m.parameterTypes = ["java.util.List"] then .ok ()
  else .error ("Method " ++ m.name ++ " should only receive an array of Statement objects.")

/-- A method with both annotations is one for added beliefs. -/
def parseMethod (parser : EventParser) (m : Method) : Except String EventParser :=
  match m.beliefAdded, m.beliefUpdated with
  | some ann, _ => do
    checkArgs m
    return { parser with added := parser.added ++ [⟨ann, m⟩] }
  | none, some ann => do
    checkArgs m
    return { parser with updated := parser.updated ++ [⟨ann, m⟩] }
  | none, none => return parser

/-- The annotated methods of a class, in their order. -/
def parse (methods : List Method) : Except String EventParser :=
  methods.foldlM parseMethod ⟨[], []⟩

end EventParser

/-! ## Events -/

/-- The methods that have been called, each with its argument. -/
abbrev Calls := List (ParsedMethod × List Statement)

/-- The statement of an event joins the added or the updated ones. `none` is the exception for a
text that is no statement. -/
def splitEvent (statements : List Statement × List Statement) (ev : EventPayload) :
    Option (List Statement × List Statement) :=
  match ev.type with
  | .added =>
    (StatementParser.parse ev.statement).map fun st => (statements.1 ++ [st], statements.2)
  | .updated =>
    (StatementParser.parse ev.statement).map fun st => (statements.1, statements.2 ++ [st])

/-- The statements of the events, added and updated ones apart. `none` when a text does not parse.
-/
def split (events : List EventPayload) : Option (List Statement × List Statement) :=
  events.foldlM splitEvent ([], [])

/-- `text.matches(regex)`, where `none` is the exception for a pattern that is no regular
expression, and whether a method throws an exception. -/
structure Reflection where
  matchesRegex : String → String → Option Bool
  throws : Method → List Statement → Bool

variable (java : Reflection)

/-- The four parts of the statement match the four patterns. They are tried one after the other, so
a pattern behind one that fails is not compiled. -/
def ParsedMethod.accepts (m : ParsedMethod) (st : Statement) : Option Bool := do
  if ← java.matchesRegex st.subj.id m.subj then
    if ← java.matchesRegex st.copula.text m.copula then
      if ← java.matchesRegex st.pred.id m.pred then
        java.matchesRegex st.truth.toString m.truth
      else return false
    else return false
  else return false

/-- The statements that a method is told of. -/
def getMatches (m : ParsedMethod) : List Statement → Option (List Statement)
  | [] => some []
  | st :: statements => do
    let matched ← m.accepts java st
    let result ← getMatches m statements
    return if matched then st :: result else result

/-- The calls, and whether there was no exception. -/
def notify (statements : List Statement) : List ParsedMethod → Calls × Bool
  | [] => ([], true)
  | m :: methods =>
    match getMatches java m statements with
    | none => ([], false)
    | some st =>
      -- a method without matches is not called
      if st.isEmpty then notify statements methods
      -- the exception ends the loop, also for the methods after it
      else if java.throws m.ref st then ([(m, st)], false)
      else
        let rest := notify statements methods
        ((m, st) :: rest.1, rest.2)

/-- The calls that a batch of events leads to, and whether all of it went through. Added statements
come first; an exception ends the rest. -/
def EventParser.handle (parser : EventParser) (events : List EventPayload) : Calls × Bool :=
  match split events with
  | none => ([], false)
  | some (added, updated) =>
    let first := notify java added parser.added
    if first.2 then
      let second := notify java updated parser.updated
      (first.1 ++ second.1, second.2)
    else first

/-- The batches that the agent gets from itself. An exception ends the handling of its batch
only. -/
def EventParser.handleAll (parser : EventParser) (batches : List (List EventPayload)) : Calls :=
  batches.flatMap fun events => (parser.handle java events).1

end Model

/-! ## The events of additions -/

/-- What a sequence of additions gives to `addEvent`, up to the first exception. -/
def eventsOf : DNarsGraph → List Statement → List EventPayload
  | _, [] => []
  | g, st :: sts =>
    match (add st).run g with
    | .ok event g' => event.toList ++ eventsOf g' sts
    | .error _ _ => []

/-- The type of the event for a statement that is added. -/
def eventType (g : DNarsGraph) (st : Statement) : EventType :=
  if truthsAt g st.triple = [] then .added else .updated

/-- The statements with the types of their events. -/
def reports : DNarsGraph → List Statement → List (EventType × Statement)
  | _, [] => []
  | g, st :: sts => (eventType g st, st) :: reports (addStep g st) sts

/-- The statements that are new when they are added, or those that are not. -/
def reported (type : EventType) (g : DNarsGraph) (sts : List Statement) : List Statement :=
  (reports g sts).filterMap fun r => if r.1 = type then some r.2 else none

/-- The hundredths of a number. -/
def rounded : Num ℚ → Num ℚ
  | .val q => .val (hundredths q / 100)
  | .nan => .nan

/-- The statement as it is read back from its printed form. -/
def printed (st : Statement) : Statement :=
  st.withTruth ⟨rounded st.truth.freq, rounded st.truth.conf⟩

/-- The printed form of the statement is read again. -/
structure Readable (st : Statement) : Prop where
  subj : st.subj.Printable
  pred : st.pred.Printable
  truth : ∃ f c : ℚ, st.truth = ⟨.val f, .val c⟩ ∧ 0 ≤ f ∧ 0 ≤ c

theorem Readable.parse_eq {st : Statement} (h : Readable st) :
    StatementParser.parse st.id = some (printed st) := by
  obtain ⟨f, c, htruth, hf, hc⟩ := h.truth
  have hprint : st.truth.toString =
      "(" ++ decimal (hundredths f) ++ "," ++ decimal (hundredths c) ++ ")" := by
    rw [htruth, Truth.toString, fixed2_val hf, fixed2_val hc]
  have hprinted : printed st = ⟨st.subj, st.copula, st.pred,
      ⟨.val (hundredths f / 100), .val (hundredths c / 100)⟩⟩ := by
    rw [printed, htruth]
    rfl
  rw [hprinted]
  apply Peg.parseAll_of_parses
  rw [toList_id st _ _ hprint]
  exact (StatementParser.parses_judgement st.copula h.subj h.pred _ _).orElse_left

/-- The event for a statement. -/
def eventOf (r : EventType × Statement) : EventPayload := ⟨r.1, r.2.id⟩

/-- An addition that succeeds gives the event of its type. -/
theorem add_event {g g' : DNarsGraph} (hg : g.Closed) {st : Statement} {event : Option EventPayload}
    (hvalid : validStatement st = true) (h : (add st).run g = .ok event g') :
    event = some (eventOf (eventType g st, st)) := by
  have hadd := add_cases hg st
  rw [h] at hadd
  cases hadd with
  | invalid hinvalid =>
      rw [hvalid] at hinvalid
      cases hinvalid
  | inserted _ hnew => rw [eventType, if_pos hnew, eventOf]
  | revised u _ hu _ =>
      have hknown : truthsAt g st.triple ≠ [] := by
        rw [hu]
        exact List.cons_ne_nil u []
      rw [eventType, if_neg hknown, eventOf]

/-- No addition fails, so every statement has its event. -/
theorem eventsOf_eq (sts : List Statement) : ∀ g : DNarsGraph, Reachable NoSelf g →
    (∀ st ∈ sts, NoSelf st ∧ validStatement st = true) →
    eventsOf g sts = (reports g sts).map eventOf := by
  induction sts with
  | nil => exact fun _ _ _ => rfl
  | cons st sts ih =>
      intro g hg hsts
      obtain ⟨hst, hvalid⟩ := hsts st List.mem_cons_self
      obtain ⟨event, g', hrun, hg', -⟩ := add_known hg hst hvalid
      have hafter : addStep g st = g' := by rw [addStep, stateAfter, hrun]
      have hevent := add_event (oneEdgeEach_of_reachable hg).forms.closed hvalid hrun
      rw [eventsOf, hrun, reports, hafter, hevent]
      exact congrArg (eventOf (eventType g st, st) :: ·)
        (ih g' hg' fun x hx => hsts x (List.mem_cons_of_mem st hx))

theorem readable_of_mem_reports {sts : List Statement} (h : ∀ st ∈ sts, Readable st) :
    ∀ (g : DNarsGraph), ∀ r ∈ reports g sts, Readable r.2 := by
  induction sts with
  | nil => exact fun _ r hr => absurd hr List.not_mem_nil
  | cons st sts ih =>
      intro g r hr
      rcases List.mem_cons.1 hr with rfl | hr
      · exact h st List.mem_cons_self
      · exact ih (fun x hx => h x (List.mem_cons_of_mem st hx)) _ r hr

/-! ## One batch -/

section Batch

/-- The statements of one type in a list of reports, as they are read. -/
def ofType (type : EventType) (rs : List (EventType × Statement)) : List Statement :=
  rs.filterMap fun r => if r.1 = type then some (printed r.2) else none

theorem foldlM_splitEvent (rs : List (EventType × Statement)) (h : ∀ r ∈ rs, Readable r.2)
    (added updated : List Statement) :
    (rs.map eventOf).foldlM splitEvent (added, updated) =
      some (added ++ ofType .added rs, updated ++ ofType .updated rs) := by
  induction rs generalizing added updated with
  | nil => simp [ofType]
  | cons r rs ih =>
      obtain ⟨type, st⟩ := r
      have hparse : StatementParser.parse st.id = some (printed st) :=
        (h (type, st) List.mem_cons_self).parse_eq
      have hrest : ∀ r ∈ rs, Readable r.2 := fun x hx => h x (List.mem_cons_of_mem _ hx)
      cases type with
      | added => simp [eventOf, splitEvent, hparse, ih hrest, ofType]
      | updated => simp [eventOf, splitEvent, hparse, ih hrest, ofType]

theorem split_eventOf (rs : List (EventType × Statement)) (h : ∀ r ∈ rs, Readable r.2) :
    split (rs.map eventOf) = some (ofType .added rs, ofType .updated rs) :=
  foldlM_splitEvent rs h [] []

variable {java : Reflection}

/-- The patterns are regular expressions. -/
def Patterns.Legal (java : Reflection) (patterns : Patterns) : Prop :=
  ∀ regex ∈ [patterns.subj, patterns.copula, patterns.pred, patterns.truth],
    ∀ text, (java.matchesRegex text regex).isSome

/-- The statement matches all the patterns. -/
def ParsedMethod.Accepts (java : Reflection) (m : ParsedMethod) (st : Statement) : Prop :=
  m.accepts java st = some true

instance (m : ParsedMethod) (st : Statement) : Decidable (m.Accepts java st) :=
  inferInstanceAs (Decidable (m.accepts java st = some true))

theorem Patterns.Legal.isSome_accepts {m : ParsedMethod} (h : m.toPatterns.Legal java)
    (st : Statement) : (m.accepts java st).isSome := by
  simp only [Patterns.Legal, List.mem_cons, List.not_mem_nil, or_false, forall_eq_or_imp,
    forall_eq] at h
  obtain ⟨hsubj, hcopula, hpred, htruth⟩ := h
  obtain ⟨bsubj, hbsubj⟩ := Option.isSome_iff_exists.1 (hsubj st.subj.id)
  obtain ⟨bcopula, hbcopula⟩ := Option.isSome_iff_exists.1 (hcopula st.copula.text)
  obtain ⟨bpred, hbpred⟩ := Option.isSome_iff_exists.1 (hpred st.pred.id)
  rw [ParsedMethod.accepts, hbsubj, hbcopula, hbpred]
  cases bsubj <;> cases bcopula <;> cases bpred
  · rfl
  · rfl
  · rfl
  · rfl
  · rfl
  · rfl
  · rfl
  · exact htruth _

theorem getMatches_eq {m : ParsedMethod} (h : m.toPatterns.Legal java) (sts : List Statement) :
    getMatches java m sts = some (sts.filter fun st => m.Accepts java st) := by
  induction sts with
  | nil => rfl
  | cons st sts ih =>
      obtain ⟨b, hb⟩ := Option.isSome_iff_exists.1 (h.isSome_accepts st)
      rw [getMatches, hb, ih, List.filter_cons]
      have hiff : m.Accepts java st ↔ b = true := by
        rw [ParsedMethod.Accepts, hb, Option.some.injEq]
      simp only [hiff, Bool.decide_eq_true]
      rfl

/-- The calls for a list of statements when nothing is thrown. -/
def callsFor (java : Reflection) (sts : List Statement) (methods : List ParsedMethod) : Calls :=
  methods.filterMap fun m =>
    if (sts.filter fun st => m.Accepts java st).isEmpty then none
    else some (m, sts.filter fun st => m.Accepts java st)

theorem notify_eq (hthrows : ∀ m st, java.throws m st = false) (sts : List Statement)
    {methods : List ParsedMethod} (h : ∀ m ∈ methods, m.toPatterns.Legal java) :
    notify java sts methods = (callsFor java sts methods, true) := by
  induction methods with
  | nil => rfl
  | cons m methods ih =>
      have hrest := ih fun m' hm' => h m' (List.mem_cons_of_mem m hm')
      rw [notify, getMatches_eq (h m List.mem_cons_self), callsFor, List.filterMap_cons, ← callsFor]
      simp only [hthrows, hrest]
      by_cases hempty : (sts.filter fun st => m.Accepts java st).isEmpty = true
      · rw [if_pos hempty, if_pos hempty]
      · rw [if_neg hempty, if_neg hempty]
        rfl

/-- What a method has got from the calls. -/
def received (m : Method) (calls : Calls) : List Statement :=
  calls.flatMap fun call => if call.1.ref = m then call.2 else []

theorem received_append (m : Method) (calls calls' : Calls) :
    received m (calls ++ calls') = received m calls ++ received m calls' :=
  List.flatMap_append

/-- A method that is not called gets nothing. -/
theorem received_callsFor_of_notMem (sts : List Statement) {m : Method}
    {methods : List ParsedMethod} (h : ∀ pm ∈ methods, pm.ref ≠ m) :
    received m (callsFor java sts methods) = [] := by
  refine List.flatMap_eq_nil_iff.2 fun call hcall => if_neg ?_
  obtain ⟨pm, hpm, hsome⟩ := List.mem_filterMap.1 hcall
  split_ifs at hsome
  cases hsome
  exact h pm hpm

/-- A method gets the matching statements of a batch. -/
theorem received_callsFor (sts : List Statement) {pm : ParsedMethod} {methods : List ParsedMethod}
    (hnodup : (methods.map ParsedMethod.ref).Nodup) (hpm : pm ∈ methods) :
    received pm.ref (callsFor java sts methods) = sts.filter fun st => pm.Accepts java st := by
  obtain ⟨before, after, rfl⟩ := List.append_of_mem hpm
  rw [List.map_append, List.map_cons, List.nodup_middle, List.nodup_cons, List.mem_append] at hnodup
  obtain ⟨hnot, -⟩ := hnodup
  have hbefore : ∀ pm' ∈ before, pm'.ref ≠ pm.ref := fun pm' hpm' heq =>
    hnot (.inl (heq ▸ List.mem_map_of_mem hpm'))
  have hafter : ∀ pm' ∈ after, pm'.ref ≠ pm.ref := fun pm' hpm' heq =>
    hnot (.inr (heq ▸ List.mem_map_of_mem hpm'))
  have hsplit : callsFor java sts (before ++ pm :: after) =
      callsFor java sts before ++ (callsFor java sts [pm] ++ callsFor java sts after) := by
    rw [callsFor, List.filterMap_append, ← List.singleton_append, List.filterMap_append]
    rfl
  rw [hsplit, received_append, received_append, received_callsFor_of_notMem sts hbefore,
    received_callsFor_of_notMem sts hafter, List.nil_append, List.append_nil]
  by_cases hempty : (sts.filter fun st => pm.Accepts java st).isEmpty = true
  · have hcalls : callsFor java sts [pm] = [] := List.filterMap_cons_none (if_pos hempty)
    rw [hcalls, List.isEmpty_iff.1 hempty]
    rfl
  · have hcalls : callsFor java sts [pm] = [(pm, sts.filter fun st => pm.Accepts java st)] :=
      List.filterMap_cons_some (if_neg hempty)
    rw [hcalls]
    simp [received]

end Batch

/-! ## The methods of a class -/

section Subscriptions

/-- The type of the events that a method is for, and what the parser makes of the method. -/
def Method.subscription (m : Method) : Option (EventType × ParsedMethod) :=
  match m.beliefAdded, m.beliefUpdated with
  | some ann, _ => some (.added, ⟨ann, m⟩)
  | none, some ann => some (.updated, ⟨ann, m⟩)
  | none, none => none

/-- The method with the patterns that it subscribes to this type of event with. -/
def Method.parsedFor (type : EventType) (m : Method) : Option ParsedMethod :=
  m.subscription.bind fun s => if s.1 = type then some s.2 else none

/-- The methods for events of a type. -/
def subscribed (type : EventType) (methods : List Method) : List ParsedMethod :=
  methods.filterMap (Method.parsedFor type)

variable {methods : List Method} {m : Method} {pm : ParsedMethod} {type : EventType}

theorem Method.parsedFor_eq_some_iff :
    m.parsedFor type = some pm ↔ m.subscription = some (type, pm) := by
  rw [Method.parsedFor, Option.bind_eq_some_iff]
  constructor
  · rintro ⟨⟨type', pm'⟩, hsub, hif⟩
    split_ifs at hif with htype
    cases hif
    cases htype
    exact hsub
  · intro hsub
    exact ⟨_, hsub, if_pos rfl⟩

theorem ref_of_subscription (h : m.subscription = some (type, pm)) : pm.ref = m := by
  rw [Method.subscription] at h
  split at h
  · cases h
    rfl
  · cases h
    rfl
  · cases h

theorem mem_subscribed : pm ∈ subscribed type methods ↔
    ∃ m ∈ methods, m.subscription = some (type, pm) := by
  simp only [subscribed, List.mem_filterMap, Method.parsedFor_eq_some_iff]

theorem nodup_subscribed (h : methods.Nodup) (type : EventType) :
    ((subscribed type methods).map ParsedMethod.ref).Nodup := by
  rw [subscribed, List.map_filterMap]
  refine h.filterMap fun m m' n hm hm' => ?_
  obtain ⟨pm, hpm, rfl⟩ := Option.map_eq_some_iff.1 hm
  obtain ⟨pm', hpm', href⟩ := Option.map_eq_some_iff.1 hm'
  rw [← ref_of_subscription (Method.parsedFor_eq_some_iff.1 hpm), ← href]
  exact ref_of_subscription (Method.parsedFor_eq_some_iff.1 hpm')

/-- The parser sorts the annotated methods by the type of their events. -/
theorem parse_eq {parser : EventParser} (h : EventParser.parse methods = .ok parser) :
    parser = ⟨subscribed .added methods, subscribed .updated methods⟩ := by
  -- the induction is on the methods that are left, over any parser so far
  have hfold : ∀ (methods : List Method) (init : EventParser),
      methods.foldlM EventParser.parseMethod init = .ok parser →
      parser = ⟨init.added ++ subscribed .added methods,
        init.updated ++ subscribed .updated methods⟩ := by
    intro methods
    induction methods with
    | nil =>
        rintro init ⟨⟩
        simp [subscribed]
    | cons m methods ih =>
        intro init hparse
        rw [List.foldlM_cons] at hparse
        cases hm : init.parseMethod m with
        | error e =>
            rw [hm] at hparse
            cases hparse
        | ok next =>
            rw [hm] at hparse
            rw [ih next hparse]
            rw [EventParser.parseMethod] at hm
            -- a method with both annotations is subscribed to additions only
            cases hadded : m.beliefAdded with
            | some ann =>
                rw [hadded] at hm
                cases hargs : EventParser.checkArgs m with
                | error e =>
                    rw [hargs] at hm
                    cases hm
                | ok _ =>
                    rw [hargs] at hm
                    cases hm
                    simp [subscribed, Method.parsedFor, Method.subscription, hadded]
            | none =>
                rw [hadded] at hm
                cases hupdated : m.beliefUpdated with
                | some ann =>
                    rw [hupdated] at hm
                    cases hargs : EventParser.checkArgs m with
                    | error e =>
                        rw [hargs] at hm
                        cases hm
                    | ok _ =>
                        rw [hargs] at hm
                        cases hm
                        simp [subscribed, Method.parsedFor, Method.subscription, hadded, hupdated]
                | none =>
                    rw [hupdated] at hm
                    cases hm
                    simp [subscribed, Method.parsedFor, Method.subscription, hadded, hupdated]
  exact hfold methods ⟨[], []⟩ h

end Subscriptions

/-! ## All batches -/

section Batches

variable {java : Reflection} {methods : List Method} {parser : EventParser} {m : Method}
  {type : EventType} {pm : ParsedMethod}

/-- A method gets the matching statements of a batch, those of its type. -/
theorem received_handle (hthrows : ∀ m st, java.throws m st = false) (hmethods : methods.Nodup)
    (hparse : EventParser.parse methods = .ok parser)
    (hlegal : ∀ m ∈ methods, ∀ type pm, m.subscription = some (type, pm) → pm.toPatterns.Legal java)
    (hm : m ∈ methods) (hsub : m.subscription = some (type, pm))
    {rs : List (EventType × Statement)} (hrs : ∀ r ∈ rs, Readable r.2) :
    received m (parser.handle java (rs.map eventOf)).1 =
      (ofType type rs).filter fun st => pm.Accepts java st := by
  have hlegal' : ∀ type, ∀ pm ∈ subscribed type methods, pm.toPatterns.Legal java := by
    intro type pm hpm
    obtain ⟨m', hm', hsub'⟩ := mem_subscribed.1 hpm
    exact hlegal m' hm' type pm hsub'
  have hpm : pm ∈ subscribed type methods := mem_subscribed.2 ⟨m, hm, hsub⟩
  -- a method is subscribed to one type of events at most
  have hother : ∀ type', type' ≠ type → ∀ pm' ∈ subscribed type' methods, pm'.ref ≠ m := by
    intro type' hne pm' hpm' href
    obtain ⟨m', -, hsub'⟩ := mem_subscribed.1 hpm'
    rw [← ref_of_subscription hsub', href, hsub] at hsub'
    cases hsub'
    exact hne rfl
  rw [parse_eq hparse, EventParser.handle, split_eventOf rs hrs]
  simp only [notify_eq hthrows _ (hlegal' .added), notify_eq hthrows _ (hlegal' .updated), if_true,
    received_append]
  obtain rfl := ref_of_subscription hsub
  cases type with
  | added =>
      rw [received_callsFor _ (nodup_subscribed hmethods .added) hpm,
        received_callsFor_of_notMem _ (hother .updated fun h => by cases h), List.append_nil]
  | updated =>
      rw [received_callsFor _ (nodup_subscribed hmethods .updated) hpm,
        received_callsFor_of_notMem _ (hother .added fun h => by cases h), List.nil_append]

/-- Batches of events are batches of reports. -/
theorem exists_batches (batches : List (List EventPayload)) :
    ∀ rs : List (EventType × Statement), batches.flatten = rs.map eventOf →
      ∃ rss : List (List (EventType × Statement)), rss.flatten = rs ∧
        batches = rss.map (List.map eventOf) := by
  induction batches with
  | nil =>
      intro rs h
      obtain rfl := List.map_eq_nil_iff.1 h.symm
      exact ⟨[], rfl, rfl⟩
  | cons batch batches ih =>
      intro rs h
      obtain ⟨first, rest, rfl, hfirst, hrest⟩ := List.map_eq_append_iff.1 h.symm
      obtain ⟨rss, hflatten, hmap⟩ := ih rest hrest.symm
      refine ⟨first :: rss, ?_, ?_⟩
      · rw [List.flatten_cons, hflatten]
      · rw [List.map_cons, hfirst, hmap]

theorem ofType_reports (type : EventType) (g : DNarsGraph) (sts : List Statement) :
    ofType type (reports g sts) = (reported type g sts).map printed := by
  rw [reported, ofType, List.map_filterMap]
  refine List.filterMap_congr fun r _ => ?_
  split <;> rfl

/-- Whatever batches the events of a sequence of additions come in, a method gets the matching
statements of its type as they were added, their truth values rounded, in their order when the
batches come in theirs. -/
theorem beliefs_delivered (hthrows : ∀ m st, java.throws m st = false) (hmethods : methods.Nodup)
    (hparse : EventParser.parse methods = .ok parser)
    (hlegal : ∀ m ∈ methods, ∀ type pm, m.subscription = some (type, pm) → pm.toPatterns.Legal java)
    {g : DNarsGraph} (hg : CallReachable g) {sts : List Statement}
    (hsts : ∀ st ∈ sts, Regular st ∧ Readable st)
    {batches batches' : List (List EventPayload)} (hbatches : batches.flatten = eventsOf g sts)
    (hperm : batches'.Perm batches) (hm : m ∈ methods) (hsub : m.subscription = some (type, pm)) :
    received m (parser.handleAll java batches) =
        ((reported type g sts).map printed).filter (fun st => pm.Accepts java st) ∧
      (received m (parser.handleAll java batches')).Perm
        (received m (parser.handleAll java batches)) := by
  constructor
  · rw [eventsOf_eq sts g (reachable_of_callReachable hg) fun st hst =>
      ⟨(hsts st hst).1.noSelf, (hsts st hst).1.valid⟩] at hbatches
    have hreadable := readable_of_mem_reports (fun st hst => (hsts st hst).2) g
    rw [← ofType_reports]
    obtain ⟨rss, hflatten, rfl⟩ := exists_batches batches _ hbatches
    rw [← hflatten] at hreadable ⊢
    clear hbatches hperm hflatten
    induction rss with
    | nil => rfl
    | cons rs rss ih =>
        have hrs : ∀ r ∈ rs, Readable r.2 := fun r hr =>
          hreadable r (List.mem_append_left _ hr)
        have hrest := ih fun r hr => hreadable r (List.mem_append_right _ hr)
        rw [EventParser.handleAll, List.map_cons, List.flatMap_cons, received_append,
          received_handle hthrows hmethods hparse hlegal hm hsub hrs, ← EventParser.handleAll, hrest,
          List.flatten_cons, ofType, ofType, ofType, List.filterMap_append, List.filter_append]
  · exact (hperm.flatMap_right _).flatMap_right _

end Batches

/-! ## The agent `HelloDNars` -/

/-- What the annotation takes for a pattern that is left out. -/
def Patterns.default : Patterns := ⟨".*", ".*", ".*", ".*"⟩

/-- The methods of the example agent. -/
def HelloDNars : List Method :=
  [⟨"anyBeliefAdded", ["java.util.List"], some .default, none⟩,
    ⟨"tigerIsTypeOfAnimal", ["java.util.List"], some ⟨"tiger", "->", "animal", ".*"⟩, none⟩,
    ⟨"anyBeliefUpdated", ["java.util.List"], none, some .default⟩]

/-- The patterns of `HelloDNars` are `.*` or match only themselves. -/
def plainPatterns : Reflection where
  matchesRegex text regex := some (regex = ".*" ∨ regex = text)
  throws _ _ := false

/-- `tiger -> animal (1.00,0.90)` -/
def tigerIsAnimal : Statement :=
  ⟨.atomic (atom "tiger"), .inherit, .atomic (atom "animal"), ⟨.val 1, .val (9 / 10)⟩⟩

/-- The statement is added twice, each time in a batch of its own. -/
theorem beliefs_delivered_tiger : ∃ parser, EventParser.parse HelloDNars = .ok parser ∧
    received ⟨"anyBeliefUpdated", ["java.util.List"], none, some .default⟩
        (parser.handleAll plainPatterns
          ((eventsOf Multigraph.empty [tigerIsAnimal, tigerIsAnimal]).map fun ev => [ev])) =
      ((reported .updated Multigraph.empty [tigerIsAnimal, tigerIsAnimal]).map printed).filter
        (fun st => (⟨.default, ⟨"anyBeliefUpdated", ["java.util.List"], none, some .default⟩⟩ :
          ParsedMethod).Accepts plainPatterns st) := by
  have hstatement : Regular tigerIsAnimal ∧ Readable tigerIsAnimal :=
    ⟨⟨rfl, by decide, fun hc => by cases hc⟩,
      ⟨trivial, trivial, 1, 9 / 10, rfl, by norm_num, by norm_num⟩⟩
  have hsts : ∀ st ∈ [tigerIsAnimal, tigerIsAnimal], Regular st ∧ Readable st := by
    intro st hst
    rcases List.mem_pair.1 hst with rfl | rfl
    · exact hstatement
    · exact hstatement
  have hflatten : ∀ evs : List EventPayload, (evs.map fun ev => [ev]).flatten = evs := fun evs => by
    rw [← List.flatMap_def, List.flatMap_singleton']
  have hmethods : HelloDNars.Nodup := by decide
  refine ⟨_, rfl, (beliefs_delivered (fun _ _ => rfl) hmethods rfl ?_ .init hsts (hflatten _)
    (List.Perm.refl _) ?_ rfl).1⟩
  · exact fun _ _ _ _ _ _ _ _ => rfl
  · decide

end Siebog.DNarsWeb
