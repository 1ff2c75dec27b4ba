import Siebog.Interaction.Blackboard
import Siebog.Lib.Decimal
import Siebog.Lib.Least
import Siebog.Lib.Separator
import Mathlib.Algebra.Order.Ring.Int
import Mathlib.Data.Set.Insert

/-!
# The example blackboard

A control component and three kinds of knowledge sources: the first generates numbers, the second
squares them and the third prints the squares. The control component gives the result of each to
the next, and each award to the source that needs the least time.

The stages are kept apart by the names of the events only: a source takes every event it is awarded
for one of its own, and parses the text that it finds there. In a run that is started with the event
`START` this is right. The squares that are printed are those of numbers that a source has generated
and a source has squared, which never fails on them (`awards_sound`), and every award goes to an
estimate that needs the least time (`awards_fastest`).
-/

set_option autoImplicit false

namespace Siebog.Interaction.Blackboard.Example

open Siebog.Lib Siebog.Lib.Utf16

variable {ι : Type}

/-! ## The agents -/

/-- A `new Random()`. Its call number `k` of `nextInt` returns a number below the argument. -/
structure Random where
  nextInt : ℕ → ℕ → ℕ
  lt : ∀ k bound, 0 < bound → nextInt k bound < bound

/-- `Integer.parseInt`; `none` is its exception. -/
def parseInt (s : Text) : Option ℤ :=
  (Decimal.toInt? s).filter fun n => decide (-2 ^ 31 ≤ n ∧ n < 2 ^ 31)

/-- The product of two values of type `int`. -/
def mul (m n : ℤ) : ℤ := (m * n).bmod (2 ^ 32)

/-- `giveEstimate` of a knowledge source that takes a time from 1 to `bound`. -/
def giveEstimate (bound : ℕ) (rnd : Random) (myAid : ι) (e : Event ι) : Estimate ι :=
  ⟨toString (rnd.nextInt 0 (bound - 1 + 1) + 1), myAid, e⟩

namespace GenerateKS

def defineTriggers : List String := ["GENERATE"]

def giveEstimate (rnd : Random) (myAid : ι) (e : Event ι) : Estimate ι :=
  Example.giveEstimate 10 rnd myAid e

/-- The text of ten random numbers; the first may be twice as large. -/
def numbers (rnd : Random) : String :=
  (List.range 9).foldl
    (fun numbers i => numbers ++ (";" ++ toString (rnd.nextInt (i + 1) (10 - 1 + 1) + 1)))
    (toString (rnd.nextInt 0 (20 - 1 + 1) + 1))

def handleEvent (rnd : Random) (e : Event ι) : Event ι := ⟨e.name, numbers rnd, [], 0⟩

end GenerateKS

namespace SquareKS

def defineTriggers : List String := ["SQUARE"]

def giveEstimate (rnd : Random) (myAid : ι) (e : Event ι) : Estimate ι :=
  Example.giveEstimate 20 rnd myAid e

/-- One round of the loop, for the number at index `i`. -/
def appendSquare (length : ℕ) (squares : String) (number : Text × ℕ) : Option String := do
  let num ← parseInt number.1
  let squares := squares ++ toString (mul num num)
  some (if number.2 ≠ length then squares ++ ";" else squares)

def squares (numbers : List Text) : Option String :=
  numbers.zipIdx.foldlM (appendSquare numbers.length) ""

/-- `none` is the exception for a piece of the content that is not a number. -/
def handleEvent (e : Event ι) : Option (Event ι) := do
  let squares ← squares (Separator.split (unit ';') (text e.content))
  some ⟨e.name, squares, [], 0⟩

end SquareKS

namespace PrintKS

def defineTriggers : List String := ["PRINT"]

def giveEstimate (rnd : Random) (myAid : ι) (e : Event ι) : Estimate ι :=
  Example.giveEstimate 20 rnd myAid e

/-- The content is printed, and the new event has none. -/
def handleEvent (e : Event ι) : Event ι := ⟨e.name, "", [], 0⟩

end PrintKS

namespace ControlComponentExample

/-- The time that an estimate expresses. -/
def time (e : Estimate ι) : Option ℤ := parseInt (text e.content)

/-- No estimate is chosen when all of them are too large, or when one is not a number: the exception
leaves the award without effect, as `null` does. -/
def chooseBestProposal (proposals : List (Estimate ι)) : Option (Estimate ι) :=
  (proposals.foldlM (keepLeast time) (1000, none)).bind Prod.snd

/-- The name of the event that follows. The default branch sets none. -/
def nextName (name : String) : String :=
  if name = "START" then "GENERATE"
  else if name = "GENERATE" then "SQUARE"
  else if name = "SQUARE" then "PRINT"
  else if name = "PRINT" then "DONE"
  else ""

def handleEvent (e : Event ι) : Event ι := ⟨nextName e.name, e.content, [], 0⟩

def controlComponent (ι : Type) : ControlComponent ι where
  chooseBestProposal := chooseBestProposal
  mem _ _ h := mem_of_foldlM h
  handleEvent := handleEvent

end ControlComponentExample

inductive Kind where
  | generate
  | square
  | print
  deriving DecidableEq

/-- The knowledge sources. What a source does when `handleEvent` throws does not matter: this never
happens (`awards_sound`). -/
def knowledgeSource (rnd : Random) (myAid : ι) : Kind → KnowledgeSource ι
  | .generate => ⟨GenerateKS.defineTriggers, GenerateKS.giveEstimate rnd myAid,
      GenerateKS.handleEvent rnd⟩
  | .square => ⟨SquareKS.defineTriggers, SquareKS.giveEstimate rnd myAid,
      fun e => (SquareKS.handleEvent e).getD e⟩
  | .print => ⟨PrintKS.defineTriggers, PrintKS.giveEstimate rnd myAid, PrintKS.handleEvent⟩

/-- The agents of the example, for the delivery of one message. -/
def agents (kind : ι → Kind) (rnd : Random) : Agents ι where
  control := ControlComponentExample.controlComponent ι
  source aid := knowledgeSource rnd aid (kind aid)

/-- The event that starts the example. -/
def start (kss : List ι) : Event ι := ⟨"START", "", kss, 0⟩

/-- What happens in the example: it is started, once or more, and messages are delivered. The random
numbers are drawn from `draws`. -/
inductive Allowed (kind : ι → Kind) (draws : Set Random) : Action ι → Prop
  | start (kss : List ι) : Allowed kind draws (.inform "Test" (start kss))
  | deliver {rnd : Random} (hrnd : rnd ∈ draws) (i : ℕ) :
      Allowed kind draws (.deliver (agents kind rnd) i)

/-! ## The texts of the stages -/

/-- The numbers that `GenerateKS` draws. -/
def drawn (rnd : Random) : List ℕ :=
  (rnd.nextInt 0 20 + 1) :: (List.range 9).map fun i => rnd.nextInt (i + 1) 10 + 1

/-- The squares as they are printed. -/
def squaresText (numbers : List ℕ) : String :=
  numbers.foldl (fun squares n => squares ++ toString (n * n) ++ ";") ""

/-- No number above 20 is drawn. -/
theorem le_of_mem_drawn {rnd : Random} {n : ℕ} (h : n ∈ drawn rnd) : n ≤ 20 := by
  rcases List.mem_cons.1 h with rfl | h
  · exact rnd.lt 0 20 (by decide)
  · obtain ⟨i, -, rfl⟩ := List.mem_map.1 h
    have hlt := rnd.lt (i + 1) 10 (by decide)
    omega

theorem text_append (s t : String) : text (s ++ t) = text s ++ text t := by
  rw [text, String.toList_append, List.map_append]
  rfl

/-- A number is written in decimal. -/
theorem text_toString (n : ℕ) : text (toString n) = Decimal.ofNat n := by
  show (Nat.repr n).toList.map unit = (Nat.toDigits 10 n).map unit
  rw [Nat.toList_repr]

/-- A number of an `int` is read back. -/
theorem parseInt_ofNat {n : ℕ} (h : n < 2 ^ 31) : parseInt (Decimal.ofNat n) = some (n : ℤ) := by
  have hread : Decimal.toInt? (Decimal.ofNat n) = some (n : ℤ) := Decimal.toInt?_ofInt (.ofNat n)
  have hrange : decide (-2 ^ 31 ≤ (n : ℤ) ∧ (n : ℤ) < 2 ^ 31) = true := by
    rw [decide_eq_true_eq]
    omega
  rw [parseInt, hread, Option.filter_some, if_pos hrange]

theorem isDigit_separator : Json.isDigit (unit ';') = false := by decide

/-- A number is written without a semicolon. -/
theorem separator_notMem_ofNat (n : ℕ) : unit ';' ∉ Decimal.ofNat n := by
  intro hmem
  have hdigit := List.all_eq_true.1 (Decimal.all_isDigit_ofNat n) _ hmem
  rw [isDigit_separator] at hdigit
  cases hdigit

/-- The loop that puts the numbers together writes a semicolon before each. -/
theorem text_foldl (s : String) (ns : List ℕ) :
    text (ns.foldl (fun numbers m => numbers ++ (";" ++ toString m)) s) =
      text s ++ (ns.map Decimal.ofNat).flatMap (unit ';' :: ·) := by
  induction ns generalizing s with
  | nil => simp
  | cons m ns ih =>
      have hpiece : text (";" ++ toString m) = unit ';' :: Decimal.ofNat m := by
        rw [text_append, text_toString]
        rfl
      rw [List.foldl_cons, ih, text_append, hpiece, List.map_cons, List.flatMap_cons,
        List.append_assoc]

/-- The text of the numbers is split into the numbers. -/
theorem split_text_numbers (rnd : Random) :
    Separator.split (unit ';') (text (GenerateKS.numbers rnd)) =
      (drawn rnd).map Decimal.ofNat := by
  have hnumbers : GenerateKS.numbers rnd =
      ((List.range 9).map fun i => rnd.nextInt (i + 1) 10 + 1).foldl
        (fun numbers m => numbers ++ (";" ++ toString m)) (toString (rnd.nextInt 0 20 + 1)) := by
    rw [List.foldl_map]
    rfl
  have hjoin : text (GenerateKS.numbers rnd) =
      [unit ';'].intercalate ((drawn rnd).map Decimal.ofNat) := by
    rw [hnumbers, text_foldl, text_toString, drawn, List.map_cons, Separator.intercalate_cons]
  rw [hjoin]
  apply Separator.split_intercalate
  · exact List.cons_ne_nil _ _
  · intro w hw
    obtain ⟨n, -, rfl⟩ := List.mem_map.1 hw
    exact ⟨Decimal.ofNat_ne_nil n, separator_notMem_ofNat n⟩

/-- No product of drawn numbers overflows. -/
theorem mul_self {n : ℕ} (h : n ≤ 20) : mul n n = ((n * n : ℕ) : ℤ) := by
  have hle : n * n ≤ 20 * 20 := Nat.mul_le_mul h h
  rw [mul, ← Int.natCast_mul]
  apply Int.bmod_eq_of_le <;> omega

/-- The loop squares the numbers one after the other. Each square is followed by a semicolon: the
index is never the length. -/
theorem foldlM_appendSquare {length k : ℕ} {ns : List ℕ} (hns : ∀ n ∈ ns, n ≤ 20)
    (hk : k + ns.length ≤ length) (s : String) :
    ((ns.map Decimal.ofNat).zipIdx k).foldlM (SquareKS.appendSquare length) s =
      some (ns.foldl (fun squares n => squares ++ toString (n * n) ++ ";") s) := by
  induction ns generalizing k s with
  | nil => rfl
  | cons n ns ih =>
      have hn : n ≤ 20 := hns n List.mem_cons_self
      rw [List.length_cons] at hk
      have hround : SquareKS.appendSquare length s (Decimal.ofNat n, k) =
          some (s ++ toString (n * n) ++ ";") := by
        have hne : k ≠ length := by omega
        simp only [SquareKS.appendSquare, parseInt_ofNat (show n < 2 ^ 31 by omega), mul_self hn,
          Option.bind_eq_bind, Option.bind_some, if_pos hne]
        rfl
      rw [List.map_cons, List.zipIdx_cons, List.foldlM_cons, hround]
      exact ih (fun m hm => hns m (List.mem_cons_of_mem n hm)) (by omega) _

/-- The numbers that are drawn are parsed, and squared. -/
theorem squares_numbers (rnd : Random) :
    SquareKS.squares (Separator.split (unit ';') (text (GenerateKS.numbers rnd))) =
      some (squaresText (drawn rnd)) := by
  rw [split_text_numbers, SquareKS.squares]
  apply foldlM_appendSquare
  · exact fun n hn => le_of_mem_drawn hn
  · rw [List.length_map, Nat.zero_add]

/-! ## The stages -/

/-- The one event that a source subscribes to. -/
def trigger : Kind → String
  | .generate => "GENERATE"
  | .square => "SQUARE"
  | .print => "PRINT"

/-- The kinds are told apart by their triggers. -/
theorem trigger_injective {j k : Kind} (h : trigger j = trigger k) : j = k := by
  revert h
  cases j <;> cases k <;> decide

/-- A knowledge source subscribes with the trigger of its kind. -/
theorem defineTriggers_eq (rnd : Random) (aid : ι) (k : Kind) :
    (knowledgeSource rnd aid k).defineTriggers = [trigger k] := by
  cases k <;> rfl

section Sound

variable (kind : ι → Kind) (draws : Set Random)

/-- What a source finds in the events that it is told of. -/
def Input : Kind → String → Prop
  | .generate, _ => True
  | .square, content => ∃ rnd ∈ draws, content = GenerateKS.numbers rnd
  | .print, content => ∃ rnd ∈ draws, content = squaresText (drawn rnd)

/-- What a source puts into the event that it returns. -/
def Output : Kind → String → Prop
  | .generate => Input draws .square
  | .square => Input draws .print
  | .print => fun _ => True

/-- An event that a source is told of. -/
structure Assigned (aid : ι) (e : Event ι) : Prop where
  name : e.name = trigger (kind aid)
  content : Input draws (kind aid) e.content

/-- An estimate that is made for such an event, by the source and with a time below the bound of the
control component. -/
structure Proposed (e : Estimate ι) : Prop where
  assigned : Assigned kind draws e.aid e.event
  time : ∃ v, ControlComponentExample.time e = some v ∧ v < 1000

/-- An event that the control component makes: the next stage is due, or there is none. -/
inductive Due (e : Event ι) : Prop
  | stage (k : Kind) (name : e.name = trigger k) (content : Input draws k e.content)
  | done (name : e.name = "DONE")

/-- An event that the control component gets: the start, or the result of a stage. -/
inductive Result (e : Event ι) : Prop
  | start (name : e.name = "START")
  | stage (k : Kind) (name : e.name = trigger k) (content : Output draws k e.content)

/-- The messages of the example. -/
def Sound : Message ι → Prop
  | .request _ => True
  | .subscribe sender content => content = trigger (kind sender)
  | .inform receiver contentObj => Assigned kind draws receiver contentObj
  | .informBlackboard content contentObj =>
      (content = "CC" → Due draws contentObj) ∧ (content ≠ "CC" → Result draws contentObj)
  | .propose contentObj => Proposed kind draws contentObj
  | .acceptProposal receiver contentObj =>
      receiver = contentObj.aid ∧ Proposed kind draws contentObj
  | .delayed _ _ => True

end Sound

/-! ## One event -/

section Events

variable {kind : ι → Kind} {draws : Set Random}

/-- An estimate is made by the source itself, and its time is from 1 to 20. -/
theorem giveEstimate_spec (rnd : Random) (aid : ι) (k : Kind) (e : Event ι) :
    ((knowledgeSource rnd aid k).giveEstimate e).aid = aid ∧
      ∃ n < 20, ((knowledgeSource rnd aid k).giveEstimate e).content = toString (n + 1) := by
  have h10 := rnd.lt 0 10 (by decide)
  have h20 := rnd.lt 0 20 (by decide)
  cases k with
  | generate => exact ⟨rfl, rnd.nextInt 0 10, by omega, rfl⟩
  | square => exact ⟨rfl, rnd.nextInt 0 20, h20, rfl⟩
  | print => exact ⟨rfl, rnd.nextInt 0 20, h20, rfl⟩

/-- The estimate for an event that is assigned to a source is one it may propose. -/
theorem proposed_of_assigned (rnd : Random) {aid : ι} {e : Event ι}
    (h : Assigned kind draws aid e) :
    Proposed kind draws
      { (knowledgeSource rnd aid (kind aid)).giveEstimate e with event := e } := by
  obtain ⟨haid, n, hn, hcontent⟩ := giveEstimate_spec rnd aid (kind aid) e
  constructor
  · rw [← haid] at h
    exact h
  · refine ⟨((n + 1 : ℕ) : ℤ), ?_, by omega⟩
    show parseInt (text ((knowledgeSource rnd aid (kind aid)).giveEstimate e).content) = _
    rw [hcontent, text_toString]
    exact parseInt_ofNat (by omega)

/-- The numbers are squared without an exception. -/
theorem squareKS_handleEvent {rnd : Random} {e : Event ι}
    (h : e.content = GenerateKS.numbers rnd) :
    SquareKS.handleEvent e = some ⟨e.name, squaresText (drawn rnd), [], 0⟩ := by
  rw [SquareKS.handleEvent, h, squares_numbers]
  rfl

/-- What a source returns is the result of its stage. -/
theorem result_of_assigned {rnd : Random} {aid : ι} (hrnd : kind aid = .generate → rnd ∈ draws)
    {e : Event ι} (h : Assigned kind draws aid e) :
    Result draws ((knowledgeSource rnd aid (kind aid)).handleEvent e) := by
  obtain ⟨hname, hcontent⟩ := h
  cases hk : kind aid with
  | generate =>
      -- the numbers are drawn now, whatever the event holds
      rw [hk] at hname
      exact .stage .generate hname ⟨rnd, hrnd hk, rfl⟩
  | square =>
      -- the numbers have been drawn at an earlier delivery, from another source
      rw [hk] at hname hcontent
      obtain ⟨rnd', hrnd', hnumbers⟩ := hcontent
      have hresult : (knowledgeSource rnd aid .square).handleEvent e =
          ⟨e.name, squaresText (drawn rnd'), [], 0⟩ := by
        show (SquareKS.handleEvent e).getD e = _
        rw [squareKS_handleEvent hnumbers]
        rfl
      rw [hresult]
      exact .stage .square hname ⟨rnd', hrnd', rfl⟩
  | print =>
      rw [hk] at hname
      exact .stage .print hname trivial

/-- The control component never takes its default branch. -/
theorem due_of_result {e : Event ι} (h : Result draws e) :
    Due draws (ControlComponentExample.handleEvent e) := by
  have hnext : (ControlComponentExample.handleEvent e).name =
      ControlComponentExample.nextName e.name := rfl
  cases h with
  | start hname =>
      rw [hname] at hnext
      exact .stage .generate hnext trivial
  | stage k hname hcontent =>
      rw [hname] at hnext
      cases k with
      | generate => exact .stage .square hnext hcontent
      | square => exact .stage .print hnext hcontent
      | print => exact .done hnext

end Events

/-! ## One step -/

section Lists

variable {α : Type} {P : String → α → Prop}

/-- The lists of a map: none is empty, and all that is filed under a name fits it. -/
def Filed (P : String → α → Prop) (map : String → Option (List α)) : Prop :=
  ∀ name l, map name = some l → l ≠ [] ∧ ∀ x ∈ l, P name x

/-- What is filed under a name stays so when something of its kind is added. -/
theorem Filed.addTo {map : String → Option (List α)} (h : Filed P map) {key : String} {x : α}
    (hx : P key x) : Filed P (addTo map key x) := by
  intro name l hl
  rw [Blackboard.addTo] at hl
  by_cases hname : name = key
  · rw [hname, Function.update_self, Option.some.injEq] at hl
    rw [hname, ← hl]
    refine ⟨List.append_ne_nil_of_right_ne_nil _ (List.cons_ne_nil x []), ?_⟩
    intro y hy
    rcases List.mem_append.1 hy with hy | hy
    · cases hkey : map key with
      | none =>
          rw [hkey] at hy
          cases hy
      | some l' =>
          rw [hkey] at hy
          exact (h key l' hkey).2 y hy
    · rw [List.mem_singleton.1 hy]
      exact hx
  · rw [Function.update_of_ne hname] at hl
    exact h name l hl

end Lists

/-- The sources are filed under their triggers, and the estimates under the names of their
events. -/
structure Inv (kind : ι → Kind) (draws : Set Random) (s : System ι) : Prop where
  posted : ∀ m ∈ s.posted, Sound kind draws m
  notifications : Filed (fun name aid => trigger (kind aid) = name) s.board.notifications
  estimates : Filed (fun _ e => Proposed kind draws e) s.board.estimates

/-- Nothing has been posted at the start. -/
theorem inv_new (kind : ι → Kind) (draws : Set Random) : Inv kind draws (.new ι) where
  posted m hm := by cases hm
  notifications name l hl := by cases hl
  estimates name l hl := by cases hl

section Steps

variable {kind : ι → Kind} {draws : Set Random} {s : System ι}

/-- A handler keeps the invariant and posts messages of the example. -/
structure Kept (kind : ι → Kind) (draws : Set Random) (r : System ι × List (Message ι)) : Prop where
  inv : Inv kind draws r.1
  out : ∀ m ∈ r.2, Sound kind draws m

/-- Posting the messages of a handler keeps the invariant. -/
theorem Kept.post {r : System ι × List (Message ι)} (h : Kept kind draws r) :
    Kept kind draws (System.post r) where
  inv :=
    { h.inv with posted := fun m hm => (List.mem_append.1 hm).elim (h.inv.posted m) (h.out m) }
  out := h.out

/-- The award goes to one of the estimates that need the least time. -/
theorem award_fastest (hs : Inv kind draws s) {content : String} {l : List (Estimate ι)}
    (hl : s.board.estimates content = some l) :
    ∃ e ∈ l, award (ControlComponentExample.controlComponent ι) s.board content =
        [acceptProposal e] ∧
      ∃ v, ControlComponentExample.time e = some v ∧
        ∀ e' ∈ l, ∃ w, ControlComponentExample.time e' = some w ∧ v ≤ w := by
  obtain ⟨hne, hproposed⟩ := hs.estimates content l hl
  obtain ⟨e, he, hchosen, hleast⟩ := exists_least hne fun e he => (hproposed e he).time
  refine ⟨e, he, ?_, hleast⟩
  rw [award, hl]
  show (if 1 < l.length then
    (ControlComponentExample.chooseBestProposal l).toList.map acceptProposal
    else l.head?.toList.map acceptProposal) = [acceptProposal e]
  split_ifs with hlength
  · rw [ControlComponentExample.chooseBestProposal, hchosen]
    rfl
  · -- a single estimate is accepted without a choice
    have hpos := List.length_pos_of_mem he
    obtain ⟨e', rfl⟩ := List.length_eq_one_iff.1 (show l.length = 1 by omega)
    rw [List.mem_singleton.1 he]
    rfl

/-- A new event is announced to those who have subscribed to it. -/
theorem newEventNotification_kept (hs : Inv kind draws s) {event : Event ι}
    (hevent : Due draws event) : Kept kind draws (s.newEventNotification event) where
  inv := ⟨hs.posted, hs.notifications, hs.estimates⟩
  out := by
    intro m hm
    rcases List.mem_append.1 hm with hm | hm
    · obtain ⟨aid, haid, rfl⟩ := List.mem_map.1 hm
      have htrigger : trigger (kind aid) = event.name := by
        cases hl : s.board.notifications event.name with
        | none =>
            rw [hl] at haid
            cases haid
        | some l =>
            rw [hl] at haid
            exact (hs.notifications event.name l hl).2 aid haid
      cases hevent with
      | stage k hname hcontent =>
          -- the subscriber is a source of this stage
          have hk := trigger_injective (htrigger.trans hname)
          refine ⟨htrigger.symm, ?_⟩
          rw [hk]
          exact hcontent
      | done hname =>
          rw [hname] at htrigger
          exact absurd htrigger (by cases kind aid <;> decide)
    · rw [List.mem_singleton.1 hm]
      exact trivial

/-- The message awards an event to a source that generates numbers. -/
def AwardsGenerate (kind : ι → Kind) (m : Message ι) : Prop :=
  ∃ receiver e, m = .acceptProposal receiver e ∧ kind receiver = .generate

/-- Every handler keeps the invariant. -/
theorem handle_kept {rnd : Random} {m : Message ι} (hrnd : AwardsGenerate kind m → rnd ∈ draws)
    (hs : Inv kind draws s) (hm : Sound kind draws m) : Kept kind draws (s.handle (agents kind rnd) m) := by
  cases m with
  | request receiver =>
      refine ⟨hs, ?_⟩
      intro m hm
      obtain ⟨content, hcontent, rfl⟩ := List.mem_map.1 hm
      have htriggers : (knowledgeSource rnd receiver (kind receiver)).defineTriggers = _ :=
        defineTriggers_eq rnd receiver (kind receiver)
      exact List.mem_singleton.1 (htriggers ▸ hcontent)
  | subscribe sender content =>
      refine ⟨⟨hs.posted, hs.notifications.addTo (Eq.symm hm), hs.estimates⟩, ?_⟩
      intro m hm
      cases hm
  | inform receiver contentObj =>
      refine ⟨hs, ?_⟩
      intro m hm'
      rw [List.mem_singleton.1 hm']
      exact proposed_of_assigned rnd hm
  | informBlackboard content contentObj =>
      simp only [System.handle]
      split_ifs with hcontent
      · exact newEventNotification_kept hs (hm.1 hcontent)
      · -- a result, which the control component answers with the event that is due
        refine ⟨hs, ?_⟩
        intro m hm'
        rcases List.mem_append.1 hm' with hm' | hm'
        · split_ifs at hm'
          · obtain ⟨receiver, -, rfl⟩ := List.mem_map.1 hm'
            exact trivial
          · cases hm'
        · rw [List.mem_singleton.1 hm']
          exact ⟨fun _ => due_of_result (hm.2 hcontent), fun hne => absurd rfl hne⟩
  | propose contentObj =>
      refine ⟨⟨hs.posted, hs.notifications, hs.estimates.addTo hm⟩, ?_⟩
      intro m hm
      cases hm
  | acceptProposal receiver contentObj =>
      refine ⟨hs, ?_⟩
      intro m hm'
      obtain ⟨rfl, hproposed⟩ := hm
      rw [List.mem_singleton.1 hm']
      have hresult := result_of_assigned (fun hk => hrnd ⟨_, _, rfl, hk⟩) hproposed.assigned
      exact ⟨fun hcc => absurd hcc (by decide), fun _ => hresult⟩
  | delayed content k =>
      refine ⟨hs, ?_⟩
      intro m hm
      have hm : m ∈ award (ControlComponentExample.controlComponent ι) s.board content := hm
      cases hl : s.board.estimates content with
      | none =>
          -- no estimate has come yet, and the delayed message has no effect
          rw [award, hl] at hm
          cases hm
      | some l =>
          obtain ⟨e, he, haward, -⟩ := award_fastest hs hl
          rw [haward] at hm
          rw [List.mem_singleton.1 hm]
          exact ⟨rfl, (hs.estimates content l hl).2 e he⟩

/-- A delivery of an award to a source that generates, with the random numbers `rnd`. -/
def Drawing (kind : ι → Kind) (rnd : Random) (s : System ι) (a : Action ι) : Prop :=
  ∃ i m, a = .deliver (agents kind rnd) i ∧ s.posted[i]? = some m ∧ AwardsGenerate kind m

/-- A step keeps the invariant, with the draws it may make. -/
theorem step_kept {all : Set Random} {a : Action ι} {s' : System ι} (hs : Inv kind draws s)
    (ha : Allowed kind all a) (hdraws : ∀ rnd ∈ all, Drawing kind rnd s a → rnd ∈ draws)
    (hstep : next System.step s a = some s') : Inv kind draws s' := by
  obtain ⟨⟨t, out⟩, hout, rfl⟩ := Option.map_eq_some_iff.1 hstep
  cases ha with
  | start kss =>
      rw [← Option.some.inj hout]
      apply (Kept.post _).inv
      refine ⟨hs, ?_⟩
      intro m hm
      rw [List.mem_singleton.1 hm]
      exact ⟨fun hcc => absurd hcc (by decide), fun _ => .start rfl⟩
  | @deliver rnd hrnd i =>
      simp only [System.step] at hout
      split at hout
      · cases hout
      · rename_i m hm
        rw [← Option.some.inj hout]
        have hrest : Inv kind draws { s with posted := s.posted.eraseIdx i } :=
          { hs with posted := fun m hm => hs.posted m (List.mem_of_mem_eraseIdx hm) }
        have hdrawn : AwardsGenerate kind m → rnd ∈ draws := fun haward =>
          hdraws rnd hrnd ⟨i, m, rfl, hm, haward⟩
        exact (handle_kept hdrawn hrest (hs.posted m (List.mem_of_getElem? hm))).post.inv

end Steps

/-! ## Runs -/

section Runs

variable {kind : ι → Kind} {draws : Set Random} {as : List (Action ι)} {t : System ι}

/-- In the run along `as`, a source that generates has handled an award with the random numbers
`rnd`. -/
def Generates (kind : ι → Kind) (as : List (Action ι)) (rnd : Random) : Prop :=
  ∃ before a after s, as = before ++ a :: after ∧
    execute (next System.step) (.new ι) before = some s ∧ Drawing kind rnd s a

/-- Only the numbers that the run has generated are in its messages. -/
theorem inv_execute (has : ∀ a ∈ as, Allowed kind draws a)
    (ht : execute (next System.step) (.new ι) as = some t) :
    Inv kind {rnd | rnd ∈ draws ∧ Generates kind as rnd} t := by
  have hrun : Along (next System.step) (fun s a => Allowed kind draws a ∧
      ∀ rnd ∈ draws, Drawing kind rnd s a → rnd ∈ draws ∧ Generates kind as rnd) (.new ι) as := by
    apply along_of_split
    rintro before a after s rfl hs
    refine ⟨has a (by simp), fun rnd hrnd hdrawing => ⟨hrnd, before, a, after, s, rfl, hs, hdrawing⟩⟩
  exact hrun.invariant (fun s a s' hs ha hstep => step_kept hs ha.1 ha.2 hstep) (inv_new kind _) ht

/-- In a run of the example, a source that squares is only awarded numbers that a source has
generated in this run, and squares them without an exception. A source that prints is only awarded
the squares of such numbers. -/
theorem awards_sound (has : ∀ a ∈ as, Allowed kind draws a)
    (ht : execute (next System.step) (.new ι) as = some t) {receiver : ι} {e : Estimate ι}
    (hm : .acceptProposal receiver e ∈ t.posted) :
    (kind receiver = .square → ∃ rnd ∈ draws, Generates kind as rnd ∧
        e.event.content = GenerateKS.numbers rnd ∧
        SquareKS.handleEvent e.event = some ⟨"SQUARE", squaresText (drawn rnd), [], 0⟩) ∧
      (kind receiver = .print → ∃ rnd ∈ draws, Generates kind as rnd ∧
        e.event.content = squaresText (drawn rnd)) := by
  obtain ⟨rfl, hproposed⟩ := (inv_execute has ht).posted _ hm
  obtain ⟨hname, hcontent⟩ := hproposed.assigned
  constructor
  · intro hk
    rw [hk] at hname hcontent
    obtain ⟨rnd, ⟨hrnd, hgenerates⟩, hnumbers⟩ := hcontent
    refine ⟨rnd, hrnd, hgenerates, hnumbers, ?_⟩
    rw [squareKS_handleEvent hnumbers, hname]
    rfl
  · intro hk
    rw [hk] at hcontent
    obtain ⟨rnd, ⟨hrnd, hgenerates⟩, hsquares⟩ := hcontent
    exact ⟨rnd, hrnd, hgenerates, hsquares⟩

end Runs

/-- The numbers are drawn in order. -/
def counting : Random := ⟨fun k bound => k % bound, fun k _ h => Nat.mod_lt k h⟩

/-- One source of each kind. -/
def kinds : ℕ → Kind
  | 0 => .generate
  | 1 => .square
  | _ => .print

/-- The sources subscribe, and the stages follow each other up to the last award. -/
def squaring : List (Action ℕ) :=
  .inform "Test" (start [0, 1, 2]) ::
    [0, 0, 0, 0, 1, 1, 1, 0, 0, 1, 0, 0, 0, 0, 0, 1, 0, 0, 0, 0, 0, 1, 0].map
      (.deliver (agents kinds counting))

theorem allowed_squaring : ∀ a ∈ squaring, Allowed kinds {counting} a := by
  intro a ha
  rcases List.mem_cons.1 ha with rfl | ha
  · exact .start _
  · obtain ⟨i, -, rfl⟩ := List.mem_map.1 ha
    exact .deliver (Set.mem_singleton counting) i

theorem posted_squaring :
    (execute (next System.step) (.new ℕ) squaring).map (fun t => t.posted) = some
      [.acceptProposal 2 ⟨"1", 2, ⟨"PRINT", "1;4;9;16;25;36;49;64;81;100;", [], 2⟩⟩] := by
  decide +kernel

theorem awards_sound_squaring :
    ∃ t e, execute (next System.step) (.new ℕ) squaring = some t ∧
      .acceptProposal 2 e ∈ t.posted ∧ e.event.content = "1;4;9;16;25;36;49;64;81;100;" ∧
      ∃ rnd ∈ ({counting} : Set Random), Generates kinds squaring rnd ∧
        e.event.content = squaresText (drawn rnd) := by
  obtain ⟨t, ht, hposted⟩ := Option.map_eq_some_iff.1 posted_squaring
  have hm : .acceptProposal 2 ⟨"1", 2, ⟨"PRINT", "1;4;9;16;25;36;49;64;81;100;", [], 2⟩⟩ ∈
      t.posted := by
    rw [hposted]
    exact List.mem_singleton_self _
  exact ⟨t, _, ht, hm, rfl, (awards_sound allowed_squaring ht hm).2 rfl⟩

section Runs

variable {kind : ι → Kind} {draws : Set Random} {as : List (Action ι)} {t : System ι}

/-- In a run of the example, an award for which there are estimates goes to one that needs the least
time. -/
theorem awards_fastest (has : ∀ a ∈ as, Allowed kind draws a)
    (ht : execute (next System.step) (.new ι) as = some t) {content : String}
    {l : List (Estimate ι)} (hl : t.board.estimates content = some l) :
    ∃ e ∈ l, award (ControlComponentExample.controlComponent ι) t.board content =
        [acceptProposal e] ∧
      ∃ v, ControlComponentExample.time e = some v ∧
        ∀ e' ∈ l, ∃ w, ControlComponentExample.time e' = some w ∧ v ≤ w :=
  award_fastest (inv_execute has ht) hl

end Runs

/-- The largest numbers are drawn. -/
def largest : Random := ⟨fun _ bound => bound - 1, fun _ _ h => Nat.sub_one_lt_of_lt h⟩

/-- Two sources that generate numbers; the second needs less time. -/
def competing : List (Action ℕ) :=
  .inform "Test" (start [0, 1]) ::
    ([0, 0, 0, 1, 1, 0].map (.deliver (agents (fun _ => .generate) counting)) ++
      .deliver (agents (fun _ => .generate) largest) 0 ::
        [0, 1, 1].map (.deliver (agents (fun _ => .generate) counting)))

theorem allowed_competing :
    ∀ a ∈ competing, Allowed (fun _ => .generate) {counting, largest} a := by
  intro a ha
  simp only [competing, List.mem_cons, List.mem_append, List.mem_map] at ha
  rcases ha with rfl | ⟨i, -, rfl⟩ | rfl | ⟨i, -, rfl⟩
  · exact .start _
  · exact .deliver (Set.mem_insert counting {largest}) i
  · exact .deliver (Set.mem_insert_of_mem counting (Set.mem_singleton largest)) 0
  · exact .deliver (Set.mem_insert counting {largest}) i

theorem estimates_competing :
    (execute (next System.step) (.new ℕ) competing).map (fun t => t.board.estimates "GENERATE") =
      some (some [⟨"10", 0, ⟨"GENERATE", "", [], 0⟩⟩, ⟨"1", 1, ⟨"GENERATE", "", [], 0⟩⟩]) := by
  decide +kernel

theorem awards_fastest_competing :
    ∃ t l, execute (next System.step) (.new ℕ) competing = some t ∧
      t.board.estimates "GENERATE" = some l ∧ l.map Estimate.content = ["10", "1"] ∧
      ∃ e ∈ l, award (ControlComponentExample.controlComponent ℕ) t.board "GENERATE" =
          [acceptProposal e] ∧
        ∃ v, ControlComponentExample.time e = some v ∧
          ∀ e' ∈ l, ∃ w, ControlComponentExample.time e' = some w ∧ v ≤ w := by
  obtain ⟨t, ht, hestimates⟩ := Option.map_eq_some_iff.1 estimates_competing
  exact ⟨t, _, ht, hestimates, rfl, awards_fastest allowed_competing ht hestimates⟩

end Siebog.Interaction.Blackboard.Example
