import Siebog.Lib.Run
import Mathlib.Data.List.Perm.Basic
import Mathlib.Logic.Function.Basic

/-!
# Agents and messages in flight

Agents with a state of their own post messages to each other. Any message in flight can be the next
that is delivered, so nothing is assumed of their order. The agent that a message is delivered to
handles it at once, with what its random generators give as a parameter: it goes on to another state
and posts messages, or throws an exception, and then only the message is gone.

`Local.step` is the rule for assertions that speak of one agent or of one message each.
-/

set_option autoImplicit false

namespace Siebog.Lib

/-- The states of the agents, and the messages in flight with the agent each is for. -/
structure Network {ι : Type} (σ : ι → Type) (μ : Type) where
  state : ∀ i, σ i
  flight : List (ι × μ)

namespace Network

section Model

variable {ι : Type} [DecidableEq ι] {σ : ι → Type} {μ ρ : Type}

/-- A message comes from outside, or one in flight is delivered. -/
inductive Action (ι μ ρ : Type) where
  | post (i : ι) (m : μ)
  | deliver (k : ℕ) (r : ρ)

/-- What an agent does with a message. -/
abbrev Behaviour (σ : ι → Type) (μ ρ : Type) : Type :=
  ∀ i, σ i → μ → ρ → Option (σ i × List (ι × μ))

/-- The network after agent `i` has handled the message in flight at index `k`. -/
def handled (net : Network σ μ) (k : ℕ) (i : ι) : Option (σ i × List (ι × μ)) → Network σ μ
  | none => { net with flight := net.flight.eraseIdx k }
  | some (s, posts) =>
    { state := Function.update net.state i s
      flight := net.flight.eraseIdx k ++ posts }

def step (handle : Behaviour σ μ ρ) (net : Network σ μ) : Action ι μ ρ → Option (Network σ μ)
  | .post i m => some { net with flight := net.flight ++ [(i, m)] }
  | .deliver k r =>
    match net.flight[k]? with
    | none => none
    | some (i, m) => some (net.handled k i (handle i (net.state i) m r))

end Model

variable {ι : Type} [DecidableEq ι] {σ : ι → Type} {μ ρ : Type} {handle : Behaviour σ μ ρ}

/-- A message is delivered to the agent that it is for. -/
theorem exists_of_deliver {net net' : Network σ μ} {k : ℕ} {r : ρ}
    (h : step handle net (.deliver k r) = some net') :
    ∃ i m, net.flight[k]? = some (i, m) ∧ net' = net.handled k i (handle i (net.state i) m r) := by
  rw [step] at h
  cases hk : net.flight[k]? with
  | none =>
      rw [hk] at h
      cases h
  | some p =>
      rw [hk] at h
      cases h
      exact ⟨p.1, p.2, rfl, rfl⟩

theorem step_of_flight {net : Network σ μ} {k : ℕ} {i : ι} {m : μ}
    (h : net.flight[k]? = some (i, m)) (r : ρ) :
    step handle net (.deliver k r) = some (net.handled k i (handle i (net.state i) m r)) := by
  rw [step, h]

/-- The other agents are as they were. -/
theorem state_handled_of_ne (net : Network σ μ) (k : ℕ) {i j : ι} (hne : j ≠ i)
    (out : Option (σ i × List (ι × μ))) : (net.handled k i out).state j = net.state j := by
  cases out with
  | none => rfl
  | some out => exact Function.update_of_ne hne _ _

theorem state_handled_some (net : Network σ μ) (k : ℕ) (i : ι) (s : σ i) (posts : List (ι × μ)) :
    (net.handled k i (some (s, posts))).state i = s :=
  Function.update_self i s net.state

/-- What a list gives is what one of its elements gives and what the others give. -/
theorem filterMap_eraseIdx_perm {α β : Type} {l : List α} {k : ℕ} {a : α} (hk : l[k]? = some a)
    (f : α → Option β) : (l.filterMap f).Perm ((f a).toList ++ (l.eraseIdx k).filterMap f) := by
  obtain ⟨hlt, hget⟩ := List.getElem?_eq_some_iff.1 hk
  have hperm : l.Perm (a :: l.eraseIdx k) := hget ▸ (List.getElem_cons_eraseIdx_perm hlt).symm
  refine (hperm.filterMap f).trans ?_
  rw [List.filterMap_cons]
  cases f a with
  | none => exact List.Perm.refl _
  | some b => exact List.Perm.refl _

omit [DecidableEq ι] in
/-- What the messages in flight give is what the one that is delivered gives and what the others
give. -/
theorem filterMap_flight_perm {net : Network σ μ} {k : ℕ} {p : ι × μ} (hk : net.flight[k]? = some p)
    {β : Type} (f : ι × μ → Option β) :
    (net.flight.filterMap f).Perm ((f p).toList ++ (net.flight.eraseIdx k).filterMap f) :=
  filterMap_eraseIdx_perm hk f

/-- Every agent satisfies `P`, and every message in flight `Q`. -/
structure Local (P : ∀ i, σ i → Prop) (Q : ι → μ → Prop) (net : Network σ μ) : Prop where
  state : ∀ i, P i (net.state i)
  flight : ∀ p ∈ net.flight, Q p.1 p.2

/-- What an agent makes of a message keeps assertions of this kind when they hold of the agent and
of the message. -/
def Keeps (handle : Behaviour σ μ ρ) (P : ∀ i, σ i → Prop) (Q : ι → μ → Prop) : Prop :=
  ∀ i s m r s' posts, P i s → Q i m → handle i s m r = some (s', posts) →
    P i s' ∧ ∀ p ∈ posts, Q p.1 p.2

variable {P : ∀ i, σ i → Prop} {Q : ι → μ → Prop}

omit [DecidableEq ι] in
theorem Local.of_flight {net : Network σ μ} (h : Local P Q net) {k : ℕ} {i : ι} {m : μ}
    (hk : net.flight[k]? = some (i, m)) : Q i m :=
  h.flight (i, m) (List.mem_of_getElem? hk)

theorem Local.handled {net : Network σ μ} (h : Local P Q net) (hkeeps : Keeps handle P Q) {k : ℕ}
    {i : ι} {m : μ} (hk : net.flight[k]? = some (i, m)) (r : ρ) :
    Local P Q (net.handled k i (handle i (net.state i) m r)) := by
  have herase : ∀ p ∈ net.flight.eraseIdx k, Q p.1 p.2 := fun p hp =>
    h.flight p (List.mem_of_mem_eraseIdx hp)
  cases hout : handle i (net.state i) m r with
  | none => exact ⟨h.state, herase⟩
  | some out =>
      obtain ⟨s', posts⟩ := out
      obtain ⟨hs', hposts⟩ := hkeeps i _ m r s' posts (h.state i) (h.of_flight hk) hout
      refine ⟨fun j => ?_, fun p hp => ?_⟩
      · by_cases hj : j = i
        · subst hj
          rw [state_handled_some]
          exact hs'
        · rw [state_handled_of_ne net k hj]
          exact h.state j
      · rcases List.mem_append.1 hp with hp | hp
        · exact herase p hp
        · exact hposts p hp

/-- Assertions about single agents and single messages are kept by every step, where those about
messages hold of what comes from outside. -/
theorem Local.step {net net' : Network σ μ} (h : Local P Q net) (hkeeps : Keeps handle P Q)
    {act : Action ι μ ρ} (hpost : ∀ i m, act = .post i m → Q i m)
    (hstep : step handle net act = some net') : Local P Q net' := by
  cases act with
  | post i m =>
      cases hstep
      refine ⟨h.state, fun p hp => ?_⟩
      rcases List.mem_append.1 hp with hp | hp
      · exact h.flight p hp
      · rw [List.mem_singleton.1 hp]
        exact hpost i m rfl
  | deliver k r =>
      obtain ⟨i, m, hk, rfl⟩ := exists_of_deliver hstep
      exact h.handled hkeeps hk r

/-! ## Threads -/

/-- The messages in flight that belong to a thread. -/
def thread {κ : Type} [DecidableEq κ] (owner : ι × μ → Option κ) (a : κ) (flight : List (ι × μ)) :
    List (ι × μ) :=
  flight.filter fun p => owner p = some a

section Threads

variable {κ : Type} [DecidableEq κ] {owner : ι × μ → Option κ} {a : κ} {flight : List (ι × μ)}
  {k : ℕ} {p : ι × μ}

omit [DecidableEq ι] in
theorem thread_append (flight flight' : List (ι × μ)) :
    thread owner a (flight ++ flight') = thread owner a flight ++ thread owner a flight' :=
  List.filter_append _ _

omit [DecidableEq ι] in
theorem thread_eq_nil (h : ∀ p ∈ flight, owner p ≠ some a) : thread owner a flight = [] := by
  rw [thread, List.filter_eq_nil_iff]
  intro p hp
  rw [decide_eq_true_eq]
  exact h p hp

omit [DecidableEq ι] in
theorem mem_thread_of_getElem? (hk : flight[k]? = some p) (howner : owner p = some a) :
    p ∈ thread owner a flight :=
  List.mem_filter.2 ⟨List.mem_of_getElem? hk, decide_eq_true howner⟩

omit [DecidableEq ι] in
theorem thread_cons_self (howner : owner p = some a) :
    thread owner a (p :: flight) = p :: thread owner a flight :=
  List.filter_cons_of_pos (p := fun p => decide (owner p = some a)) (decide_eq_true howner)

omit [DecidableEq ι] in
theorem thread_cons_of_ne (howner : owner p ≠ some a) :
    thread owner a (p :: flight) = thread owner a flight :=
  List.filter_cons_of_neg (p := fun p => decide (owner p = some a)) fun h =>
    howner (of_decide_eq_true h)

omit [DecidableEq ι] in
/-- With the only message of a thread taken out, nothing of the thread is left. -/
theorem thread_eraseIdx_self (hk : flight[k]? = some p) (howner : owner p = some a)
    (hsingle : (thread owner a flight).length ≤ 1) : thread owner a (flight.eraseIdx k) = [] := by
  obtain ⟨hlt, hget⟩ := List.getElem?_eq_some_iff.1 hk
  have hperm : flight.Perm (p :: flight.eraseIdx k) :=
    hget ▸ (List.getElem_cons_eraseIdx_perm hlt).symm
  have hlength : (thread owner a flight).length = (thread owner a (p :: flight.eraseIdx k)).length :=
    (hperm.filter _).length_eq
  rw [thread_cons_self howner, List.length_cons] at hlength
  exact List.length_eq_zero_iff.1 (by omega)

omit [DecidableEq ι] in
theorem thread_eraseIdx_of_ne (hk : flight[k]? = some p) (howner : owner p ≠ some a) :
    thread owner a (flight.eraseIdx k) = thread owner a flight := by
  obtain ⟨hlt, hget⟩ := List.getElem?_eq_some_iff.1 hk
  have hsplit : flight = flight.take k ++ p :: flight.drop (k + 1) := by
    rw [← hget, List.getElem_cons_drop, List.take_append_drop]
  have hthread : thread owner a flight =
      thread owner a (flight.take k) ++ thread owner a (p :: flight.drop (k + 1)) :=
    (congrArg (thread owner a) hsplit).trans (thread_append _ _)
  rw [hthread, thread_cons_of_ne howner, ← thread_append, List.eraseIdx_eq_take_drop_succ]

variable {posts : List (ι × μ)}

omit [DecidableEq ι] in
/-- What is posted for the only message of a thread is what is left of the thread. -/
theorem thread_posts (hk : flight[k]? = some p) (howner : owner p = some a)
    (hsingle : (thread owner a flight).length ≤ 1) :
    thread owner a (flight.eraseIdx k ++ posts) = thread owner a posts := by
  rw [thread_append, thread_eraseIdx_self hk howner hsingle, List.nil_append]

omit [DecidableEq ι] in
/-- The other threads are as they were. -/
theorem thread_posts_of_ne (hk : flight[k]? = some p) (howner : owner p ≠ some a)
    (hposts : ∀ q ∈ posts, owner q ≠ some a) :
    thread owner a (flight.eraseIdx k ++ posts) = thread owner a flight := by
  rw [thread_append, thread_eraseIdx_of_ne hk howner, thread_eq_nil hposts, List.append_nil]

omit [DecidableEq ι] in
theorem thread_eq_single (hk : flight[k]? = some p) (howner : owner p = some a)
    (hsingle : (thread owner a flight).length ≤ 1) : thread owner a flight = [p] := by
  have hmem := mem_thread_of_getElem? hk howner
  obtain ⟨q, hq⟩ := List.length_eq_one_iff.1
    (Nat.le_antisymm hsingle (List.length_pos_of_mem hmem))
  rw [hq, List.mem_singleton] at hmem
  rw [hq, hmem]

end Threads

end Network

end Siebog.Lib
