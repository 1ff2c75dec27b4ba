import Siebog.Interaction.ContractNet
import Mathlib.Data.List.Nodup

/-!
# The answers of a contract-net round

A bidder is answered by `ACCEPT_PROPOSAL` when it is chosen, or by `REJECT_PROPOSAL` when another
contractor is done. Its identifier stands in `rejectedAID` exactly while its proposal can still be
chosen, so nobody is answered twice. `handleFailure` breaks the other half: it chooses a proposal,
takes it out of both lists, and then lets `acceptProposal` choose again. The first proposal is gone
without an answer.

`one_answer_iff` says that this is the only way to lose a bidder.
-/

set_option autoImplicit false

namespace Siebog.Interaction

open Siebog.Lib

variable {ι : Type} [DecidableEq ι]

section Round

/-- The participants that the posted messages accept or reject, one entry for each message and
receiver. -/
def answered (h : List (Answer ι)) : List ι :=
  h.flatMap fun
    | .acceptProposal p => [p.participant]
    | .rejectProposal receivers => receivers
    | _ => []

/-- The participants whose proposals are among the messages. -/
def proposers (ds : List (Delivery ι)) : List ι :=
  ds.filterMap fun d => match d.msg with
    | .propose p => some p.participant
    | _ => none

/-- A message inside a round: it neither starts one nor ends it in `success`. -/
def Delivery.InRound (d : Delivery ι) : Prop :=
  match d.msg with
  | .request _ => False
  | .inform _ => False
  | _ => True

namespace Initiator

/-- The handler of the message goes through `handleFailure`. -/
def Fails (s : Initiator ι) (d : Delivery ι) : Prop :=
  match d.msg with
  | .failure => True
  | .waiting a => s.Awaits a
  | _ => False

/-- No contractor fails while there are proposals left. -/
def NoReaward (s : Initiator ι) (d : Delivery ι) : Prop := s.Fails d → s.proposals = []

instance (s : Initiator ι) : DecidablePred s.NoReaward
  | ⟨_, .failure⟩ => inferInstanceAs (Decidable (True → s.proposals = []))
  | ⟨_, .waiting a⟩ => inferInstanceAs (Decidable (s.Awaits a → s.proposals = []))
  | ⟨_, .request _⟩ | ⟨_, .propose _⟩ | ⟨_, .refuse⟩ | ⟨_, .inform _⟩ | ⟨_, .callForProposal⟩
  | ⟨_, .replyBy⟩ => .isTrue False.elim

end Initiator

end Round

section Balance

omit [DecidableEq ι] in
theorem answered_append (h h' : List (Answer ι)) :
    answered (h ++ h') = answered h ++ answered h' :=
  List.flatMap_append

theorem map_erase_of_nodup {α β : Type} [DecidableEq α] [DecidableEq β] (f : α → β) {l : List α}
    (hl : (l.map f).Nodup) {a : α} (ha : a ∈ l) : (l.erase a).map f = (l.map f).erase (f a) := by
  induction l with
  | nil => cases ha
  | cons b l ih =>
      rw [List.map_cons, List.nodup_cons] at hl
      by_cases hab : b = a
      · subst hab
        rw [List.erase_cons_head, List.map_cons, List.erase_cons_head]
      · have hal : a ∈ l := (List.mem_cons.1 ha).resolve_left (Ne.symm hab)
        have hf : f b ≠ f a := fun heq => hl.1 (heq ▸ List.mem_map_of_mem hal)
        rw [List.erase_cons_tail (by simpa using hab), List.map_cons, List.map_cons,
          List.erase_cons_tail (by simpa using hf), ih hl.2 hal]

namespace Initiator

/-- The participants to be rejected are those of the proposals that can still be chosen, and none
of them twice. -/
def Sync (s : Initiator ι) : Prop :=
  s.rejectedAID = s.proposals.map Proposal.participant ∧ s.rejectedAID.Nodup

/-- What a handler does to the bidders `before` it: each is answered, kept or dropped. -/
structure Balance (before : List ι) (r : Initiator ι × List (Answer ι)) (dropped : List ι) :
    Prop where
  sync : r.1.Sync
  count : ∀ a, before.count a =
    (answered r.2).count a + r.1.rejectedAID.count a + dropped.count a

theorem Sync.erase {s : Initiator ι} (hs : s.Sync) {p : Proposal ι} (hp : p ∈ s.proposals)
    (n : ℤ) (best : Option (Proposal ι)) (status : ℕ) :
    Sync ⟨n, best, s.rejectedAID.erase p.participant, s.proposals.erase p, status⟩ := by
  refine ⟨?_, hs.2.erase _⟩
  show s.rejectedAID.erase p.participant = (s.proposals.erase p).map Proposal.participant
  rw [map_erase_of_nodup _ (hs.1 ▸ hs.2) hp, hs.1]

omit [DecidableEq ι] in
theorem Sync.mem {s : Initiator ι} (hs : s.Sync) {p : Proposal ι} (hp : p ∈ s.proposals) :
    p.participant ∈ s.rejectedAID := by
  rw [hs.1]
  exact List.mem_map_of_mem hp

theorem count_of_erase {l : List ι} {b : ι} (hb : b ∈ l) (a : ι) :
    l.count a = [b].count a + (l.erase b).count a := by
  rw [(List.perm_cons_erase hb).count_eq a, List.count_cons, List.count_singleton, Nat.add_comm]

theorem acceptProposal_balance (C : Chooser ι) {s : Initiator ι} (hs : s.Sync) :
    Balance s.rejectedAID (s.acceptProposal C) [] := by
  rcases s.acceptProposal_cases C with ⟨-, heq⟩ | ⟨p, hp, heq⟩
  · rw [heq]
    exact ⟨hs, fun a => by simp [answered]⟩
  · rw [heq]
    exact ⟨hs.erase hp _ _ _, fun a => count_of_erase (hs.mem hp) a⟩

theorem handleFailure_balance (C : Chooser ι) {s : Initiator ι} (hs : s.Sync) :
    ∃ dropped, Balance s.rejectedAID (s.handleFailure C) dropped ∧
      (dropped = [] ↔ s.proposals = []) := by
  rcases s.handleFailure_cases C with ⟨hnil, heq⟩ | ⟨p, hp, heq⟩
  · rw [heq]
    exact ⟨[], ⟨hs, fun a => by simp [answered]⟩, by simp [hnil]⟩
  · rw [heq]
    obtain ⟨hsync, hcount⟩ :=
      acceptProposal_balance C (hs.erase hp s.pendingProposals (some p) s.status)
    refine ⟨[p.participant], ⟨hsync, fun a => ?_⟩, by simp [List.ne_nil_of_mem hp]⟩
    have hfirst := count_of_erase (hs.mem hp) a
    have hrest := hcount a
    simp only [List.count_nil] at hrest
    omega

/-- One message of the round. -/
theorem onMessage_balance {s : Initiator ι} (hs : s.Sync) {d : Delivery ι} (hd : d.InRound)
    (hnodup : (s.rejectedAID ++ proposers [d]).Nodup) :
    ∃ dropped, Balance (s.rejectedAID ++ proposers [d]) (s.onMessage d) dropped ∧
      (dropped = [] ↔ s.NoReaward d) := by
  obtain ⟨C, m⟩ := d
  cases m with
  | request participants => exact hd.elim
  | inform result => exact hd.elim
  | propose p =>
      have hsync : ∀ n : ℤ, Sync ⟨n, s.bestProposal, s.rejectedAID ++ [p.participant],
          s.proposals ++ [p], s.status⟩ := fun n => ⟨by simp [hs.1], hnodup⟩
      refine ⟨[], ?_, by simp [NoReaward, Fails]⟩
      show Balance _ (s.handlePropose C p) []
      simp only [handlePropose]
      split
      · -- the last proposal that was waited for
        exact acceptProposal_balance C (hsync _)
      · exact ⟨hsync _, fun a => by simp [answered, proposers]⟩
  | refuse =>
      refine ⟨[], ?_, by simp [NoReaward, Fails]⟩
      show Balance (s.rejectedAID ++ []) (s.handleRefuse C) []
      rw [List.append_nil]
      simp only [handleRefuse]
      split
      · have hs' : Sync { s with pendingProposals := s.pendingProposals - 1 } := hs
        exact acceptProposal_balance C hs'
      · exact ⟨hs, fun a => by simp [answered]⟩
  | failure =>
      obtain ⟨dropped, hbal, hiff⟩ := handleFailure_balance C hs
      refine ⟨dropped, ?_, hiff.trans (by simp [NoReaward, Fails])⟩
      show Balance (s.rejectedAID ++ []) (s.handleFailure C) dropped
      rw [List.append_nil]
      exact hbal
  | callForProposal =>
      exact ⟨[], ⟨hs, fun a => by simp [answered, proposers, onMessage]⟩, by simp [NoReaward, Fails]⟩
  | replyBy =>
      refine ⟨[], ?_, by simp [NoReaward, Fails]⟩
      show Balance (s.rejectedAID ++ []) (s.onMessage ⟨C, .replyBy⟩) []
      rw [List.append_nil]
      simp only [onMessage]
      split
      · have hs' : Sync { s with pendingProposals := 0 } := hs
        exact acceptProposal_balance C hs'
      · exact ⟨hs, fun a => by simp [answered]⟩
  | waiting a =>
      -- who is still awaited by then has failed
      by_cases haw : s.Awaits a
      · have heq : s.onMessage ⟨C, .waiting a⟩ = s.handleFailure C := if_pos haw
        obtain ⟨dropped, hbal, hiff⟩ := handleFailure_balance C hs
        refine ⟨dropped, ?_, hiff.trans (by simp [NoReaward, Fails, haw])⟩
        show Balance (s.rejectedAID ++ []) (s.onMessage ⟨C, .waiting a⟩) dropped
        rw [List.append_nil, heq]
        exact hbal
      · have heq : s.onMessage ⟨C, .waiting a⟩ = (s, []) := if_neg haw
        refine ⟨[], ?_, by simp [NoReaward, Fails, haw]⟩
        rw [heq]
        exact ⟨hs, fun a => by simp [answered, proposers]⟩

omit [DecidableEq ι] in
theorem proposers_cons (d : Delivery ι) (ds : List (Delivery ι)) :
    proposers (d :: ds) = proposers [d] ++ proposers ds :=
  List.filterMap_append (l := [d])

/-- The messages of a round, up to its end. -/
theorem play_balance : ∀ (ds : List (Delivery ι)) (s t : Initiator ι) (h : List (Answer ι)),
    s.Sync → (∀ d ∈ ds, d.InRound) → (s.rejectedAID ++ proposers ds).Nodup →
      play step s ds = some (t, h) →
        ∃ dropped, Balance (s.rejectedAID ++ proposers ds) (t, h) dropped ∧
          (dropped = [] ↔ Along (next step) NoReaward s ds) := by
  intro ds
  induction ds with
  | nil =>
      intro s t h hs _ _ hp
      cases hp
      exact ⟨[], ⟨hs, fun a => by simp [answered, proposers]⟩, by simp [Along]⟩
  | cons d ds ih =>
      intro s t h hs hds hnodup hp
      obtain ⟨s', out, h', hstep, hrest, rfl⟩ := play_cons_eq_some.1 hp
      rw [proposers_cons, ← List.append_assoc] at hnodup ⊢
      obtain ⟨dropped, hbal, hiff⟩ :=
        onMessage_balance hs (hds d List.mem_cons_self) (List.nodup_append.1 hnodup).1
      rw [Option.some.inj hstep] at hbal
      -- nobody new is among those kept, so nobody is there twice
      have hnodup' : (s'.rejectedAID ++ proposers ds).Nodup := by
        rw [List.nodup_iff_count_le_one] at hnodup ⊢
        intro a
        have hone := hnodup a
        have hcount := hbal.count a
        rw [List.count_append] at hone ⊢
        dsimp only at hcount
        omega
      obtain ⟨dropped', hbal', hiff'⟩ :=
        ih s' t h' hbal.sync (fun d' hd' => hds d' (List.mem_cons_of_mem _ hd')) hnodup' hrest
      refine ⟨dropped ++ dropped', ⟨hbal'.sync, fun a => ?_⟩, ?_⟩
      · have hcount := hbal.count a
        have hcount' := hbal'.count a
        simp only [answered_append, List.count_append] at hcount hcount' ⊢
        omega
      · rw [along_cons_some hstep, ← hiff, ← hiff', List.append_eq_nil_iff]

omit [DecidableEq ι] in
/-- A call leaves the empty lists empty. -/
theorem sync_cfp {s : Initiator ι} (hproposals : s.proposals = []) (hrejected : s.rejectedAID = [])
    (participants : List ι) : (s.cfp participants).1.Sync := by
  refine ⟨?_, ?_⟩
  · show s.rejectedAID = s.proposals.map _
    rw [hrejected, hproposals, List.map_nil]
  · show s.rejectedAID.Nodup
    rw [hrejected]
    exact List.nodup_nil

omit [DecidableEq ι] in
/-- Between a call and the result the messages answer `h`; the result rejects who is left. -/
theorem answered_round (s t : Initiator ι) (participants : List ι) (result : Result)
    (h : List (Answer ι)) :
    answered ((s.cfp participants).2 ++ h ++ (t.handleDone result).2) =
      answered h ++ t.rejectedAID := by
  have hcfp : answered (s.cfp participants).2 = [] := rfl
  have hdone : answered (t.handleDone result).2 = t.rejectedAID := by
    simp [answered, handleDone, rejectProposal]
  rw [answered_append, answered_append, hcfp, hdone, List.nil_append]

end Initiator

/-- Every bidder of a round that ends in `success` gets exactly one answer, an acceptance or a
rejection, exactly when no contractor fails while there are proposals left. The round starts with
empty lists, as a new initiator's are, and every participant makes one proposal at most, as
`handleCfp` does. -/
theorem one_answer_iff (s₀ s : Initiator ι) (hproposals : s₀.proposals = [])
    (hrejected : s₀.rejectedAID = []) (C₀ C : Chooser ι) (participants : List ι) (result : Result)
    (ds : List (Delivery ι)) (hround : ∀ d ∈ ds, d.InRound) (hone : (proposers ds).Nodup)
    (h : List (Answer ι))
    (hrun : play Initiator.step s₀ (⟨C₀, .request participants⟩ :: ds ++ [⟨C, .inform result⟩]) =
      some (s, h)) :
    (∀ a ∈ proposers ds, (answered h).count a = 1) ↔
      Along (next Initiator.step) Initiator.NoReaward s₀ (⟨C₀, .request participants⟩ :: ds) := by
  obtain ⟨t, h₁, h₂, hbefore, hlast, rfl⟩ := play_snoc_eq_some.1 hrun
  obtain ⟨s₁, out, h', hcall, hmsgs, rfl⟩ := play_cons_eq_some.1 hbefore
  obtain ⟨rfl, rfl⟩ := Prod.mk.inj (Option.some.inj hcall)
  obtain ⟨rfl, rfl⟩ := Prod.mk.inj (Option.some.inj hlast)
  have hsync := Initiator.sync_cfp hproposals hrejected participants
  have hkept : (s₀.cfp participants).1.rejectedAID = [] := hrejected
  obtain ⟨dropped, hbal, hiff⟩ := Initiator.play_balance ds _ t h' hsync hround
    (by rw [hkept]; exact hone) hmsgs
  -- a proposer is answered once, or dropped by a failure
  have hcount : ∀ a, (proposers ds).count a = (answered ((s₀.cfp participants).2 ++ h' ++
      (t.handleDone result).2)).count a + dropped.count a := by
    intro a
    have hb := hbal.count a
    rw [hkept, List.nil_append] at hb
    rw [Initiator.answered_round, List.count_append]
    exact hb
  rw [along_cons_some hcall]
  show _ ↔ _ ∧ Along (next Initiator.step) Initiator.NoReaward (s₀.cfp participants).1 ds
  have hquiet : Initiator.NoReaward s₀ ⟨C₀, .request participants⟩ := fun hf => hf.elim
  rw [and_iff_right hquiet, ← hiff]
  constructor
  · intro hall
    refine List.eq_nil_iff_forall_not_mem.2 fun a ha => ?_
    have hpos := List.count_pos_iff.2 ha
    have hle := List.nodup_iff_count_le_one.1 hone a
    have hc := hcount a
    have hmem : a ∈ proposers ds := List.count_pos_iff.1 (by omega)
    have h1 : (answered ((s₀.cfp participants).2 ++ h' ++ (t.handleDone result).2)).count a = 1 :=
      hall a hmem
    omega
  · rintro rfl a ha
    have hc := hcount a
    rw [List.count_eq_one_of_mem hone ha, List.count_nil, Nat.add_zero] at hc
    exact hc.symm

/-- Two bidders, one refusal: the first bidder is accepted, the other is rejected at the end. -/
theorem one_answer_iff_two :
    ∃ s h, play Initiator.step (.new ℕ) (⟨.first, .request [0, 1, 2, 3]⟩ ::
        [⟨.first, .propose ⟨1, 1, "5", 9, 1⟩⟩, ⟨.first, .refuse⟩,
          ⟨.first, .propose ⟨2, 2, "7", 9, 1⟩⟩] ++ [⟨.first, .inform ⟨"45"⟩⟩]) = some (s, h) ∧
      (answered h).count 2 = 1 := by
  have h : play Initiator.step (.new ℕ) (⟨.first, .request [0, 1, 2, 3]⟩ ::
      [⟨.first, .propose ⟨1, 1, "5", 9, 1⟩⟩, ⟨.first, .refuse⟩,
        ⟨.first, .propose ⟨2, 2, "7", 9, 1⟩⟩] ++ [⟨.first, .inform ⟨"45"⟩⟩]) =
      some (⟨0, none, [], [⟨2, 2, "7", 9, 1⟩], 3⟩, [.callForProposal [0, 1, 2, 3], .replyBy,
        .acceptProposal ⟨1, 1, "5", 9, 1⟩, .waiting 1 9, .rejectProposal [2], .success ⟨"45"⟩]) := by
    rfl
  have hround : ∀ d ∈ [⟨.first, .propose ⟨1, 1, "5", 9, 1⟩⟩, ⟨.first, .refuse⟩,
      (⟨.first, .propose ⟨2, 2, "7", 9, 1⟩⟩ : Delivery ℕ)], d.InRound := by
    simp [Delivery.InRound]
  exact ⟨_, _, h, (one_answer_iff _ _ rfl rfl _ _ _ _ _ hround (by decide) _ h).2 (by decide) 2
    (by decide)⟩

/-- Three bidders; the first is chosen and fails. -/
def failedRun : List (Delivery ℕ) :=
  ([.propose ⟨1, 1, "5", 9, 1⟩, .propose ⟨2, 2, "7", 9, 1⟩, .propose ⟨3, 3, "8", 9, 1⟩,
    .failure]).map (Delivery.mk .first)

/-- The second bidder of `failedRun` is neither accepted nor rejected when the third is done. -/
theorem bidder_unanswered :
    ¬ ∀ (C₀ C : Chooser ℕ) (participants : List ℕ) (result : Result) (ds : List (Delivery ℕ))
      (s : Initiator ℕ) (h : List (Answer ℕ)),
      (∀ d ∈ ds, d.InRound) → (proposers ds).Nodup →
      play Initiator.step (.new ℕ) (⟨C₀, .request participants⟩ :: ds ++ [⟨C, .inform result⟩]) =
          some (s, h) →
        ∀ a ∈ proposers ds, (answered h).count a = 1 := by
  intro hall
  have hrun : play Initiator.step (.new ℕ) (⟨.first, .request [0, 1, 2, 3]⟩ :: failedRun ++
      [⟨.first, .inform ⟨"45"⟩⟩]) =
      some (⟨0, none, [], [], 3⟩, [.callForProposal [0, 1, 2, 3], .replyBy,
        .acceptProposal ⟨1, 1, "5", 9, 1⟩, .waiting 1 9, .acceptProposal ⟨3, 3, "8", 9, 1⟩,
        .waiting 3 9, .rejectProposal [], .success ⟨"45"⟩]) := by rfl
  have hround : ∀ d ∈ failedRun, d.InRound := by simp [failedRun, Delivery.InRound]
  have htwo := hall .first .first [0, 1, 2, 3] ⟨"45"⟩ failedRun _ _ hround (by decide) hrun 2
    (by decide)
  exact absurd htwo (by decide)

end Balance

end Siebog.Interaction
