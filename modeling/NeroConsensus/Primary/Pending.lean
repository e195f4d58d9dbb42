import NeroConsensus.Primary.Growth
import NeroConsensus.Primary.Validation

/-!
# Pending votes

A vote whose proof names votes that are not there yet is to wait in `unvalidated_votes`, and to
be promoted by the vote that completes its proof.  Neither half of this works.

* **Noting.**  `Core.noted c v` is the node with the pending vote `v` noted, and the
  hashes that are missing next to it.  `handle_vote` notes the vote on a clone that it does
  not write back (`not_kept_of_pending`).
* **Promoting.**  In a node that has pending votes all the same, where they should be
  (`Tracked`), `validate_pending_votes` goes through the pending votes of the round of the
  new vote, and the votes that wait for it are those of the round after.  Those are not
  looked at (`unvalidatedVotes_handleVote`), so the property holds exactly where there is
  nothing to promote (`promoted_iff`).
-/

namespace NeroConsensus
namespace Core

variable {P : Params}

/-! ## Noting a vote -/

/-- The hashes of the proof of `v` that are not there. -/
def missing (c : Core) (v : PrimaryVote) : Finset VoteHash :=
  v.proof.getD ∅ \ c.keys v.electionHash (v.round - 1)

/-- The node with `v` as a pending vote. -/
def noted (c : Core) (v : PrimaryVote) : Core :=
  let rs := c.roundState v.electionHash v.round
  c.insertElection v.electionHash ((c.election v.electionHash).insertRound v.round
    { rs with unvalidatedVotes := rs.unvalidatedVotes.insert v (c.missing v) })

/-- In `c'` the vote `v` has been added to the pending votes of `c`, and the elections and
decisions are otherwise those of `c`. -/
structure Kept (c c' : Core) (v : PrimaryVote) : Prop where
  elections : c'.elections = (c.noted v).elections
  decided : c'.decided = c.decided

theorem roundState_noted (c : Core) (v : PrimaryVote) (h : BlockHash) (r : Round) :
    (c.noted v).roundState h r =
      if h = v.electionHash ∧ r = v.round then
        { c.roundState h r with
          unvalidatedVotes := (c.roundState h r).unvalidatedVotes.insert v (c.missing v) }
      else c.roundState h r := by
  by_cases hh : h = v.electionHash
  · subst hh
    unfold noted
    rw [roundState, election_insertElection_self]
    by_cases hr : r = v.round
    · subst hr
      rw [Election.roundState_insertRound_self, if_pos ⟨rfl, rfl⟩]
    · rw [Election.roundState_insertRound_of_ne _ _ _ hr, if_neg (fun hc => hr hc.2)]
      rfl
  · rw [if_neg (fun hc => hh hc.1), noted, roundState, election_insertElection_of_ne _ _ hh]
    rfl

theorem keys_noted (c : Core) (v : PrimaryVote) (h : BlockHash) (r : Round) :
    (c.noted v).keys h r = c.keys h r := by
  rw [keys, roundState_noted]
  split_ifs <;> rfl

/-- A node that keeps a vote has it pending. -/
theorem Kept.mem_unvalidatedVotes {c c' : Core} {v : PrimaryVote} (hkept : Kept c c' v) :
    v ∈ (c'.roundState v.electionHash v.round).unvalidatedVotes := by
  have hround : c'.roundState v.electionHash v.round =
      (c.noted v).roundState v.electionHash v.round := by
    rw [roundState, election, hkept.elections]
    rfl
  rw [hround, roundState_noted, if_pos ⟨rfl, rfl⟩]
  exact Finmap.mem_insert.mpr (Or.inl rfl)

/-- A pending verdict makes a call note the vote as sent, and do nothing else. -/
theorem handleVote_eq_relay_of_pending {c : Core} {v : PrimaryVote} {draws : Draws}
    (hverdict : c.validateVote P draws.validate v = some .pending) :
    c.handleVote P draws v = some (c.relay v) := by
  by_cases hmem : v.voteHash P ∈ (c.roundState v.electionHash v.round).validatedVotes
  · exact handleVote_of_mem hmem
  · exact handleVote_of_pending hmem hverdict

/-- **A pending vote is not kept**, in no reachable state. -/
theorem not_kept_of_pending {c : Core} (hreach : Reached P c) {v : PrimaryVote} {draws : Draws}
    (hverdict : c.validateVote P draws.validate v = some .pending) :
    ∃ c', c.handleVote P draws v = some c' ∧ ¬Kept c c' v := by
  refine ⟨c.relay v, handleVote_eq_relay_of_pending hverdict, fun hkept => ?_⟩
  have hmem := hkept.mem_unvalidatedVotes
  have hnone : ((c.relay v).roundState v.electionHash v.round).unvalidatedVotes = ∅ :=
    hreach.noPending v.electionHash v.round
  rw [hnone] at hmem
  exact Finmap.notMem_empty hmem

/-- A vote of round 1, of which the node misses two of the votes it names. -/
def early : PrimaryVote := ballot 4 1 .zero .commit [1, 2, 3]

theorem not_kept_of_pending_early :
    ∃ c', starter.handleVote Params.source (Draws.of false) early = some c' ∧
      ¬Kept starter c' early :=
  not_kept_of_pending ⟨_, _, _, GuardedMachine.reachable_run _ (by decide +kernel)⟩
    (by decide +kernel)

/-- A reachable node judges a vote pending and has lost it when the call returns. -/
theorem exists_pending_lost :
    ∃ c v draws, Reached Params.source c ∧
      c.validateVote Params.source draws.validate v = some .pending ∧
      ∃ c', c.handleVote Params.source draws v = some c' ∧
        v ∉ (c'.roundState v.electionHash v.round).unvalidatedVotes :=
  ⟨starter, early, Draws.of false,
    ⟨_, _, _, GuardedMachine.reachable_run _ (by decide +kernel)⟩, by decide +kernel,
    starter.relay early, handleVote_eq_relay_of_pending (by decide +kernel), by decide +kernel⟩

/-! ## Promoting a vote -/

/-- `v` is a pending vote of its own election and round. -/
def IsPending (c : Core) (v : PrimaryVote) : Prop :=
  v ∈ (c.roundState v.electionHash v.round).unvalidatedVotes

/-- Every pending vote is stored in its own election and round, next to the hashes of its proof
that are not there. -/
def Tracked (c : Core) : Prop :=
  ∀ h r v s, (c.roundState h r).unvalidatedVotes.lookup v = some s →
    v.electionHash = h ∧ v.round = r ∧ r ≠ 0 ∧ v.proof.isSome = true ∧ s = c.missing v

/-- All the votes `v` names are there, and `make_decision` on them yields `v`. -/
def Complete (P : Params) (draws : Draws) (c : Core) (v : PrimaryVote) : Prop :=
  ∃ p, v.proof = some p ∧ p ⊆ c.keys v.electionHash (v.round - 1) ∧
    c.makeDecision P (draws.pending v)
      (Tally.fromVotes (c.named v.electionHash (v.round - 1) p)) = v.decision

/-- The pending votes of `c` that the vote `u` unlocks, where `c'` is the node after it: those of
the next round that are complete, and in turn those that wait for one of them. -/
inductive Due (P : Params) (draws : Draws) (c c' : Core) (u : PrimaryVote) : PrimaryVote → Prop
  | first {v : PrimaryVote} (hpending : c.IsPending v) (helection : v.electionHash = u.electionHash)
      (hround : v.round = u.round + 1) (hcomplete : Complete P draws c' v) : Due P draws c c' u v
  | next {v w : PrimaryVote} (hv : Due P draws c c' u v) (hpending : c.IsPending w)
      (helection : w.electionHash = v.electionHash) (hround : w.round = v.round + 1)
      (hwaits : v.voteHash P ∈ c.missing w) (hcomplete : Complete P draws c' w) :
      Due P draws c c' u w

/-- In `c'` the vote `v` has moved from the pending to the validated votes, and the votes of its
kind that are new in its round have been counted once each. -/
structure Promoted (P : Params) (c c' : Core) (v : PrimaryVote) : Prop where
  stored : c'.validated v.electionHash v.round (v.voteHash P) = some v
  counted : (c'.roundState v.electionHash v.round).tally.counter v.voteType v.value =
    (c.roundState v.electionHash v.round).tally.counter v.voteType v.value +
      ((c'.votes v.electionHash v.round \ c.votes v.electionHash v.round).filter
        fun w => w.decision = v.decision).card
  settled : ¬c'.IsPending v

/-! ### The loop over the pending votes -/

section Loop

variable {c c₁ : Core} {rs rs₁ : RoundState} {draws : Draws} {u : PrimaryVote}
  {unvalidated : Finmap fun _ : PrimaryVote => Finset VoteHash} {h : BlockHash}

/-- What the loop leaves alone: everything but one election of the node, and everything but the
pending votes of the round state. -/
structure LoopFrame (h : BlockHash) (s s₁ : Core × RoundState) : Prop where
  node : ∀ e, s₁.1.insertElection h e = s.1.insertElection h e
  round : { s₁.2 with unvalidatedVotes := ∅ } = { s.2 with unvalidatedVotes := ∅ }

namespace LoopFrame

theorem refl (s : Core × RoundState) : LoopFrame h s s :=
  ⟨fun _ => rfl, rfl⟩

variable {s s₁ s₂ : Core × RoundState}

theorem trans (hs : LoopFrame h s s₁) (hs₁ : LoopFrame h s₁ s₂) : LoopFrame h s s₂ :=
  ⟨fun e => (hs₁.node e).trans (hs.node e), hs₁.round.trans hs.round⟩

theorem id (hs : LoopFrame h s s₁) : s₁.1.id = s.1.id := by
  have heq := congrArg Core.id (hs.node (Election.new h))
  exact heq

theorem byzantine (hs : LoopFrame h s s₁) : s₁.1.byzantine = s.1.byzantine := by
  have heq := congrArg Core.byzantine (hs.node (Election.new h))
  exact heq

theorem validatedVotes (hs : LoopFrame h s s₁) :
    s₁.2.validatedVotes = s.2.validatedVotes := by
  have heq := congrArg RoundState.validatedVotes hs.round
  exact heq

theorem voted (hs : LoopFrame h s s₁) : s₁.2.voted = s.2.voted := by
  have heq := congrArg RoundState.voted hs.round
  exact heq

end LoopFrame

/-- One turn of the loop, on pending votes of one election. -/
theorem loopFrame_validatePendingVote (hh : ∀ v ∈ unvalidated, v.electionHash = h)
    {s s₁ : Core × RoundState} {v : PrimaryVote}
    (hturn : validatePendingVote P draws u unvalidated s v = some s₁) : LoopFrame h s s₁ := by
  unfold validatePendingVote at hturn
  cases hlookup : unvalidated.lookup v with
  | none =>
    rw [hlookup] at hturn
    rw [← Option.some.inj hturn]
    exact LoopFrame.refl s
  | some vs =>
    rw [hlookup] at hturn
    have hv := hh v (Finmap.mem_of_lookup hlookup)
    by_cases hwaits : u.voteHash P ∈ vs
    · simp only [if_pos hwaits] at hturn
      obtain ⟨hp, -, hturn⟩ := Option.bind_eq_some_iff.mp hturn
      split_ifs at hturn
      · obtain ⟨status, -, hturn⟩ := Option.bind_eq_some_iff.mp hturn
        split_ifs at hturn
        · obtain ⟨election, -, hturn⟩ := Option.bind_eq_some_iff.mp hturn
          obtain ⟨rs, -, hturn⟩ := Option.bind_eq_some_iff.mp hturn
          -- the vote is promoted in the one election all the pending votes are of
          rw [← Option.some.inj hturn, hv]
          exact ⟨fun e => insertElection_insertElection _ _ _ _, rfl⟩
        · rw [← Option.some.inj hturn]
          exact ⟨fun _ => rfl, rfl⟩
      · rw [← Option.some.inj hturn]
        exact ⟨fun _ => rfl, rfl⟩
    · simp only [if_neg hwaits] at hturn
      rw [← Option.some.inj hturn]
      exact LoopFrame.refl s

theorem loopFrame_validatePendingVotes
    (hh : ∀ v ∈ rs.unvalidatedVotes, v.electionHash = h)
    (hloop : c.validatePendingVotes P draws u rs = some (c₁, rs₁)) :
    LoopFrame h (c, rs) (c₁, rs₁) := by
  have hrun : ∀ (vs : List PrimaryVote) (s s₁ : Core × RoundState),
      vs.foldlM (validatePendingVote P draws u rs.unvalidatedVotes) s = some s₁ →
        LoopFrame h s s₁ := by
    intro vs
    induction vs with
    | nil =>
      intro s s₁ hrun
      rw [← Option.some.inj hrun]
      exact LoopFrame.refl s
    | cons v vs ih =>
      intro s s₁ hrun
      rw [List.foldlM_cons] at hrun
      obtain ⟨s₂, hturn, hrest⟩ := Option.bind_eq_some_iff.mp hrun
      exact (loopFrame_validatePendingVote hh hturn).trans (ih s₂ s₁ hrest)
  exact hrun _ _ _ hloop

end Loop

/-! ### The call -/

section Call

variable {c c' : Core} {draws : Draws} {u : PrimaryVote}

/-- Casting the next vote leaves the other rounds alone, and the pending votes of its own. -/
theorem castNextVote_frame (c : Core) (e : Election) (rs : RoundState) (h : BlockHash)
    (n : Round) :
    (∀ r, r ≠ n → (c.castNextVote P draws e rs h n).2.roundState h r = e.roundState h r) ∧
      ((c.castNextVote P draws e rs h n).2.roundState h n).unvalidatedVotes =
        (e.roundState h n).unvalidatedVotes ∧
      (c.castNextVote P draws e rs h n).1.byzantine = c.byzantine := by
  unfold castNextVote
  dsimp only
  split_ifs with hcast hdecide
  · rw [castVote_eq _ _ _ (by rfl)]
    refine ⟨fun r hr => Election.roundState_insertRound_of_ne _ _ _ hr, ?_, rfl⟩
    rw [Election.roundState_insertRound_self, unvalidatedVotes_receive]
  · rw [castVote_eq _ _ _ (by rfl)]
    refine ⟨fun r hr => Election.roundState_insertRound_of_ne _ _ _ hr, ?_, rfl⟩
    rw [Election.roundState_insertRound_self, unvalidatedVotes_receive]
  · exact ⟨fun _ _ => rfl, rfl, rfl⟩

/-- The round state `castVote` leaves, as far as the votes go. -/
theorem validatedVotes_castVote (c : Core) (rs : RoundState) {own : PrimaryVote}
    (hown : own.signer = c.id) :
    (c.castVote P rs own).2.validatedVotes = rs.validatedVotes.insert (own.voteHash P) own := by
  rw [castVote_eq c rs own hown, validatedVotes_receive]

/-- The loop works on the pending votes of the round of the new vote. -/
theorem Tracked.loopFrame (ht : Tracked c) {c₁ : Core} {rs₁ : RoundState}
    (hloop : (c.relay u).validatePendingVotes P draws u
      ((c.roundState u.electionHash u.round).receive P c.id u) = some (c₁, rs₁)) :
    LoopFrame u.electionHash
      (c.relay u, (c.roundState u.electionHash u.round).receive P c.id u) (c₁, rs₁) := by
  refine loopFrame_validatePendingVotes (fun v hv => ?_) hloop
  obtain ⟨s, hs⟩ := Finmap.mem_iff.mp hv
  have hlookup : ((c.roundState u.electionHash u.round).receive P c.id
      u).unvalidatedVotes.lookup v = some s := hs
  rw [unvalidatedVotes_receive] at hlookup
  exact (ht _ _ _ _ hlookup).1

/-- The votes after the own vote of round 0, where it is due, are those of a node without the
loop. -/
theorem LoopFrame.validatedVotes_first {c₁ : Core} {rs₁ : RoundState}
    (hframe : LoopFrame u.electionHash
      (c.relay u, (c.roundState u.electionHash u.round).receive P c.id u) (c₁, rs₁)) :
    (if rs₁.voted = false ∧ u.round = 0 then
        c₁.castVote P rs₁ (PrimaryVote.random c₁.id u.electionHash draws.ownValue)
      else (c₁, rs₁)).2.validatedVotes =
      ((c.afterReceipt P draws u).roundState u.electionHash u.round).validatedVotes := by
  have hid : c₁.id = c.id := hframe.id
  have hvotes : rs₁.validatedVotes =
      ((c.roundState u.electionHash u.round).receive P c.id u).validatedVotes :=
    hframe.validatedVotes
  have hvoted : rs₁.voted = ((c.roundState u.electionHash u.round).receive P c.id u).voted :=
    hframe.voted
  have hrelay : (c.relay u).id = c.id := rfl
  rw [← @insertElection_receiveFirst P c u draws _ rfl,
    roundState, election_insertElection_self, Election.roundState_insertRound_self,
    receiveFirst, hvoted, hrelay]
  split_ifs with hfirst
  · rw [validatedVotes_castVote _ _ rfl, hid, hvotes]
    exact (validatedVotes_castVote (c.relay u) _ rfl).symm
  · exact hvotes

/-- **A valid vote in a node with pending votes.**  The round of the vote holds what it would
hold if nothing were pending, and the pending votes of the next round are those of before. -/
theorem handleVote_frame (ht : Tracked c)
    (hnew : u.voteHash P ∉ c.keys u.electionHash u.round)
    (hverdict : c.validateVote P draws.validate u = some .valid)
    (hstep : c.handleVote P draws u = some c') :
    (c'.roundState u.electionHash u.round).validatedVotes =
        ((c.afterReceipt P draws u).roundState u.electionHash u.round).validatedVotes ∧
      (c'.roundState u.electionHash (u.round + 1)).unvalidatedVotes =
        (c.roundState u.electionHash (u.round + 1)).unvalidatedVotes ∧
      c'.byzantine = c.byzantine := by
  set h := u.electionHash with hh
  rw [handleVote_of_notMem fun hc => hnew (Finmap.mem_keys.mpr hc), hverdict] at hstep
  obtain ⟨⟨c₃, e₃⟩, haccept, hc'⟩ := Option.map_eq_some_iff.mp hstep
  obtain ⟨⟨c₁, rs₁⟩, hloop, haccept⟩ := Option.bind_eq_some_iff.mp haccept
  obtain ⟨n, hn, haccept⟩ := Option.bind_eq_some_iff.mp haccept
  have hnext : n = u.round + 1 := by
    unfold Round.next at hn
    split_ifs at hn
    exact (Option.some.inj hn).symm
  subst hnext
  have hframe := ht.loopFrame hloop
  -- the state after the own vote of round 0
  set s := if rs₁.voted = false ∧ u.round = 0 then
    c₁.castVote P rs₁ (PrimaryVote.random c₁.id h draws.ownValue) else (c₁, rs₁) with hs
  have hsvotes : s.2.validatedVotes =
      ((c.afterReceipt P draws u).roundState h u.round).validatedVotes :=
    hframe.validatedVotes_first
  have hsbyz : s.1.byzantine = c.byzantine := by
    rw [hs]
    split_ifs
    · exact hframe.byzantine
    · exact hframe.byzantine
  have hcast : s.1.castNextVote P draws ((c.election h).insertRound u.round s.2) s.2 h
      (u.round + 1) = (c₃, e₃) := Option.some.inj haccept
  obtain ⟨hother, hpending, hcastbyz⟩ := @castNextVote_frame P draws s.1
    ((c.election h).insertRound u.round s.2) s.2 h (u.round + 1)
  rw [hcast] at hother hpending hcastbyz
  rw [← hc']
  refine ⟨?_, ?_, hcastbyz.trans hsbyz⟩
  · rw [roundState, election_insertElection_self, hother _ (Nat.ne_of_lt (Nat.lt_succ_self _)),
      Election.roundState_insertRound_self, hsvotes]
  · rw [roundState, election_insertElection_self, hpending,
      Election.roundState_insertRound_of_ne _ _ _ (Nat.succ_ne_self _), roundState]

theorem byzantine_afterReceipt (c : Core) (draws : Draws) (u : PrimaryVote) :
    (c.afterReceipt P draws u).byzantine = c.byzantine := by
  unfold afterReceipt castFirst
  dsimp only
  split_ifs <;> rfl

/-- Whether a vote is complete depends on the round before it. -/
theorem complete_congr {c₁ c₂ : Core} {v : PrimaryVote} (hbyz : c₁.byzantine = c₂.byzantine)
    (hvotes : (c₁.roundState v.electionHash (v.round - 1)).validatedVotes =
      (c₂.roundState v.electionHash (v.round - 1)).validatedVotes) :
    Complete P draws c₁ v ↔ Complete P draws c₂ v := by
  unfold Complete keys named makeDecision
  rw [hvotes, hbyz]

section Promotion

variable (ht : Tracked c) (hnew : u.voteHash P ∉ c.keys u.electionHash u.round)
  (hverdict : c.validateVote P draws.validate u = some .valid)
  (hstep : c.handleVote P draws u = some c')

include ht hnew hverdict hstep

/-- The votes that wait for the round of `u` are complete after the call if they are once `u` is
stored. -/
theorem complete_handleVote_iff {v : PrimaryVote} (helection : v.electionHash = u.electionHash)
    (hround : v.round = u.round + 1) :
    Complete P draws c' v ↔ Complete P draws (c.afterReceipt P draws u) v := by
  obtain ⟨hvotes, -, hbyz⟩ := handleVote_frame ht hnew hverdict hstep
  refine complete_congr (hbyz.trans (byzantine_afterReceipt c draws u).symm) ?_
  rw [helection, hround, Nat.add_sub_cancel]
  exact hvotes

/-- They are pending after the call if they were before. -/
theorem isPending_handleVote {v : PrimaryVote} (helection : v.electionHash = u.electionHash)
    (hround : v.round = u.round + 1) (hpending : c.IsPending v) : c'.IsPending v := by
  obtain ⟨-, hframe, -⟩ := handleVote_frame ht hnew hverdict hstep
  unfold IsPending at hpending ⊢
  rw [helection, hround] at hpending ⊢
  rw [hframe]
  exact hpending

/-- **When the pending votes are promoted.**  Every vote that `u` unlocks is promoted, if and
only if `u` unlocks none: no pending vote of the next round has its proof complete once `u` is
stored, and with it the first vote of the node where `u` calls for it. -/
theorem promoted_iff :
    (∀ v, Due P draws c c' u v → Promoted P c c' v) ↔
      ¬∃ v, c.IsPending v ∧ v.electionHash = u.electionHash ∧ v.round = u.round + 1 ∧
        Complete P draws (c.afterReceipt P draws u) v := by
  constructor
  · rintro hpromoted ⟨v, hpending, helection, hround, hcomplete⟩
    have hdue : Due P draws c c' u v := Due.first hpending helection hround
      ((complete_handleVote_iff ht hnew hverdict hstep helection hround).mpr hcomplete)
    exact (hpromoted v hdue).settled
      (isPending_handleVote ht hnew hverdict hstep helection hround hpending)
  · intro hnone v hdue
    exfalso
    induction hdue with
    | first hpending helection hround hcomplete =>
      exact hnone ⟨_, hpending, helection, hround,
        (complete_handleVote_iff ht hnew hverdict hstep helection hround).mp hcomplete⟩
    | next _ _ _ _ _ _ ih => exact ih

end Promotion

end Call

/-! ### A node with a pending vote -/

theorem tracked_of_noPending {c : Core} (hp : c.NoPending) : Tracked c := by
  intro h r v s hs
  rw [hp, Finmap.lookup_empty] at hs
  cases hs

/-- Noting a vote of a later round with a proof keeps the pending votes in their places. -/
theorem Tracked.noted {c : Core} (ht : Tracked c) {v : PrimaryVote} (hround : v.round ≠ 0)
    (hproof : v.proof.isSome = true) : Tracked (c.noted v) := by
  have hmissing : ∀ w, (c.noted v).missing w = c.missing w := by
    intro w
    rw [missing, keys_noted, missing]
  intro h r w s hs
  rw [hmissing]
  rw [roundState_noted] at hs
  split_ifs at hs with hplace
  · obtain ⟨rfl, rfl⟩ := hplace
    by_cases hw : w = v
    · subst hw
      rw [Finmap.lookup_insert] at hs
      exact ⟨rfl, rfl, hround, hproof, (Option.some.inj hs).symm⟩
    · rw [Finmap.lookup_insert_of_ne _ hw] at hs
      exact ht _ _ _ _ hs
  · exact ht _ _ _ _ hs

/-- A node that has two of the three votes that `early` names. -/
def listener : Core :=
  (machine Params.source).run (spawn (authority 1) [] false)
    [.transaction ⟨block.digest⟩ false, .vote (firstBallot 2 .zero) (Draws.of false)]

theorem reached_listener : Reached Params.source listener :=
  ⟨_, _, _, GuardedMachine.reachable_run _ (by decide +kernel)⟩

/-- The same node with `early` pending. -/
def waiting : Core := listener.noted early

theorem tracked_waiting : Tracked waiting := by
  have hround : early.round ≠ 0 := by decide
  have hproof : early.proof.isSome = true := rfl
  exact (tracked_of_noPending reached_listener.noPending).noted hround hproof

/-- The node once it has handled the third vote. -/
def waited : Core :=
  (waiting.handleVote Params.source (Draws.of false) (firstBallot 3 .zero)).getD waiting

theorem handleVote_waiting :
    waiting.handleVote Params.source (Draws.of false) (firstBallot 3 .zero) = some waited := by
  have hsome : (waiting.handleVote Params.source (Draws.of false)
      (firstBallot 3 .zero)).isSome = true := by decide +kernel
  obtain ⟨c', hc'⟩ := Option.isSome_iff_exists.mp hsome
  rw [waited, hc', Option.getD_some]

theorem promoted_iff_waiting :
    (∀ v, Due Params.source (Draws.of false) waiting waited (firstBallot 3 .zero) v →
        Promoted Params.source waiting waited v) ↔
      ¬∃ v, waiting.IsPending v ∧ v.electionHash = (firstBallot 3 .zero).electionHash ∧
        v.round = (firstBallot 3 .zero).round + 1 ∧
        Complete Params.source (Draws.of false)
          (waiting.afterReceipt Params.source (Draws.of false) (firstBallot 3 .zero)) v :=
  promoted_iff tracked_waiting (by decide +kernel) (by decide +kernel) handleVote_waiting

/-- **A vote that is complete stays pending**: the third vote is there, `early` is not
promoted. -/
theorem exists_not_promoted :
    ∃ c c' draws u v, Tracked c ∧ u.voteHash Params.source ∉ c.keys u.electionHash u.round ∧
      c.validateVote Params.source draws.validate u = some .valid ∧
      c.handleVote Params.source draws u = some c' ∧ Due Params.source draws c c' u v ∧
      ¬Promoted Params.source c c' v :=
  ⟨waiting, waited, Draws.of false, firstBallot 3 .zero, early, tracked_waiting,
    by decide +kernel, by decide +kernel, handleVote_waiting,
    Due.first (by unfold IsPending; decide +kernel) (by decide) (by decide)
      ⟨hashes [1, 2, 3], by decide +kernel, by decide +kernel, by decide +kernel⟩,
    fun hpromoted => hpromoted.settled (by unfold IsPending; decide +kernel)⟩

end Core
end NeroConsensus
