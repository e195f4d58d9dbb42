import NeroConsensus.Primary.NodeInvariants

/-!
# The vote store only grows

`handle_vote` clones an election, works on the clone and writes it back, so every turn
could undo what an earlier one did.  None does.  `Grows` lists what is kept: elections
and rounds stay, no counter of a tally goes down, a flag that is set stays set, and what
has been broadcast has been broadcast.
Every move makes a node grow (`Move.grows`); the digest has no part in this.

That an entry of `validated_votes` stays mapped to the same vote is in `Extends`, and
there the digest has: an own vote is inserted without a look at the key, and only the
`voted` flag says that it is free.  `grows_of_reachable` has both, for any two states of
a run, and that the first vote of a signer is the one that counts.
-/

namespace NeroConsensus

variable {P : Params}

/-- Tallying a vote takes nothing away. -/
theorem RoundState.counter_tallyVote_le (rs : RoundState) (v : PrimaryVote) (ty : VoteType)
    (b : Value) : rs.tally.counter ty b ≤ (rs.tallyVote v).tally.counter ty b := by
  unfold RoundState.tallyVote
  split_ifs <;> cases ty <;> cases b <;> simp [Tally.counter]

namespace Core

/-- Nothing that `c` has stored, counted or flagged is gone in `c'`. -/
structure Grows (c c' : Core) : Prop where
  elections : ∀ h ∈ c.elections, h ∈ c'.elections
  rounds : ∀ h, ∀ r ∈ (c.election h).state, r ∈ (c'.election h).state
  tally : ∀ h r ty b,
    (c.roundState h r).tally.counter ty b ≤ (c'.roundState h r).tally.counter ty b
  voted : ∀ h r, (c.roundState h r).voted = true → (c'.roundState h r).voted = true
  isDecided : ∀ h, (c.election h).isDecided = true → (c'.election h).isDecided = true
  casts : c.casts <+: c'.casts

theorem Grows.refl (c : Core) : Grows c c :=
  ⟨fun _ hh => hh, fun _ _ hr => hr, fun _ _ _ _ => le_rfl, fun _ _ hv => hv, fun _ hd => hd,
    List.prefix_rfl⟩

theorem Grows.trans {c₁ c₂ c₃ : Core} (h₁ : Grows c₁ c₂) (h₂ : Grows c₂ c₃) : Grows c₁ c₃ where
  elections h hh := h₂.elections h (h₁.elections h hh)
  rounds h r hr := h₂.rounds h r (h₁.rounds h r hr)
  tally h r ty b := (h₁.tally h r ty b).trans (h₂.tally h r ty b)
  voted h r hv := h₂.voted h r (h₁.voted h r hv)
  isDecided h hd := h₂.isDecided h (h₁.isDecided h hd)
  casts := h₁.casts.trans h₂.casts

/-- A node that records a vote grows. -/
theorem grows_record (c : Core) (v : PrimaryVote) : Grows c (c.record P v) where
  elections _ hh := mem_elections_insertElection.mpr (Or.inr hh)
  rounds _ _ hr := mem_state_record.mpr (Or.inr hr)
  tally h r ty b := by
    rw [roundState_record]
    split_ifs
    · rw [tally_receive]
      exact RoundState.counter_tallyVote_le _ v ty b
    · exact le_rfl
  voted h r hv := by
    rw [roundState_record]
    split_ifs
    · exact (voted_receive _ _ _).mpr (Or.inl hv)
    · exact hv
  isDecided h hd := by
    rw [isDecided_record]
    exact hd
  casts := List.prefix_rfl

theorem grows_cast (c : Core) (v : PrimaryVote) : Grows c (c.cast P v) where
  elections := (grows_record c v).elections
  rounds := (grows_record c v).rounds
  tally := (grows_record c v).tally
  voted := (grows_record c v).voted
  isDecided := (grows_record c v).isDecided
  casts := by
    rw [casts_cast]
    exact List.prefix_append _ _

/-- A node that decides grows. -/
theorem grows_conclude (c : Core) (v : PrimaryVote) : Grows c (c.conclude v) where
  elections _ hh := mem_elections_conclude.mpr (Or.inr hh)
  rounds h r hr := by
    rw [state_conclude]
    exact hr
  tally h r ty b := by rw [roundState_conclude]
  voted h r hv := by
    rw [roundState_conclude]
    exact hv
  isDecided _ hd := (isDecided_conclude _ _ _).mpr (Or.inl hd)
  casts := by rw [casts_conclude]

/-- **A node grows with every move.** -/
theorem Move.grows {c c' : Core} (hmove : Move P c c') : Grows c c' := by
  cases hmove with
  | relay v => exact ⟨fun _ hh => hh, fun _ _ hr => hr, fun _ _ _ _ => le_rfl, fun _ _ hv => hv,
      fun _ hd => hd, List.prefix_rfl⟩
  | accept v draw hnew hverdict => exact grows_record c v
  | castFirst h draw hvoted => exact grows_cast c _
  | castNext h r draw hready hmax => exact (grows_cast c _).trans (grows_conclude _ _)

theorem grows_of_moves {c c' : Core} (hmoves : Relation.ReflTransGen (Move P) c c') :
    Grows c c' :=
  invariant_of_moves (I := Grows c) hmoves (fun _ _ hmove hs => hs.trans hmove.grows)
    (Grows.refl c)

/-- A vote of a signer that has one in its round already changes nothing but
`sent_votes`. -/
theorem Filed.handleVote_of_signer {c : Core} (hf : Filed P c) {v w : PrimaryVote}
    (draws : Draws) (hw : w ∈ c.votes v.electionHash v.round) (hsigner : w.signer = v.signer) :
    c.handleVote P draws v = some { c with sentVotes := insert v c.sentVotes } := by
  have hlookup := hf.mem_votes_iff.mp hw
  rw [PrimaryVote.voteHash_eq, hsigner, ← PrimaryVote.voteHash_eq] at hlookup
  exact handleVote_of_mem (Finmap.mem_of_lookup hlookup)

/-- **The vote store is append-only, and the first vote of a signer wins.**  For every
reachable state and every state that a run reaches from it. -/
theorem grows_of_reachable (hdigest : Function.Injective P.sha512) {c c' : Core}
    (hreach : Reached P c) (hlater : (machine P).Reachable c c') :
    Grows c c' ∧
      (∀ h r k v, c.validated h r k = some v → c'.validated h r k = some v) ∧
      ∀ draws v w, w ∈ c.votes v.electionHash v.round → w.signer = v.signer →
        c.handleVote P draws v = some { c with sentVotes := insert v c.sentVotes } := by
  have hwf := hreach.wellFormed hdigest
  refine ⟨?_, (wellFormed_extends_of_reachable hdigest hlater hwf).2.validated, ?_⟩
  · refine hlater.rel_of_step Grows.refl (fun _ _ _ => Grows.trans) fun s event hs hguard => ?_
    exact grows_of_moves (moves_of_step
      (wellFormed_extends_of_reachable hdigest hs hwf).1.noPending (machine_next hguard))
  · exact fun draws v w hw hsigner => hwf.handleVote_of_signer draws hw hsigner

/-- A node that has started an election. -/
def starter : Core :=
  (machine Params.source).run (spawn (authority 1) [] false) [.transaction ⟨block.digest⟩ false]

/-- The same node, after an authority has sent it two different votes. -/
def twiceTold : Core :=
  (machine Params.source).run starter [.vote (firstBallot 2 .zero) (Draws.of false),
    .vote (firstBallot 2 .one) (Draws.of false)]

theorem grows_of_reachable_twiceTold :
    Grows starter twiceTold ∧
      (∀ h r k v, starter.validated h r k = some v → twiceTold.validated h r k = some v) ∧
      ∀ draws v w, w ∈ starter.votes v.electionHash v.round → w.signer = v.signer →
        starter.handleVote Params.source draws v =
          some { starter with sentVotes := insert v starter.sentVotes } :=
  grows_of_reachable Params.source_injective
    ⟨_, _, _, GuardedMachine.reachable_run _ (by decide +kernel)⟩
    (GuardedMachine.reachable_run _ (by decide +kernel))

end Core
end NeroConsensus
