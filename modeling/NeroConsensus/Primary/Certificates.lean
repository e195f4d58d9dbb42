import NeroConsensus.Primary.TallyExactness
import NeroConsensus.Primary.Turns

/-!
# The certificate of a decision

A `Commit` may rest on a single earlier `Commit`, and a `Decide` on a single earlier
`Decide`, so the vote that decides an election need not show why.  The votes it goes
back to do: every `Decide` has a quorum of `Commit`s somewhere before it, and every
`Commit` a quorum of initial votes.

That is a fact about votes of which each is the decision on votes of the round before.
`Grounded` says that of a family of votes, one set a round, and asks nothing about who
signed them or how many there are: `Grounded.exists_locked` and `Grounded.exists_commits`
are inductions on the round.

A node that is not Byzantine has such a family in its own state, whatever votes it was
given (`Sound.grounded`).  So what it has decided is `Certified` there
(`certified_of_decided`).
-/

namespace NeroConsensus

variable {P : Params}

/-- Every vote is the decision on a tally of votes of the round before, in which no vote
is counted twice. -/
structure Grounded (P : Params) (votes : ℕ → Finset PrimaryVote) : Prop where
  initial : ∀ v ∈ votes 0, v.voteType = .initialVote
  tally : ∀ r, ∀ v ∈ votes (r + 1), ∃ W ⊆ votes r, ∃ tally : Tally,
    decisionRule P tally = v.decision ∧
      ∀ ty b, tally.counter ty b ≤ (Tally.fromVotes W).counter ty b

namespace Grounded

variable {votes : ℕ → Finset PrimaryVote} (hg : Grounded P votes)

include hg

/-- **A `Commit` or a `Decide` presupposes a quorum of initial votes for its value**, in an
earlier round. -/
theorem exists_locked : ∀ {r : ℕ} {v : PrimaryVote}, v ∈ votes r → v.voteType ≠ .initialVote →
    ∃ q < r, P.quorum ≤ (votesOf (votes q) .initialVote v.value).card := by
  intro r
  induction r with
  | zero => exact fun hv htype => absurd (hg.initial _ hv) htype
  | succ r ih =>
    intro v hv htype
    obtain ⟨W, hW, tally, hd, hle⟩ := hg.tally r v hv
    -- an earlier vote of the same kind has its quorum one round earlier still
    have hearlier : ∀ ty, ty ≠ VoteType.initialVote → 0 < tally.counter ty v.value →
        ∃ q < r + 1, P.quorum ≤ (votesOf (votes q) .initialVote v.value).card := by
      intro ty hty hpos
      obtain ⟨w, hw, hwtype, hwvalue⟩ :=
        exists_of_counter_pos (Nat.lt_of_lt_of_le hpos (hle ty v.value))
      obtain ⟨q, hq, hlock⟩ := ih (hW hw) (by rw [hwtype]; exact hty)
      rw [hwvalue] at hlock
      exact ⟨q, Nat.lt_succ_of_lt hq, hlock⟩
    cases hkind : v.voteType with
    | initialVote => exact absurd hkind htype
    | commit =>
      rw [PrimaryVote.decision_of_voteType hkind] at hd
      rcases counter_pos_of_commit hd with hquorum | hpos
      · exact ⟨r, Nat.lt_succ_self r,
          le_card_votesOf hW (hquorum.trans (hle .initialVote v.value))⟩
      · exact hearlier .commit VoteType.noConfusion hpos
    | decide =>
      rw [PrimaryVote.decision_of_voteType hkind] at hd
      rcases counter_pos_of_decide hd with hpos | hquorum
      · exact hearlier .decide VoteType.noConfusion hpos
      · exact hearlier .commit VoteType.noConfusion (P.quorum_pos.trans_le hquorum)

/-- **A `Decide` presupposes a quorum of `Commit`s for its value**, in an earlier round. -/
theorem exists_commits : ∀ {r : ℕ} {v : PrimaryVote}, v ∈ votes r → v.voteType = .decide →
    ∃ q < r, P.quorum ≤ (votesOf (votes q) .commit v.value).card := by
  intro r
  induction r with
  | zero =>
    intro v hv htype
    rw [hg.initial v hv] at htype
    cases htype
  | succ r ih =>
    intro v hv htype
    obtain ⟨W, hW, tally, hd, hle⟩ := hg.tally r v hv
    rw [PrimaryVote.decision_of_voteType htype] at hd
    rcases counter_pos_of_decide hd with hpos | hquorum
    · obtain ⟨w, hw, hwtype, hwvalue⟩ :=
        exists_of_counter_pos (Nat.lt_of_lt_of_le hpos (hle .decide v.value))
      obtain ⟨q, hq, hcommits⟩ := ih (hW hw) hwtype
      rw [hwvalue] at hcommits
      exact ⟨q, Nat.lt_succ_of_lt hq, hcommits⟩
    · exact ⟨r, Nat.lt_succ_self r, le_card_votesOf hW (hquorum.trans (hle .commit v.value))⟩

/-- Behind a `Decide` there is a quorum of `Commit`s, and a quorum of initial votes behind
these. -/
theorem exists_certificate {r : ℕ} {v : PrimaryVote} (hv : v ∈ votes r)
    (htype : v.voteType = .decide) : ∃ q, ∃ p < q,
      P.quorum ≤ (votesOf (votes q) .commit v.value).card ∧
      P.quorum ≤ (votesOf (votes p) .initialVote v.value).card := by
  obtain ⟨q, -, hcommits⟩ := hg.exists_commits hv htype
  obtain ⟨w, hw⟩ := Finset.card_pos.mp (P.quorum_pos.trans_le hcommits)
  obtain ⟨hwq, hwtype, hwvalue⟩ := mem_votesOf.mp hw
  obtain ⟨p, hp, hinitial⟩ := hg.exists_locked hwq (by rw [hwtype]; exact VoteType.noConfusion)
  rw [hwvalue] at hinitial
  exact ⟨q, p, hp, hcommits, hinitial⟩

end Grounded

namespace Core

/-- The votes that a node holds of an election are grounded. -/
theorem Sound.grounded {c : Core} (hs : Sound P c) (h : BlockHash) :
    Grounded P fun r => c.votes h r where
  initial v hv := hs.initial h _ v (hs.mem_votes_iff.mp hv)
  tally r v hv := by
    obtain ⟨hround, hh⟩ := hs.place_of_mem_votes hv
    rcases hs.votes h r v hv with hcast | ⟨p, hp⟩
    · -- the node has cast the vote itself, on its running tally
      obtain ⟨p, hp⟩ := hs.casts v hcast r hround
      have hdecision := hp.decision
      rw [hh] at hdecision
      exact ⟨_, named_subset_votes c h r p, _, hdecision, Tally.counter_running_le _⟩
    · have hdecision := hp.decision
      rw [hh] at hdecision
      exact ⟨_, named_subset_votes c h r p, _, hdecision, fun _ _ => le_rfl⟩

/-- In one round there are as many signers as votes. -/
theorem Filed.card_image_signer {c : Core} (hf : Filed P c) {h : BlockHash} {r : Round}
    {W : Finset PrimaryVote} (hW : W ⊆ c.votes h r) :
    (W.image PrimaryVote.signer).card = W.card :=
  Finset.card_image_of_injOn fun _ hv _ hw => hf.signer_injective (hW hv) (hW hw)

/-- The certificate of a decision for `b`: a quorum of signers of `Commit`s in one round,
and a quorum of signers of initial votes in a round before. -/
def Certified (P : Params) (c : Core) (h : BlockHash) (b : Value) : Prop :=
  ∃ q, ∃ p < q,
    P.quorum ≤ ((votesOf (c.votes h q) .commit b).image PrimaryVote.signer).card ∧
    P.quorum ≤ ((votesOf (c.votes h p) .initialVote b).image PrimaryVote.signer).card

/-- **Every decision carries its certificate**, in every state that a node with
`byzantine = false` reaches, whatever it is given. -/
theorem certified_of_decided (hdigest : Function.Injective P.sha512) {id : PublicKey}
    {addresses : List (PublicKey × SocketAddr)} {c : Core}
    (hreach : (machine P).Reachable (spawn id addresses false) c) {h : BlockHash} {b : Value}
    (hb : c.decided.lookup h = some b) : Certified P c h b := by
  have hs := sound_of_reachable hdigest hreach
  obtain ⟨v, hv, hh, htype, rfl⟩ := (hs.decided h b).mp hb
  have hstored := hs.stored v hv
  rw [hh] at hstored
  obtain ⟨q, p, hp, hcommits, hinitial⟩ :=
    (hs.grounded h).exists_certificate (mem_votes.mpr ⟨_, hstored⟩) htype
  refine ⟨q, p, hp, ?_, ?_⟩
  · rw [hs.card_image_signer (votesOf_subset _ _ _)]
    exact hcommits
  · rw [hs.card_image_signer (votesOf_subset _ _ _)]
    exact hinitial

theorem certified_of_decided_unanimousRun :
    Certified Params.source
      ((machine Params.source).run (spawn (authority 1) [] false) unanimousRun) block .zero :=
  certified_of_decided Params.source_injective
    (GuardedMachine.reachable_run _ (by decide +kernel)) (by decide +kernel)

end Core
end NeroConsensus
