import NeroConsensus.Primary.Turns

/-!
# Votes backed by a quorum

A vote of round `r + 1` is `Backed` when its proof names a quorum of stored votes of
round `r` and `make_decision` on them yields the vote.  Two quorums intersect, so this
is what the safety of a protocol of this kind usually rests on.

The node gives it only in part.  A vote it casts has a quorum for a proof, but it is
the decision on the running tally; a vote it accepts is the decision on the votes it
names, but nobody counts them.  `backed_iff` says that nothing else is missing, and
`backed_of_reachable` that runs in which neither happens have all their votes backed.
The empty proof is the extreme case: it "justifies" an initial vote for `One`
(`exists_validated_not_backed`).
-/

namespace NeroConsensus
namespace Core

variable {P : Params}

/-- The proof of `v` names a quorum of stored votes, and the decision on them is `v`. -/
def Backed (P : Params) (c : Core) (h : BlockHash) (r : Round) (v : PrimaryVote) : Prop :=
  ∃ p, v.proof = some p ∧ P.quorum ≤ p.card ∧ p ⊆ c.keys h r ∧
    ∀ draw, c.makeDecision P draw (Tally.fromVotes (c.named h r p)) = v.decision

/-- A vote that has a proof has one with a quorum of hashes. -/
def CarriesQuorum (P : Params) (v : PrimaryVote) : Prop :=
  v.round ≠ 0 → ∀ p ∈ v.proof, P.quorum ≤ p.card

instance (v : PrimaryVote) : Decidable (CarriesQuorum P v) :=
  inferInstanceAs (Decidable (_ → ∀ p ∈ v.proof, P.quorum ≤ p.card))

/-- A vote that the node has cast names a quorum. -/
theorem Sound.carriesQuorum {c : Core} (hs : Sound P c) {v : PrimaryVote} (hv : v ∈ c.casts) :
    CarriesQuorum P v := by
  intro hne p hp
  obtain ⟨r, hround⟩ := Nat.exists_eq_succ_of_ne_zero hne
  exact (hs.casts_of_proof hv hround hp).quorum

/-- **What a vote lacks to be backed.**  A cast vote must not rest on miscounted votes,
and an accepted vote must name a quorum. -/
theorem backed_iff {c : Core} (hs : Sound P c) {h : BlockHash} {r : Round} {v : PrimaryVote}
    (hv : v ∈ c.votes h (r + 1)) :
    Backed P c h r v ↔
      if v ∈ c.casts then
        ∀ p, v.proof = some p → ¬Miscounted P (Tally.fromVotes (c.named h r p))
      else ∀ p, v.proof = some p → P.quorum ≤ p.card := by
  obtain ⟨hround, hh⟩ := hs.place_of_mem_votes hv
  split_ifs with hcast
  · obtain ⟨p, hp⟩ := hs.casts v hcast r hround
    have hdecision := hp.decision
    have hstored := hp.stored
    rw [hh] at hdecision hstored
    constructor
    · rintro ⟨q, hq, -, -, hd⟩ q' hq'
      have hqq' : q = q' := Option.some.inj (hq.symm.trans hq')
      have hd' := hd (true, true)
      rw [hqq', makeDecision_of_honest hs.byzantine] at hd'
      have hcasts := (hs.casts_of_proof hcast hround hq').decision
      rw [hh] at hcasts
      rw [← decisionRule_running_iff, hcasts, hd']
    · intro hexact
      refine ⟨p, hp.proof, hp.quorum, hstored, fun draw => ?_⟩
      rw [makeDecision_of_honest hs.byzantine, ← hdecision]
      exact (decisionRule_running_iff.mpr (hexact p hp.proof)).symm
  · rcases hs.votes h r v hv with hcast' | ⟨p, hp⟩
    · exact absurd hcast' hcast
    · have hdecision := hp.decision
      have hstored := hp.stored
      rw [hh] at hdecision hstored
      constructor
      · rintro ⟨q, hq, hquorum, -, -⟩ q' hq'
        rw [Option.some.inj (hq'.symm.trans hq)]
        exact hquorum
      · intro hquorum
        refine ⟨p, hp.proof, hquorum p hp.proof, hstored, fun draw => ?_⟩
        rw [makeDecision_of_honest hs.byzantine, hdecision]

/-- The stored votes carry a quorum, if all those that are handled do. -/
theorem carriesQuorum_of_reachable (hdigest : Function.Injective P.sha512)
    {ok : Core → PrimaryVote → Prop} (hok : ∀ c v, ok c v → CarriesQuorum P v)
    {id : PublicKey} {addresses : List (PublicKey × SocketAddr)} {c : Core}
    (hreach : (filtered P ok).Reachable (spawn id addresses false) c) :
    ∀ h r, ∀ v ∈ c.votes h r, CarriesQuorum P v := by
  refine hreach.invariant (P := fun s => ∀ h r, ∀ v ∈ s.votes h r, CarriesQuorum P v) ?_ ?_
  · intro h r v hv
    rw [votes_spawn] at hv
    exact absurd hv (Finset.notMem_empty v)
  · intro s event hr hinv hguard h r v hv
    have hsound := sound_of_reachable hdigest (reachable_of_filtered hr)
    have hstep := machine_next hguard.1
    rcases mem_votes_step hsound.noPending hstep hv with hold | hcast | ⟨draws, rfl, -, -⟩
    · exact hinv h r v hold
    · exact (step_sound hdigest hstep hsound).1.carriesQuorum hcast
    · exact hok s v (hguard.2 v rfl)

/-- **Every validated vote is backed by a quorum**, in a run in which the handled votes
carry a quorum and no call miscasts. -/
theorem backed_of_reachable (hdigest : Function.Injective P.sha512) {id : PublicKey}
    {addresses : List (PublicKey × SocketAddr)} {c : Core}
    (hreach : (filtered P fun c v => CarriesQuorum P v ∧ ¬c.Miscasts P v).Reachable
      (spawn id addresses false) c)
    {h : BlockHash} {r : Round} {v : PrimaryVote} (hv : v ∈ c.votes h (r + 1)) :
    Backed P c h r v := by
  have hs := sound_of_reachable hdigest (reachable_of_filtered hreach)
  obtain ⟨hround, hh⟩ := hs.place_of_mem_votes hv
  have hexact := exact_of_reachable hdigest (fun _ _ hok => hok.2) hreach h
  rw [backed_iff hs hv]
  split_ifs with hcast
  · exact hexact v hcast hh r hround
  · refine carriesQuorum_of_reachable hdigest (fun _ _ hok => hok.1) hreach h _ v hv ?_
    rw [hround]
    exact Nat.succ_ne_zero r

/-! ## Runs -/

/-- The votes of round 0 of the others, and their `Commit`s. -/
def backedRun : List Event :=
  [.transaction ⟨block.digest⟩ false,
    .vote (firstBallot 2 .zero) (Draws.of false),
    .vote (firstBallot 3 .zero) (Draws.of false),
    .vote (ballot 2 1 .zero .commit [1, 2, 3]) (Draws.of false)]

theorem backed_backedRun :
    Backed Params.source ((machine Params.source).run (spawn (authority 1) [] false) backedRun)
      block 0 (ballot 2 1 .zero .commit [1, 2, 3]) := by
  refine backed_of_reachable Params.source_injective
    (GuardedMachine.reachable_run (M := filtered Params.source _) backedRun ?_) ?_
  · decide +kernel
  · decide +kernel

/-- An initial vote for `One` with an empty proof is accepted. -/
theorem exists_validated_not_backed :
    ∃ c, (machine Params.source).Reachable (spawn (authority 1) [] false) c ∧
      ∃ h r v, v ∈ c.votes h (r + 1) ∧ ¬Backed Params.source c h r v := by
  refine ⟨_, GuardedMachine.reachable_run [.transaction ⟨block.digest⟩ false,
    .vote (ballot 2 1 .one .initialVote []) (Draws.of false)] (by decide +kernel),
    block, 0, ballot 2 1 .one .initialVote [], by decide +kernel, ?_⟩
  rintro ⟨p, hp, hquorum, -⟩
  rw [← Option.some.inj hp] at hquorum
  exact absurd hquorum (by decide)

end Core
end NeroConsensus
