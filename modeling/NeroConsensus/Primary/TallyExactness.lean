import NeroConsensus.Primary.NodeInvariants

/-!
# The running tally

A round state keeps its votes and a running count of them.  `Filed` has what the
count is in every reachable state: the tally of the votes with the `Decide`s for
`Zero` left out, because the last branch of `tally_vote`, which should count them,
repeats the condition of the branch before it.

So the count is exact (`TallyExact`) as long as no such vote is stored, and only then.
`tallyExact_iff` is about every reachable state, whatever votes led there and whether
or not the node is Byzantine.  `exists_reachable_not_tallyExact` is a run of one node
in which everybody votes for `Zero`: its own `Decide` is not counted.
-/

namespace NeroConsensus

namespace Tally

/-- Dropping the `Decide`s for `Zero` changes nothing where there are none. -/
theorem running_eq_self_iff {tally : Tally} : tally.running = tally ↔ tally.zeroDecides = 0 := by
  constructor
  · intro h
    rw [← h]
    rfl
  · intro h
    cases tally
    subst h
    rfl

theorem zeroDecides_eq_zero_iff {votes : Finset PrimaryVote} :
    (fromVotes votes).zeroDecides = 0 ↔
      ∀ v ∈ votes, ¬(v.voteType = .decide ∧ v.value = .zero) := by
  show (fromVotes votes).counter .decide .zero = 0 ↔ _
  rw [counter_fromVotes, Finset.card_eq_zero, votesOf, Finset.filter_eq_empty_iff]

/-- The sum of the six counters. -/
def total (tally : Tally) : ℕ :=
  tally.zeroVotes + tally.zeroCommits + tally.oneVotes + tally.oneCommits +
    tally.zeroDecides + tally.oneDecides

theorem total_running (tally : Tally) :
    tally.running.total + tally.zeroDecides = tally.total := by
  simp only [total, running]
  omega

end Tally

namespace Core

variable {P : Params}

/-- The tally of a round is the tally of its votes, and the counters add up to their
number. -/
def TallyExact (c : Core) (h : BlockHash) (r : Round) : Prop :=
  (c.roundState h r).tally = Tally.fromVotes (c.votes h r) ∧
    (c.roundState h r).tally.total = (c.keys h r).card

/-- How many votes the counters miss. -/
theorem Filed.total_tally {c : Core} (hf : Filed P c) (h : BlockHash) (r : Round) :
    (c.roundState h r).tally.total + (Tally.fromVotes (c.votes h r)).zeroDecides =
      (c.keys h r).card := by
  rw [hf.tally h r, Tally.total_running, ← hf.card_votes h r]
  exact Tally.counters_sum (c.votes h r)

/-- **The running tally is exact where no `Decide` for `Zero` is stored.**  Of every
state that a run reaches, for every election and round. -/
theorem tallyExact_iff (hdigest : Function.Injective P.sha512) {c : Core}
    (hreach : Reached P c) (h : BlockHash) (r : Round) :
    c.TallyExact h r ↔ ∀ v ∈ c.votes h r, ¬(v.voteType = .decide ∧ v.value = .zero) := by
  have hf := (hreach.wellFormed hdigest).toFiled
  have htotal := hf.total_tally h r
  rw [← Tally.zeroDecides_eq_zero_iff, TallyExact, hf.tally h r, Tally.running_eq_self_iff]
  rw [hf.tally h r] at htotal
  constructor
  · exact fun hexact => hexact.1
  · intro hzero
    refine ⟨hzero, ?_⟩
    rw [hzero] at htotal
    exact htotal

/-- Everybody starts with `Zero`, and the node gets to see a quorum in two rounds. -/
def unanimousRun : List Event :=
  [.transaction ⟨block.digest⟩ false,
    .vote (firstBallot 2 .zero) (Draws.of false),
    .vote (firstBallot 3 .zero) (Draws.of false),
    .vote (ballot 2 1 .zero .commit [1, 2, 3]) (Draws.of false),
    .vote (ballot 3 1 .zero .commit [1, 2, 3]) (Draws.of false)]

theorem tallyExact_iff_unanimousRun :
    ((machine Params.source).run (spawn (authority 1) [] false) unanimousRun).TallyExact
        block 1 ↔
      ∀ v ∈ ((machine Params.source).run (spawn (authority 1) [] false) unanimousRun).votes
        block 1, ¬(v.voteType = .decide ∧ v.value = .zero) :=
  tallyExact_iff Params.source_injective
    ⟨_, _, _, GuardedMachine.reachable_run _ (by decide +kernel)⟩ block 1

/-- In the end the node has cast a `Decide` for `Zero`, and the tally of that round is
still empty. -/
theorem exists_reachable_not_tallyExact :
    ∃ c, Reached Params.source c ∧ ¬c.TallyExact block 2 := by
  refine ⟨(machine Params.source).run (spawn (authority 1) [] false) unanimousRun,
    ⟨_, _, _, GuardedMachine.reachable_run _ (by decide +kernel)⟩, ?_⟩
  rintro ⟨htally, -⟩
  exact absurd htally (by decide +kernel)

end Core
end NeroConsensus
