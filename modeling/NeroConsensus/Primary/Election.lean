import NeroConsensus.Foundations.FiniteMap
import NeroConsensus.Primary.Vote
import Mathlib.Data.Multiset.MapFold

/-!
# Elections and their tallies

`primary/src/election.rs`.  The state of an election is one `RoundState` a round,
and a `RoundState` holds the votes accepted in that round, keyed by their hash,
next to a running count of them.

There are two ways to a `Tally`.  `RoundState.tallyVote` adds one vote to the
running count; `Tally.fromVotes` counts a set of votes from scratch.  Both are
translated as they stand, the chain of conditions included: the last two branches
of `tally_vote` test the *same* condition, so a `Decide` for `Zero` reaches
neither, while `from_votes` counts it.

A `BTreeSet` is a `Finset` and a `HashMap` is a `Finmap`.  The loop of `from_votes`
is a fold over the set; the counters commute, so the order does not matter, and
that is the instance the fold asks for.
-/

namespace NeroConsensus

/-! ## The tally -/

structure Tally where
  zeroVotes : ℕ
  zeroCommits : ℕ
  oneVotes : ℕ
  oneCommits : ℕ
  zeroDecides : ℕ
  oneDecides : ℕ
  deriving DecidableEq

namespace Tally

/-- `Tally::new`. -/
def new : Tally :=
  { zeroVotes := 0, zeroCommits := 0, oneVotes := 0, oneCommits := 0, zeroDecides := 0,
    oneDecides := 0 }

/-- The body of the loop of `Tally::from_votes`. -/
def count (tally : Tally) (vote : PrimaryVote) : Tally :=
  if vote.value = .zero ∧ vote.voteType = .initialVote then
    { tally with zeroVotes := tally.zeroVotes + 1 }
  else if vote.value = .zero ∧ vote.voteType = .commit then
    { tally with zeroCommits := tally.zeroCommits + 1 }
  else if vote.value = .zero ∧ vote.voteType = .decide then
    { tally with zeroDecides := tally.zeroDecides + 1 }
  else if vote.value = .one ∧ vote.voteType = .initialVote then
    { tally with oneVotes := tally.oneVotes + 1 }
  else if vote.value = .one ∧ vote.voteType = .commit then
    { tally with oneCommits := tally.oneCommits + 1 }
  else if vote.value = .one ∧ vote.voteType = .decide then
    { tally with oneDecides := tally.oneDecides + 1 }
  else tally

instance : RightCommutative count where
  right_comm tally vote vote' := by
    obtain ⟨_, _, value, voteType, _, _⟩ := vote
    obtain ⟨_, _, value', voteType', _, _⟩ := vote'
    cases value <;> cases voteType <;> cases value' <;> cases voteType' <;> rfl

/-- `Tally::from_votes`. -/
def fromVotes (votes : Finset PrimaryVote) : Tally :=
  votes.val.foldl count new

end Tally

/-! ## Round states -/

structure RoundState where
  tally : Tally
  voted : Bool
  timedOut : Bool
  validatedVotes : Finmap fun _ : VoteHash => PrimaryVote
  unvalidatedVotes : Finmap fun _ : PrimaryVote => Finset VoteHash
  electionHash : BlockHash

namespace RoundState

/-- `RoundState::new`. -/
def new (electionHash : BlockHash) : RoundState :=
  { validatedVotes := ∅
    tally := Tally.new
    voted := false
    timedOut := false
    unvalidatedVotes := ∅
    electionHash := electionHash }

/-- `RoundState::tally_vote`. -/
def tallyVote (rs : RoundState) (vote : PrimaryVote) : RoundState :=
  if vote.voteType = .initialVote ∧ vote.value = .zero then
    { rs with tally := { rs.tally with zeroVotes := rs.tally.zeroVotes + 1 } }
  else if vote.voteType = .commit ∧ vote.value = .zero then
    { rs with tally := { rs.tally with zeroCommits := rs.tally.zeroCommits + 1 } }
  else if vote.voteType = .initialVote ∧ vote.value = .one then
    { rs with tally := { rs.tally with oneVotes := rs.tally.oneVotes + 1 } }
  else if vote.voteType = .commit ∧ vote.value = .one then
    { rs with tally := { rs.tally with oneCommits := rs.tally.oneCommits + 1 } }
  else if vote.voteType = .decide ∧ vote.value = .one then
    { rs with tally := { rs.tally with oneDecides := rs.tally.oneDecides + 1 } }
  else if vote.voteType = .decide ∧ vote.value = .one then
    { rs with tally := { rs.tally with zeroDecides := rs.tally.zeroDecides + 1 } }
  else rs

/-- `validated_votes.insert(VoteHash(vote.digest()), vote)`. -/
def insertValidated (P : Params) (rs : RoundState) (vote : PrimaryVote) : RoundState :=
  { rs with validatedVotes := rs.validatedVotes.insert (vote.voteHash P) vote }

end RoundState

/-! ## Elections -/

structure Election where
  hash : BlockHash
  state : Finmap fun _ : Round => RoundState
  isDecided : Bool

namespace Election

/-- `Election::new`. -/
def new (hash : BlockHash) : Election :=
  { hash := hash, isDecided := false, state := ∅ }

/-- `state.get(&round)`, or a new round state where there is none. -/
def roundState (election : Election) (electionHash : BlockHash) (round : Round) : RoundState :=
  (election.state.lookup round).getD (RoundState.new electionHash)

/-- `state.insert(round, round_state)`. -/
def insertRound (election : Election) (round : Round) (rs : RoundState) : Election :=
  { election with state := election.state.insert round rs }

end Election
end NeroConsensus
