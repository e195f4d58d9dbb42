import NeroConsensus.Foundations.FiniteMap
import NeroConsensus.Foundations.GuardedMachine
import Mathlib.Data.Fintype.Pi

/-!
# The consensus simulation

`node/src/consensus.rs`: one consensus instance of the simulation.  It has four nodes, of which
the last one is byzantine, and the random draws are the inputs: the honest votes and which of
them are delayed, at the start, and the value of the byzantine node in every round.

## Steps

The body of the loop goes through the honest nodes, tries to conclude, and gives the byzantine
node its next vote.  A step is one of these: a turn of the inner loop for the node `turn`, or,
when all of them have had theirs and not all have decided, the draw of a byzantine vote.
When all honest nodes have decided, the instance is over, and the source asserts `Agreed`.

A row of `votes` holds what a node tells each node, and `-1` is a vote that is delayed, or none.
-/

namespace NeroConsensus
namespace Simulation

abbrev numberOfNodes : ℕ := 4

abbrev numberOfByzantineNodes : ℕ := (numberOfNodes - 1) / 3

abbrev numberOfHonestNodes : ℕ := numberOfNodes - numberOfByzantineNodes

abbrev quorum : ℕ := numberOfByzantineNodes * 2 + 1

/-- The honest nodes come first. -/
abbrev Node := Fin numberOfNodes

def Node.Honest (i : Node) : Prop :=
  i.val < numberOfHonestNodes

instance : DecidablePred Node.Honest := fun _ => inferInstanceAs (Decidable (_ < _))

def honestNodes : List Node := [0, 1, 2]

def byzantineNode : Node := 3

/-- One vote for each node. -/
abbrev Row := Node → ℤ

/-- The rows by node and round. -/
abbrev Votes := Finmap fun _ : Node × ℕ => Row

/-- `gen_range(-1..2)`. -/
def Draw := { value : ℤ // -1 ≤ value ∧ value < 2 }

/-- The draws at the start of an instance. -/
structure InitialDraws where
  /-- The vote of a node is 1. -/
  honestVote : Node → Bool
  delayed : Node → Node → Bool
  byzantineVote : Draw

def InitialDraws.honestVotes (d : InitialDraws) (i : Node) : Row := fun k =>
  if d.delayed i k = true then -1 else if d.honestVote i = true then 1 else 0

/-- The locals of the loop. -/
structure Instance where
  votes : Votes
  nodes : Node → ℕ
  zeroQuorum : Node → List ℕ
  oneQuorum : Node → List ℕ
  decided : Finmap fun _ : Node => ℤ
  excludedNodes : List Node
  turn : Node

def start (d : InitialDraws) : Instance :=
  { votes :=
      Finmap.insert (byzantineNode, 0) (fun _ => d.byzantineVote.val)
        (honestNodes.foldl (fun votes i => Finmap.insert (i, 0) (d.honestVotes i) votes) ∅)
    nodes := fun _ => 0
    zeroQuorum := fun _ => []
    oneQuorum := fun _ => []
    decided := ∅
    excludedNodes := []
    turn := 0 }

namespace Instance

/-- The nodes that have voted `value` in the current round of node `i`, as far as `i` knows. -/
def voters (s : Instance) (i : Node) (value : ℤ) : Finset Node :=
  Finset.univ.filter fun j =>
    (∃ row ∈ s.votes.lookup (j, s.nodes i), row i = value) ∧ j ∉ s.excludedNodes

def zeros (s : Instance) (i : Node) : ℕ :=
  (s.voters i 0).card

def ones (s : Instance) (i : Node) : ℕ :=
  (s.voters i 1).card

/-- The loop over the votes of a row that puts values for the delayed ones. -/
def receiveDelayed (row : Row) : Row :=
  (List.finRange numberOfNodes).foldl
    (fun new i =>
      if new i = -1 then Function.update new i (if ∃ k, new k = 1 then 1 else 0) else new) row

/-- The delayed votes of node `j` in a round are received. -/
def receiveRow (round : ℕ) (votes : Votes) (j : Node) : Votes :=
  match votes.lookup (j, round) with
  | some row => votes.insert (j, round) (receiveDelayed row)
  | none => votes

def receiveVotes (s : Instance) (round : ℕ) : Votes :=
  honestNodes.foldl (receiveRow round) s.votes

/-- A quorum for 1 in the round `round`. -/
def quorumForOne (s : Instance) (i : Node) (round : ℕ) : Instance :=
  let one := s.oneQuorum i ++ [round]
  { s with
    oneQuorum := Function.update s.oneQuorum i one
    votes := s.votes.insert (i, round + 1) fun _ => 1
    decided := if round ≠ 0 ∧ round - 1 ∈ one then s.decided.insert i 1 else s.decided }

/-- A quorum for 0 in the round `round`. -/
def quorumForZero (s : Instance) (i : Node) (round : ℕ) : Instance :=
  let zero := s.zeroQuorum i ++ [round]
  { s with
    zeroQuorum := Function.update s.zeroQuorum i zero
    votes := s.votes.insert (i, round + 1) fun _ => 0
    decided := if round ≠ 0 ∧ round - 1 ∈ zero then s.decided.insert i 0 else s.decided }

/-- The vote of node `i` in the round after `round`. -/
def vote (s : Instance) (i : Node) (round : ℕ) : Instance :=
  match s.decided.lookup i with
  | none =>
    if quorum ≤ s.ones i then s.quorumForOne i round
    else if quorum ≤ s.zeros i then s.quorumForZero i round
    else { s with votes := s.votes.insert (i, round + 1) fun _ => 0 }
  | some value => { s with votes := s.votes.insert (i, round + 1) fun _ => value }

/-- A turn of the loop that advances the rounds of the honest nodes. -/
def advance (s : Instance) (i : Node) : Instance :=
  let round := s.nodes i
  if quorum ≤ s.zeros i + s.ones i then
    { s.vote i round with nodes := Function.update s.nodes i (round + 1) }
  else { s with votes := s.receiveVotes round }

/-- `decided.len() == NUMBER_OF_HONEST_NODES`. -/
def Concluded (s : Instance) : Prop :=
  s.decided.keys.card = numberOfHonestNodes

instance (s : Instance) : Decidable s.Concluded := inferInstanceAs (Decidable (_ = _))

/-- The assertion: every decided value is that of node 0. -/
def Agreed (s : Instance) : Prop :=
  ∀ i value, s.decided.lookup i = some value → s.decided.lookup 0 = some value

/-- The vote of a byzantine node in its next round. -/
def byzantineVote (s : Instance) (j : Node) (draw : Draw) : Instance :=
  let round := s.nodes j
  { s with
    excludedNodes :=
      if ∃ row ∈ s.votes.lookup (j, round), (∃ k, row k = 1) ∧ ∃ k, row k = 0 then
        s.excludedNodes ++ [j]
      else s.excludedNodes
    votes := s.votes.insert (j, round + 1) fun _ => draw.val
    nodes := Function.update s.nodes j (round + 1) }

end Instance

/-! ## The machine -/

inductive Step where
  | advance : Step
  | draw : Draw → Step

def machine : GuardedMachine Instance Step where
  guard s
    | .advance => s.turn.Honest
    | .draw _ => s.turn = byzantineNode ∧ ¬s.Concluded
  next s
    | .advance => { s.advance s.turn with turn := s.turn + 1 }
    | .draw value => { s.byzantineVote byzantineNode value with turn := 0 }

instance (s : Instance) : ∀ a : Step, Decidable (machine.guard s a)
  | .advance => inferInstanceAs (Decidable s.turn.Honest)
  | .draw _ => inferInstanceAs (Decidable (_ ∧ _))

end Simulation
end NeroConsensus
