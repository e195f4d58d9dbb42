import NeroConsensus.Foundations.GuardedMachine
import NeroConsensus.Primary.Election

/-!
# The core of a primary

`primary/src/core.rs`: the two entry points `handle_transaction` and `handle_vote`
with everything they call.  A node is a `Core`; an entry point maps the core before
the call to the core after it, and `none` is a panic, after which the task of the
node is gone.

## Randomness

Every call site that draws is a field of `Draws`, so a call is a function of the
core, the message and the draws, and "whatever is drawn" is "for every `Draws`".
The order in which a `HashMap` of pending votes is visited belongs there too: it is
not specified, so it is one more outcome the environment chooses.

## The network

`network` is the list of what has been handed to the `ReliableSender`, oldest
first, each message with the addresses it is for.  `broadcast_message` is an
`async fn`: it does something where its future is awaited.  The relay at the top of
`handle_vote` builds the future and drops it, so nothing is sent there, and only
`sent_votes` remembers the vote.

## Clones

`handle_vote` works on a clone of the election and a clone of the round state and
writes the first back at the end.  The functions below pass both clones around
explicitly, so that an update made on a clone that is never written back is visibly
lost: the `Pending` arm is the case in point.
-/

namespace NeroConsensus

structure Core where
  id : PublicKey
  primaryAddresses : List (PublicKey × SocketAddr)
  network : List (PrimaryMessage × List SocketAddr)
  elections : Finmap fun _ : BlockHash => Election
  decided : Finmap fun _ : BlockHash => Value
  byzantine : Bool
  sentVotes : Finset PrimaryVote

/-- The outcomes of the draws of one call. -/
structure Draws where
  /-- `PrimaryVote::random`, for an own vote of round 0. -/
  ownValue : Bool
  /-- `Decision::random`, where the received vote is validated. -/
  validate : Bool × Bool
  /-- `Decision::random`, where a pending vote is validated. -/
  pending : PrimaryVote → Bool × Bool
  /-- The order in which the pending votes are visited. -/
  pendingOrder : List PrimaryVote
  /-- `Decision::random`, for the vote of the next round. -/
  next : Bool × Bool

/-- The draws of the concrete runs; the one that shows is the value of the own vote of
round 0. -/
def Draws.of (ownValue : Bool) : Draws :=
  { ownValue := ownValue
    validate := (true, true)
    pending := fun _ => (true, true)
    pendingOrder := []
    next := (true, true) }

/-- The threshold cascade of `Core::make_decision`.  The first branch is the one
marked "This should not happen!!!"; it and the last leave the default decision. -/
def decisionRule (P : Params) (tally : Tally) : Decision :=
  let decision : Decision := { value := .zero, voteType := .initialVote }
  if tally.zeroCommits ≥ P.semiQuorum ∧ tally.oneCommits ≥ P.semiQuorum then
    decision
  else if tally.oneDecides > 0 then
    { decision with voteType := .decide, value := .one }
  else if tally.zeroDecides > 0 then
    { decision with voteType := .decide }
  else if tally.zeroCommits ≥ P.quorum then
    { decision with voteType := .decide }
  else if tally.oneCommits ≥ P.quorum then
    { decision with value := .one, voteType := .decide }
  else if tally.zeroVotes ≥ P.quorum ∨ tally.zeroCommits > 0 then
    { decision with voteType := .commit }
  else if tally.oneVotes ≥ P.quorum ∨ tally.oneCommits > 0 then
    { decision with value := .one, voteType := .commit }
  else if tally.zeroVotes ≥ P.semiQuorum then
    { decision with voteType := .initialVote, value := .zero }
  else if tally.zeroVotes < P.semiQuorum ∧ tally.oneVotes < P.quorum ∧
      tally.zeroCommits = 0 ∧ tally.oneCommits = 0 then
    { decision with value := .one, voteType := .initialVote }
  else
    decision

namespace Core

/-! ## Reading and writing the state -/

/-- The state `Core::spawn` starts from. -/
def spawn (id : PublicKey) (primaryAddresses : List (PublicKey × SocketAddr))
    (byzantine : Bool) : Core :=
  { id := id
    primaryAddresses := primaryAddresses
    network := []
    elections := ∅
    decided := ∅
    byzantine := byzantine
    sentVotes := ∅ }

/-- A clone of the election, or a new one where there is none. -/
def election (c : Core) (electionHash : BlockHash) : Election :=
  (c.elections.lookup electionHash).getD (Election.new electionHash)

/-- `self.elections.insert(election_hash, election)`. -/
def insertElection (c : Core) (electionHash : BlockHash) (election : Election) : Core :=
  { c with elections := c.elections.insert electionHash election }

/-- `Core::broadcast_message`, awaited, to all the primary addresses. -/
def broadcastMessage (c : Core) (message : PrimaryMessage) : Core :=
  { c with network := c.network ++ [(message, c.primaryAddresses.map Prod.snd)] }

/-- The head of `handle_vote`.  The future of the relay is dropped, so the message
is not sent; the vote is recorded as sent all the same. -/
def relay (c : Core) (vote : PrimaryVote) : Core :=
  { c with sentVotes := insert vote c.sentVotes }

/-- The lines that cast an own vote: it is stored and counted in its round state,
broadcast, and the round is marked as voted. -/
def castVote (P : Params) (c : Core) (rs : RoundState) (ownVote : PrimaryVote) :
    Core × RoundState :=
  (c.broadcastMessage (.sendVote ownVote),
    { (rs.insertValidated P ownVote).tallyVote ownVote with voted := true })

/-! ## Deciding and validating -/

/-- `Core::make_decision`.  The guard names `one_decides` twice, as the source does. -/
def makeDecision (P : Params) (c : Core) (draw : Bool × Bool) (tally : Tally) : Decision :=
  if c.byzantine ∧ tally.oneDecides = 0 ∧ tally.oneDecides = 0 then
    Decision.random draw
  else
    decisionRule P tally

/-- `Core::validate_vote`. -/
def validateVote (P : Params) (c : Core) (draw : Bool × Bool) (vote : PrimaryVote) :
    Option ValidationStatus :=
  if vote.round ≠ 0 then
    match c.elections.lookup vote.electionHash with
    | none => some .invalid
    | some e =>
      match e.state.lookup (vote.round - 1) with
      | none => some .invalid
      | some rs =>
        match vote.proof with
        -- `vote.clone().proof.unwrap()`
        | none => none
        | some proof =>
          if ∃ hash ∈ proof, hash ∉ rs.validatedVotes then
            some .pending
          else
            -- the second pass, which rebuilds `proof_tally`, finds every hash again
            let decision :=
              c.makeDecision P draw (Tally.fromVotes (rs.validatedVotes.valuesOn proof))
            if decision.voteType = vote.voteType ∧ decision.value = vote.value then
              some .valid
            else
              some .invalid
  else if vote.voteType = .commit ∨ vote.voteType = .decide then
    some .invalid
  else
    some .valid

/-- The body of the loop of `validate_pending_votes`, for the entry of `v` in the
copy of the map taken before the loop.  A promoted vote is written to
`self.elections`, and neither tallied nor removed from the map. -/
def validatePendingVote (P : Params) (draws : Draws) (vote : PrimaryVote)
    (unvalidated : Finmap fun _ : PrimaryVote => Finset VoteHash) (s : Core × RoundState)
    (v : PrimaryVote) : Option (Core × RoundState) :=
  match unvalidated.lookup v with
  | none => some s
  | some vs =>
    if vote.voteHash P ∈ vs then do
      let hp ← s.2.unvalidatedVotes.lookup v
      let hp := hp.erase (vote.voteHash P)
      let c ←
        if hp = ∅ then do
          let status ← s.1.validateVote P (draws.pending v) v
          if status = .valid then do
            let election ← s.1.elections.lookup v.electionHash
            let rs ← election.state.lookup v.round
            pure (s.1.insertElection v.electionHash
              (election.insertRound v.round (rs.insertValidated P v)))
          else pure s.1
        else pure s.1
      pure (c, { s.2 with unvalidatedVotes := s.2.unvalidatedVotes.insert v hp })
    else some s

/-- `Core::validate_pending_votes`. -/
def validatePendingVotes (P : Params) (draws : Draws) (c : Core) (vote : PrimaryVote)
    (rs : RoundState) : Option (Core × RoundState) :=
  draws.pendingOrder.foldlM (validatePendingVote P draws vote rs.unvalidatedVotes) (c, rs)

/-! ## Handling a vote -/

/-- The second half of the `Valid` arm of `handle_vote`: the vote of the next round,
where a quorum has been reached and the node has neither voted there nor decided. -/
def castNextVote (P : Params) (draws : Draws) (c : Core) (election : Election)
    (rs : RoundState) (electionHash : BlockHash) (nextRound : Round) : Core × Election :=
  let nextRs := election.roundState electionHash nextRound
  if P.quorum ≤ rs.validatedVotes.keys.card ∧ nextRs.voted = false ∧
      election.isDecided = false then
    let decision := c.makeDecision P draws.next rs.tally
    let ownVote := PrimaryVote.new c.id nextRound decision.value decision.voteType
      (some rs.validatedVotes.keys) electionHash
    let (c, nextRs) := c.castVote P nextRs ownVote
    if ownVote.voteType = .decide then
      ({ c with decided := c.decided.insert electionHash ownVote.value },
        { election with isDecided := true }.insertRound nextRound nextRs)
    else
      (c, election.insertRound nextRound nextRs)
  else
    (c, election)

/-- The `Valid` arm of `handle_vote`, on the clones of the election and of the round
state. -/
def acceptVote (P : Params) (draws : Draws) (c : Core) (election : Election)
    (rs : RoundState) (vote : PrimaryVote) : Option (Core × Election) := do
  let rs := if vote.signer = c.id then { rs with voted := true } else rs
  let rs := (rs.tallyVote vote).insertValidated P vote
  let (c, rs) ← c.validatePendingVotes P draws vote rs
  let (c, rs) :=
    if rs.voted = false ∧ vote.round = 0 then
      c.castVote P rs (PrimaryVote.random c.id vote.electionHash draws.ownValue)
    else (c, rs)
  let nextRound ← Round.next vote.round
  pure (c.castNextVote P draws (election.insertRound vote.round rs) rs vote.electionHash
    nextRound)

/-- `Core::handle_vote`. -/
def handleVote (P : Params) (draws : Draws) (c : Core) (vote : PrimaryVote) : Option Core :=
  let c := c.relay vote
  let election := c.election vote.electionHash
  let rs := election.roundState vote.electionHash vote.round
  if vote.voteHash P ∈ rs.validatedVotes then
    some (c.insertElection vote.electionHash election)
  else do
    let status ← c.validateVote P draws.validate vote
    match status with
    | .valid =>
      let (c, election) ← c.acceptVote P draws election rs vote
      pure (c.insertElection vote.electionHash election)
    | .invalid => pure c
    | .pending =>
      let proof ← vote.proof
      -- the vote is noted on the clone of the round state, which nothing writes back
      let _rs := { rs with unvalidatedVotes := rs.unvalidatedVotes.insert vote proof }
      pure (c.insertElection vote.electionHash election)

/-- `Core::handle_transaction`. -/
def handleTransaction (P : Params) (draw : Bool) (c : Core) (tx : Transaction) : Core :=
  let election := c.election tx.digest
  let rs := election.roundState tx.digest 0
  let (c, rs) :=
    if rs.voted = false then
      c.castVote P rs (PrimaryVote.random c.id tx.digest draw)
    else (c, rs)
  c.insertElection tx.digest (election.insertRound 0 rs)

/-! ## Runs of one node -/

/-- What the main loop of a node takes from its two channels. -/
inductive Event where
  | transaction : Transaction → Bool → Event
  | vote : PrimaryVote → Draws → Event

/-- The vote an event brings. -/
def Event.received : Event → Option PrimaryVote
  | .transaction _ _ => none
  | .vote v _ => some v

/-- One turn of the main loop. -/
def step (P : Params) (c : Core) : Event → Option Core
  | .transaction tx draw => some (c.handleTransaction P draw tx)
  | .vote vote draws => c.handleVote P draws vote

/-- The main loop as a machine: a turn that panics leads nowhere. -/
def machine (P : Params) : GuardedMachine Core Event where
  guard c event := (c.step P event).isSome = true
  next c event := (c.step P event).getD c

instance (P : Params) (c : Core) (event : Event) : Decidable ((machine P).guard c event) :=
  inferInstanceAs (Decidable ((c.step P event).isSome = true))

/-- The votes the node has broadcast, oldest first. -/
def casts (c : Core) : List PrimaryVote :=
  c.network.filterMap fun m =>
    match m.1 with
    | .sendVote vote => some vote
    | _ => none

end Core
end NeroConsensus
