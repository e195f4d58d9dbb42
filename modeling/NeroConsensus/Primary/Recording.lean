import NeroConsensus.Primary.DecisionRule

/-!
# What a call does to a node

`handle_vote` clones, updates the clones and writes one of them back.  This file
puts next to it four operations on the node itself, with no clones, and proves that
a call is a composition of them.

* `Core.relay`: the vote is noted in `sent_votes`.
* `Core.record`: a vote enters the validated votes of its own election and round,
  and is tallied there.
* `Core.castFirst`: the own vote of round 0, where there is none yet.
* `Core.castNext`: the own vote of the next round, where the node is `Ready`, with
  the decision if that vote is a `Decide`.

`Core.afterValid` is the node after a valid vote: the four of them in a row.

The equations are `handleVote_of_mem`, `handleVote_of_invalid`,
`handleVote_of_pending` --- three cases in which nothing but `sent_votes` changes ---
and `handleVote_of_valid`.  They hold of a node without pending votes, and a node
never has any: `NodeInvariants` shows that.
-/

namespace NeroConsensus

variable {P : Params}

/-! ## Clones -/

namespace Election

@[simp] theorem roundState_insertRound_self (e : Election) (h : BlockHash) (r : Round)
    (rs : RoundState) : (e.insertRound r rs).roundState h r = rs := by
  rw [roundState, insertRound, Finmap.lookup_insert, Option.getD_some]

theorem roundState_insertRound_of_ne (e : Election) (h : BlockHash) {r r' : Round}
    (rs : RoundState) (hne : r' ≠ r) :
    (e.insertRound r rs).roundState h r' = e.roundState h r' := by
  rw [roundState, insertRound, Finmap.lookup_insert_of_ne _ hne, roundState]

@[simp] theorem insertRound_insertRound (e : Election) (r : Round) (rs rs' : RoundState) :
    (e.insertRound r rs).insertRound r rs' = e.insertRound r rs' := by
  rw [insertRound, insertRound, insertRound, Finmap.insert_insert]

@[simp] theorem isDecided_insertRound (e : Election) (r : Round) (rs : RoundState) :
    (e.insertRound r rs).isDecided = e.isDecided := rfl

end Election

/-- A vote enters a round state, as in the `Valid` arm of `handle_vote`. -/
def RoundState.receive (P : Params) (id : PublicKey) (rs : RoundState) (vote : PrimaryVote) :
    RoundState :=
  ((if vote.signer = id then { rs with voted := true } else rs).tallyVote vote).insertValidated
    P vote

namespace Core

/-- The state of a round of an election, new where there is none. -/
def roundState (c : Core) (h : BlockHash) (r : Round) : RoundState :=
  (c.election h).roundState h r

@[simp] theorem election_insertElection_self (c : Core) (h : BlockHash) (e : Election) :
    (c.insertElection h e).election h = e := by
  rw [election, insertElection, Finmap.lookup_insert, Option.getD_some]

theorem election_insertElection_of_ne (c : Core) {h h' : BlockHash} (e : Election)
    (hne : h' ≠ h) : (c.insertElection h e).election h' = c.election h' := by
  rw [election, insertElection, Finmap.lookup_insert_of_ne _ hne, election]

@[simp] theorem insertElection_insertElection (c : Core) (h : BlockHash) (e e' : Election) :
    (c.insertElection h e).insertElection h e' = c.insertElection h e' := by
  rw [insertElection, insertElection, insertElection, Finmap.insert_insert]

/-- Writing back an unchanged clone changes nothing. -/
theorem insertElection_election {c : Core} {h : BlockHash} (hmem : h ∈ c.elections) :
    c.insertElection h (c.election h) = c := by
  obtain ⟨e, he⟩ := Finmap.mem_iff.mp hmem
  rw [election, he, Option.getD_some, insertElection, Finmap.insert_eq_self he]

/-- An election that is not stored has no votes. -/
theorem mem_elections_of_lookup {c : Core} {h : BlockHash} {r : Round} {rs : RoundState}
    (hrs : (c.election h).state.lookup r = some rs) : h ∈ c.elections := by
  by_contra hmem
  rw [election, Finmap.lookup_eq_none.mpr hmem, Option.getD_none, Election.new,
    Finmap.lookup_empty] at hrs
  cases hrs

/-- A round state that is not stored is new. -/
theorem lookup_of_roundState_ne {c : Core} {h : BlockHash} {r : Round}
    (hne : c.roundState h r ≠ RoundState.new h) :
    (c.election h).state.lookup r = some (c.roundState h r) := by
  rw [roundState, Election.roundState] at hne ⊢
  cases hrs : (c.election h).state.lookup r with
  | none => exact absurd (by rw [hrs, Option.getD_none]) hne
  | some rs => rw [Option.getD_some]

/-! ## The four operations -/

/-- A vote enters the validated votes of its election and round. -/
def record (P : Params) (c : Core) (vote : PrimaryVote) : Core :=
  c.insertElection vote.electionHash
    ((c.election vote.electionHash).insertRound vote.round
      ((c.roundState vote.electionHash vote.round).receive P c.id vote))

/-- An own vote is recorded and broadcast. -/
def cast (P : Params) (c : Core) (ownVote : PrimaryVote) : Core :=
  (c.record P ownVote).broadcastMessage (.sendVote ownVote)

/-- The own vote of round 0, cast where there is none yet. -/
def castFirst (P : Params) (draw : Bool) (c : Core) (h : BlockHash) : Core :=
  if (c.roundState h 0).voted = false then c.cast P (PrimaryVote.random c.id h draw) else c

/-- The node casts its vote of round `r + 1` once it has handled a vote of round `r`. -/
def Ready (P : Params) (c : Core) (h : BlockHash) (r : Round) : Prop :=
  P.quorum ≤ (c.roundState h r).validatedVotes.keys.card ∧
    (c.roundState h (r + 1)).voted = false ∧ (c.election h).isDecided = false

instance (P : Params) (c : Core) (h : BlockHash) (r : Round) : Decidable (c.Ready P h r) :=
  inferInstanceAs (Decidable (_ ∧ _ ∧ _))

/-- The vote of round `r + 1` the node casts on its votes of round `r`. -/
def nextVote (P : Params) (draw : Bool × Bool) (c : Core) (h : BlockHash) (r : Round) :
    PrimaryVote :=
  let rs := c.roundState h r
  let decision := c.makeDecision P draw rs.tally
  PrimaryVote.new c.id (r + 1) decision.value decision.voteType
    (some rs.validatedVotes.keys) h

/-- A node that has cast a `Decide` has decided. -/
def conclude (c : Core) (ownVote : PrimaryVote) : Core :=
  if ownVote.voteType = .decide then
    { c.insertElection ownVote.electionHash
        { c.election ownVote.electionHash with isDecided := true } with
      decided := c.decided.insert ownVote.electionHash ownVote.value }
  else c

/-- The vote of round `r + 1`, cast where the node is ready. -/
def castNext (P : Params) (draw : Bool × Bool) (c : Core) (h : BlockHash) (r : Round) : Core :=
  if c.Ready P h r then
    (c.cast P (c.nextVote P draw h r)).conclude (c.nextVote P draw h r)
  else c

/-- The core and the clone of the round state after the first half of the `Valid` arm,
where nothing is pending. -/
def receiveFirst (P : Params) (draws : Draws) (c : Core) (rs : RoundState)
    (vote : PrimaryVote) : Core × RoundState :=
  if (rs.receive P c.id vote).voted = false ∧ vote.round = 0 then
    c.castVote P (rs.receive P c.id vote)
      (PrimaryVote.random c.id vote.electionHash draws.ownValue)
  else (c, rs.receive P c.id vote)

/-- The node once a valid vote is stored, before the vote of the next round. -/
def afterReceipt (P : Params) (draws : Draws) (c : Core) (vote : PrimaryVote) : Core :=
  let c' := (c.relay vote).record P vote
  if vote.round = 0 then c'.castFirst P draws.ownValue vote.electionHash else c'

/-- The node after a valid vote. -/
def afterValid (P : Params) (draws : Draws) (c : Core) (vote : PrimaryVote) : Core :=
  (c.afterReceipt P draws vote).castNext P draws.next vote.electionHash vote.round

@[simp] theorem election_relay (c : Core) (vote : PrimaryVote) (h : BlockHash) :
    (c.relay vote).election h = c.election h := rfl

@[simp] theorem validateVote_relay (c : Core) (vote v : PrimaryVote) (draw : Bool × Bool) :
    (c.relay vote).validateVote P draw v = c.validateVote P draw v := rfl

/-- The lines that cast a vote leave the round state as `receive` does. -/
theorem castVote_eq (c : Core) (rs : RoundState) (ownVote : PrimaryVote)
    (hown : ownVote.signer = c.id) :
    c.castVote P rs ownVote =
      (c.broadcastMessage (.sendVote ownVote), rs.receive P c.id ownVote) := by
  rw [castVote, RoundState.receive, if_pos hown]
  unfold RoundState.tallyVote
  split_ifs <;> rfl

@[simp] theorem election_record_self (c : Core) (vote : PrimaryVote) :
    (c.record P vote).election vote.electionHash =
      (c.election vote.electionHash).insertRound vote.round
        ((c.roundState vote.electionHash vote.round).receive P c.id vote) := by
  rw [record, election_insertElection_self]

/-- The own vote of round 0, on the clones and on the node. -/
theorem castFirst_eq (c : Core) (h : BlockHash) (draw : Bool)
    (hvoted : (c.roundState h 0).voted = false) :
    c.castFirst P draw h =
      (c.broadcastMessage (.sendVote (PrimaryVote.random c.id h draw))).insertElection h
        ((c.election h).insertRound 0
          ((c.roundState h 0).receive P c.id (PrimaryVote.random c.id h draw))) := by
  rw [castFirst, if_pos hvoted]
  rfl

/-! ## The transaction -/

/-- **A transaction casts the first vote, and does nothing else.** -/
theorem handleTransaction_eq (c : Core) (draw : Bool) (tx : Transaction) :
    c.handleTransaction P draw tx = c.castFirst P draw tx.digest := by
  unfold handleTransaction
  by_cases hvoted : (c.roundState tx.digest 0).voted = false
  · have hvoted' : ((c.election tx.digest).roundState tx.digest 0).voted = false := hvoted
    rw [castFirst_eq c _ _ hvoted]
    simp only [if_pos hvoted', castVote_eq c _
      (PrimaryVote.random c.id tx.digest draw) rfl]
    rfl
  · have hvoted' : ¬((c.election tx.digest).roundState tx.digest 0).voted = false := hvoted
    simp only [if_neg hvoted']
    rw [castFirst, if_neg hvoted]
    -- a round that is marked as voted is stored, so the clones are written back unchanged
    have hne : c.roundState tx.digest 0 ≠ RoundState.new tx.digest := by
      intro heq
      exact hvoted (by rw [heq]; rfl)
    have hlookup := lookup_of_roundState_ne hne
    have hback : (c.election tx.digest).state.insert 0
        ((c.election tx.digest).roundState tx.digest 0) = (c.election tx.digest).state :=
      Finmap.insert_eq_self hlookup
    have hround : (c.election tx.digest).insertRound 0
        ((c.election tx.digest).roundState tx.digest 0) = c.election tx.digest := by
      rw [Election.insertRound, hback]
    rw [hround, insertElection_election (mem_elections_of_lookup hlookup)]

/-! ## The vote -/

section Vote

variable {c : Core} {vote : PrimaryVote} {draws : Draws}

/-- A vote whose key is taken changes nothing but `sent_votes`. -/
theorem handleVote_of_mem
    (hmem : vote.voteHash P ∈ (c.roundState vote.electionHash vote.round).validatedVotes) :
    c.handleVote P draws vote = some (c.relay vote) := by
  have hne : c.roundState vote.electionHash vote.round ≠ RoundState.new vote.electionHash := by
    intro heq
    rw [heq] at hmem
    exact Finmap.notMem_empty hmem
  have hstored : vote.electionHash ∈ (c.relay vote).elections :=
    mem_elections_of_lookup (lookup_of_roundState_ne hne)
  have hmem' : vote.voteHash P ∈ (((c.relay vote).election vote.electionHash).roundState
      vote.electionHash vote.round).validatedVotes := hmem
  unfold handleVote
  simp only [if_pos hmem', insertElection_election hstored]

variable (hnew : vote.voteHash P ∉ (c.roundState vote.electionHash vote.round).validatedVotes)

include hnew

/-- Past the first test, a call is what the verdict says. -/
theorem handleVote_of_notMem :
    c.handleVote P draws vote =
      (c.validateVote P draws.validate vote).bind fun status =>
        match status with
        | .valid =>
          ((c.relay vote).acceptVote P draws (c.election vote.electionHash)
            (c.roundState vote.electionHash vote.round) vote).map fun s =>
              s.1.insertElection vote.electionHash s.2
        | .invalid => some (c.relay vote)
        | .pending =>
          vote.proof.map fun _ =>
            (c.relay vote).insertElection vote.electionHash (c.election vote.electionHash) := by
  have hnew' : vote.voteHash P ∉ (((c.relay vote).election vote.electionHash).roundState
      vote.electionHash vote.round).validatedVotes := hnew
  unfold handleVote
  simp only [if_neg hnew', validateVote_relay]
  cases c.validateVote P draws.validate vote with
  | none => rfl
  | some status =>
    cases status with
    | valid =>
      rw [Option.bind_some, Option.map_eq_bind]
      rfl
    | invalid => rfl
    | pending => cases vote.proof <;> rfl

theorem handleVote_of_panic (hverdict : c.validateVote P draws.validate vote = none) :
    c.handleVote P draws vote = none := by
  rw [handleVote_of_notMem hnew, hverdict]
  rfl

/-- An invalid vote changes nothing but `sent_votes`. -/
theorem handleVote_of_invalid
    (hverdict : c.validateVote P draws.validate vote = some .invalid) :
    c.handleVote P draws vote = some (c.relay vote) := by
  rw [handleVote_of_notMem hnew, hverdict]
  rfl

omit hnew in
/-- A pending vote belongs to a stored election and carries a proof. -/
theorem validateVote_pending {draw : Bool × Bool}
    (hverdict : c.validateVote P draw vote = some .pending) :
    vote.electionHash ∈ c.elections ∧ ∃ proof, vote.proof = some proof := by
  unfold validateVote at hverdict
  split_ifs at hverdict
  · split at hverdict
    · cases hverdict
    · rename_i e he
      refine ⟨Finmap.mem_of_lookup he, ?_⟩
      split at hverdict
      · cases hverdict
      · split at hverdict
        · cases hverdict
        · rename_i proof hproof
          exact ⟨proof, hproof⟩
  · cases hverdict
  · cases hverdict

/-- **A pending vote changes nothing but `sent_votes`**: it is noted on a clone that is
never written back. -/
theorem handleVote_of_pending
    (hverdict : c.validateVote P draws.validate vote = some .pending) :
    c.handleVote P draws vote = some (c.relay vote) := by
  obtain ⟨hstored, proof, hproof⟩ := validateVote_pending hverdict
  have hstored' : vote.electionHash ∈ (c.relay vote).elections := hstored
  rw [handleVote_of_notMem hnew, hverdict, hproof]
  have hback := insertElection_election hstored'
  rw [election_relay] at hback
  show some _ = _
  rw [hback]

omit hnew in
/-- Without pending votes there is nothing to promote. -/
theorem validatePendingVotes_of_empty {rs : RoundState} (c : Core) (vote : PrimaryVote)
    (draws : Draws) (hpending : rs.unvalidatedVotes = ∅) :
    c.validatePendingVotes P draws vote rs = some (c, rs) := by
  unfold validatePendingVotes
  induction draws.pendingOrder with
  | nil => rfl
  | cons v vs ih =>
    rw [List.foldlM_cons]
    have hstep : validatePendingVote P draws vote rs.unvalidatedVotes (c, rs) v =
        some (c, rs) := by
      rw [validatePendingVote, hpending, Finmap.lookup_empty]
    rw [hstep]
    exact ih

omit hnew in
@[simp] theorem unvalidatedVotes_receive (id : PublicKey) (rs : RoundState) (v : PrimaryVote) :
    (rs.receive P id v).unvalidatedVotes = rs.unvalidatedVotes := by
  rw [RoundState.receive, RoundState.insertValidated, RoundState.tallyVote_eq]
  split_ifs <;> rfl

omit hnew in
/-- The second half of the `Valid` arm, on the clones and on the node. -/
theorem castNextVote_eq (c : Core) (e : Election) (h : BlockHash) (r : Round)
    (draws : Draws) :
    ((c.castNextVote P draws e (e.roundState h r) h (r + 1)).1.insertElection h
        (c.castNextVote P draws e (e.roundState h r) h (r + 1)).2) =
      (c.insertElection h e).castNext P draws.next h r := by
  have he : (c.insertElection h e).election h = e := election_insertElection_self c h e
  have hready : (c.insertElection h e).Ready P h r ↔
      P.quorum ≤ (e.roundState h r).validatedVotes.keys.card ∧
        (e.roundState h (r + 1)).voted = false ∧ e.isDecided = false := by
    rw [Ready, roundState, roundState, he]
  by_cases hr : (c.insertElection h e).Ready P h r
  · set own := (c.insertElection h e).nextVote P draws.next h r with hown
    have hrs : (c.insertElection h e).roundState h r = e.roundState h r := by
      rw [roundState, he]
    have hownEq : own = PrimaryVote.new c.id (r + 1)
        (c.makeDecision P draws.next (e.roundState h r).tally).value
        (c.makeDecision P draws.next (e.roundState h r).tally).voteType
        (some (e.roundState h r).validatedVotes.keys) h := by
      rw [hown, nextVote, hrs]
      rfl
    rw [castNext, if_pos hr, ← hown]
    unfold castNextVote
    simp only [if_pos (hready.mp hr), ← hownEq,
      castVote_eq c _ own (by rw [hownEq]; rfl)]
    have hh : own.electionHash = h := by rw [hownEq]; rfl
    have hround : own.round = r + 1 := by rw [hownEq]; rfl
    have hrec : (c.insertElection h e).cast P own =
        (c.broadcastMessage (.sendVote own)).insertElection h
          (e.insertRound (r + 1) ((e.roundState h (r + 1)).receive P c.id own)) := by
      rw [cast, record, hh, hround, roundState, he, insertElection_insertElection]
      rfl
    rw [hrec, conclude, hh, election_insertElection_self, insertElection_insertElection]
    split_ifs with hd <;> rfl
  · have hr' := fun hcond => hr (hready.mpr hcond)
    rw [castNext, if_neg hr, castNextVote]
    simp only [if_neg hr']

omit hnew in
/-- The `Valid` arm, where nothing is pending. -/
theorem acceptVote_of_empty (e : Election) {rs : RoundState}
    (hpending : rs.unvalidatedVotes = ∅) :
    c.acceptVote P draws e rs vote = (Round.next vote.round).map fun nextRound =>
      (c.receiveFirst P draws rs vote).1.castNextVote P draws
        (e.insertRound vote.round (c.receiveFirst P draws rs vote).2)
        (c.receiveFirst P draws rs vote).2 vote.electionHash nextRound := by
  have hpending' : (rs.receive P c.id vote).unvalidatedVotes = ∅ := by
    rw [unvalidatedVotes_receive, hpending]
  have hreceive : ((if vote.signer = c.id then { rs with voted := true } else
      rs).tallyVote vote).insertValidated P vote = rs.receive P c.id vote := rfl
  unfold acceptVote
  simp only [hreceive, validatePendingVotes_of_empty c vote draws hpending']
  rw [Option.map_eq_bind]
  rfl

omit hnew in
/-- The first half of the `Valid` arm, on the clones and on the node. -/
theorem insertElection_receiveFirst {s : Core × RoundState}
    (hs : s = (c.relay vote).receiveFirst P draws
      (c.roundState vote.electionHash vote.round) vote) :
    s.1.insertElection vote.electionHash
      ((c.election vote.electionHash).insertRound vote.round s.2) =
        c.afterReceipt P draws vote := by
  set h := vote.electionHash with hh
  set rs := (c.roundState h vote.round).receive P c.id vote with hrs
  have hrec : (c.relay vote).record P vote =
      (c.relay vote).insertElection h ((c.election h).insertRound vote.round rs) := rfl
  have hround : ((c.relay vote).record P vote).roundState h vote.round = rs := by
    rw [hrec, roundState, election_insertElection_self, Election.roundState_insertRound_self]
  have hs' : s = if rs.voted = false ∧ vote.round = 0 then
      (c.relay vote).castVote P rs (PrimaryVote.random c.id h draws.ownValue)
    else (c.relay vote, rs) := hs
  unfold afterReceipt
  by_cases hzero : vote.round = 0
  · rw [hzero] at hround
    simp only [if_pos hzero]
    by_cases hvoted : rs.voted = false
    · -- the node casts its own vote of round 0 as well
      rw [if_pos ⟨hvoted, hzero⟩, castVote_eq _ _ _ (by rfl)] at hs'
      rw [castFirst_eq _ _ _ (by rw [hround]; exact hvoted), hround, hrec,
        election_insertElection_self, hzero, Election.insertRound_insertRound,
        ← insertElection_insertElection _ h ((c.election h).insertRound 0 rs), hs']
      rfl
    · have hvoted' : ¬(((c.relay vote).record P vote).roundState h 0).voted = false := by
        rw [hround]
        exact hvoted
      rw [if_neg (fun hc => hvoted hc.1)] at hs'
      rw [castFirst, if_neg hvoted', hs', hrec]
  · rw [if_neg (fun hc => hzero hc.2)] at hs'
    simp only [if_neg hzero]
    rw [hs', hrec]

/-- **A valid vote is recorded, and the node casts what it then owes.** -/
theorem handleVote_of_valid
    (hpending : (c.roundState vote.electionHash vote.round).unvalidatedVotes = ∅)
    (hverdict : c.validateVote P draws.validate vote = some .valid) :
    c.handleVote P draws vote =
      if vote.round < u32Max then some (c.afterValid P draws vote) else none := by
  rw [handleVote_of_notMem hnew, hverdict]
  show Option.map _ ((c.relay vote).acceptVote P draws (c.election vote.electionHash)
    (c.roundState vote.electionHash vote.round) vote) = _
  rw [acceptVote_of_empty _ hpending]
  by_cases hmax : vote.round < u32Max
  · rw [if_pos hmax, Round.next, if_pos hmax]
    set s := (c.relay vote).receiveFirst P draws (c.roundState vote.electionHash vote.round) vote
      with hs
    -- the clone of the round state is the one that has been written to the election
    have hnext := castNextVote_eq (P := P) s.1
      ((c.election vote.electionHash).insertRound vote.round s.2) vote.electionHash vote.round
      draws
    rw [Election.roundState_insertRound_self, insertElection_receiveFirst hs] at hnext
    exact congrArg some hnext
  · rw [if_neg hmax, Round.next, if_neg hmax]
    rfl

end Vote

end Core
end NeroConsensus
