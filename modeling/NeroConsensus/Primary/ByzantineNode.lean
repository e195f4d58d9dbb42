import NeroConsensus.Primary.OwnVotes
import NeroConsensus.Primary.Validation

/-!
# A node that is told to be Byzantine

With `byzantine = true`, `make_decision` draws its decision at random unless a `Decide` for `One`
has been counted; its guard names `one_decides` twice, and `zero_decides` not at all.  A random
decision is never a `Decide`, and `validate_vote` compares the votes of others with decisions of the
node's own.  So such a node accepts no first `Decide`, of whatever value and with whatever proof,
hence none at all.

`decided_eq_none_of_byzantine`: it never decides, whatever the others have decided and send it.
-/

namespace NeroConsensus

/-- A vote that is not a `Decide` leaves the count of the `Decide`s as it is. -/
theorem RoundState.oneDecides_tallyVote (rs : RoundState) {v : PrimaryVote}
    (h : v.voteType ≠ .decide) : (rs.tallyVote v).tally.oneDecides = rs.tally.oneDecides := by
  unfold RoundState.tallyVote
  split_ifs with h₁ h₂ h₃ h₄ h₅ <;> first | rfl | exact absurd h₅.1 h

theorem Decision.voteType_random (draw : Bool × Bool) :
    (Decision.random draw).voteType ≠ .decide := by
  obtain ⟨value, voteType⟩ := draw
  cases voteType <;> exact VoteType.noConfusion

namespace Core

variable {P : Params} {c c' : Core}

/-- No `Decide` is stored, counted or cast. -/
structure Indecisive (c : Core) : Prop where
  votes : ∀ h r, ∀ v ∈ c.votes h r, v.voteType ≠ .decide
  tally : ∀ h r, (c.roundState h r).tally.oneDecides = 0
  casts : ∀ v ∈ c.casts, v.voteType ≠ .decide

/-- Where no `Decide` for `One` is counted, the decision is drawn. -/
theorem voteType_makeDecision (hbyz : c.byzantine = true) {tally : Tally}
    (htally : tally.oneDecides = 0) (draw : Bool × Bool) :
    (c.makeDecision P draw tally).voteType ≠ .decide := by
  rw [makeDecision, if_pos ⟨hbyz, htally, htally⟩]
  exact Decision.voteType_random draw

namespace Indecisive

theorem spawn (id : PublicKey) (addresses : List (PublicKey × SocketAddr)) (byzantine : Bool) :
    Indecisive (Core.spawn id addresses byzantine) where
  votes h r v hv := by
    rw [votes_spawn] at hv
    exact absurd hv (Finset.notMem_empty v)
  tally _ _ := rfl
  casts v hv := absurd hv List.not_mem_nil

theorem record (h : Indecisive c) {v : PrimaryVote} (hv : v.voteType ≠ .decide) :
    Indecisive (c.record P v) where
  votes h' r w hw := by
    rcases (recorded_record (P := P) c v).mem_votes hw with hw | rfl
    · exact h.votes h' r w hw
    · exact hv
  tally h' r := by
    rw [roundState_record]
    split_ifs
    · rw [tally_receive, RoundState.oneDecides_tallyVote _ hv, h.tally]
    · exact h.tally h' r
  casts := h.casts

theorem cast (h : Indecisive c) {v : PrimaryVote} (hv : v.voteType ≠ .decide) :
    Indecisive (c.cast P v) where
  votes := (h.record hv).votes
  tally := (h.record hv).tally
  casts w hw := by
    rcases mem_casts_cast.mp hw with hw | rfl
    · exact h.casts w hw
    · exact hv

/-- The votes that a proof names include no `Decide`. -/
theorem oneDecides_named (h : Indecisive c) (h' : BlockHash) (r : Round)
    (p : Finset VoteHash) : (Tally.fromVotes (c.named h' r p)).oneDecides = 0 :=
  counter_eq_zero (fun v hv => h.votes h' r v (named_subset_votes c h' r p hv)) .one

/-- No `Decide` is valid. -/
theorem voteType_of_valid (h : Indecisive c) (hbyz : c.byzantine = true) {draw : Bool × Bool}
    {v : PrimaryVote} (hverdict : c.validateVote P draw v = some .valid) :
    v.voteType ≠ .decide := by
  cases hround : v.round with
  | zero =>
    rw [validateVote_zero c draw hround] at hverdict
    split_ifs at hverdict with htype
    · rw [htype]
      exact VoteType.noConfusion
    · cases hverdict
  | succ r =>
    obtain ⟨-, p, -, -, hdecision⟩ := (validateVote_valid_iff c draw hround).mp hverdict
    have htype := voteType_makeDecision (P := P) hbyz (h.oneDecides_named v.electionHash r p) draw
    rw [hdecision] at htype
    exact htype

/-- **Every move of a node that is told to be Byzantine.** -/
theorem move (h : Indecisive c) (hbyz : c.byzantine = true) (hmove : Move P c c') :
    Indecisive c' ∧ c'.byzantine = true := by
  cases hmove with
  | relay v => exact ⟨⟨h.votes, h.tally, h.casts⟩, hbyz⟩
  | accept v draw _ hverdict => exact ⟨h.record (h.voteType_of_valid hbyz hverdict), hbyz⟩
  | castFirst h' draw _ => exact ⟨h.cast VoteType.noConfusion, hbyz⟩
  | castNext h' r draw _ _ =>
    have htype : (c.nextVote P draw h' r).voteType ≠ .decide :=
      voteType_makeDecision hbyz (h.tally h' r) draw
    rw [conclude, if_neg htype]
    exact ⟨h.cast htype, hbyz⟩

end Indecisive

/-- **A Byzantine node never decides.**  In every run of a node with `byzantine = true`, whatever
transactions and votes it is given and whatever it draws: it stores no `Decide`, casts none, and
has decided nothing. -/
theorem decided_eq_none_of_byzantine {id : PublicKey}
    {addresses : List (PublicKey × SocketAddr)}
    (hreach : (machine P).Reachable (spawn id addresses true) c) (h : BlockHash) :
    (∀ r, ∀ v ∈ c.votes h r, v.voteType ≠ .decide) ∧ (∀ v ∈ c.casts, v.voteType ≠ .decide) ∧
      c.decided.lookup h = none := by
  have hinv : Indecisive c ∧ c.byzantine = true := by
    refine hreach.invariant (P := fun c => Indecisive c ∧ c.byzantine = true)
      ⟨.spawn id addresses true, rfl⟩ fun s event hs hinv hguard => ?_
    exact invariant_of_moves (I := fun c => Indecisive c ∧ c.byzantine = true)
      (moves_of_step (Reached.noPending ⟨_, _, _, hs⟩) (machine_next hguard))
      (fun s s' hmove hinv => hinv.1.move hinv.2 hmove) hinv
  refine ⟨hinv.1.votes h, hinv.1.casts, ?_⟩
  have hsettled := (steady_grows_of_reachable hreach (steady_spawn id addresses true)).1.settled
  cases hlookup : c.decided.lookup h with
  | none => rfl
  | some b =>
    obtain ⟨v, hv, -, htype, -⟩ := (hsettled.decided h b).mp hlookup
    exact absurd htype (hinv.1.casts v hv)

/-- A node that is told to be Byzantine hears how three others go through an election: their first
votes, their `Commit`s and their `Decide`s. -/
def bystanding : List Event :=
  [firstBallot 2 .zero, firstBallot 3 .zero, firstBallot 4 .zero,
    ballot 2 1 .zero .commit [2, 3, 4], ballot 3 1 .zero .commit [2, 3, 4],
    ballot 4 1 .zero .commit [2, 3, 4], ballot 2 2 .zero .decide [2, 3, 4],
    ballot 3 2 .zero .decide [2, 3, 4], ballot 4 2 .zero .decide [2, 3, 4]].map fun v =>
      .vote v { Draws.of false with validate := (false, true) }

theorem decided_eq_none_of_byzantine_bystanding :
    let c := (machine Params.source).run (spawn (authority 1) [] true) bystanding
    (∀ r, ∀ v ∈ c.votes block r, v.voteType ≠ .decide) ∧
      (∀ v ∈ c.casts, v.voteType ≠ .decide) ∧ c.decided.lookup block = none :=
  decided_eq_none_of_byzantine (GuardedMachine.reachable_run bystanding (by decide +kernel)) block

end Core
end NeroConsensus
