import NeroConsensus.Primary.Recording
import Mathlib.Logic.Relation

/-!
# Moves of a node

A turn of the main loop is a chain of at most four moves: the vote is noted as sent,
recorded, and followed by the own votes it calls for.  `Move` has one constructor
for each, with the guard the code has tested when it gets there.

Three of the moves record a vote, and what an invariant about the stored votes needs
to know about them is the same each time: the vote was new, it is stored and tallied
now, and nothing else in the round states changed.  `Recorded` is that common part.

The rest of the file is the frame: what each operation leaves alone.
-/

namespace NeroConsensus
namespace Core

variable {P : Params}

/-! ## Readings of the stored votes -/

/-- The vote stored under a key, in a round of an election. -/
def validated (c : Core) (h : BlockHash) (r : Round) (k : VoteHash) : Option PrimaryVote :=
  (c.roundState h r).validatedVotes.lookup k

/-- The votes stored in a round of an election. -/
def votes (c : Core) (h : BlockHash) (r : Round) : Finset PrimaryVote :=
  (c.roundState h r).validatedVotes.values

/-- The votes a proof names. -/
def named (c : Core) (h : BlockHash) (r : Round) (proof : Finset VoteHash) :
    Finset PrimaryVote :=
  (c.roundState h r).validatedVotes.valuesOn proof

/-- The keys of a round of an election. -/
def keys (c : Core) (h : BlockHash) (r : Round) : Finset VoteHash :=
  (c.roundState h r).validatedVotes.keys

theorem mem_votes {c : Core} {h : BlockHash} {r : Round} {v : PrimaryVote} :
    v ∈ c.votes h r ↔ ∃ k, c.validated h r k = some v :=
  Finmap.mem_values

theorem mem_named {c : Core} {h : BlockHash} {r : Round} {proof : Finset VoteHash}
    {v : PrimaryVote} : v ∈ c.named h r proof ↔ ∃ k ∈ proof, c.validated h r k = some v :=
  Finmap.mem_valuesOn

theorem named_subset_votes (c : Core) (h : BlockHash) (r : Round) (proof : Finset VoteHash) :
    c.named h r proof ⊆ c.votes h r :=
  Finmap.valuesOn_subset_values _ _

theorem named_keys (c : Core) (h : BlockHash) (r : Round) :
    c.named h r (c.keys h r) = c.votes h r := rfl

theorem mem_keys_iff {c : Core} {h : BlockHash} {r : Round} {k : VoteHash} :
    k ∈ c.keys h r ↔ ∃ v, c.validated h r k = some v := by
  rw [keys, Finmap.mem_keys, Finmap.mem_iff]
  rfl

/-- Only the lookups at the keys of a proof matter. -/
theorem named_congr {c c' : Core} {h : BlockHash} {r : Round} {proof : Finset VoteHash}
    (heq : ∀ k ∈ proof, c.validated h r k = c'.validated h r k) :
    c.named h r proof = c'.named h r proof :=
  Finmap.valuesOn_congr heq

/-! ## Frames -/

@[simp] theorem roundState_cast (c : Core) (v : PrimaryVote) (h : BlockHash) (r : Round) :
    (c.cast P v).roundState h r = (c.record P v).roundState h r := rfl

@[simp] theorem roundState_conclude (c : Core) (v : PrimaryVote) (h : BlockHash) (r : Round) :
    (c.conclude v).roundState h r = c.roundState h r := by
  unfold conclude
  split_ifs
  · by_cases hh : h = v.electionHash
    · subst hh
      show ((c.insertElection _ _).election _).roundState _ r = _
      rw [election_insertElection_self]
      rfl
    · show ((c.insertElection _ _).election h).roundState h r = _
      rw [election_insertElection_of_ne _ _ hh]
      rfl
  · rfl

/-- Recording a vote changes one round state. -/
theorem roundState_record (c : Core) (v : PrimaryVote) (h : BlockHash) (r : Round) :
    (c.record P v).roundState h r =
      if h = v.electionHash ∧ r = v.round then (c.roundState h r).receive P c.id v
      else c.roundState h r := by
  by_cases hh : h = v.electionHash
  · subst hh
    rw [roundState, election_record_self]
    by_cases hr : r = v.round
    · subst hr
      rw [Election.roundState_insertRound_self, if_pos ⟨rfl, rfl⟩]
    · rw [Election.roundState_insertRound_of_ne _ _ _ hr, if_neg (fun hc => hr hc.2)]
      rfl
  · rw [if_neg (fun hc => hh hc.1), roundState, record,
      election_insertElection_of_ne _ _ hh]
    rfl

@[simp] theorem isDecided_record (c : Core) (v : PrimaryVote) (h : BlockHash) :
    ((c.record P v).election h).isDecided = (c.election h).isDecided := by
  by_cases hh : h = v.electionHash
  · subst hh
    rw [election_record_self, Election.isDecided_insertRound]
  · rw [record, election_insertElection_of_ne _ _ hh]

@[simp] theorem isDecided_cast (c : Core) (v : PrimaryVote) (h : BlockHash) :
    ((c.cast P v).election h).isDecided = (c.election h).isDecided :=
  isDecided_record c v h

theorem isDecided_conclude (c : Core) (v : PrimaryVote) (h : BlockHash) :
    ((c.conclude v).election h).isDecided = true ↔
      (c.election h).isDecided = true ∨ (v.voteType = .decide ∧ v.electionHash = h) := by
  unfold conclude
  split_ifs with hd
  · by_cases hh : h = v.electionHash
    · subst hh
      show ((c.insertElection _ _).election _).isDecided = true ↔ _
      rw [election_insertElection_self]
      exact iff_of_true rfl (Or.inr ⟨hd, rfl⟩)
    · show ((c.insertElection _ _).election h).isDecided = true ↔ _
      rw [election_insertElection_of_ne _ _ hh]
      exact ⟨Or.inl, fun hc => hc.resolve_right fun hc => hh hc.2.symm⟩
  · exact ⟨Or.inl, fun hc => hc.resolve_right fun hc => hd hc.1⟩

theorem mem_elections_insertElection {c : Core} {h h' : BlockHash} {e : Election} :
    h' ∈ (c.insertElection h e).elections ↔ h' = h ∨ h' ∈ c.elections :=
  Finmap.mem_insert

theorem mem_elections_conclude {c : Core} {v : PrimaryVote} {h : BlockHash} :
    h ∈ (c.conclude v).elections ↔
      (v.voteType = .decide ∧ h = v.electionHash) ∨ h ∈ c.elections := by
  unfold conclude
  split_ifs with hd
  · exact mem_elections_insertElection.trans (or_congr_left (and_iff_right hd).symm)
  · exact ⟨Or.inr, fun hc => hc.resolve_left fun hc => hd hc.1⟩

/-- Recording a vote stores its round. -/
theorem mem_state_record {c : Core} {v : PrimaryVote} {h : BlockHash} {r : Round} :
    r ∈ ((c.record P v).election h).state ↔
      (h = v.electionHash ∧ r = v.round) ∨ r ∈ (c.election h).state := by
  by_cases hh : h = v.electionHash
  · subst hh
    rw [election_record_self]
    exact Finmap.mem_insert.trans (or_congr_left (and_iff_right rfl).symm)
  · rw [record, election_insertElection_of_ne _ _ hh]
    exact ⟨Or.inr, fun hc => hc.resolve_left fun hc => hh hc.1⟩

@[simp] theorem state_conclude (c : Core) (v : PrimaryVote) (h : BlockHash) :
    ((c.conclude v).election h).state = (c.election h).state := by
  unfold conclude
  split_ifs
  · by_cases hh : h = v.electionHash
    · subst hh
      show ((c.insertElection _ _).election _).state = _
      rw [election_insertElection_self]
    · show ((c.insertElection _ _).election h).state = _
      rw [election_insertElection_of_ne _ _ hh]
  · rfl

@[simp] theorem casts_relay (c : Core) (v : PrimaryVote) : (c.relay v).casts = c.casts := rfl

@[simp] theorem casts_record (c : Core) (v : PrimaryVote) :
    (c.record P v).casts = c.casts := rfl

@[simp] theorem casts_cast (c : Core) (v : PrimaryVote) :
    (c.cast P v).casts = c.casts ++ [v] := by
  show List.filterMap _ (c.network ++ [_]) = _
  rw [List.filterMap_append]
  rfl

theorem mem_casts_cast {c : Core} {v w : PrimaryVote} :
    w ∈ (c.cast P v).casts ↔ w ∈ c.casts ∨ w = v := by
  rw [casts_cast, List.mem_append, List.mem_singleton]

/-- What some vote that has been cast satisfies, an earlier one or the last one does. -/
theorem exists_mem_casts_cast {c : Core} {v : PrimaryVote} {p : PrimaryVote → Prop} :
    (∃ w ∈ (c.cast P v).casts, p w) ↔ (∃ w ∈ c.casts, p w) ∨ p v := by
  simp only [mem_casts_cast, or_and_right, exists_or, exists_eq_left]

@[simp] theorem casts_conclude (c : Core) (v : PrimaryVote) :
    (c.conclude v).casts = c.casts := by
  unfold conclude
  split_ifs <;> rfl

@[simp] theorem id_conclude (c : Core) (v : PrimaryVote) : (c.conclude v).id = c.id := by
  unfold conclude
  split_ifs <;> rfl

@[simp] theorem byzantine_conclude (c : Core) (v : PrimaryVote) :
    (c.conclude v).byzantine = c.byzantine := by
  unfold conclude
  split_ifs <;> rfl

@[simp] theorem sentVotes_conclude (c : Core) (v : PrimaryVote) :
    (c.conclude v).sentVotes = c.sentVotes := by
  unfold conclude
  split_ifs <;> rfl

/-! ## What receiving a vote does to a round -/

@[simp] theorem validatedVotes_receive (id : PublicKey) (rs : RoundState) (v : PrimaryVote) :
    (rs.receive P id v).validatedVotes = rs.validatedVotes.insert (v.voteHash P) v := by
  rw [RoundState.receive, RoundState.insertValidated, RoundState.tallyVote_eq]
  split_ifs <;> rfl

theorem voted_receive (id : PublicKey) (rs : RoundState) (v : PrimaryVote) :
    (rs.receive P id v).voted = true ↔ rs.voted = true ∨ v.signer = id := by
  rw [RoundState.receive, RoundState.insertValidated, RoundState.tallyVote_eq]
  split_ifs with hown
  · exact iff_of_true rfl (Or.inr hown)
  · exact ⟨Or.inl, fun hc => hc.resolve_right hown⟩

theorem tally_receive (id : PublicKey) (rs : RoundState) (v : PrimaryVote) :
    (rs.receive P id v).tally = (rs.tallyVote v).tally := by
  show ((if v.signer = id then { rs with voted := true } else rs).tallyVote v).tally = _
  unfold RoundState.tallyVote
  split_ifs <;> rfl

/-- After a vote is recorded it is found under its key, and every other lookup is as
before. -/
theorem validated_record (c : Core) (v : PrimaryVote) (h : BlockHash) (r : Round)
    (k : VoteHash) :
    (c.record P v).validated h r k =
      if h = v.electionHash ∧ r = v.round ∧ k = v.voteHash P then some v
      else c.validated h r k := by
  rw [validated, roundState_record]
  by_cases hhr : h = v.electionHash ∧ r = v.round
  · rw [if_pos hhr, validatedVotes_receive]
    by_cases hk : k = v.voteHash P
    · subst hk
      rw [if_pos ⟨hhr.1, hhr.2, rfl⟩, Finmap.lookup_insert]
    · rw [if_neg (fun hc => hk hc.2.2), Finmap.lookup_insert_of_ne _ hk]
      rfl
  · rw [if_neg hhr, if_neg (fun hc => hhr ⟨hc.1, hc.2.1⟩)]
    rfl

/-! ## Moves -/

/-- An elementary change of a node, with the guard under which the code makes it. -/
inductive Move (P : Params) : Core → Core → Prop where
  | relay (c : Core) (v : PrimaryVote) : Move P c (c.relay v)
  | accept (c : Core) (v : PrimaryVote) (draw : Bool × Bool)
      (hnew : v.voteHash P ∉ c.keys v.electionHash v.round)
      (hverdict : c.validateVote P draw v = some .valid) : Move P c (c.record P v)
  | castFirst (c : Core) (h : BlockHash) (draw : Bool)
      (hvoted : (c.roundState h 0).voted = false) :
      Move P c (c.cast P (PrimaryVote.random c.id h draw))
  | castNext (c : Core) (h : BlockHash) (r : Round) (draw : Bool × Bool)
      (hready : c.Ready P h r) (hmax : r < u32Max) :
      Move P c ((c.cast P (c.nextVote P draw h r)).conclude (c.nextVote P draw h r))

/-- **The outcomes of a call.**  Nothing but `sent_votes` changes, or the vote is new
and valid and the node is `afterValid`. -/
theorem handleVote_cases {c c' : Core} {v : PrimaryVote} {draws : Draws}
    (hpending : ∀ h r, (c.roundState h r).unvalidatedVotes = ∅)
    (h : c.handleVote P draws v = some c') :
    c' = c.relay v ∨
      (v.voteHash P ∉ c.keys v.electionHash v.round ∧
        c.validateVote P draws.validate v = some .valid ∧ v.round < u32Max ∧
        c' = c.afterValid P draws v) := by
  by_cases hmem : v.voteHash P ∈ (c.roundState v.electionHash v.round).validatedVotes
  · rw [handleVote_of_mem hmem] at h
    exact Or.inl (Option.some.inj h).symm
  · have hnew : v.voteHash P ∉ c.keys v.electionHash v.round :=
      fun hc => hmem (Finmap.mem_keys.mp hc)
    cases hverdict : c.validateVote P draws.validate v with
    | none =>
      rw [handleVote_of_panic hmem hverdict] at h
      cases h
    | some status =>
      cases status with
      | valid =>
        rw [handleVote_of_valid hmem (hpending _ _) hverdict] at h
        by_cases hmax : v.round < u32Max
        · rw [if_pos hmax] at h
          exact Or.inr ⟨hnew, rfl, hmax, (Option.some.inj h).symm⟩
        · rw [if_neg hmax] at h
          cases h
      | invalid =>
        rw [handleVote_of_invalid hmem hverdict] at h
        exact Or.inl (Option.some.inj h).symm
      | pending =>
        rw [handleVote_of_pending hmem hverdict] at h
        exact Or.inl (Option.some.inj h).symm

open Relation in
theorem moves_castFirst (c : Core) (h : BlockHash) (draw : Bool) :
    ReflTransGen (Move P) c (c.castFirst P draw h) := by
  unfold castFirst
  split_ifs with hvoted
  · exact ReflTransGen.single (Move.castFirst c h draw hvoted)
  · exact ReflTransGen.refl

open Relation in
theorem moves_castNext (c : Core) (h : BlockHash) {r : Round} (draw : Bool × Bool)
    (hmax : r < u32Max) : ReflTransGen (Move P) c (c.castNext P draw h r) := by
  unfold castNext
  split_ifs with hready
  · exact ReflTransGen.single (Move.castNext c h r draw hready hmax)
  · exact ReflTransGen.refl

open Relation in
theorem moves_afterReceipt {c : Core} {v : PrimaryVote} (draws : Draws)
    (hnew : v.voteHash P ∉ c.keys v.electionHash v.round)
    (hverdict : c.validateVote P draws.validate v = some .valid) :
    ReflTransGen (Move P) c (c.afterReceipt P draws v) := by
  have hrecord : ReflTransGen (Move P) c ((c.relay v).record P v) :=
    (ReflTransGen.single (Move.relay c v)).tail
      (Move.accept (c.relay v) v draws.validate hnew hverdict)
  unfold afterReceipt
  split_ifs
  · exact hrecord.trans (moves_castFirst _ _ _)
  · exact hrecord

/-- A transaction that does not panic --- and none does --- casts the first vote. -/
theorem eq_castFirst_of_step {c c' : Core} {tx : Transaction} {draw : Bool}
    (h : c.step P (.transaction tx draw) = some c') : c' = c.castFirst P draw tx.digest := by
  rw [← handleTransaction_eq]
  exact (Option.some.inj h).symm

open Relation in
/-- **A turn of the main loop is a chain of moves.** -/
theorem moves_of_step {c c' : Core} {event : Event}
    (hpending : ∀ h r, (c.roundState h r).unvalidatedVotes = ∅)
    (h : c.step P event = some c') : ReflTransGen (Move P) c c' := by
  cases event with
  | transaction tx draw =>
    rw [eq_castFirst_of_step h]
    exact moves_castFirst c tx.digest draw
  | vote v draws =>
    rcases handleVote_cases hpending h with rfl | ⟨hnew, hverdict, hmax, rfl⟩
    · exact ReflTransGen.single (Move.relay c v)
    · exact (moves_afterReceipt draws hnew hverdict).trans (moves_castNext _ _ draws.next hmax)

/-- What every move preserves, a chain of moves preserves. -/
theorem invariant_of_moves {I : Core → Prop} {c c' : Core}
    (hmoves : Relation.ReflTransGen (Move P) c c')
    (hmove : ∀ s s', Move P s s' → I s → I s') (hc : I c) : I c' := by
  induction hmoves with
  | refl => exact hc
  | tail _ hlast ih => exact hmove _ _ hlast ih

/-! ## The common part of the recording moves -/

/-- The node `c'` is `c` with the vote `v` recorded, as far as the round states go. -/
structure Recorded (P : Params) (c c' : Core) (v : PrimaryVote) : Prop where
  id : c'.id = c.id
  byzantine : c'.byzantine = c.byzantine
  sentVotes : c'.sentVotes = c.sentVotes
  roundState : ∀ h r, c'.roundState h r = (c.record P v).roundState h r

theorem recorded_record (c : Core) (v : PrimaryVote) : Recorded P c (c.record P v) v :=
  ⟨rfl, rfl, rfl, fun _ _ => rfl⟩

theorem recorded_cast (c : Core) (v : PrimaryVote) : Recorded P c (c.cast P v) v :=
  ⟨rfl, rfl, rfl, fun _ _ => rfl⟩

theorem recorded_conclude (c : Core) (v : PrimaryVote) :
    Recorded P c ((c.cast P v).conclude v) v :=
  ⟨id_conclude _ _, byzantine_conclude _ _, sentVotes_conclude _ _,
    fun _ _ => roundState_conclude _ _ _ _⟩

namespace Recorded

variable {c c' : Core} {v : PrimaryVote}

theorem validated (hrec : Recorded P c c' v) (h : BlockHash) (r : Round) (k : VoteHash) :
    c'.validated h r k =
      if h = v.electionHash ∧ r = v.round ∧ k = v.voteHash P then some v
      else c.validated h r k := by
  rw [← validated_record, Core.validated, hrec.roundState, Core.validated]

theorem validated_self (hrec : Recorded P c c' v) :
    c'.validated v.electionHash v.round (v.voteHash P) = some v := by
  rw [hrec.validated, if_pos ⟨rfl, rfl, rfl⟩]

/-- The old entries stay. -/
theorem validated_of_some (hrec : Recorded P c c' v)
    (hnew : v.voteHash P ∉ c.keys v.electionHash v.round) {h : BlockHash} {r : Round}
    {k : VoteHash} {w : PrimaryVote} (hw : c.validated h r k = some w) :
    c'.validated h r k = some w := by
  rw [hrec.validated, if_neg, hw]
  rintro ⟨rfl, rfl, rfl⟩
  exact hnew (mem_keys_iff.mpr ⟨w, hw⟩)

/-- An entry is the new one or an old one. -/
theorem validated_cases (hrec : Recorded P c c' v) {h : BlockHash} {r : Round}
    {k : VoteHash} {w : PrimaryVote} (hw : c'.validated h r k = some w) :
    (h = v.electionHash ∧ r = v.round ∧ k = v.voteHash P ∧ w = v) ∨
      c.validated h r k = some w := by
  rw [hrec.validated] at hw
  split_ifs at hw with hcond
  · exact Or.inl ⟨hcond.1, hcond.2.1, hcond.2.2, (Option.some.inj hw).symm⟩
  · exact Or.inr hw

theorem mem_votes (hrec : Recorded P c c' v) {h : BlockHash} {r : Round} {w : PrimaryVote}
    (hw : w ∈ c'.votes h r) : w ∈ c.votes h r ∨ w = v := by
  obtain ⟨k, hk⟩ := Core.mem_votes.mp hw
  rcases hrec.validated_cases hk with ⟨-, -, -, heq⟩ | hold
  · exact Or.inr heq
  · exact Or.inl (Core.mem_votes.mpr ⟨k, hold⟩)

theorem votes (hrec : Recorded P c c' v)
    (hnew : v.voteHash P ∉ c.keys v.electionHash v.round) (h : BlockHash) (r : Round) :
    c'.votes h r =
      if h = v.electionHash ∧ r = v.round then insert v (c.votes h r) else c.votes h r := by
  rw [Core.votes, hrec.roundState, roundState_record]
  split_ifs with hcond
  · obtain ⟨rfl, rfl⟩ := hcond
    rw [validatedVotes_receive,
      Finmap.values_insert v (fun hc => hnew (Finmap.mem_keys.mpr hc))]
    rfl
  · rfl

theorem keys (hrec : Recorded P c c' v) (h : BlockHash) (r : Round) :
    c'.keys h r =
      if h = v.electionHash ∧ r = v.round then insert (v.voteHash P) (c.keys h r)
      else c.keys h r := by
  rw [Core.keys, hrec.roundState, roundState_record]
  split_ifs with hcond
  · rw [validatedVotes_receive, Finmap.keys_insert]
    rfl
  · rfl

theorem keys_subset (hrec : Recorded P c c' v) (h : BlockHash) (r : Round) :
    c.keys h r ⊆ c'.keys h r := by
  rw [hrec.keys]
  split_ifs
  · exact Finset.subset_insert _ _
  · exact subset_rfl

end Recorded
end Core
end NeroConsensus
