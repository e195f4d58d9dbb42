import NeroConsensus.Protocol.Agreement

/-!
# What a node can come to hold

Two consequences of the lock, read in the states of a network in which at most `f` of
the `3 * f + 1` members of a committee are faulty.

* `value_of_unanimous`: correct nodes that start an election with one value vote for
  nothing else in it.  In the view of each of them the correct votes of round 0 are for
  that value, and `View.uniform_of_start` carries this through the rounds.
* `not_clash`: a correct node never holds `Commit`s or `Decide`s for both values, so the
  branch of `make_decision` that is marked "This should not happen!!!" is not taken, on
  none of the tallies a call puts to it (`Core.Deliberates`).
-/

namespace NeroConsensus

variable {P : Params} {C : Committee PublicKey P.numberOfByzantineNodes}

/-! ## The branch that should not happen -/

/-- The condition of the first branch of `make_decision`. -/
def Clash (P : Params) (tally : Tally) : Prop :=
  P.semiQuorum ≤ tally.zeroCommits ∧ P.semiQuorum ≤ tally.oneCommits

/-- Votes of which no two commit to different values do not clash, however they are
counted. -/
theorem not_clash_of_value_eq {S : Finset PrimaryVote}
    (hS : ∀ v ∈ S, ∀ w ∈ S, v.voteType ≠ .initialVote → w.voteType ≠ .initialVote →
      v.value = w.value) {tally : Tally}
    (hle : ∀ ty b, tally.counter ty b ≤ (Tally.fromVotes S).counter ty b) :
    ¬Clash P tally := by
  rintro ⟨hzero, hone⟩
  have hpos := P.semiQuorum_pos
  obtain ⟨v, hv, hvtype, hvalue⟩ := exists_of_counter_pos
    (hpos.trans_le (hzero.trans (hle .commit .zero)))
  obtain ⟨w, hw, hwtype, hwvalue⟩ := exists_of_counter_pos
    (hpos.trans_le (hone.trans (hle .commit .one)))
  have heq := hS v hv w hw (by rw [hvtype]; exact VoteType.noConfusion)
    (by rw [hwtype]; exact VoteType.noConfusion)
  rw [hvalue, hwvalue] at heq
  cases heq

namespace Core

/-- The tallies a call of `handle_vote` puts to `make_decision`: in `validate_vote` the one
it rebuilds from a proof whose votes are all there, and before the vote of the next round
the running one of the round. -/
inductive Deliberates (P : Params) (c : Core) (draws : Draws) (v : PrimaryVote) : Tally → Prop
  where
  | validating (r : Round) (p : Finset VoteHash) (hround : v.round = r + 1)
      (hstored : r ∈ (c.election v.electionHash).state) (hproof : v.proof = some p)
      (hp : p ⊆ c.keys v.electionHash r) :
      Deliberates P c draws v (Tally.fromVotes (c.named v.electionHash r p))
  | voting (hnew : v.voteHash P ∉ c.keys v.electionHash v.round)
      (hverdict : c.validateVote P draws.validate v = some .valid) (hmax : v.round < u32Max)
      (hready : (c.afterReceipt P draws v).Ready P v.electionHash v.round) :
      Deliberates P c draws v
        ((c.afterReceipt P draws v).roundState v.electionHash v.round).tally

/-- A node that deliberates on its vote returns, and the round it has counted stays as it
is. -/
theorem handleVote_of_ready {c : Core} {draws : Draws} {v : PrimaryVote} (hp : c.NoPending)
    (hnew : v.voteHash P ∉ c.keys v.electionHash v.round)
    (hverdict : c.validateVote P draws.validate v = some .valid) (hmax : v.round < u32Max)
    (hready : (c.afterReceipt P draws v).Ready P v.electionHash v.round) :
    ∃ c', c.handleVote P draws v = some c' ∧
      c'.roundState v.electionHash v.round =
        (c.afterReceipt P draws v).roundState v.electionHash v.round := by
  have hnew' : v.voteHash P ∉ (c.roundState v.electionHash v.round).validatedVotes :=
    fun hc => hnew (Finmap.mem_keys.mpr hc)
  refine ⟨c.afterValid P draws v, ?_, ?_⟩
  · rw [handleVote_of_valid hnew' (hp _ _) hverdict, if_pos hmax]
  · rw [afterValid, castNext, if_pos hready, roundState_conclude, roundState_cast,
      roundState_record]
    exact if_neg fun hc => Nat.succ_ne_self v.round hc.2.symm

end Core

namespace System

variable {addresses : PublicKey → List (PublicKey × SocketAddr)} {s : System}

section Runs

variable (hdigest : Function.Injective P.sha512)
  (hreach : (network P C.correct fun s _ v => s.Byzantine C v).Reachable (start addresses) s)

include hdigest hreach

/-! ## Validity -/

/-- The votes of round 0 of correct nodes, stored anywhere, have been cast. -/
theorem uniform_zero {h : BlockHash} {b : Value}
    (hstart : ∀ z ∈ C.correct, ∀ w ∈ (s.nodes z).casts, w.electionHash = h → w.round = 0 →
      w.value = b) {x : PublicKey} {v : PrimaryVote} (hv : v ∈ (s.nodes x).votes h 0)
    (hcorrect : v.signer ∈ C.correct) : v.value = b := by
  have hs := sound_node hdigest hreach x
  obtain ⟨hround, hh⟩ := hs.place_of_mem_votes hv
  have hcast := broadcast_of_mem_votes hdigest (fun _ _ _ hok => hok.2) hreach x h 0 v hv
    hcorrect
  exact hstart v.signer hcorrect v hcast hh hround

/-- **Validity.**  If all the votes that correct nodes cast in round 0 of an election are
for one value, so are all the votes they ever cast for it, and so are their decisions. -/
theorem value_of_unanimous {h : BlockHash} {b : Value}
    (hstart : ∀ z ∈ C.correct, ∀ w ∈ (s.nodes z).casts, w.electionHash = h → w.round = 0 →
      w.value = b) {x : PublicKey} (hx : x ∈ C.correct) :
    (∀ v ∈ (s.nodes x).casts, v.electionHash = h → v.value = b) ∧
      ∀ b', (s.nodes x).decided.lookup h = some b' → b' = b := by
  have hcasts : ∀ v ∈ (s.nodes x).casts, v.electionHash = h → v.value = b := by
    rintro v hv rfl
    have hstored := (sound_node hdigest hreach x).stored v hv
    have hsigner := (broadcast_of_mem_casts hdigest hreach hv).1
    refine View.uniform_of_start
      (V := (views hdigest (fun _ _ _ hok => hok) hreach v.electionHash).view x hx)
      (fun w hw => uniform_zero hdigest hreach hstart hw) v.round v
      (Core.mem_votes.mpr ⟨_, hstored⟩) ?_
    rw [hsigner]
    exact hx
  refine ⟨hcasts, fun b' hb' => ?_⟩
  obtain ⟨v, hv, -, hh, -, rfl⟩ := exists_decide_of_decided hdigest hreach hb'
  exact hcasts v hv hh

/-! ## One value in a node -/

/-- All the `Commit`s and `Decide`s that a correct node holds of an election are for one
value. -/
theorem value_eq {x : PublicKey} (hx : x ∈ C.correct) {h : BlockHash} {r r' : Round}
    {v w : PrimaryVote} (hv : v ∈ (s.nodes x).votes h r) (hw : w ∈ (s.nodes x).votes h r')
    (hvtype : v.voteType ≠ .initialVote) (hwtype : w.voteType ≠ .initialVote) :
    v.value = w.value :=
  View.value_eq (V := (views hdigest (fun _ _ _ hok => hok) hreach h).view x hx) hv hw hvtype
    hwtype

/-- **Conflicting `Commit`s never meet.**  A correct node holds `Commit`s and `Decide`s
for one value only, over all the rounds of an election, and no call it makes comes to the
branch that should not happen. -/
theorem not_clash {x : PublicKey} (hx : x ∈ C.correct) :
    (∀ h r r', ∀ v ∈ (s.nodes x).votes h r, ∀ w ∈ (s.nodes x).votes h r',
      v.voteType ≠ .initialVote → w.voteType ≠ .initialVote → v.value = w.value) ∧
    ∀ v draws tally, (network P C.correct fun s _ v => s.Byzantine C v).guard s
      ⟨x, .vote v draws⟩ → Core.Deliberates P (s.nodes x) draws v tally → ¬Clash P tally := by
  refine ⟨fun h r r' v hv w hw => value_eq hdigest hreach hx hv hw, ?_⟩
  rintro v draws tally hguard hdeliberates
  cases hdeliberates with
  | validating r p hround hstored hproof hp =>
    exact not_clash_of_value_eq
      (fun u hu w hw => value_eq hdigest hreach hx (Core.named_subset_votes _ _ r p hu)
        (Core.named_subset_votes _ _ r p hw)) fun _ _ => le_rfl
  | voting hnew hverdict hmax hready =>
    -- the tally is still there after the turn, and the state then is reachable as well
    obtain ⟨c', hturn, hround⟩ := Core.handleVote_of_ready
      (sound_node hdigest hreach x).noPending hnew hverdict hmax hready
    have hnext : (network P C.correct fun s _ v => s.Byzantine C v).Reachable
        (start addresses) (s.next P ⟨x, .vote v draws⟩) := hreach.step hguard
    have hnode : (s.next P ⟨x, .vote v draws⟩).nodes x = c' := by
      rw [nodes_next_of_some (t := ⟨x, .vote v draws⟩) hturn, Function.update_self]
    have htally := (sound_node hdigest hnext x).tally v.electionHash v.round
    rw [hnode, hround] at htally
    rw [htally, ← hnode]
    exact not_clash_of_value_eq (fun u hu w hw => value_eq hdigest hnext hx hu hw)
      (Tally.counter_running_le _)

end Runs

/-! ## Runs -/

theorem value_of_unanimous_unanimous :
    (∀ v ∈ (unanimous.nodes (authority 1)).casts, v.electionHash = block → v.value = .zero) ∧
      ∀ b', (unanimous.nodes (authority 1)).decided.lookup block = some b' → b' = .zero :=
  value_of_unanimous (C := trio) Params.source_injective reachable_unanimous
    (by decide +kernel) (by decide +kernel)

theorem not_clash_unanimous :
    (∀ h r r', ∀ v ∈ (unanimous.nodes (authority 1)).votes h r,
      ∀ w ∈ (unanimous.nodes (authority 1)).votes h r',
      v.voteType ≠ .initialVote → w.voteType ≠ .initialVote → v.value = w.value) ∧
    ∀ v draws tally, (network Params.source trio.correct fun s _ v => s.Byzantine trio v).guard
      unanimous ⟨authority 1, .vote v draws⟩ →
        Core.Deliberates Params.source (unanimous.nodes (authority 1)) draws v tally →
          ¬Clash Params.source tally :=
  not_clash (C := trio) Params.source_injective reachable_unanimous (by decide +kernel)

end System
end NeroConsensus
