import NeroConsensus.Primary.NodeInvariants

/-!
# What a validated vote rests on

`validate_vote` rebuilds the tally of the votes a proof names and compares the
decision on it with the vote.  `validateVote_zero` and `validateVote_succ` say this
of the two entry paths, a vote of round 0 and a vote with a proof, and the rest of
the development uses nothing else about it.

`Justified` is the invariant that comes out of it for a node that is not Byzantine.
A validated vote of round `r + 1` names votes of round `r` that are all stored, and
the decision rule on them yields the vote --- on the full tally if the vote was
received, on the running tally if the node cast it itself.

`Casts P c v r p` collects what the node guarantees about its own votes: the proof `p`
is a quorum of stored votes of round `r`, and `v` is the decision on their running
tally.  `Accepts P c v r p` is what it has checked of the others'.
-/

namespace NeroConsensus

/-- What a vote says, apart from who says it and why. -/
def PrimaryVote.decision (v : PrimaryVote) : Decision := ⟨v.value, v.voteType⟩

theorem PrimaryVote.decision_of_voteType {v : PrimaryVote} {ty : VoteType}
    (h : v.voteType = ty) : v.decision = ⟨v.value, ty⟩ := by
  rw [decision, h]

theorem PrimaryVote.value_of_decision {v : PrimaryVote} {d : Decision} (h : d = v.decision) :
    v.value = d.value := by
  rw [h]
  rfl

theorem PrimaryVote.voteType_of_decision {v : PrimaryVote} {d : Decision}
    (h : d = v.decision) : v.voteType = d.voteType := by
  rw [h]
  rfl

namespace Core

variable {P : Params}

/-! ## The two entry paths -/

/-- A vote of round 0 has to be an initial vote. -/
theorem validateVote_zero (c : Core) (draw : Bool × Bool) {v : PrimaryVote}
    (hround : v.round = 0) :
    c.validateVote P draw v =
      if v.voteType = .initialVote then some .valid else some .invalid := by
  rw [validateVote, if_neg (fun hne => hne hround)]
  cases v.voteType <;> rfl

theorem subset_keys_iff {c : Core} {h : BlockHash} {r : Round} {p : Finset VoteHash} :
    p ⊆ c.keys h r ↔ ¬∃ k ∈ p, k ∉ (c.roundState h r).validatedVotes := by
  rw [not_exists]
  constructor
  · intro hp k hk
    exact hk.2 (Finmap.mem_keys.mp (hp hk.1))
  · intro hp k hk
    by_contra hc
    exact hp k ⟨hk, fun hmem => hc (Finmap.mem_keys.mpr hmem)⟩

/-- **A vote with a round before it.**  The election and the round before have to be
stored, and there has to be a proof, or the call panics.  Then the vote is pending
while a named vote is missing, and otherwise it is judged by the decision on the named
votes. -/
theorem validateVote_succ (c : Core) (draw : Bool × Bool) {v : PrimaryVote} {r : Round}
    (hround : v.round = r + 1) :
    c.validateVote P draw v =
      if r ∈ (c.election v.electionHash).state then
        v.proof.bind fun p =>
          if p ⊆ c.keys v.electionHash r then
            if c.makeDecision P draw (Tally.fromVotes (c.named v.electionHash r p)) =
                v.decision then some .valid
            else some .invalid
          else some .pending
      else some .invalid := by
  have hne : v.round ≠ 0 := by
    rw [hround]
    exact Nat.succ_ne_zero r
  have hpred : v.round - 1 = r := by
    rw [hround]
    rfl
  rw [validateVote, if_pos hne, hpred]
  cases he : c.elections.lookup v.electionHash with
  | none =>
    have hstored : r ∉ (c.election v.electionHash).state := by
      rw [election, he]
      exact Finmap.notMem_empty
    rw [if_neg hstored]
  | some e =>
    have helection : c.election v.electionHash = e := by
      rw [election, he, Option.getD_some]
    rw [helection]
    cases hrs : e.state.lookup r with
    | none =>
      rw [if_neg (Finmap.lookup_eq_none.mp hrs)]
      simp only [hrs]
    | some rs =>
      have hround' : c.roundState v.electionHash r = rs := by
        rw [roundState, helection, Election.roundState, hrs, Option.getD_some]
      rw [if_pos (Finmap.mem_of_lookup hrs)]
      cases hproof : v.proof with
      | none => simp only [hrs, Option.bind_none]
      | some p =>
        simp only [hrs, Option.bind_some]
        by_cases hp : p ⊆ c.keys v.electionHash r
        · have hp' := subset_keys_iff.mp hp
          rw [hround'] at hp'
          have hd : ∀ d : Decision, (d.voteType = v.voteType ∧ d.value = v.value) =
              (d = v.decision) := by
            intro d
            cases d
            simp only [PrimaryVote.decision, Decision.mk.injEq, eq_iff_iff]
            exact and_comm
          rw [if_pos hp, if_neg hp']
          simp only [named, hround', hd]
        · have hp' := mt subset_keys_iff.mpr hp
          rw [hround', not_not] at hp'
          rw [if_neg hp, if_pos hp']

/-- A round that holds a vote is stored. -/
theorem mem_state_of_mem_keys {c : Core} {h : BlockHash} {r : Round} {k : VoteHash}
    (hk : k ∈ c.keys h r) : r ∈ (c.election h).state := by
  have hne : c.roundState h r ≠ RoundState.new h := by
    intro heq
    rw [keys, heq] at hk
    exact Finmap.notMem_empty (Finmap.mem_keys.mp hk)
  exact Finmap.mem_of_lookup (lookup_of_roundState_ne hne)

theorem mem_elections_of_mem_state {c : Core} {h : BlockHash} {r : Round}
    (hr : r ∈ (c.election h).state) : h ∈ c.elections := by
  obtain ⟨rs, hrs⟩ := Finmap.mem_iff.mp hr
  exact mem_elections_of_lookup hrs

/-- What it takes to be valid, in a round that is not the first. -/
theorem validateVote_valid_iff (c : Core) (draw : Bool × Bool) {v : PrimaryVote} {r : Round}
    (hround : v.round = r + 1) :
    c.validateVote P draw v = some .valid ↔
      r ∈ (c.election v.electionHash).state ∧ ∃ p, v.proof = some p ∧
        p ⊆ c.keys v.electionHash r ∧
        c.makeDecision P draw (Tally.fromVotes (c.named v.electionHash r p)) = v.decision := by
  rw [validateVote_succ c draw hround]
  constructor
  · intro h
    split_ifs at h with hstored
    · cases hproof : v.proof with
      | none =>
        rw [hproof] at h
        cases h
      | some p =>
        rw [hproof, Option.bind_some] at h
        split_ifs at h with hp hd
        · exact ⟨hstored, p, rfl, hp, hd⟩
        · cases h
        · cases h
    · cases h
  · rintro ⟨hstored, p, hproof, hp, hd⟩
    rw [if_pos hstored, hproof, Option.bind_some, if_pos hp, if_pos hd]

/-- The verdict on a vote whose named votes are all stored. -/
theorem validateVote_of_subset {c : Core} (hbyz : c.byzantine = false) (draw : Bool × Bool)
    {v : PrimaryVote} {r : Round} {p : Finset VoteHash} (hround : v.round = r + 1)
    (hproof : v.proof = some p) (hp : p ⊆ c.keys v.electionHash r) :
    c.validateVote P draw v =
      if r ∈ (c.election v.electionHash).state ∧
          decisionRule P (Tally.fromVotes (c.named v.electionHash r p)) = v.decision then
        some .valid
      else some .invalid := by
  rw [validateVote_succ c draw hround, hproof, Option.bind_some, if_pos hp,
    makeDecision_of_honest hbyz]
  by_cases hstored : r ∈ (c.election v.electionHash).state
  · rw [if_pos hstored]
    by_cases hd : decisionRule P (Tally.fromVotes (c.named v.electionHash r p)) = v.decision
    · rw [if_pos hd, if_pos ⟨hstored, hd⟩]
    · rw [if_neg hd, if_neg fun hc => hd hc.2]
  · rw [if_neg hstored, if_neg fun hc => hstored hc.1]

theorem decision_nextVote {c : Core} (hbyz : c.byzantine = false) (draw : Bool × Bool)
    (h : BlockHash) (r : Round) :
    (c.nextVote P draw h r).decision = decisionRule P (c.roundState h r).tally := by
  show (⟨_, _⟩ : Decision) = _
  rw [nextVote, makeDecision_of_honest hbyz]
  rfl

/-! ## The invariant -/

/-- The votes of round `r` that `p` names are stored, they are a quorum, and the
decision on their running tally is the vote `v`. -/
structure Casts (P : Params) (c : Core) (v : PrimaryVote) (r : Round) (p : Finset VoteHash) :
    Prop where
  proof : v.proof = some p
  quorum : P.quorum ≤ p.card
  stored : p ⊆ c.keys v.electionHash r
  decision : decisionRule P (Tally.fromVotes (c.named v.electionHash r p)).running = v.decision

/-- The votes of round `r` that `p` names are stored, and the decision on them is the
vote `v`. -/
structure Accepts (P : Params) (c : Core) (v : PrimaryVote) (r : Round)
    (p : Finset VoteHash) : Prop where
  proof : v.proof = some p
  stored : p ⊆ c.keys v.electionHash r
  decision : decisionRule P (Tally.fromVotes (c.named v.electionHash r p)) = v.decision

/-- Every vote rests on votes of the round before. -/
structure Justified (P : Params) (c : Core) : Prop where
  casts : ∀ v ∈ c.casts, ∀ r, v.round = r + 1 → ∃ p, Casts P c v r p
  votes : ∀ h r, ∀ v ∈ c.votes h (r + 1), v ∈ c.casts ∨ ∃ p, Accepts P c v r p

/-- A cast vote rests on the votes its proof names. -/
theorem Justified.casts_of_proof {c : Core} (hj : Justified P c) {v : PrimaryVote}
    (hv : v ∈ c.casts) {r : Round} (hround : v.round = r + 1) {p : Finset VoteHash}
    (hproof : v.proof = some p) : Casts P c v r p := by
  obtain ⟨q, hq⟩ := hj.casts v hv r hround
  have hqp : q = p := Option.some.inj (hq.proof.symm.trans hproof)
  rw [← hqp]
  exact hq

theorem Casts.extends {c c' : Core} {v : PrimaryVote} {r : Round} {p : Finset VoteHash}
    (h : Casts P c v r p) (hext : Extends c c') : Casts P c' v r p where
  proof := h.proof
  quorum := h.quorum
  stored := h.stored.trans (hext.keys _ _)
  decision := by
    rw [hext.named h.stored]
    exact h.decision

theorem Accepts.extends {c c' : Core} {v : PrimaryVote} {r : Round} {p : Finset VoteHash}
    (h : Accepts P c v r p) (hext : Extends c c') : Accepts P c' v r p where
  proof := h.proof
  stored := h.stored.trans (hext.keys _ _)
  decision := by
    rw [hext.named h.stored]
    exact h.decision

/-- The vote of the next round rests on all the votes of the round. -/
theorem casts_nextVote {c : Core} (hf : Filed P c) (hbyz : c.byzantine = false)
    (draw : Bool × Bool) {h : BlockHash} {r : Round} (hready : c.Ready P h r) :
    Casts P c (c.nextVote P draw h r) r (c.keys h r) where
  proof := rfl
  quorum := hready.1
  stored := subset_rfl
  decision := by
    show decisionRule P (Tally.fromVotes (c.votes h r)).running = _
    rw [← hf.tally h r, decision_nextVote hbyz]

section Moves

variable {c c' : Core}

/-- A recorded vote is judged once; the others keep what they rest on. -/
theorem Recorded.justified {v : PrimaryVote} (hrec : Recorded P c c' v)
    (hext : Extends c c') (hj : Justified P c)
    (hcasts : ∀ w ∈ c'.casts, w ∈ c.casts ∨
      (w = v ∧ ∀ r, v.round = r + 1 → ∃ p, Casts P c v r p))
    (hvote : v ∈ c'.casts ∨ ∀ r, v.round = r + 1 → ∃ p, Accepts P c v r p) :
    Justified P c' where
  casts w hw r hr := by
    rcases hcasts w hw with hold | ⟨rfl, hnew⟩
    · obtain ⟨p, hp⟩ := hj.casts w hold r hr
      exact ⟨p, hp.extends hext⟩
    · obtain ⟨p, hp⟩ := hnew r hr
      exact ⟨p, hp.extends hext⟩
  votes h r w hw := by
    obtain ⟨k, hk⟩ := Core.mem_votes.mp hw
    rcases hrec.validated_cases hk with ⟨rfl, hround, -, rfl⟩ | hold
    · rcases hvote with hcast | haccept
      · exact Or.inl hcast
      · obtain ⟨p, hp⟩ := haccept r hround.symm
        exact Or.inr ⟨p, hp.extends hext⟩
    · rcases hj.votes h r w (Core.mem_votes.mpr ⟨k, hold⟩) with hcast | ⟨p, hp⟩
      · exact Or.inl (hext.mem_casts hcast)
      · exact Or.inr ⟨p, hp.extends hext⟩

/-- **A move of a node that is not Byzantine keeps the votes justified.** -/
theorem Move.justified (hdigest : Function.Injective P.sha512) (hmove : Move P c c')
    (hwf : WellFormed P c) (hbyz : c.byzantine = false) (hj : Justified P c) :
    Justified P c' := by
  have hext := (hmove.wellFormed_extends hdigest hwf).2
  cases hmove with
  | relay v =>
    refine ⟨fun w hw r hr => ?_, fun h r w hw => ?_⟩
    · obtain ⟨p, hp⟩ := hj.casts w hw r hr
      exact ⟨p, hp.extends hext⟩
    · rcases hj.votes h r w hw with hcast | ⟨p, hp⟩
      · exact Or.inl hcast
      · exact Or.inr ⟨p, hp.extends hext⟩
  | accept v draw hnew hverdict =>
    refine (recorded_record c v).justified hext hj (fun w hw => Or.inl hw)
      (Or.inr fun r hr => ?_)
    obtain ⟨-, p, hproof, hp, hd⟩ := (validateVote_valid_iff c draw hr).mp hverdict
    rw [makeDecision_of_honest hbyz] at hd
    exact ⟨p, hproof, hp, hd⟩
  | castFirst h draw hvoted =>
    refine (recorded_cast c _).justified hext hj (fun w hw => ?_) (Or.inl ?_)
    · exact (mem_casts_cast.mp hw).imp_right fun heq =>
        ⟨heq, fun r hr => absurd hr (Nat.succ_ne_zero r).symm⟩
    · exact mem_casts_cast.mpr (Or.inr rfl)
  | castNext h r draw hready hmax =>
    refine (recorded_conclude c _).justified hext hj (fun w hw => ?_) (Or.inl ?_)
    · rw [casts_conclude, mem_casts_cast] at hw
      refine hw.imp_right fun heq => ⟨heq, fun r' hr' => ?_⟩
      have hrr' : r = r' := Nat.succ_injective hr'
      subst hrr'
      exact ⟨_, casts_nextVote hwf.toFiled hbyz draw hready⟩
    · rw [casts_conclude]
      exact mem_casts_cast.mpr (Or.inr rfl)

end Moves

end Core
end NeroConsensus
