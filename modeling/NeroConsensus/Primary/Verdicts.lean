import NeroConsensus.Primary.OwnVotes

/-!
# Which verdicts are final

A vote that is judged invalid is dropped, so an invalid verdict should be one for good.
`validate_vote` has two kinds.  One is a decision on the named votes that is not the vote, and
it stays (`validateVote_of_stored`), since stored votes are never replaced.  The other is the
fall-through for a vote that comes before the node has anything of the round before, where a
single missing vote would have made it pending.  That verdict changes with the next votes that
arrive, except where the proof names nothing that could be missing (`verdictStays_iff`).
-/

namespace NeroConsensus

variable {P : Params}

/-! ## Decisions on too little -/

theorem decisionRule_empty (P : Params) :
    decisionRule P (Tally.fromVotes ∅) = ⟨.one, .initialVote⟩ := by
  have hempty : Tally.fromVotes ∅ = Tally.new := rfl
  rw [hempty]
  unfold decisionRule Tally.new
  simp [P.quorum_pos, P.semiQuorum_pos, Nat.not_le.mpr]

/-- One initial vote decides nothing. -/
theorem decisionRule_singleton (hf : 0 < P.numberOfByzantineNodes) {w : PrimaryVote}
    (hw : w.voteType = .initialVote) :
    decisionRule P (Tally.fromVotes {w}) = ⟨.one, .initialVote⟩ := by
  have hsemi : 1 < P.semiQuorum := Nat.succ_lt_succ hf
  have hquorum : 1 < P.quorum := hsemi.trans_le P.semiQuorum_le_quorum
  have hone : Tally.fromVotes {w} = Tally.new.count w := rfl
  rw [hone]
  unfold Tally.count
  cases hvalue : w.value with
  | zero =>
    rw [if_pos ⟨rfl, hw⟩]
    unfold decisionRule Tally.new
    simp [hsemi, hquorum, P.semiQuorum_pos, Nat.not_le.mpr, P.quorum_pos]
  | one =>
    rw [hw]
    unfold decisionRule Tally.new
    simp [hquorum, P.semiQuorum_pos, Nat.not_le.mpr, P.quorum_pos]

namespace Core

/-- In no continuation a valid vote ceases to be valid, or an invalid one to be invalid. -/
def VerdictStays (P : Params) (c : Core) (v : PrimaryVote) : Prop :=
  ∀ c', (machine P).Reachable c c' → ∀ draw draw' : Bool × Bool,
    (c.validateVote P draw v = some .valid → c'.validateVote P draw' v = some .valid) ∧
      (c.validateVote P draw v = some .invalid → c'.validateVote P draw' v = some .invalid)

/-- The hashes that a node has in a round as soon as it has the round: in round 0 its own. -/
def ownHashes (P : Params) (c : Core) (r : Round) : Finset VoteHash :=
  if r = 0 then {c.id.voteHash P} else ∅

/-- The vote is of round 0, or the round before it is stored, or it names nothing that could be
missing and is not what follows from that. -/
def Judged (P : Params) (c : Core) (v : PrimaryVote) : Prop :=
  ∀ r, v.round = r + 1 → r ∈ (c.election v.electionHash).state ∨
    ∃ p, v.proof = some p ∧ p ⊆ c.ownHashes P r ∧ v.decision ≠ ⟨.one, .initialVote⟩

/-! ## What stays -/

section Stay

variable {c c' : Core} {v : PrimaryVote} {r : Round} {p : Finset VoteHash}

/-- The verdict on a vote whose named votes are all there is the same later on. -/
theorem validateVote_of_stored (hs : Sound P c) (hs' : Sound P c') (hext : Extends c c')
    (hgrows : Grows c c') (hround : v.round = r + 1)
    (hstored : r ∈ (c.election v.electionHash).state) (hproof : v.proof = some p)
    (hp : p ⊆ c.keys v.electionHash r) (draw draw' : Bool × Bool) :
    c'.validateVote P draw' v = c.validateVote P draw v := by
  rw [validateVote_of_subset hs.byzantine draw hround hproof hp,
    validateVote_of_subset hs'.byzantine draw' hround hproof (hp.trans (hext.keys _ _)),
    hext.named hp]
  simp only [hstored, hgrows.rounds _ _ hstored]

/-- A proof within the own hashes is a decision for `One`, where it is there. -/
theorem decisionRule_ownHashes (hf : 0 < P.numberOfByzantineNodes) (hs : Sound P c)
    {h : BlockHash} (hp : p ⊆ c.ownHashes P r) (hkeys : p ⊆ c.keys h r) :
    decisionRule P (Tally.fromVotes (c.named h r p)) = ⟨.one, .initialVote⟩ := by
  have hempty : decisionRule P (Tally.fromVotes (c.named h r ∅)) = ⟨.one, .initialVote⟩ :=
    decisionRule_empty P
  unfold ownHashes at hp
  split_ifs at hp with hr
  · subst hr
    rcases Finset.subset_singleton_iff.mp hp with rfl | rfl
    · exact hempty
    · obtain ⟨w, hw⟩ := mem_keys_iff.mp (hkeys (Finset.mem_singleton_self _))
      have hnamed : c.named h 0 {c.id.voteHash P} = {w} := by
        ext u
        rw [mem_named, Finset.mem_singleton]
        constructor
        · rintro ⟨k, hk, hu⟩
          rw [Finset.mem_singleton.mp hk, hw] at hu
          exact (Option.some.inj hu).symm
        · rintro rfl
          exact ⟨_, Finset.mem_singleton_self _, hw⟩
      rw [hnamed]
      exact decisionRule_singleton hf (hs.initial h _ w hw)
  · rw [Finset.subset_empty.mp hp]
    exact hempty

/-- A node that has a round has its own hashes there. -/
theorem Steady.ownHashes_subset (hsteady : Steady c) (hs : Sound P c) {h : BlockHash}
    (hstored : r ∈ (c.election h).state) : c.ownHashes P r ⊆ c.keys h r := by
  unfold ownHashes
  split_ifs with hr
  · subst hr
    have hvoted := hsteady.opened h (mem_elections_of_mem_state hstored)
    exact Finset.singleton_subset_iff.mpr ((hs.voted h 0).mp hvoted)
  · exact Finset.empty_subset _

/-- Before the round of its proof is there a vote is invalid. -/
theorem validateVote_of_notMem (c : Core) (draw : Bool × Bool) (hround : v.round = r + 1)
    (hstored : r ∉ (c.election v.electionHash).state) :
    c.validateVote P draw v = some .invalid := by
  rw [validateVote_succ c draw hround, if_neg hstored]

/-- A vote that names nothing that could be missing, and does not follow from it, is invalid. -/
theorem validateVote_of_ownHashes (hf : 0 < P.numberOfByzantineNodes) (hs : Sound P c)
    (hsteady : Steady c) (draw : Bool × Bool) (hround : v.round = r + 1)
    (hproof : v.proof = some p) (hp : p ⊆ c.ownHashes P r)
    (hdecision : v.decision ≠ ⟨.one, .initialVote⟩) :
    c.validateVote P draw v = some .invalid := by
  by_cases hstored : r ∈ (c.election v.electionHash).state
  · have hkeys := hp.trans (hsteady.ownHashes_subset hs hstored)
    rw [validateVote_of_subset hs.byzantine draw hround hproof hkeys,
      decisionRule_ownHashes hf hs hp hkeys, if_neg fun hc => hdecision hc.2.symm]
  · exact validateVote_of_notMem c draw hround hstored

end Stay

/-! ## What the next votes can bring -/

/-- A vote of round `r + 1` that rests on nothing. -/
def filler (signer : PublicKey) (h : BlockHash) (r : Round) : PrimaryVote :=
  PrimaryVote.new signer (r + 1) .one .initialVote (some ∅) h

section Fill

variable {c : Core} {h : BlockHash} {r : Round}

theorem roundState_of_notMem (hr : r ∉ (c.election h).state) :
    c.roundState h r = RoundState.new h := by
  rw [roundState, Election.roundState, Finmap.lookup_eq_none.mpr hr, Option.getD_none]

theorem keys_of_notMem (hr : r ∉ (c.election h).state) : c.keys h r = ∅ := by
  rw [keys, roundState_of_notMem hr]
  rfl

/-- A filler is stored, and nothing else happens. -/
theorem step_filler (hf : 0 < P.numberOfByzantineNodes) (hs : Sound P c) (signer : PublicKey)
    (hstored : r ∈ (c.election h).state) (hfree : r + 1 ∉ (c.election h).state)
    (hmax : r + 1 < u32Max) :
    c.step P (.vote (filler signer h r) (Draws.of false)) =
      some ((c.relay (filler signer h r)).record P (filler signer h r)) := by
  set w := filler signer h r with hw
  have hkeys : c.keys h (r + 1) = ∅ := keys_of_notMem hfree
  have hnew : w.voteHash P ∉ (c.roundState w.electionHash w.round).validatedVotes := by
    intro hmem
    have hc : w.voteHash P ∈ c.keys h (r + 1) := Finmap.mem_keys.mpr hmem
    rw [hkeys] at hc
    exact Finset.notMem_empty _ hc
  have hverdict : c.validateVote P (Draws.of false).validate w = some .valid := by
    have hempty : c.named h r ∅ = ∅ := rfl
    rw [validateVote_of_subset hs.byzantine _ (show w.round = r + 1 from rfl)
      (show w.proof = some ∅ from rfl) (Finset.empty_subset _)]
    refine if_pos ⟨hstored, ?_⟩
    rw [show w.electionHash = h from rfl, hempty, decisionRule_empty]
    rfl
  have hready : ¬((c.relay w).record P w).Ready P h (r + 1) := by
    intro hready
    have hrec := recorded_record (P := P) (c.relay w) w
    have hcard := hready.1
    have hkeys' : ((c.relay w).record P w).keys h (r + 1) = {w.voteHash P} := by
      rw [hrec.keys, if_pos ⟨rfl, rfl⟩]
      show insert _ (c.keys h (r + 1)) = _
      rw [hkeys]
      rfl
    have hcard' : P.quorum ≤ (((c.relay w).record P w).keys h (r + 1)).card := hcard
    rw [hkeys', Finset.card_singleton, Params.quorum] at hcard'
    omega
  show c.handleVote P (Draws.of false) w = _
  rw [handleVote_of_valid hnew (hs.noPending _ _) hverdict,
    if_pos (show w.round < u32Max from hmax), afterValid, afterReceipt_of_ne (Nat.succ_ne_zero r)]
  exact congrArg some (if_neg hready)

theorem reachable_step {c c' : Core} {event : Event} (hstep : c.step P event = some c') :
    (machine P).Reachable c c' := by
  have hguard : (machine P).guard c event := Option.isSome_iff_exists.mpr ⟨c', hstep⟩
  have hnext : (machine P).next c event = c' := by
    show (c.step P event).getD c = c'
    rw [hstep, Option.getD_some]
  rw [← hnext]
  exact GuardedMachine.Reachable.refl.step hguard

/-- A transaction stores round 0, with the node's own vote. -/
theorem exists_first (hfree : 0 ∉ (c.election h).state) :
    ∃ c', (machine P).Reachable c c' ∧ 0 ∈ (c'.election h).state ∧
      c'.keys h 0 = {c.id.voteHash P} ∧
      ∀ q, 0 < q → (q ∈ (c'.election h).state ↔ q ∈ (c.election h).state) := by
  set w := PrimaryVote.random c.id h false with hw
  have hvoted : (c.roundState h 0).voted = false := by
    rw [roundState_of_notMem hfree]
    rfl
  have hstep : c.step P (.transaction ⟨h.digest⟩ false) = some (c.cast P w) := by
    show some (c.handleTransaction P false ⟨h.digest⟩) = _
    have hvoted' : (c.roundState (Transaction.digest ⟨h.digest⟩) 0).voted = false := hvoted
    rw [handleTransaction_eq, castFirst, if_pos hvoted']
    rfl
  refine ⟨_, reachable_step hstep, mem_state_record.mpr (Or.inl ⟨rfl, rfl⟩), ?_, fun q hq => ?_⟩
  · rw [(recorded_cast (P := P) c w).keys, if_pos ⟨rfl, rfl⟩, keys_of_notMem hfree]
    rfl
  · exact mem_state_record.trans (or_iff_right fun hc => absurd hc.2 (Nat.ne_of_gt hq))

/-- A filler stores the round after a stored one, with one key of one's choice. -/
theorem exists_next (hf : 0 < P.numberOfByzantineNodes) (hs : Sound P c) (signer : PublicKey)
    (hstored : r ∈ (c.election h).state) (hfree : r + 1 ∉ (c.election h).state)
    (hmax : r + 1 < u32Max) :
    ∃ c', (machine P).Reachable c c' ∧ r + 1 ∈ (c'.election h).state ∧
      c'.keys h (r + 1) = {signer.voteHash P} ∧
      ∀ q, r + 1 < q → (q ∈ (c'.election h).state ↔ q ∈ (c.election h).state) := by
  set w := filler signer h r with hw
  have hrec := recorded_record (P := P) (c.relay w) w
  refine ⟨_, reachable_step (step_filler hf hs signer hstored hfree hmax),
    mem_state_record.mpr (Or.inl ⟨rfl, rfl⟩), ?_, fun q hq => ?_⟩
  · rw [hrec.keys, if_pos ⟨rfl, rfl⟩]
    show insert _ (c.keys h (r + 1)) = _
    rw [keys_of_notMem hfree]
    rfl
  · exact mem_state_record.trans (or_iff_right fun hc => absurd hc.2 (Nat.ne_of_gt hq))

variable {id : PublicKey} {addresses : List (PublicKey × SocketAddr)}

/-- Every round can be reached, and the ones after it left alone. -/
theorem exists_round (hdigest : Function.Injective P.sha512)
    (hf : 0 < P.numberOfByzantineNodes)
    (hreach : (machine P).Reachable (spawn id addresses false) c) :
    r < u32Max → ∃ c', (machine P).Reachable c c' ∧ r ∈ (c'.election h).state ∧
      ∀ q, r < q → (q ∈ (c'.election h).state ↔ q ∈ (c.election h).state) := by
  induction r with
  | zero =>
    intro _
    by_cases hstored : 0 ∈ (c.election h).state
    · exact ⟨c, GuardedMachine.Reachable.refl, hstored, fun _ _ => Iff.rfl⟩
    · obtain ⟨c', hlater, hmem, -, hframe⟩ := exists_first (P := P) hstored
      exact ⟨c', hlater, hmem, hframe⟩
  | succ r ih =>
    intro hmax
    obtain ⟨c₁, hlater₁, hmem₁, hframe₁⟩ := ih (Nat.lt_of_succ_lt hmax)
    by_cases hstored : r + 1 ∈ (c₁.election h).state
    · exact ⟨c₁, hlater₁, hstored, fun q hq => hframe₁ q (Nat.lt_of_succ_lt hq)⟩
    · have hs₁ := sound_of_reachable hdigest (hreach.trans hlater₁)
      obtain ⟨c₂, hlater₂, hmem₂, -, hframe₂⟩ :=
        exists_next hf hs₁ (authority 1) hmem₁ hstored hmax
      exact ⟨c₂, hlater₁.trans hlater₂, hmem₂, fun q hq =>
        (hframe₂ q hq).trans (hframe₁ q (Nat.lt_of_succ_lt hq))⟩

/-- A round that is not there can come with no more of the hashes of a proof than the own ones. -/
theorem exists_stored (hdigest : Function.Injective P.sha512)
    (hf : 0 < P.numberOfByzantineNodes)
    (hreach : (machine P).Reachable (spawn id addresses false) c)
    (hfree : r ∉ (c.election h).state) (hmax : r < u32Max) (p : Finset VoteHash) :
    ∃ c', (machine P).Reachable c c' ∧ r ∈ (c'.election h).state ∧
      (p ⊆ c'.keys h r → p ⊆ c.ownHashes P r) := by
  cases r with
  | zero =>
    obtain ⟨c', hlater, hmem, hkeys, -⟩ := exists_first (P := P) hfree
    refine ⟨c', hlater, hmem, fun hp => ?_⟩
    rw [hkeys] at hp
    rw [ownHashes, if_pos rfl]
    exact hp
  | succ r =>
    obtain ⟨c₁, hlater₁, hmem₁, hframe₁⟩ :=
      exists_round (h := h) hdigest hf hreach (Nat.lt_of_succ_lt hmax)
    have hfree₁ : r + 1 ∉ (c₁.election h).state :=
      fun hc => hfree ((hframe₁ _ (Nat.lt_succ_self r)).mp hc)
    have hs₁ := sound_of_reachable hdigest (hreach.trans hlater₁)
    -- of two signers one is not the whole proof
    have hsigner : ∃ signer : PublicKey, p ≠ {signer.voteHash P} := by
      by_contra hall
      have hone := not_not.mp fun hc => hall ⟨authority 1, hc⟩
      have htwo := not_not.mp fun hc => hall ⟨authority 2, hc⟩
      have heq := PublicKey.voteHash_injective hdigest
        (Finset.singleton_injective (hone.symm.trans htwo))
      exact absurd heq (by decide)
    obtain ⟨signer, hne⟩ := hsigner
    obtain ⟨c₂, hlater₂, hmem₂, hkeys₂, -⟩ := exists_next hf hs₁ signer hmem₁ hfree₁ hmax
    refine ⟨c₂, hlater₁.trans hlater₂, hmem₂, fun hp => ?_⟩
    rw [hkeys₂] at hp
    rcases Finset.subset_singleton_iff.mp hp with rfl | heq
    · exact Finset.empty_subset _
    · exact absurd heq hne

end Fill

/-! ## Verdicts -/

section Verdict

variable {id : PublicKey} {addresses : List (PublicKey × SocketAddr)} {c : Core}
  {v : PrimaryVote}

theorem Judged.verdictStays (hdigest : Function.Injective P.sha512)
    (hf : 0 < P.numberOfByzantineNodes)
    (hreach : (machine P).Reachable (spawn id addresses false) c)
    (hproof : v.round ≠ 0 → v.proof.isSome = true) (hjudged : Judged P c v) :
    VerdictStays P c v := by
  intro c' hlater draw draw'
  have hs := sound_of_reachable hdigest hreach
  have hs' := sound_of_reachable hdigest (hreach.trans hlater)
  have hext := (wellFormed_extends_of_reachable hdigest hlater hs.toWellFormed).2
  have hsteady := (steady_grows_of_reachable hreach (steady_spawn _ _ _)).1
  obtain ⟨hsteady', hgrows⟩ := steady_grows_of_reachable hlater hsteady
  cases hround : v.round with
  | zero =>
    rw [validateVote_zero c draw hround, validateVote_zero c' draw' hround]
    exact ⟨fun h => h, fun h => h⟩
  | succ r =>
    rcases hjudged r hround with hstored | ⟨p, hp, hown, hdecision⟩
    · obtain ⟨p, hp⟩ := Option.isSome_iff_exists.mp
        (hproof (by rw [hround]; exact Nat.succ_ne_zero r))
      by_cases hkeys : p ⊆ c.keys v.electionHash r
      · rw [validateVote_of_stored hs hs' hext hgrows hround hstored hp hkeys draw draw']
        exact ⟨fun h => h, fun h => h⟩
      · rw [validateVote_succ c draw hround, if_pos hstored, hp, Option.bind_some, if_neg hkeys]
        exact ⟨nofun, nofun⟩
    · have hown' : p ⊆ c'.ownHashes P r := by
        unfold ownHashes at hown ⊢
        rw [hext.id]
        exact hown
      rw [validateVote_of_ownHashes hf hs hsteady draw hround hp hown hdecision,
        validateVote_of_ownHashes hf hs' hsteady' draw' hround hp hown' hdecision]
      exact ⟨nofun, fun _ => rfl⟩

/-- **When a verdict is final.**  For every reachable state of a node that is not Byzantine, and
every vote with a proof where it needs one. -/
theorem verdictStays_iff (hdigest : Function.Injective P.sha512)
    (hf : 0 < P.numberOfByzantineNodes)
    (hreach : (machine P).Reachable (spawn id addresses false) c)
    (hmax : v.round ≤ u32Max) (hproof : v.round ≠ 0 → v.proof.isSome = true) :
    VerdictStays P c v ↔ Judged P c v := by
  refine ⟨fun hstays r hround => ?_, fun hjudged => hjudged.verdictStays hdigest hf hreach hproof⟩
  by_contra hnot
  rw [not_or] at hnot
  obtain ⟨hfree, hnone⟩ := hnot
  obtain ⟨p, hp⟩ := Option.isSome_iff_exists.mp
    (hproof (by rw [hround]; exact Nat.succ_ne_zero r))
  obtain ⟨c', hlater, hstored, hown⟩ := exists_stored hdigest hf hreach hfree
    (by rw [hround] at hmax; exact hmax) p
  have hs' := sound_of_reachable hdigest (hreach.trans hlater)
  have hinvalid := (hstays c' hlater (true, true) (true, true)).2
    (validateVote_of_notMem c _ hround hfree)
  rw [validateVote_succ c' _ hround, if_pos hstored, hp, Option.bind_some] at hinvalid
  by_cases hkeys : p ⊆ c'.keys v.electionHash r
  · have hext := (wellFormed_extends_of_reachable hdigest hlater
      (sound_of_reachable hdigest hreach).toWellFormed).2
    have hown' : p ⊆ c'.ownHashes P r := by
      have hsub := hown hkeys
      unfold ownHashes at hsub ⊢
      rw [hext.id]
      exact hsub
    have hdecision : v.decision = ⟨.one, .initialVote⟩ :=
      not_not.mp fun hc => hnone ⟨p, hp, hown hkeys, hc⟩
    rw [if_pos hkeys, makeDecision_of_honest hs'.byzantine,
      decisionRule_ownHashes hf hs' hown' hkeys, hdecision, if_pos rfl] at hinvalid
    cases hinvalid
  · rw [if_neg hkeys] at hinvalid
    cases hinvalid

end Verdict

theorem verdictStays_iff_starter :
    VerdictStays Params.source starter (ballot 2 1 .one .initialVote [1]) ↔
      Judged Params.source starter (ballot 2 1 .one .initialVote [1]) :=
  verdictStays_iff Params.source_injective Params.source_pos
    (GuardedMachine.reachable_run _ (by decide +kernel)) (by decide) (fun _ => rfl)

/-- **An invalid vote becomes valid**: before the node has heard of the election a vote of
round 1 is invalid, and after the transaction it is valid. -/
theorem exists_verdict_changes :
    ∃ c c' v, (machine Params.source).Reachable (spawn (authority 1) [] false) c ∧
      (machine Params.source).Reachable c c' ∧ v.round ≤ u32Max ∧ v.proof.isSome = true ∧
      c.validateVote Params.source (true, true) v = some .invalid ∧
      c'.validateVote Params.source (true, true) v = some .valid :=
  ⟨spawn (authority 1) [] false, starter, ballot 2 1 .one .initialVote [1],
    GuardedMachine.Reachable.refl, GuardedMachine.reachable_run _ (by decide +kernel),
    by decide, rfl, by decide +kernel, by decide +kernel⟩

end Core
end NeroConsensus
