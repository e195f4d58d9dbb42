import NeroConsensus.Foundations.Loop
import NeroConsensus.Primary.NodeInvariants

/-!
# The votes of a Byzantine node

`Core::byzantine_votes` is meant to build several votes for the next round, each on a proof of
`QUORUM` of the given votes chosen at random.  The random index is drawn once for each vote,
before the loop that fills the proof, and so this loop inserts one and the same vote again and
again: the proof never gets a second vote.  Besides, the indices are drawn below
`NUMBER_OF_TOTAL_NODES`, while there are `QUORUM` votes to choose from.

Nothing that runs calls the function: the call in `handle_vote` is commented out.
-/

namespace NeroConsensus
namespace Core

variable {P : Params}

/-- The outcomes of the draws of one call: an index for each vote, and `Decision::random`. -/
structure ByzantineDraws (P : Params) where
  index : ℕ → Fin P.numberOfTotalNodes
  decision : ℕ → Bool × Bool

/-- The loop that fills the proof of vote `i`. -/
def byzantineProof (P : Params) (fuel : ℕ) (randoms : List ℕ) (votes : List PrimaryVote)
    (i : ℕ) : Result (Finset PrimaryVote) :=
  whileLoop (fun proof => proof.card < P.quorum)
    (fun proof => do
      let random ← Result.ofOption randoms[i]?
      let vote ← Result.ofOption votes[random]?
      pure (insert vote proof)) fuel ∅

/-- `Core::byzantine_votes`. -/
def byzantineVotes (P : Params) (fuel : ℕ) (draws : ByzantineDraws P) (c : Core) (round : Round)
    (electionHash : BlockHash) (numberOfVotes : ℕ) (votes : List PrimaryVote) :
    Result (List PrimaryVote) := do
  let nextRound ← Result.ofOption (Round.next round)
  let election ← Result.ofOption (c.elections.lookup electionHash)
  let _roundState ← Result.ofOption (election.state.lookup round)
  -- `assert_eq!(votes.len(), QUORUM)`
  if votes.length ≠ P.quorum then Result.panic
  else
    let randoms := (List.range numberOfVotes).map fun i => (draws.index i).val
    (List.range numberOfVotes).foldlM (fun byzantineVotes i => do
      let proof ← byzantineProof P fuel randoms votes i
      let hashes := proof.image (PrimaryVote.voteHash P)
      let decision := c.makeDecision P (draws.decision i) (Tally.fromVotes proof)
      let byzantineVote := PrimaryVote.new c.id nextRound decision.value decision.voteType
        (some hashes) electionHash
      pure (byzantineVotes ++ [byzantineVote])) []

/-- The call returns as many votes of the next round as it has been asked for, each with a proof
of `QUORUM` hashes of the given votes. -/
def EndsWell (P : Params) (draws : ByzantineDraws P) (c : Core) (round : Round)
    (electionHash : BlockHash) (numberOfVotes : ℕ) (votes : List PrimaryVote) : Prop :=
  ∃ fuel byzantineVotes,
    c.byzantineVotes P fuel draws round electionHash numberOfVotes votes = .ok byzantineVotes ∧
      byzantineVotes.length = numberOfVotes ∧
      ∀ w ∈ byzantineVotes, w.round = round + 1 ∧ w.electionHash = electionHash ∧
        ∃ p, w.proof = some p ∧ p.card = P.quorum ∧
          p ⊆ (votes.map (PrimaryVote.voteHash P)).toFinset

/-! ## The loop -/

section Loop

variable {randoms : List ℕ} {votes : List PrimaryVote} {i random : ℕ}

/-- An index that is out of range is a panic. -/
theorem byzantineProof_of_none (hrandom : randoms[i]? = some random)
    (hvote : votes[random]? = none) (fuel : ℕ) :
    byzantineProof P (fuel + 1) randoms votes i = .panic := by
  refine whileLoop_of_panic ?_ ?_ fuel
  · rw [decide_eq_true_iff, Finset.card_empty]
    exact P.quorum_pos
  · rw [hrandom]
    show Result.ofOption votes[random]? >>= _ = _
    rw [hvote]
    rfl

/-- **With an index that is in range the loop does not end**: it has one vote to insert, and waits
for more. -/
theorem byzantineProof_of_some (hf : 0 < P.numberOfByzantineNodes)
    (hrandom : randoms[i]? = some random) {vote : PrimaryVote}
    (hvote : votes[random]? = some vote) (fuel : ℕ) :
    byzantineProof P fuel randoms votes i = .outOfFuel := by
  refine whileLoop_eq_outOfFuel (I := fun proof => proof ⊆ {vote}) (fun proof hproof => ?_)
    (fun proof hproof => ⟨insert vote proof, ?_, ?_⟩) fuel (Finset.empty_subset _)
  · have hcard := Finset.card_le_card hproof
    rw [Finset.card_singleton] at hcard
    rw [decide_eq_true_iff, Params.quorum]
    omega
  · rw [hrandom]
    show Result.ofOption votes[random]? >>= _ = _
    rw [hvote]
    rfl
  · exact Finset.insert_subset (Finset.mem_singleton_self vote) hproof

end Loop

/-- No proof is ever filled. -/
theorem byzantineProof_ne_ok (hf : 0 < P.numberOfByzantineNodes) {randoms : List ℕ}
    {i random : ℕ} (hrandom : randoms[i]? = some random) (votes : List PrimaryVote) (fuel : ℕ)
    (proof : Finset PrimaryVote) : byzantineProof P fuel randoms votes i ≠ .ok proof := by
  intro hproof
  cases hvote : votes[random]? with
  | none =>
    cases fuel with
    | zero => cases hproof
    | succ fuel =>
      rw [byzantineProof_of_none hrandom hvote] at hproof
      cases hproof
  | some vote =>
    rw [byzantineProof_of_some hf hrandom hvote] at hproof
    cases hproof

/-! ## The call -/

section Call

variable {draws : ByzantineDraws P} {c : Core} {round : Round} {h : BlockHash} {n : ℕ}
  {votes : List PrimaryVote}

/-- Asked for a vote, the call does not return. -/
theorem byzantineVotes_ne_ok (hf : 0 < P.numberOfByzantineNodes) (hn : 0 < n) (fuel : ℕ)
    (byzantineVotes : List PrimaryVote) :
    c.byzantineVotes P fuel draws round h n votes ≠ .ok byzantineVotes := by
  intro hok
  obtain ⟨nextRound, -, hok⟩ := Result.bind_eq_ok.mp hok
  obtain ⟨election, -, hok⟩ := Result.bind_eq_ok.mp hok
  obtain ⟨roundState, -, hok⟩ := Result.bind_eq_ok.mp hok
  dsimp only at hok
  split_ifs at hok with hlength
  obtain ⟨m, rfl⟩ := Nat.exists_eq_succ_of_ne_zero hn.ne'
  have hrange : List.range (m + 1) = 0 :: (List.range m).map Nat.succ := List.range_succ_eq_map
  have hrandom : ((List.range (m + 1)).map fun i => (draws.index i).val)[0]? =
      some (draws.index 0).val := by
    rw [hrange]
    rfl
  have hfold : ∀ {f : List PrimaryVote → ℕ → Result (List PrimaryVote)},
      (List.range (m + 1)).foldlM f [] = .ok byzantineVotes → ∃ ws, f [] 0 = .ok ws := by
    intro f hok
    rw [hrange, List.foldlM_cons] at hok
    obtain ⟨ws, hws, -⟩ := Result.bind_eq_ok.mp hok
    exact ⟨ws, hws⟩
  obtain ⟨ws, hfirst⟩ := hfold hok
  obtain ⟨proof, hproof, -⟩ := Result.bind_eq_ok.mp hfirst
  exact byzantineProof_ne_ok hf hrandom votes fuel proof hproof

/-- If the call ends well, it has been asked for nothing. -/
theorem EndsWell.eq_zero (hf : 0 < P.numberOfByzantineNodes)
    (hends : EndsWell P draws c round h n votes) : n = 0 := by
  obtain ⟨fuel, byzantineVotes, hok, -, -⟩ := hends
  by_contra hn
  exact byzantineVotes_ne_ok hf (Nat.pos_of_ne_zero hn) fuel byzantineVotes hok

/-- If the call ends well, there is a next round. -/
theorem EndsWell.lt_u32Max (hends : EndsWell P draws c round h n votes) : round < u32Max := by
  obtain ⟨fuel, byzantineVotes, hok, -, -⟩ := hends
  obtain ⟨nextRound, hnext, -⟩ := Result.bind_eq_ok.mp hok
  by_contra hmax
  rw [Round.next, if_neg hmax] at hnext
  cases hnext

/-- Asked for none, it returns none. -/
theorem byzantineVotes_zero (hstored : round ∈ (c.election h).state)
    (hvotes : votes.length = P.quorum) (hmax : round < u32Max) (fuel : ℕ) :
    c.byzantineVotes P fuel draws round h 0 votes = .ok [] := by
  obtain ⟨rs, hrs⟩ := Finmap.mem_iff.mp hstored
  have helection : c.elections.lookup h = some (c.election h) := by
    obtain ⟨e, he⟩ := Finmap.mem_iff.mp (mem_elections_of_lookup hrs)
    rw [election, he, Option.getD_some]
  unfold byzantineVotes
  rw [Round.next, if_pos hmax, helection]
  simp only [Result.ofOption, Result.ok_bind, hrs]
  rw [if_neg (not_not_intro hvotes)]
  rfl

/-- **When the generation of Byzantine votes ends well**: where there is nothing to generate,
and a next round. -/
theorem endsWell_iff (hf : 0 < P.numberOfByzantineNodes)
    (hstored : round ∈ (c.election h).state) (hvotes : votes.length = P.quorum) :
    EndsWell P draws c round h n votes ↔ n = 0 ∧ round < u32Max := by
  constructor
  · intro hends
    exact ⟨hends.eq_zero hf, hends.lt_u32Max⟩
  · rintro ⟨rfl, hmax⟩
    exact ⟨0, [], byzantineVotes_zero hstored hvotes hmax 0, rfl,
      fun w hw => absurd hw List.not_mem_nil⟩

end Call

/-- Three authorities have voted in round 0. -/
def polled : List Event :=
  [.vote (firstBallot 2 .zero) (Draws.of false), .vote (firstBallot 3 .zero) (Draws.of false)]

/-- Their votes. -/
def polledVotes : List PrimaryVote :=
  [firstBallot 1 .zero, firstBallot 2 .zero, firstBallot 3 .zero]

/-- Every index that is drawn is `i`. -/
def ByzantineDraws.const (i : Fin Params.source.numberOfTotalNodes) :
    ByzantineDraws Params.source :=
  { index := fun _ => i
    decision := fun _ => (false, false) }

/-- Asked for none, and asked for one. -/
theorem endsWell_iff_polled :
    (EndsWell Params.source (.const ⟨0, by decide⟩) ((machine Params.source).run
        (spawn (authority 1) [] true) polled) 0 block 0 polledVotes ↔
      0 = 0 ∧ (0 : Round) < u32Max) ∧
    (EndsWell Params.source (.const ⟨0, by decide⟩) ((machine Params.source).run
        (spawn (authority 1) [] true) polled) 0 block 1 polledVotes ↔
      1 = 0 ∧ (0 : Round) < u32Max) :=
  ⟨endsWell_iff Params.source_pos (by decide +kernel) (by decide),
    endsWell_iff Params.source_pos (by decide +kernel) (by decide)⟩

/-- **The call does not end well**: it runs forever if the index 0 is drawn, and panics if the
index 3 is, as there are three votes. -/
theorem exists_not_endsWell :
    (machine Params.source).Legal (spawn (authority 1) [] true) polled ∧
      ¬EndsWell Params.source (.const ⟨0, by decide⟩) ((machine Params.source).run
        (spawn (authority 1) [] true) polled) 0 block 1 polledVotes ∧
      ¬EndsWell Params.source (.const ⟨3, by decide⟩) ((machine Params.source).run
        (spawn (authority 1) [] true) polled) 0 block 1 polledVotes := by
  refine ⟨by decide +kernel, fun hends => ?_, fun hends => ?_⟩
  · exact absurd (hends.eq_zero Params.source_pos) Nat.one_ne_zero
  · exact absurd (hends.eq_zero Params.source_pos) Nat.one_ne_zero

end Core
end NeroConsensus
