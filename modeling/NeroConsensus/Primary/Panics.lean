import NeroConsensus.Primary.Verdicts

/-!
# Panics

A peer chooses every field of a vote it sends, so a panic of `handle_vote` is a
message that stops the node.  The unwraps behind an unvalidated vote are never
reached, because a pending vote is noted on a clone that is thrown away; two ways to
panic are left, and `handleVote_isSome_iff` says in which states they are open.

* The vote has a round before it that the node knows, and no proof: `proof.unwrap()`.
* The vote is valid and its round is the last `u32`: `Round(vote.round.0 + 1)`.

The first takes one message to a node that has seen an election
(`exists_reachable_panic`), and the second a vote for every round there is
(`exists_crashes_last`).
-/

namespace NeroConsensus
namespace Core

variable {P : Params}

/-! ## The two panics -/

/-- The votes that stop a node: new ones of a round whose predecessor is stored, with
no proof at all, or with a good proof and the last round number there is. -/
def Crashes (P : Params) (draw : Bool × Bool) (c : Core) (v : PrimaryVote) : Prop :=
  v.voteHash P ∉ c.keys v.electionHash v.round ∧
    ∃ r, v.round = r + 1 ∧ r ∈ (c.election v.electionHash).state ∧
      (v.proof = none ∨ u32Max ≤ v.round ∧ ∃ p, v.proof = some p ∧
        p ⊆ c.keys v.electionHash r ∧
        c.makeDecision P draw (Tally.fromVotes (c.named v.electionHash r p)) = v.decision)

theorem validateVote_eq_none_iff (c : Core) (draw : Bool × Bool) {v : PrimaryVote} {r : Round}
    (hround : v.round = r + 1) :
    c.validateVote P draw v = none ↔ r ∈ (c.election v.electionHash).state ∧ v.proof = none := by
  rw [validateVote_succ c draw hround]
  split_ifs with hstored
  · cases hproof : v.proof with
    | none => simp [hstored]
    | some p =>
      rw [Option.bind_some]
      split_ifs <;> simp
  · simp [hstored]

section New

variable {c : Core} {draws : Draws} {v : PrimaryVote}
  (hnew : v.voteHash P ∉ c.keys v.electionHash v.round)

include hnew

/-- A call on a new vote returns if the verdict is reached, and if the round of a valid
vote has a successor. -/
theorem handleVote_isSome_of_notMem (hpending : ∀ h r, (c.roundState h r).unvalidatedVotes = ∅) :
    (c.handleVote P draws v).isSome = true ↔
      c.validateVote P draws.validate v ≠ none ∧
        (c.validateVote P draws.validate v = some .valid → v.round < u32Max) := by
  have hmem : v.voteHash P ∉ (c.roundState v.electionHash v.round).validatedVotes :=
    fun hc => hnew (Finmap.mem_keys.mpr hc)
  cases hverdict : c.validateVote P draws.validate v with
  | none => simp [handleVote_of_panic hmem hverdict]
  | some status =>
    cases status with
    | valid =>
      rw [handleVote_of_valid hmem (hpending _ _) hverdict]
      split_ifs with hmax <;> simp [hmax]
    | invalid => simp [handleVote_of_invalid hmem hverdict]
    | pending => simp [handleVote_of_pending hmem hverdict]

/-- The new votes that crash the core, by their verdict. -/
theorem crashes_iff {draw : Bool × Bool} {r : Round} (hround : v.round = r + 1) :
    Crashes P draw c v ↔ c.validateVote P draw v = none ∨
      (c.validateVote P draw v = some .valid ∧ u32Max ≤ v.round) := by
  rw [validateVote_eq_none_iff c draw hround, validateVote_valid_iff c draw hround]
  constructor
  · rintro ⟨-, r', hr', hstored, hcrash⟩
    have hrr : r' = r := Nat.succ_injective (hr'.symm.trans hround)
    subst hrr
    rcases hcrash with hnone | ⟨hmax, p, hp⟩
    · exact Or.inl ⟨hstored, hnone⟩
    · exact Or.inr ⟨⟨hstored, p, hp⟩, hmax⟩
  · rintro (⟨hstored, hnone⟩ | ⟨⟨hstored, p, hp⟩, hmax⟩)
    · exact ⟨hnew, r, hround, hstored, Or.inl hnone⟩
    · exact ⟨hnew, r, hround, hstored, Or.inr ⟨hmax, p, hp⟩⟩

end New

/-- **When a vote crashes the core.**  In every reachable state, for every vote. -/
theorem handleVote_isSome_iff {c : Core} (hreach : Reached P c) (draws : Draws)
    (v : PrimaryVote) :
    (c.handleVote P draws v).isSome = true ↔ ¬Crashes P draws.validate c v := by
  by_cases hkeys : v.voteHash P ∈ c.keys v.electionHash v.round
  · rw [handleVote_of_mem (Finmap.mem_keys.mp hkeys)]
    exact iff_of_true rfl fun hcrash => hcrash.1 hkeys
  · rw [handleVote_isSome_of_notMem hkeys hreach.noPending]
    cases hround : v.round with
    | zero =>
      -- a vote of round 0 needs no proof, and its round has a successor
      have hsafe : ¬Crashes P draws.validate c v := by
        rintro ⟨-, r, hr, -⟩
        rw [hround] at hr
        exact absurd hr (Nat.succ_ne_zero r).symm
      refine iff_of_true ⟨?_, fun _ => by decide⟩ hsafe
      rw [validateVote_zero c draws.validate hround]
      split_ifs <;> exact Option.some_ne_none _
    | succ r =>
      rw [crashes_iff hkeys hround, hround, not_or, not_and, Nat.not_le]

/-- **The last round can be reached.**  Votes that name nothing lead a node from round to round, and
the one for the last round crashes it. -/
theorem exists_crashes_last (hdigest : Function.Injective P.sha512)
    (hf : 0 < P.numberOfByzantineNodes) (h : BlockHash) (draw : Bool × Bool) :
    ∃ c, Reached P c ∧ Crashes P draw c (filler (authority 2) h (u32Max - 1)) := by
  have hround : u32Max - 1 + 1 = u32Max := Nat.sub_add_cancel (by decide)
  obtain ⟨c, hreach, hstored, hframe⟩ := exists_round (r := u32Max - 1) (h := h)
    (c := spawn (authority 1) [] false) hdigest hf GuardedMachine.Reachable.refl (by decide)
  have hs := sound_of_reachable hdigest hreach
  -- nothing of the last round is there yet
  have hfree : u32Max - 1 + 1 ∉ (c.election h).state := fun hc =>
    Finmap.notMem_empty ((hframe _ (Nat.lt_succ_self _)).mp hc)
  have hempty : c.named h (u32Max - 1) ∅ = ∅ := rfl
  have hdecision : c.makeDecision P draw (Tally.fromVotes (c.named h (u32Max - 1) ∅)) =
      (filler (authority 2) h (u32Max - 1)).decision := by
    rw [makeDecision_of_honest hs.byzantine, hempty, decisionRule_empty]
    rfl
  refine ⟨c, ⟨_, _, _, hreach⟩, fun hkey => ?_, u32Max - 1, rfl, hstored,
    Or.inr ⟨hround.ge, ∅, rfl, Finset.empty_subset _, hdecision⟩⟩
  have hkey' : (filler (authority 2) h (u32Max - 1)).voteHash P ∈ c.keys h (u32Max - 1 + 1) :=
    hkey
  rw [keys_of_notMem hfree] at hkey'
  exact Finset.notMem_empty _ hkey'

/-- A node that has started an election and stored the votes of two rounds. -/
def versed : Core :=
  (machine Params.source).run (spawn (authority 1) [] false)
    (.transaction ⟨block.digest⟩ true ::
      [firstBallot 2 .one, firstBallot 3 .one, ballot 2 1 .one .commit [1, 2, 3],
        ballot 3 1 .one .commit [1, 2, 3]].map fun v => .vote v (Draws.of false))

/-- A vote of round 3 with nothing to rest on, and one of the last round. -/
theorem handleVote_isSome_iff_versed :
    (((versed.handleVote Params.source (Draws.of false)
          (PrimaryVote.new (authority 4) 3 .one .decide none block)).isSome = true ↔
        ¬Crashes Params.source (true, true) versed
          (PrimaryVote.new (authority 4) 3 .one .decide none block)) ∧
      Crashes Params.source (true, true) versed
        (PrimaryVote.new (authority 4) 3 .one .decide none block)) ∧
    ∃ c, ((c.handleVote Params.source (Draws.of false)
          (filler (authority 2) block (u32Max - 1))).isSome = true ↔
        ¬Crashes Params.source (true, true) c (filler (authority 2) block (u32Max - 1))) ∧
      Crashes Params.source (true, true) c (filler (authority 2) block (u32Max - 1)) := by
  have hversed : Reached Params.source versed :=
    ⟨_, _, _, GuardedMachine.reachable_run _ (by decide +kernel)⟩
  obtain ⟨c, hreach, hcrashes⟩ := exists_crashes_last Params.source_injective Params.source_pos
    block (true, true)
  refine ⟨⟨handleVote_isSome_iff hversed (Draws.of false) _, ?_⟩,
    c, handleVote_isSome_iff hreach (Draws.of false) _, hcrashes⟩
  exact ⟨by decide +kernel, 2, rfl, by decide +kernel, Or.inl rfl⟩

/-- A node that has started an election panics on a vote of round 1 without a proof. -/
theorem exists_reachable_panic :
    ∃ c v draws, Reached Params.source c ∧ v.round ≤ u32Max ∧
      c.handleVote Params.source draws v = none :=
  ⟨(machine Params.source).run (spawn (authority 1) [] false)
      [.transaction ⟨block.digest⟩ false],
    PrimaryVote.new (authority 2) 1 .one .initialVote none block, Draws.of false,
    ⟨_, _, _, GuardedMachine.reachable_run _ (by decide +kernel)⟩, by decide, by decide +kernel⟩

end Core
end NeroConsensus
