import NeroConsensus.Primary.OwnVotes
import Mathlib.Data.Finset.Max

/-!
# The layout of an election

An election is a map from rounds to round states, and a round state a map from keys to
votes, with flags next to it.  Nothing in the types says that these fit together.
`Election.WellFormed` does, clause by clause, and `election_wellFormed` is that every
election a node has stored is so, in every state that it reaches.

Most of the clauses are those of `Filed`, read from a stored round state.  What is new is
that the rounds have no gaps (`Gapless`): a vote is valid only if the round before it is
stored, and an own vote is cast only on votes of the round before.
-/

namespace NeroConsensus

variable {P : Params}

/-- What the node with the key `id` keeps of the election that it has stored under `h`. -/
structure Election.WellFormed (P : Params) (id : PublicKey) (h : BlockHash) (e : Election) :
    Prop where
  hash : e.hash = h
  rounds : ∃ k, ∀ r, r ∈ e.state ↔ r ≤ k
  place : ∀ r rs, e.state.lookup r = some rs → ∀ k v, rs.validatedVotes.lookup k = some v →
    v.voteHash P = k ∧ v.round = r ∧ v.electionHash = h
  initial : ∀ rs, e.state.lookup 0 = some rs → ∀ k v, rs.validatedVotes.lookup k = some v →
    v.voteType = .initialVote
  voted : ∀ r rs, e.state.lookup r = some rs →
    (rs.voted = true ↔ ∃ v, rs.validatedVotes.lookup (id.voteHash P) = some v)

namespace Core

/-! ## Rounds without gaps -/

/-- Elections are stored under their hash, from round 0 on and with no round left out. -/
structure Gapless (c : Core) : Prop where
  hash : ∀ h, (c.election h).hash = h
  first : ∀ h ∈ c.elections, 0 ∈ (c.election h).state
  below : ∀ h r, r + 1 ∈ (c.election h).state → r ∈ (c.election h).state

theorem gapless_spawn (id : PublicKey) (addresses : List (PublicKey × SocketAddr))
    (byzantine : Bool) : Gapless (spawn id addresses byzantine) where
  hash h := by
    rw [election, spawn, Finmap.lookup_empty]
    rfl
  first _ hh := absurd hh Finmap.notMem_empty
  below h r hr := by
    rw [election, spawn, Finmap.lookup_empty] at hr
    exact absurd hr Finmap.notMem_empty

@[simp] theorem hash_record (c : Core) (v : PrimaryVote) (h : BlockHash) :
    ((c.record P v).election h).hash = (c.election h).hash := by
  by_cases hh : h = v.electionHash
  · subst hh
    rw [election_record_self]
    rfl
  · rw [record, election_insertElection_of_ne _ _ hh]

@[simp] theorem hash_conclude (c : Core) (v : PrimaryVote) (h : BlockHash) :
    ((c.conclude v).election h).hash = (c.election h).hash := by
  unfold conclude
  split_ifs
  · by_cases hh : h = v.electionHash
    · subst hh
      show ((c.insertElection _ _).election _).hash = _
      rw [election_insertElection_self]
    · show ((c.insertElection _ _).election h).hash = _
      rw [election_insertElection_of_ne _ _ hh]
  · rfl

section Moves

variable {c c' : Core} {v : PrimaryVote}

/-- A vote that comes after a stored round leaves no gap. -/
theorem Gapless.record (hg : Gapless c)
    (hbefore : ∀ r, v.round = r + 1 → r ∈ (c.election v.electionHash).state) :
    Gapless (c.record P v) where
  hash h := by rw [hash_record, hg.hash]
  first h hh := by
    rcases mem_elections_insertElection.mp hh with rfl | hold
    · cases hround : v.round with
      | zero => exact mem_state_record.mpr (Or.inl ⟨rfl, hround.symm⟩)
      | succ r =>
        exact mem_state_record.mpr (Or.inr (hg.first _
          (mem_elections_of_mem_state (hbefore r hround))))
    · exact mem_state_record.mpr (Or.inr (hg.first h hold))
  below h r hr := by
    rcases mem_state_record.mp hr with ⟨rfl, hround⟩ | hold
    · exact mem_state_record.mpr (Or.inr (hbefore r hround.symm))
    · exact mem_state_record.mpr (Or.inr (hg.below h r hold))

theorem Gapless.cast (hg : Gapless c)
    (hbefore : ∀ r, v.round = r + 1 → r ∈ (c.election v.electionHash).state) :
    Gapless (c.cast P v) :=
  ⟨(hg.record hbefore).hash, (hg.record hbefore).first, (hg.record hbefore).below⟩

theorem Gapless.conclude (hg : Gapless c) (hmem : v.electionHash ∈ c.elections) :
    Gapless (c.conclude v) where
  hash h := by rw [hash_conclude, hg.hash]
  first h hh := by
    rw [state_conclude]
    rcases mem_elections_conclude.mp hh with ⟨-, rfl⟩ | hold
    · exact hg.first _ hmem
    · exact hg.first h hold
  below h r hr := by
    rw [state_conclude] at hr ⊢
    exact hg.below h r hr

/-- **Moves leave no gaps.** -/
theorem Move.gapless (hmove : Move P c c') (hg : Gapless c) : Gapless c' := by
  cases hmove with
  | relay v => exact ⟨hg.hash, hg.first, hg.below⟩
  | accept v draw hnew hverdict =>
    exact hg.record fun r hr => ((validateVote_valid_iff c draw hr).mp hverdict).1
  | castFirst h draw hvoted => exact hg.cast fun r hr => absurd hr (Nat.succ_ne_zero r).symm
  | castNext h r draw hready hmax =>
    refine (hg.cast fun r' hr' => ?_).conclude (mem_elections_insertElection.mpr (Or.inl rfl))
    obtain rfl : r = r' := Nat.succ_injective hr'
    obtain ⟨k, hk⟩ := Finset.card_pos.mp (P.quorum_pos.trans_le hready.1)
    exact mem_state_of_mem_keys hk

end Moves

theorem Reached.gapless {c : Core} (hreach : Reached P c) : Gapless c :=
  hreach.invariant gapless_spawn fun _ _ hmove hg => hmove.gapless hg

/-- A finite set of rounds without gaps is an initial segment. -/
theorem Gapless.exists_last {c : Core} (hg : Gapless c) {h : BlockHash} (hh : h ∈ c.elections) :
    ∃ k, ∀ r, r ∈ (c.election h).state ↔ r ≤ k := by
  have hne : (c.election h).state.keys.Nonempty := ⟨0, Finmap.mem_keys.mpr (hg.first h hh)⟩
  have hdown : ∀ n r, r + n ∈ (c.election h).state → r ∈ (c.election h).state := by
    intro n
    induction n with
    | zero => exact fun r hr => hr
    | succ n ih => exact fun r hr => ih r (hg.below h (r + n) hr)
  refine ⟨(c.election h).state.keys.max' hne, fun r => ⟨fun hr => ?_, fun hr => ?_⟩⟩
  · exact Finset.le_max' _ r (Finmap.mem_keys.mpr hr)
  · refine hdown ((c.election h).state.keys.max' hne - r) r ?_
    rw [Nat.add_sub_cancel' hr]
    exact Finmap.mem_keys.mp (Finset.max'_mem _ hne)

/-! ## Well-formed elections -/

/-- **Every stored election is well formed**, in every state that a node reaches. -/
theorem election_wellFormed (hdigest : Function.Injective P.sha512) {id : PublicKey}
    {addresses : List (PublicKey × SocketAddr)} {byzantine : Bool} {c : Core}
    (hreach : (machine P).Reachable (spawn id addresses byzantine) c) {h : BlockHash}
    {e : Election} (he : c.elections.lookup h = some e) : e.WellFormed P id h := by
  obtain ⟨hwf, hext⟩ := wellFormed_extends_of_reachable hdigest hreach
    (wellFormed_spawn id addresses byzantine P)
  have hg : Gapless c := Reached.gapless (P := P) ⟨_, _, _, hreach⟩
  have helection : c.election h = e := by
    rw [election, he, Option.getD_some]
  have hround : ∀ {r rs}, e.state.lookup r = some rs → c.roundState h r = rs := by
    intro r rs hrs
    rw [roundState, helection, Election.roundState, hrs, Option.getD_some]
  have hvalidated : ∀ {r rs}, e.state.lookup r = some rs → ∀ k,
      rs.validatedVotes.lookup k = c.validated h r k := by
    intro r rs hrs k
    rw [validated, hround hrs]
  refine ⟨?_, ?_, fun r rs hrs k v hv => ?_, fun rs hrs k v hv => ?_, fun r rs hrs => ?_⟩
  · rw [← helection, hg.hash]
  · rw [← helection]
    exact hg.exists_last (Finmap.mem_of_lookup he)
  · rw [hvalidated hrs] at hv
    exact hwf.place h r k v hv
  · rw [hvalidated hrs] at hv
    exact hwf.initial h k v hv
  · have hvoted := hwf.voted h r
    rw [hround hrs, hext.id, mem_keys_iff] at hvoted
    rw [hvoted]
    simp only [hvalidated hrs]
    rfl

/-- Three authorities start with `One`, and the first gets to its decision in round 2. -/
def conclusion : List Event :=
  .transaction ⟨block.digest⟩ true ::
    [firstBallot 2 .one, firstBallot 3 .one, ballot 2 1 .one .commit [1, 2, 3],
      ballot 3 1 .one .commit [1, 2, 3], ballot 2 2 .one .decide [1, 2, 3]].map
        fun v => .vote v (Draws.of false)

theorem election_wellFormed_conclusion :
    (((machine Params.source).run (spawn (authority 1) [] false) conclusion).election
        block).isDecided = true ∧
      (((machine Params.source).run (spawn (authority 1) [] false) conclusion).election
        block).WellFormed Params.source (authority 1) block := by
  have hstored : (((machine Params.source).run (spawn (authority 1) [] false)
      conclusion).elections.lookup block).isSome = true := by
    decide +kernel
  obtain ⟨e, he⟩ := Option.isSome_iff_exists.mp hstored
  have helection : ((machine Params.source).run (spawn (authority 1) [] false)
      conclusion).election block = e := by
    rw [election, he, Option.getD_some]
  refine ⟨by decide +kernel, ?_⟩
  rw [helection]
  exact election_wellFormed Params.source_injective
    (GuardedMachine.reachable_run conclusion (by decide +kernel)) he

end Core
end NeroConsensus
