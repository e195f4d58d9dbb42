import NeroConsensus.Protocol.Termination

/-!
# Elections end with the first decision

A node that has decided votes no more.  The others have one round left (`round_le_of_decide`): a
`Decide` of a correct node in round `R` rests on a quorum of `Commit`s in a round before `R`, and
two rounds after that quorum every vote of a correct node is a `Decide`.  This holds at any time,
whatever is still in flight.  For decisions for `Zero` it takes that nobody has counted wrongly.
-/

namespace NeroConsensus
namespace System

variable {P : Params} {C : Committee PublicKey P.numberOfByzantineNodes}
  {addresses : PublicKey → List (PublicKey × SocketAddr)} {s : System}

section Quorate

variable (hdigest : Function.Injective P.sha512)
  (hreach : (network P C.correct (Quorate P C)).Reachable (start addresses) s)

include hdigest hreach

/-- Only the last vote of a node is a `Decide`. -/
theorem voteType_ne_of_lt {z : PublicKey} (hz : z ∈ C.correct) {u : PrimaryVote}
    (hu : u ∈ (s.nodes z).casts) : ∀ {n : ℕ} {w : PrimaryVote}, w ∈ (s.nodes z).casts →
      w.electionHash = u.electionHash → w.round = n → u.round < n → u.voteType ≠ .decide := by
  have hs := sound_node hdigest hreach z
  have hp := (paced_node hdigest (fun _ _ _ hok => hok.1) hreach hz).2
  intro n
  induction n with
  | zero => exact fun _ _ _ hlt => absurd hlt (Nat.not_lt_zero _)
  | succ n ih =>
    intro w hw hh hround hlt
    obtain ⟨p, v, -, -, hv, hvtype⟩ := hp.continued w hw n hround
    have hown : z.voteHash P ∈ (s.nodes z).keys u.electionHash n := by
      rw [id_node hdigest hreach, hh] at hv
      exact Core.mem_keys_iff.mpr ⟨v, hv⟩
    obtain ⟨w', hw', hh', hround'⟩ := exists_cast_of_own hdigest hreach hz hown
    rcases (Nat.le_of_lt_succ hlt).eq_or_lt with heq | hlt'
    · -- it is the vote of the round before
      have hstored := hs.stored u hu
      rw [PrimaryVote.voteHash_eq, hs.own u hu, heq, ← hh, hv] at hstored
      rw [← Option.some.inj hstored]
      exact hvtype
    · exact ih hw' hh' hround' hlt'

end Quorate

/-- **One round after a decision everybody is through.**  In every run in which the votes name a
quorum, at any time: once a correct node has voted `Decide` in an election, no correct node has
cast or will cast a vote in it more than one round later.  For `Zero` it is assumed that no correct
node has cast on miscounted votes. -/
theorem round_le_of_decide (hdigest : Function.Injective P.sha512)
    (hreach : (network P C.correct (Quorate P C)).Reachable (start addresses) s)
    {x y : PublicKey} (hx : x ∈ C.correct) (hy : y ∈ C.correct) {v w : PrimaryVote}
    (hv : v ∈ (s.nodes x).casts) (hvtype : v.voteType = .decide)
    (hexact : v.value = .zero → ∀ z ∈ C.correct, Core.Exact P (s.nodes z) v.electionHash)
    (hw : w ∈ (s.nodes y).casts) (hh : w.electionHash = v.electionHash) :
    w.round ≤ v.round + 1 := by
  have hmem : v ∈ (s.nodes x).votes v.electionHash v.round :=
    Core.mem_votes.mpr ⟨_, (sound_node hdigest hreach x).stored v hv⟩
  have hexact' : ∀ z ∈ C.correct, Core.Exact P (s.nodes z) v.electionHash := by
    intro z hz
    cases hvalue : v.value with
    | zero => exact hexact hvalue z hz
    | one => exact exact_of_decide_one hdigest hreach hx hz hmem hvtype hvalue
  obtain ⟨q, a, ha, hcommits, hfirst⟩ := exists_commits hdigest hreach hexact' hx hmem hvtype
  have hle : q + 1 ≤ v.round := hfirst x hx v.round v hmem hvtype
  by_contra hlt
  have hlarge : q + 1 + 1 < w.round := (Nat.succ_le_succ hle).trans_lt (Nat.lt_of_not_le hlt)
  -- otherwise the node has gone on from its vote two rounds after the quorum of `Commit`s
  have hown : y.voteHash P ∈ (s.nodes y).keys v.electionHash (q + 1 + 1) := by
    have hlast := own_of_cast hdigest hreach hw
    rw [hh] at hlast
    exact own_of_own_le hdigest hreach hy hlarge.le hlast
  obtain ⟨u, hu, huh, huround⟩ := exists_cast_of_own hdigest hreach hy hown
  have humem : u ∈ (s.nodes y).votes v.electionHash (q + 1 + 1) := by
    have hstored := (sound_node hdigest hreach y).stored u hu
    rw [huh, huround] at hstored
    exact Core.mem_votes.mpr ⟨_, hstored⟩
  obtain ⟨W, hW, hquorum, hdecision⟩ := exists_quorum hdigest hreach (hexact' y hy) humem
  rw [decisionRule_of_quorum hquorum fun z hz => commit_or_decide hdigest hreach ha hy
    (hexact' y hy) hcommits (hW hz)] at hdecision
  refine voteType_ne_of_lt hdigest hreach hy hu hw (hh.trans huh.symm) rfl ?_
    (PrimaryVote.voteType_of_decision hdecision)
  rw [huround]
  exact hlarge

theorem round_le_of_decide_concord :
    ballot 1 2 .one .decide [1, 2, 3] ∈ (concord.nodes (authority 1)).casts ∧
      ballot 3 2 .one .decide [1, 2, 3] ∈ (concord.nodes (authority 3)).casts ∧ 2 ≤ 2 + 1 := by
  have hspec : ballot 1 2 .one .decide [1, 2, 3] ∈ (concord.nodes (authority 1)).casts ∧
      ballot 3 2 .one .decide [1, 2, 3] ∈ (concord.nodes (authority 3)).casts := by
    decide +kernel
  exact ⟨hspec.1, hspec.2, round_le_of_decide Params.source_injective
    (quorate_of_orderly reachable_concord) (x := authority 1) (y := authority 3)
    (by decide +kernel) (by decide +kernel) hspec.1 rfl (fun hzero => by cases hzero) hspec.2 rfl⟩

end System
end NeroConsensus
