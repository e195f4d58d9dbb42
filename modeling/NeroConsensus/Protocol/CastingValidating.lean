import NeroConsensus.Protocol.Authenticity

/-!
# Casting and validating

A vote is computed twice: by the node that casts it, from the running tally of a round,
and by every node that validates it, from the votes the proof names.  Where the two
nodes hold the same votes under the proof, the two computations are those of
`decisionRule` on a tally and on the same tally with its `Decide`s for `Zero` left out.
So the receiver accepts exactly the votes that do not rest on miscounted ones
(`validateVote_iff_of_casts`, and `valid_iff_not_miscounted` for the runs of a network
whose nodes may be given any votes at all).

The mix that goes wrong is not exotic.  In `splitRun` four correct nodes, of which one
starts with `One`, exchange the votes of three rounds; one of them decides `Zero`, and
two of those that see its `Decide` cast a `Commit` which they then refuse from each
other.
-/

namespace NeroConsensus

variable {P : Params}

namespace Core

/-- A node that holds the same votes accepts a cast vote exactly where it was not cast
on miscounted votes. -/
theorem validateVote_iff_of_casts {a b : Core} (hbyz : b.byzantine = false)
    {v : PrimaryVote} {r : Round} {p : Finset VoteHash} (hround : v.round = r + 1)
    (hcasts : Casts P a v r p)
    (hsame : ∀ k ∈ p, b.validated v.electionHash r k = a.validated v.electionHash r k)
    (draw : Bool × Bool) :
    b.validateVote P draw v = some .valid ↔
      ¬Miscounted P (Tally.fromVotes (a.named v.electionHash r p)) := by
  have hp : p ⊆ b.keys v.electionHash r := by
    intro k hk
    rw [mem_keys_iff, hsame k hk, ← mem_keys_iff]
    exact hcasts.stored hk
  have hnamed : b.named v.electionHash r p = a.named v.electionHash r p := named_congr hsame
  have hstored : r ∈ (b.election v.electionHash).state := by
    obtain ⟨k, hk⟩ := Finset.card_pos.mp (P.quorum_pos.trans_le hcasts.quorum)
    exact mem_state_of_mem_keys (hp hk)
  rw [validateVote_of_subset hbyz draw hround hcasts.proof hp, hnamed,
    ← decisionRule_running_iff, hcasts.decision]
  constructor
  · intro hvalid
    split_ifs at hvalid with hcond
    · exact hcond.2.symm
    · cases hvalid
  · intro hd
    rw [if_pos ⟨hstored, hd.symm⟩]

end Core

namespace System

variable {H : Finset PublicKey} {addresses : PublicKey → List (PublicKey × SocketAddr)}
  {s : System}

/-- **When a cast vote is valid elsewhere.**  In every run of nodes that run the code,
whatever they are given: a vote `v` that the node `x` has cast is valid at a node `y`
that holds the same votes under its proof if and only if these are not miscounted. -/
theorem valid_iff_not_miscounted (hdigest : Function.Injective P.sha512)
    (hreach : (network P H fun _ _ _ => True).Reachable (start addresses) s)
    {x y : PublicKey} {v : PrimaryVote} (hv : v ∈ (s.nodes x).casts) {r : Round}
    (hround : v.round = r + 1) {p : Finset VoteHash} (hproof : v.proof = some p)
    (hsame : ∀ k ∈ p, (s.nodes y).validated v.electionHash r k =
      (s.nodes x).validated v.electionHash r k) (draw : Bool × Bool) :
    (s.nodes y).validateVote P draw v = some .valid ↔
      ¬Miscounted P (Tally.fromVotes ((s.nodes x).named v.electionHash r p)) := by
  have hcasts := (sound_node hdigest hreach x).casts_of_proof hv hround hproof
  exact Core.validateVote_iff_of_casts (sound_node hdigest hreach y).byzantine hround hcasts
    hsame draw

/-! ## A run of four correct nodes -/

/-- Everybody starts; the fourth authority draws `One`. -/
def splitStart : List Turn :=
  [begin 1 false, begin 2 false, begin 3 false, begin 4 true]

/-- The votes of round 0: the fourth authority sees one `Zero` less than the others. -/
def splitZero : List Turn :=
  [deliver 1 (firstBallot 2 .zero), deliver 1 (firstBallot 3 .zero),
    deliver 2 (firstBallot 1 .zero), deliver 2 (firstBallot 3 .zero),
    deliver 3 (firstBallot 1 .zero), deliver 3 (firstBallot 2 .zero),
    deliver 4 (firstBallot 1 .zero), deliver 4 (firstBallot 2 .zero),
    deliver 1 (firstBallot 4 .one), deliver 2 (firstBallot 4 .one),
    deliver 3 (firstBallot 4 .one), deliver 4 (firstBallot 3 .zero)]

/-- The votes of round 1: the first authority sees three `Commit`s, the others two and
the initial vote of the fourth. -/
def splitOne : List Turn :=
  [deliver 1 (ballot 2 1 .zero .commit [1, 2, 3]),
    deliver 1 (ballot 3 1 .zero .commit [1, 2, 3]),
    deliver 2 (ballot 1 1 .zero .commit [1, 2, 3]),
    deliver 2 (ballot 4 1 .zero .initialVote [1, 2, 4]),
    deliver 3 (ballot 1 1 .zero .commit [1, 2, 3]),
    deliver 3 (ballot 4 1 .zero .initialVote [1, 2, 4]),
    deliver 4 (ballot 1 1 .zero .commit [1, 2, 3]),
    deliver 4 (ballot 2 1 .zero .commit [1, 2, 3]),
    deliver 1 (ballot 4 1 .zero .initialVote [1, 2, 4]),
    deliver 2 (ballot 3 1 .zero .commit [1, 2, 3]),
    deliver 3 (ballot 2 1 .zero .commit [1, 2, 3]),
    deliver 4 (ballot 3 1 .zero .commit [1, 2, 3])]

/-- The votes of round 2: the others see the `Decide` of the first and two `Commit`s. -/
def splitTwo : List Turn :=
  [deliver 2 (ballot 1 2 .zero .decide [1, 2, 3]),
    deliver 2 (ballot 3 2 .zero .commit [1, 3, 4]),
    deliver 3 (ballot 1 2 .zero .decide [1, 2, 3]),
    deliver 3 (ballot 2 2 .zero .commit [1, 2, 4]),
    deliver 4 (ballot 1 2 .zero .decide [1, 2, 3]),
    deliver 4 (ballot 2 2 .zero .commit [1, 2, 4]),
    deliver 1 (ballot 2 2 .zero .commit [1, 2, 4]),
    deliver 1 (ballot 3 2 .zero .commit [1, 3, 4]),
    deliver 1 (ballot 4 2 .zero .commit [1, 2, 4]),
    deliver 2 (ballot 4 2 .zero .commit [1, 2, 4]),
    deliver 3 (ballot 4 2 .zero .commit [1, 2, 4]),
    deliver 4 (ballot 3 2 .zero .commit [1, 3, 4])]

/-- The four nodes after three rounds. -/
def split : System :=
  (network Params.source four fun s _ v => s.Broadcast v).run (start fun _ => [])
    (splitStart ++ splitZero ++ splitOne ++ splitTwo)

theorem reachable_split :
    (network Params.source four fun s _ v => s.Broadcast v).Reachable (start fun _ => [])
      split :=
  GuardedMachine.reachable_run _ (by decide +kernel)

theorem valid_iff_not_miscounted_split :
    (split.nodes (authority 2)).validateVote Params.source (true, true)
        (ballot 1 1 .zero .commit [1, 2, 3]) = some .valid ↔
      ¬Miscounted Params.source (Tally.fromVotes
        ((split.nodes (authority 1)).named block 0 (hashes [1, 2, 3]))) :=
  valid_iff_not_miscounted (v := ballot 1 1 .zero .commit [1, 2, 3]) (x := authority 1)
    Params.source_injective
    (reachable_of_allowed subset_rfl (fun _ _ _ _ _ _ => trivial) reachable_split)
    (by decide +kernel) rfl rfl (by decide +kernel) (true, true)

/-- Two correct nodes hold the same three votes of round 2; the vote that one of them
casts on these is invalid at the other. -/
theorem exists_cast_invalid :
    ∃ s, (network Params.source four fun s _ v => s.Broadcast v).Reachable
        (start fun _ => []) s ∧
      ∃ x ∈ four, ∃ y ∈ four, ∃ v ∈ (s.nodes x).casts, ∃ r p, v.round = r + 1 ∧
        v.proof = some p ∧
        (∀ k ∈ p, (s.nodes y).validated v.electionHash r k =
          (s.nodes x).validated v.electionHash r k) ∧
        (s.nodes y).validateVote Params.source (true, true) v = some .invalid :=
  ⟨split, reachable_split, authority 2, by decide, authority 3, by decide,
    ballot 2 3 .zero .commit [1, 2, 3], by decide +kernel, 2, hashes [1, 2, 3], rfl, rfl,
    by decide +kernel, by decide +kernel⟩

end System
end NeroConsensus
