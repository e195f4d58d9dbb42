import NeroConsensus.Primary.Turns

/-!
# What a proof means at two nodes

A proof is a set of hashes, and a hash covers the signer of a vote and nothing else.
So a node that looks a hash up finds whatever vote of that signer it saw first, and
two nodes may judge one vote on different grounds.

They judge it alike where they hold votes of the same kind under each hash of its proof
(`validateVote_eq_of_kinds`), that is, where no signer in the proof has told the one something
else than the other.  One signer that tells one node `Zero` and the other `One` is enough for a
quorum to mean different things (`exists_verdicts_differ`).
-/

namespace NeroConsensus
namespace Core

variable {P : Params}

/-- Two nodes hold votes of the same kind under the hashes of a proof. -/
def SameKinds (a b : Core) (h : BlockHash) (r : Round) (p : Finset VoteHash) : Prop :=
  ∀ k ∈ p, ∀ v ∈ a.validated h r k, ∀ w ∈ b.validated h r k, v.decision = w.decision

instance (a b : Core) (h : BlockHash) (r : Round) (p : Finset VoteHash) :
    Decidable (a.SameKinds b h r p) :=
  inferInstanceAs (Decidable (∀ k ∈ p, ∀ v ∈ a.validated h r k, ∀ w ∈ b.validated h r k,
    v.decision = w.decision))

/-- The named votes of one kind are counted by their hashes. -/
theorem counter_named {c : Core} (hc : Filed P c) (h : BlockHash) (r : Round) (p : Finset VoteHash)
    (ty : VoteType) (value : Value) :
    (Tally.fromVotes (c.named h r p)).counter ty value =
      (p.filter fun k => ∃ v, c.validated h r k = some v ∧ v.voteType = ty ∧
        v.value = value).card := by
  rw [Tally.counter_fromVotes]
  refine Finset.card_bij (fun v _ => v.voteHash P) ?_ ?_ ?_
  · intro v hv
    obtain ⟨hv, hkind⟩ := mem_votesOf.mp hv
    obtain ⟨k, hk, hlookup⟩ := mem_named.mp hv
    rw [Finset.mem_filter, (hc.place h r k v hlookup).1]
    exact ⟨hk, v, hlookup, hkind⟩
  · intro v hv w hw heq
    have hv' := named_subset_votes c h r p (votesOf_subset _ _ _ hv)
    have hw' := named_subset_votes c h r p (votesOf_subset _ _ _ hw)
    rw [hc.mem_votes_iff, heq] at hv'
    rw [hc.mem_votes_iff, hv'] at hw'
    exact Option.some.inj hw'
  · intro k hk
    obtain ⟨hk, v, hlookup, hkind⟩ := Finset.mem_filter.mp hk
    exact ⟨v, mem_votesOf.mpr ⟨mem_named.mpr ⟨k, hk, hlookup⟩, hkind⟩,
      (hc.place h r k v hlookup).1⟩

/-- Where two nodes hold the same kinds, they count the same votes. -/
theorem SameKinds.fromVotes_eq {a b : Core} (ha : Filed P a) (hb : Filed P b) {h : BlockHash}
    {r : Round} {p : Finset VoteHash} (hpa : p ⊆ a.keys h r) (hpb : p ⊆ b.keys h r)
    (hkinds : SameKinds a b h r p) :
    Tally.fromVotes (a.named h r p) = Tally.fromVotes (b.named h r p) := by
  refine Tally.ext_counter fun ty value => ?_
  rw [counter_named ha, counter_named hb]
  congr 1
  refine Finset.filter_congr fun k hk => ?_
  obtain ⟨v, hv⟩ := mem_keys_iff.mp (hpa hk)
  obtain ⟨w, hw⟩ := mem_keys_iff.mp (hpb hk)
  have hkind := hkinds k hk v hv w hw
  have htype : v.voteType = w.voteType := congrArg Decision.voteType hkind
  have hvalue : v.value = w.value := congrArg Decision.value hkind
  rw [hv, hw]
  simp only [Option.some.injEq, exists_eq_left', htype, hvalue]

/-- **Two nodes judge a vote alike** whose proof both of them have, if they hold votes of the same
kind under each of its hashes.  Where the proof is empty, both or neither must have stored the
round. -/
theorem validateVote_eq_of_kinds (hdigest : Function.Injective P.sha512) {a b : Core}
    {idA idB : PublicKey} {addressesA addressesB : List (PublicKey × SocketAddr)}
    (ha : (machine P).Reachable (spawn idA addressesA false) a)
    (hb : (machine P).Reachable (spawn idB addressesB false) b) {v : PrimaryVote} {r : Round}
    {p : Finset VoteHash} (hround : v.round = r + 1) (hproof : v.proof = some p)
    (hpa : p ⊆ a.keys v.electionHash r) (hpb : p ⊆ b.keys v.electionHash r)
    (hstored : p = ∅ →
      (r ∈ (a.election v.electionHash).state ↔ r ∈ (b.election v.electionHash).state))
    (hkinds : SameKinds a b v.electionHash r p) (draw draw' : Bool × Bool) :
    a.validateVote P draw v = b.validateVote P draw' v := by
  have hsoundA := sound_of_reachable hdigest ha
  have hsoundB := sound_of_reachable hdigest hb
  have hboth : r ∈ (a.election v.electionHash).state ↔ r ∈ (b.election v.electionHash).state := by
    rcases p.eq_empty_or_nonempty with hempty | ⟨k, hk⟩
    · exact hstored hempty
    · exact iff_of_true (mem_state_of_mem_keys (hpa hk)) (mem_state_of_mem_keys (hpb hk))
  rw [validateVote_of_subset hsoundA.byzantine draw hround hproof hpa,
    validateVote_of_subset hsoundB.byzantine draw' hround hproof hpb,
    hkinds.fromVotes_eq hsoundA.toFiled hsoundB.toFiled hpa hpb]
  simp only [hboth]

/-! ## One signer, two votes -/

/-- A node that hears `Zero` from the third authority and `value` from the fourth. -/
def hearing (value : Value) : List Event :=
  [.transaction ⟨block.digest⟩ true,
    .vote (firstBallot 2 .one) (Draws.of false),
    .vote (firstBallot 3 .zero) (Draws.of false),
    .vote (firstBallot 4 value) (Draws.of false)]

/-- The node of an authority after it has heard them. -/
def hearer (i : UInt8) (value : Value) : Core :=
  (machine Params.source).run (spawn (authority i) [] false) (hearing value)

theorem reachable_hearer_one (value : Value) :
    (machine Params.source).Reachable (spawn (authority 1) [] false) (hearer 1 value) :=
  GuardedMachine.reachable_run _ (by cases value <;> decide +kernel)

theorem reachable_hearer_five (value : Value) :
    (machine Params.source).Reachable (spawn (authority 5) [] false) (hearer 5 value) :=
  GuardedMachine.reachable_run _ (by cases value <;> decide +kernel)

/-- Two nodes that have heard the same. -/
theorem validateVote_eq_of_kinds_hearers :
    (hearer 1 .one).validateVote Params.source (true, true)
        (ballot 2 1 .one .initialVote [2, 3, 4]) =
      (hearer 5 .one).validateVote Params.source (false, false)
        (ballot 2 1 .one .initialVote [2, 3, 4]) :=
  validateVote_eq_of_kinds Params.source_injective (reachable_hearer_one .one)
    (reachable_hearer_five .one) rfl rfl (by decide +kernel) (by decide +kernel)
    (by decide +kernel) (by decide +kernel) _ _

/-- A vote that is valid at a node that heard `Zero` from the fourth authority, and
invalid at one that heard `One`. -/
theorem exists_verdicts_differ :
    ∃ a b idA idB addressesA addressesB v p,
      (machine Params.source).Reachable (spawn idA addressesA false) a ∧
      (machine Params.source).Reachable (spawn idB addressesB false) b ∧
      v.round = 0 + 1 ∧ v.proof = some p ∧
      p ⊆ a.keys v.electionHash 0 ∧ p ⊆ b.keys v.electionHash 0 ∧
      a.validateVote Params.source (true, true) v ≠
        b.validateVote Params.source (true, true) v :=
  ⟨hearer 1 .zero, hearer 5 .one, authority 1, authority 5, [], [],
    ballot 2 1 .zero .initialVote [2, 3, 4], hashes [2, 3, 4], reachable_hearer_one .zero,
    reachable_hearer_five .one, rfl, rfl, by decide +kernel, by decide +kernel,
    by decide +kernel⟩

end Core
end NeroConsensus
