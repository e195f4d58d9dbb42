import NeroConsensus.Protocol.Agreement

/-!
# The discipline of the rounds

A node that keeps its pace (`Core.Paced`) votes in one round after the other.  This file
reads that off in the states of a network with few faults, in three clauses
(`round_discipline`).

* In an election that is not decided, the node has voted in round `r + 1` exactly when it
  holds a quorum in round `r`.
* The votes it has cast for an election are of the rounds `0, 1, 2, …`, in this order
  (`Core.InSequence`).
* A vote of a later round names the node's own vote of the round before.

The second clause is about the order in time, so it is an invariant of the turns.  The
node votes in round `r + 1` only where it has itself voted in round `r` and not yet in
round `r + 1`; what it has cast so far are then the votes of the rounds up to `r`.
-/

namespace NeroConsensus
namespace Core

variable {P : Params} {C : Committee PublicKey P.numberOfByzantineNodes}

/-! ## Votes in sequence -/

/-- The votes the node has cast for an election are of the rounds `0, 1, 2, …`. -/
def InSequence (c : Core) : Prop :=
  ∀ h, ∃ n, (c.castsOf h).map PrimaryVote.round = List.range n

theorem castsOf_cast (c : Core) (v : PrimaryVote) (h : BlockHash) :
    (c.cast P v).castsOf h =
      c.castsOf h ++ if v.electionHash = h then [v] else [] := by
  rw [castsOf, casts_cast, List.filter_append, castsOf]
  by_cases hh : v.electionHash = h
  · rw [if_pos hh, List.filter_singleton, decide_eq_true hh, cond_true]
  · rw [if_neg hh, List.filter_singleton, decide_eq_false hh, cond_false]

@[simp] theorem castsOf_conclude (c : Core) (v : PrimaryVote) (h : BlockHash) :
    (c.conclude v).castsOf h = c.castsOf h := by
  rw [castsOf, casts_conclude, castsOf]

section Turn

variable {c c' : Core} {v : PrimaryVote} {draws : Draws}

/-- A vote of a new round, right after a round the node has voted in, is the next in the
sequence. -/
theorem InSequence.cast (hseq : InSequence c)
    (hnew : ∀ u ∈ c.castsOf v.electionHash, u.round ≠ v.round)
    (hbefore : ∀ r, v.round = r + 1 → ∃ u ∈ c.castsOf v.electionHash, u.round = r) :
    InSequence (c.cast P v) := by
  intro h
  obtain ⟨n, hn⟩ := hseq h
  rw [castsOf_cast]
  split_ifs with hh
  · subst hh
    have hmem : ∀ r, (∃ u ∈ c.castsOf v.electionHash, u.round = r) ↔ r < n := by
      intro r
      rw [← List.mem_range, ← hn, List.mem_map]
    have hle : n ≤ v.round := by
      by_contra hlt
      obtain ⟨u, hu, hround⟩ := (hmem v.round).mpr (Nat.lt_of_not_le hlt)
      exact hnew u hu hround
    have hge : v.round ≤ n := by
      cases hround : v.round with
      | zero => exact Nat.zero_le n
      | succ r => exact (hmem r).mp (hbefore r hround)
    refine ⟨n + 1, ?_⟩
    rw [List.map_append, hn, List.range_succ, le_antisymm hle hge]
    rfl
  · rw [List.append_nil]
    exact ⟨n, hn⟩

/-- The rounds in which the node has cast a vote are those in which its key is taken. -/
theorem Accounted.round_ne (ha : Accounted P c) {h : BlockHash} {r : Round}
    (hfree : c.id.voteHash P ∉ c.keys h r) : ∀ u ∈ c.castsOf h, u.round ≠ r := by
  rintro u hu rfl
  obtain ⟨hcast, rfl⟩ := mem_castsOf.mp hu
  have hstored := ha.stored u hcast
  rw [PrimaryVote.voteHash_eq, ha.own u hcast] at hstored
  exact hfree (mem_keys_iff.mpr ⟨u, hstored⟩)

/-- The vote of round 0 is the first. -/
theorem InSequence.castFirst (hseq : InSequence c) (hw : WellFormed P c) (h : BlockHash)
    (draw : Bool) : InSequence (c.castFirst P draw h) := by
  unfold Core.castFirst
  split_ifs with hvoted
  · exact hseq.cast (hw.toAccounted.round_ne (hw.toFiled.voted_eq_false.mp hvoted))
      fun r hr => absurd hr (Nat.succ_ne_zero r).symm
  · exact hseq

variable (hdigest : Function.Injective P.sha512) (hid : c.id ∈ C.correct) (hs : Sound P c)
  (ha : Attributed P C c) (hp : Paced P c)

include hdigest hs

theorem InSequence.afterReceipt (hseq : InSequence c)
    (hnew : v.voteHash P ∉ c.keys v.electionHash v.round)
    (hverdict : c.validateVote P draws.validate v = some .valid) :
    InSequence (c.afterReceipt P draws v) := by
  by_cases hround : v.round = 0
  · rw [afterReceipt_of_eq hround]
    refine InSequence.castFirst (c := (c.relay v).record P v) hseq ?_ _ _
    have hrecord : Relation.ReflTransGen (Move P) c ((c.relay v).record P v) :=
      (Relation.ReflTransGen.single (Move.relay c v)).tail
        (Move.accept (c.relay v) v draws.validate hnew hverdict)
    exact (wellFormed_extends_of_moves hdigest hrecord hs.toWellFormed).1
  · rw [afterReceipt_of_ne hround]
    exact hseq

include hid ha hp

/-- **A turn of a node that is fed with credible votes keeps its votes in sequence.** -/
theorem InSequence.step (hseq : InSequence c) {event : Event}
    (hcred : ∀ v ∈ event.received, Credible P C c v) (hstep : c.step P event = some c') :
    InSequence c' := by
  cases event with
  | transaction tx draw =>
    rw [eq_castFirst_of_step hstep]
    exact hseq.castFirst hs.toWellFormed tx.digest draw
  | vote v draws =>
    rcases handleVote_outcomes hs.noPending hstep with
      rfl | ⟨hnew, hverdict, hmax, ⟨-, rfl⟩ | ⟨hready, rfl⟩⟩
    · exact hseq
    · exact hseq.afterReceipt hdigest hs hnew hverdict
    · have hsmid := (sound_extends_of_moves hdigest (moves_afterReceipt draws hnew hverdict)
        hs).1
      have hamid := ha.afterReceipt hdigest hid hs hnew hverdict (hcred v rfl)
      -- the node has cast the vote of the round it counts
      obtain ⟨u, hu⟩ := mem_keys_iff.mp
        (own_mem_keys_of_ready hdigest hs hp hnew hverdict hamid hready)
      obtain ⟨hucast, huh, huround⟩ := hamid.mem_casts_of_own hsmid hu hdigest
      intro h
      rw [castsOf_conclude]
      refine (hseq.afterReceipt hdigest hs hnew hverdict).cast
        (hsmid.toAccounted.round_ne (hsmid.voted_eq_false.mp hready.2.1)) (fun r hr => ?_) h
      obtain rfl : v.round = r := Nat.succ_injective hr
      exact ⟨u, mem_castsOf.mpr ⟨hucast, huh⟩, huround⟩

end Turn
end Core

namespace System

variable {P : Params} {C : Committee PublicKey P.numberOfByzantineNodes}
  {addresses : PublicKey → List (PublicKey × SocketAddr)} {s : System}

section Runs

variable (hdigest : Function.Injective P.sha512)
  (hreach : (network P C.correct fun s _ v => s.Byzantine C v).Reachable (start addresses) s)

include hdigest hreach

/-- The votes of correct nodes are in sequence. -/
theorem inSequence_node {x : PublicKey} (hx : x ∈ C.correct) :
    Core.InSequence (s.nodes x) := by
  refine invariant_nodes (I := fun x c => x ∈ C.correct → Core.InSequence c) hreach
    (fun x _ h => ⟨0, rfl⟩) ?_ x hx
  intro s x event c hr hx hvotes hinv hstep _
  obtain ⟨ha, hp⟩ := paced_node hdigest (fun _ _ _ hok => hok) hr hx
  refine (hinv x hx).step hdigest ?_ (sound_node hdigest hr x) ha hp (fun v hv => ?_) hstep
  · rw [id_node hdigest hr]
    exact hx
  · exact credible_of_byzantine hdigest hr hx (hvotes v hv)

/-- A correct node has voted in a round where it has cast a vote for it. -/
theorem voted_iff_exists_cast {x : PublicKey} (hx : x ∈ C.correct) (h : BlockHash)
    (r : Round) : ((s.nodes x).roundState h r).voted = true ↔
      ∃ v ∈ (s.nodes x).castsOf h, v.round = r := by
  have hs := sound_node hdigest hreach x
  rw [hs.voted]
  constructor
  · intro hkey
    obtain ⟨v, hv⟩ := Core.mem_keys_iff.mp hkey
    obtain ⟨hcast, hh, hround⟩ := (paced_node hdigest (fun _ _ _ hok => hok) hreach hx
      ).1.mem_casts_of_own hs hv hdigest
    exact ⟨v, Core.mem_castsOf.mpr ⟨hcast, hh⟩, hround⟩
  · rintro ⟨v, hv, hround⟩
    by_contra hfree
    exact hs.toAccounted.round_ne hfree v hv hround

/-- A correct node that votes in a round holds a quorum in the round before. -/
theorem quorum_of_voted {x : PublicKey} (hx : x ∈ C.correct) {h : BlockHash} {r : Round}
    (hvoted : ((s.nodes x).roundState h (r + 1)).voted = true) :
    P.quorum ≤ ((s.nodes x).keys h r).card := by
  obtain ⟨v, hv, hround⟩ := (voted_iff_exists_cast hdigest hreach hx h (r + 1)).mp hvoted
  obtain ⟨hcast, rfl⟩ := Core.mem_castsOf.mp hv
  obtain ⟨p, hp⟩ := (sound_node hdigest hreach x).casts v hcast r hround
  exact hp.quorum.trans (Finset.card_le_card hp.stored)

/-- **Round discipline.** -/
theorem round_discipline {x : PublicKey} (hx : x ∈ C.correct) (h : BlockHash) :
    (((s.nodes x).election h).isDecided = false → ∀ r,
      ((s.nodes x).roundState h (r + 1)).voted = true ↔
        P.quorum ≤ ((s.nodes x).keys h r).card) ∧
    (∀ r, ((s.nodes x).roundState h r).voted = true ↔
      ∃ v ∈ (s.nodes x).castsOf h, v.round = r) ∧
    (∃ n, ((s.nodes x).castsOf h).map PrimaryVote.round = List.range n) ∧
    ∀ v ∈ (s.nodes x).castsOf h, ∀ r, v.round = r + 1 → ∃ p, v.proof = some p ∧
      ∃ w ∈ (s.nodes x).castsOf h, w.round = r ∧ w.voteHash P ∈ p := by
  have hs := sound_node hdigest hreach x
  obtain ⟨ha, hp⟩ := paced_node hdigest (fun _ _ _ hok => hok) hreach hx
  refine ⟨fun hopen r => ⟨quorum_of_voted hdigest hreach hx, fun hquorum => ?_⟩,
    voted_iff_exists_cast hdigest hreach hx h, inSequence_node hdigest hreach hx h,
    fun v hv r hround => ?_⟩
  · exact (hs.voted h (r + 1)).mpr (hp.advanced h r hopen hquorum)
  · obtain ⟨hcast, rfl⟩ := Core.mem_castsOf.mp hv
    obtain ⟨p, w, hproof, hmem, hw, -⟩ := hp.continued v hcast r hround
    obtain ⟨hwcast, hwh, hwround⟩ := ha.mem_casts_of_own hs hw hdigest
    refine ⟨p, hproof, w, Core.mem_castsOf.mpr ⟨hwcast, hwh⟩, hwround, ?_⟩
    rw [(hs.place _ _ _ w hw).1]
    exact hmem

end Runs

theorem round_discipline_unanimous :
    (((unanimous.nodes (authority 3)).election block).isDecided = false → ∀ r,
      ((unanimous.nodes (authority 3)).roundState block (r + 1)).voted = true ↔
        Params.source.quorum ≤ ((unanimous.nodes (authority 3)).keys block r).card) ∧
    (∀ r, ((unanimous.nodes (authority 3)).roundState block r).voted = true ↔
      ∃ v ∈ (unanimous.nodes (authority 3)).castsOf block, v.round = r) ∧
    (∃ n, ((unanimous.nodes (authority 3)).castsOf block).map PrimaryVote.round =
      List.range n) ∧
    ∀ v ∈ (unanimous.nodes (authority 3)).castsOf block, ∀ r, v.round = r + 1 →
      ∃ p, v.proof = some p ∧ ∃ w ∈ (unanimous.nodes (authority 3)).castsOf block,
        w.round = r ∧ w.voteHash Params.source ∈ p :=
  round_discipline (C := trio) Params.source_injective reachable_unanimous (by decide +kernel)
    block

end System
end NeroConsensus
