import NeroConsensus.Protocol.CastingValidating

/-!
# What becomes of a delivered vote

A vote that is handled before the votes it names are stored is gone: judged pending, it
is noted on a clone of the round state that nobody writes back, and if the round before
is not stored at all it is invalid.  It is not asked for again.

`validated_of_handled` is what is left.  If a vote reaches a node in time (`Timely`:
the node holds the votes the signer counted, and the round is not the last `u32`), and
the signer did not count miscounted votes, the node stores it.  In runs in which every
vote is delivered in this way, `InOrder`, a quiet network has all votes everywhere
(`validated_of_quiescent`).

One vote of three that overtakes the votes it names is enough to have a node without it
for good, and without everything that rests on it (`exists_lost`).
-/

namespace NeroConsensus
namespace System

variable {P : Params} {H D : Finset PublicKey}
  {allowed : System → PublicKey → PrimaryVote → Prop}
  {addresses : PublicKey → List (PublicKey × SocketAddr)} {s : System}

/-- A node holds, under the hashes of a proof, the votes that the signer counted. -/
def Shares (s : System) (x : PublicKey) (v : PrimaryVote) : Prop :=
  v.round ≠ 0 → ∀ p ∈ v.proof, ∀ k ∈ p,
    (s.nodes x).validated v.electionHash (v.round - 1) k =
      (s.nodes v.signer).validated v.electionHash (v.round - 1) k

instance (s : System) (x : PublicKey) (v : PrimaryVote) : Decidable (s.Shares x v) :=
  inferInstanceAs (Decidable (_ → ∀ p ∈ v.proof, ∀ k ∈ p, _ = _))

/-- A vote in the name of a member of `D` is its own, and is delivered in time. -/
def Timely (D : Finset PublicKey) (s : System) (x : PublicKey) (v : PrimaryVote) : Prop :=
  s.Unforged D v ∧ v.round < u32Max ∧ (v.signer ∈ D → s.Shares x v)

/-! ## Handled votes -/

section Handled

variable (hdigest : Function.Injective P.sha512)
  (hreach : (network P H allowed).Reachable (start addresses) s)

include hdigest hreach

/-- A vote that a node gets to see in time is valid there. -/
theorem validateVote_of_timely {x : PublicKey} {v : PrimaryVote} (hv : s.Broadcast v)
    (hshares : s.Shares x v) (hexact : Core.Exact P (s.nodes v.signer) v.electionHash)
    (draw : Bool × Bool) : (s.nodes x).validateVote P draw v = some .valid := by
  have hs := sound_node hdigest hreach v.signer
  cases hround : v.round with
  | zero =>
    have hstored := hs.stored v hv
    rw [hround] at hstored
    rw [Core.validateVote_zero _ draw hround, if_pos (hs.initial _ _ v hstored)]
  | succ r =>
    obtain ⟨p, hp⟩ := hs.casts v hv r hround
    have hpred : v.round - 1 = r := by
      rw [hround]
      rfl
    refine (Core.validateVote_iff_of_casts (sound_node hdigest hreach x).byzantine hround hp
      (fun k hk => ?_) draw).mpr (hexact v hv rfl r hround p hp.proof)
    rw [← hpred]
    exact hshares (by rw [hround]; exact Nat.succ_ne_zero r) p hp.proof k hk

/-- Two votes of one signer for one round, both broadcast, are one vote. -/
theorem Broadcast.unique {v w : PrimaryVote} (hv : s.Broadcast v) (hw : s.Broadcast w)
    (hsigner : v.signer = w.signer) (hround : v.round = w.round)
    (hh : v.electionHash = w.electionHash) : v = w := by
  have hs := sound_node hdigest hreach w.signer
  rw [Broadcast, hsigner] at hv
  have hv' := hs.stored v hv
  rw [PrimaryVote.voteHash_eq, hsigner, hround, hh, ← PrimaryVote.voteHash_eq,
    hs.stored w hw] at hv'
  exact (Option.some.inj hv').symm

/-- A node that gets a vote in time holds it after the turn. -/
theorem validated_of_timely {x : PublicKey} {v : PrimaryVote} {draws : Draws} {c : Core}
    (hallowed : ∀ s x v, allowed s x v → s.Unforged D v) (hD : v.signer ∈ D)
    (hv : s.Broadcast v) (hshares : s.Shares x v)
    (hexact : Core.Exact P (s.nodes v.signer) v.electionHash)
    (hstep : (s.nodes x).handleVote P draws v = some c) :
    c.validated v.electionHash v.round (v.voteHash P) = some v := by
  have hs := sound_node hdigest hreach x
  by_cases hnew : v.voteHash P ∈ (s.nodes x).keys v.electionHash v.round
  · -- the key is taken, by this very vote
    obtain ⟨u, hu⟩ := Core.mem_keys_iff.mp hnew
    obtain ⟨hkey, huround, huh⟩ := hs.place _ _ _ u hu
    have husigner : u.signer = v.signer := PublicKey.voteHash_injective hdigest hkey
    have hbroadcast := broadcast_of_mem_votes hdigest hallowed hreach x _ _ u
      (Core.mem_votes.mpr ⟨_, hu⟩) (by rw [husigner]; exact hD)
    have huv := Broadcast.unique hdigest hreach hbroadcast hv husigner huround huh
    rw [huv] at hu
    have hturn : (s.nodes x).step P (.vote v draws) = some c := hstep
    exact (Core.step_sound hdigest hturn hs).2.validated _ _ _ _ hu
  · exact Core.validated_handleVote hdigest hs hnew
      (validateVote_of_timely hdigest hreach hv hshares hexact draws.validate) hstep

end Handled

/-- **A vote that is handled in time is stored.**  For runs in which all that is delivered
in the names of `D` is timely, and an election for which the members of `D` have exact
casts. -/
theorem validated_of_handled (hdigest : Function.Injective P.sha512)
    (hallowed : ∀ s x v, allowed s x v → Timely D s x v)
    (hreach : (network P H allowed).Reachable (start addresses) s)
    {h : BlockHash} (hexact : ∀ z ∈ D, Core.Exact P (s.nodes z) h) {x : PublicKey}
    {v : PrimaryVote} (hv : v ∈ (s.nodes x).sentVotes) (hD : v.signer ∈ D)
    (hh : v.electionHash = h) :
    (s.nodes x).validated h v.round (v.voteHash P) = some v := by
  have hall : (∀ z ∈ D, Core.Exact P (s.nodes z) h) → ∀ x, ∀ v ∈ (s.nodes x).sentVotes,
      v.signer ∈ D → v.electionHash = h →
        (s.nodes x).validated h v.round (v.voteHash P) = some v := by
    refine hreach.invariant (P := fun s => (∀ z ∈ D, Core.Exact P (s.nodes z) h) → ∀ x,
      ∀ v ∈ (s.nodes x).sentVotes, v.signer ∈ D → v.electionHash = h →
        (s.nodes x).validated h v.round (v.voteHash P) = some v) ?_ ?_
    · intro _ x v hv
      exact absurd hv (Finset.notMem_empty v)
    · rintro s t hr hinv hguard hexact x v hv hD rfl
      have hbefore : ∀ z ∈ D, Core.Exact P (s.nodes z) v.electionHash := fun z hz =>
        (hexact z hz).anti (sound_node hdigest hr z) (nodes_extend hdigest hr t z)
      have hold : v ∈ (s.nodes x).sentVotes →
          ((s.next P t).nodes x).validated v.electionHash v.round (v.voteHash P) = some v :=
        fun hmem =>
          (nodes_extend hdigest hr t x).validated _ _ _ _ (hinv hbefore x v hmem hD rfl)
      rcases nodes_next_cases (P := P) s t x with hsame | ⟨rfl, hturn⟩
      · refine hold ?_
        rw [← hsame]
        exact hv
      · rcases Core.mem_sentVotes_step (sound_node hdigest hr t.node).noPending hturn hv with
          hmem | ⟨draws, hevent⟩
        · exact hold hmem
        · obtain ⟨hunforged, -, hshares⟩ :=
            hallowed s _ v (hguard.2.2 v (by rw [hevent]; rfl))
          rw [hevent] at hturn
          exact validated_of_timely hdigest hr (fun s x v hok => (hallowed s x v hok).1) hD
            (hunforged hD) (hshares hD) (hbefore _ hD) hturn
  exact hall hexact x v hv hD hh

/-! ## Runs in order -/

/-- A vote of a node of `H` that reaches a node after the votes it names, does not make
it miscast, and is not of the last round there is. -/
def InOrder (P : Params) (H : Finset PublicKey) (s : System) (x : PublicKey)
    (v : PrimaryVote) : Prop :=
  s.Sent H v ∧ v.round < u32Max ∧
    (∀ p ∈ v.proof, p ⊆ (s.nodes x).keys v.electionHash (v.round - 1)) ∧
    ¬(s.nodes x).Miscasts P v

instance (H : Finset PublicKey) (s : System) (x : PublicKey) (v : PrimaryVote) :
    Decidable (InOrder P H s x v) :=
  inferInstanceAs (Decidable (_ ∧ _ ∧
    (∀ p ∈ v.proof, p ⊆ (s.nodes x).keys v.electionHash (v.round - 1)) ∧ _))

section InOrder

variable (hdigest : Function.Injective P.sha512)
  (hreach : (network P H (InOrder P H)).Reachable (start addresses) s)

include hdigest hreach

/-- All the stored votes come from the nodes of `H`. -/
theorem sent_of_mem_votes : ∀ x h r, ∀ v ∈ (s.nodes x).votes h r, s.Sent H v := by
  refine invariant_votes hdigest (fun _ t _ hr hv => ⟨hv.1, hv.2.next hdigest hr t⟩)
    (fun s x v hr hx hv => ?_) (fun _ _ _ _ hok => hok.1) hreach
  obtain ⟨hsigner, hbroadcast⟩ := broadcast_of_mem_casts hdigest hr hv
  exact ⟨by rw [hsigner]; exact hx, hbroadcast⟩

/-- Two nodes that have a hash have the same vote under it. -/
theorem validated_eq_of_mem_keys {x y : PublicKey} {h : BlockHash} {r : Round}
    {k : VoteHash} (hkx : k ∈ (s.nodes x).keys h r)
    (hky : k ∈ (s.nodes y).keys h r) :
    (s.nodes x).validated h r k = (s.nodes y).validated h r k := by
  obtain ⟨v, hv⟩ := Core.mem_keys_iff.mp hkx
  obtain ⟨w, hw⟩ := Core.mem_keys_iff.mp hky
  obtain ⟨hvkey, hvround, hvh⟩ := (sound_node hdigest hreach x).place h r k v hv
  obtain ⟨hwkey, hwround, hwh⟩ := (sound_node hdigest hreach y).place h r k w hw
  have hsigner : v.signer = w.signer :=
    PublicKey.voteHash_injective hdigest (hvkey.trans hwkey.symm)
  have hvsent := sent_of_mem_votes hdigest hreach x h r v (Core.mem_votes.mpr ⟨k, hv⟩)
  have hwsent := sent_of_mem_votes hdigest hreach y h r w (Core.mem_votes.mpr ⟨k, hw⟩)
  rw [hv, hw, Broadcast.unique hdigest hreach hvsent.2 hwsent.2 hsigner
    (hvround.trans hwround.symm) (hvh.trans hwh.symm)]

/-- A vote that comes after the votes it names comes in time. -/
theorem timely_of_inOrder {x : PublicKey} {v : PrimaryVote} (hok : InOrder P H s x v) :
    Timely H s x v := by
  obtain ⟨⟨-, hbroadcast⟩, hmax, hproof, -⟩ := hok
  refine ⟨fun _ => hbroadcast, hmax, fun _ hne p hp k hk => ?_⟩
  refine validated_eq_of_mem_keys hdigest hreach (hproof p hp hk) ?_
  obtain ⟨r, hround⟩ := Nat.exists_eq_succ_of_ne_zero hne
  rw [hround]
  exact ((sound_node hdigest hreach v.signer).casts_of_proof hbroadcast hround hp).stored hk

/-- Nodes that do not miscast have exact casts. -/
theorem exact_of_inOrder (x : PublicKey) (h : BlockHash) : Core.Exact P (s.nodes x) h := by
  refine invariant_nodes (I := fun _ c => Core.Exact P c h) hreach ?_ ?_ x
  · intro x v hv
    cases hv
  · intro s x event c hr _ hvotes hinv hstep
    exact (hinv x).step hdigest (sound_node hdigest hr x) hstep fun v hv =>
      (hvotes v hv).2.2.2

end InOrder

/-- **No vote is lost in order.**  In every run in which the votes are delivered in order,
once nothing is in flight: every node has stored every vote that any node cast, and so
all nodes hold the same votes. -/
theorem validated_of_quiescent (hdigest : Function.Injective P.sha512)
    (hreach : (network P H (InOrder P H)).Reachable (start addresses) s)
    (hquiet : s.Quiescent H) {x y : PublicKey} (hx : x ∈ H) (hy : y ∈ H) :
    (∀ v ∈ (s.nodes y).casts,
        (s.nodes x).validated v.electionHash v.round (v.voteHash P) = some v) ∧
      ∀ h r k, (s.nodes x).validated h r k = (s.nodes y).validated h r k := by
  have htimely : (network P H (Timely H)).Reachable (start addresses) s :=
    reachable_of_allowed subset_rfl (fun _ _ _ hr _ => timely_of_inOrder hdigest hr) hreach
  have hstored : ∀ x ∈ H, ∀ y ∈ H, ∀ v ∈ (s.nodes y).casts,
      (s.nodes x).validated v.electionHash v.round (v.voteHash P) = some v := by
    intro x hx y hy v hv
    by_cases hxy : x = y
    · rw [hxy]
      exact (sound_node hdigest hreach y).stored v hv
    · refine validated_of_handled hdigest (fun _ _ _ hok => hok) htimely
        (fun z _ => exact_of_inOrder hdigest hreach z v.electionHash)
        (hquiet y hy x hx (fun heq => hxy heq.symm) v hv) ?_ rfl
      rw [(broadcast_of_mem_casts hdigest hreach hv).1]
      exact hy
  -- what one node has stored some node has cast, so the other has it as well
  have hsub : ∀ x ∈ H, ∀ y ∈ H, ∀ h r k v, (s.nodes x).validated h r k = some v →
      (s.nodes y).validated h r k = some v := by
    intro x hx y hy h r k v hv
    obtain ⟨hsigner, hbroadcast⟩ :=
      sent_of_mem_votes hdigest hreach x h r v (Core.mem_votes.mpr ⟨k, hv⟩)
    obtain ⟨hkey, hround, hh⟩ := (sound_node hdigest hreach x).place h r k v hv
    have hv' := hstored y hy v.signer hsigner v hbroadcast
    rw [hkey, hround, hh] at hv'
    exact hv'
  refine ⟨hstored x hx y hy, fun h r k => ?_⟩
  cases hv : (s.nodes x).validated h r k with
  | some v => rw [hsub x hx y hy h r k v hv]
  | none =>
    cases hw : (s.nodes y).validated h r k with
    | none => rfl
    | some w =>
      rw [hsub y hy x hx h r k w hw] at hv
      cases hv

/-! ## A lost vote -/

/-- Two nodes that exchange their votes of round 0. -/
def exchange : List Turn :=
  [begin 1 false, begin 2 true, deliver 1 (firstBallot 2 .one), deliver 2 (firstBallot 1 .zero)]

def two : Finset PublicKey := {authority 1, authority 2}

def exchanged : System :=
  (network Params.source two (InOrder Params.source two)).run (start fun _ => []) exchange

theorem validated_of_quiescent_exchanged :
    (∀ v ∈ (exchanged.nodes (authority 2)).casts,
        (exchanged.nodes (authority 1)).validated v.electionHash v.round
          (v.voteHash Params.source) = some v) ∧
      ∀ h r k, (exchanged.nodes (authority 1)).validated h r k =
        (exchanged.nodes (authority 2)).validated h r k :=
  validated_of_quiescent (H := two) Params.source_injective
    (GuardedMachine.reachable_run exchange (by decide +kernel)) (by decide +kernel)
    (by decide +kernel) (by decide +kernel)

/-- Three nodes start with `Zero`.  The `Commit` of the first reaches the third before the
votes of round 0 do. -/
def overtaking : List Turn :=
  [begin 1 false, begin 2 false, begin 3 false,
    deliver 1 (firstBallot 2 .zero), deliver 1 (firstBallot 3 .zero),
    deliver 2 (firstBallot 1 .zero), deliver 2 (firstBallot 3 .zero),
    deliver 3 (ballot 1 1 .zero .commit [1, 2, 3]),
    deliver 3 (firstBallot 1 .zero), deliver 3 (firstBallot 2 .zero),
    deliver 1 (ballot 2 1 .zero .commit [1, 2, 3]),
    deliver 1 (ballot 3 1 .zero .commit [1, 2, 3]),
    deliver 2 (ballot 1 1 .zero .commit [1, 2, 3]),
    deliver 2 (ballot 3 1 .zero .commit [1, 2, 3]),
    deliver 3 (ballot 2 1 .zero .commit [1, 2, 3]),
    deliver 1 (ballot 2 2 .zero .decide [1, 2, 3]),
    deliver 2 (ballot 1 2 .zero .decide [1, 2, 3]),
    deliver 3 (ballot 1 2 .zero .decide [1, 2, 3]),
    deliver 3 (ballot 2 2 .zero .decide [1, 2, 3])]

/-- The three nodes of `overtaking`. -/
def three : Finset PublicKey := {authority 1, authority 2, authority 3}

/-- Every vote that was cast has been delivered exactly once to every other node, and the
third node lacks one whose proof votes it holds. -/
theorem exists_lost :
    ∃ turns s, (network Params.source three fun s _ v => s.Sent three v).Legal
        (start fun _ => []) turns ∧
      s = (network Params.source three fun s _ v => s.Sent three v).run
        (start fun _ => []) turns ∧
      (turns.map fun t => (t.node, t.event.received)).Nodup ∧ s.Quiescent three ∧
      ∃ x ∈ three, ∃ y ∈ three, ∃ v ∈ (s.nodes y).casts,
        (∀ p ∈ v.proof, p ⊆ (s.nodes x).keys v.electionHash (v.round - 1)) ∧
        (s.nodes x).validated v.electionHash v.round (v.voteHash Params.source) = none :=
  ⟨overtaking, _, by decide +kernel, rfl, by decide +kernel, by decide +kernel,
    authority 3, by decide +kernel, authority 1, by decide +kernel,
    ballot 1 1 .zero .commit [1, 2, 3], by decide +kernel, by decide +kernel,
    by decide +kernel⟩

end System
end NeroConsensus
