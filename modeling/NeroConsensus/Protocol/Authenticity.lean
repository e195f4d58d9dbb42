import NeroConsensus.Protocol.System

/-!
# Whose votes a node holds

A vote carries the key of its signer and no signature, and neither `dispatch` nor
`handle_vote` compares the signer with the peer the vote came from.  So a peer can
speak for anybody (`exists_forged`), and whose votes a node holds is decided by what is
delivered to it, and not by the code.

What the code adds is that nothing is changed on the way.  `Unforged G` is the
environment that makes no votes in the name of the members of `G`, and
`broadcast_of_validated` says that then every vote that any node holds under the key of
one of them is a vote it broadcast, to the letter.
-/

namespace NeroConsensus
namespace System

/-- A vote in the name of a member of `G` is one that this member has broadcast. -/
def Unforged (G : Finset PublicKey) (s : System) (v : PrimaryVote) : Prop :=
  v.signer ∈ G → s.Broadcast v

instance (G : Finset PublicKey) (s : System) (v : PrimaryVote) :
    Decidable (s.Unforged G v) :=
  inferInstanceAs (Decidable (_ → _))

variable {P : Params} {H G : Finset PublicKey}
  {allowed : System → PublicKey → PrimaryVote → Prop}
  {addresses : PublicKey → List (PublicKey × SocketAddr)} {s : System}

/-- Stored votes in the name of members of `G` have been broadcast by them. -/
theorem broadcast_of_mem_votes (hdigest : Function.Injective P.sha512)
    (hallowed : ∀ s x v, allowed s x v → s.Unforged G v)
    (hreach : (network P H allowed).Reachable (start addresses) s) :
    ∀ x h r, ∀ v ∈ (s.nodes x).votes h r, s.Unforged G v :=
  invariant_votes hdigest (fun _ t _ hr hv hsigner => (hv hsigner).next hdigest hr t)
    (fun _ _ _ hr _ hv _ => (broadcast_of_mem_casts hdigest hr hv).2)
    (fun s x v _ hok => hallowed s x v hok) hreach

/-- **Authenticity.**  Where nothing is forged in the names of `G`, every vote that a
node holds under the key of a member of `G` was broadcast by that member, for exactly
that election and round. -/
theorem broadcast_of_validated (hdigest : Function.Injective P.sha512)
    (hreach : (network P H fun s _ v => s.Unforged G v).Reachable (start addresses) s)
    {x z : PublicKey} (hz : z ∈ G) {h : BlockHash} {r : Round} {v : PrimaryVote}
    (hv : (s.nodes x).validated h r (z.voteHash P) = some v) :
    v ∈ (s.nodes z).casts ∧ v.signer = z ∧ v.electionHash = h ∧ v.round = r := by
  obtain ⟨hkey, hround, hh⟩ := (sound_node hdigest hreach x).place h r _ v hv
  have hsigner : v.signer = z := by
    rw [PrimaryVote.voteHash_eq] at hkey
    exact PublicKey.voteHash_injective hdigest hkey
  have hcast := broadcast_of_mem_votes hdigest (fun _ _ _ hok => hok) hreach x h r v
    (Core.mem_votes.mpr ⟨_, hv⟩) (by rw [hsigner]; exact hz)
  rw [Broadcast, hsigner] at hcast
  exact ⟨hcast, hsigner, hh, hround⟩

/-! ## Runs -/

/-- The second authority starts the election, and the first hears of it. -/
def heard : System :=
  (network Params.source {authority 1, authority 2} fun s _ v => s.Unforged {authority 2} v).run
    (start fun _ => []) [begin 2 true, deliver 1 (firstBallot 2 .one)]

theorem broadcast_of_validated_heard :
    firstBallot 2 .one ∈ (heard.nodes (authority 2)).casts ∧
      (firstBallot 2 .one).signer = authority 2 ∧ (firstBallot 2 .one).electionHash = block ∧
      (firstBallot 2 .one).round = 0 :=
  broadcast_of_validated (x := authority 1) Params.source_injective
    (GuardedMachine.reachable_run _ (by decide +kernel)) (by decide) (by decide +kernel)

/-- A peer makes up the vote of an authority that has done nothing yet, and the vote is
stored under that authority's key. -/
theorem exists_forged :
    ∃ H s, (network Params.source H fun _ _ _ => True).Reachable (start fun _ => []) s ∧
      ∃ x ∈ H, ∃ z ∈ H, ∃ h r v, (s.nodes x).validated h r (z.voteHash Params.source) = some v ∧
        v ∉ (s.nodes z).casts :=
  ⟨{authority 1, authority 2}, _,
    GuardedMachine.reachable_run [deliver 1 (firstBallot 2 .one)] (by decide +kernel),
    authority 1, by decide, authority 2, by decide, block, 0, firstBallot 2 .one,
    by decide +kernel, by decide +kernel⟩

end System
end NeroConsensus
