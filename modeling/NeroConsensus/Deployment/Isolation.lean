import NeroConsensus.Deployment.Guarantees

/-!
# Primaries that nobody reaches

A primary listens on the local interface, whatever its configured address is.  Where no authority
has the local address, a vote for another authority reaches nobody: its frames are for addresses at
which nobody listens, and the addresses at which somebody listens are in nobody's configuration.

Then the channels of votes stay empty, the cores cast first votes and no others (`Deaf`), and no
election is ever decided (`decided_eq_none`).
-/

namespace NeroConsensus
namespace Deployment

variable {P : Params} {ε : Type} {B : Base64Crate ε} {com : Config.Committee}
  {H : Finset PublicKey} {d d' : Deployment ε}

/-- Nobody has heard of a vote, and so only first votes have been cast. -/
structure Deaf (d : Deployment ε) : Prop where
  channels : ∀ y, (d.handlers y).txVotes = []
  casts : ∀ x, ∀ v ∈ (d.system.nodes x).casts, v.round = 0

theorem deaf_start : Deaf (start com : Deployment ε) where
  channels _ := rfl
  casts _ _ hv := absurd hv List.not_mem_nil

/-- Nothing is submitted for an address at which a primary listens. -/
theorem Sound.submitted_eq_nil {admits : System → PublicKey → PrimaryVote → Prop}
    (hs : Sound P B com H admits d) (hremote : com.Remote) {x y : PublicKey} {a : SocketAddr}
    (hpeer : peer com H a = some y) : (d.links x a).sender.submitted = [] := by
  refine List.map_eq_nil_iff.mp ((hs.submitted x a).trans (List.eq_nil_iff_forall_not_mem.mpr ?_))
  intro bytes hbytes
  have hframe := List.mem_of_mem_take (mem_sentTo.mp hbytes)
  have haddress := ((System.addressed_node hs.reachable x).mem_frames.mp hframe).1
  rw [peer, hremote.host_eq haddress] at hpeer
  cases hpeer

theorem Deaf.refill (hdeaf : Deaf d) {y : PublicKey} {h : TxReceiverHandler}
    (hsame : h.txVotes = (d.handlers y).txVotes) {batches : PublicKey → List Transaction}
    {links : PublicKey → SocketAddr → Session TxReceiverHandler (DagError (WireError ε))} :
    Deaf { d with
      handlers := Function.update d.handlers y h, batches := batches, links := links } where
  channels z := by
    show (Function.update d.handlers y h z).txVotes = []
    by_cases hz : z = y
    · subst hz
      rw [Function.update_self, hsame]
      exact hdeaf.channels z
    · rw [Function.update_of_ne hz]
      exact hdeaf.channels z
  casts := hdeaf.casts

theorem Deaf.effect (hdeaf : Deaf d) (hs : Sound P B com H (fun _ _ _ => False) d)
    (hremote : com.Remote) {o : Occurrence} (heffect : Effect P B com H d o d')
    (hbrought : ∀ v ∈ o.brought B, False) : Deaf d' := by
  cases heffect with
  | @vote x v rest draws hidle hvotes =>
    rw [hdeaf.channels x] at hvotes
    cases hvotes
  | @batch x txs rest htxs =>
    refine hdeaf.refill ?_
    rfl
  | @transaction x tx rest draw hidle hbatch =>
    refine ⟨hdeaf.channels, fun z v hv => ?_⟩
    rcases System.nodes_next_cases (P := P) d.system ⟨x, .transaction tx draw⟩ z with
      hsame | ⟨-, hstep⟩
    · rw [hsame] at hv
      exact hdeaf.casts z v hv
    · rw [Core.eq_castFirst_of_step hstep] at hv
      exact (Core.mem_casts_castFirst hv).elim (hdeaf.casts z v) id
  | handOver hrunning hframe hsend => exact ⟨hdeaf.channels, hdeaf.casts⟩
  | halt hrunning hframe hpanicked => exact ⟨hdeaf.channels, hdeaf.casts⟩
  | @link x y address e s hpermits hhost hstep htakes =>
    refine hdeaf.refill (congrArg _ ?_)
    rcases Session.dispatched_of_step hstep with ⟨hsame, -⟩ | ⟨m, ⟨r, hr, hm⟩, -⟩
    · exact hsame
    · have hleft := (hs.links x address y hhost).left r hr m (List.mem_append_right _ hm)
      rw [show (d.links x address).sender.queues.submitted = [] from
        hs.submitted_eq_nil hremote hhost] at hleft
      exact absurd hleft.1 List.not_mem_nil
  | remote hpermits hhost hstep => exact ⟨hdeaf.channels, hdeaf.casts⟩
  | @foreign y bytes h hdispatch htakes =>
    refine hdeaf.refill ?_
    rcases TxReceiverHandler.txVotes_of_dispatch hdispatch with hsame | ⟨v, hread, -⟩
    · exact hsame
    · refine (hbrought v ?_).elim
      rw [Occurrence.brought, hread]
      rfl

theorem deaf_of_reachable (env : Setting P B com H H fun _ _ _ => False) (hremote : com.Remote)
    (hreach : (faultless P B com H).Reachable (start com) d) : Deaf d :=
  hreach.invariant deaf_start fun _ _ hr hdeaf hguard =>
    hdeaf.effect (sound_of_reachable env hr) hremote
      (effect_of_step (GuardedMachine.ofStep_next hguard.1)) hguard.2.2

/-- **Primaries without local addresses never decide.**  A primary listens on the local interface,
whatever its address is, so a vote for another address reaches nobody. -/
theorem decided_eq_none (hdigest : Function.Injective P.sha512) (hB : B.RoundTrips)
    (hshort : Wire.Short B) (hcard : H.card < 256 ^ 8) (hremote : com.Remote)
    (hreach : (faultless P B com H).Reachable (start com) d) (x : PublicKey) (h : BlockHash) :
    (d.system.nodes x).decided.lookup h = none := by
  have env : Setting P B com H H fun _ _ _ => False :=
    setting_faultless hdigest hB hshort hcard
  have hsound := System.sound_node hdigest (sound_of_reachable env hreach).reachable x
  cases hlookup : (d.system.nodes x).decided.lookup h with
  | none => rfl
  | some b =>
    obtain ⟨v, hv, -, htype, -⟩ := (hsound.decided h b).mp hlookup
    have hstored := hsound.stored v hv
    rw [(deaf_of_reachable env hremote hreach).casts x v hv] at hstored
    rw [hsound.initial _ _ v hstored] at htype
    cases htype

/-- An authority starts an election where no address is local. -/
def alone : Deployment String :=
  (faultless Params.source Base64Crate.standard (.ofStakes [(2, 1), (3, 1)]) {authority 2}).run
    (start (.ofStakes [(2, 1), (3, 1)])) (begins 2 false ++ handsOver 2 2)

theorem decided_eq_none_alone :
    (alone.system.nodes (authority 2)).decided.lookup block = none :=
  decided_eq_none (H := {authority 2}) Params.source_injective Base64Crate.standard_roundTrips
    Wire.standard_short (by decide +kernel)
    (by decide +kernel)
    (GuardedMachine.reachable_run (begins 2 false ++ handsOver 2 2) (by decide +kernel)) _ _

end Deployment
end NeroConsensus
