import NeroConsensus.Deployment.Machine
import NeroConsensus.Primary.Relaying

/-!
# What a core puts on the wire

A core broadcasts its own votes, each to all the addresses it has started with, so its frames are
known from its casts (`Addressed.mem_frames`), and they only become more (`frames_prefix`).

The votes that a core casts fit into the wire format (`System.voteFits_of_mem_casts`): a round is
reached by a checked addition, and a proof names no more votes than there are signers.  So what
`dispatch` makes of such a frame is the vote (`System.deserialize_of_mem_casts`).
-/

namespace NeroConsensus

variable {P : Params} {ε : Type} {B : Base64Crate ε}

namespace Core

/-! ## The frames of a core -/

section Addressed

variable {addresses : List (PublicKey × SocketAddr)} {c c' : Core}

theorem Addressed.network_eq (ha : Addressed addresses c) :
    c.network = c.casts.map fun v => (.sendVote v, addresses.map Prod.snd) := by
  have hall : ∀ l : List (PrimaryMessage × List SocketAddr),
      (∀ m ∈ l, ∃ v, m = (.sendVote v, addresses.map Prod.snd)) →
        l = { c with network := l }.casts.map fun v => (.sendVote v, addresses.map Prod.snd) := by
    intro l hl
    induction l with
    | nil => rfl
    | cons m l ih =>
      obtain ⟨v, rfl⟩ := hl m List.mem_cons_self
      exact congrArg _ (ih fun m hm => hl m (List.mem_cons_of_mem _ hm))
  exact hall c.network ha.network

theorem Addressed.frames_eq (ha : Addressed addresses c) :
    c.frames B = c.casts.flatMap fun v =>
      (addresses.map Prod.snd).map fun a => (a, Wire.serialize B (.sendVote v)) := by
  rw [frames, ha.network_eq, List.flatMap_map]

/-- Every vote goes to every address, and nothing else goes anywhere. -/
theorem Addressed.mem_frames (ha : Addressed addresses c) {a : SocketAddr} {bytes : Bytes} :
    (a, bytes) ∈ c.frames B ↔
      a ∈ addresses.map Prod.snd ∧ ∃ v ∈ c.casts, bytes = Wire.serialize B (.sendVote v) := by
  rw [ha.frames_eq, List.mem_flatMap]
  constructor
  · rintro ⟨v, hv, hframe⟩
    obtain ⟨a', ha', heq⟩ := List.mem_map.mp hframe
    obtain ⟨rfl, rfl⟩ := Prod.mk.inj heq
    exact ⟨ha', v, hv, rfl⟩
  · rintro ⟨ha', v, hv, rfl⟩
    exact ⟨v, hv, List.mem_map_of_mem ha'⟩

theorem frames_prefix (ha : Addressed addresses c) (ha' : Addressed addresses c')
    (hcasts : c.casts <+: c'.casts) : c.frames B <+: c'.frames B := by
  obtain ⟨more, hmore⟩ := hcasts
  rw [ha.frames_eq, ha'.frames_eq, ← hmore, List.flatMap_append]
  exact List.prefix_append _ _

end Addressed

/-! ## What fits -/

/-- The cast votes are within the widths of their types, as far as the node itself sees to it. -/
def Castable (c : Core) : Prop :=
  ∀ v ∈ c.casts, v.round ≤ u32Max ∧ (v.round = 0 → v.proof = none)

theorem Castable.cast {c : Core} (hc : Castable c) {v : PrimaryVote} (hround : v.round ≤ u32Max)
    (hproof : v.round = 0 → v.proof = none) : Castable (c.cast P v) := by
  intro w hw
  rcases mem_casts_cast.mp hw with hold | rfl
  · exact hc w hold
  · exact ⟨hround, hproof⟩

theorem Move.castable {c c' : Core} (hmove : Move P c c') (hc : Castable c) : Castable c' := by
  cases hmove with
  | relay v => exact hc
  | accept v draw hnew hverdict => exact hc
  | castFirst h draw hvoted => exact hc.cast (Nat.zero_le _) fun _ => rfl
  | castNext h r draw hready hmax =>
    have hcast : Castable (c.cast P (c.nextVote P draw h r)) :=
      hc.cast (Nat.succ_le_of_lt hmax) fun hzero => absurd hzero (Nat.succ_ne_zero r)
    intro w hw
    rw [casts_conclude] at hw
    exact hcast w hw

theorem Reached.castable {c : Core} (hreach : Reached P c) : Castable c :=
  hreach.invariant (fun _ _ _ _ hv => absurd hv List.not_mem_nil) fun _ _ hmove => hmove.castable

end Core

namespace System

variable {H M : Finset PublicKey} {allowed : System → PublicKey → PrimaryVote → Prop}
  {addresses : PublicKey → List (PublicKey × SocketAddr)} {s : System}

section Fits

variable (hdigest : Function.Injective P.sha512) (hH : H ⊆ M)
  (hallowed : ∀ s x v, allowed s x v → v.signer ∈ M)
  (hreach : (network P H allowed).Reachable (start addresses) s)

include hdigest hreach

omit hdigest in
/-- A node outside `H` has cast nothing. -/
theorem mem_of_mem_casts {x : PublicKey} {v : PrimaryVote} (hv : v ∈ (s.nodes x).casts) :
    x ∈ H := by
  have hinv : ∀ x, x ∉ H → (s.nodes x).casts = [] := by
    refine hreach.invariant (P := fun s => ∀ x, x ∉ H → (s.nodes x).casts = []) ?_ ?_
    · exact fun _ _ => rfl
    · intro s t _ ih hguard x hx
      rcases nodes_next_cases (P := P) s t x with hsame | ⟨rfl, -⟩
      · exact (congrArg Core.casts hsame).trans (ih x hx)
      · exact absurd hguard.1 hx
  by_contra hx
  rw [hinv x hx] at hv
  exact List.not_mem_nil hv

include hH hallowed

/-- There are no more votes in a round than there are signers. -/
theorem card_keys_le (x : PublicKey) (h : BlockHash) (r : Round) :
    ((s.nodes x).keys h r).card ≤ M.card := by
  have hsigners := invariant_votes hdigest (Q := fun _ v => v.signer ∈ M)
    (fun _ _ _ _ hv => hv)
    (fun s x v hr hx hv => by
      rw [(broadcast_of_mem_casts hdigest hr hv).1]
      exact hH hx)
    (fun s x v _ hok => hallowed s x v hok) hreach
  have hsub : (s.nodes x).keys h r ⊆ M.image fun y => y.voteHash P := by
    intro k hk
    obtain ⟨v, hv⟩ := Core.mem_keys_iff.mp hk
    refine Finset.mem_image.mpr ⟨v.signer, hsigners x h r v (Core.mem_votes.mpr ⟨k, hv⟩), ?_⟩
    exact ((sound_node hdigest hreach x).place h r k v hv).1
  exact (Finset.card_le_card hsub).trans Finset.card_image_le

/-- **What a node casts, `bincode` can write.** -/
theorem voteFits_of_mem_casts (hcard : M.card < 256 ^ 8) {x : PublicKey} {v : PrimaryVote}
    (hv : v ∈ (s.nodes x).casts) : Wire.VoteFits v := by
  have hcastable := Core.Reached.castable ⟨_, _, _, reachable_node hreach x⟩ v hv
  refine ⟨hcastable.1, fun p hp => ?_⟩
  cases hround : v.round with
  | zero =>
    rw [hcastable.2 hround] at hp
    exact nomatch hp
  | succ r =>
    obtain ⟨q, hq⟩ := (sound_node hdigest hreach x).casts v hv r hround
    rw [hq.proof] at hp
    obtain rfl := Option.some.inj hp
    have hle := (Finset.card_le_card hq.stored).trans
      (card_keys_le hdigest hH hallowed hreach x v.electionHash r)
    exact hle.trans_lt hcard

/-- What `dispatch` makes of the frame of a cast vote. -/
theorem deserialize_of_mem_casts (hcard : M.card < 256 ^ 8) (hB : B.RoundTrips)
    (hshort : Wire.Short B) {x : PublicKey} {v : PrimaryVote} (hv : v ∈ (s.nodes x).casts) :
    Wire.deserialize B (Wire.serialize B (.sendVote v)) = .ok (.sendVote v) := by
  have hfits : Wire.Fits (.sendVote v) :=
    voteFits_of_mem_casts hdigest hH hallowed hreach hcard hv
  have hread := Wire.deserialize_append hB hshort hfits []
  rwa [List.append_nil] at hread

end Fits

theorem addressed_node (hreach : (network P H allowed).Reachable (start addresses) s)
    (x : PublicKey) : Core.Addressed (addresses x) (s.nodes x) :=
  Core.addressed_of_reachable (reachable_node hreach x)

end System
end NeroConsensus
