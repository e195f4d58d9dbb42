import NeroConsensus.Config
import NeroConsensus.Primary.Turns

/-!
# Who is counted

`primary/src/primary.rs` starts the core of a node with a committee.  The node's own key
has to be in it, and the addresses of its members are where the core sends its votes.
The core never reads the committee again: `handle_vote` counts a vote under whatever key
its `signer` field holds.

So what is counted is what was received (`Sourced`), and the votes of keys that have no
stake in the committee, the `strangers`, are counted with the others:
`counted_of_legal` says how far a round can then exceed the committee, for any sequence
of transactions and votes, and `exists_stranger_counted` that it does.  Where no stranger has
sent a vote, the members alone are counted (`counted_of_members`).
-/

namespace NeroConsensus

/-- `Primary::spawn`, as far as the core is concerned. -/
def Primary.spawn (name : PublicKey) (committee : Config.Committee) (byzantineNode : Bool) :
    Option Core :=
  match committee.primary name with
  -- the `expect` in `handle_messages`
  | .error _ => none
  | .ok _ =>
    some (Core.spawn name
      ((committee.othersPrimaries name).map fun entry => (entry.1, entry.2.transactions))
      byzantineNode)

theorem Primary.eq_of_spawn {name : PublicKey} {com : Config.Committee} {byzantine : Bool}
    {c : Core} (h : Primary.spawn name com byzantine = some c) :
    name ∈ com.names ∧ ∃ addresses, c = Core.spawn name addresses byzantine := by
  unfold Primary.spawn at h
  split at h
  · cases h
  · rename_i addresses hprimary
    exact ⟨Config.Committee.mem_names_iff_primary.mpr ⟨_, hprimary⟩, _, (Option.some.inj h).symm⟩

/-- Every member of the committee can be started. -/
theorem Primary.exists_spawn {name : PublicKey} {com : Config.Committee} (h : name ∈ com.names)
    (byzantine : Bool) : ∃ c, Primary.spawn name com byzantine = some c := by
  obtain ⟨addresses, hprimary⟩ := Config.Committee.mem_names_iff_primary.mp h
  unfold Primary.spawn
  rw [hprimary]
  exact ⟨_, rfl⟩

namespace Core

variable {P : Params}

/-- The votes among the events of a run. -/
def receivedVotes (events : List Event) : List PrimaryVote :=
  events.filterMap Event.received

theorem receivedVotes_append_singleton (events : List Event) (event : Event) :
    receivedVotes (events ++ [event]) = receivedVotes events ++ event.received.toList := by
  rw [receivedVotes, List.filterMap_append, receivedVotes]
  cases event <;> rfl

/-! ## Where the stored votes come from -/

/-- A stored vote is under its own key, in its own round and election, and the votes the
node has cast are its own. -/
structure Placed (P : Params) (c : Core) : Prop where
  noPending : c.NoPending
  place : ∀ h r k v, c.validated h r k = some v →
    v.voteHash P = k ∧ v.round = r ∧ v.electionHash = h
  own : ∀ v ∈ c.casts, v.signer = c.id

theorem placed_spawn (id : PublicKey) (addresses : List (PublicKey × SocketAddr))
    (byzantine : Bool) : Placed P (spawn id addresses byzantine) where
  noPending := noPending_spawn id addresses byzantine
  place := (filed_spawn id addresses byzantine P).place
  own := (accounted_spawn id addresses byzantine P).own

section Turn

variable {c c' : Core} {v : PrimaryVote}

theorem Recorded.placed (hrec : Recorded P c c' v) (hp : Placed P c)
    (hown : ∀ w ∈ c'.casts, w ∈ c.casts ∨ w.signer = c.id) : Placed P c' where
  noPending := hrec.noPending hp.noPending
  place := hrec.place hp.place
  own w hw := by
    rw [hrec.id]
    rcases hown w hw with hold | hnew
    · exact hp.own w hold
    · exact hnew

/-- Moves leave every vote in its place; the digest has no part in this. -/
theorem Move.placed (hmove : Move P c c') (hp : Placed P c) : Placed P c' ∧ c'.id = c.id := by
  cases hmove with
  | relay v => exact ⟨⟨hp.noPending, hp.place, hp.own⟩, rfl⟩
  | accept v draw hnew hverdict =>
    exact ⟨(recorded_record c v).placed hp fun w hw => Or.inl hw, rfl⟩
  | castFirst h draw hvoted =>
    refine ⟨(recorded_cast c _).placed hp fun w hw => ?_, rfl⟩
    exact (mem_casts_cast.mp hw).imp_right fun heq => congrArg PrimaryVote.signer heq
  | castNext h r draw hready hmax =>
    refine ⟨(recorded_conclude c _).placed hp fun w hw => ?_, id_conclude _ _⟩
    rw [casts_conclude] at hw
    exact (mem_casts_cast.mp hw).imp_right fun heq => congrArg PrimaryVote.signer heq

theorem placed_of_moves (hmoves : Relation.ReflTransGen (Move P) c c') (hp : Placed P c) :
    Placed P c' ∧ c'.id = c.id := by
  refine invariant_of_moves (I := fun s => Placed P s ∧ s.id = c.id) hmoves
    (fun s s' hmove hs => ?_) ⟨hp, rfl⟩
  obtain ⟨hp', hid⟩ := hmove.placed hs.1
  exact ⟨hp', hid.trans hs.2⟩

/-- The node `name` holds votes of its own and votes it has received. -/
structure Sourced (P : Params) (name : PublicKey) (received : List PrimaryVote) (c : Core) :
    Prop extends Placed P c where
  id : c.id = name
  votes : ∀ h r, ∀ v ∈ c.votes h r, v.signer = name ∨ v ∈ received

/-- A turn adds the vote it brings to the sources. -/
theorem Sourced.step {name : PublicKey} {received : List PrimaryVote}
    (hs : Sourced P name received c) {event : Event} (hstep : c.step P event = some c') :
    Sourced P name (received ++ event.received.toList) c' := by
  obtain ⟨hplaced, hid⟩ := placed_of_moves (moves_of_step hs.noPending hstep) hs.toPlaced
  refine ⟨hplaced, hid.trans hs.id, fun h r w hw => ?_⟩
  rcases mem_votes_step hs.noPending hstep hw with hold | hcast | ⟨draws, rfl, -, -⟩
  · exact (hs.votes h r w hold).imp_right (List.mem_append_left _)
  · exact Or.inl ((hplaced.own w hcast).trans (hid.trans hs.id))
  · exact Or.inr (List.mem_append_right _ (List.mem_singleton_self w))

end Turn

/-- **What a node holds, it has cast or received.** -/
theorem sourced_of_legal {name : PublicKey} {addresses : List (PublicKey × SocketAddr)}
    {byzantine : Bool} {events : List Event}
    (hlegal : (machine P).Legal (spawn name addresses byzantine) events) :
    Sourced P name (receivedVotes events)
      ((machine P).run (spawn name addresses byzantine) events) := by
  refine hlegal.invariant (I := fun events c => Sourced P name (receivedVotes events) c)
    ⟨placed_spawn name addresses byzantine, rfl, fun h r v hv => ?_⟩ ?_
  · rw [votes_spawn] at hv
    exact absurd hv (Finset.notMem_empty v)
  · intro events s event _ hs hguard
    rw [receivedVotes_append_singleton]
    exact hs.step (machine_next hguard)

end Core

/-! ## Strangers -/

/-- The keys without stake under which votes for a round were received. -/
def Config.Committee.strangers (com : Config.Committee) (received : List PrimaryVote)
    (h : BlockHash) (r : Round) : Finset PublicKey :=
  ((received.filter fun v => v.electionHash = h ∧ v.round = r ∧ com.stake v.signer = 0).map
    PrimaryVote.signer).toFinset

namespace Core

variable {P : Params} {com : Config.Committee} {name : PublicKey} {byzantine : Bool} {c₀ : Core}

/-- The signers of the stored votes. -/
theorem Sourced.signer_mem {received : List PrimaryVote} {c : Core}
    (hs : Sourced P name received c) (com : Config.Committee) {h : BlockHash} {r : Round}
    {v : PrimaryVote} (hv : v ∈ c.votes h r) :
    v.signer = name ∨ 0 < com.stake v.signer ∨ v.signer ∈ com.strangers received h r := by
  rcases hs.votes h r v hv with hown | hreceived
  · exact Or.inl hown
  · obtain ⟨k, hk⟩ := mem_votes.mp hv
    obtain ⟨-, hround, hh⟩ := hs.place h r k v hk
    refine Or.inr ((Nat.eq_zero_or_pos (com.stake v.signer)).symm.imp_right fun hzero => ?_)
    refine List.mem_toFinset.mpr (List.mem_map_of_mem (List.mem_filter.mpr ⟨hreceived, ?_⟩))
    exact decide_eq_true ⟨hh, hround, hzero⟩

/-- The keys of a round are hashes of the authorities and of the strangers. -/
theorem Sourced.card_keys_le {received : List PrimaryVote} {c : Core}
    (hs : Sourced P name received c) (hname : name ∈ com.names) (h : BlockHash) (r : Round) :
    (c.keys h r).card ≤ com.size + (com.strangers received h r).card := by
  have hkeys : c.keys h r ⊆
      (com.names ∪ com.strangers received h r).image (PublicKey.voteHash P) := by
    intro k hk
    obtain ⟨v, hv⟩ := mem_keys_iff.mp hk
    refine Finset.mem_image.mpr ⟨v.signer, ?_, (hs.place h r k v hv).1⟩
    rcases hs.signer_mem com (mem_votes.mpr ⟨k, hv⟩) with hown | hstake | hstranger
    · exact Finset.mem_union_left _ (hown ▸ hname)
    · exact Finset.mem_union_left _ (Config.Committee.mem_names_of_stake_pos hstake)
    · exact Finset.mem_union_right _ hstranger
  refine (Finset.card_le_card hkeys).trans (Finset.card_image_le.trans ?_)
  rw [← com.card_names]
  exact Finset.card_union_le _ _

/-- **Who is counted.**  For every committee, and every sequence of transactions and votes:
a stored vote is the node's own, or of an authority that has stake, or of a stranger; and a
round holds no more votes than there are authorities and strangers. -/
theorem counted_of_legal (hspawn : Primary.spawn name com byzantine = some c₀)
    {events : List Event} (hlegal : (machine P).Legal c₀ events) (h : BlockHash) (r : Round) :
    (∀ v ∈ ((machine P).run c₀ events).votes h r, v.signer = name ∨ 0 < com.stake v.signer ∨
      v.signer ∈ com.strangers (receivedVotes events) h r) ∧
    (((machine P).run c₀ events).keys h r).card ≤
      com.size + (com.strangers (receivedVotes events) h r).card := by
  obtain ⟨hname, addresses, rfl⟩ := Primary.eq_of_spawn hspawn
  have hs := sourced_of_legal hlegal
  exact ⟨fun v hv => hs.signer_mem com hv, hs.card_keys_le hname h r⟩

/-- **Where nobody intrudes, only the committee counts.**  If no vote for the round was received
under a key without stake, and the node has stake itself, then all the signers have stake, and
the round holds no more votes than there are authorities. -/
theorem counted_of_members (hspawn : Primary.spawn name com byzantine = some c₀)
    (hstake : 0 < com.stake name) {events : List Event} (hlegal : (machine P).Legal c₀ events)
    {h : BlockHash} {r : Round} (hmembers : ∀ v ∈ receivedVotes events, v.electionHash = h →
      v.round = r → 0 < com.stake v.signer) :
    (∀ v ∈ ((machine P).run c₀ events).votes h r, 0 < com.stake v.signer) ∧
    (((machine P).run c₀ events).keys h r).card ≤ com.size := by
  obtain ⟨hname, addresses, rfl⟩ := Primary.eq_of_spawn hspawn
  have hs := sourced_of_legal hlegal
  have hnone : com.strangers (receivedVotes events) h r = ∅ := by
    refine Finset.eq_empty_of_forall_notMem fun signer hsigner => ?_
    obtain ⟨v, hv, rfl⟩ := List.mem_map.mp (List.mem_toFinset.mp hsigner)
    obtain ⟨hreceived, hkind⟩ := List.mem_filter.mp hv
    obtain ⟨hh, hround, hzero⟩ := of_decide_eq_true hkind
    exact absurd hzero (hmembers v hreceived hh hround).ne'
  constructor
  · intro v hv
    rcases hs.signer_mem com hv with hown | hpos | hstranger
    · exact hown ▸ hstake
    · exact hpos
    · rw [hnone] at hstranger
      exact absurd hstranger (Finset.notMem_empty _)
  · have hcard := hs.card_keys_le hname h r
    rw [hnone, Finset.card_empty, Nat.add_zero] at hcard
    exact hcard

/-- Four authorities with the same stake. -/
def quartet : Config.Committee :=
  .ofStakes [(1, 1), (2, 1), (3, 1), (4, 1)]

/-- A transaction, and votes under four invented keys. -/
def intrusion : List Event :=
  .transaction ⟨block.digest⟩ false ::
    [7, 8, 9, 10].map fun i => .vote (firstBallot i .one) (Draws.of false)

/-- The core that the first member of the quartet is started with. -/
def enlisted : Core :=
  (Primary.spawn (authority 1) quartet false).getD (spawn (authority 1) [] false)

theorem counted_of_legal_intrusion :
    (∀ v ∈ ((machine Params.source).run enlisted intrusion).votes block 0,
      v.signer = authority 1 ∨ 0 < quartet.stake v.signer ∨
        v.signer ∈ quartet.strangers (receivedVotes intrusion) block 0) ∧
    (((machine Params.source).run enlisted intrusion).keys block 0).card ≤
      quartet.size + (quartet.strangers (receivedVotes intrusion) block 0).card :=
  counted_of_legal (show Primary.spawn (authority 1) quartet false = some enlisted from rfl)
    (by decide +kernel) block 0

/-- **Strangers are counted.**  One peer that makes up four keys has them stored and counted
like the authorities, and the round then holds more votes than the committee has members. -/
theorem exists_stranger_counted :
    ∃ c₀, Primary.spawn (authority 1) quartet false = some c₀ ∧
      (machine Params.source).Legal c₀ intrusion ∧
      (∃ v ∈ ((machine Params.source).run c₀ intrusion).votes block 0,
        quartet.stake v.signer = 0) ∧
      quartet.size < (((machine Params.source).run c₀ intrusion).keys block 0).card :=
  ⟨enlisted, rfl, by decide +kernel, by decide +kernel, by decide +kernel⟩

end Core
end NeroConsensus
