import NeroConsensus.Primary.OwnVotes

/-!
# Relaying the received votes

The head of `handle_vote` relays a vote it sees for the first time and remembers it in
`sent_votes`.  It calls `broadcast_message` and does not await the call, so the message never
reaches the `ReliableSender`; everywhere else the same call is awaited.  What the node has
broadcast is its own votes and nothing else, and so `sent_votes` is true of a received vote
exactly when the vote came back to the node that had cast it (`relayedOnce_iff`).
-/

namespace NeroConsensus
namespace Core

variable {P : Params}

/-- What the head of `handle_vote` hands to `ReliableSender::broadcast`. -/
def relayed (c : Core) (v : PrimaryVote) : List (PrimaryMessage × List SocketAddr) :=
  (c.relay v).network.drop c.network.length

/-- What the turns of a run have relayed. -/
def relays (P : Params) : Core → List Event → List (PrimaryMessage × List SocketAddr)
  | _, [] => []
  | c, event :: events =>
    (event.received.map c.relayed).getD [] ++ relays P ((machine P).next c event) events

/-- After the events, every vote in `sent_votes` has been handed to the sender for all the
addresses, and none has been relayed twice. -/
structure RelayedOnce (P : Params) (c₀ : Core) (events : List Event) : Prop where
  handed : ∀ v ∈ ((machine P).run c₀ events).sentVotes,
    (.sendVote v, c₀.primaryAddresses.map Prod.snd) ∈ ((machine P).run c₀ events).network
  once : ∀ v, (relays P c₀ events).countP (fun m => m.1 = .sendVote v) ≤ 1

/-! ## Nothing is relayed -/

@[simp] theorem relayed_eq_nil (c : Core) (v : PrimaryVote) : c.relayed v = [] :=
  List.drop_length

theorem relays_eq_nil : ∀ (c : Core) (events : List Event), relays P c events = []
  | _, [] => rfl
  | c, event :: events => by
    rw [relays, relays_eq_nil _ events]
    cases event with
    | transaction tx draw => rfl
    | vote v draws => exact congrArg (· ++ []) (relayed_eq_nil c v)

/-! ## What is in the network -/

/-- Everything in the network is a vote, sent to all the addresses the node started with. -/
structure Addressed (addresses : List (PublicKey × SocketAddr)) (c : Core) : Prop where
  primaryAddresses : c.primaryAddresses = addresses
  network : ∀ m ∈ c.network, ∃ v, m = (.sendVote v, addresses.map Prod.snd)

namespace Addressed

variable {addresses : List (PublicKey × SocketAddr)} {c c' : Core} {v : PrimaryVote}

theorem cast (ha : Addressed addresses c) (v : PrimaryVote) : Addressed addresses (c.cast P v) where
  primaryAddresses := ha.primaryAddresses
  network m hm := by
    rcases List.mem_append.mp hm with hm | hm
    · exact ha.network m hm
    · have hsent : (PrimaryMessage.sendVote v, (c.record P v).primaryAddresses.map Prod.snd) =
          (.sendVote v, addresses.map Prod.snd) := by
        rw [← ha.primaryAddresses]
        rfl
      exact ⟨v, (List.mem_singleton.mp hm).trans hsent⟩

theorem conclude (ha : Addressed addresses c) (v : PrimaryVote) :
    Addressed addresses (c.conclude v) := by
  unfold Core.conclude
  split_ifs
  · exact ⟨ha.primaryAddresses, ha.network⟩
  · exact ha

theorem move (hmove : Move P c c') (ha : Addressed addresses c) : Addressed addresses c' := by
  cases hmove with
  | relay v => exact ⟨ha.primaryAddresses, ha.network⟩
  | accept v draw hnew hverdict => exact ⟨ha.primaryAddresses, ha.network⟩
  | castFirst h draw hvoted => exact ha.cast _
  | castNext h r draw hready hmax => exact (ha.cast _).conclude _

/-- What the node has broadcast is what it has cast. -/
theorem mem_network_iff (ha : Addressed addresses c) :
    (.sendVote v, addresses.map Prod.snd) ∈ c.network ↔ v ∈ c.casts := by
  rw [casts, List.mem_filterMap]
  constructor
  · exact fun hm => ⟨_, hm, rfl⟩
  · rintro ⟨m, hm, hv⟩
    obtain ⟨w, rfl⟩ := ha.network m hm
    cases hv
    exact hm

end Addressed

section Run

variable {id : PublicKey} {addresses : List (PublicKey × SocketAddr)} {byzantine : Bool}

theorem addressed_of_reachable {c : Core}
    (hreach : (machine P).Reachable (spawn id addresses byzantine) c) :
    Addressed addresses c := by
  refine hreach.invariant (P := Addressed addresses) ⟨rfl, fun m hm => by cases hm⟩ ?_
  intro s event hs ha hguard
  exact invariant_of_moves (moves_of_step (Reached.noPending ⟨_, _, _, hs⟩) (machine_next hguard))
    (fun _ _ hmove => Addressed.move hmove) ha

/-! ## A call does not cast the vote it is given -/

theorem mem_casts_of_castFirst {c : Core} {v : PrimaryVote} {h : BlockHash} {draw : Bool}
    (hvoted : v.signer = c.id → (c.roundState h 0).voted = true)
    (hv : v ∈ (c.castFirst P draw h).casts) : v ∈ c.casts := by
  unfold castFirst at hv
  split_ifs at hv with hfree
  · rcases mem_casts_cast.mp hv with hold | rfl
    · exact hold
    · rw [hvoted rfl] at hfree
      cases hfree
  · exact hv

/-- The votes a call casts are not the vote it handles: where that is the node's own, the node
has voted in its round. -/
theorem mem_casts_of_handleVote {c c' : Core} {v : PrimaryVote} {draws : Draws}
    (hp : c.NoPending) (hstep : c.handleVote P draws v = some c') (hv : v ∈ c'.casts) :
    v ∈ c.casts := by
  have hreceipt : v ∈ (c.afterReceipt P draws v).casts → v ∈ c.casts := by
    intro hv
    by_cases hround : v.round = 0
    · rw [afterReceipt_of_eq hround] at hv
      have hvoted : v.signer = c.id →
          (((c.relay v).record P v).roundState v.electionHash 0).voted = true := by
        intro hown
        rw [roundState_record, if_pos ⟨rfl, hround.symm⟩, voted_receive]
        exact Or.inr hown
      have hold := mem_casts_of_castFirst (c := (c.relay v).record P v) hvoted hv
      rw [casts_record, casts_relay] at hold
      exact hold
    · rw [afterReceipt_of_ne hround] at hv
      exact hv
  rcases handleVote_outcomes hp hstep with rfl | ⟨-, -, -, ⟨-, rfl⟩ | ⟨-, rfl⟩⟩
  · exact hv
  · exact hreceipt hv
  · rw [casts_conclude, mem_casts_cast] at hv
    rcases hv with hold | heq
    · exact hreceipt hold
    · exact absurd (congrArg PrimaryVote.round heq) (Nat.ne_of_lt (Nat.lt_succ_self v.round))

/-! ## Runs -/

/-- After a turn, a vote is in `sent_votes` if the turn has brought it. -/
theorem mem_sentVotes_of_step {c c' : Core} {v : PrimaryVote} {draws : Draws}
    (hp : c.NoPending) (hstep : c.step P (.vote v draws) = some c') : v ∈ c'.sentVotes := by
  rcases handleVote_outcomes hp hstep with rfl | ⟨-, -, -, ⟨-, rfl⟩ | ⟨-, rfl⟩⟩
  · exact Finset.mem_insert_self _ _
  · rw [sentVotes_afterReceipt]
    exact Finset.mem_insert_self _ _
  · rw [sentVotes_conclude, (recorded_cast _ _).sentVotes, sentVotes_afterReceipt]
    exact Finset.mem_insert_self _ _

/-- Where every vote is an echo when it is handled, `sent_votes` holds nothing but echoes. -/
theorem sentVotes_of_echoes {events : List Event}
    (hlegal : (machine P).Legal (spawn id addresses byzantine) events)
    (hecho : ∀ bs v draws, bs ++ [.vote v draws] <+: events →
      v ∈ ((machine P).run (spawn id addresses byzantine) bs).casts) :
    ∀ v ∈ ((machine P).run (spawn id addresses byzantine) events).sentVotes,
      v ∈ ((machine P).run (spawn id addresses byzantine) events).casts := by
  induction events using List.reverseRecOn with
  | nil =>
    intro v hv
    exact absurd hv (Finset.notMem_empty v)
  | append_singleton bs event ih =>
    intro v hv
    obtain ⟨hbs, hguard, -⟩ := GuardedMachine.legal_append.mp hlegal
    have hp := Reached.noPending ⟨_, _, _, GuardedMachine.reachable_run bs hbs⟩
    have hstep := machine_next hguard
    rw [GuardedMachine.run_append] at hv ⊢
    refine (grows_of_moves (moves_of_step hp hstep)).casts.subset ?_
    rcases mem_sentVotes_step hp hstep hv with hold | ⟨draws, rfl⟩
    · exact ih hbs (fun cs w draws hcs => hecho cs w draws (hcs.trans (List.prefix_append _ _)))
        v hold
    · exact hecho bs v draws List.prefix_rfl

/-- **When the received votes are relayed.**  All along a run `sent_votes` is right about what
has been broadcast, if and only if every vote is one that the node itself has cast before it is
handled. -/
theorem relayedOnce_iff {events : List Event}
    (hlegal : (machine P).Legal (spawn id addresses byzantine) events) :
    (∀ bs, bs <+: events → RelayedOnce P (spawn id addresses byzantine) bs) ↔
      ∀ bs v draws, bs ++ [.vote v draws] <+: events →
        v ∈ ((machine P).run (spawn id addresses byzantine) bs).casts := by
  have hlegalOf : ∀ {bs}, bs <+: events →
      (machine P).Legal (spawn id addresses byzantine) bs := by
    rintro bs ⟨cs, rfl⟩
    exact (GuardedMachine.legal_append.mp hlegal).1
  constructor
  · intro hrelayed bs v draws hbs
    obtain ⟨hlegal', hguard, -⟩ := GuardedMachine.legal_append.mp (hlegalOf hbs)
    have hp := Reached.noPending ⟨_, _, _, GuardedMachine.reachable_run bs hlegal'⟩
    have hstep := machine_next hguard
    have hhanded := (hrelayed _ hbs).handed v
    rw [GuardedMachine.run_append] at hhanded
    have haddressed := addressed_of_reachable
      ((GuardedMachine.reachable_run bs hlegal').step hguard)
    exact mem_casts_of_handleVote hp hstep
      (haddressed.mem_network_iff.mp (hhanded (mem_sentVotes_of_step hp hstep)))
  · intro hecho bs hbs
    refine ⟨fun v hv => ?_, fun v => ?_⟩
    · have haddressed := addressed_of_reachable (GuardedMachine.reachable_run bs (hlegalOf hbs))
      exact haddressed.mem_network_iff.mpr (sentVotes_of_echoes (hlegalOf hbs)
        (fun cs w draws hcs => hecho cs w draws (hcs.trans hbs)) v hv)
    · rw [relays_eq_nil]
      exact Nat.zero_le 1

end Run

/-- Where three authorities listen. -/
def listeners : List (PublicKey × SocketAddr) :=
  [2, 3, 4].map fun i => (authority i, ⟨[10, 0, 0, i], 4001⟩)

/-- A node casts its first vote and gets it back. -/
def echoed : List Event :=
  [.transaction ⟨block.digest⟩ false, .vote (firstBallot 1 .zero) (Draws.of false)]

theorem relayedOnce_iff_echoed :
    (∀ bs, bs <+: echoed → RelayedOnce Params.source (spawn (authority 1) listeners false) bs) ↔
      ∀ bs v draws, bs ++ [.vote v draws] <+: echoed →
        v ∈ ((machine Params.source).run (spawn (authority 1) listeners false) bs).casts :=
  relayedOnce_iff (by decide +kernel)

/-- **A vote of another authority is not relayed**: the node hands over its own first vote,
and nothing else. -/
theorem exists_not_relayed :
    (machine Params.source).Legal (spawn (authority 1) listeners false)
        [.vote (firstBallot 2 .zero) (Draws.of false)] ∧
      ((machine Params.source).run (spawn (authority 1) listeners false)
        [.vote (firstBallot 2 .zero) (Draws.of false)]).network =
        [(.sendVote (firstBallot 1 .zero), listeners.map Prod.snd)] ∧
      ¬RelayedOnce Params.source (spawn (authority 1) listeners false)
        [.vote (firstBallot 2 .zero) (Draws.of false)] :=
  ⟨by decide +kernel, by decide +kernel, fun hrelayed =>
    absurd (hrelayed.handed (firstBallot 2 .zero) (by decide +kernel)) (by decide +kernel)⟩

end Core
end NeroConsensus
