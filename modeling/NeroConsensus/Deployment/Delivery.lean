import NeroConsensus.Deployment.Guarantees

/-!
# Nothing is lost on the way

A vote that a primary has cast waits in the core, in a connection, at a runner or in a channel, and
then it has been handled.  Connections may break at any time, and what a broken one has swallowed is
sent again on the next, because no frame ever comes back: all that has gone over the connection is
pending, and it goes back to the buffer.

So where nothing is on the way any more (`Cleared`), every vote has been handled
(`handled_of_cleared`), and where this is so everywhere (`Quiet`), by everybody.  It takes primaries
with local addresses, as nobody listens at the others.
-/

namespace NeroConsensus

variable {P : Params}

namespace System

variable {H : Finset PublicKey} {allowed : System → PublicKey → PrimaryVote → Prop}
  {addresses : PublicKey → List (PublicKey × SocketAddr)} {s : System}

theorem stopped_subset_next (s : System) (t : Turn) : s.stopped ⊆ (s.next P t).stopped := by
  unfold next
  split
  · exact subset_rfl
  · exact Finset.subset_insert _ _

theorem mem_sentVotes_of_next (hdigest : Function.Injective P.sha512)
    (hreach : (network P H allowed).Reachable (start addresses) s) (t : Turn) {y : PublicKey}
    {v : PrimaryVote} (hv : v ∈ ((s.next P t).nodes y).sentVotes) :
    v ∈ (s.nodes y).sentVotes ∨ y = t.node ∧ ∃ draws, t.event = .vote v draws := by
  rcases nodes_next_cases (P := P) s t y with hsame | ⟨hnode, hstep⟩
  · rw [hsame] at hv
    exact Or.inl hv
  · have hpending := (sound_node hdigest hreach y).noPending
    exact (Core.mem_sentVotes_step hpending hstep hv).imp_right fun h => ⟨hnode, h⟩

/-- What a primary that does not panic has handled after a turn. -/
theorem mem_sentVotes_next (hdigest : Function.Injective P.sha512)
    (hreach : (network P H allowed).Reachable (start addresses) s) (t : Turn) {y : PublicKey}
    (hy : y ∉ (s.next P t).stopped) (v : PrimaryVote) :
    v ∈ ((s.next P t).nodes y).sentVotes ↔
      v ∈ (s.nodes y).sentVotes ∨ y = t.node ∧ ∃ draws, t.event = .vote v draws := by
  refine ⟨mem_sentVotes_of_next hdigest hreach t, ?_⟩
  rintro (hv | ⟨rfl, draws, hevent⟩)
  · exact (nodes_extend hdigest hreach t y).sentVotes hv
  · cases hstep : (s.nodes t.node).step P t.event with
    | none =>
      refine absurd ?_ hy
      rw [next, hstep]
      exact Finset.mem_insert_self _ _
    | some c =>
      rw [nodes_next_of_some hstep, Function.update_self]
      rw [hevent] at hstep
      exact Core.mem_sentVotes_of_step (sound_node hdigest hreach t.node).noPending hstep

end System

namespace Deployment

variable {ε : Type} {B : Base64Crate ε} {com : Config.Committee}
  {H M : Finset PublicKey} {admits : System → PublicKey → PrimaryVote → Prop}
  {d d' : Deployment ε}

/-- A vote that has reached a primary: it is in the channel, or has been handled. -/
def Arrived (d : Deployment ε) (y : PublicKey) (v : PrimaryVote) : Prop :=
  y ∈ d.system.stopped ∨ v ∈ (d.handlers y).txVotes ∨ v ∈ (d.system.nodes y).sentVotes

/-- No handler is dropped while the core is there, and what a runner has given to the handler has
arrived. -/
structure Delivering (B : Base64Crate ε) (com : Config.Committee) (H : Finset PublicKey)
    (d : Deployment ε) : Prop where
  waiting : ∀ x a y, peer com H a = some y → x ∉ d.down →
    ∀ i, (d.links x a).sender.oneshots i = .waiting
  arrived : ∀ x a y, peer com H a = some y → ∀ m, (d.links x a).Dispatched m →
    ∀ v, Wire.deserialize B m.data = .ok (.sendVote v) → d.Arrived y v

theorem delivering_start : Delivering B com H (start com : Deployment ε) where
  waiting _ _ _ _ _ _ := rfl
  arrived _ _ _ _ _ hm := by
    obtain ⟨r, hr, -⟩ := hm
    exact absurd hr List.not_mem_nil

namespace Delivering

variable (hd : Delivering B com H d)

include hd

/-- The connections rest. -/
theorem mono (hlinks : d'.links = d.links) (hdown : d.down ⊆ d'.down)
    (harrived : ∀ y v, d.Arrived y v → d'.Arrived y v) : Delivering B com H d' where
  waiting x a y hpeer hx := by
    rw [hlinks]
    exact hd.waiting x a y hpeer fun hmem => hx (hdown hmem)
  arrived x a y hpeer m hm v hread := by
    rw [hlinks] at hm
    exact harrived y v (hd.arrived x a y hpeer m hm v hread)

/-- One connection moves on. -/
theorem relink {x : PublicKey} {address : SocketAddr} {handed : PublicKey → ℕ}
    {handlers : PublicKey → TxReceiverHandler}
    {s : Session TxReceiverHandler (DagError (WireError ε))}
    (hgrows : ∀ y, ∀ v ∈ (d.handlers y).txVotes, v ∈ (handlers y).txVotes)
    (hwaiting : ∀ y, peer com H address = some y → x ∉ d.down →
      ∀ i, s.sender.oneshots i = .waiting)
    (harrived : ∀ y, peer com H address = some y → ∀ m, s.Dispatched m →
      ∀ v, Wire.deserialize B m.data = .ok (.sendVote v) →
        d.Arrived y v ∨ v ∈ (handlers y).txVotes) :
    Delivering B com H
      ({ d with handed := handed, handlers := handlers }.setLink x address s) where
  waiting z a y hpeer hz := by
    rw [links_setLink]
    split_ifs with hza
    · exact hwaiting y (hza.2 ▸ hpeer) (hza.1 ▸ hz)
    · exact hd.waiting z a y hpeer hz
  arrived z a y hpeer m hm v hread := by
    have hold : d.Arrived y v → ({ d with handed := handed, handlers := handlers }.setLink x
        address s).Arrived y v := fun h => h.imp_right fun h => h.imp_left (hgrows y v)
    rw [links_setLink] at hm
    split_ifs at hm with hza
    · rcases harrived y (hza.2 ▸ hpeer) m hm v hread with h | h
      · exact hold h
      · exact Or.inr (Or.inl h)
    · exact hold (hd.arrived z a y hpeer m hm v hread)

/-- The core handles a vote, or a transaction. -/
theorem turn (hs : Sound P B com H admits d) (env : Setting P B com H M admits) (t : Turn)
    {handlers : PublicKey → TxReceiverHandler} {batches : PublicKey → List Transaction}
    (hvotes : ∀ y, ∀ v ∈ (d.handlers y).txVotes, v ∈ (handlers y).txVotes ∨
      y = t.node ∧ ∃ draws, t.event = .vote v draws) :
    Delivering B com H
      { d with system := d.system.next P t, handlers := handlers, batches := batches } := by
  have hstopped := System.stopped_subset_next (P := P) d.system t
  refine hd.mono rfl (Finset.union_subset_union_left hstopped) fun y v h => ?_
  rcases h with h | h | h
  · exact Or.inl (hstopped h)
  · rcases hvotes y v h with h | ⟨rfl, draws, hevent⟩
    · exact Or.inr (Or.inl h)
    · -- the vote is handled now, unless the core panics
      by_cases hy : t.node ∈ (d.system.next P t).stopped
      · exact Or.inl hy
      · exact Or.inr (Or.inr ((System.mem_sentVotes_next env.digest hs.reachable t hy v).mpr
          (Or.inr ⟨rfl, draws, hevent⟩)))
  · exact Or.inr (Or.inr ((System.nodes_extend env.digest hs.reachable t y).sentVotes h))

/-- A step of a connection to a primary that runs the code. -/
theorem link (hs : Sound P B com H admits d) (env : Setting P B com H M admits)
    {x y : PublicKey} {address : SocketAddr} {e : SessionEvent}
    {s : Session TxReceiverHandler (DagError (WireError ε))} (hpermits : d.Permits x e)
    (hpeer : peer com H address = some y)
    (hstep : ({ d.links x address with handler := d.handlers y } :
      Session TxReceiverHandler (DagError (WireError ε))).step
        (TxReceiverHandler.messageHandler (Wire.deserialize B)) e = some s) :
    Delivering B com H
      ({ d with handlers := Function.update d.handlers y s.handler }.setLink x address s) := by
  have hkept : ∀ v ∈ (d.handlers y).txVotes, v ∈ s.handler.txVotes := by
    intro v hv
    rcases hs.handler_of_step env hpeer hstep with hsame | ⟨w, -, hnew⟩
    · rw [hsame]
      exact hv
    · rw [hnew]
      exact List.mem_append_left _ hv
  refine hd.relink (fun z v hv => ?_) (fun z hz hx => ?_) fun z hz m hm v hread => ?_
  · by_cases hzy : z = y
    · subst hzy
      rw [Function.update_self]
      exact hkept v hv
    · rwa [Function.update_of_ne hzy]
  · intro i
    have hsame := (hs.session hpeer _).oneshots_of_step hstep fun i hcancel => by
      rw [hcancel] at hpermits
      exact hx hpermits
    rw [hsame]
    exact hd.waiting x address z hz hx i
  · obtain rfl : y = z := Option.some.inj (hpeer.symm.trans hz)
    rw [Function.update_self]
    rcases Session.dispatched_of_step hstep with ⟨-, hold⟩ | ⟨m', -, hold, hresult⟩
    · exact Or.inl (hd.arrived x address y hpeer m (hold m hm) v hread)
    · rcases hold m hm with hold | rfl
      · exact Or.inl (hd.arrived x address y hpeer m hold v hread)
      · have hdispatch : (TxReceiverHandler.dispatch (Wire.deserialize B) (d.handlers y) m.data).1 =
            .ok { d.handlers y with txVotes := (d.handlers y).txVotes ++ [v] } :=
          TxReceiverHandler.dispatch_of_sendVote hread _
        rcases hresult with hok | ⟨⟨error, herror⟩, -⟩
        · have heq := Except.ok.inj (hdispatch.symm.trans hok)
          rw [← heq]
          exact Or.inr (List.mem_append_right _ List.mem_cons_self)
        · have hnone := hdispatch.symm.trans herror
          cases hnone

theorem effect (hs : Sound P B com H admits d) (env : Setting P B com H M admits) {o : Occurrence}
    (heffect : Effect P B com H d o d') : Delivering B com H d' := by
  cases heffect with
  | @vote x v rest draws hidle hvotes =>
    refine hd.turn hs env _ fun y w hw => ?_
    by_cases hy : y = x
    · subst hy
      rw [Function.update_self]
      rw [hvotes] at hw
      rcases List.mem_cons.mp hw with rfl | hw
      · exact Or.inr ⟨rfl, draws, rfl⟩
      · exact Or.inl hw
    · rw [Function.update_of_ne hy]
      exact Or.inl hw
  | @batch x txs rest htxs =>
    refine hd.mono rfl subset_rfl fun y w hw => hw.imp_right fun hw => hw.imp_left fun hw => ?_
    show w ∈ (Function.update d.handlers x _ y).txVotes
    by_cases hy : y = x
    · subst hy
      rwa [Function.update_self]
    · rwa [Function.update_of_ne hy]
  | transaction draw hidle hbatch => exact hd.turn hs env _ fun y w hw => Or.inl hw
  | @handOver x address bytes s hrunning hframe hsend =>
    refine hd.relink (fun _ _ hw => hw) (fun y hy hx i => ?_) fun y hy m hm v hread => Or.inl ?_
    · have hstep : (d.links x address).step (TxReceiverHandler.messageHandler (Wire.deserialize B))
          (.sender (.send bytes)) = some s := hsend
      rw [(hs.links x address y hy).oneshots_of_step hstep nofun]
      exact hd.waiting x address y hy hx i
    · exact hd.arrived x address y hy m ((Session.dispatched_of_send hsend).2 m hm) v hread
  | halt hrunning hframe hpanicked =>
    exact hd.mono rfl (Finset.union_subset_union_right (Finset.subset_insert _ _)) fun _ _ h => h
  | link hpermits hhost hstep htakes => exact hd.link hs env hpermits hhost hstep
  | @remote x address action o hpermits hhost hstep =>
    have hnone : ∀ y, peer com H address ≠ some y := fun y hy =>
      Option.some_ne_none y (hy.symm.trans hhost)
    exact hd.relink (fun _ _ hw => hw) (fun y hy => absurd hy (hnone y)) fun y hy =>
      absurd hy (hnone y)
  | @foreign y bytes h hdispatch htakes =>
    refine hd.mono rfl subset_rfl fun z w hw => hw.imp_right fun hw => hw.imp_left fun hw => ?_
    show w ∈ (Function.update d.handlers y h z).txVotes
    by_cases hz : z = y
    · subst hz
      rw [Function.update_self]
      rcases TxReceiverHandler.txVotes_of_dispatch hdispatch with hsame | ⟨v, -, hnew⟩
      · rwa [hsame]
      · rw [hnew]
        exact List.mem_append_left _ hw
    · rwa [Function.update_of_ne hz]

end Delivering

theorem delivering_of_reachable (env : Setting P B com H M admits)
    (hreach : (machine P B com H admits).Reachable (start com) d) : Delivering B com H d :=
  hreach.invariant delivering_start fun _ _ hr hd hguard =>
    hd.effect (sound_of_reachable env hr) env
      (effect_of_step (GuardedMachine.ofStep_next hguard.1))

/-- Nothing waits at the sender, whose task has not panicked, or at the newest runner. -/
structure Cleared (s : Session TxReceiverHandler (DagError (WireError ε))) : Prop where
  running : s.sender.connection.phase ≠ .panicked
  buffer : s.sender.connection.buffer = []
  receiver : s.sender.connection.receiver = []
  incoming : ∀ r ∈ s.runners.head?, r.incoming = []

instance (s : Session TxReceiverHandler (DagError (WireError ε))) : Decidable (Cleared s) :=
  decidable_of_iff
    (s.sender.connection.phase ≠ .panicked ∧ s.sender.connection.buffer = [] ∧
      s.sender.connection.receiver = [] ∧ ∀ r ∈ s.runners.head?, r.incoming = [])
    ⟨fun h => ⟨h.1, h.2.1, h.2.2.1, h.2.2.2⟩,
      fun h => ⟨h.running, h.buffer, h.receiver, h.incoming⟩⟩

/-- Nothing is on the way: all is handed over, nothing waits at a sender or at a runner, and the
channels are empty. -/
structure Quiet (B : Base64Crate ε) (com : Config.Committee) (H : Finset PublicKey)
    (d : Deployment ε) : Prop where
  handed : ∀ x ∈ H, d.handed x = ((d.system.nodes x).frames B).length
  links : ∀ x ∈ H, ∀ a ∈ (com.primaryAddresses x).map Prod.snd, (peer com H a).isSome = true →
    Cleared (d.links x a)
  channels : ∀ y ∈ H, (d.handlers y).txVotes = []

instance (d : Deployment ε) : Decidable (d.Quiet B com H) :=
  decidable_of_iff
    ((∀ x ∈ H, d.handed x = ((d.system.nodes x).frames B).length) ∧
      (∀ x ∈ H, ∀ a ∈ (com.primaryAddresses x).map Prod.snd, (peer com H a).isSome = true →
        Cleared (d.links x a)) ∧
      ∀ y ∈ H, (d.handlers y).txVotes = [])
    ⟨fun h => ⟨h.1, h.2.1, h.2.2⟩, fun h => ⟨h.handed, h.links, h.channels⟩⟩

/-- Where nothing is on the way from one primary to another, the other has handled all its votes. -/
theorem Delivering.handled (hd : Delivering B com H d) (hs : Sound P B com H admits d)
    (env : Setting P B com H M admits) {x y : PublicKey} {p : Config.PrimaryAddresses}
    (hp : com.primary y = .ok p) (hpeer : peer com H p.transactions = some y)
    (hx : x ∉ d.down) (hy : y ∉ d.down)
    (hhanded : d.handed x = ((d.system.nodes x).frames B).length)
    (hcleared : Cleared (d.links x p.transactions)) (hchannel : (d.handlers y).txVotes = []) :
    ∀ v ∈ (d.system.nodes x).casts, v ∈ (d.system.nodes y).sentVotes := by
  intro v hv
  -- the frame has been submitted to the connection for the address
  have hframe : (p.transactions, Wire.serialize B (.sendVote v)) ∈
      (d.system.nodes x).frames B :=
    (System.addressed_node hs.reachable x).mem_frames.mpr
      ⟨Config.Committee.mem_primaryAddresses hp x, v, hv, rfl⟩
  have hsubmitted := hs.submitted x p.transactions
  rw [hhanded, List.take_length] at hsubmitted
  have hdata := mem_sentTo.mpr hframe
  rw [← hsubmitted] at hdata
  obtain ⟨m, hm, hmdata⟩ := List.mem_map.mp hdata
  -- it is at neither end, so the newest runner has given it to the handler
  have hdispatched : (d.links x p.transactions).Dispatched m := by
    rcases (hs.links x _ y hpeer).mem_of_submitted hcleared.running hm
      (hd.waiting x _ y hpeer hx _) with h | h | ⟨r, rs, hrunners, h⟩
    · rw [hcleared.buffer] at h
      exact absurd h List.not_mem_nil
    · rw [hcleared.receiver] at h
      exact absurd h List.not_mem_nil
    · rw [hcleared.incoming r (by rw [hrunners]; rfl), List.append_nil] at h
      exact ⟨r, hrunners ▸ List.mem_cons_self, h⟩
  have hread : Wire.deserialize B m.data = .ok (.sendVote v) := by
    rw [hmdata]
    exact hs.deserialize_of_mem_casts env hv
  rcases hd.arrived x _ y hpeer m hdispatched v hread with h | h | h
  · exact absurd h (notMem_stopped hy)
  · rw [hchannel] at h
    exact absurd h List.not_mem_nil
  · exact h

/-- At the address of a primary that runs the code it listens itself. -/
theorem peer_eq (hlocal : com.Local) {y : PublicKey} (hy : y ∈ H) {p : Config.PrimaryAddresses}
    (hp : com.primary y = .ok p) : peer com H p.transactions = some y := by
  rw [peer, hlocal.host_eq hp]
  exact if_pos (decide_eq_true hy)

/-- **Nothing is lost.**  Of two primaries with local addresses, neither of which has panicked: once
nothing is on the way from the one to the other, every vote that it has cast has been handled by the
other, whatever connections have broken in between. -/
theorem handled_of_cleared (env : Setting P B com H M admits) (hlocal : com.Local)
    (hreach : (machine P B com H admits).Reachable (start com) d) {x y : PublicKey} (hy : y ∈ H)
    {p : Config.PrimaryAddresses} (hp : com.primary y = .ok p) (hxdown : x ∉ d.down)
    (hydown : y ∉ d.down) (hhanded : d.handed x = ((d.system.nodes x).frames B).length)
    (hcleared : Cleared (d.links x p.transactions)) (hchannel : (d.handlers y).txVotes = []) :
    ∀ v ∈ (d.system.nodes x).casts, v ∈ (d.system.nodes y).sentVotes :=
  (delivering_of_reachable env hreach).handled (sound_of_reachable env hreach) env hp
    (peer_eq hlocal hy hp) hxdown hydown hhanded hcleared hchannel

/-- So where nothing is on the way at all, every vote has been handled by all. -/
theorem Delivering.quiescent (hd : Delivering B com H d) (hs : Sound P B com H admits d)
    (env : Setting P B com H M admits) (hlocal : com.Local) (hnames : H ⊆ com.names)
    (hrunning : ∀ x ∈ H, x ∉ d.down) (hquiet : d.Quiet B com H) : d.system.Quiescent H := by
  intro x hx y hy _
  obtain ⟨p, hp⟩ := Config.Committee.mem_names_iff_primary.mp (hnames hy)
  have hpeer : peer com H p.transactions = some y := peer_eq hlocal hy hp
  exact hd.handled hs env hp hpeer (hrunning x hx) (hrunning y hy) (hquiet.handed x hx)
    (hquiet.links x hx _ (Config.Committee.mem_primaryAddresses hp x) (by rw [hpeer]; rfl))
    (hquiet.channels y hy)

/-- Two authorities exchange their first votes, and each has its own back. -/
def introduced : List Occurrence :=
  begins 1 false ++ handsOver 1 2 ++ connects 1 1 ++ carries 1 1 ++ connects 1 2 ++ carries 1 2 ++
    hears 1 ++ hears 2 ++ handsOver 2 2 ++ connects 2 1 ++ carries 2 1 ++ connects 2 2 ++
    carries 2 2 ++ hears 1 ++ hears 2

def afterIntroduced : Deployment String :=
  (faultless Params.source Base64Crate.standard (.ofLocal [1, 2]) both).run
    (start (.ofLocal [1, 2])) introduced

theorem introduced_spec :
    (faultless Params.source Base64Crate.standard (.ofLocal [1, 2]) both).Legal
        (start (.ofLocal [1, 2])) introduced ∧
      (∀ x ∈ both, x ∉ afterIntroduced.down) ∧
      afterIntroduced.Quiet Base64Crate.standard (.ofLocal [1, 2]) both := by
  decide +kernel

theorem reachable_afterIntroduced :
    (faultless Params.source Base64Crate.standard (.ofLocal [1, 2]) both).Reachable
      (start (.ofLocal [1, 2])) afterIntroduced :=
  GuardedMachine.reachable_run introduced introduced_spec.1

theorem introduced_casts :
    firstBallot 1 .zero ∈ (afterIntroduced.system.nodes (authority 1)).casts := by
  decide +kernel

theorem local_ofLocal : (Config.Committee.ofLocal [1, 2]).Local where
  ip := by decide +kernel
  distinct := by decide +kernel

-- the run is not to be evaluated again
attribute [local irreducible] afterIntroduced

/-- The second authority has handled the vote of the first. -/
theorem handled_of_cleared_introduced :
    firstBallot 1 .zero ∈ (afterIntroduced.system.nodes (authority 2)).sentVotes := by
  obtain ⟨-, hrunning, hquiet⟩ := introduced_spec
  obtain ⟨p, hp⟩ := Config.Committee.mem_names_iff_primary.mp
    (show authority 2 ∈ (Config.Committee.ofLocal [1, 2]).names by decide +kernel)
  have hpeer : peer (.ofLocal [1, 2]) both p.transactions = some (authority 2) :=
    peer_eq local_ofLocal (by decide +kernel) hp
  exact handled_of_cleared (setting_faultless Params.source_injective
      Base64Crate.standard_roundTrips Wire.standard_short (by decide +kernel)) local_ofLocal
    reachable_afterIntroduced (by decide +kernel) hp (hrunning _ (by decide +kernel))
    (hrunning _ (by decide +kernel)) (hquiet.handed _ (by decide +kernel))
    (hquiet.links _ (by decide +kernel) _ (Config.Committee.mem_primaryAddresses hp _)
      (by rw [hpeer]; rfl)) (hquiet.channels _ (by decide +kernel)) _ introduced_casts

end Deployment
end NeroConsensus
