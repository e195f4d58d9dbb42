import NeroConsensus.Deployment.Frames
import NeroConsensus.Network.Dispatching

/-!
# The deployment refines the network

The `System` of the protocol knows no frames and no connections: a vote that is allowed can be
handled at any time, any number of times.  Here the votes come from the channels, and the channels
are filled by runners that read frames.  `Deployment.Sound` is what ties the two together.

* The system of the deployment is one that the network reaches, where the votes that are handled
  have been cast by a node of `H`, or are admitted foreign votes (`Credited`).
* What has been submitted to the connection for an address is what the core has handed over for
  it, in the same order.
* A connection to a primary that runs the code is a `Session` without replies.
* The votes in a channel are credited.

One lemma for each kind of step, and `Sound.effect` puts them together.
-/

namespace NeroConsensus

/-! ## The handler -/

/-- What `dispatch` puts into the channel of votes. -/
theorem TxReceiverHandler.txVotes_of_dispatch {κ : Type}
    {deserialize : Bytes → Except κ PrimaryMessage} {h h' : TxReceiverHandler} {bytes : Bytes}
    (hok : (dispatch deserialize h bytes).1 = .ok h') :
    h'.txVotes = h.txVotes ∨
      ∃ v, deserialize bytes = .ok (.sendVote v) ∧ h'.txVotes = h.txVotes ++ [v] := by
  unfold dispatch at hok
  split at hok
  · cases hok
  · exact Or.inl (congrArg txVotes (Except.ok.inj hok)).symm
  · rename_i v hread
    exact Or.inr ⟨v, hread, (congrArg txVotes (Except.ok.inj hok)).symm⟩
  · exact Or.inl (congrArg txVotes (Except.ok.inj hok)).symm

/-- A frame that is a vote is put into the channel. -/
theorem TxReceiverHandler.dispatch_of_sendVote {κ : Type}
    {deserialize : Bytes → Except κ PrimaryMessage} {bytes : Bytes} {v : PrimaryVote}
    (hread : deserialize bytes = .ok (.sendVote v)) (h : TxReceiverHandler) :
    (dispatch deserialize h bytes).1 = .ok { h with txVotes := h.txVotes ++ [v] } := by
  rw [dispatch, hread]

namespace Deployment

/-- What goes to an address. -/
def sentTo (address : SocketAddr) (frames : List (SocketAddr × Bytes)) : List Bytes :=
  (frames.filter (·.1 = address)).map Prod.snd

theorem mem_sentTo {address : SocketAddr} {frames : List (SocketAddr × Bytes)} {bytes : Bytes} :
    bytes ∈ sentTo address frames ↔ (address, bytes) ∈ frames := by
  rw [sentTo, List.mem_map]
  constructor
  · rintro ⟨frame, hmem, rfl⟩
    obtain ⟨hmem, ha⟩ := List.mem_filter.mp hmem
    rw [← of_decide_eq_true ha]
    exact hmem
  · exact fun hmem => ⟨_, List.mem_filter.mpr ⟨hmem, decide_eq_true rfl⟩, rfl⟩

/-- The next frame goes to its address, and to no other. -/
theorem sentTo_take_succ {frames : List (SocketAddr × Bytes)} {n : ℕ} {a : SocketAddr}
    {bytes : Bytes} (hframe : frames[n]? = some (a, bytes)) (address : SocketAddr) :
    sentTo address (frames.take (n + 1)) =
      sentTo address (frames.take n) ++ if a = address then [bytes] else [] := by
  rw [List.take_add_one, hframe, Option.toList_some, sentTo, sentTo, List.filter_append,
    List.map_append]
  split_ifs with ha
  · simp [ha]
  · simp [ha]

theorem take_eq_take {α : Type} {l l' : List α} {n : ℕ} (h : l <+: l') (hn : n ≤ l.length) :
    l'.take n = l.take n := by
  obtain ⟨more, rfl⟩ := h
  exact List.take_append_of_le_length hn

variable {P : Params} {ε : Type} {B : Base64Crate ε} {com : Config.Committee}
  {H M : Finset PublicKey} {admits : System → PublicKey → PrimaryVote → Prop}
  {d d' : Deployment ε}

/-! ## The invariant -/

/-- A vote that has been cast by a node that runs the code, or is admitted. -/
def Credited (H : Finset PublicKey) (admits : System → PublicKey → PrimaryVote → Prop)
    (s : System) (x : PublicKey) (v : PrimaryVote) : Prop :=
  s.Sent H v ∨ admits s x v

/-- What the results need to know of the hash, of `base64`, and of the foreign votes: these are in
the names of the keys of `M`, fewer than `2 ^ 64`, and a vote that is admitted stays so. -/
structure Setting (P : Params) (B : Base64Crate ε) (com : Config.Committee)
    (H M : Finset PublicKey) (admits : System → PublicKey → PrimaryVote → Prop) : Prop where
  digest : Function.Injective P.sha512
  base64 : B.RoundTrips
  short : Wire.Short B
  subset : H ⊆ M
  card : M.card < 256 ^ 8
  signer : ∀ s x v, admits s x v → v.signer ∈ M
  mono : ∀ s t x v,
    (System.network P H (Credited H admits)).Reachable (System.start com.primaryAddresses) s →
      admits s x v → admits (s.next P t) x v

/-- The primary that runs the code and listens at an address. -/
abbrev peer (com : Config.Committee) (H : Finset PublicKey) (address : SocketAddr) :
    Option PublicKey :=
  (com.host address).filter (· ∈ H)

/-- **What holds in a deployment.** -/
structure Sound (P : Params) (B : Base64Crate ε) (com : Config.Committee) (H : Finset PublicKey)
    (admits : System → PublicKey → PrimaryVote → Prop) (d : Deployment ε) : Prop where
  reachable : (System.network P H (Credited H admits)).Reachable
    (System.start com.primaryAddresses) d.system
  handed : ∀ x, d.handed x ≤ ((d.system.nodes x).frames B).length
  submitted : ∀ x a, (d.links x a).sender.submitted.map InnerMessage.data =
    sentTo a (((d.system.nodes x).frames B).take (d.handed x))
  links : ∀ x a y, peer com H a = some y → Session.Sound 0 (d.links x a)
  channels : ∀ y, ∀ v ∈ (d.handlers y).txVotes, Credited H admits d.system y v

theorem sound_start : Sound P B com H admits (start com : Deployment ε) where
  reachable := GuardedMachine.Reachable.refl
  handed _ := Nat.zero_le _
  submitted _ _ := rfl
  links _ a _ _ := Session.sound_spawn 0 a a _
  channels _ _ hv := absurd hv List.not_mem_nil

namespace Setting

variable (env : Setting P B com H M admits)

include env

theorem mem_of_credited {s : System} {x : PublicKey} {v : PrimaryVote}
    (h : Credited H admits s x v) : v.signer ∈ M :=
  h.elim (fun hsent => env.subset hsent.1) fun hadmits => env.signer s x v hadmits

theorem credited_next {s : System} (hreach : (System.network P H (Credited H admits)).Reachable
    (System.start com.primaryAddresses) s) (t : Turn) {x : PublicKey} {v : PrimaryVote}
    (h : Credited H admits s x v) : Credited H admits (s.next P t) x v :=
  h.elim (fun hsent => Or.inl ⟨hsent.1, hsent.2.next env.digest hreach t⟩)
    fun hadmits => Or.inr (env.mono s t x v hreach hadmits)

end Setting

namespace Sound

variable (hs : Sound P B com H admits d)

include hs

/-- A core takes its turn. -/
theorem turn (env : Setting P B com H M admits) {x : PublicKey} {event : Core.Event}
    (hx : x ∈ H) (hrunning : x ∉ d.system.stopped)
    (hreceived : ∀ v ∈ event.received, Credited H admits d.system x v)
    {handlers : PublicKey → TxReceiverHandler} {batches : PublicKey → List Transaction}
    (hvotes : ∀ y, ∀ v ∈ (handlers y).txVotes, v ∈ (d.handlers y).txVotes) :
    Sound P B com H admits { d with
      system := d.system.next P ⟨x, event⟩, handlers := handlers, batches := batches } := by
  have hnext : (System.network P H (Credited H admits)).Reachable
      (System.start com.primaryAddresses) (d.system.next P ⟨x, event⟩) :=
    hs.reachable.step ⟨hx, hrunning, hreceived⟩
  have hpiece : ∀ z, (d.system.nodes z).frames B <+:
      ((d.system.next P ⟨x, event⟩).nodes z).frames B := fun z =>
    Core.frames_prefix (System.addressed_node hs.reachable z) (System.addressed_node hnext z)
      (System.nodes_extend env.digest hs.reachable ⟨x, event⟩ z).casts
  exact {
    reachable := hnext
    handed := fun z => (hs.handed z).trans (hpiece z).length_le
    submitted := fun z a => by
      show (d.links z a).sender.submitted.map InnerMessage.data = _
      rw [hs.submitted z a]
      exact congrArg (sentTo a) (take_eq_take (hpiece z) (hs.handed z)).symm
    links := hs.links
    channels := fun y v hv =>
      env.credited_next hs.reachable ⟨x, event⟩ (hs.channels y v (hvotes y v hv)) }

/-- The channels change. -/
theorem refill {handlers : PublicKey → TxReceiverHandler} {batches : PublicKey → List Transaction}
    (hvotes : ∀ y, ∀ v ∈ (handlers y).txVotes,
      v ∈ (d.handlers y).txVotes ∨ Credited H admits d.system y v) :
    Sound P B com H admits { d with handlers := handlers, batches := batches } where
  reachable := hs.reachable
  handed := hs.handed
  submitted := hs.submitted
  links := hs.links
  channels y v hv := (hvotes y v hv).elim (hs.channels y v) id

/-- One connection moves on, and the others rest. -/
theorem relink {x : PublicKey} {address : SocketAddr} {handed : PublicKey → ℕ}
    {s : Session TxReceiverHandler (DagError (WireError ε))}
    (hhanded : ∀ z, handed z ≤ ((d.system.nodes z).frames B).length)
    (hself : s.sender.submitted.map InnerMessage.data =
      sentTo address (((d.system.nodes x).frames B).take (handed x)))
    (hothers : ∀ z a, ¬(z = x ∧ a = address) →
      sentTo a (((d.system.nodes z).frames B).take (handed z)) =
        sentTo a (((d.system.nodes z).frames B).take (d.handed z)))
    (hsound : ∀ y, peer com H address = some y → Session.Sound 0 s) :
    Sound P B com H admits ({ d with handed := handed }.setLink x address s) where
  reachable := hs.reachable
  handed := hhanded
  submitted z a := by
    rw [links_setLink]
    split_ifs with hza
    · rw [hza.1, hza.2]
      exact hself
    · exact (hs.submitted z a).trans (hothers z a hza).symm
  links z a y hpeer := by
    rw [links_setLink]
    split_ifs with hza
    · exact hsound y (hza.2 ▸ hpeer)
    · exact hs.links z a y hpeer
  channels := hs.channels

/-- The core hands a frame over. -/
theorem handOver {x : PublicKey} {address : SocketAddr} {bytes : Bytes}
    {s : Session TxReceiverHandler (DagError (WireError ε))}
    (hframe : ((d.system.nodes x).frames B)[d.handed x]? = some (address, bytes))
    (hsend : (d.links x address).send (.send bytes) = some s) :
    Sound P B com H admits
      ({ d with handed := Function.update d.handed x (d.handed x + 1) }.setLink x address s) := by
  obtain ⟨hlt, -⟩ := List.getElem?_eq_some_iff.mp hframe
  refine hs.relink (fun z => ?_) ?_ (fun z a hza => ?_) fun y hy => ?_
  · by_cases hz : z = x
    · rw [hz, Function.update_self]
      exact hlt
    · rw [Function.update_of_ne hz]
      exact hs.handed z
  · have hsubmitted := Outgoing.submitted_of_send (Session.sender_of_send hsend)
    rw [Function.update_self, sentTo_take_succ hframe, if_pos rfl, ← hs.submitted x address]
    exact hsubmitted
  · by_cases hz : z = x
    · subst hz
      rw [Function.update_self, sentTo_take_succ hframe, if_neg fun ha => hza ⟨rfl, ha.symm⟩,
        List.append_nil]
    · rw [Function.update_of_ne hz]
  · exact (hs.links x address y hy).send hsend

/-- The runners share the channels of their primary. -/
theorem session {x y : PublicKey} {address : SocketAddr} (hpeer : peer com H address = some y)
    (h : TxReceiverHandler) : Session.Sound 0 ({ d.links x address with handler := h } :
      Session TxReceiverHandler (DagError (WireError ε))) := by
  obtain ⟨horderly, hup, hleft⟩ := hs.links x address y hpeer
  exact ⟨horderly, hup, hleft⟩

/-- What a runner can have got over a connection is a vote that the primary at the other end
has cast. -/
theorem exists_cast_of_submitted {x : PublicKey} {address : SocketAddr} {m : InnerMessage}
    (hm : m ∈ (d.links x address).sender.submitted) :
    ∃ v ∈ (d.system.nodes x).casts, m.data = Wire.serialize B (.sendVote v) := by
  have hdata := List.mem_map_of_mem (f := InnerMessage.data) hm
  rw [hs.submitted x address, mem_sentTo] at hdata
  exact ((System.addressed_node hs.reachable x).mem_frames.mp (List.mem_of_mem_take hdata)).2

theorem deserialize_of_mem_casts (env : Setting P B com H M admits) {x : PublicKey}
    {v : PrimaryVote} (hv : v ∈ (d.system.nodes x).casts) :
    Wire.deserialize B (Wire.serialize B (.sendVote v)) = .ok (.sendVote v) :=
  System.deserialize_of_mem_casts env.digest env.subset (fun _ _ _ h => env.mem_of_credited h)
    hs.reachable env.card env.base64 env.short hv

/-- Every frame that a runner has got is such a vote. -/
theorem exists_cast_of_runner (env : Setting P B com H M admits) {x y : PublicKey}
    {address : SocketAddr} (hpeer : peer com H address = some y)
    {r : Runner (DagError (WireError ε))} (hr : r ∈ (d.links x address).runners)
    {m : InnerMessage} (hm : m ∈ r.dispatched ++ r.incoming) :
    ∃ v ∈ (d.system.nodes x).casts, Wire.deserialize B m.data = .ok (.sendVote v) := by
  obtain ⟨v, hv, hdata⟩ :=
    hs.exists_cast_of_submitted ((hs.links x address y hpeer).left r hr m hm).1
  exact ⟨v, hv, hdata ▸ hs.deserialize_of_mem_casts env hv⟩

/-- A step of a connection to a primary that runs the code brings nothing, or a cast vote of the
primary at the other end. -/
theorem handler_of_step (env : Setting P B com H M admits) {x y : PublicKey}
    {address : SocketAddr} (hpeer : peer com H address = some y) {e : SessionEvent}
    {s : Session TxReceiverHandler (DagError (WireError ε))}
    (hstep : ({ d.links x address with handler := d.handlers y } :
      Session TxReceiverHandler (DagError (WireError ε))).step
        (TxReceiverHandler.messageHandler (Wire.deserialize B)) e = some s) :
    s.handler = d.handlers y ∨ ∃ v ∈ (d.system.nodes x).casts,
      s.handler = { d.handlers y with txVotes := (d.handlers y).txVotes ++ [v] } := by
  rcases Session.dispatched_of_step hstep with ⟨hsame, -⟩ | ⟨m, ⟨r, hr, hm⟩, -, hresult⟩
  · exact Or.inl hsame
  · rcases hresult with hok | ⟨-, hsame⟩
    · obtain ⟨v, hv, hread⟩ := hs.exists_cast_of_runner env hpeer hr (List.mem_append_right _ hm)
      refine Or.inr ⟨v, hv, ?_⟩
      exact (Except.ok.inj ((TxReceiverHandler.dispatch_of_sendVote hread _).symm.trans hok)).symm
    · exact Or.inl hsame

theorem sent_of_mem_casts (env : Setting P B com H M admits) {x : PublicKey} {v : PrimaryVote}
    (hv : v ∈ (d.system.nodes x).casts) : d.system.Sent H v := by
  obtain ⟨hsigner, hbroadcast⟩ := System.broadcast_of_mem_casts env.digest hs.reachable hv
  refine ⟨?_, hbroadcast⟩
  rw [hsigner]
  exact System.mem_of_mem_casts hs.reachable hv

/-- A step of a connection to a primary that runs the code. -/
theorem link (env : Setting P B com H M admits) {x y : PublicKey} {address : SocketAddr}
    {e : SessionEvent} {s : Session TxReceiverHandler (DagError (WireError ε))}
    (hpermits : d.Permits x e) (hpeer : peer com H address = some y)
    (hstep : ({ d.links x address with handler := d.handlers y } :
      Session TxReceiverHandler (DagError (WireError ε))).step
        (TxReceiverHandler.messageHandler (Wire.deserialize B)) e = some s) :
    Sound P B com H admits
      ({ d with handlers := Function.update d.handlers y s.handler }.setLink x address s) := by
  have hnosend : ∀ data, e ≠ .sender (.send data) := by
    rintro data rfl
    exact hpermits
  have hvotes : ∀ z, ∀ v ∈ (Function.update d.handlers y s.handler z).txVotes,
      v ∈ (d.handlers z).txVotes ∨ Credited H admits d.system z v := by
    rw [Function.forall_update_iff d.handlers fun z h =>
      ∀ v ∈ h.txVotes, v ∈ (d.handlers z).txVotes ∨ Credited H admits d.system z v]
    refine ⟨fun v hv => ?_, fun _ _ _ hv => Or.inl hv⟩
    rcases hs.handler_of_step env hpeer hstep with hsame | ⟨w, hw, hnew⟩
    · rw [hsame] at hv
      exact Or.inl hv
    · rw [hnew] at hv
      rcases List.mem_append.mp hv with hold | hv
      · exact Or.inl hold
      · obtain rfl := List.mem_singleton.mp hv
        exact Or.inr (Or.inl (hs.sent_of_mem_casts env hw))
  refine (hs.refill hvotes).relink hs.handed ?_ (fun _ _ _ => rfl)
    fun _ _ => (hs.session hpeer _).step (TxReceiverHandler.repliesWith_zero _) hstep
  rw [Session.submitted_of_step hstep hnosend]
  exact hs.submitted x address

/-- A step of a connection to some other program. -/
theorem remote {x : PublicKey} {address : SocketAddr} {action : Action} {o : Outgoing}
    (hpermits : d.Permits x (.sender action)) (hpeer : peer com H address = none)
    (hstep : (d.links x address).sender.step action = some o) :
    Sound P B com H admits (d.setLink x address { d.links x address with sender := o }) := by
  refine hs.relink hs.handed ?_ (fun _ _ _ => rfl) fun y hy => ?_
  · have hnosend : ∀ data, action ≠ .send data := by
      rintro data rfl
      exact hpermits
    show o.submitted.map InnerMessage.data = _
    rw [Outgoing.submitted_of_step hstep hnosend]
    exact hs.submitted x address
  · rw [hpeer] at hy
    cases hy

/-- **Every step keeps the invariant.** -/
theorem effect (env : Setting P B com H M admits) {o : Occurrence}
    (heffect : Effect P B com H d o d') (hx : o.primary ∈ H)
    (hbrought : ∀ v ∈ o.brought B, admits d.system o.primary v) :
    Sound P B com H admits d' := by
  cases heffect with
  | @vote x v rest draws hidle hvotes =>
    refine hs.turn env hx (notMem_stopped hidle.1) (fun w hw => ?_) ?_
    · obtain rfl := Option.some.inj hw
      exact hs.channels x v (hvotes ▸ List.mem_cons_self)
    · rw [Function.forall_update_iff d.handlers fun y h =>
        ∀ w ∈ h.txVotes, w ∈ (d.handlers y).txVotes]
      exact ⟨fun w hw => hvotes ▸ List.mem_cons_of_mem _ hw, fun _ _ _ hw => hw⟩
  | @batch x txs rest htxs =>
    refine hs.refill ?_
    rw [Function.forall_update_iff d.handlers fun y h =>
      ∀ w ∈ h.txVotes, w ∈ (d.handlers y).txVotes ∨ Credited H admits d.system y w]
    exact ⟨fun _ hw => Or.inl hw, fun _ _ _ hw => Or.inl hw⟩
  | transaction draw hidle hbatch =>
    exact hs.turn env hx (notMem_stopped hidle.1) (fun w hw => by cases hw) fun _ _ hw => hw
  | handOver hrunning hframe hsend => exact hs.handOver hframe hsend
  | halt hrunning hframe hpanicked =>
    exact ⟨hs.reachable, hs.handed, hs.submitted, hs.links, hs.channels⟩
  | link hpermits hhost hstep htakes => exact hs.link env hpermits hhost hstep
  | remote hpermits hhost hstep => exact hs.remote hpermits hhost hstep
  | @foreign y bytes h hdispatch htakes =>
    refine hs.refill ?_
    rw [Function.forall_update_iff d.handlers fun z h =>
      ∀ w ∈ h.txVotes, w ∈ (d.handlers z).txVotes ∨ Credited H admits d.system z w]
    refine ⟨fun w hw => ?_, fun _ _ _ hw => Or.inl hw⟩
    rcases TxReceiverHandler.txVotes_of_dispatch hdispatch with hsame | ⟨v, hread, hnew⟩
    · rw [hsame] at hw
      exact Or.inl hw
    · rw [hnew] at hw
      rcases List.mem_append.mp hw with hold | hw
      · exact Or.inl hold
      · obtain rfl := List.mem_singleton.mp hw
        refine Or.inr (Or.inr (hbrought w ?_))
        rw [Occurrence.brought, hread]
        rfl

end Sound

/-- **What holds in a deployment holds in every run.** -/
theorem sound_of_reachable (env : Setting P B com H M admits)
    (hreach : (machine P B com H admits).Reachable (start com) d) :
    Sound P B com H admits d :=
  hreach.invariant sound_start fun _ _ _ hs hguard =>
    hs.effect env (effect_of_step (GuardedMachine.ofStep_next hguard.1)) hguard.2.1 hguard.2.2

end Deployment
end NeroConsensus
