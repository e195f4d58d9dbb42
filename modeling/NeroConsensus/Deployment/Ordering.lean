import NeroConsensus.Deployment.Delivery
import NeroConsensus.Foundations.Initial
import NeroConsensus.Network.Ordering
import NeroConsensus.Primary.OwnVotes

/-!
# Votes come in the order in which they are cast

Between two primaries that run, whatever connections break and whatever runners of old connections
still do: what one of them has handled of the votes of the other is a beginning of what that one
has cast (`exists_handled_eq_take`).

A frame that a runner gives to the handler comes after all the frames that were submitted before
it, over the same connection, so their votes have been put into the channel already, by this runner
or, with the ones before it, by another (`InSequence.link`).  The channel keeps the order.
-/

namespace NeroConsensus

variable {P : Params}

/-! ## Turns of the network -/

namespace System

variable {H : Finset PublicKey} {allowed : System → PublicKey → PrimaryVote → Prop}
  {addresses : PublicKey → List (PublicKey × SocketAddr)} {s : System}

/-- A primary casts no vote a second time. -/
theorem nodup_casts (hdigest : Function.Injective P.sha512)
    (hreach : (network P H allowed).Reachable (start addresses) s) (x : PublicKey) :
    (s.nodes x).casts.Nodup := by
  have hdistinct := Core.Reached.distinct hdigest ⟨_, _, _, reachable_node hreach x⟩
  exact hdistinct.imp fun hne heq => hne ⟨by rw [heq], by rw [heq]⟩

/-- The votes that a turn adds come last. -/
theorem initial_next (hdigest : Function.Injective P.sha512)
    (hreach : (network P H allowed).Reachable (start addresses) s) {t : Turn}
    (hnext : (network P H allowed).Reachable (start addresses) (s.next P t))
    {p : PrimaryVote → Prop} (hp : ∀ v, p v → s.Broadcast v) {x : PublicKey}
    (h : Initial p (s.nodes x).casts) : Initial p ((s.next P t).nodes x).casts := by
  obtain ⟨more, hmore⟩ := (nodes_extend hdigest hreach t x).casts
  have hnodup := nodup_casts hdigest hnext x
  rw [← hmore] at hnodup ⊢
  refine h.append fun v hv hpv => ?_
  have hsigner := (broadcast_of_mem_casts hdigest hnext (hmore ▸ List.mem_append_right _ hv)).1
  have hold := hp v hpv
  rw [Broadcast, hsigner] at hold
  exact (List.nodup_append.mp hnodup).2.2 v hold v hv rfl

end System

namespace Deployment

variable {ε : Type} {B : Base64Crate ε} {com : Config.Committee} {H : Finset PublicKey}
  {d d' : Deployment ε}

/-! ## Frames -/

theorem sentTo_mono {frames frames' : List (SocketAddr × Bytes)} (h : frames <+: frames')
    (a : SocketAddr) : sentTo a frames <+: sentTo a frames' :=
  (h.filter _).map _

/-- What goes to an address, vote by vote. -/
theorem sentTo_frames {addresses : List (PublicKey × SocketAddr)} {c : Core}
    (ha : Core.Addressed addresses c) (a : SocketAddr) :
    sentTo a (c.frames B) = c.casts.flatMap fun v =>
      sentTo a ((addresses.map Prod.snd).map fun a => (a, Wire.serialize B (.sendVote v))) := by
  rw [ha.frames_eq, sentTo, List.filter_flatMap, List.map_flatMap]
  rfl

theorem mem_sentTo_vote {addresses : List SocketAddr} {a : SocketAddr} {bytes : Bytes}
    {v : PrimaryVote} :
    bytes ∈ sentTo a (addresses.map fun a => (a, Wire.serialize B (.sendVote v))) ↔
      a ∈ addresses ∧ bytes = Wire.serialize B (.sendVote v) := by
  rw [mem_sentTo, List.mem_map]
  constructor
  · rintro ⟨a', ha', heq⟩
    obtain ⟨rfl, rfl⟩ := Prod.mk.inj heq
    exact ⟨ha', rfl⟩
  · rintro ⟨ha, rfl⟩
    exact ⟨a, ha, rfl⟩

/-- What a step of a connection does to the channel of votes. -/
theorem queue_of_step {link s : Session TxReceiverHandler (DagError (WireError ε))}
    {h : TxReceiverHandler} {e : SessionEvent}
    (hstep : ({ link with handler := h } :
      Session TxReceiverHandler (DagError (WireError ε))).step
        (TxReceiverHandler.messageHandler (Wire.deserialize B)) e = some s)
    {l : List PrimaryVote} (hl : l <+: s.handler.txVotes) :
    l <+: h.txVotes ∨ ∃ r ∈ link.runners, ∃ r' ∈ s.runners, ∃ m v,
      r'.dispatched = r.dispatched ++ [m] ∧ Wire.deserialize B m.data = .ok (.sendVote v) ∧
        l = h.txVotes ++ [v] := by
  rcases Session.handler_of_step hstep with hsame | ⟨r, hr, r', hr', m, hdispatched, hok⟩
  · rw [hsame] at hl
    exact Or.inl hl
  · rcases TxReceiverHandler.txVotes_of_dispatch hok with hsame | ⟨v, hread, hnew⟩
    · rw [hsame] at hl
      exact Or.inl hl
    · rw [hnew] at hl
      rcases List.prefix_concat_iff.mp hl with rfl | hl
      · exact Or.inr ⟨r, hr, r', hr', m, v, hdispatched, hread, rfl⟩
      · exact Or.inl hl

/-! ## The invariant -/

/-- **The order is kept** in the connections and in the channels. -/
structure InSequence (com : Config.Committee) (H : Finset PublicKey) (d : Deployment ε) :
    Prop where
  links : ∀ x a y, peer com H a = some y → x ∉ d.down → (d.links x a).InOrder
  handled : ∀ y, ∀ v ∈ (d.system.nodes y).sentVotes, d.system.Broadcast v
  channels : ∀ x y, x ∉ d.down → y ∉ d.system.stopped →
    ∀ l, l <+: (d.handlers y).txVotes →
      Initial (fun v => v ∈ (d.system.nodes y).sentVotes ∨ v ∈ l) (d.system.nodes x).casts

theorem inSequence_start : InSequence com H (start com : Deployment ε) where
  links _ _ _ _ _ _ hr := absurd hr List.not_mem_nil
  handled _ v hv := absurd hv (Finset.notMem_empty v)
  channels _ _ _ _ _ _ := List.Pairwise.nil

/-- What has been submitted is, before a vote, all that has been cast before it. -/
theorem Sound.pairwise_casts {admits : System → PublicKey → PrimaryVote → Prop}
    {M : Finset PublicKey} (hs : Sound P B com H admits d) (env : Setting P B com H M admits)
    {x : PublicKey} {a : SocketAddr} {messages : List InnerMessage} {m : InnerMessage}
    (hbegins : messages ++ [m] <+: (d.links x a).sender.submitted) {v : PrimaryVote}
    (hread : Wire.deserialize B m.data = .ok (.sendVote v)) :
    (d.system.nodes x).casts.Pairwise fun w u => u = v →
      ∃ m' ∈ messages, Wire.deserialize B m'.data = .ok (.sendVote w) := by
  have haddressed := System.addressed_node hs.reachable x
  have hserialize : ∀ w ∈ (d.system.nodes x).casts,
      Wire.deserialize B (Wire.serialize B (.sendVote w)) = .ok (.sendVote w) := fun w hw =>
    hs.deserialize_of_mem_casts env hw
  have hframes : messages.map InnerMessage.data ++ [m.data] <+:
      (d.system.nodes x).casts.flatMap fun w => sentTo a
        (((com.primaryAddresses x).map Prod.snd).map fun a =>
          (a, Wire.serialize B (.sendVote w))) := by
    have hmap := hbegins.map InnerMessage.data
    rw [List.map_append, hs.submitted x a] at hmap
    rw [← sentTo_frames haddressed]
    exact hmap.trans (sentTo_mono (List.take_prefix _ _) a)
  obtain ⟨u₀, hu₀, hframe⟩ := List.mem_flatMap.mp
    (hframes.subset (List.mem_append_right _ List.mem_cons_self))
  obtain ⟨ha, hdata⟩ := mem_sentTo_vote.mp hframe
  obtain rfl : u₀ = v := by
    have hsame := hserialize u₀ hu₀
    rw [← hdata, hread] at hsame
    cases hsame
    rfl
  -- the frames of two votes are not the same, as they are read differently
  have hapart : (d.system.nodes x).casts.Pairwise fun w u =>
      ∀ i ∈ sentTo a (((com.primaryAddresses x).map Prod.snd).map fun a =>
          (a, Wire.serialize B (.sendVote u))),
        i ∉ sentTo a (((com.primaryAddresses x).map Prod.snd).map fun a =>
          (a, Wire.serialize B (.sendVote w))) := by
    refine List.Pairwise.imp_of_mem (fun {w u} hw hu hne i hi hi' => hne ?_)
      (System.nodup_casts env.digest hs.reachable x)
    have hreadw := hserialize w hw
    rw [← (mem_sentTo_vote.mp hi').2, (mem_sentTo_vote.mp hi).2, hserialize u hu] at hreadw
    cases hreadw
    rfl
  refine List.Pairwise.imp_of_mem (fun {w u} hw hu hall heq => ?_)
    (pairwise_of_begins hapart hframes)
  subst heq
  obtain ⟨m', hm', hdata'⟩ := List.mem_map.mp
    (hall (mem_sentTo_vote.mpr ⟨ha, hdata⟩) _ (mem_sentTo_vote.mpr ⟨ha, rfl⟩))
  exact ⟨m', hm', hdata' ▸ hserialize w hw⟩

namespace InSequence

variable (hi : InSequence com H d)

include hi

/-- A core takes its turn. -/
theorem turn (hs : Sound P B com H (fun _ _ _ => False) d)
    (env : Setting P B com H H fun _ _ _ => False) {t : Turn}
    (hnext : (System.network P H (Credited H fun _ _ _ => False)).Reachable
      (System.start com.primaryAddresses) (d.system.next P t))
    (hreceived : ∀ v ∈ t.event.received, d.system.Broadcast v)
    {handlers : PublicKey → TxReceiverHandler} {batches : PublicKey → List Transaction}
    (hqueue : ∀ y l, l <+: (handlers y).txVotes → ∃ l₀, l₀ <+: (d.handlers y).txVotes ∧
      ∀ v, v ∈ l₀ ↔ v ∈ l ∨ y = t.node ∧ ∃ draws, t.event = .vote v draws) :
    InSequence com H
      { d with system := d.system.next P t, handlers := handlers, batches := batches } := by
  have hstopped := System.stopped_subset_next (P := P) d.system t
  have hdown : d.down ⊆ (d.system.next P t).stopped ∪ d.halted :=
    Finset.union_subset_union_left hstopped
  refine ⟨fun x a y hpeer hx => hi.links x a y hpeer fun h => hx (hdown h),
    fun y v hv => ?_, fun x y hx hy l hl => ?_⟩
  · rcases System.mem_sentVotes_of_next env.digest hs.reachable t hv with hold | ⟨-, draws, hevent⟩
    · exact (hi.handled y v hold).next env.digest hs.reachable t
    · exact (hreceived v (by rw [hevent]; rfl)).next env.digest hs.reachable t
  · obtain ⟨l₀, hl₀, hmem⟩ := hqueue y l hl
    have hold := hi.channels x y (fun h => hx (hdown h)) (fun h => hy (hstopped h)) l₀ hl₀
    have hbroadcast : ∀ v, v ∈ (d.system.nodes y).sentVotes ∨ v ∈ l₀ → d.system.Broadcast v := by
      rintro v (hv | hv)
      · exact hi.handled y v hv
      · exact ((hs.channels y v (hl₀.subset hv)).resolve_right id).2
    refine (System.initial_next env.digest hs.reachable hnext hbroadcast hold).congr fun v => ?_
    rw [System.mem_sentVotes_next env.digest hs.reachable t hy v, hmem v]
    tauto

/-- A step of a connection to a primary that runs the code. -/
theorem link (hs : Sound P B com H (fun _ _ _ => False) d)
    (env : Setting P B com H H fun _ _ _ => False) (hd : Delivering B com H d)
    {x y : PublicKey} {address : SocketAddr} {e : SessionEvent}
    {s : Session TxReceiverHandler (DagError (WireError ε))} (hpermits : d.Permits x e)
    (hpeer : peer com H address = some y)
    (hstep : ({ d.links x address with handler := d.handlers y } :
      Session TxReceiverHandler (DagError (WireError ε))).step
        (TxReceiverHandler.messageHandler (Wire.deserialize B)) e = some s) :
    InSequence com H
      ({ d with handlers := Function.update d.handlers y s.handler }.setLink x address s) := by
  have hs' := hs.link env hpermits hpeer hstep
  have hd' := hd.link hs env hpermits hpeer hstep
  have hself : ({ d with handlers := Function.update d.handlers y s.handler }.setLink x address
      s).links x address = s := by
    rw [links_setLink, if_pos ⟨rfl, rfl⟩]
  have hsound := hs'.links x address y hpeer
  have hwaiting := hd'.waiting x address y hpeer
  rw [hself] at hsound hwaiting
  have hinorder : x ∉ d.down → s.InOrder := fun hx =>
    have hbefore : ({ d.links x address with handler := d.handlers y } :
        Session TxReceiverHandler (DagError (WireError ε))).InOrder :=
      hi.links x address y hpeer hx
    hbefore.step hsound (hwaiting hx) hstep
  refine ⟨fun x' a y' hpeer' hx' => ?_, hi.handled, fun z w hz hw l hl => ?_⟩
  · rw [links_setLink]
    split_ifs with hlink
    · exact hinorder (hlink.1 ▸ hx')
    · exact hi.links x' a y' hpeer' hx'
  · have hl : l <+: (Function.update d.handlers y s.handler w).txVotes := hl
    by_cases hwy : w = y
    · subst hwy
      rw [Function.update_self] at hl
      rcases queue_of_step hstep hl with hl | ⟨r, hr, r', hr', m, v, hdispatched, hread, rfl⟩
      · exact hi.channels z w hz hw l hl
      · refine ((hi.channels z w hz hw _ List.prefix_rfl).or_eq (c := v) ?_).congr fun u => ?_
        · by_cases hzx : z = x
          · -- the frames of the earlier votes have gone through the same runner
            subst hzx
            have hbegins : r.dispatched ++ [m] <+: s.sender.submitted :=
              hdispatched ▸ (List.prefix_append _ _).trans (hinorder hz r' hr')
            rw [← hself] at hbegins
            refine (hs'.pairwise_casts env hbegins hread).imp fun hall heq => ?_
            obtain ⟨m', hm', hread'⟩ := hall heq
            exact ((hd.arrived z address w hpeer m' ⟨r, hr, hm'⟩ _ hread').resolve_left hw).symm
          · -- the vote is not one of this primary
            refine pairwise_of_forall_not fun u hu heq => hzx ?_
            have hm : m ∈ r'.dispatched ++ r'.incoming := by simp [hdispatched]
            rw [← hself] at hr'
            obtain ⟨v', hv', hread'⟩ := hs'.exists_cast_of_runner env hpeer hr' hm
            rw [hread'] at hread
            cases hread
            rw [← (System.broadcast_of_mem_casts env.digest hs.reachable hu).1, heq]
            exact (System.broadcast_of_mem_casts env.digest hs.reachable hv').1
        · rw [List.mem_append, List.mem_singleton, or_assoc]
          rfl
    · rw [Function.update_of_ne hwy] at hl
      exact hi.channels z w hz hw l hl

/-- The cores and the channels of votes rest, and so do the connections to primaries that run the
code. -/
theorem mono (hsystem : d'.system = d.system) (hdown : d.down ⊆ d'.down)
    (hvotes : ∀ y, (d'.handlers y).txVotes = (d.handlers y).txVotes)
    (hlinks : ∀ x a y, peer com H a = some y → d'.links x a = d.links x a) :
    InSequence com H d' where
  links x a y hpeer hx := by
    rw [hlinks x a y hpeer]
    exact hi.links x a y hpeer fun h => hx (hdown h)
  handled := by
    rw [hsystem]
    exact hi.handled
  channels x y hx hy l hl := by
    rw [hvotes y] at hl
    rw [hsystem] at hy ⊢
    exact hi.channels x y (fun h => hx (hdown h)) hy l hl

theorem effect (hs : Sound P B com H (fun _ _ _ => False) d)
    (env : Setting P B com H H fun _ _ _ => False) (hd : Delivering B com H d) {o : Occurrence}
    (heffect : Effect P B com H d o d') (hx : o.primary ∈ H)
    (hbrought : ∀ v ∈ o.brought B, False) : InSequence com H d' := by
  have hs' := hs.effect env heffect hx hbrought
  have hd' := hd.effect hs env heffect
  cases heffect with
  | @vote x v rest draws hidle hvotes =>
    have hv : d.system.Broadcast v :=
      ((hs.channels x v (hvotes ▸ List.mem_cons_self)).resolve_right id).2
    refine hi.turn hs env hs'.reachable (fun w hw => ?_) fun y l hl => ?_
    · obtain rfl := Option.some.inj hw
      exact hv
    · by_cases hy : y = x
      · subst hy
        rw [Function.update_self] at hl
        refine ⟨v :: l, ?_, fun w => ?_⟩
        · rw [hvotes]
          exact (List.prefix_cons_inj v).mpr hl
        · rw [List.mem_cons]
          constructor
          · rintro (rfl | hw)
            · exact Or.inr ⟨rfl, draws, rfl⟩
            · exact Or.inl hw
          · rintro (hw | ⟨-, _, heq⟩)
            · exact Or.inr hw
            · cases heq
              exact Or.inl rfl
      · rw [Function.update_of_ne hy] at hl
        exact ⟨l, hl, fun w => ⟨Or.inl, fun h => h.resolve_right fun h => hy h.1⟩⟩
  | @batch x txs rest htxs =>
    refine hi.mono rfl subset_rfl ?_ fun _ _ _ _ => rfl
    exact (Function.forall_update_iff d.handlers fun y h =>
      h.txVotes = (d.handlers y).txVotes).mpr ⟨rfl, fun _ _ => rfl⟩
  | @transaction x tx rest draw hidle hbatch =>
    refine hi.turn hs env hs'.reachable (fun w hw => by cases hw) fun y l hl =>
      ⟨l, hl, fun w => ⟨Or.inl, fun h => h.resolve_right ?_⟩⟩
    rintro ⟨-, _, heq⟩
    cases heq
  | @handOver x address bytes s hrunning hframe hsend =>
    refine ⟨fun z a y hpeer hz => ?_, hi.handled, hi.channels⟩
    have hsound := hs'.links z a y hpeer
    have hwaiting := hd'.waiting z a y hpeer hz
    rw [links_setLink] at hsound hwaiting ⊢
    split_ifs at hsound hwaiting ⊢ with hlink
    · obtain ⟨rfl, rfl⟩ := hlink
      have hstep : (d.links z a).step (TxReceiverHandler.messageHandler (Wire.deserialize B))
          (.sender (.send bytes)) = some s := hsend
      exact (hi.links z a y hpeer hz).step hsound hwaiting hstep
    · exact hi.links z a y hpeer hz
  | halt hrunning hframe hpanicked =>
    exact hi.mono rfl (Finset.union_subset_union_right (Finset.subset_insert _ _)) (fun _ => rfl)
      fun _ _ _ _ => rfl
  | link hpermits hhost hstep htakes => exact hi.link hs env hd hpermits hhost hstep
  | @remote x address action o hpermits hhost hstep =>
    refine hi.mono rfl subset_rfl (fun _ => rfl) fun z a y hpeer => ?_
    rw [links_setLink, if_neg]
    rintro ⟨-, rfl⟩
    exact Option.some_ne_none y (hpeer.symm.trans hhost)
  | @foreign y bytes h hdispatch htakes =>
    refine hi.mono rfl subset_rfl (fun z => ?_) fun _ _ _ _ => rfl
    show (Function.update d.handlers y h z).txVotes = _
    by_cases hz : z = y
    · subst hz
      rw [Function.update_self]
      rcases TxReceiverHandler.txVotes_of_dispatch hdispatch with hsame | ⟨v, hread, -⟩
      · exact hsame
      · refine (hbrought v ?_).elim
        rw [Occurrence.brought, hread]
        rfl
    · rw [Function.update_of_ne hz]

end InSequence

theorem inSequence_of_reachable (env : Setting P B com H H fun _ _ _ => False)
    (hreach : (faultless P B com H).Reachable (start com) d) : InSequence com H d :=
  hreach.invariant inSequence_start fun _ _ hr hi hguard =>
    hi.effect (sound_of_reachable env hr) env (delivering_of_reachable env hr)
      (effect_of_step (GuardedMachine.ofStep_next hguard.1)) hguard.2.1 hguard.2.2

/-- **First in, first out.**  If nothing but the program sends votes: what a primary has handled of
the votes of another is always a beginning of what that one has cast, in whatever way connections
break, as long as neither has panicked. -/
theorem exists_handled_eq_take (env : Setting P B com H H fun _ _ _ => False)
    (hreach : (faultless P B com H).Reachable (start com) d) {x y : PublicKey}
    (hx : x ∉ d.down) (hy : y ∉ d.system.stopped) :
    ∃ n, ∀ v ∈ (d.system.nodes x).casts,
      v ∈ (d.system.nodes y).sentVotes ↔ v ∈ (d.system.nodes x).casts.take n := by
  have hinitial := (inSequence_of_reachable env hreach).channels x y hx hy [] List.nil_prefix
  exact Initial.exists_take (hinitial.congr fun v => by simp)

/-- A connection breaks after a frame has gone over it.  The next one carries the frame again, and
its runner is faster than that of the first. -/
def interrupted : List Occurrence :=
  begins 1 false ++ handsOver 1 2 ++ connects 1 2 ++
    between 1 2 [.sender .recv, .sender (.write none), .sender (.write none),
      .sender (.response none), .sender (.connect none), .sender (.write none),
      .sender (.write none), .serve 0, .serve 1] ++ hears 2 ++ handsOver 2 2 ++ hears 2

def afterInterrupted : Deployment String :=
  (faultless Params.source Base64Crate.standard (.ofLocal [1, 2]) both).run
    (start (.ofLocal [1, 2])) interrupted

theorem interrupted_spec :
    (faultless Params.source Base64Crate.standard (.ofLocal [1, 2]) both).Legal
        (start (.ofLocal [1, 2])) interrupted ∧
      ∀ x ∈ both, x ∉ afterInterrupted.down := by
  decide +kernel

theorem reachable_afterInterrupted :
    (faultless Params.source Base64Crate.standard (.ofLocal [1, 2]) both).Reachable
      (start (.ofLocal [1, 2])) afterInterrupted :=
  GuardedMachine.reachable_run interrupted interrupted_spec.1

attribute [local irreducible] afterInterrupted

theorem exists_handled_eq_take_interrupted :
    ∃ n, ∀ v ∈ (afterInterrupted.system.nodes (authority 1)).casts,
      v ∈ (afterInterrupted.system.nodes (authority 2)).sentVotes ↔
        v ∈ (afterInterrupted.system.nodes (authority 1)).casts.take n :=
  exists_handled_eq_take (setting_faultless Params.source_injective
      Base64Crate.standard_roundTrips Wire.standard_short (by decide +kernel))
    reachable_afterInterrupted (interrupted_spec.2 (authority 1) (by decide +kernel))
    (notMem_stopped (interrupted_spec.2 (authority 2) (by decide +kernel)))

end Deployment
end NeroConsensus
