import NeroConsensus.Deployment.Delivery
import NeroConsensus.Foundations.Measure

/-!
# Where the primaries get stuck

The channels of a primary are bounded, and everybody waits for room in them: a core that hands over
a frame waits for the connection, the connection for the network, the network for a runner, and the
runner for the core, which takes nothing from its channels before all its frames are handed over.
So primaries can wait for each other in a circle, or for somebody who does not read what they
write.  There is no other way to get stuck (`quiet_or_circle`): where nothing is due any more
(`Stalled`), and no connection waits for the network in such a way (`Deadlocked`), everything has
been delivered.

What the network takes is left open.  All that is said of it is that it takes a frame where nothing
is unread on the way to a primary (`Conveying`).  If it takes whatever is written, nobody waits for
it (`not_deadlocked_of_room`).
-/

namespace NeroConsensus

/-! ## Connections -/

namespace Outgoing

variable {o o' : Outgoing}

/-- A connection that waits for something to happen has nothing left to write. -/
def Drained (o : Outgoing) : Prop :=
  ∀ s, o.connection.phase = .selecting s → o.connection.buffer = []

theorem drained_spawn (address : SocketAddr) : (spawn address).Drained :=
  nofun

theorem Drained.step (hd : o.Drained) {a : Action} (h : o.step a = some o') : o'.Drained := by
  unfold Outgoing.step at h
  cases a with
  | send data =>
    dsimp only at h
    unfold send at h
    split_ifs at h
    obtain rfl := Option.some.inj h
    exact hd
  | cancel i =>
    dsimp only at h
    unfold cancel at h
    split_ifs at h
    obtain rfl := Option.some.inj h
    exact hd
  | connect outcome =>
    dsimp only at h
    unfold connect at h
    dsimp only at h
    split at h
    case h_1 => cases outcome <;> obtain rfl := Option.some.inj h <;> exact nofun
    case h_2 => cases h
  | timer =>
    intro s hs
    rcases phase_of_timer h with hphase | hphase <;>
    · rw [hs] at hphase
      cases hphase
  | recv =>
    dsimp only at h
    unfold recv at h
    dsimp only at h
    split at h
    case h_1 hphase hreceiver =>
      obtain rfl := Option.some.inj h
      intro s hs
      exact absurd (hphase.symm.trans hs) nofun
    case h_2 =>
      obtain rfl := Option.some.inj h
      exact nofun
    case h_3 => cases h
  | write outcome =>
    dsimp only at h
    unfold write at h
    dsimp only at h
    split at h
    case h_1 hbuffer =>
      obtain rfl := Option.some.inj h
      exact fun _ _ => hbuffer
    case h_2 hphase hbuffer =>
      split_ifs at h
      · obtain rfl := Option.some.inj h
        intro s hs
        exact absurd (hphase.symm.trans hs) nofun
      · cases outcome <;> obtain rfl := Option.some.inj h <;> exact nofun
    case h_3 => cases h
  | response r =>
    dsimp only at h
    unfold response at h
    dsimp only at h
    split at h
    case h_1 =>
      split at h
      · obtain rfl := Option.some.inj h
        exact nofun
      · split at h <;> obtain rfl := Option.some.inj h <;> exact nofun
    case h_2 => cases h

/-- A connection that cannot go on is established, and its channel is empty. -/
theorem selecting_of_stalled (hrunning : o.connection.phase ≠ .panicked)
    (hconnect : o.step (.connect none) = none) (htimer : o.step .timer = none)
    (hrecv : o.step .recv = none) (hwrite : o.step (.write none) = none) :
    (∃ s, o.connection.phase = .selecting s) ∧ o.connection.receiver = [] := by
  simp only [step] at hconnect htimer hrecv hwrite
  cases hphase : o.connection.phase with
  | connecting => simp [connect, hphase] at hconnect
  | waiting =>
    simp only [timer, hphase] at htimer
    split_ifs at htimer
  | draining s =>
    cases hbuffer : o.connection.buffer with
    | nil => simp [write, hphase, hbuffer] at hwrite
    | cons m rest =>
      simp only [write, hphase, hbuffer] at hwrite
      split_ifs at hwrite
  | selecting s =>
    refine ⟨⟨s, rfl⟩, ?_⟩
    cases hreceiver : o.connection.receiver with
    | nil => rfl
    | cons m rest => simp [recv, hphase, hreceiver] at hrecv
  | panicked => exact absurd hphase hrunning

/-- A connection whose channel is full can go on, once its attempt to connect has ended. -/
theorem room_of_stalled (hrunning : o.connection.phase ≠ .panicked)
    (hconnect : 1000 ≤ o.connection.receiver.length →
      ∃ outcome, o.step (.connect outcome) = none) (hrecv : o.step .recv = none)
    (hwrite : o.step (.write none) = none) : o.connection.receiver.length < 1000 := by
  by_contra hfull
  obtain ⟨outcome, hconnect⟩ := hconnect (not_lt.mp hfull)
  simp only [step] at hconnect hrecv hwrite
  obtain ⟨m, rest, hreceiver⟩ := List.exists_cons_of_ne_nil (l := o.connection.receiver) <| by
    rintro hnil
    simp [hnil] at hfull
  cases hphase : o.connection.phase with
  | connecting => cases outcome <;> simp [connect, hphase] at hconnect
  | waiting => simp [recv, hphase, hreceiver] at hrecv
  | draining s =>
    cases hbuffer : o.connection.buffer with
    | nil => simp [write, hphase, hbuffer] at hwrite
    | cons m rest =>
      simp only [write, hphase, hbuffer] at hwrite
      split_ifs at hwrite
  | selecting s => simp [recv, hphase, hreceiver] at hrecv
  | panicked => exact absurd hphase hrunning

/-- The task awaits a write. -/
def Writing (o : Outgoing) : Prop :=
  (∃ s, o.connection.phase = .draining s) ∧
    ∃ m ∈ o.connection.buffer.head?, (o.oneshots m.cancelHandler).isClosed = false

/-- Once the network lets it, it goes on. -/
theorem Writing.step_ne_none (hw : o.Writing) : o.step (.write none) ≠ none := by
  obtain ⟨⟨s, hphase⟩, m, hm, hopen⟩ := hw
  obtain ⟨rest, hbuffer⟩ := List.head?_eq_some_iff.mp hm
  simp [step, write, hphase, hbuffer, hopen]

/-- A connection whose other end is gone notices it, as soon as it reads or writes. -/
theorem not_up_of_stalled {e : IoError} (hwrite : o.step (.write (some e)) = none)
    (hresponse : o.step (.response none) = none) : ¬o.connection.phase.up = true := by
  simp only [step] at hwrite hresponse
  intro hup
  cases hphase : o.connection.phase with
  | connecting => simp [hphase, Phase.up] at hup
  | waiting => simp [hphase, Phase.up] at hup
  | draining s =>
    cases hbuffer : o.connection.buffer with
    | nil => simp [write, hphase, hbuffer] at hwrite
    | cons m rest =>
      simp only [write, hphase, hbuffer] at hwrite
      split_ifs at hwrite
  | selecting s =>
    simp only [response, hphase] at hresponse
    split at hresponse <;> cases hresponse
  | panicked => simp [hphase, Phase.up] at hup

end Outgoing

namespace Session

universe u v

variable {H : Type u} {ε : Type v} {s : Session H ε} {handler : MessageHandler H ε}

/-- The runners never keep the sender from a step, unless it reads a frame. -/
theorem step_eq_none {a : Action} (hframe : ∀ b, a ≠ .response (some (.ok b)))
    (h : s.send a = none) : s.sender.step a = none := by
  by_contra hstep
  obtain ⟨o, ho⟩ := Option.ne_none_iff_exists'.mp hstep
  rw [send, ho, Option.bind_some] at h
  split at h
  · cases h
  · cases h
  · exact absurd rfl (hframe _)
  · exact absurd rfl (hframe _)
  · cases h

end Session

/-- A runner that has a frame gives it to the handler. -/
theorem Runner.exists_serve {H : Type*} {ε : Type*} (handler : MessageHandler H ε) (h : H)
    {r : Runner ε} (hrunning : r.running = true) (hincoming : r.incoming ≠ []) :
    ∃ h' r', r.serve handler h = some (h', r') ∧
      (h' = h ∨ ∃ bytes, (handler.dispatch h bytes).1 = .ok h') := by
  obtain ⟨m, rest, hcons⟩ := List.exists_cons_of_ne_nil hincoming
  unfold serve
  rw [hrunning, hcons]
  cases hresult : (handler.dispatch h m.data).1 with
  | ok h' => exact ⟨h', _, by simp only [hresult]; rfl, Or.inr ⟨m.data, hresult⟩⟩
  | error e => exact ⟨h, _, by simp only [hresult]; rfl, Or.inl rfl⟩

/-- A frame takes one place at most. -/
theorem TxReceiverHandler.length_le_of_dispatch {κ : Type}
    {deserialize : Bytes → Except κ PrimaryMessage} {h h' : TxReceiverHandler} {bytes : Bytes}
    (hok : (dispatch deserialize h bytes).1 = .ok h') :
    h'.txVotes.length ≤ h.txVotes.length + 1 ∧
      h'.txTransactions.length ≤ h.txTransactions.length + 1 := by
  unfold dispatch at hok
  split at hok
  · cases hok
  · rw [← Except.ok.inj hok]
    simp
  · rw [← Except.ok.inj hok]
    simp
  · rw [← Except.ok.inj hok]
    simp

namespace Deployment

variable {P : Params} {ε : Type} {B : Base64Crate ε} {com : Config.Committee}
  {H M : Finset PublicKey} {admits : System → PublicKey → PrimaryVote → Prop}
  {d d' : Deployment ε}

/-! ## What is due -/

/-- Whether the network takes another frame of a connection. -/
abbrev Room (ε : Type) :=
  Deployment ε → PublicKey → SocketAddr → Prop

variable {room : Room ε}

/-- A connection waits for the network. -/
def Blocked (room : Room ε) (d : Deployment ε) (x : PublicKey) (a : SocketAddr) : Prop :=
  (d.links x a).sender.Writing ∧ ¬room d x a

/-- What the primaries, and a network that works, bring about by themselves: all that a core does,
and what its connections to the authorities do.  An attempt to connect to a primary that runs
succeeds, any other ends at some time.  A write ends where the network takes the frame.  Where a
primary has closed a connection, this is noticed. -/
inductive Due (com : Config.Committee) (H : Finset PublicKey) (room : Room ε)
    (d : Deployment ε) : Occurrence → Prop
  | vote (x : PublicKey) (draws : Draws) : Due com H room d (.vote x draws)
  | batch (x : PublicKey) : Due com H room d (.batch x)
  | transaction (x : PublicKey) (draw : Bool) : Due com H room d (.transaction x draw)
  | handOver (x : PublicKey) : Due com H room d (.handOver x)
  | recv {x : PublicKey} {a : SocketAddr} (ha : a ∈ (com.primaryAddresses x).map Prod.snd) :
      Due com H room d (.link x a (.sender .recv))
  | write {x : PublicKey} {a : SocketAddr} (ha : a ∈ (com.primaryAddresses x).map Prod.snd)
      (hfree : ¬d.Blocked room x a) : Due com H room d (.link x a (.sender (.write none)))
  | refuse {x : PublicKey} {a : SocketAddr} (e : IoError)
      (ha : a ∈ (com.primaryAddresses x).map Prod.snd) (hother : peer com H a = none)
      (hfull : 1000 ≤ (d.links x a).sender.connection.receiver.length) :
      Due com H room d (.link x a (.sender (.connect (some e))))
  | connect {x : PublicKey} {a : SocketAddr} (ha : a ∈ (com.primaryAddresses x).map Prod.snd)
      (hpeer : (peer com H a).isSome = true) :
      Due com H room d (.link x a (.sender (.connect none)))
  | timer {x : PublicKey} {a : SocketAddr} (ha : a ∈ (com.primaryAddresses x).map Prod.snd)
      (hpeer : (peer com H a).isSome = true) : Due com H room d (.link x a (.sender .timer))
  | serve {x : PublicKey} {a : SocketAddr} (ha : a ∈ (com.primaryAddresses x).map Prod.snd)
      (hpeer : (peer com H a).isSome = true) : Due com H room d (.link x a (.serve 0))
  | response {x : PublicKey} {a : SocketAddr} (ha : a ∈ (com.primaryAddresses x).map Prod.snd)
      (hpeer : (peer com H a).isSome = true)
      (hreturned : ∀ r ∈ (d.links x a).runners.head?, r.running = false) :
      Due com H room d (.link x a (.sender (.response none)))
  | abort {x : PublicKey} {a : SocketAddr} (e : IoError)
      (ha : a ∈ (com.primaryAddresses x).map Prod.snd) (hpeer : (peer com H a).isSome = true)
      (hreturned : ∀ r ∈ (d.links x a).runners.head?, r.running = false) :
      Due com H room d (.link x a (.sender (.write (some e))))

/-- Nothing that is due can happen. -/
def Stalled (P : Params) (B : Base64Crate ε) (com : Config.Committee) (H : Finset PublicKey)
    (room : Room ε) (d : Deployment ε) : Prop :=
  ∀ ⦃o⦄, Due com H room d o → o.primary ∈ H → d.step P B com H o = none

/-! ### Deadlocks -/

/-- The network takes a frame for a primary that has read all that came before. -/
def Conveying (com : Config.Committee) (H : Finset PublicKey) (room : Room ε) : Prop :=
  ∀ d x a y, peer com H a = some y → (∀ r ∈ (d.links x a).runners.head?, r.incoming = []) →
    room d x a

/-- A primary has a connection to another that waits for the network. -/
def Waits (com : Config.Committee) (H : Finset PublicKey) (room : Room ε) (d : Deployment ε)
    (x y : PublicKey) : Prop :=
  ∃ a ∈ (com.primaryAddresses x).map Prod.snd, peer com H a = some y ∧ d.Blocked room x a

/-- Primaries wait for each other in a circle, or one waits for somebody who does not run the
code. -/
def Deadlocked (com : Config.Committee) (H : Finset PublicKey) (room : Room ε)
    (d : Deployment ε) : Prop :=
  (∃ x ∈ H, Relation.TransGen (d.Waits com H room) x x) ∨
    ∃ x ∈ H, ∃ a ∈ (com.primaryAddresses x).map Prod.snd,
      peer com H a = none ∧ d.Blocked room x a

theorem Deadlocked.exists_blocked (h : d.Deadlocked com H room) :
    ∃ x ∈ H, ∃ a ∈ (com.primaryAddresses x).map Prod.snd, d.Blocked room x a := by
  rcases h with ⟨x, hx, hcircle⟩ | ⟨x, hx, a, ha, -, hblocked⟩
  · obtain ⟨y, ⟨a, ha, -, hblocked⟩, -⟩ := Relation.TransGen.head'_iff.mp hcircle
    exact ⟨x, hx, a, ha, hblocked⟩
  · exact ⟨x, hx, a, ha, hblocked⟩

/-- A network that takes whatever is written lets nobody wait. -/
theorem not_deadlocked_of_room (htakes : ∀ d x a, room d x a) : ¬d.Deadlocked com H room := by
  intro hdeadlocked
  obtain ⟨x, -, a, -, -, hfull⟩ := hdeadlocked.exists_blocked
  exact hfull (htakes d x a)

/-! ## The senders of the connections -/

theorem drained_of_reachable (hreach : (machine P B com H admits).Reachable (start com) d) :
    ∀ x a, (d.links x a).sender.Drained := by
  have hstep : ∀ {o} {d d' : Deployment ε}, Effect P B com H d o d' →
      (∀ x a, (d.links x a).sender.Drained) → ∀ x a, (d'.links x a).sender.Drained := by
    intro o d d' heffect hd x a
    rcases sender_of_effect heffect x a with hsame | ⟨action, hstep, -⟩
    · rw [hsame]
      exact hd x a
    · exact (hd x a).step hstep
  exact hreach.invariant (fun _ a => Outgoing.drained_spawn a) fun _ _ _ hd hguard =>
    hstep (effect_of_step (GuardedMachine.ofStep_next hguard.1)) hd

/-- What keeps a connection from a step of its own is its sender. -/
theorem step_eq_none_of_stepLink {x : PublicKey} {a : SocketAddr} {action : Action}
    (hpermits : d.Permits x (.sender action)) (hframe : ∀ b, action ≠ .response (some (.ok b)))
    (h : d.stepLink B com H x a (.sender action) = none) :
    (d.links x a).sender.step action = none := by
  unfold stepLink at h
  rw [if_pos hpermits] at h
  split at h
  · rename_i y hpeer
    refine Session.step_eq_none (s := { d.links x a with handler := d.handlers y }) hframe ?_
    by_contra hsend
    obtain ⟨s, hs⟩ := Option.ne_none_iff_exists'.mp hsend
    have hstep : ({ d.links x a with handler := d.handlers y } :
        Session TxReceiverHandler (DagError (WireError ε))).step
          (TxReceiverHandler.messageHandler (Wire.deserialize B)) (.sender action) = some s := hs
    have htakes : d.Takes y s.handler := Or.inl (Session.dispatched_of_send hs).1
    rw [hstep, Option.bind_some, if_pos htakes] at h
    cases h
  · exact Option.map_eq_none_iff.mp h

/-! ## Stalled deployments -/

namespace Stalled

variable (hstalled : Stalled P B com H room d)

include hstalled

/-- There is room for another message in every connection that does not wait for the network. -/
theorem length_lt {x : PublicKey} (hx : x ∈ H) {a : SocketAddr}
    (ha : a ∈ (com.primaryAddresses x).map Prod.snd) (hfree : ¬d.Blocked room x a)
    (halive : (d.links x a).sender.connection.phase ≠ .panicked) :
    (d.links x a).sender.connection.receiver.length < 1000 := by
  refine Outgoing.room_of_stalled halive (fun hfull => ?_) ?_ ?_
  · cases hpeer : peer com H a with
    | none =>
      exact ⟨some ⟨""⟩,
        step_eq_none_of_stepLink trivial nofun (hstalled (.refuse _ ha hpeer hfull) hx)⟩
    | some y =>
      have hsome : (peer com H a).isSome = true := by rw [hpeer]; rfl
      exact ⟨none, step_eq_none_of_stepLink trivial nofun (hstalled (.connect ha hsome) hx)⟩
  · exact step_eq_none_of_stepLink trivial nofun (hstalled (.recv ha) hx)
  · exact step_eq_none_of_stepLink trivial nofun (hstalled (.write ha hfree) hx)

/-- All frames are handed over. -/
theorem handed_eq {x : PublicKey} (hx : x ∈ H) (hrunning : x ∉ d.down)
    (hfree : ∀ a ∈ (com.primaryAddresses x).map Prod.snd, ¬d.Blocked room x a)
    (hs : Sound P B com H admits d) :
    d.handed x = ((d.system.nodes x).frames B).length := by
  refine le_antisymm (hs.handed x) (not_lt.mp fun hlt => ?_)
  obtain ⟨⟨a, bytes⟩, hframe⟩ : ∃ frame, ((d.system.nodes x).frames B)[d.handed x]? = some frame :=
    ⟨_, List.getElem?_eq_getElem hlt⟩
  have ha : a ∈ (com.primaryAddresses x).map Prod.snd :=
    ((System.addressed_node hs.reachable x).mem_frames.mp (List.mem_of_getElem? hframe)).1
  have hnone : d.handOver B x = none := hstalled (.handOver x) hx
  rw [handOver, if_pos hrunning, hframe] at hnone
  dsimp only at hnone
  split_ifs at hnone with hpanicked
  have hsend : (d.links x a).sender.step (.send bytes) = none :=
    Session.step_eq_none nofun (Option.map_eq_none_iff.mp hnone)
  simp only [Outgoing.step, Outgoing.send] at hsend
  rw [if_pos ⟨hpanicked, hstalled.length_lt hx ha (hfree a ha) hpanicked⟩] at hsend
  cases hsend

/-- The core has nothing left to do. -/
theorem channels_eq_nil {x : PublicKey} (hx : x ∈ H) (hrunning : x ∉ d.down)
    (hfree : ∀ a ∈ (com.primaryAddresses x).map Prod.snd, ¬d.Blocked room x a)
    (hs : Sound P B com H admits d) :
    d.batches x = [] ∧ (d.handlers x).txVotes = [] ∧ (d.handlers x).txTransactions = [] := by
  have hidle : d.Idle B x := ⟨hrunning, hstalled.handed_eq hx hrunning hfree hs⟩
  have hbatches : d.batches x = [] := by
    have hnone : d.takeTransaction P B x false = none := hstalled (.transaction x false) hx
    unfold takeTransaction at hnone
    split at hnone
    · rw [if_pos hidle] at hnone
      cases hnone
    · assumption
  refine ⟨hbatches, ?_, ?_⟩
  · have hnone : d.takeVote P B x (Draws.of false) = none := hstalled (.vote x _) hx
    unfold takeVote at hnone
    split at hnone
    · rw [if_pos ⟨hidle, hbatches⟩] at hnone
      cases hnone
    · assumption
  · have hnone : d.takeBatch B x = none := hstalled (.batch x) hx
    unfold takeBatch at hnone
    split at hnone
    · rw [if_pos ⟨hidle, hbatches⟩] at hnone
      cases hnone
    · assumption

/-- The newest runner of a connection that is up is there. -/
theorem running_of_up {x : PublicKey} (hx : x ∈ H) {a : SocketAddr}
    (ha : a ∈ (com.primaryAddresses x).map Prod.snd) (hpeer : (peer com H a).isSome = true)
    (hup : (d.links x a).sender.connection.phase.up = true)
    {r : Runner (DagError (WireError ε))} (hr : r ∈ (d.links x a).runners.head?) :
    r.running = true := by
  by_contra hreturned
  have hreturned : ∀ r' ∈ (d.links x a).runners.head?, r'.running = false := fun r' hr' => by
    rw [Option.mem_unique hr' hr]
    exact Bool.not_eq_true _ ▸ hreturned
  exact @Outgoing.not_up_of_stalled _ ⟨""⟩
    (step_eq_none_of_stepLink trivial nofun (hstalled (.abort _ ha hpeer hreturned) hx))
    (step_eq_none_of_stepLink trivial nofun (hstalled (.response ha hpeer hreturned) hx)) hup

/-- It has given all its frames to the handler, where the channels are empty. -/
theorem incoming_eq_nil {x y : PublicKey} (hx : x ∈ H) {a : SocketAddr}
    (ha : a ∈ (com.primaryAddresses x).map Prod.snd) (hpeer : peer com H a = some y)
    (hrunning : y ∉ d.down) (hvotes : (d.handlers y).txVotes = [])
    (htransactions : (d.handlers y).txTransactions = [])
    (hup : (d.links x a).sender.connection.phase.up = true) :
    ∀ r ∈ (d.links x a).runners.head?, r.incoming = [] := by
  intro r hr
  have hsome : (peer com H a).isSome = true := by rw [hpeer]; rfl
  have hrunner := hstalled.running_of_up hx ha hsome hup hr
  by_contra hincoming
  obtain ⟨h', r', hserve, hcases⟩ := Runner.exists_serve
    (TxReceiverHandler.messageHandler (Wire.deserialize B)) (d.handlers y) hrunner hincoming
  have htakes : d.Takes y h' := by
    rcases hcases with rfl | ⟨bytes, hok⟩
    · exact Or.inl rfl
    · obtain ⟨hvotes', htransactions'⟩ := TxReceiverHandler.length_le_of_dispatch hok
      rw [hvotes] at hvotes'
      rw [htransactions] at htransactions'
      exact Or.inr ⟨hrunning, hvotes'.trans (by decide), htransactions'.trans (by decide)⟩
  have hstep : ({ d.links x a with handler := d.handlers y } :
      Session TxReceiverHandler (DagError (WireError ε))).step
        (TxReceiverHandler.messageHandler (Wire.deserialize B)) (.serve 0) =
      some { d.links x a with runners := (d.links x a).runners.set 0 r', handler := h' } := by
    have hr : (d.links x a).runners[0]? = some r := by rw [← List.head?_eq_getElem?]; exact hr
    rw [Session.step, Session.serve, hr, Option.bind_some, hserve]
    rfl
  have hnone : d.stepLink B com H x a (.serve 0) = none := hstalled (.serve ha hsome) hx
  have hpermits : d.Permits x (.serve 0) := trivial
  unfold stepLink at hnone
  rw [if_pos hpermits, show (com.host a).filter (· ∈ H) = some y from hpeer] at hnone
  simp only [hstep, Option.bind_some] at hnone
  rw [if_pos htakes] at hnone
  cases hnone

/-- A primary for which another one waits has a connection that waits itself. -/
theorem exists_blocked (hs : Sound P B com H admits d) (hroom : Conveying com H room)
    (hrunning : ∀ x ∈ H, x ∉ d.down) {x y : PublicKey} (hx : x ∈ H)
    (hwaits : d.Waits com H room x y) :
    y ∈ H ∧ ∃ b ∈ (com.primaryAddresses y).map Prod.snd, d.Blocked room y b := by
  obtain ⟨a, ha, hpeer, ⟨⟨s, hphase⟩, -⟩, hfull⟩ := hwaits
  have hy : y ∈ H := of_decide_eq_true (Option.filter_eq_some_iff.mp hpeer).2
  refine ⟨hy, ?_⟩
  by_contra hfree
  obtain ⟨-, hvotes, htransactions⟩ := hstalled.channels_eq_nil hy (hrunning y hy)
    (fun b hb hblocked => hfree ⟨b, hb, hblocked⟩) hs
  refine hfull (hroom d x a y hpeer ?_)
  exact hstalled.incoming_eq_nil hx ha hpeer (hrunning y hy) hvotes htransactions
    (by rw [hphase]; rfl)

/-- Where no connection waits for the network, everything has arrived. -/
theorem quiet (hs : Sound P B com H admits d) (hdrained : ∀ x a, (d.links x a).sender.Drained)
    (hrunning : ∀ x ∈ H, x ∉ d.down)
    (halive : ∀ x ∈ H, ∀ a ∈ (com.primaryAddresses x).map Prod.snd,
      (peer com H a).isSome = true → (d.links x a).sender.connection.phase ≠ .panicked)
    (hfree : ∀ x ∈ H, ∀ a ∈ (com.primaryAddresses x).map Prod.snd, ¬d.Blocked room x a) :
    d.Quiet B com H ∧ ∀ x ∈ H, d.batches x = [] ∧ (d.handlers x).txTransactions = [] := by
  have hchannels := fun x hx => hstalled.channels_eq_nil hx (hrunning x hx) (hfree x hx) hs
  refine ⟨⟨fun x hx => hstalled.handed_eq hx (hrunning x hx) (hfree x hx) hs,
    fun x hx a ha hpeer => ?_, fun y hy => (hchannels y hy).2.1⟩,
    fun x hx => ⟨(hchannels x hx).1, (hchannels x hx).2.2⟩⟩
  have hnone : ∀ {action}, (∀ b, action ≠ .response (some (.ok b))) →
      d.Permits x (.sender action) → Due com H room d (.link x a (.sender action)) →
        (d.links x a).sender.step action = none := fun hframe hpermits hdue =>
    step_eq_none_of_stepLink hpermits hframe (hstalled hdue hx)
  obtain ⟨⟨s, hphase⟩, hreceiver⟩ := Outgoing.selecting_of_stalled (halive x hx a ha hpeer)
    (hnone nofun trivial (.connect ha hpeer)) (hnone nofun trivial (.timer ha hpeer))
    (hnone nofun trivial (.recv ha)) (hnone nofun trivial (.write ha (hfree x hx a ha)))
  obtain ⟨y, hy⟩ := Option.isSome_iff_exists.mp hpeer
  have hmem : y ∈ H := of_decide_eq_true (Option.filter_eq_some_iff.mp hy).2
  exact ⟨halive x hx a ha hpeer, hdrained x a s hphase, hreceiver,
    hstalled.incoming_eq_nil hx ha hy (hrunning y hmem) (hchannels y hmem).2.1
      (hchannels y hmem).2.2 (by rw [hphase]; rfl)⟩

/-- Otherwise whoever waits does so for a primary that waits too, or for somebody else. -/
theorem quiet_or_deadlocked (hs : Sound P B com H admits d)
    (hdrained : ∀ x a, (d.links x a).sender.Drained) (hroom : Conveying com H room)
    (hrunning : ∀ x ∈ H, x ∉ d.down)
    (halive : ∀ x ∈ H, ∀ a ∈ (com.primaryAddresses x).map Prod.snd,
      (peer com H a).isSome = true → (d.links x a).sender.connection.phase ≠ .panicked) :
    (d.Quiet B com H ∧ ∀ x ∈ H, d.batches x = [] ∧ (d.handlers x).txTransactions = []) ∨
      d.Deadlocked com H room := by
  classical
  by_cases hfree : ∀ x ∈ H, ∀ a ∈ (com.primaryAddresses x).map Prod.snd, ¬d.Blocked room x a
  · exact Or.inl (hstalled.quiet hs hdrained hrunning halive hfree)
  refine Or.inr ?_
  by_cases houtside : ∃ x ∈ H, ∃ a ∈ (com.primaryAddresses x).map Prod.snd,
      peer com H a = none ∧ d.Blocked room x a
  · exact Or.inr houtside
  let waiting := H.filter fun x => ∃ a ∈ (com.primaryAddresses x).map Prod.snd, d.Blocked room x a
  have hnext : ∀ x ∈ waiting, ∃ y ∈ waiting, d.Waits com H room x y := by
    intro x hx
    obtain ⟨hx, a, ha, hblocked⟩ := Finset.mem_filter.mp hx
    obtain ⟨y, hy⟩ := Option.ne_none_iff_exists'.mp fun hnone =>
      houtside ⟨x, hx, a, ha, hnone, hblocked⟩
    have hwaits : d.Waits com H room x y := ⟨a, ha, hy, hblocked⟩
    exact ⟨y, Finset.mem_filter.mpr (hstalled.exists_blocked hs hroom hrunning hx hwaits), hwaits⟩
  have hsome : waiting.Nonempty := by
    push Not at hfree
    obtain ⟨x, hx, hblocked⟩ := hfree
    exact ⟨x, Finset.mem_filter.mpr ⟨hx, hblocked⟩⟩
  obtain ⟨x, hx, hcircle⟩ := exists_circle hsome hnext
  exact Or.inl ⟨x, (Finset.mem_filter.mp hx).1, hcircle⟩

end Stalled

/-- **Nothing else gets stuck.**  Where the primaries run, the tasks of their connections too, and
nothing that is due can happen: all that was on the way has arrived, unless primaries wait for each
other in a circle, each for the network between it and the next, or one of them waits so for
somebody who does not run the code. -/
theorem quiet_or_circle (env : Setting P B com H M admits)
    (hreach : (machine P B com H admits).Reachable (start com) d)
    (hroom : Conveying com H room) (hrunning : ∀ x ∈ H, x ∉ d.down)
    (halive : ∀ x ∈ H, ∀ a ∈ (com.primaryAddresses x).map Prod.snd,
      (peer com H a).isSome = true → (d.links x a).sender.connection.phase ≠ .panicked)
    (hstalled : d.Stalled P B com H room) :
    (d.Quiet B com H ∧ ∀ x ∈ H, d.batches x = [] ∧ (d.handlers x).txTransactions = []) ∨
      d.Deadlocked com H room :=
  hstalled.quiet_or_deadlocked (sound_of_reachable env hreach) (drained_of_reachable hreach) hroom
    hrunning halive

/-! ### Where everything has arrived -/

/-- A network that takes one frame after the other. -/
def oneByOne : Room ε :=
  fun d x a => ∀ r ∈ (d.links x a).runners.head?, r.incoming = []

theorem conveying_oneByOne : Conveying com H (oneByOne : Room ε) :=
  fun _ _ _ _ _ hread => hread

/-- What is left when two authorities have exchanged their first votes. -/
theorem introduced_rests :
    (∀ x ∈ both, (afterIntroduced.handlers x).txVotes = [] ∧
      (afterIntroduced.handlers x).txTransactions = [] ∧ afterIntroduced.batches x = [] ∧
      (afterIntroduced.handOver Base64Crate.standard x).isNone = true) ∧
    ∀ x ∈ both, ∀ a ∈ ((Config.Committee.ofLocal [1, 2]).primaryAddresses x).map Prod.snd,
      (afterIntroduced.links x a).sender.connection.phase ≠ .panicked ∧
      (afterIntroduced.links x a).sender.connection.receiver.length < 1000 ∧
      (afterIntroduced.links x a).runners.head?.map Runner.running = some true ∧
      ([.sender .recv, .sender (.write none), .sender (.connect none), .sender .timer,
        .serve 0] : List SessionEvent).all fun e =>
          (afterIntroduced.stepLink Base64Crate.standard (.ofLocal [1, 2]) both x a e).isNone := by
  decide +kernel

attribute [local irreducible] afterIntroduced

theorem rests_afterIntroduced {x : PublicKey} {a : SocketAddr} {e : SessionEvent} (hx : x ∈ both)
    (ha : a ∈ ((Config.Committee.ofLocal [1, 2]).primaryAddresses x).map Prod.snd)
    (he : e ∈ ([.sender .recv, .sender (.write none), .sender (.connect none), .sender .timer,
      .serve 0] : List SessionEvent)) :
    afterIntroduced.stepLink Base64Crate.standard (.ofLocal [1, 2]) both x a e = none :=
  Option.isNone_iff_eq_none.mp
    (List.all_eq_true.mp (introduced_rests.2 x hx a ha).2.2.2 _ he)

theorem stalled_afterIntroduced (room : Room String) :
    afterIntroduced.Stalled Params.source Base64Crate.standard (.ofLocal [1, 2]) both room := by
  obtain ⟨hcores, hlinks⟩ := introduced_rests
  have hattended : ∀ {x a}, x ∈ both →
      a ∈ ((Config.Committee.ofLocal [1, 2]).primaryAddresses x).map Prod.snd →
      ¬∀ r ∈ (afterIntroduced.links x a).runners.head?, r.running = false := by
    intro x a hx ha hreturned
    obtain ⟨r, hr, hrunning⟩ := Option.map_eq_some_iff.mp (hlinks _ hx _ ha).2.2.1
    rw [hreturned r hr] at hrunning
    cases hrunning
  intro o hdue hx
  cases hdue with
  | vote x draws =>
    show afterIntroduced.takeVote _ _ _ _ = none
    rw [takeVote, (hcores x hx).1]
  | batch x =>
    show afterIntroduced.takeBatch _ _ = none
    rw [takeBatch, (hcores x hx).2.1]
  | transaction x draw =>
    show afterIntroduced.takeTransaction _ _ _ _ = none
    rw [takeTransaction, (hcores x hx).2.2.1]
  | handOver x => exact Option.isNone_iff_eq_none.mp (hcores x hx).2.2.2
  | recv ha => exact rests_afterIntroduced hx ha (by simp)
  | write ha hfree => exact rests_afterIntroduced hx ha (by simp)
  | refuse e ha hother hfull => exact absurd hfull (not_le.mpr (hlinks _ hx _ ha).2.1)
  | connect ha hpeer => exact rests_afterIntroduced hx ha (by simp)
  | timer ha hpeer => exact rests_afterIntroduced hx ha (by simp)
  | serve ha hpeer => exact rests_afterIntroduced hx ha (by simp)
  | response ha hpeer hreturned => exact absurd hreturned (hattended hx ha)
  | abort e ha hpeer hreturned => exact absurd hreturned (hattended hx ha)

theorem not_deadlocked_afterIntroduced (room : Room String) :
    ¬afterIntroduced.Deadlocked (.ofLocal [1, 2]) both room := by
  intro hdeadlocked
  obtain ⟨x, hx, a, ha, hwriting, -⟩ := hdeadlocked.exists_blocked
  exact hwriting.step_ne_none
    (step_eq_none_of_stepLink trivial nofun (rests_afterIntroduced hx ha (by simp)))

theorem quiet_or_circle_introduced :
    afterIntroduced.Quiet Base64Crate.standard (.ofLocal [1, 2]) both ∧
      ∀ x ∈ both, afterIntroduced.batches x = [] ∧
        (afterIntroduced.handlers x).txTransactions = [] :=
  (quiet_or_circle (setting_faultless Params.source_injective Base64Crate.standard_roundTrips
      Wire.standard_short (by decide +kernel)) reachable_afterIntroduced conveying_oneByOne
    introduced_spec.2.1 (fun x hx a ha _ => (introduced_rests.2 x hx a ha).1)
    (stalled_afterIntroduced oneByOne)).resolve_right (not_deadlocked_afterIntroduced oneByOne)

end Deployment
end NeroConsensus
