import NeroConsensus.Network.Receiver
import NeroConsensus.Network.Retransmission

/-!
# Who acknowledges

The reliable sender takes every frame that comes back as the ACK of the first pending message,
so what it knows of its messages depends on how many frames the handler at the other end writes
for each.  `RepliesWith n` is that this number is always `n`, and `Session.Sound` what follows
from it in every state of a session.

* `Session.agreed_of_repliesWith_one`: with one frame for each message the two ends agree
  whenever nothing is on the way.  The handler of the tests of the receiver is of this kind.
* `TxReceiverHandler.agreed_iff`: the handler of the primary never writes a frame, and the two
  ends agree only where there is nothing to agree on.
-/

namespace NeroConsensus

universe u v

variable {H : Type u} {ε : Type v}

/-- The handler writes `n` frames for each message. -/
def RepliesWith (n : ℕ) (handler : MessageHandler H ε) : Prop :=
  ∀ h bytes, (handler.dispatch h bytes).2.length = n

/-- What a turn of the loop of a runner does to the frames. -/
theorem Runner.serve_spec {handler : MessageHandler H ε} {h h' : H} {r r' : Runner ε}
    (hserve : r.serve handler h = some (h', r')) :
    r'.dispatched ++ r'.incoming = r.dispatched ++ r.incoming ∧
      r'.dispatched.length = r.dispatched.length + 1 ∧
      ∃ bytes, r'.outgoing = r.outgoing ++ (handler.dispatch h bytes).2 := by
  unfold Runner.serve at hserve
  split at hserve
  · rename_i m rest _ hincoming
    rw [hincoming]
    cases hresult : (handler.dispatch h m.data).1 with
    | ok h'' =>
      simp only [hresult] at hserve
      obtain ⟨rfl, rfl⟩ := Prod.mk.inj (Option.some.inj hserve)
      exact ⟨by simp, by simp, m.data, rfl⟩
    | error e =>
      simp only [hresult] at hserve
      obtain ⟨-, rfl⟩ := Prod.mk.inj (Option.some.inj hserve)
      exact ⟨by simp, by simp, m.data, rfl⟩
  · cases hserve

/-! ## What a step does to the stream -/

namespace Effect

variable {q q' : Queues} {a : Action}

/-- A message that has left the channel does not come back to it. -/
theorem not_mem_receiver (h : Effect q a q') (hq : q.Orderly) {m : InnerMessage}
    (hm : m ∈ q.submitted) (hleft : m ∉ q.receiver) : m ∈ q'.submitted ∧ m ∉ q'.receiver := by
  cases h with
  | submit data =>
    refine ⟨List.mem_append_left _ hm, fun hmem => ?_⟩
    rcases List.mem_append.mp hmem with hmem | hmem
    · exact hleft hmem
    · rw [List.mem_singleton.mp hmem] at hm
      exact (hq.cancelHandler_lt hm).false
  | collect hreceiver =>
    exact ⟨hm, fun hmem => hleft (hreceiver ▸ List.mem_cons_of_mem _ hmem)⟩
  | sweep hreceiver =>
    exact ⟨hm, fun hmem => hleft (hreceiver ▸ List.mem_cons_of_mem _ hmem)⟩
  | panic => exact ⟨hm, List.not_mem_nil⟩
  | _ => exact ⟨hm, hleft⟩

/-- A handler gets its value from a frame that comes back. -/
theorem ne_sent (h : Effect q a q') (hframe : ∀ b, a ≠ .response (some (.ok b)))
    (hq : ∀ i b, q.oneshots i ≠ .sent b) (i : ℕ) (b : Bytes) : q'.oneshots i ≠ .sent b := by
  cases h with
  | @close j hj =>
    show Function.update q.oneshots j (q.oneshots j).close i ≠ .sent b
    rcases eq_or_ne i j with rfl | hne
    · rw [Function.update_self]
      exact Oneshot.close_ne_sent (hq i b)
    · rw [Function.update_of_ne hne]
      exact hq i b
  | reply bytes _ => exact absurd rfl (hframe bytes)
  | _ => exact hq i b

theorem of_dial (h : Effect q (.connect none) q') (hup : q'.up = true) :
    q'.stream = Stream.new := by
  cases h with
  | dial hstream => exact hstream
  | leave => cases hup

theorem of_write (h : Effect q (.write none) q') (hup : q'.up = true) :
    q.up = true ∧ q'.stream.replies = q.stream.replies ∧
      q'.stream.written =
        q.stream.written ++ q'.stream.written.drop q.stream.written.length := by
  cases h with
  | settle => exact ⟨hup, rfl, by simp⟩
  | skip => exact ⟨hup, rfl, by simp⟩
  | write => exact ⟨hup, rfl, by simp⟩
  | leave => cases hup

theorem of_frame {b : Bytes} (h : Effect q (.response (some (.ok b))) q')
    (hup : q'.up = true) :
    q.up = true ∧ q'.stream.replies = q.stream.replies ++ [b] ∧
      q'.stream.written = q.stream.written := by
  cases h with
  | leave => cases hup
  | reply => exact ⟨hup, rfl, rfl⟩

/-- Nothing else touches the stream, unless the connection breaks. -/
theorem of_other (h : Effect q a q') (hdial : a ≠ .connect none) (hwrite : a ≠ .write none)
    (hframe : ∀ b, a ≠ .response (some (.ok b))) (hup : q'.up = true) :
    q.up = true ∧ q'.stream = q.stream := by
  cases h with
  | dial _ => exact absurd rfl hdial
  | write => exact absurd rfl hwrite
  | leave => cases hup
  | reply bytes _ => exact absurd rfl (hframe bytes)
  | _ => exact ⟨hup, rfl⟩

end Effect

/-- What has gone over the stream has left the channel. -/
theorem Queues.Orderly.left_of_written {q : Queues} (h : q.Orderly) {m : InnerMessage}
    (hm : m ∈ q.stream.written) : m ∈ q.submitted ∧ m ∉ q.receiver := by
  have hleft : m ∈ q.stream.written ++ q.buffer := List.mem_append_left _ hm
  have hnodup := List.nodup_append.mp (h.holds.nodup.sublist h.order)
  exact ⟨h.order.mem (List.mem_append_left _ hleft), fun hreceiver =>
    hnodup.2.2 m hleft m hreceiver rfl⟩

/-! ## The invariant of a session -/

namespace Session

variable {n : ℕ} {s s' : Session H ε}

/-- **What holds in a session with a handler that replies to each message with `n` frames.** -/
structure Sound (n : ℕ) (s : Session H ε) : Prop where
  orderly : s.sender.queues.Orderly
  link : s.sender.queues.up = true → ∃ r rs, s.runners = r :: rs ∧
    s.sender.queues.stream.written = r.dispatched ++ r.incoming ∧
    s.sender.queues.stream.replies.length + r.outgoing.length = n * r.dispatched.length
  left : ∀ r ∈ s.runners, ∀ m ∈ r.dispatched ++ r.incoming,
    m ∈ s.sender.queues.submitted ∧ m ∉ s.sender.queues.receiver

theorem sound_spawn (n : ℕ) (address peer : SocketAddr) (h : H) :
    Sound n (spawn address peer h : Session H ε) where
  orderly := Queues.Orderly.spawn address
  link hup := by cases hup
  left _ hr := absurd hr List.not_mem_nil

/-- A runner moves on: it reads frames in their order, and it writes `n` frames for each. -/
theorem Sound.set (hs : Sound n s) {k : ℕ} {r r' : Runner ε} (hr : s.runners[k]? = some r)
    (hmove : r'.dispatched ++ r'.incoming = r.dispatched ++ r.incoming)
    (hcount : r'.outgoing.length + n * r.dispatched.length =
      r.outgoing.length + n * r'.dispatched.length) (h' : H) :
    Sound n { s with runners := s.runners.set k r', handler := h' } where
  orderly := hs.orderly
  link hup := by
    obtain ⟨r₀, rs, hrunners, hwritten, hreplies⟩ := hs.link hup
    show ∃ r rs, s.runners.set k r' = r :: rs ∧ _
    rw [hrunners] at hr ⊢
    cases k with
    | zero =>
      obtain rfl := Option.some.inj hr
      refine ⟨r', rs, rfl, hwritten.trans hmove.symm, ?_⟩
      show s.sender.queues.stream.replies.length + _ = _
      omega
    | succ k => exact ⟨r₀, rs.set k r', rfl, hwritten, hreplies⟩
  left r₁ hr₁ m hm := by
    rcases List.mem_or_eq_of_mem_set hr₁ with hr₁ | rfl
    · exact hs.left r₁ hr₁ m hm
    · exact hs.left r (List.mem_of_getElem? hr) m (hmove ▸ hm)

theorem Sound.serve {handler : MessageHandler H ε} (hs : Sound n s)
    (hn : RepliesWith n handler) {k : ℕ} (h : s.serve handler k = some s') : Sound n s' := by
  obtain ⟨r, hr, h⟩ := Option.bind_eq_some_iff.mp h
  obtain ⟨⟨h', r'⟩, hserve, rfl⟩ := Option.map_eq_some_iff.mp h
  obtain ⟨hmove, hdispatched, bytes, houtgoing⟩ := Runner.serve_spec hserve
  refine hs.set hr hmove ?_ h'
  rw [hdispatched, houtgoing, List.length_append, hn, Nat.mul_succ]
  omega

theorem Sound.hangUp (hs : Sound n s) {k : ℕ} {outcome : Option IoError}
    (h : s.hangUp k outcome = some s') : Sound n s' := by
  obtain ⟨r, hr, h⟩ := Option.bind_eq_some_iff.mp h
  obtain ⟨r', hhang, rfl⟩ := Option.map_eq_some_iff.mp h
  unfold Runner.hangUp at hhang
  split_ifs at hhang
  cases outcome with
  | some e =>
    obtain rfl := Option.some.inj hhang
    exact hs.set hr (by rfl) (by rfl) s.handler
  | none =>
    obtain rfl := Option.some.inj hhang
    exact hs.set hr (by rfl) (by rfl) s.handler

/-- The sender moves on while the runners rest. -/
theorem Sound.left_of_effect (hs : Sound n s) {a : Action} {q : Queues}
    (h : Effect s.sender.queues a q) :
    ∀ r ∈ s.runners, ∀ m ∈ r.dispatched ++ r.incoming, m ∈ q.submitted ∧ m ∉ q.receiver := by
  intro r hr m hm
  obtain ⟨hsubmitted, hleft⟩ := hs.left r hr m hm
  exact h.not_mem_receiver hs.orderly hsubmitted hleft

/-- What is known of the newest runner while the connection is up. -/
theorem Sound.link_cons (hs : Sound n s) {r : Runner ε} {rs : List (Runner ε)}
    (hrunners : s.runners = r :: rs) (hup : s.sender.queues.up = true) :
    s.sender.queues.stream.written = r.dispatched ++ r.incoming ∧
      s.sender.queues.stream.replies.length + r.outgoing.length = n * r.dispatched.length := by
  obtain ⟨r', rs', hrunners', hlink⟩ := hs.link hup
  obtain ⟨rfl, rfl⟩ := List.cons.inj (hrunners.symm.trans hrunners')
  exact hlink

/-- A step of the sender, with what it does to the newest runner. -/
theorem Sound.newest (hs : Sound n s) {a : Action} {o : Outgoing} {r : Runner ε}
    {rs : List (Runner ε)} (heffect : Effect s.sender.queues a o.queues)
    (hold : ∀ r' ∈ rs, r' ∈ s.runners)
    (hleft : ∀ m ∈ r.dispatched ++ r.incoming, m ∈ o.queues.submitted ∧ m ∉ o.queues.receiver)
    (hlink : o.queues.up = true → o.queues.stream.written = r.dispatched ++ r.incoming ∧
      o.queues.stream.replies.length + r.outgoing.length = n * r.dispatched.length) :
    Sound n { s with sender := o, runners := r :: rs } where
  orderly := hs.orderly.effect heffect
  link hup := ⟨r, rs, rfl, hlink hup⟩
  left r' hr' := by
    rcases List.mem_cons.mp hr' with rfl | hr'
    · exact hleft
    · exact hs.left_of_effect heffect r' (hold r' hr')

/-- A new connection. -/
theorem Sound.dial (hs : Sound n s) {o : Outgoing}
    (heffect : Effect s.sender.queues (.connect none) o.queues) :
    Sound n { s with sender := o, runners := Runner.spawn s.peer :: s.runners } := by
  refine hs.newest heffect (fun _ hr => hr) (fun m hm => absurd hm List.not_mem_nil) fun hup => ?_
  rw [heffect.of_dial hup]
  exact ⟨rfl, rfl⟩

/-- A message goes over the connection. -/
theorem Sound.write (hs : Sound n s) {o : Outgoing} {r : Runner ε} {rs : List (Runner ε)}
    (hrunners : s.runners = r :: rs) (heffect : Effect s.sender.queues (.write none) o.queues) :
    Sound n { s with
      sender := o
      runners := { r with incoming := r.incoming ++ transmitted s.sender o } :: rs } := by
  refine hs.newest heffect (fun r' hr' => hrunners ▸ List.mem_cons_of_mem _ hr')
    (fun m hm => ?_) fun hup => ?_
  · have hm : m ∈ r.dispatched ++ (r.incoming ++ transmitted s.sender o) := hm
    rw [← List.append_assoc] at hm
    rcases List.mem_append.mp hm with hm | hm
    · exact hs.left_of_effect heffect r (hrunners ▸ List.mem_cons_self) m hm
    · exact (hs.orderly.effect heffect).left_of_written (List.mem_of_mem_drop hm)
  · obtain ⟨hup₀, hreplies, hwritten⟩ := heffect.of_write hup
    obtain ⟨hwritten₀, hreplies₀⟩ := hs.link_cons hrunners hup₀
    constructor
    · show o.queues.stream.written = r.dispatched ++ (r.incoming ++ transmitted s.sender o)
      rw [← List.append_assoc, ← hwritten₀]
      exact hwritten
    · rw [hreplies]
      exact hreplies₀

/-- A frame comes back. -/
theorem Sound.frame (hs : Sound n s) {o : Outgoing} {r : Runner ε} {rs : List (Runner ε)}
    {b frame : Bytes} {outgoing : List Bytes} (hrunners : s.runners = r :: rs)
    (houtgoing : r.outgoing = frame :: outgoing)
    (heffect : Effect s.sender.queues (.response (some (.ok b))) o.queues) :
    Sound n { s with sender := o, runners := { r with outgoing := outgoing } :: rs } := by
  refine hs.newest heffect (fun r' hr' => hrunners ▸ List.mem_cons_of_mem _ hr')
    (hs.left_of_effect heffect r (hrunners ▸ List.mem_cons_self)) fun hup => ?_
  obtain ⟨hup₀, hreplies, hwritten⟩ := heffect.of_frame hup
  obtain ⟨hwritten₀, hreplies₀⟩ := hs.link_cons hrunners hup₀
  refine ⟨hwritten.trans hwritten₀, ?_⟩
  show o.queues.stream.replies.length + outgoing.length = n * r.dispatched.length
  rw [houtgoing, List.length_cons] at hreplies₀
  rw [hreplies, List.length_append, List.length_singleton]
  omega

/-- A step that leaves the runners alone: nothing goes over the connection. -/
theorem Sound.alone (hs : Sound n s) {a : Action} {o : Outgoing}
    (heffect : Effect s.sender.queues a o.queues) (hdial : a ≠ .connect none)
    (hwrite : a = .write none → ∀ r rs, s.runners ≠ r :: rs)
    (hframe : ∀ b, a ≠ .response (some (.ok b))) : Sound n { s with sender := o } where
  orderly := hs.orderly.effect heffect
  link hup := by
    have hnowrite : a ≠ .write none := by
      rintro rfl
      obtain ⟨r, rs, hrunners, -⟩ := hs.link (heffect.of_write hup).1
      exact hwrite rfl r rs hrunners
    obtain ⟨hup₀, hstream⟩ := heffect.of_other hdial hnowrite hframe hup
    obtain ⟨r, rs, hrunners, hlink⟩ := hs.link hup₀
    rw [← hstream] at hlink
    exact ⟨r, rs, hrunners, hlink⟩
  left := hs.left_of_effect heffect

theorem Sound.send (hs : Sound n s) {a : Action} (hsend : s.send a = some s') :
    Sound n s' := by
  obtain ⟨o, ho, h⟩ := Option.bind_eq_some_iff.mp hsend
  clear hsend
  have heffect := Outgoing.effect_of_step ho
  split at h
  · obtain rfl := Option.some.inj h
    exact hs.dial heffect
  · rename_i hrunners
    obtain rfl := Option.some.inj h
    exact hs.write hrunners heffect
  · rename_i hrunners
    split at h
    · cases h
    · rename_i houtgoing
      split_ifs at h
      obtain rfl := Option.some.inj h
      exact hs.frame hrunners houtgoing heffect
  · cases h
  · rename_i hdial hwrite hframe hframe'
    obtain rfl := Option.some.inj h
    refine hs.alone heffect hdial (fun ha r rs hrunners => hwrite r rs ha hrunners) fun b hb => ?_
    cases hrunners : s.runners with
    | nil => exact hframe' b hb hrunners
    | cons r rs => exact hframe b r rs hb hrunners

theorem Sound.step {handler : MessageHandler H ε} (hs : Sound n s)
    (hn : RepliesWith n handler) {e : SessionEvent} (h : s.step handler e = some s') :
    Sound n s' := by
  cases e with
  | sender a => exact hs.send h
  | serve k => exact hs.serve hn h
  | hangUp k outcome => exact hs.hangUp h

theorem sound_of_reachable {handler : MessageHandler H ε} (hn : RepliesWith n handler)
    {address peer : SocketAddr} {h₀ : H}
    (h : (machine handler).Reachable (spawn address peer h₀) s) : Sound n s :=
  h.invariant (sound_spawn n address peer h₀) fun _ _ _ ih hguard =>
    ih.step hn (GuardedMachine.ofStep_next hguard)

/-! ## Nothing on the way -/

/-- The connection is up, and no frame is on the way in either direction. -/
def Quiet (s : Session H ε) : Prop :=
  s.sender.connection.phase.up = true ∧ ∃ r rs, s.runners = r :: rs ∧
    r.running = true ∧ r.incoming = [] ∧ r.outgoing = []

/-- The two ends agree: no message waits for an ACK, and the handler of every message that the
peer has dealt with has been settled. -/
def Agreed (s : Session H ε) : Prop :=
  s.sender.connection.phase.stream.pendingReplies = [] ∧
    ∀ r ∈ s.runners, ∀ m ∈ r.dispatched, s.sender.oneshots m.cancelHandler ≠ .waiting

/-- With one frame for each message the number of pending messages is that of the frames on the
way, and a message that has been dealt with and still waits is back in the buffer. -/
theorem agreed_of_repliesWith_one {handler : MessageHandler H ε} (hn : RepliesWith 1 handler)
    {address peer : SocketAddr} {h₀ : H}
    (h : (machine handler).Reachable (spawn address peer h₀) s) (hquiet : s.Quiet)
    (hbuffer : s.sender.connection.buffer = []) : s.Agreed := by
  have hsound := sound_of_reachable hn h
  obtain ⟨hup, r, rs, hrunners, -, hincoming, houtgoing⟩ := hquiet
  obtain ⟨hwritten, hreplies⟩ := hsound.link_cons hrunners hup
  have hpending : s.sender.queues.stream.pendingReplies = [] := by
    have hlength := hsound.orderly.answered.length_eq
    rw [hwritten, hincoming, List.append_nil] at hlength
    rw [houtgoing, List.length_nil] at hreplies
    refine List.eq_nil_of_length_eq_zero ?_
    omega
  refine ⟨hpending, fun r' hr' m hm hopen => ?_⟩
  obtain ⟨hsubmitted, hleft⟩ := hsound.left r' hr' m (List.mem_append_left _ hm)
  have hheld : m ∈ s.sender.queues.held :=
    hsound.orderly.holds.kept m hsubmitted (Queues.not_settled hopen (Outgoing.panicked_of_up hup))
  have hbuffer' : s.sender.queues.buffer = [] := hbuffer
  rw [Queues.held, hpending, hbuffer', List.nil_append, List.nil_append] at hheld
  exact hleft hheld

theorem sender_of_send {a : Action} (h : s.send a = some s') :
    s.sender.step a = some s'.sender := by
  obtain ⟨o, ho, h⟩ := Option.bind_eq_some_iff.mp h
  rw [ho]
  split at h
  · exact congrArg some (congrArg Session.sender (Option.some.inj h))
  · exact congrArg some (congrArg Session.sender (Option.some.inj h))
  · split at h
    · cases h
    · split_ifs at h
      exact congrArg some (congrArg Session.sender (Option.some.inj h))
  · cases h
  · exact congrArg some (congrArg Session.sender (Option.some.inj h))

/-- A frame that the sender reads has been written by the newest runner, and the connection is
up. -/
theorem frame_of_send {b : Bytes} (h : s.send (.response (some (.ok b))) = some s') :
    s.sender.queues.up = true ∧ ∃ r rs, s.runners = r :: rs ∧ r.outgoing ≠ [] := by
  have hresponse : s.sender.response (some (.ok b)) = some s'.sender := sender_of_send h
  constructor
  · unfold Outgoing.response at hresponse
    cases hphase : s.sender.connection.phase with
    | selecting stream => simp [Outgoing.queues, hphase, Phase.up]
    | connecting => simp [hphase] at hresponse
    | waiting => simp [hphase] at hresponse
    | draining stream => simp [hphase] at hresponse
    | panicked => simp [hphase] at hresponse
  · obtain ⟨o, -, h⟩ := Option.bind_eq_some_iff.mp h
    cases hrunners : s.runners with
    | nil => simp [hrunners] at h
    | cons r rs =>
      refine ⟨r, rs, rfl, fun houtgoing => ?_⟩
      simp [hrunners, houtgoing] at h

/-- Without a frame for a message no handler ever gets a value. -/
theorem ne_sent_of_repliesWith_zero {handler : MessageHandler H ε}
    (hn : RepliesWith 0 handler) {address peer : SocketAddr} {h₀ : H}
    (h : (machine handler).Reachable (spawn address peer h₀) s) (i : ℕ) (b : Bytes) :
    s.sender.oneshots i ≠ .sent b := by
  refine h.invariant (P := fun s => ∀ i b, s.sender.oneshots i ≠ .sent b) ?_ ?_ i b
  · exact fun _ _ => nofun
  · intro s e hr ih hguard i b
    have hstep := GuardedMachine.ofStep_next hguard
    cases e with
    | sender a =>
      refine (Outgoing.effect_of_step (sender_of_send hstep)).ne_sent ?_ ih i b
      rintro b rfl
      obtain ⟨hup, r, rs, hrunners, houtgoing⟩ := frame_of_send hstep
      obtain ⟨-, hreplies⟩ := (sound_of_reachable hn hr).link_cons hrunners hup
      rw [Nat.zero_mul] at hreplies
      exact houtgoing (List.eq_nil_of_length_eq_zero (Nat.eq_zero_of_add_eq_zero_left hreplies))
    | serve k =>
      obtain ⟨r, -, h⟩ := Option.bind_eq_some_iff.mp hstep
      obtain ⟨⟨h', r'⟩, -, hnext⟩ := Option.map_eq_some_iff.mp h
      rw [← hnext]
      exact ih i b
    | hangUp k outcome =>
      obtain ⟨r, -, h⟩ := Option.bind_eq_some_iff.mp hstep
      obtain ⟨r', -, hnext⟩ := Option.map_eq_some_iff.mp h
      rw [← hnext]
      exact ih i b

theorem ne_waiting_iff_of_repliesWith_zero {handler : MessageHandler H ε}
    (hn : RepliesWith 0 handler) {address peer : SocketAddr} {h₀ : H}
    (h : (machine handler).Reachable (spawn address peer h₀) s) (i : ℕ) :
    s.sender.oneshots i ≠ .waiting ↔ s.sender.oneshots i = .closed := by
  cases hi : s.sender.oneshots i with
  | waiting => simp
  | closed => simp
  | sent b => exact absurd hi (ne_sent_of_repliesWith_zero hn h i b)

/-- Without a frame for a message everything that has gone over the connection is pending. -/
theorem Sound.pendingReplies_eq (hs : Sound 0 s) {r : Runner ε} {rs : List (Runner ε)}
    (hrunners : s.runners = r :: rs) (hup : s.sender.queues.up = true) :
    s.sender.queues.stream.pendingReplies = r.dispatched ++ r.incoming := by
  obtain ⟨hwritten, hreplies⟩ := hs.link_cons hrunners hup
  obtain ⟨answered, hsplit, hanswers⟩ := hs.orderly.answered
  rw [Nat.zero_mul] at hreplies
  have hnone : s.sender.queues.stream.replies = [] :=
    List.eq_nil_of_length_eq_zero (Nat.eq_zero_of_add_eq_zero_right hreplies)
  rw [hnone, List.forall₂_nil_right_iff] at hanswers
  rw [← hwritten, hsplit, hanswers]
  rfl

/-- Without frames that come back, the two ends agree only where nothing has been dealt with,
or where nobody waits for it. -/
theorem agreed_iff_of_repliesWith_zero {handler : MessageHandler H ε}
    (hn : RepliesWith 0 handler) {address peer : SocketAddr} {h₀ : H}
    (h : (machine handler).Reachable (spawn address peer h₀) s) (hquiet : s.Quiet) :
    s.Agreed ↔ (∀ r ∈ s.runners.head?, r.dispatched = []) ∧
      ∀ r ∈ s.runners.tail, ∀ m ∈ r.dispatched,
        s.sender.oneshots m.cancelHandler = .closed := by
  obtain ⟨hup, r, rs, hrunners, -, hincoming, -⟩ := hquiet
  have hclosed := ne_waiting_iff_of_repliesWith_zero hn h
  have hpending : s.sender.connection.phase.stream.pendingReplies = r.dispatched := by
    have hall := (sound_of_reachable hn h).pendingReplies_eq hrunners hup
    rwa [hincoming, List.append_nil] at hall
  rw [hrunners]
  constructor
  · rintro ⟨hnone, hsettled⟩
    refine ⟨fun r₁ hr₁ => ?_, fun r₁ hr₁ m hm => ?_⟩
    · obtain rfl := Option.some.inj hr₁
      rw [← hpending, hnone]
    · exact (hclosed _).mp (hsettled r₁ (hrunners ▸ List.mem_cons_of_mem _ hr₁) m hm)
  · rintro ⟨hnone, hsettled⟩
    refine ⟨hpending.trans (hnone r rfl), fun r₁ hr₁ m hm => ?_⟩
    rw [hrunners] at hr₁
    rcases List.mem_cons.mp hr₁ with rfl | hr₁
    · rw [hnone r₁ rfl] at hm
      exact absurd hm List.not_mem_nil
    · exact (hclosed _).mpr (hsettled r₁ hr₁ m hm)

end Session

/-! ## The handler of the tests -/

/-- `TestHandler` of `network/src/tests/receiver_tests.rs`, with what it has delivered. -/
structure TestHandler where
  deliver : List String

namespace TestHandler

variable {κ : Type v}

/-- `TestHandler::dispatch`: an ACK, and then the message.  Where the message cannot be read, the
handler panics, which ends the runner. -/
def messageHandler (deserialize : Bytes → Except κ String) : MessageHandler TestHandler κ where
  dispatch h message :=
    ((deserialize message).map fun text => { h with deliver := h.deliver ++ [text] },
      ["Ack".toUTF8.toList])

theorem repliesWith_one (deserialize : Bytes → Except κ String) :
    RepliesWith 1 (messageHandler deserialize) :=
  fun _ _ => rfl

/-- With this handler the two ends agree whenever nothing is on the way. -/
theorem agreed_testHandler {deserialize : Bytes → Except κ String} {address peer : SocketAddr}
    {h₀ : TestHandler} {s : Session TestHandler κ}
    (h : (Session.machine (messageHandler deserialize)).Reachable
      (Session.spawn address peer h₀) s) (hquiet : s.Quiet)
    (hbuffer : s.sender.connection.buffer = []) : s.Agreed :=
  Session.agreed_of_repliesWith_one (repliesWith_one deserialize) h hquiet hbuffer

end TestHandler

/-! ## The handler of the primary -/

/-- `DagError`, as far as `dispatch` goes; `κ` stands for the errors of `bincode`. -/
inductive DagError (κ : Type v) where
  | serializationError : κ → DagError κ

/-- `TxReceiverHandler`, with what it has put into its two channels. -/
structure TxReceiverHandler where
  txTransactions : List (List Transaction)
  txVotes : List PrimaryVote

namespace TxReceiverHandler

variable {κ : Type v}

/-- `TxReceiverHandler::dispatch`; `deserialize` is that of `bincode`. -/
def dispatch (deserialize : Bytes → Except κ PrimaryMessage) (h : TxReceiverHandler)
    (message : Bytes) : Except (DagError κ) TxReceiverHandler × List Bytes :=
  match deserialize message with
  | .error e => (.error (.serializationError e), [])
  | .ok (.transactions txs) => (.ok { h with txTransactions := h.txTransactions ++ [txs] }, [])
  | .ok (.sendVote vote) => (.ok { h with txVotes := h.txVotes ++ [vote] }, [])
  | .ok (.timerExpired _) => (.ok h, [])

def messageHandler (deserialize : Bytes → Except κ PrimaryMessage) :
    MessageHandler TxReceiverHandler (DagError κ) :=
  ⟨dispatch deserialize⟩

/-- No branch uses the writer. -/
theorem repliesWith_zero (deserialize : Bytes → Except κ PrimaryMessage) :
    RepliesWith 0 (messageHandler deserialize) := by
  intro h bytes
  show (dispatch deserialize h bytes).2.length = 0
  unfold dispatch
  split <;> rfl

/-- **When the two ends agree.**  With nothing on the way, they do exactly where nothing has gone
over the connection that is up, and where the handlers of all that went over earlier ones have
been dropped. -/
theorem agreed_iff {deserialize : Bytes → Except κ PrimaryMessage} {address peer : SocketAddr}
    {h₀ : TxReceiverHandler} {s : Session TxReceiverHandler (DagError κ)}
    (h : (Session.machine (messageHandler deserialize)).Reachable
      (Session.spawn address peer h₀) s) (hquiet : s.Quiet) :
    s.Agreed ↔ (∀ r ∈ s.runners.head?, r.dispatched = []) ∧
      ∀ r ∈ s.runners.tail, ∀ m ∈ r.dispatched,
        s.sender.oneshots m.cancelHandler = .closed :=
  Session.agreed_iff_of_repliesWith_zero (repliesWith_zero deserialize) h hquiet

/-- The frame of `PrimaryMessage::Transactions(vec![])`. -/
def noTransactions : Bytes := [2, 0, 0, 0, 0, 0, 0, 0, 0, 0, 0, 0]

/-- `bincode` on this frame; no other occurs below. -/
def readNoTransactions (bytes : Bytes) : Except Unit PrimaryMessage :=
  if bytes = noTransactions then .ok (.transactions []) else .error ()

/-- The message goes over a new connection, and the handler gets it. -/
def delivered : List SessionEvent :=
  [.sender (.send noTransactions), .sender (.connect none), .sender (.write none),
    .sender .recv, .sender (.write none), .sender (.write none), .serve 0]

def afterDelivery : Session TxReceiverHandler (DagError Unit) :=
  (Session.machine (messageHandler readNoTransactions)).run
    (Session.spawn ⟨[127, 0, 0, 1], 4000⟩ ⟨[127, 0, 0, 1], 50000⟩ ⟨[], []⟩) delivered

theorem reachable_afterDelivery :
    (Session.machine (messageHandler readNoTransactions)).Reachable
      (Session.spawn ⟨[127, 0, 0, 1], 4000⟩ ⟨[127, 0, 0, 1], 50000⟩ ⟨[], []⟩) afterDelivery :=
  GuardedMachine.reachable_run delivered (by decide)

theorem quiet_afterDelivery : afterDelivery.Quiet :=
  ⟨by decide, _, _, rfl, by decide, by decide, by decide⟩

theorem agreed_iff_delivered : ¬afterDelivery.Agreed := fun hagreed =>
  absurd ((agreed_iff reachable_afterDelivery quiet_afterDelivery).mp hagreed).1 (by decide)

theorem exists_not_agreed :
    ∃ (deserialize : Bytes → Except Unit PrimaryMessage) (address peer : SocketAddr)
      (s : Session TxReceiverHandler (DagError Unit)),
      (Session.machine (messageHandler deserialize)).Reachable
        (Session.spawn address peer ⟨[], []⟩) s ∧
      s.Quiet ∧ ¬s.Agreed := by
  refine ⟨readNoTransactions, ⟨[127, 0, 0, 1], 4000⟩, ⟨[127, 0, 0, 1], 50000⟩, afterDelivery,
    reachable_afterDelivery, quiet_afterDelivery, fun hagreed => ?_⟩
  have hpending : afterDelivery.sender.connection.phase.stream.pendingReplies ≠ [] := by decide
  exact hpending hagreed.1

end TxReceiverHandler
end NeroConsensus
