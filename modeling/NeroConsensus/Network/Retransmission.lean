import NeroConsensus.Foundations.Outbox
import NeroConsensus.Network.Backoff

/-!
# Nothing is lost and the order is kept

A message goes from the channel to the buffer, from there to the list of pending replies, and
back to the buffer when the connection breaks.  `Queues` is the connection reduced to these
lists, and `Effect` what a step does to them: there are thirteen things, and each constructor says
with its premises where in the source it happens.  `effect_of_step` is that there are no others.

With `held` for the three lists, one after the other, the connection is an outbox
(`Queues.Orderly`): a message is settled when its handler has been dropped or has got its value.
This ends where the task panics, as it drops all that it holds.  `reliable_of_reachable` is what the
caller of `ReliableSender::send` may rely on as long as the counter of failed attempts does not
overflow (`RetryFits`), and `exists_dropped` what happens where it does.
-/

namespace NeroConsensus

/-! ## Queues -/

/-- A connection as far as its messages go. -/
structure Queues where
  submitted : List InnerMessage
  oneshots : ℕ → Oneshot
  receiver : List InnerMessage
  buffer : List InnerMessage
  stream : Stream
  up : Bool
  panicked : Bool

namespace Queues

/-- The messages of a connection: pending replies, buffer, channel. -/
def held (q : Queues) : List InnerMessage :=
  q.stream.pendingReplies ++ q.buffer ++ q.receiver

/-- The handler of a message. -/
def handler (q : Queues) (m : InnerMessage) : Oneshot :=
  q.oneshots m.cancelHandler

/-- A message for which the task is not answerable any more: its handler does not wait, or the task
has panicked. -/
def Settled (q : Queues) (m : InnerMessage) : Prop :=
  q.handler m ≠ .waiting ∨ q.panicked = true

theorem not_settled {q : Queues} {m : InnerMessage} (hopen : q.handler m = .waiting)
    (hrunning : q.panicked = false) : ¬q.Settled m := by
  rintro (hsettled | hpanicked)
  · exact hsettled hopen
  · rw [hrunning] at hpanicked
    cases hpanicked

end Queues

def Outgoing.queues (o : Outgoing) : Queues :=
  { submitted := o.submitted
    oneshots := o.oneshots
    receiver := o.connection.receiver
    buffer := o.connection.buffer
    stream := o.connection.phase.stream
    up := o.connection.phase.up
    panicked := o.connection.phase = .panicked }

/-- A task that has panicked has no connection. -/
theorem Outgoing.panicked_of_up {o : Outgoing} (hup : o.queues.up = true) :
    o.queues.panicked = false := by
  refine decide_eq_false fun hphase => ?_
  rw [queues, hphase] at hup
  cases hup

/-- What a step does to the queues. -/
inductive Effect : Queues → Action → Queues → Prop
  | dial {q : Queues} (hstream : q.stream = Stream.new) :
      Effect q (.connect none) { q with up := true }
  | refuse (q : Queues) (e : IoError) : Effect q (.connect (some e)) q
  | tick (q : Queues) : Effect q .timer q
  | panic (q : Queues) : Effect q .timer { q with receiver := [], buffer := [], panicked := true }
  | settle (q : Queues) (e : Option IoError) : Effect q (.write e) q
  | submit (q : Queues) (data : Bytes) :
      Effect q (.send data) { q with
        receiver := q.receiver ++ [⟨data, q.submitted.length⟩]
        submitted := q.submitted ++ [⟨data, q.submitted.length⟩] }
  | close {q : Queues} {i : ℕ} (hi : i < q.submitted.length) :
      Effect q (.cancel i) { q with
        oneshots := Function.update q.oneshots i (q.oneshots i).close }
  | collect {q : Queues} {m : InnerMessage} {rest : List InnerMessage}
      (hreceiver : q.receiver = m :: rest) :
      Effect q .recv { q with receiver := rest, buffer := q.buffer ++ [m] }
  | sweep {q : Queues} {m : InnerMessage} {rest : List InnerMessage}
      (hreceiver : q.receiver = m :: rest) :
      Effect q .recv { q with
        receiver := rest
        buffer := (q.buffer ++ [m]).filter fun m => !(q.handler m).isClosed }
  | skip {q : Queues} {m : InnerMessage} {rest : List InnerMessage} (e : Option IoError)
      (hbuffer : q.buffer = m :: rest) (hclosed : (q.handler m).isClosed = true) :
      Effect q (.write e) { q with buffer := rest }
  | write {q : Queues} {m : InnerMessage} {rest : List InnerMessage}
      (hbuffer : q.buffer = m :: rest) (hopen : (q.handler m).isClosed = false) :
      Effect q (.write none) { q with
        buffer := rest
        stream := { q.stream with
          pendingReplies := q.stream.pendingReplies ++ [m]
          written := q.stream.written ++ [m] } }
  | leave (q : Queues) (a : Action) :
      Effect q a { q with
        buffer := q.stream.pendingReplies ++ q.buffer
        stream := Stream.new
        up := false }
  | reply {q : Queues} {m : InnerMessage} {rest : List InnerMessage} (bytes : Bytes)
      (hpending : q.stream.pendingReplies = m :: rest) :
      Effect q (.response (some (.ok bytes))) { q with
        oneshots := Function.update q.oneshots m.cancelHandler ((q.handler m).send bytes)
        stream := { q.stream with
          pendingReplies := rest
          replies := q.stream.replies ++ [bytes] } }

namespace Outgoing

variable {o o' : Outgoing}

/-! ### Every step is one of the effects -/

theorem effect_of_send {data : Bytes} (h : o.send data = some o') :
    Effect o.queues (.send data) o'.queues := by
  unfold send at h
  split_ifs at h
  rw [← Option.some.inj h]
  exact Effect.submit o.queues data

theorem effect_of_cancel {i : ℕ} (h : o.cancel i = some o') :
    Effect o.queues (.cancel i) o'.queues := by
  unfold cancel at h
  split_ifs at h with hi
  rw [← Option.some.inj h]
  exact Effect.close (q := o.queues) hi

/-- A new connection starts with an empty stream, as there was none before. -/
theorem effect_of_connect {outcome : Option IoError} (h : o.connect outcome = some o') :
    Effect o.queues (.connect outcome) o'.queues := by
  unfold connect at h
  cases hphase : o.connection.phase with
  | connecting =>
    have hstream : o.queues.stream = Stream.new := by simp [queues, hphase, Phase.stream]
    cases outcome with
    | none =>
      simp only [hphase] at h
      have heffect := Effect.dial hstream
      rw [← Option.some.inj h]
      simpa [queues, hphase, Phase.stream, Phase.up] using heffect
    | some e =>
      simp only [hphase] at h
      have heffect := Effect.refuse o.queues e
      rw [← Option.some.inj h]
      simpa [queues, hphase, Phase.stream, Phase.up] using heffect
  | waiting => simp [hphase] at h
  | draining s => simp [hphase] at h
  | selecting s => simp [hphase] at h
  | panicked => simp [hphase] at h

theorem effect_of_timer (h : o.timer = some o') : Effect o.queues .timer o'.queues := by
  unfold timer at h
  cases hphase : o.connection.phase with
  | waiting =>
    simp only [hphase] at h
    split_ifs at h
    · have heffect := Effect.tick o.queues
      rw [← Option.some.inj h]
      simpa [queues, hphase, Phase.stream, Phase.up] using heffect
    · have heffect := Effect.panic o.queues
      rw [← Option.some.inj h]
      simpa [queues, Connection.panic, hphase, Phase.stream, Phase.up] using heffect
  | connecting => simp [hphase] at h
  | draining s => simp [hphase] at h
  | selecting s => simp [hphase] at h
  | panicked => simp [hphase] at h

theorem effect_of_recv (h : o.recv = some o') : Effect o.queues .recv o'.queues := by
  unfold recv at h
  cases hreceiver : o.connection.receiver with
  | nil => cases hphase : o.connection.phase <;> simp [hphase, hreceiver] at h
  | cons m rest =>
    have hqueue : o.queues.receiver = m :: rest := hreceiver
    cases hphase : o.connection.phase with
    | waiting =>
      simp only [hphase, hreceiver] at h
      have heffect := Effect.sweep hqueue
      rw [← Option.some.inj h]
      simpa [queues, hphase, Phase.stream, Phase.up, Queues.handler] using heffect
    | selecting s =>
      simp only [hphase, hreceiver] at h
      have heffect := Effect.collect hqueue
      rw [← Option.some.inj h]
      simpa [queues, hphase, Phase.stream, Phase.up] using heffect
    | connecting => simp [hphase] at h
    | draining s => simp [hphase] at h
    | panicked => simp [hphase] at h

/-- Where the connection breaks, `c` is the connection up to that point. -/
theorem effect_of_leave {s : Stream} (hstream : o.connection.phase.stream = s)
    (hrunning : o.connection.phase ≠ .panicked) (c : Connection)
    (hreceiver : c.receiver = o.connection.receiver) (hbuffer : c.buffer = o.connection.buffer)
    (error : NetworkError) (a : Action) :
    Effect o.queues a ({ o with connection := c.leave s error } : Outgoing).queues := by
  have hqueues : ({ o with connection := c.leave s error } : Outgoing).queues =
      { o.queues with
        buffer := o.queues.stream.pendingReplies ++ o.queues.buffer
        stream := Stream.new
        up := false } := by
    unfold queues Connection.leave
    rw [hstream]
    simp only [hreceiver, hbuffer, List.foldr_cons_eq_append', Phase.stream, Phase.up,
      decide_eq_false hrunning, reduceCtorEq, decide_false]
  rw [hqueues]
  exact Effect.leave _ _

theorem effect_of_write {outcome : Option IoError} (h : o.write outcome = some o') :
    Effect o.queues (.write outcome) o'.queues := by
  unfold write at h
  cases hphase : o.connection.phase with
  | draining s =>
    have hstream : o.connection.phase.stream = s := by rw [hphase]; rfl
    cases hbuffer : o.connection.buffer with
    | nil =>
      simp only [hphase, hbuffer] at h
      have heffect := Effect.settle o.queues outcome
      rw [← Option.some.inj h]
      simpa [queues, hphase, hbuffer, Phase.stream, Phase.up] using heffect
    | cons m rest =>
      simp only [hphase, hbuffer] at h
      have hqueue : o.queues.buffer = m :: rest := hbuffer
      split_ifs at h with hclosed
      · have heffect := Effect.skip outcome hqueue hclosed
        rw [← Option.some.inj h]
        simpa [queues, hphase] using heffect
      · cases outcome with
        | none =>
          have heffect := Effect.write hqueue (Bool.not_eq_true _ ▸ hclosed)
          rw [← Option.some.inj h]
          simpa [queues, hphase, Phase.stream, Phase.up] using heffect
        | some e =>
          have heffect := effect_of_leave hstream (by rw [hphase]; nofun)
            { o.connection with buffer := m :: rest, phase := .draining s } rfl hbuffer.symm
          rw [← Option.some.inj h]
          exact heffect _ _
  | connecting => simp [hphase] at h
  | waiting => simp [hphase] at h
  | selecting s => simp [hphase] at h
  | panicked => simp [hphase] at h

theorem effect_of_response {r : Option (Except IoError Bytes)} (h : o.response r = some o') :
    Effect o.queues (.response r) o'.queues := by
  unfold response at h
  cases hphase : o.connection.phase with
  | selecting s =>
    have hstream : o.connection.phase.stream = s := by rw [hphase]; rfl
    have hrunning : o.connection.phase ≠ .panicked := by rw [hphase]; nofun
    cases hpending : s.pendingReplies with
    | nil =>
      simp only [hphase, hpending] at h
      rw [← Option.some.inj h]
      exact effect_of_leave hstream hrunning o.connection rfl rfl _ _
    | cons m rest =>
      have hqueue : o.queues.stream.pendingReplies = m :: rest := by
        rw [← hpending]
        exact congrArg Stream.pendingReplies hstream
      have hback : ({ s with pendingReplies := m :: rest } : Stream) = s := by rw [← hpending]
      have hleave := effect_of_leave hstream hrunning o.connection rfl rfl
      match r with
      | some (.ok bytes) =>
        simp only [hphase, hpending] at h
        have heffect := Effect.reply bytes hqueue
        rw [← Option.some.inj h]
        simpa [queues, hphase, Phase.stream, Phase.up, Queues.handler] using heffect
      | some (.error e) =>
        simp only [hphase, hpending, hback] at h
        rw [← Option.some.inj h]
        exact hleave _ _
      | none =>
        simp only [hphase, hpending, hback] at h
        rw [← Option.some.inj h]
        exact hleave _ _
  | connecting => simp [hphase] at h
  | waiting => simp [hphase] at h
  | draining s => simp [hphase] at h
  | panicked => simp [hphase] at h

/-- **What a step does to the queues.** -/
theorem effect_of_step {a : Action} (h : o.step a = some o') : Effect o.queues a o'.queues := by
  cases a with
  | send data => exact effect_of_send h
  | cancel i => exact effect_of_cancel h
  | connect outcome => exact effect_of_connect h
  | timer => exact effect_of_timer h
  | recv => exact effect_of_recv h
  | write outcome => exact effect_of_write h
  | response r => exact effect_of_response h

end Outgoing

/-! ## The invariant -/

namespace Oneshot

/-- A handler gets settled at most once: the second state is the first, unless that was
waiting. -/
def Later (o o' : Oneshot) : Prop :=
  o = waiting ∨ o' = o

theorem later_close (o : Oneshot) : Later o o.close := by
  cases o with
  | waiting => exact Or.inl rfl
  | closed => exact Or.inr rfl
  | sent b => exact Or.inr rfl

theorem later_send (b : Bytes) (o : Oneshot) : Later o (o.send b) := by
  cases o with
  | waiting => exact Or.inl rfl
  | closed => exact Or.inr rfl
  | sent b => exact Or.inr rfl

theorem later_update {f : ℕ → Oneshot} {i : ℕ} {o : Oneshot} (h : Later (f i) o) (j : ℕ) :
    Later (f j) (Function.update f i o j) := by
  rcases eq_or_ne j i with rfl | hne
  · rwa [Function.update_self]
  · rw [Function.update_of_ne hne]
    exact Or.inr rfl

theorem Later.resolved {o o' : Oneshot} {b : Bytes} (h : Later o o')
    (ho : o = sent b ∨ o = closed) : o' = sent b ∨ o' = closed := by
  rcases h with rfl | rfl
  · rcases ho with ho | ho <;> cases ho
  · exact ho

theorem Later.ne_waiting {o o' : Oneshot} (h : Later o o') (ho : o ≠ waiting) : o' ≠ waiting := by
  rcases h with h | h
  · exact absurd h ho
  · exact h ▸ ho

theorem close_ne_sent {o : Oneshot} {b : Bytes} (h : o ≠ sent b) : o.close ≠ sent b := by
  cases o with
  | waiting => exact nofun
  | closed => exact nofun
  | sent c => exact h

theorem send_resolved {o : Oneshot} (h : ∀ c, o ≠ sent c) (b : Bytes) :
    o.send b = sent b ∨ o.send b = closed := by
  cases o with
  | waiting => exact Or.inl rfl
  | closed => exact Or.inr rfl
  | sent c => exact absurd rfl (h c)

theorem ne_waiting_of_isClosed {o : Oneshot} (h : o.isClosed = true) : o ≠ waiting := by
  rintro rfl
  cases h

end Oneshot

namespace Queues

/-- The handler of a message after an ACK for it: it has got the ACK, or it was dropped. -/
def Resolved (q : Queues) (m : InnerMessage) (b : Bytes) : Prop :=
  q.handler m = .sent b ∨ q.handler m = .closed

/-- **The connection as an outbox.** -/
structure Orderly (q : Queues) : Prop where
  numbered : q.submitted.map InnerMessage.cancelHandler = List.range q.submitted.length
  holds : Outbox.Holds q.submitted q.held q.Settled
  fresh : ∀ i, q.submitted.length ≤ i → q.oneshots i = .waiting
  unsent : ∀ m ∈ q.held, ∀ b, q.handler m ≠ .sent b
  order : (q.stream.written ++ q.buffer ++ q.receiver).Sublist q.submitted
  answered : Outbox.Pipelined q.Resolved q.stream.written q.stream.pendingReplies q.stream.replies

namespace Orderly

variable {q q' : Queues}

theorem spawn (address : SocketAddr) : Orderly (Outgoing.spawn address).queues where
  numbered := rfl
  holds := Outbox.Holds.empty _
  fresh _ _ := rfl
  unsent _ hm := absurd hm List.not_mem_nil
  order := List.Sublist.refl _
  answered := Outbox.Pipelined.empty _

theorem mem_submitted (h : Orderly q) {m : InnerMessage} (hm : m ∈ q.held) : m ∈ q.submitted :=
  h.holds.sublist.mem hm

/-- A message is known by its handler. -/
theorem eq_of_cancelHandler (h : Orderly q) {m m' : InnerMessage} (hm : m ∈ q.submitted)
    (hm' : m' ∈ q.submitted) (heq : m.cancelHandler = m'.cancelHandler) : m = m' := by
  have hnodup : (q.submitted.map InnerMessage.cancelHandler).Nodup := by
    rw [h.numbered]
    exact List.nodup_range
  exact List.inj_on_of_nodup_map hnodup hm hm' heq

theorem cancelHandler_lt (h : Orderly q) {m : InnerMessage} (hm : m ∈ q.submitted) :
    m.cancelHandler < q.submitted.length := by
  have hmem := List.mem_map_of_mem (f := InnerMessage.cancelHandler) hm
  rw [h.numbered] at hmem
  exact List.mem_range.mp hmem

/-- Two held messages have two handlers. -/
theorem cancelHandler_ne (h : Orderly q) {m m' : InnerMessage} {rest : List InnerMessage}
    (hheld : q.held = m :: rest) (hm' : m' ∈ rest) : m'.cancelHandler ≠ m.cancelHandler := by
  intro heq
  have hnodup := h.holds.nodup_held
  have hm : m ∈ q.held := hheld ▸ List.mem_cons_self
  have hold : m' ∈ q.held := hheld ▸ List.mem_cons_of_mem m hm'
  have hsame := h.eq_of_cancelHandler (h.mem_submitted hold) (h.mem_submitted hm) heq
  rw [hheld] at hnodup
  exact (List.nodup_cons.mp hnodup).1 (hsame ▸ hm')

theorem fresh_update (h : Orderly q) {i : ℕ} (hi : i < q.submitted.length) (o : Oneshot) (j : ℕ)
    (hj : q.submitted.length ≤ j) : Function.update q.oneshots i o j = .waiting :=
  (Function.update_of_ne (hi.trans_le hj).ne' _ _).trans (h.fresh j hj)

/-! ### One lemma for each effect -/

theorem submit (h : Orderly q) (data : Bytes) :
    Orderly { q with
      receiver := q.receiver ++ [⟨data, q.submitted.length⟩]
      submitted := q.submitted ++ [⟨data, q.submitted.length⟩] } := by
  have hnew : (⟨data, q.submitted.length⟩ : InnerMessage) ∉ q.submitted := fun hm =>
    (h.cancelHandler_lt hm).false
  have hheld : q.stream.pendingReplies ++ q.buffer ++
      (q.receiver ++ [⟨data, q.submitted.length⟩]) = q.held ++ [⟨data, q.submitted.length⟩] :=
    (List.append_assoc _ _ _).symm
  refine ⟨?_, ?_, ?_, ?_, ?_, h.answered⟩
  · rw [List.map_append, h.numbered, List.length_append, List.length_singleton,
      List.range_succ]
    rfl
  · unfold held
    rw [hheld]
    exact h.holds.submit hnew
  · intro i hi
    rw [List.length_append] at hi
    exact h.fresh i (by omega)
  · intro m hm b
    unfold held at hm
    rw [hheld] at hm
    rcases List.mem_append.mp hm with hm | hm
    · exact h.unsent m hm b
    · rw [List.mem_singleton.mp hm]
      show q.oneshots q.submitted.length ≠ .sent b
      rw [h.fresh _ le_rfl]
      nofun
  · show (q.stream.written ++ q.buffer ++ (q.receiver ++ [_])).Sublist (q.submitted ++ [_])
    rw [← List.append_assoc]
    exact h.order.append (List.Sublist.refl _)

/-- A caller drops a handler. -/
theorem close (h : Orderly q) {i : ℕ} (hi : i < q.submitted.length) :
    Orderly { q with oneshots := Function.update q.oneshots i (q.oneshots i).close } := by
  have hlater := Oneshot.later_update (Oneshot.later_close (q.oneshots i))
  refine ⟨h.numbered, ?_, h.fresh_update hi _, ?_, h.order, ?_⟩
  · exact h.holds.settle fun m hm => hm.imp_left (hlater m.cancelHandler).ne_waiting
  · intro m hm b
    have hold : q.oneshots m.cancelHandler ≠ .sent b := h.unsent m hm b
    show Function.update q.oneshots i (q.oneshots i).close m.cancelHandler ≠ .sent b
    rcases eq_or_ne m.cancelHandler i with heq | hne
    · rw [heq, Function.update_self]
      exact Oneshot.close_ne_sent (heq ▸ hold)
    · rwa [Function.update_of_ne hne]
  · exact h.answered.mono fun m b hm => (hlater m.cancelHandler).resolved hm

/-- Messages move on, and those that are dropped have been cancelled. -/
theorem move (h : Orderly q) {receiver buffer : List InnerMessage}
    (hsub : (buffer ++ receiver).Sublist (q.buffer ++ q.receiver))
    (hgone : ∀ m ∈ q.buffer ++ q.receiver, q.handler m = .waiting → m ∈ buffer ++ receiver) :
    Orderly { q with receiver := receiver, buffer := buffer } := by
  have hheld : (q.stream.pendingReplies ++ buffer ++ receiver).Sublist q.held := by
    rw [held, List.append_assoc, List.append_assoc]
    exact (List.Sublist.refl _).append hsub
  refine ⟨h.numbered, h.holds.release hheld ?_, h.fresh, ?_, ?_, h.answered⟩
  · intro m hm hopen
    rw [held, List.append_assoc] at hm ⊢
    rcases List.mem_append.mp hm with hm | hm
    · exact List.mem_append_left _ hm
    · exact List.mem_append_right _ (hgone m hm (not_not.mp fun hne => hopen (Or.inl hne)))
  · exact fun m hm => h.unsent m (hheld.mem hm)
  · refine List.Sublist.trans ?_ h.order
    show (q.stream.written ++ buffer ++ receiver).Sublist
      (q.stream.written ++ q.buffer ++ q.receiver)
    rw [List.append_assoc, List.append_assoc]
    exact (List.Sublist.refl _).append hsub

/-- A message goes over the stream. -/
theorem write (h : Orderly q) {m : InnerMessage} {rest : List InnerMessage}
    (hbuffer : q.buffer = m :: rest) :
    Orderly { q with
      buffer := rest
      stream := { q.stream with
        pendingReplies := q.stream.pendingReplies ++ [m]
        written := q.stream.written ++ [m] } } := by
  have hheld : q.stream.pendingReplies ++ [m] ++ rest ++ q.receiver = q.held := by
    rw [held, hbuffer, List.append_cons q.stream.pendingReplies m rest]
  refine ⟨h.numbered, ?_, h.fresh, ?_, ?_, h.answered.write m⟩
  · unfold held
    rw [hheld]
    exact h.holds
  · unfold held
    rw [hheld]
    exact h.unsent
  · show (q.stream.written ++ [m] ++ rest ++ q.receiver).Sublist q.submitted
    rw [← List.append_cons, ← hbuffer]
    exact h.order

/-- The connection breaks: what was pending goes back to where it was written from. -/
theorem leave (h : Orderly q) :
    Orderly { q with
      buffer := q.stream.pendingReplies ++ q.buffer
      stream := Stream.new
      up := false } :=
  ⟨h.numbered, h.holds, h.fresh, h.unsent, h.holds.sublist, Outbox.Pipelined.empty _⟩

/-- The handler at the front of the pending replies gets its value. -/
theorem reply (h : Orderly q) {m : InnerMessage} {rest : List InnerMessage} (bytes : Bytes)
    (hpending : q.stream.pendingReplies = m :: rest) :
    Orderly { q with
      oneshots := Function.update q.oneshots m.cancelHandler ((q.handler m).send bytes)
      stream := { q.stream with
        pendingReplies := rest
        replies := q.stream.replies ++ [bytes] } } := by
  have hlater := Oneshot.later_update (Oneshot.later_send bytes (q.handler m))
  have hheld : q.held = m :: (rest ++ q.buffer ++ q.receiver) := by
    rw [held, hpending]
    rfl
  have hm : m ∈ q.held := by
    rw [hheld]
    exact List.mem_cons_self
  have hresolved := Oneshot.send_resolved (h.unsent m hm) bytes
  refine ⟨h.numbered, ?_, h.fresh_update (h.cancelHandler_lt (h.mem_submitted hm)) _, ?_,
    h.order, ?_⟩
  · have hsettled := h.holds.settle fun m hm => hm.imp_left (hlater m.cancelHandler).ne_waiting
    rw [hheld] at hsettled
    refine hsettled.release_head (Or.inl ?_)
    show Function.update q.oneshots m.cancelHandler _ m.cancelHandler ≠ .waiting
    rw [Function.update_self]
    rcases hresolved with hr | hr <;> rw [hr] <;> nofun
  · intro m' hm' b
    show Function.update q.oneshots m.cancelHandler _ m'.cancelHandler ≠ .sent b
    rw [Function.update_of_ne (h.cancelHandler_ne hheld hm')]
    exact h.unsent m' (hheld ▸ List.mem_cons_of_mem m hm') b
  · have hmono := h.answered.mono fun m b hm => (hlater m.cancelHandler).resolved hm
    rw [hpending] at hmono
    refine hmono.answer ?_
    rwa [Function.update_self]

/-- The task panics, and is answerable for nothing any more. -/
theorem panic (h : Orderly q) :
    Orderly { q with receiver := [], buffer := [], panicked := true } := by
  have hheld : (q.stream.pendingReplies ++ [] ++ []).Sublist q.held := by
    rw [List.append_nil, List.append_nil, held, List.append_assoc]
    exact List.sublist_append_left _ _
  refine ⟨h.numbered, ?_, h.fresh, fun m hm => h.unsent m (hheld.mem hm), ?_, h.answered⟩
  · exact (h.holds.settle fun m hm => hm.imp_right fun _ => rfl).release hheld
      fun m _ hopen => absurd (Or.inr rfl) hopen
  · refine List.Sublist.trans ?_ h.order
    show (q.stream.written ++ [] ++ []).Sublist (q.stream.written ++ q.buffer ++ q.receiver)
    rw [List.append_nil, List.append_nil, List.append_assoc]
    exact List.sublist_append_left _ _

/-- **One step.** -/
theorem effect (h : Orderly q) {a : Action} (he : Effect q a q') : Orderly q' := by
  cases he with
  | dial _ => exact ⟨h.numbered, h.holds, h.fresh, h.unsent, h.order, h.answered⟩
  | refuse e => exact h
  | tick => exact h
  | panic => exact h.panic
  | settle e => exact h
  | submit data => exact h.submit data
  | close hi => exact h.close hi
  | @collect m rest hreceiver =>
    refine h.move ?_ ?_
    · rw [hreceiver, List.append_cons q.buffer m rest]
    · intro m' hm' _
      rwa [hreceiver, List.append_cons q.buffer m rest] at hm'
  | @sweep m rest hreceiver =>
    refine h.move ?_ ?_
    · rw [hreceiver, List.append_cons q.buffer m rest]
      exact List.filter_sublist.append (List.Sublist.refl _)
    · intro m' hm hopen
      rw [hreceiver, List.append_cons q.buffer m rest] at hm
      rcases List.mem_append.mp hm with hm | hm
      · refine List.mem_append_left _ (List.mem_filter.mpr ⟨hm, ?_⟩)
        rw [hopen]
        rfl
      · exact List.mem_append_right _ hm
  | skip e hbuffer hclosed =>
    refine h.move ?_ ?_
    · rw [hbuffer]
      exact (List.sublist_cons_self _ _).append (List.Sublist.refl _)
    · intro m hm hopen
      rw [hbuffer] at hm
      rcases List.mem_cons.mp hm with rfl | hm
      · exact absurd hopen (Oneshot.ne_waiting_of_isClosed hclosed)
      · exact hm
  | write hbuffer _ => exact h.write hbuffer
  | leave => exact h.leave
  | reply bytes hpending => exact h.reply bytes hpending

end Orderly
end Queues

namespace Outgoing

theorem orderly_of_reachable {address : SocketAddr} {o : Outgoing}
    (h : machine.Reachable (spawn address) o) : o.queues.Orderly := by
  refine h.invariant (P := fun o => o.queues.Orderly) (Queues.Orderly.spawn address) ?_
  intro o a _ ih hguard
  exact ih.effect (effect_of_step (GuardedMachine.ofStep_next hguard))

/-! ## What the caller may rely on -/

variable {o o' : Outgoing}

/-- The counter of failed attempts does not overflow in a step. -/
def RetryFits (o : Outgoing) : Action → Prop
  | .timer => o.connection.retry < u16Max
  | _ => True

instance (o : Outgoing) : DecidablePred o.RetryFits
  | .timer => inferInstanceAs (Decidable (_ < _))
  | .send _ => .isTrue trivial
  | .cancel _ => .isTrue trivial
  | .connect _ => .isTrue trivial
  | .recv => .isTrue trivial
  | .write _ => .isTrue trivial
  | .response _ => .isTrue trivial

/-- The task goes on. -/
theorem running_of_step {a : Action} (hrunning : o.connection.phase ≠ .panicked)
    (hfits : o.RetryFits a) (h : o.step a = some o') : o'.connection.phase ≠ .panicked := by
  by_cases htimer : a = .timer
  · subst htimer
    simp only [step, timer] at h
    split at h
    · have hretry : o.connection.retry < u16Max := hfits
      rw [if_pos hretry] at h
      rw [← Option.some.inj h]
      exact nofun
    · cases h
  · have hsame : o'.queues.panicked = o.queues.panicked := by
      have heffect := effect_of_step h
      generalize o'.queues = q' at heffect ⊢
      cases heffect with
      | panic => exact absurd rfl htimer
      | _ => rfl
    have hrunning : o.queues.panicked = false := decide_eq_false hrunning
    exact of_decide_eq_false (hsame.trans hrunning)

/-- A task that has panicked is not started again. -/
theorem panicked_of_step {a : Action} (hphase : o.connection.phase = .panicked)
    (h : o.step a = some o') : o'.connection.phase = .panicked := by
  cases a with
  | cancel i =>
    simp only [step, cancel] at h
    split_ifs at h
    rw [← Option.some.inj h]
    exact hphase
  | send data => simp [step, send, hphase] at h
  | connect outcome => simp [step, connect, hphase] at h
  | timer => simp [step, timer, hphase] at h
  | recv => simp [step, recv, hphase] at h
  | write outcome => simp [step, write, hphase] at h
  | response r => simp [step, response, hphase] at h

theorem running_of_reachable {address : SocketAddr} {o : Outgoing}
    (h : (machine.restrict RetryFits).Reachable (spawn address) o) :
    o.connection.phase ≠ .panicked := by
  refine h.invariant (P := fun o => o.connection.phase ≠ .panicked) nofun ?_
  intro o a _ hrunning hguard
  exact running_of_step hrunning hguard.2 (GuardedMachine.ofStep_next hguard.1)

/-- **Nothing is lost and the order is kept**, as long as there are at most 65535 failed attempts
in a row.  In every reachable state the handlers are numbered in the order of submission; a message
whose handler still waits is held exactly once; the held messages are in the order of submission,
and so are those that went over the current stream; and the `k`-th frame that came back over it has
resolved the handler of the `k`-th of them. -/
theorem reliable_of_reachable {address : SocketAddr} {o : Outgoing}
    (h : (machine.restrict RetryFits).Reachable (spawn address) o) :
    o.submitted.map InnerMessage.cancelHandler = List.range o.submitted.length ∧
      (∀ m ∈ o.submitted, o.oneshots m.cancelHandler = .waiting → o.queues.held.count m = 1) ∧
      o.queues.held.Sublist o.submitted ∧
      o.connection.phase.stream.written.Sublist o.submitted ∧
      ∀ (k : ℕ) (b : Bytes), o.connection.phase.stream.replies[k]? = some b →
        ∃ m, o.connection.phase.stream.written[k]? = some m ∧ o.queues.Resolved m b := by
  have hrunning := running_of_reachable h
  have horderly := orderly_of_reachable (h.mono (fun _ _ => rfl) fun _ _ _ hguard => hguard.1)
  refine ⟨horderly.numbered, ?_, horderly.holds.sublist, ?_, ?_⟩
  · intro m hm hopen
    exact horderly.holds.count_eq_one hm (Queues.not_settled hopen (decide_eq_false hrunning))
  · have hwritten := (List.sublist_append_left o.connection.phase.stream.written _).trans
      (List.append_assoc _ _ _ ▸ horderly.order)
    exact hwritten
  · intro k b hb
    exact horderly.answered.exists_getElem? hb

/-- Two messages and two connections: the first message is acknowledged only on the second
connection, where the second one is still pending. -/
def redial : List Action :=
  [.send [1], .connect (some ⟨"refused"⟩), .recv, .timer, .connect none, .write none,
    .write none, .send [2], .recv, .write (some ⟨"reset"⟩), .connect none, .write none,
    .write none, .write none, .response (some (.ok [7]))]

theorem reliable_of_reachable_redial :
    let o := (machine.restrict RetryFits).run (spawn ⟨[127, 0, 0, 1], 9000⟩) redial
    o.queues.held.count ⟨[2], 1⟩ = 1 ∧ o.queues.Resolved ⟨[1], 0⟩ [7] := by
  have hlegal : (machine.restrict RetryFits).Legal (spawn ⟨[127, 0, 0, 1], 9000⟩) redial := by
    decide
  have hreliable := reliable_of_reachable (GuardedMachine.reachable_run redial hlegal)
  obtain ⟨-, hcount, -, -, hreplies⟩ := hreliable
  refine ⟨hcount ⟨[2], 1⟩ (by decide) (by decide), ?_⟩
  obtain ⟨m, hm, hresolved⟩ := hreplies 0 [7] (by decide)
  have hfirst : some (⟨[1], 0⟩ : InnerMessage) = some m := by
    rw [← hm]
    decide
  rwa [Option.some.inj hfirst]

/-! ## What is lost -/

/-- A task that waits when its counter is at its end panics, and drops all that it holds. -/
theorem panic_of_waiting (hphase : o.connection.phase = .waiting)
    (hretry : u16Max ≤ o.connection.retry) :
    ∃ o', o.step .timer = some o' ∧ o'.connection.phase = .panicked ∧ o'.queues.held = [] ∧
      o'.submitted = o.submitted ∧ o'.oneshots = o.oneshots := by
  unfold step timer
  simp only [hphase, if_neg (not_lt.mpr hretry)]
  exact ⟨_, rfl, rfl, rfl, rfl, rfl⟩

/-- One failed attempt more than the counter can count, with the delay after it. -/
def overflow (n : ℕ) : List Action :=
  outage n ++ [.connect (some ⟨"refused"⟩), .timer]

theorem mem_overflow {n : ℕ} {a : Action} (h : a ∈ overflow n) :
    a = .connect (some ⟨"refused"⟩) ∨ a = .timer := by
  rcases List.mem_append.mp h with h | h
  · exact mem_outage h
  · simpa using h

/-- It is the last. -/
theorem legal_overflow (hphase : o.connection.phase = .connecting) {n : ℕ}
    (hn : o.connection.retry + n = u16Max) :
    machine.Legal o (overflow n) ∧
      (machine.run o (overflow n)).connection.phase = .panicked ∧
      (machine.run o (overflow n)).queues.held = [] ∧
      (machine.run o (overflow n)).submitted = o.submitted ∧
      (machine.run o (overflow n)).oneshots = o.oneshots := by
  obtain ⟨hlegal, hafter⟩ := legal_outage hphase hn.le
  obtain ⟨o₁, hconnect, hwaiting, hretry, hsubmitted₁, honeshots₁⟩ :=
    connect_of_connecting hafter.phase ⟨"refused"⟩
  obtain ⟨o₂, htimer, hpanicked, hheld, hsubmitted₂, honeshots₂⟩ := panic_of_waiting hwaiting
    (by rw [hretry, hafter.retry, hn])
  obtain ⟨hguard₁, hnext₁⟩ := GuardedMachine.ofStep_of_some hconnect
  obtain ⟨hguard₂, hnext₂⟩ := GuardedMachine.ofStep_of_some htimer
  have hrun : machine.run o (overflow n) = o₂ := by
    rw [overflow, GuardedMachine.run_append]
    show machine.next (machine.next _ _) _ = o₂
    rw [hnext₁, hnext₂]
  refine ⟨GuardedMachine.legal_append.mpr ⟨hlegal, hguard₁, ?_, trivial⟩, ?_⟩
  · rw [hnext₁]
    exact hguard₂
  · rw [hrun]
    exact ⟨hpanicked, hheld, hsubmitted₂.trans (hsubmitted₁.trans hafter.submitted),
      honeshots₂.trans (honeshots₁.trans hafter.oneshots)⟩

theorem dropped_of_overflow (address : SocketAddr) {n : ℕ} (hn : n = u16Max) :
    ∃ o, machine.Reachable (spawn address) o ∧ ∃ m ∈ o.submitted,
      o.oneshots m.cancelHandler = .waiting ∧ o.queues.held.count m = 0 := by
  have hsend : machine.Reachable (spawn address) (machine.run (spawn address) [.send [1]]) :=
    GuardedMachine.reachable_run _ ⟨rfl, trivial⟩
  obtain ⟨hlegal, -, hheld, hsubmitted, honeshots⟩ :=
    @legal_overflow (machine.run (spawn address) [.send [1]]) rfl n ((Nat.zero_add n).trans hn)
  refine ⟨_, hsend.trans (GuardedMachine.reachable_run _ hlegal), ⟨[1], 0⟩, ?_, ?_, ?_⟩
  · rw [hsubmitted]
    exact List.mem_cons_self
  · rw [honeshots]
    rfl
  · rw [hheld]
    rfl

/-- **A message is lost**: it has been submitted, nobody has cancelled it, and its peer is away for
65536 attempts in a row. -/
theorem exists_dropped :
    ∃ o, machine.Reachable (spawn ⟨[127, 0, 0, 1], 80⟩) o ∧ ∃ m ∈ o.submitted,
      o.oneshots m.cancelHandler = .waiting ∧ o.queues.held.count m = 0 :=
  dropped_of_overflow _ rfl

end Outgoing
end NeroConsensus
