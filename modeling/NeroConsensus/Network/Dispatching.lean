import NeroConsensus.Network.Acknowledgement

/-!
# What a session does to its handler

The handler of a session changes when a runner gives it a frame that had reached the runner, and
in no other step (`Session.dispatched_of_step`).  A message is submitted by `send` and by nothing
else, and as long as nobody drops a handler and no frame comes back, all handlers wait
(`Session.oneshots_of_step`).
-/

namespace NeroConsensus

universe u v

variable {H : Type u} {ε : Type v}

/-! ## The sender -/

namespace Effect

variable {q q' : Queues} {a : Action}

theorem submitted_eq (h : Effect q a q') (hsend : ∀ data, a ≠ .send data) :
    q'.submitted = q.submitted := by
  cases h with
  | submit data => exact absurd rfl (hsend data)
  | _ => rfl

theorem oneshots_eq (h : Effect q a q') (hcancel : ∀ i, a ≠ .cancel i)
    (hframe : ∀ b, a ≠ .response (some (.ok b))) : q'.oneshots = q.oneshots := by
  cases h with
  | @close i hi => exact absurd rfl (hcancel i)
  | reply bytes _ => exact absurd rfl (hframe bytes)
  | _ => rfl

end Effect

theorem Outgoing.submitted_of_step {o o' : Outgoing} {a : Action} (h : o.step a = some o')
    (hsend : ∀ data, a ≠ .send data) : o'.submitted = o.submitted :=
  (effect_of_step h).submitted_eq hsend

theorem Outgoing.submitted_of_send {o o' : Outgoing} {data : Bytes} (h : o.send data = some o') :
    o'.submitted.map InnerMessage.data = o.submitted.map InnerMessage.data ++ [data] := by
  unfold Outgoing.send at h
  split_ifs at h
  rw [← Option.some.inj h]
  exact List.map_append

/-- There is a stream only where a connection is established. -/
theorem Outgoing.stream_of_down {o : Outgoing} (hdown : ¬o.queues.up = true) :
    o.queues.stream = Stream.new := by
  cases hphase : o.connection.phase with
  | connecting => exact congrArg Phase.stream hphase
  | waiting => exact congrArg Phase.stream hphase
  | draining stream => exact absurd (congrArg Phase.up hphase) hdown
  | selecting stream => exact absurd (congrArg Phase.up hphase) hdown
  | panicked => exact congrArg Phase.stream hphase

/-! ## The runners -/

/-- A runner that gets a frame gives it to the handler. -/
theorem Runner.serve_cases {handler : MessageHandler H ε} {h h' : H} {r r' : Runner ε}
    (hserve : r.serve handler h = some (h', r')) :
    ∃ m ∈ r.incoming, r'.dispatched = r.dispatched ++ [m] ∧
      ((handler.dispatch h m.data).1 = .ok h' ∨
        (∃ e, (handler.dispatch h m.data).1 = .error e) ∧ h' = h) := by
  unfold Runner.serve at hserve
  split at hserve
  · rename_i m rest _ hincoming
    refine ⟨m, hincoming ▸ List.mem_cons_self, ?_⟩
    cases hresult : (handler.dispatch h m.data).1 with
    | ok h'' =>
      simp only [hresult] at hserve
      obtain ⟨rfl, rfl⟩ := Prod.mk.inj (Option.some.inj hserve)
      exact ⟨rfl, Or.inl rfl⟩
    | error e =>
      simp only [hresult] at hserve
      obtain ⟨rfl, rfl⟩ := Prod.mk.inj (Option.some.inj hserve)
      exact ⟨rfl, Or.inr ⟨⟨e, rfl⟩, rfl⟩⟩
  · cases hserve

namespace Session

variable {s s' : Session H ε} {handler : MessageHandler H ε}

/-- Some runner has given the message to the handler. -/
def Dispatched (s : Session H ε) (m : InnerMessage) : Prop :=
  ∃ r ∈ s.runners, m ∈ r.dispatched

theorem Dispatched.of_cons {r : Runner ε} {rs : List (Runner ε)} {m : InnerMessage}
    (hrunners : s.runners = r :: rs) {r' : Runner ε} (hr' : r'.dispatched = r.dispatched)
    (hm : ∃ r₁ ∈ r' :: rs, m ∈ r₁.dispatched) : s.Dispatched m := by
  obtain ⟨r₁, hr₁, hm⟩ := hm
  rw [Dispatched, hrunners]
  rcases List.mem_cons.mp hr₁ with rfl | hr₁
  · exact ⟨r, List.mem_cons_self, hr' ▸ hm⟩
  · exact ⟨r₁, List.mem_cons_of_mem _ hr₁, hm⟩

/-- A step of the sender gives nothing to the handler. -/
theorem dispatched_of_send {a : Action} (hsend : s.send a = some s') :
    s'.handler = s.handler ∧ ∀ m, s'.Dispatched m → s.Dispatched m := by
  obtain ⟨o, -, h⟩ := Option.bind_eq_some_iff.mp hsend
  clear hsend
  split at h
  · obtain rfl := Option.some.inj h
    refine ⟨rfl, fun m hm => ?_⟩
    obtain ⟨r, hr, hm⟩ := hm
    rcases List.mem_cons.mp hr with rfl | hr
    · exact absurd hm List.not_mem_nil
    · exact ⟨r, hr, hm⟩
  · rename_i hrunners
    obtain rfl := Option.some.inj h
    exact ⟨rfl, fun m => Dispatched.of_cons hrunners rfl⟩
  · rename_i hrunners
    split at h
    · cases h
    · split_ifs at h
      obtain rfl := Option.some.inj h
      exact ⟨rfl, fun m => Dispatched.of_cons hrunners rfl⟩
  · cases h
  · obtain rfl := Option.some.inj h
    exact ⟨rfl, fun m hm => hm⟩

/-- One runner is replaced. -/
theorem Dispatched.of_set {k : ℕ} {r' : Runner ε} {m : InnerMessage}
    (hm : ∃ r₁ ∈ s.runners.set k r', m ∈ r₁.dispatched) :
    s.Dispatched m ∨ m ∈ r'.dispatched := by
  obtain ⟨r₁, hr₁, hm⟩ := hm
  rcases List.mem_or_eq_of_mem_set hr₁ with hr₁ | rfl
  · exact Or.inl ⟨r₁, hr₁, hm⟩
  · exact Or.inr hm

theorem dispatched_of_hangUp {k : ℕ} {outcome : Option IoError}
    (h : s.hangUp k outcome = some s') :
    s'.handler = s.handler ∧ ∀ m, s'.Dispatched m → s.Dispatched m := by
  obtain ⟨r, hr, h⟩ := Option.bind_eq_some_iff.mp h
  obtain ⟨r', hhang, rfl⟩ := Option.map_eq_some_iff.mp h
  have hdispatched : r'.dispatched = r.dispatched := by
    unfold Runner.hangUp at hhang
    split_ifs at hhang
    cases outcome <;> (obtain rfl := Option.some.inj hhang; rfl)
  refine ⟨rfl, fun m hm => (Dispatched.of_set hm).elim id fun hm => ?_⟩
  exact ⟨r, List.mem_of_getElem? hr, hdispatched ▸ hm⟩

/-- A frame that has reached a runner is given to the handler. -/
theorem dispatched_of_serve {k : ℕ} (h : s.serve handler k = some s') :
    ∃ m, (∃ r ∈ s.runners, m ∈ r.incoming) ∧
      (∀ m', s'.Dispatched m' → s.Dispatched m' ∨ m' = m) ∧
      ((handler.dispatch s.handler m.data).1 = .ok s'.handler ∨
        (∃ e, (handler.dispatch s.handler m.data).1 = .error e) ∧ s'.handler = s.handler) := by
  obtain ⟨r, hr, h⟩ := Option.bind_eq_some_iff.mp h
  obtain ⟨⟨h', r'⟩, hserve, rfl⟩ := Option.map_eq_some_iff.mp h
  obtain ⟨m, hm, hdispatched, hresult⟩ := Runner.serve_cases hserve
  refine ⟨m, ⟨r, List.mem_of_getElem? hr, hm⟩, fun m' hm' => ?_, hresult⟩
  rcases Dispatched.of_set hm' with hold | hnew
  · exact Or.inl hold
  · rw [hdispatched] at hnew
    rcases List.mem_append.mp hnew with hold | hnew
    · exact Or.inl ⟨r, List.mem_of_getElem? hr, hold⟩
    · exact Or.inr (List.mem_singleton.mp hnew)

/-- **What a step does to the handler.** -/
theorem dispatched_of_step {e : SessionEvent} (h : s.step handler e = some s') :
    (s'.handler = s.handler ∧ ∀ m, s'.Dispatched m → s.Dispatched m) ∨
      ∃ m, (∃ r ∈ s.runners, m ∈ r.incoming) ∧
        (∀ m', s'.Dispatched m' → s.Dispatched m' ∨ m' = m) ∧
        ((handler.dispatch s.handler m.data).1 = .ok s'.handler ∨
          (∃ e, (handler.dispatch s.handler m.data).1 = .error e) ∧ s'.handler = s.handler) := by
  cases e with
  | sender a => exact Or.inl (dispatched_of_send h)
  | serve k => exact Or.inr (dispatched_of_serve h)
  | hangUp k outcome => exact Or.inl (dispatched_of_hangUp h)

/-- The sender of a session moves in its own steps only. -/
theorem sender_cases_of_step {e : SessionEvent} (h : s.step handler e = some s') :
    (∃ a, e = .sender a ∧ s.sender.step a = some s'.sender) ∨ s'.sender = s.sender := by
  cases e with
  | sender a => exact Or.inl ⟨a, rfl, sender_of_send h⟩
  | serve k =>
    obtain ⟨r, -, h⟩ := Option.bind_eq_some_iff.mp h
    obtain ⟨_, -, rfl⟩ := Option.map_eq_some_iff.mp h
    exact Or.inr rfl
  | hangUp k outcome =>
    obtain ⟨r, -, h⟩ := Option.bind_eq_some_iff.mp h
    obtain ⟨_, -, rfl⟩ := Option.map_eq_some_iff.mp h
    exact Or.inr rfl

theorem submitted_of_step {e : SessionEvent} (h : s.step handler e = some s')
    (hsend : ∀ data, e ≠ .sender (.send data)) : s'.sender.submitted = s.sender.submitted := by
  rcases sender_cases_of_step h with ⟨a, rfl, hstep⟩ | hsame
  · exact Outgoing.submitted_of_step hstep fun data ha => hsend data (ha ▸ rfl)
  · rw [hsame]

/-- Without frames that come back, a handler is settled when it is dropped. -/
theorem Sound.oneshots_of_step (hs : Sound 0 s) {e : SessionEvent}
    (h : s.step handler e = some s') (hcancel : ∀ i, e ≠ .sender (.cancel i)) :
    s'.sender.oneshots = s.sender.oneshots := by
  rcases sender_cases_of_step h with ⟨a, rfl, hstep⟩ | hsame
  · refine (Outgoing.effect_of_step hstep).oneshots_eq (fun i ha => hcancel i (ha ▸ rfl)) ?_
    rintro b rfl
    obtain ⟨hup, r, rs, hrunners, houtgoing⟩ := frame_of_send h
    obtain ⟨-, hreplies⟩ := hs.link_cons hrunners hup
    rw [Nat.zero_mul] at hreplies
    exact houtgoing (List.eq_nil_of_length_eq_zero (Nat.eq_zero_of_add_eq_zero_left hreplies))
  · rw [hsame]

/-- **What has become of a message that nobody has given up**, without frames that come back and as
long as the task has not panicked: it waits at the sender, or the newest runner has it. -/
theorem Sound.mem_of_submitted (hs : Sound 0 s)
    (hrunning : s.sender.connection.phase ≠ .panicked) {m : InnerMessage}
    (hm : m ∈ s.sender.submitted) (hopen : s.sender.oneshots m.cancelHandler = .waiting) :
    m ∈ s.sender.connection.buffer ∨ m ∈ s.sender.connection.receiver ∨
      ∃ r rs, s.runners = r :: rs ∧ m ∈ r.dispatched ++ r.incoming := by
  have hheld : m ∈ s.sender.queues.held :=
    hs.orderly.holds.kept m hm (Queues.not_settled hopen (decide_eq_false hrunning))
  rcases List.mem_append.mp hheld with hheld | hreceiver
  · rcases List.mem_append.mp hheld with hpending | hbuffer
    · -- only an established connection has pending messages
      have hup : s.sender.queues.up = true := by
        by_contra hdown
        rw [Outgoing.stream_of_down hdown] at hpending
        exact List.not_mem_nil hpending
      obtain ⟨r, rs, hrunners, -⟩ := hs.link hup
      rw [hs.pendingReplies_eq hrunners hup] at hpending
      exact Or.inr (Or.inr ⟨r, rs, hrunners, hpending⟩)
    · exact Or.inl hbuffer
  · exact Or.inr (Or.inl hreceiver)

end Session
end NeroConsensus
