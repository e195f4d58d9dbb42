import NeroConsensus.Network.Dispatching

/-!
# In the order of submission

Where no frame comes back and no handler is dropped, all that has gone over a connection is
pending, and is put back before the buffer when the connection breaks.  So the next connection
starts again with the first message, and what a runner has got, over whichever connection, is a
beginning of what has been submitted (`Session.InOrder`).
-/

namespace NeroConsensus

universe u v

variable {H : Type u} {ε : Type v}

theorem Effect.submitted_mono {q q' : Queues} {a : Action} (h : Effect q a q') :
    q.submitted <+: q'.submitted := by
  cases h with
  | submit data => exact List.prefix_append _ _
  | _ => exact List.prefix_rfl

namespace Session

variable {n : ℕ} {s s' : Session H ε} {handler : MessageHandler H ε}

/-- One runner is replaced by one with the same frames. -/
theorem frames_of_set {k : ℕ} {r r' : Runner ε} (hr : s.runners[k]? = some r)
    (hsame : r'.dispatched ++ r'.incoming = r.dispatched ++ r.incoming) {h' : H} :
    ∀ r₁ ∈ ({ s with runners := s.runners.set k r', handler := h' } : Session H ε).runners,
      (∃ r ∈ s.runners, r₁.dispatched ++ r₁.incoming = r.dispatched ++ r.incoming) ∨
        r₁.dispatched ++ r₁.incoming = s.sender.queues.stream.written := by
  intro r₁ hr₁
  rcases List.mem_or_eq_of_mem_set hr₁ with hr₁ | rfl
  · exact Or.inl ⟨r₁, hr₁, rfl⟩
  · exact Or.inl ⟨r, List.mem_of_getElem? hr, hsame⟩

/-- A step of the sender starts a runner, or gives the newest a frame. -/
theorem frames_of_send (hs' : Sound n s') {a : Action} (hsend : s.send a = some s') :
    ∀ r' ∈ s'.runners,
      (∃ r ∈ s.runners, r'.dispatched ++ r'.incoming = r.dispatched ++ r.incoming) ∨
        r'.dispatched ++ r'.incoming = s'.sender.queues.stream.written := by
  have hkept : ∀ {r r' : Runner ε} {rs : List (Runner ε)}, s.runners = r :: rs →
      r'.dispatched ++ r'.incoming = r.dispatched ++ r.incoming → ∀ r₁ ∈ r' :: rs,
        ∃ r ∈ s.runners, r₁.dispatched ++ r₁.incoming = r.dispatched ++ r.incoming := by
    intro r r' rs hrunners hsame r₁ hr₁
    rw [hrunners]
    rcases List.mem_cons.mp hr₁ with rfl | hr₁
    · exact ⟨r, List.mem_cons_self, hsame⟩
    · exact ⟨r₁, List.mem_cons_of_mem _ hr₁, rfl⟩
  obtain ⟨o, ho, h⟩ := Option.bind_eq_some_iff.mp hsend
  clear hsend
  split at h
  · obtain rfl := Option.some.inj h
    intro r' hr'
    rcases List.mem_cons.mp hr' with rfl | hr'
    · refine Or.inr (congrArg Stream.written (?_ : Stream.new = o.queues.stream))
      by_cases hup : o.queues.up = true
      · exact ((Outgoing.effect_of_step ho).of_dial hup).symm
      · exact (Outgoing.stream_of_down hup).symm
    · exact Or.inl ⟨r', hr', rfl⟩
  · rename_i r rs hrunners
    obtain rfl := Option.some.inj h
    by_cases hup : o.queues.up = true
    · intro r' hr'
      rcases List.mem_cons.mp hr' with rfl | hr'
      · exact Or.inr (hs'.link_cons rfl hup).1.symm
      · exact Or.inl ⟨r', hrunners ▸ List.mem_cons_of_mem _ hr', rfl⟩
    · refine fun r' hr' => Or.inl (hkept hrunners ?_ r' hr')
      have hnone : transmitted s.sender o = [] := by
        show o.queues.stream.written.drop _ = []
        rw [Outgoing.stream_of_down hup]
        exact List.drop_nil
      show r.dispatched ++ (r.incoming ++ transmitted s.sender o) = _
      rw [hnone, List.append_nil]
  · rename_i hrunners
    split at h
    · cases h
    · split_ifs at h
      obtain rfl := Option.some.inj h
      refine fun r' hr' => Or.inl (hkept hrunners ?_ r' hr')
      rfl
  · cases h
  · obtain rfl := Option.some.inj h
    exact fun r' hr' => Or.inl ⟨r', hr', rfl⟩

/-- What a step does to the frames of the runners: nothing, or the newest gets what has gone over
the stream. -/
theorem frames_of_step (hs' : Sound n s') {e : SessionEvent}
    (h : s.step handler e = some s') : ∀ r' ∈ s'.runners,
      (∃ r ∈ s.runners, r'.dispatched ++ r'.incoming = r.dispatched ++ r.incoming) ∨
        r'.dispatched ++ r'.incoming = s'.sender.queues.stream.written := by
  cases e with
  | sender a => exact frames_of_send hs' h
  | serve k =>
    obtain ⟨r, hr, h⟩ := Option.bind_eq_some_iff.mp h
    obtain ⟨⟨h', r'⟩, hserve, rfl⟩ := Option.map_eq_some_iff.mp h
    exact frames_of_set hr (Runner.serve_spec hserve).1
  | hangUp k outcome =>
    obtain ⟨r, hr, h⟩ := Option.bind_eq_some_iff.mp h
    obtain ⟨r', hhang, rfl⟩ := Option.map_eq_some_iff.mp h
    refine frames_of_set hr ?_
    unfold Runner.hangUp at hhang
    split_ifs at hhang
    cases outcome <;> (obtain rfl := Option.some.inj hhang; rfl)

/-- Submitted messages stay so. -/
theorem submitted_mono {e : SessionEvent} (h : s.step handler e = some s') :
    s.sender.submitted <+: s'.sender.submitted := by
  rcases sender_cases_of_step h with ⟨a, -, hstep⟩ | hsame
  · exact (Outgoing.effect_of_step hstep).submitted_mono
  · rw [hsame]

/-- What has gone over the stream is a beginning of what has been submitted. -/
theorem Sound.written_begins (hs : Sound 0 s) (hopen : ∀ i, s.sender.oneshots i = .waiting) :
    s.sender.queues.stream.written <+: s.sender.submitted := by
  by_cases hup : s.sender.queues.up = true
  · obtain ⟨r, rs, hrunners, hwritten, -⟩ := hs.link hup
    have hheld := hs.orderly.holds.eq_of_forall_not fun m _ =>
      Queues.not_settled (hopen m.cancelHandler) (Outgoing.panicked_of_up hup)
    show _ <+: s.sender.queues.submitted
    rw [← hheld, Queues.held, hs.pendingReplies_eq hrunners hup, ← hwritten, List.append_assoc]
    exact List.prefix_append _ _
  · rw [Outgoing.stream_of_down hup]
    exact List.nil_prefix

/-- The runners have got the messages in the order of submission, without a gap. -/
def InOrder (s : Session H ε) : Prop :=
  ∀ r ∈ s.runners, r.dispatched ++ r.incoming <+: s.sender.submitted

theorem InOrder.step (hinorder : s.InOrder) (hs' : Sound 0 s')
    (hopen : ∀ i, s'.sender.oneshots i = .waiting) {e : SessionEvent}
    (h : s.step handler e = some s') : s'.InOrder := by
  intro r' hr'
  rcases frames_of_step hs' h r' hr' with ⟨r, hr, hsame⟩ | hwritten
  · rw [hsame]
    exact (hinorder r hr).trans (submitted_mono h)
  · rw [hwritten]
    exact hs'.written_begins hopen

/-- What a runner gives to the handler comes next after what it has given to it before. -/
theorem handler_of_step {e : SessionEvent} (h : s.step handler e = some s') :
    s'.handler = s.handler ∨ ∃ r ∈ s.runners, ∃ r' ∈ s'.runners, ∃ m,
      r'.dispatched = r.dispatched ++ [m] ∧
        (handler.dispatch s.handler m.data).1 = .ok s'.handler := by
  cases e with
  | sender a => exact Or.inl (dispatched_of_send h).1
  | serve k =>
    obtain ⟨r, hr, h⟩ := Option.bind_eq_some_iff.mp h
    obtain ⟨⟨h', r'⟩, hserve, rfl⟩ := Option.map_eq_some_iff.mp h
    obtain ⟨hk, -⟩ := List.getElem?_eq_some_iff.mp hr
    obtain ⟨m, -, hdispatched, hok | ⟨-, hsame⟩⟩ := Runner.serve_cases hserve
    · exact Or.inr
        ⟨r, List.mem_of_getElem? hr, r', List.mem_set hk r', m, hdispatched, hok⟩
    · exact Or.inl hsame
  | hangUp k outcome => exact Or.inl (dispatched_of_hangUp h).1

end Session
end NeroConsensus
