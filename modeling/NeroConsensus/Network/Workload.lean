import NeroConsensus.Network.Dispatching

/-!
# What a connection has still to do

A message goes from the channel to the buffer and from there to the runner, and `Session.load`
counts how far it has still to go.  When a connection breaks all goes back to the buffer, so there
is a second count, `Session.strain`, of what has still to happen until the connection stays: the
attempts that are left, and whether the newest runner is still there.

Each step that a working connection makes by itself lowers the strain, or it leaves the strain and
lowers the load.
-/

namespace NeroConsensus

universe u v

/-! ## The sender -/

/-- The turn of the loop that finds the buffer empty is still to come. -/
def Phase.turns : Phase → ℕ
  | draining _ => 1
  | _ => 0

namespace Outgoing

variable {o o' : Outgoing}

/-- How far the messages have still to go. -/
def load (o : Outgoing) : ℕ :=
  5 * o.connection.receiver.length + 3 * o.connection.buffer.length + o.connection.phase.turns

/-- The attempts that are left, where no connection is established. -/
def attempts (o : Outgoing) : ℕ :=
  match o.connection.phase with
  | .connecting => 2 * (u16Max - o.connection.retry) + 2
  | .waiting => 2 * (u16Max - o.connection.retry) + 1
  | _ => 0

theorem load_of_send {data : Bytes} (h : o.send data = some o') :
    o'.connection.phase = o.connection.phase ∧ o'.attempts = o.attempts ∧
      o'.load = o.load + 5 := by
  unfold send at h
  split_ifs at h
  rw [← Option.some.inj h]
  refine ⟨rfl, rfl, ?_⟩
  simp only [load, List.length_append, List.length_singleton]
  omega

theorem load_of_recv (h : o.recv = some o') :
    o'.connection.phase.up = o.connection.phase.up ∧ o'.attempts = o.attempts ∧
      o'.load < o.load := by
  simp only [recv] at h
  split at h
  · rename_i m rest hphase hreceiver
    rw [← Option.some.inj h]
    refine ⟨rfl, ?_, ?_⟩
    · simp [attempts, hphase]
    have hfilter := List.length_filter_le (fun m => !(o.oneshots m.cancelHandler).isClosed)
      (o.connection.buffer ++ [m])
    rw [List.length_append, List.length_singleton] at hfilter
    simp only [load, hreceiver, List.length_cons]
    omega
  · rename_i s m rest hphase hreceiver
    rw [← Option.some.inj h]
    refine ⟨?_, ?_, ?_⟩
    · simp [hphase, Phase.up]
    · simp [attempts, hphase]
    · simp [load, hphase, hreceiver, Phase.turns]
      omega
  · cases h

/-- What is written goes to the runner. -/
theorem load_of_write (h : o.write none = some o') :
    o'.connection.phase.up = o.connection.phase.up ∧ o'.attempts = o.attempts ∧
      o'.load + 2 * (Session.transmitted o o').length < o.load := by
  simp only [write] at h
  split at h
  · rename_i s hphase hbuffer
    rw [← Option.some.inj h]
    refine ⟨?_, ?_, ?_⟩
    · simp [hphase, Phase.up]
    · simp [attempts, hphase]
    · simp [load, hphase, Phase.turns, Session.transmitted, Phase.stream]
  · rename_i s m rest hphase hbuffer
    split_ifs at h
    · rw [← Option.some.inj h]
      refine ⟨rfl, rfl, ?_⟩
      simp [load, hphase, hbuffer, Phase.turns, Session.transmitted, Phase.stream]
    · rw [← Option.some.inj h]
      refine ⟨?_, ?_, ?_⟩
      · simp [hphase, Phase.up]
      · simp [attempts, hphase]
      · simp [load, hphase, hbuffer, Phase.turns, Session.transmitted, Phase.stream]
        omega
  · cases h

/-- An attempt to connect has failed. -/
theorem attempts_of_connect {e : IoError} (h : o.connect (some e) = some o') :
    o.connection.phase.up = false ∧ o'.connection.phase.up = false ∧
      o'.attempts < o.attempts := by
  simp only [connect] at h
  split at h
  · rename_i hphase
    rw [← Option.some.inj h]
    refine ⟨?_, rfl, ?_⟩
    · rw [hphase]
      rfl
    · simp [attempts, hphase]
  · cases h

theorem attempts_of_timer (h : o.timer = some o') :
    o.connection.phase.up = false ∧ o'.connection.phase.up = false ∧
      o'.attempts < o.attempts := by
  simp only [timer] at h
  split at h
  · rename_i hphase
    have hdown : o.connection.phase.up = false := by
      rw [hphase]
      rfl
    split_ifs at h with hretry
    · rw [← Option.some.inj h]
      refine ⟨hdown, rfl, ?_⟩
      simp only [attempts, hphase]
      omega
    · rw [← Option.some.inj h]
      refine ⟨hdown, rfl, ?_⟩
      simp only [attempts, hphase, Connection.panic]
      omega
  · cases h

theorem waiting_of_timer (h : o.timer = some o') : o.connection.phase = .waiting := by
  simp only [timer] at h
  split at h
  · assumption
  · cases h

/-- A connection has been established. -/
theorem up_of_connect (h : o.connect none = some o') :
    o.connection.phase.up = false ∧ o'.connection.phase.up = true ∧ 0 < o.attempts := by
  simp only [connect] at h
  split at h
  · rename_i hphase
    rw [← Option.some.inj h]
    refine ⟨?_, rfl, ?_⟩
    · rw [hphase]
      rfl
    · simp [attempts, hphase]
  · cases h

/-- A connection breaks. -/
theorem down_of_response (h : o.response none = some o') :
    o.connection.phase.up = true ∧ o'.connection.phase.up = false ∧
      o'.attempts < 2 * u16Max + 3 := by
  simp only [response] at h
  split at h
  · rename_i s hphase
    have hup : o.connection.phase.up = true := by
      rw [hphase]
      rfl
    split at h <;>
    · rw [← Option.some.inj h]
      refine ⟨hup, rfl, ?_⟩
      simp only [attempts, Connection.leave]
      omega
  · cases h

/-- A write fails, unless there was nothing to write. -/
theorem down_of_write {e : IoError} (h : o.write (some e) = some o') :
    o.write none = some o' ∨ o.connection.phase.up = true ∧ o'.connection.phase.up = false ∧
      o'.attempts < 2 * u16Max + 3 := by
  simp only [write] at h ⊢
  split at h
  · exact Or.inl h
  · rename_i hphase _
    split_ifs at h with hclosed
    · exact Or.inl (by rw [if_pos hclosed]; exact h)
    · rw [← Option.some.inj h]
      refine Or.inr ⟨?_, rfl, ?_⟩
      · rw [hphase]
        rfl
      · simp only [attempts, Connection.leave]
        omega
  · cases h

/-- Where a connection waits, an attempt to connect has just failed, or it has waited before. -/
theorem waiting_of_step {a : Action} (h : o.step a = some o')
    (hconnect : ∀ e, a ≠ .connect (some e)) (hwaiting : o'.connection.phase = .waiting) :
    o.connection.phase = .waiting ∧ o'.connection.retry = o.connection.retry := by
  have hbefore : o.connection.Undisturbed o'.connection →
      o.connection.phase = .waiting ∧ o'.connection.retry = o.connection.retry := by
    intro hc
    rcases hc.lagging.mp (Or.inl hwaiting) with hphase | hphase
    · exact ⟨hphase, hc.retry⟩
    · have hpanicked := panicked_of_step hphase h
      rw [hwaiting] at hpanicked
      cases hpanicked
  cases a with
  | send data => exact hbefore (undisturbed_of_send h)
  | cancel i => exact hbefore (undisturbed_of_cancel h)
  | connect outcome =>
    cases outcome with
    | none =>
      have hup := (up_of_connect h).2.1
      rw [hwaiting] at hup
      cases hup
    | some e => exact absurd rfl (hconnect e)
  | timer =>
    rcases phase_of_timer h with hphase | hphase <;>
    · rw [hwaiting] at hphase
      cases hphase
  | recv => exact hbefore (undisturbed_of_recv h)
  | write outcome => exact hbefore (undisturbed_of_write h)
  | response r => exact hbefore (undisturbed_of_response h)

end Outgoing

/-! ## The connection -/

namespace Session

variable {H : Type u} {ε : Type v} {s s' : Session H ε} {handler : MessageHandler H ε}

/-- The newest runner is there. -/
def attended (s : Session H ε) : Bool :=
  s.runners.head?.any Runner.running

/-- What the newest runner has still to read. -/
def unread (s : Session H ε) : ℕ :=
  (s.runners.head?.map fun r => r.incoming.length).getD 0

def load (s : Session H ε) : ℕ :=
  s.sender.load + 2 * s.unread

def strain (s : Session H ε) : ℕ :=
  if s.sender.connection.phase.up then
    if s.attended then 0 else 2 * u16Max + 3
  else s.sender.attempts

/-! ### Steps that the runners do not see -/

/-- Nothing is gained or lost where the connection stays as it is. -/
theorem strain_congr (hup : s'.sender.connection.phase.up = s.sender.connection.phase.up)
    (hattempts : s'.sender.attempts = s.sender.attempts) (hattended : s'.attended = s.attended) :
    s'.strain = s.strain := by
  simp only [strain, hup, hattempts, hattended]

theorem strain_of_down {o : Outgoing} (hdown : s.sender.connection.phase.up = false)
    (hdown' : o.connection.phase.up = false) (hless : o.attempts < s.sender.attempts) :
    ({ s with sender := o } : Session H ε).strain < s.strain := by
  simpa [strain, hdown, hdown'] using hless

theorem load_of_recv {o : Outgoing} (h : s.sender.recv = some o) :
    ({ s with sender := o } : Session H ε).strain = s.strain ∧
      ({ s with sender := o } : Session H ε).load < s.load := by
  obtain ⟨hup, hattempts, hless⟩ := Outgoing.load_of_recv h
  exact ⟨strain_congr hup hattempts rfl, Nat.add_lt_add_right hless _⟩

theorem load_of_write {o : Outgoing} (h : s.sender.write none = some o) :
    ({ s with sender := o } : Session H ε).strain = s.strain ∧
      ({ s with sender := o } : Session H ε).load < s.load := by
  obtain ⟨hup, hattempts, hless⟩ := Outgoing.load_of_write h
  exact ⟨strain_congr hup hattempts rfl,
    Nat.add_lt_add_right ((Nat.le_add_right _ _).trans_lt hless) _⟩

theorem load_of_submit {o : Outgoing} {data : Bytes} (h : s.sender.send data = some o) :
    ({ s with sender := o } : Session H ε).strain = s.strain ∧
      ({ s with sender := o } : Session H ε).load = s.load + 5 := by
  obtain ⟨hphase, hattempts, hload⟩ := Outgoing.load_of_send h
  refine ⟨strain_congr (congrArg Phase.up hphase) hattempts rfl, ?_⟩
  show o.load + 2 * s.unread = s.sender.load + 2 * s.unread + 5
  omega

/-- Most steps of the sender are such. -/
theorem eq_of_send {a : Action} (h : s.send a = some s') (hconnect : a ≠ .connect none)
    (hwrite : a ≠ .write none) (hframe : ∀ b, a ≠ .response (some (.ok b))) :
    ∃ o, s.sender.step a = some o ∧ s' = { s with sender := o } := by
  obtain ⟨o, ho, h⟩ := Option.bind_eq_some_iff.mp h
  refine ⟨o, ho, ?_⟩
  split at h
  · exact absurd rfl hconnect
  · exact absurd rfl hwrite
  · exact absurd rfl (hframe _)
  · exact absurd rfl (hframe _)
  · exact (Option.some.inj h).symm

/-! ### Steps that they see -/

/-- A new runner is there. -/
theorem strain_of_connect (h : s.send (.connect none) = some s') : s'.strain < s.strain := by
  obtain ⟨o, ho, h⟩ := Option.bind_eq_some_iff.mp h
  obtain rfl := Option.some.inj h
  obtain ⟨hdown, hup, hpos⟩ := Outgoing.up_of_connect ho
  simpa [strain, hdown, hup, attended, Runner.spawn] using hpos

/-- The sender notices that the runner is gone. -/
theorem strain_of_response (hattended : s.attended = false)
    (h : s.send (.response none) = some s') : s'.strain < s.strain := by
  obtain ⟨o, ho, rfl⟩ := eq_of_send h nofun nofun nofun
  obtain ⟨hup, hdown, hless⟩ := Outgoing.down_of_response ho
  simpa [strain, hup, hdown, hattended] using hless

/-- The sender notices it in a write, if there was anything to write. -/
theorem easier_of_write {e : IoError} (hattended : s.attended = false)
    (h : s.send (.write (some e)) = some s') :
    s'.strain < s.strain ∨ s'.strain = s.strain ∧ s'.load < s.load := by
  obtain ⟨o, ho, rfl⟩ := eq_of_send h nofun nofun nofun
  rcases Outgoing.down_of_write ho with hwrite | ⟨hup, hdown, hless⟩
  · exact Or.inr (load_of_write hwrite)
  · left
    simpa [strain, hup, hdown, hattended] using hless

/-- A frame goes over the connection. -/
theorem load_of_send_write (h : s.send (.write none) = some s') :
    s'.strain = s.strain ∧ s'.load < s.load := by
  obtain ⟨sender, peer, runners, handler⟩ := s
  obtain ⟨o, ho, h⟩ := Option.bind_eq_some_iff.mp h
  have hwrite : sender.write none = some o := ho
  cases runners with
  | nil =>
    obtain rfl := Option.some.inj h
    exact load_of_write (s := ⟨sender, peer, [], handler⟩) hwrite
  | cons r rs =>
    obtain rfl := Option.some.inj h
    obtain ⟨hup, hattempts, hless⟩ := Outgoing.load_of_write hwrite
    refine ⟨strain_congr hup hattempts rfl, ?_⟩
    simp only [load, unread, List.head?_cons, Option.map_some, Option.getD_some,
      List.length_append]
    omega

/-- The runner gives a frame to the handler, which does not fail. -/
theorem load_of_serve (h : s.serve handler 0 = some s')
    (hok : ∀ r ∈ s.runners, ∀ m ∈ r.incoming,
      ∃ h', (handler.dispatch s.handler m.data).1 = .ok h') :
    s'.strain = s.strain ∧ s'.load + 2 = s.load := by
  obtain ⟨sender, peer, runners, h₀⟩ := s
  cases runners with
  | nil => cases h
  | cons r rs =>
    obtain ⟨⟨h', r'⟩, hserve, rfl⟩ := Option.map_eq_some_iff.mp h
    unfold Runner.serve at hserve
    split at hserve
    · rename_i m rest hrunning hincoming
      obtain ⟨h'', hresult⟩ := hok r List.mem_cons_self m (hincoming ▸ List.mem_cons_self)
      simp only [hresult] at hserve
      obtain ⟨rfl, rfl⟩ := Prod.mk.inj (Option.some.inj hserve)
      refine ⟨strain_congr rfl rfl rfl, ?_⟩
      simp only [load, unread, List.set_cons_zero, List.head?_cons, Option.map_some,
        Option.getD_some, hincoming, List.length_cons]
      omega
    · cases hserve

/-! ### Steps that make it easier -/

/-- The strain gets lower, or else the load. -/
def Easier (s s' : Session H ε) : Prop :=
  s'.strain < s.strain ∨ s'.strain = s.strain ∧ s'.load < s.load

/-- Where the other end is not known. -/
theorem easier_of_step {a : Action} {o : Outgoing} (h : s.sender.step a = some o)
    (ha : a = .recv ∨ a = .write none ∨ ∃ e, a = .connect (some e)) :
    Easier s { s with sender := o } := by
  rcases ha with rfl | rfl | ⟨e, rfl⟩
  · exact Or.inr (load_of_recv h)
  · exact Or.inr (load_of_write h)
  · obtain ⟨hdown, hdown', hless⟩ := Outgoing.attempts_of_connect h
    exact Or.inl (strain_of_down hdown hdown' hless)

/-- Where it is known. -/
theorem easier_of_send {a : Action} (h : s.send a = some s')
    (ha : (a = .recv ∨ a = .write none ∨ ∃ e, a = .connect e) ∨ a = .timer ∨
      (a = .response none ∨ ∃ e, a = .write (some e)) ∧ s.attended = false) : Easier s s' := by
  rcases ha with (rfl | rfl | ⟨e, rfl⟩) | rfl | ⟨rfl | ⟨e, rfl⟩, hattended⟩
  · obtain ⟨o, ho, rfl⟩ := eq_of_send h nofun nofun nofun
    exact easier_of_step ho (Or.inl rfl)
  · exact Or.inr (load_of_send_write h)
  · cases e with
    | none => exact Or.inl (strain_of_connect h)
    | some e =>
      obtain ⟨o, ho, rfl⟩ := eq_of_send h nofun nofun nofun
      exact easier_of_step ho (Or.inr (Or.inr ⟨e, rfl⟩))
  · obtain ⟨o, ho, rfl⟩ := eq_of_send h nofun nofun nofun
    obtain ⟨hdown, hdown', hless⟩ := Outgoing.attempts_of_timer ho
    exact Or.inl (strain_of_down hdown hdown' hless)
  · exact Or.inl (strain_of_response hattended h)
  · exact easier_of_write hattended h

end Session
end NeroConsensus
