import NeroConsensus.Network.ReliableSender
import Mathlib.Tactic.Common

/-!
# The delay between two attempts to connect

After a failed attempt `run` doubles the delay, up to a minute, and counts the failure; after a
successful one it starts again.  The delay is capped, the counter is not: it is a `u16`, and the
addition after the 65536th failure in a row overflows.

`Connection.BackedOff` has the closed form of both.  It speaks of the counter, which lags one
failure behind while the task waits, and for ever after it has panicked.
-/

namespace NeroConsensus

/-- The largest `u64`. -/
def u64Max : ℕ := 2 ^ 64 - 1

/-- The delay in milliseconds after `k` failures in a row. -/
def backOff (k : ℕ) : ℕ := min (200 * 2 ^ k) 60000

theorem backOff_succ (k : ℕ) : backOff (k + 1) = min (2 * backOff k) 60000 := by
  rw [backOff, backOff, pow_succ]
  omega

/-- The failures in a row, after one more action. -/
def countFailure (k : ℕ) : Action → ℕ
  | .connect none => 0
  | .connect (some _) => k + 1
  | _ => k

/-- The failed attempts since the last successful one, or since the start. -/
def failures (as : List Action) : ℕ :=
  as.foldl countFailure 0

theorem failures_append_singleton (as : List Action) (a : Action) :
    failures (as ++ [a]) = countFailure (failures as) a := by
  unfold failures
  rw [List.foldl_append]
  rfl

/-! ## What the steps do to the delay -/

namespace Connection

/-- The last failure has not been counted: the delay after it is not over yet, or the counter has
overflowed. -/
def Lagging (c : Connection) : Prop :=
  c.phase = .waiting ∨ c.phase = .panicked

instance (c : Connection) : Decidable c.Lagging :=
  inferInstanceAs (Decidable (_ ∨ _))

/-- A step that has nothing to do with the attempts to connect. -/
structure Undisturbed (c c' : Connection) : Prop where
  retryDelay : c'.retryDelay = c.retryDelay
  delay : c'.delay = c.delay
  retry : c'.retry = c.retry
  lagging : c'.Lagging ↔ c.Lagging
  panicked : c'.phase = .panicked → c.phase = .panicked
  up : c'.phase.up = true → c.phase.up = true

/-- While a connection is up, a step has nothing to do with the attempts unless it waits. -/
theorem Undisturbed.of_up {c c' : Connection} (hup : c.phase.up = true)
    (hlagging : ¬c'.Lagging) (hretryDelay : c'.retryDelay = c.retryDelay)
    (hdelay : c'.delay = c.delay) (hretry : c'.retry = c.retry) : Undisturbed c c' where
  retryDelay := hretryDelay
  delay := hdelay
  retry := hretry
  lagging := by
    refine ⟨fun h => absurd h hlagging, fun h => ?_⟩
    rcases h with h | h
    · rw [h] at hup
      cases hup
    · rw [h] at hup
      cases hup
  panicked h := absurd (Or.inr h) hlagging
  up _ := hup

/-- The delay and the counter after `k` failures in a row. -/
structure BackedOff (k : ℕ) (c : Connection) : Prop where
  retryDelay : c.retryDelay = 200
  retry_le : c.retry ≤ u16Max
  delay : c.delay = backOff c.retry
  retry : k = c.retry + if c.Lagging then 1 else 0
  panicked : c.phase = .panicked → c.retry = u16Max
  up : c.phase.up = true → c.retry = 0

theorem BackedOff.eq_retry {k : ℕ} {c : Connection} (h : BackedOff k c)
    (hlagging : ¬c.Lagging) : k = c.retry := by
  rw [h.retry, if_neg hlagging, Nat.add_zero]

theorem BackedOff.eq_retry_add_one {k : ℕ} {c : Connection} (h : BackedOff k c)
    (hlagging : c.Lagging) : k = c.retry + 1 := by
  rw [h.retry, if_pos hlagging]

theorem not_lagging_of_connecting {c : Connection} (hphase : c.phase = .connecting) :
    ¬c.Lagging := by
  rw [Lagging, hphase]
  exact fun h => h.elim nofun nofun

theorem BackedOff.undisturbed {k : ℕ} {c c' : Connection} (h : BackedOff k c)
    (hc : Undisturbed c c') : BackedOff k c' where
  retryDelay := hc.retryDelay.trans h.retryDelay
  retry_le := by rw [hc.retry]; exact h.retry_le
  delay := by rw [hc.delay, hc.retry, h.delay]
  retry := by rw [hc.retry, h.retry, if_congr hc.lagging rfl rfl]
  panicked hpanicked := hc.retry.trans (h.panicked (hc.panicked hpanicked))
  up hup := hc.retry.trans (h.up (hc.up hup))

end Connection

namespace Outgoing

open Connection

variable {o o' : Outgoing} {k : ℕ}

theorem undisturbed_of_send {data : Bytes} (h : o.send data = some o') :
    Undisturbed o.connection o'.connection := by
  unfold send at h
  split_ifs at h
  obtain rfl := Option.some.inj h
  exact ⟨rfl, rfl, rfl, Iff.rfl, id, id⟩

theorem undisturbed_of_cancel {i : ℕ} (h : o.cancel i = some o') :
    Undisturbed o.connection o'.connection := by
  unfold cancel at h
  split_ifs at h
  obtain rfl := Option.some.inj h
  exact ⟨rfl, rfl, rfl, Iff.rfl, id, id⟩

theorem undisturbed_of_recv (h : o.recv = some o') :
    Undisturbed o.connection o'.connection := by
  unfold recv at h
  dsimp only at h
  split at h
  case h_1 hphase hreceiver =>
    obtain rfl := Option.some.inj h
    exact ⟨rfl, rfl, rfl, Iff.rfl, id, id⟩
  case h_2 s message receiver hphase hreceiver =>
    obtain rfl := Option.some.inj h
    exact .of_up (by rw [hphase]; rfl) (Or.elim · nofun nofun) rfl rfl rfl
  case h_3 => cases h

theorem undisturbed_of_write {outcome : Option IoError} (h : o.write outcome = some o') :
    Undisturbed o.connection o'.connection := by
  unfold write at h
  dsimp only at h
  split at h
  case h_1 s hphase hbuffer =>
    obtain rfl := Option.some.inj h
    exact .of_up (by rw [hphase]; rfl) (Or.elim · nofun nofun) rfl rfl rfl
  case h_2 s message buffer hphase hbuffer =>
    split_ifs at h
    · obtain rfl := Option.some.inj h
      exact ⟨rfl, rfl, rfl, Iff.rfl, id, id⟩
    · cases outcome <;> obtain rfl := Option.some.inj h <;>
        exact .of_up (by rw [hphase]; rfl) (Or.elim · nofun nofun) rfl rfl rfl
  case h_3 => cases h

theorem undisturbed_of_response {r : Option (Except IoError Bytes)} (h : o.response r = some o') :
    Undisturbed o.connection o'.connection := by
  unfold response at h
  dsimp only at h
  split at h
  case h_1 s hphase =>
    have hup : o.connection.phase.up = true := by
      rw [hphase]
      rfl
    split at h
    · obtain rfl := Option.some.inj h
      exact .of_up hup (Or.elim · nofun nofun) rfl rfl rfl
    · split at h <;> obtain rfl := Option.some.inj h <;>
        exact .of_up hup (Or.elim · nofun nofun) rfl rfl rfl
  case h_2 => cases h

/-! ## The closed form -/

theorem backedOff_spawn (address : SocketAddr) : BackedOff 0 (spawn address).connection where
  retryDelay := rfl
  retry_le := Nat.zero_le _
  delay := by
    show 200 = backOff 0
    decide
  retry := rfl
  panicked := nofun
  up h := by cases h

theorem backedOff_connect {outcome : Option IoError} (h : BackedOff k o.connection)
    (hstep : o.connect outcome = some o') :
    BackedOff (countFailure k (.connect outcome)) o'.connection := by
  unfold Outgoing.connect at hstep
  dsimp only at hstep
  split at hstep
  case h_1 hphase =>
    cases outcome with
    | none =>
      obtain rfl := Option.some.inj hstep
      exact ⟨h.retryDelay, Nat.zero_le _, h.retryDelay, rfl, nofun, fun _ => rfl⟩
    | some e =>
      have hretry := h.eq_retry (not_lagging_of_connecting hphase)
      obtain rfl := Option.some.inj hstep
      exact ⟨h.retryDelay, h.retry_le, h.delay, congrArg (· + 1) hretry, nofun, nofun⟩
  case h_2 => cases hstep

theorem backedOff_timer (h : BackedOff k o.connection) (hstep : o.timer = some o') :
    BackedOff k o'.connection := by
  unfold Outgoing.timer at hstep
  dsimp only at hstep
  split at hstep
  case h_1 hphase =>
    have hretry := h.eq_retry_add_one (Or.inl hphase)
    split_ifs at hstep with hmax
    · obtain rfl := Option.some.inj hstep
      refine ⟨h.retryDelay, hmax, ?_, hretry, nofun, nofun⟩
      rw [backOff_succ, ← h.delay]
    · obtain rfl := Option.some.inj hstep
      exact ⟨h.retryDelay, h.retry_le, h.delay, hretry,
        fun _ => le_antisymm h.retry_le (not_lt.mp hmax), nofun⟩
  case h_2 => cases hstep

/-- When the delay is over, the next attempt comes, or the task panics. -/
theorem phase_of_timer (h : o.timer = some o') :
    o'.connection.phase = .connecting ∨ o'.connection.phase = .panicked := by
  unfold Outgoing.timer at h
  dsimp only at h
  split at h
  case h_1 =>
    by_cases hretry : o.connection.retry < u16Max
    · rw [if_pos hretry] at h
      rw [← Option.some.inj h]
      exact Or.inl rfl
    · rw [if_neg hretry] at h
      rw [← Option.some.inj h]
      exact Or.inr rfl
  case h_2 => cases h

/-- **The closed form is kept by every step.** -/
theorem backedOff_step {a : Action} (h : BackedOff k o.connection) (hstep : o.step a = some o') :
    BackedOff (countFailure k a) o'.connection := by
  cases a with
  | send data => exact h.undisturbed (undisturbed_of_send hstep)
  | cancel i => exact h.undisturbed (undisturbed_of_cancel hstep)
  | connect outcome => exact backedOff_connect h hstep
  | timer => exact backedOff_timer h hstep
  | recv => exact h.undisturbed (undisturbed_of_recv hstep)
  | write outcome => exact h.undisturbed (undisturbed_of_write hstep)
  | response r => exact h.undisturbed (undisturbed_of_response hstep)

theorem backedOff_run {address : SocketAddr} {as : List Action}
    (hlegal : machine.Legal (spawn address) as) :
    BackedOff (failures as) (machine.run (spawn address) as).connection := by
  refine hlegal.invariant (I := fun (as : List Action) (o : Outgoing) =>
    BackedOff (failures as) o.connection) (backedOff_spawn address) fun as o a _ h hguard => ?_
  rw [failures_append_singleton]
  exact backedOff_step h (GuardedMachine.ofStep_next hguard)

/-! ## When it is exact -/

/-- After `k` failures in a row: before an attempt to connect the delay and the counter are what
they should be, before the timer the two operations on them do not overflow, and none has. -/
structure ExactBackOff (o : Outgoing) (k : ℕ) : Prop where
  delay : o.connection.phase = .connecting → o.connection.delay = min (200 * 2 ^ k) 60000
  retry : o.connection.phase = .connecting → o.connection.retry = k
  noOverflow : o.connection.phase = .waiting →
    2 * o.connection.delay ≤ u64Max ∧ o.connection.retry + 1 ≤ u16Max
  running : o.connection.phase ≠ .panicked

theorem ExactBackOff.le_u16Max (hexact : ExactBackOff o k) (h : BackedOff k o.connection) :
    k ≤ u16Max := by
  by_cases hlagging : o.connection.Lagging
  · rw [h.eq_retry_add_one hlagging]
    exact (hexact.noOverflow (hlagging.resolve_right hexact.running)).2
  · rw [h.eq_retry hlagging]
    exact h.retry_le

theorem exactBackOff_of_le (h : BackedOff k o.connection) (hk : k ≤ u16Max) :
    ExactBackOff o k where
  delay hphase := by
    rw [h.delay, ← h.eq_retry (not_lagging_of_connecting hphase)]
    rfl
  retry hphase := (h.eq_retry (not_lagging_of_connecting hphase)).symm
  noOverflow hphase := by
    have hcap : o.connection.delay ≤ 60000 := h.delay ▸ min_le_right _ _
    refine ⟨?_, h.eq_retry_add_one (Or.inl hphase) ▸ hk⟩
    unfold u64Max
    omega
  running hphase := by
    rw [h.eq_retry_add_one (Or.inr hphase), h.panicked hphase] at hk
    exact hk.not_gt (Nat.lt_succ_self _)

/-- **When the back-off is exact.**  After any run, it is so if and only if the failures in a row
fit in the counter. -/
theorem exactBackOff_iff {address : SocketAddr} {as : List Action}
    (hlegal : machine.Legal (spawn address) as) :
    ExactBackOff (machine.run (spawn address) as) (failures as) ↔ failures as ≤ u16Max :=
  ⟨fun hexact => hexact.le_u16Max (backedOff_run hlegal),
    exactBackOff_of_le (backedOff_run hlegal)⟩

/-- An attempt fails, and the next one succeeds. -/
def shortOutage : List Action :=
  [.connect (some ⟨"refused"⟩), .timer, .connect none]

theorem exactBackOff_iff_shortOutage :
    ExactBackOff (machine.run (spawn ⟨[127, 0, 0, 1], 80⟩) shortOutage) (failures shortOutage) ↔
      failures shortOutage ≤ u16Max :=
  exactBackOff_iff (by decide +kernel)

/-- An outage of `n` attempts, with the delay after each of them. -/
def outage : ℕ → List Action
  | 0 => []
  | n + 1 => outage n ++ [.connect (some ⟨"refused"⟩), .timer]

theorem failures_outage (n : ℕ) : failures (outage n) = n := by
  induction n with
  | zero => rfl
  | succ n ih =>
    rw [outage, ← List.singleton_append, ← List.append_assoc, failures_append_singleton,
      failures_append_singleton, ih]
    rfl

theorem mem_outage {n : ℕ} {a : Action} (h : a ∈ outage n) :
    a = .connect (some ⟨"refused"⟩) ∨ a = .timer := by
  induction n with
  | zero => cases h
  | succ n ih =>
    rcases List.mem_append.mp h with h | h
    · exact ih h
    · simpa using h

/-- After `n` attempts that have failed one after the other, nothing else has changed. -/
structure AfterOutage (n : ℕ) (o o' : Outgoing) : Prop where
  phase : o'.connection.phase = .connecting
  retry : o'.connection.retry = o.connection.retry + n
  submitted : o'.submitted = o.submitted
  oneshots : o'.oneshots = o.oneshots

theorem connect_of_connecting (hphase : o.connection.phase = .connecting) (e : IoError) :
    ∃ o', o.step (.connect (some e)) = some o' ∧ o'.connection.phase = .waiting ∧
      o'.connection.retry = o.connection.retry ∧ o'.submitted = o.submitted ∧
        o'.oneshots = o.oneshots := by
  unfold step Outgoing.connect
  simp only [hphase]
  exact ⟨_, rfl, rfl, rfl, rfl, rfl⟩

theorem timer_of_waiting (hphase : o.connection.phase = .waiting)
    (hretry : o.connection.retry < u16Max) :
    ∃ o', o.step .timer = some o' ∧ AfterOutage 1 o o' := by
  unfold step Outgoing.timer
  simp only [hphase, if_pos hretry]
  exact ⟨_, rfl, rfl, rfl, rfl, rfl⟩

/-- As long as the counter lasts, one attempt follows the other. -/
theorem legal_outage (hphase : o.connection.phase = .connecting) {n : ℕ}
    (hn : o.connection.retry + n ≤ u16Max) :
    machine.Legal o (outage n) ∧ AfterOutage n o (machine.run o (outage n)) := by
  induction n with
  | zero => exact ⟨trivial, hphase, rfl, rfl, rfl⟩
  | succ n ih =>
    obtain ⟨hlegal, hafter⟩ := ih (by omega)
    obtain ⟨o₁, hconnect, hwaiting, hretry, hsubmitted, honeshots⟩ :=
      connect_of_connecting hafter.phase ⟨"refused"⟩
    obtain ⟨o₂, htimer, hafter₂⟩ := timer_of_waiting hwaiting (by rw [hretry, hafter.retry]; omega)
    obtain ⟨hguard₁, hnext₁⟩ := GuardedMachine.ofStep_of_some hconnect
    obtain ⟨hguard₂, hnext₂⟩ := GuardedMachine.ofStep_of_some htimer
    have hrun : machine.run o (outage (n + 1)) = o₂ := by
      rw [outage, GuardedMachine.run_append]
      show machine.next (machine.next _ _) _ = o₂
      rw [hnext₁, hnext₂]
    refine ⟨GuardedMachine.legal_append.mpr ⟨hlegal, hguard₁, ?_, trivial⟩, ?_⟩
    · rw [hnext₁]
      exact hguard₂
    · rw [hrun]
      refine ⟨hafter₂.phase, ?_, hafter₂.submitted.trans (hsubmitted.trans hafter.submitted),
        hafter₂.oneshots.trans (honeshots.trans hafter.oneshots)⟩
      rw [hafter₂.retry, hretry, hafter.retry, Nat.add_assoc]

theorem not_exactBackOff_outage (address : SocketAddr) {n : ℕ} (hn : n = u16Max) :
    machine.Legal (spawn address) (outage n ++ [.connect (some ⟨"refused"⟩)]) ∧
      ¬ExactBackOff (machine.run (spawn address) (outage n ++ [.connect (some ⟨"refused"⟩)]))
        (failures (outage n ++ [.connect (some ⟨"refused"⟩)])) := by
  obtain ⟨hlegal, hafter⟩ := @legal_outage (spawn address) rfl n ((Nat.zero_add n).trans_le hn.le)
  obtain ⟨o, hconnect, -⟩ := connect_of_connecting hafter.phase ⟨"refused"⟩
  have hlegal' : machine.Legal (spawn address) (outage n ++ [.connect (some ⟨"refused"⟩)]) :=
    GuardedMachine.legal_append.mpr
      ⟨hlegal, (GuardedMachine.ofStep_of_some hconnect).1, trivial⟩
  refine ⟨hlegal', fun hexact => ?_⟩
  have hfits := hexact.le_u16Max (backedOff_run hlegal')
  rw [failures_append_singleton, failures_outage] at hfits
  exact hfits.not_gt (hn ▸ Nat.lt_succ_self n)

/-- **The counter overflows**: a peer is away for 65536 attempts in a row. -/
theorem exists_not_exactBackOff :
    machine.Legal (spawn ⟨[127, 0, 0, 1], 80⟩)
        (outage u16Max ++ [.connect (some ⟨"refused"⟩)]) ∧
      ¬ExactBackOff (machine.run (spawn ⟨[127, 0, 0, 1], 80⟩)
          (outage u16Max ++ [.connect (some ⟨"refused"⟩)]))
        (failures (outage u16Max ++ [.connect (some ⟨"refused"⟩)])) :=
  not_exactBackOff_outage _ rfl

end Outgoing
end NeroConsensus
