import NeroConsensus.Foundations.Service
import NeroConsensus.Store.History

/-!
# The store and its clients

`store/src/lib.rs`: `Store::new` spawns the command loop behind a channel of 100 commands, and
every clone of the `Store` is a sender of that channel.  `write` returns when its command is in the
channel; `read` and `notify_read` wait for the reply.

So a write is not in the database yet when the call returns.  It is all the same as if it were:
the calls are explained by the order of the channel (`linearizable`), in which a call that is made
after a write has returned comes after that write.  And nobody waits for ever but for a key
that has no value (`open_of_idle`): where nothing can go on, the calls that are open are
`notify_read`s of keys that have neither been there at the start nor been written.

RocksDB is taken to do what it is asked.
-/

namespace NeroConsensus
namespace Store

/-- `Store::new`, with what `write`, `read` and `notify_read` do with its channel. -/
def service : Service CommandLoop StoreCommand Reply where
  step s command := some (s.step command none)
  replies := CommandLoop.replies
  awaits
    | .write _ _ => false
    | .read _ => true
    | .notifyRead _ => true
  capacity := 100

variable {db₀ : Finmap fun _ : Key => Value}
  {f : Service.Office CommandLoop StoreCommand Reply}

theorem service_implements (db₀ : Finmap fun _ : Key => Value) :
    service.Implements (CommandLoop.new db₀) (answerOf db₀) (Faithful db₀) where
  init := Faithful.new db₀
  step h hstep := by
    obtain rfl := Option.some.inj hstep
    exact h.step _
  replies h := h.mem_replies _ _
  append _ h := answerOf_append.mpr (Or.inl h)

/-- **The store is linearizable.**  In every run of any number of calls: what they have
returned is what the store answers to their commands in the order in which these went into the
channel; and that order agrees with the order of the calls in time. -/
theorem linearizable
    (hreach : service.machine.Reachable (.start (CommandLoop.new db₀)) f) :
    Service.Explained service (answerOf db₀) f ∧
      ∀ a ∈ f.calls, ∀ b ∈ f.calls, ∀ t o, a.ended = some (t, .returned o) → t < b.made →
        ∀ i j, a.number = some i → b.number = some j → i < j := by
  have h := Service.explained_of_reachable (service_implements db₀) hreach
  exact ⟨h, fun a ha b hb t o hended hlater i j hi hj =>
    h.lt_of_finished ha hb hended hlater hi hj⟩

/-- A client waits for a key, another one writes it and reads it, and the first one waits for
another key. -/
def exchange : List (Service.Action StoreCommand) :=
  [.call (.notifyRead [7]), .send 0, .serve, .call (.write [7] [1]), .send 1, .finish 1,
    .call (.read [7]), .send 2, .serve, .finish 0, .serve, .finish 2, .call (.notifyRead [8]),
    .send 3, .serve]

def exchanged : Service.Office CommandLoop StoreCommand Reply :=
  service.machine.run (.start (CommandLoop.new ∅)) exchange

theorem reachable_exchanged :
    service.machine.Reachable (.start (CommandLoop.new ∅)) exchanged :=
  GuardedMachine.reachable_run exchange (by decide +kernel)

theorem linearizable_exchanged :
    Service.Explained service (answerOf ∅) exchanged ∧
      ∀ a ∈ exchanged.calls, ∀ b ∈ exchanged.calls, ∀ t o, a.ended = some (t, .returned o) →
        t < b.made → ∀ i j, a.number = some i → b.number = some j → i < j :=
  linearizable reachable_exchanged

/-- A command that is answered and has no answer is a `NotifyRead` of a key that has no value. -/
theorem notifyRead_of_answerOf {cs : List StoreCommand} {n : ℕ} {c : StoreCommand}
    (hc : cs[n]? = some c) (hawaits : service.awaits c = true) (hnone : answerOf db₀ cs n = none) :
    ∃ k, c = .notifyRead k ∧ stored db₀ cs k = none := by
  cases c with
  | write k v => cases hawaits
  | read k =>
    rw [answerOf, hc] at hnone
    cases hnone
  | notifyRead k => exact ⟨k, rfl, Waits.stored_eq_none ⟨hc, hnone⟩⟩

/-- **Nobody waits for a key that has a value.**  In every run no call panics, and where nothing
can go on, the calls that have not ended are `notify_read`s of keys without a value. -/
theorem open_of_idle
    (hreach : service.machine.Reachable (.start (CommandLoop.new db₀)) f) :
    (∀ a ∈ f.calls, ∀ t, a.ended ≠ some (t, .panicked)) ∧
      (Service.Idle service f → ∀ a ∈ f.calls, a.ended = none →
        ∃ k, a.request = .notifyRead k ∧ stored db₀ f.sent k = none) := by
  have hsteady : ∀ {rs : List StoreCommand} {s : CommandLoop} {q : StoreCommand},
      Faithful db₀ rs s → service.step s q ≠ none := fun _ => Option.some_ne_none _
  refine ⟨((service_implements db₀).steady hsteady hreach).2, fun hidle a ha hopen => ?_⟩
  obtain ⟨hawaits, n, -, hn, hnone⟩ := (service_implements db₀).waits_of_idle hsteady hreach
    (by decide) hidle ha hopen
  exact notifyRead_of_answerOf hn hawaits hnone

theorem open_of_idle_exchanged :
    (∀ a ∈ exchanged.calls, ∀ t, a.ended ≠ some (t, .panicked)) ∧
      ∀ a ∈ exchanged.calls, a.ended = none →
        ∃ k, a.request = .notifyRead k ∧ stored ∅ exchanged.sent k = none := by
  obtain ⟨hpanic, hopen⟩ := open_of_idle reachable_exchanged
  exact ⟨hpanic, hopen (by decide +kernel)⟩

end Store
end NeroConsensus
