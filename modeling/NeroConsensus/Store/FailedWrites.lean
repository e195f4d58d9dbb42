import NeroConsensus.Store.CommandLoop
import Mathlib.Data.List.Basic
import Mathlib.Data.List.Induction

/-!
# Writes that fail

The loop drops the result of `put`, and serves those that wait for the key all the same.  So a
write that fails is announced to them as a success, and the next read finds nothing.  With
nobody waiting a failed write does no harm: it is as if it had not come.

`Queued` says who is in the queues: the numbers of the commands that wait for their key.
`ReportsStored` is what a turn owes to the clients, and `reportsStored_iff` says for which runs
every turn does.
-/

namespace NeroConsensus
namespace Store

/-- The commands of a run, each with the outcome of its call of RocksDB. -/
abbrev Commands := List (StoreCommand × Option StoreError)

variable {db₀ : Finmap fun _ : Key => Value} {cs : Commands} {c : StoreCommand}
  {fault : Option StoreError} {s : CommandLoop}

/-- Command `i` waits for a value of `k`. -/
def Asks (cs : Commands) (i : ℕ) (k : Key) : Prop :=
  (cs[i]?).map Prod.fst = some (.notifyRead k)

instance (cs : Commands) (i : ℕ) (k : Key) : Decidable (Asks cs i k) :=
  inferInstanceAs (Decidable (_ = _))

theorem Asks.append {i : ℕ} {k : Key} (h : Asks cs i k) (cs' : Commands) :
    Asks (cs ++ cs') i k := by
  obtain ⟨c, hc, hk⟩ := Option.map_eq_some_iff.mp h
  rw [Asks, List.getElem?_append_left (List.getElem?_eq_some_iff.mp hc).1, hc, Option.map_some, hk]

theorem asks_last {k : Key} :
    Asks (cs ++ [(c, fault)]) cs.length k ↔ c = .notifyRead k := by
  rw [Asks, List.getElem?_concat_length, Option.map_some, Option.some_inj]

/-- A command asks for one key. -/
theorem Asks.unique {i : ℕ} {k k' : Key} (h : Asks cs i k) (h' : Asks cs i k') : k = k' :=
  StoreCommand.notifyRead.inj (Option.some.inj (h.symm.trans h'))

/-! ## Who is in the queues -/

/-- No queue is empty, and in the queue of a key are commands that wait for it. -/
structure Queued (cs : Commands) (s : CommandLoop) : Prop where
  received : s.received = cs.length
  ne_nil : ∀ k l, s.obligations.lookup k = some l → l ≠ []
  asks : ∀ k l, s.obligations.lookup k = some l → ∀ i ∈ l, Asks cs i k

namespace Queued

theorem new (db₀ : Finmap fun _ : Key => Value) : Queued [] (CommandLoop.new db₀) where
  received := rfl
  ne_nil k l hl := by
    rw [CommandLoop.new, Finmap.lookup_empty] at hl
    cases hl
  asks k l hl := by
    rw [CommandLoop.new, Finmap.lookup_empty] at hl
    cases hl

/-- Queues that have not changed are as good as before. -/
theorem of_obligations (h : Queued cs s) {s' : CommandLoop}
    (hreceived : s'.received = s.received + 1)
    (hsub : ∀ k l, s'.obligations.lookup k = some l → s.obligations.lookup k = some l) :
    Queued (cs ++ [(c, fault)]) s' where
  received := by rw [hreceived, h.received, List.length_append, List.length_singleton]
  ne_nil k l hl := h.ne_nil k l (hsub k l hl)
  asks k l hl i hi := (h.asks k l (hsub k l hl) i hi).append _

/-- A command joins the queue of its key. -/
theorem join (h : Queued cs s) (key : Key) (fault : Option StoreError) :
    Queued (cs ++ [(.notifyRead key, fault)])
      { s with
        obligations := s.obligations.insert key
          ((s.obligations.lookup key).getD [] ++ [s.received])
        received := s.received + 1 } where
  received := by rw [h.received, List.length_append, List.length_singleton]
  ne_nil k l hl := by
    by_cases hk : k = key
    · rw [hk, Finmap.lookup_insert, Option.some_inj] at hl
      exact hl ▸ List.concat_ne_nil _ _
    · rw [Finmap.lookup_insert_of_ne _ hk] at hl
      exact h.ne_nil k l hl
  asks k l hl i hi := by
    by_cases hk : k = key
    · rw [hk, Finmap.lookup_insert, Option.some_inj] at hl
      rw [← hl, List.mem_append, List.mem_singleton] at hi
      rcases hi with hold | rfl
      · cases hqueue : s.obligations.lookup key with
        | none =>
          rw [hqueue] at hold
          cases hold
        | some queue =>
          rw [hqueue] at hold
          rw [hk]
          exact (h.asks key queue hqueue i hold).append _
      · rw [h.received, asks_last, hk]
    · rw [Finmap.lookup_insert_of_ne _ hk] at hl
      exact (h.asks k l hl i hi).append _

theorem step (h : Queued cs s) (c : StoreCommand) (fault : Option StoreError) :
    Queued (cs ++ [(c, fault)]) (s.step c fault) := by
  cases c with
  | write key value =>
    refine h.of_obligations (CommandLoop.received_step s _ fault) fun k l hl => ?_
    rw [CommandLoop.lookup_obligations_write] at hl
    split_ifs at hl
    exact hl
  | read key => exact h.of_obligations rfl fun _ _ hl => hl
  | notifyRead key =>
    cases hget : s.get fault key with
    | error e =>
      simp only [CommandLoop.step, hget]
      exact h.of_obligations rfl fun _ _ hl => hl
    | ok answer =>
      cases answer with
      | some value =>
        simp only [CommandLoop.step, hget]
        exact h.of_obligations rfl fun _ _ hl => hl
      | none =>
        simp only [CommandLoop.step, hget]
        exact h.join key fault

theorem of_run (db₀ : Finmap fun _ : Key => Value) (cs : Commands) :
    Queued cs ((CommandLoop.new db₀).run cs) := by
  induction cs using List.reverseRecOn with
  | nil => exact new db₀
  | append_singleton cs c ih =>
    rw [CommandLoop.run_append_singleton]
    exact ih.step c.1 c.2

end Queued

/-! ## What a turn owes to the clients -/

/-- The turn that handles `c` after `cs`.  Every value that it gives to a command which waits for
a key is what a read of the key that comes next gets.  And if `c` is a write that fails, those
that wait for its key wait on. -/
structure ReportsStored (db₀ : Finmap fun _ : Key => Value) (cs : Commands)
    (c : StoreCommand × Option StoreError) : Prop where
  announced : ∀ i v, (i, Reply.notifyRead (.ok v)) ∈
    ((CommandLoop.new db₀).run (cs ++ [c])).replies.drop
      ((CommandLoop.new db₀).run cs).replies.length →
    ∀ k, Asks (cs ++ [c]) i k →
      ((CommandLoop.new db₀).run (cs ++ [c, (.read k, none)])).replies.getLast? =
        some (cs.length + 1, .read (.ok (some v)))
  waits : ∀ k v e, c = (.write k v, some e) →
    ∀ i ∈ (((CommandLoop.new db₀).run cs).obligations.lookup k).getD [],
      i ∈ (((CommandLoop.new db₀).run (cs ++ [c])).obligations.lookup k).getD []

/-- What a read that comes next gets. -/
theorem getLast?_replies_read (db₀ : Finmap fun _ : Key => Value) (cs : Commands)
    (c : StoreCommand × Option StoreError) (k : Key) :
    ((CommandLoop.new db₀).run (cs ++ [c, (.read k, none)])).replies.getLast? =
      some (cs.length + 1,
        .read (.ok (((CommandLoop.new db₀).run (cs ++ [c])).db.lookup k))) := by
  have hreceived := (Queued.of_run db₀ (cs ++ [c])).received
  rw [List.length_append, List.length_singleton] at hreceived
  rw [← List.singleton_append, ← List.append_assoc, CommandLoop.run_append_singleton, ← hreceived]
  exact List.getLast?_concat

/-- What a turn announces is in the database, unless it is a write that fails and somebody
waits. -/
theorem Queued.lookup_db_of_announced (h : Queued cs s)
    (hwrite : ∀ k v e, c = .write k v → fault = some e → k ∉ s.obligations) {i : ℕ} {v : Value}
    {k : Key} (hi : (i, Reply.notifyRead (.ok v)) ∈
      (s.step c fault).replies.drop s.replies.length) (hk : Asks (cs ++ [(c, fault)]) i k) :
    (s.step c fault).db.lookup k = some v := by
  cases c with
  | write key value =>
    cases hqueue : s.obligations.lookup key with
    | none =>
      simp only [CommandLoop.step, hqueue, List.drop_length, List.not_mem_nil] at hi
    | some senders =>
      simp only [CommandLoop.step, hqueue, List.drop_left, List.mem_map, Prod.mk.injEq,
        Reply.notifyRead.injEq, Except.ok.injEq] at hi
      obtain ⟨i, hsender, rfl, rfl⟩ := hi
      obtain rfl := ((h.asks key senders hqueue i hsender).append _).unique hk
      cases fault with
      | none => rw [CommandLoop.db_write, CommandLoop.put, Finmap.lookup_insert]
      | some e => exact absurd (Finmap.mem_iff.mpr ⟨_, hqueue⟩) (hwrite key value e rfl rfl)
  | read key =>
    simp only [CommandLoop.step, List.drop_left, List.mem_singleton, Prod.mk.injEq,
      reduceCtorEq, and_false] at hi
  | notifyRead key =>
    cases hget : s.get fault key with
    | error e =>
      simp only [CommandLoop.step, hget, List.drop_left, List.mem_singleton, Prod.mk.injEq,
        Reply.notifyRead.injEq, reduceCtorEq, and_false] at hi
    | ok answer =>
      cases answer with
      | none => simp only [CommandLoop.step, hget, List.drop_length, List.not_mem_nil] at hi
      | some value =>
        simp only [CommandLoop.step, hget, List.drop_left, List.mem_singleton, Prod.mk.injEq,
          Reply.notifyRead.injEq, Except.ok.injEq] at hi ⊢
        obtain ⟨rfl, rfl⟩ := hi
        rw [h.received, asks_last] at hk
        obtain rfl := StoreCommand.notifyRead.inj hk
        cases fault with
        | none => exact Except.ok.inj hget
        | some e => cases hget

/-- **When failed writes are harmless.**  Every turn of a run gives the clients what it owes them,
if and only if no write fails for a key that somebody waits for. -/
theorem reportsStored_iff (db₀ : Finmap fun _ : Key => Value) (cs : Commands) :
    (∀ bs c, bs ++ [c] <+: cs → ReportsStored db₀ bs c) ↔
      ∀ bs k v e, bs ++ [(.write k v, some e)] <+: cs →
        k ∉ ((CommandLoop.new db₀).run bs).obligations := by
  constructor
  · intro h bs k v e hprefix hk
    obtain ⟨queue, hqueue⟩ := Finmap.mem_iff.mp hk
    obtain ⟨i, hi⟩ := List.exists_mem_of_ne_nil _ ((Queued.of_run db₀ bs).ne_nil k queue hqueue)
    have hkept := (h bs _ hprefix).waits k v e rfl i (by rw [hqueue]; exact hi)
    -- the queue of the key is gone
    rw [CommandLoop.run_append_singleton, CommandLoop.lookup_obligations_write, if_pos rfl] at hkept
    cases hkept
  · rintro h bs ⟨c, fault⟩ hprefix
    constructor
    · intro i v hi k hk
      rw [getLast?_replies_read]
      rw [CommandLoop.run_append_singleton] at hi ⊢
      rw [(Queued.of_run db₀ bs).lookup_db_of_announced ?_ hi hk]
      rintro k v e rfl rfl
      exact h bs k v e hprefix
    · rintro k v e heq i hi
      rw [heq] at hprefix
      rw [Finmap.lookup_eq_none.mpr (h bs k v e hprefix)] at hi
      cases hi

/-- **A write that fails is announced.**  A command waits for a key, and a write to the key
fails. -/
theorem exists_not_reportsStored :
    ¬∀ bs c, bs ++ [c] <+: [(.notifyRead [1], none), (.write [1] [2], some ⟨"no space"⟩)] →
      ReportsStored ∅ bs c := by
  intro h
  have hreports := h [(.notifyRead [1], none)] (.write [1] [2], some ⟨"no space"⟩) List.prefix_rfl
  exact absurd (hreports.announced 0 [2] (by decide +kernel) [1] (by decide)) (by decide +kernel)

end Store
end NeroConsensus
