import Mathlib.Data.Finmap

/-!
# The command loop of the store

`store/src/lib.rs`: the task that `Store::new` spawns.  It takes the commands of all clients out
of one channel, so that a run of it is one sequence of commands.

A `oneshot` channel is named by the number of the command it came with.  Every call of `put` or
`get` has an outcome, which is the `fault` below: none, or the error that RocksDB reports, and
then the database is as it was.
-/

namespace NeroConsensus
namespace Store

abbrev Key := List UInt8

abbrev Value := List UInt8

/-- `rocksdb::Error`, of which nothing is read. -/
structure StoreError where
  message : String
  deriving DecidableEq

/-- `StoreCommand`, without the senders. -/
inductive StoreCommand where
  | write : Key → Value → StoreCommand
  | read : Key → StoreCommand
  | notifyRead : Key → StoreCommand
  deriving DecidableEq

/-- What goes over a `oneshot` channel. -/
inductive Reply where
  | read : Except StoreError (Option Value) → Reply
  | notifyRead : Except StoreError Value → Reply
  deriving DecidableEq

/-- The state of the loop. -/
structure CommandLoop where
  db : Finmap fun _ : Key => Value
  obligations : Finmap fun _ : Key => List ℕ
  /-- The number of commands received so far. -/
  received : ℕ
  /-- What has been sent to the clients, each with the number of the command it answers. -/
  replies : List (ℕ × Reply)

namespace CommandLoop

def new (db : Finmap fun _ : Key => Value) : CommandLoop :=
  { db := db
    obligations := ∅
    received := 0
    replies := [] }

/-- `DB::put`. -/
def put (s : CommandLoop) (fault : Option StoreError) (key : Key) (value : Value) :
    Finmap fun _ : Key => Value :=
  match fault with
  | none => s.db.insert key value
  | some _ => s.db

/-- `DB::get`. -/
def get (s : CommandLoop) (fault : Option StoreError) (key : Key) :
    Except StoreError (Option Value) :=
  match fault with
  | none => .ok (s.db.lookup key)
  | some e => .error e

/-- One turn of the loop.  The result of `put` is dropped. -/
def step (s : CommandLoop) (command : StoreCommand) (fault : Option StoreError) : CommandLoop :=
  match command with
  | .write key value =>
    let db := s.put fault key value
    match s.obligations.lookup key with
    | some senders =>
      { db := db
        obligations := s.obligations.erase key
        received := s.received + 1
        replies := s.replies ++ senders.map fun sender => (sender, .notifyRead (.ok value)) }
    | none => { s with db := db, received := s.received + 1 }
  | .read key =>
    { s with
      received := s.received + 1
      replies := s.replies ++ [(s.received, .read (s.get fault key))] }
  | .notifyRead key =>
    match s.get fault key with
    | .ok none =>
      { s with
        obligations := s.obligations.insert key
          ((s.obligations.lookup key).getD [] ++ [s.received])
        received := s.received + 1 }
    | .ok (some value) =>
      { s with
        received := s.received + 1
        replies := s.replies ++ [(s.received, .notifyRead (.ok value))] }
    | .error e =>
      { s with
        received := s.received + 1
        replies := s.replies ++ [(s.received, .notifyRead (.error e))] }

/-- A write settles the obligations of its key. -/
theorem lookup_obligations_write (s : CommandLoop) (key k : Key) (value : Value)
    (fault : Option StoreError) : (s.step (.write key value) fault).obligations.lookup k =
      if k = key then none else s.obligations.lookup k := by
  cases hl : s.obligations.lookup key with
  | some senders =>
    simp only [step, hl]
    split_ifs with hk
    · rw [hk, Finmap.lookup_erase]
    · rw [Finmap.lookup_erase_ne hk]
  | none =>
    simp only [step, hl]
    split_ifs with hk
    · rw [hk, hl]
    · rfl

theorem db_write (s : CommandLoop) (key : Key) (value : Value) (fault : Option StoreError) :
    (s.step (.write key value) fault).db = s.put fault key value := by
  cases hl : s.obligations.lookup key <;> simp only [step, hl]

theorem received_step (s : CommandLoop) (command : StoreCommand) (fault : Option StoreError) :
    (s.step command fault).received = s.received + 1 := by
  unfold step
  split
  · split <;> rfl
  · rfl
  · split <;> rfl

/-- A run, with the outcome of each call of RocksDB. -/
def run (s : CommandLoop) (commands : List (StoreCommand × Option StoreError)) : CommandLoop :=
  commands.foldl (fun s c => s.step c.1 c.2) s

theorem run_append_singleton (s : CommandLoop) (commands : List (StoreCommand × Option StoreError))
    (c : StoreCommand × Option StoreError) :
    s.run (commands ++ [c]) = (s.run commands).step c.1 c.2 := by
  unfold run
  rw [List.foldl_append]
  rfl

/-- A run in which every call of RocksDB succeeds. -/
def runFaultless (s : CommandLoop) (commands : List StoreCommand) : CommandLoop :=
  s.run (commands.map fun c => (c, none))

theorem runFaultless_append_singleton (s : CommandLoop) (commands : List StoreCommand)
    (c : StoreCommand) :
    s.runFaultless (commands ++ [c]) = (s.runFaultless commands).step c none := by
  unfold runFaultless
  rw [List.map_append]
  exact run_append_singleton s _ (c, none)

end CommandLoop
end Store
end NeroConsensus
