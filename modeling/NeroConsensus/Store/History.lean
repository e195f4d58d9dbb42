import NeroConsensus.Store.CommandLoop
import Mathlib.Data.List.Nodup

/-!
# What the store answers

The answer to a command is a matter of the commands alone: of the values written to its key
before it and, for a command that waits, after it.  `answerOf` says which answer that is, with
`stored` for the value of a key after some commands, and `waiting` for the numbers of the commands
that wait for a key.

`Faithful` is that the loop has given these answers and is ready to give the others, and
`Faithful.step` that one more command keeps it so, as long as RocksDB does what it is asked.
`answers_run` is what the clients see.
-/

namespace NeroConsensus
namespace Store

variable {db₀ : Finmap fun _ : Key => Value} {cs : List StoreCommand} {c : StoreCommand}
  {k : Key} {i j : ℕ}

/-! ## Values -/

/-- The value that a command writes to a key. -/
def writeTo (k : Key) : StoreCommand → Option Value
  | .write key value => if key = k then some value else none
  | _ => none

/-- The values written to a key. -/
def writtenTo (k : Key) (cs : List StoreCommand) : List Value :=
  cs.filterMap (writeTo k)

/-- The value of a key after some commands: the last one written to it, or the initial one. -/
def stored (db₀ : Finmap fun _ : Key => Value) (cs : List StoreCommand) (k : Key) :
    Option Value :=
  (writtenTo k cs).getLast?.or (db₀.lookup k)

theorem writtenTo_append (k : Key) (cs cs' : List StoreCommand) :
    writtenTo k (cs ++ cs') = writtenTo k cs ++ writtenTo k cs' :=
  List.filterMap_append

theorem writtenTo_singleton (k : Key) (c : StoreCommand) :
    writtenTo k [c] = (writeTo k c).toList := by
  unfold writtenTo
  cases h : writeTo k c with
  | none => rw [List.filterMap_cons_none h]; rfl
  | some v => rw [List.filterMap_cons_some h]; rfl

theorem stored_append_singleton (db₀ : Finmap fun _ : Key => Value) (cs : List StoreCommand)
    (c : StoreCommand) (k : Key) :
    stored db₀ (cs ++ [c]) k = (writeTo k c).or (stored db₀ cs k) := by
  unfold stored
  rw [writtenTo_append, writtenTo_singleton]
  cases writeTo k c with
  | none => rw [Option.toList_none, List.append_nil, Option.none_or]
  | some v => rw [Option.toList_some, List.getLast?_concat, Option.some_or, Option.some_or]

/-- Commands that write nothing to a key leave its value. -/
theorem stored_append_of_writtenTo {cs' : List StoreCommand} (h : writtenTo k cs' = []) :
    stored db₀ (cs ++ cs') k = stored db₀ cs k := by
  unfold stored
  rw [writtenTo_append, h, List.append_nil]

/-! ## Answers -/

/-- The answer to a command, given all commands, if there is one. -/
def answerOf (db₀ : Finmap fun _ : Key => Value) (cs : List StoreCommand) (i : ℕ) :
    Option Reply :=
  match cs[i]? with
  | some (.read k) => some (.read (.ok (stored db₀ (cs.take i) k)))
  | some (.notifyRead k) =>
    ((stored db₀ (cs.take i) k).or (writtenTo k (cs.drop (i + 1))).head?).map fun v =>
      .notifyRead (.ok v)
  | _ => none

/-- Command `i` waits for a value of `k`. -/
def Waits (db₀ : Finmap fun _ : Key => Value) (cs : List StoreCommand) (k : Key) (i : ℕ) : Prop :=
  cs[i]? = some (.notifyRead k) ∧ answerOf db₀ cs i = none

instance : DecidablePred (Waits db₀ cs k) := fun _ => inferInstanceAs (Decidable (_ ∧ _))

/-- The commands that wait for a value of `k`, in the order in which they came. -/
def waiting (db₀ : Finmap fun _ : Key => Value) (cs : List StoreCommand) (k : Key) : List ℕ :=
  (List.range cs.length).filter fun i => Waits db₀ cs k i

/-- What goes out when the command `c` comes after `cs`. -/
def served (db₀ : Finmap fun _ : Key => Value) (cs : List StoreCommand) :
    StoreCommand → List (ℕ × Reply)
  | .write k v => (waiting db₀ cs k).map fun i => (i, .notifyRead (.ok v))
  | .read k => [(cs.length, .read (.ok (stored db₀ cs k)))]
  | .notifyRead k =>
    ((stored db₀ cs k).map fun v => (cs.length, Reply.notifyRead (.ok v))).toList

theorem waits_iff : Waits db₀ cs k i ↔ cs[i]? = some (.notifyRead k) ∧
    stored db₀ (cs.take i) k = none ∧ writtenTo k (cs.drop (i + 1)) = [] := by
  unfold Waits
  refine and_congr_right fun hi => ?_
  rw [answerOf, hi]
  simp [Option.or_eq_none_iff, List.head?_eq_none_iff]

theorem mem_waiting : i ∈ waiting db₀ cs k ↔ Waits db₀ cs k i := by
  unfold waiting
  rw [List.mem_filter, List.mem_range, decide_eq_true_iff, and_iff_right_iff_imp]
  rintro ⟨hi, -⟩
  exact (List.getElem?_eq_some_iff.mp hi).1

theorem sorted_waiting (db₀ : Finmap fun _ : Key => Value) (cs : List StoreCommand) (k : Key) :
    (waiting db₀ cs k).Pairwise (· < ·) :=
  List.pairwise_lt_range.filter _

/-- Nobody waits for a key that has a value. -/
theorem Waits.stored_eq_none (h : Waits db₀ cs k i) : stored db₀ cs k = none := by
  obtain ⟨hi, hbefore, hafter⟩ := waits_iff.mp h
  have hsplit : cs = cs.take i ++ .notifyRead k :: cs.drop (i + 1) := by
    obtain ⟨hlt, hget⟩ := List.getElem?_eq_some_iff.mp hi
    rw [← hget, List.getElem_cons_drop, List.take_append_drop]
  rw [hsplit]
  have hnone : writtenTo k (.notifyRead k :: cs.drop (i + 1)) = [] := by
    rw [writtenTo, List.filterMap_cons_none rfl]
    exact hafter
  rw [stored_append_of_writtenTo hnone]
  exact hbefore

/-! ## One more command -/

theorem waits_append_of_lt (hi : i < cs.length) (c : StoreCommand) :
    Waits db₀ (cs ++ [c]) k i ↔ Waits db₀ cs k i ∧ writeTo k c = none := by
  rw [waits_iff, waits_iff, List.getElem?_append_left hi, List.take_append_of_le_length hi.le,
    List.drop_append_of_le_length hi, writtenTo_append, writtenTo_singleton,
    List.append_eq_nil_iff, Option.toList_eq_nil_iff]
  tauto

theorem waits_append_length (db₀ : Finmap fun _ : Key => Value) (cs : List StoreCommand)
    (c : StoreCommand) (k : Key) :
    Waits db₀ (cs ++ [c]) k cs.length ↔ c = .notifyRead k ∧ stored db₀ cs k = none := by
  rw [waits_iff, List.getElem?_concat_length, List.take_left, List.drop_eq_nil_of_le (by simp),
    Option.some_inj]
  simp [writtenTo]

/-- The commands that wait after one more command: none for a key that is written. -/
theorem waiting_append (db₀ : Finmap fun _ : Key => Value) (cs : List StoreCommand)
    (c : StoreCommand) (k : Key) :
    waiting db₀ (cs ++ [c]) k =
      (if writeTo k c = none then waiting db₀ cs k else []) ++
        if c = .notifyRead k ∧ stored db₀ cs k = none then [cs.length] else [] := by
  have hbefore : (List.range cs.length).filter (fun i => Waits db₀ (cs ++ [c]) k i) =
      if writeTo k c = none then waiting db₀ cs k else [] := by
    rw [waiting]
    split_ifs with hc
    · refine List.filter_congr fun i hi => ?_
      rw [decide_eq_decide, waits_append_of_lt (List.mem_range.mp hi), and_iff_left hc]
    · refine List.filter_eq_nil_iff.mpr fun i hi hw => ?_
      rw [decide_eq_true_iff, waits_append_of_lt (List.mem_range.mp hi)] at hw
      exact hc hw.2
  have hlast : [cs.length].filter (fun i => Waits db₀ (cs ++ [c]) k i) =
      if c = .notifyRead k ∧ stored db₀ cs k = none then [cs.length] else [] := by
    simp only [List.filter_singleton, waits_append_length, Bool.cond_decide]
  rw [waiting, List.length_append, List.length_singleton, List.range_succ, List.filter_append,
    hbefore, hlast]

/-- The answer that a command gets at once. -/
theorem answerOf_append_length (db₀ : Finmap fun _ : Key => Value) (cs : List StoreCommand)
    (c : StoreCommand) : answerOf db₀ (cs ++ [c]) cs.length =
      match c with
      | .write _ _ => none
      | .read k => some (.read (.ok (stored db₀ cs k)))
      | .notifyRead k => (stored db₀ cs k).map fun v => .notifyRead (.ok v) := by
  rw [answerOf, List.getElem?_concat_length, List.take_left, List.drop_eq_nil_of_le (by simp)]
  cases c with
  | write key v => rfl
  | read key => rfl
  | notifyRead key => simp [writtenTo]

/-- What goes out goes to those that waited for the key, or to the command itself. -/
theorem mem_served {r : Reply} : (i, r) ∈ served db₀ cs c ↔
    (∃ k v, Waits db₀ cs k i ∧ writeTo k c = some v ∧ r = .notifyRead (.ok v)) ∨
      i = cs.length ∧ answerOf db₀ (cs ++ [c]) cs.length = some r := by
  rw [answerOf_append_length]
  cases c with
  | write key v =>
    simp only [served, List.mem_map, mem_waiting, Prod.mk.injEq, reduceCtorEq, and_false, or_false]
    constructor
    · rintro ⟨i, hi, rfl, rfl⟩
      exact ⟨key, v, hi, if_pos rfl, rfl⟩
    · rintro ⟨k, w, hi, hw, rfl⟩
      obtain ⟨rfl, rfl⟩ : key = k ∧ v = w := by simpa [writeTo] using hw
      exact ⟨i, hi, rfl, rfl⟩
  | read key => simp [served, writeTo, eq_comm]
  | notifyRead key =>
    cases hvalue : stored db₀ cs key with
    | none => simp [served, hvalue, writeTo]
    | some v => simp [served, hvalue, writeTo, eq_comm]

theorem answerOf_append_of_lt (hi : i < cs.length) {r : Reply} :
    answerOf db₀ (cs ++ [c]) i = some r ↔ answerOf db₀ cs i = some r ∨
      ∃ k v, Waits db₀ cs k i ∧ writeTo k c = some v ∧ r = .notifyRead (.ok v) := by
  have hrest : ∀ k, (writtenTo k ((cs ++ [c]).drop (i + 1))).head? =
      (writtenTo k (cs.drop (i + 1))).head?.or (writeTo k c) := by
    intro k
    rw [List.drop_append_of_le_length hi, writtenTo_append, writtenTo_singleton,
      List.head?_append, Option.head?_toList]
  unfold Waits answerOf
  rw [List.getElem?_append_left hi, List.take_append_of_le_length hi.le]
  cases hget : cs[i]? with
  | none => simp
  | some command =>
    cases command with
    | write key v => simp
    | read key => simp
    | notifyRead key =>
      simp only [hrest, ← Option.or_assoc]
      cases (stored db₀ (cs.take i) key).or (writtenTo key (cs.drop (i + 1))).head? with
      | none => simp [eq_comm]
      | some w => simp

theorem lt_length_of_answerOf {r : Reply} (h : answerOf db₀ cs i = some r) : i < cs.length := by
  by_contra hi
  rw [answerOf, List.getElem?_eq_none (not_lt.mp hi)] at h
  cases h

/-- **The answers after one more command** are the answers before it and what goes out with
it. -/
theorem answerOf_append {r : Reply} : answerOf db₀ (cs ++ [c]) i = some r ↔
    answerOf db₀ cs i = some r ∨ (i, r) ∈ served db₀ cs c := by
  rw [mem_served]
  rcases lt_trichotomy i cs.length with hi | rfl | hi
  · rw [answerOf_append_of_lt hi]
    simp [hi.ne]
  · have hbefore : answerOf db₀ cs cs.length ≠ some r := fun h =>
      (lt_length_of_answerOf h).false
    have hwaits : ∀ k, ¬Waits db₀ cs k cs.length := fun k h => by
      rw [Waits, List.getElem?_eq_none le_rfl] at h
      cases h.1
    simp [hbefore, hwaits]
  · have hbefore : answerOf db₀ cs i ≠ some r := fun h => (lt_length_of_answerOf h).not_gt hi
    have hafter : answerOf db₀ (cs ++ [c]) i ≠ some r := fun h => by
      have hlt := lt_length_of_answerOf h
      rw [List.length_append, List.length_singleton] at hlt
      omega
    have hwaits : ∀ k, ¬Waits db₀ cs k i := fun k h =>
      (List.getElem?_eq_some_iff.mp h.1).1.not_gt hi
    simp [hbefore, hafter, hwaits, hi.ne']

/-! ## The order of the answers -/

theorem writtenTo_eq_nil_of_sublist {cs cs' : List StoreCommand} (hsub : cs.Sublist cs')
    (h : writtenTo k cs' = []) : writtenTo k cs = [] :=
  List.sublist_nil.mp (h ▸ hsub.filterMap (writeTo k))

/-- Whoever comes later for the same key waits too. -/
theorem Waits.later (hj : Waits db₀ cs k j) (hji : j ≤ i)
    (hi : cs[i]? = some (.notifyRead k)) : Waits db₀ cs k i := by
  obtain ⟨hget, hbefore, hafter⟩ := waits_iff.mp hj
  refine waits_iff.mpr ⟨hi, ?_, ?_⟩
  · have hfrom : writtenTo k (cs.drop j) = [] := by
      obtain ⟨hlt, hget⟩ := List.getElem?_eq_some_iff.mp hget
      rw [← List.getElem_cons_drop hlt, hget, writtenTo, List.filterMap_cons_none rfl]
      exact hafter
    have hbetween : writtenTo k ((cs.take i).drop j) = [] :=
      writtenTo_eq_nil_of_sublist ((List.take_sublist i cs).drop j) hfrom
    rw [← List.take_append_drop j (cs.take i), stored_append_of_writtenTo hbetween,
      List.take_take, min_eq_left hji]
    exact hbefore
  · exact writtenTo_eq_nil_of_sublist (List.drop_sublist_drop_left cs (by omega)) hafter

/-- The commands that wait for `k` and are answered when `c` comes after `cs` came after those
that had been answered before. -/
theorem lt_of_served {r r' : Reply} (hi : cs[i]? = some (.notifyRead k))
    (hanswer : answerOf db₀ cs i = some r) (hj : (cs ++ [c])[j]? = some (.notifyRead k))
    (hserved : (j, r') ∈ served db₀ cs c) : i < j := by
  rcases mem_served.mp hserved with ⟨k', v, hwaits, -, -⟩ | ⟨rfl, -⟩
  · have hlt := (List.getElem?_eq_some_iff.mp hwaits.1).1
    rw [List.getElem?_append_left hlt, hwaits.1] at hj
    obtain rfl : k' = k := StoreCommand.notifyRead.inj (Option.some.inj hj)
    by_contra hle
    have hnone := (hwaits.later (not_lt.mp hle) hi).2
    rw [hanswer] at hnone
    cases hnone
  · exact lt_length_of_answerOf hanswer

/-- What goes out goes to commands that had no answer. -/
theorem answerOf_of_served {r : Reply} (h : (i, r) ∈ served db₀ cs c) :
    answerOf db₀ cs i = none := by
  rcases mem_served.mp h with ⟨k, v, hwaits, -, -⟩ | ⟨rfl, -⟩
  · exact hwaits.2
  · rw [answerOf, List.getElem?_eq_none le_rfl]

/-- What goes out with one command goes out in the order of the commands it answers. -/
theorem sorted_served (db₀ : Finmap fun _ : Key => Value) (cs : List StoreCommand)
    (c : StoreCommand) : ((served db₀ cs c).map Prod.fst).Pairwise (· < ·) := by
  cases c with
  | write k v =>
    rw [served, List.map_map]
    exact (List.map_id _).symm ▸ sorted_waiting db₀ cs k
  | read k => exact List.pairwise_singleton _ _
  | notifyRead k => cases hvalue : stored db₀ cs k <;> simp [served, hvalue]

/-! ## The loop -/

/-- The loop after the commands `cs`. -/
structure Faithful (db₀ : Finmap fun _ : Key => Value) (cs : List StoreCommand)
    (s : CommandLoop) : Prop where
  received : s.received = cs.length
  lookup_db : ∀ k, s.db.lookup k = stored db₀ cs k
  lookup_obligations : ∀ k l, s.obligations.lookup k = some l ↔ l = waiting db₀ cs k ∧ l ≠ []
  mem_replies : ∀ i r, (i, r) ∈ s.replies ↔ answerOf db₀ cs i = some r
  nodup_replies : (s.replies.map Prod.fst).Nodup
  sorted_replies : ∀ k, ((s.replies.map Prod.fst).filter fun i =>
    cs[i]? = some (.notifyRead k)).Pairwise (· < ·)

namespace Faithful

variable {s : CommandLoop}

theorem new (db₀ : Finmap fun _ : Key => Value) : Faithful db₀ [] (CommandLoop.new db₀) where
  received := rfl
  lookup_db _ := rfl
  lookup_obligations k l := by simp [CommandLoop.new, waiting]
  mem_replies i r := by simp [CommandLoop.new, answerOf]
  nodup_replies := List.nodup_nil
  sorted_replies _ := List.Pairwise.nil

/-- Nobody waits for a key of the database. -/
theorem not_mem_db (h : Faithful db₀ cs s) (hk : k ∈ s.obligations) : k ∉ s.db := by
  obtain ⟨l, hl⟩ := Finmap.mem_iff.mp hk
  obtain ⟨rfl, hne⟩ := (h.lookup_obligations k l).mp hl
  obtain ⟨i, hi⟩ := List.exists_mem_of_ne_nil _ hne
  rw [← Finmap.lookup_eq_none, h.lookup_db]
  exact (mem_waiting.mp hi).stored_eq_none

theorem getD_obligations (h : Faithful db₀ cs s) (k : Key) :
    (s.obligations.lookup k).getD [] = waiting db₀ cs k := by
  cases hl : s.obligations.lookup k with
  | some l => exact ((h.lookup_obligations k l).mp hl).1
  | none =>
    by_contra hne
    have hsome := (h.lookup_obligations k _).mpr ⟨rfl, fun hnil => hne hnil.symm⟩
    rw [hl] at hsome
    cases hsome

theorem exists_answerOf (h : Faithful db₀ cs s) (hi : i ∈ s.replies.map Prod.fst) :
    ∃ r, answerOf db₀ cs i = some r := by
  obtain ⟨⟨i, r⟩, hmem, rfl⟩ := List.mem_map.mp hi
  exact ⟨r, (h.mem_replies i r).mp hmem⟩

/-- The new answers come after the old ones. -/
theorem replies_append (h : Faithful db₀ cs s) (c : StoreCommand) :
    (∀ i r, (i, r) ∈ s.replies ++ served db₀ cs c ↔ answerOf db₀ (cs ++ [c]) i = some r) ∧
      ((s.replies ++ served db₀ cs c).map Prod.fst).Nodup ∧
      ∀ k, (((s.replies ++ served db₀ cs c).map Prod.fst).filter fun i =>
        (cs ++ [c])[i]? = some (.notifyRead k)).Pairwise (· < ·) := by
  have hserved : ∀ j ∈ (served db₀ cs c).map Prod.fst, ∃ r, (j, r) ∈ served db₀ cs c := by
    intro j hj
    obtain ⟨⟨j, r⟩, hmem, rfl⟩ := List.mem_map.mp hj
    exact ⟨r, hmem⟩
  have hsorted := sorted_served db₀ cs c
  refine ⟨fun i r => ?_, ?_, fun k => ?_⟩
  · rw [List.mem_append, h.mem_replies, answerOf_append]
  · rw [List.map_append]
    refine List.nodup_append.mpr ⟨h.nodup_replies, hsorted.imp ne_of_lt, ?_⟩
    rintro i hi j hj rfl
    obtain ⟨r, hr⟩ := h.exists_answerOf hi
    obtain ⟨r', hr'⟩ := hserved i hj
    rw [answerOf_of_served hr'] at hr
    cases hr
  · rw [List.map_append, List.filter_append, List.pairwise_append]
    have hold : (s.replies.map Prod.fst).filter
        (fun i => (cs ++ [c])[i]? = some (.notifyRead k)) =
        (s.replies.map Prod.fst).filter fun i => cs[i]? = some (.notifyRead k) := by
      refine List.filter_congr fun i hi => ?_
      obtain ⟨r, hr⟩ := h.exists_answerOf hi
      rw [List.getElem?_append_left (lt_length_of_answerOf hr)]
    refine ⟨hold ▸ h.sorted_replies k, hsorted.filter _, fun i hi j hj => ?_⟩
    rw [hold] at hi
    obtain ⟨hi, hget⟩ := List.mem_filter.mp hi
    obtain ⟨hj, hget'⟩ := List.mem_filter.mp hj
    obtain ⟨r, hr⟩ := h.exists_answerOf hi
    obtain ⟨r', hr'⟩ := hserved j hj
    exact lt_of_served (of_decide_eq_true hget) hr (of_decide_eq_true hget') hr'

theorem replies_step (h : Faithful db₀ cs s) (c : StoreCommand) :
    (s.step c none).replies = s.replies ++ served db₀ cs c := by
  cases c with
  | write key value =>
    rw [served, ← h.getD_obligations key]
    cases hl : s.obligations.lookup key with
    | some senders => simp only [CommandLoop.step, hl, Option.getD_some]
    | none => simp [CommandLoop.step, hl]
  | read key => rw [served, ← h.received, ← h.lookup_db key]; rfl
  | notifyRead key =>
    rw [served, ← h.received, ← h.lookup_db key]
    cases hl : s.db.lookup key with
    | some value => simp [CommandLoop.step, CommandLoop.get, hl]
    | none => simp [CommandLoop.step, CommandLoop.get, hl]

theorem lookup_db_step (h : Faithful db₀ cs s) (c : StoreCommand) (k : Key) :
    (s.step c none).db.lookup k = stored db₀ (cs ++ [c]) k := by
  rw [stored_append_singleton, ← h.lookup_db k]
  cases c with
  | write key value =>
    rw [CommandLoop.db_write, CommandLoop.put, writeTo]
    split_ifs with hk
    · rw [hk, Finmap.lookup_insert, Option.some_or]
    · rw [Finmap.lookup_insert_of_ne _ (Ne.symm hk), Option.none_or]
  | read key => rfl
  | notifyRead key =>
    cases hl : s.db.lookup key <;> simp [CommandLoop.step, CommandLoop.get, hl, writeTo]

theorem lookup_obligations_step (h : Faithful db₀ cs s) (c : StoreCommand) (k : Key)
    (l : List ℕ) : (s.step c none).obligations.lookup k = some l ↔
      l = waiting db₀ (cs ++ [c]) k ∧ l ≠ [] := by
  rw [waiting_append]
  cases c with
  | write key value =>
    rw [CommandLoop.lookup_obligations_write]
    by_cases hk : k = key
    · simp [hk, writeTo]
    · simp [hk, writeTo, Ne.symm hk, h.lookup_obligations]
  | read key => simp [CommandLoop.step, writeTo, h.lookup_obligations]
  | notifyRead key =>
    have hdb := h.lookup_db key
    cases hl : s.db.lookup key with
    | some value =>
      have hvalue : ¬(key = k ∧ stored db₀ cs k = none) := by
        rintro ⟨rfl, hnone⟩
        rw [← hdb, hl] at hnone
        cases hnone
      simp [CommandLoop.step, CommandLoop.get, hl, writeTo, hvalue, h.lookup_obligations]
    | none =>
      simp only [CommandLoop.step, CommandLoop.get, hl, h.getD_obligations, h.received]
      by_cases hk : k = key
      · rw [hk, Finmap.lookup_insert, Option.some_inj, ← hdb, hl,
          if_pos (show writeTo key (.notifyRead key) = none from rfl), if_pos ⟨rfl, rfl⟩]
        exact ⟨fun heq => ⟨heq.symm, heq ▸ List.concat_ne_nil _ _⟩, fun heq => heq.1.symm⟩
      · rw [Finmap.lookup_insert_of_ne _ hk, h.lookup_obligations]
        simp [writeTo, Ne.symm hk]

/-- **One turn of the loop.** -/
theorem step (h : Faithful db₀ cs s) (c : StoreCommand) :
    Faithful db₀ (cs ++ [c]) (s.step c none) := by
  obtain ⟨hmem, hnodup, hsorted⟩ := h.replies_append c
  rw [← h.replies_step c] at hmem hnodup hsorted
  refine ⟨?_, h.lookup_db_step c, h.lookup_obligations_step c, hmem, hnodup, hsorted⟩
  rw [CommandLoop.received_step, h.received, List.length_append, List.length_singleton]

theorem of_run (db₀ : Finmap fun _ : Key => Value) (cs : List StoreCommand) :
    Faithful db₀ cs ((CommandLoop.new db₀).runFaultless cs) := by
  induction cs using List.reverseRecOn with
  | nil => exact new db₀
  | append_singleton cs c ih =>
    rw [CommandLoop.runFaultless_append_singleton]
    exact ih.step c

end Faithful

/-! ## What the clients see -/

/-- **The store answers every command with the right value.**  After any commands, in any order:
what has gone out are the answers, none of them twice; those that wait for the same key have got
theirs in the order in which they came, and the others are kept in this order; and nobody waits
for a key of the database. -/
theorem answers_run (db₀ : Finmap fun _ : Key => Value) (cs : List StoreCommand) :
    let s := (CommandLoop.new db₀).runFaultless cs
    (∀ i r, (i, r) ∈ s.replies ↔ answerOf db₀ cs i = some r) ∧
      (s.replies.map Prod.fst).Nodup ∧
      (∀ k, ((s.replies.map Prod.fst).filter fun i =>
        cs[i]? = some (.notifyRead k)).Pairwise (· < ·)) ∧
      (∀ k, (s.obligations.lookup k).getD [] = waiting db₀ cs k) ∧
      ∀ k ∈ s.obligations, k ∉ s.db := by
  have h := Faithful.of_run db₀ cs
  exact ⟨h.mem_replies, h.nodup_replies, h.sorted_replies, h.getD_obligations,
    fun _ => h.not_mem_db⟩

end Store
end NeroConsensus
