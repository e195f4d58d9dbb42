import NeroConsensus.Primary.Vote
import Mathlib.Algebra.BigOperators.Group.Finset.Basic
import Mathlib.Algebra.GroupWithZero.Nat
import Mathlib.Algebra.Order.BigOperators.Group.Finset
import Mathlib.Data.List.AList

/-!
# The configuration of a committee

`config/src/lib.rs`: the authorities of a committee with their stakes and addresses, and
the stake thresholds.  A primary is started with such a committee.

A `Stake` is a `u32`.  It is a natural number here, and the sums and products of stakes
go through `Stake.checked`, which fails where the `u32` operation overflows.

The authorities are the entries of a `BTreeMap` in the order in which they are visited;
a list without repeated keys, in any order, since nothing below depends on the order.
What nothing reads is left out of an authority: `byzantine`, of which the only reader is
commented out in `others_primaries`.

`weight` is the total stake of a set of keys.  Both thresholds are computed from the
weight of the whole committee (`eq_of_quorumThreshold`, `eq_of_validityThreshold`), and
two sets that reach the quorum threshold overlap in the validity threshold
(`validity_le_weight_inter`).
-/

namespace NeroConsensus

/-- `Stake`. -/
abbrev Stake := ℕ

/-- The result of an operation on stakes, which panics on overflow. -/
def Stake.checked (n : ℕ) : Option Stake :=
  if n ≤ u32Max then some n else none

theorem Stake.eq_of_checked {n : ℕ} {a : Stake} (h : Stake.checked n = some a) : a = n := by
  unfold Stake.checked at h
  split_ifs at h
  exact (Option.some.inj h).symm

namespace Config

structure PrimaryAddresses where
  transactions : SocketAddr
  deriving DecidableEq

structure Authority where
  stake : Stake
  primary : PrimaryAddresses
  deriving DecidableEq

/-- `ConfigError`; the errors of files have the path and a message. -/
inductive ConfigError where
  | notInCommittee : PublicKey → ConfigError
  | importError : String → String → ConfigError
  | exportError : String → String → ConfigError

structure Committee where
  authorities : AList fun _ : PublicKey => Authority

namespace Committee

/-- `Committee::size`. -/
def size (com : Committee) : ℕ :=
  com.authorities.entries.length

/-- `Committee::stake`. -/
def stake (com : Committee) (name : PublicKey) : Stake :=
  ((com.authorities.lookup name).map Authority.stake).getD 0

/-- `Committee::total_stake`. -/
def totalStake (com : Committee) : Option Stake :=
  com.authorities.entries.foldlM (fun total entry => Stake.checked (total + entry.2.stake)) 0

/-- `self.authorities.values().map(|x| x.stake).sum()`, the sum in both thresholds. -/
def totalVotes (com : Committee) : Option Stake :=
  com.authorities.entries.foldlM (fun total entry => Stake.checked (total + entry.2.stake)) 0

/-- `Committee::quorum_threshold`. -/
def quorumThreshold (com : Committee) : Option Stake := do
  let totalVotes ← com.totalVotes
  let doubled ← Stake.checked (2 * totalVotes)
  Stake.checked (doubled / 3 + 1)

/-- `Committee::validity_threshold`. -/
def validityThreshold (com : Committee) : Option Stake := do
  let totalVotes ← com.totalVotes
  let raised ← Stake.checked (totalVotes + 2)
  pure (raised / 3)

/-- `Committee::primary`. -/
def primary (com : Committee) (target : PublicKey) : Except ConfigError PrimaryAddresses :=
  match com.authorities.lookup target with
  | some authority => .ok authority.primary
  | none => .error (.notInCommittee target)

/-- `Committee::others_primaries`.  The filter that left out `myself` is commented out. -/
def othersPrimaries (com : Committee) (_myself : PublicKey) :
    List (PublicKey × PrimaryAddresses) :=
  com.authorities.entries.map fun entry => (entry.1, entry.2.primary)

/-! ## The keys of a committee and their weight -/

/-- The keys of the authorities. -/
def names (com : Committee) : Finset PublicKey :=
  com.authorities.keys.toFinset

/-- The total stake of a set of keys. -/
def weight (com : Committee) (s : Finset PublicKey) : ℕ :=
  ∑ name ∈ s, com.stake name

theorem mem_names {com : Committee} {name : PublicKey} :
    name ∈ com.names ↔ name ∈ com.authorities := by
  rw [names, List.mem_toFinset, AList.mem_keys]

theorem card_names (com : Committee) : com.names.card = com.size := by
  rw [names, List.toFinset_card_of_nodup com.authorities.keys_nodup, size, AList.keys,
    List.keys, List.length_map]

/-- The members are the keys with addresses. -/
theorem mem_names_iff_primary {com : Committee} {name : PublicKey} :
    name ∈ com.names ↔ ∃ addresses, com.primary name = .ok addresses := by
  rw [mem_names, ← AList.lookup_isSome]
  unfold primary
  cases com.authorities.lookup name with
  | some authority => exact iff_of_true rfl ⟨_, rfl⟩
  | none => exact iff_of_false Bool.false_ne_true fun ⟨_, h⟩ => by cases h

/-- Only an authority has stake. -/
theorem mem_names_of_stake_pos {com : Committee} {name : PublicKey}
    (h : 0 < com.stake name) : name ∈ com.names := by
  by_contra hname
  rw [stake, AList.lookup_eq_none.mpr (mt mem_names.mpr hname)] at h
  exact absurd h (Nat.lt_irrefl 0)

theorem weight_mono {com : Committee} {s t : Finset PublicKey} (h : s ⊆ t) :
    com.weight s ≤ com.weight t :=
  Finset.sum_le_sum_of_subset h

/-! ## The thresholds -/

/-- A checked sum is the sum. -/
theorem eq_of_foldlM_checked {α : Type*} {f : α → Stake} :
    ∀ {l : List α} {start total : Stake},
      l.foldlM (fun total a => Stake.checked (total + f a)) start = some total →
        total = start + (l.map f).sum
  | [], start, total, h => (Option.some.inj h).symm
  | a :: l, start, total, h => by
    rw [List.foldlM_cons] at h
    obtain ⟨next, hnext, hrest⟩ := Option.bind_eq_some_iff.mp h
    rw [eq_of_foldlM_checked hrest, Stake.eq_of_checked hnext, List.map_cons, List.sum_cons,
      Nat.add_assoc]

theorem sum_stakes (com : Committee) :
    (com.authorities.entries.map fun entry => entry.2.stake).sum = com.weight com.names := by
  rw [weight, names, List.sum_toFinset _ com.authorities.keys_nodup, AList.keys, List.keys,
    List.map_map]
  refine congrArg List.sum (List.map_congr_left fun entry hentry => ?_)
  have hlookup : com.authorities.lookup entry.1 = some entry.2 :=
    AList.mem_lookup_iff.mpr hentry
  show entry.2.stake = com.stake entry.1
  rw [stake, hlookup]
  rfl

theorem eq_of_totalVotes {com : Committee} {total : Stake} (h : com.totalVotes = some total) :
    total = com.weight com.names := by
  rw [← sum_stakes, eq_of_foldlM_checked h, Nat.zero_add]

theorem eq_of_quorumThreshold {com : Committee} {q : ℕ} (h : com.quorumThreshold = some q) :
    q = 2 * com.weight com.names / 3 + 1 := by
  obtain ⟨total, htotal, h⟩ := Option.bind_eq_some_iff.mp h
  obtain ⟨doubled, hdoubled, h⟩ := Option.bind_eq_some_iff.mp h
  rw [Stake.eq_of_checked h, Stake.eq_of_checked hdoubled, eq_of_totalVotes htotal]

theorem eq_of_validityThreshold {com : Committee} {t : ℕ}
    (h : com.validityThreshold = some t) : t = (com.weight com.names + 2) / 3 := by
  obtain ⟨total, htotal, h⟩ := Option.bind_eq_some_iff.mp h
  obtain ⟨raised, hraised, h⟩ := Option.bind_eq_some_iff.mp h
  rw [← Option.some.inj h, Stake.eq_of_checked hraised, eq_of_totalVotes htotal]

/-- **Two sets of authorities that reach the quorum threshold share as much stake as the
validity threshold asks for.** -/
theorem validity_le_weight_inter {com : Committee} {q t : ℕ}
    (hq : com.quorumThreshold = some q) (ht : com.validityThreshold = some t)
    {s s' : Finset PublicKey} (hs : s ⊆ com.names) (hs' : s' ⊆ com.names)
    (hweight : q ≤ com.weight s) (hweight' : q ≤ com.weight s') :
    t ≤ com.weight (s ∩ s') := by
  have hsplit : com.weight (s ∪ s') + com.weight (s ∩ s') = com.weight s + com.weight s' :=
    Finset.sum_union_inter
  have hle := com.weight_mono (Finset.union_subset hs hs')
  have hq := eq_of_quorumThreshold hq
  have ht := eq_of_validityThreshold ht
  omega

/-- The committees of the concrete runs, one authority an entry. -/
def ofStakes (stakes : List (UInt8 × Stake)) : Committee :=
  { authorities := (stakes.map fun s => (⟨authority s.1,
      { stake := s.2
        primary := ⟨{ ip := [127, 0, 0, s.1], port := 4000 }⟩ }⟩ :
          Sigma fun _ : PublicKey => Authority)).toAList }

end Committee
end Config
end NeroConsensus
