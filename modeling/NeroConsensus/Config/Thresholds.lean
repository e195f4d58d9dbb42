import NeroConsensus.Config

/-!
# When the stake thresholds can be computed

`quorum_threshold` doubles the total stake before it divides, in a `u32`, so it needs a total
below `2 ^ 31` where the total itself may go up to `2 ^ 32`.  Below that bound the thresholds
are what the comments next to them say, `N - f` and `f + 1`, and two quorums share the validity
threshold (`intersectingQuorums_iff`).
-/

namespace NeroConsensus

theorem Stake.checked_of_le {n : ℕ} (h : n ≤ u32Max) : Stake.checked n = some n :=
  if_pos h

theorem Stake.checked_of_lt {n : ℕ} (h : u32Max < n) : Stake.checked n = none :=
  if_neg (Nat.not_le.mpr h)

namespace Config
namespace Committee

/-- `f`, where the total stake is `3 * f + 1 + k` with `k` at most 2. -/
def faults (total : ℕ) : ℕ := (total - 1) / 3

/-- The thresholds are computed, they are `N - f` and `f + 1`, and two sets of authorities that
reach the first share the second. -/
structure IntersectingQuorums (com : Committee) : Prop where
  totalStake : com.totalStake = some (com.weight com.names)
  quorum : com.quorumThreshold =
    some (com.weight com.names - faults (com.weight com.names))
  validity : com.validityThreshold = some (faults (com.weight com.names) + 1)
  inter : ∀ q t, com.quorumThreshold = some q → com.validityThreshold = some t →
    ∀ s s', s ⊆ com.names → s' ⊆ com.names → q ≤ com.weight s → q ≤ com.weight s' →
      t ≤ com.weight (s ∩ s')

/-! ## Rounding -/

section Rounding

variable {total : ℕ}

theorem twoThirds_eq (hpos : 1 ≤ total) : 2 * total / 3 + 1 = total - faults total := by
  unfold faults
  omega

theorem third_eq (hpos : 1 ≤ total) : (total + 2) / 3 = faults total + 1 := by
  unfold faults
  omega

end Rounding

/-! ## Overflow -/

/-- A chain of checked additions fails nowhere if the sum fits. -/
theorem foldlM_checked {α : Type*} {f : α → Stake} :
    ∀ {l : List α} {start : ℕ}, start + (l.map f).sum ≤ u32Max →
      l.foldlM (fun total a => Stake.checked (total + f a)) start = some (start + (l.map f).sum)
  | [], _, _ => rfl
  | a :: l, start, h => by
    rw [List.map_cons, List.sum_cons, ← Nat.add_assoc] at h ⊢
    rw [List.foldlM_cons, Stake.checked_of_le (le_trans (Nat.le_add_right _ _) h)]
    exact foldlM_checked h

variable {com : Committee}

theorem totalVotes_of_le (hfits : com.weight com.names ≤ u32Max) :
    com.totalVotes = some (com.weight com.names) := by
  rw [← sum_stakes, ← Nat.zero_add (List.sum _)] at hfits ⊢
  exact foldlM_checked hfits

/-- The doubling is what may overflow. -/
theorem quorumThreshold_of_le (hpos : 1 ≤ com.weight com.names)
    (hfits : com.weight com.names ≤ u32Max) :
    com.quorumThreshold =
      if 2 * com.weight com.names ≤ u32Max then
        some (com.weight com.names - faults (com.weight com.names))
      else none := by
  rw [quorumThreshold, totalVotes_of_le hfits, ← twoThirds_eq hpos]
  show (Stake.checked (2 * com.weight com.names)).bind
    (fun doubled => Stake.checked (doubled / 3 + 1)) = _
  split_ifs with hdouble
  · rw [Stake.checked_of_le hdouble, Option.bind_some, Stake.checked_of_le (by omega)]
  · rw [Stake.checked_of_lt (Nat.not_le.mp hdouble), Option.bind_none]

theorem validityThreshold_of_le (hpos : 1 ≤ com.weight com.names)
    (hfits : com.weight com.names + 2 ≤ u32Max) :
    com.validityThreshold = some (faults (com.weight com.names) + 1) := by
  rw [validityThreshold, totalVotes_of_le (le_trans (Nat.le_add_right _ 2) hfits),
    ← third_eq hpos]
  show (Stake.checked (com.weight com.names + 2)).bind (fun raised => some (raised / 3)) = _
  rw [Stake.checked_of_le hfits, Option.bind_some]

/-- **When quorums intersect.**  For every committee whose total stake is a positive `u32`, the
thresholds are computed without overflow, have the documented values and intersect as they
should, if and only if twice the total stake is still a `u32`. -/
theorem intersectingQuorums_iff (com : Committee) (hpos : 1 ≤ com.weight com.names)
    (hfits : com.weight com.names ≤ u32Max) :
    com.IntersectingQuorums ↔ 2 * com.weight com.names ≤ u32Max := by
  constructor
  · intro hquorums
    by_contra hdouble
    have hnone := quorumThreshold_of_le hpos hfits
    rw [if_neg hdouble, hquorums.quorum] at hnone
    cases hnone
  · intro hdouble
    have hraise : com.weight com.names + 2 ≤ u32Max := by
      have hmax : u32Max = 2 ^ 32 - 1 := rfl
      omega
    refine ⟨totalVotes_of_le hfits, ?_, validityThreshold_of_le hpos hraise, ?_⟩
    · rw [quorumThreshold_of_le hpos hfits, if_pos hdouble]
    · intro q t hq ht s s' hs hs' hweight hweight'
      exact validity_le_weight_inter hq ht hs hs' hweight hweight'

theorem intersectingQuorums_iff_four :
    (ofStakes [(1, 1), (2, 1), (3, 1), (4, 1)]).IntersectingQuorums ↔
      2 * (ofStakes [(1, 1), (2, 1), (3, 1), (4, 1)]).weight
        (ofStakes [(1, 1), (2, 1), (3, 1), (4, 1)]).names ≤ u32Max :=
  intersectingQuorums_iff _ (by decide +kernel) (by decide +kernel)

/-- **A total stake of `2 ^ 31` is too much**, though it is a `u32`. -/
theorem exists_not_intersectingQuorums :
    ∃ com : Committee, 1 ≤ com.weight com.names ∧ com.weight com.names ≤ u32Max ∧
      ¬com.IntersectingQuorums :=
  ⟨ofStakes [(1, 2 ^ 29), (2, 2 ^ 29), (3, 2 ^ 29), (4, 2 ^ 29)], by decide +kernel,
    by decide +kernel, fun hquorums => absurd hquorums.quorum (by decide +kernel)⟩

end Committee
end Config
end NeroConsensus
