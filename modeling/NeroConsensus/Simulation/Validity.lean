import NeroConsensus.Simulation.TwoQuorums

/-!
# Where a decision for 1 comes from

A node of the simulation votes 1 after a quorum of ones, and 0 otherwise.  So when fewer than two of
the honest nodes start with 1, nobody sees a quorum of ones in the first round, whatever is delayed
and whatever the byzantine node says, and then the honest nodes vote 0 for ever: `Dormant`, an
invariant of all the runs.  It is not the same with 0, which is decided where all honest nodes
start with 1, if some of the votes are delayed (`exists_decided_zero`).
-/

namespace NeroConsensus
namespace Simulation

/-- The honest nodes that start with 1. -/
def InitialDraws.honestOnes (d : InitialDraws) : Finset Node :=
  Finset.univ.filter fun i => i.Honest ∧ d.honestVote i = true

namespace Instance

variable {d : InitialDraws} {s : Instance} {i j : Node} {r : ℕ} {x : ℤ}

/-- In the first round the ones come from the honest nodes that have started with them and the
byzantine node, and later on from the byzantine node only. -/
structure Dormant (d : InitialDraws) (s : Instance) : Prop where
  first : ∀ j row, s.votes.lookup (j, 0) = some row → j.Honest → j ∉ d.honestOnes →
    ∀ k, row k ≠ 1
  later : ∀ j r row, s.votes.lookup (j, r + 1) = some row → j.Honest → row = fun _ => 0
  decided : ∀ i x, s.decided.lookup i = some x → x = 0

/-- Where there is no 1, the delayed votes are zeros. -/
theorem receiveDelayed_ne_one {row : Row} (h : ∀ k, row k ≠ 1) (k : Node) :
    receiveDelayed row k ≠ 1 := by
  have hfold : ∀ (l : List Node) (row : Row), (∀ k, row k ≠ 1) → ∀ k, l.foldl (fun new i =>
      if new i = -1 then Function.update new i (if ∃ k, new k = 1 then 1 else 0) else new) row k ≠
        1 := by
    intro l
    induction l with
    | nil => exact fun _ hrow => hrow
    | cons i l ih =>
      intro row hrow
      refine ih _ fun k => ?_
      show (if row i = -1 then Function.update row i (if ∃ k, row k = 1 then 1 else 0)
        else row) k ≠ 1
      rw [if_neg fun hone : ∃ k, row k = 1 => hone.elim hrow]
      split_ifs
      · by_cases hk : k = i
        · rw [hk, Function.update_self]
          decide
        · rw [Function.update_of_ne hk]
          exact hrow k
      · exact hrow k
  exact hfold _ row h k

theorem Dormant.of_start (d : InitialDraws) : Dormant d (start d) where
  first j row hrow hj hnot k := by
    have hvote : d.honestVote j ≠ true := fun htrue =>
      hnot (Finset.mem_filter.mpr ⟨Finset.mem_univ j, hj, htrue⟩)
    rw [lookup_start, if_pos rfl, if_pos hj] at hrow
    obtain rfl := Option.some.inj hrow
    rw [InitialDraws.honestVotes, if_neg hvote]
    split_ifs <;> decide
  later j r row hrow := by
    rw [lookup_start, if_neg r.succ_ne_zero] at hrow
    cases hrow
  decided i x hx := by cases hx

namespace Dormant

/-- Nobody sees a quorum of ones. -/
theorem ones_le (h : Dormant d s) (hfew : d.honestOnes.card < 2) (i : Node) : s.ones i ≤ 2 := by
  have hsub : s.voters i 1 ⊆ insert byzantineNode d.honestOnes := by
    intro j hj
    obtain ⟨-, ⟨row, hrow, hone⟩, -⟩ := Finset.mem_filter.mp hj
    rw [Finset.mem_insert]
    by_contra hnot
    rw [not_or] at hnot
    have hhonest := Sound.honest_of_ne j hnot.1
    cases hround : s.nodes i with
    | zero =>
      rw [hround] at hrow
      exact h.first j row hrow hhonest hnot.2 i hone
    | succ r =>
      rw [hround] at hrow
      rw [h.later j r row hrow hhonest] at hone
      cases hone
  have hcard := Finset.card_le_card hsub
  have hinsert := Finset.card_insert_le byzantineNode d.honestOnes
  show (s.voters i 1).card ≤ 2
  omega

/-- The node that waits gets zeros. -/
theorem wait (h : Dormant d s) (r : ℕ) (t : Node) :
    Dormant d { s with votes := s.receiveVotes r, turn := t } where
  first j row hrow hj hnot := by
    have hrow' : (s.receiveVotes r).lookup (j, 0) = some row := hrow
    rw [lookup_receiveVotes] at hrow'
    split_ifs at hrow' with hcond
    · rw [← hcond.1] at hrow'
      obtain ⟨old, hold, rfl⟩ := Option.map_eq_some_iff.mp hrow'
      exact receiveDelayed_ne_one (h.first j old hold hj hnot)
    · exact h.first j row hrow' hj hnot
  later j r' row hrow hj := by
    have hrow' : (s.receiveVotes r).lookup (j, r' + 1) = some row := hrow
    rw [lookup_receiveVotes] at hrow'
    split_ifs at hrow' with hcond
    · rw [← hcond.1] at hrow'
      obtain ⟨old, hold, rfl⟩ := Option.map_eq_some_iff.mp hrow'
      rw [h.later j r' old hold hj]
      exact receiveDelayed_eq_self fun _ hzero => by cases hzero
    · exact h.later j r' row hrow' hj
  decided := h.decided

/-- A vote in a later round, which is 0 if it is one of an honest node. -/
theorem vote (h : Dormant d s) {s' : Instance} (hgrows : Grows s s' j x) (hx : j.Honest → x = 0)
    (hdecided : ∀ i x, s'.decided.lookup i = some x → x = 0) : Dormant d s' where
  first k row hrow hk hnot := by
    rw [hgrows.votes, Finmap.lookup_insert_of_ne _ fun heq => by cases (Prod.mk.inj heq).2] at hrow
    exact h.first k row hrow hk hnot
  later k r row hrow hk := by
    rw [hgrows.votes] at hrow
    by_cases heq : (k, r + 1) = (j, s.nodes j + 1)
    · obtain ⟨rfl, -⟩ := Prod.mk.inj heq
      rw [heq, Finmap.lookup_insert] at hrow
      obtain rfl := Option.some.inj hrow
      rw [hx hk]
    · rw [Finmap.lookup_insert_of_ne _ heq] at hrow
      exact h.later k r row hrow hk
  decided := hdecided

/-- **A turn of an honest node.** -/
theorem advance (h : Dormant d s) (hfew : d.honestOnes.card < 2) :
    Dormant d { s.advance s.turn with turn := s.turn + 1 } := by
  rcases s.advance_cases s.turn with hwait | ⟨x, hvotes, hnodes, -, hchoice⟩
  · rw [hwait]
    exact h.wait _ _
  · have hzero : x = 0 ∧ ∀ i y, (s.advance s.turn).decided.lookup i = some y → y = 0 := by
      generalize (s.advance s.turn).decided = decided at hchoice
      cases hchoice with
      | follow hdecided => exact ⟨h.decided _ x hdecided, h.decided⟩
      | one _ hones _ => exact absurd (hones.trans (h.ones_le hfew s.turn)) (by decide)
      | zero _ _ _ hdecides =>
        refine ⟨rfl, fun i y hy => ?_⟩
        rcases hdecides with rfl | ⟨-, -, rfl⟩
        · exact h.decided i y hy
        · by_cases hi : i = s.turn
          · subst hi
            rw [Finmap.lookup_insert] at hy
            exact (Option.some.inj hy).symm
          · rw [Finmap.lookup_insert_of_ne _ hi] at hy
            exact h.decided i y hy
    exact h.vote (j := s.turn) ⟨hvotes, hnodes⟩ (fun _ => hzero.1) hzero.2

/-- **A draw of the byzantine node.** -/
theorem draw (h : Dormant d s) (value : Draw) :
    Dormant d { s.byzantineVote byzantineNode value with turn := 0 } :=
  h.vote (j := byzantineNode) ⟨rfl, rfl⟩ (fun hhonest => absurd hhonest (by decide)) h.decided

end Dormant

/-- **A decision for 1 needs two honest nodes that have started with 1**, in every run, whatever is
delayed and drawn. -/
theorem two_le_honestOnes (hreach : machine.Reachable (start d) s)
    (hone : s.decided.lookup i = some 1) : 2 ≤ d.honestOnes.card := by
  by_contra hfew
  have h : Dormant d s := by
    refine hreach.invariant (Dormant.of_start d) fun s a _ hs _ => ?_
    cases a with
    | advance => exact hs.advance (Nat.not_le.mp hfew)
    | draw value => exact hs.draw value
  exact absurd (h.decided i 1 hone) (by decide)

end Instance

theorem two_le_honestOnes_unanimous : 2 ≤ unanimousDraws.honestOnes.card := by
  have hlegal : machine.Legal (start unanimousDraws)
      [.advance, .advance, .advance, .draw Draw.zero, .advance, .advance, .advance] := by
    decide +kernel
  exact Instance.two_le_honestOnes (i := 0) (GuardedMachine.reachable_run _ hlegal)
    (by decide +kernel)

/-- All the honest nodes start with 1, and two of them decide 0. -/
theorem exists_decided_zero :
    ∃ (d : InitialDraws) (s : Instance), machine.Reachable (start d) s ∧
      d.honestOnes.card = numberOfHonestNodes ∧ s.decided.lookup 0 = some 0 ∧
        s.decided.lookup 1 = some 0 := by
  have hlegal : machine.Legal (start delayedDraws)
      [.advance, .advance, .advance, .draw Draw.zero, .advance, .advance, .advance,
        .draw Draw.zero, .advance, .advance, .advance, .draw Draw.zero, .advance, .advance] := by
    decide +kernel
  exact ⟨delayedDraws, _, GuardedMachine.reachable_run _ hlegal, by decide +kernel,
    by decide +kernel, by decide +kernel⟩

end Simulation
end NeroConsensus
