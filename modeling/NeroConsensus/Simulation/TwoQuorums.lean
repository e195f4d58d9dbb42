import NeroConsensus.Simulation.Consensus
import Mathlib.Data.Finset.Max
import Mathlib.Tactic.FinCases

/-!
# When the assertion holds

A node decides on a value that has had a quorum in two rounds in a row, as far as the node has
seen them.  That a quorum for 1 in a round after the first makes every other node vote 1 in the
next one takes more: a node that sees two ones and one zero there votes 0, so that the missing
vote must not be a one.  `Sighted` is the condition on a step that it is not cast later: the
node that goes on with this view has the votes of all honest nodes.

`Sound` is what then holds in every state, and `agreed_of_reachable` that the assertion does.
Without the condition it may fail (`exists_concluded_not_agreed`).
-/

namespace NeroConsensus
namespace Simulation

namespace Instance

variable {s s' : Instance} {i j : Node} {r : ℕ} {v w x : ℤ}

/-! ## Votes after the first round -/

/-- The vote of a node in a round: what it tells one node, which after the first round is what it
tells all nodes. -/
def value (s : Instance) (j : Node) (r : ℕ) : Option ℤ :=
  (s.votes.lookup (j, r)).map fun row => row byzantineNode

def tally (s : Instance) (v : ℤ) (r : ℕ) : ℕ :=
  (Finset.univ.filter fun j => s.value j r = some v).card

/-- The bookkeeping of the loop. -/
structure Kept (s : Instance) : Prop where
  present : ∀ j r, (s.votes.lookup (j, r)).isSome = true ↔ r ≤ s.nodes j
  uniform : ∀ j r row, s.votes.lookup (j, r) = some row → (j.Honest → r ≠ 0) →
    ∃ x, row = (fun _ => x) ∧ (j.Honest → x = 0 ∨ x = 1)
  lead : ∀ i, i.Honest → s.nodes i ≤ s.nodes byzantineNode + if i < s.turn then 1 else 0
  excluded : s.excludedNodes = []

theorem lookup_start (d : InitialDraws) (j : Node) (r : ℕ) :
    (start d).votes.lookup (j, r) =
      if r = 0 then some (if j.Honest then d.honestVotes j else fun _ => d.byzantineVote.val)
      else none := by
  by_cases hr : r = 0
  · subst hr
    fin_cases j <;> rfl
  · have hne : ∀ i : Node, (j, r) ≠ (i, 0) := fun i heq => hr (Prod.mk.inj heq).2
    simp [start, honestNodes, Finmap.lookup_insert_of_ne, hne, hr]

theorem Kept.of_start (d : InitialDraws) : Kept (start d) where
  present j r := by
    rw [lookup_start]
    by_cases hr : r = 0 <;> simp [hr, start]
  uniform j r row hrow hr := by
    rw [lookup_start] at hrow
    split_ifs at hrow with hzero hj
    · exact absurd hzero (hr hj)
    · exact ⟨d.byzantineVote.val, (Option.some.inj hrow).symm, fun h => absurd h hj⟩
  lead i _ := Nat.zero_le _
  excluded := rfl

/-! ### Delayed votes -/

/-- A row without delayed votes stays. -/
theorem receiveDelayed_eq_self {row : Row} (h : ∀ k, row k ≠ -1) : receiveDelayed row = row := by
  unfold receiveDelayed
  have hfold : ∀ l : List Node, l.foldl (fun new i =>
      if new i = -1 then Function.update new i (if ∃ k, new k = 1 then 1 else 0) else new) row =
      row := by
    intro l
    induction l with
    | nil => rfl
    | cons i l ih => rw [List.foldl_cons, if_neg (h i), ih]
  exact hfold _

theorem lookup_receiveRow (votes : Votes) (i : Node) (r r' : ℕ) (j : Node) :
    (receiveRow r votes i).lookup (j, r') =
      if r' = r ∧ j = i then (votes.lookup (j, r)).map receiveDelayed
      else votes.lookup (j, r') := by
  unfold receiveRow
  split_ifs with h
  · obtain ⟨rfl, rfl⟩ := h
    cases hrow : votes.lookup (j, r') with
    | some row => exact Finmap.lookup_insert _
    | none => exact hrow
  · have hne : (j, r') ≠ (i, r) := fun heq => h ⟨(Prod.mk.inj heq).2, (Prod.mk.inj heq).1⟩
    cases votes.lookup (i, r) with
    | some row => exact Finmap.lookup_insert_of_ne _ hne
    | none => rfl

theorem lookup_foldl_receiveRow {l : List Node} (hl : l.Nodup) (votes : Votes) (r r' : ℕ)
    (j : Node) :
    (l.foldl (receiveRow r) votes).lookup (j, r') =
      if r' = r ∧ j ∈ l then (votes.lookup (j, r)).map receiveDelayed
      else votes.lookup (j, r') := by
  induction l generalizing votes with
  | nil => simp
  | cons i l ih =>
    obtain ⟨hi, hl⟩ := List.nodup_cons.mp hl
    rw [List.foldl_cons, ih hl, lookup_receiveRow, lookup_receiveRow]
    by_cases hr : r' = r
    · by_cases hj : j = i
      · simp [hr, hj, hi]
      · simp [hr, hj]
    · simp [hr]

theorem mem_honestNodes : ∀ j : Node, j ∈ honestNodes ↔ j.Honest := by decide

theorem lookup_receiveVotes (s : Instance) (r r' : ℕ) (j : Node) :
    (s.receiveVotes r).lookup (j, r') =
      if r' = r ∧ j.Honest then (s.votes.lookup (j, r)).map receiveDelayed
      else s.votes.lookup (j, r') := by
  rw [receiveVotes, lookup_foldl_receiveRow (by decide)]
  simp only [mem_honestNodes]

/-- After the first round there is nothing to receive. -/
theorem Kept.lookup_receiveVotes_of_ne (h : Kept s) (r : ℕ) {r' : ℕ}
    (hr' : j.Honest → r' ≠ 0) :
    (s.receiveVotes r).lookup (j, r') = s.votes.lookup (j, r') := by
  rw [lookup_receiveVotes]
  split_ifs with hj
  · obtain ⟨rfl, hj⟩ := hj
    cases hrow : s.votes.lookup (j, r') with
    | none => rfl
    | some row =>
      obtain ⟨x, rfl, hx⟩ := h.uniform j r' row hrow hr'
      refine congrArg some (receiveDelayed_eq_self fun _ hone => ?_)
      rcases hx hj with rfl | rfl <;> cases hone
  · rfl

/-! ### Tallies -/

theorem Kept.value_eq_some (h : Kept s) (hr : r ≠ 0) {row : Row}
    (hrow : s.votes.lookup (j, r) = some row) (k : Node) : s.value j r = some (row k) := by
  obtain ⟨x, rfl, -⟩ := h.uniform j r row hrow fun _ => hr
  rw [value, hrow]
  rfl

theorem Kept.value_honest (h : Kept s) (hj : j.Honest) (hr : r ≠ 0)
    (hx : s.value j r = some x) : x = 0 ∨ x = 1 := by
  obtain ⟨row, hrow, rfl⟩ := Option.map_eq_some_iff.mp hx
  obtain ⟨y, rfl, hy⟩ := h.uniform j r row hrow fun _ => hr
  exact hy hj

theorem Kept.value_isSome (h : Kept s) : (s.value j r).isSome = true ↔ r ≤ s.nodes j := by
  rw [value, Option.isSome_map, h.present]

/-- After the first round a node knows all votes there are. -/
theorem Kept.card_voters (h : Kept s) (hr : s.nodes i ≠ 0) (v : ℤ) :
    (s.voters i v).card = s.tally v (s.nodes i) := by
  unfold voters tally
  congr 1
  refine Finset.filter_congr fun j _ => ?_
  rw [h.excluded, and_iff_left List.not_mem_nil]
  constructor
  · rintro ⟨row, hrow, rfl⟩
    exact h.value_eq_some hr hrow i
  · intro hv
    obtain ⟨row, hrow, -⟩ := Option.map_eq_some_iff.mp hv
    refine ⟨row, hrow, ?_⟩
    rw [h.value_eq_some hr hrow i] at hv
    exact Option.some.inj hv

theorem tally_add_tally_le (s : Instance) (hne : v ≠ w) (r : ℕ) :
    s.tally v r + s.tally w r ≤ 4 := by
  unfold tally
  rw [← Finset.card_union_of_disjoint]
  · exact (Finset.card_le_univ _).trans_eq (Fintype.card_fin _)
  · refine Finset.disjoint_filter.mpr fun j _ hv hw => hne ?_
    rw [hv] at hw
    exact Option.some.inj hw

/-- Votes are only added. -/
def Extends (s s' : Instance) : Prop :=
  ∀ j r x, r ≠ 0 → s.value j r = some x → s'.value j r = some x

theorem Extends.tally_le (h : Extends s s') (hr : r ≠ 0) (v : ℤ) : s.tally v r ≤ s'.tally v r :=
  Finset.card_le_card fun j hj =>
    Finset.mem_filter.mpr ⟨Finset.mem_univ j, h j r v hr (Finset.mem_filter.mp hj).2⟩

/-! ## What a turn does -/

/-- A decision on `x` needs a quorum for it after the first round. -/
def Decides (s : Instance) (i : Node) (x : ℤ) (decided : Finmap fun _ : Node => ℤ) : Prop :=
  decided = s.decided ∨
    s.nodes i ≠ 0 ∧ 3 ≤ (s.voters i x).card ∧ decided = s.decided.insert i x

/-- The next vote `x` of a node, with what has been decided after it. -/
inductive Choice (s : Instance) (i : Node) : ℤ → (Finmap fun _ : Node => ℤ) → Prop
  | follow {x : ℤ} (hdecided : s.decided.lookup i = some x) : Choice s i x s.decided
  | one {decided : Finmap fun _ : Node => ℤ} (hundecided : s.decided.lookup i = none)
      (hones : 3 ≤ s.ones i) (h : Decides s i 1 decided) : Choice s i 1 decided
  | zero {decided : Finmap fun _ : Node => ℤ} (hundecided : s.decided.lookup i = none)
      (hones : s.ones i < 3) (hquorum : 3 ≤ s.zeros i + s.ones i)
      (h : Decides s i 0 decided) : Choice s i 0 decided

theorem decides_of_ite {p : Prop} [Decidable p] (hx : 3 ≤ (s.voters i x).card)
    (hp : p → s.nodes i ≠ 0) :
    Decides s i x (if p then s.decided.insert i x else s.decided) := by
  split_ifs with h
  · exact Or.inr ⟨hp h, hx, rfl⟩
  · exact Or.inl rfl

/-- A node that sees a quorum of votes casts its next one. -/
theorem choice_of_vote (hquorum : quorum ≤ s.zeros i + s.ones i) :
    ∃ x, (s.vote i (s.nodes i)).votes = s.votes.insert (i, s.nodes i + 1) (fun _ => x) ∧
      (s.vote i (s.nodes i)).excludedNodes = s.excludedNodes ∧
      Choice s i x (s.vote i (s.nodes i)).decided := by
  cases hdecided : s.decided.lookup i with
  | some x =>
    have hvote : s.vote i (s.nodes i) =
        { s with votes := s.votes.insert (i, s.nodes i + 1) fun _ => x } := by
      simp [vote, hdecided]
    rw [hvote]
    exact ⟨x, rfl, rfl, Choice.follow hdecided⟩
  | none =>
    by_cases hones : quorum ≤ s.ones i
    · have hvote : s.vote i (s.nodes i) = s.quorumForOne i (s.nodes i) := by
        simp only [vote, hdecided, if_pos hones]
      rw [hvote]
      exact ⟨1, rfl, rfl, Choice.one hdecided hones (decides_of_ite hones And.left)⟩
    · by_cases hzeros : quorum ≤ s.zeros i
      · have hvote : s.vote i (s.nodes i) = s.quorumForZero i (s.nodes i) := by
          simp only [vote, hdecided, if_neg hones, if_pos hzeros]
        rw [hvote]
        exact ⟨0, rfl, rfl, Choice.zero hdecided (not_le.mp hones) hquorum
          (decides_of_ite hzeros And.left)⟩
      · have hvote : s.vote i (s.nodes i) =
            { s with votes := s.votes.insert (i, s.nodes i + 1) fun _ => 0 } := by
          simp only [vote, hdecided, if_neg hones, if_neg hzeros]
        rw [hvote]
        exact ⟨0, rfl, rfl, Choice.zero hdecided (not_le.mp hones) hquorum (Or.inl rfl)⟩

/-- **What a turn can do**: the node waits and receives votes, or it casts its next vote. -/
theorem advance_cases (s : Instance) (i : Node) :
    s.advance i = { s with votes := s.receiveVotes (s.nodes i) } ∨
      ∃ x, (s.advance i).votes = s.votes.insert (i, s.nodes i + 1) (fun _ => x) ∧
        (s.advance i).nodes = Function.update s.nodes i (s.nodes i + 1) ∧
        (s.advance i).excludedNodes = s.excludedNodes ∧ Choice s i x (s.advance i).decided := by
  by_cases hquorum : quorum ≤ s.zeros i + s.ones i
  · obtain ⟨x, hvotes, hexcluded, hchoice⟩ := choice_of_vote hquorum
    have hadvance : s.advance i = { s.vote i (s.nodes i) with
        nodes := Function.update s.nodes i (s.nodes i + 1) } := if_pos hquorum
    rw [hadvance]
    exact Or.inr ⟨x, hvotes, rfl, hexcluded, hchoice⟩
  · exact Or.inl (if_neg hquorum)

/-! ## The invariant -/

/-- The ones of a round will not be a quorum. -/
def Barred (s : Instance) (r : ℕ) : Prop :=
  2 ≤ s.tally 0 r ∨ (∀ j, r ≤ s.nodes j) ∧ s.tally 1 r ≤ 2

/-- The votes and decisions; `c` is the round that a node was in when it decided. -/
structure Sound (c : Node → ℕ) (s : Instance) : Prop extends Kept s where
  decided : ∀ i v, s.decided.lookup i = some v → i.Honest ∧ (v = 0 ∨ v = 1) ∧ c i ≠ 0 ∧
    c i < s.nodes i ∧ 3 ≤ s.tally v (c i)
  one : ∀ i r, i.Honest → r ≠ 0 → s.value i (r + 1) = some 1 →
    3 ≤ s.tally 1 r ∨ s.decided.lookup i = some 1 ∧ c i < r
  zero : ∀ i r, i.Honest → r ≠ 0 → s.value i (r + 1) = some 0 →
    s.Barred r ∨ s.decided.lookup i = some 0 ∧ c i < r

namespace Sound

variable {c : Node → ℕ}

/-! ### Agreement -/

theorem honest_of_ne : ∀ j : Node, j ≠ byzantineNode → j.Honest := by decide

/-- Where the honest nodes all vote `v`, any other value has at most the vote of the byzantine
node. -/
theorem tally_le_one (hall : ∀ j x, j.Honest → s.value j r = some x → x = v) (hne : w ≠ v) :
    s.tally w r ≤ 1 := by
  refine Finset.card_le_one_iff_subset_singleton.mpr ⟨byzantineNode, fun j hj => ?_⟩
  rw [Finset.mem_singleton]
  by_contra hj'
  exact hne (hall j w (honest_of_ne j hj') (Finset.mem_filter.mp hj).2)

/-- Where they all vote 1, and all have voted, the ones are a quorum. -/
theorem three_le_tally (h : Kept s) (hall : ∀ j x, j.Honest → s.value j r = some x → x = v)
    (hpresent : ∀ j, r ≤ s.nodes j) : 3 ≤ s.tally v r := by
  have hsub : (Finset.univ.filter Node.Honest) ⊆
      Finset.univ.filter fun j => s.value j r = some v := by
    intro j hj
    obtain ⟨x, hx⟩ := Option.isSome_iff_exists.mp (h.value_isSome.mpr (hpresent j))
    rw [Finset.mem_filter, ← hall j x (Finset.mem_filter.mp hj).2 hx]
    exact ⟨Finset.mem_univ j, hx⟩
  exact (show 3 = (Finset.univ.filter Node.Honest).card by decide).trans_le
    (Finset.card_le_card hsub)

/-- From the first decision on there is no quorum for another value. -/
theorem tally_lt_two (h : Sound c s) (hi : s.decided.lookup i = some v)
    (hall : c i < r → ∀ j x, j.Honest → s.value j r = some x → x = v) (hr : c i ≤ r)
    (hne : w ≠ v) : s.tally w r < 2 := by
  rcases hr.eq_or_lt with rfl | hlt
  · obtain ⟨-, -, -, -, hquorum⟩ := h.decided i v hi
    have hsum := s.tally_add_tally_le hne (c i)
    omega
  · exact Nat.lt_succ_of_le (tally_le_one (hall hlt) hne)

/-- After the first decision all honest nodes vote for its value. -/
theorem unanimous (h : Sound c s) (hi : s.decided.lookup i = some v)
    (hfirst : ∀ j w, s.decided.lookup j = some w → c i ≤ c j) :
    ∀ r, c i < r → ∀ j x, j.Honest → s.value j r = some x → x = v := by
  intro r
  induction r using Nat.strong_induction_on with
  | h r ih =>
    intro hr j x hj hx
    obtain ⟨r, rfl⟩ := Nat.exists_eq_add_one_of_ne_zero (Nat.ne_zero_of_lt hr)
    obtain ⟨-, hv, hpos, -, hquorum⟩ := h.decided i v hi
    have hle : c i ≤ r := Nat.le_of_lt_succ hr
    have hr₀ : r ≠ 0 := fun hzero => hpos (Nat.le_zero.mp (hzero ▸ hle))
    by_contra hne
    -- No quorum for `x` in an earlier round, neither for the vote nor for a decision.
    have htally : s.tally x r < 2 := h.tally_lt_two hi (ih r (Nat.lt_succ_self r)) hle hne
    have hdecided : ¬(s.decided.lookup j = some x ∧ c j < r) := by
      rintro ⟨hj, hlt⟩
      obtain ⟨-, -, -, -, hquorum⟩ := h.decided j x hj
      have hrival := h.tally_lt_two hi (ih (c j) (by omega)) (hfirst j x hj) hne
      omega
    rcases h.value_honest hj r.succ_ne_zero hx with rfl | rfl
    · have hv : v = 1 := hv.resolve_left (Ne.symm hne)
      subst hv
      rcases (h.zero j r hj hr₀ hx).resolve_right hdecided with hzeros | ⟨hpresent, hones⟩
      · omega
      · rcases hle.eq_or_lt with rfl | hlt
        · omega
        · have hall := three_le_tally h.toKept (ih r (Nat.lt_succ_self r) hlt) hpresent
          omega
    · have hones := (h.one j r hj hr₀ hx).resolve_right hdecided
      omega

/-- **Agreement.** -/
theorem agree (h : Sound c s) (hi : s.decided.lookup i = some v)
    (hj : s.decided.lookup j = some w) : v = w := by
  obtain ⟨k, hk, hmin⟩ := Finset.exists_min_image s.decided.keys c
    ⟨i, Finmap.mem_keys.mpr (Finmap.mem_of_lookup hi)⟩
  obtain ⟨x, hx⟩ := Finmap.mem_iff.mp (Finmap.mem_keys.mp hk)
  have hfirst : ∀ j w, s.decided.lookup j = some w → c k ≤ c j := fun j w hj =>
    hmin j (Finmap.mem_keys.mpr (Finmap.mem_of_lookup hj))
  have heq : ∀ j w, s.decided.lookup j = some w → w = x := by
    intro j w hj
    by_contra hne
    obtain ⟨-, -, -, -, hquorum⟩ := h.decided j w hj
    have hrival := h.tally_lt_two hx (h.unanimous hx hfirst (c j)) (hfirst j w hj) hne
    omega
  exact (heq i v hi).trans (heq j w hj).symm

end Sound

/-! ## One step -/

/-- A node casts a vote in its next round. -/
structure Grows (s s' : Instance) (j : Node) (x : ℤ) : Prop where
  votes : s'.votes = s.votes.insert (j, s.nodes j + 1) fun _ => x
  nodes : s'.nodes = Function.update s.nodes j (s.nodes j + 1)

namespace Grows

theorem value_self (h : Grows s s' j x) : s'.value j (s.nodes j + 1) = some x := by
  rw [value, h.votes, Finmap.lookup_insert]
  rfl

theorem value_of_ne (h : Grows s s' j x) (hne : (i, r) ≠ (j, s.nodes j + 1)) :
    s'.value i r = s.value i r := by
  rw [value, h.votes, Finmap.lookup_insert_of_ne _ hne]
  rfl

/-- A vote is an old one or the new one. -/
theorem value_cases (h : Grows s s' j x) {y : ℤ} (hy : s'.value i r = some y) :
    s.value i r = some y ∨ i = j ∧ r = s.nodes j + 1 ∧ y = x := by
  by_cases heq : (i, r) = (j, s.nodes j + 1)
  · obtain ⟨rfl, rfl⟩ := Prod.mk.inj heq
    rw [h.value_self] at hy
    exact Or.inr ⟨rfl, rfl, (Option.some.inj hy).symm⟩
  · exact Or.inl ((h.value_of_ne heq).symm.trans hy)

theorem nodes_le (h : Grows s s' j x) (i : Node) : s.nodes i ≤ s'.nodes i := by
  rw [h.nodes]
  rcases eq_or_ne i j with rfl | hne
  · rw [Function.update_self]
    exact Nat.le_succ _
  · rw [Function.update_of_ne hne]

theorem keeps (h : Grows s s' j x) (hkept : Kept s) : Extends s s' := by
  intro i r y _ hy
  rw [h.value_of_ne, hy]
  intro heq
  obtain ⟨rfl, rfl⟩ := Prod.mk.inj heq
  have hle : s.nodes i + 1 ≤ s.nodes i := by
    rw [← hkept.value_isSome, hy]
    rfl
  omega

theorem kept (h : Grows s s' j x) (hkept : Kept s) (hx : j.Honest → x = 0 ∨ x = 1)
    (hlead : ∀ i, i.Honest → s'.nodes i ≤ s'.nodes byzantineNode + if i < s'.turn then 1 else 0)
    (hexcluded : s'.excludedNodes = []) : Kept s' where
  present i r := by
    rw [h.votes, h.nodes]
    by_cases heq : (i, r) = (j, s.nodes j + 1)
    · obtain ⟨rfl, rfl⟩ := Prod.mk.inj heq
      rw [Finmap.lookup_insert, Function.update_self]
      simp
    · rw [Finmap.lookup_insert_of_ne _ heq, hkept.present]
      rcases eq_or_ne i j with rfl | hne
      · have hr : r ≠ s.nodes i + 1 := fun hr => heq (by rw [hr])
        rw [Function.update_self]
        omega
      · rw [Function.update_of_ne hne]
  uniform i r row hrow hr := by
    rw [h.votes] at hrow
    by_cases heq : (i, r) = (j, s.nodes j + 1)
    · obtain ⟨rfl, rfl⟩ := Prod.mk.inj heq
      rw [Finmap.lookup_insert] at hrow
      exact ⟨x, (Option.some.inj hrow).symm, hx⟩
    · rw [Finmap.lookup_insert_of_ne _ heq] at hrow
      exact hkept.uniform i r row hrow hr
  lead := hlead
  excluded := hexcluded

end Grows

theorem Barred.mono (hkept : Kept s) (hext : Extends s s') (hnodes : ∀ j, s.nodes j ≤ s'.nodes j)
    (hr : r ≠ 0) (h : s.Barred r) : s'.Barred r := by
  rcases h with hzeros | ⟨hpresent, hones⟩
  · exact Or.inl (hzeros.trans (hext.tally_le hr 0))
  · refine Or.inr ⟨fun j => (hpresent j).trans (hnodes j), le_trans ?_ hones⟩
    refine Finset.card_le_card fun j hj => Finset.mem_filter.mpr ⟨Finset.mem_univ j, ?_⟩
    obtain ⟨y, hy⟩ := Option.isSome_iff_exists.mp (hkept.value_isSome.mpr (hpresent j))
    rw [hy, ← hext j r y hr hy]
    exact (Finset.mem_filter.mp hj).2

namespace Sound

variable {c c' : Node → ℕ}

/-- **A step keeps the invariant** when it takes nothing back and every new vote and every new
decision has its reason. -/
theorem next (h : Sound c s) (hkept : Kept s') (hext : Extends s s')
    (hnodes : ∀ j, s.nodes j ≤ s'.nodes j)
    (hold : ∀ j v, s.decided.lookup j = some v → s'.decided.lookup j = some v ∧ c' j = c j)
    (hdecided : ∀ j v, s'.decided.lookup j = some v → s.decided.lookup j = some v ∨
      j.Honest ∧ (v = 0 ∨ v = 1) ∧ c' j ≠ 0 ∧ c' j < s'.nodes j ∧ 3 ≤ s.tally v (c' j))
    (hone : ∀ j r, j.Honest → r ≠ 0 → s'.value j (r + 1) = some 1 →
      s.value j (r + 1) = some 1 ∨ 3 ≤ s.tally 1 r ∨ s.decided.lookup j = some 1 ∧ c j < r)
    (hzero : ∀ j r, j.Honest → r ≠ 0 → s'.value j (r + 1) = some 0 →
      s.value j (r + 1) = some 0 ∨ s.Barred r ∨ s.decided.lookup j = some 0 ∧ c j < r) :
    Sound c' s' where
  toKept := hkept
  decided j v hj := by
    rcases hdecided j v hj with hj | ⟨hhonest, hv, hpos, hlt, htally⟩
    · obtain ⟨hhonest, hv, hpos, hlt, htally⟩ := h.decided j v hj
      rw [(hold j v hj).2]
      exact ⟨hhonest, hv, hpos, hlt.trans_le (hnodes j), htally.trans (hext.tally_le hpos v)⟩
    · exact ⟨hhonest, hv, hpos, hlt, htally.trans (hext.tally_le hpos v)⟩
  one j r hj hr hvalue := by
    have hreason : 3 ≤ s.tally 1 r ∨ s.decided.lookup j = some 1 ∧ c j < r := by
      rcases hone j r hj hr hvalue with hvalue | hreason
      · exact h.one j r hj hr hvalue
      · exact hreason
    refine hreason.imp (fun htally => htally.trans (hext.tally_le hr 1)) fun ⟨hj, hlt⟩ => ?_
    obtain ⟨hj', hc⟩ := hold j 1 hj
    exact ⟨hj', hc.trans_lt hlt⟩
  zero j r hj hr hvalue := by
    have hreason : s.Barred r ∨ s.decided.lookup j = some 0 ∧ c j < r := by
      rcases hzero j r hj hr hvalue with hvalue | hreason
      · exact h.zero j r hj hr hvalue
      · exact hreason
    refine hreason.imp (fun hbarred => hbarred.mono h.toKept hext hnodes hr) fun ⟨hj, hlt⟩ => ?_
    obtain ⟨hj', hc⟩ := hold j 0 hj
    exact ⟨hj', hc.trans_lt hlt⟩

end Sound

/-! ### The turn of an honest node -/

/-- The condition: an undecided node that goes on from a round after the first with two ones and
one zero has the votes of all honest nodes for that round. -/
def Sighted (s : Instance) : Step → Prop
  | .advance => s.decided.lookup s.turn = none → s.nodes s.turn ≠ 0 →
      s.ones s.turn = 2 → s.zeros s.turn = 1 →
      ∀ j : Node, j.Honest → (s.votes.lookup (j, s.nodes s.turn)).isSome = true
  | .draw _ => True

instance (s : Instance) : ∀ a : Step, Decidable (s.Sighted a)
  | .advance => inferInstanceAs (Decidable (_ → _ → _ → _ → _))
  | .draw _ => inferInstanceAs (Decidable True)

theorem lt_turn_add_one : ∀ t i : Node, t.Honest → (i < t + 1 ↔ i < t ∨ i = t) := by decide

theorem Kept.lead_wait (h : Kept s) (hturn : s.turn.Honest) (hi : i.Honest) :
    s.nodes i ≤ s.nodes byzantineNode + if i < s.turn + 1 then 1 else 0 := by
  have hlead := h.lead i hi
  by_cases hlt : i < s.turn
  · rw [if_pos hlt] at hlead
    rwa [if_pos ((lt_turn_add_one _ _ hturn).mpr (Or.inl hlt))]
  · rw [if_neg hlt] at hlead
    exact hlead.trans (Nat.le_add_right _ _)

theorem Kept.lead_vote (h : Kept s) (hturn : s.turn.Honest) (hi : i.Honest) :
    Function.update s.nodes s.turn (s.nodes s.turn + 1) i ≤
      Function.update s.nodes s.turn (s.nodes s.turn + 1) byzantineNode +
        if i < s.turn + 1 then 1 else 0 := by
  have hbyzantine : byzantineNode ≠ s.turn := fun heq => absurd (heq ▸ hturn) (by decide)
  rw [Function.update_of_ne hbyzantine]
  rcases eq_or_ne i s.turn with rfl | hne
  · have hlead := h.lead s.turn hturn
    rw [if_neg (lt_irrefl _)] at hlead
    rw [Function.update_self, if_pos ((lt_turn_add_one _ _ hturn).mpr (Or.inr rfl))]
    omega
  · rw [Function.update_of_ne hne]
    exact h.lead_wait hturn hi

/-- A node that waits receives votes of the first round, or nothing. -/
theorem Kept.wait (h : Kept s) (hturn : s.turn.Honest) (r : ℕ) :
    Kept { s with votes := s.receiveVotes r, turn := s.turn + 1 } where
  present j r' := by
    rw [← h.present]
    show ((s.receiveVotes r).lookup (j, r')).isSome = true ↔ _
    rw [lookup_receiveVotes]
    split_ifs with hj
    · rw [Option.isSome_map, hj.1]
    · rfl
  uniform j r' row hrow hr' := by
    have hrow' : (s.receiveVotes r).lookup (j, r') = some row := hrow
    rw [h.lookup_receiveVotes_of_ne r hr'] at hrow'
    exact h.uniform j r' row hrow' hr'
  lead _ hi := h.lead_wait hturn hi
  excluded := h.excluded

theorem Kept.value_wait (h : Kept s) (r : ℕ) {r' : ℕ} (hr' : r' ≠ 0) (t : Node) (j : Node) :
    ({ s with votes := s.receiveVotes r, turn := t } : Instance).value j r' = s.value j r' := by
  show ((s.receiveVotes r).lookup (j, r')).map _ = (s.votes.lookup (j, r')).map _
  rw [h.lookup_receiveVotes_of_ne r fun _ => hr']

namespace Sound

variable {c c' : Node → ℕ}

theorem wait (h : Sound c s) (hturn : s.turn.Honest) (r : ℕ) :
    Sound c { s with votes := s.receiveVotes r, turn := s.turn + 1 } := by
  refine h.next (h.toKept.wait hturn r) ?_ (fun _ => le_rfl) (fun _ _ hj => ⟨hj, rfl⟩)
    (fun _ _ hj => Or.inl hj) ?_ ?_
  · intro j r' x hr' hx
    exact (h.toKept.value_wait r hr' _ j).trans hx
  · intro j r' _ _ hx
    exact Or.inl ((h.toKept.value_wait r r'.succ_ne_zero _ j).symm.trans hx)
  · intro j r' _ _ hx
    exact Or.inl ((h.toKept.value_wait r r'.succ_ne_zero _ j).symm.trans hx)

theorem eq_zero_or_one (h : Sound c s) {decided : Finmap fun _ : Node => ℤ}
    (hchoice : Choice s i x decided) : x = 0 ∨ x = 1 := by
  cases hchoice with
  | follow hdecided => exact (h.decided i x hdecided).2.1
  | one => exact Or.inr rfl
  | zero => exact Or.inl rfl

/-- The reason of a vote for 1. -/
theorem reason_one (h : Sound c s) {decided : Finmap fun _ : Node => ℤ}
    (hchoice : Choice s i 1 decided) (hr : s.nodes i ≠ 0) :
    3 ≤ s.tally 1 (s.nodes i) ∨ s.decided.lookup i = some 1 ∧ c i < s.nodes i := by
  cases hchoice with
  | follow hdecided => exact Or.inr ⟨hdecided, (h.decided i 1 hdecided).2.2.2.1⟩
  | one _ hones _ => exact Or.inl (hones.trans_eq (h.card_voters hr 1))

/-- The reason of a vote for 0.  This is where the condition is used. -/
theorem reason_zero (h : Sound c s) {decided : Finmap fun _ : Node => ℤ}
    (hturn : s.turn.Honest) (hsighted : s.Sighted .advance)
    (hchoice : Choice s s.turn 0 decided) (hr : s.nodes s.turn ≠ 0) :
    s.Barred (s.nodes s.turn) ∨ s.decided.lookup s.turn = some 0 ∧ c s.turn < s.nodes s.turn := by
  have hzeros : s.zeros s.turn = s.tally 0 (s.nodes s.turn) := h.card_voters hr 0
  have hones : s.ones s.turn = s.tally 1 (s.nodes s.turn) := h.card_voters hr 1
  cases hchoice with
  | follow hdecided => exact Or.inr ⟨hdecided, (h.decided s.turn 0 hdecided).2.2.2.1⟩
  | zero hundecided hfew hquorum _ =>
    left
    by_cases htwo : 2 ≤ s.zeros s.turn
    · exact Or.inl (hzeros ▸ htwo)
    · have hpresent := hsighted hundecided hr (by omega) (by omega)
      refine Or.inr ⟨fun j => ?_, by omega⟩
      by_cases hj : j = byzantineNode
      · have hlead := h.lead s.turn hturn
        rw [if_neg (lt_irrefl _), Nat.add_zero] at hlead
        exact hj ▸ hlead
      · exact (h.present j _).mp (hpresent j (honest_of_ne j hj))

theorem decided_of_choice (h : Sound c s) {decided : Finmap fun _ : Node => ℤ}
    (hchoice : Choice s i x decided) : decided = s.decided ∨
      s.decided.lookup i = none ∧ s.nodes i ≠ 0 ∧ 3 ≤ s.tally x (s.nodes i) ∧
        decided = s.decided.insert i x := by
  have hdecides : s.decided.lookup i = none → Decides s i x decided → decided = s.decided ∨
      s.decided.lookup i = none ∧ s.nodes i ≠ 0 ∧ 3 ≤ s.tally x (s.nodes i) ∧
        decided = s.decided.insert i x := by
    rintro hundecided (heq | ⟨hr, htally, heq⟩)
    · exact Or.inl heq
    · exact Or.inr ⟨hundecided, hr, htally.trans_eq (h.card_voters hr x), heq⟩
  cases hchoice with
  | follow => exact Or.inl rfl
  | one hundecided _ hd => exact hdecides hundecided hd
  | zero hundecided _ _ hd => exact hdecides hundecided hd

/-- An honest node casts its next vote. -/
theorem vote (h : Sound c s) (hturn : s.turn.Honest) (hsighted : s.Sighted .advance)
    (hgrows : Grows s s' s.turn x) (hexcluded : s'.excludedNodes = s.excludedNodes)
    (hturn' : s'.turn = s.turn + 1) (hchoice : Choice s s.turn x s'.decided) :
    ∃ c', Sound c' s' := by
  have hlead : ∀ i, i.Honest →
      s'.nodes i ≤ s'.nodes byzantineNode + if i < s'.turn then 1 else 0 := by
    intro i hi
    rw [hgrows.nodes, hturn']
    exact h.lead_vote hturn hi
  have hkept := hgrows.kept h.toKept (fun _ => h.eq_zero_or_one hchoice) hlead
    (hexcluded.trans h.excluded)
  have hext := hgrows.keeps h.toKept
  have hone : ∀ j r, j.Honest → r ≠ 0 → s'.value j (r + 1) = some 1 →
      s.value j (r + 1) = some 1 ∨ 3 ≤ s.tally 1 r ∨
        s.decided.lookup j = some 1 ∧ c j < r := by
    intro j r _ hr hy
    refine (hgrows.value_cases hy).imp_right ?_
    rintro ⟨rfl, hround, rfl⟩
    obtain rfl := Nat.succ.inj hround
    exact h.reason_one hchoice hr
  have hzero : ∀ j r, j.Honest → r ≠ 0 → s'.value j (r + 1) = some 0 →
      s.value j (r + 1) = some 0 ∨ s.Barred r ∨ s.decided.lookup j = some 0 ∧ c j < r := by
    intro j r _ hr hy
    refine (hgrows.value_cases hy).imp_right ?_
    rintro ⟨rfl, hround, rfl⟩
    obtain rfl := Nat.succ.inj hround
    exact h.reason_zero hturn hsighted hchoice hr
  rcases h.decided_of_choice hchoice with heq | ⟨hundecided, hr, htally, heq⟩
  · refine ⟨c, h.next hkept hext hgrows.nodes_le (fun j v hj => ⟨heq ▸ hj, rfl⟩)
      (fun j v hj => Or.inl (heq ▸ hj)) hone hzero⟩
  · -- The node decides on what it votes for.
    refine ⟨Function.update c s.turn (s.nodes s.turn), h.next hkept hext hgrows.nodes_le
      (fun j v hj => ?_) (fun j v hj => ?_) hone hzero⟩
    · have hne : j ≠ s.turn := by
        rintro rfl
        rw [hundecided] at hj
        cases hj
      rw [Function.update_of_ne hne, heq, Finmap.lookup_insert_of_ne _ hne]
      exact ⟨hj, rfl⟩
    · rw [heq] at hj
      rcases eq_or_ne j s.turn with rfl | hne
      · rw [Finmap.lookup_insert] at hj
        obtain rfl := Option.some.inj hj
        rw [Function.update_self, hgrows.nodes, Function.update_self]
        exact Or.inr ⟨hturn, h.eq_zero_or_one hchoice, hr, Nat.lt_succ_self _, htally⟩
      · rw [Finmap.lookup_insert_of_ne _ hne] at hj
        exact Or.inl hj

/-- **A turn of an honest node.** -/
theorem advance (h : Sound c s) (hturn : s.turn.Honest) (hsighted : s.Sighted .advance) :
    ∃ c', Sound c' { s.advance s.turn with turn := s.turn + 1 } := by
  rcases s.advance_cases s.turn with hwait | ⟨x, hvotes, hnodes, hexcluded, hchoice⟩
  · rw [hwait]
    exact ⟨c, h.wait hturn _⟩
  · exact h.vote hturn hsighted ⟨hvotes, hnodes⟩ hexcluded rfl hchoice

/-- The byzantine node tells all nodes the same, and is not excluded. -/
theorem excluded_byzantineVote (h : Sound c s) (d : Draw) :
    (s.byzantineVote byzantineNode d).excludedNodes = [] := by
  refine (if_neg ?_).trans h.excluded
  rintro ⟨row, hrow, ⟨k, hone⟩, l, hzero⟩
  obtain ⟨x, rfl, -⟩ := h.uniform _ _ row hrow fun hhonest => absurd hhonest (by decide)
  rw [hone] at hzero
  cases hzero

/-- **The next vote of the byzantine node.** -/
theorem draw (h : Sound c s) (d : Draw) :
    Sound c { s.byzantineVote byzantineNode d with turn := 0 } := by
  have hgrows : Grows s { s.byzantineVote byzantineNode d with turn := 0 } byzantineNode d.val :=
    ⟨rfl, rfl⟩
  have hlead : ∀ i : Node, i.Honest →
      Function.update s.nodes byzantineNode (s.nodes byzantineNode + 1) i ≤
        Function.update s.nodes byzantineNode (s.nodes byzantineNode + 1) byzantineNode +
          if i < 0 then 1 else 0 := by
    intro i hi
    have hne : i ≠ byzantineNode := fun heq => absurd (heq ▸ hi) (by decide)
    have hlead := h.lead i hi
    rw [Function.update_self, Function.update_of_ne hne]
    split_ifs at hlead <;> omega
  have hkept := hgrows.kept h.toKept (fun hhonest => absurd hhonest (by decide)) hlead
    (h.excluded_byzantineVote d)
  have hnew : ∀ j : Node, j.Honest → j ≠ byzantineNode := fun j hj heq =>
    absurd (heq ▸ hj) (by decide)
  refine h.next hkept (hgrows.keeps h.toKept) hgrows.nodes_le (fun _ _ hj => ⟨hj, rfl⟩)
    (fun _ _ hj => Or.inl hj) (fun j r hj _ hy => Or.inl ?_) fun j r hj _ hy => Or.inl ?_
  · exact (hgrows.value_cases hy).resolve_right fun heq => hnew j hj heq.1
  · exact (hgrows.value_cases hy).resolve_right fun heq => hnew j hj heq.1

end Sound

/-! ## All runs -/

theorem Sound.of_start (d : InitialDraws) : Sound (fun _ => 0) (start d) where
  toKept := Kept.of_start d
  decided _ _ h := by cases h
  one j r _ _ h := by
    rw [value, lookup_start, if_neg r.succ_ne_zero] at h
    cases h
  zero j r _ _ h := by
    rw [value, lookup_start, if_neg r.succ_ne_zero] at h
    cases h

theorem exists_sound_of_reachable {d : InitialDraws}
    (h : (machine.restrict Sighted).Reachable (start d) s) : ∃ c, Sound c s := by
  refine h.invariant (P := fun s => ∃ c, Sound c s) ⟨_, Sound.of_start d⟩ ?_
  rintro s a - ⟨c, hs⟩ ⟨hguard, hsighted⟩
  cases a with
  | advance => exact hs.advance hguard hsighted
  | draw value => exact ⟨c, hs.draw value⟩

/-- **The assertion holds** where all honest nodes have decided, in every run whose steps meet
the condition. -/
theorem agreed_of_reachable {d : InitialDraws}
    (h : (machine.restrict Sighted).Reachable (start d) s) (hconcluded : s.Concluded) :
    s.Agreed := by
  obtain ⟨c, hs⟩ := exists_sound_of_reachable h
  have hkeys : s.decided.keys = Finset.univ.filter Node.Honest := by
    refine Finset.eq_of_subset_of_card_le (fun j hj => ?_) ?_
    · obtain ⟨v, hv⟩ := Finmap.mem_iff.mp (Finmap.mem_keys.mp hj)
      exact Finset.mem_filter.mpr ⟨Finset.mem_univ j, (hs.decided j v hv).1⟩
    · exact (show _ = numberOfHonestNodes by decide).trans_le hconcluded.ge
  have hzero : (0 : Node) ∈ s.decided := by
    rw [← Finmap.mem_keys, hkeys]
    decide
  obtain ⟨w, hw⟩ := Finmap.mem_iff.mp hzero
  intro i v hv
  rw [hs.agree hv hw]
  exact hw

end Instance

/-! ### Two instances -/

def Draw.one : Draw := ⟨1, by decide⟩

def Draw.zero : Draw := ⟨0, by decide⟩

/-- All vote 1, and no vote is delayed. -/
def unanimousDraws : InitialDraws where
  honestVote _ := true
  delayed _ _ := false
  byzantineVote := Draw.one

/-- The assertion is reached after two rounds. -/
theorem agreed_of_reachable_unanimous :
    (machine.run (start unanimousDraws)
      [.advance, .advance, .advance, .draw Draw.zero, .advance, .advance, .advance]).Agreed := by
  have hlegal : (machine.restrict Instance.Sighted).Legal (start unanimousDraws)
      [.advance, .advance, .advance, .draw Draw.zero, .advance, .advance, .advance] := by
    decide +kernel
  exact Instance.agreed_of_reachable (GuardedMachine.reachable_run _ hlegal) (by decide +kernel)

/-- The honest nodes vote 1, and node 0 tells nobody at first. -/
def delayedDraws : InitialDraws where
  honestVote _ := true
  delayed i k := i.val = 0 ∨ k.val = 2
  byzantineVote := Draw.one

/-- Node 2 decides on 1 while the others vote 0 before they have its vote. -/
theorem exists_concluded_not_agreed :
    ∃ (d : InitialDraws) (s : Instance), machine.Reachable (start d) s ∧
      s.turn = byzantineNode ∧ s.Concluded ∧ ¬s.Agreed := by
  have hlegal : machine.Legal (start delayedDraws)
      [.advance, .advance, .advance, .draw Draw.zero, .advance, .advance, .advance,
        .draw Draw.zero, .advance, .advance, .advance, .draw Draw.zero, .advance, .advance,
        .advance] := by
    decide +kernel
  refine ⟨delayedDraws, _, GuardedMachine.reachable_run _ hlegal, by decide +kernel,
    by decide +kernel, fun hagreed => ?_⟩
  have hnode : (machine.run (start delayedDraws) _).decided.lookup 0 = some 1 :=
    hagreed 2 1 (by decide +kernel)
  exact absurd hnode (by decide +kernel)

end Simulation
end NeroConsensus
