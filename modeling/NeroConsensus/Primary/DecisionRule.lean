import NeroConsensus.Primary.Core
import Mathlib.Algebra.Order.Group.Nat
import Mathlib.Tactic.Cases

/-!
# The decision rule and the two tallies

`decisionRule` is a cascade of thresholds over six counters, and the proofs about
the protocol never want to see it.  This file says once what it does.

## The counters

`Tally.counter t ty b` is the counter of the votes of type `ty` for the value `b`,
and `counter_fromVotes` says that `fromVotes` counts: the counter of a set of votes
is the number of its votes of that kind.

The running tally misses one kind.  `tallyVote` has no reachable branch for a
`Decide` for `Zero`, so what it maintains is `Tally.running`, the tally of the votes
with that counter at zero (`tally_tallyVote`).

## What the cascade yields

* `counter_pos_of_commit`, `counter_pos_of_decide`: what a `Commit` and a `Decide`
  presuppose among the votes.
* `value_of_majority`, `value_of_commit`, `decisionRule_of_decisive`: what the rule
  yields when one value has no opposition of type `Commit` or `Decide`.  The rule is
  not symmetric in the two values; these statements are, and the asymmetry is used
  up in their proofs.

## Where the two tallies part

`Miscounted` is the exact condition under which the decision on the running tally
differs from the decision on the full one (`decisionRule_running_iff`).
-/

namespace NeroConsensus

/-! ## Kinds of votes -/

/-- The other value. -/
def Value.other : Value → Value
  | .zero => .one
  | .one => .zero

theorem Value.other_ne (b : Value) : b.other ≠ b := by
  cases b <;> simp [Value.other]

/-- The votes of type `ty` for the value `b`. -/
def votesOf (votes : Finset PrimaryVote) (ty : VoteType) (b : Value) : Finset PrimaryVote :=
  votes.filter fun vote => vote.voteType = ty ∧ vote.value = b

theorem mem_votesOf {votes : Finset PrimaryVote} {ty : VoteType} {b : Value}
    {vote : PrimaryVote} :
    vote ∈ votesOf votes ty b ↔ vote ∈ votes ∧ vote.voteType = ty ∧ vote.value = b := by
  rw [votesOf, Finset.mem_filter]

theorem votesOf_subset (votes : Finset PrimaryVote) (ty : VoteType) (b : Value) :
    votesOf votes ty b ⊆ votes :=
  Finset.filter_subset _ _

theorem votesOf_mono {votes votes' : Finset PrimaryVote} (h : votes ⊆ votes')
    (ty : VoteType) (b : Value) : votesOf votes ty b ⊆ votesOf votes' ty b :=
  Finset.filter_subset_filter _ h

/-! ## Counters -/

namespace Tally

/-- The counter of the votes of type `ty` for the value `b`. -/
def counter (tally : Tally) : VoteType → Value → ℕ
  | .initialVote, .zero => tally.zeroVotes
  | .initialVote, .one => tally.oneVotes
  | .commit, .zero => tally.zeroCommits
  | .commit, .one => tally.oneCommits
  | .decide, .zero => tally.zeroDecides
  | .decide, .one => tally.oneDecides

@[ext] theorem ext_counter {t t' : Tally} (h : ∀ ty b, t.counter ty b = t'.counter ty b) :
    t = t' := by
  cases t
  cases t'
  have h₁ := h .initialVote .zero
  have h₂ := h .initialVote .one
  have h₃ := h .commit .zero
  have h₄ := h .commit .one
  have h₅ := h .decide .zero
  have h₆ := h .decide .one
  simp only [counter] at h₁ h₂ h₃ h₄ h₅ h₆
  subst h₁ h₂ h₃ h₄ h₅ h₆
  rfl

@[simp] theorem counter_new (ty : VoteType) (b : Value) : new.counter ty b = 0 := by
  cases ty <;> cases b <;> rfl

/-- One more vote of its own kind, and of no other. -/
theorem counter_count (tally : Tally) (vote : PrimaryVote) (ty : VoteType) (b : Value) :
    (tally.count vote).counter ty b =
      tally.counter ty b + if vote.voteType = ty ∧ vote.value = b then 1 else 0 := by
  obtain ⟨_, _, value, voteType, _, _⟩ := vote
  cases value <;> cases voteType <;> cases ty <;> cases b <;> rfl

@[simp] theorem fromVotes_empty : fromVotes ∅ = new := rfl

/-- A new vote is counted once. -/
theorem fromVotes_insert {votes : Finset PrimaryVote} {vote : PrimaryVote}
    (h : vote ∉ votes) : fromVotes (insert vote votes) = (fromVotes votes).count vote := by
  rw [fromVotes, Finset.insert_val_of_notMem h, ← Multiset.singleton_add, add_comm,
    Multiset.foldl_add]
  rfl

/-- **`from_votes` counts.**  Each counter is the number of votes of its kind. -/
theorem counter_fromVotes (votes : Finset PrimaryVote) (ty : VoteType) (b : Value) :
    (fromVotes votes).counter ty b = (votesOf votes ty b).card := by
  induction votes using Finset.induction_on with
  | empty => rw [fromVotes_empty, counter_new, votesOf, Finset.filter_empty, Finset.card_empty]
  | insert vote votes hnew ih =>
    rw [fromVotes_insert hnew, counter_count, ih, votesOf, votesOf, Finset.filter_insert]
    split_ifs with hkind
    · rw [Finset.card_insert_of_notMem]
      exact fun hmem => hnew (Finset.mem_of_mem_filter _ hmem)
    · rfl

/-- The six counters of a set of votes add up to its size. -/
theorem counters_sum (votes : Finset PrimaryVote) :
    (fromVotes votes).zeroVotes + (fromVotes votes).zeroCommits +
      (fromVotes votes).oneVotes + (fromVotes votes).oneCommits +
      (fromVotes votes).zeroDecides + (fromVotes votes).oneDecides = votes.card := by
  induction votes using Finset.induction_on with
  | empty => rfl
  | insert vote votes hnew ih =>
    rw [fromVotes_insert hnew, Finset.card_insert_of_notMem hnew, ← ih]
    obtain ⟨_, _, value, voteType, _, _⟩ := vote
    cases value <;> cases voteType <;> simp [count] <;> omega

/-! ### The running tally -/

/-- What the running count of a tally keeps: the `Decide`s for `Zero` are dropped. -/
def running (tally : Tally) : Tally := { tally with zeroDecides := 0 }

@[simp] theorem counter_running_initialVote (tally : Tally) (b : Value) :
    tally.running.counter .initialVote b = tally.counter .initialVote b := by
  cases b <;> rfl

@[simp] theorem counter_running_commit (tally : Tally) (b : Value) :
    tally.running.counter .commit b = tally.counter .commit b := by
  cases b <;> rfl

theorem counter_running_le (tally : Tally) (ty : VoteType) (b : Value) :
    tally.running.counter ty b ≤ tally.counter ty b := by
  cases ty <;> cases b <;> simp [running, counter]

end Tally

/-- A counter that is not zero counts a vote. -/
theorem exists_of_counter_pos {votes : Finset PrimaryVote} {ty : VoteType} {b : Value}
    (h : 0 < (Tally.fromVotes votes).counter ty b) :
    ∃ v ∈ votes, v.voteType = ty ∧ v.value = b := by
  rw [Tally.counter_fromVotes] at h
  obtain ⟨v, hv⟩ := Finset.card_pos.mp h
  exact ⟨v, (mem_votesOf.mp hv).1, (mem_votesOf.mp hv).2⟩

theorem counter_eq_zero {votes : Finset PrimaryVote} {ty : VoteType}
    (h : ∀ v ∈ votes, v.voteType ≠ ty) (b : Value) : (Tally.fromVotes votes).counter ty b = 0 := by
  by_contra hne
  obtain ⟨v, hv, htype, -⟩ := exists_of_counter_pos (Nat.pos_of_ne_zero hne)
  exact h v hv htype

theorem counter_pos_of_mem {votes : Finset PrimaryVote} {v : PrimaryVote} (hv : v ∈ votes) :
    0 < (Tally.fromVotes votes).counter v.voteType v.value := by
  rw [Tally.counter_fromVotes]
  exact Finset.card_pos.mpr ⟨v, mem_votesOf.mpr ⟨hv, rfl, rfl⟩⟩

/-- A counter of some of the votes is a lower bound on the votes of its kind. -/
theorem le_card_votesOf {W S : Finset PrimaryVote} (hW : W ⊆ S) {ty : VoteType} {b : Value}
    {n : ℕ} (h : n ≤ (Tally.fromVotes W).counter ty b) : n ≤ (votesOf S ty b).card := by
  rw [Tally.counter_fromVotes] at h
  exact h.trans (Finset.card_le_card (votesOf_mono hW ty b))

/-- `tally_vote` keeps the running tally of the votes. -/
theorem RoundState.tally_tallyVote (rs : RoundState) {votes : Finset PrimaryVote}
    {vote : PrimaryVote} (hnew : vote ∉ votes)
    (h : rs.tally = (Tally.fromVotes votes).running) :
    (rs.tallyVote vote).tally = (Tally.fromVotes (insert vote votes)).running := by
  rw [Tally.fromVotes_insert hnew]
  obtain ⟨_, _, value, voteType, _, _⟩ := vote
  cases value <;> cases voteType <;> simp [RoundState.tallyVote, h, Tally.count, Tally.running]

/-- `tally_vote` touches the tally and nothing else. -/
theorem RoundState.tallyVote_eq (rs : RoundState) (vote : PrimaryVote) :
    rs.tallyVote vote = { rs with tally := (rs.tallyVote vote).tally } := by
  unfold RoundState.tallyVote
  split_ifs <;> rfl

/-! ## The branches of the rule -/

/-- The branches of `decisionRule`, each with what the branches before it leave.  The
last branch of the source, "Should not be reached!", is not: the nine above it are
exhaustive. -/
inductive RuleCase (P : Params) (t : Tally) : Decision → Prop where
  | clash (h : P.semiQuorum ≤ t.zeroCommits ∧ P.semiQuorum ≤ t.oneCommits) :
      RuleCase P t ⟨.zero, .initialVote⟩
  | oneDecide (hclash : ¬(P.semiQuorum ≤ t.zeroCommits ∧ P.semiQuorum ≤ t.oneCommits))
      (h : 0 < t.oneDecides) : RuleCase P t ⟨.one, .decide⟩
  | zeroDecide (hclash : ¬(P.semiQuorum ≤ t.zeroCommits ∧ P.semiQuorum ≤ t.oneCommits))
      (hone : t.oneDecides = 0) (h : 0 < t.zeroDecides) : RuleCase P t ⟨.zero, .decide⟩
  | zeroQuorum (hclash : ¬(P.semiQuorum ≤ t.zeroCommits ∧ P.semiQuorum ≤ t.oneCommits))
      (hone : t.oneDecides = 0) (hzero : t.zeroDecides = 0) (h : P.quorum ≤ t.zeroCommits) :
      RuleCase P t ⟨.zero, .decide⟩
  | oneQuorum (hclash : ¬(P.semiQuorum ≤ t.zeroCommits ∧ P.semiQuorum ≤ t.oneCommits))
      (hone : t.oneDecides = 0) (hzero : t.zeroDecides = 0)
      (hcommit : t.zeroCommits < P.quorum) (h : P.quorum ≤ t.oneCommits) :
      RuleCase P t ⟨.one, .decide⟩
  | zeroCommit (hclash : ¬(P.semiQuorum ≤ t.zeroCommits ∧ P.semiQuorum ≤ t.oneCommits))
      (hone : t.oneDecides = 0) (hzero : t.zeroDecides = 0)
      (hzeroCommits : t.zeroCommits < P.quorum) (honeCommits : t.oneCommits < P.quorum)
      (h : P.quorum ≤ t.zeroVotes ∨ 0 < t.zeroCommits) : RuleCase P t ⟨.zero, .commit⟩
  | oneCommit (hone : t.oneDecides = 0) (hzero : t.zeroDecides = 0)
      (honeCommits : t.oneCommits < P.quorum) (hzeroVotes : t.zeroVotes < P.quorum)
      (hzeroCommits : t.zeroCommits = 0) (h : P.quorum ≤ t.oneVotes ∨ 0 < t.oneCommits) :
      RuleCase P t ⟨.one, .commit⟩
  | zeroVote (hone : t.oneDecides = 0) (hzero : t.zeroDecides = 0)
      (hzeroCommits : t.zeroCommits = 0) (honeCommits : t.oneCommits = 0)
      (hzeroVotes : t.zeroVotes < P.quorum) (honeVotes : t.oneVotes < P.quorum)
      (h : P.semiQuorum ≤ t.zeroVotes) : RuleCase P t ⟨.zero, .initialVote⟩
  | oneVote (hone : t.oneDecides = 0) (hzero : t.zeroDecides = 0)
      (hzeroCommits : t.zeroCommits = 0) (honeCommits : t.oneCommits = 0)
      (honeVotes : t.oneVotes < P.quorum) (h : t.zeroVotes < P.semiQuorum) :
      RuleCase P t ⟨.one, .initialVote⟩

theorem ruleCase_decisionRule (P : Params) (t : Tally) : RuleCase P t (decisionRule P t) := by
  have hle := P.semiQuorum_le_quorum
  unfold decisionRule
  split_ifs with h₁ h₂ h₃ h₄ h₅ h₆ h₇ h₈ h₉
  · exact .clash h₁
  · exact .oneDecide h₁ h₂
  · exact .zeroDecide h₁ (by omega) h₃
  · exact .zeroQuorum h₁ (by omega) (by omega) h₄
  · exact .oneQuorum h₁ (by omega) (by omega) (by omega) h₅
  · exact .zeroCommit h₁ (by omega) (by omega) (by omega) (by omega) h₆
  · exact .oneCommit (by omega) (by omega) (by omega) (by omega) (by omega) h₇
  · exact .zeroVote (by omega) (by omega) (by omega) (by omega) (by omega) (by omega) h₈
  · exact .oneVote (by omega) (by omega) (by omega) (by omega) (by omega) (by omega)
  · exact absurd ⟨by omega, by omega, by omega, by omega⟩ h₉

/-- The branch is determined by the tally. -/
theorem RuleCase.eq {P : Params} {t : Tally} {d : Decision} (h : RuleCase P t d) :
    decisionRule P t = d := by
  have hle := P.semiQuorum_le_quorum
  have hpos := P.semiQuorum_pos
  have hrule := ruleCase_decisionRule P t
  generalize decisionRule P t = d' at hrule
  cases h <;> cases hrule <;> first | rfl | (exfalso; omega)

theorem ruleCase_iff {P : Params} {t : Tally} {d : Decision} :
    RuleCase P t d ↔ decisionRule P t = d :=
  ⟨RuleCase.eq, fun h => h ▸ ruleCase_decisionRule P t⟩

/-! ## What the rule presupposes -/

variable {P : Params} {tally : Tally}

/-- A `Commit` presupposes a quorum of initial votes or an earlier `Commit`. -/
theorem counter_pos_of_commit {b : Value} (h : decisionRule P tally = ⟨b, .commit⟩) :
    P.quorum ≤ tally.counter .initialVote b ∨ 0 < tally.counter .commit b := by
  have hrule := ruleCase_decisionRule P tally
  rw [h] at hrule
  cases hrule <;> assumption

/-- A `Decide` presupposes an earlier `Decide` or a quorum of `Commit`s. -/
theorem counter_pos_of_decide {b : Value} (h : decisionRule P tally = ⟨b, .decide⟩) :
    0 < tally.counter .decide b ∨ P.quorum ≤ tally.counter .commit b := by
  have hrule := ruleCase_decisionRule P tally
  rw [h] at hrule
  cases hrule <;> first | exact Or.inl ‹_› | exact Or.inr ‹_›

/-! ## What the rule yields without opposition -/

section Unopposed

variable {b : Value} (hcommit : tally.counter .commit b.other = 0)
  (hdecide : tally.counter .decide b.other = 0)

include hcommit hdecide

/-- A value with a semi-quorum of initial votes, or with one `Commit` or `Decide`, is
kept when the other value has less than a semi-quorum of initial votes. -/
theorem value_of_majority (hinitial : tally.counter .initialVote b.other < P.semiQuorum)
    (hsupport : P.semiQuorum ≤ tally.counter .initialVote b ∨
      0 < tally.counter .commit b ∨ 0 < tally.counter .decide b) :
    (decisionRule P tally).value = b := by
  have hpos := P.semiQuorum_pos
  have hle := P.semiQuorum_le_quorum
  have hrule := ruleCase_decisionRule P tally
  generalize decisionRule P tally = d at hrule
  cases b <;> simp only [Value.other, Tally.counter] at * <;> cases hrule <;>
    first | rfl | (exfalso; omega)

/-- One `Commit` makes the node commit or decide, unless the other value has a quorum
of initial votes. -/
theorem value_of_commit (hinitial : tally.counter .initialVote b.other < P.quorum)
    (hsupport : 0 < tally.counter .commit b) :
    (decisionRule P tally).value = b ∧ (decisionRule P tally).voteType ≠ .initialVote := by
  have hpos := P.semiQuorum_pos
  have hrule := ruleCase_decisionRule P tally
  generalize decisionRule P tally = d at hrule
  cases b <;> simp only [Value.other, Tally.counter] at * <;> cases hrule <;>
    first | exact ⟨rfl, by decide⟩ | (exfalso; omega)

/-- One `Decide`, or a quorum of `Commit`s, makes the node decide. -/
theorem decisionRule_of_decisive
    (hsupport : 0 < tally.counter .decide b ∨ P.quorum ≤ tally.counter .commit b) :
    decisionRule P tally = ⟨b, .decide⟩ := by
  have hpos := P.semiQuorum_pos
  have hle := P.semiQuorum_le_quorum
  have hrule := ruleCase_decisionRule P tally
  generalize decisionRule P tally = d at hrule
  cases b <;> simp only [Value.other, Tally.counter] at * <;> cases hrule <;>
    first | rfl | (exfalso; omega)

end Unopposed

/-- **A quorum of `Commit`s and `Decide`s for one value is decisive.** -/
theorem decisionRule_of_quorum {votes : Finset PrimaryVote} {b : Value}
    (hquorum : P.quorum ≤ votes.card)
    (hvotes : ∀ v ∈ votes, v.value = b ∧ v.voteType ≠ .initialVote) :
    decisionRule P (Tally.fromVotes votes) = ⟨b, .decide⟩ := by
  have hother : ∀ ty, (Tally.fromVotes votes).counter ty b.other = 0 := by
    intro ty
    by_contra hne
    obtain ⟨v, hv, -, hvalue⟩ := exists_of_counter_pos (Nat.pos_of_ne_zero hne)
    exact b.other_ne (hvalue.symm.trans (hvotes v hv).1)
  refine decisionRule_of_decisive (hother .commit) (hother .decide) ?_
  by_cases hdecide : ∃ v ∈ votes, v.voteType = .decide
  · obtain ⟨v, hv, htype⟩ := hdecide
    have hpos := counter_pos_of_mem hv
    rw [htype, (hvotes v hv).1] at hpos
    exact Or.inl hpos
  · -- all of them are `Commit`s
    refine Or.inr (hquorum.trans ?_)
    rw [Tally.counter_fromVotes]
    refine Finset.card_le_card fun v hv => mem_votesOf.mpr ⟨hv, ?_, (hvotes v hv).1⟩
    cases htype : v.voteType with
    | initialVote => exact absurd htype (hvotes v hv).2
    | commit => rfl
    | decide => exact absurd ⟨v, hv, htype⟩ hdecide

/-! ## Where the two tallies part -/

/-- The tallies on which dropping the `Decide`s for `Zero` changes the decision: there
is one, and none of the branches that come before it or agree with it is taken. -/
def Miscounted (P : Params) (tally : Tally) : Prop :=
  0 < tally.zeroDecides ∧ tally.oneDecides = 0 ∧ tally.zeroCommits < P.quorum ∧
    ¬(P.semiQuorum ≤ tally.zeroCommits ∧ P.semiQuorum ≤ tally.oneCommits)

instance (P : Params) (tally : Tally) : Decidable (Miscounted P tally) :=
  inferInstanceAs (Decidable (_ ∧ _ ∧ _ ∧ ¬(_ ∧ _)))

/-- **The two tallies agree exactly where nothing is miscounted.** -/
theorem decisionRule_running_iff :
    decisionRule P tally.running = decisionRule P tally ↔ ¬Miscounted P tally := by
  constructor
  · rintro h ⟨hzero, hone, hcommit, hboth⟩
    have hfull : decisionRule P tally = ⟨.zero, .decide⟩ :=
      (RuleCase.zeroDecide hboth hone hzero).eq
    rw [hfull] at h
    rcases counter_pos_of_decide h with hpos | hquorum
    · exact absurd hpos (Nat.lt_irrefl 0)
    · exact absurd hquorum (Nat.not_le.mpr hcommit)
  · intro h
    by_cases hzero : tally.zeroDecides = 0
    · have heq : tally.running = tally := by
        cases tally
        subst hzero
        rfl
      rw [heq]
    · -- one of the three branches that precede the counter, or agree with it, is taken
      by_cases hboth : P.semiQuorum ≤ tally.zeroCommits ∧ P.semiQuorum ≤ tally.oneCommits
      · rw [(RuleCase.clash hboth).eq]
        exact (RuleCase.clash (t := tally.running) hboth).eq
      · by_cases hone : tally.oneDecides = 0
        · have hcommit : P.quorum ≤ tally.zeroCommits := by
            by_contra hlt
            exact h ⟨Nat.pos_of_ne_zero hzero, hone, Nat.lt_of_not_le hlt, hboth⟩
          rw [(RuleCase.zeroDecide hboth hone (Nat.pos_of_ne_zero hzero)).eq]
          exact (RuleCase.zeroQuorum (t := tally.running) hboth hone rfl hcommit).eq
        · have hpos : 0 < tally.oneDecides := Nat.pos_of_ne_zero hone
          rw [(RuleCase.oneDecide hboth hpos).eq]
          exact (RuleCase.oneDecide (t := tally.running) hboth hpos).eq

/-- Without a `Decide` for `Zero` nothing is miscounted. -/
theorem not_miscounted_of_zeroDecides (h : tally.zeroDecides = 0) : ¬Miscounted P tally :=
  fun hm => by
    have hpos := hm.1
    omega

/-! ## A quorum of initial votes -/

/-- The votes of at most `NUMBER_OF_TOTAL_NODES` signers, one of each, with a quorum of initial
votes for `b` and neither a `Commit` nor a `Decide` for the other value. -/
structure InitialQuorum (P : Params) (votes : Finset PrimaryVote) (b : Value) : Prop where
  signer_injOn : Set.InjOn PrimaryVote.signer votes
  card_signers : (votes.image PrimaryVote.signer).card ≤ P.numberOfTotalNodes
  quorum : P.quorum ≤ (votesOf votes .initialVote b).card
  value_eq : ∀ v ∈ votes, v.voteType ≠ .initialVote → v.value = b

namespace InitialQuorum

variable {votes W : Finset PrimaryVote} {b : Value}

/-- Less than a semi-quorum of the votes are anything else than initial votes for `b`. -/
theorem card_sdiff_lt (h : InitialQuorum P votes b) :
    (votes \ votesOf votes .initialVote b).card < P.semiQuorum := by
  have hcard := h.card_signers
  rw [Finset.card_image_of_injOn h.signer_injOn, Params.numberOfTotalNodes] at hcard
  have hquorum := h.quorum
  rw [Params.quorum] at hquorum
  have hsplit := Finset.card_sdiff_add_card_eq_card (votesOf_subset votes .initialVote b)
  rw [Params.semiQuorum]
  omega

theorem counter_initialVote_other (h : InitialQuorum P votes b) (hW : W ⊆ votes) :
    (Tally.fromVotes W).counter .initialVote b.other < P.semiQuorum := by
  rw [Tally.counter_fromVotes]
  refine (Finset.card_le_card fun v hv => ?_).trans_lt h.card_sdiff_lt
  obtain ⟨hvW, -, hvalue⟩ := mem_votesOf.mp hv
  refine Finset.mem_sdiff.mpr ⟨hW hvW, fun hmem => ?_⟩
  exact b.other_ne (hvalue.symm.trans (mem_votesOf.mp hmem).2.2)

theorem counter_other (h : InitialQuorum P votes b) (hW : W ⊆ votes) {ty : VoteType}
    (hty : ty ≠ .initialVote) : (Tally.fromVotes W).counter ty b.other = 0 := by
  by_contra hne
  obtain ⟨v, hv, rfl, hvalue⟩ := exists_of_counter_pos (Nat.pos_of_ne_zero hne)
  exact b.other_ne (hvalue.symm.trans (h.value_eq v (hW hv) hty))

/-- A quorum of the votes has a semi-quorum of initial votes for `b`. -/
theorem semiQuorum_le_counter (h : InitialQuorum P votes b) (hW : W ⊆ votes)
    (hquorum : P.quorum ≤ W.card) :
    P.semiQuorum ≤ (Tally.fromVotes W).counter .initialVote b := by
  rw [Tally.counter_fromVotes]
  have hrest : (W \ votesOf W .initialVote b).card < P.semiQuorum := by
    refine (Finset.card_le_card fun v hv => ?_).trans_lt h.card_sdiff_lt
    obtain ⟨hvW, hnot⟩ := Finset.mem_sdiff.mp hv
    refine Finset.mem_sdiff.mpr ⟨hW hvW, fun hmem => hnot ?_⟩
    exact mem_votesOf.mpr ⟨hvW, (mem_votesOf.mp hmem).2⟩
  have hsplit := Finset.card_sdiff_add_card_eq_card (votesOf_subset W .initialVote b)
  rw [Params.quorum] at hquorum
  rw [Params.semiQuorum] at hrest ⊢
  omega

end InitialQuorum

namespace Core

/-- A node that is not Byzantine follows the rule. -/
theorem makeDecision_of_honest {c : Core} (hbyz : c.byzantine = false) (draw : Bool × Bool)
    (tally : Tally) : c.makeDecision P draw tally = decisionRule P tally := by
  rw [makeDecision, if_neg]
  rintro ⟨h, -⟩
  rw [hbyz] at h
  cases h

/-- **What a quorum of initial votes does to the decision.**  On a quorum of such votes it is for
their value; on however few of them it is no `Commit` and no `Decide` for the other one. -/
theorem makeDecision_of_initialQuorum {c : Core} (hbyz : c.byzantine = false)
    {votes W : Finset PrimaryVote} {b : Value} (h : InitialQuorum P votes b) (hW : W ⊆ votes)
    (draw : Bool × Bool) :
    (P.quorum ≤ W.card → (c.makeDecision P draw (Tally.fromVotes W)).value = b) ∧
      ∀ ty ≠ VoteType.initialVote,
        c.makeDecision P draw (Tally.fromVotes W) ≠ ⟨b.other, ty⟩ := by
  rw [makeDecision_of_honest hbyz]
  have hinitial := h.counter_initialVote_other hW
  have hcommit : (Tally.fromVotes W).counter .commit b.other = 0 := h.counter_other hW nofun
  have hdecide : (Tally.fromVotes W).counter .decide b.other = 0 := h.counter_other hW nofun
  refine ⟨fun hquorum => ?_, fun ty hty hdecision => ?_⟩
  · exact value_of_majority hcommit hdecide hinitial (Or.inl (h.semiQuorum_le_counter hW hquorum))
  · cases ty with
    | initialVote => exact hty rfl
    | commit =>
      rcases counter_pos_of_commit hdecision with hquorum | hpos
      · exact (hquorum.trans_lt hinitial).not_ge P.semiQuorum_le_quorum
      · exact hpos.ne' hcommit
    | decide =>
      rcases counter_pos_of_decide hdecision with hpos | hquorum
      · exact hpos.ne' hdecide
      · rw [hcommit] at hquorum
        exact P.quorum_pos.not_ge hquorum

/-- Three initial votes for `One`, and a `Commit` next to them. -/
def mixedVotes : Finset PrimaryVote :=
  {ballot 1 1 .one .initialVote [1, 2, 3], ballot 2 1 .one .initialVote [1, 2, 3],
    ballot 3 1 .one .initialVote [1, 2, 3], ballot 4 1 .one .commit [1, 2, 3, 4]}

theorem makeDecision_of_initialQuorum_mixedVotes :
    (Params.source.quorum ≤ mixedVotes.card →
      ((spawn (authority 1) [] false).makeDecision Params.source (false, false)
        (Tally.fromVotes mixedVotes)).value = .one) ∧
      ∀ ty ≠ VoteType.initialVote,
        (spawn (authority 1) [] false).makeDecision Params.source (false, false)
          (Tally.fromVotes mixedVotes) ≠ ⟨Value.one.other, ty⟩ :=
  makeDecision_of_initialQuorum rfl
    ⟨Finset.card_image_iff.mp (by decide +kernel), by decide +kernel, by decide +kernel,
      by decide +kernel⟩ subset_rfl (false, false)

end Core
end NeroConsensus
