import NeroConsensus.Foundations.Committee
import NeroConsensus.Primary.Certificates

/-!
# Views, and the lock

What one correct authority has seen of an election is a `View`: for every round the
votes it stored there, one a signer, each of them the outcome of the decision rule on
votes of the round before.  Nothing is said about time, messages or other nodes, and
the votes of faulty authorities may rest on as few votes as they like.

This is where the safety of the protocol is decided.  A round is `Locked` on a value
when it holds a quorum of initial votes for it.

* `View.exists_locked`: a `Commit` or a `Decide` presupposes an earlier lock on its
  value.
* `View.after_keeps`: from the first lock on, the votes of correct authorities are all
  for its value.
* `View.locked_unique`: so all locks are on one value.
* `View.value_eq`: so all the `Commit`s and `Decide`s in a view are for one value.
* `View.uniform_of_start`: where the votes of correct authorities begin with one value,
  they stay with it, lock or no lock.

`after_keeps` is an induction on the rounds.  It has to deal with the owner's votes,
which are decisions on the running tally.  There the `Decide`s for `Zero` do not show,
but whenever there is one the owner has itself voted `Commit`, and that vote is among
those it counts: this is what `View.Keeps` adds to the induction.

`Views` are the views of all correct authorities of a committee, in which the votes
of a correct authority are its own.  `Views.decide_eq` is agreement: all the `Decide`s
in all the views are for one value.  `Views.value_of_commits` is what carries a decision
on: next to a quorum of `Commit`s nobody can do anything but commit or decide.
-/

namespace NeroConsensus

variable {P : Params}

/-- What the authority `me` has stored of an election. -/
structure View (P : Params) (C : Committee PublicKey P.numberOfByzantineNodes)
    (me : PublicKey) where
  votes : ℕ → Finset PrimaryVote
  correct : me ∈ C.correct
  ballots : ∀ r, C.Ballots PrimaryVote.signer (votes r)
  initial : ∀ v ∈ votes 0, v.voteType = .initialVote
  received : ∀ r, ∀ v ∈ votes (r + 1), v.signer ≠ me → ∃ W ⊆ votes r,
    (v.signer ∈ C.correct → P.quorum ≤ W.card) ∧
      decisionRule P (Tally.fromVotes W) = v.decision
  own : ∀ r, ∀ v ∈ votes (r + 1), v.signer = me → ∃ W ⊆ votes r,
    P.quorum ≤ W.card ∧ decisionRule P (Tally.fromVotes W).running = v.decision ∧
      ∃ w ∈ W, w.signer = me ∧ w.voteType ≠ .decide

namespace View

variable {C : Committee PublicKey P.numberOfByzantineNodes} {me : PublicKey} (V : View P C me)

/-! ## Where Commits and Decides come from -/

/-- The votes of a view are grounded. -/
theorem grounded : Grounded P V.votes where
  initial := V.initial
  tally r v hv := by
    by_cases hme : v.signer = me
    · obtain ⟨W, hW, -, hd, -⟩ := V.own r v hv hme
      exact ⟨W, hW, _, hd, Tally.counter_running_le _⟩
    · obtain ⟨W, hW, -, hd⟩ := V.received r v hv hme
      exact ⟨W, hW, _, hd, fun _ _ => le_rfl⟩

/-- The round holds a quorum of initial votes for the value. -/
def Locked (r : ℕ) (b : Value) : Prop :=
  P.quorum ≤ (votesOf (V.votes r) .initialVote b).card

/-- **A `Commit` or a `Decide` presupposes an earlier lock on its value.** -/
theorem exists_locked {r : ℕ} {v : PrimaryVote} (hv : v ∈ V.votes r)
    (htype : v.voteType ≠ .initialVote) : ∃ q < r, V.Locked q v.value :=
  V.grounded.exists_locked hv htype

/-- A `Decide` presupposes a quorum of `Commit`s for its value, in an earlier round. -/
theorem exists_commits {r : ℕ} {v : PrimaryVote} (hv : v ∈ V.votes r)
    (htype : v.voteType = .decide) :
    ∃ q < r, P.quorum ≤ (votesOf (V.votes q) .commit v.value).card :=
  V.grounded.exists_commits hv htype

/-! ## The first lock -/

theorem ballots_votesOf (r : ℕ) (ty : VoteType) (b : Value) :
    C.Ballots PrimaryVote.signer (votesOf (V.votes r) ty b) :=
  (V.ballots r).mono (votesOf_subset _ _ _)

/-- A lock includes a vote of a correct authority. -/
theorem Locked.exists_correct {V : View P C me} {r : ℕ} {b : Value} (h : V.Locked r b) :
    ∃ v ∈ V.votes r, v.signer ∈ C.correct ∧ v.voteType = .initialVote ∧ v.value = b := by
  have hlt : P.numberOfByzantineNodes < P.quorum := by
    rw [Params.quorum]
    omega
  obtain ⟨v, hv, hcorrect⟩ := (V.ballots_votesOf r .initialVote b).exists_correct
    (hlt.trans_le h)
  obtain ⟨hv, hkind⟩ := mem_votesOf.mp hv
  exact ⟨v, hv, hcorrect, hkind⟩

/-- One round is not locked on two values. -/
theorem Locked.unique {V : View P C me} {r : ℕ} {a b : Value} (ha : V.Locked r a)
    (hb : V.Locked r b) : a = b := by
  obtain ⟨v, hv, w, hw, hsigner, -⟩ :=
    (V.ballots_votesOf r .initialVote a).exists_common (V.ballots_votesOf r .initialVote b) ha hb
  obtain ⟨hv, -, hva⟩ := mem_votesOf.mp hv
  obtain ⟨hw, -, hwb⟩ := mem_votesOf.mp hw
  have heq := (V.ballots r).signer_inj v hv w hw hsigner
  rw [← hva, ← hwb, heq]

/-- The votes of correct authorities are for the value. -/
def Uniform (r : ℕ) (a : Value) : Prop :=
  ∀ v ∈ V.votes r, v.signer ∈ C.correct → v.value = a

/-- Where somebody decides for `Zero` the owner commits to it. -/
def Keeps (r : ℕ) : Prop :=
  (∃ d ∈ V.votes r, d.voteType = .decide ∧ d.value = .zero) →
    ∀ w ∈ V.votes r, w.signer = me → w.voteType ≠ .initialVote ∧ w.value = .zero

section FirstLock

variable {V} {p r : ℕ} {a : Value}

/-- The rounds from `p` on, where the lock on `a` in round `p` is the first. -/
structure After (V : View P C me) (p : ℕ) (a : Value) (r : ℕ) : Prop where
  locked : V.Locked p a
  first : ∀ q < p, ∀ b, ¬V.Locked q b
  le : p ≤ r
  uniform : ∀ q, p < q → q ≤ r → V.Uniform q a

/-- Nobody opposes the lock by a `Commit` or a `Decide`. -/
theorem After.value_eq (h : V.After p a r) {v : PrimaryVote} (hv : v ∈ V.votes r)
    (htype : v.voteType ≠ .initialVote) : v.value = a := by
  obtain ⟨q, hq, hlock⟩ := V.exists_locked hv htype
  rcases Nat.lt_trichotomy q p with hlt | rfl | hgt
  · exact absurd hlock (h.first q hlt _)
  · exact hlock.unique h.locked
  · obtain ⟨w, hw, hcorrect, -, hvalue⟩ := hlock.exists_correct
    rw [← hvalue]
    exact h.uniform q hgt hq.le w hw hcorrect

theorem After.counter_other (h : V.After p a r) {W : Finset PrimaryVote}
    (hW : W ⊆ V.votes r) {ty : VoteType} (hty : ty ≠ .initialVote) :
    (Tally.fromVotes W).counter ty a.other = 0 := by
  by_contra hne
  obtain ⟨v, hv, hvtype, hvalue⟩ := exists_of_counter_pos (Nat.pos_of_ne_zero hne)
  have heq := h.value_eq (hW hv) (by rw [hvtype]; exact hty)
  rw [hvalue] at heq
  exact a.other_ne heq

/-- The initial votes for the other value are few. -/
theorem After.counter_initial_other (h : V.After p a r) {W : Finset PrimaryVote}
    (hW : W ⊆ V.votes r) :
    (Tally.fromVotes W).counter .initialVote a.other < P.semiQuorum := by
  have hle : (Tally.fromVotes W).counter .initialVote a.other ≤ P.numberOfByzantineNodes := by
    rw [Tally.counter_fromVotes]
    rcases Nat.eq_or_lt_of_le h.le with rfl | hlt
    · -- in the round of the lock they are next to a quorum
      refine (V.ballots p).card_le_of_disjoint (votesOf_subset _ .initialVote a)
        ((votesOf_subset _ _ _).trans hW) ?_ h.locked
      rw [Finset.disjoint_left]
      intro v hv hv'
      have hva := (mem_votesOf.mp hv).2.2
      have hvo := (mem_votesOf.mp hv').2.2
      exact a.other_ne (hvo.symm.trans hva)
    · -- later they come from faulty authorities
      refine ((V.ballots r).mono ((votesOf_subset _ _ _).trans hW)).card_le_of_faulty ?_
      intro v hv hcorrect
      obtain ⟨hv, -, hvalue⟩ := mem_votesOf.mp hv
      have heq := h.uniform r hlt le_rfl v (hW hv) hcorrect
      rw [hvalue] at heq
      exact a.other_ne heq
  rw [Params.semiQuorum]
  omega

/-- A quorum of votes supports the lock. -/
theorem After.support (h : V.After p a r) {W : Finset PrimaryVote} (hW : W ⊆ V.votes r)
    (hquorum : P.quorum ≤ W.card) :
    P.semiQuorum ≤ (Tally.fromVotes W).counter .initialVote a ∨
      ∃ w ∈ W, w.voteType ≠ .initialVote ∧ w.value = a := by
  rcases Nat.eq_or_lt_of_le h.le with rfl | hlt
  · left
    have hinter := (V.ballots p).card_inter (votesOf_subset _ .initialVote a) hW h.locked hquorum
    rw [Tally.counter_fromVotes]
    refine (Nat.succ_le_of_lt hinter).trans (Finset.card_le_card fun v hv => ?_)
    obtain ⟨hv, hvW⟩ := Finset.mem_inter.mp hv
    exact mem_votesOf.mpr ⟨hvW, (mem_votesOf.mp hv).2⟩
  · by_cases hsome : ∃ w ∈ W, w.voteType ≠ .initialVote ∧ w.value = a
    · exact Or.inr hsome
    · left
      have hcorrect := ((V.ballots r).mono hW).card_filter_correct hquorum
      rw [Tally.counter_fromVotes]
      refine (Nat.succ_le_of_lt hcorrect).trans (Finset.card_le_card fun v hv => ?_)
      obtain ⟨hv, hc⟩ := Finset.mem_filter.mp hv
      have hvalue := h.uniform r hlt le_rfl v (hW hv) hc
      refine mem_votesOf.mpr ⟨hv, ?_, hvalue⟩
      by_contra htype
      exact hsome ⟨v, hv, htype, hvalue⟩

/-- The counters of a vote that is not an initial vote. -/
theorem counter_pos_of_support {W : Finset PrimaryVote} {w : PrimaryVote} (hw : w ∈ W)
    (htype : w.voteType ≠ .initialVote) :
    0 < (Tally.fromVotes W).counter .commit w.value ∨
      0 < (Tally.fromVotes W).counter .decide w.value := by
  have hpos := counter_pos_of_mem hw
  cases hkind : w.voteType with
  | initialVote => exact absurd hkind htype
  | commit =>
    rw [hkind] at hpos
    exact Or.inl hpos
  | decide =>
    rw [hkind] at hpos
    exact Or.inr hpos

/-- Where somebody decides for `Zero`, the owner's vote is a `Commit` for it if it is not a
`Decide`, and it is counted. -/
theorem Keeps.counter_pos (hkeeps : V.Keeps r) {d : PrimaryVote} (hd : d ∈ V.votes r)
    (hdkind : d.voteType = .decide ∧ d.value = .zero) {W : Finset PrimaryVote}
    (hW : W ⊆ V.votes r) {w : PrimaryVote} (hw : w ∈ W) (hwme : w.signer = me)
    (hwtype : w.voteType ≠ .decide) : 0 < (Tally.fromVotes W).counter .commit .zero := by
  obtain ⟨hwinit, hwvalue⟩ := hkeeps ⟨d, hd, hdkind⟩ w (hW hw) hwme
  have hpos := counter_pos_of_mem hw
  cases hkind : w.voteType with
  | initialVote => exact absurd hkind hwinit
  | commit =>
    rw [hkind, hwvalue] at hpos
    exact hpos
  | decide => exact absurd hkind hwtype

/-- On the running tally nobody opposes the lock either. -/
theorem After.counter_running_other (h : V.After p a r) {W : Finset PrimaryVote}
    (hW : W ⊆ V.votes r) {ty : VoteType} (hty : ty ≠ .initialVote) :
    (Tally.fromVotes W).running.counter ty a.other = 0 :=
  Nat.le_zero.mp ((Tally.counter_running_le _ ty _).trans_eq (h.counter_other hW hty))

/-- On the running tally of the owner the lock is supported as well: a `Decide` that is
not counted comes with a `Commit` of the owner. -/
theorem After.support_running (h : V.After p a r) (hkeeps : V.Keeps r)
    {W : Finset PrimaryVote} (hW : W ⊆ V.votes r) (hquorum : P.quorum ≤ W.card)
    {w : PrimaryVote} (hw : w ∈ W) (hwme : w.signer = me) (hwtype : w.voteType ≠ .decide) :
    P.semiQuorum ≤ (Tally.fromVotes W).running.counter .initialVote a ∨
      0 < (Tally.fromVotes W).running.counter .commit a ∨
      0 < (Tally.fromVotes W).running.counter .decide a := by
  rw [Tally.counter_running_initialVote, Tally.counter_running_commit]
  refine (h.support hW hquorum).imp_right ?_
  rintro ⟨u, hu, hutype, huvalue⟩
  have hpos := counter_pos_of_support hu hutype
  rw [huvalue] at hpos
  rcases hpos with hcommit | hdecide
  · exact Or.inl hcommit
  · cases a with
    | one => exact Or.inr hdecide
    | zero =>
      obtain ⟨d, hd, hdkind⟩ := exists_of_counter_pos hdecide
      exact Or.inl (hkeeps.counter_pos (hW hd) hdkind hW hw hwme hwtype)

/-- **One round further, the votes of correct authorities keep to the lock.** -/
theorem After.uniform_succ (h : V.After p a r) (hkeeps : V.Keeps r) :
    V.Uniform (r + 1) a := by
  intro v hv hcorrect
  by_cases hme : v.signer = me
  · -- an own vote, the decision on the running tally
    obtain ⟨W, hW, hquorum, hd, w, hw, hwme, hwtype⟩ := V.own r v hv hme
    rw [PrimaryVote.value_of_decision hd]
    refine value_of_majority (h.counter_running_other hW VoteType.noConfusion)
      (h.counter_running_other hW VoteType.noConfusion) ?_
      (h.support_running hkeeps hW hquorum hw hwme hwtype)
    rw [Tally.counter_running_initialVote]
    exact h.counter_initial_other hW
  · obtain ⟨W, hW, hquorum, hd⟩ := V.received r v hv hme
    rw [PrimaryVote.value_of_decision hd]
    refine value_of_majority (h.counter_other hW VoteType.noConfusion)
      (h.counter_other hW VoteType.noConfusion) (h.counter_initial_other hW) ?_
    refine (h.support hW (hquorum hcorrect)).imp_right ?_
    rintro ⟨u, hu, hutype, huvalue⟩
    have hpos := counter_pos_of_support hu hutype
    rw [huvalue] at hpos
    exact hpos

theorem After.succ (h : V.After p a r) (huniform : V.Uniform (r + 1) a) :
    V.After p a (r + 1) where
  locked := h.locked
  first := h.first
  le := h.le.trans (Nat.le_succ r)
  uniform q hpq hq := by
    rcases Nat.eq_or_lt_of_le hq with rfl | hlt
    · exact huniform
    · exact h.uniform q hpq (Nat.le_of_lt_succ hlt)

/-- What the owner counts, a round after somebody else decides for `Zero`, includes a
`Commit` for it: its own vote, or one of the quorum behind that decision. -/
theorem Keeps.counter_pos_of_received (hkeeps : V.Keeps r) {d : PrimaryVote}
    (hd : d ∈ V.votes (r + 1)) (hdkind : d.voteType = .decide ∧ d.value = .zero)
    (hdme : d.signer ≠ me) {W : Finset PrimaryVote} (hW : W ⊆ V.votes r)
    (hquorum : P.quorum ≤ W.card) {w : PrimaryVote} (hw : w ∈ W) (hwme : w.signer = me)
    (hwtype : w.voteType ≠ .decide) : 0 < (Tally.fromVotes W).counter .commit .zero := by
  obtain ⟨W', hW', -, hrule⟩ := V.received r d hd hdme
  rw [PrimaryVote.decision_of_voteType hdkind.1, hdkind.2] at hrule
  rcases counter_pos_of_decide hrule with hpos | hcommits
  · obtain ⟨e, he, hekind⟩ := exists_of_counter_pos hpos
    exact hkeeps.counter_pos (hW' he) hekind hW hw hwme hwtype
  · rw [Tally.counter_fromVotes] at hcommits
    have hinter := (V.ballots r).card_inter
      ((votesOf_subset W' .commit .zero).trans hW') hW hcommits hquorum
    obtain ⟨e, he⟩ := Finset.card_pos.mp (Nat.zero_lt_of_lt hinter)
    obtain ⟨he', heW⟩ := Finset.mem_inter.mp he
    obtain ⟨-, hetype, hevalue⟩ := mem_votesOf.mp he'
    have hepos := counter_pos_of_mem heW
    rw [hetype, hevalue] at hepos
    exact hepos

/-- **One round further, the owner commits where somebody decides.** -/
theorem After.keeps_succ (h : V.After p a r) (hkeeps : V.Keeps r)
    (huniform : V.Uniform (r + 1) a) : V.Keeps (r + 1) := by
  rintro ⟨d, hd, hdtype, hdvalue⟩ w hw hwme
  have hazero : a = .zero := by
    rw [← (h.succ huniform).value_eq hd (by rw [hdtype]; exact VoteType.noConfusion), hdvalue]
  subst hazero
  by_cases hdme : d.signer = me
  · have heq := (V.ballots (r + 1)).signer_inj d hd w hw (hdme.trans hwme.symm)
    rw [← heq, hdtype, hdvalue]
    exact ⟨VoteType.noConfusion, rfl⟩
  · obtain ⟨W, hW, hquorum, hrule, u, hu, hume, hutype⟩ := V.own r w hw hwme
    have hcommit := hkeeps.counter_pos_of_received hd ⟨hdtype, hdvalue⟩ hdme hW hquorum hu
      hume hutype
    have hinitial := (h.counter_initial_other hW).trans_le P.semiQuorum_le_quorum
    rw [← Tally.counter_running_commit] at hcommit
    rw [← Tally.counter_running_initialVote] at hinitial
    obtain ⟨hvalue, htype⟩ := value_of_commit
      (h.counter_running_other hW VoteType.noConfusion)
      (h.counter_running_other hW VoteType.noConfusion) hinitial hcommit
    rw [PrimaryVote.voteType_of_decision hrule, PrimaryVote.value_of_decision hrule]
    exact ⟨htype, hvalue⟩

/-- **The lock holds.**  By induction on the rounds from the first lock on. -/
theorem after_keeps (hlock : V.Locked p a) (hfirst : ∀ q < p, ∀ b, ¬V.Locked q b) (n : ℕ) :
    V.After p a (p + n) ∧ V.Keeps (p + n) := by
  induction n with
  | zero =>
    refine ⟨⟨hlock, hfirst, le_rfl, fun q hpq hq => absurd hpq (Nat.not_lt.mpr hq)⟩, ?_⟩
    rintro ⟨d, hd, hdtype, -⟩
    obtain ⟨q, hq, hlocked⟩ := V.exists_locked hd (by rw [hdtype]; exact VoteType.noConfusion)
    exact absurd hlocked (hfirst q hq _)
  | succ n ih =>
    obtain ⟨hafter, hkeeps⟩ := ih
    have huniform := hafter.uniform_succ hkeeps
    exact ⟨hafter.succ huniform, hafter.keeps_succ hkeeps huniform⟩

/-- After the first lock the votes of correct authorities are for its value. -/
theorem uniform_of_first (hlock : V.Locked p a) (hfirst : ∀ q < p, ∀ b, ¬V.Locked q b)
    (hpr : p < r) : V.Uniform r a := by
  obtain ⟨hafter, -⟩ := after_keeps hlock hfirst (r - p)
  rw [Nat.add_sub_cancel' hpr.le] at hafter
  exact hafter.uniform r hpr le_rfl

end FirstLock

/-! ## One value in a view -/

variable {V}

/-- Where there is a lock there is a first one. -/
theorem Locked.exists_first {q : ℕ} {c : Value} (h : V.Locked q c) :
    ∃ p ≤ q, ∃ a, V.Locked p a ∧ ∀ q' < p, ∀ b, ¬V.Locked q' b := by
  classical
  have hex : ∃ r, ∃ a, V.Locked r a := ⟨q, c, h⟩
  obtain ⟨a, ha⟩ := Nat.find_spec hex
  exact ⟨Nat.find hex, Nat.find_min' hex ⟨c, h⟩, a, ha,
    fun q' hq' b hlock => Nat.find_min hex hq' ⟨b, hlock⟩⟩

/-- A lock is on the value of the first one. -/
theorem Locked.eq_of_first {p q : ℕ} {a b : Value} (ha : V.Locked p a)
    (hfirst : ∀ q < p, ∀ b, ¬V.Locked q b) (hb : V.Locked q b) : b = a := by
  rcases Nat.lt_trichotomy q p with hlt | rfl | hgt
  · exact absurd hb (hfirst q hlt b)
  · exact hb.unique ha
  · obtain ⟨v, hv, hcorrect, -, hvalue⟩ := hb.exists_correct
    rw [← hvalue]
    exact uniform_of_first ha hfirst hgt v hv hcorrect

/-- The first lock decides the value of every lock. -/
theorem locked_unique {p q : ℕ} {a b : Value} (ha : V.Locked p a) (hb : V.Locked q b) :
    a = b := by
  obtain ⟨r, -, c, hc, hfirst⟩ := ha.exists_first
  rw [hc.eq_of_first hfirst ha, hc.eq_of_first hfirst hb]

/-- **The `Commit`s and `Decide`s in a view are for one value.** -/
theorem value_eq {r s : ℕ} {v w : PrimaryVote} (hv : v ∈ V.votes r) (hw : w ∈ V.votes s)
    (hvtype : v.voteType ≠ .initialVote) (hwtype : w.voteType ≠ .initialVote) :
    v.value = w.value := by
  obtain ⟨p, -, hp⟩ := V.exists_locked hv hvtype
  obtain ⟨q, -, hq⟩ := V.exists_locked hw hwtype
  exact locked_unique hp hq

/-! ## Unanimity -/

/-- As long as nothing is locked, there are only initial votes, and a quorum of them yields
the value of the correct ones. -/
theorem Uniform.succ_of_unlocked {r : ℕ} {b : Value} (h : V.Uniform r b)
    (hnone : ∀ q < r, ∀ a, ¬V.Locked q a) : V.Uniform (r + 1) b := by
  have hinitial : ∀ w ∈ V.votes r, w.voteType = .initialVote := by
    intro w hw
    by_contra htype
    obtain ⟨q, hq, hlock⟩ := V.exists_locked hw htype
    exact hnone q hq _ hlock
  have hzero : ∀ W ⊆ V.votes r, ∀ ty, ty ≠ VoteType.initialVote → ∀ a,
      (Tally.fromVotes W).counter ty a = 0 := by
    intro W hW ty hty a
    by_contra hne
    obtain ⟨w, hw, hwtype, -⟩ := exists_of_counter_pos (Nat.pos_of_ne_zero hne)
    exact hty (hwtype.symm.trans (hinitial w (hW hw)))
  have hvalue : ∀ W ⊆ V.votes r, P.quorum ≤ W.card →
      (decisionRule P (Tally.fromVotes W)).value = b := by
    intro W hW hquorum
    have hbox := (V.ballots r).mono hW
    refine value_of_majority (hzero W hW _ VoteType.noConfusion _)
      (hzero W hW _ VoteType.noConfusion _) ?_ (Or.inl ?_)
    · -- the votes for the other value come from faulty authorities
      rw [Tally.counter_fromVotes, Params.semiQuorum, Nat.lt_succ_iff]
      refine (hbox.mono (votesOf_subset W .initialVote b.other)).card_le_of_faulty ?_
      intro w hw hcorrect
      obtain ⟨hw, -, hother⟩ := mem_votesOf.mp hw
      rw [h w (hW hw) hcorrect] at hother
      exact b.other_ne hother.symm
    · rw [Tally.counter_fromVotes]
      refine (Nat.succ_le_of_lt (hbox.card_filter_correct hquorum)).trans
        (Finset.card_le_card fun w hw => ?_)
      obtain ⟨hw, hcorrect⟩ := Finset.mem_filter.mp hw
      exact mem_votesOf.mpr ⟨hw, hinitial w (hW hw), h w (hW hw) hcorrect⟩
  intro v hv hcorrect
  by_cases hme : v.signer = me
  · obtain ⟨W, hW, hquorum, hd, -⟩ := V.own r v hv hme
    have hrunning : (Tally.fromVotes W).running = Tally.fromVotes W :=
      Tally.running_eq_self_iff.mpr (hzero W hW .decide VoteType.noConfusion .zero)
    rw [hrunning] at hd
    rw [PrimaryVote.value_of_decision hd, hvalue W hW hquorum]
  · obtain ⟨W, hW, hquorum, hd⟩ := V.received r v hv hme
    rw [PrimaryVote.value_of_decision hd, hvalue W hW (hquorum hcorrect)]

/-- **Correct authorities that start with one value keep to it.** -/
theorem uniform_of_start {b : Value} (hstart : V.Uniform 0 b) (r : ℕ) : V.Uniform r b := by
  have hunlocked : ∀ n, (∀ q < n, ∀ a, ¬V.Locked q a) → V.Uniform n b := by
    intro n
    induction n with
    | zero => exact fun _ => hstart
    | succ n ih =>
      intro hnone
      have hbefore : ∀ q < n, ∀ a, ¬V.Locked q a := fun q hq => hnone q (Nat.lt_succ_of_lt hq)
      exact (ih hbefore).succ_of_unlocked hbefore
  by_cases hlocked : ∃ q < r, ∃ a, V.Locked q a
  · -- the first lock includes a correct vote, so it is on `b`
    obtain ⟨q, hq, c, hc⟩ := hlocked
    obtain ⟨p, hpq, a, ha, hfirst⟩ := hc.exists_first
    obtain ⟨v, hv, hcorrect, -, hva⟩ := ha.exists_correct
    have hvb := hunlocked p hfirst v hv hcorrect
    rw [← hvb, hva]
    exact uniform_of_first ha hfirst (hpq.trans_lt hq)
  · exact hunlocked r fun q hq a hlock => hlocked ⟨q, hq, a, hlock⟩

end View

/-! ## One value in all the views -/

/-- The views of the correct authorities of a committee.  What one of them stores from
another is the other's own vote. -/
structure Views (P : Params) (C : Committee PublicKey P.numberOfByzantineNodes) where
  view : ∀ x ∈ C.correct, View P C x
  authentic : ∀ x hx z hz r, ∀ v ∈ (view x hx).votes r, v.signer = z →
    v ∈ (view z hz).votes r

namespace Views

variable {C : Committee PublicKey P.numberOfByzantineNodes} (S : Views P C)

/-- The vote of a correct signer in a round is the same in all the views. -/
theorem eq_of_signer {x y : PublicKey} (hx : x ∈ C.correct) (hy : y ∈ C.correct) {r : ℕ}
    {v w : PrimaryVote} (hv : v ∈ (S.view x hx).votes r) (hw : w ∈ (S.view y hy).votes r)
    (hsigner : v.signer = w.signer) (hcorrect : v.signer ∈ C.correct) : v = w :=
  ((S.view v.signer hcorrect).ballots r).signer_inj v (S.authentic x hx _ hcorrect r v hv rfl)
    w (S.authentic y hy _ hcorrect r w hw hsigner.symm) hsigner

/-- **A quorum of `Commit`s in one view leaves no choice in another.**  A quorum of votes
of that round yields the value, and not as an initial vote. -/
theorem value_of_commits {y z : PublicKey} (hy : y ∈ C.correct) (hz : z ∈ C.correct) {r : ℕ}
    {b : Value} (hcommits : P.quorum ≤ (votesOf ((S.view y hy).votes r) .commit b).card)
    {W : Finset PrimaryVote} (hW : W ⊆ (S.view z hz).votes r) (hquorum : P.quorum ≤ W.card) :
    (decisionRule P (Tally.fromVotes W)).value = b ∧
      (decisionRule P (Tally.fromVotes W)).voteType ≠ .initialVote := by
  -- the two quorums meet in a correct signer, and its vote is a `Commit`
  obtain ⟨w, hw, u, hu, hsigner, hcorrect⟩ :=
    (((S.view z hz).ballots r).mono hW).exists_common
      ((S.view y hy).ballots_votesOf r .commit b) hquorum hcommits
  obtain ⟨hu, hutype, huvalue⟩ := mem_votesOf.mp hu
  have hwu := S.eq_of_signer hz hy (hW hw) hu hsigner hcorrect
  subst hwu
  have hwtype : w.voteType ≠ .initialVote := by
    rw [hutype]
    exact VoteType.noConfusion
  have hother : ∀ ty, ty ≠ VoteType.initialVote →
      (Tally.fromVotes W).counter ty b.other = 0 := by
    intro ty hty
    by_contra hne
    obtain ⟨e, he, hetype, hevalue⟩ := exists_of_counter_pos (Nat.pos_of_ne_zero hne)
    have heq := View.value_eq (V := S.view z hz) (hW he) (hW hw)
      (by rw [hetype]; exact hty) hwtype
    rw [hevalue, huvalue] at heq
    exact b.other_ne heq
  have hinitial : (Tally.fromVotes W).counter .initialVote b.other < P.quorum := by
    by_contra hge
    obtain ⟨p, -, hlock⟩ := (S.view z hz).exists_locked (hW hw) hwtype
    have hlock' : (S.view z hz).Locked r b.other :=
      le_card_votesOf hW (Nat.le_of_not_lt hge)
    have heq := View.locked_unique hlock' hlock
    rw [huvalue] at heq
    exact b.other_ne heq
  have hpos := counter_pos_of_mem hw
  rw [hutype, huvalue] at hpos
  exact value_of_commit (hother _ VoteType.noConfusion) (hother _ VoteType.noConfusion)
    hinitial hpos

/-- **Agreement.**  All the `Decide`s in all the views are for one value: the quorums of
`Commit`s behind two of them have a correct signer in common, which has both its
`Commit`s in its own view. -/
theorem decide_eq {x y : PublicKey} (hx : x ∈ C.correct) (hy : y ∈ C.correct) {r s : ℕ}
    {v w : PrimaryVote} (hv : v ∈ (S.view x hx).votes r) (hw : w ∈ (S.view y hy).votes s)
    (hvtype : v.voteType = .decide) (hwtype : w.voteType = .decide) : v.value = w.value := by
  obtain ⟨p, -, hp⟩ := (S.view x hx).exists_commits hv hvtype
  obtain ⟨q, -, hq⟩ := (S.view y hy).exists_commits hw hwtype
  obtain ⟨c, hc, d, hd, hsigner, hcorrect⟩ :=
    ((S.view x hx).ballots_votesOf p .commit v.value).exists_common
      ((S.view y hy).ballots_votesOf q .commit w.value) hp hq
  obtain ⟨hc, hctype, hcvalue⟩ := mem_votesOf.mp hc
  obtain ⟨hd, hdtype, hdvalue⟩ := mem_votesOf.mp hd
  have hc' := S.authentic x hx c.signer hcorrect p c hc rfl
  have hd' := S.authentic y hy c.signer hcorrect q d hd hsigner.symm
  have heq := View.value_eq hc' hd' (by rw [hctype]; exact VoteType.noConfusion)
    (by rw [hdtype]; exact VoteType.noConfusion)
  rw [← hcvalue, ← hdvalue, heq]

end Views
end NeroConsensus
