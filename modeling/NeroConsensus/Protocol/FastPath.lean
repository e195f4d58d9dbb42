import NeroConsensus.Protocol.Termination

/-!
# The fast path

Where all correct nodes start an election with one value, and the faulty ones are silent, the
election takes three rounds.

* `Views.Unanimous.decision_eq`: in round 0 there are initial votes, in round 1 `Commit`s, in
  round 2 `Decide`s, all for that value, and after that there is nothing.  Nobody goes on from a
  `Decide`, so a vote of round 3 would have nothing to rest on.
* `System.decision_of_unanimous`: so every vote that a correct node casts is the one of its round,
  in whatever order the votes are delivered, and whatever is lost.
* `System.decided_of_unanimous`: where they are delivered in time, everybody decides.  There is
  no `Decide` below round 2, so nothing is miscounted, and the condition under which networks
  without faults decide is met by itself.
-/

namespace NeroConsensus

variable {P : Params} {C : Committee PublicKey P.numberOfByzantineNodes}

/-- A quorum of initial votes for one value makes a node commit to it. -/
theorem decisionRule_of_initialVotes {votes : Finset PrimaryVote} {b : Value}
    (hquorum : P.quorum ≤ votes.card)
    (hvotes : ∀ v ∈ votes, v.decision = ⟨b, .initialVote⟩) :
    decisionRule P (Tally.fromVotes votes) = ⟨b, .commit⟩ := by
  have hnone : ∀ ty a, ¬(ty = .initialVote ∧ a = b) →
      (Tally.fromVotes votes).counter ty a = 0 := by
    intro ty a hne
    by_contra hcount
    obtain ⟨v, hv, htype, hvalue⟩ := exists_of_counter_pos (Nat.pos_of_ne_zero hcount)
    have hd := hvotes v hv
    exact hne ⟨htype ▸ congrArg Decision.voteType hd, hvalue ▸ congrArg Decision.value hd⟩
  have hall : P.quorum ≤ (Tally.fromVotes votes).counter .initialVote b := by
    rw [Tally.counter_fromVotes]
    refine hquorum.trans (Finset.card_le_card fun v hv => mem_votesOf.mpr ⟨hv, ?_⟩)
    have hd := hvotes v hv
    exact ⟨congrArg Decision.voteType hd, congrArg Decision.value hd⟩
  have hzc := hnone .commit .zero (by simp)
  have hoc := hnone .commit .one (by simp)
  have hzd := hnone .decide .zero (by simp)
  have hod := hnone .decide .one (by simp)
  have hpos := P.quorum_pos
  have hother := hnone .initialVote b.other (by simp [Value.other_ne])
  rw [← ruleCase_iff]
  cases b <;> simp only [Tally.counter, Value.other] at *
  · exact .zeroCommit (by have := P.semiQuorum_pos; omega) hod hzd (by omega) (by omega)
      (Or.inl hall)
  · exact .oneCommit hod hzd (by omega) (by omega) hzc (Or.inl hall)

/-- What is voted after a unanimous start, round by round. -/
def fastVote (b : Value) : ℕ → Decision
  | 0 => ⟨b, .initialVote⟩
  | 1 => ⟨b, .commit⟩
  | _ => ⟨b, .decide⟩

namespace Views

variable {S : Views P C} {b : Value}

/-- The votes come from correct authorities, which have all started with the value. -/
structure Unanimous (S : Views P C) (b : Value) : Prop where
  signer : ∀ x hx r, ∀ v ∈ (S.view x hx).votes r, v.signer ∈ C.correct
  value : ∀ x hx, ∀ v ∈ (S.view x hx).votes 0, v.value = b

/-- **Three rounds, and nothing after them.** -/
theorem Unanimous.decision_eq (h : S.Unanimous b) (r : ℕ) :
    ∀ x hx, ∀ v ∈ (S.view x hx).votes r, r ≤ 2 ∧ v.decision = fastVote b r := by
  induction r with
  | zero =>
    intro x hx v hv
    refine ⟨Nat.zero_le 2, ?_⟩
    rw [PrimaryVote.decision_of_voteType ((S.view x hx).initial v hv), h.value x hx v hv]
    rfl
  | succ r ih =>
    intro x hx v hv
    -- the vote is its signer's own, which has gone on from a vote that is no `Decide`
    have hcorrect := h.signer x hx (r + 1) v hv
    obtain ⟨W, hW, hquorum, hrule, w, hw, -, hwtype⟩ := (S.view v.signer hcorrect).own r v
      (S.authentic x hx v.signer hcorrect (r + 1) v hv rfl) rfl
    have hall : ∀ u ∈ W, r ≤ 2 ∧ u.decision = fastVote b r := fun u hu =>
      ih v.signer hcorrect u (hW hu)
    have hrunning : ∀ ty, ty ≠ VoteType.decide → (∀ u ∈ W, u.decision = ⟨b, ty⟩) →
        (Tally.fromVotes W).running = Tally.fromVotes W := by
      intro ty hty hkind
      exact Tally.running_eq_self_iff.mpr (counter_eq_zero (fun u hu hutype =>
        hty ((congrArg Decision.voteType (hkind u hu)).symm.trans hutype)) .zero)
    match r with
    | 0 =>
      have hkind : ∀ u ∈ W, u.decision = ⟨b, .initialVote⟩ := fun u hu => (hall u hu).2
      rw [hrunning _ VoteType.noConfusion hkind,
        decisionRule_of_initialVotes hquorum hkind] at hrule
      exact ⟨Nat.le_succ 1, hrule.symm⟩
    | 1 =>
      have hkind : ∀ u ∈ W, u.decision = ⟨b, .commit⟩ := fun u hu => (hall u hu).2
      rw [hrunning _ VoteType.noConfusion hkind, decisionRule_of_quorum hquorum fun u hu =>
        ⟨congrArg Decision.value (hkind u hu), fun htype => VoteType.noConfusion
          (htype.symm.trans (congrArg Decision.voteType (hkind u hu)))⟩] at hrule
      exact ⟨le_rfl, hrule.symm⟩
    | r + 2 => exact absurd (congrArg Decision.voteType (hall w hw).2) hwtype

end Views

namespace System

variable {allowed : System → PublicKey → PrimaryVote → Prop}
  {addresses : PublicKey → List (PublicKey × SocketAddr)} {s : System}

section Silent

variable (hdigest : Function.Injective P.sha512)
  (hallowed : ∀ s x v, allowed s x v → s.Sent C.correct v)
  (hreach : (network P C.correct allowed).Reachable (start addresses) s)
  {h : BlockHash} {b : Value}
  (hstart : ∀ z ∈ C.correct, ∀ w ∈ (s.nodes z).casts, w.electionHash = h → w.round = 0 →
    w.value = b)

theorem byzantine_of_sent {v : PrimaryVote} (hv : s.Sent C.correct v) : s.Byzantine C v :=
  ⟨C.subset hv.1, fun _ => hv.2⟩

include hdigest hallowed hreach

/-- Where only the votes of correct nodes are delivered, only these are stored. -/
theorem sent_of_stored : ∀ x h r, ∀ v ∈ (s.nodes x).votes h r, s.Sent C.correct v := by
  refine invariant_votes hdigest (fun _ t _ hr hv => ⟨hv.1, hv.2.next hdigest hr t⟩)
    (fun s x v hr hx hv => ?_) (fun s x v _ hok => hallowed s x v hok) hreach
  obtain ⟨hsigner, hbroadcast⟩ := broadcast_of_mem_casts hdigest hr hv
  exact ⟨by rw [hsigner]; exact hx, hbroadcast⟩

include hstart

/-- What the nodes hold of the election. -/
theorem decision_of_mem_votes {x : PublicKey} (hx : x ∈ C.correct) {r : Round}
    {v : PrimaryVote} (hv : v ∈ (s.nodes x).votes h r) :
    r ≤ 2 ∧ v.decision = fastVote b r := by
  have hunanimous : (views hdigest (fun s x v hok => byzantine_of_sent (hallowed s x v hok))
      hreach h).Unanimous b := by
    refine ⟨fun x _ r v hv => (sent_of_stored hdigest hallowed hreach x h r v hv).1,
      fun x _ v hv => ?_⟩
    obtain ⟨hsigner, hbroadcast⟩ := sent_of_stored hdigest hallowed hreach x h 0 v hv
    obtain ⟨hround, hh⟩ := (sound_node hdigest hreach x).place_of_mem_votes hv
    exact hstart v.signer hsigner v hbroadcast hh hround
  exact hunanimous.decision_eq r x hx v hv

theorem fast_of_mem_casts {x : PublicKey} (hx : x ∈ C.correct) {v : PrimaryVote}
    (hv : v ∈ (s.nodes x).casts) (hh : v.electionHash = h) :
    v.round ≤ 2 ∧ v.decision = fastVote b v.round := by
  have hstored := (sound_node hdigest hreach x).stored v hv
  rw [hh] at hstored
  exact decision_of_mem_votes hdigest hallowed hreach hstart hx (Core.mem_votes.mpr ⟨_, hstored⟩)

/-- There is nothing to miscount. -/
theorem exact_of_unanimous {x : PublicKey} (hx : x ∈ C.correct) :
    Core.Exact P (s.nodes x) h := by
  intro v hv hh r hround p _
  have hle := (fast_of_mem_casts hdigest hallowed hreach hstart hx hv hh).1
  have hnone : ∀ w ∈ (s.nodes x).named h r p, w.voteType ≠ .decide := by
    intro w hw htype
    obtain ⟨-, hd⟩ := decision_of_mem_votes hdigest hallowed hreach hstart hx
      (Core.named_subset_votes _ h r p hw)
    have hwtype := congrArg Decision.voteType hd
    rcases r with _ | _ | r
    · exact VoteType.noConfusion (hwtype.symm.trans htype)
    · exact VoteType.noConfusion (hwtype.symm.trans htype)
    · have hlast : r + 3 ≤ 2 := hround ▸ hle
      omega
  exact not_miscounted_of_zeroDecides (counter_eq_zero hnone .zero)

end Silent

/-- A vote of a correct node, delivered after the receiver has stored the votes it names. -/
def Prompt (H : Finset PublicKey) (s : System) (x : PublicKey) (v : PrimaryVote) : Prop :=
  s.Sent H v ∧ v.round < u32Max ∧ s.Shares x v

instance (H : Finset PublicKey) (s : System) (x : PublicKey) (v : PrimaryVote) :
    Decidable (Prompt H s x v) :=
  inferInstanceAs (Decidable (_ ∧ _ ∧ _))

/-- Prompt runs are orderly. -/
theorem orderly_of_prompt (hdigest : Function.Injective P.sha512)
    (hreach : (network P C.correct (Prompt C.correct)).Reachable (start addresses) s) :
    (network P C.correct (Orderly P C)).Reachable (start addresses) s := by
  refine reachable_of_allowed subset_rfl (fun s x v hr _ hok => ?_) hreach
  obtain ⟨hsent, hmax, hshares⟩ := hok
  exact ⟨byzantine_of_sent hsent, hmax, fun _ => hshares,
    (sound_node hdigest hr v.signer).carriesQuorum hsent.2⟩

/-- **A unanimous election takes three rounds.**  In every run in which the faulty members are
silent: if all the votes that correct nodes cast in round 0 of an election are for one value, then
what they ever cast for it are initial votes in round 0, `Commit`s in round 1 and `Decide`s in
round 2, all for that value. -/
theorem decision_of_unanimous (hdigest : Function.Injective P.sha512)
    (hreach : (network P C.correct fun s _ v => s.Sent C.correct v).Reachable
      (start addresses) s) {h : BlockHash} {b : Value}
    (hstart : ∀ z ∈ C.correct, ∀ w ∈ (s.nodes z).casts, w.electionHash = h → w.round = 0 →
      w.value = b) {x : PublicKey} (hx : x ∈ C.correct) {v : PrimaryVote}
    (hv : v ∈ (s.nodes x).casts) (hh : v.electionHash = h) :
    v.round ≤ 2 ∧ v.decision = fastVote b v.round :=
  fast_of_mem_casts hdigest (fun _ _ _ hok => hok) hreach hstart hx hv hh

/-- Three authorities start with `Zero`, and the fourth is silent. -/
def threesome : List Turn :=
  [begin 1 false, begin 2 false, begin 3 false] ++
    [firstBallot 1 .zero, firstBallot 2 .zero, firstBallot 3 .zero,
      ballot 1 1 .zero .commit [1, 2, 3], ballot 2 1 .zero .commit [1, 2, 3],
      ballot 3 1 .zero .commit [1, 2, 3], ballot 1 2 .zero .decide [1, 2, 3],
      ballot 2 2 .zero .decide [1, 2, 3], ballot 3 2 .zero .decide [1, 2, 3]].flatMap
        (among [1, 2, 3])

def swift : System :=
  (network Params.source trio.correct (Prompt trio.correct)).run (start fun _ => []) threesome

theorem reachable_swift :
    (network Params.source trio.correct (Prompt trio.correct)).Reachable (start fun _ => [])
      swift :=
  GuardedMachine.reachable_run threesome (by decide +kernel)

theorem swift_spec :
    swift.Quiescent trio.correct ∧ block ∈ (swift.nodes (authority 1)).elections ∧
      (∀ z ∈ trio.correct, ∀ w ∈ (swift.nodes z).casts, w.electionHash = block →
        w.round = 0 → w.value = .zero) ∧
      ballot 3 2 .zero .decide [1, 2, 3] ∈ (swift.nodes (authority 3)).casts := by
  decide +kernel

attribute [local irreducible] swift

theorem decision_of_unanimous_swift :
    ballot 3 2 .zero .decide [1, 2, 3] ∈ (swift.nodes (authority 3)).casts ∧
      (2 ≤ 2 ∧ (ballot 3 2 .zero .decide [1, 2, 3]).decision = fastVote .zero 2) :=
  ⟨swift_spec.2.2.2, decision_of_unanimous (C := trio) Params.source_injective
    (reachable_of_allowed subset_rfl (fun _ _ _ _ _ hok => hok.1) reachable_swift)
    swift_spec.2.2.1 (x := authority 3) (by decide +kernel) swift_spec.2.2.2 rfl⟩

/-- **After a unanimous start everybody decides.**  In every prompt run with silent faults, once
nothing is in flight: an election that some correct node has started, and in which all the votes
of round 0 are for one value, all of them have decided for it. -/
theorem decided_of_unanimous (hdigest : Function.Injective P.sha512)
    (hreach : (network P C.correct (Prompt C.correct)).Reachable (start addresses) s)
    (hquiet : s.Quiescent C.correct) {h : BlockHash} {b : Value}
    (hstart : ∀ z ∈ C.correct, ∀ w ∈ (s.nodes z).casts, w.electionHash = h → w.round = 0 →
      w.value = b) {x z : PublicKey} (hx : x ∈ C.correct) (hz : z ∈ C.correct)
    (hknown : h ∈ (s.nodes x).elections) : (s.nodes z).decided.lookup h = some b := by
  have horderly := orderly_of_prompt hdigest hreach
  have hexact : ∀ y ∈ C.correct, Core.Exact P (s.nodes y) h := fun y hy =>
    exact_of_unanimous hdigest (fun _ _ _ hok => hok.1) hreach hstart hy
  have hfast : ∀ y ∈ C.correct, ∀ v ∈ (s.nodes y).casts, v.electionHash = h →
      v.round ≤ 2 ∧ v.decision = fastVote b v.round := fun y hy v hv hh =>
    fast_of_mem_casts hdigest (fun _ _ _ hok => hok.1) hreach hstart hy hv hh
  have hsome : ∃ y ∈ C.correct, ∃ a, (s.nodes y).decided.lookup h = some a := by
    by_contra hnone
    -- otherwise everybody would have voted in round 3
    have hall := own_of_le hdigest horderly hquiet hexact hx hknown (n := 3)
      fun y hy v hv hh htype => absurd ⟨y, hy, v.value,
        ((sound_node hdigest hreach y).decided h v.value).mpr ⟨v, hv, hh, htype, rfl⟩⟩ hnone
    obtain ⟨w, hw, hh, hround⟩ :=
      exists_cast_of_own hdigest (quorate_of_orderly horderly) hx (hall 3 le_rfl x hx)
    have hle := (hfast x hx w hw hh).1
    rw [hround] at hle
    exact absurd hle (by decide)
  obtain ⟨y, hy, a, ha⟩ := hsome
  have hdecided := decided_of_decided hdigest horderly hquiet hexact hy hz ha
  obtain ⟨v, hv, -, hh, -, hvalue⟩ := exists_decide_of_decided hdigest horderly hdecided
  have hb : v.value = b := by
    rw [show v.value = v.decision.value from rfl, (hfast z hz v hv hh).2]
    rcases v.round with _ | _ | r <;> rfl
  rw [hdecided, ← hvalue, hb]

theorem decided_of_unanimous_swift :
    (swift.nodes (authority 3)).decided.lookup block = some .zero :=
  decided_of_unanimous (C := trio) Params.source_injective reachable_swift swift_spec.1
    swift_spec.2.2.1 (x := authority 1) (z := authority 3) (by decide +kernel)
    (by decide +kernel) swift_spec.2.1

end System
end NeroConsensus
