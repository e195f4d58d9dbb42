import NeroConsensus.Foundations.Committee
import NeroConsensus.Primary.OwnVotes

/-!
# The pace of a node

When does a node vote?  Its code has no rule about the order of rounds: it votes in
round `r + 1` as soon as it handles a vote of round `r` that leaves it with a quorum
there, wherever it stands otherwise.  That it nevertheless votes in one round after the
other is a fact about the votes it is given.

`Credible` is what a node may take for granted about a vote if at most `f` of its
`3 * f + 1` peers are faulty: the signer is a member, a correct signer names a quorum,
and nobody else signs with the node's own key.  `Paced` is what follows for a node fed
with credible votes (`step_paced`).

* `started`: an election it knows has its vote of round 0.
* `advanced`: as long as it has not decided, a quorum in a round has made it vote in the
  next.
* `continued`: a vote it has cast rests, among others, on its own vote of the round
  before, and that vote is not a `Decide`.

The invariant speaks of the node between turns, and not of its moves: in the middle of
a turn a quorum is complete and the vote it calls for is not cast yet.  That is the one
exception `Midway` makes; the vote of the next round closes it (`Midway.castNext`).
-/

namespace NeroConsensus
namespace Core

variable {P : Params} {C : Committee PublicKey P.numberOfByzantineNodes}

/-! ## Credible votes -/

/-- A vote as it may reach a node of a committee with few faults. -/
structure Credible (P : Params) (C : Committee PublicKey P.numberOfByzantineNodes) (c : Core)
    (v : PrimaryVote) : Prop where
  member : v.signer ∈ C.members
  quorum : v.signer ∈ C.correct → ∀ r, v.round = r + 1 →
    ∃ p, v.proof = some p ∧ P.quorum ≤ p.card
  own : v.signer = c.id → v ∈ c.casts

/-- All the stored votes are credible. -/
def Attributed (P : Params) (C : Committee PublicKey P.numberOfByzantineNodes) (c : Core) :
    Prop :=
  ∀ h r, ∀ v ∈ c.votes h r, Credible P C c v

theorem Credible.extends {c c' : Core} {v : PrimaryVote} (h : Credible P C c v)
    (hext : Extends c c') : Credible P C c' v where
  member := h.member
  quorum := h.quorum
  own hown := hext.mem_casts (h.own (hown.trans hext.id))

/-- A node's own votes are credible. -/
theorem Sound.credible {c : Core} (hs : Sound P c) (hid : c.id ∈ C.correct) {v : PrimaryVote}
    (hv : v ∈ c.casts) : Credible P C c v where
  member := by
    rw [hs.own v hv]
    exact C.subset hid
  quorum _ r hr := by
    obtain ⟨p, hp⟩ := hs.casts v hv r hr
    exact ⟨p, hp.proof, hp.quorum⟩
  own _ := hv

theorem Attributed.of_extends {c c' : Core} (ha : Attributed P C c) (hs' : Sound P c')
    (hid : c'.id ∈ C.correct) (hext : Extends c c')
    (hvotes : ∀ h r, ∀ v ∈ c'.votes h r, v ∈ c.votes h r ∨ v ∈ c'.casts ∨ Credible P C c v) :
    Attributed P C c' := by
  intro h r v hv
  rcases hvotes h r v hv with hold | hcast | hcred
  · exact (ha h r v hold).extends hext
  · exact hs'.credible hid hcast
  · exact hcred.extends hext

section Attributed

variable {c : Core} (hs : Sound P c) (ha : Attributed P C c)

include hs ha

/-- The votes of a round are a box of ballots. -/
theorem Attributed.ballots (h : BlockHash) (r : Round) :
    C.Ballots PrimaryVote.signer (c.votes h r) :=
  ⟨fun v hv => (ha h r v hv).member, fun _ hv _ hw => hs.toFiled.signer_injective hv hw⟩

/-- A quorum includes a vote of a correct node. -/
theorem Attributed.exists_correct {h : BlockHash} {r : Round}
    (hquorum : P.quorum ≤ (c.keys h r).card) : ∃ v ∈ c.votes h r, v.signer ∈ C.correct := by
  refine (ha.ballots hs h r).exists_correct ?_
  rw [hs.card_votes]
  rw [Params.quorum] at hquorum
  omega

/-- Where nobody correct has voted there are few votes. -/
theorem Attributed.card_keys_le {h : BlockHash} {r : Round}
    (hnone : ∀ v ∈ c.votes h r, v.signer ∉ C.correct) :
    (c.keys h r).card ≤ P.numberOfByzantineNodes := by
  rw [← hs.card_votes]
  exact (ha.ballots hs h r).card_le_of_faulty hnone

/-- A vote stored under the node's own key is one it has cast. -/
theorem Attributed.mem_casts_of_own {h : BlockHash} {r : Round} {w : PrimaryVote}
    (hw : c.validated h r (c.id.voteHash P) = some w)
    (hdigest : Function.Injective P.sha512) : w ∈ c.casts ∧ w.electionHash = h ∧ w.round = r := by
  obtain ⟨hkey, hround, hh⟩ := hs.place h r _ w hw
  have hown : w.signer = c.id := PublicKey.voteHash_injective hdigest hkey
  exact ⟨(ha h r w (mem_votes.mpr ⟨_, hw⟩)).own hown, hh, hround⟩

/-- A node that has not decided has not voted `Decide`. -/
theorem Attributed.own_ne_decide (hdigest : Function.Injective P.sha512) {h : BlockHash}
    {r : Round} {w : PrimaryVote} (hw : c.validated h r (c.id.voteHash P) = some w)
    (hopen : (c.election h).isDecided = false) : w.voteType ≠ .decide := by
  intro htype
  obtain ⟨hcast, hh, -⟩ := ha.mem_casts_of_own hs hw hdigest
  rw [(hs.isDecided h).mpr ⟨w, hcast, hh, htype⟩] at hopen
  cases hopen

/-- A vote of a correct node in a round shows a quorum in the round before; so the node
has voted in the round itself. -/
theorem Attributed.own_of_correct {h : BlockHash} {r : Round}
    (hadvanced : P.quorum ≤ (c.keys h r).card → c.id.voteHash P ∈ c.keys h (r + 1))
    {v : PrimaryVote} (hv : v ∈ c.votes h (r + 1)) (hcorrect : v.signer ∈ C.correct) :
    c.id.voteHash P ∈ c.keys h (r + 1) := by
  rcases hs.votes h r v hv with hcast | ⟨p, hp⟩
  · rw [← hs.own v hcast, ← PrimaryVote.voteHash_eq]
    exact mem_keys_iff.mpr ⟨v, hs.mem_votes_iff.mp hv⟩
  · obtain ⟨hround, hh⟩ := hs.place_of_mem_votes hv
    obtain ⟨q, hq, hquorum⟩ := (ha h (r + 1) v hv).quorum hcorrect r hround
    have hqp : q = p := Option.some.inj (hq.symm.trans hp.proof)
    have hstored := hp.stored
    rw [hh] at hstored
    rw [hqp] at hquorum
    exact hadvanced (hquorum.trans (Finset.card_le_card hstored))

end Attributed

/-! ## The pace -/

/-- What a node has done between two turns. -/
structure Paced (P : Params) (c : Core) : Prop where
  started : ∀ h, h ∈ c.elections → c.id.voteHash P ∈ c.keys h 0
  advanced : ∀ h r, (c.election h).isDecided = false → P.quorum ≤ (c.keys h r).card →
    c.id.voteHash P ∈ c.keys h (r + 1)
  continued : ∀ v ∈ c.casts, ∀ r, v.round = r + 1 → ∃ p w, v.proof = some p ∧
    c.id.voteHash P ∈ p ∧ c.validated v.electionHash r (c.id.voteHash P) = some w ∧
    w.voteType ≠ .decide

/-- What a node has done in the middle of a turn, with a vote of round `r` handled and the
vote of the next round not yet cast. -/
structure Midway (P : Params) (c : Core) (h : BlockHash) (r : Round) : Prop where
  started : ∀ h', h' ∈ c.elections → c.id.voteHash P ∈ c.keys h' 0
  advanced : ∀ h' r', ¬(h' = h ∧ r' = r) → (c.election h').isDecided = false →
    P.quorum ≤ (c.keys h' r').card → c.id.voteHash P ∈ c.keys h' (r' + 1)
  continued : ∀ v ∈ c.casts, ∀ r', v.round = r' + 1 → ∃ p w, v.proof = some p ∧
    c.id.voteHash P ∈ p ∧ c.validated v.electionHash r' (c.id.voteHash P) = some w ∧
    w.voteType ≠ .decide

theorem paced_spawn (id : PublicKey) (addresses : List (PublicKey × SocketAddr)) :
    Paced P (spawn id addresses false) where
  started h hh := absurd hh Finmap.notMem_empty
  advanced h r _ hquorum := by
    rw [keys, roundState_spawn] at hquorum
    exact absurd (P.quorum_pos.trans_le hquorum) (Nat.lt_irrefl 0)
  continued v hv := by cases hv

section Turn

variable {c c' : Core} {v : PrimaryVote} {draws : Draws}

/-- Until the vote of the next round, a turn changes one round. -/
theorem keys_castFirst_of_ne {h h' : BlockHash} {r' : Round} {draw : Bool}
    (hne : ¬(h' = h ∧ r' = 0)) : (c.castFirst P draw h).keys h' r' = c.keys h' r' := by
  unfold castFirst
  split_ifs
  · rw [(recorded_cast c _).keys]
    exact if_neg hne
  · rfl

theorem keys_afterReceipt_of_ne {h' : BlockHash} {r' : Round}
    (hne : ¬(h' = v.electionHash ∧ r' = v.round)) :
    (c.afterReceipt P draws v).keys h' r' = c.keys h' r' := by
  by_cases hround : v.round = 0
  · rw [afterReceipt_of_eq hround]
    rw [hround] at hne
    rw [keys_castFirst_of_ne hne, (recorded_record (c.relay v) v).keys, hround, if_neg hne]
    rfl
  · rw [afterReceipt_of_ne hround, (recorded_record (c.relay v) v).keys, if_neg hne]
    rfl

/-- The node has its own vote in round 0 of the elections it has opened. -/
theorem Opened.own_mem_keys (ho : Opened c) (hf : Filed P c) {h : BlockHash}
    (hh : h ∈ c.elections) : c.id.voteHash P ∈ c.keys h 0 :=
  (hf.voted h 0).mp (ho h hh)

theorem Paced.opened (hp : Paced P c) (hf : Filed P c) : Opened c :=
  fun h hh => (hf.voted h 0).mpr (hp.started h hh)

/-- A cast vote goes on resting on the node's own vote. -/
theorem Paced.continued_extends (hp : Paced P c) (hext : Extends c c') {w : PrimaryVote}
    (hw : w ∈ c.casts) {r : Round} (hr : w.round = r + 1) :
    ∃ p u, w.proof = some p ∧ c'.id.voteHash P ∈ p ∧
      c'.validated w.electionHash r (c'.id.voteHash P) = some u ∧ u.voteType ≠ .decide := by
  obtain ⟨p, u, hproof, hmem, hu, htype⟩ := hp.continued w hw r hr
  rw [hext.id]
  exact ⟨p, u, hproof, hmem, hext.validated _ _ _ _ hu, htype⟩

/-- A first vote, cast on a transaction, comes into an election that is new. -/
theorem Paced.castFirst (hdigest : Function.Injective P.sha512) (hs : Sound P c)
    (hpos : 0 < P.numberOfByzantineNodes) (hp : Paced P c) (h : BlockHash) (draw : Bool) :
    Paced P (c.castFirst P draw h) := by
  obtain ⟨hs', hext⟩ := sound_extends_of_moves hdigest (moves_castFirst c h draw) hs
  refine ⟨fun h' hh' => ?_, fun h' r hopen hquorum => ?_, fun w hw r hr => ?_⟩
  · exact ((hp.opened hs.toFiled).castFirst h draw).own_mem_keys hs'.toFiled hh'
  · rw [isDecided_castFirst] at hopen
    rw [hext.id]
    by_cases hsame : h' = h ∧ r = 0
    · obtain ⟨rfl, rfl⟩ := hsame
      by_cases hvoted : (c.roundState h' 0).voted = false
      · -- the node has not voted, so it does not know the election
        have hnew : h' ∉ c.elections := fun hmem =>
          hs.voted_eq_false.mp hvoted (hp.started h' hmem)
        have hempty : c.keys h' 0 = ∅ :=
          Finset.eq_empty_of_forall_notMem fun k hk =>
            hnew (mem_elections_of_mem_state (mem_state_of_mem_keys hk))
        have hkeys := (recorded_cast (P := P) c (PrimaryVote.random c.id h' draw)).keys h' 0
        rw [if_pos ⟨rfl, rfl⟩, hempty, insert_empty_eq] at hkeys
        rw [Core.castFirst, if_pos hvoted, hkeys, Finset.card_singleton, Params.quorum]
          at hquorum
        omega
      · have hid : c.castFirst P draw h' = c := by
          rw [Core.castFirst, if_neg hvoted]
        rw [hid] at hquorum
        exact hext.keys _ _ (hp.advanced h' 0 hopen hquorum)
    · rw [keys_castFirst_of_ne hsame] at hquorum
      exact hext.keys _ _ (hp.advanced h' r hopen hquorum)
  · rcases mem_casts_castFirst hw with hold | hzero
    · exact hp.continued_extends hext hold hr
    · rw [hzero] at hr
      exact absurd hr (Nat.succ_ne_zero r).symm

section Vote

variable (hdigest : Function.Injective P.sha512) (hs : Sound P c) (hp : Paced P c)
  (hnew : v.voteHash P ∉ c.keys v.electionHash v.round)
  (hverdict : c.validateVote P draws.validate v = some .valid)

include hdigest hs hp hnew hverdict

/-- **A receipt leaves one round open**, the round of the vote. -/
theorem Paced.afterReceipt :
    Midway P (c.afterReceipt P draws v) v.electionHash v.round := by
  obtain ⟨hs', hext⟩ :=
    sound_extends_of_moves hdigest (moves_afterReceipt draws hnew hverdict) hs
  refine ⟨fun h hh => ?_, fun h r hne hopen hquorum => ?_, fun w hw r hr => ?_⟩
  · exact ((hp.opened hs.toFiled).afterReceipt hnew hverdict).own_mem_keys hs'.toFiled hh
  · rw [isDecided_afterReceipt] at hopen
    rw [keys_afterReceipt_of_ne hne] at hquorum
    rw [hext.id]
    exact hext.keys _ _ (hp.advanced h r hopen hquorum)
  · rcases mem_casts_afterReceipt hw with hold | hzero
    · exact hp.continued_extends hext hold hr
    · rw [hzero] at hr
      exact absurd hr (Nat.succ_ne_zero r).symm

/-- **A node that is ready to cast has itself voted in the round it is about to count.** -/
theorem own_mem_keys_of_ready (ha : Attributed P C (c.afterReceipt P draws v))
    (hready : (c.afterReceipt P draws v).Ready P v.electionHash v.round) :
    (c.afterReceipt P draws v).id.voteHash P ∈
      (c.afterReceipt P draws v).keys v.electionHash v.round := by
  obtain ⟨hsmid, hextmid⟩ :=
    sound_extends_of_moves hdigest (moves_afterReceipt draws hnew hverdict) hs
  have hmid := hp.afterReceipt hdigest hs hnew hverdict
  have hquorum := hready.1
  have hopen := hready.2.2
  cases hround : v.round with
  | zero => exact hmid.started _ (mem_elections_of_ready hready)
  | succ r =>
    rw [hround] at hquorum
    obtain ⟨u, hu, hcorrect⟩ := ha.exists_correct hsmid hquorum
    refine ha.own_of_correct hsmid (hmid.advanced _ r (fun hc => ?_) hopen) hu hcorrect
    rw [hround] at hc
    exact Nat.succ_ne_self r hc.2.symm

/-- A node that is ready to cast has few votes in the round it casts in. -/
theorem card_keys_of_ready (ha : Attributed P C c)
    (hready : (c.afterReceipt P draws v).Ready P v.electionHash v.round) :
    ((c.afterReceipt P draws v).keys v.electionHash (v.round + 1)).card ≤
      P.numberOfByzantineNodes := by
  obtain ⟨hsmid, hextmid⟩ :=
    sound_extends_of_moves hdigest (moves_afterReceipt draws hnew hverdict) hs
  obtain ⟨-, hvoted, hopen⟩ := hready
  rw [isDecided_afterReceipt] at hopen
  have hkeys : (c.afterReceipt P draws v).keys v.electionHash (v.round + 1) =
      c.keys v.electionHash (v.round + 1) :=
    keys_afterReceipt_of_ne fun hc => Nat.succ_ne_self _ hc.2
  have hnot := hsmid.voted_eq_false.mp hvoted
  rw [hkeys, hextmid.id] at hnot
  rw [hkeys]
  refine ha.card_keys_le hs fun u hu hcorrect => hnot ?_
  exact ha.own_of_correct hs (hp.advanced v.electionHash v.round hopen) hu hcorrect

end Vote

/-! ## The end of a turn -/

section Midway

variable {h : BlockHash} {r : Round} (hs : Sound P c) (hm : Midway P c h r)

include hs hm

/-- A node that is not ready has nothing left to do. -/
theorem Midway.paced_of_not_ready (hnot : ¬c.Ready P h r) : Paced P c := by
  refine ⟨hm.started, fun h' r' hopen hquorum => ?_, hm.continued⟩
  by_cases hsame : h' = h ∧ r' = r
  · -- not ready, with a quorum and no decision: the node has voted
    obtain ⟨rfl, rfl⟩ := hsame
    rw [← hs.voted]
    by_contra hfalse
    exact hnot ⟨hquorum, Bool.eq_false_of_not_eq_true hfalse, hopen⟩
  · exact hm.advanced h' r' hsame hopen hquorum

variable (hext : Extends c c') (hrec : Recorded P c c' v) (hsigner : v.signer = c.id)
  (hh : v.electionHash = h) (hround : v.round = r + 1)

include hext hrec hsigner hh hround

omit hs in
/-- The vote of the next round closes the open round.  It opens no other: it does not
complete a quorum. -/
theorem Midway.advanced_cast (hpos : 0 < P.numberOfByzantineNodes)
    (hfew : (c.keys h (r + 1)).card ≤ P.numberOfByzantineNodes) {h' : BlockHash} {r' : Round}
    (hopen : (c.election h').isDecided = false) (hquorum : P.quorum ≤ (c'.keys h' r').card) :
    c'.id.voteHash P ∈ c'.keys h' (r' + 1) := by
  have hkey : v.voteHash P = c.id.voteHash P := by
    rw [PrimaryVote.voteHash_eq, hsigner]
  rw [hext.id]
  by_cases hsame : h' = h ∧ r' = r
  · rw [hrec.keys, hh, hround, hkey, if_pos ⟨hsame.1, by rw [hsame.2]⟩]
    exact Finset.mem_insert_self _ _
  · have hkeys := hrec.keys h' r'
    rw [hh, hround, hkey] at hkeys
    by_cases hnext : h' = h ∧ r' = r + 1
    · have hinsert := Finset.card_insert_le (c.id.voteHash P) (c.keys h' r')
      rw [if_pos hnext] at hkeys
      rw [hkeys, Params.quorum] at hquorum
      rw [← hnext.1, ← hnext.2] at hfew
      omega
    · rw [if_neg hnext] at hkeys
      rw [hkeys] at hquorum
      exact hext.keys _ _ (hm.advanced h' r' hsame hopen hquorum)

omit hrec in
/-- The vote of the next round rests on the own vote of the round before. -/
theorem Midway.continued_cast (hdigest : Function.Injective P.sha512) (ha : Attributed P C c)
    (hself : c.id.voteHash P ∈ c.keys h r) (hopen : (c.election h).isDecided = false)
    (hproof : v.proof = some (c.keys h r)) {w : PrimaryVote} (hw : w ∈ c.casts ∨ w = v)
    {r' : Round} (hr : w.round = r' + 1) : ∃ p u, w.proof = some p ∧ c'.id.voteHash P ∈ p ∧
      c'.validated w.electionHash r' (c'.id.voteHash P) = some u ∧ u.voteType ≠ .decide := by
  rw [hext.id]
  rcases hw with hw | rfl
  · obtain ⟨p, u, hp, hmem, hu, htype⟩ := hm.continued w hw r' hr
    exact ⟨p, u, hp, hmem, hext.validated _ _ _ _ hu, htype⟩
  · have hrr : r = r' := Nat.succ_injective (hround.symm.trans hr)
    subst hrr
    obtain ⟨u, hu⟩ := mem_keys_iff.mp hself
    rw [hh]
    exact ⟨_, u, hproof, hself, hext.validated _ _ _ _ hu,
      ha.own_ne_decide hs hdigest hu hopen⟩

end Midway

/-- **A node that casts the vote of the next round keeps its pace.** -/
theorem Midway.castNext (hdigest : Function.Injective P.sha512) {h : BlockHash} {r : Round}
    {draw : Bool × Bool} (hs : Sound P c) (hm : Midway P c h r) (ha : Attributed P C c)
    (hready : c.Ready P h r) (hmax : r < u32Max) (hself : c.id.voteHash P ∈ c.keys h r)
    (hfew : (c.keys h (r + 1)).card ≤ P.numberOfByzantineNodes) :
    Paced P ((c.cast P (c.nextVote P draw h r)).conclude (c.nextVote P draw h r)) := by
  obtain ⟨hs', hext⟩ :=
    (Move.castNext c h r draw hready hmax).wellFormed_extends hdigest hs.toWellFormed
  have hrec := recorded_conclude (P := P) c (c.nextVote P draw h r)
  have hopened : Opened c := fun h hh => (hs.voted h 0).mpr (hm.started h hh)
  refine ⟨fun h' hh' => ?_, fun h' r' hopen hquorum => ?_, fun w hw r' hr => ?_⟩
  · exact (hopened.castNext draw hready hmax).own_mem_keys hs'.toFiled hh'
  · refine hm.advanced_cast hext hrec rfl rfl rfl C.pos hfew ?_ hquorum
    refine Bool.eq_false_of_not_eq_true fun hdec => ?_
    rw [(isDecided_conclude _ _ _).mpr (Or.inl (by rw [isDecided_cast]; exact hdec))] at hopen
    cases hopen
  · rw [casts_conclude, mem_casts_cast] at hw
    exact hm.continued_cast hs hext rfl rfl rfl hdigest ha hself hready.2.2 rfl hw hr

/-- A receipt of a credible vote leaves the stored votes credible. -/
theorem Attributed.afterReceipt (hdigest : Function.Injective P.sha512)
    (hid : c.id ∈ C.correct) (hs : Sound P c) (ha : Attributed P C c)
    (hnew : v.voteHash P ∉ c.keys v.electionHash v.round)
    (hverdict : c.validateVote P draws.validate v = some .valid) (hcred : Credible P C c v) :
    Attributed P C (c.afterReceipt P draws v) := by
  obtain ⟨hsmid, hext⟩ :=
    sound_extends_of_moves hdigest (moves_afterReceipt draws hnew hverdict) hs
  refine ha.of_extends hsmid (by rw [hext.id]; exact hid) hext fun h r w hw => ?_
  rcases mem_votes_afterReceipt hw with hold | hcast | rfl
  · exact Or.inl hold
  · exact Or.inr (Or.inl hcast)
  · exact Or.inr (Or.inr hcred)

/-- **A call with a credible vote keeps the pace.** -/
theorem Paced.handleVote (hdigest : Function.Injective P.sha512) (hid : c.id ∈ C.correct)
    (hs : Sound P c) (ha : Attributed P C c) (hp : Paced P c) (hcred : Credible P C c v)
    (h : c.handleVote P draws v = some c') : Paced P c' := by
  rcases handleVote_outcomes hs.noPending h with rfl | ⟨hnew, hverdict, hmax, hcases⟩
  · exact ⟨hp.started, hp.advanced, hp.continued⟩
  · rcases hcases with ⟨hnot, rfl⟩ | ⟨hready, rfl⟩
    · exact (hp.afterReceipt hdigest hs hnew hverdict).paced_of_not_ready
        (sound_extends_of_moves hdigest (moves_afterReceipt draws hnew hverdict) hs).1 hnot
    · have hsmid := (sound_extends_of_moves hdigest (moves_afterReceipt draws hnew hverdict)
        hs).1
      have hamid := ha.afterReceipt hdigest hid hs hnew hverdict hcred
      exact (hp.afterReceipt hdigest hs hnew hverdict).castNext hdigest hsmid hamid hready hmax
        (own_mem_keys_of_ready hdigest hs hp hnew hverdict hamid hready)
        (card_keys_of_ready hdigest hs hp hnew hverdict ha hready)

/-- **A turn of a node that is fed with credible votes keeps the pace.** -/
theorem step_paced (hdigest : Function.Injective P.sha512) (hid : c.id ∈ C.correct)
    (hs : Sound P c) (ha : Attributed P C c) (hp : Paced P c) {event : Event}
    (hcred : ∀ v ∈ event.received, Credible P C c v) (hstep : c.step P event = some c') :
    Attributed P C c' ∧ Paced P c' := by
  obtain ⟨hs', hext⟩ := step_sound hdigest hstep hs
  refine ⟨ha.of_extends hs' (by rw [hext.id]; exact hid) hext fun h r w hw => ?_, ?_⟩
  · rcases mem_votes_step hs.noPending hstep hw with hold | hcast | ⟨draws, hevent, -, -⟩
    · exact Or.inl hold
    · exact Or.inr (Or.inl hcast)
    · exact Or.inr (Or.inr (hcred w (by rw [hevent]; rfl)))
  · cases event with
    | transaction tx draw =>
      rw [eq_castFirst_of_step hstep]
      exact hp.castFirst hdigest hs C.pos tx.digest draw
    | vote v draws => exact hp.handleVote hdigest hid hs ha (hcred v rfl) hstep

end Turn
end Core
end NeroConsensus
