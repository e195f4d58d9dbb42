import NeroConsensus.Primary.Backing
import NeroConsensus.Protocol.Agreement
import NeroConsensus.Protocol.Delivery

/-!
# When everybody decides

A node that has decided casts no more votes, so the others have to be through with what
it has sent.  This file is about quiet networks, in which the votes of the correct nodes
have all been handled by all of them.

An `Orderly` run is one in which the votes name a quorum (`Quorate`) and reach the correct
nodes in time.  If besides the correct nodes have counted all the votes their own votes
rest on (`Core.Exact`), every vote that one of them holds is the decision on a quorum it
holds (`exists_quorum`), and the following happens after the first round `R` with a
`Decide` (`decided_of_decided`).

* Nobody has left before round `R`, so all correct nodes have voted in it (`own_of_le`).
* There is a quorum of `Commit`s in round `R - 1`.  It meets every quorum of that round
  in a correct node, so every vote of round `R` is a `Commit` or a `Decide`
  (`commit_or_decide`).
* A quorum of these makes everybody decide, in round `R + 1` at the latest.

Two results come out of it.  A decision for `One` reaches everybody
(`decided_one_of_decided_one`): where there is one, there is no `Decide` for `Zero`, so
nothing is miscounted.  And a network without faults that does not miscast decides
(`decided_of_started`): as long as nobody has decided, everybody votes in every round.
-/

namespace NeroConsensus
namespace System

variable {P : Params} {C : Committee PublicKey P.numberOfByzantineNodes}
  {allowed : System → PublicKey → PrimaryVote → Prop}
  {addresses : PublicKey → List (PublicKey × SocketAddr)} {s : System}

/-- A vote that names a quorum, and is delivered in time if it is a correct node's. -/
def Orderly (P : Params) (C : Committee PublicKey P.numberOfByzantineNodes) (s : System)
    (x : PublicKey) (v : PrimaryVote) : Prop :=
  s.Byzantine C v ∧ v.round < u32Max ∧ (v.signer ∈ C.correct → s.Shares x v) ∧
    Core.CarriesQuorum P v

instance (C : Committee PublicKey P.numberOfByzantineNodes) (s : System) (x : PublicKey)
    (v : PrimaryVote) : Decidable (Orderly P C s x v) :=
  inferInstanceAs (Decidable (_ ∧ _ ∧ _ ∧ _))

/-- A vote that names a quorum, delivered at any time. -/
def Quorate (P : Params) (C : Committee PublicKey P.numberOfByzantineNodes) (s : System)
    (_ : PublicKey) (v : PrimaryVote) : Prop :=
  s.Byzantine C v ∧ Core.CarriesQuorum P v

instance (C : Committee PublicKey P.numberOfByzantineNodes) (s : System) (x : PublicKey)
    (v : PrimaryVote) : Decidable (Quorate P C s x v) :=
  inferInstanceAs (Decidable (_ ∧ _))

theorem quorate_of_orderly {t : System}
    (hreach : (network P C.correct (Orderly P C)).Reachable (start addresses) t) :
    (network P C.correct (Quorate P C)).Reachable (start addresses) t :=
  reachable_of_allowed subset_rfl (fun _ _ _ _ _ hok => ⟨hok.1, hok.2.2.2⟩) hreach

section Quorate

variable (hdigest : Function.Injective P.sha512)
  (hreach : (network P C.correct (Quorate P C)).Reachable (start addresses) s)

include hdigest hreach

/-- The stored votes name a quorum. -/
theorem carriesQuorum_of_mem_votes :
    ∀ x h r, ∀ v ∈ (s.nodes x).votes h r, Core.CarriesQuorum P v := by
  refine invariant_votes hdigest (Q := fun _ v => Core.CarriesQuorum P v)
    (fun _ _ _ _ hv => hv) (fun s x v hr _ hv => ?_) (fun _ _ _ _ hok => hok.2) hreach
  exact (sound_node hdigest hr x).carriesQuorum hv

/-- **Every stored vote is the decision on a quorum of stored votes.** -/
theorem exists_quorum {z : PublicKey} {h : BlockHash}
    (hexact : Core.Exact P (s.nodes z) h) {r : Round} {v : PrimaryVote}
    (hv : v ∈ (s.nodes z).votes h (r + 1)) :
    ∃ W ⊆ (s.nodes z).votes h r, P.quorum ≤ W.card ∧
      decisionRule P (Tally.fromVotes W) = v.decision := by
  have hs := sound_node hdigest hreach z
  obtain ⟨hround, hh⟩ := hs.place_of_mem_votes hv
  have hbacked : Core.Backed P (s.nodes z) h r v := by
    rw [Core.backed_iff hs hv]
    split_ifs with hcast
    · exact hexact v hcast hh r hround
    · refine carriesQuorum_of_mem_votes hdigest hreach z h (r + 1) v hv ?_
      rw [hround]
      exact Nat.succ_ne_zero r
  obtain ⟨p, -, hquorum, hstored, hdecision⟩ := hbacked
  refine ⟨(s.nodes z).named h r p, Core.named_subset_votes _ h r p, ?_, ?_⟩
  · rw [hs.card_named hstored]
    exact hquorum
  · rw [← hdecision (true, true), Core.makeDecision_of_honest hs.byzantine]

/-- The own vote of a node in a round, where there is one. -/
theorem exists_cast_of_own {z : PublicKey} (hz : z ∈ C.correct) {h : BlockHash} {r : Round}
    (hown : z.voteHash P ∈ (s.nodes z).keys h r) :
    ∃ w ∈ (s.nodes z).casts, w.electionHash = h ∧ w.round = r := by
  have hs := sound_node hdigest hreach z
  have ha := (paced_node hdigest (fun _ _ _ hok => hok.1) hreach hz).1
  obtain ⟨w, hw⟩ := Core.mem_keys_iff.mp hown
  have hw' : (s.nodes z).validated h r ((s.nodes z).id.voteHash P) = some w := by
    rw [id_node hdigest hreach]
    exact hw
  exact ⟨w, ha.mem_casts_of_own hs hw' hdigest⟩

theorem own_of_cast {z : PublicKey} {w : PrimaryVote} (hw : w ∈ (s.nodes z).casts) :
    z.voteHash P ∈ (s.nodes z).keys w.electionHash w.round := by
  have hstored := (sound_node hdigest hreach z).stored w hw
  rw [PrimaryVote.voteHash_eq, (broadcast_of_mem_casts hdigest hreach hw).1] at hstored
  exact Core.mem_keys_iff.mpr ⟨w, hstored⟩

/-- A node that has voted in a round has voted in all the rounds before. -/
theorem own_of_own_le {z : PublicKey} (hz : z ∈ C.correct) {h : BlockHash} {m n : ℕ}
    (hmn : m ≤ n) (hown : z.voteHash P ∈ (s.nodes z).keys h n) :
    z.voteHash P ∈ (s.nodes z).keys h m := by
  induction n, hmn using Nat.le_induction with
  | base => exact hown
  | succ n _ ih =>
    obtain ⟨w, hw, hh, hround⟩ := exists_cast_of_own hdigest hreach hz hown
    have hp := (paced_node hdigest (fun _ _ _ hok => hok.1) hreach hz).2
    obtain ⟨p, u, -, -, hu, -⟩ := hp.continued w hw n hround
    rw [hh, id_node hdigest hreach] at hu
    exact ih (Core.mem_keys_iff.mpr ⟨u, hu⟩)

/-- A correct node that knows the election has voted in it. -/
theorem own_of_known {z : PublicKey} {h : BlockHash} (hz : z ∈ C.correct)
    (hknown : h ∈ (s.nodes z).elections) : z.voteHash P ∈ (s.nodes z).keys h 0 := by
  have hown := (paced_node hdigest (fun _ _ _ hok => hok.1) hreach hz).2.started h hknown
  rw [id_node hdigest hreach] at hown
  exact hown

/-- A correct node that has a quorum and has not decided votes in the next round. -/
theorem own_succ {z : PublicKey} (hz : z ∈ C.correct) {h : BlockHash} {r : Round}
    (hopen : ((s.nodes z).election h).isDecided = false)
    (hquorum : P.quorum ≤ ((s.nodes z).keys h r).card) :
    z.voteHash P ∈ (s.nodes z).keys h (r + 1) := by
  have hown := (paced_node hdigest (fun _ _ _ hok => hok.1) hreach hz).2.advanced h r hopen
    hquorum
  rw [id_node hdigest hreach] at hown
  exact hown

/-- **The first `Decide`s** come a round after a quorum of `Commit`s for their value. -/
theorem exists_commits {h : BlockHash} (hexact : ∀ z ∈ C.correct, Core.Exact P (s.nodes z) h)
    {x : PublicKey} (hx : x ∈ C.correct) {n : ℕ} {d : PrimaryVote}
    (hd : d ∈ (s.nodes x).votes h n) (hdtype : d.voteType = .decide) :
    ∃ q, ∃ y ∈ C.correct,
      P.quorum ≤ (votesOf ((s.nodes y).votes h q) .commit d.value).card ∧
      ∀ z ∈ C.correct, ∀ r, ∀ v ∈ (s.nodes z).votes h r, v.voteType = .decide → q + 1 ≤ r := by
  classical
  have hex : ∃ r, ∃ y ∈ C.correct, ∃ v ∈ (s.nodes y).votes h r, v.voteType = .decide :=
    ⟨n, x, hx, d, hd, hdtype⟩
  obtain ⟨y, hy, v, hv, hvtype⟩ := Nat.find_spec hex
  have hfirst : ∀ z ∈ C.correct, ∀ r, ∀ v ∈ (s.nodes z).votes h r, v.voteType = .decide →
      Nat.find hex ≤ r := fun z hz r v hv htype => Nat.find_min' hex ⟨z, hz, v, hv, htype⟩
  have hvalue : v.value = d.value :=
    decide_eq hdigest (fun _ _ _ hok => hok.1) hreach hy hx hv hd hvtype hdtype
  cases hround : Nat.find hex with
  | zero =>
    rw [hround] at hv
    have hs := sound_node hdigest hreach y
    rw [hs.initial h _ v (hs.mem_votes_iff.mp hv)] at hvtype
    cases hvtype
  | succ q =>
    rw [hround] at hv hfirst
    obtain ⟨W, hW, -, hdecision⟩ := exists_quorum hdigest hreach (hexact y hy) hv
    rw [PrimaryVote.decision_of_voteType hvtype, hvalue] at hdecision
    refine ⟨q, y, hy, ?_, hfirst⟩
    rcases counter_pos_of_decide hdecision with hpos | hcommits
    · obtain ⟨w, hw, hwtype, -⟩ := exists_of_counter_pos hpos
      exact absurd (hfirst y hy q w (hW hw) hwtype) (Nat.not_succ_le_self q)
    · rw [Tally.counter_fromVotes] at hcommits
      exact hcommits.trans (Finset.card_le_card (votesOf_mono hW _ _))

/-- Next to a `Decide` for `One` there is none for `Zero`, and nothing to miscount. -/
theorem exact_of_decide_one {x z : PublicKey} (hx : x ∈ C.correct) (hz : z ∈ C.correct)
    {h : BlockHash} {n : Round} {d : PrimaryVote} (hd : d ∈ (s.nodes x).votes h n)
    (hdtype : d.voteType = .decide) (hdvalue : d.value = .one) :
    Core.Exact P (s.nodes z) h := by
  intro v _ _ r _ p _
  refine not_miscounted_of_zeroDecides ?_
  by_contra hne
  have hpos : 0 < (Tally.fromVotes ((s.nodes z).named h r p)).counter .decide .zero :=
    Nat.pos_of_ne_zero hne
  obtain ⟨w, hw, hwtype, hwvalue⟩ := exists_of_counter_pos hpos
  have heq := decide_eq hdigest (fun _ _ _ hok => hok.1) hreach hz hx
    (Core.named_subset_votes _ h r p hw) hd hwtype hdtype
  rw [hwvalue, hdvalue] at heq
  cases heq

/-- **A quorum of `Commit`s leaves no choice.**  Every vote of the next round that a
correct node holds is a `Commit` or a `Decide` for the same value. -/
theorem commit_or_decide {y z : PublicKey} (hy : y ∈ C.correct) (hz : z ∈ C.correct)
    {h : BlockHash} (hexact : Core.Exact P (s.nodes z) h) {q : ℕ} {b : Value}
    (hcommits : P.quorum ≤ (votesOf ((s.nodes y).votes h q) .commit b).card)
    {v : PrimaryVote} (hv : v ∈ (s.nodes z).votes h (q + 1)) :
    v.value = b ∧ v.voteType ≠ .initialVote := by
  obtain ⟨W, hW, hquorum, hdecision⟩ := exists_quorum hdigest hreach hexact hv
  obtain ⟨hvalue, htype⟩ := (views hdigest (fun _ _ _ hok => hok.1) hreach h).value_of_commits
    hy hz hcommits hW hquorum
  rw [PrimaryVote.value_of_decision hdecision, PrimaryVote.voteType_of_decision hdecision]
  exact ⟨hvalue, htype⟩

end Quorate

section Orderly

variable (hdigest : Function.Injective P.sha512)
  (hreach : (network P C.correct (Orderly P C)).Reachable (start addresses) s)
  {h : BlockHash} (hquiet : s.Quiescent C.correct)
  (hexact : ∀ z ∈ C.correct, Core.Exact P (s.nodes z) h)

include hdigest hreach hquiet hexact

/-- What a correct node has cast, every correct node has stored. -/
theorem mem_votes_of_cast {y z : PublicKey} (hy : y ∈ C.correct) (hz : z ∈ C.correct)
    {v : PrimaryVote} (hv : v ∈ (s.nodes y).casts) (hh : v.electionHash = h) :
    v ∈ (s.nodes z).votes h v.round := by
  obtain ⟨hsigner, -⟩ := broadcast_of_mem_casts hdigest hreach hv
  refine Core.mem_votes.mpr ⟨v.voteHash P, ?_⟩
  by_cases hyz : y = z
  · rw [← hyz, ← hh]
    exact (sound_node hdigest hreach y).stored v hv
  · refine validated_of_handled hdigest (D := C.correct)
      (fun _ _ _ hok => ⟨hok.1.2, hok.2.1, hok.2.2.1⟩) hreach hexact
      (hquiet y hy z hz hyz v hv) ?_ hh
    rw [hsigner]
    exact hy

/-- The own vote of a correct node is stored by every correct node. -/
theorem exists_mem_votes_of_own {y z : PublicKey} (hy : y ∈ C.correct) (hz : z ∈ C.correct)
    {r : Round} (hown : y.voteHash P ∈ (s.nodes y).keys h r) :
    ∃ w ∈ (s.nodes z).votes h r, w.signer = y := by
  obtain ⟨w, hw, hh, rfl⟩ := exists_cast_of_own hdigest (quorate_of_orderly hreach) hy hown
  exact ⟨w, mem_votes_of_cast hdigest hreach hquiet hexact hy hz hw hh,
    (broadcast_of_mem_casts hdigest hreach hw).1⟩

/-- Where all correct nodes have voted, all of them hold a quorum. -/
theorem quorum_of_own {r : Round}
    (hall : ∀ y ∈ C.correct, y.voteHash P ∈ (s.nodes y).keys h r) {z : PublicKey}
    (hz : z ∈ C.correct) : P.quorum ≤ ((s.nodes z).keys h r).card := by
  refine C.quorum_le_card_correct.trans
    (Finset.card_le_card_of_injOn (fun y => y.voteHash P) (fun y hy => ?_)
      fun a _ b _ hab => PublicKey.voteHash_injective hdigest hab)
  obtain ⟨w, hw, rfl⟩ :=
    exists_mem_votes_of_own hdigest hreach hquiet hexact hy hz (hall y hy)
  exact Core.mem_keys_iff.mpr ⟨w, (sound_node hdigest hreach z).mem_votes_iff.mp hw⟩

/-- An election that one correct node knows, all of them know. -/
theorem own_zero {x z : PublicKey} (hx : x ∈ C.correct) (hz : z ∈ C.correct)
    (hknown : h ∈ (s.nodes x).elections) : z.voteHash P ∈ (s.nodes z).keys h 0 := by
  have hquorate := quorate_of_orderly hreach
  obtain ⟨w, hw, -⟩ := exists_mem_votes_of_own hdigest hreach hquiet hexact hx hz
    (own_of_known hdigest hquorate hx hknown)
  have hkey := Core.mem_keys_iff.mpr ⟨w, (sound_node hdigest hreach z).mem_votes_iff.mp hw⟩
  exact own_of_known hdigest hquorate hz
    (Core.mem_elections_of_mem_state (Core.mem_state_of_mem_keys hkey))

/-- **Nobody leaves early.**  All correct nodes have voted up to the first round in which
one of them decides. -/
theorem own_of_le {x : PublicKey} (hx : x ∈ C.correct) (hknown : h ∈ (s.nodes x).elections)
    {n : ℕ} (hfirst : ∀ z ∈ C.correct, ∀ v ∈ (s.nodes z).casts, v.electionHash = h →
      v.voteType = .decide → n ≤ v.round) :
    ∀ r ≤ n, ∀ z ∈ C.correct, z.voteHash P ∈ (s.nodes z).keys h r := by
  have hquorate := quorate_of_orderly hreach
  intro r
  induction r with
  | zero => exact fun _ z hz => own_zero hdigest hreach hquiet hexact hx hz hknown
  | succ r ih =>
    intro hr z hz
    have hquorum := quorum_of_own hdigest hreach hquiet hexact (ih (Nat.le_of_succ_le hr)) hz
    by_cases hopen : ((s.nodes z).election h).isDecided = false
    · exact own_succ hdigest hquorate hz hopen hquorum
    · -- the node has decided, and voted up to its decision
      obtain ⟨v, hv, hh, htype⟩ :=
        ((sound_node hdigest hreach z).isDecided h).mp (eq_true_of_ne_false hopen)
      have hown := own_of_cast hdigest hquorate hv
      rw [hh] at hown
      exact own_of_own_le hdigest hquorate hz (hr.trans (hfirst z hz v hv hh htype)) hown

/-- **One decision decides for everybody.** -/
theorem decided_of_decided {x z : PublicKey} (hx : x ∈ C.correct) (hz : z ∈ C.correct)
    {b : Value} (hb : (s.nodes x).decided.lookup h = some b) :
    (s.nodes z).decided.lookup h = some b := by
  have hquorate := quorate_of_orderly hreach
  have hs := sound_node hdigest hreach z
  obtain ⟨d, hdcast, hd, hdh, hdtype, rfl⟩ := exists_decide_of_decided hdigest hreach hb
  obtain ⟨q, y, hy, hcommits, hfirst⟩ :=
    exists_commits hdigest hquorate hexact hx hd hdtype
  have hdecided : ((s.nodes z).election h).isDecided = true := by
    by_contra hopen
    have hopen' := eq_false_of_ne_true hopen
    have hknown : h ∈ (s.nodes x).elections := by
      rw [← hdh]
      exact Core.mem_elections_of_mem_state
        (Core.mem_state_of_mem_keys (own_of_cast hdigest hquorate hdcast))
    -- everybody has voted in the round after the quorum, so the node goes on to the next
    have hall := own_of_le hdigest hreach hquiet hexact hx hknown
      (n := q + 1) fun z hz v hv hh htype => hfirst z hz v.round v
        (mem_votes_of_cast hdigest hreach hquiet hexact hz hz hv hh) htype
    have hquorum := quorum_of_own hdigest hreach hquiet hexact (hall (q + 1) le_rfl) hz
    obtain ⟨w, hw, hh, hround⟩ := exists_cast_of_own hdigest hquorate hz
      (own_succ hdigest hquorate hz hopen' hquorum)
    have hmem := mem_votes_of_cast hdigest hreach hquiet hexact hz hz hw hh
    rw [hround] at hmem
    -- where all the votes are `Commit`s and `Decide`s for the value
    obtain ⟨W, hW, hWquorum, hdecision⟩ := exists_quorum hdigest hquorate (hexact z hz) hmem
    rw [decisionRule_of_quorum hWquorum fun v hv => commit_or_decide hdigest hquorate hy hz
      (hexact z hz) hcommits (hW hv)] at hdecision
    have htype := PrimaryVote.voteType_of_decision hdecision
    exact hopen ((hs.isDecided h).mpr ⟨w, hw, hh, htype⟩)
  obtain ⟨v, hv, hh, htype⟩ := (hs.isDecided h).mp hdecided
  refine (hs.decided h d.value).mpr ⟨v, hv, hh, htype, ?_⟩
  exact decide_eq hdigest (fun _ _ _ hok => hok.1) hreach hz hx
    (mem_votes_of_cast hdigest hreach hquiet hexact hz hz hv hh) hd htype hdtype

end Orderly

/-! ## A decision for One -/

/-- **A decision for `One` reaches everybody.**  In every orderly run, once a correct node
has decided `One`, all of them have in every later state in which nothing is in
flight. -/
theorem decided_one_of_decided_one (hdigest : Function.Injective P.sha512) {s' : System}
    (hreach : (network P C.correct (Orderly P C)).Reachable (start addresses) s)
    (hlater : (network P C.correct (Orderly P C)).Reachable s s')
    (hquiet : s'.Quiescent C.correct) {x z : PublicKey} (hx : x ∈ C.correct)
    (hz : z ∈ C.correct) {h : BlockHash} (hone : (s.nodes x).decided.lookup h = some .one) :
    (s'.nodes z).decided.lookup h = some .one := by
  have hreach' := hreach.trans hlater
  have hext := nodes_extend_of_reachable hdigest hreach hlater x
  have hone' : (s'.nodes x).decided.lookup h = some .one := by
    obtain ⟨v, hv, hkind⟩ := ((sound_node hdigest hreach x).decided h .one).mp hone
    exact ((sound_node hdigest hreach' x).decided h .one).mpr ⟨v, hext.mem_casts hv, hkind⟩
  obtain ⟨d, -, hd, -, hdtype, hdvalue⟩ := exists_decide_of_decided hdigest hreach' hone'
  exact decided_of_decided hdigest hreach' hquiet
    (fun y hy => exact_of_decide_one hdigest (quorate_of_orderly hreach') hx hy hd hdtype
      hdvalue) hx hz hone'

/-- Turns of a concrete run: the authorities handle a vote one after the other. -/
def among (authorities : List UInt8) (v : PrimaryVote) : List Turn :=
  authorities.map fun i => deliver i v

/-- Three correct nodes start with `One`, and decide it in round 2.  The votes of the
fourth authority name a quorum. -/
def concordant : List Turn :=
  [begin 1 true, begin 2 true, begin 3 true] ++
    [firstBallot 1 .one, firstBallot 2 .one, firstBallot 3 .one, firstBallot 4 .zero,
      ballot 1 1 .one .commit [1, 2, 3], ballot 2 1 .one .commit [1, 2, 3],
      ballot 3 1 .one .commit [1, 2, 3], ballot 4 1 .one .commit [1, 2, 3],
      ballot 1 2 .one .decide [1, 2, 3], ballot 2 2 .one .decide [1, 2, 3],
      ballot 3 2 .one .decide [1, 2, 3]].flatMap (among [1, 2, 3])

def concord : System :=
  (network Params.source trio.correct (Orderly Params.source trio)).run (start fun _ => [])
    concordant

theorem reachable_concord :
    (network Params.source trio.correct (Orderly Params.source trio)).Reachable
      (start fun _ => []) concord :=
  GuardedMachine.reachable_run concordant (by decide +kernel)

theorem decided_one_of_decided_one_concord :
    (concord.nodes (authority 1)).decided.lookup block = some .one ∧
      (concord.nodes (authority 3)).decided.lookup block = some .one := by
  have h₁ : (concord.nodes (authority 1)).decided.lookup block = some .one := by
    decide +kernel
  exact ⟨h₁, decided_one_of_decided_one Params.source_injective reachable_concord
    GuardedMachine.Reachable.refl (by decide +kernel) (x := authority 1)
    (by decide +kernel) (by decide +kernel) h₁⟩

/-- Three correct nodes start with `One`.  The first sees their three `Commit`s of round
1, decides and leaves; the other two see two of them and an initial vote of the fourth
authority, which names nothing, and commit again.  In round 3 there are two of them
left. -/
def deserted : List Turn :=
  [begin 1 true, begin 2 true, begin 3 true] ++
    [firstBallot 1 .one, firstBallot 2 .one, firstBallot 3 .one].flatMap (among [1, 2, 3]) ++
    [deliver 1 (ballot 2 1 .one .commit [1, 2, 3]),
      deliver 1 (ballot 3 1 .one .commit [1, 2, 3])] ++
    [ballot 4 1 .one .initialVote [], ballot 2 1 .one .commit [1, 2, 3],
      ballot 3 1 .one .commit [1, 2, 3], ballot 1 1 .one .commit [1, 2, 3],
      ballot 4 2 .one .initialVote [], ballot 2 2 .one .commit [2, 3, 4],
      ballot 3 2 .one .commit [2, 3, 4], ballot 1 2 .one .decide [1, 2, 3],
      ballot 2 3 .one .commit [2, 3, 4], ballot 3 3 .one .commit [2, 3, 4]].flatMap
        (among [1, 2, 3])

/-- One correct node has decided `One`, all the votes have been delivered in time, and
another correct node will not decide. -/
theorem exists_decided_one_not_decided :
    ∃ s, (network Params.source trio.correct fun s x v => s.Byzantine trio v ∧
          v.round < u32Max ∧ (v.signer ∈ trio.correct → s.Shares x v)).Reachable
        (start fun _ => []) s ∧
      s.Quiescent trio.correct ∧ ∃ x ∈ trio.correct, ∃ z ∈ trio.correct, ∃ h,
        (s.nodes x).decided.lookup h = some .one ∧ (s.nodes z).decided.lookup h = none :=
  ⟨_, GuardedMachine.reachable_run deserted (by decide +kernel), by decide +kernel,
    authority 1, by decide +kernel, authority 2, by decide +kernel, block,
    by decide +kernel, by decide +kernel⟩

/-- Three correct nodes start with `One`.  In round 1 the fourth authority tells the first that it
commits, and the other two that it votes.  The first decides on that `Commit`, and to the others
its proof means something else: they drop its `Decide`, and in round 2 there are two of them
left. -/
def deceived : List Turn :=
  [begin 1 true, begin 2 true, begin 3 true] ++
    [firstBallot 1 .one, firstBallot 2 .one, firstBallot 3 .one,
      firstBallot 4 .zero].flatMap (among [1, 2, 3]) ++
    [deliver 1 (ballot 4 1 .one .commit [1, 2, 3]),
      deliver 2 (ballot 4 1 .one .initialVote [1, 2, 4]),
      deliver 3 (ballot 4 1 .one .initialVote [1, 2, 4])] ++
    [ballot 2 1 .one .commit [1, 2, 3], ballot 3 1 .one .commit [1, 2, 3],
      ballot 1 1 .one .commit [1, 2, 3], ballot 1 2 .one .decide [1, 2, 4],
      ballot 2 2 .one .commit [2, 3, 4], ballot 3 2 .one .commit [2, 3, 4]].flatMap
        (among [1, 2, 3])

/-- One correct node has decided `One`, all the votes name quorums, those of correct nodes have
been delivered after votes with the hashes that they name, and another correct node will not
decide. -/
theorem exists_decided_one_deceived :
    ∃ s, (network Params.source trio.correct fun s x v => Quorate Params.source trio s x v ∧
          v.round < u32Max ∧ (v.signer ∈ trio.correct → ∀ p ∈ v.proof,
            p ⊆ (s.nodes x).keys v.electionHash (v.round - 1))).Reachable
        (start fun _ => []) s ∧
      s.Quiescent trio.correct ∧ ∃ x ∈ trio.correct, ∃ z ∈ trio.correct, ∃ h,
        (s.nodes x).decided.lookup h = some .one ∧ (s.nodes z).decided.lookup h = none :=
  ⟨_, GuardedMachine.reachable_run deceived (by decide +kernel), by decide +kernel,
    authority 1, by decide +kernel, authority 2, by decide +kernel, block,
    by decide +kernel, by decide +kernel⟩

/-! ## Networks without faults -/

/-- A run in order is orderly. -/
theorem reachable_orderly (hdigest : Function.Injective P.sha512)
    (hreach : (network P C.correct (InOrder P C.correct)).Reachable (start addresses) s) :
    (network P C.correct (Orderly P C)).Reachable (start addresses) s := by
  refine reachable_of_allowed subset_rfl (fun s x v hr _ hok => ?_) hreach
  obtain ⟨hunforged, hmax, hshares⟩ := timely_of_inOrder hdigest hr hok
  exact ⟨⟨C.subset hok.1.1, hunforged⟩, hmax, hshares,
    (sound_node hdigest hr v.signer).carriesQuorum hok.1.2⟩

/-- **Without faults everybody decides.**  In every run in which only votes of the correct
nodes are delivered, in order, once nothing is in flight: an election that some of them
has started all of them have decided. -/
theorem decided_of_started (hdigest : Function.Injective P.sha512)
    (hreach : (network P C.correct (InOrder P C.correct)).Reachable (start addresses) s)
    (hquiet : s.Quiescent C.correct) {x z : PublicKey} (hx : x ∈ C.correct)
    (hz : z ∈ C.correct) {h : BlockHash} (hknown : h ∈ (s.nodes x).elections) :
    ∃ b, (s.nodes z).decided.lookup h = some b := by
  have horderly := reachable_orderly hdigest hreach
  have hexact : ∀ y ∈ C.correct, Core.Exact P (s.nodes y) h := fun y _ =>
    exact_of_inOrder hdigest hreach y h
  by_cases hsome : ∃ y ∈ C.correct, ∃ b, (s.nodes y).decided.lookup h = some b
  · obtain ⟨y, hy, b, hb⟩ := hsome
    exact ⟨b, decided_of_decided hdigest horderly hquiet hexact hy hz hb⟩
  · -- otherwise the node has voted in every round, and it has cast only so many votes
    exfalso
    set n := (s.nodes x).casts.toFinset.sup PrimaryVote.round + 1 with hn
    have hall := own_of_le hdigest horderly hquiet hexact hx hknown
      (n := n) fun y hy v hv hh htype => absurd ⟨y, hy, v.value,
        ((sound_node hdigest hreach y).decided h v.value).mpr ⟨v, hv, hh, htype, rfl⟩⟩ hsome
    obtain ⟨w, hw, -, hround⟩ :=
      exists_cast_of_own hdigest (quorate_of_orderly horderly) hx (hall n le_rfl x hx)
    have hle := Finset.le_sup (f := PrimaryVote.round) (List.mem_toFinset.mpr hw)
    rw [hround, hn] at hle
    exact Nat.not_succ_le_self _ hle

/-! ## Runs of four correct nodes -/

/-- The committee of four without a faulty authority. -/
def quartet : Committee PublicKey Params.source.numberOfByzantineNodes where
  members := four
  correct := four
  pos := Params.source_pos
  subset := Finset.Subset.refl four
  card_members := card_four
  card_faulty := by decide +kernel

/-- Everybody starts with `Zero` and decides it in round 2. -/
def faultless : List Turn :=
  [begin 1 false, begin 2 false, begin 3 false, begin 4 false] ++
    [firstBallot 1 .zero, firstBallot 2 .zero, firstBallot 3 .zero, firstBallot 4 .zero,
      ballot 1 1 .zero .commit [1, 2, 3], ballot 2 1 .zero .commit [1, 2, 3],
      ballot 3 1 .zero .commit [1, 2, 3], ballot 4 1 .zero .commit [1, 2, 4],
      ballot 1 2 .zero .decide [1, 2, 3], ballot 2 2 .zero .decide [1, 2, 3],
      ballot 3 2 .zero .decide [1, 2, 3], ballot 4 2 .zero .decide [1, 2, 4]].flatMap
        (among [1, 2, 3, 4])

def settled : System :=
  (network Params.source quartet.correct (InOrder Params.source quartet.correct)).run
    (start fun _ => []) faultless

theorem reachable_settled :
    (network Params.source quartet.correct (InOrder Params.source quartet.correct)).Reachable
      (start fun _ => []) settled :=
  GuardedMachine.reachable_run faultless (by decide +kernel)

theorem decided_of_started_settled :
    block ∈ (settled.nodes (authority 1)).elections ∧
      ∃ b, (settled.nodes (authority 4)).decided.lookup block = some b := by
  constructor
  · decide +kernel
  · refine decided_of_started (C := quartet) Params.source_injective reachable_settled ?_
      (x := authority 1) (h := block) ?_ ?_ ?_ <;> decide +kernel

/-- The votes of round 3 after `split`.  Those of the second and the third authority rest
on a `Decide` for `Zero` that they have not counted, and nobody accepts them. -/
def splitThree : List Turn :=
  [ballot 2 3 .zero .commit [1, 2, 3], ballot 3 3 .zero .commit [1, 2, 3],
    ballot 4 3 .zero .commit [1, 2, 4]].flatMap (among [1, 2, 3, 4])

/-- A vote of a correct node, delivered after the votes it names. -/
def Successive (s : System) (x : PublicKey) (v : PrimaryVote) : Prop :=
  s.Sent four v ∧ v.round < u32Max ∧
    ∀ p ∈ v.proof, p ⊆ (s.nodes x).keys v.electionHash (v.round - 1)

instance (s : System) (x : PublicKey) (v : PrimaryVote) : Decidable (Successive s x v) :=
  inferInstanceAs (Decidable (_ ∧ _ ∧ ∀ p ∈ v.proof, p ⊆ _))

def stuck : System :=
  (network Params.source four Successive).run (start fun _ => [])
    (splitStart ++ splitZero ++ splitOne ++ splitTwo ++ splitThree)

theorem reachable_stuck :
    (network Params.source four Successive).Reachable (start fun _ => []) stuck :=
  GuardedMachine.reachable_run _ (by decide +kernel)

/-- Four correct nodes whose votes have all been delivered after the votes they name, and
one of them will not decide. -/
theorem exists_started_not_decided :
    ∃ s, (network Params.source four Successive).Reachable (start fun _ => []) s ∧
      s.Quiescent four ∧ ∃ x ∈ four, ∃ z ∈ four, ∃ h, h ∈ (s.nodes x).elections ∧
        (s.nodes z).decided.lookup h = none :=
  ⟨stuck, reachable_stuck, by decide +kernel, authority 1, by decide, authority 2, by decide,
    block, by decide +kernel, by decide +kernel⟩

end System
end NeroConsensus
