import NeroConsensus.Primary.TallyExactness
import NeroConsensus.Protocol.Delivery

/-!
# Elections that do not end

Nothing is drawn after round 0, so whether the nodes ever decide is up to the order in which the
votes arrive.  `decided_of_started` is about networks that have come to rest.  This file has the
other side: without any fault, and with every vote delivered to everybody before the votes of the
next round are, there need not be such a state.

A `Division` has the nodes split into `zeros` and `ones`, with `f + 1` and `2 * f` of them, and
tells for each node whose votes it hears first: a quorum with all the nodes of its own side.  In
this quorum a node that is for `Zero` finds a semi-quorum for `Zero`, but not a quorum; a node
that is for `One` finds one vote for `Zero`.  So in the next round everybody repeats its initial
vote (`Division.decisionRule_polls`), on the quorum it has heard, and the votes that come later
change nothing.

`Stage` is what a node looks like in the middle of a round, and `Divided` what the system looks
like.  A vote more for one node is `Divided.hear`, a round is `Divided.advance`.
-/

namespace NeroConsensus

variable {P : Params}

/-! ## The division -/

/-- Two sides, and the quorum whose votes a node hears first. -/
structure Division (P : Params) where
  zeros : Finset PublicKey
  ones : Finset PublicKey
  hears : PublicKey → Finset PublicKey
  pos : 0 < P.numberOfByzantineNodes
  disjoint : Disjoint zeros ones
  card_zeros : zeros.card = P.numberOfByzantineNodes + 1
  card_ones : ones.card = 2 * P.numberOfByzantineNodes
  hears_subset : ∀ x, hears x ⊆ zeros ∪ ones
  card_hears : ∀ x, (hears x).card = P.quorum
  zeros_subset : ∀ x ∈ zeros, zeros ⊆ hears x
  ones_subset : ∀ x ∈ ones, ones ⊆ hears x

namespace Division

variable (D : Division P)

/-- The nodes of both sides. -/
def members : Finset PublicKey := D.zeros ∪ D.ones

theorem card_members : D.members.card = P.numberOfTotalNodes := by
  rw [members, Finset.card_union_of_disjoint D.disjoint, D.card_zeros, D.card_ones,
    Params.numberOfTotalNodes]
  omega

/-- The value a node is for. -/
def value (x : PublicKey) : Value := if x ∈ D.zeros then .zero else .one

/-- The vote of a node in a round. -/
def vote (h : BlockHash) (r : Round) (x : PublicKey) : PrimaryVote :=
  PrimaryVote.new x r (D.value x) .initialVote
    (if r = 0 then none else some ((D.hears x).image (PublicKey.voteHash P))) h

/-- The votes of some nodes in a round. -/
def polls (h : BlockHash) (r : Round) (S : Finset PublicKey) : Finset PrimaryVote :=
  S.image (D.vote h r)

variable {D} {h : BlockHash} {r : Round} {S : Finset PublicKey} {x y : PublicKey}

theorem vote_injective : Function.Injective (D.vote h r) := fun _ _ hxy =>
  congrArg PrimaryVote.signer hxy

theorem mem_polls {v : PrimaryVote} : v ∈ D.polls h r S ↔ ∃ y ∈ S, D.vote h r y = v :=
  Finset.mem_image

theorem polls_insert : D.polls h r (insert y S) = insert (D.vote h r y) (D.polls h r S) :=
  Finset.image_insert _ _ _

theorem voteType_of_mem_polls {v : PrimaryVote} (hv : v ∈ D.polls h r S) :
    v.voteType = .initialVote := by
  obtain ⟨y, -, rfl⟩ := mem_polls.mp hv
  rfl

theorem counter_polls_of_ne {ty : VoteType} (hty : ty ≠ .initialVote) (b : Value) :
    (Tally.fromVotes (D.polls h r S)).counter ty b = 0 :=
  counter_eq_zero (fun _ hv heq => hty (heq.symm.trans (voteType_of_mem_polls hv))) b

/-- The initial votes of a round are counted by the side of the signer. -/
theorem counter_polls (b : Value) :
    (Tally.fromVotes (D.polls h r S)).counter .initialVote b =
      (S.filter fun y => D.value y = b).card := by
  have hvotes : votesOf (D.polls h r S) .initialVote b =
      (S.filter fun y => D.value y = b).image (D.vote h r) := by
    ext v
    rw [mem_votesOf, mem_polls, Finset.mem_image]
    constructor
    · rintro ⟨⟨y, hy, rfl⟩, -, hvalue⟩
      exact ⟨y, Finset.mem_filter.mpr ⟨hy, hvalue⟩, rfl⟩
    · rintro ⟨y, hy, rfl⟩
      obtain ⟨hyS, hvalue⟩ := Finset.mem_filter.mp hy
      exact ⟨⟨y, hyS, rfl⟩, rfl, hvalue⟩
  rw [Tally.counter_fromVotes, hvotes, Finset.card_image_of_injective _ vote_injective]

theorem filter_value_zero : (S.filter fun y => D.value y = .zero) = S ∩ D.zeros := by
  ext y
  rw [Finset.mem_filter, Finset.mem_inter, value]
  split_ifs with hy <;> simp [hy]

theorem filter_value_one (hS : S ⊆ D.members) :
    (S.filter fun y => D.value y = .one) = S ∩ D.ones := by
  ext y
  rw [Finset.mem_filter, Finset.mem_inter, value]
  refine and_congr_right fun hyS => ?_
  have hdisjoint : y ∈ D.zeros → y ∉ D.ones := fun hy => Finset.disjoint_left.mp D.disjoint hy
  have hside := Finset.mem_union.mp (hS hyS)
  split_ifs with hy
  · exact iff_of_false nofun (hdisjoint hy)
  · exact iff_of_true rfl (hside.resolve_left hy)

/-- The two sides add up. -/
theorem card_inter_add_card_inter (hS : S ⊆ D.members) :
    (S ∩ D.zeros).card + (S ∩ D.ones).card = S.card := by
  rw [← Finset.card_union_of_disjoint
      (D.disjoint.mono Finset.inter_subset_right Finset.inter_subset_right),
    ← Finset.inter_union_distrib_left]
  exact congrArg Finset.card (Finset.inter_eq_left.mpr hS)

/-- **The first quorum makes a node repeat its initial vote.** -/
theorem decisionRule_polls (hx : x ∈ D.members) :
    decisionRule P (Tally.fromVotes (D.polls h r (D.hears x))) =
      ⟨D.value x, .initialVote⟩ := by
  set t := Tally.fromVotes (D.polls h r (D.hears x)) with ht
  have hpos := D.pos
  have hsum := card_inter_add_card_inter (D.hears_subset x)
  rw [D.card_hears] at hsum
  have hzeroVotes : t.zeroVotes = (D.hears x ∩ D.zeros).card := by
    rw [← filter_value_zero]
    exact counter_polls .zero
  have honeVotes : t.oneVotes = (D.hears x ∩ D.ones).card := by
    rw [← filter_value_one (D.hears_subset x)]
    exact counter_polls .one
  have hothers : ∀ ty ≠ VoteType.initialVote, ∀ b, t.counter ty b = 0 :=
    fun ty hty b => counter_polls_of_ne hty b
  have hzeroCommits : t.zeroCommits = 0 := hothers .commit nofun .zero
  have honeCommits : t.oneCommits = 0 := hothers .commit nofun .one
  have hzeroDecides : t.zeroDecides = 0 := hothers .decide nofun .zero
  have honeDecides : t.oneDecides = 0 := hothers .decide nofun .one
  have hquorum : P.quorum = 2 * P.numberOfByzantineNodes + 1 := rfl
  have hsemi : P.semiQuorum = P.numberOfByzantineNodes + 1 := rfl
  by_cases hzero : x ∈ D.zeros
  · have hcard := D.card_zeros
    rw [← Finset.inter_eq_right.mpr (D.zeros_subset x hzero)] at hcard
    rw [value, if_pos hzero]
    exact (RuleCase.zeroVote honeDecides hzeroDecides hzeroCommits honeCommits (by omega)
      (by omega) (by omega)).eq
  · have hcard := D.card_ones
    have hone : x ∈ D.ones := (Finset.mem_union.mp hx).resolve_left hzero
    rw [← Finset.inter_eq_right.mpr (D.ones_subset x hone)] at hcard
    rw [value, if_neg hzero]
    exact (RuleCase.oneVote honeDecides hzeroDecides hzeroCommits honeCommits (by omega)
      (by omega)).eq

/-- A set of signers that grows towards the first quorum, and then beyond it. -/
def Fits (D : Division P) (x : PublicKey) (S : Finset PublicKey) : Prop :=
  S ⊆ D.hears x ∨ D.hears x ⊆ S

theorem Fits.eq_hears (hfits : D.Fits x S) (hcard : S.card = P.quorum) : S = D.hears x := by
  rw [← D.card_hears x] at hcard
  rcases hfits with hle | hle
  · exact Finset.eq_of_subset_of_card_le hle hcard.ge
  · exact (Finset.eq_of_subset_of_card_le hle hcard.le).symm

/-- Any `NUMBER_OF_TOTAL_NODES` nodes can be divided. -/
theorem exists_division (hf : 0 < P.numberOfByzantineNodes) {members : Finset PublicKey}
    (hcard : members.card = P.numberOfTotalNodes) :
    ∃ D : Division P, D.members = members := by
  rw [Params.numberOfTotalNodes] at hcard
  obtain ⟨zeros, hzeros, hcardZeros⟩ :=
    Finset.exists_subset_card_eq (s := members) (n := P.numberOfByzantineNodes + 1) (by omega)
  have hcardOnes : (members \ zeros).card = 2 * P.numberOfByzantineNodes := by
    have hsplit := Finset.card_sdiff_add_card_eq_card hzeros
    omega
  obtain ⟨few, hfew, hcardFew⟩ := Finset.exists_subset_card_eq (s := members \ zeros)
    (n := P.numberOfByzantineNodes) (by omega)
  obtain ⟨a, ha⟩ := Finset.card_pos.mp (hcardZeros ▸ Nat.succ_pos _ : 0 < zeros.card)
  have hdisjoint : Disjoint zeros (members \ zeros) := Finset.disjoint_sdiff
  have hall : zeros ∪ members \ zeros = members := Finset.union_sdiff_of_subset hzeros
  let D : Division P :=
    { zeros := zeros
      ones := members \ zeros
      hears := fun x => if x ∈ zeros then zeros ∪ few else insert a (members \ zeros)
      pos := hf
      disjoint := hdisjoint
      card_zeros := hcardZeros
      card_ones := hcardOnes
      hears_subset := by
        intro x
        split_ifs
        · exact Finset.union_subset_union_right hfew
        · exact Finset.insert_subset (Finset.mem_union_left _ ha) Finset.subset_union_right
      card_hears := by
        intro x
        rw [Params.quorum]
        split_ifs
        · rw [Finset.card_union_of_disjoint (hdisjoint.mono_right hfew)]
          omega
        · rw [Finset.card_insert_of_notMem (Finset.disjoint_left.mp hdisjoint ha), hcardOnes]
      zeros_subset := by
        intro x hx
        rw [if_pos hx]
        exact Finset.subset_union_left
      ones_subset := by
        intro x hx
        rw [if_neg (Finset.disjoint_right.mp hdisjoint hx)]
        exact Finset.subset_insert _ _ }
  exact ⟨D, hall⟩

end Division

/-! ## A node in the middle of a round -/

namespace Core

/-- The keys of a round are those of its votes. -/
theorem Filed.keys_eq_image {c : Core} (hf : Filed P c) (h : BlockHash) (r : Round) :
    c.keys h r = (c.votes h r).image (PrimaryVote.voteHash P) := by
  ext k
  rw [mem_keys_iff, Finset.mem_image]
  constructor
  · rintro ⟨v, hv⟩
    exact ⟨v, mem_votes.mpr ⟨k, hv⟩, (hf.place h r k v hv).1⟩
  · rintro ⟨v, hv, rfl⟩
    exact ⟨v, hf.mem_votes_iff.mp hv⟩

variable {D : Division P} {h : BlockHash} {n : ℕ} {x y : PublicKey}
  {seen : Finset PublicKey} {c : Core}

/-- Whose votes of round `r` the node `x` has: of the rounds before `n` everybody's, of round `n`
those in `seen`, and its own of the next round once they are a quorum. -/
def held (D : Division P) (n : ℕ) (x : PublicKey) (seen : Finset PublicKey) (r : ℕ) :
    Finset PublicKey :=
  if r < n then D.members
  else if r = n then seen
  else if r = n + 1 ∧ P.quorum ≤ seen.card then {x} else ∅

/-- The node `x` has been given the votes of round `n` that are in `seen`. -/
structure Stage (D : Division P) (h : BlockHash) (n : ℕ) (x : PublicKey)
    (seen : Finset PublicKey) (c : Core) : Prop where
  id : c.id = x
  votes : ∀ r, c.votes h r = D.polls h r (held D n x seen r)
  casts : c.casts =
    (List.range (if P.quorum ≤ seen.card then n + 2 else n + 1)).map fun r => D.vote h r x
  heard : ∀ r, ∀ y ∈ held D n x seen r, y ≠ x → D.vote h r y ∈ c.sentVotes

theorem held_self (D : Division P) (n : ℕ) (x : PublicKey) (seen : Finset PublicKey) :
    held D n x seen n = seen := by
  rw [held, if_neg (Nat.lt_irrefl n), if_pos rfl]

theorem held_of_lt {r : ℕ} (hr : r < n) : held D n x seen r = D.members :=
  if_pos hr

theorem held_succ (D : Division P) (n : ℕ) (x : PublicKey) (seen : Finset PublicKey) :
    held D n x seen (n + 1) = if P.quorum ≤ seen.card then {x} else ∅ := by
  simp [held]

/-- One vote more, short of a quorum or beyond it. -/
theorem held_insert (hne : seen.card + 1 ≠ P.quorum) (hy : y ∉ seen) (r : ℕ) :
    held D n x (insert y seen) r = if r = n then insert y seen else held D n x seen r := by
  have hiff : P.quorum ≤ (insert y seen).card ↔ P.quorum ≤ seen.card := by
    rw [Finset.card_insert_of_notMem hy]
    omega
  simp only [held, hiff]
  split_ifs <;> first | rfl | omega

/-- The vote that completes the quorum. -/
theorem held_insert_quorum (heq : seen.card + 1 = P.quorum) (hy : y ∉ seen) (r : ℕ) :
    held D n x (insert y seen) r =
      if r = n then insert y seen else if r = n + 1 then {x} else held D n x seen r := by
  have hafter : P.quorum ≤ (insert y seen).card := by
    rw [Finset.card_insert_of_notMem hy, heq]
  have hbefore : ¬P.quorum ≤ seen.card := by omega
  simp only [held, hafter, hbefore, and_true, and_false, if_false]
  split_ifs <;> first | rfl | omega

namespace Stage

variable (hdigest : Function.Injective P.sha512) (hs : Sound P c)
  (hst : Stage D h n x seen c)

include hs hst

theorem keys (r : ℕ) : c.keys h r = (held D n x seen r).image (PublicKey.voteHash P) := by
  rw [hs.keys_eq_image, hst.votes, Division.polls, Finset.image_image]
  rfl

include hdigest in
theorem mem_keys_iff {r : ℕ} {z : PublicKey} :
    z.voteHash P ∈ c.keys h r ↔ z ∈ held D n x seen r := by
  rw [hst.keys hs, Finset.mem_image]
  constructor
  · rintro ⟨w, hw, heq⟩
    rw [← PublicKey.voteHash_injective hdigest heq]
    exact hw
  · exact fun hz => ⟨z, hz, rfl⟩

omit hs in
theorem voteType_of_mem_casts {v : PrimaryVote} (hv : v ∈ c.casts) :
    v.voteType = .initialVote := by
  rw [hst.casts] at hv
  obtain ⟨r, -, rfl⟩ := List.mem_map.mp hv
  rfl

/-- Nothing is decided, in any election. -/
theorem lookup_decided (h' : BlockHash) : c.decided.lookup h' = none := by
  cases hb : c.decided.lookup h' with
  | none => rfl
  | some b =>
    obtain ⟨v, hv, -, htype, -⟩ := (hs.decided h' b).mp hb
    rw [hst.voteType_of_mem_casts hv] at htype
    cases htype

theorem isDecided (h' : BlockHash) : (c.election h').isDecided = false := by
  refine eq_false_of_ne_true fun htrue => ?_
  obtain ⟨v, hv, -, htype⟩ := (hs.isDecided h').mp htrue
  rw [hst.voteType_of_mem_casts hv] at htype
  cases htype

section Receipt

variable {draws : Draws} (hx : x ∈ seen) (hy : y ∉ seen)
  (hverdict : c.validateVote P draws.validate (D.vote h n y) = some .valid)

include hdigest hy

theorem notMem_keys : (D.vote h n y).voteHash P ∉ c.keys h n := by
  rw [PrimaryVote.voteHash_eq]
  show y.voteHash P ∉ c.keys h n
  rw [hst.mem_keys_iff hdigest hs, held_self]
  exact hy

/-- The vote is stored. -/
theorem votes_record (r : ℕ) :
    ((c.relay (D.vote h n y)).record P (D.vote h n y)).votes h r =
      D.polls h r (if r = n then insert y seen else held D n x seen r) := by
  have hrec := recorded_record (P := P) (c.relay (D.vote h n y)) (D.vote h n y)
  have hnew := hst.notMem_keys hdigest hs hy
  have hvotes := hrec.votes hnew h r
  have hold : (c.relay (D.vote h n y)).votes h r = D.polls h r (held D n x seen r) := hst.votes r
  rw [hvotes, hold]
  by_cases hr : r = n
  · subst hr
    rw [if_pos ⟨rfl, rfl⟩, if_pos rfl, Division.polls_insert, held_self]
  · rw [if_neg fun hc => hr hc.2, if_neg hr]

include hverdict in
theorem sound_record : Sound P ((c.relay (D.vote h n y)).record P (D.vote h n y)) := by
  have hnew := hst.notMem_keys hdigest hs hy
  have hmoves : Relation.ReflTransGen (Move P) c
      ((c.relay (D.vote h n y)).record P (D.vote h n y)) :=
    (Relation.ReflTransGen.single (Move.relay c _)).tail
      (Move.accept _ _ draws.validate hnew hverdict)
  exact (sound_extends_of_moves hdigest hmoves hs).1

include hx hverdict in
/-- The node has voted in round 0 before. -/
theorem afterReceipt_eq : c.afterReceipt P draws (D.vote h n y) =
    (c.relay (D.vote h n y)).record P (D.vote h n y) := by
  by_cases hround : n = 0
  · subst hround
    have hrec := recorded_record (P := P) (c.relay (D.vote h 0 y)) (D.vote h 0 y)
    have hround : (D.vote h 0 y).round = 0 := rfl
    rw [afterReceipt_of_eq hround, castFirst, if_neg]
    rw [(hst.sound_record hdigest hs hy hverdict).voted_eq_false, not_not]
    refine hrec.keys_subset h 0 ?_
    show c.id.voteHash P ∈ c.keys h 0
    rw [hst.id, hst.mem_keys_iff hdigest hs, held_self]
    exact hx
  · exact afterReceipt_of_ne hround

/-- The node casts its next vote exactly when the vote completes a quorum. -/
theorem ready_record_iff (hmid : Sound P ((c.relay (D.vote h n y)).record P (D.vote h n y))) :
    ((c.relay (D.vote h n y)).record P (D.vote h n y)).Ready P h n ↔
      seen.card + 1 = P.quorum := by
  have hkeys : (((c.relay (D.vote h n y)).record P (D.vote h n y)).keys h n).card =
      seen.card + 1 := by
    rw [← hmid.card_votes, hst.votes_record hdigest hs hy, if_pos rfl, Division.polls,
      Finset.card_image_of_injective _ Division.vote_injective, Finset.card_insert_of_notMem hy]
  have hvoted : (((c.relay (D.vote h n y)).record P (D.vote h n y)).roundState h
      (n + 1)).voted = false ↔ ¬P.quorum ≤ seen.card := by
    rw [hmid.voted_eq_false, hmid.keys_eq_image, hst.votes_record hdigest hs hy,
      if_neg (Nat.succ_ne_self n), held_succ]
    show c.id.voteHash P ∉ _ ↔ _
    rw [hst.id]
    split_ifs with hquorum
    · refine iff_of_false (not_not_intro ?_) (not_not_intro hquorum)
      exact Finset.mem_image.mpr ⟨D.vote h (n + 1) x,
        Division.mem_polls.mpr ⟨x, Finset.mem_singleton_self x, rfl⟩, rfl⟩
    · exact iff_of_true (by simp [Division.polls]) hquorum
  have hopen : (((c.relay (D.vote h n y)).record P (D.vote h n y)).election h).isDecided =
      false := by
    rw [isDecided_record, election_relay]
    exact hst.isDecided hs h
  rw [Ready, ← Core.keys, hkeys, hvoted]
  refine ⟨fun hc => ?_, fun heq => ⟨heq.ge, ?_, hopen⟩⟩
  · have hle := hc.1
    have hlt := hc.2.1
    omega
  · omega

/-- A vote that does not complete a quorum. -/
theorem record_of_ne (hne : seen.card + 1 ≠ P.quorum) :
    Stage D h n x (insert y seen) ((c.relay (D.vote h n y)).record P (D.vote h n y)) where
  id := hst.id
  votes r := by
    rw [hst.votes_record hdigest hs hy, held_insert hne hy]
  casts := by
    rw [casts_record, casts_relay, hst.casts, Finset.card_insert_of_notMem hy]
    congr 2
    split_ifs <;> first | rfl | omega
  heard r z hz hzx := by
    rw [held_insert hne hy] at hz
    show D.vote h r z ∈ insert (D.vote h n y) c.sentVotes
    rw [Finset.mem_insert]
    split_ifs at hz with hr
    · subst hr
      rcases Finset.mem_insert.mp hz with rfl | hold
      · exact Or.inl rfl
      · exact Or.inr (hst.heard r z (by rw [held_self]; exact hold) hzx)
    · exact Or.inr (hst.heard r z hz hzx)

/-- On its first quorum the node repeats its initial vote. -/
theorem nextVote_record (hfits : D.Fits x (insert y seen)) (heq : seen.card + 1 = P.quorum)
    (hxD : x ∈ D.members) (draw : Bool × Bool)
    (hmid : Sound P ((c.relay (D.vote h n y)).record P (D.vote h n y))) :
    ((c.relay (D.vote h n y)).record P (D.vote h n y)).nextVote P draw h n =
      D.vote h (n + 1) x := by
  have hhears : insert y seen = D.hears x :=
    hfits.eq_hears (by rw [Finset.card_insert_of_notMem hy, heq])
  have hvotes : ((c.relay (D.vote h n y)).record P (D.vote h n y)).votes h n =
      D.polls h n (D.hears x) := by
    rw [hst.votes_record hdigest hs hy, if_pos rfl, hhears]
  have hkeys : ((c.relay (D.vote h n y)).record P (D.vote h n y)).keys h n =
      (D.hears x).image (PublicKey.voteHash P) := by
    rw [hmid.keys_eq_image, hvotes, Division.polls, Finset.image_image]
    rfl
  have hdecide : VoteType.decide ≠ .initialVote := nofun
  have hnone : (Tally.fromVotes (D.polls h n (D.hears x))).counter .decide .zero = 0 :=
    Division.counter_polls_of_ne hdecide .zero
  have htally := hmid.tally h n
  rw [hvotes, Tally.running_eq_self_iff.mpr hnone] at htally
  rw [nextVote, htally, makeDecision_of_honest hmid.byzantine, Division.decisionRule_polls hxD]
  show PrimaryVote.new c.id (n + 1) _ _ (some (Core.keys _ h n)) h = _
  rw [hkeys, hst.id]
  rfl

/-- The vote that completes a quorum. -/
theorem cast_of_eq (heq : seen.card + 1 = P.quorum)
    (hmid : Sound P ((c.relay (D.vote h n y)).record P (D.vote h n y))) :
    Stage D h n x (insert y seen)
      (((c.relay (D.vote h n y)).record P (D.vote h n y)).cast P (D.vote h (n + 1) x)) where
  id := hst.id
  votes r := by
    have hrec := recorded_cast (P := P) ((c.relay (D.vote h n y)).record P (D.vote h n y))
      (D.vote h (n + 1) x)
    have hnone : held D n x seen (n + 1) = ∅ := by
      rw [held_succ, if_neg (by omega)]
    have hnew : (D.vote h (n + 1) x).voteHash P ∉
        ((c.relay (D.vote h n y)).record P (D.vote h n y)).keys h (n + 1) := by
      rw [hmid.keys_eq_image, hst.votes_record hdigest hs hy, if_neg (Nat.succ_ne_self n), hnone]
      simp [Division.polls]
    rw [hrec.votes hnew, hst.votes_record hdigest hs hy, held_insert_quorum heq hy]
    show (if h = h ∧ r = n + 1 then _ else _) = _
    by_cases hr : r = n + 1
    · subst hr
      rw [if_pos ⟨rfl, rfl⟩, if_neg (Nat.succ_ne_self n), if_neg (Nat.succ_ne_self n), if_pos rfl,
        hnone]
      rfl
    · rw [if_neg fun hc => hr hc.2, if_neg hr]
  casts := by
    rw [casts_cast, casts_record, casts_relay, hst.casts, if_neg (by omega), if_pos,
      List.range_succ (n := n + 1), List.map_append]
    · rfl
    · rw [Finset.card_insert_of_notMem hy, heq]
  heard r z hz hzx := by
    rw [held_insert_quorum heq hy] at hz
    show D.vote h r z ∈ insert (D.vote h n y) c.sentVotes
    rw [Finset.mem_insert]
    split_ifs at hz with hr hr'
    · subst hr
      rcases Finset.mem_insert.mp hz with rfl | hold
      · exact Or.inl rfl
      · exact Or.inr (hst.heard r z (by rw [held_self]; exact hold) hzx)
    · exact absurd (Finset.mem_singleton.mp hz) hzx
    · exact Or.inr (hst.heard r z hz hzx)

/-- **A vote more.** -/
theorem handleVote (hx : x ∈ seen) (hxD : x ∈ D.members) (hfits : D.Fits x (insert y seen))
    (hmax : n < u32Max) {draws : Draws}
    (hverdict : c.validateVote P draws.validate (D.vote h n y) = some .valid) :
    ∃ c', c.handleVote P draws (D.vote h n y) = some c' ∧
      Stage D h n x (insert y seen) c' := by
  have hmid := hst.sound_record hdigest hs hy hverdict
  have hnew : (D.vote h n y).voteHash P ∉ (c.roundState h n).validatedVotes := fun hc =>
    hst.notMem_keys hdigest hs hy (Finmap.mem_keys.mpr hc)
  have hstep : c.handleVote P draws (D.vote h n y) =
      if n < u32Max then some (c.afterValid P draws (D.vote h n y)) else none :=
    handleVote_of_valid hnew (hs.noPending h n) hverdict
  refine ⟨c.afterValid P draws (D.vote h n y), ?_, ?_⟩
  · rw [hstep, if_pos hmax]
  · show Stage D h n x _ ((c.afterReceipt P draws (D.vote h n y)).castNext P draws.next h n)
    rw [hst.afterReceipt_eq hdigest hs hx hy hverdict, castNext]
    by_cases heq : seen.card + 1 = P.quorum
    · rw [if_pos ((hst.ready_record_iff hdigest hs hy hmid).mpr heq),
        hst.nextVote_record hdigest hs hy hfits heq hxD draws.next hmid,
        conclude_of_ne VoteType.noConfusion]
      exact hst.cast_of_eq hdigest hs hy heq hmid
    · rw [if_neg fun hc => heq ((hst.ready_record_iff hdigest hs hy hmid).mp hc)]
      exact hst.record_of_ne hdigest hs hy heq

end Receipt

end Stage

/-- A node that has got all the votes of a round is in the next one. -/
theorem Stage.next (hst : Stage D h n x D.members c) : Stage D h (n + 1) x {x} c := by
  have hpos := D.pos
  have hquorum : P.quorum = 2 * P.numberOfByzantineNodes + 1 := rfl
  have hall : P.quorum ≤ D.members.card := by
    rw [D.card_members, Params.numberOfTotalNodes]
    omega
  have hone : ¬P.quorum ≤ ({x} : Finset PublicKey).card := by
    rw [Finset.card_singleton]
    omega
  have hheld : ∀ r, held D n x D.members r = held D (n + 1) x {x} r := by
    intro r
    simp only [held, hall, hone, and_true, and_false, if_false]
    split_ifs <;> first | rfl | omega
  refine ⟨hst.id, fun r => ?_, ?_, fun r z hz => ?_⟩
  · rw [hst.votes, hheld]
  · rw [hst.casts, if_pos hall, if_neg hone]
  · rw [← hheld] at hz
    exact hst.heard r z hz

/-- The draw that gives a node the value it is for. -/
theorem random_eq_vote (D : Division P) (h : BlockHash) (x : PublicKey) :
    PrimaryVote.random x h (decide (D.value x = .one)) = D.vote h 0 x := by
  have hvalue : Value.ofDraw (decide (D.value x = .one)) = D.value x := by
    cases D.value x <;> rfl
  rw [PrimaryVote.random, hvalue]
  rfl

/-- A node that has started the election. -/
theorem stage_castFirst_spawn (D : Division P) (h : BlockHash) (x : PublicKey)
    (addresses : List (PublicKey × SocketAddr)) :
    Stage D h 0 x {x}
      ((spawn x addresses false).castFirst P (decide (D.value x = .one)) h) := by
  have hfirst : (spawn x addresses false).castFirst P (decide (D.value x = .one)) h =
      (spawn x addresses false).cast P (D.vote h 0 x) := by
    rw [castFirst, if_pos (by rw [roundState_spawn]; rfl)]
    exact congrArg _ (random_eq_vote D h x)
  have hshort : ¬P.quorum ≤ ({x} : Finset PublicKey).card := by
    have hpos := D.pos
    rw [Finset.card_singleton, Params.quorum]
    omega
  have hheld : ∀ r, held D 0 x {x} r = if r = 0 then {x} else ∅ := by
    intro r
    simp only [held, hshort, and_false, if_false, Nat.not_lt_zero]
  have hrec := recorded_cast (P := P) (spawn x addresses false) (D.vote h 0 x)
  rw [hfirst]
  refine ⟨rfl, fun r => ?_, ?_, fun r z hz hzx => ?_⟩
  · have hnew : (D.vote h 0 x).voteHash P ∉ (spawn x addresses false).keys h 0 := by
      rw [(filed_spawn x addresses false P).keys_eq_image, votes_spawn]
      exact Finset.notMem_empty _
    rw [hrec.votes hnew, votes_spawn, hheld]
    show (if h = h ∧ r = 0 then _ else _) = _
    by_cases hr : r = 0
    · rw [if_pos ⟨rfl, hr⟩, if_pos hr, hr]
      rfl
    · rw [if_neg fun hc => hr hc.2, if_neg hr]
      rfl
  · rw [casts_cast, if_neg hshort]
    rfl
  · rw [hheld] at hz
    split_ifs at hz
    · exact absurd (Finset.mem_singleton.mp hz) hzx
    · exact absurd hz (Finset.notMem_empty z)

end Core

/-! ## The system -/

namespace System

/-- The members are in round `n`, and the node `x` has been given the votes in `done x`. -/
structure Divided (D : Division P) (h : BlockHash)
    (addresses : PublicKey → List (PublicKey × SocketAddr)) (n : ℕ)
    (done : PublicKey → Finset PublicKey) (s : System) : Prop where
  reach : (network P D.members (InOrder P D.members)).Reachable (start addresses) s
  running : s.stopped = ∅
  stage : ∀ x ∈ D.members, Core.Stage D h n x (done x) (s.nodes x)

variable {D : Division P} {h : BlockHash}
  {addresses : PublicKey → List (PublicKey × SocketAddr)} {n : ℕ}
  {done : PublicKey → Finset PublicKey} {s : System}

/-- The vote of a member reaches another one in order. -/
theorem Divided.inOrder (hdigest : Function.Injective P.sha512)
    (hd : Divided D h addresses n done s) {x y : PublicKey} (hx : x ∈ D.members)
    (hy : y ∈ D.members) (hmax : n < u32Max) : InOrder P D.members s x (D.vote h n y) := by
  have hs := sound_node hdigest hd.reach x
  refine ⟨⟨hy, ?_⟩, hmax, fun p hp => ?_, fun hmis => ?_⟩
  · show D.vote h n y ∈ (s.nodes y).casts
    rw [(hd.stage y hy).casts]
    refine List.mem_map.mpr ⟨n, List.mem_range.mpr ?_, rfl⟩
    split_ifs <;> omega
  · cases n with
    | zero => cases hp
    | succ m =>
      obtain rfl := Option.some.inj hp
      show _ ⊆ (s.nodes x).keys h m
      rw [(hd.stage x hx).keys hs, Core.held_of_lt (Nat.lt_succ_self m)]
      exact Finset.image_subset_image (D.hears_subset y)
  · refine absurd hmis.2.2.2.2.2 (not_miscounted_of_zeroDecides ?_)
    show (Tally.fromVotes (insert (D.vote h n y) ((s.nodes x).votes h n))).counter .decide .zero = 0
    rw [(hd.stage x hx).votes, ← Division.polls_insert]
    have hdecide : VoteType.decide ≠ .initialVote := nofun
    exact Division.counter_polls_of_ne hdecide .zero

/-- **A vote more for one node.** -/
theorem Divided.hear (hdigest : Function.Injective P.sha512)
    (hd : Divided D h addresses n done s) {x y : PublicKey} (hx : x ∈ D.members)
    (hself : x ∈ done x) (hy : y ∈ D.members) (hnew : y ∉ done x)
    (hfits : D.Fits x (insert y (done x))) (hmax : n < u32Max) :
    ∃ s', Divided D h addresses n (Function.update done x (insert y (done x))) s' := by
  have hok := hd.inOrder hdigest hx hy hmax
  have htimely := timely_of_inOrder hdigest hd.reach hok
  have hverdict := validateVote_of_timely hdigest hd.reach hok.1.2 (htimely.2.2 hy)
    (exact_of_inOrder hdigest hd.reach _ _) (Draws.of false).validate
  obtain ⟨c, hstep, hstage⟩ := (hd.stage x hx).handleVote hdigest (sound_node hdigest hd.reach x)
    hnew hself hx hfits hmax hverdict
  have hturn : (s.nodes x).step P (.vote (D.vote h n y) (Draws.of false)) = some c := hstep
  refine ⟨s.next P ⟨x, .vote (D.vote h n y) (Draws.of false)⟩, hd.reach.step ⟨hx, ?_, ?_⟩, ?_, ?_⟩
  · rw [hd.running]
    exact Finset.notMem_empty x
  · intro v hv
    obtain rfl := Option.some.inj hv
    exact hok
  · rw [next, hturn]
    exact hd.running
  · intro z hz
    rw [nodes_next_of_some hturn]
    by_cases hzx : z = x
    · subst hzx
      rw [Function.update_self, Function.update_self]
      exact hstage
    · rw [Function.update_of_ne hzx, Function.update_of_ne hzx]
      exact hd.stage z hz

/-- The votes of some members for one node. -/
theorem Divided.hearAll (hdigest : Function.Injective P.sha512)
    (hd : Divided D h addresses n done s) {x : PublicKey} (hx : x ∈ D.members)
    (hself : x ∈ done x) (hmax : n < u32Max) (T : Finset PublicKey) (hT : T ⊆ D.members)
    (hfits : ∀ S ⊆ T, D.Fits x (done x ∪ S)) :
    ∃ s', Divided D h addresses n (Function.update done x (done x ∪ T)) s' := by
  induction T using Finset.induction_on with
  | empty =>
    refine ⟨s, ?_⟩
    rw [Finset.union_empty, Function.update_eq_self]
    exact hd
  | insert y T _ ih =>
    obtain ⟨s₁, hd₁⟩ := ih ((Finset.subset_insert y T).trans hT) fun S hS =>
      hfits S (hS.trans (Finset.subset_insert y T))
    have hdone : Function.update done x (done x ∪ T) x = done x ∪ T := Function.update_self ..
    rw [Finset.union_insert]
    by_cases hnew : y ∈ done x ∪ T
    · rw [Finset.insert_eq_of_mem hnew]
      exact ⟨s₁, hd₁⟩
    · have hself₁ : x ∈ Function.update done x (done x ∪ T) x := by
        rw [hdone]
        exact Finset.mem_union_left _ hself
      obtain ⟨s₂, hd₂⟩ := hd₁.hear hdigest hx hself₁ (hT (Finset.mem_insert_self y T))
        (by rw [hdone]; exact hnew)
        (by rw [hdone, ← Finset.union_insert]; exact hfits _ subset_rfl) hmax
      rw [hdone, Function.update_idem] at hd₂
      exact ⟨s₂, hd₂⟩

/-- One node gets all the votes of a round. -/
theorem Divided.complete (hdigest : Function.Injective P.sha512)
    (hd : Divided D h addresses n done s) {x : PublicKey} (hx : x ∈ D.members)
    (hself : done x = {x}) (hmax : n < u32Max) :
    ∃ s', Divided D h addresses n (Function.update done x D.members) s' := by
  have hmem : x ∈ D.hears x := by
    rcases Finset.mem_union.mp hx with hzero | hone
    · exact D.zeros_subset x hzero hzero
    · exact D.ones_subset x hone hone
  have hown : {x} ⊆ D.hears x := Finset.singleton_subset_iff.mpr hmem
  have hall : D.hears x ⊆ D.members := D.hears_subset x
  have hown' : x ∈ done x := by
    rw [hself]
    exact Finset.mem_singleton_self x
  -- first the quorum, then the others
  obtain ⟨s₁, hd₁⟩ := hd.hearAll hdigest hx hown' hmax (D.hears x) hall
    fun S hS => Or.inl (by rw [hself]; exact Finset.union_subset hown hS)
  rw [hself, Finset.union_eq_right.mpr hown] at hd₁
  have hdone : Function.update done x (D.hears x) x = D.hears x := Function.update_self ..
  obtain ⟨s₂, hd₂⟩ := hd₁.hearAll hdigest hx (by rw [hdone]; exact hmem) hmax D.members
    subset_rfl fun S _ => Or.inr (by rw [hdone]; exact Finset.subset_union_left)
  rw [hdone, Function.update_idem, Finset.union_eq_right.mpr hall] at hd₂
  exact ⟨s₂, hd₂⟩

/-- **A round.**  All the members get all the votes of the round. -/
theorem Divided.advance (hdigest : Function.Injective P.sha512)
    (hd : Divided D h addresses n (fun z => {z}) s) (hmax : n < u32Max) :
    ∃ s', Divided D h addresses (n + 1) (fun z => {z}) s' := by
  have hsome : ∀ X ⊆ D.members,
      ∃ s', Divided D h addresses n (fun z => if z ∈ X then D.members else {z}) s' := by
    intro X hX
    induction X using Finset.induction_on with
    | empty =>
      refine ⟨s, ?_⟩
      simpa using hd
    | insert x X hnew ih =>
      obtain ⟨s₁, hd₁⟩ := ih ((Finset.subset_insert x X).trans hX)
      obtain ⟨s₂, hd₂⟩ := hd₁.complete hdigest (hX (Finset.mem_insert_self x X))
        (if_neg hnew) hmax
      refine ⟨s₂, ?_⟩
      convert hd₂ using 1
      funext z
      by_cases hz : z = x
      · subst hz
        rw [Function.update_self, if_pos (Finset.mem_insert_self z X)]
      · rw [Function.update_of_ne hz]
        simp only [Finset.mem_insert, hz, false_or]
  obtain ⟨s', hd'⟩ := hsome D.members subset_rfl
  refine ⟨s', hd'.reach, hd'.running, fun x hx => ?_⟩
  have hst := hd'.stage x hx
  simp only [if_pos hx] at hst
  exact hst.next

/-- Everybody starts the election, each with the value of its side. -/
theorem exists_divided_zero (D : Division P) (h : BlockHash)
    (addresses : PublicKey → List (PublicKey × SocketAddr)) :
    ∃ s, Divided D h addresses 0 (fun z => {z}) s := by
  have hsome : ∀ X ⊆ D.members, ∃ s : System,
      (network P D.members (InOrder P D.members)).Reachable (start addresses) s ∧
        s.stopped = ∅ ∧ (∀ z ∈ X, Core.Stage D h 0 z {z} (s.nodes z)) ∧
          ∀ z ∉ X, s.nodes z = Core.spawn z (addresses z) false := by
    intro X hX
    induction X using Finset.induction_on with
    | empty =>
      refine ⟨start addresses, GuardedMachine.Reachable.refl, rfl, ?_, fun z _ => rfl⟩
      exact fun z hz => absurd hz (Finset.notMem_empty z)
    | insert x X hnew ih =>
      obtain ⟨s, hreach, hrunning, hstage, hrest⟩ := ih ((Finset.subset_insert x X).trans hX)
      have hturn : (s.nodes x).step P (.transaction ⟨h.digest⟩ (decide (D.value x = .one))) =
          some ((Core.spawn x (addresses x) false).castFirst P (decide (D.value x = .one)) h) := by
        rw [hrest x hnew]
        exact congrArg some (Core.handleTransaction_eq _ _ _)
      have hguard : (network P D.members (InOrder P D.members)).guard s
          ⟨x, .transaction ⟨h.digest⟩ (decide (D.value x = .one))⟩ :=
        ⟨hX (Finset.mem_insert_self x X), by rw [hrunning]; exact Finset.notMem_empty x,
          fun v hv => by cases hv⟩
      refine ⟨s.next P ⟨x, .transaction ⟨h.digest⟩ (decide (D.value x = .one))⟩,
        hreach.step hguard, ?_, fun z hz => ?_, fun z hz => ?_⟩
      · rw [next, hturn]
        exact hrunning
      · rw [nodes_next_of_some hturn]
        by_cases hzx : z = x
        · subst hzx
          rw [Function.update_self]
          exact Core.stage_castFirst_spawn D h z (addresses z)
        · rw [Function.update_of_ne hzx]
          exact hstage z (Finset.mem_of_mem_insert_of_ne hz hzx)
      · rw [Finset.mem_insert, not_or] at hz
        rw [nodes_next_of_some hturn, Function.update_of_ne hz.1]
        exact hrest z hz.2
  obtain ⟨s, hreach, hrunning, hstage, -⟩ := hsome D.members subset_rfl
  exact ⟨s, hreach, hrunning, hstage⟩

/-- The rounds one after the other. -/
theorem exists_divided (hdigest : Function.Injective P.sha512) (D : Division P) (h : BlockHash)
    (addresses : PublicKey → List (PublicKey × SocketAddr)) {n : ℕ} (hn : n ≤ u32Max) :
    ∃ s, Divided D h addresses n (fun z => {z}) s := by
  induction n with
  | zero => exact exists_divided_zero D h addresses
  | succ n ih =>
    obtain ⟨s, hd⟩ := ih (Nat.le_of_succ_le hn)
    exact hd.advance hdigest hn

/-- **An election need not end**, however many rounds it goes on.  Among any
`NUMBER_OF_TOTAL_NODES` nodes there are runs in order, without a fault and without a panic, in
which all of them vote in all the rounds up to `n`, all the votes of the rounds before `n` have
been handled by all of them, and nobody has decided anything. -/
theorem exists_undecided (hdigest : Function.Injective P.sha512)
    (hf : 0 < P.numberOfByzantineNodes) {members : Finset PublicKey}
    (hcard : members.card = P.numberOfTotalNodes) (h : BlockHash)
    (addresses : PublicKey → List (PublicKey × SocketAddr)) {n : ℕ} (hn : n ≤ u32Max) :
    ∃ s, (network P members (InOrder P members)).Reachable (start addresses) s ∧
      s.stopped = ∅ ∧
      (∀ x ∈ members, ∀ r ≤ n, ∃ v ∈ (s.nodes x).casts, v.electionHash = h ∧ v.round = r) ∧
      (∀ x ∈ members, ∀ y ∈ members, x ≠ y → ∀ v ∈ (s.nodes y).casts, v.round < n →
        v ∈ (s.nodes x).sentVotes) ∧
      ∀ x ∈ members, ∀ h', (s.nodes x).decided.lookup h' = none := by
  obtain ⟨D, rfl⟩ := Division.exists_division hf hcard
  obtain ⟨s, hd⟩ := exists_divided hdigest D h addresses hn
  have hshort : ∀ x : PublicKey, ¬P.quorum ≤ ({x} : Finset PublicKey).card := by
    intro x
    rw [Finset.card_singleton, Params.quorum]
    omega
  have hcasts : ∀ x ∈ D.members,
      (s.nodes x).casts = (List.range (n + 1)).map fun r => D.vote h r x := by
    intro x hx
    rw [(hd.stage x hx).casts, if_neg (hshort x)]
  refine ⟨s, hd.reach, hd.running, fun x hx r hr => ?_, fun x hx y hy hxy v hv hround => ?_,
    fun x hx => (hd.stage x hx).lookup_decided (sound_node hdigest hd.reach x)⟩
  · rw [hcasts x hx]
    exact ⟨D.vote h r x, List.mem_map.mpr ⟨r, List.mem_range.mpr (Nat.lt_succ_of_le hr), rfl⟩,
      rfl, rfl⟩
  · rw [hcasts y hy] at hv
    obtain ⟨r, -, rfl⟩ := List.mem_map.mp hv
    have hlt : r < n := hround
    refine (hd.stage x hx).heard r y ?_ fun heq => hxy heq.symm
    rw [Core.held_of_lt hlt]
    exact hy

/-- All the `2 ^ 32` rounds that there are. -/
theorem exists_undecided_four :
    ∃ s, (network Params.source four (InOrder Params.source four)).Reachable
        (start fun _ => []) s ∧ s.stopped = ∅ ∧
      (∀ x ∈ four, ∀ r ≤ u32Max, ∃ v ∈ (s.nodes x).casts, v.electionHash = block ∧
        v.round = r) ∧
      (∀ x ∈ four, ∀ y ∈ four, x ≠ y → ∀ v ∈ (s.nodes y).casts, v.round < u32Max →
        v ∈ (s.nodes x).sentVotes) ∧
      ∀ x ∈ four, ∀ h', (s.nodes x).decided.lookup h' = none :=
  exists_undecided Params.source_injective Params.source_pos card_four block (fun _ => []) le_rfl

end System
end NeroConsensus
