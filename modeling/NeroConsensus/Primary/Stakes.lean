import NeroConsensus.Primary.Membership
import NeroConsensus.Primary.OwnVotes

/-!
# Quorums of votes and quorums of stake

There are two notions of a quorum.  `handle_vote` counts: it casts the vote of the next
round when a round holds `QUORUM` votes, a number that is compiled in.  The committee
weighs: `quorum_threshold` and `validity_threshold` are stakes, computed from the file the
node is started with.  Nothing calls the thresholds.

`Core.backers` are the authorities whose votes a vote names.  Where every `QUORUM`
authorities of the committee have the stake of the quorum threshold (`QuorumsWeigh`), the
backers of every cast vote have it, and any two sets of backers overlap in the validity
threshold.  This is all that can be said (`quorums_fit_iff`): any `QUORUM` authorities
are the backers of a vote in some run, in which each authority votes at most once.

A committee of the size and with the equal stakes the constants are made for meets the
condition (`quorumsWeigh_of_equal`); one of seven equal authorities does not
(`exists_underweight`).
-/

namespace NeroConsensus

/-! ## Committees that weigh enough -/

namespace Config.Committee

/-- Any `QUORUM` authorities have the stake `q`. -/
def QuorumsWeigh (P : Params) (com : Committee) (q : ℕ) : Prop :=
  ∀ s ⊆ com.names, P.quorum ≤ s.card → q ≤ com.weight s

/-- It is enough to weigh the smallest quorums. -/
theorem quorumsWeigh_of_card_eq {P : Params} {com : Committee} {q : ℕ}
    (h : ∀ s ⊆ com.names, s.card = P.quorum → q ≤ com.weight s) : com.QuorumsWeigh P q := by
  intro s hs hcard
  obtain ⟨t, ht, hcard'⟩ := Finset.exists_subset_card_eq hcard
  exact (h t (ht.trans hs) hcard').trans (com.weight_mono ht)

/-- `NUMBER_OF_TOTAL_NODES` authorities of the same stake weigh enough. -/
theorem quorumsWeigh_of_equal {P : Params} {com : Committee} {q a : ℕ}
    (hsize : com.size = P.numberOfTotalNodes) (hpos : 0 < a)
    (hequal : ∀ name ∈ com.names, com.stake name = a) (hq : com.quorumThreshold = some q) :
    com.QuorumsWeigh P q := by
  have hweight : ∀ s ⊆ com.names, com.weight s = s.card * a :=
    fun s hs => Finset.sum_const_nat fun name hname => hequal name (hs hname)
  refine quorumsWeigh_of_card_eq fun s hs hcard => ?_
  have htotal : com.weight com.names = 3 * (P.numberOfByzantineNodes * a) + a := by
    rw [hweight _ subset_rfl, com.card_names, hsize, Params.numberOfTotalNodes, Nat.add_mul,
      Nat.mul_assoc, Nat.one_mul]
  have hs' : com.weight s = 2 * (P.numberOfByzantineNodes * a) + a := by
    rw [hweight s hs, hcard, Params.quorum, Nat.add_mul, Nat.mul_assoc, Nat.one_mul]
  have hq' := eq_of_quorumThreshold hq
  omega

/-- The votes are signed by authorities, and each authority has one in a round of an
election. -/
def Polled (com : Committee) (received : List PrimaryVote) : Prop :=
  (∀ v ∈ received, v.signer ∈ com.names) ∧
    (received.map fun v => (v.electionHash, v.round, v.signer)).Nodup

/-- The node `name` of the committee gets to `c` on votes of authorities. -/
def Reaches (P : Params) (com : Committee) (name : PublicKey) (byzantine : Bool) (c : Core) :
    Prop :=
  ∃ c₀ events, Primary.spawn name com byzantine = some c₀ ∧
    (Core.machine P).Legal c₀ events ∧ com.Polled (Core.receivedVotes events) ∧
    c = (Core.machine P).run c₀ events

end Config.Committee

namespace Core

variable {P : Params}

/-! ## The backers of a vote -/

/-- The authorities whose votes a vote names. -/
def backers (c : Core) (v : PrimaryVote) : Finset PublicKey :=
  (c.named v.electionHash (v.round - 1) (v.proof.getD ∅)).image PrimaryVote.signer

theorem backers_eq {c : Core} {v : PrimaryVote} {r : Round} {p : Finset VoteHash}
    (hround : v.round = r + 1) (hproof : v.proof = some p) :
    c.backers v = (c.named v.electionHash r p).image PrimaryVote.signer := by
  rw [backers, hround, hproof]
  rfl

/-- The votes under a proof have the hashes that the proof names. -/
theorem Placed.image_signer_named {c : Core} (hp : Placed P c) {h : BlockHash} {r : Round}
    {p : Finset VoteHash} (hstored : p ⊆ c.keys h r) :
    ((c.named h r p).image PrimaryVote.signer).image (PublicKey.voteHash P) = p := by
  ext k
  rw [Finset.image_image, Finset.mem_image]
  constructor
  · rintro ⟨w, hw, rfl⟩
    obtain ⟨k, hk, hlookup⟩ := mem_named.mp hw
    rw [← (hp.place h r k w hlookup).1] at hk
    exact hk
  · intro hk
    obtain ⟨w, hw⟩ := mem_keys_iff.mp (hstored hk)
    exact ⟨w, mem_named.mpr ⟨k, hk, hw⟩, (hp.place h r k w hw).1⟩

/-- A vote for a later round names a quorum of stored votes. -/
def Quorate (P : Params) (c : Core) : Prop :=
  ∀ v ∈ c.casts, ∀ r, v.round = r + 1 →
    ∃ p, v.proof = some p ∧ P.quorum ≤ p.card ∧ p ⊆ c.keys v.electionHash r

section Moves

variable {c c' : Core} {v : PrimaryVote}

theorem Recorded.quorate (hrec : Recorded P c c' v) (hq : Quorate P c)
    (hcasts : ∀ w ∈ c'.casts, w ∈ c.casts ∨ ∀ r, w.round = r + 1 →
      ∃ p, w.proof = some p ∧ P.quorum ≤ p.card ∧ p ⊆ c.keys w.electionHash r) :
    Quorate P c' := by
  intro w hw r hround
  have hbefore : ∃ p, w.proof = some p ∧ P.quorum ≤ p.card ∧ p ⊆ c.keys w.electionHash r := by
    rcases hcasts w hw with hold | hnew
    · exact hq w hold r hround
    · exact hnew r hround
  obtain ⟨p, hproof, hcard, hstored⟩ := hbefore
  exact ⟨p, hproof, hcard, hstored.trans (hrec.keys_subset _ _)⟩

/-- **A vote for a later round is cast on a quorum**, by any node. -/
theorem Move.quorate (hmove : Move P c c') (hq : Quorate P c) : Quorate P c' := by
  cases hmove with
  | relay v => exact hq
  | accept v draw hnew hverdict => exact (recorded_record c v).quorate hq fun w hw => Or.inl hw
  | castFirst h draw hvoted =>
    refine (recorded_cast c _).quorate hq fun w hw => ?_
    refine (mem_casts_cast.mp hw).imp_right fun heq r hround => ?_
    rw [heq] at hround
    exact absurd hround (Nat.succ_ne_zero r).symm
  | castNext h r draw hready hmax =>
    refine (recorded_conclude c _).quorate hq fun w hw => ?_
    rw [casts_conclude] at hw
    refine (mem_casts_cast.mp hw).imp_right fun heq r' hround => ?_
    subst heq
    obtain rfl : r = r' := Nat.succ_injective hround
    exact ⟨_, rfl, hready.1, subset_rfl⟩

end Moves

theorem Reached.quorate {c : Core} (hreach : Reached P c) : Quorate P c :=
  hreach.invariant (fun _ _ _ v hv => by cases hv) fun _ _ hmove hq => hmove.quorate hq

/-- A quorum of authorities is behind every vote for a later round. -/
theorem Quorate.le_card_backers {c : Core} (hq : Quorate P c) (hp : Placed P c)
    {v : PrimaryVote} (hv : v ∈ c.casts) (hround : v.round ≠ 0) :
    P.quorum ≤ (c.backers v).card := by
  obtain ⟨r, hr⟩ := Nat.exists_eq_succ_of_ne_zero hround
  obtain ⟨p, hproof, hcard, hstored⟩ := hq v hv r hr
  rw [backers_eq hr hproof]
  have hle : (((c.named v.electionHash r p).image PrimaryVote.signer).image
      (PublicKey.voteHash P)).card ≤ _ := Finset.card_image_le
  rw [hp.image_signer_named hstored] at hle
  exact hcard.trans hle

/-! ## Any quorum of authorities may be the backers

The votes that bring this about are initial votes for `One` with an empty proof: the
decision on no votes is this vote, so they are valid in any round whose predecessor is
stored. -/

section Poll

variable {h : BlockHash} {r : Round}

/-- A vote that rests on nothing. -/
def bare (h : BlockHash) (r : Round) (name : PublicKey) : PrimaryVote :=
  PrimaryVote.new name r .one .initialVote (some ∅) h

/-- The draws by which a Byzantine node takes it for valid as well. -/
def bareDraws : Draws :=
  { Draws.of false with validate := (true, false) }

/-- The bare votes of some authorities, in a row. -/
def poll (h : BlockHash) (r : Round) (names : List PublicKey) : List Event :=
  names.map fun name => .vote (bare h r name) bareDraws

/-- A node that has voted in round 0, and will vote in round `r + 1` once it holds a quorum
in round `r`. -/
structure Awaiting (P : Params) (h : BlockHash) (r : Round) (c : Core) : Prop
    extends WellFormed P c where
  before : ∀ r', r = r' + 1 → r' ∈ (c.election h).state
  started : (c.roundState h 0).voted = true
  next : (c.roundState h (r + 1)).voted = false
  undecided : (c.election h).isDecided = false

theorem makeDecision_new (c : Core) :
    c.makeDecision P (true, false) Tally.new = ⟨.one, .initialVote⟩ := by
  unfold makeDecision
  split_ifs
  · rfl
  · have hsemi := P.semiQuorum_pos
    have hquorum := P.quorum_pos
    simp [decisionRule, Tally.new, hsemi, hquorum, Nat.not_le.mpr hsemi, Nat.not_le.mpr hquorum]

theorem Awaiting.validateVote_bare {c : Core} (ha : Awaiting P h r c) (name : PublicKey) :
    c.validateVote P (true, false) (bare h r name) = some .valid := by
  cases r with
  | zero => rfl
  | succ r =>
    refine (validateVote_valid_iff c _ rfl).mpr
      ⟨ha.before r rfl, ∅, rfl, Finset.empty_subset _, ?_⟩
    exact c.makeDecision_new

/-- What is left of a bare vote once it is received. -/
theorem Awaiting.afterReceipt_bare {c : Core} (ha : Awaiting P h r c) (name : PublicKey) :
    c.afterReceipt P bareDraws (bare h r name) =
      (c.relay (bare h r name)).record P (bare h r name) := by
  by_cases hround : (bare h r name).round = 0
  · have hgrows := grows_record (P := P) (c.relay (bare h r name)) (bare h r name)
    rw [afterReceipt_of_eq hround, castFirst, if_neg]
    exact ne_false_of_eq_true (hgrows.voted h 0 ha.started)
  · exact afterReceipt_of_ne hround

section Receipt

variable {c : Core} {name : PublicKey}

/-- Short of a quorum the node casts nothing. -/
theorem afterValid_bare_of_lt
    (hcard : ((c.afterReceipt P bareDraws (bare h r name)).keys h r).card < P.quorum) :
    c.afterValid P bareDraws (bare h r name) = c.afterReceipt P bareDraws (bare h r name) := by
  rw [afterValid, castNext]
  exact if_neg fun hready => absurd hcard (Nat.not_lt.mpr hready.1)

/-- With a quorum it casts a vote that names what it holds. -/
theorem Awaiting.exists_cast_of_le
    (hmid : Awaiting P h r (c.afterReceipt P bareDraws (bare h r name)))
    (hcard : P.quorum ≤ ((c.afterReceipt P bareDraws (bare h r name)).keys h r).card) :
    ∃ v ∈ (c.afterValid P bareDraws (bare h r name)).casts, v.electionHash = h ∧
      v.round = r + 1 ∧
      v.proof = some ((c.afterReceipt P bareDraws (bare h r name)).keys h r) := by
  have hready : (c.afterReceipt P bareDraws (bare h r name)).Ready P h r :=
    ⟨hcard, hmid.next, hmid.undecided⟩
  refine ⟨(c.afterReceipt P bareDraws (bare h r name)).nextVote P bareDraws.next h r, ?_,
    rfl, rfl, rfl⟩
  show _ ∈ (castNext P bareDraws.next _ h r).casts
  rw [castNext, if_pos hready, casts_conclude]
  exact mem_casts_cast.mpr (Or.inr rfl)

variable (ha : Awaiting P h r c) (hnew : name.voteHash P ∉ c.keys h r)

include ha hnew

/-- A new bare vote is stored, and the node waits for the others. -/
theorem Awaiting.receipt (hdigest : Function.Injective P.sha512) :
    Awaiting P h r (c.afterReceipt P bareDraws (bare h r name)) ∧
      (c.afterReceipt P bareDraws (bare h r name)).keys h r =
        insert (name.voteHash P) (c.keys h r) := by
  have hnew' : (bare h r name).voteHash P ∉
      c.keys (bare h r name).electionHash (bare h r name).round := hnew
  have hmoves := moves_afterReceipt bareDraws hnew' (ha.validateVote_bare name)
  have hwf := (wellFormed_extends_of_moves hdigest hmoves ha.toWellFormed).1
  have hgrows := grows_of_moves hmoves
  have hrec := recorded_record (P := P) (c.relay (bare h r name)) (bare h r name)
  rw [ha.afterReceipt_bare] at hwf hgrows ⊢
  refine ⟨⟨hwf, fun r' hr => hgrows.rounds h r' (ha.before r' hr), hgrows.voted h 0 ha.started,
    ?_, ?_⟩, ?_⟩
  · rw [roundState_record, if_neg fun hc => Nat.succ_ne_self r hc.2]
    exact ha.next
  · rw [isDecided_record]
    exact ha.undecided
  · rw [hrec.keys, if_pos ⟨rfl, rfl⟩]
    rfl

/-- The turn in which it is handled. -/
theorem Awaiting.turn (hmax : r < u32Max) :
    (machine P).guard c (.vote (bare h r name) bareDraws) ∧
      (machine P).next c (.vote (bare h r name) bareDraws) =
        c.afterValid P bareDraws (bare h r name) := by
  have hnew' : (bare h r name).voteHash P ∉ (c.roundState (bare h r name).electionHash
      (bare h r name).round).validatedVotes := fun hc => hnew (Finmap.mem_keys.mpr hc)
  have hround : (bare h r name).round < u32Max := hmax
  have hstep : c.step P (.vote (bare h r name) bareDraws) =
      some (c.afterValid P bareDraws (bare h r name)) := by
    show c.handleVote P bareDraws (bare h r name) = _
    rw [handleVote_of_valid hnew' (ha.noPending h r) (ha.validateVote_bare name), if_pos hround]
  constructor
  · show (c.step P _).isSome = true
    rw [hstep, Option.isSome_some]
  · show (c.step P _).getD c = _
    rw [hstep, Option.getD_some]

end Receipt

/-- **A poll of new authorities that completes a quorum** makes the node cast a vote for the
next round, and what the node holds then is what this vote names. -/
theorem Awaiting.exists_cast_of_poll (hdigest : Function.Injective P.sha512)
    (hmax : r < u32Max) : ∀ {names : List PublicKey} {c : Core}, Awaiting P h r c →
      names ≠ [] → names.Nodup → (∀ name ∈ names, name.voteHash P ∉ c.keys h r) →
      (c.keys h r).card + names.length = P.quorum →
      (machine P).Legal c (poll h r names) ∧
        ∃ v ∈ ((machine P).run c (poll h r names)).casts, v.electionHash = h ∧
          v.round = r + 1 ∧
          v.proof = some (c.keys h r ∪ (names.map (PublicKey.voteHash P)).toFinset) := by
  intro names
  induction names with
  | nil => exact fun _ hne => absurd rfl hne
  | cons name names ih =>
    intro c ha _ hnodup hnew hcard
    have hname := hnew name (List.mem_cons_self ..)
    obtain ⟨hmid, hkeys⟩ := ha.receipt hname hdigest
    obtain ⟨hguard, hnext⟩ := ha.turn hname hmax
    have hcard' : ((c.afterReceipt P bareDraws (bare h r name)).keys h r).card +
        names.length = P.quorum := by
      rw [hkeys, Finset.card_insert_of_notMem hname, ← hcard, List.length_cons]
      omega
    have hunion : (c.afterReceipt P bareDraws (bare h r name)).keys h r ∪
        (names.map (PublicKey.voteHash P)).toFinset =
          c.keys h r ∪ ((name :: names).map (PublicKey.voteHash P)).toFinset := by
      rw [hkeys, List.map_cons, List.toFinset_cons, Finset.insert_union, Finset.union_insert]
    cases names with
    | nil =>
      -- the last vote completes the quorum
      rw [List.map_nil, List.toFinset_nil, Finset.union_empty] at hunion
      refine ⟨⟨hguard, trivial⟩, ?_⟩
      show ∃ v ∈ ((machine P).next c _).casts, _
      rw [hnext, ← hunion]
      exact hmid.exists_cast_of_le hcard'.ge
    | cons name' names =>
      have hlt : ((c.afterReceipt P bareDraws (bare h r name)).keys h r).card < P.quorum := by
        rw [List.length_cons] at hcard'
        omega
      rw [afterValid_bare_of_lt hlt] at hnext
      obtain ⟨hname', hnodup'⟩ := List.nodup_cons.mp hnodup
      have hnew' : ∀ x ∈ name' :: names, x.voteHash P ∉
          (c.afterReceipt P bareDraws (bare h r name)).keys h r := by
        intro x hx
        rw [hkeys, Finset.mem_insert, not_or]
        refine ⟨fun heq => hname' ?_, hnew x (List.mem_cons_of_mem _ hx)⟩
        rw [← PublicKey.voteHash_injective hdigest heq]
        exact hx
      obtain ⟨hlegal, hcast⟩ := ih hmid (List.cons_ne_nil _ _) hnodup' hnew' hcard'
      rw [hunion] at hcast
      rw [← hnext] at hlegal hcast
      exact ⟨⟨hguard, hlegal⟩, hcast⟩

/-- The node that has handled a transaction holds its own vote of round 0. -/
theorem keys_castFirst_spawn (name : PublicKey) (addresses : List (PublicKey × SocketAddr))
    (byzantine draw : Bool) (h : BlockHash) (r : Round) :
    ((spawn name addresses byzantine).castFirst P draw h).keys h r =
      if r = 0 then {name.voteHash P} else ∅ := by
  have hempty : (spawn name addresses byzantine).keys h r = ∅ := by
    rw [keys, roundState_spawn]
    exact Finmap.keys_empty
  rw [castFirst, if_pos (by rw [roundState_spawn]; rfl), (recorded_cast _ _).keys, hempty]
  split_ifs with hr hround hround
  · rfl
  · exact absurd hr.2 hround
  · exact absurd ⟨rfl, hround⟩ hr
  · rfl

/-- It awaits votes of the first two rounds. -/
theorem awaiting_castFirst_spawn (hdigest : Function.Injective P.sha512) (name : PublicKey)
    (addresses : List (PublicKey × SocketAddr)) (byzantine draw : Bool) (h : BlockHash)
    {r : Round} (hr : r ≤ 1) :
    Awaiting P h r ((spawn name addresses byzantine).castFirst P draw h) where
  toWellFormed := (wellFormed_extends_of_moves hdigest (moves_castFirst _ h draw)
    (wellFormed_spawn name addresses byzantine P)).1
  before r' hr' := by
    rw [hr'] at hr
    obtain rfl : r' = 0 := Nat.le_zero.mp (Nat.le_of_succ_le_succ hr)
    have hown : name.voteHash P ∈
        ((spawn name addresses byzantine).castFirst P draw h).keys h 0 := by
      rw [keys_castFirst_spawn, if_pos rfl]
      exact Finset.mem_singleton_self _
    exact mem_state_of_mem_keys hown
  started := voted_castFirst _ h draw
  next := by
    have hwf := (wellFormed_extends_of_moves hdigest (moves_castFirst (P := P) _ h draw)
      (wellFormed_spawn name addresses byzantine P)).1
    rw [hwf.voted_eq_false, keys_castFirst_spawn, if_neg (Nat.succ_ne_zero r)]
    exact Finset.notMem_empty _
  undecided := by
    rw [isDecided_castFirst, election, spawn, Finmap.lookup_empty]
    rfl

end Poll

/-- The votes of a poll are those of authorities, each with one vote. -/
theorem polled_poll {com : Config.Committee} {names : List PublicKey} (h : BlockHash)
    (r : Round) (draw : Bool) (tx : Transaction) (hnodup : names.Nodup)
    (hnames : ∀ name ∈ names, name ∈ com.names) :
    com.Polled (receivedVotes (.transaction tx draw :: poll h r names)) := by
  have hreceived : receivedVotes (.transaction tx draw :: poll h r names) =
      names.map (bare h r) := by
    rw [receivedVotes, List.filterMap_cons_none rfl, poll, List.filterMap_map]
    exact List.filterMap_eq_map_iff_forall_eq_some.mpr fun _ _ => rfl
  rw [hreceived]
  refine ⟨fun v hv => ?_, ?_⟩
  · obtain ⟨name, hname, rfl⟩ := List.mem_map.mp hv
    exact hnames name hname
  · rw [List.map_map]
    exact hnodup.map fun x y hxy => congrArg (fun z => z.2.2) hxy

/-- A poll after a transaction has the authorities it completes to a quorum as backers. -/
theorem exists_reaches_of_poll (hdigest : Function.Injective P.sha512)
    {com : Config.Committee} {name : PublicKey} {byzantine : Bool}
    {addresses : List (PublicKey × SocketAddr)}
    (hspawn : Primary.spawn name com byzantine = some (spawn name addresses byzantine))
    (r : Round) (hr : r ≤ 1) (names : List PublicKey) (hne : names ≠ []) (hnodup : names.Nodup)
    (hnames : ∀ x ∈ names, x ∈ com.names)
    (hnew : ∀ x ∈ names, x.voteHash P ∉
      ((spawn name addresses byzantine).castFirst P false block).keys block r)
    (hcard : (((spawn name addresses byzantine).castFirst P false block).keys block r).card +
      names.length = P.quorum)
    {s : Finset PublicKey}
    (hkeys : ((spawn name addresses byzantine).castFirst P false block).keys block r ∪
      (names.map (PublicKey.voteHash P)).toFinset = s.image (PublicKey.voteHash P)) :
    ∃ c, com.Reaches P name byzantine c ∧ ∃ v ∈ c.casts, v.round ≠ 0 ∧ c.backers v = s := by
  have hmax : r < u32Max := Nat.lt_of_le_of_lt hr (by decide)
  have hnext : (machine P).next (spawn name addresses byzantine)
      (.transaction ⟨block.digest⟩ false) =
        (spawn name addresses byzantine).castFirst P false block :=
    eq_castFirst_of_step (machine_next rfl)
  obtain ⟨hlegal, hcast⟩ := (awaiting_castFirst_spawn hdigest name addresses byzantine false
    block hr).exists_cast_of_poll hdigest hmax hne hnodup hnew hcard
  rw [← hnext] at hlegal hcast
  have hrun : (machine P).Legal (spawn name addresses byzantine)
      (.transaction ⟨block.digest⟩ false :: poll block r names) := ⟨rfl, hlegal⟩
  obtain ⟨v, hv, hh, hround, hproof⟩ := hcast
  refine ⟨_, ⟨_, _, hspawn, hrun, polled_poll block r false _ hnodup hnames, rfl⟩, v, hv, ?_, ?_⟩
  · rw [hround]
    exact Nat.succ_ne_zero r
  · have hreach : Reached P ((machine P).run (spawn name addresses byzantine)
        (.transaction ⟨block.digest⟩ false :: poll block r names)) :=
      ⟨_, _, _, GuardedMachine.reachable_run _ hrun⟩
    obtain ⟨p, hp, -, hstored⟩ := hreach.quorate v hv r hround
    rw [hnext, hkeys] at hproof
    obtain rfl := Option.some.inj (hproof.symm.trans hp)
    rw [backers_eq hround hproof]
    exact Finset.image_injective (PublicKey.voteHash_injective hdigest)
      ((sourced_of_legal hrun).image_signer_named hstored)

theorem toFinset_map_toList (s : Finset PublicKey) :
    (s.toList.map (PublicKey.voteHash P)).toFinset = s.image (PublicKey.voteHash P) := by
  ext k
  simp only [List.mem_toFinset, List.mem_map, Finset.mem_toList, Finset.mem_image]

/-- **Any quorum of authorities are the backers of a vote**, in some run of any node. -/
theorem exists_reaches_backers (hdigest : Function.Injective P.sha512)
    (hf : 0 < P.numberOfByzantineNodes) {com : Config.Committee} {name : PublicKey}
    (hname : name ∈ com.names) (byzantine : Bool) {s : Finset PublicKey} (hs : s ⊆ com.names)
    (hcard : s.card = P.quorum) :
    ∃ c, com.Reaches P name byzantine c ∧ ∃ v ∈ c.casts, v.round ≠ 0 ∧ c.backers v = s := by
  obtain ⟨c₀, hspawn⟩ := Primary.exists_spawn hname byzantine
  obtain ⟨-, addresses, rfl⟩ := Primary.eq_of_spawn hspawn
  by_cases hown : name ∈ s
  · -- the node has voted in round 0 itself, and the others are polled there
    have hkeys : ((spawn name addresses byzantine).castFirst P false block).keys block 0 =
        {name.voteHash P} := by
      rw [keys_castFirst_spawn, if_pos rfl]
    have hothers : (s.erase name).card + 1 = s.card := Finset.card_erase_add_one hown
    have hquorum : P.quorum = 2 * P.numberOfByzantineNodes + 1 := rfl
    have hpos : 0 < (s.erase name).card := by omega
    refine exists_reaches_of_poll hdigest hspawn 0 (Nat.zero_le 1) (s.erase name).toList
      (fun hnil => ?_) (Finset.nodup_toList _) (fun x hx => ?_) (fun x hx => ?_) ?_ ?_
    · rw [Finset.toList_eq_nil.mp hnil, Finset.card_empty] at hpos
      exact Nat.lt_irrefl 0 hpos
    · exact hs (Finset.mem_of_mem_erase (Finset.mem_toList.mp hx))
    · rw [hkeys, Finset.mem_singleton]
      exact fun heq => (Finset.mem_erase.mp (Finset.mem_toList.mp hx)).1
        (PublicKey.voteHash_injective hdigest heq)
    · rw [hkeys, Finset.card_singleton, Finset.length_toList]
      omega
    · rw [hkeys, toFinset_map_toList, ← Finset.image_singleton,
        ← Finset.image_union, ← Finset.insert_eq, Finset.insert_erase hown]
  · -- the node votes in round 1 after a quorum in round 0, so everybody is polled there
    have hkeys : ((spawn name addresses byzantine).castFirst P false block).keys block 1 =
        ∅ := by
      rw [keys_castFirst_spawn, if_neg Nat.one_ne_zero]
    refine exists_reaches_of_poll hdigest hspawn 1 le_rfl s.toList
      (fun hnil => ?_) (Finset.nodup_toList _) (fun x hx => ?_) (fun x hx => ?_) ?_ ?_
    · rw [Finset.toList_eq_nil.mp hnil, Finset.card_empty] at hcard
      exact P.quorum_pos.ne hcard
    · exact hs (Finset.mem_toList.mp hx)
    · rw [hkeys]
      exact Finset.notMem_empty _
    · rw [hkeys, Finset.card_empty, Finset.length_toList, Nat.zero_add, hcard]
    · rw [hkeys, toFinset_map_toList, Finset.empty_union]

/-! ## When the two notions fit -/

/-- The backers of the votes a node casts on votes of authorities are authorities, and a
quorum of them. -/
theorem backers_of_reaches {com : Config.Committee} {name : PublicKey} {byzantine : Bool}
    {c : Core} (hreaches : com.Reaches P name byzantine c) {v : PrimaryVote} (hv : v ∈ c.casts)
    (hround : v.round ≠ 0) : c.backers v ⊆ com.names ∧ P.quorum ≤ (c.backers v).card := by
  obtain ⟨c₀, events, hspawn, hlegal, ⟨hsigned, -⟩, rfl⟩ := hreaches
  obtain ⟨hname, addresses, rfl⟩ := Primary.eq_of_spawn hspawn
  have hs := sourced_of_legal hlegal
  have hreach : Reached P _ := ⟨_, _, _, GuardedMachine.reachable_run _ hlegal⟩
  refine ⟨fun x hx => ?_, hreach.quorate.le_card_backers hs.toPlaced hv hround⟩
  obtain ⟨w, hw, rfl⟩ := Finset.mem_image.mp hx
  rcases hs.votes _ _ w (named_subset_votes _ _ _ _ hw) with hown | hreceived
  · rw [hown]
    exact hname
  · exact hsigned w hreceived

/-- The backers of every vote for a later round have the stake `q`. -/
def Weighs (com : Config.Committee) (q : ℕ) (c : Core) : Prop :=
  ∀ v ∈ c.casts, v.round ≠ 0 → q ≤ com.weight (c.backers v)

/-- **When the core's quorum fits the committee.**  The votes a node casts have backers with
the stake of the quorum threshold, in every run on votes of authorities, if and only if any
`QUORUM` authorities have it.  Then the backers of any two such votes, of one node or of
two, share the stake of the validity threshold. -/
theorem quorums_fit_iff (hdigest : Function.Injective P.sha512)
    (hf : 0 < P.numberOfByzantineNodes) {com : Config.Committee} {q t : ℕ}
    (hq : com.quorumThreshold = some q) (ht : com.validityThreshold = some t)
    {name : PublicKey} (hname : name ∈ com.names) (byzantine : Bool) :
    ((∀ c, com.Reaches P name byzantine c → c.Weighs com q) ↔ com.QuorumsWeigh P q) ∧
      (com.QuorumsWeigh P q → ∀ name name' byzantine byzantine' c c',
        com.Reaches P name byzantine c → com.Reaches P name' byzantine' c' →
          ∀ v ∈ c.casts, ∀ v' ∈ c'.casts, v.round ≠ 0 → v'.round ≠ 0 →
            t ≤ com.weight (c.backers v ∩ c'.backers v')) := by
  refine ⟨⟨fun hweighs => ?_, fun hquorums c hreaches v hv hround => ?_⟩, ?_⟩
  · refine Config.Committee.quorumsWeigh_of_card_eq fun s hs hcard => ?_
    obtain ⟨c, hreaches, v, hv, hround, rfl⟩ :=
      exists_reaches_backers hdigest hf hname byzantine hs hcard
    exact hweighs c hreaches v hv hround
  · obtain ⟨hsubset, hcard⟩ := backers_of_reaches hreaches hv hround
    exact hquorums _ hsubset hcard
  · intro hquorums name name' byzantine byzantine' c c' hc hc' v hv v' hv' hround hround'
    obtain ⟨hsubset, hcard⟩ := backers_of_reaches hc hv hround
    obtain ⟨hsubset', hcard'⟩ := backers_of_reaches hc' hv' hround'
    exact Config.Committee.validity_le_weight_inter hq ht hsubset hsubset'
      (hquorums _ hsubset hcard) (hquorums _ hsubset' hcard')

theorem quorums_fit_iff_quartet :
    ((∀ c, quartet.Reaches Params.source (authority 1) false c → c.Weighs quartet 3) ↔
        quartet.QuorumsWeigh Params.source 3) ∧
      (quartet.QuorumsWeigh Params.source 3 → ∀ name name' byzantine byzantine' c c',
        quartet.Reaches Params.source name byzantine c →
          quartet.Reaches Params.source name' byzantine' c' →
            ∀ v ∈ c.casts, ∀ v' ∈ c'.casts, v.round ≠ 0 → v'.round ≠ 0 →
              2 ≤ quartet.weight (c.backers v ∩ c'.backers v')) :=
  quorums_fit_iff Params.source_injective Params.source_pos (by decide +kernel)
    (by decide +kernel) (by decide +kernel) false

/-- Seven authorities with the same stake. -/
def septet : Config.Committee :=
  .ofStakes [(1, 1), (2, 1), (3, 1), (4, 1), (5, 1), (6, 1), (7, 1)]

/-- A node of the septet that sees two others vote in round 0. -/
def withTwo (name other other' : UInt8) : Core :=
  (machine Params.source).run
    ((Primary.spawn (authority name) septet false).getD (spawn (authority name) [] false))
    [.transaction ⟨block.digest⟩ false, .vote (firstBallot other .zero) (Draws.of false),
      .vote (firstBallot other' .zero) (Draws.of false)]

/-- **The quorum need not fit.**  Among seven authorities with stake 1 the thresholds are 5
and 3; two nodes cast for round 1 on the votes of three authorities each, and none of them is
behind both. -/
theorem exists_underweight :
    ∃ c c', septet.Reaches Params.source (authority 1) false c ∧
      septet.Reaches Params.source (authority 4) false c' ∧
      (∀ name ∈ septet.names, 0 < septet.stake name) ∧
      septet.quorumThreshold = some 5 ∧ septet.validityThreshold = some 3 ∧
      ∃ v ∈ c.casts, ∃ v' ∈ c'.casts, v.round = 1 ∧ v'.round = 1 ∧
        septet.weight (c.backers v) < 5 ∧ septet.weight (c'.backers v') < 5 ∧
        septet.weight (c.backers v ∩ c'.backers v') < 3 :=
  ⟨withTwo 1 2 3, withTwo 4 5 6,
    ⟨_, _, rfl, by decide +kernel, ⟨by decide +kernel, by decide +kernel⟩, rfl⟩,
    ⟨_, _, rfl, by decide +kernel, ⟨by decide +kernel, by decide +kernel⟩, rfl⟩,
    by decide +kernel, by decide +kernel, by decide +kernel, by decide +kernel⟩

end Core
end NeroConsensus
