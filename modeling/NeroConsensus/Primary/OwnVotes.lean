import NeroConsensus.Primary.Growth
import NeroConsensus.Primary.TallyExactness
import NeroConsensus.Primary.Turns

/-!
# What a node says

Three places of the code cast a vote: a transaction, the first vote of round 0 that is
handled, and a quorum.  This file is about the list of the votes they cast, over all the
runs of a node, Byzantine or not.

* `castsIn_of_reachable`: there is at most one for each election and round, and it is the
  vote stored there under the node's own key.  This is what the `voted` flags are for,
  and it rests on `Filed`: the flag of a round says whether the key is free.
* `decided_of_reachable`: none follows a `Decide`, so a decision is final.  The vote of
  the next round is cast in open elections only; the vote of round 0 is cast in new ones
  only, because a node that has an election stored has voted in its round 0 (`Opened`).

A `Decide` is the last vote of its election (`Final`).  That is an invariant of the turns
and not of the moves: in the middle of a turn an election is stored and its round 0 not
yet voted in.
-/

namespace NeroConsensus
namespace Core

variable {P : Params}

/-- The votes the node has broadcast for an election, oldest first. -/
def castsOf (c : Core) (h : BlockHash) : List PrimaryVote :=
  c.casts.filter fun v => v.electionHash = h

/-- The votes the node has broadcast for a round of an election. -/
def castsIn (c : Core) (h : BlockHash) (r : Round) : List PrimaryVote :=
  c.casts.filter fun v => v.electionHash = h ∧ v.round = r

theorem mem_castsOf {c : Core} {h : BlockHash} {v : PrimaryVote} :
    v ∈ c.castsOf h ↔ v ∈ c.casts ∧ v.electionHash = h := by
  rw [castsOf, List.mem_filter, decide_eq_true_iff]

theorem mem_castsIn {c : Core} {h : BlockHash} {r : Round} {v : PrimaryVote} :
    v ∈ c.castsIn h r ↔ v ∈ c.casts ∧ v.electionHash = h ∧ v.round = r := by
  rw [castsIn, List.mem_filter, decide_eq_true_iff]

/-! ## One vote a round -/

/-- No two broadcast votes are for one round of one election. -/
def Distinct (c : Core) : Prop :=
  c.casts.Pairwise fun v w => ¬(v.electionHash = w.electionHash ∧ v.round = w.round)

/-- A new own vote is for a round without one. -/
theorem Distinct.cast {c : Core} (hd : Distinct c) (ha : Accounted P c) {v : PrimaryVote}
    (hown : v.signer = c.id) (hnew : v.voteHash P ∉ c.keys v.electionHash v.round) :
    Distinct (c.cast P v) := by
  rw [Distinct, casts_cast, List.pairwise_append]
  refine ⟨hd, List.pairwise_singleton _ _, fun u hu w hw => ?_⟩
  obtain rfl := List.mem_singleton.mp hw
  rintro ⟨hh, hround⟩
  -- the earlier vote would be stored under the same key
  have hstored := ha.stored u hu
  rw [hh, hround, PrimaryVote.voteHash_eq, ha.own u hu, ← hown, ← PrimaryVote.voteHash_eq]
    at hstored
  exact hnew (mem_keys_iff.mpr ⟨u, hstored⟩)

theorem Move.distinct {c c' : Core} (hmove : Move P c c') (hw : WellFormed P c)
    (hd : Distinct c) : Distinct c' := by
  cases hmove with
  | relay v => exact hd
  | accept v draw hnew hverdict => exact hd
  | castFirst h draw hvoted =>
    exact hd.cast hw.toAccounted rfl (hw.toFiled.own_new _ rfl hvoted)
  | castNext h r draw hready hmax =>
    rw [Distinct, casts_conclude]
    exact hd.cast hw.toAccounted rfl (hw.toFiled.own_new _ rfl hready.2.1)

theorem Reached.distinct (hdigest : Function.Injective P.sha512) {c : Core}
    (hreach : Reached P c) : Distinct c := by
  refine (hreach.invariant (I := fun s => WellFormed P s ∧ Distinct s)
    (fun id addresses byzantine =>
      ⟨wellFormed_spawn id addresses byzantine P, List.Pairwise.nil⟩) ?_).2
  rintro s s' hmove ⟨hw, hd⟩
  exact ⟨(hmove.wellFormed_extends hdigest hw).1, hmove.distinct hw hd⟩

theorem Distinct.length_castsIn {c : Core} (hd : Distinct c) (h : BlockHash) (r : Round) :
    (c.castsIn h r).length ≤ 1 := by
  have hpair : (c.castsIn h r).Pairwise fun v w =>
      ¬(v.electionHash = w.electionHash ∧ v.round = w.round) := List.Pairwise.filter _ hd
  have hall : ∀ v ∈ c.castsIn h r, v.electionHash = h ∧ v.round = r :=
    fun v hv => (mem_castsIn.mp hv).2
  rcases hl : c.castsIn h r with _ | ⟨v, _ | ⟨w, l⟩⟩
  · exact Nat.zero_le 1
  · exact le_rfl
  · rw [hl] at hpair hall
    obtain ⟨hvh, hvround⟩ := hall v (List.mem_cons_self ..)
    obtain ⟨hwh, hwround⟩ := hall w (List.mem_cons_of_mem _ (List.mem_cons_self ..))
    exact absurd ⟨hvh.trans hwh.symm, hvround.trans hwround.symm⟩
      ((List.pairwise_cons.mp hpair).1 w (List.mem_cons_self ..))

/-- **A node never equivocates.**  Whatever it is given and whatever it draws: it
broadcasts at most one vote for a round of an election, and from then on that vote is
stored there under its own key. -/
theorem castsIn_of_reachable (hdigest : Function.Injective P.sha512) {id : PublicKey}
    {addresses : List (PublicKey × SocketAddr)} {byzantine : Bool} {c : Core}
    (hreach : (machine P).Reachable (spawn id addresses byzantine) c) (h : BlockHash)
    (r : Round) :
    (c.castsIn h r).length ≤ 1 ∧
      ∀ v ∈ c.castsIn h r, v.signer = id ∧ ∀ c', (machine P).Reachable c c' →
        c'.validated h r (id.voteHash P) = some v ∧ c'.castsIn h r = [v] := by
  obtain ⟨hws, hext⟩ := wellFormed_extends_of_reachable hdigest hreach
    (wellFormed_spawn id addresses byzantine P)
  refine ⟨(Reached.distinct hdigest ⟨_, _, _, hreach⟩).length_castsIn h r, fun v hv => ?_⟩
  obtain ⟨hcast, hh, hround⟩ := mem_castsIn.mp hv
  have hsigner : v.signer = id := (hws.own v hcast).trans hext.id
  refine ⟨hsigner, fun c' hlater => ?_⟩
  obtain ⟨hws', hext'⟩ := wellFormed_extends_of_reachable hdigest hlater hws
  have hcast' := hext'.mem_casts hcast
  refine ⟨?_, ?_⟩
  · have hstored := hws'.stored v hcast'
    rw [hh, hround, PrimaryVote.voteHash_eq, hsigner] at hstored
    exact hstored
  · have hmem : v ∈ c'.castsIn h r := mem_castsIn.mpr ⟨hcast', hh, hround⟩
    have hone :=
      (Reached.distinct hdigest ⟨_, _, _, hreach.trans hlater⟩).length_castsIn h r
    obtain ⟨u, hu⟩ := List.length_eq_one_iff.mp (le_antisymm hone (List.length_pos_of_mem hmem))
    rw [hu, List.mem_singleton] at hmem
    rw [hu, hmem]

/-- A node that is told to start an election twice. -/
def twiceStarted : Core :=
  (machine Params.source).run (spawn (authority 1) [] false)
    [.transaction ⟨block.digest⟩ false, .transaction ⟨block.digest⟩ true]

theorem castsIn_of_reachable_twiceStarted :
    (twiceStarted.castsIn block 0).length ≤ 1 ∧
      ∀ v ∈ twiceStarted.castsIn block 0, v.signer = authority 1 ∧
        ∀ c', (machine Params.source).Reachable twiceStarted c' →
          c'.validated block 0 ((authority 1).voteHash Params.source) = some v ∧
            c'.castsIn block 0 = [v] :=
  castsIn_of_reachable Params.source_injective
    (GuardedMachine.reachable_run _ (by decide +kernel)) block 0

/-! ## Elections that are open -/

/-- A node has voted in round 0 of the elections it has stored. -/
def Opened (c : Core) : Prop :=
  ∀ h ∈ c.elections, (c.roundState h 0).voted = true

theorem voted_castFirst (c : Core) (h : BlockHash) (draw : Bool) :
    ((c.castFirst P draw h).roundState h 0).voted = true := by
  unfold castFirst
  split_ifs with hvoted
  · rw [roundState_cast, roundState_record, if_pos ⟨rfl, rfl⟩]
    exact (voted_receive _ _ _).mpr (Or.inr rfl)
  · exact eq_true_of_ne_false hvoted

/-- A node that has not voted in round 0 of an election does not have it, so it has not
decided it. -/
theorem Opened.isDecided_eq_false {c : Core} (ho : Opened c) {h : BlockHash}
    (hvoted : (c.roundState h 0).voted = false) : (c.election h).isDecided = false := by
  have hnew : h ∉ c.elections := fun hmem => by
    rw [ho h hmem] at hvoted
    cases hvoted
  rw [election, Finmap.lookup_eq_none.mpr hnew]
  rfl

section Turn

variable {c c' : Core} {v : PrimaryVote} {draws : Draws}

theorem Opened.of_grows (ho : Opened c) (hgrows : Grows c c')
    (hnew : ∀ h ∈ c'.elections, h ∈ c.elections ∨ (c'.roundState h 0).voted = true) :
    Opened c' := by
  intro h hh
  rcases hnew h hh with hold | hvoted
  · exact hgrows.voted h 0 (ho h hold)
  · exact hvoted

theorem Opened.castFirst (ho : Opened c) (h : BlockHash) (draw : Bool) :
    Opened (c.castFirst P draw h) := by
  refine ho.of_grows (grows_of_moves (moves_castFirst c h draw)) fun h' hh' => ?_
  rcases mem_elections_castFirst hh' with rfl | hold
  · exact Or.inr (voted_castFirst c h' draw)
  · exact Or.inl hold

/-- A valid vote comes into an election that is stored, or it is of round 0 and the node
votes as well. -/
theorem Opened.afterReceipt (ho : Opened c)
    (hnew : v.voteHash P ∉ c.keys v.electionHash v.round)
    (hverdict : c.validateVote P draws.validate v = some .valid) :
    Opened (c.afterReceipt P draws v) := by
  refine ho.of_grows (grows_of_moves (moves_afterReceipt draws hnew hverdict)) fun h hh => ?_
  rcases mem_elections_afterReceipt hh with rfl | hold
  · cases hround : v.round with
    | zero =>
      rw [afterReceipt_of_eq hround]
      exact Or.inr (voted_castFirst _ _ _)
    | succ r =>
      obtain ⟨hstored, -⟩ := (validateVote_valid_iff c draws.validate hround).mp hverdict
      exact Or.inl (mem_elections_of_mem_state hstored)
  · exact Or.inl hold

/-- A node that is ready to cast has votes, so the election is stored. -/
theorem mem_elections_of_ready {h : BlockHash} {r : Round} (hready : c.Ready P h r) :
    h ∈ c.elections := by
  obtain ⟨k, hk⟩ := Finset.card_pos.mp (P.quorum_pos.trans_le hready.1)
  exact mem_elections_of_mem_state (mem_state_of_mem_keys hk)

theorem Opened.castNext (ho : Opened c) {h : BlockHash} {r : Round} (draw : Bool × Bool)
    (hready : c.Ready P h r) (hmax : r < u32Max) :
    Opened ((c.cast P (c.nextVote P draw h r)).conclude (c.nextVote P draw h r)) := by
  refine ho.of_grows (Move.castNext c h r draw hready hmax).grows fun h' hh' => Or.inl ?_
  rcases mem_elections_conclude.mp hh' with ⟨-, rfl⟩ | hmem
  · exact mem_elections_of_ready hready
  · rcases mem_elections_insertElection.mp hmem with rfl | hold
    · exact mem_elections_of_ready hready
    · exact hold

/-- **A turn leaves no election without a vote in round 0.** -/
theorem Opened.step (ho : Opened c) (hp : c.NoPending) {event : Event}
    (hstep : c.step P event = some c') : Opened c' := by
  cases event with
  | transaction tx draw =>
    rw [eq_castFirst_of_step hstep]
    exact ho.castFirst tx.digest draw
  | vote v draws =>
    rcases handleVote_outcomes hp hstep with
      rfl | ⟨hnew, hverdict, hmax, ⟨-, rfl⟩ | ⟨hready, rfl⟩⟩
    · exact ho
    · exact ho.afterReceipt hnew hverdict
    · exact (ho.afterReceipt hnew hverdict).castNext draws.next hready hmax

/-! ## The last vote -/

/-- No vote follows a `Decide` of the same election. -/
def Final (c : Core) : Prop :=
  c.casts.Pairwise fun v w => v.electionHash = w.electionHash → v.voteType ≠ .decide

/-- A vote for an open election follows no `Decide`. -/
theorem Final.cast (hf : Final c) (hs : Settled c)
    (hopen : (c.election v.electionHash).isDecided = false) : Final (c.cast P v) := by
  rw [Final, casts_cast, List.pairwise_append]
  refine ⟨hf, List.pairwise_singleton _ _, fun u hu w hw hh htype => ?_⟩
  obtain rfl := List.mem_singleton.mp hw
  rw [(hs.isDecided _).mpr ⟨u, hu, hh, htype⟩] at hopen
  cases hopen

theorem Final.castFirst (hf : Final c) (hs : Settled c) (ho : Opened c) (h : BlockHash)
    (draw : Bool) : Final (c.castFirst P draw h) := by
  unfold Core.castFirst
  split_ifs with hvoted
  · exact hf.cast hs (ho.isDecided_eq_false hvoted)
  · exact hf

/-- In the middle of a turn the vote of round 0 comes into an open election as well. -/
theorem Final.afterReceipt (hf : Final c) (hs : Settled c) (ho : Opened c) :
    Final (c.afterReceipt P draws v) := by
  by_cases hround : v.round = 0
  · rw [afterReceipt_of_eq hround]
    unfold Core.castFirst
    split_ifs with hvoted
    · refine Final.cast hf ((hs.relay v).record v) ?_
      have hbefore : (c.roundState v.electionHash 0).voted = false :=
        Bool.eq_false_of_not_eq_true fun htrue => by
          rw [(grows_record (P := P) (c.relay v) v).voted _ _ htrue] at hvoted
          cases hvoted
      exact (isDecided_record (c.relay v) v v.electionHash).trans
        (ho.isDecided_eq_false hbefore)
    · exact hf
  · rw [afterReceipt_of_ne hround]
    exact hf

theorem settled_of_moves (hmoves : Relation.ReflTransGen (Move P) c c') (hs : Settled c) :
    Settled c' :=
  invariant_of_moves hmoves (fun _ _ hmove hs => hmove.settled hs) hs

/-- **A turn casts nothing after a `Decide`.** -/
theorem Final.step (hf : Final c) (hs : Settled c) (ho : Opened c) (hp : c.NoPending)
    {event : Event} (hstep : c.step P event = some c') : Final c' := by
  cases event with
  | transaction tx draw =>
    rw [eq_castFirst_of_step hstep]
    exact hf.castFirst hs ho tx.digest draw
  | vote v draws =>
    rcases handleVote_outcomes hp hstep with
      rfl | ⟨hnew, hverdict, -, ⟨-, rfl⟩ | ⟨hready, rfl⟩⟩
    · exact hf
    · exact hf.afterReceipt hs ho
    · rw [Final, casts_conclude]
      exact (hf.afterReceipt hs ho).cast
        (settled_of_moves (moves_afterReceipt draws hnew hverdict) hs) hready.2.2

end Turn

/-- What a node keeps whatever the digest is. -/
structure Steady (c : Core) : Prop where
  noPending : c.NoPending
  settled : Settled c
  opened : Opened c
  final : Final c

/-- **Every reachable node is steady, and has grown.** -/
theorem steady_grows_of_reachable {c₀ c : Core} (hreach : (machine P).Reachable c₀ c)
    (hs : Steady c₀) : Steady c ∧ Grows c₀ c := by
  refine hreach.invariant (P := fun s => Steady s ∧ Grows c₀ s) ⟨hs, Grows.refl c₀⟩ ?_
  rintro s event - ⟨hsteady, hgrows⟩ hguard
  have hstep := machine_next hguard
  have hmoves := moves_of_step hsteady.noPending hstep
  exact ⟨⟨noPending_of_moves hmoves hsteady.noPending,
    settled_of_moves hmoves hsteady.settled, hsteady.opened.step hsteady.noPending hstep,
    hsteady.final.step hsteady.settled hsteady.opened hsteady.noPending hstep⟩,
    hgrows.trans (grows_of_moves hmoves)⟩

theorem steady_spawn (id : PublicKey) (addresses : List (PublicKey × SocketAddr))
    (byzantine : Bool) : Steady (spawn id addresses byzantine) where
  noPending := noPending_spawn id addresses byzantine
  settled := settled_spawn id addresses byzantine
  opened _ hh := absurd hh Finmap.notMem_empty
  final := List.Pairwise.nil

theorem Final.castsOf {c : Core} (hf : Final c) (h : BlockHash) :
    (c.castsOf h).Pairwise fun v w => v.electionHash = w.electionHash → v.voteType ≠ .decide :=
  List.Pairwise.filter _ hf

/-- In a decided election the `Decide` is the last vote, and the only one of its type. -/
theorem Final.exists_castsOf {c : Core} (hf : Final c) {v : PrimaryVote} (hv : v ∈ c.casts)
    (htype : v.voteType = .decide) : ∃ l, c.castsOf v.electionHash = l ++ [v] ∧
      ∀ w ∈ l, w.voteType ≠ .decide := by
  have hpair := hf.castsOf v.electionHash
  obtain ⟨l, l', hl⟩ := List.append_of_mem (mem_castsOf.mpr ⟨hv, rfl⟩)
  have hall : ∀ w ∈ l ++ v :: l', w.electionHash = v.electionHash := by
    intro w hw
    rw [← hl] at hw
    exact (mem_castsOf.mp hw).2
  rw [hl, List.pairwise_append, List.pairwise_cons] at hpair
  have hnil : l' = [] := by
    refine List.eq_nil_iff_forall_not_mem.mpr fun w hw => ?_
    exact hpair.2.1.1 w hw (hall w (by simp [hw])).symm htype
  subst hnil
  refine ⟨l, hl, fun w hw => hpair.2.2 w hw v (List.mem_cons_self ..) ?_⟩
  exact hall w (List.mem_append_left _ hw)

/-- **A decision is final.**  In every state that a node reaches, an election is decided
where `decided` has an entry; the entry is the value of the one `Decide` the node has
cast, which is its last vote for the election; and neither the entry nor the list of these
votes ever changes again. -/
theorem decided_of_reachable {c : Core} (hreach : Reached P c) (h : BlockHash) :
    ((c.election h).isDecided = true ↔ ∃ b, c.decided.lookup h = some b) ∧
      ∀ b, c.decided.lookup h = some b →
        (∃ l v, c.castsOf h = l ++ [v] ∧ (∀ w ∈ l, w.voteType ≠ .decide) ∧
          v.voteType = .decide ∧ v.value = b) ∧
        ∀ c', (machine P).Reachable c c' →
          c'.decided.lookup h = some b ∧ c'.castsOf h = c.castsOf h := by
  obtain ⟨id, addresses, byzantine, hrun⟩ := hreach
  obtain ⟨hsteady, -⟩ := steady_grows_of_reachable hrun (steady_spawn id addresses byzantine)
  refine ⟨?_, fun b hb => ?_⟩
  · rw [hsteady.settled.isDecided]
    constructor
    · rintro ⟨v, hv, hh, htype⟩
      exact ⟨v.value, (hsteady.settled.decided h _).mpr ⟨v, hv, hh, htype, rfl⟩⟩
    · rintro ⟨b, hb⟩
      obtain ⟨v, hv, hh, htype, -⟩ := (hsteady.settled.decided h b).mp hb
      exact ⟨v, hv, hh, htype⟩
  · obtain ⟨v, hv, rfl, htype, rfl⟩ := (hsteady.settled.decided h b).mp hb
    obtain ⟨l, hl, hinitial⟩ := hsteady.final.exists_castsOf hv htype
    refine ⟨⟨l, v, hl, hinitial, htype, rfl⟩, fun c' hlater => ?_⟩
    obtain ⟨hsteady', hgrows⟩ := steady_grows_of_reachable hlater hsteady
    have hv' := hgrows.casts.subset hv
    refine ⟨(hsteady'.settled.decided _ _).mpr ⟨v, hv', rfl, htype, rfl⟩, ?_⟩
    obtain ⟨t, ht⟩ := hgrows.casts
    have hsplit : c'.castsOf v.electionHash = c.castsOf v.electionHash ++
        t.filter fun w => w.electionHash = v.electionHash := by
      rw [castsOf, castsOf, ← ht, List.filter_append]
    -- what has been cast since then would follow the `Decide`
    have hpair := hsteady'.final.castsOf v.electionHash
    rw [hsplit, hl, List.pairwise_append] at hpair
    have hnil : (t.filter fun w => w.electionHash = v.electionHash) = [] := by
      refine List.eq_nil_iff_forall_not_mem.mpr fun w hw => ?_
      have hh := decide_eq_true_iff.mp (List.mem_filter.mp hw).2
      exact hpair.2.2 v (List.mem_append_right l (List.mem_singleton_self v)) w hw hh.symm htype
    rw [hsplit, hnil, List.append_nil]

/-- A node that sees everybody vote for `Zero` decides. -/
theorem decided_of_reachable_unanimousRun :
    ((((machine Params.source).run (spawn (authority 1) [] false) unanimousRun).election
        block).isDecided = true ↔
      ∃ b, ((machine Params.source).run (spawn (authority 1) [] false) unanimousRun
        ).decided.lookup block = some b) ∧
      ∀ b, ((machine Params.source).run (spawn (authority 1) [] false) unanimousRun
        ).decided.lookup block = some b →
        (∃ l v, ((machine Params.source).run (spawn (authority 1) [] false) unanimousRun
            ).castsOf block = l ++ [v] ∧ (∀ w ∈ l, w.voteType ≠ .decide) ∧
          v.voteType = .decide ∧ v.value = b) ∧
        ∀ c', (machine Params.source).Reachable
            ((machine Params.source).run (spawn (authority 1) [] false) unanimousRun) c' →
          c'.decided.lookup block = some b ∧
            c'.castsOf block = ((machine Params.source).run (spawn (authority 1) [] false)
              unanimousRun).castsOf block :=
  decided_of_reachable ⟨_, _, _, GuardedMachine.reachable_run _ (by decide +kernel)⟩ block

end Core
end NeroConsensus
