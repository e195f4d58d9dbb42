import NeroConsensus.Primary.Validation

/-!
# Turns of a node that is not Byzantine

`Sound` bundles what holds of a node that runs the code with `byzantine = false`: it
is well formed and its votes are justified.  One turn of the main loop keeps it
(`step_sound`), and so do the runs.

## Exact casts

A node casts on its running tally, which misses the `Decide`s for `Zero`.  `Exact`
says that no cast for an election rests on votes where this makes a difference.  It is not an
invariant of the code; what keeps it is that no call `Miscasts`: a call miscasts when
the vote it is given completes a quorum on which the node is about to cast, and that
quorum is miscounted.  `Miscasts` is a condition on the state before the call and on
the vote.

## Filtered machines

`filtered P ok` is the main loop fed with votes that satisfy `ok`, a condition on the
node and the vote.  Runs of the filtered machine are the runs of the node "all of
whose steps meet the condition".
-/

namespace NeroConsensus
namespace Core

variable {P : Params}

/-! ## Sound nodes -/

/-- What a node keeps that runs the code with `byzantine = false`. -/
structure Sound (P : Params) (c : Core) : Prop extends WellFormed P c, Justified P c where
  byzantine : c.byzantine = false

theorem sound_spawn (P : Params) (id : PublicKey) (addresses : List (PublicKey × SocketAddr)) :
    Sound P (spawn id addresses false) where
  toWellFormed := wellFormed_spawn id addresses false P
  toJustified :=
    { casts := fun v hv => by cases hv
      votes := fun h r v hv => by
        rw [votes_spawn] at hv
        exact absurd hv (Finset.notMem_empty v) }
  byzantine := rfl

theorem sound_extends_of_moves (hdigest : Function.Injective P.sha512) {c c' : Core}
    (hmoves : Relation.ReflTransGen (Move P) c c') (hs : Sound P c) :
    Sound P c' ∧ Extends c c' := by
  refine invariant_of_moves (I := fun s => Sound P s ∧ Extends c s) hmoves ?_
    ⟨hs, Extends.refl c⟩
  rintro s s' hmove ⟨hsound, hext⟩
  obtain ⟨hwf, hext'⟩ := hmove.wellFormed_extends hdigest hsound.toWellFormed
  have hj := hmove.justified hdigest hsound.toWellFormed hsound.byzantine hsound.toJustified
  exact ⟨⟨hwf, hj, hext'.byzantine.trans hsound.byzantine⟩, hext.trans hext'⟩

/-- **A turn keeps a node sound, and only adds to it.** -/
theorem step_sound (hdigest : Function.Injective P.sha512) {c c' : Core} {event : Event}
    (hstep : c.step P event = some c') (hs : Sound P c) : Sound P c' ∧ Extends c c' :=
  sound_extends_of_moves hdigest (moves_of_step hs.noPending hstep) hs

/-! ## A turn, in detail -/

section Turn

variable {c c' : Core} {v : PrimaryVote} {draws : Draws}

theorem afterReceipt_of_eq (hround : v.round = 0) :
    c.afterReceipt P draws v =
      ((c.relay v).record P v).castFirst P draws.ownValue v.electionHash := by
  rw [afterReceipt, if_pos hround]

theorem afterReceipt_of_ne (hround : v.round ≠ 0) :
    c.afterReceipt P draws v = (c.relay v).record P v := by
  rw [afterReceipt, if_neg hround]

theorem mem_casts_castFirst {h : BlockHash} {draw : Bool} {w : PrimaryVote}
    (hw : w ∈ (c.castFirst P draw h).casts) : w ∈ c.casts ∨ w.round = 0 := by
  unfold castFirst at hw
  split_ifs at hw
  · refine (mem_casts_cast.mp hw).imp_right fun heq => ?_
    rw [heq]
    rfl
  · exact Or.inl hw

/-- Until the vote of the next round, a call casts a vote of round 0 at most. -/
theorem mem_casts_afterReceipt {w : PrimaryVote}
    (hw : w ∈ (c.afterReceipt P draws v).casts) : w ∈ c.casts ∨ w.round = 0 := by
  by_cases hround : v.round = 0
  · rw [afterReceipt_of_eq hround] at hw
    have hcases := mem_casts_castFirst hw
    rw [casts_record, casts_relay] at hcases
    exact hcases
  · rw [afterReceipt_of_ne hround, casts_record, casts_relay] at hw
    exact Or.inl hw

theorem isDecided_castFirst (h h' : BlockHash) (draw : Bool) :
    ((c.castFirst P draw h).election h').isDecided = (c.election h').isDecided := by
  unfold castFirst
  split_ifs
  · exact isDecided_cast _ _ _
  · rfl

theorem isDecided_afterReceipt (h : BlockHash) :
    ((c.afterReceipt P draws v).election h).isDecided = (c.election h).isDecided := by
  by_cases hround : v.round = 0
  · rw [afterReceipt_of_eq hround, isDecided_castFirst, isDecided_record, election_relay]
  · rw [afterReceipt_of_ne hround, isDecided_record, election_relay]

theorem mem_elections_castFirst {h h' : BlockHash} {draw : Bool}
    (hh : h' ∈ (c.castFirst P draw h).elections) : h' = h ∨ h' ∈ c.elections := by
  unfold castFirst at hh
  split_ifs at hh
  · exact mem_elections_insertElection.mp hh
  · exact Or.inr hh

theorem mem_elections_afterReceipt {h' : BlockHash}
    (hh : h' ∈ (c.afterReceipt P draws v).elections) :
    h' = v.electionHash ∨ h' ∈ c.elections := by
  by_cases hround : v.round = 0
  · rw [afterReceipt_of_eq hround] at hh
    rcases mem_elections_castFirst hh with heq | hmem
    · exact Or.inl heq
    · exact mem_elections_insertElection.mp hmem
  · rw [afterReceipt_of_ne hround] at hh
    exact mem_elections_insertElection.mp hh

theorem mem_votes_castFirst {h h' : BlockHash} {r : Round} {draw : Bool} {w : PrimaryVote}
    (hw : w ∈ (c.castFirst P draw h).votes h' r) :
    w ∈ c.votes h' r ∨ w ∈ (c.castFirst P draw h).casts := by
  unfold castFirst at hw ⊢
  split_ifs at hw ⊢
  · rcases (recorded_cast c _).mem_votes hw with hold | heq
    · exact Or.inl hold
    · exact Or.inr (mem_casts_cast.mpr (Or.inr heq))
  · exact Or.inl hw

theorem mem_votes_afterReceipt {h : BlockHash} {r : Round} {w : PrimaryVote}
    (hw : w ∈ (c.afterReceipt P draws v).votes h r) :
    w ∈ c.votes h r ∨ w ∈ (c.afterReceipt P draws v).casts ∨ w = v := by
  by_cases hround : v.round = 0
  · rw [afterReceipt_of_eq hround] at hw ⊢
    rcases mem_votes_castFirst hw with hrecord | hcast
    · exact ((recorded_record (c.relay v) v).mem_votes hrecord).imp_right Or.inr
    · exact Or.inr (Or.inl hcast)
  · rw [afterReceipt_of_ne hround] at hw
    exact ((recorded_record (c.relay v) v).mem_votes hw).imp_right Or.inr

/-- **The outcomes of a call, in detail.**  A valid vote is stored, and then the node
may be ready to cast the vote of the next round. -/
theorem handleVote_outcomes (hp : c.NoPending) (h : c.handleVote P draws v = some c') :
    c' = c.relay v ∨
      (v.voteHash P ∉ c.keys v.electionHash v.round ∧
        c.validateVote P draws.validate v = some .valid ∧ v.round < u32Max ∧
        ((¬(c.afterReceipt P draws v).Ready P v.electionHash v.round ∧
            c' = c.afterReceipt P draws v) ∨
          ((c.afterReceipt P draws v).Ready P v.electionHash v.round ∧
            c' = ((c.afterReceipt P draws v).cast P
                ((c.afterReceipt P draws v).nextVote P draws.next v.electionHash
                  v.round)).conclude
              ((c.afterReceipt P draws v).nextVote P draws.next v.electionHash v.round)))) := by
  rcases handleVote_cases hp h with hrelay | ⟨hnew, hverdict, hmax, hafter⟩
  · exact Or.inl hrelay
  · refine Or.inr ⟨hnew, hverdict, hmax, ?_⟩
    rw [hafter, afterValid, castNext]
    split_ifs with hready
    · exact Or.inr ⟨hready, rfl⟩
    · exact Or.inl ⟨hready, rfl⟩

end Turn

/-- **Where the stored votes come from.**  After a turn a stored vote was there before,
or the node has cast it, or it is the vote that was handled, new and valid. -/
theorem mem_votes_step {c c' : Core} {event : Event} (hp : c.NoPending)
    (hstep : c.step P event = some c') {h : BlockHash} {r : Round} {w : PrimaryVote}
    (hw : w ∈ c'.votes h r) :
    w ∈ c.votes h r ∨ w ∈ c'.casts ∨ ∃ draws, event = .vote w draws ∧
      w.voteHash P ∉ c.keys w.electionHash w.round ∧
      c.validateVote P draws.validate w = some .valid := by
  cases event with
  | transaction tx draw =>
    obtain rfl := eq_castFirst_of_step hstep
    exact (mem_votes_castFirst hw).imp_right Or.inl
  | vote v draws =>
    rcases handleVote_outcomes hp hstep with
      rfl | ⟨hnew, hverdict, -, ⟨-, rfl⟩ | ⟨-, rfl⟩⟩
    · exact Or.inl hw
    · rcases mem_votes_afterReceipt hw with hold | hcast | rfl
      · exact Or.inl hold
      · exact Or.inr (Or.inl hcast)
      · exact Or.inr (Or.inr ⟨draws, rfl, hnew, hverdict⟩)
    · rw [casts_conclude, mem_casts_cast]
      rcases (recorded_conclude _ _).mem_votes hw with hbefore | heq
      · rcases mem_votes_afterReceipt hbefore with hold | hcast | rfl
        · exact Or.inl hold
        · exact Or.inr (Or.inl (Or.inl hcast))
        · exact Or.inr (Or.inr ⟨draws, rfl, hnew, hverdict⟩)
      · exact Or.inr (Or.inl (Or.inr heq))

theorem sentVotes_castFirst (c : Core) (h : BlockHash) (draw : Bool) :
    (c.castFirst P draw h).sentVotes = c.sentVotes := by
  unfold castFirst
  split_ifs
  · exact (recorded_cast c _).sentVotes
  · rfl

theorem sentVotes_afterReceipt (c : Core) (v : PrimaryVote) (draws : Draws) :
    (c.afterReceipt P draws v).sentVotes = insert v c.sentVotes := by
  by_cases hround : v.round = 0
  · rw [afterReceipt_of_eq hround, sentVotes_castFirst]
    rfl
  · rw [afterReceipt_of_ne hround]
    rfl

/-- **What a node has handled.**  A turn adds the vote it brings. -/
theorem mem_sentVotes_step {c c' : Core} {event : Event} (hp : c.NoPending)
    (hstep : c.step P event = some c') {w : PrimaryVote} (hw : w ∈ c'.sentVotes) :
    w ∈ c.sentVotes ∨ ∃ draws, event = .vote w draws := by
  cases event with
  | transaction tx draw =>
    rw [eq_castFirst_of_step hstep, sentVotes_castFirst] at hw
    exact Or.inl hw
  | vote v draws =>
    have hinsert : c'.sentVotes = insert v c.sentVotes := by
      rcases handleVote_outcomes hp hstep with rfl | ⟨-, -, -, ⟨-, rfl⟩ | ⟨-, rfl⟩⟩
      · rfl
      · exact sentVotes_afterReceipt c v draws
      · rw [sentVotes_conclude]
        exact sentVotes_afterReceipt c v draws
    rw [hinsert, Finset.mem_insert] at hw
    rcases hw with rfl | hold
    · exact Or.inr ⟨draws, rfl⟩
    · exact Or.inl hold

/-- **A new and valid vote is stored.** -/
theorem validated_handleVote {c c' : Core} {v : PrimaryVote} {draws : Draws}
    (hdigest : Function.Injective P.sha512) (hs : Sound P c)
    (hnew : v.voteHash P ∉ c.keys v.electionHash v.round)
    (hverdict : c.validateVote P draws.validate v = some .valid)
    (hstep : c.handleVote P draws v = some c') :
    c'.validated v.electionHash v.round (v.voteHash P) = some v := by
  have hnew' : v.voteHash P ∉ (c.roundState v.electionHash v.round).validatedVotes :=
    fun hc => hnew (Finmap.mem_keys.mpr hc)
  rw [handleVote_of_valid hnew' (hs.noPending _ _) hverdict] at hstep
  split_ifs at hstep with hmax
  have hrecord : Relation.ReflTransGen (Move P) c ((c.relay v).record P v) :=
    (Relation.ReflTransGen.single (Move.relay c v)).tail
      (Move.accept (c.relay v) v draws.validate hnew hverdict)
  have hrest : Relation.ReflTransGen (Move P) ((c.relay v).record P v)
      (c.afterValid P draws v) := by
    refine Relation.ReflTransGen.trans ?_ (moves_castNext _ _ draws.next hmax)
    unfold afterReceipt
    split_ifs
    · exact moves_castFirst _ _ _
    · exact Relation.ReflTransGen.refl
  have hsound := (sound_extends_of_moves hdigest hrecord hs).1
  rw [← Option.some.inj hstep]
  exact (sound_extends_of_moves hdigest hrest hsound).2.validated _ _ _ _
    (recorded_record (c.relay v) v).validated_self

/-! ## Exact casts -/

/-- Stored, the vote completes a quorum on which the node casts, and the quorum is
miscounted. -/
def Miscasts (P : Params) (c : Core) (v : PrimaryVote) : Prop :=
  v.round ≠ 0 ∧ v.voteHash P ∉ c.keys v.electionHash v.round ∧
    P.quorum ≤ (insert (v.voteHash P) (c.keys v.electionHash v.round)).card ∧
    (c.roundState v.electionHash (v.round + 1)).voted = false ∧
    (c.election v.electionHash).isDecided = false ∧
    Miscounted P (Tally.fromVotes (insert v (c.votes v.electionHash v.round)))

instance (c : Core) (v : PrimaryVote) : Decidable (c.Miscasts P v) :=
  inferInstanceAs (Decidable (_ ∧ _ ∧ _ ∧ _ ∧ _ ∧ _))

/-- No cast for the election rests on miscounted votes. -/
def Exact (P : Params) (c : Core) (h : BlockHash) : Prop :=
  ∀ v ∈ c.casts, v.electionHash = h → ∀ r, v.round = r + 1 → ∀ p, v.proof = some p →
    ¬Miscounted P (Tally.fromVotes (c.named h r p))

/-- In round 0 there is nothing to miscount. -/
theorem Filed.not_miscounted_zero {c : Core} (hf : Filed P c) (h : BlockHash) :
    ¬Miscounted P (Tally.fromVotes (c.votes h 0)) := by
  refine not_miscounted_of_zeroDecides ?_
  show (Tally.fromVotes (c.votes h 0)).counter .decide .zero = 0
  rw [Tally.counter_fromVotes, Finset.card_eq_zero, Finset.eq_empty_iff_forall_notMem]
  intro v hv
  obtain ⟨hv, htype, -⟩ := mem_votesOf.mp hv
  rw [hf.initial h _ v (hf.mem_votes_iff.mp hv)] at htype
  cases htype

section Exactness

variable {c c' : Core} {v : PrimaryVote} {draws : Draws} {h : BlockHash}

/-- A node about to cast on miscounted votes is one whose call miscasts. -/
theorem miscasts_of_ready (hmid : Filed P (c.afterReceipt P draws v))
    (hnew : v.voteHash P ∉ c.keys v.electionHash v.round)
    (hready : (c.afterReceipt P draws v).Ready P v.electionHash v.round)
    (hmis : Miscounted P
      (Tally.fromVotes ((c.afterReceipt P draws v).votes v.electionHash v.round))) :
    c.Miscasts P v := by
  by_cases hround : v.round = 0
  · rw [hround] at hmis
    exact absurd hmis (hmid.not_miscounted_zero _)
  · have hrec := recorded_record (P := P) (c.relay v) v
    obtain ⟨hquorum, hvoted, hopen⟩ := hready
    rw [isDecided_afterReceipt] at hopen
    rw [afterReceipt_of_ne hround] at hmis hquorum hvoted
    have hkeys := hrec.keys v.electionHash v.round
    rw [if_pos ⟨rfl, rfl⟩] at hkeys
    have hvotes := hrec.votes hnew v.electionHash v.round
    rw [if_pos ⟨rfl, rfl⟩] at hvotes
    rw [roundState_record, if_neg (fun hc => absurd hc.2 (Nat.succ_ne_self _))] at hvoted
    refine ⟨hround, hnew, ?_, hvoted, hopen, ?_⟩
    · rw [show insert (v.voteHash P) (c.keys v.electionHash v.round) =
        ((c.relay v).record P v).keys v.electionHash v.round from hkeys.symm]
      exact hquorum
    · rw [show insert v (c.votes v.electionHash v.round) =
        ((c.relay v).record P v).votes v.electionHash v.round from hvotes.symm]
      exact hmis

/-- Later on the old casts rest on the same votes. -/
theorem Exact.of_extends (hexact : Exact P c h) (hs : Sound P c) (hext : Extends c c')
    (hcasts : ∀ w ∈ c'.casts, w ∈ c.casts ∨ ∀ r, w.round = r + 1 → ∀ p, w.proof = some p →
      ¬Miscounted P (Tally.fromVotes (c'.named w.electionHash r p))) : Exact P c' h := by
  rintro w hw rfl r hr p hp
  rcases hcasts w hw with hold | hnew
  · rw [hext.named (hs.casts_of_proof hold hr hp).stored]
    exact hexact w hold rfl r hr p hp
  · exact hnew r hr p hp

/-- The casts have been exact before. -/
theorem Exact.anti (hexact : Exact P c' h) (hs : Sound P c) (hext : Extends c c') :
    Exact P c h := by
  rintro w hw rfl r hr p hp
  rw [← hext.named (hs.casts_of_proof hw hr hp).stored]
  exact hexact w (hext.mem_casts hw) rfl r hr p hp

theorem Exact.of_extends_zero (hexact : Exact P c h) (hs : Sound P c) (hext : Extends c c')
    (hcasts : ∀ w ∈ c'.casts, w ∈ c.casts ∨ w.round = 0) : Exact P c' h :=
  hexact.of_extends hs hext fun w hw => (hcasts w hw).imp_right fun hzero r hr => by
    rw [hzero] at hr
    exact absurd hr (Nat.succ_ne_zero r).symm

/-- **A call that does not miscast keeps the casts exact.** -/
theorem Exact.step (hdigest : Function.Injective P.sha512) (hs : Sound P c) {event : Event}
    (hstep : c.step P event = some c')
    (hok : ∀ v ∈ event.received, ¬c.Miscasts P v) (hexact : Exact P c h) :
    Exact P c' h := by
  have hext := (step_sound hdigest hstep hs).2
  cases event with
  | transaction tx draw =>
    obtain rfl := eq_castFirst_of_step hstep
    exact hexact.of_extends_zero hs hext fun w hw => mem_casts_castFirst hw
  | vote v draws =>
    rcases handleVote_outcomes hs.noPending hstep with
      rfl | ⟨hnew, hverdict, hmax, ⟨-, rfl⟩ | ⟨hready, hc'⟩⟩
    · exact hexact.of_extends_zero hs hext fun w hw => Or.inl hw
    · exact hexact.of_extends_zero hs hext fun w hw => mem_casts_afterReceipt hw
    · -- the new vote rests on the votes the node held when it cast it
      obtain ⟨hsmid, hextmid⟩ :=
        sound_extends_of_moves hdigest (moves_afterReceipt draws hnew hverdict) hs
      have hexmid := hexact.of_extends_zero hs hextmid fun w hw => mem_casts_afterReceipt hw
      have hnot := fun hmis => hok v rfl
        (miscasts_of_ready hsmid.toFiled hnew hready hmis)
      have hextc : Extends (c.afterReceipt P draws v) c' := by
        rw [hc']
        exact ((Move.castNext _ v.electionHash v.round draws.next hready
          hmax).wellFormed_extends hdigest hsmid.toWellFormed).2
      refine hexmid.of_extends hsmid hextc fun w hw => ?_
      rw [hc', casts_conclude, mem_casts_cast] at hw
      refine hw.imp_right fun heq r hr p hp => ?_
      subst heq
      have hrr : v.round = r := Nat.succ_injective hr
      subst hrr
      cases hp
      have hnamed := hextc.named (h := v.electionHash) (r := v.round) subset_rfl
      rw [named_keys] at hnamed
      show ¬Miscounted P (Tally.fromVotes (c'.named v.electionHash v.round
        ((c.afterReceipt P draws v).keys v.electionHash v.round)))
      rw [hnamed]
      exact hnot

end Exactness

/-! ## Filtered machines -/

/-- The main loop, fed with votes that satisfy `ok` when they are handled. -/
def filtered (P : Params) (ok : Core → PrimaryVote → Prop) : GuardedMachine Core Event where
  guard c event := (machine P).guard c event ∧ ∀ v ∈ event.received, ok c v
  next := (machine P).next

instance (ok : Core → PrimaryVote → Prop) [∀ c v, Decidable (ok c v)] (c : Core)
    (event : Event) : Decidable ((filtered P ok).guard c event) :=
  inferInstanceAs (Decidable (_ ∧ ∀ v ∈ event.received, ok c v))

theorem reachable_of_filtered {ok : Core → PrimaryVote → Prop} {c₀ c : Core}
    (h : (filtered P ok).Reachable c₀ c) : (machine P).Reachable c₀ c :=
  h.mono (fun _ _ => rfl) fun _ _ _ hguard => hguard.1

/-- **The nodes a run reaches are sound.** -/
theorem sound_of_reachable (hdigest : Function.Injective P.sha512) {id : PublicKey}
    {addresses : List (PublicKey × SocketAddr)} {c : Core}
    (h : (machine P).Reachable (spawn id addresses false) c) : Sound P c :=
  h.invariant (P := Sound P) (sound_spawn P id addresses) fun _ _ _ hs hguard =>
    (step_sound hdigest (machine_next hguard) hs).1

/-- **Without miscasts the casts are exact.** -/
theorem exact_of_reachable (hdigest : Function.Injective P.sha512)
    {ok : Core → PrimaryVote → Prop} (hok : ∀ c v, ok c v → ¬c.Miscasts P v)
    {id : PublicKey} {addresses : List (PublicKey × SocketAddr)} {c : Core}
    (hreach : (filtered P ok).Reachable (spawn id addresses false) c) (h : BlockHash) :
    Exact P c h := by
  refine hreach.invariant (P := fun c => Exact P c h) (fun v hv => by cases hv)
    fun s event hr hexact hguard => ?_
  exact hexact.step hdigest (sound_of_reachable hdigest (reachable_of_filtered hr))
    (machine_next hguard.1) fun v hv => hok s v (hguard.2 v hv)

end Core
end NeroConsensus
