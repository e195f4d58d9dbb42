import NeroConsensus.Primary.Moves

/-!
# Invariants of a node

What holds of a node in every state its main loop can reach, whatever transactions
and votes it is fed: forged votes, votes of any round, repeated votes.

* `Filed`: the stored votes are where they belong.  No vote is pending, a vote is
  stored under its own key in its own round of its own election, the running tally is
  the running tally of the stored votes, and the `voted` flag says whether the node's
  own key is taken.
* `Accounted`: what the node broadcast it has stored, and it has decided exactly when
  it broadcast a `Decide`.

The two together are `WellFormed`, an invariant of the moves (`Move.wellFormed_extends`) and
so of the runs (`wellFormed_extends_of_reachable`).  The digest has to tell the node's key from
the keys of others, or a vote of another signer would take its place.

`Extends` is the order in which a node grows: entries stay, casts stay, decisions
stay.  Every reachable state extends the ones before it.
-/

namespace NeroConsensus
namespace Core

variable {P : Params}

/-! ## Nothing is pending -/

/-- No vote is kept as unvalidated. -/
def NoPending (c : Core) : Prop :=
  ∀ h r, (c.roundState h r).unvalidatedVotes = ∅

theorem noPending_spawn (id : PublicKey) (addresses : List (PublicKey × SocketAddr))
    (byzantine : Bool) : (spawn id addresses byzantine).NoPending := by
  intro h r
  rw [roundState, election, spawn, Finmap.lookup_empty]
  rfl

theorem Recorded.noPending {c c' : Core} {v : PrimaryVote} (hrec : Recorded P c c' v)
    (hp : c.NoPending) : c'.NoPending := by
  intro h r
  rw [hrec.roundState, roundState_record]
  split_ifs
  · rw [unvalidatedVotes_receive, hp]
  · exact hp h r

theorem Move.noPending {c c' : Core} (hmove : Move P c c') (hp : c.NoPending) :
    c'.NoPending := by
  cases hmove with
  | relay v => exact hp
  | accept v draw hnew hverdict => exact (recorded_record c v).noPending hp
  | castFirst h draw hvoted => exact (recorded_cast c _).noPending hp
  | castNext h r draw hready hmax => exact (recorded_conclude c _).noPending hp

theorem noPending_of_moves {c c' : Core} (hmoves : Relation.ReflTransGen (Move P) c c')
    (hp : c.NoPending) : c'.NoPending := by
  induction hmoves with
  | refl => exact hp
  | tail _ hmove ih => exact hmove.noPending ih

/-! ## The invariants -/

/-- The stored votes are where they belong. -/
structure Filed (P : Params) (c : Core) : Prop where
  noPending : c.NoPending
  place : ∀ h r k v, c.validated h r k = some v →
    v.voteHash P = k ∧ v.round = r ∧ v.electionHash = h
  tally : ∀ h r, (c.roundState h r).tally = (Tally.fromVotes (c.votes h r)).running
  voted : ∀ h r, (c.roundState h r).voted = true ↔ c.id.voteHash P ∈ c.keys h r
  initial : ∀ h k v, c.validated h 0 k = some v → v.voteType = .initialVote

/-- What the node broadcast is stored, and a broadcast `Decide` is a decision. -/
structure Accounted (P : Params) (c : Core) : Prop where
  own : ∀ v ∈ c.casts, v.signer = c.id
  stored : ∀ v ∈ c.casts, c.validated v.electionHash v.round (v.voteHash P) = some v
  isDecided : ∀ h, (c.election h).isDecided = true ↔
    ∃ v ∈ c.casts, v.electionHash = h ∧ v.voteType = .decide
  decided : ∀ h b, c.decided.lookup h = some b ↔
    ∃ v ∈ c.casts, v.electionHash = h ∧ v.voteType = .decide ∧ v.value = b

structure WellFormed (P : Params) (c : Core) : Prop extends Filed P c, Accounted P c

/-- The part of the accounts that does not depend on the digest. -/
structure Settled (c : Core) : Prop where
  isDecided : ∀ h, (c.election h).isDecided = true ↔
    ∃ v ∈ c.casts, v.electionHash = h ∧ v.voteType = .decide
  decided : ∀ h b, c.decided.lookup h = some b ↔
    ∃ v ∈ c.casts, v.electionHash = h ∧ v.voteType = .decide ∧ v.value = b

theorem Accounted.settled {c : Core} (ha : Accounted P c) : Settled c :=
  ⟨ha.isDecided, ha.decided⟩

/-- `c'` has everything `c` has. -/
structure Extends (c c' : Core) : Prop where
  id : c'.id = c.id
  byzantine : c'.byzantine = c.byzantine
  validated : ∀ h r k v, c.validated h r k = some v → c'.validated h r k = some v
  casts : c.casts <+: c'.casts
  sentVotes : c.sentVotes ⊆ c'.sentVotes

theorem Extends.refl (c : Core) : Extends c c :=
  ⟨rfl, rfl, fun _ _ _ _ h => h, List.prefix_rfl, subset_rfl⟩

theorem Extends.trans {c₁ c₂ c₃ : Core} (h₁ : Extends c₁ c₂) (h₂ : Extends c₂ c₃) :
    Extends c₁ c₃ :=
  ⟨h₂.id.trans h₁.id, h₂.byzantine.trans h₁.byzantine,
    fun h r k v hv => h₂.validated h r k v (h₁.validated h r k v hv),
    h₁.casts.trans h₂.casts, h₁.sentVotes.trans h₂.sentVotes⟩

theorem Extends.mem_casts {c c' : Core} (h : Extends c c') {v : PrimaryVote}
    (hv : v ∈ c.casts) : v ∈ c'.casts :=
  h.casts.subset hv

theorem Extends.keys {c c' : Core} (hext : Extends c c') (h : BlockHash) (r : Round) :
    c.keys h r ⊆ c'.keys h r := by
  intro k hk
  obtain ⟨v, hv⟩ := mem_keys_iff.mp hk
  exact mem_keys_iff.mpr ⟨v, hext.validated h r k v hv⟩

theorem Extends.votes {c c' : Core} (hext : Extends c c') (h : BlockHash) (r : Round) :
    c.votes h r ⊆ c'.votes h r := by
  intro v hv
  obtain ⟨k, hk⟩ := mem_votes.mp hv
  exact mem_votes.mpr ⟨k, hext.validated h r k v hk⟩

/-- A proof whose hashes are all there names the same votes later on. -/
theorem Extends.named {c c' : Core} (hext : Extends c c') {h : BlockHash} {r : Round}
    {proof : Finset VoteHash} (hproof : proof ⊆ c.keys h r) :
    c'.named h r proof = c.named h r proof := by
  refine named_congr fun k hk => ?_
  obtain ⟨v, hv⟩ := mem_keys_iff.mp (hproof hk)
  rw [hv, hext.validated h r k v hv]

/-! ## First consequences -/

namespace Filed

variable {c : Core} (hf : Filed P c)

include hf

theorem mem_votes_iff {h : BlockHash} {r : Round} {v : PrimaryVote} :
    v ∈ c.votes h r ↔ c.validated h r (v.voteHash P) = some v := by
  rw [mem_votes]
  constructor
  · rintro ⟨k, hk⟩
    rw [(hf.place h r k v hk).1, hk]
  · exact fun hv => ⟨_, hv⟩

/-- A stored vote is of the round and the election it is stored in. -/
theorem place_of_mem_votes {h : BlockHash} {r : Round} {v : PrimaryVote}
    (hv : v ∈ c.votes h r) : v.round = r ∧ v.electionHash = h :=
  (hf.place h r _ v (hf.mem_votes_iff.mp hv)).2

/-- In one round of one election there is one vote a signer. -/
theorem signer_injective {h : BlockHash} {r : Round} {v w : PrimaryVote}
    (hv : v ∈ c.votes h r) (hw : w ∈ c.votes h r) (hsigner : v.signer = w.signer) : v = w := by
  rw [hf.mem_votes_iff, PrimaryVote.voteHash_eq, hsigner] at hv
  rw [hf.mem_votes_iff, PrimaryVote.voteHash_eq, hv] at hw
  exact Option.some.inj hw

/-- A proof whose hashes are all there names as many votes as it has hashes. -/
theorem card_named {h : BlockHash} {r : Round} {proof : Finset VoteHash}
    (hproof : proof ⊆ c.keys h r) : (c.named h r proof).card = proof.card :=
  Finmap.card_valuesOn (PrimaryVote.voteHash P) (fun k v hv => (hf.place h r k v hv).1) hproof

theorem card_votes (h : BlockHash) (r : Round) : (c.votes h r).card = (c.keys h r).card :=
  hf.card_named (show c.keys h r ⊆ c.keys h r from subset_rfl)

theorem notMem_votes {v : PrimaryVote} {h : BlockHash} {r : Round}
    (hnew : v.voteHash P ∉ c.keys h r) : v ∉ c.votes h r := by
  intro hv
  exact hnew (mem_keys_iff.mpr ⟨v, hf.mem_votes_iff.mp hv⟩)

/-- The node has not voted exactly where its key is free. -/
theorem voted_eq_false {h : BlockHash} {r : Round} :
    (c.roundState h r).voted = false ↔ c.id.voteHash P ∉ c.keys h r := by
  rw [← hf.voted h r, Bool.not_eq_true]

end Filed

/-! ## Moves keep the invariants -/

section Moves

variable {c c' : Core} {v : PrimaryVote}

theorem Recorded.place (hrec : Recorded P c c' v)
    (hplace : ∀ h r k w, c.validated h r k = some w →
      w.voteHash P = k ∧ w.round = r ∧ w.electionHash = h) :
    ∀ h r k w, c'.validated h r k = some w →
      w.voteHash P = k ∧ w.round = r ∧ w.electionHash = h := by
  intro h r k w hw
  rcases hrec.validated_cases hw with ⟨rfl, rfl, rfl, rfl⟩ | hold
  · exact ⟨rfl, rfl, rfl⟩
  · exact hplace h r k w hold

/-- Recording a new vote keeps the stored votes in their places. -/
theorem Recorded.filed (hdigest : Function.Injective P.sha512) (hf : Filed P c)
    (hrec : Recorded P c c' v) (hnew : v.voteHash P ∉ c.keys v.electionHash v.round)
    (hinitial : v.round = 0 → v.voteType = .initialVote) : Filed P c' where
  noPending := hrec.noPending hf.noPending
  place := hrec.place hf.place
  tally h r := by
    rw [hrec.votes hnew, hrec.roundState, roundState_record]
    split_ifs with hcond
    · obtain ⟨rfl, rfl⟩ := hcond
      rw [tally_receive]
      exact RoundState.tally_tallyVote _ (hf.notMem_votes hnew) (hf.tally _ _)
    · exact hf.tally h r
  voted h r := by
    rw [hrec.keys, hrec.id, hrec.roundState, roundState_record]
    split_ifs with hcond
    · have hkey : c.id.voteHash P = v.voteHash P ↔ v.signer = c.id := by
        rw [PrimaryVote.voteHash_eq, (PublicKey.voteHash_injective hdigest).eq_iff, eq_comm]
      rw [voted_receive, Finset.mem_insert, hkey, hf.voted, or_comm]
    · exact hf.voted h r
  initial h k w hw := by
    rcases hrec.validated_cases hw with ⟨rfl, hround, rfl, rfl⟩ | hold
    · exact hinitial hround.symm
    · exact hf.initial h k w hold

theorem Recorded.extends (hrec : Recorded P c c' v)
    (hnew : v.voteHash P ∉ c.keys v.electionHash v.round) (hcasts : c.casts <+: c'.casts) :
    Extends c c' :=
  ⟨hrec.id, hrec.byzantine, fun _ _ _ _ hw => hrec.validated_of_some hnew hw, hcasts,
    hrec.sentVotes ▸ subset_rfl⟩

/-- A vote of round 0 that is judged valid is an initial vote. -/
theorem voteType_of_validateVote_zero {draw : Bool × Bool} (hround : v.round = 0)
    (hverdict : c.validateVote P draw v = some .valid) : v.voteType = .initialVote := by
  unfold validateVote at hverdict
  rw [if_neg (fun hc => hc hround)] at hverdict
  split_ifs at hverdict with htype
  · cases hverdict
  · cases hv : v.voteType with
    | initialVote => rfl
    | commit => exact absurd (Or.inl hv) htype
    | decide => exact absurd (Or.inr hv) htype

/-- A vote that decides nothing settles nothing. -/
theorem Settled.cast (hs : Settled c) (htype : v.voteType ≠ .decide) :
    Settled (c.cast P v) where
  isDecided h := by
    rw [isDecided_cast, hs.isDecided, exists_mem_casts_cast]
    exact (or_iff_left fun hc => htype hc.2).symm
  decided h b := by
    show c.decided.lookup h = some b ↔ _
    rw [hs.decided, exists_mem_casts_cast]
    exact (or_iff_left fun hc => htype hc.2.1).symm

/-- A `Decide` settles an election that is not decided. -/
theorem Settled.castDecide (hs : Settled c) (htype : v.voteType = .decide)
    (hopen : (c.election v.electionHash).isDecided = false) :
    Settled ((c.cast P v).conclude v) where
  isDecided h := by
    rw [isDecided_conclude, isDecided_cast, hs.isDecided, casts_conclude,
      exists_mem_casts_cast]
    exact or_congr_right and_comm
  decided h b := by
    have hnone : ∀ w ∈ c.casts, w.electionHash = v.electionHash → w.voteType ≠ .decide := by
      intro w hw hh hd
      rw [(hs.isDecided _).mpr ⟨w, hw, hh, hd⟩] at hopen
      cases hopen
    have hlookup : ((c.cast P v).conclude v).decided =
        c.decided.insert v.electionHash v.value := by
      rw [conclude, if_pos htype]
      rfl
    rw [hlookup, casts_conclude, exists_mem_casts_cast]
    by_cases hh : h = v.electionHash
    · subst hh
      rw [Finmap.lookup_insert]
      constructor
      · exact fun hb => Or.inr ⟨rfl, htype, Option.some.inj hb⟩
      · rintro (⟨w, hw, hwh, hd, -⟩ | ⟨-, -, hb⟩)
        · exact absurd hd (hnone w hw hwh)
        · rw [hb]
    · rw [Finmap.lookup_insert_of_ne _ hh, hs.decided]
      exact (or_iff_left fun hc => hh hc.1.symm).symm

theorem Settled.relay (hs : Settled c) (v : PrimaryVote) : Settled (c.relay v) :=
  ⟨hs.isDecided, hs.decided⟩

theorem Settled.record (hs : Settled c) (v : PrimaryVote) : Settled (c.record P v) where
  isDecided h := by
    rw [isDecided_record]
    exact hs.isDecided h
  decided := hs.decided

theorem conclude_of_ne (htype : v.voteType ≠ .decide) : c.conclude v = c := by
  rw [conclude, if_neg htype]

/-- **Moves keep what is settled.** -/
theorem Move.settled (hmove : Move P c c') (hs : Settled c) : Settled c' := by
  cases hmove with
  | relay v => exact hs.relay v
  | accept v draw hnew hverdict => exact hs.record v
  | castFirst h draw hvoted => exact hs.cast VoteType.noConfusion
  | castNext h r draw hready hmax =>
    by_cases htype : (c.nextVote P draw h r).voteType = .decide
    · exact hs.castDecide htype hready.2.2
    · rw [conclude_of_ne htype]
      exact hs.cast htype

/-- Casting a vote that decides nothing keeps the accounts. -/
theorem Accounted.cast (ha : Accounted P c) (hown : v.signer = c.id)
    (hnew : v.voteHash P ∉ c.keys v.electionHash v.round) (htype : v.voteType ≠ .decide) :
    Accounted P (c.cast P v) where
  own w hw := by
    rcases mem_casts_cast.mp hw with hw | rfl
    · exact ha.own w hw
    · exact hown
  stored w hw := by
    rcases mem_casts_cast.mp hw with hw | rfl
    · exact (recorded_cast c v).validated_of_some hnew (ha.stored w hw)
    · exact (recorded_cast c w).validated_self
  isDecided := (ha.settled.cast htype).isDecided
  decided := (ha.settled.cast htype).decided

/-- Casting a `Decide`, in an election that is not decided, keeps the accounts. -/
theorem Accounted.castDecide (ha : Accounted P c) (hown : v.signer = c.id)
    (hnew : v.voteHash P ∉ c.keys v.electionHash v.round) (htype : v.voteType = .decide)
    (hopen : (c.election v.electionHash).isDecided = false) :
    Accounted P ((c.cast P v).conclude v) where
  own w hw := by
    rw [casts_conclude, mem_casts_cast] at hw
    rw [id_conclude]
    rcases hw with hw | rfl
    · exact ha.own w hw
    · exact hown
  stored w hw := by
    rw [casts_conclude, mem_casts_cast] at hw
    rcases hw with hw | rfl
    · exact (recorded_conclude c v).validated_of_some hnew (ha.stored w hw)
    · exact (recorded_conclude c w).validated_self
  isDecided := (ha.settled.castDecide htype hopen).isDecided
  decided := (ha.settled.castDecide htype hopen).decided

/-- Recording a vote of another, or an echo, leaves the accounts alone. -/
theorem Accounted.record (ha : Accounted P c)
    (hnew : v.voteHash P ∉ c.keys v.electionHash v.round) : Accounted P (c.record P v) where
  own := ha.own
  stored w hw := (recorded_record c v).validated_of_some hnew (ha.stored w hw)
  isDecided := (ha.settled.record v).isDecided
  decided := (ha.settled.record v).decided

/-- The own vote of a round is new where the node has not voted. -/
theorem Filed.own_new (hf : Filed P c) (own : PrimaryVote) (hown : own.signer = c.id)
    (hvoted : (c.roundState own.electionHash own.round).voted = false) :
    own.voteHash P ∉ c.keys own.electionHash own.round := by
  rw [PrimaryVote.voteHash_eq, hown]
  exact hf.voted_eq_false.mp hvoted

/-- **Moves keep a node well formed, and only add to it.** -/
theorem Move.wellFormed_extends (hdigest : Function.Injective P.sha512)
    (hmove : Move P c c') (hw : WellFormed P c) : WellFormed P c' ∧ Extends c c' := by
  cases hmove with
  | relay v =>
    exact ⟨⟨⟨hw.noPending, hw.place, hw.tally, hw.voted, hw.initial⟩,
      ⟨hw.own, hw.stored, hw.isDecided, hw.decided⟩⟩,
      ⟨rfl, rfl, fun _ _ _ _ h => h, List.prefix_rfl, Finset.subset_insert _ _⟩⟩
  | accept v draw hnew hverdict =>
    have hrec := recorded_record (P := P) c v
    exact ⟨⟨hrec.filed hdigest hw.toFiled hnew
        (fun hr => voteType_of_validateVote_zero hr hverdict),
      hw.toAccounted.record hnew⟩, hrec.extends hnew List.prefix_rfl⟩
  | castFirst h draw hvoted =>
    have hnew := hw.toFiled.own_new (PrimaryVote.random c.id h draw) rfl hvoted
    have hrec := recorded_cast (P := P) c (PrimaryVote.random c.id h draw)
    exact ⟨⟨hrec.filed hdigest hw.toFiled hnew (fun _ => rfl),
      hw.toAccounted.cast rfl hnew VoteType.noConfusion⟩,
      hrec.extends hnew (by rw [casts_cast]; exact List.prefix_append _ _)⟩
  | castNext h r draw hready hmax =>
    set own := c.nextVote P draw h r with hown
    have hsigner : own.signer = c.id := rfl
    have hnew := hw.toFiled.own_new own hsigner hready.2.1
    have hrec := recorded_conclude (P := P) c own
    have hfiled := hrec.filed hdigest hw.toFiled hnew
      (fun hr => absurd hr (Nat.succ_ne_zero r))
    have hextends := hrec.extends hnew (by
      rw [casts_conclude, casts_cast]
      exact List.prefix_append _ _)
    by_cases htype : own.voteType = .decide
    · exact ⟨⟨hfiled, hw.toAccounted.castDecide hsigner hnew htype hready.2.2⟩, hextends⟩
    · rw [conclude_of_ne htype] at hfiled hextends ⊢
      exact ⟨⟨hfiled, hw.toAccounted.cast hsigner hnew htype⟩, hextends⟩

end Moves

/-! ## Runs keep the invariants -/

section Spawn

variable (id : PublicKey) (addresses : List (PublicKey × SocketAddr)) (byzantine : Bool)

theorem roundState_spawn (h : BlockHash) (r : Round) :
    (spawn id addresses byzantine).roundState h r = RoundState.new h := by
  rw [roundState, election, spawn, Finmap.lookup_empty]
  rfl

theorem validated_spawn (h : BlockHash) (r : Round) (k : VoteHash) :
    (spawn id addresses byzantine).validated h r k = none := by
  rw [validated, roundState_spawn]
  exact Finmap.lookup_empty k

theorem votes_spawn (h : BlockHash) (r : Round) :
    (spawn id addresses byzantine).votes h r = ∅ := by
  rw [votes, roundState_spawn]
  exact Finmap.values_empty

theorem filed_spawn (P : Params) : Filed P (spawn id addresses byzantine) where
  noPending := noPending_spawn id addresses byzantine
  place h r k v hv := by
    rw [validated_spawn] at hv
    cases hv
  tally h r := by
    rw [votes_spawn, roundState_spawn]
    rfl
  voted h r := by
    rw [roundState_spawn, mem_keys_iff]
    refine iff_of_false Bool.false_ne_true ?_
    rintro ⟨v, hv⟩
    rw [validated_spawn] at hv
    cases hv
  initial h k v hv := by
    rw [validated_spawn] at hv
    cases hv

theorem settled_spawn : Settled (spawn id addresses byzantine) where
  isDecided h := by
    rw [election, spawn, Finmap.lookup_empty]
    refine iff_of_false Bool.false_ne_true ?_
    rintro ⟨v, hv, -⟩
    cases hv
  decided h b := by
    rw [spawn, Finmap.lookup_empty]
    refine iff_of_false (fun hd => by cases hd) ?_
    rintro ⟨v, hv, -⟩
    cases hv

theorem accounted_spawn (P : Params) : Accounted P (spawn id addresses byzantine) where
  own v hv := by cases hv
  stored v hv := by cases hv
  isDecided := (settled_spawn id addresses byzantine).isDecided
  decided := (settled_spawn id addresses byzantine).decided

theorem wellFormed_spawn (P : Params) : WellFormed P (spawn id addresses byzantine) :=
  ⟨filed_spawn id addresses byzantine P, accounted_spawn id addresses byzantine P⟩

end Spawn

/-- A property of the moves is a property of a chain of moves. -/
theorem wellFormed_extends_of_moves (hdigest : Function.Injective P.sha512) {c c' : Core}
    (hmoves : Relation.ReflTransGen (Move P) c c') (hw : WellFormed P c) :
    WellFormed P c' ∧ Extends c c' := by
  refine invariant_of_moves (I := fun s => WellFormed P s ∧ Extends c s) hmoves
    (fun s s' hmove hs => ?_) ⟨hw, Extends.refl c⟩
  obtain ⟨hw', hext⟩ := hmove.wellFormed_extends hdigest hs.1
  exact ⟨hw', hs.2.trans hext⟩

theorem step_wellFormed_extends (hdigest : Function.Injective P.sha512) {c c' : Core}
    {event : Event} (hstep : c.step P event = some c') (hw : WellFormed P c) :
    WellFormed P c' ∧ Extends c c' :=
  wellFormed_extends_of_moves hdigest (moves_of_step hw.noPending hstep) hw

/-- A turn of the machine is a step that did not panic. -/
theorem machine_next {c : Core} {event : Event} (hguard : (machine P).guard c event) :
    c.step P event = some ((machine P).next c event) := by
  obtain ⟨c', hc'⟩ := Option.isSome_iff_exists.mp hguard
  show c.step P event = some ((c.step P event).getD c)
  rw [hc', Option.getD_some]

/-- **Every reachable node is well formed, and extends where it came from.** -/
theorem wellFormed_extends_of_reachable (hdigest : Function.Injective P.sha512) {c₀ c : Core}
    (hreach : (machine P).Reachable c₀ c) (hw : WellFormed P c₀) :
    WellFormed P c ∧ Extends c₀ c :=
  hreach.invariant (P := fun s => WellFormed P s ∧ Extends c₀ s) ⟨hw, Extends.refl c₀⟩
    fun _ _ _ hs hguard => by
      obtain ⟨hw', hext⟩ := step_wellFormed_extends hdigest (machine_next hguard) hs.1
      exact ⟨hw', hs.2.trans hext⟩

/-- The nodes a run can reach. -/
def Reached (P : Params) (c : Core) : Prop :=
  ∃ id addresses byzantine, (machine P).Reachable (spawn id addresses byzantine) c

/-- **A pending vote is never kept**, in no run of no node. -/
theorem Reached.noPending {c : Core} (hreach : Reached P c) : c.NoPending := by
  obtain ⟨id, addresses, byzantine, hrun⟩ := hreach
  refine hrun.invariant (P := NoPending) (noPending_spawn id addresses byzantine) ?_
  intro s event _ hp hguard
  exact noPending_of_moves (moves_of_step hp (machine_next hguard)) hp

/-- **The rule for the moves**: what holds at the start and is preserved by every move
holds of every node that is reached. -/
theorem Reached.invariant {I : Core → Prop} {c : Core} (hreach : Reached P c)
    (hspawn : ∀ id addresses byzantine, I (spawn id addresses byzantine))
    (hmove : ∀ s s', Move P s s' → I s → I s') : I c := by
  obtain ⟨id, addresses, byzantine, hrun⟩ := hreach
  refine GuardedMachine.Reachable.invariant hrun (hspawn id addresses byzantine) ?_
  intro s event hs hinv hguard
  exact invariant_of_moves
    (moves_of_step (Reached.noPending ⟨_, _, _, hs⟩) (machine_next hguard)) hmove hinv

theorem Reached.wellFormed (hdigest : Function.Injective P.sha512) {c : Core}
    (hreach : Reached P c) : WellFormed P c := by
  obtain ⟨id, addresses, byzantine, hrun⟩ := hreach
  exact (wellFormed_extends_of_reachable hdigest hrun (wellFormed_spawn id addresses byzantine P)).1

end Core
end NeroConsensus
