import NeroConsensus.Protocol.Authenticity
import NeroConsensus.Protocol.Pacing
import NeroConsensus.Protocol.View

/-!
# Agreement

The correct nodes of a committee run the code, and at most `f` of its `3 * f + 1`
members do as they like: they may give any votes to anybody, in their own names
(`Byzantine`).  What is delivered to a correct node is then `Credible`, so the nodes
keep their pace (`paced_node`), and what a correct node has stored of an election is a
`View` (`Core.view`).  Together they are `Views`: a vote in the name of a correct node is
its own.

With that, agreement is the statement about views, read in a state that a run reaches
(`agreement`).
-/

namespace NeroConsensus

variable {P : Params} {C : Committee PublicKey P.numberOfByzantineNodes}

/-! ## The view of a node -/

/-- What a node that keeps its pace has stored of an election. -/
def Core.view {c : Core} {me : PublicKey} (hdigest : Function.Injective P.sha512)
    (hs : Core.Sound P c) (ha : Core.Attributed P C c) (hp : Core.Paced P c)
    (hid : c.id = me) (hme : me ∈ C.correct) (h : BlockHash) : View P C me where
  votes r := c.votes h r
  correct := hme
  ballots r := ha.ballots hs h r
  initial v hv := hs.initial h _ v (hs.mem_votes_iff.mp hv)
  received r v hv hne := by
    obtain ⟨hround, hh⟩ := hs.place_of_mem_votes hv
    rcases hs.votes h r v hv with hcast | ⟨p, hp⟩
    · exact absurd ((hs.own v hcast).trans hid) hne
    · have hstored := hp.stored
      have hdecision := hp.decision
      rw [hh] at hstored hdecision
      refine ⟨c.named h r p, Core.named_subset_votes c h r p, fun hcorrect => ?_, hdecision⟩
      obtain ⟨q, hq, hquorum⟩ := (ha h (r + 1) v hv).quorum hcorrect r hround
      rw [hs.card_named hstored, ← Option.some.inj (hq.symm.trans hp.proof)]
      exact hquorum
  own r v hv hown := by
    obtain ⟨hround, hh⟩ := hs.place_of_mem_votes hv
    have hcast := (ha h (r + 1) v hv).own (hown.trans hid.symm)
    obtain ⟨p, hcasts⟩ := hs.casts v hcast r hround
    obtain ⟨q, w, hq, hmem, hw, htype⟩ := hp.continued v hcast r hround
    have hstored := hcasts.stored
    have hdecision := hcasts.decision
    rw [hh] at hstored hdecision hw
    refine ⟨c.named h r p, Core.named_subset_votes c h r p, ?_, hdecision, w, ?_, ?_, htype⟩
    · rw [hs.card_named hstored]
      exact hcasts.quorum
    · rw [← Option.some.inj (hq.symm.trans hcasts.proof)]
      exact Core.mem_named.mpr ⟨_, hmem, hw⟩
    · rw [← hid]
      exact PublicKey.voteHash_injective hdigest (hs.place h r _ w hw).1

namespace System

/-! ## Byzantine faults -/

/-- What faulty members can have delivered: any votes, but none that is not in the name
of a member, and none in the name of a correct node that did not broadcast it. -/
def Byzantine (C : Committee PublicKey P.numberOfByzantineNodes) (s : System)
    (v : PrimaryVote) : Prop :=
  v.signer ∈ C.members ∧ s.Unforged C.correct v

instance (C : Committee PublicKey P.numberOfByzantineNodes) (s : System) (v : PrimaryVote) :
    Decidable (s.Byzantine C v) :=
  inferInstanceAs (Decidable (_ ∧ _))

variable {allowed : System → PublicKey → PrimaryVote → Prop}
  {addresses : PublicKey → List (PublicKey × SocketAddr)} {s : System}

section Runs

variable (hdigest : Function.Injective P.sha512)
  (hallowed : ∀ s x v, allowed s x v → s.Byzantine C v)
  (hreach : (network P C.correct allowed).Reachable (start addresses) s)

include hdigest hreach

/-- What is delivered to a correct node is credible. -/
theorem credible_of_byzantine {x : PublicKey} (hx : x ∈ C.correct) {v : PrimaryVote}
    (hv : s.Byzantine C v) : Core.Credible P C (s.nodes x) v where
  member := hv.1
  quorum hcorrect r hr := by
    obtain ⟨p, hp⟩ := (sound_node hdigest hreach v.signer).casts v (hv.2 hcorrect) r hr
    exact ⟨p, hp.proof, hp.quorum⟩
  own hown := by
    rw [id_node hdigest hreach] at hown
    have hcast := hv.2 (by rw [hown]; exact hx)
    rw [Broadcast, hown] at hcast
    exact hcast

include hallowed

/-- **Correct nodes keep their pace.** -/
theorem paced_node {x : PublicKey} (hx : x ∈ C.correct) :
    Core.Attributed P C (s.nodes x) ∧ Core.Paced P (s.nodes x) := by
  refine invariant_nodes (I := fun x c => x ∈ C.correct →
    Core.Attributed P C c ∧ Core.Paced P c) hreach ?_ ?_ x hx
  · intro x _
    refine ⟨fun h r v hv => ?_, Core.paced_spawn x (addresses x)⟩
    rw [Core.votes_spawn] at hv
    exact absurd hv (Finset.notMem_empty v)
  · intro s x event c hr hx hvotes hinv hstep _
    obtain ⟨ha, hp⟩ := hinv x hx
    refine Core.step_paced hdigest ?_ (sound_node hdigest hr x) ha hp (fun v hv => ?_) hstep
    · rw [id_node hdigest hr]
      exact hx
    · exact credible_of_byzantine hdigest hr hx (hallowed s x v (hvotes v hv))

/-- A vote of a correct node, stored anywhere, is stored at that node. -/
theorem mem_votes_signer {x : PublicKey} {h : BlockHash} {r : Round} {v : PrimaryVote}
    (hv : v ∈ (s.nodes x).votes h r) (hcorrect : v.signer ∈ C.correct) :
    v ∈ (s.nodes v.signer).votes h r := by
  have hcast := broadcast_of_mem_votes hdigest (fun s x v hok => (hallowed s x v hok).2) hreach
    x h r v hv hcorrect
  have hs := sound_node hdigest hreach x
  obtain ⟨hround, hh⟩ := hs.place_of_mem_votes hv
  have hstored := (sound_node hdigest hreach v.signer).stored v hcast
  rw [hround, hh] at hstored
  exact Core.mem_votes.mpr ⟨_, hstored⟩

omit hreach in
/-- What the correct nodes have stored of an election. -/
def views (hreach : (network P C.correct allowed).Reachable (start addresses) s)
    (h : BlockHash) : Views P C where
  view x hx := Core.view hdigest (sound_node hdigest hreach x)
    (paced_node hdigest hallowed hreach hx).1 (paced_node hdigest hallowed hreach hx).2
    (id_node hdigest hreach x) hx h
  authentic x _ z hz r v hv hsigner := by
    have hmem := mem_votes_signer hdigest hallowed hreach hv (by rw [hsigner]; exact hz)
    rw [hsigner] at hmem
    exact hmem

/-- All the `Decide`s that correct nodes have stored of an election are for one value. -/
theorem decide_eq {x y : PublicKey} (hx : x ∈ C.correct) (hy : y ∈ C.correct)
    {h : BlockHash} {r r' : Round} {v w : PrimaryVote} (hv : v ∈ (s.nodes x).votes h r)
    (hw : w ∈ (s.nodes y).votes h r') (hvtype : v.voteType = .decide)
    (hwtype : w.voteType = .decide) : v.value = w.value :=
  (views hdigest hallowed hreach h).decide_eq hx hy hv hw hvtype hwtype

omit hallowed in
/-- What a node has decided, it has broadcast and stored as a `Decide`. -/
theorem exists_decide_of_decided {x : PublicKey} {h : BlockHash} {b : Value}
    (hb : (s.nodes x).decided.lookup h = some b) :
    ∃ v ∈ (s.nodes x).casts, v ∈ (s.nodes x).votes h v.round ∧ v.electionHash = h ∧
      v.voteType = .decide ∧ v.value = b := by
  have hs := sound_node hdigest hreach x
  obtain ⟨v, hv, hh, htype, hvalue⟩ := (hs.decided h b).mp hb
  have hstored := hs.stored v hv
  rw [hh] at hstored
  exact ⟨v, hv, Core.mem_votes.mpr ⟨_, hstored⟩, hh, htype, hvalue⟩

end Runs

/-- **Agreement.**  No two correct nodes ever hold different values in `decided`, for
one election: not in one state, and not in two states of a run. -/
theorem agreement (hdigest : Function.Injective P.sha512) {s' : System}
    (hreach : (network P C.correct fun s _ v => s.Byzantine C v).Reachable
      (start addresses) s)
    (hlater : (network P C.correct fun s _ v => s.Byzantine C v).Reachable s s')
    {x y : PublicKey} (hx : x ∈ C.correct) (hy : y ∈ C.correct) {h : BlockHash}
    {b b' : Value} (hb : (s.nodes x).decided.lookup h = some b)
    (hb' : (s'.nodes y).decided.lookup h = some b') : b = b' := by
  have hreach' := hreach.trans hlater
  obtain ⟨v, -, hv, -, hvtype, rfl⟩ := exists_decide_of_decided hdigest hreach hb
  obtain ⟨w, -, hw, -, hwtype, rfl⟩ := exists_decide_of_decided hdigest hreach' hb'
  -- the first node has kept its vote
  have hkept := (nodes_extend_of_reachable hdigest hreach hlater x).votes h v.round hv
  exact decide_eq hdigest (fun _ _ _ hok => hok) hreach' hx hy hkept hw hvtype hwtype

/-! ## A unanimous run -/

/-- The committee of four in which the last authority is faulty. -/
def trio : Committee PublicKey Params.source.numberOfByzantineNodes where
  members := four
  correct := {authority 1, authority 2, authority 3}
  pos := Params.source_pos
  subset := by decide +kernel
  card_members := card_four
  card_faulty := by decide +kernel

/-- Three correct nodes start with `Zero` and hear of each other's votes of two rounds. -/
def unanimousTurns : List Turn :=
  [begin 1 false, begin 2 false, begin 3 false,
    deliver 1 (firstBallot 2 .zero), deliver 1 (firstBallot 3 .zero),
    deliver 2 (firstBallot 1 .zero), deliver 2 (firstBallot 3 .zero),
    deliver 3 (firstBallot 1 .zero), deliver 3 (firstBallot 2 .zero),
    deliver 1 (ballot 2 1 .zero .commit [1, 2, 3]),
    deliver 1 (ballot 3 1 .zero .commit [1, 2, 3]),
    deliver 2 (ballot 1 1 .zero .commit [1, 2, 3]),
    deliver 2 (ballot 3 1 .zero .commit [1, 2, 3])]

def unanimous : System :=
  (network Params.source trio.correct fun s _ v => s.Byzantine trio v).run (start fun _ => [])
    unanimousTurns

theorem reachable_unanimous :
    (network Params.source trio.correct fun s _ v => s.Byzantine trio v).Reachable
      (start fun _ => []) unanimous :=
  GuardedMachine.reachable_run unanimousTurns (by decide +kernel)

theorem agreement_unanimous :
    (unanimous.nodes (authority 1)).decided.lookup block = some .zero ∧
      (unanimous.nodes (authority 2)).decided.lookup block = some .zero ∧
      Value.zero = Value.zero := by
  have h₁ : (unanimous.nodes (authority 1)).decided.lookup block = some .zero := by
    decide +kernel
  have h₂ : (unanimous.nodes (authority 2)).decided.lookup block = some .zero := by
    decide +kernel
  exact ⟨h₁, h₂, agreement (C := trio)
    Params.source_injective reachable_unanimous GuardedMachine.Reachable.refl
    (by decide +kernel) (by decide +kernel) h₁ h₂⟩

end System
end NeroConsensus
