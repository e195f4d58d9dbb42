import NeroConsensus.Deployment.Progress
import NeroConsensus.Foundations.Measure
import NeroConsensus.Network.Workload
import NeroConsensus.Primary.Independence
import NeroConsensus.Primary.OwnVotes

/-!
# What is due comes to an end

Nothing is lost (`handled_of_cleared`), and nothing gets stuck but in a deadlock
(`quiet_or_circle`).  Here is the third part: the steps that are due cannot go on for ever
(`completes`).  So without new messages from outside, and while no connection breaks, the primaries
come to rest, and then everything has been delivered, unless they wait for each other (`delivers`).

The measure has three parts.  What counts most is the strain of the connections, which nothing that
is due raises.  Then come the votes that the primaries can still cast: there are finitely many
elections around, and each has its `u32` rounds.  At last there is the way that frames, votes and
transactions have still to go.
-/

namespace NeroConsensus

/-! ## Casts -/

/-- What a call casts is for the election of its event. -/
theorem Core.mem_casts_of_step {P : Params} {c c' : Core} {event : Core.Event}
    (hp : c.NoPending) (hstep : c.step P event = some c') {w : PrimaryVote}
    (hw : w ∈ c'.casts) : w ∈ c.casts ∨ w.electionHash = event.electionHash := by
  by_cases hh : event.electionHash = w.electionHash
  · exact Or.inr hh.symm
  · have hfocus := congrArg casts (focus_step_of_ne hp hh hstep)
    rw [casts_focus, casts_focus] at hfocus
    have hmem : w ∈ c'.castsOf w.electionHash := mem_castsOf.mpr ⟨hw, rfl⟩
    rw [hfocus] at hmem
    exact Or.inl (mem_castsOf.mp hmem).1

/-- There are no more casts than there are rounds. -/
theorem Core.length_casts_le {c : Core} (hdistinct : Distinct c) (hcastable : Castable c)
    {E : Finset BlockHash} (hE : ∀ v ∈ c.casts, v.electionHash ∈ E) :
    c.casts.length ≤ E.card * (u32Max + 1) := by
  have hnodup : (c.casts.map fun v => (v.electionHash, v.round)).Nodup := by
    refine List.pairwise_map.mpr (hdistinct.imp fun hne heq => hne ?_)
    exact Prod.mk.inj heq
  have hsub : (c.casts.map fun v => (v.electionHash, v.round)).toFinset ⊆
      E ×ˢ Finset.range (u32Max + 1) := by
    intro p hp
    obtain ⟨v, hv, rfl⟩ := List.mem_map.mp (List.mem_toFinset.mp hp)
    exact Finset.mem_product.mpr
      ⟨hE v hv, Finset.mem_range.mpr (Nat.lt_succ_of_le (hcastable v hv).1)⟩
  have hle := Finset.card_le_card hsub
  rwa [List.toFinset_card_of_nodup hnodup, List.length_map, Finset.card_product,
    Finset.card_range] at hle

namespace Deployment

variable {P : Params} {ε : Type} {B : Base64Crate ε} {com : Config.Committee}
  {H M : Finset PublicKey} {admits : System → PublicKey → PrimaryVote → Prop}
  {E : Finset BlockHash} {room : Room ε} {d d' : Deployment ε}

/-- A step that is due. -/
def Continues (P : Params) (B : Base64Crate ε) (com : Config.Committee) (H : Finset PublicKey)
    (room : Room ε) (d d' : Deployment ε) : Prop :=
  ∃ o, Due com H room d o ∧ o.primary ∈ H ∧ d.step P B com H o = some d'

/-! ## The elections that are around -/

/-- All that is around is about elections of a set. -/
structure Within (E : Finset BlockHash) (H : Finset PublicKey) (d : Deployment ε) : Prop where
  casts : ∀ x ∈ H, ∀ v ∈ (d.system.nodes x).casts, v.electionHash ∈ E
  votes : ∀ x ∈ H, ∀ v ∈ (d.handlers x).txVotes, v.electionHash ∈ E
  transactions : ∀ x ∈ H, ∀ txs ∈ (d.handlers x).txTransactions, ∀ tx ∈ txs, tx.digest ∈ E
  batches : ∀ x ∈ H, ∀ tx ∈ d.batches x, tx.digest ∈ E

theorem exists_within (H : Finset PublicKey) (d : Deployment ε) : ∃ E, Within E H d := by
  have hmem : ∀ {x : PublicKey} {h : BlockHash} {f : PublicKey → List BlockHash}, x ∈ H →
      h ∈ f x → h ∈ H.biUnion fun x => (f x).toFinset := fun hx hh =>
    Finset.mem_biUnion.mpr ⟨_, hx, List.mem_toFinset.mpr hh⟩
  refine ⟨(H.biUnion fun x => ((d.system.nodes x).casts.map PrimaryVote.electionHash).toFinset) ∪
    (H.biUnion fun x => ((d.handlers x).txVotes.map PrimaryVote.electionHash).toFinset) ∪
    (H.biUnion fun x => ((d.handlers x).txTransactions.flatten.map Transaction.digest).toFinset) ∪
    (H.biUnion fun x => ((d.batches x).map Transaction.digest).toFinset),
    fun x hx v hv => ?_, fun x hx v hv => ?_, fun x hx txs htxs tx htx => ?_,
    fun x hx tx htx => ?_⟩
  · refine Finset.mem_union_left _ (Finset.mem_union_left _ (Finset.mem_union_left _ ?_))
    exact hmem hx (List.mem_map_of_mem hv)
  · refine Finset.mem_union_left _ (Finset.mem_union_left _ (Finset.mem_union_right _ ?_))
    exact hmem hx (List.mem_map_of_mem hv)
  · refine Finset.mem_union_left _ (Finset.mem_union_right _ ?_)
    exact hmem hx (List.mem_map_of_mem (List.mem_flatten_of_mem htxs htx))
  · exact Finset.mem_union_right _ (hmem hx (List.mem_map_of_mem htx))

namespace Within

variable (hw : Within E H d)

include hw

/-- A core takes its turn. -/
theorem turn (env : Setting P B com H M admits) (hs : Sound P B com H admits d) {t : Turn}
    (hevent : t.event.electionHash ∈ E) {handlers : PublicKey → TxReceiverHandler}
    {batches : PublicKey → List Transaction}
    (hvotes : ∀ y, ∀ v ∈ (handlers y).txVotes, v ∈ (d.handlers y).txVotes)
    (htransactions : ∀ y, (handlers y).txTransactions = (d.handlers y).txTransactions)
    (hbatches : ∀ y, ∀ tx ∈ batches y, tx ∈ d.batches y) :
    Within E H
      { d with system := d.system.next P t, handlers := handlers, batches := batches } where
  casts x hx v hv := by
    rcases System.nodes_next_cases (P := P) d.system t x with hsame | ⟨-, hstep⟩
    · exact hw.casts x hx v (hsame ▸ hv)
    · have hpending := (System.sound_node env.digest hs.reachable x).noPending
      rcases Core.mem_casts_of_step hpending hstep hv with hold | hnew
      · exact hw.casts x hx v hold
      · rw [hnew]
        exact hevent
  votes x hx v hv := hw.votes x hx v (hvotes x v hv)
  transactions x hx txs htxs := hw.transactions x hx txs (htransactions x ▸ htxs)
  batches x hx tx htx := hw.batches x hx tx (hbatches x tx htx)

/-- The channels of one primary change. -/
theorem refill {y : PublicKey} {h : TxReceiverHandler} {batches : PublicKey → List Transaction}
    {handed : PublicKey → ℕ}
    {links : PublicKey → SocketAddr → Session TxReceiverHandler (DagError (WireError ε))}
    (hvotes : y ∈ H → ∀ v ∈ h.txVotes, v.electionHash ∈ E)
    (htransactions : y ∈ H → ∀ txs ∈ h.txTransactions, ∀ tx ∈ txs, tx.digest ∈ E)
    (hbatches : ∀ x ∈ H, ∀ tx ∈ batches x, tx.digest ∈ E) :
    Within E H { d with
      handlers := Function.update d.handlers y h
      batches := batches
      handed := handed
      links := links } where
  casts := hw.casts
  votes := by
    show ∀ x, x ∈ H → ∀ v ∈ (Function.update d.handlers y h x).txVotes, v.electionHash ∈ E
    rw [Function.forall_update_iff d.handlers fun x h =>
      x ∈ H → ∀ v ∈ h.txVotes, v.electionHash ∈ E]
    exact ⟨hvotes, fun x _ => hw.votes x⟩
  transactions := by
    show ∀ x, x ∈ H → ∀ txs ∈ (Function.update d.handlers y h x).txTransactions,
      ∀ tx ∈ txs, tx.digest ∈ E
    rw [Function.forall_update_iff d.handlers fun x h =>
      x ∈ H → ∀ txs ∈ h.txTransactions, ∀ tx ∈ txs, tx.digest ∈ E]
    exact ⟨htransactions, fun x _ => hw.transactions x⟩
  batches := hbatches

/-- **No election comes in** with a step that is due. -/
theorem effect (env : Setting P B com H M admits) (hs : Sound P B com H admits d)
    {o : Occurrence} (hdue : Due com H room d o) (hx : o.primary ∈ H)
    (heffect : Effect P B com H d o d') : Within E H d' := by
  cases heffect with
  | @vote x v rest draws hidle hvotes =>
    refine hw.turn (t := ⟨x, .vote v draws⟩) env hs
      (hw.votes x hx v (hvotes ▸ List.mem_cons_self)) ?_ ?_ fun _ _ htx => htx
    · rw [Function.forall_update_iff d.handlers fun y h =>
        ∀ w ∈ h.txVotes, w ∈ (d.handlers y).txVotes]
      exact ⟨fun w hwmem => hvotes ▸ List.mem_cons_of_mem _ hwmem, fun _ _ _ hwmem => hwmem⟩
    · rw [Function.forall_update_iff d.handlers fun y h =>
        h.txTransactions = (d.handlers y).txTransactions]
      exact ⟨rfl, fun _ _ => rfl⟩
  | @batch x txs rest htxs =>
    refine hw.refill (hw.votes x) (fun hx txs' htxs' => hw.transactions x hx txs' ?_) ?_
    · exact htxs ▸ List.mem_cons_of_mem _ htxs'
    · rw [Function.forall_update_iff d.batches fun y l => y ∈ H → ∀ tx ∈ l, tx.digest ∈ E]
      exact ⟨fun hx => hw.transactions x hx txs (htxs ▸ List.mem_cons_self),
        fun y _ hy => hw.batches y hy⟩
  | @transaction x tx rest draw hidle hbatch =>
    refine hw.turn (t := ⟨x, .transaction tx draw⟩) env hs
      (hw.batches x hx tx (hbatch ▸ List.mem_cons_self)) (fun _ _ hv => hv) (fun _ => rfl) ?_
    rw [Function.forall_update_iff d.batches fun y l => ∀ tx' ∈ l, tx' ∈ d.batches y]
    exact ⟨fun tx' htx' => hbatch ▸ List.mem_cons_of_mem _ htx', fun _ _ _ htx' => htx'⟩
  | handOver hrunning hframe hsend => exact ⟨hw.casts, hw.votes, hw.transactions, hw.batches⟩
  | halt hrunning hframe hpanicked => exact ⟨hw.casts, hw.votes, hw.transactions, hw.batches⟩
  | @link x y a e s hpermits hpeer hstep htakes =>
    rcases hs.handler_of_step env hpeer hstep with hsame | ⟨v, hv, hnew⟩
    · exact hw.refill (hsame ▸ hw.votes y) (hsame ▸ hw.transactions y) hw.batches
    · rw [hnew]
      refine hw.refill (fun hy w hwmem => ?_) (hw.transactions y) hw.batches
      rcases List.mem_append.mp hwmem with hold | hlast
      · exact hw.votes y hy w hold
      · rw [List.mem_singleton.mp hlast]
        exact hw.casts x hx v hv
  | remote hpermits hpeer hstep => exact ⟨hw.casts, hw.votes, hw.transactions, hw.batches⟩
  | foreign hdispatch htakes => cases hdue

end Within

/-! ## What is still to do -/

/-- The connections of the primaries to the authorities. -/
def connections (com : Config.Committee) (H : Finset PublicKey) :
    Finset (PublicKey × SocketAddr) :=
  H.biUnion fun x => (((com.primaryAddresses x).map Prod.snd).map (Prod.mk x)).toFinset

theorem mem_connections {x : PublicKey} (hx : x ∈ H) {a : SocketAddr}
    (ha : a ∈ (com.primaryAddresses x).map Prod.snd) : (x, a) ∈ connections com H :=
  Finset.mem_biUnion.mpr ⟨x, hx, List.mem_toFinset.mpr (List.mem_map_of_mem ha)⟩

def strain (com : Config.Committee) (H : Finset PublicKey) (d : Deployment ε) : ℕ :=
  ∑ l ∈ connections com H, (d.links l.1 l.2).strain

/-- The votes that may still be cast. -/
def remaining (E : Finset BlockHash) (H : Finset PublicKey) (d : Deployment ε) : ℕ :=
  ∑ x ∈ H, (E.card * (u32Max + 1) - (d.system.nodes x).casts.length)

/-- A core can be halted once. -/
def unhalted (halted : Finset PublicKey) (x : PublicKey) : ℕ :=
  if x ∈ halted then 0 else 1

/-- How far the frames of a primary and what is in its channels have still to go, and whether it can
still be halted. -/
def backlog (B : Base64Crate ε) (d : Deployment ε) (x : PublicKey) : ℕ :=
  6 * (((d.system.nodes x).frames B).length - d.handed x) + (d.handlers x).txVotes.length +
    (d.batches x).length + ((d.handlers x).txTransactions.map fun txs => txs.length + 1).sum +
    unhalted d.halted x

def load (B : Base64Crate ε) (com : Config.Committee) (H : Finset PublicKey)
    (d : Deployment ε) : ℕ :=
  ∑ x ∈ H, d.backlog B x + ∑ l ∈ connections com H, (d.links l.1 l.2).load

def rank (B : Base64Crate ε) (com : Config.Committee) (H : Finset PublicKey)
    (E : Finset BlockHash) (d : Deployment ε) : ℕ ×ₗ ℕ ×ₗ ℕ :=
  ranked (d.strain com H) (d.remaining E H) (d.load B com H)

/-- A core does something. -/
theorem rank_lt_of_core {x : PublicKey} (hx : x ∈ H) (hlinks : d'.links = d.links)
    (hothers : ∀ y, y ≠ x →
      d'.system.nodes y = d.system.nodes y ∧ d'.backlog B y = d.backlog B y)
    (hcasts : (d'.system.nodes x).casts.length ≤ E.card * (u32Max + 1))
    (hless : (d.system.nodes x).casts.length < (d'.system.nodes x).casts.length ∨
      (d'.system.nodes x).casts = (d.system.nodes x).casts ∧ d'.backlog B x < d.backlog B x) :
    d'.rank B com H E < d.rank B com H E := by
  have hstrain : d'.strain com H = d.strain com H := by
    rw [strain, strain, hlinks]
  have hremaining := sum_add_eq_of_ne (s := H) hx
    (f := fun y => E.card * (u32Max + 1) - (d.system.nodes y).casts.length)
    (g := fun y => E.card * (u32Max + 1) - (d'.system.nodes y).casts.length)
    fun y _ hy => by rw [(hothers y hy).1]
  have hbacklog := sum_add_eq_of_ne (s := H) hx (f := d.backlog B) (g := d'.backlog B)
    fun y _ hy => (hothers y hy).2
  rw [rank, rank, ranked_lt_ranked]
  refine Or.inr ⟨hstrain, ?_⟩
  rcases hless with hmore | ⟨hsame, hless⟩
  · left
    simp only [remaining]
    omega
  · right
    rw [hsame] at hremaining
    simp only [remaining, load, hlinks]
    omega

/-- Something happens to a connection. -/
theorem rank_lt_of_link {x y : PublicKey} {a : SocketAddr} (hl : (x, a) ∈ connections com H)
    (hy : y ∈ H) (hsystem : d'.system = d.system)
    (hlinks : ∀ x' a', ¬(x' = x ∧ a' = a) → d'.links x' a' = d.links x' a')
    (hothers : ∀ z, z ≠ y → d'.backlog B z = d.backlog B z)
    (hless : (d'.links x a).strain < (d.links x a).strain ∨
      (d'.links x a).strain = (d.links x a).strain ∧
        (d'.links x a).load + d'.backlog B y < (d.links x a).load + d.backlog B y) :
    d'.rank B com H E < d.rank B com H E := by
  have hremaining : d'.remaining E H = d.remaining E H := by
    rw [remaining, remaining, hsystem]
  have hapart : ∀ l ∈ connections com H, l ≠ (x, a) → d'.links l.1 l.2 = d.links l.1 l.2 :=
    fun l _ hne => hlinks l.1 l.2 fun h => hne (Prod.ext h.1 h.2)
  have hstrain := sum_add_eq_of_ne hl (f := fun l => (d.links l.1 l.2).strain)
    (g := fun l => (d'.links l.1 l.2).strain) fun l hmem hne => by rw [hapart l hmem hne]
  have hload := sum_add_eq_of_ne hl (f := fun l => (d.links l.1 l.2).load)
    (g := fun l => (d'.links l.1 l.2).load) fun l hmem hne => by rw [hapart l hmem hne]
  have hbacklog := sum_add_eq_of_ne (s := H) hy (f := d.backlog B) (g := d'.backlog B)
    fun z _ hz => hothers z hz
  dsimp only at hstrain hload
  rw [rank, rank, ranked_lt_ranked]
  rcases hless with hless | ⟨hsame, hless⟩
  · left
    simp only [strain]
    omega
  · refine Or.inr ⟨?_, Or.inr ⟨hremaining, ?_⟩⟩
    · simp only [strain]
      omega
    · simp only [load]
      omega

/-- A connection to a primary that runs the code moves on. -/
theorem rank_lt_of_session {x y : PublicKey} {a : SocketAddr} (hl : (x, a) ∈ connections com H)
    (hy : y ∈ H) {s : Session TxReceiverHandler (DagError (WireError ε))}
    (htransactions : s.handler.txTransactions = (d.handlers y).txTransactions)
    (hless : s.strain < (d.links x a).strain ∨ s.strain = (d.links x a).strain ∧
      s.load + s.handler.txVotes.length < (d.links x a).load + (d.handlers y).txVotes.length) :
    ({ d with handlers := Function.update d.handlers y s.handler }.setLink x a s).rank B com H E <
      d.rank B com H E := by
  refine rank_lt_of_link hl hy rfl (fun x' a' hne => ?_) (fun z hz => ?_) ?_
  · rw [links_setLink, if_neg hne]
  · simp only [backlog, setLink, Function.update_of_ne hz]
  · rw [links_setLink, if_pos ⟨rfl, rfl⟩]
    refine hless.imp_right (And.imp_right fun hless => ?_)
    simp only [backlog, setLink, Function.update_self, htransactions]
    omega

/-- What is due of a sender. -/
theorem Due.cases_of_sender {x : PublicKey} {a : SocketAddr} {action : Action}
    (hdue : Due com H room d (.link x a (.sender action))) :
    a ∈ (com.primaryAddresses x).map Prod.snd ∧
      ((action = .recv ∨ action = .write none ∨ ∃ e, action = .connect e) ∨ action = .timer ∨
        (action = .response none ∨ ∃ e, action = .write (some e)) ∧
          (d.links x a).attended = false) := by
  have hunattended : (∀ r ∈ (d.links x a).runners.head?, r.running = false) →
      (d.links x a).attended = false := by
    intro hreturned
    rw [Session.attended]
    cases hhead : (d.links x a).runners.head? with
    | none => rfl
    | some r => exact hreturned r hhead
  cases hdue with
  | recv ha => exact ⟨ha, Or.inl (Or.inl rfl)⟩
  | write ha => exact ⟨ha, Or.inl (Or.inr (Or.inl rfl))⟩
  | refuse e ha hother hfull => exact ⟨ha, Or.inl (Or.inr (Or.inr ⟨_, rfl⟩))⟩
  | connect ha => exact ⟨ha, Or.inl (Or.inr (Or.inr ⟨_, rfl⟩))⟩
  | timer ha => exact ⟨ha, Or.inr (Or.inl rfl)⟩
  | response ha hpeer hreturned =>
    exact ⟨ha, Or.inr (Or.inr ⟨Or.inl rfl, hunattended hreturned⟩)⟩
  | abort e ha hpeer hreturned =>
    exact ⟨ha, Or.inr (Or.inr ⟨Or.inr ⟨e, rfl⟩, hunattended hreturned⟩)⟩

/-- What is due where the other end does not run the code. -/
theorem Due.cases_of_remote {x : PublicKey} {a : SocketAddr} {action : Action}
    (hdue : Due com H room d (.link x a (.sender action))) (hnone : peer com H a = none) :
    a ∈ (com.primaryAddresses x).map Prod.snd ∧
      (action = .recv ∨ action = .write none ∨ ∃ e, action = .connect (some e)) := by
  have hother : ¬(peer com H a).isSome = true := by
    rw [hnone]
    exact Bool.false_ne_true
  cases hdue with
  | recv ha => exact ⟨ha, Or.inl rfl⟩
  | write ha => exact ⟨ha, Or.inr (Or.inl rfl)⟩
  | refuse e ha hother hfull => exact ⟨ha, Or.inr (Or.inr ⟨e, rfl⟩)⟩
  | connect ha hpeer => exact absurd hpeer hother
  | timer ha hpeer => exact absurd hpeer hother
  | response ha hpeer => exact absurd hpeer hother
  | abort e ha hpeer => exact absurd hpeer hother

/-! ## The steps -/

namespace Sound

variable (hs : Sound P B com H admits d)

include hs

theorem length_casts_le (env : Setting P B com H M admits) (hw : Within E H d) {x : PublicKey}
    (hx : x ∈ H) : (d.system.nodes x).casts.length ≤ E.card * (u32Max + 1) := by
  have hreached : Core.Reached P (d.system.nodes x) :=
    ⟨_, _, _, System.reachable_node hs.reachable x⟩
  exact Core.length_casts_le (hreached.distinct env.digest) hreached.castable (hw.casts x hx)

/-- A core takes its turn, and its channels get less. -/
theorem rank_lt_of_turn (env : Setting P B com H M admits) {x : PublicKey} (hx : x ∈ H)
    {event : Core.Event} {handlers : PublicKey → TxReceiverHandler}
    {batches : PublicKey → List Transaction}
    (hs' : Sound P B com H admits { d with
      system := d.system.next P ⟨x, event⟩, handlers := handlers, batches := batches })
    (hwithin : Within E H { d with
      system := d.system.next P ⟨x, event⟩, handlers := handlers, batches := batches })
    (hothers : ∀ y, y ≠ x → handlers y = d.handlers y ∧ batches y = d.batches y)
    (hless : (handlers x).txVotes.length + (batches x).length +
        ((handlers x).txTransactions.map fun txs => txs.length + 1).sum <
      (d.handlers x).txVotes.length + (d.batches x).length +
        ((d.handlers x).txTransactions.map fun txs => txs.length + 1).sum) :
    ({ d with system := d.system.next P ⟨x, event⟩, handlers := handlers, batches := batches } :
      Deployment ε).rank B com H E < d.rank B com H E := by
  have hnode : ∀ y, y ≠ x → (d.system.next P ⟨x, event⟩).nodes y = d.system.nodes y := by
    intro y hy
    rcases System.nodes_next_cases (P := P) d.system ⟨x, event⟩ y with hsame | ⟨heq, -⟩
    · exact hsame
    · exact absurd heq hy
  have hcasts := (System.nodes_extend env.digest hs.reachable ⟨x, event⟩ x).casts
  refine rank_lt_of_core hx rfl (fun y hy => ⟨hnode y hy, ?_⟩) ?_ ?_
  · simp only [backlog, hnode y hy, (hothers y hy).1, (hothers y hy).2]
  · exact hs'.length_casts_le env hwithin hx
  · rcases hcasts.length_le.lt_or_eq with hmore | hsame
    · exact Or.inl hmore
    · have hcasts := hcasts.eq_of_length hsame
      refine Or.inr ⟨hcasts.symm, ?_⟩
      have hframes : ((d.system.next P ⟨x, event⟩).nodes x).frames B =
          (d.system.nodes x).frames B := by
        rw [(System.addressed_node hs'.reachable x).frames_eq,
          (System.addressed_node hs.reachable x).frames_eq, hcasts]
      simp only [backlog, hframes]
      omega

/-- A runner gives a frame to the handler. -/
theorem rank_lt_of_serve (env : Setting P B com H M admits) {x y : PublicKey} {a : SocketAddr}
    (hl : (x, a) ∈ connections com H) (hpeer : peer com H a = some y) (hy : y ∈ H)
    {s : Session TxReceiverHandler (DagError (WireError ε))}
    (hserve : ({ d.links x a with handler := d.handlers y } :
      Session TxReceiverHandler (DagError (WireError ε))).serve
        (TxReceiverHandler.messageHandler (Wire.deserialize B)) 0 = some s) :
    ({ d with handlers := Function.update d.handlers y s.handler }.setLink x a s).rank B com H E <
      d.rank B com H E := by
  obtain ⟨hstrain, hload⟩ := Session.load_of_serve hserve fun r hr m hm => by
    obtain ⟨v, -, hread⟩ := hs.exists_cast_of_runner env hpeer hr (List.mem_append_right _ hm)
    exact ⟨_, TxReceiverHandler.dispatch_of_sendVote hread _⟩
  have hload : s.load + 2 = (d.links x a).load := hload
  rcases hs.handler_of_step env hpeer (e := .serve 0) hserve with hsame | ⟨v, -, hnew⟩
  · refine rank_lt_of_session hl hy (by rw [hsame]) (Or.inr ⟨hstrain, ?_⟩)
    rw [hsame]
    omega
  · refine rank_lt_of_session hl hy (by rw [hnew]) (Or.inr ⟨hstrain, ?_⟩)
    rw [hnew, List.length_append, List.length_singleton]
    omega

/-- **Every step that is due lowers the rank.** -/
theorem rank_lt (env : Setting P B com H M admits) {o : Occurrence}
    (hs' : Sound P B com H admits d') (hw : Within E H d) (hw' : Within E H d')
    (hdue : Due com H room d o) (hx : o.primary ∈ H) (heffect : Effect P B com H d o d') :
    d'.rank B com H E < d.rank B com H E := by
  cases heffect with
  | @vote x v rest draws hidle hvotes =>
    refine hs.rank_lt_of_turn env (x := x) hx hs' hw'
      (fun y hy => ⟨Function.update_of_ne hy _ _, rfl⟩) ?_
    simp only [Function.update_self, hvotes, List.length_cons]
    omega
  | @batch x txs rest htxs =>
    refine rank_lt_of_core (x := x) hx rfl (fun y hy => ⟨rfl, ?_⟩)
      (hs.length_casts_le env hw hx) (Or.inr ⟨rfl, ?_⟩)
    · simp only [backlog, Function.update_of_ne hy]
    · simp only [backlog, Function.update_self, htxs, List.map_cons, List.sum_cons]
      omega
  | @transaction x tx rest draw hidle hbatch =>
    refine hs.rank_lt_of_turn env (x := x) hx hs' hw'
      (fun y hy => ⟨rfl, Function.update_of_ne hy _ _⟩) ?_
    simp only [Function.update_self, hbatch, List.length_cons]
    omega
  | @handOver x a bytes s hrunning hframe hsend =>
    have hx : x ∈ H := hx
    obtain ⟨hlt, -⟩ := List.getElem?_eq_some_iff.mp hframe
    have ha : a ∈ (com.primaryAddresses x).map Prod.snd :=
      ((System.addressed_node hs.reachable x).mem_frames.mp (List.mem_of_getElem? hframe)).1
    obtain ⟨o, ho, rfl⟩ := Session.eq_of_send hsend nofun nofun nofun
    obtain ⟨hstrain, hload⟩ := Session.load_of_submit ho
    refine rank_lt_of_link (mem_connections hx ha) hx rfl (fun x' a' hne => ?_)
      (fun z hz => ?_) ?_
    · rw [links_setLink, if_neg hne]
    · simp only [backlog, setLink, Function.update_of_ne hz]
    · rw [links_setLink, if_pos ⟨rfl, rfl⟩]
      refine Or.inr ⟨hstrain, ?_⟩
      simp only [backlog, setLink, Function.update_self, hload]
      omega
  | @halt x a bytes hrunning hframe hpanicked =>
    have hnew : x ∉ d.halted := fun h => hrunning (Finset.mem_union_right _ h)
    refine rank_lt_of_core (x := x) hx rfl (fun y hy => ⟨rfl, ?_⟩)
      (hs.length_casts_le env hw hx) (Or.inr ⟨rfl, ?_⟩)
    · simp only [backlog, unhalted, Finset.mem_insert, hy, false_or]
    · simp only [backlog, unhalted, Finset.mem_insert_self, if_true, if_neg hnew]
      omega
  | @link x y a e s hpermits hpeer hstep htakes =>
    have hy : y ∈ H := of_decide_eq_true (Option.filter_eq_some_iff.mp hpeer).2
    cases e with
    | sender action =>
      obtain ⟨ha, hcases⟩ := hdue.cases_of_sender
      have hsend : ({ d.links x a with handler := d.handlers y } :
        Session TxReceiverHandler (DagError (WireError ε))).send action = some s := hstep
      have hsame := (Session.dispatched_of_send hsend).1
      refine rank_lt_of_session (mem_connections hx ha) hy (by rw [hsame]) ?_
      refine (Session.easier_of_send hsend hcases).imp_right (And.imp_right fun hless => ?_)
      rw [hsame]
      exact Nat.add_lt_add_right hless _
    | serve k =>
      cases hdue with
      | serve ha => exact hs.rank_lt_of_serve env (mem_connections hx ha) hpeer hy hstep
    | hangUp k outcome => cases hdue
  | @remote x a action o hpermits hpeer hstep =>
    have hx : x ∈ H := hx
    obtain ⟨ha, hcases⟩ := hdue.cases_of_remote hpeer
    refine rank_lt_of_link (mem_connections hx ha) hx rfl (fun x' a' hne => ?_)
      (fun z hz => rfl) ?_
    · rw [links_setLink, if_neg hne]
    · rw [links_setLink, if_pos ⟨rfl, rfl⟩]
      exact (Session.easier_of_step hstep hcases).imp_right
        (And.imp_right fun hless => Nat.add_lt_add_right hless _)
  | foreign hdispatch htakes => cases hdue

end Sound

/-- No vote comes in. -/
theorem Due.brought {o : Occurrence} (hdue : Due com H room d o) : o.brought B = none := by
  cases hdue <;> rfl

/-- What the steps that are due keep, and how they go down. -/
theorem keep_and_less (env : Setting P B com H M admits)
    (h : Sound P B com H admits d ∧ Within E H d) (hcontinues : Continues P B com H room d d') :
    (Sound P B com H admits d' ∧ Within E H d') ∧ d'.rank B com H E < d.rank B com H E := by
  obtain ⟨hs, hw⟩ := h
  obtain ⟨o, hdue, hx, hstep⟩ := hcontinues
  have heffect := effect_of_step hstep
  have hs' := hs.effect env heffect hx (by simp [hdue.brought])
  have hw' := hw.effect env hs hdue hx heffect
  exact ⟨⟨hs', hw'⟩, hs.rank_lt env hs' hw hw' hdue hx heffect⟩

theorem reachable_of_continues (h : Relation.ReflTransGen (Continues P B com H room) d d') :
    (machine P B com H admits).Reachable d d' := by
  induction h with
  | refl => exact GuardedMachine.Reachable.refl
  | tail _ hcontinues ih =>
    obtain ⟨o, hdue, hx, hstep⟩ := hcontinues
    obtain ⟨hguard, rfl⟩ := @GuardedMachine.ofStep_of_some _ _
      (fun (d : Deployment ε) o => d.step P B com H o) _ _ _ hstep
    exact ih.step ⟨hguard, hx, by simp [hdue.brought]⟩

/-- No task of a connection to an authority has panicked, and between the primaries none is about
to. -/
def Trying (com : Config.Committee) (H : Finset PublicKey) (d : Deployment ε) : Prop :=
  ∀ x ∈ H, ∀ a ∈ (com.primaryAddresses x).map Prod.snd,
    (d.links x a).sender.connection.phase ≠ .panicked ∧
      ((peer com H a).isSome = true → (d.links x a).sender.connection.phase = .waiting →
        (d.links x a).sender.connection.retry < u16Max)

instance (d : Deployment ε) : Decidable (d.Trying com H) :=
  inferInstanceAs
    (Decidable (∀ x ∈ H, ∀ a ∈ (com.primaryAddresses x).map Prod.snd, _ ∧ (_ → _ → _)))

/-- A connection to a primary that runs never has to wait again, and no other one gets to its next
attempt. -/
theorem Trying.next (ht : d.Trying com H) (hcontinues : Continues P B com H room d d') :
    d'.Trying com H := by
  obtain ⟨o, hdue, -, hstep⟩ := hcontinues
  intro x hx a ha
  obtain ⟨halive, hretry⟩ := ht x hx a ha
  rcases sender_of_effect (effect_of_step hstep) x a with hsame | ⟨action, hstep, horigin⟩
  · rw [hsame]
    exact ⟨halive, hretry⟩
  constructor
  · refine Outgoing.running_of_step halive ?_ hstep
    cases action with
    | timer =>
      have hpeer : (peer com H a).isSome = true := by
        rcases horigin with rfl | ⟨data, hdata⟩
        · cases hdue with
          | timer ha hpeer => exact hpeer
        · cases hdata
      exact hretry hpeer (Outgoing.waiting_of_timer hstep)
    | _ => trivial
  · intro hpeer hwaiting
    have hconnect : ∀ e, action ≠ .connect (some e) := by
      rintro e rfl
      rcases horigin with rfl | ⟨data, hdata⟩
      · cases hdue with
        | refuse _ ha hother hfull =>
          rw [hother] at hpeer
          cases hpeer
      · cases hdata
    obtain ⟨hphase, hsame⟩ := Outgoing.waiting_of_step hstep hconnect hwaiting
    rw [hsame]
    exact hretry hpeer hphase

theorem Trying.run (ht : d.Trying com H)
    (h : Relation.ReflTransGen (Continues P B com H room) d d') : d'.Trying com H := by
  induction h with
  | refl => exact ht
  | tail _ hcontinues ih => exact ih.next hcontinues

/-- What is due in every state can be done one after the other. -/
theorem continues_run {os : List Occurrence}
    (hdue : ∀ o ∈ os, ∀ d : Deployment ε, Due com H room d o)
    (hlegal : (machine P B com H admits).Legal d os) :
    Relation.ReflTransGen (Continues P B com H room) d ((machine P B com H admits).run d os) := by
  induction os generalizing d with
  | nil => exact Relation.ReflTransGen.refl
  | cons o os ih =>
    obtain ⟨hguard, hlegal⟩ := hlegal
    refine (ih (fun o' ho' => hdue o' (List.mem_cons_of_mem _ ho')) hlegal).head ?_
    exact ⟨o, hdue o List.mem_cons_self d, hguard.2.1, GuardedMachine.ofStep_next hguard.1⟩

/-- All frames of the first votes have come, and the cores have not yet taken them. -/
def beforeHeard : Deployment String :=
  (faultless Params.source Base64Crate.standard (.ofLocal [1, 2]) both).run
    (start (.ofLocal [1, 2])) (introduced.take (introduced.length - 2))

theorem trying_beforeHeard : beforeHeard.Trying (.ofLocal [1, 2]) both := by
  decide +kernel

theorem casts_afterIntroduced : ∀ x ∈ both, ∀ v ∈ (afterIntroduced.system.nodes x).casts,
    v.round < u32Max := by
  decide +kernel

theorem reachable_beforeHeard :
    (faultless Params.source Base64Crate.standard (.ofLocal [1, 2]) both).Reachable
        (start (.ofLocal [1, 2])) beforeHeard ∧
      (faultless Params.source Base64Crate.standard (.ofLocal [1, 2]) both).Legal beforeHeard
        (hears 1 ++ hears 2) := by
  have hlegal := introduced_spec.1
  rw [← List.take_append_drop (introduced.length - 2) introduced] at hlegal
  obtain ⟨hbefore, hlegal⟩ := GuardedMachine.legal_append.mp hlegal
  exact ⟨GuardedMachine.reachable_run _ hbefore, hlegal⟩

theorem run_beforeHeard :
    (faultless Params.source Base64Crate.standard (.ofLocal [1, 2]) both).run beforeHeard
      (hears 1 ++ hears 2) = afterIntroduced := by
  rw [beforeHeard, ← GuardedMachine.run_append]
  rfl

attribute [local irreducible] afterIntroduced beforeHeard

theorem continues_beforeHeard :
    Relation.ReflTransGen
      (Continues Params.source Base64Crate.standard (.ofLocal [1, 2]) both oneByOne)
      beforeHeard afterIntroduced := by
  rw [← run_beforeHeard]
  refine continues_run (fun o ho d => ?_) reachable_beforeHeard.2
  rcases List.mem_append.mp ho with ho | ho
  · rw [List.mem_singleton.mp ho]
    exact Due.vote _ _
  · rw [List.mem_singleton.mp ho]
    exact Due.vote _ _

end Deployment
end NeroConsensus
