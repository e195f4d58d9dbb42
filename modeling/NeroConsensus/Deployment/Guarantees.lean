import NeroConsensus.Deployment.Refinement
import NeroConsensus.Primary.Panics
import NeroConsensus.Protocol.Agreement

/-!
# What a deployment guarantees

The results about the network of the protocol, carried over to the program as it is put together.

* `refines`: with faulty members that send what they like, but forge nothing, a run of the
  deployment is a run of the network with Byzantine faults; so the primaries agree
  (`decisions_agree`).
* `panicked_of_down`: if nothing but the program sends votes, no primary panics before the rounds
  are used up, unless the task of one of its connections has.  It takes a peer that is away for
  long, and then it does happen (`exists_down`).
-/

namespace NeroConsensus

/-! ## Networks in which only nodes send -/

namespace System

variable {P : Params} {H : Finset PublicKey}
  {addresses : PublicKey → List (PublicKey × SocketAddr)} {s : System}

/-- A vote that a node has cast does not crash another, if its round has a successor. -/
theorem isSome_step_of_sent (hdigest : Function.Injective P.sha512)
    {allowed : System → PublicKey → PrimaryVote → Prop}
    (hreach : (network P H allowed).Reachable (start addresses) s) (x : PublicKey)
    {event : Core.Event} (hevent : ∀ v ∈ event.received, s.Broadcast v ∧ v.round < u32Max) :
    ((s.nodes x).step P event).isSome = true := by
  cases event with
  | transaction tx draw => rfl
  | vote v draws =>
    obtain ⟨hcast, hmax⟩ := hevent v rfl
    refine (Core.handleVote_isSome_iff ⟨_, _, _, reachable_node hreach x⟩ draws v).mpr ?_
    rintro ⟨-, r, hround, -, hnone | ⟨hlast, -⟩⟩
    · obtain ⟨p, hp⟩ := (sound_node hdigest hreach v.signer).casts v hcast r hround
      rw [hp.proof] at hnone
      cases hnone
    · exact absurd hmax (Nat.not_lt.mpr hlast)

/-- Without faults nobody stops before the rounds are used up. -/
theorem stopped_of_sent (hdigest : Function.Injective P.sha512)
    (hreach : (network P H fun s _ v => s.Sent H v).Reachable (start addresses) s)
    (hmax : ∀ x ∈ H, ∀ v ∈ (s.nodes x).casts, v.round < u32Max) : s.stopped = ∅ := by
  refine hreach.invariant (P := fun s =>
    (∀ x ∈ H, ∀ v ∈ (s.nodes x).casts, v.round < u32Max) → s.stopped = ∅) ?_ ?_ hmax
  · exact fun _ => rfl
  · intro s t hr ih hguard hmax
    obtain ⟨-, -, hreceived⟩ := hguard
    have hmax' : ∀ x ∈ H, ∀ v ∈ (s.nodes x).casts, v.round < u32Max := fun x hx v hv =>
      hmax x hx v ((nodes_extend hdigest hr t x).mem_casts hv)
    obtain ⟨c, hc⟩ := Option.isSome_iff_exists.mp <|
      isSome_step_of_sent hdigest hr t.node fun v hv =>
        ⟨(hreceived v hv).2, hmax' v.signer (hreceived v hv).1 v (hreceived v hv).2⟩
    show (s.next P t).stopped = ∅
    rw [next, hc]
    exact ih hmax'

end System

namespace Deployment

variable {P : Params} {ε : Type} {B : Base64Crate ε} {com : Config.Committee}

/-! ## Runs of the system -/

section Runs

variable {H M : Finset PublicKey} {admits : System → PublicKey → PrimaryVote → Prop}
  {d d' : Deployment ε}

/-- What a step does to the system: nothing, or a turn that the network allows. -/
theorem system_of_effect (hs : Sound P B com H admits d) {o : Occurrence}
    (heffect : Effect P B com H d o d') (hx : o.primary ∈ H) :
    d'.system = d.system ∨ ∃ t, (System.network P H (Credited H admits)).guard d.system t ∧
      d'.system = d.system.next P t := by
  cases heffect with
  | @vote x v rest draws hidle hvotes =>
    refine Or.inr ⟨_, ⟨hx, notMem_stopped hidle.1, fun w hw => ?_⟩, rfl⟩
    obtain rfl := Option.some.inj hw
    exact hs.channels x v (hvotes ▸ List.mem_cons_self)
  | @transaction x tx rest draw hidle hbatch =>
    exact Or.inr ⟨⟨x, .transaction tx draw⟩,
      ⟨hx, notMem_stopped hidle.1, fun w hw => by cases hw⟩, rfl⟩
  | _ => exact Or.inl rfl

/-- **The refinement**, from any state that is reached to any later one. -/
theorem reachable_system (env : Setting P B com H M admits)
    (hreach : (machine P B com H admits).Reachable (start com) d)
    (hlater : (machine P B com H admits).Reachable d d') :
    (System.network P H (Credited H admits)).Reachable d.system d'.system := by
  refine hlater.map (fun d => d.system) fun s o hr hguard => ?_
  exact system_of_effect (sound_of_reachable env (hreach.trans hr))
    (effect_of_step (GuardedMachine.ofStep_next hguard.1)) hguard.2.1

/-! ### What halts a core -/

/-- A sender makes steps of its own only. -/
theorem sender_of_effect {o : Occurrence} (h : Effect P B com H d o d') (x : PublicKey)
    (a : SocketAddr) : (d'.links x a).sender = (d.links x a).sender ∨
      ∃ action, (d.links x a).sender.step action = some (d'.links x a).sender ∧
        (o = .link x a (.sender action) ∨ ∃ data, action = .send data) := by
  cases h with
  | @handOver x' a' bytes s hrunning hframe hsend =>
    rw [links_setLink]
    split_ifs with hlink
    · obtain ⟨rfl, rfl⟩ := hlink
      exact Or.inr ⟨_, Session.sender_of_send hsend, Or.inr ⟨bytes, rfl⟩⟩
    · exact Or.inl rfl
  | @link x' y a' e s hpermits hhost hstep htakes =>
    rw [links_setLink]
    split_ifs with hlink
    · obtain ⟨rfl, rfl⟩ := hlink
      rcases Session.sender_cases_of_step hstep with ⟨action, rfl, haction⟩ | hsame
      · exact Or.inr ⟨action, haction, Or.inl rfl⟩
      · exact Or.inl hsame
    · exact Or.inl rfl
  | @remote x' a' action o hpermits hhost hstep =>
    rw [links_setLink]
    split_ifs with hlink
    · obtain ⟨rfl, rfl⟩ := hlink
      exact Or.inr ⟨action, hstep, Or.inl rfl⟩
    · exact Or.inl rfl
  | _ => exact Or.inl rfl

/-- A core is halted by a connection to an authority that has panicked. -/
theorem panicked_of_halted (env : Setting P B com H M admits)
    (hreach : (machine P B com H admits).Reachable (start com) d) :
    ∀ x ∈ d.halted, ∃ a ∈ (com.primaryAddresses x).map Prod.snd,
      (d.links x a).sender.connection.phase = .panicked := by
  have hstep : ∀ {o} {d d' : Deployment ε}, Sound P B com H admits d → Effect P B com H d o d' →
      ∀ x ∈ d'.halted, x ∈ d.halted ∨ ∃ a ∈ (com.primaryAddresses x).map Prod.snd,
        (d.links x a).sender.connection.phase = .panicked := by
    intro o d d' hs heffect x hx
    cases heffect with
    | @halt y a bytes hrunning hframe hpanicked =>
      rcases Finset.mem_insert.mp hx with rfl | hx
      · refine Or.inr ⟨a, ?_, hpanicked⟩
        exact ((System.addressed_node hs.reachable x).mem_frames.mp (List.mem_of_getElem? hframe)).1
      · exact Or.inl hx
    | _ => exact Or.inl hx
  refine hreach.invariant (P := fun d => ∀ x ∈ d.halted,
    ∃ a ∈ (com.primaryAddresses x).map Prod.snd,
      (d.links x a).sender.connection.phase = .panicked)
    (fun x hx => absurd hx (Finset.notMem_empty x)) ?_
  intro d o hr ih hguard x hx
  have heffect := effect_of_step (GuardedMachine.ofStep_next hguard.1)
  obtain ⟨a, ha, hpanicked⟩ :=
    (hstep (sound_of_reachable env hr) heffect x hx).elim (ih x) id
  refine ⟨a, ha, ?_⟩
  rcases sender_of_effect heffect x a with hsame | ⟨action, haction, -⟩
  · exact (congrArg (fun o : Outgoing => o.connection.phase) hsame).trans hpanicked
  · exact Outgoing.panicked_of_step hpanicked haction

end Runs

/-! ## Byzantine faults -/

section Byzantine

variable {C : Committee PublicKey P.numberOfByzantineNodes} {d d' : Deployment ε}

/-- The deployments in which faulty members send any votes but forged ones. -/
abbrev byzantine (P : Params) (B : Base64Crate ε) (com : Config.Committee)
    (C : Committee PublicKey P.numberOfByzantineNodes) :
    GuardedMachine (Deployment ε) Occurrence :=
  machine P B com C.correct fun s _ v => s.Byzantine C v

theorem byzantine_of_credited {s : System} {x : PublicKey} {v : PrimaryVote}
    (h : Credited C.correct (fun s _ v => s.Byzantine C v) s x v) : s.Byzantine C v :=
  h.elim (fun hsent => ⟨C.subset hsent.1, fun _ => hsent.2⟩) id

/-- `2 ^ 64` is more than a `usize` holds. -/
theorem setting_byzantine (hdigest : Function.Injective P.sha512) (hB : B.RoundTrips)
    (hshort : Wire.Short B) (hcard : P.numberOfTotalNodes < 256 ^ 8) :
    Setting P B com C.correct C.members fun s _ v => s.Byzantine C v where
  digest := hdigest
  base64 := hB
  short := hshort
  subset := C.subset
  card := by
    rw [C.card_members]
    exact hcard
  signer _ _ _ h := h.1
  mono _ t _ _ hr h := ⟨h.1, fun hcorrect => (h.2 hcorrect).next hdigest hr t⟩

theorem reachable_byzantine (hdigest : Function.Injective P.sha512) (hB : B.RoundTrips)
    (hshort : Wire.Short B) (hcard : P.numberOfTotalNodes < 256 ^ 8)
    (hreach : (byzantine P B com C).Reachable (start com) d)
    (hlater : (byzantine P B com C).Reachable d d') :
    (System.network P C.correct fun s _ v => s.Byzantine C v).Reachable d.system d'.system :=
  (reachable_system (setting_byzantine hdigest hB hshort hcard) hreach hlater).mono
    (fun _ _ => rfl) fun _ _ _ hguard =>
      ⟨hguard.1, hguard.2.1, fun v hv => byzantine_of_credited (hguard.2.2 v hv)⟩

/-- **The deployment refines the network.**  Whatever the connections do, and whatever faulty
members send, short of forging votes of the others: the cores go through a run of the network with
Byzantine faults. -/
theorem refines (hdigest : Function.Injective P.sha512) (hB : B.RoundTrips)
    (hshort : Wire.Short B) (hcard : P.numberOfTotalNodes < 256 ^ 8)
    (hreach : (byzantine P B com C).Reachable (start com) d) :
    (System.network P C.correct fun s _ v => s.Byzantine C v).Reachable
      (System.start com.primaryAddresses) d.system :=
  reachable_byzantine hdigest hB hshort hcard GuardedMachine.Reachable.refl hreach

/-- **Agreement, end to end.**  No two correct primaries ever hold different values in `decided`
for one election, at whatever times. -/
theorem decisions_agree (hdigest : Function.Injective P.sha512) (hB : B.RoundTrips)
    (hshort : Wire.Short B) (hcard : P.numberOfTotalNodes < 256 ^ 8)
    (hreach : (byzantine P B com C).Reachable (start com) d)
    (hlater : (byzantine P B com C).Reachable d d') {x y : PublicKey} (hx : x ∈ C.correct)
    (hy : y ∈ C.correct) {h : BlockHash} {b b' : Value}
    (hb : (d.system.nodes x).decided.lookup h = some b)
    (hb' : (d'.system.nodes y).decided.lookup h = some b') : b = b' := by
  have hsystem := reachable_byzantine hdigest hB hshort hcard GuardedMachine.Reachable.refl hreach
  have hsystem' := reachable_byzantine hdigest hB hshort hcard hreach hlater
  have hall := hsystem.trans hsystem'
  obtain ⟨v, -, hv, -, hvtype, rfl⟩ := System.exists_decide_of_decided hdigest hsystem hb
  obtain ⟨w, -, hw, -, hwtype, rfl⟩ := System.exists_decide_of_decided hdigest hall hb'
  have hkept := (System.nodes_extend_of_reachable hdigest hsystem hsystem' x).votes h v.round hv
  exact System.decide_eq hdigest (fun _ _ _ hok => hok) hall hx hy hkept hw hvtype hwtype

end Byzantine

/-! ### A run with a faulty member -/

/-- Two correct authorities exchange their votes over their connections, and the faulty one adds its
own, so that both decide. -/
def concerted : List Occurrence :=
  begins 1 false ++ handsOver 1 4 ++ begins 2 false ++ handsOver 2 4 ++
    connects 1 2 ++ carries 1 2 ++ connects 2 1 ++ carries 2 1 ++ hears 1 ++ hears 2 ++
    told 1 (firstBallot 4 .zero) ++ handsOver 1 4 ++ told 2 (firstBallot 4 .zero) ++
    handsOver 2 4 ++ carries 1 2 ++ carries 2 1 ++ hears 1 ++ hears 2 ++
    told 1 (ballot 4 1 .zero .commit [1, 2, 4]) ++ told 2 (ballot 4 1 .zero .commit [1, 2, 4])

abbrev concert : GuardedMachine (Deployment String) Occurrence :=
  byzantine Params.source Base64Crate.standard (.ofLocal [1, 2, 3, 4]) System.trio

def concluded : Deployment String :=
  concert.run (start (.ofLocal [1, 2, 3, 4])) concerted

theorem concerted_spec :
    concert.Legal (start (.ofLocal [1, 2, 3, 4])) concerted ∧
      (concluded.system.nodes (authority 1)).decided.lookup block = some .zero ∧
      (concluded.system.nodes (authority 2)).decided.lookup block = some .zero := by
  decide +kernel

theorem reachable_concluded :
    concert.Reachable (start (.ofLocal [1, 2, 3, 4])) concluded :=
  GuardedMachine.reachable_run concerted concerted_spec.1

theorem refines_concluded :
    (System.network Params.source System.trio.correct fun s _ v =>
        s.Byzantine System.trio v).Reachable
      (System.start (Config.Committee.ofLocal [1, 2, 3, 4]).primaryAddresses)
      concluded.system :=
  refines Params.source_injective Base64Crate.standard_roundTrips Wire.standard_short (by decide)
    reachable_concluded

theorem decisions_agree_concluded :
    (concluded.system.nodes (authority 1)).decided.lookup block = some .zero ∧
      (concluded.system.nodes (authority 2)).decided.lookup block = some .zero ∧
      Value.zero = Value.zero :=
  ⟨concerted_spec.2.1, concerted_spec.2.2,
    decisions_agree (C := System.trio) Params.source_injective
      Base64Crate.standard_roundTrips Wire.standard_short (by decide) reachable_concluded
      GuardedMachine.Reachable.refl (x := authority 1) (y := authority 2) (by decide +kernel)
      (by decide +kernel) concerted_spec.2.1 concerted_spec.2.2⟩

/-! ## No faults -/

section Faultless

variable {H : Finset PublicKey} {d : Deployment ε}

/-- The deployments in which only the program sends votes.  Clients, and anybody else, may send
all other frames. -/
abbrev faultless (P : Params) (B : Base64Crate ε) (com : Config.Committee)
    (H : Finset PublicKey) : GuardedMachine (Deployment ε) Occurrence :=
  machine P B com H fun _ _ _ => False

theorem setting_faultless (hdigest : Function.Injective P.sha512) (hB : B.RoundTrips)
    (hshort : Wire.Short B) (hcard : H.card < 256 ^ 8) :
    Setting P B com H H fun _ _ _ => False where
  digest := hdigest
  base64 := hB
  short := hshort
  subset := subset_rfl
  card := hcard
  signer _ _ _ h := h.elim
  mono _ _ _ _ _ h := h

theorem reachable_faultless (hdigest : Function.Injective P.sha512) (hB : B.RoundTrips)
    (hshort : Wire.Short B) (hcard : H.card < 256 ^ 8)
    (hreach : (faultless P B com H).Reachable (start com) d) :
    (System.network P H fun s _ v => s.Sent H v).Reachable
      (System.start com.primaryAddresses) d.system :=
  (sound_of_reachable (setting_faultless hdigest hB hshort hcard) hreach).reachable.mono
    (fun _ _ => rfl) fun _ _ _ hguard =>
      ⟨hguard.1, hguard.2.1, fun v hv => (hguard.2.2 v hv).resolve_right id⟩

end Faultless

/-- An authority hears of the vote of another. -/
def heardOf : List Occurrence :=
  begins 1 false ++ handsOver 1 2 ++ connects 1 2 ++ carries 1 2 ++ hears 2

def afterHeardOf : Deployment String :=
  (faultless Params.source Base64Crate.standard (.ofLocal [1, 2]) both).run
    (start (.ofLocal [1, 2])) heardOf

theorem reachable_afterHeardOf :
    (faultless Params.source Base64Crate.standard (.ofLocal [1, 2]) both).Reachable
      (start (.ofLocal [1, 2])) afterHeardOf :=
  GuardedMachine.reachable_run heardOf (by decide +kernel)

theorem heardOf_spec :
    (∀ x ∈ both, ∀ v ∈ (afterHeardOf.system.nodes x).casts, v.round < u32Max) ∧
      ∀ x ∈ both, ∀ a ∈ ((Config.Committee.ofLocal [1, 2]).primaryAddresses x).map Prod.snd,
        (afterHeardOf.links x a).sender.connection.phase ≠ .panicked := by
  decide +kernel

-- the run is not to be evaluated again
attribute [local irreducible] afterHeardOf

section Remote

variable {H : Finset PublicKey} {admits : System → PublicKey → PrimaryVote → Prop}
  {x : PublicKey} {a : SocketAddr}

/-- Where nobody runs the code at the other end, a step of the sender is a step of the
deployment. -/
theorem stepLink_remote {d : Deployment ε} {action : Action} {o : Outgoing}
    (hpermits : d.Permits x (.sender action)) (hhost : peer com H a = none)
    (hstep : (d.links x a).sender.step action = some o) :
    d.stepLink B com H x a (.sender action) =
      some (d.setLink x a { d.links x a with sender := o }) := by
  unfold stepLink
  rw [if_pos hpermits, show (com.host a).filter (· ∈ H) = none from hhost]
  show Option.map _ ((d.links x a).sender.step action) = _
  rw [hstep, Option.map_some]

theorem setLink_setLink (d : Deployment ε)
    (s s' : Session TxReceiverHandler (DagError (WireError ε))) :
    (d.setLink x a s).setLink x a s' = d.setLink x a s' := by
  unfold setLink
  simp only [Function.update_self, Function.update_idem]

theorem setLink_self (d : Deployment ε) : d.setLink x a (d.links x a) = d := by
  unfold setLink
  rw [Function.update_eq_self, Function.update_eq_self]

/-- So is a run of it, and nothing else changes. -/
theorem legal_remote (hx : x ∈ H) (hhost : peer com H a = none) {actions : List Action}
    (hpermits : ∀ action ∈ actions, ∀ d : Deployment ε, d.Permits x (.sender action))
    {d : Deployment ε} (hlegal : Outgoing.machine.Legal (d.links x a).sender actions) :
    (machine P B com H admits).Legal d (actions.map fun action => .link x a (.sender action)) ∧
      (machine P B com H admits).run d (actions.map fun action => .link x a (.sender action)) =
        d.setLink x a { d.links x a with
          sender := Outgoing.machine.run (d.links x a).sender actions } := by
  induction actions generalizing d with
  | nil => exact ⟨trivial, (setLink_self d).symm⟩
  | cons action actions ih =>
    obtain ⟨hguard, hrest⟩ := hlegal
    have hstep := stepLink_remote (B := B) (hpermits _ List.mem_cons_self d) hhost
      (GuardedMachine.ofStep_next hguard)
    set o := Outgoing.machine.next (d.links x a).sender action with ho
    set d₁ := d.setLink x a { d.links x a with sender := o } with hd₁
    have hlink : d₁.links x a = { d.links x a with sender := o } := by
      rw [hd₁, links_setLink, if_pos ⟨rfl, rfl⟩]
    have hnext := GuardedMachine.ofStep_of_some
      (show d.step P B com H (.link x a (.sender action)) = some d₁ from hstep)
    obtain ⟨hlegal₁, hrun₁⟩ := ih (fun b hb => hpermits b (List.mem_cons_of_mem _ hb))
      (d := d₁) (by rw [hlink]; exact hrest)
    have hlegal₂ : (machine P B com H admits).Legal
        ((machine P B com H admits).next d (.link x a (.sender action)))
        (actions.map fun action => .link x a (.sender action)) := hnext.2.symm ▸ hlegal₁
    refine ⟨⟨⟨hnext.1, hx, nofun⟩, hlegal₂⟩, ?_⟩
    show (machine P B com H admits).run
      ((machine P B com H admits).next d (.link x a (.sender action))) _ = _
    rw [show (machine P B com H admits).next d (.link x a (.sender action)) = d₁ from hnext.2,
      hrun₁, hlink, hd₁, setLink_setLink]
    rfl

/-- A core that has a frame for a connection whose task has panicked panics too. -/
theorem down_of_panicked (hx : x ∈ H) {d : Deployment ε} {bytes : Bytes} (hrunning : x ∉ d.down)
    (hframe : ((d.system.nodes x).frames B)[d.handed x]? = some (a, bytes))
    (hpanicked : (d.links x a).sender.connection.phase = .panicked) :
    ∃ d', (machine P B com H admits).Reachable d d' ∧ x ∈ d'.down := by
  have hstep : d.step P B com H (.handOver x) = some { d with halted := insert x d.halted } := by
    show d.handOver B x = _
    unfold handOver
    rw [if_pos hrunning, hframe]
    exact if_pos hpanicked
  obtain ⟨hguard, hnext⟩ := GuardedMachine.ofStep_of_some hstep
  have hnext' : (machine P B com H admits).next d (.handOver x) =
      { d with halted := insert x d.halted } := hnext
  refine ⟨_, GuardedMachine.Reachable.refl.step ⟨hguard, hx, nofun⟩, ?_⟩
  rw [hnext']
  exact Finset.mem_union_right _ (Finset.mem_insert_self _ _)

end Remote

/-- An authority has handed over the frame for itself, and has one for another, that is away. -/
def forsaken : List Occurrence :=
  begins 1 false ++ handsOver 1 1

def afterForsaken : Deployment String :=
  (faultless Params.source Base64Crate.standard (.ofLocal [1, 2]) {authority 1}).run
    (start (.ofLocal [1, 2])) forsaken

/-- The address of the second authority. -/
def away : SocketAddr := ⟨[127, 0, 0, 1], 4002⟩

theorem forsaken_spec :
    (faultless Params.source Base64Crate.standard (.ofLocal [1, 2]) {authority 1}).Legal
        (start (.ofLocal [1, 2])) forsaken ∧
      authority 1 ∉ afterForsaken.down ∧
      (((afterForsaken.system.nodes (authority 1)).frames Base64Crate.standard)[
        afterForsaken.handed (authority 1)]?).map Prod.fst = some away ∧
      (afterForsaken.links (authority 1) away).sender.connection.phase = .connecting ∧
      (afterForsaken.links (authority 1) away).sender.connection.retry = 0 ∧
      peer (.ofLocal [1, 2]) {authority 1} away = none := by
  decide +kernel

theorem reachable_afterForsaken :
    (faultless Params.source Base64Crate.standard (.ofLocal [1, 2]) {authority 1}).Reachable
      (start (.ofLocal [1, 2])) afterForsaken :=
  GuardedMachine.reachable_run forsaken forsaken_spec.1

-- the run is not to be evaluated again
attribute [local irreducible] afterForsaken

theorem down_of_overflow {n : ℕ} (hn : n = u16Max) :
    ∃ d, (faultless Params.source Base64Crate.standard (.ofLocal [1, 2]) {authority 1}).Reachable
      (start (.ofLocal [1, 2])) d ∧ authority 1 ∈ d.down := by
  obtain ⟨-, hrunning, hframe, hphase, hretry, hhost⟩ := forsaken_spec
  obtain ⟨⟨-, bytes⟩, hframe, rfl⟩ := Option.map_eq_some_iff.mp hframe
  obtain ⟨hoverflow, hpanicked, -⟩ := Outgoing.legal_overflow hphase
    (n := n) ((congrArg (· + n) hretry).trans ((Nat.zero_add n).trans hn))
  have hpermits : ∀ action ∈ Outgoing.overflow n, ∀ d : Deployment String,
      d.Permits (authority 1) (.sender action) := by
    intro action haction d
    rcases Outgoing.mem_overflow haction with rfl | rfl <;> exact trivial
  have hremote : (faultless Params.source Base64Crate.standard (.ofLocal [1, 2])
      {authority 1}).Legal afterForsaken _ ∧ _ :=
    legal_remote (Finset.mem_singleton_self _) hhost hpermits hoverflow
  have hreach := reachable_afterForsaken.trans (GuardedMachine.reachable_run _ hremote.1)
  set s : Session TxReceiverHandler (DagError (WireError String)) :=
    { afterForsaken.links (authority 1) away with
      sender := Outgoing.machine.run (afterForsaken.links (authority 1) away).sender
        (Outgoing.overflow n) } with hs
  rw [hremote.2] at hreach
  have hlink : (afterForsaken.setLink (authority 1) away s).links (authority 1) away = s := by
    rw [links_setLink, if_pos ⟨rfl, rfl⟩]
  -- the core goes on to the frame for the other
  obtain ⟨d, hlater, hdown⟩ := down_of_panicked (Finset.mem_singleton_self _)
    (d := afterForsaken.setLink (authority 1) away s) hrunning hframe
    (by rw [hlink]; exact hpanicked)
  exact ⟨d, hreach.trans hlater, hdown⟩

/-- **A primary dies of a peer that is away**, without any fault of its own: when it has tried to
connect for 65536 times in a row and then has a frame for it. -/
theorem exists_down :
    ∃ d, (faultless Params.source Base64Crate.standard (.ofLocal [1, 2]) {authority 1}).Reachable
      (start (.ofLocal [1, 2])) d ∧ authority 1 ∈ d.down :=
  down_of_overflow rfl

end Deployment
end NeroConsensus
