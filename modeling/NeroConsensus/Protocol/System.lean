import NeroConsensus.Primary.Turns
import Mathlib.Logic.Function.Basic

/-!
# A network of nodes

A `System` has a node for every key.  In a turn one node takes an event from its
channels and handles it; a node whose turn panics stops.  Which nodes take turns and
which votes they can be given is what `network` is told: the set `H` of the keys whose
nodes run the code, and a condition on the votes that may be delivered to a node in a
state of the system.  The rest is up to the environment.  A vote that is not delivered
is delayed or lost, it may be delivered again and in any order, and whatever the
condition lets through may be made up by a faulty peer.

* `reachable_node`: in a run of the system every node makes a run of its own, so what
  holds of single nodes holds here (`sound_node`).
* `invariant_nodes`: the invariant rule for a property of the nodes one by one.
* `nodes_extend`: nodes only grow.

`Quiescent` is the state of a network in which nothing is in flight.
-/

namespace NeroConsensus

/-- A node for every key, and the nodes that have panicked. -/
structure System where
  nodes : PublicKey → Core
  stopped : Finset PublicKey

/-- The node with the key `node` takes an event from its channels. -/
structure Turn where
  node : PublicKey
  event : Core.Event

namespace System

/-- No node has done anything yet. -/
def start (addresses : PublicKey → List (PublicKey × SocketAddr)) : System where
  nodes x := Core.spawn x (addresses x) false
  stopped := ∅

/-- The system after a turn. -/
def next (P : Params) (s : System) (t : Turn) : System :=
  match (s.nodes t.node).step P t.event with
  | some c => { s with nodes := Function.update s.nodes t.node c }
  | none => { s with stopped := insert t.node s.stopped }

/-- The runs in which the nodes of `H` take turns and are given votes that are
`allowed`. -/
def network (P : Params) (H : Finset PublicKey)
    (allowed : System → PublicKey → PrimaryVote → Prop) : GuardedMachine System Turn where
  guard s t := t.node ∈ H ∧ t.node ∉ s.stopped ∧ ∀ v ∈ t.event.received, allowed s t.node v
  next := next P

instance (P : Params) (H : Finset PublicKey)
    (allowed : System → PublicKey → PrimaryVote → Prop)
    [∀ s x v, Decidable (allowed s x v)] (s : System) (t : Turn) :
    Decidable ((network P H allowed).guard s t) :=
  inferInstanceAs (Decidable (_ ∧ _ ∧ ∀ v ∈ t.event.received, allowed s t.node v))

/-- The vote has been broadcast by its signer. -/
def Broadcast (s : System) (v : PrimaryVote) : Prop :=
  v ∈ (s.nodes v.signer).casts

instance (s : System) (v : PrimaryVote) : Decidable (s.Broadcast v) :=
  inferInstanceAs (Decidable (v ∈ (s.nodes v.signer).casts))

/-- The vote has been broadcast by a node of `H`. -/
def Sent (H : Finset PublicKey) (s : System) (v : PrimaryVote) : Prop :=
  v.signer ∈ H ∧ s.Broadcast v

instance (H : Finset PublicKey) (s : System) (v : PrimaryVote) : Decidable (s.Sent H v) :=
  inferInstanceAs (Decidable (_ ∧ _))

/-- Nothing is in flight: what one node of `H` has broadcast, the others have handled. -/
def Quiescent (H : Finset PublicKey) (s : System) : Prop :=
  ∀ x ∈ H, ∀ y ∈ H, x ≠ y → ∀ v ∈ (s.nodes x).casts, v ∈ (s.nodes y).sentVotes

instance (H : Finset PublicKey) (s : System) : Decidable (s.Quiescent H) :=
  inferInstanceAs (Decidable (∀ x ∈ H, ∀ y ∈ H, x ≠ y → ∀ v ∈ (s.nodes x).casts, _))

/-- A turn of a concrete run: an authority starts the election. -/
def begin (i : UInt8) (draw : Bool) : Turn :=
  ⟨authority i, .transaction ⟨block.digest⟩ draw⟩

/-- A turn of a concrete run: an authority handles a vote. -/
def deliver (i : UInt8) (v : PrimaryVote) : Turn :=
  ⟨authority i, .vote v (Draws.of false)⟩

/-- The four authorities of the concrete runs. -/
def four : Finset PublicKey := {authority 1, authority 2, authority 3, authority 4}

theorem card_four : four.card = 3 * Params.source.numberOfByzantineNodes + 1 := by
  decide +kernel

variable {P : Params} {H : Finset PublicKey}
  {allowed : System → PublicKey → PrimaryVote → Prop}
  {addresses : PublicKey → List (PublicKey × SocketAddr)} {s : System}

@[simp] theorem nodes_start (x : PublicKey) :
    (start addresses).nodes x = Core.spawn x (addresses x) false := rfl

/-! ## One turn -/

theorem nodes_next_of_some {t : Turn} {c : Core}
    (h : (s.nodes t.node).step P t.event = some c) :
    (s.next P t).nodes = Function.update s.nodes t.node c := by
  rw [next, h]

theorem nodes_next_of_none {t : Turn} (h : (s.nodes t.node).step P t.event = none) :
    (s.next P t).nodes = s.nodes := by
  rw [next, h]

/-- A turn of the system is a turn of one node, or the end of one. -/
theorem nodes_next_cases (s : System) (t : Turn) (x : PublicKey) :
    (s.next P t).nodes x = s.nodes x ∨
      (x = t.node ∧ (s.nodes x).step P t.event = some ((s.next P t).nodes x)) := by
  cases hstep : (s.nodes t.node).step P t.event with
  | none =>
    left
    rw [nodes_next_of_none hstep]
  | some c =>
    rw [nodes_next_of_some hstep]
    by_cases hx : x = t.node
    · subst hx
      rw [Function.update_self]
      exact Or.inr ⟨rfl, hstep⟩
    · rw [Function.update_of_ne hx]
      exact Or.inl rfl

/-! ## Runs -/

/-- **In a run of the system every node makes a run of its own.** -/
theorem reachable_node (hreach : (network P H allowed).Reachable (start addresses) s)
    (x : PublicKey) :
    (Core.machine P).Reachable (Core.spawn x (addresses x) false) (s.nodes x) := by
  refine hreach.map (fun s => s.nodes x) fun s t _ _ => ?_
  rcases nodes_next_cases (P := P) s t x with hsame | ⟨-, hstep⟩
  · exact Or.inl hsame
  · refine Or.inr ⟨t.event, ?_, ?_⟩
    · show ((s.nodes x).step P t.event).isSome = true
      rw [hstep]
      rfl
    · show (s.next P t).nodes x = ((s.nodes x).step P t.event).getD (s.nodes x)
      rw [hstep, Option.getD_some]

theorem sound_node (hdigest : Function.Injective P.sha512)
    (hreach : (network P H allowed).Reachable (start addresses) s) (x : PublicKey) :
    Core.Sound P (s.nodes x) :=
  Core.sound_of_reachable hdigest (reachable_node hreach x)

theorem id_node (hdigest : Function.Injective P.sha512)
    (hreach : (network P H allowed).Reachable (start addresses) s) (x : PublicKey) :
    (s.nodes x).id = x :=
  (Core.wellFormed_extends_of_reachable hdigest (reachable_node hreach x)
    (Core.wellFormed_spawn x (addresses x) false P)).2.id

/-- Nodes only grow. -/
theorem nodes_extend (hdigest : Function.Injective P.sha512)
    (hreach : (network P H allowed).Reachable (start addresses) s) (t : Turn)
    (x : PublicKey) : Core.Extends (s.nodes x) ((s.next P t).nodes x) := by
  rcases nodes_next_cases (P := P) s t x with hsame | ⟨-, hstep⟩
  · rw [hsame]
    exact Core.Extends.refl _
  · exact (Core.step_sound hdigest hstep (sound_node hdigest hreach x)).2

theorem nodes_extend_of_reachable (hdigest : Function.Injective P.sha512) {s' : System}
    (hreach : (network P H allowed).Reachable (start addresses) s)
    (hlater : (network P H allowed).Reachable s s') (x : PublicKey) :
    Core.Extends (s.nodes x) (s'.nodes x) := by
  refine hlater.rel_of_step (R := fun s s' => Core.Extends (s.nodes x) (s'.nodes x)) ?_ ?_ ?_
  · exact fun u => Core.Extends.refl (u.nodes x)
  · intro u₁ u₂ u₃ h₁ h₂
    exact h₁.trans h₂
  · intro u t hu _
    exact nodes_extend hdigest (hreach.trans hu) t x

/-- **The invariant rule for nodes.**  What the nodes have at the start, and a node keeps
in a turn that the system allows, they always have. -/
theorem invariant_nodes {I : PublicKey → Core → Prop}
    (hreach : (network P H allowed).Reachable (start addresses) s)
    (hinit : ∀ x, I x (Core.spawn x (addresses x) false))
    (hstep : ∀ s x event c, (network P H allowed).Reachable (start addresses) s → x ∈ H →
      (∀ v ∈ event.received, allowed s x v) → (∀ y, I y (s.nodes y)) →
      (s.nodes x).step P event = some c → I x c) (x : PublicKey) : I x (s.nodes x) := by
  have hall : ∀ x, I x (s.nodes x) := by
    refine hreach.invariant (P := fun s => ∀ x, I x (s.nodes x)) hinit ?_
    intro s t hr hinv hguard x
    obtain ⟨hmem, -, hallowed⟩ := hguard
    rcases nodes_next_cases (P := P) s t x with hsame | ⟨rfl, hturn⟩
    · show I x ((s.next P t).nodes x)
      rw [hsame]
      exact hinv x
    · exact hstep s _ t.event _ hr hmem hallowed hinv hturn
  exact hall x

/-- Allowing less leaves fewer runs. -/
theorem reachable_of_allowed {H' : Finset PublicKey}
    {allowed' : System → PublicKey → PrimaryVote → Prop} (hH : H ⊆ H')
    (hallowed : ∀ s x v, (network P H allowed).Reachable (start addresses) s → x ∈ H →
      allowed s x v → allowed' s x v)
    (hreach : (network P H allowed).Reachable (start addresses) s) :
    (network P H' allowed').Reachable (start addresses) s :=
  hreach.mono (fun _ _ => rfl) fun _ _ hr hguard =>
    ⟨hH hguard.1, hguard.2.1, fun v hv => hallowed _ _ v hr hguard.1 (hguard.2.2 v hv)⟩

/-- **The invariant rule for stored votes.**  What holds of the votes the nodes cast and
of the votes they are given, and goes on holding, holds of the votes they store. -/
theorem invariant_votes (hdigest : Function.Injective P.sha512)
    {Q : System → PrimaryVote → Prop}
    (hmono : ∀ s t v, (network P H allowed).Reachable (start addresses) s → Q s v →
      Q (s.next P t) v)
    (hcasts : ∀ s x v, (network P H allowed).Reachable (start addresses) s → x ∈ H →
      v ∈ (s.nodes x).casts → Q s v)
    (hallowed : ∀ s x v, (network P H allowed).Reachable (start addresses) s →
      allowed s x v → Q s v)
    (hreach : (network P H allowed).Reachable (start addresses) s) :
    ∀ x h r, ∀ v ∈ (s.nodes x).votes h r, Q s v := by
  refine hreach.invariant (P := fun s => ∀ x h r, ∀ v ∈ (s.nodes x).votes h r, Q s v) ?_ ?_
  · intro x h r v hv
    rw [nodes_start, Core.votes_spawn] at hv
    exact absurd hv (Finset.notMem_empty v)
  · intro s t hr hinv hguard x h r v hv
    have hnext : (network P H allowed).Reachable (start addresses) (s.next P t) :=
      hr.step hguard
    rcases nodes_next_cases (P := P) s t x with hsame | ⟨rfl, hturn⟩
    · refine hmono s t v hr (hinv x h r v ?_)
      rw [← hsame]
      exact hv
    · rcases Core.mem_votes_step (sound_node hdigest hr t.node).noPending hturn hv with
        hold | hcast | ⟨draws, hevent, -, -⟩
      · exact hmono s t v hr (hinv t.node h r v hold)
      · exact hcasts _ t.node v hnext hguard.1 hcast
      · exact hmono s t v hr (hallowed s _ v hr (hguard.2.2 v (by rw [hevent]; rfl)))

/-- A broadcast vote stays broadcast. -/
theorem Broadcast.next (hdigest : Function.Injective P.sha512)
    (hreach : (network P H allowed).Reachable (start addresses) s) (t : Turn)
    {v : PrimaryVote} (hv : s.Broadcast v) : (s.next P t).Broadcast v :=
  (nodes_extend hdigest hreach t v.signer).mem_casts hv

/-- What a node has cast carries its key. -/
theorem broadcast_of_mem_casts (hdigest : Function.Injective P.sha512)
    (hreach : (network P H allowed).Reachable (start addresses) s) {x : PublicKey}
    {v : PrimaryVote} (hv : v ∈ (s.nodes x).casts) : v.signer = x ∧ s.Broadcast v := by
  have hsigner : v.signer = x := by
    rw [(sound_node hdigest hreach x).own v hv, id_node hdigest hreach]
  refine ⟨hsigner, ?_⟩
  rw [Broadcast, hsigner]
  exact hv

end System
end NeroConsensus
