import NeroConsensus.Config.Addresses
import NeroConsensus.Network.Acknowledgement
import NeroConsensus.Primary.Wire
import NeroConsensus.Protocol.System

/-!
# A deployment

`Primary::spawn` puts the pieces together: a core, the two channels it reads, the receiver that
fills them, and the reliable sender that the core writes to.  A `Deployment` is a `System` with
these pieces around every core, and with a `Session` for every primary and every address that it
sends to.

* The core takes a vote, or a list of transactions, from its channels, and goes on when all that
  it has broadcast has been handed to the reliable sender, address by address.
* A frame is what `bincode` makes of a message.  It waits in the connection for the address, goes
  over the wire as often as connections break, and reaches a runner of the receiver at the address.
* The runner gives it to the `TxReceiverHandler`, which waits until there is room in the channel.

`handle_messages` replaces the configured address by the local one with the same port, so the
primaries that hear each other are those with local addresses (`Config.Committee.host`).

The keys of `H` run the code.  Whatever else sends to them, clients or faulty primaries, is
`foreign`: it may send any bytes.  The code has no signatures on votes, so what a foreign vote may
look like is a condition `admits`, as for the `System`.

A core can panic in a turn, as in the `System`, and there is one more way: it is to hand a frame to
a connection whose task is gone (`Phase.panicked`).  Then it is `halted`.  The rest of its turn, of
which nobody hears any more, is not taken back.
-/

namespace NeroConsensus

/-- `CHANNEL_CAPACITY`. -/
def channelCapacity : ℕ := 1000

deriving instance DecidableEq for TxReceiverHandler

/-- The frames that a core has broadcast, with their addresses, in the order in which
`ReliableSender::broadcast` sends them. -/
def Core.frames {ε : Type} (B : Base64Crate ε) (c : Core) : List (SocketAddr × Bytes) :=
  c.network.flatMap fun m => m.2.map fun address => (address, Wire.serialize B m.1)

/-! ## States -/

structure Deployment (ε : Type) where
  system : System
  /-- What is in the two channels of a primary. -/
  handlers : PublicKey → TxReceiverHandler
  /-- The transactions that the loop over the last list has not come to. -/
  batches : PublicKey → List Transaction
  /-- How many of its frames a core has handed to the reliable sender. -/
  handed : PublicKey → ℕ
  links : PublicKey → SocketAddr → Session TxReceiverHandler (DagError (WireError ε))
  /-- The cores that have panicked in `ReliableSender::send`. -/
  halted : Finset PublicKey

/-- What happens in a deployment. -/
inductive Occurrence where
  /-- The core takes a vote and handles it. -/
  | vote : PublicKey → Draws → Occurrence
  /-- The core takes a list of transactions. -/
  | batch : PublicKey → Occurrence
  /-- The core handles the next transaction of the list. -/
  | transaction : PublicKey → Bool → Occurrence
  /-- The core hands the next frame to the reliable sender. -/
  | handOver : PublicKey → Occurrence
  /-- Something happens to the connection of a primary for an address. -/
  | link : PublicKey → SocketAddr → SessionEvent → Occurrence
  /-- A frame of another connection reaches a primary. -/
  | foreign : PublicKey → Bytes → Occurrence

/-- The primary that runs the code. -/
def Occurrence.primary : Occurrence → PublicKey
  | vote x _ => x
  | batch x => x
  | transaction x _ => x
  | handOver x => x
  | link x _ _ => x
  | foreign y _ => y

/-- The vote that a foreign frame brings. -/
def Occurrence.brought {ε : Type} (B : Base64Crate ε) : Occurrence → Option PrimaryVote
  | foreign _ bytes =>
    match Wire.deserialize B bytes with
    | .ok (.sendVote v) => some v
    | _ => none
  | _ => none

namespace Deployment

variable {ε : Type}

/-- Nothing has been sent yet. -/
def start (com : Config.Committee) : Deployment ε where
  system := System.start com.primaryAddresses
  handlers _ := ⟨[], []⟩
  batches _ := []
  handed _ := 0
  links _ address := Session.spawn address address ⟨[], []⟩
  halted := ∅

/-- The cores that have panicked. -/
def down (d : Deployment ε) : Finset PublicKey :=
  d.system.stopped ∪ d.halted

theorem notMem_stopped {d : Deployment ε} {x : PublicKey} (hx : x ∉ d.down) :
    x ∉ d.system.stopped :=
  fun hstopped => hx (Finset.mem_union_left _ hstopped)

/-- The connection of a primary for an address is replaced. -/
def setLink (d : Deployment ε) (x : PublicKey) (address : SocketAddr)
    (s : Session TxReceiverHandler (DagError (WireError ε))) : Deployment ε :=
  { d with links := Function.update d.links x (Function.update (d.links x) address s) }

theorem links_setLink (d : Deployment ε) (x x' : PublicKey) (a a' : SocketAddr)
    (s : Session TxReceiverHandler (DagError (WireError ε))) :
    (d.setLink x a s).links x' a' = if x' = x ∧ a' = a then s else d.links x' a' := by
  show Function.update d.links x (Function.update (d.links x) a s) x' a' = _
  by_cases hx : x' = x
  · subst hx
    by_cases ha : a' = a
    · subst ha
      rw [if_pos ⟨rfl, rfl⟩, Function.update_self, Function.update_self]
    · rw [if_neg fun h => ha h.2, Function.update_self, Function.update_of_ne ha]
  · rw [if_neg fun h => hx h.1, Function.update_of_ne hx]

/-! ## Steps -/

section Steps

variable (P : Params) (B : Base64Crate ε) (com : Config.Committee) (H : Finset PublicKey)
  (d : Deployment ε)

/-- The core waits for its channels: it runs, and has handed over all its frames. -/
def Idle (x : PublicKey) : Prop :=
  x ∉ d.down ∧ d.handed x = ((d.system.nodes x).frames B).length

instance (x : PublicKey) : Decidable (d.Idle B x) :=
  inferInstanceAs (Decidable (_ ∧ _))

/-- The channels of a primary can take what the handler puts into them: the receiver is not gone,
and there is room. -/
def Takes (y : PublicKey) (h : TxReceiverHandler) : Prop :=
  h = d.handlers y ∨ y ∉ d.down ∧ h.txVotes.length ≤ channelCapacity ∧
    h.txTransactions.length ≤ channelCapacity

instance (y : PublicKey) (h : TxReceiverHandler) : Decidable (d.Takes y h) :=
  inferInstanceAs (Decidable (_ ∨ _ ∧ _))

/-- A message is submitted by `handOver` alone, and the core keeps the handlers in
`cancel_handlers` until it is gone. -/
def Permits (x : PublicKey) : SessionEvent → Prop
  | .sender (.send _) => False
  | .sender (.cancel _) => x ∈ d.down
  | _ => True

instance (x : PublicKey) : DecidablePred (d.Permits x)
  | .sender (.send _) => inferInstanceAs (Decidable False)
  | .sender (.cancel _) => inferInstanceAs (Decidable (x ∈ d.down))
  | .sender (.connect _) => inferInstanceAs (Decidable True)
  | .sender .timer => inferInstanceAs (Decidable True)
  | .sender .recv => inferInstanceAs (Decidable True)
  | .sender (.write _) => inferInstanceAs (Decidable True)
  | .sender (.response _) => inferInstanceAs (Decidable True)
  | .serve _ => inferInstanceAs (Decidable True)
  | .hangUp _ _ => inferInstanceAs (Decidable True)

/-- The first arm of the `select!` in `Core::run`. -/
def takeVote (x : PublicKey) (draws : Draws) : Option (Deployment ε) :=
  match (d.handlers x).txVotes with
  | vote :: rest =>
    if d.Idle B x ∧ d.batches x = [] then
      some { d with
        system := d.system.next P ⟨x, .vote vote draws⟩
        handlers := Function.update d.handlers x { d.handlers x with txVotes := rest } }
    else none
  | [] => none

/-- The second arm. -/
def takeBatch (x : PublicKey) : Option (Deployment ε) :=
  match (d.handlers x).txTransactions with
  | txs :: rest =>
    if d.Idle B x ∧ d.batches x = [] then
      some { d with
        batches := Function.update d.batches x txs
        handlers := Function.update d.handlers x { d.handlers x with txTransactions := rest } }
    else none
  | [] => none

/-- One turn of the loop over the transactions. -/
def takeTransaction (x : PublicKey) (draw : Bool) : Option (Deployment ε) :=
  match d.batches x with
  | tx :: rest =>
    if d.Idle B x then
      some { d with
        system := d.system.next P ⟨x, .transaction tx draw⟩
        batches := Function.update d.batches x rest }
    else none
  | [] => none

/-- `ReliableSender::send`, for the next address of a `broadcast`. -/
def handOver (x : PublicKey) : Option (Deployment ε) :=
  if x ∉ d.down then
    match ((d.system.nodes x).frames B)[d.handed x]? with
    | some (address, bytes) =>
      if (d.links x address).sender.connection.phase = .panicked then
        -- `expect`: the channel is closed
        some { d with halted := insert x d.halted }
      else
        ((d.links x address).send (.send bytes)).map fun s =>
          { d with handed := Function.update d.handed x (d.handed x + 1) }.setLink x address s
    | none => none
  else none

/-- A step of a connection.  Where the code runs at the other end, its runners share the channels
of the primary there; elsewhere nothing is known of the other end. -/
def stepLink (x : PublicKey) (address : SocketAddr) (e : SessionEvent) :
    Option (Deployment ε) :=
  if d.Permits x e then
    match (com.host address).filter (· ∈ H) with
    | some y =>
      (({ d.links x address with handler := d.handlers y } :
          Session TxReceiverHandler (DagError (WireError ε))).step
        (TxReceiverHandler.messageHandler (Wire.deserialize B)) e).bind fun s =>
          if d.Takes y s.handler then
            some ({ d with handlers := Function.update d.handlers y s.handler }.setLink x address s)
          else none
    | none =>
      match e with
      | .sender action =>
        ((d.links x address).sender.step action).map fun o =>
          d.setLink x address { d.links x address with sender := o }
      | _ => none
  else none

/-- A runner that some other program has connected to gets a frame. -/
def takeForeign (y : PublicKey) (bytes : Bytes) : Option (Deployment ε) :=
  match (TxReceiverHandler.dispatch (Wire.deserialize B) (d.handlers y) bytes).1 with
  | .ok h =>
    if d.Takes y h then some { d with handlers := Function.update d.handlers y h } else none
  | .error _ => none

def step : Occurrence → Option (Deployment ε)
  | .vote x draws => d.takeVote P B x draws
  | .batch x => d.takeBatch B x
  | .transaction x draw => d.takeTransaction P B x draw
  | .handOver x => d.handOver B x
  | .link x address e => d.stepLink B com H x address e
  | .foreign y bytes => d.takeForeign B y bytes

end Steps

/-- The runs of a deployment, with all the interleavings of its cores, connections and runners:
the primaries of `H` run the code, and a foreign vote is one that is admitted. -/
def machine (P : Params) (B : Base64Crate ε) (com : Config.Committee) (H : Finset PublicKey)
    (admits : System → PublicKey → PrimaryVote → Prop) :
    GuardedMachine (Deployment ε) Occurrence :=
  (GuardedMachine.ofStep fun d o => d.step P B com H o).restrict fun d o =>
    o.primary ∈ H ∧ ∀ v ∈ o.brought B, admits d.system o.primary v

instance (P : Params) (B : Base64Crate ε) (com : Config.Committee) (H : Finset PublicKey)
    (admits : System → PublicKey → PrimaryVote → Prop) [∀ s x v, Decidable (admits s x v)]
    (d : Deployment ε) (o : Occurrence) :
    Decidable ((machine P B com H admits).guard d o) :=
  inferInstanceAs (Decidable (_ ∧ _ ∧ ∀ v ∈ o.brought B, admits d.system o.primary v))

/-! ## What a step does -/

/-- What an occurrence does to a deployment, and when. -/
inductive Effect (P : Params) (B : Base64Crate ε) (com : Config.Committee)
    (H : Finset PublicKey) : Deployment ε → Occurrence → Deployment ε → Prop
  | vote {d : Deployment ε} {x : PublicKey} {v : PrimaryVote} {rest : List PrimaryVote}
      (draws : Draws) (hidle : d.Idle B x) (hvotes : (d.handlers x).txVotes = v :: rest) :
      Effect P B com H d (.vote x draws) { d with
        system := d.system.next P ⟨x, .vote v draws⟩
        handlers := Function.update d.handlers x { d.handlers x with txVotes := rest } }
  | batch {d : Deployment ε} {x : PublicKey} {txs : List Transaction}
      {rest : List (List Transaction)} (htxs : (d.handlers x).txTransactions = txs :: rest) :
      Effect P B com H d (.batch x) { d with
        batches := Function.update d.batches x txs
        handlers := Function.update d.handlers x { d.handlers x with txTransactions := rest } }
  | transaction {d : Deployment ε} {x : PublicKey} {tx : Transaction} {rest : List Transaction}
      (draw : Bool) (hidle : d.Idle B x) (hbatch : d.batches x = tx :: rest) :
      Effect P B com H d (.transaction x draw) { d with
        system := d.system.next P ⟨x, .transaction tx draw⟩
        batches := Function.update d.batches x rest }
  | handOver {d : Deployment ε} {x : PublicKey} {address : SocketAddr} {bytes : Bytes}
      {s : Session TxReceiverHandler (DagError (WireError ε))} (hrunning : x ∉ d.down)
      (hframe : ((d.system.nodes x).frames B)[d.handed x]? = some (address, bytes))
      (hsend : (d.links x address).send (.send bytes) = some s) :
      Effect P B com H d (.handOver x)
        ({ d with handed := Function.update d.handed x (d.handed x + 1) }.setLink x address s)
  | halt {d : Deployment ε} {x : PublicKey} {address : SocketAddr} {bytes : Bytes}
      (hrunning : x ∉ d.down)
      (hframe : ((d.system.nodes x).frames B)[d.handed x]? = some (address, bytes))
      (hpanicked : (d.links x address).sender.connection.phase = .panicked) :
      Effect P B com H d (.handOver x) { d with halted := insert x d.halted }
  | link {d : Deployment ε} {x y : PublicKey} {address : SocketAddr} {e : SessionEvent}
      {s : Session TxReceiverHandler (DagError (WireError ε))} (hpermits : d.Permits x e)
      (hhost : (com.host address).filter (· ∈ H) = some y)
      (hstep : ({ d.links x address with handler := d.handlers y } :
        Session TxReceiverHandler (DagError (WireError ε))).step
          (TxReceiverHandler.messageHandler (Wire.deserialize B)) e = some s)
      (htakes : d.Takes y s.handler) :
      Effect P B com H d (.link x address e)
        ({ d with handlers := Function.update d.handlers y s.handler }.setLink x address s)
  | remote {d : Deployment ε} {x : PublicKey} {address : SocketAddr} {action : Action}
      {o : Outgoing} (hpermits : d.Permits x (.sender action))
      (hhost : (com.host address).filter (· ∈ H) = none)
      (hstep : (d.links x address).sender.step action = some o) :
      Effect P B com H d (.link x address (.sender action))
        (d.setLink x address { d.links x address with sender := o })
  | foreign {d : Deployment ε} {y : PublicKey} {bytes : Bytes} {h : TxReceiverHandler}
      (hdispatch :
        (TxReceiverHandler.dispatch (Wire.deserialize B) (d.handlers y) bytes).1 = .ok h)
      (htakes : d.Takes y h) :
      Effect P B com H d (.foreign y bytes)
        { d with handlers := Function.update d.handlers y h }

section Effects

variable {P : Params} {B : Base64Crate ε} {com : Config.Committee} {H : Finset PublicKey}
  {d d' : Deployment ε}

theorem effect_of_takeVote {x : PublicKey} {draws : Draws}
    (h : d.takeVote P B x draws = some d') : Effect P B com H d (.vote x draws) d' := by
  unfold takeVote at h
  split at h
  · rename_i hvotes
    split_ifs at h with hready
    rw [← Option.some.inj h]
    exact Effect.vote draws hready.1 hvotes
  · cases h

theorem effect_of_takeBatch {x : PublicKey} (h : d.takeBatch B x = some d') :
    Effect P B com H d (.batch x) d' := by
  unfold takeBatch at h
  split at h
  · rename_i htxs
    split_ifs at h
    rw [← Option.some.inj h]
    exact Effect.batch htxs
  · cases h

theorem effect_of_takeTransaction {x : PublicKey} {draw : Bool}
    (h : d.takeTransaction P B x draw = some d') :
    Effect P B com H d (.transaction x draw) d' := by
  unfold takeTransaction at h
  split at h
  · rename_i hbatch
    split_ifs at h with hidle
    rw [← Option.some.inj h]
    exact Effect.transaction draw hidle hbatch
  · cases h

theorem effect_of_handOver {x : PublicKey} (h : d.handOver B x = some d') :
    Effect P B com H d (.handOver x) d' := by
  unfold handOver at h
  split_ifs at h with hrunning
  split at h
  · rename_i hframe
    split_ifs at h with hpanicked
    · rw [← Option.some.inj h]
      exact Effect.halt hrunning hframe hpanicked
    · obtain ⟨s, hsend, rfl⟩ := Option.map_eq_some_iff.mp h
      exact Effect.handOver hrunning hframe hsend
  · cases h

theorem effect_of_stepLink {x : PublicKey} {address : SocketAddr} {e : SessionEvent}
    (h : d.stepLink B com H x address e = some d') :
    Effect P B com H d (.link x address e) d' := by
  unfold stepLink at h
  split_ifs at h with hpermits
  split at h
  · rename_i hhost
    obtain ⟨s, hstep, h⟩ := Option.bind_eq_some_iff.mp h
    split_ifs at h with htakes
    rw [← Option.some.inj h]
    exact Effect.link hpermits hhost hstep htakes
  · rename_i hhost
    split at h
    · obtain ⟨o, hstep, rfl⟩ := Option.map_eq_some_iff.mp h
      exact Effect.remote hpermits hhost hstep
    · cases h

theorem effect_of_takeForeign {y : PublicKey} {bytes : Bytes}
    (h : d.takeForeign B y bytes = some d') : Effect P B com H d (.foreign y bytes) d' := by
  unfold takeForeign at h
  split at h
  · rename_i hdispatch
    split_ifs at h with htakes
    rw [← Option.some.inj h]
    exact Effect.foreign hdispatch htakes
  · cases h

/-- **Every step is one of the effects.** -/
theorem effect_of_step {o : Occurrence} (h : d.step P B com H o = some d') :
    Effect P B com H d o d' := by
  cases o with
  | vote x draws => exact effect_of_takeVote h
  | batch x => exact effect_of_takeBatch h
  | transaction x draw => exact effect_of_takeTransaction h
  | handOver x => exact effect_of_handOver h
  | link x address e => exact effect_of_stepLink h
  | foreign y bytes => exact effect_of_takeForeign h

end Effects

/-! ## The occurrences of concrete runs -/

/-- The first two authorities. -/
def both : Finset PublicKey := {authority 1, authority 2}

/-- A client gives an authority a transaction. -/
def begins (i : UInt8) (draw : Bool) : List Occurrence :=
  [.foreign (authority i)
      (Wire.serialize Base64Crate.standard (.transactions [⟨block.digest⟩])),
    .batch (authority i), .transaction (authority i) draw]

/-- An authority hands over some frames. -/
def handsOver (i : UInt8) (n : ℕ) : List Occurrence :=
  List.replicate n (.handOver (authority i))

/-- The connection of an authority to another. -/
def between (i j : UInt8) (es : List SessionEvent) : List Occurrence :=
  es.map (.link (authority i) ⟨[127, 0, 0, 1], 4000 + j.toUInt16⟩)

def connects (i j : UInt8) : List Occurrence :=
  between i j [.sender (.connect none), .sender (.write none)]

/-- A frame goes over the connection, and the runner gives it to the handler. -/
def carries (i j : UInt8) : List Occurrence :=
  between i j [.sender .recv, .sender (.write none), .sender (.write none), .serve 0]

/-- An authority handles the next vote of its channel. -/
def hears (i : UInt8) : List Occurrence :=
  [.vote (authority i) (Draws.of false)]

/-- An authority gets a vote from elsewhere, and handles it. -/
def told (i : UInt8) (v : PrimaryVote) : List Occurrence :=
  .foreign (authority i) (Wire.serialize Base64Crate.standard (.sendVote v)) :: hears i

end Deployment
end NeroConsensus
