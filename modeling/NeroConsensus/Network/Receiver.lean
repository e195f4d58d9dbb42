import NeroConsensus.Network.ReliableSender

/-!
# The receiver

`network/src/receiver.rs`: the runner that `Receiver::spawn_runner` starts for a connection, for
any `MessageHandler`, and the reliable sender at the other end.

A `Session` is a `Connection` of a reliable sender with all the runners the peer has started for
it, the newest first: the runner of a connection that has broken goes on with the frames that had
reached it, while the sender has a new connection.  A connection carries frames in their order,
in both directions, and may break at any time.  With each frame goes, in the model, the message
of the sender that it is; the runner only sees its `data`.

What a handler writes is part of the value of `dispatch`, and the channels it puts messages into
are part of its state `H`.
-/

namespace NeroConsensus

universe u v

/-- The trait `MessageHandler`: the handler after a message, or an error, and the frames that it
has written. -/
structure MessageHandler (H : Type u) (ε : Type v) where
  dispatch : H → Bytes → Except ε H × List Bytes

/-- What a runner gives to `warn!`. -/
inductive RunnerWarning (ε : Type v) where
  | handler : ε → RunnerWarning ε
  | network : NetworkError → RunnerWarning ε
  | connectionClosed : SocketAddr → RunnerWarning ε
  deriving DecidableEq

/-- A runner and its end of the connection. -/
structure Runner (ε : Type v) where
  peer : SocketAddr
  /-- The frames that it has still to read. -/
  incoming : List InnerMessage
  /-- The frames written to the connection that the sender has still to read. -/
  outgoing : List Bytes
  /-- The frames that it has read and given to the handler. -/
  dispatched : List InnerMessage
  running : Bool
  warnings : List (RunnerWarning ε)
  deriving DecidableEq

namespace Runner

variable {H : Type u} {ε : Type v}

def spawn (peer : SocketAddr) : Runner ε :=
  { peer := peer
    incoming := []
    outgoing := []
    dispatched := []
    running := true
    warnings := [] }

/-- One turn of the loop of a runner that gets a frame. -/
def serve (handler : MessageHandler H ε) (h : H) (r : Runner ε) : Option (H × Runner ε) :=
  match r.running, r.incoming with
  | true, message :: incoming =>
    let (result, replies) := handler.dispatch h message.data
    let r := { r with
      incoming := incoming
      outgoing := r.outgoing ++ replies
      dispatched := r.dispatched ++ [message] }
    match result with
    | .ok h' => some (h', r)
    | .error e => some (h, { r with running := false, warnings := r.warnings ++ [.handler e] })
  | _, _ => none

/-- The turn that gets an error, or the end of the stream. -/
def hangUp (r : Runner ε) (outcome : Option IoError) : Option (Runner ε) :=
  if r.running then
    match outcome with
    | some e =>
      some { r with
        running := false
        warnings := r.warnings ++ [.network (.failedToReceiveMessage r.peer e)] }
    | none =>
      some { r with
        running := false
        warnings := r.warnings ++ [.connectionClosed r.peer] }
  else none

end Runner

/-! ## Both ends -/

/-- A connection of a reliable sender, the runners at its peer, and the handler that they
share. -/
structure Session (H : Type u) (ε : Type v) where
  sender : Outgoing
  /-- The address that the runners see. -/
  peer : SocketAddr
  runners : List (Runner ε)
  handler : H

/-- What happens in a session. -/
inductive SessionEvent where
  | sender : Action → SessionEvent
  | serve : ℕ → SessionEvent
  | hangUp : ℕ → Option IoError → SessionEvent

namespace Session

variable {H : Type u} {ε : Type v}

def spawn (address peer : SocketAddr) (h : H) : Session H ε :=
  { sender := Outgoing.spawn address
    peer := peer
    runners := []
    handler := h }

/-- What a step of the sender has put on the stream. -/
def transmitted (o o' : Outgoing) : List InnerMessage :=
  o'.connection.phase.stream.written.drop o.connection.phase.stream.written.length

/-- A step of the sender, with what it does to the connection: an attempt to connect that
succeeds starts a runner, a write gives the runner a frame, and a frame that the sender reads is
the next one written by the runner. -/
def send (s : Session H ε) (a : Action) : Option (Session H ε) :=
  (s.sender.step a).bind fun o =>
    match a, s.runners with
    | .connect none, runners =>
      some { s with sender := o, runners := Runner.spawn s.peer :: runners }
    | .write none, r :: runners =>
      let r := { r with incoming := r.incoming ++ transmitted s.sender o }
      some { s with sender := o, runners := r :: runners }
    | .response (some (.ok bytes)), r :: runners =>
      match r.outgoing with
      | [] => none
      | frame :: outgoing =>
        if frame = bytes then
          some { s with sender := o, runners := { r with outgoing := outgoing } :: runners }
        else none
    | .response (some (.ok _)), [] => none
    | _, _ => some { s with sender := o }

/-- The `k`-th runner gets a frame. -/
def serve (handler : MessageHandler H ε) (s : Session H ε) (k : ℕ) : Option (Session H ε) :=
  (s.runners[k]?).bind fun r =>
    (r.serve handler s.handler).map fun (h, r) =>
      { s with runners := s.runners.set k r, handler := h }

/-- The `k`-th runner returns. -/
def hangUp (s : Session H ε) (k : ℕ) (outcome : Option IoError) : Option (Session H ε) :=
  (s.runners[k]?).bind fun r =>
    (r.hangUp outcome).map fun r => { s with runners := s.runners.set k r }

def step (handler : MessageHandler H ε) (s : Session H ε) : SessionEvent → Option (Session H ε)
  | .sender a => s.send a
  | .serve k => s.serve handler k
  | .hangUp k outcome => s.hangUp k outcome

/-- All interleavings of the sender, the runners and the network. -/
abbrev machine (handler : MessageHandler H ε) : GuardedMachine (Session H ε) SessionEvent :=
  GuardedMachine.ofStep (step handler)

end Session
end NeroConsensus
