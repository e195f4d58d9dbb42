import NeroConsensus.Foundations.GuardedMachine
import NeroConsensus.Primary.Vote
import Mathlib.Logic.Function.Basic

/-!
# The reliable sender

`network/src/reliable_sender.rs`: one `Connection`, the task that `ReliableSender` keeps for a
peer, with the channel it takes its messages from and the handlers the callers got for them.

## Steps

The task is a loop with awaits, and between two awaits nothing else happens to it.  `Phase` is
where it stands: about to connect, in the loop `'waiter`, in the loop that drains the buffer, or
in the `select!` below it.  An `Action` is what the await yields there --- the outcome of an
attempt to connect, of a write, of a read, the timer, a message from the channel --- or what a
caller does, at any time: it submits a message or drops the handler of one.  A write is one
action, with its outcome: what the callers do while it lasts touches the end of the channel and
handlers, at which the write has looked before, so that it may as well come after it.

## Handlers

A `oneshot` channel is named by a number, in the order of submission, and `Oneshot` is its
state.

## The end of a task

The `retry` of the source is a `u16`, by its use in `NetworkError`, and nothing caps it.  Where the
addition overflows the task panics, in a build that checks for it.  Then its channel is closed, the
messages in the channel and in the buffer are dropped with it, and whoever wants to submit another
one panics too.  The handlers of the dropped messages never get a value.
-/

namespace NeroConsensus

/-- `bytes::Bytes`. -/
abbrev Bytes := List UInt8

/-- `std::io::Error`, of which nothing is read. -/
structure IoError where
  message : String
  deriving DecidableEq

/-- The largest `u16`. -/
def u16Max : ℕ := 2 ^ 16 - 1

/-- `NetworkError`, as far as the reliable sender and the runners of the receiver go. -/
inductive NetworkError where
  | failedToConnect : SocketAddr → ℕ → IoError → NetworkError
  | failedToSendMessage : SocketAddr → IoError → NetworkError
  | failedToReceiveMessage : SocketAddr → IoError → NetworkError
  | failedToReceiveAck : SocketAddr → NetworkError
  | unexpectedAck : SocketAddr → NetworkError
  deriving DecidableEq

/-! ## Handlers -/

/-- A `oneshot` channel: nothing has been sent yet, or the receiver has been dropped before
anything was, or a value has been sent. -/
inductive Oneshot where
  | waiting : Oneshot
  | closed : Oneshot
  | sent : Bytes → Oneshot
  deriving DecidableEq

namespace Oneshot

/-- `Sender::is_closed`. -/
def isClosed : Oneshot → Bool
  | closed => true
  | _ => false

/-- `Sender::send`, which fails silently where the receiver is gone. -/
def send (bytes : Bytes) : Oneshot → Oneshot
  | waiting => sent bytes
  | o => o

/-- The receiver is dropped. -/
def close : Oneshot → Oneshot
  | waiting => closed
  | o => o

end Oneshot

/-! ## Connections -/

structure InnerMessage where
  data : Bytes
  /-- The number of the `oneshot` channel. -/
  cancelHandler : ℕ
  deriving DecidableEq

/-- What `keep_alive` knows of an established connection: the messages that wait for an ACK, and
what has gone over the stream so far in the two directions. -/
structure Stream where
  pendingReplies : List InnerMessage
  written : List InnerMessage
  replies : List Bytes
  deriving DecidableEq

def Stream.new : Stream := { pendingReplies := [], written := [], replies := [] }

/-- Where the task stands. -/
inductive Phase where
  | connecting : Phase
  | waiting : Phase
  | draining : Stream → Phase
  | selecting : Stream → Phase
  /-- The task has panicked. -/
  | panicked : Phase
  deriving DecidableEq

namespace Phase

/-- The stream of an established connection; before that nothing has gone over it. -/
def stream : Phase → Stream
  | draining s => s
  | selecting s => s
  | _ => Stream.new

/-- A connection is established. -/
def up : Phase → Bool
  | draining _ => true
  | selecting _ => true
  | _ => false

end Phase

structure Connection where
  address : SocketAddr
  receiver : List InnerMessage
  retryDelay : ℕ
  buffer : List InnerMessage
  delay : ℕ
  retry : ℕ
  phase : Phase
  /-- What has been given to `warn!`. -/
  warnings : List NetworkError
  deriving DecidableEq

namespace Connection

/-- `Connection::spawn`, with the locals that `run` starts with. -/
def spawn (address : SocketAddr) : Connection :=
  { address := address
    receiver := []
    retryDelay := 200
    buffer := []
    delay := 200
    retry := 0
    phase := .connecting
    warnings := [] }

/-- The end of `keep_alive`: the pending messages are popped off the back and pushed to the
front of the buffer. -/
def leave (c : Connection) (s : Stream) (error : NetworkError) : Connection :=
  { c with
    buffer := s.pendingReplies.foldr List.cons c.buffer
    phase := .connecting
    warnings := c.warnings ++ [error] }

/-- The task panics, and what it holds is dropped. -/
def panic (c : Connection) : Connection :=
  { c with receiver := [], buffer := [], phase := .panicked }

end Connection

/-- A connection, the messages that have been submitted to it, and their handlers. -/
structure Outgoing where
  connection : Connection
  submitted : List InnerMessage
  oneshots : ℕ → Oneshot

/-- What the task awaits, and what the callers do. -/
inductive Action where
  /-- A caller submits a message. -/
  | send : Bytes → Action
  /-- A caller drops a handler. -/
  | cancel : ℕ → Action
  /-- An attempt to connect ends, well or with an error. -/
  | connect : Option IoError → Action
  /-- The timer of the loop `'waiter`. -/
  | timer : Action
  /-- A message out of the channel. -/
  | recv : Action
  /-- One turn of the loop that drains the buffer, with the outcome of the write, if any. -/
  | write : Option IoError → Action
  /-- What the reader yields: a frame, an error, or the end of the stream. -/
  | response : Option (Except IoError Bytes) → Action

namespace Outgoing

def spawn (address : SocketAddr) : Outgoing :=
  { connection := Connection.spawn address
    submitted := []
    oneshots := fun _ => .waiting }

/-- `ReliableSender::send`.  The channel holds a thousand messages, and the caller waits until
there is room.  If the task is gone, there is no step: it is the caller who panics. -/
def send (o : Outgoing) (data : Bytes) : Option Outgoing :=
  if o.connection.phase ≠ .panicked ∧ o.connection.receiver.length < 1000 then
    let message : InnerMessage := { data := data, cancelHandler := o.submitted.length }
    some { o with
      connection := { o.connection with receiver := o.connection.receiver ++ [message] }
      submitted := o.submitted ++ [message] }
  else none

/-- A `CancelHandler` is dropped. -/
def cancel (o : Outgoing) (i : ℕ) : Option Outgoing :=
  if i < o.submitted.length then
    some { o with oneshots := Function.update o.oneshots i (o.oneshots i).close }
  else none

/-- `TcpStream::connect` in `run`. -/
def connect (o : Outgoing) (outcome : Option IoError) : Option Outgoing :=
  let c := o.connection
  match c.phase with
  | .connecting =>
    match outcome with
    | none =>
      some { o with connection :=
        { c with delay := c.retryDelay, retry := 0, phase := .draining Stream.new } }
    | some e =>
      some { o with connection :=
        { c with
          phase := .waiting
          warnings := c.warnings ++ [.failedToConnect c.address c.retry e] } }
  | _ => none

/-- The first arm of the `select!` in the loop `'waiter`. -/
def timer (o : Outgoing) : Option Outgoing :=
  let c := o.connection
  match c.phase with
  | .waiting =>
    if c.retry < u16Max then
      some { o with connection :=
        { c with delay := min (2 * c.delay) 60000, retry := c.retry + 1, phase := .connecting } }
    else some { o with connection := c.panic }
  | _ => none

/-- The arm of a `select!` that takes a message from the channel, in the loop `'waiter` and in
`keep_alive`. -/
def recv (o : Outgoing) : Option Outgoing :=
  let c := o.connection
  match c.phase, c.receiver with
  | .waiting, message :: receiver =>
    some { o with connection :=
      { c with
        receiver := receiver
        buffer := (c.buffer ++ [message]).filter fun m =>
          !(o.oneshots m.cancelHandler).isClosed } }
  | .selecting s, message :: receiver =>
    some { o with connection :=
      { c with receiver := receiver, buffer := c.buffer ++ [message], phase := .draining s } }
  | _, _ => none

/-- The loop of `keep_alive` that sends the messages of the buffer, one turn of it. -/
def write (o : Outgoing) (outcome : Option IoError) : Option Outgoing :=
  let c := o.connection
  match c.phase, c.buffer with
  | .draining s, [] => some { o with connection := { c with phase := .selecting s } }
  | .draining s, message :: buffer =>
    if (o.oneshots message.cancelHandler).isClosed then
      some { o with connection := { c with buffer := buffer } }
    else
      match outcome with
      | none =>
        some { o with connection :=
          { c with
            buffer := buffer
            phase := .draining { s with
              pendingReplies := s.pendingReplies ++ [message]
              written := s.written ++ [message] } } }
      | some e =>
        let c := { c with buffer := message :: buffer }
        some { o with connection := c.leave s (.failedToSendMessage c.address e) }
  | _, _ => none

/-- The arm of the `select!` in `keep_alive` that reads from the stream. -/
def response (o : Outgoing) (r : Option (Except IoError Bytes)) : Option Outgoing :=
  let c := o.connection
  match c.phase with
  | .selecting s =>
    match s.pendingReplies with
    | [] => some { o with connection := c.leave s (.unexpectedAck c.address) }
    | message :: pendingReplies =>
      match r with
      | some (.ok bytes) =>
        some
          { o with
            connection := { c with phase := .draining { s with
              pendingReplies := pendingReplies
              replies := s.replies ++ [bytes] } }
            oneshots := Function.update o.oneshots message.cancelHandler
              ((o.oneshots message.cancelHandler).send bytes) }
      | _ =>
        let s := { s with pendingReplies := message :: pendingReplies }
        some { o with connection := c.leave s (.failedToReceiveAck c.address) }
  | _ => none

/-- One step of the callers or of the task. -/
def step (o : Outgoing) : Action → Option Outgoing
  | .send data => o.send data
  | .cancel i => o.cancel i
  | .connect outcome => o.connect outcome
  | .timer => o.timer
  | .recv => o.recv
  | .write outcome => o.write outcome
  | .response r => o.response r

/-- All interleavings of the callers, the task and the network. -/
abbrev machine : GuardedMachine Outgoing Action :=
  GuardedMachine.ofStep step

end Outgoing
end NeroConsensus
