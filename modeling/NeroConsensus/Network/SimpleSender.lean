import NeroConsensus.Network.ReliableSender
import Mathlib.Data.Finmap

/-!
# The simple sender

`network/src/simple_sender.rs`: the best-effort sender.  It keeps a channel for every peer it has
sent something to, and at the other end of the channel there is the task of a connection, which
ends with the first error.  Then the messages in the channel are gone, and the next message for the
peer starts another task.

## Steps

`send`, `broadcast` and `lucky_broadcast` take the sender by `&mut self`, so there is one call at a
time; `rest` is what is left of it.  A step is the next `tx.send` of the call, or one await of a
task.  A new task may fail to connect before the message that it has been started for is in its
channel: then this message comes back and is dropped, and the sender does not keep the channel.

## What is lost

* `sublist_of_legal`: what has been written for a peer, by one connection after the other, has been
  submitted for it, in this order and no message twice, and at most one of the connections is
  still alive.
* `length_submitted_le`: every connection that has ended has taken 1001 messages with it at most,
  and where none has ended there is nothing lost.
-/

namespace NeroConsensus
namespace SimpleSender

/-! ## Connections -/

/-- Where the task stands: in `TcpStream::connect`, in the `select!`, or in `writer.send`. -/
inductive Phase where
  | connecting : Phase
  | selecting : Phase
  | sending : Bytes → Phase
  | ended : Phase
  deriving DecidableEq

/-- The message that is being written. -/
def Phase.hand : Phase → List Bytes
  | sending data => [data]
  | _ => []

structure Connection where
  address : SocketAddr
  receiver : List Bytes
  phase : Phase
  /-- What has gone over the stream. -/
  written : List Bytes
  /-- What was dropped when the task ended. -/
  dropped : List Bytes
  deriving DecidableEq

namespace Connection

/-- `spawn_connection`. -/
def spawn (address : SocketAddr) : Connection :=
  { address := address, receiver := [], phase := .connecting, written := [], dropped := [] }

/-- The task returns, and its end of the channel is dropped. -/
def leave (c : Connection) : Connection :=
  { c with phase := .ended, receiver := [], dropped := c.phase.hand ++ c.receiver }

/-- `TcpStream::connect`, well or with an error. -/
def connect (c : Connection) (ok : Bool) : Option Connection :=
  match c.phase with
  | .connecting => some (if ok then { c with phase := .selecting } else c.leave)
  | _ => none

/-- The first arm of the `select!`, up to `writer.send`. -/
def recv (c : Connection) : Option Connection :=
  match c.phase, c.receiver with
  | .selecting, data :: receiver => some { c with phase := .sending data, receiver := receiver }
  | _, _ => none

/-- `writer.send` returns. -/
def write (c : Connection) (ok : Bool) : Option Connection :=
  match c.phase with
  | .sending data =>
    some (if ok then { c with phase := .selecting, written := c.written ++ [data] } else c.leave)
  | _ => none

/-- The second arm of the `select!`: a reply, which is sunk, or an error or the end. -/
def response (c : Connection) (ok : Bool) : Option Connection :=
  match c.phase with
  | .selecting => some (if ok then c else c.leave)
  | _ => none

end Connection

/-- What the task of a connection awaits. -/
inductive Event where
  | connect : Bool → Event
  | recv : Event
  | write : Bool → Event
  | response : Bool → Event

def Connection.step (c : Connection) : Event → Option Connection
  | .connect ok => c.connect ok
  | .recv => c.recv
  | .write ok => c.write ok
  | .response ok => c.response ok

/-! ## Calls -/

/-- The calls of the sender; `lucky_broadcast` with the order that the shuffle gives. -/
inductive Call where
  | send : SocketAddr → Bytes → Call
  | broadcast : List SocketAddr → Bytes → Call
  | luckyBroadcast : List SocketAddr → Bytes → ℕ → List SocketAddr → Call

namespace Call

/-- The shuffle reorders. -/
def Possible : Call → Prop
  | luckyBroadcast addresses _ _ shuffled => shuffled.Perm addresses
  | _ => True

instance : DecidablePred Possible
  | send _ _ => inferInstanceAs (Decidable True)
  | broadcast _ _ => inferInstanceAs (Decidable True)
  | luckyBroadcast addresses _ _ shuffled => inferInstanceAs (Decidable (shuffled.Perm addresses))

/-- Whom the call sends what, one after the other. -/
def sends : Call → List (SocketAddr × Bytes)
  | send address data => [(address, data)]
  | broadcast addresses data => addresses.map fun address => (address, data)
  | luckyBroadcast _ data nodes shuffled =>
    (shuffled.take nodes).map fun address => (address, data)

end Call
end SimpleSender

/-! ## The sender -/

/-- The map of the channels, each by the number of its task, with all the tasks that have been
spawned and what is left of the current call. -/
structure SimpleSender where
  connections : Finmap fun _ : SocketAddr => ℕ
  tasks : List SimpleSender.Connection
  rest : List (SocketAddr × Bytes)

namespace SimpleSender

/-- `SimpleSender::new`. -/
def new : SimpleSender := { connections := ∅, tasks := [], rest := [] }

/-- A call, once the last one has returned. -/
def call (s : SimpleSender) (c : Call) : Option SimpleSender :=
  if s.rest = [] ∧ c.Possible then some { s with rest := c.sends } else none

/-- The channel that is kept for an address, where its task has not ended: the number of the task,
and the task. -/
def channel (s : SimpleSender) (address : SocketAddr) : Option (ℕ × Connection) :=
  (s.connections.lookup address).bind fun i =>
    (s.tasks[i]?).bind fun c => if c.phase = .ended then none else some (i, c)

/-- The body of `send`: into the channel that is kept, once there is room in it, or into the one of
a new task; `refused` is that this task has ended before. -/
def send (s : SimpleSender) (refused : Bool) : Option SimpleSender :=
  match s.rest with
  | [] => none
  | (address, data) :: rest =>
    match s.channel address with
    | some (i, c) =>
      if c.receiver.length < 1000 then
        some { s with tasks := s.tasks.set i { c with receiver := c.receiver ++ [data] }, rest }
      else none
    | none =>
      if refused then
        some { s with
          tasks := s.tasks ++ [{ (Connection.spawn address).leave with dropped := [data] }], rest }
      else
        some
          { connections := s.connections.insert address s.tasks.length
            tasks := s.tasks ++ [{ Connection.spawn address with receiver := [data] }]
            rest }

/-- A task goes on. -/
def run (s : SimpleSender) (i : ℕ) (e : Event) : Option SimpleSender :=
  (s.tasks[i]?).bind fun c => (c.step e).map fun c' => { s with tasks := s.tasks.set i c' }

inductive Action where
  | call : Call → Action
  | send : Bool → Action
  | run : ℕ → Event → Action

def step (s : SimpleSender) : Action → Option SimpleSender
  | .call c => s.call c
  | .send refused => s.send refused
  | .run i e => s.run i e

/-- All interleavings of the caller, the tasks and the network. -/
abbrev machine : GuardedMachine SimpleSender Action :=
  GuardedMachine.ofStep step

/-! ## What has become of the messages -/

/-- All the messages a connection has been given. -/
def Connection.messages (c : Connection) : List Bytes :=
  c.written ++ c.phase.hand ++ c.receiver ++ c.dropped

/-- What connections to an address have in common under `f`, one after the other. -/
def collect (f : Connection → List Bytes) (address : SocketAddr) (tasks : List Connection) :
    List Bytes :=
  tasks.flatMap fun c => if c.address = address then f c else []

/-- The messages of a list of sends that go to an address. -/
def sentTo (address : SocketAddr) (sends : List (SocketAddr × Bytes)) : List Bytes :=
  sends.filterMap fun p => if p.1 = address then some p.2 else none

/-- What the calls have submitted for an address. -/
def submitted (address : SocketAddr) (actions : List Action) : List Bytes :=
  actions.flatMap fun
    | .call c => sentTo address c.sends
    | _ => []

variable {f : Connection → List Bytes} {address : SocketAddr} {tasks : List Connection}
  {c c' : Connection} {i : ℕ}

/-- A task in its place among the others. -/
theorem exists_split (h : tasks[i]? = some c) :
    ∃ before after, before.length = i ∧ tasks = before ++ c :: after ∧
      ∀ c', tasks.set i c' = before ++ c' :: after := by
  obtain ⟨hi, rfl⟩ := List.getElem?_eq_some_iff.mp h
  refine ⟨tasks.take i, tasks.drop (i + 1), by simp [hi.le], ?_, fun c' => ?_⟩
  · rw [List.getElem_cons_drop, List.take_append_drop]
  · exact List.set_eq_take_append_cons_drop.trans (if_pos hi)

theorem collect_append (tasks' : List Connection) :
    collect f address (tasks ++ tasks') = collect f address tasks ++ collect f address tasks' :=
  List.flatMap_append

theorem collect_cons :
    collect f address (c :: tasks) =
      (if c.address = address then f c else []) ++ collect f address tasks :=
  List.flatMap_cons

/-- A task goes on, and what is asked about it stays. -/
theorem collect_set (h : tasks[i]? = some c) (haddress : c'.address = c.address)
    (hf : f c' = f c) : collect f address (tasks.set i c') = collect f address tasks := by
  obtain ⟨before, after, -, rfl, hset⟩ := exists_split h
  rw [hset, collect_append, collect_append, collect_cons, collect_cons, haddress, hf]

theorem collect_eq_nil (h : ∀ c ∈ tasks, c.address = address → f c = []) :
    collect f address tasks = [] := by
  refine List.flatMap_eq_nil_iff.mpr fun c hc => ?_
  split_ifs with haddress
  · exact h c hc haddress
  · rfl

/-- The last connection to an address gets something more. -/
theorem collect_set_append {extra : List Bytes} (h : tasks[i]? = some c)
    (haddress : c'.address = c.address) (hf : f c' = f c ++ extra)
    (hlast : ∀ k d, i < k → tasks[k]? = some d → d.address ≠ c.address) :
    collect f address (tasks.set i c') =
      collect f address tasks ++ if c.address = address then extra else [] := by
  obtain ⟨before, after, rfl, rfl, hset⟩ := exists_split h
  rw [hset, collect_append, collect_append, collect_cons, collect_cons, haddress, hf]
  split_ifs with heq
  · have hafter : collect f address after = [] := by
      refine collect_eq_nil fun d hd hdaddress => ?_
      obtain ⟨k, hk⟩ := List.mem_iff_getElem?.mp hd
      refine absurd (hdaddress.trans heq.symm) (hlast (before.length + 1 + k) d (by omega) ?_)
      rw [List.getElem?_append_right (by omega)]
      simpa [show before.length + 1 + k - before.length = k + 1 by omega] using hk
    simp [hafter]
  · simp

/-! ## One connection -/

namespace Connection

/-- A channel holds a thousand messages, and a task that has ended has dropped them, with the one
it was writing. -/
structure Fits (c : Connection) : Prop where
  receiver : c.receiver.length ≤ 1000
  dropped : c.dropped.length ≤ 1001
  alive : c.phase ≠ .ended → c.dropped = []
  ended : c.phase = .ended → c.receiver = []

theorem Fits.leave (h : c.Fits) (halive : c.phase ≠ .ended) :
    c.leave.Fits ∧ c.leave.messages = c.messages := by
  have hhand : c.phase.hand.length ≤ 1 := by
    cases c.phase <;> simp [Phase.hand]
  have hreceiver := h.receiver
  refine ⟨⟨Nat.zero_le _, ?_, fun hne => absurd rfl hne, fun _ => rfl⟩, ?_⟩
  · rw [Connection.leave, List.length_append]
    omega
  · simp [Connection.leave, messages, Phase.hand, h.alive halive]

/-- **A task keeps the messages it has been given.** -/
theorem Fits.step {e : Event} (h : c.Fits) (hstep : c.step e = some c') :
    c'.Fits ∧ c'.address = c.address ∧ c'.messages = c.messages ∧ c.phase ≠ .ended := by
  cases e with
  | connect ok =>
    simp only [Connection.step, connect] at hstep
    split at hstep
    · rename_i hphase
      have halive : c.phase ≠ .ended := by simp [hphase]
      obtain rfl := Option.some.inj hstep
      cases ok with
      | false => exact ⟨(h.leave halive).1, rfl, (h.leave halive).2, halive⟩
      | true =>
        refine ⟨⟨h.receiver, h.dropped, fun _ => h.alive halive, nofun⟩, rfl, ?_, halive⟩
        simp [messages, hphase, Phase.hand]
    · cases hstep
  | recv =>
    simp only [Connection.step, recv] at hstep
    split at hstep
    · rename_i data receiver hphase hreceiver
      have halive : c.phase ≠ .ended := by simp [hphase]
      have hlength := h.receiver
      rw [hreceiver, List.length_cons] at hlength
      obtain rfl := Option.some.inj hstep
      refine ⟨⟨Nat.le_of_succ_le hlength, h.dropped, fun _ => h.alive halive, nofun⟩, rfl, ?_,
        halive⟩
      simp [messages, hphase, hreceiver, Phase.hand]
    · cases hstep
  | write ok =>
    simp only [Connection.step, write] at hstep
    split at hstep
    · rename_i data hphase
      have halive : c.phase ≠ .ended := by simp [hphase]
      obtain rfl := Option.some.inj hstep
      cases ok with
      | false => exact ⟨(h.leave halive).1, rfl, (h.leave halive).2, halive⟩
      | true =>
        refine ⟨⟨h.receiver, h.dropped, fun _ => h.alive halive, nofun⟩, rfl, ?_, halive⟩
        simp [messages, hphase, Phase.hand]
    · cases hstep
  | response ok =>
    simp only [Connection.step, response] at hstep
    split at hstep
    · rename_i hphase
      have halive : c.phase ≠ .ended := by simp [hphase]
      obtain rfl := Option.some.inj hstep
      cases ok with
      | false => exact ⟨(h.leave halive).1, rfl, (h.leave halive).2, halive⟩
      | true => exact ⟨h, rfl, rfl, halive⟩
    · cases hstep

end Connection

/-! ## The sender and its tasks -/

variable {s s' : SimpleSender} {actions : List Action}

theorem channel_eq_some (h : s.channel address = some (i, c)) :
    s.connections.lookup address = some i ∧ s.tasks[i]? = some c ∧ c.phase ≠ .ended := by
  obtain ⟨j, hj, h⟩ := Option.bind_eq_some_iff.mp h
  obtain ⟨d, hd, h⟩ := Option.bind_eq_some_iff.mp h
  split_ifs at h with hphase
  obtain ⟨rfl, rfl⟩ := Prod.mk.inj (Option.some.inj h)
  exact ⟨hj, hd, hphase⟩

theorem phase_of_channel_eq_none (h : s.channel address = none)
    (hi : s.connections.lookup address = some i) (hc : s.tasks[i]? = some c) :
    c.phase = .ended := by
  by_contra hphase
  rw [channel, hi, Option.bind_some, hc, Option.bind_some, if_neg hphase] at h
  cases h

/-- The tasks fit, the messages for an address are with its connections or left of the current
call, and a task that has not ended is the last one for its address and has the channel that is
kept. -/
structure Kept (actions : List Action) (s : SimpleSender) : Prop where
  conserved : ∀ address, collect Connection.messages address s.tasks ++ sentTo address s.rest =
    submitted address actions
  fits : ∀ c ∈ s.tasks, c.Fits
  spawned : ∀ address i, s.connections.lookup address = some i →
    ∃ c, s.tasks[i]? = some c ∧ c.address = address
  current : ∀ (i : ℕ) (c : Connection), s.tasks[i]? = some c → c.phase ≠ .ended →
    s.connections.lookup c.address = some i
  last : ∀ (i : ℕ) (c : Connection), s.tasks[i]? = some c → c.phase ≠ .ended →
    ∀ (k : ℕ) (d : Connection), i < k → s.tasks[k]? = some d → d.address ≠ c.address

theorem submitted_append (actions' : List Action) :
    submitted address (actions ++ actions') =
      submitted address actions ++ submitted address actions' :=
  List.flatMap_append

namespace Kept

theorem of_new : Kept [] new where
  conserved _ := rfl
  fits c hc := absurd hc List.not_mem_nil
  spawned _ i h := by
    rw [new, Finmap.lookup_empty] at h
    cases h
  current i c h := by cases h
  last i c h := by cases h

/-- A new call. -/
theorem call (h : Kept actions s) {c : Call} (hcall : s.call c = some s') :
    Kept (actions ++ [.call c]) s' := by
  unfold SimpleSender.call at hcall
  split_ifs at hcall with hready
  obtain rfl := Option.some.inj hcall
  refine ⟨fun address => ?_, h.fits, h.spawned, h.current, h.last⟩
  rw [submitted_append, ← h.conserved, hready.1]
  simp [submitted, sentTo]

/-- One task is another one now, in a place where it may be. -/
theorem set (h : Kept actions s) {rest : List (SocketAddr × Bytes)} (hc : s.tasks[i]? = some c)
    (haddress : c'.address = c.address) (hfits : c'.Fits) (halive : c.phase ≠ .ended)
    (hconserved : ∀ address, collect Connection.messages address (s.tasks.set i c') ++
      sentTo address rest = submitted address actions) :
    Kept actions { s with tasks := s.tasks.set i c', rest } := by
  have hget : ∀ (k : ℕ) (d : Connection), (s.tasks.set i c')[k]? = some d →
      ∃ d' : Connection, s.tasks[k]? = some d' ∧ d.address = d'.address ∧
        (d.phase ≠ .ended → d'.phase ≠ .ended) := by
    intro k d hd
    obtain ⟨hi, -⟩ := List.getElem?_eq_some_iff.mp hc
    by_cases hk : i = k
    · subst hk
      rw [List.getElem?_set_self hi] at hd
      obtain rfl := Option.some.inj hd
      exact ⟨c, hc, haddress, fun _ => halive⟩
    · rw [List.getElem?_set_ne hk] at hd
      exact ⟨d, hd, rfl, id⟩
  refine ⟨hconserved, fun d hd => ?_, fun address k hk => ?_, fun k d hd hphase => ?_,
    fun k d hd hphase l e hl he => ?_⟩
  · rcases List.mem_or_eq_of_mem_set hd with hold | rfl
    · exact h.fits d hold
    · exact hfits
  · obtain ⟨d, hd, rfl⟩ := h.spawned address k hk
    obtain ⟨hi, -⟩ := List.getElem?_eq_some_iff.mp hc
    by_cases hik : i = k
    · subst hik
      obtain rfl := Option.some.inj (hc.symm.trans hd)
      exact ⟨c', List.getElem?_set_self hi, haddress⟩
    · exact ⟨d, (List.getElem?_set_ne hik).trans hd, rfl⟩
  · obtain ⟨d', hd', heq, himp⟩ := hget k d hd
    rw [heq]
    exact h.current k d' hd' (himp hphase)
  · obtain ⟨d', hd', heq, himp⟩ := hget k d hd
    obtain ⟨e', he', heq', -⟩ := hget l e he
    rw [heq, heq']
    exact h.last k d' hd' (himp hphase) l e' hl he'

/-- A new task for an address without a live one. -/
theorem spawn (h : Kept actions s) {data : Bytes} {rest : List (SocketAddr × Bytes)}
    {connections : Finmap fun _ : SocketAddr => ℕ}
    (hrest : s.rest = (address, data) :: rest) (hchannel : s.channel address = none)
    (haddress : c.address = address) (hmessages : c.messages = [data]) (hfits : c.Fits)
    (hother : ∀ a, a ≠ address → connections.lookup a = s.connections.lookup a)
    (hown : connections.lookup address = some s.tasks.length ∨
      c.phase = .ended ∧ connections.lookup address = s.connections.lookup address) :
    Kept actions { connections := connections, tasks := s.tasks ++ [c], rest := rest } := by
  -- the tasks for the address have ended
  have hended : ∀ (i : ℕ) (d : Connection), s.tasks[i]? = some d → d.phase ≠ .ended →
      d.address ≠ address := by
    rintro i d hd hphase rfl
    exact hphase (phase_of_channel_eq_none hchannel (h.current i d hd hphase) hd)
  have hget : ∀ (k : ℕ) (d : Connection), (s.tasks ++ [c])[k]? = some d →
      s.tasks[k]? = some d ∨ k = s.tasks.length ∧ d = c := by
    intro k d hd
    rcases Nat.lt_or_ge k s.tasks.length with hk | hk
    · rw [List.getElem?_append_left hk] at hd
      exact Or.inl hd
    · rw [List.getElem?_append_right hk, List.getElem?_singleton] at hd
      split_ifs at hd with hzero
      exact Or.inr ⟨by omega, (Option.some.inj hd).symm⟩
  have hlength : ∀ (k : ℕ) (d : Connection), s.tasks[k]? = some d → k < s.tasks.length :=
    fun k d hd => (List.getElem?_eq_some_iff.mp hd).1
  have hold : ∀ (k : ℕ) (d : Connection), s.tasks[k]? = some d → (s.tasks ++ [c])[k]? = some d :=
    fun k d hd => (List.getElem?_append_left (hlength k d hd)).trans hd
  have hnew : (s.tasks ++ [c])[s.tasks.length]? = some c := by simp
  refine ⟨fun a => ?_, fun d hd => ?_, fun a k hk => ?_, fun k d hd hphase => ?_,
    fun k d hd hphase l e hl he => ?_⟩
  · rw [← h.conserved, hrest, collect_append, collect_cons, haddress, hmessages]
    simp only [sentTo, List.filterMap_cons, collect, List.flatMap_nil, List.append_nil]
    split_ifs <;> simp
  · rcases List.mem_append.mp hd with hd | hd
    · exact h.fits d hd
    · rw [List.mem_singleton.mp hd]
      exact hfits
  · by_cases ha : a = address
    · subst ha
      rcases hown with hlookup | ⟨-, hlookup⟩
      · obtain rfl := Option.some.inj (hlookup.symm.trans hk)
        exact ⟨c, hnew, haddress⟩
      · obtain ⟨d, hd, hda⟩ := h.spawned a k (hlookup.symm.trans hk)
        exact ⟨d, hold k d hd, hda⟩
    · obtain ⟨d, hd, hda⟩ := h.spawned a k ((hother a ha).symm.trans hk)
      exact ⟨d, hold k d hd, hda⟩
  · rcases hget k d hd with hd | ⟨rfl, rfl⟩
    · exact (hother _ (hended k d hd hphase)).trans (h.current k d hd hphase)
    · rw [haddress]
      exact hown.resolve_right fun hc => hphase hc.1
  · rcases hget k d hd with hd' | ⟨rfl, rfl⟩
    · rcases hget l e he with he' | ⟨-, rfl⟩
      · exact h.last k d hd' hphase l e hl he'
      · rw [haddress]
        exact (hended k d hd' hphase).symm
    · rcases hget l e he with he' | ⟨rfl, -⟩
      · exact absurd (hlength l e he') (Nat.not_lt.mpr hl.le)
      · exact absurd hl (Nat.lt_irrefl _)

theorem send (h : Kept actions s) {refused : Bool} (hsend : s.send refused = some s') :
    Kept actions s' := by
  unfold SimpleSender.send at hsend
  split at hsend
  · cases hsend
  · rename_i address data rest hrest
    cases hchannel : s.channel address with
    | some p =>
      obtain ⟨i, c⟩ := p
      simp only [hchannel] at hsend
      split_ifs at hsend with hroom
      obtain rfl := Option.some.inj hsend
      obtain ⟨hi, hc, halive⟩ := channel_eq_some hchannel
      have hfits := h.fits c (List.mem_of_getElem? hc)
      have haddress : c.address = address := by
        obtain ⟨d, hd, rfl⟩ := h.spawned address i hi
        rw [Option.some.inj (hc.symm.trans hd)]
      refine h.set hc rfl ⟨?_, hfits.dropped, hfits.alive, fun hended => absurd hended halive⟩
        halive fun a => ?_
      · rw [List.length_append]
        exact hroom
      · have hmessages : ({ c with receiver := c.receiver ++ [data] } : Connection).messages =
            c.messages ++ [data] := by
          simp [Connection.messages, hfits.alive halive]
        have hset : collect Connection.messages a
            (s.tasks.set i { c with receiver := c.receiver ++ [data] }) =
              collect Connection.messages a s.tasks ++ if c.address = a then [data] else [] :=
          collect_set_append hc rfl hmessages (h.last i c hc halive)
        rw [hset, ← h.conserved, hrest, haddress]
        simp only [sentTo, List.filterMap_cons]
        split_ifs <;> simp
    | none =>
      simp only [hchannel] at hsend
      split_ifs at hsend with hrefused
      · obtain rfl := Option.some.inj hsend
        exact h.spawn hrest hchannel rfl rfl
          ⟨Nat.zero_le _, Nat.le_add_left 1 1000, fun hne => absurd rfl hne, fun _ => rfl⟩
          (fun _ _ => rfl) (Or.inr ⟨rfl, rfl⟩)
      · obtain rfl := Option.some.inj hsend
        exact h.spawn hrest hchannel rfl rfl
          ⟨Nat.le_add_left 1 999, Nat.zero_le _, fun _ => rfl, nofun⟩
          (fun a ha => Finmap.lookup_insert_of_ne _ ha) (Or.inl (Finmap.lookup_insert _))

theorem run (h : Kept actions s) {e : Event} (hrun : s.run i e = some s') : Kept actions s' := by
  obtain ⟨c, hc, hrun⟩ := Option.bind_eq_some_iff.mp hrun
  obtain ⟨c', hstep, rfl⟩ := Option.map_eq_some_iff.mp hrun
  obtain ⟨hfits, haddress, hmessages, halive⟩ :=
    (h.fits c (List.mem_of_getElem? hc)).step hstep
  refine h.set hc haddress hfits halive fun a => ?_
  rw [collect_set hc haddress hmessages]
  exact h.conserved a

/-- **In every run.** -/
theorem of_legal (hlegal : machine.Legal new actions) : Kept actions (machine.run new actions) := by
  refine hlegal.invariant of_new fun bs s a _ h hguard => ?_
  have hstep := GuardedMachine.ofStep_next hguard
  cases a with
  | call c => exact h.call hstep
  | send refused =>
    have hkept := h.send hstep
    refine ⟨fun address => ?_, hkept.fits, hkept.spawned, hkept.current, hkept.last⟩
    rw [submitted_append, hkept.conserved]
    simp [submitted]
  | run i e =>
    have hkept := h.run hstep
    refine ⟨fun address => ?_, hkept.fits, hkept.spawned, hkept.current, hkept.last⟩
    rw [submitted_append, hkept.conserved]
    simp [submitted]

end Kept

/-! ## The order, and the losses -/

theorem collect_sublist {g : Connection → List Bytes} (h : ∀ c, (f c).Sublist (g c)) :
    (collect f address tasks).Sublist (collect g address tasks) := by
  induction tasks with
  | nil => exact List.Sublist.refl _
  | cons c tasks ih =>
    rw [collect_cons, collect_cons]
    refine List.Sublist.append ?_ ih
    split_ifs
    · exact h c
    · exact List.Sublist.refl _

/-- **No message overtakes another one, and none is written twice.**  What the connections to an
address have written, one after the other, has been submitted for it in this order.  At most one of
them has not ended. -/
theorem sublist_of_legal (hlegal : machine.Legal new actions) (address : SocketAddr) :
    (collect Connection.written address (machine.run new actions).tasks).Sublist
        (submitted address actions) ∧
      ∀ (i j : ℕ) (c d : Connection), (machine.run new actions).tasks[i]? = some c →
        (machine.run new actions).tasks[j]? = some d → c.address = d.address →
          c.phase ≠ .ended → d.phase ≠ .ended → i = j := by
  have h := Kept.of_legal hlegal
  constructor
  · have hwritten : ∀ c : Connection, c.written.Sublist c.messages := fun c => by
      simp [Connection.messages]
    rw [← h.conserved address]
    exact (collect_sublist hwritten).trans (List.sublist_append_left _ _)
  · intro i j c d hc hd haddress hi hj
    have hlookup := h.current i c hc hi
    rw [haddress, h.current j d hd hj] at hlookup
    exact (Option.some.inj hlookup).symm

/-- The address of a peer that is there, and goes away. -/
def peer : SocketAddr := { ip := [127, 0, 0, 1], port := 4000 }

/-- The first connection writes a message and fails on the next one with a third one in its channel;
the fourth message starts another connection. -/
def replaced : List Action :=
  [.call (.broadcast [peer, peer] [1]), .send false, .send false, .run 0 (.connect true),
    .run 0 .recv, .run 0 (.write true), .run 0 .recv, .call (.send peer [2]), .send false,
    .run 0 (.write false), .call (.luckyBroadcast [peer] [3] 1 [peer]), .send false,
    .run 1 (.connect true), .run 1 .recv, .run 1 (.write true)]

theorem legal_replaced : machine.Legal new replaced := by
  decide +kernel

theorem sublist_of_legal_replaced :
    (collect Connection.written peer (machine.run new replaced).tasks).Sublist
        (submitted peer replaced) ∧
      ∀ (i j : ℕ) (c d : Connection), (machine.run new replaced).tasks[i]? = some c →
        (machine.run new replaced).tasks[j]? = some d → c.address = d.address →
          c.phase ≠ .ended → d.phase ≠ .ended → i = j :=
  sublist_of_legal legal_replaced peer

example : collect Connection.written peer (machine.run new replaced).tasks = [[1], [3]] ∧
    submitted peer replaced = [[1], [1], [2], [3]] := by
  decide +kernel

/-- The messages that a connection has written or has still got. -/
def Connection.kept (c : Connection) : List Bytes :=
  c.written ++ c.phase.hand ++ c.receiver

/-- The connections to an address that have ended. -/
def endedTo (address : SocketAddr) (tasks : List Connection) : ℕ :=
  tasks.countP fun c => c.address = address ∧ c.phase = .ended

theorem length_collect_messages_le (address : SocketAddr) (hfits : ∀ c ∈ tasks, c.Fits) :
    (collect Connection.messages address tasks).length ≤
      (collect Connection.kept address tasks).length + 1001 * endedTo address tasks := by
  induction tasks with
  | nil => exact Nat.zero_le _
  | cons c tasks ih =>
    have hrest := ih fun d hd => hfits d (List.mem_cons_of_mem c hd)
    have hc := hfits c List.mem_cons_self
    have hdropped := hc.dropped
    have hmessages : c.messages.length = c.kept.length + c.dropped.length := by
      simp [Connection.messages, Connection.kept]
      omega
    simp only [endedTo, List.countP_cons] at hrest ⊢
    rw [collect_cons, collect_cons, List.length_append, List.length_append]
    by_cases haddress : c.address = address
    · by_cases hended : c.phase = .ended
      · simp only [haddress, hended, and_self, decide_true, if_true]
        omega
      · rw [hc.alive hended, List.length_nil] at hmessages
        simp only [haddress, hended, and_false, decide_false, if_true]
        omega
    · simp only [haddress, false_and, decide_false, if_false]
      simpa using hrest

/-- **What may be lost.**  A connection that has ended has lost a thousand messages in its channel
and the one that was being written, at most; and as long as none has ended nothing is lost. -/
theorem length_submitted_le (hlegal : machine.Legal new actions) (address : SocketAddr) :
    (submitted address actions).length ≤
        (collect Connection.kept address (machine.run new actions).tasks).length +
          (sentTo address (machine.run new actions).rest).length +
            1001 * endedTo address (machine.run new actions).tasks ∧
      ((∀ c ∈ (machine.run new actions).tasks, c.address = address → c.phase ≠ .ended) →
        collect Connection.kept address (machine.run new actions).tasks ++
          sentTo address (machine.run new actions).rest = submitted address actions) := by
  have h := Kept.of_legal hlegal
  constructor
  · have hle := length_collect_messages_le address h.fits
    rw [← h.conserved, List.length_append]
    omega
  · intro halive
    rw [← h.conserved]
    refine congrArg (· ++ _) (List.flatMap_congr fun c hc => ?_)
    split_ifs with haddress
    · have hdropped := (h.fits c hc).alive (halive c hc haddress)
      simp [Connection.messages, Connection.kept, hdropped]
    · rfl

theorem length_submitted_le_replaced :
    (submitted peer replaced).length ≤
        (collect Connection.kept peer (machine.run new replaced).tasks).length +
          (sentTo peer (machine.run new replaced).rest).length +
            1001 * endedTo peer (machine.run new replaced).tasks ∧
      ((∀ c ∈ (machine.run new replaced).tasks, c.address = peer → c.phase ≠ .ended) →
        collect Connection.kept peer (machine.run new replaced).tasks ++
          sentTo peer (machine.run new replaced).rest = submitted peer replaced) :=
  length_submitted_le legal_replaced peer

end SimpleSender
end NeroConsensus
