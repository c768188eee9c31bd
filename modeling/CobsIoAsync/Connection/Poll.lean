import CobsIoAsync.Connection.Step
import Mathlib.Logic.Relation

/-!
# Connection.Poll — the public methods

The poll methods and `cancel_pending` of `connection.rs`, one call of any of them, and the runs of
a connection: any sequence of calls, between which the environment may put the transport and the
timer in any state.
-/

namespace CobsIoAsync.Connection

open Reasoning Protocol

namespace Reliable

variable [Target] {T C W E : Type} [Waker W] [Transport T W E] [Timer C W] {N : Nat}

/-- `queue_packet`. -/
def queuePacket (s : Reliable T C W E N) (cx : W) (buf : List UInt8) :
    Exec (Poll (Except (ConnectionError E) Nat) × Reliable T C W E N) := do
  let (work, budget, s) ← s.drive cx .new
  let busy := !s.writeReady
  let s := if !busy && s.txNext > u32Max then (s.log .exhausted).fail .sequenceExhausted else s
  match s.failure with
  | (some error, s) => some (.ready (.error error), s)
  | (none, s) =>
    if busy then some (.pending, s)
    else
      let len := min buf.length (maxPayload N)
      let payload ← slice buf 0 len
      let seq := UInt32.ofNat s.txNext
      let (txLen, scratch, txFrame) ← encodeData s.config.session seq payload s.scratch s.txFrame
      let txNext ← checkedAdd u64Max s.txNext 1
      let s := { s with txLen, scratch, txFrame, txNext, txRetries := 0, tx := .queued }.log
        (.queued seq payload)
      if work ≠ .yield then
        let (_, _, s) ← s.drive cx budget
        some (.ready (.ok len), s)
      else some (.ready (.ok len), s)

/-- `Waiters::wake` on the waiters of the connection. -/
def wake (s : Reliable T C W E N) (op : Op) : Reliable T C W E N :=
  match s.waiters.slot op with
  | some waker => { s with waiters := s.waiters.clear op }.log (.wake op waker)
  | none => s

/-- Whether `notify` wakes the waiter of an operation. -/
def due (s : Reliable T C W E N) (everyone : Bool) (op : Op) : Bool :=
  everyone || match op with
    | .read => s.rxStart < s.rxEnd
    | .write => s.writeReady
    | .flush => s.flushReady
    | .progress => false

/-- `notify`. -/
def notify (s : Reliable T C W E N) (done : Op) (completed : Bool) : Reliable T C W E N :=
  let everyone := completed || match s.health with
    | .ok => false
    | _ => true
  ops.foldl (fun s op => if op ≠ done ∧ s.due everyone op then s.wake op else s) s

/-- `finish`. -/
def finish {R : Type} (s : Reliable T C W E N) (op : Op) (cx : W) (poll : Poll R) :
    Reliable T C W E N :=
  match poll with
  | .ready _ => { s with waiters := s.waiters.clear op }.notify op true
  | .pending => { s with waiters := s.waiters.register op cx }.notify op false

/-- `poll_progress`. -/
def pollProgress (s : Reliable T C W E N) (cx : W) :
    Exec (Poll (ConnectionError E) × Reliable T C W E N) := do
  let (_, _, s) ← s.drive cx .new
  let (poll, s) : Poll (ConnectionError E) × Reliable T C W E N := match s.failure with
    | (some error, s) => (.ready error, s)
    | (none, s) => (.pending, s)
  some (poll, s.finish .progress cx poll)

/-- `poll_read`: the result, the buffer and the connection. -/
def pollRead {n : Nat} (s : Reliable T C W E N) (cx : W) (buf : Bytes n) :
    Exec (Poll (Except (ConnectionError E) Nat) × Bytes n × Reliable T C W E N) :=
  if n = 0 then some (.ready (.ok 0), buf, s)
  else do
    let (_, _, s) ← s.drive cx .new
    if s.rxStart < s.rxEnd then
      let len := min n (s.rxEnd - s.rxStart)
      let stop ← checkedAdd Target.usizeMax s.rxStart len
      let bytes ← slice s.rxPayload.toList s.rxStart stop
      let buf ← buf.copyFromSlice 0 len bytes
      let s := { s with rxStart := stop }.log (.delivered bytes)
      let poll : Poll (Except (ConnectionError E) Nat) := .ready (.ok len)
      some (poll, buf, s.finish .read cx poll)
    else
      let (poll, s) : Poll (Except (ConnectionError E) Nat) × Reliable T C W E N :=
        match s.failure with
        | (some error, s) => (.ready (.error error), s)
        | (none, s) => (.pending, s)
      some (poll, buf, s.finish .read cx poll)

/-- `poll_write`. -/
def pollWrite (s : Reliable T C W E N) (cx : W) (buf : List UInt8) :
    Exec (Poll (Except (ConnectionError E) Nat) × Reliable T C W E N) :=
  if buf = [] then some (.ready (.ok 0), s)
  else do
    let (poll, s) ← s.queuePacket cx buf
    some (poll, s.finish .write cx poll)

/-- `poll_flush`. -/
def pollFlush (s : Reliable T C W E N) (cx : W) :
    Exec (Poll (Except (ConnectionError E) Unit) × Reliable T C W E N) := do
  let (_, _, s) ← s.drive cx .new
  let (poll, s) : Poll (Except (ConnectionError E) Unit) × Reliable T C W E N :=
    match s.failure with
    | (some error, s) => (.ready (.error error), s)
    | (none, s) => (if s.flushReady then .ready (.ok ()) else .pending, s)
  some (poll, s.finish .flush cx poll)

end Reliable

/-- The `match` of `cancel_pending`. -/
def PendingOperation.op : PendingOperation → Op
  | .read => .read
  | .write => .write
  | .flush => .flush
  | .progress => .progress

namespace Reliable

variable [Target] {T C W E : Type} [Waker W] [Transport T W E] [Timer C W] {N : Nat}

/-- `cancel_pending`. -/
def cancelPending (s : Reliable T C W E N) (operation : PendingOperation) : Reliable T C W E N :=
  let s := { s with waiters := s.waiters.clear operation.op }
  ops.foldl (fun s op => if op ≠ operation.op then s.wake op else s) s

/-! ## Runs -/

/-- The public method a call names. -/
def dispatch (s : Reliable T C W E N) : Call W → Exec (Return E × Reliable T C W E N)
  | .read cx buf => do
    let (poll, buf, s) ← s.pollRead cx ⟨buf, rfl⟩
    some (.read poll buf.toList, s)
  | .write cx buf => do
    let (poll, s) ← s.pollWrite cx buf
    some (.write poll, s)
  | .flush cx => do
    let (poll, s) ← s.pollFlush cx
    some (.flush poll, s)
  | .progress cx => do
    let (poll, s) ← s.pollProgress cx
    some (.progress poll, s)
  | .cancel operation => some (.cancelled, s.cancelPending operation)

/-- A call, recorded with what it returns. -/
def call (s : Reliable T C W E N) (call : Call W) : Exec (Return E × Reliable T C W E N) := do
  let (ret, s) ← s.dispatch call
  some (ret, s.log (.returned call ret))

/-- One step of a run: a call, or a change of the environment. -/
inductive Next : Reliable T C W E N → Reliable T C W E N → Prop
  | call {s s' : Reliable T C W E N} {call : Call W} {ret : Return E}
      (h : s.call call = some (ret, s')) : Next s s'
  | environment (s : Reliable T C W E N) (transport : T) (timer : C) :
      Next s { s with transport, timer }

/-- Any number of steps. -/
def Run : Reliable T C W E N → Reliable T C W E N → Prop := Relation.ReflTransGen Next

/-- The states of the connections that `new` makes. -/
def Reachable (s : Reliable T C W E N) : Prop :=
  ∃ (transport : T) (timer : C) (config : Config) (s₀ : Reliable T C W E N),
    new N transport timer config = some (.ok s₀) ∧ Run s₀ s

end Reliable

end CobsIoAsync.Connection
