import CobsIoAsync.Protocol.Model

/-!
# Connection.State — the state of a `Reliable` connection

The types of `connection.rs`, and the traits of `transport.rs` and `timer.rs` that it drives.  A
connection also carries its `trace`, a history variable: no function reads it, and each records in
it what it asks of the transport, the timer and the wakers and what the protocol does.
-/

namespace CobsIoAsync.Connection

open Reasoning Protocol

/-- `core::task::Poll`. -/
inductive Poll (α : Type) where
  | pending
  | ready (value : α)
  deriving DecidableEq

/-- `core::task::Waker`, as far as the connection compares wakers. -/
class Waker (W : Type) where
  willWake : W → W → Bool

/-- `Transport`: the link underneath, whose state is `T`.  A read may leave anything in the buffer
it is given, whatever it returns. -/
class Transport (T W : Type) (E : outParam Type) where
  pollRead : {n : Nat} → T → W → Bytes n → T × Bytes n × Poll (Except E Nat)
  pollWrite : T → W → List UInt8 → T × Poll (Except E Nat)
  pollFlush : T → W → T × Poll (Except E Unit)

/-- `Timer`; reading the clock may change its state, since time passes. -/
class Timer (C W : Type) where
  now : C → C × UInt64
  pollDeadline : C → W → UInt64 → C × Poll Unit

/-- `STEP_BUDGET`. -/
def stepBudget : Nat := 16

/-- `Config`. -/
structure Config where
  session : UInt64
  retransmitTimeout : UInt64
  maxRetries : UInt32
  deriving DecidableEq

/-- `Tx`. -/
inductive Tx where
  | idle
  | queued
  | sending
  | waiting
  deriving DecidableEq

/-- `Frame`. -/
inductive Frame where
  | ack
  | data
  deriving DecidableEq

/-- `Out`. -/
inductive Out where
  | idle
  | writing (frame : Frame) (offset : Nat)
  | flushing (frame : Frame)
  deriving DecidableEq

/-- `Work`. -/
inductive Work where
  | blocked
  | progress
  | yield
  deriving DecidableEq

/-- `Ord::max` on `Work`. -/
def Work.max : Work → Work → Work
  | .yield, _ => .yield
  | _, .yield => .yield
  | .progress, _ => .progress
  | _, .progress => .progress
  | .blocked, .blocked => .blocked

/-- `Budget`. -/
structure Budget where
  left : Nat

/-- `Budget::new`. -/
def Budget.new : Budget := ⟨stepBudget⟩

/-- `Budget::spend`. -/
def Budget.spend (budget : Budget) : Bool × Budget :=
  match checkedSub budget.left 1 with
  | some left => (true, ⟨left⟩)
  | none => (false, budget)

/-- `PendingOperation`. -/
inductive PendingOperation where
  | read
  | write
  | flush
  | progress
  deriving DecidableEq

/-- `Op`. -/
inductive Op where
  | read
  | write
  | flush
  | progress
  deriving DecidableEq

/-- `OPS`. -/
def ops : List Op := [.read, .write, .flush, .progress]

/-- `Waiters`: one slot for each operation. -/
structure Waiters (W : Type) where
  slot : Op → Option W

namespace Waiters

variable {W : Type}

/-- `Waiters::default`. -/
def default : Waiters W := ⟨fun _ => none⟩

/-- `*self.slot(op) = waker`. -/
def setSlot (waiters : Waiters W) (op : Op) (waker : Option W) : Waiters W :=
  ⟨Function.update waiters.slot op waker⟩

/-- `Waiters::register`. -/
def register [Waker W] (waiters : Waiters W) (op : Op) (waker : W) : Waiters W :=
  match waiters.slot op with
  | some held =>
    if Waker.willWake held waker then waiters else waiters.setSlot op (some waker)
  | none => waiters.setSlot op (some waker)

/-- `Waiters::clear`. -/
def clear (waiters : Waiters W) (op : Op) : Waiters W := waiters.setSlot op none

end Waiters

/-- `Health`. -/
inductive Health (E : Type) where
  | ok
  | failed (error : ConnectionError E)
  | reported
  deriving DecidableEq

/-- A call of a public method, with the waker of its context and its buffer. -/
inductive Call (W : Type) where
  | read (cx : W) (buf : List UInt8)
  | write (cx : W) (buf : List UInt8)
  | flush (cx : W)
  | progress (cx : W)
  | cancel (operation : PendingOperation)
  deriving DecidableEq

/-- What a call returns; a read also leaves its buffer. -/
inductive Return (E : Type) where
  | read (poll : Poll (Except (ConnectionError E) Nat)) (buf : List UInt8)
  | write (poll : Poll (Except (ConnectionError E) Nat))
  | flush (poll : Poll (Except (ConnectionError E) Unit))
  | progress (poll : Poll (ConnectionError E))
  | cancelled

/-- What a connection records of its own run. -/
inductive Event (W E : Type) where
  /-- `drive` enters its loop body, and `step` returns to it. -/
  | step
  | stepped (work : Except (ConnectionError E) Work)
  /-- The calls of the transport and the timer.  A read comes with the number of bytes offered
  and the bytes received, a write with the bytes offered. -/
  | pollRead (cx : W) (free : Nat) (poll : Poll (Except E Nat)) (bytes : List UInt8)
  | pollWrite (cx : W) (frame : Frame) (pending : List UInt8) (poll : Poll (Except E Nat))
  | pollFlush (cx : W) (frame : Frame) (poll : Poll (Except E Unit))
  | now (time : UInt64)
  | pollDeadline (cx : W) (deadline : UInt64) (poll : Poll Unit)
  /-- `drive` wakes its caller; a stored waiter is taken and woken. -/
  | wakeByRef (cx : W)
  | wake (op : Op) (waker : W)
  /-- Output: a packet is encoded, a frame is started. -/
  | queued (seq : UInt32) (payload : List UInt8)
  | started (frame : Frame) (seq : UInt32) (bytes : List UInt8)
  /-- Input: a body reaches `process_frame`, is decoded, is parsed, and takes effect. -/
  | frame (body : List UInt8)
  | decoded (packet : List UInt8)
  | parsed (packet : Packet)
  | released (seq : UInt32)
  | retained (seq : UInt32) (payload : List UInt8)
  /-- Received bytes are copied into the buffer of a read. -/
  | delivered (bytes : List UInt8)
  /-- The two errors that arise inside the connection. -/
  | timedOut
  | exhausted
  /-- A public method returns. -/
  | returned (call : Call W) (ret : Return E)

/-- `Reliable`, over a transport with state `T` and errors `E`, a timer with state `C` and wakers
`W`, with buffers of `N` bytes. -/
structure Reliable (T C W E : Type) (N : Nat) where
  transport : T
  timer : C
  config : Config
  health : Health E
  tx : Tx
  txFrame : Bytes N
  txLen : Nat
  txNext : Nat
  txDeadline : UInt64
  txRetries : Nat
  finalInput : Option Nat
  out : Out
  ackPending : Option UInt32
  ackFrame : Bytes ackFrameLen
  ackLen : Nat
  rxBuf : Bytes N
  rxLen : Nat
  rxDiscarding : Bool
  rxPayload : Bytes N
  rxStart : Nat
  rxEnd : Nat
  rxNext : Nat
  scratch : Bytes N
  waiters : Waiters W
  trace : List (Event W E)

namespace Reliable

variable {T C W E : Type} {N : Nat}

/-- `Reliable::MAX_PAYLOAD`; an overflow in this constant does not compile. -/
def maxPayload [Target] (N : Nat) : Nat := (Protocol.maxPayload N).getD 0

/-- `Reliable::FINAL_INPUT`. -/
def finalInputLen (N : Nat) : Nat := N + ackFrameLen

/-- The connection that `new` makes. -/
def initial (N : Nat) (transport : T) (timer : C) (config : Config) : Reliable T C W E N :=
  { transport, timer, config
    health := .ok
    tx := .idle
    txFrame := .zeros N
    txLen := 0
    txNext := 0
    txDeadline := 0
    txRetries := 0
    finalInput := none
    out := .idle
    ackPending := none
    ackFrame := .zeros ackFrameLen
    ackLen := 0
    rxBuf := .zeros N
    rxLen := 0
    rxDiscarding := false
    rxPayload := .zeros N
    rxStart := 0
    rxEnd := 0
    rxNext := 0
    scratch := .zeros N
    waiters := .default
    trace := [] }

/-- `Reliable::new`; it does not compile when one of the two constants overflows. -/
def new [Target] (N : Nat) (transport : T) (timer : C) (config : Config) :
    Exec (Except ConfigError (Reliable T C W E N)) := do
  let maxPayload ← Protocol.maxPayload N
  let _ ← checkedAdd Target.usizeMax N ackFrameLen
  some <| if maxPayload = 0 then .error .bufferTooSmall
    else .ok (initial N transport timer config)

/-- Records an event. -/
@[simps] def log (s : Reliable T C W E N) (event : Event W E) : Reliable T C W E N :=
  { s with trace := s.trace ++ [event] }

end Reliable

end CobsIoAsync.Connection
