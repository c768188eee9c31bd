import CobsIoAsync.Connection.Poll

/-!
# Connection.Trace — reading a trace

The sequences of bytes, frames and packets that a trace contains, and the events that concern none
of them.
-/

namespace CobsIoAsync.Connection

open Reasoning Protocol

variable {T C W E : Type} {N : Nat}

/-! ## The transport -/

/-- The bytes the transport took with an event. -/
def Event.acceptedBytes : Event W E → List UInt8
  | .pollWrite _ _ pending (.ready (.ok written)) => pending.take written
  | _ => []

/-- All bytes the transport accepted. -/
def accepted (trace : List (Event W E)) : List UInt8 := trace.flatMap Event.acceptedBytes

/-- The bytes the transport gave with an event. -/
def Event.receivedBytes : Event W E → List UInt8
  | .pollRead _ _ _ bytes => bytes
  | _ => []

/-- All bytes that were read. -/
def received (trace : List (Event W E)) : List UInt8 := trace.flatMap Event.receivedBytes

/-! ## Frames and packets -/

/-- A frame whose output was started. -/
structure Sent where
  frame : Frame
  seq : UInt32
  bytes : List UInt8
  deriving DecidableEq

def Event.started? : Event W E → Option Sent
  | .started kind seq bytes => some ⟨kind, seq, bytes⟩
  | _ => none

/-- The frames whose output was started. -/
def startedFrames (trace : List (Event W E)) : List Sent := trace.filterMap Event.started?

def Event.frame? : Event W E → Option (List UInt8)
  | .frame body => some body
  | _ => none

/-- The bodies that `process_frame` was called on. -/
def frames (trace : List (Event W E)) : List (List UInt8) := trace.filterMap Event.frame?

def Event.queued? : Event W E → Option (List UInt8)
  | .queued _ payload => some payload
  | _ => none

/-- The payloads that were packed by `queue_packet`. -/
def queued (trace : List (Event W E)) : List (List UInt8) := trace.filterMap Event.queued?

def Event.retained? : Event W E → Option (List UInt8)
  | .retained _ payload => some payload
  | _ => none

/-- The payloads that were retained by `process_frame`. -/
def retained (trace : List (Event W E)) : List (List UInt8) := trace.filterMap Event.retained?

def Event.deliveredBytes : Event W E → List UInt8
  | .delivered bytes => bytes
  | _ => []

/-- The bytes that were copied out of the payload slot. -/
def delivered (trace : List (Event W E)) : List UInt8 := trace.flatMap Event.deliveredBytes

/-! ## Calls -/

def Event.written? : Event W E → Option (List UInt8)
  | .returned (.write _ buf) (.write (.ready (.ok len))) =>
    if buf = [] then none else some (buf.take len)
  | _ => none

/-- The bytes accepted by each successful `poll_write` of a nonempty buffer. -/
def written (trace : List (Event W E)) : List (List UInt8) := trace.filterMap Event.written?

def Event.readBytes : Event W E → List UInt8
  | .returned (.read _ _) (.read (.ready (.ok len)) buf) => buf.take len
  | _ => []

/-- All bytes returned by `poll_read`. -/
def readOut (trace : List (Event W E)) : List UInt8 := trace.flatMap Event.readBytes

section Append

variable (t u : List (Event W E)) (e : Event W E)

@[simp] theorem accepted_append : accepted (t ++ u) = accepted t ++ accepted u :=
  List.flatMap_append
@[simp] theorem received_append : received (t ++ u) = received t ++ received u :=
  List.flatMap_append
@[simp] theorem startedFrames_append :
    startedFrames (t ++ u) = startedFrames t ++ startedFrames u := List.filterMap_append
@[simp] theorem frames_append : frames (t ++ u) = frames t ++ frames u := List.filterMap_append
@[simp] theorem queued_append : queued (t ++ u) = queued t ++ queued u := List.filterMap_append
@[simp] theorem retained_append : retained (t ++ u) = retained t ++ retained u :=
  List.filterMap_append
@[simp] theorem delivered_append : delivered (t ++ u) = delivered t ++ delivered u :=
  List.flatMap_append
@[simp] theorem written_append : written (t ++ u) = written t ++ written u := List.filterMap_append
@[simp] theorem readOut_append : readOut (t ++ u) = readOut t ++ readOut u := List.flatMap_append

@[simp] theorem accepted_singleton : accepted [e] = e.acceptedBytes := by simp [accepted]
@[simp] theorem received_singleton : received [e] = e.receivedBytes := by simp [received]
@[simp] theorem startedFrames_singleton : startedFrames [e] = e.started?.toList := by
  cases h : e.started? <;> simp [startedFrames, h]
@[simp] theorem frames_singleton : frames [e] = e.frame?.toList := by
  cases h : e.frame? <;> simp [frames, h]
@[simp] theorem queued_singleton : queued [e] = e.queued?.toList := by
  cases h : e.queued? <;> simp [queued, h]
@[simp] theorem retained_singleton : retained [e] = e.retained?.toList := by
  cases h : e.retained? <;> simp [retained, h]
@[simp] theorem delivered_singleton : delivered [e] = e.deliveredBytes := by simp [delivered]
@[simp] theorem written_singleton : written [e] = e.written?.toList := by
  cases h : e.written? <;> simp [written, h]
@[simp] theorem readOut_singleton : readOut [e] = e.readBytes := by simp [readOut]

end Append

namespace Reliable

/-! ## The receive buffer -/

variable {s s' s'' : Reliable T C W E N}

/-- The buffered bytes. -/
def buffered (s : Reliable T C W E N) : List UInt8 := s.rxBuf.toList.take s.rxLen

theorem length_buffered (h : s.rxLen ≤ N) : s.buffered.length = s.rxLen := by
  simpa [buffered] using h

/-- Between two states nothing was read and no frame was processed. -/
structure SameInput (s s' : Reliable T C W E N) : Prop where
  rxBuf : s'.rxBuf = s.rxBuf
  rxLen : s'.rxLen = s.rxLen
  rxDiscarding : s'.rxDiscarding = s.rxDiscarding
  received : received s'.trace = received s.trace
  frames : frames s'.trace = frames s.trace

theorem SameInput.refl (s : Reliable T C W E N) : SameInput s s := ⟨rfl, rfl, rfl, rfl, rfl⟩

theorem SameInput.trans (h : SameInput s s') (h' : SameInput s' s'') : SameInput s s'' :=
  ⟨h'.1.trans h.1, h'.2.trans h.2, h'.3.trans h.3, h'.4.trans h.4, h'.5.trans h.5⟩

theorem SameInput.buffered (h : SameInput s s') : s'.buffered = s.buffered := by
  rw [Reliable.buffered, h.rxBuf, h.rxLen, Reliable.buffered]

/-- An event that reads nothing and processes no frame. -/
theorem SameInput.of_trace {event : Event W E} (htrace : s'.trace = s.trace ++ [event])
    (hbytes : event.receivedBytes = []) (hframe : event.frame? = none)
    (hbuf : s'.rxBuf = s.rxBuf) (hlen : s'.rxLen = s.rxLen)
    (hdiscarding : s'.rxDiscarding = s.rxDiscarding) : SameInput s s' :=
  ⟨hbuf, hlen, hdiscarding, by simp [htrace, hbytes], by simp [htrace, hframe]⟩

theorem SameInput.log (h : SameInput s s') (event : Event W E) (hbytes : event.receivedBytes = [])
    (hframe : event.frame? = none) : SameInput s (s'.log event) :=
  h.trans (.of_trace rfl hbytes hframe rfl rfl rfl)

/-- Between two calls of `process_input`: the buffer has room, no delimiter is buffered, and
nothing is kept of a frame that is discarded. -/
structure Settled (s : Reliable T C W E N) : Prop where
  rxLen_lt : s.rxLen < N
  zero_notMem : 0 ∉ s.buffered
  rxLen_of_discarding : s.rxDiscarding = true → s.rxLen = 0

theorem Settled.of_sameInput (h : Settled s) (hsame : SameInput s s') : Settled s' :=
  ⟨hsame.rxLen ▸ h.1, hsame.buffered ▸ h.2, hsame.rxDiscarding ▸ hsame.rxLen ▸ h.3⟩

end Reliable

end CobsIoAsync.Connection
