import CobsIoAsync.Connection.State

/-!
# Connection.Step — what a poll does inside the connection

`drive` and everything below it, from `connection.rs`.
-/

namespace CobsIoAsync.Connection.Reliable

open Reasoning Protocol

variable [Target] {T C W E : Type} [Waker W] [Transport T W E] [Timer C W] {N : Nat}

/-- A `Result` of the connection's own error type. -/
abbrev Outcome (E : Type) := Except (ConnectionError E) Work

/-- `fail`. -/
def fail (s : Reliable T C W E N) (error : ConnectionError E) : Reliable T C W E N :=
  let s := { s with finalInput := none }
  match s.health with
  | .ok => { s with health := .failed error }
  | _ => s

/-- `failure`. -/
def failure (s : Reliable T C W E N) : Option (ConnectionError E) × Reliable T C W E N :=
  match s.health with
  | .ok => (none, s)
  | .failed error => (some error, { s with health := .reported })
  | .reported => (some .failed, s)

/-- `data_out_busy`. -/
def dataOutBusy (s : Reliable T C W E N) : Bool :=
  match s.out with
  | .writing .data _ => true
  | .flushing .data => true
  | _ => false

/-- `write_ready`. -/
def writeReady (s : Reliable T C W E N) : Bool := s.tx == .idle && !s.dataOutBusy

/-- `flush_ready`. -/
def flushReady (s : Reliable T C W E N) : Bool :=
  s.tx == .idle && s.out == .idle && s.ackPending.isNone

/-! ## Output -/

/-- The buffer of a frame and the length of the frame in it. -/
def frameBuffer (s : Reliable T C W E N) : Frame → List UInt8 × Nat
  | .ack => (s.ackFrame.toList, s.ackLen)
  | .data => (s.txFrame.toList, s.txLen)

/-- The bytes of a frame. -/
def frameBytes (s : Reliable T C W E N) (frame : Frame) : List UInt8 :=
  (s.frameBuffer frame).1.take (s.frameBuffer frame).2

/-- The opening `if` of `poll_output`; `none` where it returns `Blocked`. -/
def startOutput (s : Reliable T C W E N) : Exec (Option (Reliable T C W E N)) :=
  if s.out = .idle then
    match s.ackPending with
    | some seq => do
      let (len, frame) ← encodeAck s.config.session seq s.ackFrame
      let s := { s with ackPending := none, ackLen := len, ackFrame := frame, out := .writing .ack 0 }
      some (some (s.log (.started .ack seq (s.frameBytes .ack))))
    | none =>
      if s.tx = .queued then
        let s := { s with tx := .sending, out := .writing .data 0 }
        some (some (s.log (.started .data (UInt32.ofNat (s.txNext - 1)) (s.frameBytes .data))))
      else some none
  else some (some s)

/-- The `Writing` arm of `poll_output`. -/
def writeFrame (s : Reliable T C W E N) (cx : W) (frame : Frame) (offset : Nat) :
    Exec (Outcome E × Reliable T C W E N) := do
  let (buffer, len) := s.frameBuffer frame
  let pending ← slice buffer offset len
  let (transport, poll) := Transport.pollWrite s.transport cx pending
  let s := { s with transport }.log (.pollWrite cx frame pending poll)
  match poll with
  | .pending => some (.ok .blocked, s)
  | .ready (.error error) => some (.error (.transport error), s)
  | .ready (.ok 0) => some (.error .writeZero, s)
  | .ready (.ok written) => do
    let offset ← checkedAdd Target.usizeMax offset (min written pending.length)
    some (.ok .progress,
      { s with out := if offset = len then .flushing frame else .writing frame offset })

/-- `u64::saturating_add`. -/
def saturatingAdd (a b : UInt64) : UInt64 :=
  if a.toNat + b.toNat ≤ u64Max then a + b else UInt64.ofNat u64Max

/-- The `Flushing` arm of `poll_output`. -/
def flushFrame (s : Reliable T C W E N) (cx : W) (frame : Frame) :
    Outcome E × Reliable T C W E N :=
  let (transport, poll) := Transport.pollFlush s.transport cx
  let s := { s with transport }.log (.pollFlush cx frame poll)
  match poll with
  | .pending => (.ok .blocked, s)
  | .ready (.error error) => (.error (.transport error), s)
  | .ready (.ok ()) =>
    let s :=
      if frame = .data ∧ s.tx = .sending then
        let s := { s with tx := .waiting, finalInput := none }
        let (timer, now) := Timer.now W s.timer
        { s with timer, txDeadline := saturatingAdd now s.config.retransmitTimeout }.log (.now now)
      else s
    (.ok .progress, { s with out := .idle })

/-- `poll_output`. -/
def pollOutput (s : Reliable T C W E N) (cx : W) (budget : Budget) :
    Exec (Outcome E × Budget × Reliable T C W E N) := do
  match ← s.startOutput with
  | none => some (.ok .blocked, budget, s)
  | some s =>
    match budget.spend with
    | (false, budget) => some (.ok .yield, budget, s)
    | (true, budget) =>
      match s.out with
      | .idle => some (.ok .blocked, budget, s)
      | .writing frame offset => do
        let (work, s) ← s.writeFrame cx frame offset
        some (work, budget, s)
      | .flushing frame =>
        let (work, s) := s.flushFrame cx frame
        some (work, budget, s)

/-! ## Input -/

/-- The effect of a parsed packet in `process_frame`. -/
def processPacket (s : Reliable T C W E N) : Packet → Exec (Reliable T C W E N)
  | .ack session seq =>
    if session = s.config.session ∧ s.tx ≠ .idle ∧ seq.toNat + 1 = s.txNext then
      some ({ s with tx := .idle, txRetries := 0, finalInput := none }.log (.released seq))
    else some s
  | .data session seq payload =>
    if session ≠ s.config.session ∨ payload.length > maxPayload N then some s
    else if seq.toNat = s.rxNext then
      if s.rxStart = s.rxEnd then do
        let rxPayload ← s.rxPayload.copyFromSlice 0 payload.length payload
        let rxNext ← checkedAdd u64Max s.rxNext 1
        some ({ s with
          rxPayload, rxStart := 0, rxEnd := payload.length, rxNext
          ackPending := some seq }.log (.retained seq payload))
      else some s
    else if s.rxNext > 0 ∧ seq.toNat = s.rxNext - 1 ∧ s.ackPending = none then
      some { s with ackPending := some seq }
    else some s

/-- `process_frame`. -/
def processFrame (s : Reliable T C W E N) (end_ : Nat) : Exec (Reliable T C W E N) := do
  let source ← slice s.rxBuf.toList 0 (end_ + 1)
  let s := s.log (.frame (source.take end_))
  match Sync.decodeToSlice source s.scratch with
  | (.error _, scratch) => some { s with scratch }
  | (.ok decoded, scratch) => do
    let packet ← slice scratch.toList 0 decoded.len
    let s := { s with scratch }.log (.decoded packet)
    match ← parse packet with
    | none => some s
    | some packet => (s.log (.parsed packet)).processPacket packet

/-- The `if` in the loop of `process_input`, at the delimiter `end_`. -/
def processSegment (s : Reliable T C W E N) (end_ : Nat) : Exec (Reliable T C W E N) :=
  if s.rxDiscarding then some { s with rxDiscarding := false }
  else if end_ > 0 then s.processFrame end_
  else some s

/-- The loop of `process_input`; an iteration takes at least one byte out of the buffer, so `fuel`
beyond the number of buffered bytes is never used up. -/
def processInputLoop : Nat → Reliable T C W E N → Exec (Reliable T C W E N)
  | 0, _ => none
  | fuel + 1, s => do
    let seen ← slice s.rxBuf.toList 0 s.rxLen
    match seen.findIdx? (· == 0) with
    | none =>
      if s.rxDiscarding ∨ s.rxLen = N then some { s with rxDiscarding := true, rxLen := 0 }
      else some s
    | some end_ => do
      let s ← s.processSegment end_
      let next ← checkedAdd Target.usizeMax end_ 1
      let rxBuf ← s.rxBuf.copyWithin next s.rxLen 0
      let rxLen ← checkedSub s.rxLen next
      processInputLoop fuel { s with rxBuf, rxLen }

/-- `process_input`. -/
def processInput (s : Reliable T C W E N) : Exec (Reliable T C W E N) :=
  processInputLoop (s.rxLen + 1) s

/-- `poll_input`. -/
def pollInput (s : Reliable T C W E N) (cx : W) (budget : Budget) :
    Exec (Outcome E × Budget × Reliable T C W E N) :=
  match budget.spend with
  | (false, budget) => some (.ok .yield, budget, s)
  | (true, budget) => do
    let _ ← slice s.rxBuf.toList s.rxLen N
    let (transport, free, poll) := Transport.pollRead s.transport cx (s.rxBuf.dropFrom s.rxLen)
    let read := match poll with
      | .ready (.ok read) => min read (N - s.rxLen)
      | _ => 0
    let s := { s with transport, rxBuf := s.rxBuf.setFrom s.rxLen free }.log
      (.pollRead cx (N - s.rxLen) poll (free.toList.take read))
    match poll with
    | .pending => some (.ok .blocked, budget, s)
    | .ready (.error error) => some (.error (.transport error), budget, s)
    | .ready (.ok 0) => some (.error .unexpectedEof, budget, s)
    | .ready (.ok _) => do
      let rxLen ← checkedAdd Target.usizeMax s.rxLen read
      let s ← { s with rxLen, finalInput := s.finalInput.map (· - read) }.processInput
      some (.ok .progress, budget, s)

/-! ## Timer -/

/-- `poll_timer`. -/
def pollTimer (s : Reliable T C W E N) (cx : W) (input : Work) :
    Exec (Outcome E × Reliable T C W E N) :=
  if s.tx ≠ .waiting then some (.ok .blocked, s)
  else
    match s.finalInput with
    | none =>
      let (timer, poll) := Timer.pollDeadline s.timer cx s.txDeadline
      let s := { s with timer }.log (.pollDeadline cx s.txDeadline poll)
      match poll with
      | .pending => some (.ok .blocked, s)
      | .ready () => some (.ok .progress, { s with finalInput := some (finalInputLen N) })
    | some left =>
      if input = .blocked ∨ left = 0 then
        let s := { s with finalInput := none }
        if s.txRetries ≥ s.config.maxRetries.toNat then some (.error .timeout, s.log .timedOut)
        else do
          let txRetries ← checkedAdd u32Max s.txRetries 1
          some (.ok .progress, { s with txRetries, tx := .queued })
      else some (.ok .blocked, s)

/-! ## Driving -/

/-- `step`. -/
def step (s : Reliable T C W E N) (cx : W) (budget : Budget) :
    Exec (Outcome E × Budget × Reliable T C W E N) := do
  let (output, budget, s) ← s.pollOutput cx budget
  match output with
  | .error error => some (.error error, budget, s)
  | .ok output =>
    let (input, budget, s) ← s.pollInput cx budget
    match input with
    | .error error => some (.error error, budget, s)
    | .ok input =>
      let (timer, s) ← s.pollTimer cx input
      match timer with
      | .error error => some (.error error, budget, s)
      | .ok timer => some (.ok ((output.max input).max timer), budget, s)

/-- The loop of `drive`.  A step that does not end the loop has spent some of the budget, so
`fuel` beyond the budget is never used up. -/
def driveLoop (cx : W) : Nat → Reliable T C W E N → Budget →
    Exec (Work × Budget × Reliable T C W E N)
  | 0, _, _ => none
  | fuel + 1, s, budget => do
    let (work, budget, s) ← (s.log .step).step cx budget
    let s := s.log (.stepped work)
    match work with
    | .ok .progress => driveLoop cx fuel s budget
    | .ok .blocked => some (.blocked, budget, s)
    | .ok .yield => some (.yield, budget, s.log (.wakeByRef cx))
    | .error error => some (.blocked, budget, s.fail error)

/-- `drive`. -/
def drive (s : Reliable T C W E N) (cx : W) (budget : Budget) :
    Exec (Work × Budget × Reliable T C W E N) :=
  match s.health with
  | .ok => driveLoop cx (budget.left + 1) s budget
  | _ => some (.blocked, budget, s)

end CobsIoAsync.Connection.Reliable
