import CobsIoAsync.Connection.Moves

/-!
# Connection.Behaviour — what each function can do

For every function under `drive`, the relation between the state it starts from and what it can
leave, one constructor for each way through the function, with the transport and the timer free to
answer anything.  The functions never panic and stay within these relations; later proofs use the
constructors and do not unfold the functions again.
-/

namespace CobsIoAsync.Connection.Reliable

open Reasoning Protocol

variable [Target] {T C W E : Type} {N : Nat}

/-! ## Output -/

/-- A frame is in progress, or one is started. -/
inductive Start (s : Reliable T C W E N) : Reliable T C W E N → Prop
  | going (hout : s.out ≠ .idle) : Start s s
  | ack (seq : UInt32) (ackFrame : Bytes ackFrameLen) (ackLen : Nat)
      (hout : s.out = .idle) (hack : s.ackPending = some seq)
      (hlen : ackLen = (Packet.ack s.config.session seq).frame.length)
      (hframe : ackFrame.toList.take ackLen = (Packet.ack s.config.session seq).frame) :
      Start s ({ s with
        ackPending := none, ackLen, ackFrame, out := .writing .ack 0 }.log
          (.started .ack seq (Packet.ack s.config.session seq).frame))
  | data (hout : s.out = .idle) (hack : s.ackPending = none) (htx : s.tx = .queued) :
      Start s ({ s with tx := .sending, out := .writing .data 0 }.log
        (.started .data (UInt32.ofNat (s.txNext - 1)) (s.frameBytes .data)))

/-- The transport is asked to write the rest of a frame. -/
inductive WriteFrame (s : Reliable T C W E N) (cx : W) (frame : Frame) (offset : Nat) :
    Outcome E → Reliable T C W E N → Prop
  | pending (transport : T) : WriteFrame s cx frame offset (.ok .blocked)
      ({ s with transport }.log (.pollWrite cx frame ((s.frameBytes frame).drop offset) .pending))
  | error (transport : T) (error : E) : WriteFrame s cx frame offset (.error (.transport error))
      ({ s with transport }.log
        (.pollWrite cx frame ((s.frameBytes frame).drop offset) (.ready (.error error))))
  | zero (transport : T) : WriteFrame s cx frame offset (.error .writeZero)
      ({ s with transport }.log
        (.pollWrite cx frame ((s.frameBytes frame).drop offset) (.ready (.ok 0))))
  | written (transport : T) (written : Nat) (hwritten : written ≠ 0) :
      WriteFrame s cx frame offset (.ok .progress)
      ({ s with
        transport
        out := s.advance frame offset (min written ((s.frameBytes frame).drop offset).length) }.log
        (.pollWrite cx frame ((s.frameBytes frame).drop offset) (.ready (.ok written))))

/-- The transport is asked to flush a frame. -/
inductive FlushFrame (s : Reliable T C W E N) (cx : W) (frame : Frame) :
    Outcome E → Reliable T C W E N → Prop
  | pending (transport : T) : FlushFrame s cx frame (.ok .blocked)
      ({ s with transport }.log (.pollFlush cx frame .pending))
  | error (transport : T) (error : E) : FlushFrame s cx frame (.error (.transport error))
      ({ s with transport }.log (.pollFlush cx frame (.ready (.error error))))
  | sent (transport : T) (timer : C) (now : UInt64) (hframe : frame = .data)
      (htx : s.tx = .sending) : FlushFrame s cx frame (.ok .progress)
      ({ s with
        transport, timer, tx := .waiting, finalInput := none
        txDeadline := saturatingAdd now s.config.retransmitTimeout, out := .idle
        trace := s.trace ++ [.pollFlush cx frame (.ready (.ok ()))] ++ [.now now] })
  | flushed (transport : T) (h : ¬(frame = .data ∧ s.tx = .sending)) :
      FlushFrame s cx frame (.ok .progress)
      ({ s with transport, out := .idle }.log (.pollFlush cx frame (.ready (.ok ()))))

/-- `poll_output`. -/
inductive Output (s : Reliable T C W E N) (cx : W) (budget : Budget) :
    Outcome E → Budget → Reliable T C W E N → Prop
  | nothing (hout : s.out = .idle) (hack : s.ackPending = none) (htx : s.tx ≠ .queued) :
      Output s cx budget (.ok .blocked) budget s
  | starved {s₁ : Reliable T C W E N} (hstart : Start s s₁) (hleft : budget.left = 0) :
      Output s cx budget (.ok .yield) budget s₁
  | write {s₁ s₂ : Reliable T C W E N} {frame : Frame} {offset left : Nat} {work : Outcome E}
      (hstart : Start s s₁) (hleft : budget.left = left + 1)
      (hout : s₁.out = .writing frame offset) (hwrite : WriteFrame s₁ cx frame offset work s₂) :
      Output s cx budget work ⟨left⟩ s₂
  | flush {s₁ s₂ : Reliable T C W E N} {frame : Frame} {left : Nat} {work : Outcome E}
      (hstart : Start s s₁) (hleft : budget.left = left + 1)
      (hout : s₁.out = .flushing frame) (hflush : FlushFrame s₁ cx frame work s₂) :
      Output s cx budget work ⟨left⟩ s₂

/-! ## Input -/

/-- The effect of a parsed packet. -/
inductive Take (s : Reliable T C W E N) : Packet → Reliable T C W E N → Prop
  | release (seq : UInt32) (htx : s.tx ≠ .idle) (hseq : seq.toNat + 1 = s.txNext) :
      Take s (.ack s.config.session seq)
        ({ s with tx := .idle, txRetries := 0, finalInput := none }.log (.released seq))
  | retain (seq : UInt32) (payload : List UInt8) (rxPayload : Bytes N)
      (hlen : payload.length ≤ maxPayload N) (hseq : seq.toNat = s.rxNext)
      (hempty : s.rxStart = s.rxEnd)
      (hpayload : rxPayload.toList = payload ++ s.rxPayload.toList.drop payload.length) :
      Take s (.data s.config.session seq payload)
        ({ s with
          rxPayload, rxStart := 0, rxEnd := payload.length, rxNext := s.rxNext + 1
          ackPending := some seq }.log (.retained seq payload))
  | again (seq : UInt32) (payload : List UInt8) (hlen : payload.length ≤ maxPayload N)
      (hrx : 0 < s.rxNext) (hseq : seq.toNat = s.rxNext - 1) (hack : s.ackPending = none) :
      Take s (.data s.config.session seq payload) { s with ackPending := some seq }
  /-- Packets without effect: an acknowledgement of no packet in flight, data of another session
  or too long, data while the last payload is unread, and data of another number. -/
  | stale (session : UInt64) (seq : UInt32)
      (h : ¬(session = s.config.session ∧ s.tx ≠ .idle ∧ seq.toNat + 1 = s.txNext)) :
      Take s (.ack session seq) s
  | foreign (session : UInt64) (seq : UInt32) (payload : List UInt8)
      (h : session ≠ s.config.session ∨ payload.length > maxPayload N) :
      Take s (.data session seq payload) s
  | full (seq : UInt32) (payload : List UInt8) (hlen : payload.length ≤ maxPayload N)
      (hseq : seq.toNat = s.rxNext) (hfull : s.rxStart ≠ s.rxEnd) :
      Take s (.data s.config.session seq payload) s
  | unexpected (seq : UInt32) (payload : List UInt8) (hlen : payload.length ≤ maxPayload N)
      (hseq : seq.toNat ≠ s.rxNext)
      (h : ¬(s.rxNext > 0 ∧ seq.toNat = s.rxNext - 1 ∧ s.ackPending = none)) :
      Take s (.data s.config.session seq payload) s

/-- `process_frame` on a frame with the bytes `body` before its delimiter. -/
inductive ProcessFrame (s : Reliable T C W E N) (body : List UInt8) : Reliable T C W E N → Prop
  | undecodable {error : DecodeError Empty SeekableError} {scratch : Bytes N}
      (hdecode : Sync.decodeToSlice (body ++ [0]) s.scratch = (.error error, scratch)) :
      ProcessFrame s body { s.log (.frame body) with scratch }
  | unparsable {decoded : Codec.DecodedFrame} {scratch : Bytes N}
      (hdecode : Sync.decodeToSlice (body ++ [0]) s.scratch = (.ok decoded, scratch))
      (hparse : parse (scratch.toList.take decoded.len) = some none) :
      ProcessFrame s body ({ s.log (.frame body) with scratch }.log
        (.decoded (scratch.toList.take decoded.len)))
  | parsed {decoded : Codec.DecodedFrame} {scratch : Bytes N} {packet : Packet}
      {s' : Reliable T C W E N}
      (hdecode : Sync.decodeToSlice (body ++ [0]) s.scratch = (.ok decoded, scratch))
      (hparse : parse (scratch.toList.take decoded.len) = some (some packet))
      (htake : Take (({ s.log (.frame body) with scratch }.log
        (.decoded (scratch.toList.take decoded.len))).log (.parsed packet)) packet s') :
      ProcessFrame s body s'

/-- What happens to the bytes in front of a delimiter. -/
inductive ProcessSegment (s : Reliable T C W E N) (segment : List UInt8) :
    Reliable T C W E N → Prop
  | resync (hdiscarding : s.rxDiscarding = true) :
      ProcessSegment s segment { s with rxDiscarding := false }
  | frame {s' : Reliable T C W E N} (hdiscarding : s.rxDiscarding = false) (hne : segment ≠ [])
      (hframe : ProcessFrame s segment s') : ProcessSegment s segment s'
  | skip (hdiscarding : s.rxDiscarding = false) (hempty : segment = []) :
      ProcessSegment s segment s

/-- `process_input`. -/
inductive ProcessInput : Reliable T C W E N → Reliable T C W E N → Prop
  | rest (s : Reliable T C W E N) (hzero : 0 ∉ s.buffered) (hdiscarding : s.rxDiscarding = false)
      (hlen : s.rxLen ≠ N) : ProcessInput s s
  | overflow (s : Reliable T C W E N) (hzero : 0 ∉ s.buffered)
      (hfull : s.rxDiscarding = true ∨ s.rxLen = N) :
      ProcessInput s { s with rxDiscarding := true, rxLen := 0 }
  | segment {s s₁ s' : Reliable T C W E N} {segment tail : List UInt8} {rxBuf : Bytes N}
      (hbuffered : s.buffered = segment ++ 0 :: tail) (hzero : 0 ∉ segment)
      (htail : rxBuf.toList.take tail.length = tail) (hsegment : ProcessSegment s segment s₁)
      (hrest : ProcessInput { s₁ with rxBuf, rxLen := tail.length } s') : ProcessInput s s'

/-- `poll_input`. -/
inductive Input (s : Reliable T C W E N) (cx : W) (budget : Budget) :
    Outcome E → Budget → Reliable T C W E N → Prop
  | starved (hleft : budget.left = 0) : Input s cx budget (.ok .yield) budget s
  | pending {left : Nat} (transport : T) (rxBuf : Bytes N) (hleft : budget.left = left + 1)
      (hbuf : rxBuf.toList.take s.rxLen = s.buffered) :
      Input s cx budget (.ok .blocked) ⟨left⟩
        ({ s with transport, rxBuf }.log (.pollRead cx (N - s.rxLen) .pending []))
  | error {left : Nat} (transport : T) (rxBuf : Bytes N) (error : E)
      (hleft : budget.left = left + 1) (hbuf : rxBuf.toList.take s.rxLen = s.buffered) :
      Input s cx budget (.error (.transport error)) ⟨left⟩
        ({ s with transport, rxBuf }.log
          (.pollRead cx (N - s.rxLen) (.ready (.error error)) []))
  | eof {left : Nat} (transport : T) (rxBuf : Bytes N) (hleft : budget.left = left + 1)
      (hbuf : rxBuf.toList.take s.rxLen = s.buffered) :
      Input s cx budget (.error .unexpectedEof) ⟨left⟩
        ({ s with transport, rxBuf }.log (.pollRead cx (N - s.rxLen) (.ready (.ok 0)) []))
  | read {left : Nat} {s' : Reliable T C W E N} (transport : T) (rxBuf : Bytes N) (count : Nat)
      (bytes : List UInt8) (hleft : budget.left = left + 1) (hcount : count ≠ 0)
      (hbytes : bytes.length = min count (N - s.rxLen))
      (hbuf : rxBuf.toList.take (s.rxLen + bytes.length) = s.buffered ++ bytes)
      (hprocess : ProcessInput ({ s with
        transport, rxBuf, rxLen := s.rxLen + bytes.length
        finalInput := s.finalInput.map (· - bytes.length) }.log
          (.pollRead cx (N - s.rxLen) (.ready (.ok count)) bytes)) s') :
      Input s cx budget (.ok .progress) ⟨left⟩ s'

/-! ## Timer -/

/-- `poll_timer`. -/
inductive Timed (s : Reliable T C W E N) (cx : W) (input : Work) :
    Outcome E → Reliable T C W E N → Prop
  | unarmed (htx : s.tx ≠ .waiting) : Timed s cx input (.ok .blocked) s
  | pending (timer : C) (htx : s.tx = .waiting) (hfinal : s.finalInput = none) :
      Timed s cx input (.ok .blocked)
        ({ s with timer }.log (.pollDeadline cx s.txDeadline .pending))
  | expired (timer : C) (htx : s.tx = .waiting) (hfinal : s.finalInput = none) :
      Timed s cx input (.ok .progress)
        ({ s with timer, finalInput := some (finalInputLen N) }.log
          (.pollDeadline cx s.txDeadline (.ready ())))
  | timeout (left : Nat) (htx : s.tx = .waiting) (hfinal : s.finalInput = some left)
      (hspent : input = .blocked ∨ left = 0)
      (hretries : s.config.maxRetries.toNat ≤ s.txRetries) :
      Timed s cx input (.error .timeout) ({ s with finalInput := none }.log .timedOut)
  | requeue (left : Nat) (htx : s.tx = .waiting) (hfinal : s.finalInput = some left)
      (hspent : input = .blocked ∨ left = 0)
      (hretries : s.txRetries < s.config.maxRetries.toNat) :
      Timed s cx input (.ok .progress)
        { s with finalInput := none, txRetries := s.txRetries + 1, tx := .queued }
  | listening (left : Nat) (htx : s.tx = .waiting) (hfinal : s.finalInput = some left)
      (hinput : input ≠ .blocked) (hleft : left ≠ 0) : Timed s cx input (.ok .blocked) s

/-! ## Driving -/

/-- `step`. -/
inductive Step (s : Reliable T C W E N) (cx : W) (budget : Budget) :
    Outcome E → Budget → Reliable T C W E N → Prop
  | output {error : ConnectionError E} {budget₁ : Budget} {s₁ : Reliable T C W E N}
      (houtput : Output s cx budget (.error error) budget₁ s₁) :
      Step s cx budget (.error error) budget₁ s₁
  | input {output : Work} {error : ConnectionError E} {budget₁ budget₂ : Budget}
      {s₁ s₂ : Reliable T C W E N} (houtput : Output s cx budget (.ok output) budget₁ s₁)
      (hinput : Input s₁ cx budget₁ (.error error) budget₂ s₂) :
      Step s cx budget (.error error) budget₂ s₂
  | timer {output input : Work} {error : ConnectionError E} {budget₁ budget₂ : Budget}
      {s₁ s₂ s₃ : Reliable T C W E N} (houtput : Output s cx budget (.ok output) budget₁ s₁)
      (hinput : Input s₁ cx budget₁ (.ok input) budget₂ s₂)
      (htimer : Timed s₂ cx input (.error error) s₃) :
      Step s cx budget (.error error) budget₂ s₃
  | done {output input timer : Work} {budget₁ budget₂ : Budget} {s₁ s₂ s₃ : Reliable T C W E N}
      (houtput : Output s cx budget (.ok output) budget₁ s₁)
      (hinput : Input s₁ cx budget₁ (.ok input) budget₂ s₂)
      (htimer : Timed s₂ cx input (.ok timer) s₃) :
      Step s cx budget (.ok ((output.max input).max timer)) budget₂ s₃

/-- The loop of `drive`. -/
inductive DriveLoop (cx : W) :
    Reliable T C W E N → Budget → Work → Budget → Reliable T C W E N → Prop
  | progress {s s₁ s₂ : Reliable T C W E N} {budget budget₁ budget₂ : Budget} {work : Work}
      (hstep : Step (s.log .step) cx budget (.ok .progress) budget₁ s₁)
      (hloop : DriveLoop cx (s₁.log (.stepped (.ok .progress))) budget₁ work budget₂ s₂) :
      DriveLoop cx s budget work budget₂ s₂
  | blocked {s s₁ : Reliable T C W E N} {budget budget₁ : Budget}
      (hstep : Step (s.log .step) cx budget (.ok .blocked) budget₁ s₁) :
      DriveLoop cx s budget .blocked budget₁ (s₁.log (.stepped (.ok .blocked)))
  | yield {s s₁ : Reliable T C W E N} {budget budget₁ : Budget}
      (hstep : Step (s.log .step) cx budget (.ok .yield) budget₁ s₁) :
      DriveLoop cx s budget .yield budget₁
        ((s₁.log (.stepped (.ok .yield))).log (.wakeByRef cx))
  | error {s s₁ : Reliable T C W E N} {budget budget₁ : Budget} {error : ConnectionError E}
      (hstep : Step (s.log .step) cx budget (.error error) budget₁ s₁) :
      DriveLoop cx s budget .blocked budget₁ ((s₁.log (.stepped (.error error))).fail error)

/-- `drive`. -/
inductive Drive (s : Reliable T C W E N) (cx : W) (budget : Budget) :
    Work → Budget → Reliable T C W E N → Prop
  | stopped (hhealth : s.health ≠ .ok) : Drive s cx budget .blocked budget s
  | loop {work : Work} {budget' : Budget} {s' : Reliable T C W E N} (hhealth : s.health = .ok)
      (hloop : DriveLoop cx s budget work budget' s') : Drive s cx budget work budget' s'

/-! ## Failing -/

omit [Target] in
theorem fail_eq (s : Reliable T C W E N) (error : ConnectionError E) :
    s.fail error = { s with
      finalInput := none
      health := match s.health with
        | .ok => .failed error
        | health => health } := by
  unfold Reliable.fail
  cases s.health <;> simp

/-! ## The receive buffer -/

variable {s s' : Reliable T C W E N}

omit [Target] in
theorem SameInput.fail (h : SameInput s s') (error : ConnectionError E) :
    SameInput s (s'.fail error) := by
  rw [fail_eq]
  exact ⟨h.1, h.2, h.3, h.4, h.5⟩

theorem Take.sameInput {packet : Packet} (h : Take s packet s') : SameInput s s' := by
  cases h with
  | release => exact .of_trace rfl rfl rfl rfl rfl rfl
  | retain => exact .of_trace rfl rfl rfl rfl rfl rfl
  | again => exact ⟨rfl, rfl, rfl, rfl, rfl⟩
  | _ => exact .refl s

/-- A frame is processed and leaves the receive buffer as it is. -/
theorem ProcessFrame.sameInput {body : List UInt8} (h : ProcessFrame s body s') :
    SameInput (s.log (.frame body)) s' := by
  cases h with
  | undecodable => exact ⟨rfl, rfl, rfl, rfl, rfl⟩
  | unparsable => exact .of_trace rfl rfl rfl rfl rfl rfl
  | @parsed decoded scratch packet _ _ _ htake =>
      have hdecoded : SameInput (s.log (.frame body)) ({ s.log (.frame body) with scratch }.log
          (.decoded (scratch.toList.take decoded.len))) := .of_trace rfl rfl rfl rfl rfl rfl
      exact (hdecoded.log (.parsed packet) rfl rfl).trans htake.sameInput

section

omit [Target]

theorem Start.sameInput (h : Start s s') : SameInput s s' := by
  cases h with
  | going => exact .refl s
  | ack => exact .of_trace rfl rfl rfl rfl rfl rfl
  | data => exact .of_trace rfl rfl rfl rfl rfl rfl

theorem WriteFrame.sameInput {cx : W} {frame : Frame} {offset : Nat} {work : Outcome E}
    (h : WriteFrame s cx frame offset work s') : SameInput s s' := by
  cases h <;> exact .of_trace rfl rfl rfl rfl rfl rfl

theorem FlushFrame.sameInput {cx : W} {frame : Frame} {work : Outcome E}
    (h : FlushFrame s cx frame work s') : SameInput s s' := by
  cases h with
  | sent =>
      exact ⟨rfl, rfl, rfl, by simp [received, Event.receivedBytes], by simp [frames, Event.frame?]⟩
  | _ => exact .of_trace rfl rfl rfl rfl rfl rfl

theorem Output.sameInput {cx : W} {budget budget' : Budget} {work : Outcome E}
    (h : Output s cx budget work budget' s') : SameInput s s' := by
  cases h with
  | nothing => exact .refl s
  | starved hstart => exact hstart.sameInput
  | write hstart _ _ hwrite => exact hstart.sameInput.trans hwrite.sameInput
  | flush hstart _ _ hflush => exact hstart.sameInput.trans hflush.sameInput

theorem Timed.sameInput {cx : W} {input : Work} {work : Outcome E}
    (h : Timed s cx input work s') : SameInput s s' := by
  cases h with
  | unarmed => exact .refl s
  | listening => exact .refl s
  | requeue => exact ⟨rfl, rfl, rfl, rfl, rfl⟩
  | _ => exact .of_trace rfl rfl rfl rfl rfl rfl

end

theorem ProcessSegment.buffer {segment : List UInt8} (h : ProcessSegment s segment s') :
    s'.rxBuf = s.rxBuf ∧ s'.rxLen = s.rxLen := by
  cases h with
  | resync => exact ⟨rfl, rfl⟩
  | frame _ _ hframe => exact ⟨hframe.sameInput.rxBuf, hframe.sameInput.rxLen⟩
  | skip => exact ⟨rfl, rfl⟩

/-! ## Receiving -/

/-- What may happen to the receive buffer: nothing, or bytes are read behind the buffered ones
and processed. -/
inductive Receive : Reliable T C W E N → Reliable T C W E N → Prop
  | same {s s' : Reliable T C W E N} (hbuffered : s'.buffered = s.buffered)
      (hlen : s'.rxLen = s.rxLen) (hdiscarding : s'.rxDiscarding = s.rxDiscarding)
      (hreceived : received s'.trace = received s.trace)
      (hframes : frames s'.trace = frames s.trace) : Receive s s'
  | read {s s₁ s' : Reliable T C W E N} (bytes : List UInt8)
      (hroom : bytes.length ≤ N - s.rxLen) (hlen : s₁.rxLen = s.rxLen + bytes.length)
      (hbuffered : s₁.buffered = s.buffered ++ bytes)
      (hdiscarding : s₁.rxDiscarding = s.rxDiscarding)
      (hreceived : received s₁.trace = received s.trace ++ bytes)
      (hframes : frames s₁.trace = frames s.trace) (hprocess : ProcessInput s₁ s') : Receive s s'

def Receives : Reliable T C W E N → Reliable T C W E N → Prop := Relation.ReflTransGen Receive

theorem SameInput.receives (h : SameInput s s') : Receives s s' :=
  .single (.same h.buffered h.rxLen h.rxDiscarding h.received h.frames)

namespace Receives

theorem refl (s : Reliable T C W E N) : Receives s s := Relation.ReflTransGen.refl

theorem trans {s'' : Reliable T C W E N} (h : Receives s s') (h' : Receives s' s'') :
    Receives s s'' :=
  Relation.ReflTransGen.trans h h'

theorem same {s'' : Reliable T C W E N} (h : Receives s s') (h' : SameInput s' s'') :
    Receives s s'' :=
  h.trans h'.receives

theorem log (h : Receives s s') (event : Event W E) (hbytes : event.receivedBytes = [])
    (hframe : event.frame? = none) : Receives s (s'.log event) :=
  h.same ((SameInput.refl s').log event hbytes hframe)

/-- What every receive keeps, any number of them keep. -/
theorem keep {P : Reliable T C W E N → Prop} (hstep : ∀ {s s'}, P s → Receive s s' → P s')
    (h : Receives s s') (hs : P s) : P s' := by
  induction h with
  | refl => exact hs
  | tail _ hreceive ih => exact hstep ih hreceive

end Receives

theorem ProcessInput.settled (hN : 0 < N) (h : ProcessInput s s') (hlen : s.rxLen ≤ N) :
    Settled s' := by
  induction h with
  | rest s hzero hdiscarding hfull =>
      exact ⟨lt_of_le_of_ne hlen hfull, hzero, fun h => by simp [hdiscarding] at h⟩
  | overflow s => exact ⟨hN, by simp [buffered], fun _ => rfl⟩
  | segment hbuffered _ _ _ _ ih =>
      refine ih ?_
      have := congrArg List.length hbuffered
      rw [length_buffered hlen, List.length_append, List.length_cons] at this
      simp only
      omega

theorem Settled.receive (h : Settled s) (hreceive : Receive s s') : Settled s' := by
  cases hreceive with
  | same hbuffered hlen hdiscarding =>
      exact ⟨hlen ▸ h.1, hbuffered ▸ h.2, hdiscarding ▸ hlen ▸ h.3⟩
  | read bytes hroom hlen _ _ _ _ hprocess =>
      have := h.rxLen_lt
      exact hprocess.settled (Nat.lt_of_le_of_lt (Nat.zero_le _) this) (by omega)

theorem Settled.receives (h : Settled s) (hreceives : Receives s s') : Settled s' :=
  hreceives.keep Settled.receive h

theorem Input.receives {cx : W} {budget budget' : Budget} {work : Outcome E}
    (h : Input s cx budget work budget' s') : Receives s s' := by
  -- a read that gives no bytes may write into the free part of the buffer all the same
  have hnothing : ∀ (transport : T) (rxBuf : Bytes N) (event : Event W E),
      rxBuf.toList.take s.rxLen = s.buffered → event.receivedBytes = [] → event.frame? = none →
        Receives s ({ s with transport, rxBuf }.log event) := fun transport rxBuf event hbuf hbytes
          hframe => .single (.same hbuf rfl rfl (by simp [hbytes]) (by simp [hframe]))
  cases h with
  | starved => exact .refl s
  | pending transport rxBuf _ hbuf => exact hnothing transport rxBuf _ hbuf rfl rfl
  | error transport rxBuf _ _ hbuf => exact hnothing transport rxBuf _ hbuf rfl rfl
  | eof transport rxBuf _ hbuf => exact hnothing transport rxBuf _ hbuf rfl rfl
  | read transport rxBuf count bytes _ _ hbytes hbuf hprocess =>
      refine .single (.read bytes (by omega) ?_ ?_ ?_ ?_ ?_ hprocess)
      · rfl
      · exact hbuf
      · rfl
      · simp [Event.receivedBytes]
      · simp [Event.frame?]

theorem Step.receives {cx : W} {budget budget' : Budget} {work : Outcome E}
    (h : Step s cx budget work budget' s') : Receives s s' := by
  cases h with
  | output houtput => exact houtput.sameInput.receives
  | input houtput hinput => exact houtput.sameInput.receives.trans hinput.receives
  | timer houtput hinput htimer =>
      exact (houtput.sameInput.receives.trans hinput.receives).same htimer.sameInput
  | done houtput hinput htimer =>
      exact (houtput.sameInput.receives.trans hinput.receives).same htimer.sameInput

theorem DriveLoop.receives {cx : W} {budget budget' : Budget} {work : Work}
    (h : DriveLoop cx s budget work budget' s') : Receives s s' := by
  have hlog : ∀ s : Reliable T C W E N, Receives s (s.log .step) := fun s =>
    (Receives.refl s).log _ rfl rfl
  induction h with
  | progress hstep _ ih => exact (((hlog _).trans hstep.receives).log _ rfl rfl).trans ih
  | blocked hstep => exact ((hlog _).trans hstep.receives).log _ rfl rfl
  | yield hstep => exact (((hlog _).trans hstep.receives).log _ rfl rfl).log _ rfl rfl
  | error hstep =>
      exact (((hlog _).trans hstep.receives).log _ rfl rfl).same ((SameInput.refl _).fail _)

theorem Drive.receives {cx : W} {budget budget' : Budget} {work : Work}
    (h : Drive s cx budget work budget' s') : Receives s s' := by
  cases h with
  | stopped => exact .refl s
  | loop _ hloop => exact hloop.receives

/-! ## The budget -/

omit [Target] in
theorem Output.budget_le {cx : W} {budget budget' : Budget} {work : Outcome E}
    (h : Output s cx budget work budget' s') : budget'.left ≤ budget.left := by
  cases h <;> simp_all

/-- A read that was attempted has spent some of the budget. -/
theorem Input.spends {cx : W} {budget budget' : Budget} {work : Outcome E}
    (h : Input s cx budget work budget' s') (hwork : work ≠ .ok .yield) :
    budget'.left < budget.left := by
  cases h <;> simp_all

/-- A step that is followed by another one has spent some of the budget. -/
theorem Step.spends {cx : W} {budget budget' : Budget}
    (h : Step s cx budget (.ok .progress) budget' s') : budget'.left < budget.left := by
  generalize hwork : Except.ok Work.progress = work at h
  cases h with
  | output => cases hwork
  | input => cases hwork
  | timer => cases hwork
  | @done output input timer _ _ _ _ _ houtput hinput htimer =>
      have hinput_ne : input ≠ .yield := by
        rintro rfl
        cases output <;> cases timer <;> cases hwork
      exact (hinput.spends (by simpa using hinput_ne)).trans_le houtput.budget_le

/-! ## Every way through is a sequence of turns -/

namespace Turns

theorem transport (s : Reliable T C W E N) (transport : T) : Turns s { s with transport } :=
  .of_turn (.env s transport s.timer s.rxBuf s.scratch s.rxLen s.rxDiscarding s.txDeadline)

theorem timer (s : Reliable T C W E N) (timer : C) : Turns s { s with timer } :=
  .of_turn (.env s s.transport timer s.rxBuf s.scratch s.rxLen s.rxDiscarding s.txDeadline)

theorem buffer (s : Reliable T C W E N) (rxBuf : Bytes N) (rxLen : Nat) (rxDiscarding : Bool) :
    Turns s { s with rxBuf, rxLen, rxDiscarding } :=
  .of_turn (.env s s.transport s.timer rxBuf s.scratch rxLen rxDiscarding s.txDeadline)

theorem scratch (s : Reliable T C W E N) (scratch : Bytes N) : Turns s { s with scratch } :=
  .of_turn (.env s s.transport s.timer s.rxBuf scratch s.rxLen s.rxDiscarding s.txDeadline)

end Turns

theorem Start.turns (h : Start s s') : Turns s s' := by
  cases h with
  | going => exact .refl s
  | ack seq ackFrame ackLen hout hack hlen hframe =>
      exact .of_turn (.startAck s seq ackFrame ackLen hout hack hlen hframe)
  | data hout hack htx => exact .of_turn (.startData s hout hack htx)

theorem WriteFrame.turns {cx : W} {frame : Frame} {offset : Nat} {work : Outcome E}
    (h : WriteFrame s cx frame offset work s') (hout : s.out = .writing frame offset) :
    Turns s s' := by
  cases h with
  | pending transport => exact (Turns.transport s transport).note _ rfl
  | error transport => exact (Turns.transport s transport).note _ rfl
  | zero transport => exact (Turns.transport s transport).note _ rfl
  | written transport written hwritten =>
      exact (Turns.transport s transport).tail (.write _ cx frame offset written hout hwritten)

theorem FlushFrame.turns {cx : W} {frame : Frame} {work : Outcome E}
    (h : FlushFrame s cx frame work s') (hout : s.out = .flushing frame) : Turns s s' := by
  cases h with
  | pending transport => exact (Turns.transport s transport).note _ rfl
  | error transport => exact (Turns.transport s transport).note _ rfl
  | sent transport timer now hframe htx =>
      have hallow : Turns s { s with transport, finalInput := none } :=
        (Turns.transport s transport).tail (.allow _ none (by simp))
      have hflush := hallow.tail (.flush _ cx frame hout)
      rw [txAfterFlush, if_pos ⟨hframe, htx⟩] at hflush
      exact (hflush.note (.now now) rfl).tail
        (.env _ transport timer s.rxBuf s.scratch s.rxLen s.rxDiscarding _)
  | flushed transport hnot =>
      have hflush := (Turns.transport s transport).tail (.flush _ cx frame hout)
      rwa [txAfterFlush, if_neg hnot] at hflush

theorem Output.turns {cx : W} {budget budget' : Budget} {work : Outcome E}
    (h : Output s cx budget work budget' s') : Turns s s' := by
  cases h with
  | nothing => exact .refl s
  | starved hstart => exact hstart.turns
  | write hstart _ hout hwrite => exact hstart.turns.trans (hwrite.turns hout)
  | flush hstart _ hout hflush => exact hstart.turns.trans (hflush.turns hout)

theorem Take.turns {packet : Packet} (h : Take s packet s') (hparsed : .parsed packet ∈ s.trace) :
    Turns s s' := by
  cases h with
  | release seq htx hseq => exact .of_turn (.release s seq hparsed htx hseq)
  | retain seq payload rxPayload hlen hseq hempty hpayload =>
      refine .of_turn (.retain s seq payload rxPayload hparsed hlen hseq hempty ?_)
      rw [hpayload, List.take_left]
  | again seq payload hlen hrx hseq hack => exact .of_turn (.acknowledgeAgain s seq hrx hseq hack)
  | _ => exact .refl s

theorem ProcessFrame.turns {body : List UInt8} (h : ProcessFrame s body s') : Turns s s' := by
  have hframe : ∀ scratch, Turns s { s.log (.frame body) with scratch } := fun scratch =>
    ((Turns.refl s).note (.frame body) rfl).trans (.scratch _ scratch)
  cases h with
  | undecodable => exact hframe _
  | unparsable => exact (hframe _).note _ rfl
  | parsed hdecode hparse htake =>
      refine (((hframe _).note _ rfl).tail (.parse _ _)).trans (htake.turns ?_)
      simp

theorem ProcessSegment.turns {segment : List UInt8} (h : ProcessSegment s segment s') :
    Turns s s' := by
  cases h with
  | resync => exact .buffer s s.rxBuf s.rxLen false
  | frame _ _ hframe => exact hframe.turns
  | skip => exact .refl s

theorem ProcessInput.turns (h : ProcessInput s s') : Turns s s' := by
  induction h with
  | rest s => exact .refl s
  | overflow s => exact .buffer s s.rxBuf 0 true
  | @segment s s₁ _ _ _ _ _ _ _ hsegment _ ih =>
      exact hsegment.turns.trans ((Turns.buffer s₁ _ _ s₁.rxDiscarding).trans ih)

theorem Input.turns (hinv : Inv s) {cx : W} {budget budget' : Budget} {work : Outcome E}
    (h : Input s cx budget work budget' s') : Turns s s' := by
  have hread : ∀ (transport : T) (rxBuf : Bytes N), Turns s { s with transport, rxBuf } :=
    fun transport rxBuf => (Turns.transport s transport).trans
      (.buffer { s with transport } rxBuf s.rxLen s.rxDiscarding)
  cases h with
  | starved => exact .refl s
  | pending transport rxBuf => exact (hread transport rxBuf).note _ rfl
  | error transport rxBuf => exact (hread transport rxBuf).note _ rfl
  | eof transport rxBuf => exact (hread transport rxBuf).note _ rfl
  | read transport rxBuf count bytes _ _ _ _ hprocess =>
      refine Turns.trans ?_ hprocess.turns
      have hallow := ((hread transport rxBuf).trans
        (.buffer _ rxBuf (s.rxLen + bytes.length) s.rxDiscarding)).tail
          (.allow _ (s.finalInput.map (· - bytes.length))
            (by simpa using hinv.waiting_of_final))
      exact hallow.note _ rfl

theorem Timed.turns {cx : W} {input : Work} {work : Outcome E} (h : Timed s cx input work s') :
    Turns s s' := by
  cases h with
  | unarmed => exact .refl s
  | pending timer => exact (Turns.timer s timer).note _ rfl
  | expired timer htx =>
      exact ((Turns.timer s timer).tail (.allow _ (some (finalInputLen N)) fun _ => htx)).note _ rfl
  | timeout => exact (Turns.of_turn (.allow s none (by simp))).note _ rfl
  | requeue left htx hfinal hspent hretries => exact .of_turn (.requeue s htx hretries)
  | listening => exact .refl s

theorem Step.turns (hinv : Inv s) {cx : W} {budget budget' : Budget}
    {work : Outcome E} (h : Step s cx budget work budget' s') : Turns s s' := by
  cases h with
  | output houtput => exact houtput.turns
  | input houtput hinput =>
      exact houtput.turns.trans (hinput.turns (hinv.turns houtput.turns))
  | timer houtput hinput htimer =>
      exact (houtput.turns.trans (hinput.turns (hinv.turns houtput.turns))).trans htimer.turns
  | done houtput hinput htimer =>
      exact (houtput.turns.trans (hinput.turns (hinv.turns houtput.turns))).trans htimer.turns

/-- The loop of `drive` is a sequence of turns, and may fail the connection at its end. -/
theorem DriveLoop.turns (hinv : Inv s) {cx : W} {budget budget' : Budget} {work : Work}
    (h : DriveLoop cx s budget work budget' s') :
    ∃ s₁, Turns s s₁ ∧ (s' = s₁ ∨ ∃ error, s' = s₁.fail error) := by
  have hstart : ∀ {s : Reliable T C W E N}, Turns s (s.log .step) := fun {s} =>
    (Turns.refl s).note _ rfl
  induction h with
  | progress hstep _ ih =>
      have hturns := (hstart.trans (hstep.turns (hinv.turns hstart))).note
        (.stepped (.ok .progress)) rfl
      obtain ⟨s₁, hloop, hs₁⟩ := ih (hinv.turns hturns)
      exact ⟨s₁, hturns.trans hloop, hs₁⟩
  | blocked hstep =>
      exact ⟨_, (hstart.trans (hstep.turns (hinv.turns hstart))).note _ rfl, .inl rfl⟩
  | yield hstep =>
      exact ⟨_, ((hstart.trans (hstep.turns (hinv.turns hstart))).note _ rfl).note _ rfl,
        .inl rfl⟩
  | @error _ _ _ _ error hstep =>
      exact ⟨_, (hstart.trans (hstep.turns (hinv.turns hstart))).note _ rfl, .inr ⟨error, rfl⟩⟩

theorem Drive.turns (hinv : Inv s) {cx : W} {budget budget' : Budget} {work : Work}
    (h : Drive s cx budget work budget' s') :
    ∃ s₁, Turns s s₁ ∧ (s' = s₁ ∨ ∃ error, s' = s₁.fail error) := by
  cases h with
  | stopped => exact ⟨s, .refl s, .inl rfl⟩
  | loop hhealth hloop => exact hloop.turns hinv

theorem Moves.health (s : Reliable T C W E N) (health : Health E) : Moves s { s with health } :=
  .of_move (.env s health s.waiters)

theorem Moves.fail (s : Reliable T C W E N) (error : ConnectionError E) :
    Moves s (s.fail error) := by
  have hfinal : Turns s { s with finalInput := none } := .of_turn (.allow s none (by simp))
  rw [fail_eq]
  exact hfinal.moves.trans (.health _ _)

theorem Drive.moves (hinv : Inv s) {cx : W} {budget budget' : Budget} {work : Work}
    (h : Drive s cx budget work budget' s') : Moves s s' := by
  obtain ⟨s₁, hturns, rfl | ⟨error, rfl⟩⟩ := h.turns hinv
  · exact hturns.moves
  · exact hturns.moves.trans (.fail s₁ error)

end CobsIoAsync.Connection.Reliable
