import CobsIoAsync.Connection.Accounts

/-!
# Connection.Output — what is on the wire

The bytes that the transport accepted are frames, one after the other, and each frame is what the
encoder makes of a written payload or of a retained number.
-/

namespace CobsIoAsync.Connection

open Reasoning Protocol

variable {T C W E : Type} {N : Nat}

/-! ## Frames -/

/-- `encode_data` makes `bytes` of a payload, whatever was in the buffers. -/
def EncodesData (N : Nat) (session : UInt64) (seq : UInt32) (payload bytes : List UInt8) : Prop :=
  ∀ scratch frame : Bytes N, Returns (encodeData session seq payload scratch frame) fun r =>
    r.2.2.toList.take r.1 = bytes

/-- `encode_ack` makes `bytes` of a number. -/
def EncodesAck (session : UInt64) (seq : UInt32) (bytes : List UInt8) : Prop :=
  ∀ frame, Returns (encodeAck session seq frame) fun r => r.2.toList.take r.1 = bytes

theorem encodesData [Target] {session : UInt64} {seq : UInt32} {payload : List UInt8}
    (hN : Reliable.Fits N)
    (hpayload : payload.length ≤ Reliable.maxPayload N) :
    EncodesData N session seq payload (Packet.data session seq payload).frame := by
  intro scratch frame
  have hroom := hN.maxPayload_le
  have hfits := length_data_frame_le hN.maxPayload_eq hN.maxPayload_pos session seq hpayload
  refine (encodeData_returns session seq payload scratch frame (by omega) hfits).mono ?_
  rintro ⟨len, scratch', frame'⟩ ⟨hlen, -, hframe⟩
  exact (congrArg frame'.toList.take hlen).trans hframe.take

theorem encodesAck (session : UInt64) (seq : UInt32) :
    EncodesAck session seq (Packet.ack session seq).frame := by
  intro frame
  refine (encodeAck_returns session seq frame).mono ?_
  rintro ⟨len, frame'⟩ ⟨hlen, hframe⟩
  exact (congrArg frame'.toList.take hlen).trans hframe.take

theorem EncodesData.unique {session : UInt64} {seq : UInt32} {payload bytes bytes' : List UInt8}
    (h : EncodesData N session seq payload bytes) (h' : EncodesData N session seq payload bytes') :
    bytes = bytes' := by
  obtain ⟨r, hr, hbytes⟩ := h (.zeros N) (.zeros N)
  exact hbytes.symm.trans ((h' (.zeros N) (.zeros N)).post hr)

/-- A frame that may be on the wire: an acknowledgement of one of the first `retained` packets,
or a written payload under its number. -/
def Sent.Genuine (N : Nat) (session : UInt64) (retained : Nat) (written : List (List UInt8)) :
    Sent → Prop
  | ⟨.ack, seq, bytes⟩ => seq.toNat < retained ∧ EncodesAck session seq bytes
  | ⟨.data, seq, bytes⟩ => ∃ payload, written[seq.toNat]? = some payload ∧
      EncodesData N session seq payload bytes

/-- Everything accepted at some moment: frames in whole, and a part of at most one more. -/
def Framed (trace : List (Event W E)) (complete current : List Sent) : Prop :=
  startedFrames trace = complete ++ current ∧ current.length ≤ 1 ∧
    ∃ part, part <+: current.flatMap Sent.bytes ∧
      accepted trace = complete.flatMap Sent.bytes ++ part

theorem framed_of_line {trace : List (Event W E)} {state : Line.State UInt8}
    (h : Line.Run (lineEvents trace) state) :
    ∃ complete current, Framed trace complete current ∧ current.map Sent.bytes = state.current := by
  obtain ⟨done, hstarted, haccepted⟩ := h.wire
  rw [started_lineEvents] at hstarted
  rw [accepted_lineEvents] at haccepted
  obtain ⟨complete, current, hsplit, hcomplete, hcurrent⟩ := List.map_eq_append_iff.mp hstarted
  refine ⟨complete, current, ⟨hsplit, ?_, state.part, ?_, ?_⟩, hcurrent⟩
  · rw [← List.length_map, hcurrent]
    cases state <;> simp [Line.State.current]
  · rw [List.flatMap_def, hcurrent]
    exact state.part_prefix
  · rw [haccepted, ← hcomplete, List.flatMap_def]

/-- A started frame is on the line, or it was accepted in whole and flushed after that, before
another one was started. -/
theorem finished_of_line {trace : List (Event W E)} {state : Line.State UInt8}
    (h : Line.Run (lineEvents trace) state) {before after : List (Event W E)} {kind : Frame}
    {seq : UInt32} {bytes : List UInt8} (htrace : trace = before ++ .started kind seq bytes :: after) :
    (∃ sent cx kind' rest, after = sent ++ .pollFlush cx kind' (.ready (.ok ())) :: rest ∧
      accepted sent = bytes ∧ startedFrames sent = []) ∨
        state.current = [bytes] ∧ accepted after = state.part ∧ startedFrames after = [] := by
  rw [htrace, ← List.singleton_append, lineEvents_append, lineEvents_append,
    lineEvents_singleton] at h
  have hstart : (.started kind seq bytes : Event W E).line?.toList = [.start bytes] := rfl
  rw [hstart, List.singleton_append] at h
  rcases h.finished rfl with ⟨sent, rest, hsplit, hsent, hstarted⟩ | ⟨hcurrent, haccepted, hstarted⟩
  · obtain ⟨events, events', rfl, rfl, htail⟩ := List.filterMap_eq_append_iff.mp hsplit
    obtain ⟨silent, event, rest', rfl, hsilent, hevent, -⟩ := List.filterMap_eq_cons_iff.mp htail
    have hflush : ∃ cx kind', event = .pollFlush cx kind' (.ready (.ok ())) := by
      unfold Event.line? at hevent
      split at hevent
      · cases hevent
      · cases hevent
      · exact ⟨_, _, rfl⟩
      · cases hevent
    obtain ⟨cx, kind', rfl⟩ := hflush
    refine .inl ⟨events ++ silent, cx, kind', rest', by rw [List.append_assoc], ?_, ?_⟩
    · have hnone : lineEvents silent = [] := List.filterMap_eq_nil_iff.mpr hsilent
      rw [← hsent, ← accepted_lineEvents, lineEvents_append, hnone, List.append_nil]
      rfl
    · have hnone : lineEvents silent = [] := List.filterMap_eq_nil_iff.mpr hsilent
      rw [← List.map_eq_nil_iff (f := Sent.bytes), ← started_lineEvents, lineEvents_append, hnone,
        List.append_nil]
      exact hstarted
  · rw [← accepted_lineEvents, ← List.map_eq_nil_iff (f := Sent.bytes), ← started_lineEvents]
    exact .inr ⟨hcurrent, haccepted, hstarted⟩

/-- The frame on the line is the one that was started last. -/
theorem progress_of_line {trace : List (Event W E)} {state : Line.State UInt8}
    (h : Line.Run (lineEvents trace) state) {bytes : List UInt8} (hcurrent : state.current = [bytes]) :
    ∃ before kind seq after, trace = before ++ .started kind seq bytes :: after ∧
      startedFrames after = [] ∧ accepted after = state.part := by
  obtain ⟨before, after, hsplit, hstarted, haccepted⟩ := h.progress hcurrent
  obtain ⟨front, back, rfl, -, hback⟩ := List.filterMap_eq_append_iff.mp hsplit
  obtain ⟨silent, event, rest, rfl, -, hevent, hrest⟩ := List.filterMap_eq_cons_iff.mp hback
  have hstart : ∃ kind seq, event = .started kind seq bytes := by
    unfold Event.line? at hevent
    split at hevent
    · cases hevent
      exact ⟨_, _, rfl⟩
    · cases hevent
    · cases hevent
    · cases hevent
  obtain ⟨kind, seq, rfl⟩ := hstart
  change lineEvents rest = after at hrest
  refine ⟨front ++ silent, kind, seq, rest, by simp, ?_, ?_⟩
  · rw [← List.map_eq_nil_iff (f := Sent.bytes), ← started_lineEvents, hrest, hstarted]
  · rw [← accepted_lineEvents, hrest, haccepted]

/-- Every frame that was started was accepted in whole by the transport and flushed after that. -/
def FlushedThrough (trace : List (Event W E)) : Prop :=
  ∀ before kind seq bytes after, trace = before ++ .started kind seq bytes :: after →
    ∃ sent cx kind' rest, after = sent ++ .pollFlush cx kind' (.ready (.ok ())) :: rest ∧
      accepted sent = bytes

/-- The trace of an idle line is flushed through. -/
theorem flushedThrough_of_line {trace : List (Event W E)} (h : Line.Run (lineEvents trace) .idle) :
    FlushedThrough trace := by
  intro before kind seq bytes after htrace
  rcases finished_of_line h htrace with ⟨sent, cx, kind', rest, hafter, hsent, -⟩ | ⟨hcurrent, -⟩
  · exact ⟨sent, cx, kind', rest, hafter, hsent⟩
  · cases hcurrent

namespace Reliable

variable {s s' : Reliable T C W E N}
variable [Target]

/-! ## The buffers of the frames -/

theorem Move.config (h : Move s s') : s'.config = s.config := by
  cases h with
  | turn hturn => exact hturn.inner.config
  | _ => rfl

theorem Moves.config (h : Moves s s') : s'.config = s.config := by
  induction h with
  | refl => rfl
  | tail _ hmove ih => exact hmove.config.trans ih

/-- The data buffer is written when a packet is queued, and at no other time. -/
theorem Move.txFrame (h : Move s s') :
    queued s'.trace = queued s.trace ∧ s'.txFrame = s.txFrame ∧ s'.txLen = s.txLen ∨
      ∃ payload, queued s'.trace = queued s.trace ++ [payload] := by
  cases h with
  | env => exact .inl ⟨rfl, rfl, rfl⟩
  | note event houter => exact .inl ⟨by simp [Event.silent (.inr houter) 0], rfl, rfl⟩
  | queue payload => exact .inr ⟨payload, by simp [Event.queued?]⟩
  | deliver => exact .inl ⟨by simp [Event.queued?], rfl, rfl⟩
  | turn hturn =>
      cases hturn with
      | env => exact .inl ⟨rfl, rfl, rfl⟩
      | allow => exact .inl ⟨rfl, rfl, rfl⟩
      | requeue => exact .inl ⟨rfl, rfl, rfl⟩
      | acknowledgeAgain => exact .inl ⟨rfl, rfl, rfl⟩
      | note event hquiet => exact .inl ⟨by simp [Event.silent (.inl hquiet) 0], rfl, rfl⟩
      | _ => exact .inl ⟨by simp [Event.queued?], rfl, rfl⟩

theorem Moves.txFrame (h : Moves s s') : ∃ payloads, queued s'.trace = queued s.trace ++ payloads ∧
    (payloads = [] → s'.txFrame = s.txFrame ∧ s'.txLen = s.txLen) := by
  induction h with
  | refl => exact ⟨[], by simp, fun _ => ⟨rfl, rfl⟩⟩
  | tail _ hmove ih =>
      obtain ⟨payloads, htrace, hsame⟩ := ih
      rcases hmove.txFrame with ⟨htrace', hframe, hlen⟩ | ⟨payload, htrace'⟩
      · exact ⟨payloads, htrace'.trans htrace,
          fun hnil => ⟨hframe.trans (hsame hnil).1, hlen.trans (hsame hnil).2⟩⟩
      · exact ⟨payloads ++ [payload], by rw [htrace', htrace, List.append_assoc], by simp⟩

/-- The acknowledgement buffer is written when an acknowledgement is started. -/
theorem Move.ackFrame (h : Move s s') : ∃ started,
    startedFrames s'.trace = startedFrames s.trace ++ started ∧
      ((∀ f ∈ started, f.frame ≠ .ack) → s'.ackFrame = s.ackFrame ∧ s'.ackLen = s.ackLen) := by
  cases h with
  | env => exact ⟨[], by simp, fun _ => ⟨rfl, rfl⟩⟩
  | note event houter =>
      exact ⟨[], by simp [Event.started?_of_silent (.inr houter)], fun _ => ⟨rfl, rfl⟩⟩
  | queue => exact ⟨[], by simp [Event.started?], fun _ => ⟨rfl, rfl⟩⟩
  | deliver => exact ⟨[], by simp [Event.started?], fun _ => ⟨rfl, rfl⟩⟩
  | turn hturn =>
      cases hturn with
      | env => exact ⟨[], by simp, fun _ => ⟨rfl, rfl⟩⟩
      | allow => exact ⟨[], by simp, fun _ => ⟨rfl, rfl⟩⟩
      | requeue => exact ⟨[], by simp, fun _ => ⟨rfl, rfl⟩⟩
      | acknowledgeAgain => exact ⟨[], by simp, fun _ => ⟨rfl, rfl⟩⟩
      | note event hquiet =>
          exact ⟨[], by simp [Event.started?_of_silent (.inl hquiet)], fun _ => ⟨rfl, rfl⟩⟩
      | startAck seq =>
          exact ⟨[⟨.ack, seq, (Packet.ack s.config.session seq).frame⟩], by simp [Event.started?],
            by simp⟩
      | startData =>
          exact ⟨[⟨.data, UInt32.ofNat (s.txNext - 1), s.frameBytes .data⟩],
            by simp [Event.started?], fun _ => ⟨rfl, rfl⟩⟩
      | _ => exact ⟨[], by simp [Event.started?], fun _ => ⟨rfl, rfl⟩⟩

theorem Moves.ackFrame (h : Moves s s') : ∃ started,
    startedFrames s'.trace = startedFrames s.trace ++ started ∧
      ((∀ f ∈ started, f.frame ≠ .ack) → s'.ackFrame = s.ackFrame ∧ s'.ackLen = s.ackLen) := by
  induction h with
  | refl => exact ⟨[], by simp, fun _ => ⟨rfl, rfl⟩⟩
  | tail _ hmove ih =>
      obtain ⟨started, htrace, hsame⟩ := ih
      obtain ⟨started', htrace', hsame'⟩ := hmove.ackFrame
      refine ⟨started ++ started', by rw [htrace', htrace, List.append_assoc], fun hdata => ?_⟩
      have hbefore := hsame fun f hf => hdata f (List.mem_append_left _ hf)
      have hafter := hsame' fun f hf => hdata f (List.mem_append_right _ hf)
      exact ⟨hafter.1.trans hbefore.1, hafter.2.trans hbefore.2⟩

/-! ## The frame in progress -/

/-- The frame that is being output is the one that was started last. -/
def OutHolds (s : Reliable T C W E N) : Prop :=
  match s.out with
  | .idle => True
  | .writing frame _ => ∃ f, (startedFrames s.trace).getLast? = some f ∧ f.frame = frame
  | .flushing frame => ∃ f, (startedFrames s.trace).getLast? = some f ∧ f.frame = frame

theorem OutHolds.move (h : OutHolds s) (hmove : Move s s') : OutHolds s' := by
  unfold OutHolds at h ⊢
  cases hmove with
  | env => exact h
  | note event houter => simpa [Event.started?_of_silent (.inr houter)] using h
  | queue => simpa [Event.started?] using h
  | deliver => simpa [Event.started?] using h
  | turn hturn =>
      cases hturn with
      | env => exact h
      | allow => exact h
      | requeue => exact h
      | acknowledgeAgain => exact h
      | note event hquiet => simpa [Event.started?_of_silent (.inl hquiet)] using h
      | startAck => simp [Event.started?]
      | startData => simp [Event.started?]
      | write cx frame offset written hout =>
          simp only [hout] at h
          simp only [log_trace, log_out, advance, startedFrames_append, startedFrames_singleton,
            Event.started?, Option.toList_none, List.append_nil]
          -- Both forms of the output after a write name the frame that was being written.
          split_ifs <;> exact h
      | flush => simp
      | _ => simpa [Event.started?] using h

/-! ## Events of a reachable state -/

section Runs

/-- What is known of every state that a run goes through, between two calls or inside one. -/
structure Through (s : Reliable T C W E N) : Prop where
  inv : Inv s
  history : History s
  out : OutHolds s

theorem Through.move (hN : Fits N) (h : Through s) (hmove : Move s s') : Through s' :=
  ⟨h.inv.move hN hmove, h.history.move h.inv hmove, h.out.move hmove⟩

theorem Through.moves (hN : Fits N) (h : Through s) (hmoves : Moves s s') : Through s' :=
  hmoves.keep (fun h hmove => h.move hN hmove) h

theorem through_initial (transport : T) (timer : C) (config : Config) :
    Through (initial N transport timer config : Reliable T C W E N) :=
  ⟨inv_initial transport timer config, history_initial transport timer config, trivial⟩

theorem Reachable.through [Waker W] [Transport T W E] [Timer C W]
    (h : Reachable s) : Through s := by
  obtain ⟨transport, timer, config, hmoves⟩ := h.origin
  exact (through_initial transport timer config).moves h.sound.fits hmoves

/-- Every event of a run is logged by one move between two states it goes through. -/
theorem Moves.through_event (hN : Fits N) {transport : T} {timer : C} {config : Config}
    (h : Moves (initial N transport timer config) s) {before after : List (Event W E)}
    {event : Event W E} (htrace : s.trace = before ++ event :: after) :
    ∃ s₁ s₂ : Reliable T C W E N, Through s₁ ∧ Move s₁ s₂ ∧ s₁.config = s.config ∧
      s₁.trace = before ∧ s₂.trace = before ++ [event] := by
  obtain ⟨s₁, s₂, h₁, h₂, h₃, hbefore, hevent⟩ := h.event rfl htrace
  have hconfig : s.config = s₁.config := (Moves.trans (.of_move h₂) h₃).config
  exact ⟨s₁, s₂, (through_initial transport timer config).moves hN h₁, h₂, hconfig.symm,
    hbefore, hevent⟩

theorem Reachable.event [Waker W] [Transport T W E] [Timer C W] (h : Reachable s)
    {before after : List (Event W E)} {event : Event W E}
    (htrace : s.trace = before ++ event :: after) :
    ∃ s₁ s₂ : Reliable T C W E N, Through s₁ ∧ Move s₁ s₂ ∧ s₁.config = s.config ∧
      s₁.trace = before ∧ s₂.trace = before ++ [event] := by
  obtain ⟨transport, timer, config, hmoves⟩ := h.origin
  exact hmoves.through_event h.sound.fits htrace

/-- A frame is started on an idle line: the owed acknowledgement, or the queued packet. -/
theorem Move.of_started (h : Move s s') {kind : Frame} {seq : UInt32} {bytes : List UInt8}
    (htrace : s'.trace = s.trace ++ [.started kind seq bytes]) :
    s.out = .idle ∧
      (kind = .ack ∧ s.ackPending = some seq ∧ bytes = (Packet.ack s.config.session seq).frame ∨
        kind = .data ∧ s.tx = .queued ∧ seq = UInt32.ofNat (s.txNext - 1) ∧
          bytes = s.frameBytes .data) := by
  cases h with
  | turn hturn =>
      cases hturn with
      | startAck seq' ackFrame ackLen hout hack hlen hframe =>
          obtain ⟨rfl, rfl, rfl⟩ := by simpa using htrace
          exact ⟨hout, .inl ⟨rfl, hack, rfl⟩⟩
      | startData hout hack htx =>
          obtain ⟨rfl, rfl, rfl⟩ := by simpa using htrace
          exact ⟨hout, .inr ⟨rfl, htx, rfl, rfl⟩⟩
      | note event hquiet =>
          obtain rfl := by simpa using htrace
          cases hquiet
      | _ => simp at htrace
  | note event houter =>
      obtain rfl := by simpa using htrace
      cases houter
  | _ => simp at htrace

/-- A packet is queued when no packet is in flight and no data frame is being output. -/
theorem Move.of_queued (h : Move s s') {seq : UInt32} {payload : List UInt8}
    (htrace : s'.trace = s.trace ++ [.queued seq payload]) :
    s.writeReady = true ∧ s.txNext ≤ u32Max ∧ seq = UInt32.ofNat s.txNext := by
  cases h with
  | turn hturn =>
      cases hturn with
      | note event hquiet =>
          obtain rfl := by simpa using htrace
          cases hquiet
      | _ => simp at htrace
  | note event houter =>
      obtain rfl := by simpa using htrace
      cases houter
  | queue _ _ _ hready hnext =>
      obtain ⟨rfl, -⟩ := by simpa using htrace
      exact ⟨hready, hnext, rfl⟩
  | _ => simp at htrace

/-- A payload is retained under the number of payloads retained before. -/
theorem Move.of_retained (h : Move s s') {seq : UInt32} {payload : List UInt8}
    (htrace : s'.trace = s.trace ++ [.retained seq payload]) : seq.toNat = s.rxNext := by
  cases h with
  | turn hturn =>
      cases hturn with
      | note event hquiet =>
          obtain rfl := by simpa using htrace
          cases hquiet
      | retain seq' payload' _ _ _ hseq =>
          obtain ⟨rfl, rfl⟩ := by simpa using htrace
          exact hseq
      | _ => simp at htrace
  | note event houter =>
      obtain rfl := by simpa using htrace
      cases houter
  | _ => simp at htrace

/-- A frame is flushed when it is in progress. -/
theorem Move.of_flushed (h : Move s s') {cx : W} {frame : Frame}
    (htrace : s'.trace = s.trace ++ [.pollFlush cx frame (.ready (.ok ()))]) :
    s.out = .flushing frame := by
  cases h with
  | turn hturn =>
      cases hturn with
      | note event hquiet =>
          obtain rfl := by simpa using htrace
          cases hquiet
      | flush cx' frame' hout =>
          obtain ⟨rfl, rfl⟩ := by simpa using htrace
          exact hout
      | _ => simp at htrace
  | note event houter =>
      obtain rfl := by simpa using htrace
      cases houter
  | _ => simp at htrace

/-- A frame in the trace is genuine. -/
theorem Reachable.genuine [Waker W] [Transport T W E] [Timer C W] (h : Reachable s)
    {before after : List (Event W E)} {kind : Frame}
    {seq : UInt32} {bytes : List UInt8}
    (htrace : s.trace = before ++ .started kind seq bytes :: after) :
    Sent.Genuine N s.config.session (retained before).length (written s.trace)
      ⟨kind, seq, bytes⟩ := by
  obtain ⟨s₁, s₂, h₁, hmove, hconfig, rfl, hs₂⟩ := h.event htrace
  rw [← hconfig]
  obtain ⟨-, ⟨rfl, hack, rfl⟩ | ⟨rfl, htx, rfl, rfl⟩⟩ := hmove.of_started hs₂
  · have hnext := h₁.inv.ack_next hack
    have hcount := h₁.history.counts.rxNext
    exact ⟨by omega, encodesAck _ _⟩
  · have hbusy : s₁.tx ≠ .idle ∨ s₁.dataOutBusy := .inl (by simp [htx])
    obtain ⟨payload, hlast, hlen, hframe⟩ := h₁.history.frame hbusy
    have hpos := h₁.history.frame.txNext_pos h₁.history.counts hbusy
    have hcount := h₁.history.counts.txNext
    have hseq : (UInt32.ofNat (s₁.txNext - 1)).toNat = (queued s₁.trace).length - 1 := by
      have hle := h₁.inv.txNext_le
      rw [toNat_ofNat_of_le (by omega), hcount]
    refine ⟨payload, ?_, hframe ▸ encodesData h.sound.fits hlen⟩
    rw [h.accounts.written_eq, htrace, queued_append, List.getElem?_append_left (by omega), hseq,
      ← List.getLast?_eq_getElem?, hlast]

/-- What is on the wire while the line is idle. -/
theorem Through.framed_idle (h : Through s) (hout : s.out = .idle) :
    Framed s.trace (startedFrames s.trace) [] := by
  obtain ⟨complete, current, hframed, hcurrent⟩ := framed_of_line h.history.line
  obtain rfl : current = [] := by simpa [line, hout, Line.State.current] using hcurrent
  rwa [show complete = startedFrames s.trace by simpa using hframed.1.symm] at hframed

/-- Only an acknowledgement may be in progress while a packet can be queued. -/
theorem Through.framed_ready (h : Through s) (hready : s.writeReady = true) :
    ∃ complete current, Framed s.trace complete current ∧ ∀ f ∈ current, f.frame = .ack := by
  obtain ⟨complete, current, hframed, -⟩ := framed_of_line h.history.line
  by_cases hout : s.out = .idle
  · exact ⟨_, [], h.framed_idle hout, by simp⟩
  · refine ⟨complete, current, hframed, fun f hf => ?_⟩
    have hbusy := (writeReady_iff.mp hready).2
    -- the line is busy with the last frame that was started, and that is no data frame
    have hlast : ∃ g, (startedFrames s.trace).getLast? = some g ∧ g.frame = .ack := by
      have hholds := h.out
      unfold OutHolds at hholds
      cases hs : s.out with
      | idle => exact absurd hs hout
      | writing frame offset =>
          cases frame with
          | ack => simpa [hs] using hholds
          | data => simp [dataOutBusy, hs] at hbusy
      | flushing frame =>
          cases frame with
          | ack => simpa [hs] using hholds
          | data => simp [dataOutBusy, hs] at hbusy
    obtain ⟨g, hg, hack⟩ := hlast
    obtain ⟨hstarted, hlen, -⟩ := hframed
    obtain rfl : current = [f] := by
      obtain ⟨g, rfl⟩ := List.length_eq_one_iff.mp
        (Nat.le_antisymm hlen (List.length_pos_of_mem hf))
      rw [List.mem_singleton.mp hf]
    rw [hstarted, List.getLast?_concat] at hg
    exact Option.some.inj hg ▸ hack

/-! ## The output stream -/

variable [Waker W] [Transport T W E] [Timer C W]

/-- What holds of everything the transport accepted, at every moment of a run. -/
structure OutputStream (s : Reliable T C W E N) : Prop where
  /-- Frames in whole, and a part of one more. -/
  framed : ∀ t, t <+: s.trace → ∃ complete current, Framed t complete current
  /-- Every frame is an output of the encoder. -/
  genuine : ∀ t, t <+: s.trace → ∀ f ∈ startedFrames t,
    f.Genuine N s.config.session (retained t).length (written s.trace)
  rxNext_eq : (retained s.trace).length = s.rxNext
  /-- Numbers of data frames never decrease, and a retransmission is the same frame again. -/
  ordered : (startedFrames s.trace).Pairwise fun f g => f.frame = .data → g.frame = .data →
    f.seq ≤ g.seq ∧ (f.seq = g.seq → f.bytes = g.bytes)
  /-- A packet is encoded when every byte of every data frame before was accepted. -/
  queued_between : ∀ t seq payload, t ++ [.queued seq payload] <+: s.trace →
    ∃ complete current, Framed t complete current ∧ ∀ f ∈ current, f.frame = .ack
  /-- An acknowledgement is encoded when every byte of every frame before was accepted. -/
  acknowledged_between : ∀ t seq bytes, t ++ [.started .ack seq bytes] <+: s.trace →
    Framed t (startedFrames t) []
  /-- At no other time is a frame buffer written. -/
  unwritten : ∀ s', Run s s' →
    (queued s'.trace = queued s.trace → s'.txFrame = s.txFrame ∧ s'.txLen = s.txLen) ∧
      ∃ started, startedFrames s'.trace = startedFrames s.trace ++ started ∧
        ((∀ f ∈ started, f.frame ≠ .ack) → s'.ackFrame = s.ackFrame ∧ s'.ackLen = s.ackLen)
  /-- After its acknowledgement a packet is not sent again. -/
  released_last : ∀ t u seq, s.trace = t ++ .released seq :: u →
    ∀ f ∈ startedFrames u, f.frame = .data → seq < f.seq

omit [Target] [Waker W] in
/-- Frames and their kinds and numbers of a trace, as events. -/
theorem mem_startedFrames {t : List (Event W E)} {f : Sent} (hf : f ∈ startedFrames t) :
    ∃ before after, t = before ++ .started f.frame f.seq f.bytes :: after := by
  obtain ⟨event, hevent, hstarted⟩ := List.mem_filterMap.mp hf
  obtain ⟨before, after, rfl⟩ := List.append_of_mem hevent
  refine ⟨before, after, ?_⟩
  cases event <;> simp_all [Event.started?]
  subst hstarted
  exact ⟨rfl, rfl, rfl⟩

/-- The output of every reachable connection is a stream of genuine frames. -/
theorem Reachable.outputStream (h : Reachable s) : OutputStream s where
  framed := by
    rintro t ⟨rest, htrace⟩
    have hline := h.history.line
    rw [← htrace, lineEvents_append] at hline
    obtain ⟨state, hbefore⟩ := hline.before
    obtain ⟨complete, current, hframed, -⟩ := framed_of_line hbefore
    exact ⟨complete, current, hframed⟩
  genuine := by
    rintro t ⟨rest, htrace⟩ f hf
    obtain ⟨before, after, rfl⟩ := mem_startedFrames hf
    obtain ⟨kind, seq, bytes⟩ := f
    have hsplit : s.trace = before ++ .started kind seq bytes :: (after ++ rest) := by
      rw [← htrace, List.append_assoc]
      rfl
    have hgenuine := h.genuine hsplit
    cases kind with
    | ack =>
        refine ⟨hgenuine.1.trans_le ?_, hgenuine.2⟩
        rw [retained_append, List.length_append]
        exact Nat.le_add_right _ _
    | data => exact hgenuine
  rxNext_eq := h.history.counts.rxNext
  ordered := by
    refine h.history.order.1.imp_of_mem fun {f g} hf hg horder hfdata hgdata =>
      ⟨horder hfdata hgdata, fun hseq => ?_⟩
    obtain ⟨before, after, htrace⟩ := mem_startedFrames hf
    obtain ⟨before', after', htrace'⟩ := mem_startedFrames hg
    have hgenuine := h.genuine htrace
    have hgenuine' := h.genuine htrace'
    rw [hfdata] at hgenuine
    rw [hgdata] at hgenuine'
    obtain ⟨payload, hpayload, hbytes⟩ := hgenuine
    obtain ⟨payload', hpayload', hbytes'⟩ := hgenuine'
    rw [hseq, hpayload', Option.some_inj] at hpayload
    subst hpayload
    exact (hseq ▸ hbytes).unique hbytes'
  queued_between := by
    rintro t seq payload ⟨after, htrace⟩
    rw [List.append_assoc] at htrace
    obtain ⟨s₁, s₂, h₁, hmove, -, rfl, hs₂⟩ := h.event htrace.symm
    exact h₁.framed_ready (hmove.of_queued hs₂).1
  acknowledged_between := by
    rintro t seq bytes ⟨after, htrace⟩
    rw [List.append_assoc] at htrace
    obtain ⟨s₁, s₂, h₁, hmove, -, rfl, hs₂⟩ := h.event htrace.symm
    exact h₁.framed_idle (hmove.of_started hs₂).1
  unwritten := by
    intro s' hrun
    have hmoves := Run.moves h.sound hrun
    obtain ⟨payloads, htrace, hsame⟩ := hmoves.txFrame
    exact ⟨fun hqueued => hsame (by simpa [hqueued] using htrace), hmoves.ackFrame⟩
  released_last := by
    intro t u seq htrace f hf hdata
    obtain ⟨before, after, rfl⟩ := mem_startedFrames hf
    rw [hdata, ← List.cons_append, ← List.append_assoc] at htrace
    obtain ⟨s₁, s₂, h₁, hmove, -, hs₁, hs₂⟩ := h.event htrace
    obtain ⟨-, ⟨hkind, -⟩ | ⟨-, htx, hseq, -⟩⟩ := hmove.of_started (hs₁ ▸ hs₂)
    · cases hkind
    · -- A data frame starts while a packet is queued, so the last number is not yet released.
      have hreleased := h₁.history.released seq (by simp [hs₁])
      have hle := h₁.inv.txNext_le
      have hnat : f.seq.toNat = s₁.txNext - 1 := by rw [hseq, toNat_ofNat_of_le (by omega)]
      rw [UInt32.lt_iff_toNat_lt]
      simp only [htx, reduceCtorEq, and_false, or_false] at hreleased
      omega

omit [Target] in
/-- The stream of a connection that sent one packet and acknowledged none. -/
theorem outputStream_packet : letI := target64
    ∃ s, (testConnection []).calls [.write 1 [5]] = some s ∧ (accepted s.trace).length = 21 ∧
      OutputStream s := by
  let := target64
  obtain ⟨s, hs⟩ := Option.isSome_iff_exists.mp
    (show ((testConnection []).calls [.write 1 [5]]).isSome by decide +kernel)
  have hlength : ((testConnection []).calls [.write 1 [5]]).map
      (fun s => (accepted s.trace).length) = some 21 := by decide +kernel
  rw [hs] at hlength
  exact ⟨s, hs, Option.some.inj hlength, (reachable_testConnection hs).outputStream⟩

end Runs

end Reliable

end CobsIoAsync.Connection
