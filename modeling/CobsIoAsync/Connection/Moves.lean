import CobsIoAsync.Connection.Trace
import CobsIoAsync.Protocol.RoundTrip

/-!
# Connection.Moves — what can happen to packets and frames

Whatever a connection is asked to do, its packets, frames and sequence numbers change by one of
the moves below: a turn inside `step`, or what the public methods add to it.  A turn leaves open how
the transport, the timer and the receive buffer change, and a move the health and the waiters too.
Everything said later about packets over whole runs is proved by one case analysis of `Move`.
-/

namespace CobsIoAsync.Connection

open Reasoning Protocol

/-- Events inside `step` that come with no change of packets and frames. -/
def Event.quiet {W E : Type} : Event W E → Bool
  | .pollWrite _ _ _ (.ready (.ok (_ + 1))) => false
  | .pollFlush _ _ (.ready (.ok _)) => false
  | .step | .stepped .. | .pollRead .. | .pollWrite .. | .pollFlush .. | .now .. => true
  | .pollDeadline .. | .wakeByRef .. | .frame .. | .decoded .. | .timedOut => true
  | _ => false

/-- Events outside `step` that come with no change of packets and frames. -/
def Event.outer {W E : Type} : Event W E → Bool
  | .wake .. | .exhausted | .returned .. => true
  | _ => false

namespace Reliable

variable [Target] {T C W E : Type} {N : Nat}

/-- The output machine after the transport took `written` bytes from `offset` on. -/
def advance (s : Reliable T C W E N) (frame : Frame) (offset written : Nat) : Out :=
  if offset + written = (s.frameBytes frame).length then .flushing frame
  else .writing frame (offset + written)

/-- The transmit state after a frame was flushed. -/
def txAfterFlush (s : Reliable T C W E N) (frame : Frame) : Tx :=
  if frame = .data ∧ s.tx = .sending then .waiting else s.tx

/-- One change of the packets and frames of a connection inside `step`. -/
inductive Turn : Reliable T C W E N → Reliable T C W E N → Prop
  /-- A change of nothing but the surroundings. -/
  | env (s : Reliable T C W E N) (transport : T) (timer : C) (rxBuf scratch : Bytes N)
      (rxLen : Nat) (rxDiscarding : Bool) (txDeadline : UInt64) :
      Turn s { s with transport, timer, rxBuf, scratch, rxLen, rxDiscarding, txDeadline }
  | note (s : Reliable T C W E N) (event : Event W E) (h : event.quiet) : Turn s (s.log event)
  /-- The final input allowance is granted, used or taken back. -/
  | allow (s : Reliable T C W E N) (finalInput : Option Nat)
      (h : finalInput.isSome → s.tx = .waiting) : Turn s { s with finalInput }
  | startAck (s : Reliable T C W E N) (seq : UInt32) (ackFrame : Bytes ackFrameLen) (ackLen : Nat)
      (hout : s.out = .idle) (hack : s.ackPending = some seq)
      (hlen : ackLen = (Packet.ack s.config.session seq).frame.length)
      (hframe : ackFrame.toList.take ackLen = (Packet.ack s.config.session seq).frame) :
      Turn s ({ s with
        ackPending := none, ackLen, ackFrame, out := .writing .ack 0 }.log
          (.started .ack seq (Packet.ack s.config.session seq).frame))
  | startData (s : Reliable T C W E N) (hout : s.out = .idle) (hack : s.ackPending = none)
      (htx : s.tx = .queued) :
      Turn s ({ s with tx := .sending, out := .writing .data 0 }.log
        (.started .data (UInt32.ofNat (s.txNext - 1)) (s.frameBytes .data)))
  | write (s : Reliable T C W E N) (cx : W) (frame : Frame) (offset written : Nat)
      (hout : s.out = .writing frame offset) (hwritten : written ≠ 0) :
      Turn s ({ s with
        out := s.advance frame offset
          (min written ((s.frameBytes frame).drop offset).length) }.log
          (.pollWrite cx frame ((s.frameBytes frame).drop offset) (.ready (.ok written))))
  | flush (s : Reliable T C W E N) (cx : W) (frame : Frame) (hout : s.out = .flushing frame) :
      Turn s ({ s with
        out := .idle
        tx := s.txAfterFlush frame }.log
          (.pollFlush cx frame (.ready (.ok ()))))
  | requeue (s : Reliable T C W E N) (htx : s.tx = .waiting)
      (hretries : s.txRetries < s.config.maxRetries.toNat) :
      Turn s { s with finalInput := none, txRetries := s.txRetries + 1, tx := .queued }
  | parse (s : Reliable T C W E N) (packet : Packet) : Turn s (s.log (.parsed packet))
  | release (s : Reliable T C W E N) (seq : UInt32)
      (hparsed : .parsed (.ack s.config.session seq) ∈ s.trace) (htx : s.tx ≠ .idle)
      (hseq : seq.toNat + 1 = s.txNext) :
      Turn s ({ s with tx := .idle, txRetries := 0, finalInput := none }.log (.released seq))
  | retain (s : Reliable T C W E N) (seq : UInt32) (payload : List UInt8) (rxPayload : Bytes N)
      (hparsed : .parsed (.data s.config.session seq payload) ∈ s.trace)
      (hlen : payload.length ≤ maxPayload N) (hseq : seq.toNat = s.rxNext)
      (hempty : s.rxStart = s.rxEnd)
      (hpayload : rxPayload.toList.take payload.length = payload) :
      Turn s ({ s with
        rxPayload, rxStart := 0, rxEnd := payload.length, rxNext := s.rxNext + 1
        ackPending := some seq }.log (.retained seq payload))
  | acknowledgeAgain (s : Reliable T C W E N) (seq : UInt32) (hrx : 0 < s.rxNext)
      (hseq : seq.toNat = s.rxNext - 1) (hack : s.ackPending = none) :
      Turn s { s with ackPending := some seq }

/-- One change of the packets and frames of a connection. -/
inductive Move : Reliable T C W E N → Reliable T C W E N → Prop
  | turn {s s' : Reliable T C W E N} (h : Turn s s') : Move s s'
  | env (s : Reliable T C W E N) (health : Health E) (waiters : Waiters W) :
      Move s { s with health, waiters }
  | note (s : Reliable T C W E N) (event : Event W E) (h : event.outer) : Move s (s.log event)
  | queue (s : Reliable T C W E N) (payload : List UInt8) (txFrame : Bytes N) (txLen : Nat)
      (hready : s.writeReady) (hnext : s.txNext ≤ u32Max) (hne : payload ≠ [])
      (hpayload : payload.length ≤ maxPayload N)
      (hlen : txLen = (Packet.data s.config.session (UInt32.ofNat s.txNext) payload).frame.length)
      (hframe : txFrame.toList.take txLen =
        (Packet.data s.config.session (UInt32.ofNat s.txNext) payload).frame) :
      Move s ({ s with
        txFrame, txLen, txNext := s.txNext + 1, txRetries := 0, tx := .queued }.log
          (.queued (UInt32.ofNat s.txNext) payload))
  | deliver (s : Reliable T C W E N) (stop : Nat) (hstart : s.rxStart ≤ stop)
      (hstop : stop ≤ s.rxEnd) :
      Move s ({ s with rxStart := stop }.log
        (.delivered ((s.rxPayload.toList.take stop).drop s.rxStart)))

/-- Any number of turns, and of moves. -/
def Turns : Reliable T C W E N → Reliable T C W E N → Prop := Relation.ReflTransGen Turn

def Moves : Reliable T C W E N → Reliable T C W E N → Prop := Relation.ReflTransGen Move

variable {s s' s'' : Reliable T C W E N}

namespace Turns

theorem refl (s : Reliable T C W E N) : Turns s s := Relation.ReflTransGen.refl

theorem trans (h : Turns s s') (h' : Turns s' s'') : Turns s s'' :=
  Relation.ReflTransGen.trans h h'

theorem of_turn (h : Turn s s') : Turns s s' := .single h

theorem tail (h : Turns s s') (h' : Turn s' s'') : Turns s s'' := Relation.ReflTransGen.tail h h'

theorem note (h : Turns s s') (event : Event W E) (hquiet : event.quiet) :
    Turns s (s'.log event) :=
  h.tail (.note _ _ hquiet)

end Turns

namespace Moves

theorem refl (s : Reliable T C W E N) : Moves s s := Relation.ReflTransGen.refl

theorem trans (h : Moves s s') (h' : Moves s' s'') : Moves s s'' :=
  Relation.ReflTransGen.trans h h'

theorem of_move (h : Move s s') : Moves s s' := .single h

theorem tail (h : Moves s s') (h' : Move s' s'') : Moves s s'' := Relation.ReflTransGen.tail h h'

theorem note (h : Moves s s') (event : Event W E) (houter : event.outer) :
    Moves s (s'.log event) :=
  h.tail (.note _ _ houter)

/-- What every move keeps, any number of them keep. -/
theorem keep {P : Reliable T C W E N → Prop} (hstep : ∀ {s s'}, P s → Move s s' → P s')
    (h : Moves s s') (hs : P s) : P s' := by
  induction h with
  | refl => exact hs
  | tail _ hmove ih => exact hstep ih hmove

end Moves

theorem Turns.moves (h : Turns s s') : Moves s s' := by
  induction h with
  | refl => exact .refl s
  | tail _ hturn ih => exact ih.tail (.turn hturn)

/-! ## The invariant of the packets and frames -/

/-- The capacity that `new` accepts. -/
structure Fits (N : Nat) : Prop where
  maxPayload_eq : Protocol.maxPayload N = some (maxPayload N)
  maxPayload_pos : 0 < maxPayload N
  room : N + ackFrameLen ≤ Target.usizeMax

/-- The ranges of the fields and what they say about one another. -/
structure Inv (s : Reliable T C W E N) : Prop where
  rxStart_le : s.rxStart ≤ s.rxEnd
  rxEnd_le : s.rxEnd ≤ maxPayload N
  txLen_pos : s.tx ≠ .idle ∨ s.dataOutBusy → 0 < s.txLen
  txLen_le : s.txLen ≤ N
  ackLen_le : s.ackLen ≤ ackFrameLen
  offset_lt : ∀ {frame offset}, s.out = .writing frame offset → offset < (s.frameBuffer frame).2
  busy_of_sending : s.tx = .sending → s.dataOutBusy
  tx_of_busy : s.dataOutBusy → s.tx = .sending ∨ s.tx = .idle
  waiting_of_final : s.finalInput.isSome → s.tx = .waiting
  ack_next : ∀ {seq}, s.ackPending = some seq → seq.toNat + 1 = s.rxNext
  retries_le : s.txRetries ≤ s.config.maxRetries.toNat
  txNext_le : s.txNext ≤ u32Max + 1
  rxNext_le : s.rxNext ≤ u32Max + 1

theorem length_frameBytes (h : Inv s) (frame : Frame) :
    (s.frameBytes frame).length = (s.frameBuffer frame).2 := by
  cases frame with
  | ack => simpa [frameBytes, frameBuffer] using h.ackLen_le
  | data => simpa [frameBytes, frameBuffer] using h.txLen_le

section

omit [Target]

theorem frame_length_pos (p : Packet) : 0 < p.frame.length := by
  simp [Packet.frame, Sync.delimited]

theorem toNat_le_u32Max (seq : UInt32) : seq.toNat ≤ u32Max := by
  have := seq.toNat_lt
  simp only [u32Max]
  omega

theorem not_busy_of_idle (h : s.out = .idle) : s.dataOutBusy = false := by simp [dataOutBusy, h]

theorem writeReady_iff : s.writeReady = true ↔ s.tx = .idle ∧ s.dataOutBusy = false := by
  simp [writeReady]

/-- Writing goes on with the same frame. -/
theorem dataOutBusy_advance {frame : Frame} {offset : Nat} (hout : s.out = .writing frame offset)
    (n : Nat) : ({ s with out := s.advance frame offset n } : Reliable T C W E N).dataOutBusy =
      s.dataOutBusy := by
  by_cases hend : offset + n = (s.frameBytes frame).length <;>
    cases frame <;> simp [dataOutBusy, advance, hout, hend]

theorem txAfterFlush_eq_idle {frame : Frame} : s.txAfterFlush frame = .idle ↔ s.tx = .idle := by
  unfold txAfterFlush
  split
  · rename_i h
    simp [h.2]
  · rfl

end

/-- A turn keeps the packet in flight, or releases it. -/
theorem Turns.flight (h : Turns s s') :
    s'.txNext = s.txNext ∧ (s'.tx ≠ .idle → s.tx ≠ .idle) := by
  induction h with
  | refl => exact ⟨rfl, id⟩
  | tail _ hturn ih =>
      obtain ⟨hnext, htx⟩ := ih
      cases hturn with
      | flush cx frame hout => exact ⟨hnext, fun hne => htx fun hidle =>
          hne (txAfterFlush_eq_idle.mpr hidle)⟩
      | startData hout hack hqueued => exact ⟨hnext, fun _ => htx (by simp [hqueued])⟩
      | requeue hwaiting => exact ⟨hnext, fun _ => htx (by simp [hwaiting])⟩
      | release => exact ⟨hnext, fun hne => absurd rfl hne⟩
      | _ => exact ⟨hnext, htx⟩

/-- Every turn keeps the invariant. -/
theorem Inv.turn (h : Inv s) (hturn : Turn s s') : Inv s' := by
  cases hturn with
  | env => exact { h with }
  | note => exact { h with }
  | parse => exact { h with }
  | allow left hleft => exact { h with waiting_of_final := hleft }
  | startAck seq ackFrame ackLen hout hack hlen hframe =>
      have hidle := not_busy_of_idle hout
      refine { h with
        txLen_pos := ?_, ackLen_le := ?_, offset_lt := ?_, busy_of_sending := ?_,
        tx_of_busy := ?_, ack_next := ?_ }
      · exact fun hbusy => h.txLen_pos (hbusy.imp_right (by simp [dataOutBusy, log]))
      · exact hlen ▸ length_ack_frame_le _ _
      · rintro frame offset ⟨⟩
        exact hlen ▸ frame_length_pos _
      · exact fun htx => absurd (h.busy_of_sending htx) (by simp [hidle])
      · simp [dataOutBusy, log]
      · simp [log]
  | startData hout hack htx =>
      refine { h with
        txLen_pos := ?_, offset_lt := ?_, busy_of_sending := ?_, tx_of_busy := ?_,
        waiting_of_final := ?_ }
      · exact fun _ => h.txLen_pos (.inl (by simp [htx]))
      · rintro frame offset ⟨⟩
        exact h.txLen_pos (.inl (by simp [htx]))
      · simp [dataOutBusy, log]
      · simp [log]
      · exact fun hfinal => absurd (h.waiting_of_final hfinal) (by simp [htx])
  | write cx frame offset written hout hwritten =>
      -- What is written of a frame is dropped from its offset, and the rest is not empty.
      have hlt := h.offset_lt hout
      have hlen := length_frameBytes h frame
      have hbusy := dataOutBusy_advance hout
      refine { h with
        txLen_pos := ?_, offset_lt := ?_, busy_of_sending := ?_, tx_of_busy := ?_ }
      · exact fun hb => h.txLen_pos (hb.imp_right fun hb => (hbusy _).symm.trans hb)
      · intro frame' offset' hout'
        simp only [log, advance] at hout'
        split at hout'
        · cases hout'
        · cases hout'
          simp only [List.length_drop] at *
          change _ < (s.frameBuffer frame).2
          omega
      · exact fun htx => (hbusy _).trans (h.busy_of_sending htx)
      · exact fun hb => h.tx_of_busy ((hbusy _).symm.trans hb)
  | flush cx frame hout =>
      refine { h with
        txLen_pos := ?_, offset_lt := ?_, busy_of_sending := ?_, tx_of_busy := ?_,
        waiting_of_final := ?_ }
      · rintro (htx | hb)
        · exact h.txLen_pos (.inl fun hidle => htx (txAfterFlush_eq_idle.mpr hidle))
        · simp [dataOutBusy, log] at hb
      · simp [log]
      · intro htx
        simp only [log, txAfterFlush] at htx
        split at htx
        · cases htx
        · rename_i hnot
          have hb := h.busy_of_sending htx
          cases frame <;> simp_all [dataOutBusy]
      · simp [dataOutBusy, log]
      · intro hfinal
        -- A last transmission is waited for, and waiting is not what a flush ends.
        have hwaiting := h.waiting_of_final hfinal
        simp [log, txAfterFlush, hwaiting]
  | requeue htx hretries =>
      refine { h with
        txLen_pos := ?_, busy_of_sending := ?_, tx_of_busy := ?_, waiting_of_final := ?_,
        retries_le := hretries }
      · exact fun _ => h.txLen_pos (.inl (by simp [htx]))
      · simp
      · exact fun hb => absurd (h.tx_of_busy hb) (by simp [htx])
      · simp
  | release seq hparsed htx hseq =>
      refine { h with
        txLen_pos := ?_, busy_of_sending := ?_, tx_of_busy := ?_, waiting_of_final := ?_,
        retries_le := Nat.zero_le _ }
      · exact fun _ => h.txLen_pos (.inl htx)
      · simp [log]
      · simp [log]
      · simp [log]
  | retain seq payload rxPayload hparsed hlen hseq hempty hpayload =>
      refine { h with
        rxStart_le := Nat.zero_le _, rxEnd_le := hlen, ack_next := ?_, rxNext_le := ?_ }
      · rintro seq' ⟨⟩
        simp only [log]
        omega
      · have := toNat_le_u32Max seq
        simp only [log]
        omega
  | acknowledgeAgain seq hrx hseq hack =>
      refine { h with ack_next := ?_ }
      rintro seq' ⟨⟩
      simp only
      omega

/-- Every move keeps the invariant. -/
theorem Inv.move (hN : Fits N) (h : Inv s) (hmove : Move s s') : Inv s' := by
  cases hmove with
  | turn hturn => exact h.turn hturn
  | env => exact { h with }
  | note => exact { h with }
  | queue payload txFrame txLen hready hnext hne hpayload hlen hframe =>
      obtain ⟨htx, hbusy⟩ := writeReady_iff.mp hready
      have hpos := frame_length_pos (.data s.config.session (UInt32.ofNat s.txNext) payload)
      have hle := length_data_frame_le hN.maxPayload_eq hN.maxPayload_pos s.config.session
        (UInt32.ofNat s.txNext) hpayload
      refine { h with
        txLen_pos := fun _ => hlen ▸ hpos, txLen_le := hlen ▸ hle, offset_lt := ?_,
        busy_of_sending := ?_, tx_of_busy := ?_, waiting_of_final := ?_,
        retries_le := Nat.zero_le _, txNext_le := Nat.succ_le_succ hnext }
      · intro frame offset hout
        cases frame with
        | ack => exact h.offset_lt hout
        | data => exact absurd hbusy (by simpa [dataOutBusy] using by rw [show s.out = _ from hout])
      · simp [log]
      · exact fun hb => absurd (hbusy.symm.trans hb) (by simp)
      · exact fun hfinal => absurd (h.waiting_of_final hfinal) (by simp [htx])
  | deliver stop hstart hstop => exact { h with rxStart_le := hstop }

theorem Inv.turns (h : Inv s) (hturns : Turns s s') : Inv s' := by
  induction hturns with
  | refl => exact h
  | tail _ hturn ih => exact ih.turn hturn

theorem Inv.moves (hN : Fits N) (h : Inv s) (hmoves : Moves s s') : Inv s' :=
  hmoves.keep (fun h hmove => h.move hN hmove) h

end Reliable

end CobsIoAsync.Connection
