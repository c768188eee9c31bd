import CobsIoAsync.Connection.Invariant
import CobsIoAsync.Reasoning.Line
import CobsIoAsync.Reasoning.StopAndWait

/-!
# Connection.History — the trace of a connection and its state

A connection refines two general machines.  Its output is a serial line, and its sequence numbers
are those of a stop-and-wait endpoint; both read their history off the trace.  Each move of the
connection is at most one step of each machine.
-/

namespace CobsIoAsync.Connection

open Reasoning Protocol

variable {T C W E : Type} {N : Nat}

/-! ## The line -/

/-- What an event is for the output line. -/
def Event.line? : Event W E → Option (Line.Event UInt8)
  | .started _ _ bytes => some (.start bytes)
  | .pollWrite _ _ pending (.ready (.ok (written + 1))) =>
    some (.accept (pending.take (written + 1)))
  | .pollFlush _ _ (.ready (.ok _)) => some .flush
  | _ => none

/-- The history of the output line. -/
def lineEvents (trace : List (Event W E)) : List (Line.Event UInt8) :=
  trace.filterMap Event.line?

@[simp] theorem lineEvents_append (t u : List (Event W E)) :
    lineEvents (t ++ u) = lineEvents t ++ lineEvents u := List.filterMap_append

@[simp] theorem lineEvents_singleton (e : Event W E) : lineEvents [e] = e.line?.toList := by
  cases h : e.line? <;> simp [lineEvents, h]

theorem Event.line?_of_silent {e : Event W E} (h : e.quiet ∨ e.outer) : e.line? = none := by
  unfold Event.line?
  split <;> simp_all [Event.quiet, Event.outer]

theorem Event.acceptedBytes_eq (e : Event W E) :
    e.acceptedBytes = Line.accepted e.line?.toList := by
  cases e with
  | pollWrite cx frame pending poll =>
      cases poll with
      | pending => rfl
      | ready result =>
          cases result with
          | error _ => rfl
          | ok written =>
              cases written with
              | zero => rfl
              | succ written => simp [acceptedBytes, line?, Line.accepted]
  | pollFlush cx frame poll =>
      cases poll with
      | pending => rfl
      | ready result => cases result <;> rfl
  | _ => rfl

theorem Event.started?_eq (e : Event W E) :
    (e.started?.map Sent.bytes).toList = Line.started e.line?.toList := by
  cases e with
  | pollWrite cx frame pending poll =>
      cases poll with
      | pending => rfl
      | ready result =>
          cases result with
          | error _ => rfl
          | ok written => cases written <;> rfl
  | pollFlush cx frame poll =>
      cases poll with
      | pending => rfl
      | ready result => cases result <;> rfl
  | _ => rfl

/-- The bytes on the line are the bytes the transport accepted. -/
theorem accepted_lineEvents (trace : List (Event W E)) :
    Line.accepted (lineEvents trace) = accepted trace := by
  induction trace with
  | nil => rfl
  | cons e trace ih =>
      rw [← List.singleton_append, lineEvents_append, accepted_append, ← ih, lineEvents_singleton,
        accepted_singleton, Event.acceptedBytes_eq, Line.accepted_append]

/-- The frames on the line are the frames that were started. -/
theorem started_lineEvents (trace : List (Event W E)) :
    Line.started (lineEvents trace) = (startedFrames trace).map Sent.bytes := by
  induction trace with
  | nil => rfl
  | cons e trace ih =>
      rw [← List.singleton_append, lineEvents_append, startedFrames_append, List.map_append, ← ih,
        lineEvents_singleton, startedFrames_singleton, ← Option.toList_map, Event.started?_eq,
        Line.started_append]

/-! ## The endpoint -/

/-- What an event says to the peer: a packet is encoded, or an acknowledgement. -/
def Event.said? : Event W E → Option (StopAndWait.Message (List UInt8))
  | .queued seq payload => some (.item seq.toNat payload)
  | .started .ack seq _ => some (.ack seq.toNat)
  | _ => none

/-- What an event hears from the peer: a packet of the session is parsed. -/
def Event.heard? (session : UInt64) : Event W E → Option (StopAndWait.Message (List UInt8))
  | .parsed (.data session' seq payload) =>
    if session' = session then some (.item seq.toNat payload) else none
  | .parsed (.ack session' seq) => if session' = session then some (.ack seq.toNat) else none
  | _ => none

/-- The messages encoded by a connection. -/
def said (trace : List (Event W E)) : List (StopAndWait.Message (List UInt8)) :=
  trace.filterMap Event.said?

/-- The messages of a session parsed by a connection. -/
def heard (session : UInt64) (trace : List (Event W E)) :
    List (StopAndWait.Message (List UInt8)) :=
  trace.filterMap (Event.heard? session)

@[simp] theorem said_append (t u : List (Event W E)) : said (t ++ u) = said t ++ said u :=
  List.filterMap_append

@[simp] theorem heard_append (session : UInt64) (t u : List (Event W E)) :
    heard session (t ++ u) = heard session t ++ heard session u := List.filterMap_append

@[simp] theorem said_singleton (e : Event W E) : said [e] = e.said?.toList := by
  cases h : e.said? <;> simp [said, h]

@[simp] theorem heard_singleton (session : UInt64) (e : Event W E) :
    heard session [e] = (e.heard? session).toList := by
  cases h : e.heard? session <;> simp [heard, h]

/-- Whether a packet is accepted and not yet acknowledged. -/
def Tx.inFlight : Tx → Bool
  | .idle => false
  | _ => true

theorem Tx.inFlight_eq_false {tx : Tx} : tx.inFlight = false ↔ tx = .idle := by
  cases tx <;> simp [inFlight]

/-- Silent events change no sequence that concerns packets. -/
theorem Event.silent {e : Event W E} (h : e.quiet ∨ e.outer) (session : UInt64) :
    e.queued? = none ∧ e.retained? = none ∧ e.said? = none ∧ e.heard? session = none ∧
      e.deliveredBytes = [] := by
  cases e <;> simp_all [Event.quiet, Event.outer, queued?, retained?, said?, heard?, deliveredBytes]

namespace Reliable

variable {s s' : Reliable T C W E N}

/-- A connection as an endpoint that sends and takes payloads. -/
def endpoint (s : Reliable T C W E N) : StopAndWait.Endpoint (List UInt8) where
  sent := queued s.trace
  waiting := s.tx.inFlight
  took := retained s.trace
  said := said s.trace
  heard := heard s.config.session s.trace

/-- The counters count the packets. -/
structure Counts (s : Reliable T C W E N) : Prop where
  txNext : (queued s.trace).length = s.txNext
  rxNext : (retained s.trace).length = s.rxNext

theorem Counts.move [Target] (h : Counts s) (hmove : Move s s') : Counts s' := by
  obtain ⟨htx, hrx⟩ := h
  cases hmove with
  | env => exact ⟨htx, hrx⟩
  | note event houter =>
      obtain ⟨hq, hr, -⟩ := Event.silent (.inr houter) 0
      exact ⟨by simpa [hq] using htx, by simpa [hr] using hrx⟩
  | queue => exact ⟨by simp [log, Event.queued?, htx], by simpa [Event.retained?] using hrx⟩
  | deliver => exact ⟨by simpa [Event.queued?] using htx, by simpa [Event.retained?] using hrx⟩
  | turn hturn =>
      cases hturn with
      | env => exact ⟨htx, hrx⟩
      | allow => exact ⟨htx, hrx⟩
      | requeue => exact ⟨htx, hrx⟩
      | acknowledgeAgain => exact ⟨htx, hrx⟩
      | note event hquiet =>
          obtain ⟨hq, hr, -⟩ := Event.silent (.inl hquiet) 0
          exact ⟨by simpa [hq] using htx, by simpa [hr] using hrx⟩
      | retain => exact ⟨by simpa [Event.queued?] using htx, by simp [log, Event.retained?, hrx]⟩
      | _ => exact ⟨by simpa [Event.queued?] using htx, by simpa [Event.retained?] using hrx⟩

theorem toNat_ofNat_of_le {n : Nat} (h : n ≤ u32Max) : (UInt32.ofNat n).toNat = n := by
  simp only [u32Max] at h
  exact UInt32.toNat_ofNat_of_lt (by simp [UInt32.size]; omega)

theorem mem_heard {session : UInt64} {trace : List (Event W E)} {e : Event W E}
    {m : StopAndWait.Message (List UInt8)} (he : e ∈ trace) (hm : e.heard? session = some m) :
    m ∈ heard session trace :=
  List.mem_filterMap.mpr ⟨e, he, hm⟩

variable [Target]

/-- A move of the connection is nothing or one step of the endpoint. -/
theorem Move.endpoint (h : Inv s) (hcounts : Counts s) (hmove : Move s s') :
    s'.endpoint = s.endpoint ∨ StopAndWait.Step s.endpoint s'.endpoint := by
  obtain ⟨htx, hrx⟩ := hcounts
  cases hmove with
  | env => exact .inl rfl
  | note event houter =>
      obtain ⟨hq, hr, hs, hh, -⟩ := Event.silent (.inr houter) s.config.session
      exact .inl (by simp [Reliable.endpoint, hq, hr, hs, hh])
  | queue payload txFrame txLen hready hnext =>
      -- A packet is queued only when none is in flight: the endpoint sends.
      have hidle : s.endpoint.waiting = false := Tx.inFlight_eq_false.mpr (writeReady_iff.mp hready).1
      have hsend := StopAndWait.Step.send s.endpoint payload hidle
      refine .inr ?_
      convert hsend using 1
      simp [Reliable.endpoint, Event.queued?, Event.retained?, Event.said?, Event.heard?,
        toNat_ofNat_of_le hnext, htx, Tx.inFlight]
  | deliver =>
      exact .inl (by simp [Reliable.endpoint, Event.queued?, Event.retained?, Event.said?,
        Event.heard?])
  | turn hturn =>
      cases hturn with
      | env => exact .inl rfl
      | allow => exact .inl rfl
      | acknowledgeAgain => exact .inl rfl
      | requeue htx => exact .inl (by simp [Reliable.endpoint, Tx.inFlight, htx])
      | note event hquiet =>
          obtain ⟨hq, hr, hs, hh, -⟩ := Event.silent (.inl hquiet) s.config.session
          exact .inl (by simp [Reliable.endpoint, hq, hr, hs, hh])
      | startAck seq ackFrame ackLen hout hack hlen hframe =>
          have hsay := StopAndWait.Step.acknowledge s.endpoint seq.toNat
            (show seq.toNat < (retained s.trace).length by have := h.ack_next hack; omega)
          refine .inr ?_
          convert hsay using 1
          simp [Reliable.endpoint, Event.queued?, Event.retained?, Event.said?, Event.heard?]
      | startData hout hack htx =>
          exact .inl (by simp [Reliable.endpoint, Event.queued?, Event.retained?, Event.said?,
            Event.heard?, Tx.inFlight, htx])
      | write =>
          exact .inl (by simp [Reliable.endpoint, Event.queued?, Event.retained?, Event.said?,
            Event.heard?])
      | flush cx frame hout =>
          have htx : (s.txAfterFlush frame).inFlight = s.tx.inFlight := by
            unfold txAfterFlush
            split
            · rename_i hsent
              rw [hsent.2]
              rfl
            · rfl
          exact .inl (by simp [Reliable.endpoint, Event.queued?, Event.retained?, Event.said?,
            Event.heard?, htx])
      | parse packet =>
          cases hheard : Event.heard? s.config.session (Event.parsed (W := W) (E := E) packet) with
          | none =>
              exact .inl (by simp [Reliable.endpoint, Event.queued?, Event.retained?, Event.said?,
                hheard])
          | some m =>
              refine .inr ?_
              convert StopAndWait.Step.hear s.endpoint m using 1
              simp [Reliable.endpoint, Event.queued?, Event.retained?, Event.said?, hheard]
      | release seq hparsed htx hseq =>
          have hheard : .ack seq.toNat ∈ s.endpoint.heard :=
            mem_heard hparsed (by simp [Event.heard?])
          refine .inr ?_
          convert StopAndWait.Step.release s.endpoint seq.toNat hheard
            (show seq.toNat + 1 = (queued s.trace).length by omega) using 1
          simp [Reliable.endpoint, Event.queued?, Event.retained?, Event.said?, Event.heard?,
            Tx.inFlight]
      | retain seq payload rxPayload hparsed hlen hseq hempty hpayload =>
          have hheard : .item s.endpoint.took.length payload ∈ s.endpoint.heard :=
            mem_heard hparsed (by simp [Event.heard?, Reliable.endpoint, hrx, hseq])
          refine .inr ?_
          convert StopAndWait.Step.take s.endpoint payload hheard using 1
          simp [Reliable.endpoint, Event.queued?, Event.retained?, Event.said?, Event.heard?]

/-- The output machine as a line. -/
def line (s : Reliable T C W E N) : Line.State UInt8 :=
  match s.out with
  | .idle => .idle
  | .writing frame offset => .writing (s.frameBytes frame) offset
  | .flushing frame => .flushing (s.frameBytes frame)

/-- A move of the connection is nothing or one event on the line. -/
theorem Move.line (h : Inv s) (hmove : Move s s') :
    lineEvents s'.trace = lineEvents s.trace ∧ s'.line = s.line ∨
      ∃ event, lineEvents s'.trace = lineEvents s.trace ++ [event] ∧
        Line.Step s.line event s'.line := by
  cases hmove with
  | env => exact .inl ⟨rfl, rfl⟩
  | note event houter =>
      refine .inl ⟨?_, rfl⟩
      simp [Event.line?_of_silent (.inr houter)]
  | queue payload txFrame txLen hready =>
      -- only the buffer of the data frame changes, and no data frame is on the line
      refine .inl ⟨by simp [Event.line?], ?_⟩
      have hbusy := (writeReady_iff.mp hready).2
      cases hout : s.out with
      | idle => simp only [Reliable.line, log, hout]
      | writing frame offset =>
          cases frame with
          | ack => simp only [Reliable.line, log, hout, frameBytes, frameBuffer]
          | data => simp [dataOutBusy, hout] at hbusy
      | flushing frame =>
          cases frame with
          | ack => simp only [Reliable.line, log, hout, frameBytes, frameBuffer]
          | data => simp [dataOutBusy, hout] at hbusy
  | deliver => exact .inl ⟨by simp [Event.line?], rfl⟩
  | turn hturn =>
      cases hturn with
      | env => exact .inl ⟨rfl, rfl⟩
      | note event hquiet => exact .inl ⟨by simp [Event.line?_of_silent (.inl hquiet)], rfl⟩
      | allow => exact .inl ⟨rfl, rfl⟩
      | requeue => exact .inl ⟨rfl, rfl⟩
      | acknowledgeAgain => exact .inl ⟨rfl, rfl⟩
      | parse => exact .inl ⟨by simp [Event.line?], rfl⟩
      | release => exact .inl ⟨by simp [Event.line?], rfl⟩
      | retain => exact .inl ⟨by simp [Event.line?], rfl⟩
      | startAck seq ackFrame ackLen hout hack hlen hframe =>
          refine .inr ⟨.start (Packet.ack s.config.session seq).frame, by simp [Event.line?], ?_⟩
          simp only [Reliable.line, log, hout, frameBytes, frameBuffer, hframe]
          exact .start _
      | startData hout =>
          refine .inr ⟨.start (s.frameBytes .data), by simp [Event.line?], ?_⟩
          simp only [Reliable.line, log, hout]
          exact .start _
      | write cx frame offset written hout hwritten =>
          obtain ⟨k, rfl⟩ := Nat.exists_eq_succ_of_ne_zero hwritten
          refine .inr ⟨.accept (((s.frameBytes frame).drop offset).take (k + 1)),
            by simp [Event.line?], ?_⟩
          have hlt := h.offset_lt hout
          rw [← length_frameBytes h] at hlt
          have hpiece : (((s.frameBytes frame).drop offset).take (k + 1)).length =
              min (k + 1) ((s.frameBytes frame).drop offset).length := List.length_take
          have hline : s.line = .writing (s.frameBytes frame) offset := by
            simp only [Reliable.line, hout]
          rw [hline]
          simp only [Reliable.line, log, advance]
          by_cases hend : offset + min (k + 1) ((s.frameBytes frame).drop offset).length =
              (s.frameBytes frame).length
          · rw [if_pos hend]
            refine .finish (List.take_of_length_le ?_)
            rw [List.length_drop] at hend ⊢
            omega
          · rw [if_neg hend, ← hpiece]
            exact .accept (List.take_prefix _ _) (by rwa [hpiece])
      | flush cx frame hout =>
          refine .inr ⟨.flush, by simp [Event.line?], ?_⟩
          simp only [Reliable.line, log, hout]
          exact .flush _

/-! ## The buffers -/

/-- The payload in the slot that was not read yet. -/
def unread (s : Reliable T C W E N) : List UInt8 := (s.rxPayload.toList.take s.rxEnd).drop s.rxStart

/-- What was delivered and what is unread is everything retained. -/
def SlotHolds (s : Reliable T C W E N) : Prop :=
  delivered s.trace ++ s.unread = (retained s.trace).flatten

theorem SlotHolds.move (hslot : SlotHolds s) (hmove : Move s s') : SlotHolds s' := by
  unfold SlotHolds at hslot ⊢
  cases hmove with
  | env => exact hslot
  | note event houter =>
      obtain ⟨-, hr, -, -, hd⟩ := Event.silent (.inr houter) 0
      simpa [unread, hr, hd] using hslot
  | queue => simpa [unread, Event.retained?, Event.deliveredBytes] using hslot
  | deliver stop hstart hstop =>
      -- What is delivered and what stays make up what was unread.
      have hsplit : (s.rxPayload.toList.take stop).drop s.rxStart ++
          (s.rxPayload.toList.take s.rxEnd).drop stop = s.unread := by
        have hstep : stop = s.rxStart + (stop - s.rxStart) := by omega
        have htake : s.rxPayload.toList.take stop = (s.rxPayload.toList.take s.rxEnd).take stop := by
          rw [List.take_take, Nat.min_eq_left hstop]
        rw [unread, htake, List.drop_take]
        conv => lhs; arg 2; rw [hstep, ← List.drop_drop]
        exact List.take_append_drop _ _
      simpa [unread, Event.retained?, Event.deliveredBytes, hsplit] using hslot
  | turn hturn =>
      cases hturn with
      | env => exact hslot
      | allow => exact hslot
      | requeue => exact hslot
      | acknowledgeAgain => exact hslot
      | note event hquiet =>
          obtain ⟨-, hr, -, -, hd⟩ := Event.silent (.inl hquiet) 0
          simpa [unread, hr, hd] using hslot
      | retain seq payload rxPayload hparsed hlen hseq hempty hpayload =>
          have hnil : s.unread = [] := by
            rw [unread, hempty]
            exact List.drop_eq_nil_of_le (by simp)
          rw [hnil, List.append_nil] at hslot
          simp [unread, Event.retained?, Event.deliveredBytes, hpayload, hslot]
      | _ => simpa [unread, Event.retained?, Event.deliveredBytes] using hslot

/-- While a packet is in flight or its frame is being output, `tx_frame` is the frame of the last
accepted payload. -/
def FrameHolds (s : Reliable T C W E N) : Prop :=
  s.tx ≠ .idle ∨ s.dataOutBusy → ∃ payload, (queued s.trace).getLast? = some payload ∧
    payload.length ≤ maxPayload N ∧ s.frameBytes .data =
      (Packet.data s.config.session (UInt32.ofNat (s.txNext - 1)) payload).frame

theorem FrameHolds.move (hframe : FrameHolds s) (hmove : Move s s') : FrameHolds s' := by
  have hkeep : ∀ {s' : Reliable T C W E N}, queued s'.trace = queued s.trace →
      s'.frameBytes .data = s.frameBytes .data → s'.config = s.config → s'.txNext = s.txNext →
      (s'.tx ≠ .idle ∨ s'.dataOutBusy → s.tx ≠ .idle ∨ s.dataOutBusy) → FrameHolds s' := by
    intro s' htrace hbytes hconfig hnext himp hbusy
    rw [htrace, hbytes, hconfig, hnext]
    exact hframe (himp hbusy)
  cases hmove with
  | env => exact hframe
  | note event houter =>
      exact hkeep (by simp [Event.silent (.inr houter) 0]) rfl rfl rfl id
  | queue payload txFrame txLen hready hnext hne hpayload hlen hbytes =>
      exact fun _ => ⟨payload, by simp [Event.queued?], hpayload, hbytes⟩
  | deliver => exact hkeep (by simp [Event.queued?]) rfl rfl rfl id
  | turn hturn =>
      cases hturn with
      | env => exact hframe
      | allow => exact hframe
      | acknowledgeAgain => exact hframe
      | requeue htx => exact hkeep rfl rfl rfl rfl fun _ => .inl (by simp [htx])
      | note event hquiet =>
          exact hkeep (by simp [Event.silent (.inl hquiet) 0]) rfl rfl rfl id
      | startAck =>
          exact hkeep (by simp [Event.queued?]) rfl rfl rfl (.imp_right (by simp [dataOutBusy]))
      | startData hout hack htx =>
          exact hkeep (by simp [Event.queued?]) rfl rfl rfl fun _ => .inl (by simp [htx])
      | write cx frame offset written hout =>
          exact hkeep (by simp [Event.queued?]) rfl rfl rfl
            (.imp_right (dataOutBusy_advance hout _).symm.trans)
      | flush cx frame hout =>
          refine hkeep (by simp [Event.queued?]) rfl rfl rfl fun hbusy => .inl ?_
          rcases hbusy with htx | hb
          · exact fun hidle => htx (txAfterFlush_eq_idle.mpr hidle)
          · simp [dataOutBusy] at hb
      | release seq hparsed htx =>
          exact hkeep (by simp [Event.queued?]) rfl rfl rfl fun _ => .inl htx
      | parse => exact hkeep (by simp [Event.queued?]) rfl rfl rfl id
      | retain => exact hkeep (by simp [Event.queued?]) rfl rfl rfl id

/-- Released packets are not in flight. -/
def ReleasedHolds (s : Reliable T C W E N) : Prop :=
  ∀ seq, .released seq ∈ s.trace →
    seq.toNat + 1 < s.txNext ∨ seq.toNat + 1 = s.txNext ∧ s.tx = .idle

theorem ReleasedHolds.move (h : ReleasedHolds s) (hmove : Move s s') : ReleasedHolds s' := by
  -- an event that releases nothing, in a state that still has the same packet in flight
  have hkeep : ∀ {s' : Reliable T C W E N} {e : Event W E}, (∀ seq, e ≠ .released seq) →
      s'.trace = s.trace ++ [e] → s.txNext = s'.txNext → (s.tx = .idle → s'.tx = .idle) →
      ReleasedHolds s' := by
    intro s' e he htrace hnext htx seq hmem
    rw [htrace, List.mem_append, List.mem_singleton] at hmem
    have hold := h seq (hmem.resolve_right fun heq => he seq heq.symm)
    rw [hnext] at hold
    exact hold.imp_right fun hlast => ⟨hlast.1, htx hlast.2⟩
  cases hmove with
  | env => exact h
  | note event houter =>
      exact hkeep (fun seq heq => by simp [heq, Event.outer] at houter) rfl rfl id
  | queue =>
      intro seq hmem
      have hold := h seq (by simpa using hmem)
      simp only [log_txNext]
      omega
  | deliver => exact hkeep (by simp) rfl rfl id
  | turn hturn =>
      cases hturn with
      | env => exact h
      | allow => exact h
      | acknowledgeAgain => exact h
      | requeue htx =>
          exact fun seq hmem => (h seq hmem).imp_right fun hlast => by simp [htx] at hlast
      | note event hquiet =>
          exact hkeep (fun seq heq => by simp [heq, Event.quiet] at hquiet) rfl rfl id
      | startAck => exact hkeep (by simp) rfl rfl id
      | startData hout hack htx => exact hkeep (by simp) rfl rfl (by simp [htx])
      | write => exact hkeep (by simp) rfl rfl id
      | flush => exact hkeep (by simp) rfl rfl txAfterFlush_eq_idle.mpr
      | parse => exact hkeep (by simp) rfl rfl id
      | retain => exact hkeep (by simp) rfl rfl id
      | release seq hparsed htx hseq =>
          intro k hmem
          rw [log_trace, List.mem_append, List.mem_singleton] at hmem
          rcases hmem with hold | hnew
          · exact (h k hold).imp_right fun hlast => ⟨hlast.1, rfl⟩
          · obtain rfl := Event.released.inj hnew
            exact .inr ⟨hseq, rfl⟩

/-- The data frames are started in the order of their numbers. -/
def OrderHolds (s : Reliable T C W E N) : Prop :=
  (startedFrames s.trace).Pairwise
      (fun f g => f.frame = .data → g.frame = .data → f.seq ≤ g.seq) ∧
    ∀ f ∈ startedFrames s.trace, f.frame = .data → f.seq.toNat + 1 ≤ s.txNext

omit [Target] in
theorem Event.started?_of_silent {e : Event W E} (h : e.quiet ∨ e.outer) : e.started? = none := by
  cases e <;> simp_all [Event.quiet, Event.outer, Event.started?]

theorem FrameHolds.txNext_pos (h : FrameHolds s) (hcounts : Counts s)
    (hbusy : s.tx ≠ .idle ∨ s.dataOutBusy) : 0 < s.txNext := by
  obtain ⟨payload, hlast, -⟩ := h hbusy
  rw [← hcounts.txNext]
  exact List.length_pos_of_mem (List.mem_of_getLast? hlast)

theorem OrderHolds.move (hinv : Inv s) (hcounts : Counts s) (hframe : FrameHolds s)
    (h : OrderHolds s) (hmove : Move s s') : OrderHolds s' := by
  have hkeep : ∀ {s' : Reliable T C W E N}, startedFrames s'.trace = startedFrames s.trace →
      s.txNext ≤ s'.txNext → OrderHolds s' := by
    intro s' htrace hnext
    refine ⟨htrace ▸ h.1, fun f hf hdata => ?_⟩
    exact (h.2 f (htrace ▸ hf) hdata).trans hnext
  cases hmove with
  | env => exact h
  | note event houter => exact hkeep (by simp [Event.started?_of_silent (.inr houter)]) (Nat.le_refl _)
  | queue => exact hkeep (by simp [Event.started?]) (Nat.le_succ _)
  | deliver => exact hkeep (by simp [Event.started?]) (Nat.le_refl _)
  | turn hturn =>
      cases hturn with
      | env => exact h
      | allow => exact h
      | acknowledgeAgain => exact h
      | requeue => exact h
      | note event hquiet =>
          exact hkeep (by simp [Event.started?_of_silent (.inl hquiet)]) (Nat.le_refl _)
      | startAck =>
          refine ⟨?_, ?_⟩
          · simp only [log_trace, startedFrames_append, startedFrames_singleton, Event.started?,
              Option.toList_some]
            exact List.pairwise_append.mpr ⟨h.1, by simp, by simp⟩
          · simpa [Event.started?, or_imp, forall_and] using h.2
      | startData hout hack htx =>
          -- A started data frame carries the last number given out, which no earlier one exceeds.
          have hpos := hframe.txNext_pos hcounts (.inl (by simp [htx]))
          have hseq : (UInt32.ofNat (s.txNext - 1)).toNat = s.txNext - 1 :=
            toNat_ofNat_of_le (by have := hinv.txNext_le; omega)
          have hlast : ∀ f ∈ startedFrames s.trace, f.frame = .data →
              f.seq ≤ UInt32.ofNat (s.txNext - 1) := by
            intro f hf hdata
            have hle := h.2 f hf hdata
            rw [UInt32.le_iff_toNat_le, hseq]
            omega
          simp only [OrderHolds, log_trace, startedFrames_append, startedFrames_singleton,
            Event.started?, Option.toList_some, List.mem_append, List.mem_singleton, log_txNext]
          refine ⟨List.pairwise_append.mpr ⟨h.1, by simp, ?_⟩, ?_⟩
          · rintro f hf g hg hdata -
            obtain rfl := List.mem_singleton.mp hg
            exact hlast f hf hdata
          · rintro f (hf | rfl) hdata
            · exact h.2 f hf hdata
            · simp only [hseq]
              omega
      | _ => exact hkeep (by simp [Event.started?]) (Nat.le_refl _)

/-- Everything the trace says about the state. -/
structure History (s : Reliable T C W E N) : Prop where
  counts : Counts s
  line : Line.Run (lineEvents s.trace) s.line
  endpoint : StopAndWait.Steps (.start _) s.endpoint
  slot : SlotHolds s
  frame : FrameHolds s
  released : ReleasedHolds s
  order : OrderHolds s

theorem history_initial (transport : T) (timer : C) (config : Config) :
    History (initial N transport timer config : Reliable T C W E N) where
  counts := ⟨rfl, rfl⟩
  line := .nil
  endpoint := .refl
  slot := by simp [SlotHolds, unread, initial, delivered, retained]
  frame := by simp [FrameHolds, initial, dataOutBusy]
  released := by simp [ReleasedHolds, initial]
  order := by simp [OrderHolds, initial, startedFrames]

theorem History.move (h : Inv s) (hhistory : History s) (hmove : Move s s') : History s' where
  counts := hhistory.counts.move hmove
  line := by
    rcases hmove.line h with ⟨htrace, hline⟩ | ⟨event, htrace, hstep⟩
    · rw [htrace, hline]
      exact hhistory.line
    · rw [htrace]
      exact .snoc hhistory.line hstep
  endpoint := by
    rcases hmove.endpoint h hhistory.counts with hsame | hstep
    · rw [hsame]
      exact hhistory.endpoint
    · exact hhistory.endpoint.tail hstep
  slot := hhistory.slot.move hmove
  frame := hhistory.frame.move hmove
  released := hhistory.released.move hmove
  order := hhistory.order.move h hhistory.counts hhistory.frame hmove

theorem History.moves (hN : Fits N) (h : Inv s) (hhistory : History s) (hmoves : Moves s s') :
    History s' := by
  have hboth := hmoves.keep (P := fun s => Inv s ∧ History s)
    (fun hboth hmove => ⟨hboth.1.move hN hmove, hboth.2.move hboth.1 hmove⟩) ⟨h, hhistory⟩
  exact hboth.2

/-! ## Every event has its move -/

/-- A move adds at most one event. -/
theorem Move.trace (h : Move s s') :
    s'.trace = s.trace ∨ ∃ event, s'.trace = s.trace ++ [event] := by
  cases h with
  | env => exact .inl rfl
  | turn hturn =>
      cases hturn with
      | env => exact .inl rfl
      | allow => exact .inl rfl
      | requeue => exact .inl rfl
      | acknowledgeAgain => exact .inl rfl
      | _ => exact .inr ⟨_, rfl⟩
  | _ => exact .inr ⟨_, rfl⟩

/-- An event of a sequence of moves comes from one of them. -/
theorem Moves.event (h : Moves s s') (hs : s.trace = []) {before after : List (Event W E)}
    {event : Event W E} (htrace : s'.trace = before ++ event :: after) :
    ∃ s₁ s₂, Moves s s₁ ∧ Move s₁ s₂ ∧ Moves s₂ s' ∧ s₁.trace = before ∧
      s₂.trace = before ++ [event] := by
  induction h generalizing after with
  | refl => simp [hs] at htrace
  | @tail s₁ s₂ hmoves hmove ih =>
      have hextend : ∀ {after}, s₁.trace = before ++ event :: after → ∃ t₁ t₂, Moves s t₁ ∧
          Move t₁ t₂ ∧ Moves t₂ s₂ ∧ t₁.trace = before ∧ t₂.trace = before ++ [event] := by
        intro after hsplit
        obtain ⟨t₁, t₂, h₁, h₂, h₃, hbefore⟩ := ih hsplit
        exact ⟨t₁, t₂, h₁, h₂, h₃.tail hmove, hbefore⟩
      rcases hmove.trace with hsame | ⟨last, hsnoc⟩
      · exact hextend (hsame ▸ htrace)
      · rcases List.eq_nil_or_concat after with rfl | ⟨after, last', rfl⟩
        · obtain ⟨hbefore, hlast⟩ := List.append_inj' (hsnoc.symm.trans htrace) rfl
          obtain rfl := List.singleton_inj.mp hlast
          exact ⟨s₁, s₂, hmoves, hmove, .refl s₂, hbefore, hbefore ▸ hsnoc⟩
        · rw [List.concat_eq_append, ← List.cons_append, ← List.append_assoc] at htrace
          exact hextend (List.append_inj' (hsnoc.symm.trans htrace) rfl).1

end Reliable

end CobsIoAsync.Connection
