import CobsIoAsync.Connection.Sequence

/-!
# Connection.Retransmit — when a packet is sent again

A packet is sent again when its last transmission was written, flushed and waited out, and as often
as the configuration allows.  The retry counter and the deadline are tied to the trace: the counter
is the number of transmissions of the packet in flight, and the deadline was set when the last of
them was flushed.
-/

namespace CobsIoAsync.Connection

open Reasoning Protocol

variable {T C W E : Type} {N : Nat}

/-! ## Transmissions -/

/-- Whether an event starts a transmission of a packet. -/
def Event.sends (seq : UInt32) : Event W E → Bool
  | .started .data seq' _ => seq' = seq
  | _ => false

/-- Whether an event starts a transmission of any packet. -/
def Event.transmits : Event W E → Bool
  | .started .data .. => true
  | _ => false

/-- The number of transmissions of a packet that were started. -/
def transmissions (seq : UInt32) (trace : List (Event W E)) : Nat := trace.countP (Event.sends seq)

/-- Behind the start of a transmission: its bytes were accepted and flushed, and the deadline was
set by the clock. -/
def Flushed (timeout deadline : UInt64) (bytes : List UInt8) (after : List (Event W E)) : Prop :=
  ∃ sent cx now rest,
    after = sent ++ .pollFlush cx .data (.ready (.ok ())) :: .now now :: rest ∧
      accepted sent = bytes ∧ deadline = Reliable.saturatingAdd now timeout

/-- Behind the start of a transmission: its bytes were accepted and flushed, and the deadline that
was set then has passed. -/
def WaitedOut (timeout : UInt64) (bytes : List UInt8) (after : List (Event W E)) : Prop :=
  ∃ sent cx now mid cx' rest,
    after = sent ++ .pollFlush cx .data (.ready (.ok ())) :: .now now ::
      (mid ++ .pollDeadline cx' (Reliable.saturatingAdd now timeout) (.ready ()) :: rest) ∧
        accepted sent = bytes

/-- `P` holds of the last transmission of a packet: of its bytes and of what happened since. -/
def Latest (seq : UInt32) (P : List UInt8 → List (Event W E) → Prop) (trace : List (Event W E)) :
    Prop :=
  ∀ before bytes after, trace = before ++ .started .data seq bytes :: after →
    transmissions seq after = 0 → P bytes after

section Lists

variable {seq : UInt32} {t u : List (Event W E)} {timeout deadline : UInt64} {bytes : List UInt8}

theorem transmissions_append : transmissions seq (t ++ u) =
    transmissions seq t + transmissions seq u := List.countP_append

theorem Event.sends_of_none {event : Event W E} (h : event.transmits = false) :
    event.sends seq = false := by
  unfold Event.sends
  split
  · cases h
  · rfl

theorem Event.exists_of_sends {event : Event W E} (h : event.sends seq = true) :
    ∃ bytes, event = .started .data seq bytes := by
  unfold Event.sends at h
  split at h
  · rename_i seq' bytes
    obtain rfl : seq' = seq := by simpa using h
    exact ⟨bytes, rfl⟩
  · cases h

theorem transmissions_eq_zero :
    transmissions seq u = 0 ↔ ∀ event ∈ u, ¬event.sends seq = true := List.countP_eq_zero

theorem transmissions_of_none (h : ∀ event ∈ u, event.transmits = false) :
    transmissions seq u = 0 :=
  transmissions_eq_zero.mpr fun event hevent => by simp [Event.sends_of_none (h event hevent)]

theorem Flushed.append (h : Flushed timeout deadline bytes t) (u : List (Event W E)) :
    Flushed timeout deadline bytes (t ++ u) := by
  obtain ⟨sent, cx, now, rest, rfl, hsent, hdeadline⟩ := h
  exact ⟨sent, cx, now, rest ++ u, by simp, hsent, hdeadline⟩

theorem WaitedOut.append (h : WaitedOut timeout bytes t) (u : List (Event W E)) :
    WaitedOut timeout bytes (t ++ u) := by
  obtain ⟨sent, cx, now, mid, cx', rest, rfl, hsent⟩ := h
  exact ⟨sent, cx, now, mid, cx', rest ++ u, by simp, hsent⟩

/-- The deadline of a flushed transmission passes. -/
theorem Flushed.expire (h : Flushed timeout deadline bytes t) (cx : W) :
    WaitedOut timeout bytes (t ++ [.pollDeadline cx deadline (.ready ())]) := by
  obtain ⟨sent, cx', now, rest, rfl, hsent, rfl⟩ := h
  exact ⟨sent, cx', now, rest, cx, [], by simp, hsent⟩

/-- While no frame is started, the last transmission stays the last one. -/
theorem Latest.append {P Q : List UInt8 → List (Event W E) → Prop} (h : Latest seq P t)
    (hnone : ∀ event ∈ u, event.transmits = false)
    (himp : ∀ bytes after, P bytes after → Q bytes (after ++ u)) : Latest seq Q (t ++ u) := by
  intro before bytes after hsplit hlast
  rcases split_append hsplit with ⟨rest, hold, rfl⟩ | ⟨front, -, rfl⟩
  · rw [transmissions_append] at hlast
    exact himp bytes rest (h before bytes rest hold (by omega))
  · exact absurd (hnone (.started .data seq bytes) (by simp)) (by simp [Event.transmits])

theorem Event.transmits_of_none {event : Event W E} (h : event.started? = none) :
    event.transmits = false := by
  cases event <;> simp_all [Event.started?, Event.transmits]

/-- The last transmission is known when a trace is split there. -/
theorem Latest.of_split {P : List UInt8 → List (Event W E) → Prop} {before after : List (Event W E)}
    (htrace : t = before ++ .started .data seq bytes :: after) (hlast : transmissions seq after = 0)
    (hP : P bytes after) : Latest seq P t := by
  intro before' bytes' after' htrace' hlast'
  obtain ⟨-, heq, rfl⟩ := split_unique (p := fun event => event.sends seq = true)
    (htrace.symm.trans htrace') (by simp [Event.sends]) (by simp [Event.sends])
    (transmissions_eq_zero.mp hlast) (transmissions_eq_zero.mp hlast')
  cases heq
  exact hP

end Lists

namespace Reliable

variable {s s' : Reliable T C W E N}

/-! ## The history of the transmissions -/

/-- Transmissions are bounded, and each was waited out before the next one of the same packet. -/
structure Spaced (s : Reliable T C W E N) : Prop where
  bound : ∀ seq, transmissions seq s.trace ≤ s.config.maxRetries.toNat + 1
  between : ∀ seq before bytes mid bytes' after,
    s.trace = before ++ .started .data seq bytes :: (mid ++ .started .data seq bytes' :: after) →
      transmissions seq mid = 0 → WaitedOut s.config.retransmitTimeout bytes mid

theorem Spaced.grow (h : Spaced s) {events : List (Event W E)}
    (htrace : s'.trace = s.trace ++ events) (hconfig : s'.config = s.config)
    (hnone : ∀ event ∈ events, event.transmits = false) : Spaced s' := by
  refine ⟨fun seq => ?_, fun seq before bytes mid bytes' after hsplit hmid => ?_⟩
  · rw [htrace, transmissions_append, transmissions_of_none hnone, hconfig]
    exact h.bound seq
  · rw [htrace, ← List.cons_append, ← List.append_assoc] at hsplit
    rw [hconfig]
    rcases split_append hsplit with ⟨rest, hold, -⟩ | ⟨front, -, rfl⟩
    · rw [List.append_assoc, List.cons_append] at hold
      exact h.between seq before bytes mid bytes' rest hold hmid
    · exact absurd (hnone (.started .data seq bytes') (by simp)) (by simp [Event.transmits])

/-- A transmission is started behind one that was waited out. -/
theorem Spaced.start (h : Spaced s) {seq : UInt32} {bytes : List UInt8}
    (htrace : s'.trace = s.trace ++ [.started .data seq bytes]) (hconfig : s'.config = s.config)
    (hbound : transmissions seq s.trace ≤ s.config.maxRetries.toNat)
    (hlatest : Latest seq (WaitedOut s.config.retransmitTimeout) s.trace) : Spaced s' := by
  refine ⟨fun seq' => ?_, fun seq' before bytes₁ mid bytes₂ after hsplit hmid => ?_⟩
  · rw [htrace, transmissions_append, hconfig]
    by_cases hseq : seq = seq'
    · subst hseq
      simpa [transmissions, Event.sends] using hbound
    · have hold := h.bound seq'
      simpa [transmissions, Event.sends, hseq] using hold
  · rw [htrace, ← List.cons_append, ← List.append_assoc] at hsplit
    rw [hconfig]
    -- The new frame is either past both transmissions, or the second of them.
    rcases split_concat hsplit with ⟨rest, hold, -⟩ | ⟨hbefore, heq, -⟩
    · rw [List.append_assoc, List.cons_append] at hold
      exact h.between seq' before bytes₁ mid bytes₂ rest hold hmid
    · cases heq
      exact hlatest before bytes₁ mid hbefore.symm hmid

/-! ## The packet in flight -/

/-- What the state says about the transmissions of the packet in flight, which has the number
`seq`. -/
def InFlight (s : Reliable T C W E N) (seq : UInt32) : Prop :=
  match s.tx with
  | .idle => True
  | .queued => transmissions seq s.trace = s.txRetries ∧
      Latest seq (WaitedOut s.config.retransmitTimeout) s.trace
  | .sending => transmissions seq s.trace = s.txRetries + 1 ∧
      ∃ before bytes after, s.trace = before ++ .started .data seq bytes :: after ∧
        ∀ event ∈ after, event.transmits = false
  | .waiting => transmissions seq s.trace = s.txRetries + 1 ∧
      Latest seq (Flushed s.config.retransmitTimeout s.txDeadline) s.trace ∧
        (s.finalInput.isSome → Latest seq (WaitedOut s.config.retransmitTimeout) s.trace)

/-- Events that start no frame, while the fields of the packet in flight stay. -/
theorem InFlight.grow {seq : UInt32} (h : InFlight s seq) {events : List (Event W E)}
    (htrace : s'.trace = s.trace ++ events) (hconfig : s'.config = s.config)
    (hnone : ∀ event ∈ events, event.transmits = false) (htx : s'.tx = s.tx)
    (hretries : s'.txRetries = s.txRetries) (hdeadline : s'.txDeadline = s.txDeadline)
    (hfinal : s'.finalInput.isSome → s.finalInput.isSome) : InFlight s' seq := by
  have hcount : transmissions seq s'.trace = transmissions seq s.trace := by
    rw [htrace, transmissions_append, transmissions_of_none hnone, Nat.add_zero]
  have hwaited : Latest seq (WaitedOut s.config.retransmitTimeout) s.trace →
      Latest seq (WaitedOut s.config.retransmitTimeout) s'.trace := fun hlatest => by
    rw [htrace]
    exact hlatest.append hnone fun _ _ hwaited => hwaited.append events
  have hflushed : Latest seq (Flushed s.config.retransmitTimeout s.txDeadline) s.trace →
      Latest seq (Flushed s.config.retransmitTimeout s.txDeadline) s'.trace := fun hlatest => by
    rw [htrace]
    exact hlatest.append hnone fun _ _ hflushed => hflushed.append events
  unfold InFlight at h ⊢
  rw [htx, hconfig, hcount, hretries, hdeadline]
  -- Nothing is transmitted in the events added, so each phase keeps what it knows.
  cases hs : s.tx with
  | idle => trivial
  | queued =>
      simp only [hs] at h
      exact ⟨h.1, hwaited h.2⟩
  | sending =>
      simp only [hs] at h
      obtain ⟨hstarts, before, bytes, after, hsplit, hlast⟩ := h
      refine ⟨hstarts, before, bytes, after ++ events, by rw [htrace, hsplit]; simp, ?_⟩
      exact List.forall_mem_append.mpr ⟨hlast, hnone⟩
  | waiting =>
      simp only [hs] at h
      exact ⟨h.1, hflushed h.2.1, fun hsome => hwaited (h.2.2 (hfinal hsome))⟩

/-- The transmissions of all packets so far, and of the packet in flight. -/
structure Transmits (s : Reliable T C W E N) : Prop where
  spaced : Spaced s
  flight : ∀ seq, seq.toNat + 1 = s.txNext → InFlight s seq

theorem Transmits.grow (h : Transmits s) {events : List (Event W E)}
    (htrace : s'.trace = s.trace ++ events) (hconfig : s'.config = s.config)
    (hnone : ∀ event ∈ events, event.transmits = false) (htx : s'.tx = s.tx)
    (hnext : s'.txNext = s.txNext) (hretries : s'.txRetries = s.txRetries)
    (hdeadline : s'.txDeadline = s.txDeadline)
    (hfinal : s'.finalInput.isSome → s.finalInput.isSome) : Transmits s' :=
  ⟨h.spaced.grow htrace hconfig hnone, fun seq hseq =>
    (h.flight seq (hseq.trans hnext)).grow htrace hconfig hnone htx hretries hdeadline hfinal⟩

/-- One event that starts no frame. -/
theorem Transmits.log (h : Transmits s) {event : Event W E} (hnone : event.transmits = false) :
    Transmits (s.log event) :=
  h.grow rfl rfl (by simpa using hnone) rfl rfl rfl rfl id

section Runs

variable [Target]

/-- The last number is that of the packet in flight. -/
theorem Through.last_seq (h : Through s) (htx : s.tx ≠ .idle) :
    (UInt32.ofNat (s.txNext - 1)).toNat + 1 = s.txNext := by
  have hpos := h.history.frame.txNext_pos h.history.counts (.inl htx)
  have hle := h.inv.txNext_le
  rw [toNat_ofNat_of_le (by omega)]
  omega

/-- A frame that is flushed was accepted in whole since it was started. -/
theorem Through.flushing (h : Through s) {frame : Frame} (hout : s.out = .flushing frame) :
    ∃ before seq bytes after, s.trace = before ++ .started frame seq bytes :: after ∧
      startedFrames after = [] ∧ accepted after = bytes := by
  have hline : s.line = .flushing (s.frameBytes frame) := by simp only [Reliable.line, hout]
  have hcurrent : s.line.current = [s.frameBytes frame] := by rw [hline]; rfl
  obtain ⟨before, kind, seq, after, htrace, hstarted, haccepted⟩ :=
    progress_of_line h.history.line hcurrent
  rw [hline] at haccepted
  -- the last frame that was started is the one that is flushed
  have hholds := h.out
  rw [OutHolds, hout] at hholds
  obtain ⟨f, hlast, hframe⟩ := hholds
  rw [htrace, startedFrames_append, startedFrames, startedFrames, List.filterMap_cons,
    ← startedFrames, ← startedFrames, hstarted] at hlast
  simp only [Event.started?, List.getLast?_concat, Option.some.injEq] at hlast
  obtain rfl : kind = frame := by rw [← hframe, ← hlast]
  exact ⟨before, seq, _, after, htrace, hstarted, haccepted⟩

theorem Transmits.start (hthrough : Through s) (h : Transmits s) (hstart : Start s s') :
    Transmits s' := by
  cases hstart with
  | going => exact h
  | ack => exact h.grow rfl rfl (by simp [Event.transmits]) rfl rfl rfl rfl id
  | data hout hack htx =>
      have hseq := hthrough.last_seq (by simp [htx])
      have hflight := h.flight _ hseq
      simp only [InFlight, htx] at hflight
      refine ⟨h.spaced.start rfl rfl ?_ hflight.2, fun seq hseq' => ?_⟩
      · rw [hflight.1]
        exact hthrough.inv.retries_le
      · obtain rfl : seq = UInt32.ofNat (s.txNext - 1) :=
          UInt32.toNat_inj.mp (Nat.succ.inj (hseq'.trans hseq.symm))
        refine ⟨?_, s.trace, _, [], rfl, by simp⟩
        rw [log_trace, transmissions_append, hflight.1]
        simp [transmissions, Event.sends]

omit [Target] in
theorem Transmits.write (h : Transmits s) {cx : W} {frame : Frame} {offset : Nat}
    {work : Outcome E} (hwrite : WriteFrame s cx frame offset work s') : Transmits s' := by
  cases hwrite <;> exact h.grow rfl rfl (by simp [Event.transmits]) rfl rfl rfl rfl id

/-- A flushed data frame sets the deadline; a flushed acknowledgement changes nothing here, and
neither does a data frame whose packet was released while it was output. -/
theorem Transmits.flush (hthrough : Through s) (h : Transmits s) {cx : W} {frame : Frame}
    {work : Outcome E} (hout : s.out = .flushing frame) (hflush : FlushFrame s cx frame work s') :
    Transmits s' := by
  cases hflush with
  | pending transport => exact h.grow rfl rfl (by simp [Event.transmits]) rfl rfl rfl rfl id
  | error transport => exact h.grow rfl rfl (by simp [Event.transmits]) rfl rfl rfl rfl id
  | flushed transport => exact h.grow rfl rfl (by simp [Event.transmits]) rfl rfl rfl rfl id
  | sent transport timer now hframe htx =>
      subst hframe
      have hnone : ∀ event ∈ ([.pollFlush cx .data (.ready (.ok ())), .now now] : List (Event W E)),
          event.transmits = false := by simp [Event.transmits]
      refine ⟨h.spaced.grow (List.append_assoc ..) rfl hnone, fun seq hseq => ?_⟩
      have hflight := h.flight seq hseq
      simp only [InFlight, htx] at hflight
      obtain ⟨hstarts, before, bytes, after, hsplit, hlast⟩ := hflight
      -- the frame that is flushed is the transmission that was started last
      obtain ⟨before', seq', bytes', after', hsplit', hstarted, haccepted⟩ :=
        hthrough.flushing hout
      have hlast' : ∀ event ∈ after', event.transmits = false := fun event hevent =>
        Event.transmits_of_none (startedFrames_eq_nil.mp hstarted event hevent)
      obtain ⟨-, hevent, rfl⟩ := split_unique (p := fun event => event.transmits = true)
        (hsplit.symm.trans hsplit') rfl rfl (by simpa using hlast) (by simpa using hlast')
      cases hevent
      refine ⟨?_, ?_, fun hsome => by cases hsome⟩
      · show transmissions seq (s.trace ++ _ ++ _) = s.txRetries + 1
        rw [List.append_assoc, transmissions_append, hstarts]
        simp [transmissions, Event.sends]
      · have hflushed : s.trace ++ [.pollFlush cx .data (.ready (.ok ()))] ++ [.now now] =
            before ++ .started .data seq bytes ::
              (after ++ [.pollFlush cx .data (.ready (.ok ())), .now now]) := by
          rw [hsplit]
          simp
        refine Latest.of_split hflushed ?_ ⟨after, cx, now, [], rfl, haccepted, rfl⟩
        rw [transmissions_append, transmissions_of_none hlast, transmissions_of_none hnone]

/-- A packet that is taken releases the packet in flight, or leaves its fields as they are. -/
theorem Transmits.take (h : Transmits s) {packet : Packet} (htake : Take s packet s') :
    Transmits s' := by
  cases htake with
  | release => exact ⟨h.spaced.grow rfl rfl (by simp [Event.transmits]), fun _ _ => trivial⟩
  | retain => exact h.grow rfl rfl (by simp [Event.transmits]) rfl rfl rfl rfl id
  | again => exact h.grow (List.append_nil _).symm rfl (by simp) rfl rfl rfl rfl id
  | _ => exact h

theorem Transmits.processFrame (h : Transmits s) {body : List UInt8}
    (hframe : ProcessFrame s body s') : Transmits s' := by
  have hdecode : ∀ scratch : Bytes N, Transmits ({ s.log (.frame body) with scratch }) :=
    fun scratch => h.grow rfl rfl (by simp [Event.transmits]) rfl rfl rfl rfl id
  cases hframe with
  | undecodable => exact hdecode _
  | unparsable => exact (hdecode _).log rfl
  | parsed _ _ htake => exact (((hdecode _).log rfl).log rfl).take htake

omit [Target] in
/-- The deadline passes, the final input is used up, and the packet is queued again. -/
theorem Transmits.timer (h : Transmits s) {cx : W} {input : Work} {work : Outcome E}
    (htimed : Timed s cx input work s') : Transmits s' := by
  cases htimed with
  | unarmed => exact h
  | listening => exact h
  | pending timer => exact h.grow rfl rfl (by simp [Event.transmits]) rfl rfl rfl rfl id
  | timeout left htx hfinal =>
      exact h.grow rfl rfl (by simp [Event.transmits]) rfl rfl rfl rfl fun hsome => by cases hsome
  | expired timer htx hfinal =>
      have hnone : ∀ event ∈ ([Event.pollDeadline cx s.txDeadline (.ready ())] : List (Event W E)),
          event.transmits = false := by simp [Event.transmits]
      refine ⟨h.spaced.grow rfl rfl hnone, fun seq hseq => ?_⟩
      have hflight := h.flight seq hseq
      simp only [InFlight, htx] at hflight
      obtain ⟨hstarts, hflushed, -⟩ := hflight
      have hcount : transmissions seq (s.trace ++ [Event.pollDeadline cx s.txDeadline (.ready ())]) =
          s.txRetries + 1 := by
        rw [transmissions_append, hstarts, transmissions_of_none hnone]
      have hstay := hflushed.append hnone fun _ _ hold => hold.append _
      have hwaited := hflushed.append hnone fun _ _ hold => hold.expire cx
      simp only [InFlight, htx, log_tx]
      exact ⟨hcount, hstay, fun _ => hwaited⟩
  | requeue left htx hfinal hspent hretries =>
      refine ⟨h.spaced.grow (List.append_nil _).symm rfl (by simp), fun seq hseq => ?_⟩
      have hflight := h.flight seq hseq
      simp only [InFlight, htx] at hflight
      obtain ⟨hstarts, -, hwaited⟩ := hflight
      show transmissions seq s.trace = s.txRetries + 1 ∧ _
      apply And.intro hstarts
      exact hwaited (by rw [hfinal]; rfl)

theorem Transmits.act (hthrough : Through s) (h : Transmits s) (hact : Act s s') :
    Transmits s' := by
  cases hact with
  | buffer => exact h.grow (List.append_nil _).symm rfl (by simp) rfl rfl rfl rfl id
  | start hstart => exact h.start hthrough hstart
  | write _ hwrite => exact h.write hwrite
  | flush hout hflush => exact h.flush hthrough hout hflush
  | ask => exact h.grow rfl rfl (by simp [Event.transmits]) rfl rfl rfl rfl id
  | read =>
      refine h.grow rfl rfl (by simp [Event.transmits]) rfl rfl rfl rfl fun hsome => ?_
      simpa using hsome
  | frame _ _ _ hframe => exact h.processFrame hframe
  | timer htimed => exact h.timer htimed

/-- A packet that is queued has a number that no frame was started with. -/
theorem Transmits.queue (hthrough : Through s) (h : Transmits s) {payload : List UInt8}
    {scratch txFrame : Bytes N} {txLen : Nat} :
    Transmits ({ s with
      scratch, txFrame, txLen, txNext := s.txNext + 1, txRetries := 0, tx := .queued }.log
        (.queued (UInt32.ofNat s.txNext) payload)) := by
  refine ⟨h.spaced.grow rfl rfl (by simp [Event.transmits]), fun seq hseq => ?_⟩
  have hnew : ∀ event ∈ s.trace, ¬event.sends seq = true := by
    intro event hevent hsends
    obtain ⟨bytes, rfl⟩ := Event.exists_of_sends hsends
    have hmem : (⟨.data, seq, bytes⟩ : Sent) ∈ startedFrames s.trace :=
      List.mem_filterMap.mpr ⟨_, hevent, rfl⟩
    have hle : seq.toNat + 1 ≤ s.txNext := hthrough.history.order.2 _ hmem rfl
    simp only [log_txNext] at hseq
    omega
  have hzero : transmissions seq s.trace = 0 := transmissions_eq_zero.mpr hnew
  refine ⟨?_, fun before bytes after hsplit => ?_⟩
  · show transmissions seq (s.trace ++ _) = 0
    rw [transmissions_append, hzero]
    simp [transmissions, Event.sends]
  · -- there is no transmission yet
    rcases split_concat hsplit with ⟨rest, hold, -⟩ | ⟨-, heq, -⟩
    · exact absurd (by simp [Event.sends]) (hnew (.started .data seq bytes) (by rw [hold]; simp))
    · cases heq

theorem Transmits.beat (hvisited : Visited Act s) (h : Transmits s) (hbeat : Beat Act s s') :
    Transmits s' := by
  have hthrough := hvisited.through covers_act
  cases hbeat with
  | inside _ hact => exact h.act hthrough hact
  | queue => exact h.queue hthrough
  | note event haside =>
      refine h.log ?_
      cases event <;> simp_all [Event.aside, Event.transmits]
  | fail error =>
      rw [fail_eq]
      exact h.grow (List.append_nil _).symm rfl (by simp) rfl rfl rfl rfl fun hsome => by cases hsome
  | report => exact h.grow (List.append_nil _).symm rfl (by simp) rfl rfl rfl rfl id
  | deliver => exact h.grow rfl rfl (by simp [Event.transmits]) rfl rfl rfl rfl id
  | environment => exact h.grow (List.append_nil _).symm rfl (by simp) rfl rfl rfl rfl id
  | wake hwoken =>
      obtain ⟨waiters, wakes, rfl, hwakes⟩ := hwoken
      refine h.grow rfl rfl (fun event hevent => ?_) rfl rfl rfl rfl id
      obtain ⟨op, waker, rfl⟩ := hwakes event hevent
      rfl

theorem Visited.transmits (h : Visited Act s) : Transmits s := by
  refine h.keep (fun transport timer config => ⟨⟨fun seq => ?_, ?_⟩, fun seq _ => trivial⟩)
    fun hvisited hold hbeat => hold.beat hvisited hbeat
  · show transmissions seq [] ≤ _
    simp [transmissions]
  · intro seq before bytes mid bytes' after htrace
    simp [initial] at htrace

end Runs

end Reliable

end CobsIoAsync.Connection
