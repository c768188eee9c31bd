import CobsIoAsync.Connection.Acknowledge
import Mathlib.Data.List.Nodup

/-!
# Connection.Sequence — sequence numbers are used once and run out

The numbers of the packets are counted in 64 bits and sent in 32, and the connection ends where
the two part: the last packet is still acknowledged, and no further one is accepted or retained.
-/

namespace CobsIoAsync.Connection

open Reasoning Protocol

variable {T C W E : Type} {N : Nat}

def Event.queuedSeq? : Event W E → Option UInt32
  | .queued seq _ => some seq
  | _ => none

/-- The numbers of the packets that were packed by `queue_packet`. -/
def queuedSeqs (trace : List (Event W E)) : List UInt32 := trace.filterMap Event.queuedSeq?

@[simp] theorem queuedSeqs_append (t u : List (Event W E)) :
    queuedSeqs (t ++ u) = queuedSeqs t ++ queuedSeqs u := List.filterMap_append

@[simp] theorem queuedSeqs_singleton (e : Event W E) : queuedSeqs [e] = e.queuedSeq?.toList := by
  cases h : e.queuedSeq? <;> simp [queuedSeqs, h]

theorem Event.queuedSeq?_of_silent {e : Event W E} (h : e.quiet ∨ e.outer) :
    e.queuedSeq? = none := by
  cases e <;> simp_all [Event.quiet, Event.outer, Event.queuedSeq?]

namespace Reliable

variable {s s' : Reliable T C W E N}
variable [Target]

/-! ## The numbers -/

/-- The packets are numbered from zero on, without a gap. -/
def Numbered (s : Reliable T C W E N) : Prop :=
  (queuedSeqs s.trace).map UInt32.toNat = List.range s.txNext

theorem Numbered.move (h : Numbered s) (hmove : Move s s') : Numbered s' := by
  unfold Numbered at h ⊢
  cases hmove with
  | env => exact h
  | note event houter => simpa [Event.queuedSeq?_of_silent (.inr houter)] using h
  | queue payload txFrame txLen hready hnext =>
      simp only [log_trace, queuedSeqs_append, queuedSeqs_singleton, Event.queuedSeq?,
        Option.toList_some, List.map_append, List.map_singleton, h, log_txNext]
      rw [toNat_ofNat_of_le hnext, ← List.range_succ]
  | deliver => simpa [Event.queuedSeq?] using h
  | turn hturn =>
      cases hturn with
      | env => exact h
      | allow => exact h
      | requeue => exact h
      | acknowledgeAgain => exact h
      | note event hquiet => simpa [Event.queuedSeq?_of_silent (.inl hquiet)] using h
      | _ => simpa [Event.queuedSeq?] using h

/-- A packet that is not in flight was released. -/
def IdleHolds (s : Reliable T C W E N) : Prop :=
  s.tx = .idle → 0 < s.txNext → ∃ seq, seq.toNat + 1 = s.txNext ∧ .released seq ∈ s.trace

theorem IdleHolds.move (h : IdleHolds s) (hmove : Move s s') : IdleHolds s' := by
  -- the same packet, which is in flight if it was before
  have hkeep : ∀ {s' : Reliable T C W E N}, s.trace <+: s'.trace → s'.txNext = s.txNext →
      (s'.tx = .idle → s.tx = .idle) → IdleHolds s' := by
    intro s' hprefix hnext htx hidle hpos
    rw [hnext] at hpos ⊢
    obtain ⟨seq, hseq, hmem⟩ := h (htx hidle) hpos
    exact ⟨seq, hseq, hprefix.subset hmem⟩
  cases hmove with
  | env => exact h
  | note event houter => exact hkeep (List.prefix_append _ _) rfl id
  | queue => exact fun hidle => by cases hidle
  | deliver => exact hkeep (List.prefix_append _ _) rfl id
  | turn hturn =>
      cases hturn with
      | env => exact h
      | allow => exact h
      | acknowledgeAgain => exact h
      | requeue => exact fun hidle => by cases hidle
      | startData => exact fun hidle => by cases hidle
      | flush => exact hkeep (List.prefix_append _ _) rfl txAfterFlush_eq_idle.mp
      | release seq hparsed htx hseq => exact fun _ _ => ⟨seq, hseq, by simp⟩
      | _ => exact hkeep (List.prefix_append _ _) rfl id

/-! ## The end of the numbers -/

/-- `drive` fails a healthy connection with its own error, or leaves it healthy. -/
theorem Drive.health (hinv : Inv s) {cx : W} {budget budget' : Budget} {work : Work}
    (h : Drive s cx budget work budget' s') (hhealth : s.health = .ok) :
    s'.health = .ok ∨ ∃ error, s'.health = .failed error := by
  obtain ⟨s₁, hturns, rfl | ⟨error, rfl⟩⟩ := h.turns hinv
  · exact .inl (hturns.inner.health.trans hhealth)
  · refine .inr ⟨error, ?_⟩
    rw [fail_eq, hturns.inner.health, hhealth]

section Runs

/-- What a `poll_write` returns behind the last number, when its drive leaves `s`: the error that the
drive found, `Pending` while the last packet is in flight or its frame is output, and then the end
of the numbers. -/
inductive LastWrite (s : Reliable T C W E N) : Poll (Except (ConnectionError E) Nat) → Prop
  | failed {error : ConnectionError E} (hhealth : s.health = .failed error) :
      LastWrite s (.ready (.error error))
  | busy (hhealth : s.health = .ok) (hbusy : s.tx ≠ .idle ∨ s.dataOutBusy = true) :
      LastWrite s .pending
  | exhausted (hhealth : s.health = .ok) (hidle : s.tx = .idle) (hout : s.dataOutBusy = false) :
      LastWrite s (.ready (.error .sequenceExhausted))

/-- `queue_packet` behind the last number. -/
theorem queuePacket_last [Transport T W E] [Timer C W] {cx : W} {buf : List UInt8} {work : Work}
    {budget : Budget}
    {s₁ : Reliable T C W E N} (hdrive : s.drive cx .new = some (work, budget, s₁))
    (hnext : s₁.txNext = u32Max + 1)
    (hhealth : s₁.health = .ok ∨ ∃ error, s₁.health = .failed error) :
    ∃ poll s₂, s.queuePacket cx buf = some (poll, s₂) ∧ LastWrite s₁ poll ∧
      queued s₂.trace = queued s₁.trace := by
  rw [queuePacket, hdrive]
  simp only [bind, Option.bind_some, Bool.not_not, ite_exhaust]
  have hmax : decide (s₁.txNext > u32Max) = true := decide_eq_true (by omega)
  rcases hhealth with hok | ⟨error, hfailed⟩
  · cases hready : s₁.writeReady with
    | true =>
        -- nothing is in flight, so that the check fails the connection
        have hexhaust : s₁.exhaust = { s₁ with
            finalInput := none, health := .failed .sequenceExhausted
            trace := s₁.trace ++ [.exhausted] } := by
          rw [exhaust, hready, hmax, Bool.and_self, if_pos rfl, fail_eq]
          simp only [log, hok]
        obtain ⟨hidle, hout⟩ := writeReady_iff.mp hready
        rw [hexhaust]
        refine ⟨_, _, rfl, .exhausted hok hidle hout, ?_⟩
        simp [Event.queued?]
    | false =>
        have hbusy : s₁.tx ≠ .idle ∨ s₁.dataOutBusy = true := by
          by_cases hidle : s₁.tx = .idle
          · right
            by_contra hout
            have := writeReady_iff.mpr ⟨hidle, by simpa using hout⟩
            rw [hready] at this
            cases this
          · exact .inl hidle
        have hexhaust : s₁.exhaust = s₁ := by
          rw [exhaust, hready, Bool.false_and, if_neg (by simp)]
        rw [hexhaust, failure_of_ok hok]
        exact ⟨_, _, rfl, .busy hok hbusy, rfl⟩
  · -- an error that was found before is not replaced
    have hexhaust : s₁.exhaust.health = .failed error ∧
        queued s₁.exhaust.trace = queued s₁.trace := by
      refine ⟨?_, (exhaust_neutral s₁).accounts.1⟩
      unfold exhaust
      split
      · rw [fail_eq]
        simp only [log, hfailed]
      · exact hfailed
    have hfailure : s₁.exhaust.failure = (some error, { s₁.exhaust with health := .reported }) := by
      rw [failure, hexhaust.1]
    rw [hfailure]
    exact ⟨_, _, rfl, .failed hfailed, hexhaust.2⟩

/-- A `poll_write` behind the last number. -/
theorem Sound.write_last [Waker W] [Transport T W E] [Timer C W] (h : Sound s)
    (hthrough : Through s) {cx : W} {buf : List UInt8}
    {ret : Return E} (hne : buf ≠ []) (hhealth : s.health = .ok) (hnext : s.txNext = u32Max + 1)
    (hcall : s.call (.write cx buf) = some (ret, s')) :
    queued s'.trace = queued s.trace ∧ ∃ work budget s₁ poll,
      s.drive cx .new = some (work, budget, s₁) ∧ LastWrite s₁ poll ∧ ret = .write poll := by
  obtain ⟨⟨work, budget, s₁⟩, hrun, hdrive⟩ := drive_returns h.fits h.inv h.settled cx .new
  have hthrough₁ := hthrough.moves h.fits (hdrive.moves h.inv)
  obtain ⟨hqueued, -⟩ := (hdrive.neutral h.inv).accounts
  -- the drive accepts no packet
  have hnext₁ : s₁.txNext = u32Max + 1 := by
    rw [← hthrough₁.history.counts.txNext, hqueued, hthrough.history.counts.txNext, hnext]
  obtain ⟨poll, s₂, hqueue, hlast, hqueued₂⟩ : ∃ poll s₂, s.queuePacket cx buf = some (poll, s₂) ∧
      LastWrite s₁ poll ∧ queued s₂.trace = queued s₁.trace :=
    queuePacket_last hrun hnext₁ (hdrive.health h.inv hhealth)
  have hcalled : s.call (.write cx buf) =
      some (.write poll, (s₂.finish .write cx poll).log (.returned (.write cx buf) (.write poll))) := by
    refine call_eq_some.mpr ⟨_, ?_, rfl⟩
    rw [Reliable.dispatch, pollWrite, if_neg hne, hqueue]
    rfl
  rw [hcalled] at hcall
  cases hcall
  refine ⟨?_, work, budget, s₁, poll, hrun, hlast, rfl⟩
  have hfinish := (finish_woken s₂ .write cx poll).neutral.accounts.1
  simp only [log_trace, queued_append, queued_singleton, Event.queued?, Option.toList_none,
    List.append_nil]
  rw [hfinish, hqueued₂, hqueued]

omit [Target] in
/-- The state that the test of the end of the numbers starts from. -/
example : letI := target64
    ((({ testConnection [] with txNext := u32Max + 1 } : Reliable Link FakeClock Nat MockError 21)
      |>.queuePacket 1 [5]).map fun r => (r.1, r.2.txNext)) =
        some (.ready (.error .sequenceExhausted), u32Max + 1) := by
  decide +kernel

theorem Visited.numbered (h : Visited Act s) : Numbered s := by
  obtain ⟨transport, timer, config, -, hmoves⟩ := h.moves covers_act
  exact hmoves.keep Numbered.move rfl

/-- The number of a packet in flight is not in the trace of releases, so that its acknowledgement
releases it. -/
theorem Visited.releases (h : Visited Act s) {before after : List (Event W E)} {seq : UInt32}
    (htrace : s.trace = before ++ .parsed (.ack s.config.session seq) :: after)
    (hlast : (queued before).length = seq.toNat + 1) (hnew : .released seq ∉ before) :
    ∃ rest, after = .released seq :: rest := by
  obtain ⟨t, t', ⟨transport, timer, config, hmoves⟩, hconfig, hparsed, htake, rest, hrest⟩ :=
    h.parsings _ _ _ htrace
  have hcount := (hmoves.keep (P := Counts) Counts.move ⟨rfl, rfl⟩).txNext
  have hnext : seq.toNat + 1 = t.txNext := by
    rw [← hcount, hparsed, queued_append, queued_singleton, ← hlast]
    simp [Event.queued?]
  have hidle : IdleHolds t := hmoves.keep IdleHolds.move fun _ hpos => by simp [initial] at hpos
  have htx : t.tx ≠ .idle := by
    intro hidle'
    obtain ⟨seq', hseq', hmem⟩ := hidle hidle' (by omega)
    obtain rfl : seq' = seq := UInt32.toNat_inj.mp (by omega)
    rw [hparsed, List.mem_append, List.mem_singleton] at hmem
    exact hnew (hmem.resolve_right (by simp))
  rw [← hconfig] at htake
  cases htake with
  | release =>
      refine ⟨rest, ?_⟩
      rw [← hrest, log_trace, hparsed, List.append_assoc, List.append_assoc] at htrace
      exact (List.cons.inj (List.append_cancel_left htrace)).2.symm
  | stale _ _ hnot => exact absurd ⟨rfl, htx, hnext⟩ hnot

/-- A repeated packet is acknowledged again. -/
theorem Visited.repeats (h : Visited Act s) {before after : List (Event W E)} {seq : UInt32}
    {payload : List UInt8}
    (htrace : s.trace = before ++ .parsed (.data s.config.session seq payload) :: after)
    (hlast : (retained before).length = seq.toNat + 1) (hlen : payload.length ≤ maxPayload N)
    (hafter : retained after = []) :
    (startedFrames after = [] ∧ s.ackPending = some seq) ∨ ∃ mid bytes rest,
      after = mid ++ .started .ack seq bytes :: rest ∧ startedFrames mid = [] := by
  have htakes : (Event.parsed (.data s.config.session seq payload) : Event W E).takes N
      s.config.session (retained before).length := by simp [Event.takes, hlen, hlast]
  have hnext := fun mid (hmid : retained mid = []) => show (retained (before ++
      .parsed (.data s.config.session seq payload) :: mid)).length = seq.toNat + 1 by
    rw [← List.singleton_append, retained_append, retained_append, hmid, hlast.symm]
    simp [Event.retained?]
  by_cases hnone : startedFrames after = []
  · left
    obtain ⟨seq', hseq'⟩ := Option.isSome_iff_exists.mp
      (h.owed.promised before _ after htrace htakes hnone)
    -- The acknowledgement owed is of the last packet retained, and that is this one.
    have hthrough := h.through covers_act
    have hrx := hthrough.inv.ack_next hseq'
    rw [← hthrough.history.counts.rxNext, htrace, hnext after hafter] at hrx
    exact ⟨hnone, by rw [hseq', UInt32.toNat_inj.mp (Nat.succ.inj hrx)]⟩
  · right
    obtain ⟨mid, kind, seq', bytes, rest, rfl, hmid⟩ := exists_started hnone
    obtain ⟨rfl, hseq'⟩ := h.owed.next before _ mid kind seq' bytes rest htrace htakes hmid
    rw [hnext mid (List.append_eq_nil_iff.mp ((retained_append mid _).symm.trans hafter)).1] at hseq'
    obtain rfl : seq' = seq := UInt32.toNat_inj.mp (Nat.succ.inj hseq')
    exact ⟨mid, bytes, rest, rfl, hmid⟩

variable [Waker W] [Transport T W E] [Timer C W]

/-- What holds of the sequence numbers at every moment of a run. -/
structure SequenceNumbers (s : Reliable T C W E N) : Prop where
  txNext_eq : s.txNext = (written s.trace).length
  rxNext_eq : s.rxNext = (retained s.trace).length
  txNext_le : s.txNext ≤ 2 ^ 32
  rxNext_le : s.rxNext ≤ 2 ^ 32
  /-- Every packet is encoded with the number of packets before, and none with that of another. -/
  numbers : (queuedSeqs s.trace).map UInt32.toNat = List.range s.txNext
  distinct : (queuedSeqs s.trace).Nodup
  last_write : ∀ cx buf ret s', buf ≠ [] → s.health = .ok → (written s.trace).length = 2 ^ 32 →
    s.call (.write cx buf) = some (ret, s') →
      queued s'.trace = queued s.trace ∧ ∃ work budget s₁ poll,
        s.drive cx .new = some (work, budget, s₁) ∧ LastWrite s₁ poll ∧ ret = .write poll
  /-- The acknowledgement of the last packet releases it. -/
  last_release : ∀ before after, s.trace = before ++
    .parsed (.ack s.config.session (UInt32.ofNat u32Max)) :: after →
      (queued before).length = 2 ^ 32 → .released (UInt32.ofNat u32Max) ∉ before →
        ∃ rest, after = .released (UInt32.ofNat u32Max) :: rest
  /-- Behind the last payload no other one is retained, and the last one is acknowledged again. -/
  full : ∀ before after, s.trace = before ++ after → (retained before).length = 2 ^ 32 →
    retained after = []
  repeated : ∀ before payload after, s.trace = before ++
    .parsed (.data s.config.session (UInt32.ofNat u32Max) payload) :: after →
      (retained before).length = 2 ^ 32 → payload.length ≤ maxPayload N →
        (startedFrames after = [] ∧ s.ackPending = some (UInt32.ofNat u32Max)) ∨
          ∃ mid bytes rest, after = mid ++ .started .ack (UInt32.ofNat u32Max) bytes :: rest ∧
            startedFrames mid = []

/-- The numbers are used once, and run out safely. -/
theorem Reachable.sequence_numbers (h : Reachable s) : SequenceNumbers s := by
  have hvisited := h.visited covers_act
  have hinv := h.through.inv
  have hcounts := h.history.counts
  have hmax : (2 : Nat) ^ 32 = u32Max + 1 := rfl
  have hseq : (UInt32.ofNat u32Max).toNat + 1 = 2 ^ 32 := by decide
  have hfull : ∀ before after, s.trace = before ++ after →
      (retained before).length = 2 ^ 32 → retained after = [] := by
    intro before after htrace hlen
    have hrx := hcounts.rxNext
    have hle := hinv.rxNext_le
    rw [htrace, retained_append, List.length_append, hlen] at hrx
    exact List.length_eq_zero_iff.mp (by omega)
  refine ⟨?_, hcounts.rxNext.symm, hinv.txNext_le, hinv.rxNext_le, hvisited.numbered, ?_, ?_, ?_,
    hfull, ?_⟩
  · rw [h.accounts.written_eq, hcounts.txNext]
  · have hnodup := List.nodup_range (n := s.txNext)
    rw [← hvisited.numbered] at hnodup
    exact List.Nodup.of_map _ hnodup
  · intro cx buf ret s' hne hhealth hlen hcall
    rw [h.accounts.written_eq, hcounts.txNext] at hlen
    exact h.sound.write_last h.through hne hhealth hlen hcall
  · intro before after htrace hlen hnew
    exact hvisited.releases htrace (hlen.trans hseq.symm) hnew
  · intro before payload after htrace hlen hle
    refine hvisited.repeats htrace (hlen.trans hseq.symm) hle ?_
    have hafter := hfull before _ htrace hlen
    exact (List.append_eq_nil_iff.mp ((retained_append [_] after).symm.trans hafter)).2

omit [Target] in
/-- A packet is written and acknowledged, and then another one is written. -/
theorem sequence_numbers_two : letI := target64
    ∃ s, (((testConnection []).calls [.write 1 [5]]).bind fun s =>
        { s with transport := Link.holding (Packet.ack 7 0).frame }.calls [.write 1 [6]]) = some s ∧
      queuedSeqs s.trace = [0, 1] ∧ SequenceNumbers s := by
  let := target64
  let link : List UInt8 := (Packet.ack 7 0).frame
  obtain ⟨s, hs⟩ := Option.isSome_iff_exists.mp
    (show (((testConnection []).calls [.write 1 [5]]).bind
      fun s => { s with transport := Link.holding link }.calls [.write 1 [6]]).isSome by decide +kernel)
  have hseqs : (((testConnection []).calls [.write 1 [5]]).bind
      fun s => { s with transport := Link.holding link }.calls [.write 1 [6]]).map
        (fun s => queuedSeqs s.trace) = some [0, 1] := by decide +kernel
  rw [hs] at hseqs
  obtain ⟨s₁, hs₁, hrest⟩ := Option.bind_eq_some_iff.mp hs
  have hrun : Run s₁ s := .head (.environment s₁ (.holding link) s₁.timer) (run_of_calls hrest)
  exact ⟨s, hs, Option.some.inj hseqs, ((reachable_testConnection hs₁).run hrun).sequence_numbers⟩

end Runs

end Reliable

end CobsIoAsync.Connection
