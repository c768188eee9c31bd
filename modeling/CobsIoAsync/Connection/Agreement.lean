import CobsIoAsync.Connection.Acts
import CobsIoAsync.Connection.Framing
import CobsIoAsync.Sync.Stream

/-!
# Connection.Agreement — the two ways to decode a stream

A caller of `decode_to_slice` finds the delimiters of a stream while it decodes; a connection first
cuts the stream at its delimiters.  They decode the same packets.
-/

namespace CobsIoAsync.Connection

open Reasoning Protocol

variable {T C W E : Type} {N : Nat}

def Event.decoded? : Event W E → Option (List UInt8)
  | .decoded packet => some packet
  | _ => none

/-- The packets that were passed to `protocol::parse`. -/
def decodedPackets (trace : List (Event W E)) : List (List UInt8) :=
  trace.filterMap Event.decoded?

@[simp] theorem decodedPackets_append (t u : List (Event W E)) :
    decodedPackets (t ++ u) = decodedPackets t ++ decodedPackets u := List.filterMap_append

@[simp] theorem decodedPackets_singleton (e : Event W E) :
    decodedPackets [e] = e.decoded?.toList := by
  cases h : e.decoded? <;> simp [decodedPackets, h]

namespace Reliable

variable {s s' : Reliable T C W E N}
variable [Target]

/-- A frame is decoded as `decode_to_slice` decodes it on its own. -/
theorem ProcessFrame.decoded {body : List UInt8} (hne : body ≠ []) (hzero : 0 ∉ body)
    (hlen : body.length < N) (h : ProcessFrame s body s') :
    frames s'.trace = frames s.trace ++ [body] ∧
      decodedPackets s'.trace = decodedPackets s.trace ++ (Sync.bodyPayload body).toList := by
  have hframes := h.sameInput.frames
  simp only [log_trace, frames_append, frames_singleton, Event.frame?, Option.toList_some] at hframes
  refine ⟨hframes, ?_⟩
  have htake : ∀ {s s' : Reliable T C W E N} {packet : Packet}, Take s packet s' →
      decodedPackets s'.trace = decodedPackets s.trace := by
    intro s s' packet h
    cases h <;> simp [Event.decoded?]
  -- the scratch buffer has room for every frame of the receive buffer
  obtain ⟨scratch', hcase⟩ := Sync.bodyPayload_eq hne hzero 0 [] s.scratch (by omega)
  simp only [List.replicate_zero, List.nil_append] at hcase
  have hdecoded : ∀ {decoded : Codec.DecodedFrame} {scratch : Bytes N},
      Sync.decodeToSlice (body ++ [0]) s.scratch = (.ok decoded, scratch) →
        Sync.bodyPayload body = some (scratch.toList.take decoded.len) := by
    intro decoded scratch hdecode
    rcases hcase with ⟨out, hsome, hok, hout⟩ | ⟨-, written, hinvalid⟩
    · cases hdecode.symm.trans hok
      rw [hsome, hout]
    · cases hdecode.symm.trans hinvalid
  cases h with
  | undecodable hdecode =>
      rcases hcase with ⟨out, -, hok, -⟩ | ⟨hnone, -⟩
      · cases hdecode.symm.trans hok
      · simp [hnone, Event.decoded?]
  | unparsable hdecode =>
      simp only [log_trace, decodedPackets_append, decodedPackets_singleton, Event.decoded?,
        hdecoded hdecode, Option.toList_none, List.append_nil]
  | parsed hdecode hparse htaken =>
      rw [htake htaken]
      simp only [log_trace, decodedPackets_append, decodedPackets_singleton, Event.decoded?,
        hdecoded hdecode, Option.toList_none, List.append_nil]

/-- Everything passed to `protocol::parse` is what the frames decode to. -/
def Decodes (s : Reliable T C W E N) : Prop :=
  decodedPackets s.trace = (frames s.trace).filterMap Sync.bodyPayload

omit [Target] in
theorem Decodes.of_adds (h : Decodes s) (hadds : Adds (fun event => event.input = false) s s') :
    Decodes s' := by
  obtain ⟨events, htrace, hevents⟩ := hadds
  have hdecoded : decodedPackets events = [] := List.filterMap_eq_nil_iff.mpr fun event hevent => by
    have := hevents event hevent
    cases event <;> simp_all [Event.input, Event.decoded?]
  have hframes : frames events = [] := List.filterMap_eq_nil_iff.mpr fun event hevent => by
    have := hevents event hevent
    cases event <;> simp_all [Event.input, Event.frame?]
  unfold Decodes
  rw [htrace, decodedPackets_append, frames_append, hdecoded, hframes, List.append_nil,
    List.append_nil]
  exact h

theorem Decodes.beat (h : Decodes s) (hbeat : Beat Act s s') : Decodes s' := by
  rcases hbeat.apart_or with ⟨-, hact⟩ | ⟨_, _, _, _, -, rfl⟩ | hapart
  · rcases hact.frame_or with ⟨body, hne, hzero, hlen, hframe⟩ | hadds
    · obtain ⟨hframes, hdecoded⟩ := hframe.decoded hne hzero hlen
      unfold Decodes
      rw [hframes, hdecoded, List.filterMap_append, h]
      cases hpayload : Sync.bodyPayload body <;> simp [hpayload]
    · exact h.of_adds hadds
  · exact h.of_adds (.of_snoc rfl rfl)
  · refine h.of_adds (hapart.adds.mono fun event hevent => ?_)
    cases event <;> simp_all [Event.apart, Event.aside, Event.input]

section Runs

variable [Waker W] [Transport T W E] [Timer C W]

theorem Reachable.decodes (h : Reachable s) : Decodes s :=
  (h.visited covers_act).keep (fun _ _ _ => rfl) fun _ hs hbeat => hs.beat hbeat

/-- A stream that arrives while nothing is buffered has its segments decoded one by one. -/
theorem Reachable.decodes_stream (h : Reachable s) (hempty : s.rxLen = 0)
    (hsync : s.rxDiscarding = false) {stream : List UInt8}
    (hlen : ∀ segment ∈ Segments.segments 0 stream, segment.length ≤ N - 1) (hrun : Run s s')
    (hreceived : received s'.trace = received s.trace ++ stream) :
    decodedPackets s'.trace = decodedPackets s.trace ++
      (Segments.bodies 0 stream).filterMap Sync.bodyPayload := by
  have hpos := h.sound.settled.rxLen_lt
  -- what was received before ends at a delimiter
  have htail : Segments.tail 0 (received s.trace) = [] := by
    have hframing := h.framing
    by_cases hshort : (Segments.tail 0 (received s.trace)).length < N
    · obtain ⟨-, hbuffered⟩ := hframing.kept hshort
      rw [← hbuffered, buffered, hempty, List.take_zero]
    · obtain ⟨hdiscarding, -⟩ := hframing.overflowed (Nat.not_lt.mp hshort)
      exact absurd hdiscarding (by simp [hsync])
  have hreach : Reachable s' := h.run hrun
  have hbodies : frames s'.trace = frames s.trace ++ Segments.bodies 0 stream := by
    have hshort : ∀ segment ∈ Segments.segments 0 stream, segment.length < N := by
      intro segment hsegment
      have := hlen segment hsegment
      omega
    rw [hreach.framing.frames_eq, hreceived, Segments.frames_append_of_tail_nil N htail,
      h.framing.frames_eq, Segments.frames_eq_bodies N hshort]
  rw [hreach.decodes, hbodies, List.filterMap_append, ← h.decodes]

/-- The loop over `decode_to_slice` ends at the padding behind the last segment and makes of each
segment what it decodes to on its own; a connection decodes the same packets from the stream. -/
theorem stream_agreement {stream : List UInt8} (hend : stream.getLast? = some 0) {n : Nat}
    (hroom : stream.length ≤ n) :
    ∃ visits, Sync.Visits stream visits ∧
      (∀ fuel (dest : Bytes n), stream.length < fuel →
        Sync.decodeAll fuel stream dest = some visits) ∧
      ((∀ segment ∈ Segments.segments 0 stream, segment.length ≤ N - 1) →
        ∀ s s' : Reliable T C W E N, Reachable s → s.rxLen = 0 → s.rxDiscarding = false →
          Run s s' → received s'.trace = received s.trace ++ stream →
            decodedPackets s'.trace =
              decodedPackets s.trace ++ visits.filterMap Sync.Visit.payload) := by
  obtain ⟨visits, hvisits, hloop⟩ := Sync.decodeAll_visits (.inr hend) hroom
  refine ⟨visits, hvisits, hloop, fun hlen s s' hreach hempty hsync hrun hreceived => ?_⟩
  have hpayloads := congrArg (List.filterMap id) hvisits.payloads
  rw [List.filterMap_map, List.filterMap_map, Function.id_comp, Function.id_comp] at hpayloads
  rw [hpayloads]
  exact hreach.decodes_stream hempty hsync hlen hrun hreceived

omit [Target] in
/-- A frame, and a malformed one behind it, for both ways. -/
theorem stream_agreement_malformed : letI := target64
    ∃ visits, Sync.Visits [2, 5, 0, 3, 1, 0] visits ∧
      (∀ fuel (dest : Bytes 6), 6 < fuel → Sync.decodeAll fuel [2, 5, 0, 3, 1, 0] dest = some visits) ∧
      ∃ s, (testConnection [2, 5, 0, 3, 1, 0]).calls [.progress 1] = some s ∧
        decodedPackets s.trace = visits.filterMap Sync.Visit.payload ∧
          decodedPackets s.trace = [[5]] := by
  let := target64
  have hend : ([2, 5, 0, 3, 1, 0] : List UInt8).getLast? = some 0 := rfl
  obtain ⟨visits, hvisits, hloop, hagree⟩ := stream_agreement (T := Link) (C := FakeClock)
    (W := Nat) (E := MockError) (N := 21) hend (Nat.le_refl 6)
  obtain ⟨s, hs⟩ := Option.isSome_iff_exists.mp
    (show ((testConnection [2, 5, 0, 3, 1, 0]).calls [.progress 1]).isSome by decide +kernel)
  have hstate : ((testConnection [2, 5, 0, 3, 1, 0]).calls [.progress 1]).map
      (fun s => (received s.trace, decodedPackets s.trace)) =
        some ([2, 5, 0, 3, 1, 0], [[5]]) := by decide +kernel
  rw [hs] at hstate
  obtain ⟨hreceived, hdecoded⟩ := Prod.mk.inj (Option.some.inj hstate)
  have hlen : ∀ segment ∈ Segments.segments (0 : UInt8) [2, 5, 0, 3, 1, 0],
      segment.length ≤ 21 - 1 := by
    decide +kernel
  have hstart : Reachable (testConnection [2, 5, 0, 3, 1, 0]) :=
    @reachable_testConnection [2, 5, 0, 3, 1, 0] [] _ rfl
  exact ⟨visits, hvisits, hloop, s, hs,
    hagree hlen _ s hstart rfl rfl (run_of_calls hs) hreceived, hdecoded⟩

end Runs

end Reliable

end CobsIoAsync.Connection
