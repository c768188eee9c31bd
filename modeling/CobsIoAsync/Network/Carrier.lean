import CobsIoAsync.Connection.Acknowledge
import CobsIoAsync.Connection.Agreement
import CobsIoAsync.Connection.Peers
import CobsIoAsync.Protocol.Burst

/-!
# Network.Carrier — links that carry frames

What a connection parses is a function of the bytes that it received.  A link may lose, repeat and
reorder frames, pad them with zeros, and replace one byte of a frame that is not a code by another
nonzero byte: it hands over no packet that was not sent, and what is otherwise assumed of two
connections follows from the bytes.
-/

namespace CobsIoAsync.Connection

open Reasoning Protocol

variable {T C W E : Type} {N : Nat}

@[simp] theorem parsed_append (t u : List (Event W E)) : parsed (t ++ u) = parsed t ++ parsed u :=
  List.filterMap_append

@[simp] theorem parsed_singleton (e : Event W E) : parsed [e] = e.parsed?.toList := by
  cases h : e.parsed? <;> simp [parsed, h]

namespace Reliable

variable {s s' : Reliable T C W E N}

/-! ## The packets of a stream -/

/-- A frame is parsed as the packet in its body. -/
theorem ProcessFrame.packet [Target] {body : List UInt8} (h : ProcessFrame s body s') :
    frames s'.trace = frames s.trace ++ [body] ∧
      Connection.parsed s'.trace = Connection.parsed s.trace ++ (packetOf N body).toList := by
  have hframes := h.sameInput.frames
  simp only [log_trace, frames_append, frames_singleton, Event.frame?, Option.toList_some] at hframes
  refine ⟨hframes, ?_⟩
  have htake : ∀ {s s' : Reliable T C W E N} {packet : Packet}, Take s packet s' →
      Connection.parsed s'.trace = Connection.parsed s.trace := by
    intro s s' packet h
    cases h <;> simp [Event.parsed?]
  have hpacket := packetOf_eq body s.scratch
  cases h with
  | undecodable hdecode =>
      rw [hdecode] at hpacket
      simp [hpacket, Event.parsed?]
  | unparsable hdecode hparse =>
      rw [hdecode] at hpacket
      simp only [hparse, Option.join_some] at hpacket
      simp only [log_trace, parsed_append, parsed_singleton, Event.parsed?, hpacket,
        Option.toList_none, List.append_nil]
  | parsed hdecode hparse htaken =>
      rw [hdecode] at hpacket
      simp only [hparse, Option.join_some] at hpacket
      rw [htake htaken, hpacket]
      simp only [log_trace, parsed_append, parsed_singleton, Event.parsed?, Option.toList_none,
        List.append_nil]

/-- Every packet that was parsed is in the body of a frame. -/
def Parses (s : Reliable T C W E N) : Prop :=
  parsed s.trace = (frames s.trace).filterMap (packetOf N)

theorem Parses.of_adds (h : Parses s) (hadds : Adds (fun event => event.input = false) s s') :
    Parses s' := by
  obtain ⟨events, htrace, hevents⟩ := hadds
  have hparsed : parsed events = [] := List.filterMap_eq_nil_iff.mpr fun event hevent => by
    have := hevents event hevent
    cases event <;> simp_all [Event.input, Event.parsed?]
  have hframes : frames events = [] := List.filterMap_eq_nil_iff.mpr fun event hevent => by
    have := hevents event hevent
    cases event <;> simp_all [Event.input, Event.frame?]
  unfold Parses
  rw [htrace, parsed_append, frames_append, hparsed, hframes, List.append_nil, List.append_nil]
  exact h

theorem Parses.beat [Target] (h : Parses s) (hbeat : Beat Act s s') : Parses s' := by
  rcases hbeat.apart_or with ⟨-, hact⟩ | ⟨_, _, _, _, -, rfl⟩ | hapart
  · rcases hact.frame_or with ⟨body, -, -, -, hframe⟩ | hadds
    · obtain ⟨hframes, hparsed⟩ := hframe.packet
      unfold Parses
      rw [hframes, hparsed, List.filterMap_append, h]
      cases hpacket : packetOf N body <;> simp [hpacket]
    · exact h.of_adds hadds
  · exact h.of_adds (.of_snoc rfl rfl)
  · refine h.of_adds (hapart.adds.mono fun event hevent => ?_)
    cases event <;> simp_all [Event.apart, Event.aside, Event.input]

section Runs

variable [Target] [Waker W] [Transport T W E] [Timer C W]

/-- What was parsed depends on the bytes that were received, and on nothing else. -/
theorem Reachable.parsed_eq (h : Reachable s) :
    parsed s.trace = (Segments.frames 0 N (received s.trace)).filterMap (packetOf N) := by
  have hparses : Parses s :=
    (h.visited covers_act).keep (fun _ _ _ => rfl) fun _ hs hbeat => hs.beat hbeat
  rw [hparses, h.framing.frames_eq]

/-! ## The packets of frames -/

omit [Waker W] [Transport T W E] [Timer C W] in
/-- What is queued is not empty, and fits a packet. -/
theorem Move.of_queued_payload (h : Move s s') {seq : UInt32} {payload : List UInt8}
    (htrace : s'.trace = s.trace ++ [.queued seq payload]) :
    payload ≠ [] ∧ payload.length ≤ maxPayload N := by
  cases h with
  | env => simp at htrace
  | note event houter =>
      obtain rfl : event = .queued seq payload := by simpa using htrace
      cases houter
  | queue payload' txFrame txLen hready hnext hne hpayload =>
      obtain ⟨-, rfl⟩ : _ ∧ payload' = payload := by simpa using htrace
      exact ⟨hne, hpayload⟩
  | deliver => simp at htrace
  | turn hturn =>
      cases hturn with
      | note event hquiet =>
          obtain rfl : event = .queued seq payload := by simpa using htrace
          cases hquiet
      | _ => simp at htrace

/-- The last packet that was queued at some moment of a run has the last number. -/
theorem Reachable.last_queued (h : Reachable s) {before after : List (Event W E)}
    (htrace : s.trace = before ++ after) {payload : List UInt8}
    (hlast : (queued before).getLast? = some payload) :
    ∃ seq, .queued seq payload ∈ before ∧ seq.toNat + 1 = (queued before).length ∧
      payload ≠ [] ∧ payload.length ≤ maxPayload N := by
  have hne : queued before ≠ [] := by
    intro hnil
    simp [hnil] at hlast
  obtain ⟨front, event, last, back, rfl, hevent, hback⟩ := exists_last hne
  cases event with
  | queued seq payload' =>
      obtain rfl : payload' = last := Option.some.inj hevent
      have hqueued : queued (front ++ .queued seq payload' :: back) = queued front ++ [payload'] := by
        rw [← List.singleton_append, queued_append, queued_append, queued_singleton]
        simp only [Event.queued?, Option.toList_some, queued, hback, List.append_nil]
      obtain rfl : payload' = payload := by simpa [hqueued] using hlast
      rw [List.append_assoc, List.cons_append] at htrace
      obtain ⟨s₁, s₂, h₁, hmove, -, rfl, hs₂⟩ := h.event htrace
      obtain ⟨-, hnext, hseq⟩ := hmove.of_queued hs₂
      refine ⟨seq, by simp, ?_, hmove.of_queued_payload hs₂⟩
      rw [hqueued, hseq, toNat_ofNat_of_le hnext, List.length_append, h₁.history.counts.txNext]
      rfl
  | _ => cases hevent

/-- An acknowledgement that was started is the frame of its number. -/
theorem Reachable.started_ack (h : Reachable s) {before after : List (Event W E)} {seq : UInt32}
    {bytes : List UInt8} (htrace : s.trace = before ++ .started .ack seq bytes :: after) :
    bytes = (Packet.ack s.config.session seq).frame := by
  obtain ⟨s₁, s₂, h₁, hmove, hconfig, rfl, hs₂⟩ := h.event htrace
  obtain ⟨-, ⟨-, -, hbytes⟩ | ⟨hkind, -⟩⟩ := hmove.of_started hs₂
  · rw [hbytes, hconfig]
  · cases hkind

/-- A data frame that was started is the frame of the packet that was queued last. -/
theorem Reachable.started_data (h : Reachable s) {before after : List (Event W E)} {seq : UInt32}
    {bytes : List UInt8} (htrace : s.trace = before ++ .started .data seq bytes :: after) :
    ∃ payload, .queued seq payload ∈ before ∧ seq.toNat + 1 = (queued before).length ∧
      payload ≠ [] ∧ payload.length ≤ maxPayload N ∧
        bytes = (Packet.data s.config.session seq payload).frame := by
  obtain ⟨s₁, s₂, h₁, hmove, hconfig, rfl, hs₂⟩ := h.event htrace
  obtain ⟨-, ⟨hkind, -⟩ | ⟨-, htx, hlabel, hbytes⟩⟩ := hmove.of_started hs₂
  · cases hkind
  have hbusy : s₁.tx ≠ .idle ∨ s₁.dataOutBusy := .inl (by simp [htx])
  obtain ⟨payload, hlast, hlen, hframe⟩ := h₁.history.frame hbusy
  obtain ⟨seq', hmem, hseq, hne, -⟩ := h.last_queued htrace hlast
  have hnext : s₁.txNext - 1 = seq'.toNat := by
    rw [← h₁.history.counts.txNext, ← hseq, Nat.add_sub_cancel]
  rw [hnext, UInt32.ofNat_toNat] at hlabel hframe
  subst hlabel
  exact ⟨payload, hmem, hseq, hne, hlen, by rw [hbytes, hframe, hconfig]⟩

/-- A frame that was started is the frame of a packet that was encoded. -/
theorem Reachable.started_packet (h : Reachable s) {f : Sent} (hf : f ∈ startedFrames s.trace) :
    ∃ packet, f.bytes = packet.frame ∧ parse packet.bytes = some (some packet) ∧
      packet.session = s.config.session ∧ Encoded s.trace packet := by
  obtain ⟨kind, seq, bytes⟩ := f
  obtain ⟨before, after, htrace⟩ := mem_startedFrames hf
  cases kind with
  | ack =>
      exact ⟨_, h.started_ack htrace, parse_ack _ _, rfl, .started .ack seq bytes, by simp [htrace],
        by simp [Event.encodes]⟩
  | data =>
      obtain ⟨payload, hmem, -, hne, -, hbytes⟩ := h.started_data htrace
      exact ⟨_, hbytes, parse_data _ _ hne, rfl, .queued seq payload,
        htrace ▸ List.mem_append_left _ hmem, by simp [Event.encodes]⟩

end Runs

/-! ## Bodies -/

open Cobs

/-- A body of blocks is parsed as the bytes that the blocks stand for. -/
theorem packetOf_wire {bs : List Block} (hbs : bs ≠ []) (hroom : (wire bs).length ≤ N) :
    packetOf N (wire bs) = (parse (payload bs)).join := by
  obtain ⟨out, hdecode, hout⟩ := Codec.decodeSlice_delimited 0 hbs [] (Bytes.zeros N)
    ((length_rest_le true bs).trans hroom)
  rw [List.replicate_zero, List.nil_append] at hdecode
  simp only [packetOf, Sync.decodeToSlice, hdecode, hout.take]

/-- A body can be divided into blocks in one way only. -/
theorem parse_wire {bs bs' : List Block} (hbs : bs ≠ []) (hbs' : bs' ≠ [])
    (h : wire bs = wire bs') : (parse (payload bs)).join = (parse (payload bs')).join := by
  rw [← packetOf_wire hbs (Nat.le_refl _), ← packetOf_wire hbs' (congrArg List.length h).ge, h]

/-- In the frame of a packet a body is parsed as the packet, however it is divided. -/
theorem parse_of_frame {packet : Packet} (hparse : parse packet.bytes = some (some packet))
    {bs : List Block} (hbs : bs ≠ []) (hframe : packet.frame = 0 :: (wire bs ++ [0])) :
    parse (payload bs) = some (some packet) := by
  have hwire : wire (split packet.bytes) = wire bs := by
    rw [Packet.frame, Sync.delimited, encode] at hframe
    exact List.append_cancel_right (List.cons.inj hframe).2
  have hjoin := parse_wire (split_ne_nil _) hbs hwire
  rw [payload_split, hparse] at hjoin
  exact Option.join_eq_some_iff.mp hjoin.symm

/-- The packet of a frame comes out of it, where there is room for the frame. -/
theorem packets_of_frame {packet : Packet} (hparse : parse packet.bytes = some (some packet)) :
    (Segments.frames 0 N packet.frame).filterMap (packetOf N) =
      if packet.frame.length < N + 2 then [packet] else [] := by
  have hne : encode packet.bytes ≠ [] :=
    List.ne_nil_of_length_pos (Nat.zero_lt_of_lt (length_lt_encode packet.bytes))
  have hlength : packet.frame.length = (encode packet.bytes).length + 2 := by
    rw [Packet.frame, Sync.delimited]
    simp
  rw [hlength, Packet.frame, Sync.delimited, Segments.frames_delimited N (zero_notMem_encode _)]
  by_cases hroom : (encode packet.bytes).length < N
  · rw [if_pos ⟨hne, hroom⟩, if_pos (by omega)]
    have hpacket := packetOf_wire (N := N) (split_ne_nil packet.bytes) hroom.le
    rw [payload_split, hparse] at hpacket
    rw [encode, List.filterMap_cons_some hpacket, List.filterMap_nil]
  · rw [if_neg (fun h => hroom h.2), if_neg (by omega), List.filterMap_nil]

end Reliable

/-! ## Links -/

section Links

variable {T' C' W' E' : Type} {N' : Nat}

open Cobs

/-- What a link may hand over in one piece, when the other side has logged `theirs`. -/
inductive Delivery (theirs : List (Event W E)) : List UInt8 → Prop
  /-- A frame that was started, at any time and any number of times. -/
  | frame {f : Sent} (hf : f ∈ startedFrames theirs) : Delivery theirs f.bytes
  | padding (k : Nat) : Delivery theirs (List.replicate k 0)
  /-- A frame with another nonzero byte in the place of one that is not a code. -/
  | damaged {f : Sent} {pre post : List Block} {b b' : Block} {xs ys : List UInt8} {y y' : UInt8}
      (hf : f ∈ startedFrames theirs) (hbytes : f.bytes = 0 :: (wire (pre ++ b :: post) ++ [0]))
      (hb : b.data = xs ++ y :: ys) (hb' : b'.data = xs ++ y' :: ys) (hne : y' ≠ y) :
      Delivery theirs (0 :: (wire (pre ++ b' :: post) ++ [0]))

/-- A stream of such pieces in any order, the last of them perhaps in part. -/
def Carried (theirs : List (Event W E)) (stream : List UInt8) : Prop :=
  ∃ chunks : List (List UInt8), (∀ chunk ∈ chunks, Delivery theirs chunk) ∧ stream <+: chunks.flatten

open Reliable

variable {s : Reliable T C W E N} {t : Reliable T' C' W' E' N'}
variable [Target] [Waker W] [Transport T W E] [Timer C W] [Waker W']

theorem Delivery.tail {chunk : List UInt8} (hs : s.Reachable)
    (h : Delivery s.trace chunk) : Segments.tail 0 chunk = [] := by
  cases h with
  | frame hf =>
      obtain ⟨packet, hbytes, -⟩ := hs.started_packet hf
      rw [hbytes, Packet.frame, Sync.delimited, ← List.cons_append]
      exact Segments.tail_of_last (.inr (List.getLast?_concat ..))
  | padding k =>
      cases k with
      | zero => rfl
      | succ k => exact Segments.tail_of_last (.inr (by simp [List.getLast?_replicate]))
  | damaged =>
      rw [← List.cons_append]
      exact Segments.tail_of_last (.inr (List.getLast?_concat ..))

/-- The packets in a piece were encoded, in the session of their sender. -/
theorem Delivery.encoded {chunk : List UInt8} (hs : s.Reachable) (h : Delivery s.trace chunk)
    {body : List UInt8} (hbody : body ∈ Segments.frames 0 N' chunk) {packet : Packet}
    (hpacket : packetOf N' body = some packet) :
    Encoded s.trace packet ∧ packet.session = s.config.session := by
  cases h with
  | @frame f hf =>
      obtain ⟨packet', hbytes, hparse, hsession, hencoded⟩ := hs.started_packet hf
      have hmem := List.mem_filterMap.mpr ⟨body, hbody, hpacket⟩
      rw [hbytes, packets_of_frame hparse] at hmem
      split at hmem
      · exact List.mem_singleton.mp hmem ▸ ⟨hencoded, hsession⟩
      · cases hmem
  | padding k =>
      rw [Segments.frames_padding] at hbody
      cases hbody
  | @damaged f pre post b b' xs ys y y' hf hbytes hb hb' hne =>
      obtain ⟨packet', hframe, hparse, -, -⟩ := hs.started_packet hf
      rw [Segments.frames_delimited N' (zero_notMem_wire _)] at hbody
      split at hbody
      · rename_i hshort
        obtain rfl := List.mem_singleton.mp hbody
        -- the checksum notices the byte that was changed
        have haccepts := parse_of_frame hparse (by simp) (hframe.symm.trans hbytes)
        rw [packetOf_wire (by simp) hshort.2.le, rejects_body hb hb' hne haccepts] at hpacket
        cases hpacket
      · cases hbody

/-- What a connection parses is in one of the pieces that make up what it received. -/
theorem Reliable.Reachable.parsed_piece [Transport T' W' E'] [Timer C' W'] (ht : t.Reachable)
    {chunks : List (List UInt8)} (htail : ∀ chunk ∈ chunks, Segments.tail 0 chunk = [])
    (hreceived : received t.trace <+: chunks.flatten) {packet : Packet}
    (hparsed : packet ∈ parsed t.trace) : ∃ chunk ∈ chunks, ∃ body ∈ Segments.frames 0 N' chunk,
      packetOf N' body = some packet := by
  obtain ⟨rest, hrest⟩ := hreceived
  rw [ht.parsed_eq] at hparsed
  obtain ⟨body, hbody, hpacket⟩ := List.mem_filterMap.mp hparsed
  obtain ⟨later, hlater⟩ :=
    Segments.exists_frames_append (d := 0) N' (received t.trace) rest
  have hmem : body ∈ Segments.frames 0 N' chunks.flatten := by
    rw [← hrest, hlater]
    exact List.mem_append_left _ hbody
  rw [Segments.frames_flatten N' htail] at hmem
  obtain ⟨chunk, hchunk, hbody⟩ := List.mem_flatMap.mp hmem
  exact ⟨chunk, hchunk, body, hbody, hpacket⟩

/-- Over such a link a connection parses nothing but what the other side encoded. -/
theorem Carried.trusts [Transport T' W' E'] [Timer C' W'] (hs : s.Reachable) (ht : t.Reachable)
    (h : Carried s.trace (received t.trace)) : t.Trusts s.trace := by
  intro packet hparsed _
  obtain ⟨chunks, hchunks, hreceived⟩ := h
  obtain ⟨chunk, hchunk, body, hbody, hpacket⟩ :=
    ht.parsed_piece (fun chunk hchunk => (hchunks chunk hchunk).tail hs) hreceived hparsed
  exact ((hchunks chunk hchunk).encoded hs hbody hpacket).1

end Links

/-! ## Two connections -/

variable {T' C' W' E' : Type} {N' : Nat}
variable {p : Peers T C W E N T' C' W' E' N'}
variable [Target] [Waker W] [Transport T W E] [Timer C W] [Waker W'] [Transport T' W' E']
  [Timer C' W']

/-- Links that carry frames. -/
def Links.carrying : Links T C W E N T' C' W' E' N' where
  toLeft a theirs := Carried theirs (received a.trace)
  toRight b theirs := Carried theirs (received b.trace)

theorem Links.carrying_faithful :
    (Links.carrying : Links T C W E N T' C' W' E' N').Faithful :=
  ⟨fun ha hb hcarried => hcarried.trusts hb ha, fun ha hb hcarried => hcarried.trusts ha hb⟩

namespace Carrier

/-- The states of two connections over links that carry frames. -/
def Reachable (p : Peers T C W E N T' C' W' E' N') : Prop := p.ReachableOver .carrying

/-- Whatever such links do, each side parses only what the other one encoded, reads a beginning of
what the other one wrote, and all of it when the other one is idle. -/
theorem Reachable.transfers (h : Reachable p) : p.Arrives ∧ p.swap.Arrives :=
  h.arrives Links.carrying_faithful

/-- One side writes a byte, and the link repeats its frame behind some padding. -/
def repeated : letI := target64; Exec Peers.OverLinks :=
  letI := target64
  do
    let (_, a) ← (testConnection []).call (.write 1 [5])
    let stream := a.transport.outgoing ++ [0, 0] ++ a.transport.outgoing
    let b := { testConnection [] with transport := Link.holding stream }
    let (_, b) ← b.call (.read 2 [0, 0])
    some ⟨a, b⟩

omit [Target] in
theorem reachable_of_repeated {p : Peers.OverLinks} (h : letI := target64; repeated = some p)
    (hsilent : received p.a.trace = [])
    (hframe : (startedFrames p.a.trace).map Sent.bytes = [p.a.transport.outgoing])
    (hstream : received p.b.trace = p.a.transport.outgoing ++ [0, 0] ++ p.a.transport.outgoing) :
    letI := target64; Reachable p := by
  let := target64
  unfold repeated at h
  simp only [Option.bind_eq_bind, Option.bind_eq_some_iff, Prod.exists, Option.some.injEq] at h
  obtain ⟨_, a, ha, _, b, hb, rfl⟩ := h
  obtain ⟨f, hf, hbytes⟩ : ∃ f ∈ startedFrames a.trace, f.bytes = a.transport.outgoing :=
    List.mem_map.mp (hframe ▸ List.mem_singleton_self _)
  have hnothing : ∀ trace : List (Event Nat MockError), Carried trace [] :=
    fun trace => ⟨[], by simp, List.prefix_rfl⟩
  refine ⟨⟨testConnection [], testConnection []⟩, ?_, ?_⟩
  · exact ⟨.holding [], ⟨0⟩, testConfig, .holding [], ⟨0⟩, testConfig, rfl, rfl, rfl⟩
  have hfirst : Carried (testConnection []).trace (received a.trace) := by
    rw [hsilent]
    exact hnothing _
  refine .head (.left (.call ha) hfirst) (.head (.right (.environment _ (.holding
    (a.transport.outgoing ++ [0, 0] ++ a.transport.outgoing)) ⟨0⟩) (hnothing _)) (.single
      (.right (.call hb) ⟨[f.bytes, List.replicate 2 0, f.bytes], ?_, ?_⟩)))
  · simp only [List.mem_cons, List.not_mem_nil, or_false, forall_eq_or_imp, forall_eq]
    exact ⟨.frame hf, .padding 2, .frame hf⟩
  · rw [hstream, hbytes]
    simp [List.replicate]

omit [Target] in
/-- The repeated frame is delivered once. -/
theorem transfers_repeated : letI := target64
    ∃ p, repeated = some p ∧ readOut p.b.trace = [5] ∧
      readOut p.b.trace <+: (written p.a.trace).flatten := by
  let := target64
  have hstate : repeated.map (fun p => (readOut p.b.trace, received p.a.trace,
      decide ((startedFrames p.a.trace).map Sent.bytes = [p.a.transport.outgoing]),
      decide (received p.b.trace =
        p.a.transport.outgoing ++ [0, 0] ++ p.a.transport.outgoing))) =
        some ([5], [], true, true) := by
    decide +kernel
  obtain ⟨p, hp, hstate⟩ := Option.map_eq_some_iff.mp hstate
  simp only [Prod.mk.injEq] at hstate
  obtain ⟨hread, hsilent, hframe, hstream⟩ := hstate
  have hreach := reachable_of_repeated hp hsilent (of_decide_eq_true hframe)
    (of_decide_eq_true hstream)
  obtain ⟨harrives, -⟩ := hreach.transfers
  exact ⟨p, hp, hread, harrives.readOut_prefix⟩

end Carrier

end CobsIoAsync.Connection
