import CobsIoAsync.Connection.Retransmit
import CobsIoAsync.Connection.Sequence
import CobsIoAsync.Network.Carrier

/-!
# Network.Fifo — links that lose nothing

Over links that hand over every accepted byte, in order and at any time, no acknowledgement gets
lost: once nothing is on its way, the only packet that may still be in flight is one that the other
side dropped every time, with its payload slot full.
-/

namespace CobsIoAsync.Connection

open Reasoning Protocol

variable {T C W E : Type} {N : Nat}
variable {T' C' W' E' : Type} {N' : Nat}

/-! ## Causality -/

theorem exists_parsed {trace : List (Event W E)} {packet : Packet} (h : packet ∈ parsed trace) :
    ∃ before after, trace = before ++ .parsed packet :: after := by
  obtain ⟨event, hevent, hparsed⟩ := List.mem_filterMap.mp h
  cases event with
  | parsed packet' =>
      obtain rfl : packet' = packet := Option.some.inj hparsed
      exact List.append_of_mem hevent
  | _ => cases hparsed

section Causality

open Reliable

variable {a : Reliable T C W E N} {b : Reliable T' C' W' E' N'}
variable [Target]

/-- An acknowledgement that is parsed was earned by the peer. -/
theorem Reliable.Trusts.ack_retained (h : a.Trusts b.trace) (hb : Through b) {seq : UInt32}
    (hparsed : .parsed (.ack a.config.session seq) ∈ a.trace) :
    seq.toNat < (retained b.trace).length := by
  have hheard : .ack seq.toNat ∈ a.endpoint.heard := mem_heard hparsed (if_pos rfl)
  exact (StopAndWait.inv_start.steps hb.history.endpoint).took_of_ack (h.heard _ hheard)

/-- A data packet that is parsed was queued by the peer under its number. -/
theorem Reliable.Trusts.data_queued (h : b.Trusts a.trace) (ha : Through a) {seq : UInt32}
    {payload : List UInt8} (hparsed : .parsed (.data b.config.session seq payload) ∈ b.trace) :
    (queued a.trace)[seq.toNat]? = some payload := by
  have hheard : .item seq.toNat payload ∈ b.endpoint.heard := mem_heard hparsed (if_pos rfl)
  exact (StopAndWait.inv_start.steps ha.history.endpoint).sent_of_item (h.heard _ hheard)

/-- Acknowledgements and packets are parsed behind what they rest on: an acknowledgement behind its
packet, and a packet behind all packets before it. -/
structure Causal (a : Reliable T C W E N) (b : Reliable T' C' W' E' N') : Prop where
  ack : ∀ before seq after,
    a.trace = before ++ .parsed (.ack a.config.session seq) :: after →
      seq.toNat < (queued before).length
  data : ∀ before seq payload after,
    b.trace = before ++ .parsed (.data b.config.session seq payload) :: after →
      seq.toNat ≤ (retained before).length

theorem Causal.left (h : Causal a b) (hpaired : Paired a b) {a' : Reliable T C W E N}
    (htrace : a.trace <+: a'.trace) (hconfig : a'.config = a.config)
    (htrust : a'.Trusts b.trace) : Causal a' b where
  data := h.data
  ack := by
    intro before seq after hsplit
    have hearned := htrust.ack_retained hpaired.right
      (hsplit ▸ List.mem_append_right before List.mem_cons_self)
    obtain ⟨events, hevents⟩ := htrace
    rw [← hevents] at hsplit
    obtain ⟨rest, hold, -⟩ | ⟨front, rfl, -⟩ := split_append hsplit
    · exact h.ack before seq rest (hconfig ▸ hold)
    · have := hpaired.retained_prefix.length_le
      rw [queued_append, List.length_append]
      omega

theorem Causal.right (h : Causal a b) (hpaired : Paired a b) {b' : Reliable T' C' W' E' N'}
    (htrace : b.trace <+: b'.trace) (hconfig : b'.config = b.config)
    (htrust : b'.Trusts a.trace) : Causal a b' where
  ack := h.ack
  data := by
    intro before seq payload after hsplit
    have hqueued := htrust.data_queued hpaired.left
      (hsplit ▸ List.mem_append_right before List.mem_cons_self)
    obtain ⟨events, hevents⟩ := htrace
    rw [← hevents] at hsplit
    obtain ⟨rest, hold, -⟩ | ⟨front, rfl, -⟩ := split_append hsplit
    · exact h.data before seq payload rest (hconfig ▸ hold)
    · have := hpaired.queued_length_le
      have := (List.getElem?_eq_some_iff.mp hqueued).1
      rw [retained_append, List.length_append]
      omega

end Causality

variable [Target] [Waker W] [Transport T W E] [Timer C W] [Waker W'] [Transport T' W' E']
  [Timer C' W']

namespace Peers

variable {p p' : Peers T C W E N T' C' W' E' N'}

theorem Sound.causal (h : Sound p) (hcausal : Causal p.a p.b) (hstep : Step p p') :
    Causal p'.a p'.b := by
  cases hstep with
  | left hnext htrust =>
      have hmoves := hnext.moves h.left.sound
      exact hcausal.left h.paired hmoves.trace hmoves.config htrust
  | right hnext htrust =>
      have hmoves := hnext.moves h.right.sound
      exact hcausal.right h.paired hmoves.trace hmoves.config htrust

theorem Reachable.causal (h : Reachable p) : Causal p.a p.b := by
  obtain ⟨p₀, hstart, hrun⟩ := h
  induction hrun with
  | refl => exact ⟨by simp [hstart.trace], by simp [hstart.trace]⟩
  | tail hbefore hstep ih => exact (Reachable.sound ⟨p₀, hstart, hbefore⟩).causal ih hstep

end Peers

/-! ## Bytes and packets -/

/-- The packets that a buffer of `N` bytes receives with a frame. -/
def Sent.packets (N : Nat) (f : Sent) : List Packet :=
  (Segments.frames 0 N f.bytes).filterMap (Reliable.packetOf N)

namespace Reliable

variable {a : Reliable T C W E N} {b : Reliable T' C' W' E' N'}

/-- What the transport accepted is a beginning of the frames that were started. -/
theorem Reachable.accepted_prefix (h : a.Reachable) :
    accepted a.trace <+: (startedFrames a.trace).flatMap Sent.bytes := by
  obtain ⟨complete, current, ⟨hstarted, -, part, hpart, haccepted⟩, -⟩ :=
    framed_of_line h.history.line
  rw [hstarted, List.flatMap_append, haccepted]
  exact (List.prefix_append_right_inj _).mpr hpart

theorem Reachable.accepted_idle (h : a.Reachable) (hout : a.out = .idle) :
    accepted a.trace = (startedFrames a.trace).flatMap Sent.bytes := by
  obtain ⟨-, -, part, hpart, haccepted⟩ := h.through.framed_idle hout
  rw [haccepted, List.eq_nil_of_prefix_nil hpart, List.append_nil]

theorem Reachable.frames_started (h : a.Reachable) :
    Segments.frames 0 N' ((startedFrames a.trace).flatMap Sent.bytes) =
      (startedFrames a.trace).flatMap fun f => Segments.frames 0 N' f.bytes := by
  rw [List.flatMap_def, Segments.frames_flatten, List.flatMap_map]
  intro chunk hchunk
  obtain ⟨f, hf, rfl⟩ := List.mem_map.mp hchunk
  exact Delivery.tail h (.frame hf)

/-- Packets come out of a link in the order their frames were started in. -/
theorem Reachable.parsed_prefix (ha : a.Reachable) (hb : b.Reachable)
    (h : received b.trace <+: accepted a.trace) :
    parsed b.trace <+: (startedFrames a.trace).flatMap (Sent.packets N') := by
  obtain ⟨rest, hrest⟩ := h.trans ha.accepted_prefix
  obtain ⟨later, hlater⟩ := Segments.exists_frames_append (d := 0) N' (received b.trace) rest
  rw [hrest, ha.frames_started] at hlater
  have hpackets := congrArg (List.filterMap (packetOf N')) hlater
  rw [List.filterMap_flatMap, List.filterMap_append, ← hb.parsed_eq] at hpackets
  exact ⟨_, hpackets.symm⟩

/-- No packet is lost. -/
theorem Reachable.parsed_eq_started (ha : a.Reachable) (hb : b.Reachable)
    (hout : a.out = .idle) (h : received b.trace = accepted a.trace) :
    parsed b.trace = (startedFrames a.trace).flatMap (Sent.packets N') := by
  rw [hb.parsed_eq, h, ha.accepted_idle hout, ha.frames_started, List.filterMap_flatMap]
  rfl

theorem Fits.maxPayload_mono (h : Fits N) (h' : Fits N') (hle : N ≤ N') :
    maxPayload N ≤ maxPayload N' := by
  by_contra hlt
  have hfits := maxPayload_fits h.maxPayload_eq h.maxPayload_pos
  have hlong := maxPayload_maximal h'.maxPayload_eq (Nat.lt_of_not_le hlt)
  omega

/-- An acknowledgement fits every buffer. -/
theorem Reachable.packets_ack (h : a.Reachable) (hfits : Fits N') {seq : UInt32}
    {bytes : List UInt8} (hstarted : .started .ack seq bytes ∈ a.trace) :
    Sent.packets N' ⟨.ack, seq, bytes⟩ = [.ack a.config.session seq] := by
  obtain ⟨before, after, htrace⟩ := List.append_of_mem hstarted
  have hroom := maxPayload_fits hfits.maxPayload_eq hfits.maxPayload_pos
  have hlen := length_ack_frame_le a.config.session seq
  rw [Sent.packets, h.started_ack htrace, packets_of_frame (parse_ack _ _), if_pos]
  have hack : ackFrameLen = 20 := rfl
  simp only [overhead, headerLen, crcLen] at hroom
  omega

/-- A packet fits a buffer that is not smaller than its own. -/
theorem Reachable.packets_data (h : a.Reachable) (hle : N ≤ N') {seq : UInt32}
    {bytes : List UInt8} (hstarted : .started .data seq bytes ∈ a.trace) :
    ∃ payload, payload.length ≤ maxPayload N ∧
      Sent.packets N' ⟨.data, seq, bytes⟩ = [.data a.config.session seq payload] := by
  obtain ⟨before, after, htrace⟩ := List.append_of_mem hstarted
  obtain ⟨payload, -, -, hne, hlen, hbytes⟩ := h.started_data htrace
  have hfits := h.sound.fits
  have hroom := length_data_frame_le hfits.maxPayload_eq hfits.maxPayload_pos a.config.session seq
    hlen
  refine ⟨payload, hlen, ?_⟩
  rw [Sent.packets, hbytes, packets_of_frame (parse_data _ _ hne), if_pos (by omega)]

/-- The packet in flight was sent. -/
theorem Reachable.waiting_started (h : a.Reachable) (htx : a.tx = .waiting) {seq : UInt32}
    (hseq : seq.toNat + 1 = a.txNext) : ∃ bytes, .started .data seq bytes ∈ a.trace := by
  have hflight := (h.visited covers_act).transmits.flight seq hseq
  unfold InFlight at hflight
  rw [htx] at hflight
  have hpos : 0 < transmissions seq a.trace := by
    rw [hflight.1]
    exact Nat.succ_pos _
  obtain ⟨event, hmem, hsends⟩ := List.countP_pos_iff.mp hpos
  obtain ⟨bytes, rfl⟩ := Event.exists_of_sends hsends
  exact ⟨bytes, hmem⟩

omit [Waker W] [Transport T W E] [Timer C W] in
theorem Inv.unread_ne_nil (hinv : Inv a) (hfits : Fits N) (hfull : a.rxStart ≠ a.rxEnd) :
    a.unread ≠ [] := by
  have hroom := maxPayload_le hfits.maxPayload_eq hfits.maxPayload_pos
  have hstart := hinv.rxStart_le
  have hend := hinv.rxEnd_le
  refine List.ne_nil_of_length_pos ?_
  rw [unread, List.length_drop, List.length_take, Bytes.length_toList]
  omega

omit [Waker W] [Transport T W E] [Timer C W] in
/-- A packet with the next number that is not retained finds the slot full. -/
theorem Visited.dropped_full (h : Visited Act a) {before after : List (Event W E)} {seq : UInt32}
    {payload : List UInt8}
    (htrace : a.trace = before ++ .parsed (.data a.config.session seq payload) :: after)
    (hnext : (retained before).length = seq.toNat) (hlen : payload.length ≤ maxPayload N)
    (hdropped : (retained a.trace).length = seq.toNat) :
    delivered before ≠ (retained before).flatten := by
  obtain ⟨t, t', ⟨transport, timer, config, hmoves⟩, hconfig, hparsed, htake, hprefix⟩ :=
    h.parsings _ _ _ htrace
  obtain ⟨-, -, -, hfits, -⟩ := h
  have hinv : Inv t := (inv_initial transport timer config).moves hfits hmoves
  have hrx := (hmoves.keep (P := Counts) Counts.move ⟨rfl, rfl⟩).rxNext
  have hslot : SlotHolds t := hmoves.keep SlotHolds.move rfl
  simp only [hparsed, retained_append, retained_singleton, Event.retained?, Option.toList_none,
    List.append_nil, hnext] at hrx
  rw [← hconfig] at htake
  cases htake with
  | retain =>
      obtain ⟨rest, hrest⟩ := hprefix
      rw [← hrest, log_trace, hparsed] at hdropped
      simp only [retained_append, retained_singleton, Event.retained?, List.length_append,
        Option.toList_some, List.length_singleton] at hdropped
      omega
  | again _ _ _ hpos hseq => omega
  | foreign _ _ _ hforeign => exact absurd hlen (by simpa using hforeign)
  | full _ _ _ _ hfull =>
      intro hall
      unfold SlotHolds at hslot
      simp only [hparsed, delivered_append, delivered_singleton, retained_append,
        retained_singleton, Event.deliveredBytes, Event.retained?, Option.toList_none,
        List.append_nil, hall] at hslot
      exact hinv.unread_ne_nil hfits hfull (List.append_right_eq_self.mp hslot)
  | unexpected _ _ _ hne => exact absurd hrx.symm (by omega)

end Reliable

/-! ## Two connections -/

variable {p p' : Peers T C W E N T' C' W' E' N'}

/-- Links that hand over accepted bytes, in order. -/
def Links.fifo : Links T C W E N T' C' W' E' N' where
  toLeft a theirs := received a.trace <+: accepted theirs
  toRight b theirs := received b.trace <+: accepted theirs

/-- What was sent is carried. -/
theorem Reliable.Reachable.carried {a : Reliable T C W E N} (h : a.Reachable) {stream : List UInt8}
    (hfifo : stream <+: accepted a.trace) : Carried a.trace stream := by
  refine ⟨(startedFrames a.trace).map Sent.bytes, fun chunk hchunk => ?_, ?_⟩
  · obtain ⟨f, hf, rfl⟩ := List.mem_map.mp hchunk
    exact .frame hf
  · rw [← List.flatMap_def]
    exact hfifo.trans h.accepted_prefix

theorem Links.fifo_faithful : (Links.fifo : Links T C W E N T' C' W' E' N').Faithful :=
  ⟨fun ha hb hfifo => (hb.carried hfifo).trusts hb ha,
    fun ha hb hfifo => (ha.carried hfifo).trusts ha hb⟩

namespace Fifo

/-- A step over links that hand over accepted bytes, in order. -/
def Step : Peers T C W E N T' C' W' E' N' → Peers T C W E N T' C' W' E' N' → Prop :=
  Peers.StepOver .fifo

/-- Any number of such steps. -/
def Run : Peers T C W E N T' C' W' E' N' → Peers T C W E N T' C' W' E' N' → Prop :=
  Peers.RunOver .fifo

/-- The states of two connections over such links. -/
def Reachable (p : Peers T C W E N T' C' W' E' N') : Prop := p.ReachableOver .fifo

theorem Reachable.trusting (h : Reachable p) : p.Reachable :=
  Peers.ReachableOver.trusting Links.fifo_faithful h

theorem Reachable.swap (h : Reachable p) : Reachable p.swap := Peers.ReachableOver.swap h

theorem Run.swap (h : Run p p') : Run p.swap p'.swap := Peers.RunOver.swap h

/-- Nothing is on its way: both outputs are idle, and everything that was sent was received. -/
structure Quiet (p : Peers T C W E N T' C' W' E' N') : Prop where
  left : p.a.out = .idle ∧ p.a.ackPending = none
  right : p.b.out = .idle ∧ p.b.ackPending = none
  toLeft : received p.a.trace = accepted p.b.trace
  toRight : received p.b.trace = accepted p.a.trace

omit [Target] [Waker W] [Transport T W E] [Timer C W] [Waker W'] [Transport T' W' E']
  [Timer C' W'] in
theorem Quiet.swap (h : Quiet p) : Quiet p.swap := ⟨h.right, h.left, h.toRight, h.toLeft⟩

/-! ## What is left in the end -/

/-- No acknowledgement is lost: a packet that arrived is acknowledged. -/
theorem Quiet.idle_of_arrived (hq : Quiet p) (h : Reachable p) (hrx : p.b.rxNext = p.a.txNext) :
    p.a.tx = .idle := by
  by_contra htx
  have hsound := h.trusting.sound
  have hvisited := hsound.left.visited Reliable.covers_act
  have hcounts := hsound.left.history.counts
  have hpos := hsound.left.history.frame.txNext_pos hcounts (.inl htx)
  obtain ⟨before, seq, payload, mid, bytes, sent, cx, rest, htrace, hseq, -⟩ :=
    (hsound.right.visited Reliable.covers_act).settled_acks hq.right.1 hq.right.2 (by omega)
  -- The acknowledgement was sent, so it was parsed.
  have hstarted : .started .ack seq bytes ∈ p.b.trace := by simp [htrace]
  have hpackets := hsound.right.packets_ack hsound.left.sound.fits hstarted
  have hparsed : .ack p.b.config.session seq ∈ parsed p.a.trace := by
    rw [hsound.right.parsed_eq_started hsound.left hq.right.1 hq.toLeft]
    exact List.mem_flatMap.mpr ⟨_, List.mem_filterMap.mpr ⟨_, hstarted, rfl⟩, by simp [hpackets]⟩
  rw [← hsound.session] at hparsed
  obtain ⟨front, back, hsplit⟩ := exists_parsed hparsed
  -- It was parsed behind its packet, so the packet was released then or before.
  have hqueued := h.trusting.causal.ack front seq back hsplit
  have hlast : (queued front).length = seq.toNat + 1 := by
    have hle := congrArg (fun trace => (queued trace).length) hsplit
    simp only [queued_append, List.length_append, hcounts.txNext] at hle
    omega
  have hreleased : .released seq ∈ p.a.trace := by
    by_cases hbefore : .released seq ∈ front
    · exact hsplit ▸ List.mem_append_left _ hbefore
    · obtain ⟨back, rfl⟩ := hvisited.releases hsplit hlast hbefore
      simp [hsplit]
  obtain hless | ⟨-, hidle⟩ := hsound.left.history.released seq hreleased
  · omega
  · exact htx hidle

/-- A packet that did not arrive was parsed, and dropped every time with the slot full. -/
theorem Quiet.dropped (hq : Quiet p) (h : Reachable p) (hle : N ≤ N') (htx : p.a.tx = .waiting) :
    ∃ seq payload, seq.toNat + 1 = p.a.txNext ∧ (queued p.a.trace).getLast? = some payload ∧
      .data p.a.config.session seq payload ∈ parsed p.b.trace ∧
        ∀ before payload' after,
          p.b.trace = before ++ .parsed (.data p.a.config.session seq payload') :: after →
            delivered before ≠ (retained before).flatten := by
  have hbusy : p.a.tx ≠ .idle := by simp [htx]
  have hsound := h.trusting.sound
  have hpaired := hsound.paired
  have hseq := hsound.left.through.last_seq hbusy
  generalize UInt32.ofNat (p.a.txNext - 1) = seq at hseq
  have htxNext := hsound.left.history.counts.txNext
  have hrxNext := hsound.right.history.counts.rxNext
  have hmissing : (retained p.b.trace).length = seq.toNat := by
    have := hpaired.queued_length_le
    have := hpaired.retained_prefix.length_le
    have : p.b.rxNext ≠ p.a.txNext := fun hrx => hbusy (hq.idle_of_arrived h hrx)
    omega
  -- The packet was sent, so it was parsed.
  obtain ⟨bytes, hstarted⟩ := hsound.left.waiting_started htx hseq
  obtain ⟨payload, hlen, hpackets⟩ := hsound.left.packets_data hle hstarted
  have hparsed : .data p.a.config.session seq payload ∈ parsed p.b.trace := by
    rw [hsound.left.parsed_eq_started hsound.right hq.left.1 hq.toRight]
    exact List.mem_flatMap.mpr ⟨_, List.mem_filterMap.mpr ⟨_, hstarted, rfl⟩, by simp [hpackets]⟩
  rw [hsound.session] at hparsed ⊢
  have hqueued : ∀ payload', .parsed (.data p.b.config.session seq payload') ∈ p.b.trace →
      (queued p.a.trace).getLast? = some payload' := by
    intro payload' hmem
    rw [List.getLast?_eq_getElem?, show (queued p.a.trace).length - 1 = seq.toNat by omega]
    exact hsound.rightTrusts.data_queued hsound.left.through hmem
  obtain ⟨front, back, hsplit⟩ := exists_parsed hparsed
  refine ⟨seq, payload, hseq, hqueued payload (by simp [hsplit]), hparsed, ?_⟩
  intro before payload' after htrace
  have hsame := (hqueued payload (by simp [hsplit])).symm.trans (hqueued payload' (by simp [htrace]))
  obtain rfl := Option.some.inj hsame
  have hbefore := h.trusting.causal.data before seq payload after htrace
  have hretained := congrArg (fun trace => (retained trace).length) htrace
  simp only [retained_append, List.length_append] at hretained
  exact (hsound.right.visited Reliable.covers_act).dropped_full htrace (by omega)
    (hlen.trans (hsound.left.sound.fits.maxPayload_mono hsound.right.sound.fits hle)) hmissing

/-- What is left of the transfer from left to right when nothing is on its way: all packets are
acknowledged, or the last one was dropped every time it arrived, with the payload slot full. -/
structure Settles (p : Peers T C W E N T' C' W' E' N') : Prop where
  idle_iff : p.a.tx = .idle ↔ p.b.rxNext = p.a.txNext
  dropped : N ≤ N' → p.a.tx = .waiting →
    ∃ seq payload, seq.toNat + 1 = p.a.txNext ∧ (queued p.a.trace).getLast? = some payload ∧
      .data p.a.config.session seq payload ∈ parsed p.b.trace ∧
        ∀ before payload' after,
          p.b.trace = before ++ .parsed (.data p.a.config.session seq payload') :: after →
            delivered before ≠ (retained before).flatten

/-- Over links that lose nothing, two connections do not get stuck. -/
theorem Reachable.settles (h : Reachable p) (hq : Quiet p) : Settles p ∧ Settles p.swap :=
  ⟨⟨⟨fun hidle => (h.trusting.sound.knows.txNext_eq hidle).symm, hq.idle_of_arrived h⟩,
      fun hle => hq.dropped h hle⟩,
    ⟨⟨fun hidle => (h.trusting.sound.swap.knows.txNext_eq hidle).symm,
        hq.swap.idle_of_arrived h.swap⟩,
      fun hle => hq.swap.dropped h.swap hle⟩⟩

/-- What was received was sent. -/
theorem Reachable.received (h : Reachable p) :
    received p.a.trace <+: accepted p.b.trace ∧ received p.b.trace <+: accepted p.a.trace := by
  obtain ⟨p₀, hstart, hrun⟩ := h
  induction hrun with
  | refl =>
      rw [hstart.trace.1, hstart.trace.2]
      exact ⟨List.prefix_rfl, List.prefix_rfl⟩
  | @tail p₁ p₂ hbefore hstep ih =>
      have hsound := (Reachable.trusting ⟨p₀, hstart, hbefore⟩).sound
      cases hstep with
      | left hnext hfifo =>
          refine ⟨hfifo, ih.2.trans ?_⟩
          obtain ⟨events, htrace⟩ := (hnext.moves hsound.left.sound).trace
          rw [← htrace, accepted_append]
          exact List.prefix_append _ _
      | right hnext hfifo =>
          refine ⟨ih.1.trans ?_, hfifo⟩
          obtain ⟨events, htrace⟩ := (hnext.moves hsound.right.sound).trace
          rw [← htrace, accepted_append]
          exact List.prefix_append _ _

/-! ## Runs over the link of the tests -/

instance (s : Reliable Link FakeClock Nat MockError 21) (theirs : List (Event Nat MockError)) :
    Decidable ((Links.fifo : Links Link FakeClock Nat MockError 21 Link FakeClock Nat MockError
      21).toLeft s theirs) := inferInstanceAs (Decidable (received s.trace <+: accepted theirs))

instance (s : Reliable Link FakeClock Nat MockError 21) (theirs : List (Event Nat MockError)) :
    Decidable ((Links.fifo : Links Link FakeClock Nat MockError 21 Link FakeClock Nat MockError
      21).toRight s theirs) := inferInstanceAs (Decidable (received s.trace <+: accepted theirs))

omit [Target] in
/-- The second packet arrives while the first one is unread, and waits to be sent again. -/
theorem settles_full : letI := target64
    ∃ p, Peers.play .fifo [.a (.write 1 [5]), .carry, .b (.progress 2), .carry, .a (.write 1 [6]),
      .carry, .b (.progress 2)] = some p ∧ p.a.tx = .waiting ∧ Settles p ∧ Settles p.swap := by
  let := target64
  let actions : List Peers.Action := [.a (.write 1 [5]), .carry, .b (.progress 2), .carry,
    .a (.write 1 [6]), .carry, .b (.progress 2)]
  have hstate : (Peers.play .fifo actions).map (fun p => (p.a.tx, (p.a.out, p.a.ackPending),
      (p.b.out, p.b.ackPending), decide (received p.a.trace = accepted p.b.trace),
      decide (received p.b.trace = accepted p.a.trace))) =
        some (.waiting, (.idle, none), (.idle, none), true, true) := by
    decide +kernel
  obtain ⟨p, hp, hstate⟩ := Option.map_eq_some_iff.mp hstate
  simp only [Prod.mk.injEq] at hstate
  obtain ⟨hwaiting, hleft, hright, htoLeft, htoRight⟩ := hstate
  have hquiet : Quiet p := ⟨hleft, hright, of_decide_eq_true htoLeft, of_decide_eq_true htoRight⟩
  exact ⟨p, hp, hwaiting, Reachable.settles (Peers.play_reachable hp) hquiet⟩

end Fifo

end CobsIoAsync.Connection
