import CobsIoAsync.Protocol.Capacity
import CobsIoAsync.Sync.RoundTrip

/-!
# Protocol.RoundTrip — packets on the wire and back

`Packet.bytes` is the layout of a packet before COBS and `Packet.frame` its delimited frame.  The
encoders write exactly these, and the parser reads them back.
-/

namespace CobsIoAsync.Protocol

open Reasoning Sync

/-! ## Layout -/

/-- The fields that the checksum covers. -/
def covered (kind : UInt8) (session : UInt64) (seq : UInt32) (payload : List UInt8) :
    List UInt8 :=
  [kind] ++ BigEndian.bytes 8 session.toNat ++ BigEndian.bytes 4 seq.toNat ++ payload

/-- A packet with its checksum. -/
def sealed (fields : List UInt8) : List UInt8 :=
  fields ++ BigEndian.bytes 4 (crc32 fields).toNat

/-- A packet as it is encoded: kind, session, sequence number, payload and checksum. -/
def Packet.bytes : Packet → List UInt8
  | .data session seq payload => sealed (covered kindData session seq payload)
  | .ack session seq => sealed (covered kindAck session seq [])

/-- The delimited frame of a packet. -/
def Packet.frame (p : Packet) : List UInt8 := delimited p.bytes

def Packet.session : Packet → UInt64
  | .data session _ _ => session
  | .ack session _ => session

theorem length_covered (kind : UInt8) (session : UInt64) (seq : UInt32) (payload : List UInt8) :
    (covered kind session seq payload).length = headerLen + payload.length := by
  simp [covered, headerLen]
  omega

theorem length_sealed (fields : List UInt8) : (sealed fields).length = fields.length + crcLen := by
  simp [sealed, crcLen]

/-! ## Encoding -/

variable {m n : Nat}

theorem sealPacket_returns {orig decoded : Bytes m} {fields : List UInt8} {len : Nat}
    (h : orig.Overwrites fields decoded) (hlen : len = fields.length + crcLen) (hm : len ≤ m)
    {frame : Bytes n} (hn : (delimited (sealed fields)).length ≤ n) :
    Returns (sealPacket decoded len frame) (fun r =>
      r.1 = (delimited (sealed fields)).length ∧ orig.Overwrites (sealed fields) r.2.1 ∧
        frame.Overwrites (delimited (sealed fields)) r.2.2) := by
  have hsub : checkedSub len crcLen = some fields.length := by
    rw [checkedSub_eq (by omega), hlen, Nat.add_sub_cancel]
  have hcrc : len = fields.length + (BigEndian.bytes 4 (crc32 fields).toNat).length := by
    simpa [crcLen] using hlen
  obtain ⟨decoded', hcopy, hdecoded'⟩ := h.append rfl hcrc hm
  have hslice := hdecoded'.slice_written (i := len) (by rw [← sealed, length_sealed, hlen])
  obtain ⟨_, hrun, ⟨frameLen, frame'⟩, rfl, hframeLen, hframe'⟩ :=
    (encodeFromSliceIncludingSentinels_outcome (sealed fields) frame).fits hn
  refine ⟨(frameLen, decoded', frame'), ?_, hframeLen, hdecoded', hframe'⟩
  simp only [sealPacket, hsub, h.slice_written rfl, hcopy, hslice, bind, Option.bind_some]
  rw [← sealed, hrun]
  rfl

theorem header_returns (decoded : Bytes m) (kind : UInt8) (session : UInt64) (seq : UInt32)
    (hm : headerLen ≤ m) :
    Returns (header decoded kind session seq)
      (decoded.Overwrites (covered kind session seq [])) := by
  simp only [headerLen] at hm
  unfold header
  refine ((Bytes.Overwrites.refl decoded).push (by simp; omega) kind).bind fun d₁ h₁ => ?_
  refine (h₁.append (by simp) (by simp) (by omega)).bind fun d₂ h₂ => ?_
  refine (h₂.append (by simp) (by simp [headerLen]) (by simp only [headerLen]; omega)).mono
    fun d₃ h₃ => ?_
  simpa [covered] using h₃

/-- `encode_data` writes the frame of the packet and leaves the packet in the scratch buffer. -/
theorem encodeData_returns (session : UInt64) (seq : UInt32) (payload : List UInt8)
    (scratch : Bytes m) (frame : Bytes n) (hm : overhead + payload.length ≤ m)
    (hn : (Packet.data session seq payload).frame.length ≤ n) :
    Returns (encodeData session seq payload scratch frame) (fun r =>
      r.1 = (Packet.data session seq payload).frame.length ∧
        scratch.Overwrites (Packet.data session seq payload).bytes r.2.1 ∧
        frame.Overwrites (Packet.data session seq payload).frame r.2.2) := by
  simp only [overhead] at hm
  unfold encodeData
  refine (header_returns scratch kindData session seq (by omega)).bind fun d₁ h₁ => ?_
  refine (h₁.append (by simp [length_covered]) (by simp [length_covered]) (by omega)).bind
    fun d₂ h₂ => ?_
  rw [show covered kindData session seq [] ++ payload = covered kindData session seq payload by
    simp [covered]] at h₂
  exact sealPacket_returns h₂ (by rw [length_covered, overhead]; omega)
    (by simp only [overhead]; omega) hn

/-- The frame of an acknowledgement fits its buffer. -/
theorem length_ack_frame_le (session : UInt64) (seq : UInt32) :
    (Packet.ack session seq).frame.length ≤ ackFrameLen := by
  have hlen := Cobs.length_encode_le (Packet.ack session seq).bytes
  rw [show (Packet.ack session seq).bytes.length = overhead by
    rw [Packet.bytes, length_sealed, length_covered]; rfl] at hlen
  rw [Packet.frame, length_delimited, ackFrameLen, maxEncodingOverhead_eq]
  omega

/-- `encode_ack` writes the frame of the packet. -/
theorem encodeAck_returns (session : UInt64) (seq : UInt32) (frame : Bytes ackFrameLen) :
    Returns (encodeAck session seq frame) (fun r =>
      r.1 = (Packet.ack session seq).frame.length ∧
        frame.Overwrites (Packet.ack session seq).frame r.2) := by
  unfold encodeAck
  refine (header_returns (.zeros overhead) kindAck session seq (by decide)).bind fun d₁ h₁ => ?_
  exact (sealPacket_returns h₁ (by rw [length_covered]; rfl) (Nat.le_refl _)
    (length_ack_frame_le session seq)).bind fun r hr => .ret ⟨hr.1, hr.2.2⟩

/-! ## Parsing -/

theorem crc_roundTrip (crc : UInt32) :
    UInt32.ofNat (BigEndian.value (BigEndian.bytes 4 crc.toNat)) = crc := by
  rw [BigEndian.value_bytes_of_lt (by simpa using crc.toNat_lt), UInt32.ofNat_toNat]

theorem session_roundTrip (session : UInt64) :
    UInt64.ofNat (BigEndian.value (BigEndian.bytes 8 session.toNat)) = session := by
  rw [BigEndian.value_bytes_of_lt (by simpa using session.toNat_lt), UInt64.ofNat_toNat]

/-- The four bytes of a field are the bytes of the number they are read as. -/
theorem crc_bytes {xs : List UInt8} (hlen : xs.length = 4) :
    BigEndian.bytes 4 (UInt32.ofNat (BigEndian.value xs)).toNat = xs := by
  have hlt : BigEndian.value xs < 2 ^ 32 := by
    have hvalue := BigEndian.value_lt xs
    rw [hlen] at hvalue
    exact hvalue
  rw [UInt32.toNat_ofNat', Nat.mod_eq_of_lt hlt, ← hlen, BigEndian.bytes_value]

theorem session_bytes {xs : List UInt8} (hlen : xs.length = 8) :
    BigEndian.bytes 8 (UInt64.ofNat (BigEndian.value xs)).toNat = xs := by
  have hlt : BigEndian.value xs < 2 ^ 64 := by
    have hvalue := BigEndian.value_lt xs
    rw [hlen] at hvalue
    exact hvalue
  rw [UInt64.toNat_ofNat', Nat.mod_eq_of_lt hlt, ← hlen, BigEndian.bytes_value]

/-- A list that is cut into three parts at the right places. -/
theorem slice_middle {α : Type} (xs ys zs : List α) {i j : Nat} (hi : i = xs.length)
    (hj : j = xs.length + ys.length) : slice (xs ++ ys ++ zs) i j = some ys := by
  subst hi hj
  rw [slice_eq (Nat.le_add_right _ _) (by simp), ← List.length_append, List.take_left,
    List.drop_left]

/-- The parser never panics. -/
theorem parse_returns (decoded : List UInt8) : Returns (parse decoded) fun _ => True := by
  unfold parse
  split
  · exact .ret trivial
  · rename_i hlong
    simp only [overhead, headerLen, crcLen] at hlong
    have hbody : (decoded.take (decoded.length - crcLen)).length = decoded.length - crcLen := by
      simp
    simp only [checkedSub_eq (show crcLen ≤ decoded.length by simp only [crcLen]; omega),
      slice_zero (Nat.sub_le decoded.length crcLen), slice_eq (Nat.sub_le decoded.length crcLen)
        (Nat.le_refl decoded.length), bind, Option.bind_some]
    split
    · exact .ret trivial
    · rw [slice_eq (by omega) (by rw [hbody, crcLen]; omega), slice_eq (by simp [headerLen])
        (by rw [hbody, crcLen, headerLen]; omega), slice_eq (by rw [hbody, crcLen, headerLen]; omega)
        (Nat.le_refl _)]
      rw [List.getElem?_eq_getElem (show 0 < _ by rw [hbody, crcLen]; omega)]
      simp only [Option.bind_some]
      split
      · exact .ret trivial
      · split <;> exact .ret trivial

/-- The parser on a sealed packet of any kind. -/
theorem parse_sealed (kind : UInt8) (session : UInt64) (seq : UInt32) (payload : List UInt8) :
    parse (sealed (covered kind session seq payload)) =
      some (if kind = kindData ∧ payload ≠ [] then some (.data session seq payload)
        else if kind = kindAck ∧ payload = [] then some (.ack session seq) else none) := by
  have hlen := length_sealed (covered kind session seq payload)
  have hcov := length_covered kind session seq payload
  -- The length checks pass, and each slice is the field that was written there.
  have hcrcAt : checkedSub (sealed (covered kind session seq payload)).length crcLen =
      some (covered kind session seq payload).length := by
    rw [checkedSub_eq (by omega), hlen, Nat.add_sub_cancel]
  have hbody : slice (sealed (covered kind session seq payload)) 0
      (covered kind session seq payload).length = some (covered kind session seq payload) := by
    simpa [sealed] using slice_middle [] (covered kind session seq payload)
      (BigEndian.bytes 4 (crc32 (covered kind session seq payload)).toNat) rfl (by simp)
  have hcrc : slice (sealed (covered kind session seq payload))
      (covered kind session seq payload).length
      (sealed (covered kind session seq payload)).length =
        some (BigEndian.bytes 4 (crc32 (covered kind session seq payload)).toNat) := by
    simpa [sealed] using slice_middle (covered kind session seq payload)
      (BigEndian.bytes 4 (crc32 (covered kind session seq payload)).toNat) [] rfl rfl
  have hsession : slice (covered kind session seq payload) 1 9 =
      some (BigEndian.bytes 8 session.toNat) := by
    simpa [covered] using slice_middle [kind] (BigEndian.bytes 8 session.toNat)
      (BigEndian.bytes 4 seq.toNat ++ payload) (i := 1) (j := 9) rfl (by simp)
  have hseq : slice (covered kind session seq payload) 9 headerLen =
      some (BigEndian.bytes 4 seq.toNat) :=
    slice_middle ([kind] ++ BigEndian.bytes 8 session.toNat) (BigEndian.bytes 4 seq.toNat)
      payload (by simp) (by simp [headerLen])
  have hpayload : slice (covered kind session seq payload) headerLen
      (covered kind session seq payload).length = some payload := by
    simpa [covered] using slice_middle
      ([kind] ++ BigEndian.bytes 8 session.toNat ++ BigEndian.bytes 4 seq.toNat) payload []
      (i := headerLen) (j := (covered kind session seq payload).length) (by simp [headerLen])
      (by simp [covered]; omega)
  unfold parse
  rw [if_neg (by rw [hlen, hcov, overhead]; omega)]
  simp only [hcrcAt, hbody, hcrc, hsession, hseq, hpayload, bind, Option.bind_some,
    crc_roundTrip, session_roundTrip]
  rw [if_neg (by simp)]
  simp only [covered, List.cons_append, List.nil_append, List.getElem?_cons_zero,
    Option.bind_some]
  split
  · rfl
  · split <;> rfl

theorem parse_data (session : UInt64) (seq : UInt32) {payload : List UInt8} (h : payload ≠ []) :
    parse (Packet.data session seq payload).bytes = some (some (.data session seq payload)) := by
  rw [Packet.bytes, parse_sealed, if_pos ⟨rfl, h⟩]

theorem parse_ack (session : UInt64) (seq : UInt32) :
    parse (Packet.ack session seq).bytes = some (some (.ack session seq)) := by
  rw [Packet.bytes, parse_sealed, if_neg (by decide), if_pos ⟨rfl, rfl⟩]

/-! ## Frames -/

/-- Decoding all of `source` into any buffer of `n` bytes succeeds, and the parser reads `p` in
the decoded bytes. -/
def Carries (n : Nat) (source : List UInt8) (p : Packet) : Prop :=
  ∀ out : Bytes n, ∃ decoded out', decodeToSlice source out = (.ok decoded, out') ∧
    decoded.consumed = source.length ∧ parse (out'.toList.take decoded.len) = some (some p)

theorem carries_frame (k : Nat) {p : Packet} (hp : parse p.bytes = some (some p))
    (hroom : p.bytes.length ≤ n) :
    Carries n (List.replicate k 0 ++ (Cobs.encode p.bytes ++ [0])) p := by
  intro out
  obtain ⟨out', hdecode, hout'⟩ := decodesTo_delimited k p.bytes [] n out hroom
  refine ⟨_, out', hdecode, by simp; omega, ?_⟩
  rw [hout', List.take_left, hp]

theorem length_data_bytes (session : UInt64) (seq : UInt32) (payload : List UInt8) :
    (Packet.data session seq payload).bytes.length = overhead + payload.length := by
  rw [Packet.bytes, length_sealed, length_covered, overhead]
  omega

theorem length_ack_bytes (session : UInt64) (seq : UInt32) :
    (Packet.ack session seq).bytes.length = overhead := by
  rw [Packet.bytes, length_sealed, length_covered]
  rfl

/-- The frame of a payload that `max_payload` admits fits the capacity. -/
theorem length_data_frame_le [Target] {capacity max : Nat} (hmax : maxPayload capacity = some max)
    (hpos : 0 < max) (session : UInt64) (seq : UInt32) {payload : List UInt8}
    (hlen : payload.length ≤ max) :
    (Packet.data session seq payload).frame.length ≤ capacity := by
  have hfits := length_le_of_maxPayload hmax hpos hlen
  have hencode := Cobs.length_encode_le (Packet.data session seq payload).bytes
  rw [length_data_bytes] at hencode
  rw [Packet.frame, length_delimited]
  omega

/-- What `Packet.frame` looks like to the two decoding paths: the whole frame, and the frame
without its opening delimiter as the receive path passes it. -/
structure FrameOf (n : Nat) (frame : List UInt8) (p : Packet) : Prop where
  delimited : ∃ body, frame = [0] ++ body ++ [0] ∧ 0 ∉ body
  whole : Carries n frame p
  received : Carries n (frame.drop 1) p

theorem frameOf_frame {p : Packet} (hp : parse p.bytes = some (some p))
    (hroom : p.bytes.length ≤ n) : FrameOf n p.frame p where
  delimited := ⟨Cobs.encode p.bytes, rfl, Cobs.zero_notMem_encode _⟩
  whole := carries_frame 1 hp hroom
  received := carries_frame 0 hp hroom

/-- Every packet that the capacity admits is encoded without a panic into a frame within the
buffer, and the frame carries exactly that packet. -/
theorem encode_carries [Target] {N max : Nat} (hmax : maxPayload N = some max) (hpos : 1 ≤ max)
    (session : UInt64) (seq : UInt32) :
    (∀ (payload : List UInt8) (scratch frame : Bytes N), 1 ≤ payload.length →
      payload.length ≤ max → ∃ len scratch' frame',
        encodeData session seq payload scratch frame = some (len, scratch', frame') ∧
        len ≤ N ∧ FrameOf N (frame'.toList.take len) (.data session seq payload)) ∧
    (∀ frame : Bytes ackFrameLen, ∃ len frame',
      encodeAck session seq frame = some (len, frame') ∧
      len ≤ ackFrameLen ∧ FrameOf N (frame'.toList.take len) (.ack session seq)) := by
  have hle := maxPayload_le hmax hpos
  constructor
  · intro payload scratch frame hne hlen
    have hframe := length_data_frame_le hmax hpos session seq hlen
    obtain ⟨⟨len, scratch', frame'⟩, hrun, rfl, -, hframe'⟩ :=
      encodeData_returns session seq payload scratch frame (by omega) hframe
    refine ⟨_, scratch', frame', hrun, hframe, ?_⟩
    rw [hframe'.take]
    exact frameOf_frame (parse_data session seq (List.ne_nil_of_length_pos hne))
      (by rw [length_data_bytes]; omega)
  · intro frame
    obtain ⟨⟨len, frame'⟩, hrun, rfl, hframe'⟩ := encodeAck_returns session seq frame
    refine ⟨_, frame', hrun, length_ack_frame_le session seq, ?_⟩
    rw [hframe'.take]
    exact frameOf_frame (parse_ack session seq) (by rw [length_ack_bytes]; omega)

/-- The smallest capacity that admits a payload. -/
theorem encode_carries_smallest : letI := target64
    maxPayload 21 = some 1 ∧ (∃ len scratch' frame',
      encodeData 7 0 [5] (.zeros 21 : Bytes 21) (.zeros 21 : Bytes 21) =
        some (len, scratch', frame') ∧
        len ≤ 21 ∧ FrameOf 21 (frame'.toList.take len) (.data 7 0 [5])) ∧
      ∃ len frame', encodeAck 7 0 (.zeros ackFrameLen) = some (len, frame') ∧
        len ≤ ackFrameLen ∧ FrameOf 21 (frame'.toList.take len) (.ack 7 0) := by
  let := target64
  have hmax : maxPayload 21 = some 1 := by decide
  obtain ⟨hdata, hack⟩ := encode_carries hmax (Nat.le_refl 1) 7 0
  exact ⟨hmax, hdata [5] (.zeros 21) (.zeros 21) (by decide) (by decide), hack (.zeros ackFrameLen)⟩

end CobsIoAsync.Protocol
