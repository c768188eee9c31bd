import CobsIoAsync.Protocol.Checksum

/-!
# Protocol.Parse — the parser accepts exactly the packets

Bytes that pass the length and the checksum test are the sealed fields of one packet, read off at
the offsets where `header` and `seal` write them.  The parser accepts them if the kind goes with
the payload, so an accepted string is the string that the encoders make of what was parsed.
-/

namespace CobsIoAsync.Protocol

open Reasoning Sync

/-- DATA carries a payload. -/
def Packet.Valid : Packet → Prop
  | .data _ _ payload => payload ≠ []
  | .ack _ _ => True

/-! ## Every string is cut into fields -/

/-- A string that holds a header is the layout of the fields read from it. -/
theorem exists_covered {fields : List UInt8} (hlen : headerLen ≤ fields.length) :
    ∃ kind session seq payload, fields = covered kind session seq payload := by
  simp only [headerLen] at hlen
  cases fields with
  | nil => simp at hlen
  | cons kind fields =>
      simp only [List.length_cons] at hlen
      -- the kind is one byte, so the split at 9 and 13 is one at 8 and 12 behind it
      have hsession : (fields.take 8).length = 8 := by
        rw [List.length_take]
        omega
      have hseq : ((fields.drop 8).take 4).length = 4 := by
        rw [List.length_take, List.length_drop]
        omega
      refine ⟨kind, UInt64.ofNat (BigEndian.value (fields.take 8)),
        UInt32.ofNat (BigEndian.value ((fields.drop 8).take 4)), (fields.drop 8).drop 4, ?_⟩
      rw [covered, session_bytes hsession, crc_bytes hseq, List.append_assoc, List.append_assoc,
        List.take_append_drop, List.take_append_drop, List.singleton_append]

/-- A string that passes the tests of the length and of the checksum is sealed. -/
theorem exists_sealed {d : List UInt8} (hlen : overhead ≤ d.length)
    (hcrc : crc32 (d.take (d.length - crcLen)) =
      UInt32.ofNat (BigEndian.value (d.drop (d.length - crcLen)))) :
    ∃ kind session seq payload, d = sealed (covered kind session seq payload) := by
  simp only [overhead] at hlen
  have hbody : headerLen ≤ (d.take (d.length - crcLen)).length := by
    rw [List.length_take]
    omega
  have htail : (d.drop (d.length - crcLen)).length = 4 := by
    rw [List.length_drop]
    simp only [crcLen] at hlen ⊢
    omega
  obtain ⟨kind, session, seq, payload, hfields⟩ := exists_covered hbody
  refine ⟨kind, session, seq, payload, ?_⟩
  rw [← hfields, sealed, hcrc, crc_bytes htail, List.take_append_drop]

/-! ## What is accepted -/

theorem parse_bytes {p : Packet} (hp : p.Valid) : parse p.bytes = some (some p) := by
  cases p with
  | data session seq payload => exact parse_data session seq hp
  | ack session seq => exact parse_ack session seq

/-- The parser accepts the bytes of valid packets and no others. -/
theorem parse_eq_some_iff {d : List UInt8} {p : Packet} :
    parse d = some (some p) ↔ p.Valid ∧ d = p.bytes := by
  constructor
  · intro h
    obtain ⟨hlen, hcrc⟩ := parse_accepts h
    obtain ⟨kind, session, seq, payload, rfl⟩ := exists_sealed hlen hcrc
    rw [parse_sealed] at h
    have hp := Option.some.inj h
    by_cases hdata : kind = kindData ∧ payload ≠ []
    · rw [if_pos hdata] at hp
      obtain ⟨rfl, hne⟩ := hdata
      obtain rfl := Option.some.inj hp
      exact ⟨hne, rfl⟩
    · rw [if_neg hdata] at hp
      by_cases hack : kind = kindAck ∧ payload = []
      · rw [if_pos hack] at hp
        obtain ⟨rfl, rfl⟩ := hack
        obtain rfl := Option.some.inj hp
        exact ⟨trivial, rfl⟩
      · rw [if_neg hack] at hp
        cases hp
  · rintro ⟨hp, rfl⟩
    exact parse_bytes hp

/-- Two packets never have the same bytes. -/
theorem Packet.bytes_injective {p q : Packet} (hp : p.Valid) (hq : q.Valid)
    (h : p.bytes = q.bytes) : p = q := by
  have hparse := parse_bytes hp
  rw [h, parse_bytes hq] at hparse
  exact (Option.some.inj (Option.some.inj hparse)).symm

theorem parse_eq_none_iff {d : List UInt8} :
    parse d = some none ↔ ∀ p : Packet, p.Valid → d ≠ p.bytes := by
  constructor
  · rintro h p hp rfl
    rw [parse_bytes hp] at h
    cases h
  · intro h
    obtain ⟨result, hresult, -⟩ := parse_returns d
    cases result with
    | none => exact hresult
    | some p =>
        obtain ⟨hp, hd⟩ := parse_eq_some_iff.mp hresult
        exact absurd hd (h p hp)

/-! ## Encoding again -/

variable {m n : Nat}

/-- With room in both buffers `encode_data` makes the accepted bytes again, and their frame. -/
theorem encodeData_parsed {d : List UInt8} {session : UInt64} {seq : UInt32} {payload : List UInt8}
    (h : parse d = some (some (.data session seq payload))) (scratch : Bytes m) (frame : Bytes n)
    (hm : d.length ≤ m) (hn : (delimited d).length ≤ n) :
    ∃ len scratch' frame', encodeData session seq payload scratch frame =
        some (len, scratch', frame') ∧
      scratch'.toList.take d.length = d ∧ frame'.toList.take len = delimited d := by
  obtain ⟨-, rfl⟩ := parse_eq_some_iff.mp h
  rw [length_data_bytes] at hm
  obtain ⟨⟨len, scratch', frame'⟩, hrun, rfl, hscratch', hframe'⟩ :=
    encodeData_returns session seq payload scratch frame hm hn
  exact ⟨_, scratch', frame', hrun, hscratch'.take, hframe'.take⟩

theorem encodeAck_parsed {d : List UInt8} {session : UInt64} {seq : UInt32}
    (h : parse d = some (some (.ack session seq))) (frame : Bytes ackFrameLen) :
    ∃ len frame', encodeAck session seq frame = some (len, frame') ∧
      frame'.toList.take len = delimited d := by
  obtain ⟨-, rfl⟩ := parse_eq_some_iff.mp h
  obtain ⟨⟨len, frame'⟩, hrun, rfl, hframe'⟩ := encodeAck_returns session seq frame
  exact ⟨_, frame', hrun, hframe'.take⟩

/-! ## The parser -/

/-- What the parser does on `d`. -/
structure Parsed (d : List UInt8) : Prop where
  returns : ∃ result, parse d = some result
  data : ∀ session seq payload, parse d = some (some (.data session seq payload)) ↔
    payload ≠ [] ∧ d = sealed ([kindData] ++ BigEndian.bytes 8 session.toNat ++
      BigEndian.bytes 4 seq.toNat ++ payload)
  ack : ∀ session seq, parse d = some (some (.ack session seq)) ↔
    d = sealed ([kindAck] ++ BigEndian.bytes 8 session.toNat ++ BigEndian.bytes 4 seq.toNat)
  rejects : parse d = some none ↔ ∀ p : Packet, p.Valid → d ≠ p.bytes
  one : ∀ p q : Packet, p.Valid → q.Valid → d = p.bytes → d = q.bytes → p = q
  dataAgain : ∀ session seq payload, parse d = some (some (.data session seq payload)) →
    ∀ {m n : Nat} (scratch : Bytes m) (frame : Bytes n), d.length ≤ m →
      (delimited d).length ≤ n → ∃ len scratch' frame',
        encodeData session seq payload scratch frame = some (len, scratch', frame') ∧
        scratch'.toList.take d.length = d ∧ frame'.toList.take len = delimited d
  ackAgain : ∀ session seq, parse d = some (some (.ack session seq)) →
    ∀ frame : Bytes ackFrameLen, ∃ len frame', encodeAck session seq frame = some (len, frame') ∧
      frame'.toList.take len = delimited d

/-- The parser returns on every string, accepts exactly the serialised packets, each as one
packet, and every accepted string is what the encoders make of that packet. -/
theorem parse_exact (d : List UInt8) : Parsed d where
  returns := by
    obtain ⟨result, hresult, -⟩ := parse_returns d
    exact ⟨result, hresult⟩
  data session seq payload := parse_eq_some_iff
  ack session seq := by
    rw [parse_eq_some_iff]
    simp [Packet.Valid, Packet.bytes, covered]
  rejects := parse_eq_none_iff
  one p q hp hq hdp hdq := Packet.bytes_injective hp hq (hdp.symm.trans hdq)
  dataAgain _ _ _ h _ _ := encodeData_parsed h
  ackAgain _ _ h := encodeAck_parsed h

end CobsIoAsync.Protocol
