import CobsIoAsync.Protocol.RoundTrip
import CobsIoAsync.Sync.Capacity
import Mathlib.Order.Bounds.Defs

/-!
# Protocol.Payload — `max_payload` is the largest guaranteed payload

The search of `max_payload` goes down from the body length and stops at the first packet length
whose worst encoding fits.  The worst encoding grows with the length, so no larger one fits, and it
is reached by a packet without zeros.
-/

namespace CobsIoAsync.Protocol

open Reasoning Sync

variable [Target]

/-- The bound for the frame of a packet with `payload` bytes fits the capacity. -/
def Fits (capacity payload : Nat) : Prop :=
  ∃ encoded, maxEncodingLength (payload + overhead) = some encoded ∧ encoded + 2 ≤ capacity

/-! ## The bound -/

section

variable {capacity bound max : Nat} (hcapacity : maxEncodingLength capacity = some bound)
include hcapacity

/-- Where the bound of the capacity does not overflow, no smaller one does. -/
theorem fits_iff_length {payload : Nat} :
    Fits capacity payload ↔
      overhead + payload + Cobs.overhead (overhead + payload) + 2 ≤ capacity := by
  have hroom := (maxEncodingLength_eq_some.mp hcapacity).1
  unfold Fits
  rw [Nat.add_comm payload overhead]
  constructor
  · rintro ⟨encoded, hencoded, hfits⟩
    obtain ⟨-, rfl⟩ := maxEncodingLength_eq_some.mp hencoded
    exact hfits
  · intro hfits
    refine ⟨_, maxEncodingLength_eq_some.mpr ⟨?_, rfl⟩, hfits⟩
    omega

theorem fits_zero : Fits capacity 0 ↔ 20 ≤ capacity := by
  rw [fits_iff_length hcapacity]
  rfl

theorem fits_one : Fits capacity 1 ↔ 21 ≤ capacity := by
  rw [fits_iff_length hcapacity]
  rfl

variable (hmax : maxPayload capacity = some max)
include hmax

/-- The payloads that fit are those up to `max_payload`. -/
theorem fits_iff_le {payload : Nat} (hpos : 1 ≤ payload) : Fits capacity payload ↔ payload ≤ max := by
  rw [fits_iff_length hcapacity]
  constructor
  · intro hfits
    by_contra hlong
    have hover := maxPayload_maximal hmax (Nat.not_le.mp hlong)
    omega
  · intro hle
    exact length_le_of_maxPayload hmax (by omega) hle

theorem maxPayload_pos_iff : 0 < max ↔ 21 ≤ capacity := by
  rw [← fits_one hcapacity, fits_iff_le hcapacity hmax (Nat.le_refl 1)]
  exact Nat.succ_le_iff.symm

theorem isGreatest_maxPayload {payload : Nat} (hpos : 1 ≤ payload) (hfits : Fits capacity payload) :
    IsGreatest {payload | Fits capacity payload} max := by
  have hle := (fits_iff_le hcapacity hmax hpos).mp hfits
  constructor
  · exact (fits_iff_le hcapacity hmax (by omega)).mpr (Nat.le_refl max)
  · intro other hother
    by_cases hzero : other = 0
    · omega
    · exact (fits_iff_le hcapacity hmax (by omega)).mp hother

/-- A packet within the largest payload, as far as the capacity holds a packet at all. -/
theorem length_delimited_le {d : List UInt8} (hlen : d.length ≤ overhead + max)
    (hsmall : 20 ≤ capacity) : (delimited d).length ≤ capacity := by
  have hmono := Cobs.overhead_le_overhead hlen
  have hencode := Cobs.length_encode_le d
  have hworst : overhead + max + Cobs.overhead (overhead + max) + 2 ≤ capacity := by
    rw [← fits_iff_length hcapacity]
    by_cases hzero : max = 0
    · rw [hzero]
      exact (fits_zero hcapacity).mpr hsmall
    · exact (fits_iff_le hcapacity hmax (by omega)).mpr (Nat.le_refl max)
  rw [length_delimited]
  omega

omit hcapacity in
/-- Ones are the worst packet. -/
theorem exists_delimited_gt :
    ∃ d : List UInt8, d.length = overhead + (max + 1) ∧ capacity < (delimited d).length := by
  have hlen : (List.replicate (overhead + (max + 1)) (1 : UInt8)).length = overhead + (max + 1) :=
    List.length_replicate
  refine ⟨List.replicate (overhead + (max + 1)) 1, hlen, ?_⟩
  have hencode := Cobs.length_encode_eq (p := List.replicate (overhead + (max + 1)) 1) (by simp)
  have hover := maxPayload_maximal hmax (Nat.lt_succ_self max)
  rw [hlen] at hencode
  rw [length_delimited, hencode]
  omega

end

/-! ## The search -/

/-- What `max` is for a buffer of `capacity` bytes. -/
structure LargestPayload (capacity max : Nat) : Prop where
  greatest : (∃ payload, 1 ≤ payload ∧ Fits capacity payload) →
    IsGreatest {payload | Fits capacity payload} max
  zero : (∀ payload, 1 ≤ payload → ¬ Fits capacity payload) → max = 0
  positive : 0 < max ↔ 21 ≤ capacity
  /-- From 20 bytes on, the smallest frame of a packet, all packets within `max` are encoded. -/
  frames : 20 ≤ capacity → ∀ d : List UInt8, d.length ≤ overhead + max →
    (delimited d).length ≤ capacity ∧ ∀ frame : Bytes capacity, ∃ frame',
      (encodeFromSliceIncludingSentinels d frame).run =
        some (.ok ((delimited d).length, frame'))
  below : capacity < 20 → ∀ d : List UInt8, overhead ≤ d.length → capacity < (delimited d).length
  next : ∃ d : List UInt8, d.length = overhead + (max + 1) ∧ capacity < (delimited d).length ∧
    ∀ frame : Bytes capacity, ∃ frame',
      (encodeFromSliceIncludingSentinels d frame).run = some (.error (.outOfBounds, frame'))

theorem largestPayload_maxPayload {capacity bound max : Nat}
    (hcapacity : maxEncodingLength capacity = some bound) (hmax : maxPayload capacity = some max) :
    LargestPayload capacity max where
  greatest := by
    rintro ⟨payload, hpos, hfits⟩
    exact isGreatest_maxPayload hcapacity hmax hpos hfits
  zero hnone := by
    by_contra hzero
    have hpos : 1 ≤ max := Nat.one_le_iff_ne_zero.mpr hzero
    exact hnone max hpos ((fits_iff_le hcapacity hmax hpos).mpr (Nat.le_refl max))
  positive := maxPayload_pos_iff hcapacity hmax
  frames hsmall d hlen := by
    have hle := length_delimited_le hcapacity hmax hlen hsmall
    refine ⟨hle, fun frame => ?_⟩
    rw [length_delimited] at hle ⊢
    exact (encodeFromSliceIncludingSentinels_capacity d frame).1 hle
  below hsmall d hlen := by
    have hencode := Cobs.length_lt_encode d
    rw [length_delimited]
    simp only [overhead, headerLen, crcLen] at hlen
    omega
  next := by
    obtain ⟨d, hlen, hlong⟩ := exists_delimited_gt hmax
    refine ⟨d, hlen, hlong, fun frame => ?_⟩
    rw [length_delimited] at hlong
    exact (encodeFromSliceIncludingSentinels_capacity d frame).2 hlong

/-- A larger buffer has no smaller payload. -/
theorem maxPayload_mono {capacity bound max smaller less : Nat}
    (hcapacity : maxEncodingLength capacity = some bound) (hmax : maxPayload capacity = some max)
    (hsmaller : smaller ≤ capacity) (hless : maxPayload smaller = some less) : less ≤ max := by
  by_contra hlt
  have hpos : 1 ≤ less := by omega
  have hsmallerBound := (maxEncodingLength_of_le hsmaller hcapacity).1
  -- the larger payload fits the smaller buffer, so it fits the larger one
  have hfits := (fits_iff_le hsmallerBound hless hpos).mpr (Nat.le_refl less)
  rw [fits_iff_length hsmallerBound] at hfits
  apply hlt
  rw [← fits_iff_le hcapacity hmax hpos, fits_iff_length hcapacity]
  omega

/-- `max_payload` returns wherever the bound of the capacity itself does not overflow. -/
theorem maxPayload_largest {capacity bound : Nat}
    (hcapacity : maxEncodingLength capacity = some bound) :
    ∃ max, maxPayload capacity = some max ∧ LargestPayload capacity max ∧
      ∀ smaller ≤ capacity, ∃ less, maxPayload smaller = some less ∧ less ≤ max := by
  obtain ⟨max, hmax, -⟩ := maxPayload_returns hcapacity
  refine ⟨max, hmax, largestPayload_maxPayload hcapacity hmax, fun smaller hsmaller => ?_⟩
  obtain ⟨less, hless, -⟩ :=
    maxPayload_returns (maxEncodingLength_of_le hsmaller hcapacity).1
  exact ⟨less, hless, maxPayload_mono hcapacity hmax hsmaller hless⟩

omit [Target] in
/-- The smallest capacity with a payload. -/
theorem maxPayload_largest_smallest : letI := target64
    maxEncodingLength 21 = some 22 ∧ ∃ max, maxPayload 21 = some max ∧ LargestPayload 21 max ∧
      ∀ smaller ≤ 21, ∃ less, maxPayload smaller = some less ∧ less ≤ max := by
  let := target64
  have hcapacity : maxEncodingLength 21 = some 22 := by decide
  exact ⟨hcapacity, maxPayload_largest hcapacity⟩

omit [Target] in
/-- Below 20 bytes the answer is zero, and an acknowledgement, which carries no payload, does not
fit either. -/
theorem not_frames_below : letI := target64
    maxEncodingLength 19 = some 20 ∧ maxPayload 19 = some 0 ∧
      parse (Packet.ack 7 0).bytes = some (some (.ack 7 0)) ∧
      (Packet.ack 7 0).bytes.length = overhead + 0 ∧ ¬ (Packet.ack 7 0).frame.length ≤ 19 := by
  let := target64
  refine ⟨by decide, by decide, parse_ack 7 0, length_ack_bytes 7 0, ?_⟩
  have hencode := Cobs.length_lt_encode (Packet.ack 7 0).bytes
  rw [length_ack_bytes] at hencode
  rw [Packet.frame, length_delimited]
  simp only [overhead, headerLen, crcLen] at hencode
  omega

end CobsIoAsync.Protocol
