import CobsIoAsync.Codec.Walk
import CobsIoAsync.Sync.Encode

/-!
# Sync.RoundTrip — decoding an encoded payload
-/

namespace CobsIoAsync.Sync

open Reasoning Cobs

/-- Decoding `source` into any destination that holds `p` writes `p` in front of it, leaves the
rest of it alone and processes the first `consumed` bytes. -/
def DecodesTo (source p : List UInt8) (consumed : Nat) : Prop :=
  ∀ (n : Nat) (dest : Bytes n), p.length ≤ n →
    ∃ dest', decodeToSlice source dest = (.ok ⟨p.length, consumed⟩, dest') ∧
      dest'.toList = p ++ dest.toList.drop p.length

theorem decodesTo_delimited (k : Nat) (p rest : List UInt8) :
    DecodesTo (List.replicate k 0 ++ (encode p ++ 0 :: rest)) p (k + (encode p).length + 1) := by
  intro n dest hroom
  have h := Codec.decodeSlice_delimited k (split_ne_nil p) rest dest
  rw [payload_split] at h
  exact h hroom

theorem decodesTo_undelimited (k : Nat) (p : List UInt8) :
    DecodesTo (List.replicate k 0 ++ encode p) p (k + (encode p).length) := by
  intro n dest hroom
  have h := Codec.decodeSlice_undelimited k (split_ne_nil p) dest
  rw [payload_split] at h
  exact h hroom

/-- A destination of `max_encoding_length` bytes holds the encoding. -/
theorem length_encode_le_bound [Target] {p : List UInt8} {bound : Nat}
    (hbound : maxEncodingLength p.length = some bound) : (encode p).length ≤ bound := by
  obtain ⟨-, rfl⟩ := maxEncodingLength_eq_some.mp hbound
  exact length_encode_le p

/-- The body of `p` is its reference encoding, without zeros, and decodes to `p` behind any
padding, with and without a delimiter; with the sentinels it is the same body between two
zeros. -/
theorem encodeFromSlice_decodes [Target] (p : List UInt8) {bound : Nat}
    (hbound : maxEncodingLength p.length = some bound) {n : Nat} (dest : Bytes n)
    (hn : bound ≤ n) :
    (∃ dest', (encodeFromSlice p dest).run = some (.ok ((encode p).length, dest')) ∧
      dest'.toList.take (encode p).length = encode p) ∧
    0 ∉ encode p ∧
    (∀ k rest, DecodesTo (List.replicate k 0 ++ encode p ++ [0] ++ rest) p
      (k + (encode p).length + 1)) ∧
    (∀ k, DecodesTo (List.replicate k 0 ++ encode p) p (k + (encode p).length)) ∧
    (∀ {m : Nat} (frame : Bytes m), bound + 2 ≤ m → ∃ frame',
      (encodeFromSliceIncludingSentinels p frame).run =
        some (.ok ((encode p).length + 2, frame')) ∧
      frame'.toList.take ((encode p).length + 2) = [0] ++ encode p ++ [0] ∧
      ∀ k rest, DecodesTo (List.replicate k 0 ++ ([0] ++ encode p ++ [0]) ++ rest) p
        (k + (encode p).length + 2)) := by
  have hle := length_encode_le_bound hbound
  refine ⟨?_, zero_notMem_encode p, fun k rest => ?_, fun k => decodesTo_undelimited k p,
    fun frame hm => ?_⟩
  · obtain ⟨_, hrun, ⟨len, dest'⟩, rfl, rfl, hdest'⟩ :=
      (encodeFromSlice_outcome p dest).fits (by omega)
    exact ⟨dest', hrun, hdest'.take⟩
  · simpa using decodesTo_delimited k p rest
  · have hlen := length_delimited p
    obtain ⟨_, hrun, ⟨len, frame'⟩, rfl, rfl, hframe'⟩ :=
      (encodeFromSliceIncludingSentinels_outcome p frame).fits (by omega)
    refine ⟨frame', hlen ▸ hrun, hlen ▸ hframe'.take, fun k rest => ?_⟩
    have h := decodesTo_delimited (k + 1) p rest
    rw [List.replicate_succ', show k + 1 + (encode p).length + 1 = k + (encode p).length + 2 by
      omega] at h
    simpa using h

/-- Three bytes with a zero in the middle, in the smallest destination. -/
theorem encodeFromSlice_decodes_three : letI := target64
    maxEncodingLength [1, 0, 2].length = some 4 ∧ encode [1, 0, 2] = [2, 1, 2, 2] ∧
      ∃ dest', (encodeFromSlice [1, 0, 2] (.zeros 4)).run = some (.ok (4, dest')) ∧
        dest'.toList = [2, 1, 2, 2] ∧
          ∀ k rest, DecodesTo (List.replicate k 0 ++ [2, 1, 2, 2] ++ [0] ++ rest) [1, 0, 2]
            (k + 4 + 1) := by
  let := target64
  have hencode : encode [1, 0, 2] = [2, 1, 2, 2] := by decide
  obtain ⟨⟨dest', hrun, hdest'⟩, -, hdecodes, -, -⟩ :=
    encodeFromSlice_decodes [1, 0, 2] (show maxEncodingLength 3 = some 4 by decide) (.zeros 4)
      (Nat.le_refl 4)
  rw [hencode] at hrun hdest' hdecodes
  refine ⟨by decide, hencode, dest', hrun, ?_, hdecodes⟩
  rw [← hdest', List.take_of_length_le (by simp)]

end CobsIoAsync.Sync
