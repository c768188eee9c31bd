import CobsIoAsync.Sync.Encode

/-!
# Sync.Capacity — how much room the encoder needs

The encoder needs exactly the length of the reference encoding, and `max_encoding_length` is the
largest of these lengths over the payloads of a size.
-/

namespace CobsIoAsync.Sync

open Reasoning Cobs

variable {n : Nat}

/-- `encode_from_slice` with `len` bytes of room succeeds, writes these and no others; with less
room it runs out. -/
theorem encodeFromSlice_capacity (p : List UInt8) (dest : Bytes n) :
    ((encode p).length ≤ n → ∃ dest',
      (encodeFromSlice p dest).run = some (.ok ((encode p).length, dest')) ∧
      dest'.toList.drop (encode p).length = dest.toList.drop (encode p).length) ∧
    (n < (encode p).length → ∃ dest',
      (encodeFromSlice p dest).run = some (.error (.outOfBounds, dest'))) := by
  have hout := encodeFromSlice_outcome p dest
  refine ⟨fun hle => ?_, fun hlt => ?_⟩
  · obtain ⟨_, hrun, ⟨len, dest'⟩, rfl, rfl, hdest'⟩ := hout.fits hle
    refine ⟨dest', hrun, ?_⟩
    rw [hdest'.toList_eq, List.drop_left]
  · obtain ⟨_, hrun, dest', rfl⟩ := hout.exceeds hlt
    exact ⟨dest', hrun⟩

/-- The delimiters take two bytes more. -/
theorem encodeFromSliceIncludingSentinels_capacity (p : List UInt8) (dest : Bytes n) :
    ((encode p).length + 2 ≤ n → ∃ dest',
      (encodeFromSliceIncludingSentinels p dest).run =
        some (.ok ((encode p).length + 2, dest'))) ∧
    (n < (encode p).length + 2 → ∃ dest',
      (encodeFromSliceIncludingSentinels p dest).run = some (.error (.outOfBounds, dest'))) := by
  have hout := encodeFromSliceIncludingSentinels_outcome p dest
  rw [← length_delimited]
  refine ⟨fun hle => ?_, fun hlt => ?_⟩
  · obtain ⟨_, hrun, ⟨len, dest'⟩, rfl, rfl, -⟩ := hout.fits hle
    exact ⟨dest', hrun⟩
  · obtain ⟨_, hrun, dest', rfl⟩ := hout.exceeds hlt
    exact ⟨dest', hrun⟩

/-- The bound of a payload holds its encoding, and is reached when there are no zeros. -/
theorem length_encode_bound [Target] {p : List UInt8} {bound : Nat}
    (hbound : maxEncodingLength p.length = some bound) :
    (encode p).length ≤ bound ∧ (0 ∉ p → (encode p).length = bound) := by
  obtain ⟨-, rfl⟩ := maxEncodingLength_eq_some.mp hbound
  exact ⟨length_encode_le p, length_encode_eq⟩

/-- One number for each payload decides whether it fits, with and without delimiters; it is at
most `max_encoding_length`, which is the largest such number over the payloads of each length.
The encoder returns in every case, so its block counter does not overflow. -/
theorem encodedLength_exact [Target] : ∃ L : List UInt8 → Nat,
    (∀ p {n : Nat} (dest : Bytes n),
      (L p ≤ n → ∃ dest', (encodeFromSlice p dest).run = some (.ok (L p, dest')) ∧
        dest'.toList.drop (L p) = dest.toList.drop (L p)) ∧
      (n < L p → ∃ dest', (encodeFromSlice p dest).run = some (.error (.outOfBounds, dest'))) ∧
      (L p + 2 ≤ n → ∃ dest',
        (encodeFromSliceIncludingSentinels p dest).run = some (.ok (L p + 2, dest'))) ∧
      (n < L p + 2 → ∃ dest',
        (encodeFromSliceIncludingSentinels p dest).run = some (.error (.outOfBounds, dest')))) ∧
    (∀ p bound, maxEncodingLength p.length = some bound →
      L p ≤ bound ∧ (0 ∉ p → L p = bound)) ∧
    ∀ n bound, maxEncodingLength n = some bound →
      (∃ p, p.length = n ∧ L p = bound) ∧ ∀ p, p.length = n → L p ≤ bound := by
  refine ⟨fun p => (encode p).length, fun p n dest => ?_, fun p bound h => length_encode_bound h,
    fun n bound hbound => ⟨?_, ?_⟩⟩
  · obtain ⟨hfits, hexceeds⟩ := encodeFromSlice_capacity p dest
    exact ⟨hfits, hexceeds, encodeFromSliceIncludingSentinels_capacity p dest⟩
  · -- a payload of ones has no zeros
    have hlen : (List.replicate n (1 : UInt8)).length = n := List.length_replicate
    refine ⟨List.replicate n 1, hlen, (length_encode_bound (by rwa [hlen])).2 ?_⟩
    simp
  · rintro p rfl
    exact (length_encode_bound hbound).1

/-- The smallest destination of two bytes with a zero between them, and one byte less. -/
theorem encodedLength_exact_three : letI := target64
    ∃ L : List UInt8 → Nat, L [1, 0, 2] ≤ 4 ∧
      (4 ≤ L [1, 0, 2] → ∃ dest',
        (encodeFromSlice [1, 0, 2] (.zeros 3)).run = some (.error (.outOfBounds, dest'))) := by
  let := target64
  obtain ⟨L, hL, hbound, -⟩ := encodedLength_exact
  exact ⟨L, (hbound [1, 0, 2] 4 (by decide)).1, fun h => (hL [1, 0, 2] (.zeros 3)).2.1 (by omega)⟩

end CobsIoAsync.Sync
