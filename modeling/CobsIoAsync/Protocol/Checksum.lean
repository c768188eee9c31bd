import CobsIoAsync.Protocol.RoundTrip
import CobsIoAsync.Reasoning.Crc

/-!
# Protocol.Checksum — what the checksum notices

The table of `crc32` holds eight steps of a reflected CRC register, so the checksum is the register
after all bits of the data, least significant first.  A change within 32 consecutive bits, or of
the checksum alone, is therefore always noticed by `parse`.
-/

namespace CobsIoAsync.Protocol

open Reasoning

/-! ## The table and the register -/

/-- The polynomial of `CRC_TABLE`. -/
def crcPoly : BitVec 32 := 0xEDB88320#32

theorem crcPoly_top : crcPoly.getLsbD (32 - 1) = true := by decide

theorem crcBit_toBitVec (crc : UInt32) :
    (crcBit crc).toBitVec = Crc.shift crcPoly crc.toBitVec := by
  have hone : crc &&& 1 ≠ 0 ↔ crc.toBitVec.getLsbD 0 = true := by
    rw [ne_eq, ← UInt32.toBitVec_inj, UInt32.toBitVec_and]
    show ¬ crc.toBitVec &&& 1#32 = 0#32 ↔ _
    rw [BitVec.and_one_eq_setWidth_ofBool_getLsbD]
    cases crc.toBitVec.getLsbD 0 <;> decide
  unfold crcBit Crc.shift
  by_cases h : crc &&& 1 ≠ 0
  · rw [if_pos h, if_pos (hone.mp h)]
    rfl
  · rw [if_neg h, if_neg (mt hone.mpr h)]
    rfl

theorem iterate_crcBit_toBitVec (n : Nat) (crc : UInt32) :
    (crcBit^[n] crc).toBitVec = Crc.shifts crcPoly n crc.toBitVec := by
  induction n generalizing crc with
  | zero => rfl
  | succ n ih => rw [Function.iterate_succ_apply, ih, crcBit_toBitVec, Crc.shifts_succ]

theorem crcTable_getD {i : Nat} (hi : i < 256) :
    crcTable.getD i 0 = crcBit^[8] (UInt32.ofNat i) := by
  rw [crcTable, List.getD_eq_getElem?_getD, List.getElem?_map, List.getElem?_range hi]
  rfl

/-- A byte from the table is eight steps of the register. -/
theorem crcByte_toBitVec (crc : UInt32) (byte : UInt8) :
    (crcByte crc byte).toBitVec =
      Crc.shifts crcPoly 8 (crc.toBitVec ^^^ byte.toBitVec.setWidth 32) := by
  have hindex : (UInt32.ofNat (crc.toUInt8 ^^^ byte).toNat).toBitVec =
      (crc.toUInt8 ^^^ byte).toBitVec.setWidth 32 := by
    apply BitVec.eq_of_toNat_eq
    simp
  -- the low byte selects the entry, the others only move down
  have hsplit : crc.toBitVec ^^^ byte.toBitVec.setWidth 32 =
      (crc.toUInt8 ^^^ byte).toBitVec.setWidth 32 ^^^ (crc.toBitVec >>> 8 <<< 8) := by
    apply BitVec.eq_of_getLsbD_eq
    intro i hi
    simp only [UInt8.toBitVec_xor, UInt32.toBitVec_toUInt8, BitVec.getLsbD_xor,
      BitVec.getLsbD_setWidth, BitVec.getLsbD_shiftLeft, BitVec.getLsbD_ushiftRight, hi]
    by_cases hlow : i < 8
    · simp [hlow]
    · have hbyte : byte.toBitVec.getLsbD i = false := BitVec.getLsbD_of_ge _ _ (by omega)
      simp [hlow, hbyte, show 8 + (i - 8) = i by omega]
  have hhigh : Crc.shifts crcPoly 8 (crc.toBitVec >>> 8 <<< 8) = crc.toBitVec >>> 8 := by
    rw [Crc.shifts_eq_ushiftRight]
    · apply BitVec.eq_of_getLsbD_eq
      intro i hi
      simp only [BitVec.getLsbD_shiftLeft, BitVec.getLsbD_ushiftRight]
      by_cases hlow : 8 + i < 32
      · simp [hlow]
      · have hout : crc.toBitVec.getLsbD (8 + i) = false := BitVec.getLsbD_of_ge _ _ (by omega)
        simp [hlow, hout]
    · intro i hi
      rw [BitVec.getLsbD_shiftLeft]
      simp [hi]
  unfold crcByte
  rw [crcTable_getD (crc.toUInt8 ^^^ byte).toNat_lt, UInt32.toBitVec_xor, iterate_crcBit_toBitVec,
    hindex, hsplit, Crc.shifts_xor, hhigh]
  rfl

/-! ## The bits of the data -/

/-- The bits of a byte, the least significant first. -/
def byteBits (byte : UInt8) : List Bool := (List.range 8).map byte.toBitVec.getLsbD

/-- The bits of all bytes in order. -/
def bits (data : List UInt8) : List Bool := data.flatMap byteBits

@[simp] theorem length_byteBits (byte : UInt8) : (byteBits byte).length = 8 := by simp [byteBits]

theorem bits_append (xs ys : List UInt8) : bits (xs ++ ys) = bits xs ++ bits ys :=
  List.flatMap_append

theorem word_byteBits (byte : UInt8) :
    (Crc.word (byteBits byte) : BitVec 32) = byte.toBitVec.setWidth 32 := by
  apply BitVec.eq_of_getLsbD_eq
  intro i hi
  rw [Crc.getLsbD_word, BitVec.getLsbD_setWidth, byteBits, List.getD_eq_getElem?_getD,
    List.getElem?_map]
  by_cases hlow : i < 8
  · simp [hlow]
  · have hout : byte.toBitVec.getLsbD i = false := BitVec.getLsbD_of_ge _ _ (by omega)
    simp [hlow, hout]

theorem byteBits_injective {x y : UInt8} (h : byteBits x = byteBits y) : x = y := by
  apply UInt8.toBitVec_inj.mp
  apply BitVec.eq_of_getLsbD_eq
  intro i hi
  have hget := congrArg (fun bits => bits[i]?) h
  simpa [byteBits, List.getElem?_map, List.getElem?_range hi] using hget

theorem bits_injective {xs ys : List UInt8} (h : bits xs = bits ys) : xs = ys := by
  induction xs generalizing ys with
  | nil =>
      cases ys with
      | nil => rfl
      | cons y ys =>
          have hlen := congrArg List.length h
          simp [bits] at hlen
          omega
  | cons x xs ih =>
      cases ys with
      | nil =>
          have hlen := congrArg List.length h
          simp [bits] at hlen
      | cons y ys =>
          obtain ⟨hx, hxs⟩ := List.append_inj (show byteBits x ++ bits xs = byteBits y ++ bits ys from h)
            (by simp)
          rw [byteBits_injective hx, ih hxs]

/-- The fold of `crc32` is the register over all bits. -/
theorem foldl_crcByte_toBitVec (data : List UInt8) (crc : UInt32) :
    (data.foldl crcByte crc).toBitVec = Crc.feed crcPoly crc.toBitVec (bits data) := by
  have hwidth : ∀ byte, (byteBits byte).length ≤ 32 := by
    intro byte
    rw [length_byteBits]
    decide
  induction data generalizing crc with
  | nil => rfl
  | cons byte data ih =>
      rw [List.foldl_cons, ih, show bits (byte :: data) = byteBits byte ++ bits data from rfl,
        Crc.feed_append, Crc.feed_eq_shifts (hwidth byte), word_byteBits,
        length_byteBits, crcByte_toBitVec]

/-! ## The bitwise definition -/

/-- CRC-32/ISO-HDLC one bit at a time, the low bit of each byte first: a bit is added to the lowest
bit of the register, which shifts down and takes the polynomial when a one leaves it. -/
def isoHdlc (data : List UInt8) : BitVec 32 :=
  ~~~ (bits data).foldl (fun register bit =>
    let taken := register ^^^ (if bit then 1#32 else 0#32)
    if taken.getLsbD 0 then (taken >>> 1) ^^^ 0xEDB88320#32 else taken >>> 1) 0xFFFFFFFF#32

theorem isoHdlc_eq (data : List UInt8) :
    isoHdlc data = ~~~ Crc.feed crcPoly 0xFFFFFFFF#32 (bits data) := rfl

/-- The table-driven checksum is the bitwise one. -/
theorem crc32_eq_isoHdlc (data : List UInt8) : (crc32 data).toBitVec = isoHdlc data := by
  rw [crc32, UInt32.toBitVec_not, foldl_crcByte_toBitVec, isoHdlc_eq]
  -- `!0` is the register of ones
  rfl

/-- The check value: the digits from 1 to 9. -/
example : isoHdlc ((List.range 9).map fun i => UInt8.ofNat (0x31 + i)) = 0xCBF43926#32 := by
  decide +kernel

/-! ## Bursts -/

/-- The checksums of data that differ within 32 consecutive bits differ. -/
theorem crc32_ne {data data' : List UInt8} {xs mid mid' ys : List Bool}
    (hdata : bits data = xs ++ mid ++ ys) (hdata' : bits data' = xs ++ mid' ++ ys)
    (hlen : mid.length = mid'.length) (hw : mid.length ≤ 32) (hne : mid ≠ mid') :
    crc32 data ≠ crc32 data' := by
  intro h
  have hfold := congrArg UInt32.toBitVec (UInt32.not_inj.mp h)
  rw [foldl_crcByte_toBitVec, foldl_crcByte_toBitVec, hdata, hdata'] at hfold
  exact Crc.feed_ne crcPoly_top _ hlen hw hne hfold

/-- Two bit strings of one length that differ only from `k` on and for 32 bits. -/
theorem exists_window {xs ys : List Bool} (hlen : xs.length = ys.length) (k : Nat)
    (h : ∀ i, xs[i]? ≠ ys[i]? → k ≤ i ∧ i < k + 32) :
    ∃ front mid mid' back, xs = front ++ mid ++ back ∧ ys = front ++ mid' ++ back ∧
      mid.length = mid'.length ∧ mid.length ≤ 32 := by
  have hsplit : ∀ zs : List Bool, zs = zs.take k ++ (zs.drop k).take 32 ++ zs.drop (k + 32) := by
    intro zs
    rw [List.append_assoc, ← List.drop_drop, List.take_append_drop, List.take_append_drop]
  have hfront : ys.take k = xs.take k := by
    apply List.ext_getElem?
    intro i
    rw [List.getElem?_take, List.getElem?_take]
    split
    · by_contra hne
      have hwindow := h i (Ne.symm hne)
      omega
    · rfl
  have hback : ys.drop (k + 32) = xs.drop (k + 32) := by
    apply List.ext_getElem?
    intro i
    rw [List.getElem?_drop, List.getElem?_drop]
    by_contra hne
    have hwindow := h (k + 32 + i) (Ne.symm hne)
    omega
  refine ⟨xs.take k, (xs.drop k).take 32, (ys.drop k).take 32, xs.drop (k + 32), hsplit xs, ?_, ?_, ?_⟩
  · rw [← hfront, ← hback]
    exact hsplit ys
  · rw [List.length_take, List.length_take, List.length_drop, List.length_drop, hlen]
  · exact List.length_take_le _ _

/-! ## What is accepted -/

/-- The parser checks the length and the checksum first. -/
theorem parse_checks {d : List UInt8} (hlen : overhead ≤ d.length)
    (h : crc32 (d.take (d.length - crcLen)) ≠
      UInt32.ofNat (BigEndian.value (d.drop (d.length - crcLen)))) : parse d = some none := by
  have hcrc : crcLen ≤ d.length := by
    simp only [overhead, crcLen] at hlen ⊢
    omega
  have htail : (d.take d.length).drop (d.length - crcLen) = d.drop (d.length - crcLen) := by
    rw [List.take_length]
  unfold parse
  rw [if_neg (Nat.not_lt.mpr hlen)]
  simp only [checkedSub_eq hcrc, slice_zero (Nat.sub_le d.length crcLen),
    slice_eq (Nat.sub_le d.length crcLen) (Nat.le_refl d.length), htail, bind, Option.bind_some]
  rw [if_pos h]

theorem parse_accepts {d : List UInt8} {packet : Packet} (h : parse d = some (some packet)) :
    overhead ≤ d.length ∧ crc32 (d.take (d.length - crcLen)) =
      UInt32.ofNat (BigEndian.value (d.drop (d.length - crcLen))) := by
  have hlen : overhead ≤ d.length := by
    by_contra hshort
    rw [parse, if_pos (Nat.not_le.mp hshort)] at h
    cases h
  refine ⟨hlen, ?_⟩
  by_contra hcrc
  rw [parse_checks hlen hcrc] at h
  cases h

/-- The checksum field is read without loss. -/
theorem checksum_injective {xs ys : List UInt8} (hx : xs.length = crcLen) (hy : ys.length = crcLen)
    (h : UInt32.ofNat (BigEndian.value xs) = UInt32.ofNat (BigEndian.value ys)) : xs = ys := by
  rw [← crc_bytes hx, h, crc_bytes hy]

/-- A change of the checksum alone is noticed. -/
theorem rejects_checksum {d d' : List UInt8} {packet : Packet}
    (haccepts : parse d = some (some packet)) (hlen : d'.length = d.length) (hne : d' ≠ d)
    (hbody : d'.take (d.length - crcLen) = d.take (d.length - crcLen)) : parse d' = some none := by
  obtain ⟨hlong, hcrc⟩ := parse_accepts haccepts
  apply parse_checks (hlen ▸ hlong)
  rw [hlen, hbody, hcrc]
  intro hsame
  have hfield : ∀ e : List UInt8, e.length = d.length → (e.drop (d.length - crcLen)).length = crcLen := by
    intro e he
    rw [List.length_drop, he]
    simp only [overhead] at hlong
    omega
  have htail := checksum_injective (hfield d rfl) (hfield d' hlen) hsame
  apply hne
  rw [← List.take_append_drop (d.length - crcLen) d', hbody, ← htail, List.take_append_drop]

/-- A change in front of the checksum within 32 consecutive bits is noticed. -/
theorem rejects_burst {d d' : List UInt8} {packet : Packet}
    (haccepts : parse d = some (some packet)) (hlen : d'.length = d.length) (hne : d' ≠ d)
    (hfield : d'.drop (d.length - crcLen) = d.drop (d.length - crcLen)) (k : Nat)
    (hburst : ∀ i, (bits (d.take (d.length - crcLen)))[i]? ≠
      (bits (d'.take (d.length - crcLen)))[i]? → k ≤ i ∧ i < k + 32) : parse d' = some none := by
  obtain ⟨hlong, hcrc⟩ := parse_accepts haccepts
  apply parse_checks (hlen ▸ hlong)
  rw [hlen, hfield, ← hcrc]
  have hbits : ∀ e : List UInt8, (bits e).length = e.length * 8 := by
    intro e
    simp [bits]
  obtain ⟨front, mid, mid', back, hdata, hdata', hmid, hw⟩ := exists_window
    (by rw [hbits, hbits, List.length_take, List.length_take, hlen]) k hburst
  apply Ne.symm
  apply crc32_ne hdata hdata' hmid hw
  rintro rfl
  apply hne
  have htake := bits_injective (hdata.trans hdata'.symm)
  rw [← List.take_append_drop (d.length - crcLen) d', hfield, ← htake, List.take_append_drop]

end CobsIoAsync.Protocol
