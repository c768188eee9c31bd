import CobsIoAsync.Protocol.Checksum

/-!
# Protocol.Burst — corrupted packets are rejected

Every change of a packet within 32 consecutive bits is noticed; this covers every change of one
byte, also of one byte of the COBS body that is not a code.
-/

namespace CobsIoAsync.Protocol

open Reasoning Cobs

/-! ## One byte -/

/-- The bits of two strings with one different byte differ in that byte. -/
theorem bits_byte {us vs : List UInt8} {y y' : UInt8} {i : Nat}
    (h : (bits (us ++ y :: vs))[i]? ≠ (bits (us ++ y' :: vs))[i]?) :
    us.length * 8 ≤ i ∧ i < us.length * 8 + 8 := by
  have hus : (bits us).length = us.length * 8 := by simp [bits]
  have hsplit : ∀ z : UInt8, bits (us ++ z :: vs) = bits us ++ (byteBits z ++ bits vs) := by
    intro z
    rw [bits_append]
    rfl
  rw [hsplit, hsplit] at h
  by_contra hout
  apply h
  by_cases hfront : i < us.length * 8
  · rw [List.getElem?_append_left (by omega), List.getElem?_append_left (by omega)]
  · have hbehind : (bits us).length ≤ i := by omega
    have hbyte : ∀ z, (byteBits z).length ≤ i - (bits us).length := by
      intro z
      rw [length_byteBits]
      omega
    rw [List.getElem?_append_right hbehind, List.getElem?_append_right hbehind,
      List.getElem?_append_right (hbyte y), List.getElem?_append_right (hbyte y'), length_byteBits,
      length_byteBits]

/-- A changed byte is in the checksum or in front of it, and noticed in both cases. -/
theorem rejects_byte {us vs : List UInt8} {y y' : UInt8} {packet : Packet}
    (haccepts : parse (us ++ y :: vs) = some (some packet)) (hne : y' ≠ y) :
    parse (us ++ y' :: vs) = some none := by
  have hlen : (us ++ y' :: vs).length = (us ++ y :: vs).length := by simp
  have hne : us ++ y' :: vs ≠ us ++ y :: vs := by simpa using hne
  by_cases hfield : (us ++ y :: vs).length - crcLen ≤ us.length
  · apply rejects_checksum haccepts hlen hne
    rw [List.take_append_of_le_length hfield, List.take_append_of_le_length hfield]
  · obtain ⟨m, hm⟩ : ∃ m, (us ++ y :: vs).length - crcLen = us.length + (m + 1) :=
      ⟨(us ++ y :: vs).length - crcLen - us.length - 1, by omega⟩
    have htake : ∀ z : UInt8, (us ++ z :: vs).take (us.length + (m + 1)) = us ++ z :: vs.take m := by
      intro z
      rw [List.take_length_add_append, List.take_succ_cons]
    apply rejects_burst haccepts hlen hne (k := us.length * 8)
    · rw [hm, List.drop_length_add_append, List.drop_length_add_append]
      rfl
    · intro i hi
      rw [hm, htake, htake] at hi
      have hbyte := bits_byte hi
      omega

/-! ## One byte of a body -/

/-- A block stands in the payload with its data, whatever they are. -/
theorem rest_block (pre post : List Block) (b b' : Block) (hfull : b'.full = b.full) (full : Bool) :
    ∃ front back, rest full (pre ++ b :: post) = front ++ b.data ++ back ∧
      rest full (pre ++ b' :: post) = front ++ b'.data ++ back := by
  induction pre generalizing full with
  | nil => exact ⟨separator full, rest b.full post, rfl, by rw [← hfull]; rfl⟩
  | cons c pre ih =>
      obtain ⟨front, back, h, h'⟩ := ih c.full
      refine ⟨separator full ++ c.data ++ front, back, ?_, ?_⟩
      · rw [List.cons_append, rest, h]
        simp only [List.append_assoc]
      · rw [List.cons_append, rest, h']
        simp only [List.append_assoc]

/-- A body with another nonzero byte behind a code decodes to a payload with one other byte. -/
theorem rejects_body {pre post : List Block} {b b' : Block} {xs ys : List UInt8} {y y' : UInt8}
    (hb : b.data = xs ++ y :: ys) (hb' : b'.data = xs ++ y' :: ys) (hne : y' ≠ y) {packet : Packet}
    (haccepts : parse (payload (pre ++ b :: post)) = some (some packet)) :
    parse (payload (pre ++ b' :: post)) = some none := by
  have hfull : b'.full = b.full := by simp [Block.full, hb, hb']
  obtain ⟨front, back, hpayload, hpayload'⟩ := rest_block pre post b b' hfull true
  have hregroup : ∀ z : UInt8, front ++ (xs ++ z :: ys) ++ back = (front ++ xs) ++ z :: (ys ++ back) := by
    intro z
    simp
  rw [payload, hpayload, hb, hregroup] at haccepts
  rw [payload, hpayload', hb', hregroup]
  exact rejects_byte haccepts hne

/-- No burst of at most 32 bits in front of the checksum and no change of the checksum turns an
accepted packet into another accepted one; nor does a change of one byte, of one bit, or of one
byte of the body that is not a code. -/
theorem parse_rejects_bursts {d : List UInt8} {packet : Packet}
    (haccepts : parse d = some (some packet)) :
    (∀ d', d'.length = d.length → d' ≠ d →
      d'.take (d.length - crcLen) = d.take (d.length - crcLen) ∨
        d'.drop (d.length - crcLen) = d.drop (d.length - crcLen) ∧
        (∃ k, ∀ i, (bits (d.take (d.length - crcLen)))[i]? ≠
          (bits (d'.take (d.length - crcLen)))[i]? → k ≤ i ∧ i < k + 32) →
      parse d' = some none) ∧
    (∀ us y vs y', d = us ++ y :: vs → y' ≠ y → parse (us ++ y' :: vs) = some none) ∧
    (∀ us y vs j, d = us ++ y :: vs → j < 8 →
      parse (us ++ (y ^^^ (1 <<< UInt8.ofNat j)) :: vs) = some none) ∧
    ∀ pre b post xs y ys y', d = payload (pre ++ b :: post) → b.data = xs ++ y :: ys → y' ≠ 0 →
      y' ≠ y → ∃ b' : Block, b'.bytes = b.code :: (xs ++ y' :: ys) ∧
        ∀ {n : Nat} (dest : Bytes n), d.length ≤ n → ∃ dest',
          Sync.decodeToSlice (wire (pre ++ b' :: post) ++ [0]) dest =
            (.ok ⟨d.length, (wire (pre ++ b' :: post)).length + 1⟩, dest') ∧
          parse (dest'.toList.take d.length) = some none := by
  refine ⟨fun d' hlen hne hburst => ?_, fun us y vs y' hd hne => ?_, fun us y vs j hd hj => ?_,
    fun pre b post xs y ys y' hd hb hzero hne => ?_⟩
  · rcases hburst with hbody | ⟨hfield, k, hburst⟩
    · exact rejects_checksum haccepts hlen hne hbody
    · exact rejects_burst haccepts hlen hne hfield k hburst
  · exact rejects_byte (hd ▸ haccepts) hne
  · apply rejects_byte (hd ▸ haccepts)
    -- One flipped bit changes the byte.
    have hbit : ∀ j : Fin 8, (1 : UInt8) <<< UInt8.ofNat j ≠ 0 := by decide
    intro h
    apply hbit ⟨j, hj⟩
    have hcancel : y ^^^ (y ^^^ (1 <<< UInt8.ofNat j)) = y ^^^ y := congrArg (y ^^^ ·) h
    rwa [← UInt8.xor_assoc, UInt8.xor_self, UInt8.zero_xor] at hcancel
  · have hlength : (xs ++ y' :: ys).length = b.data.length := by simp [hb]
    have hnonzero : 0 ∉ xs ++ y' :: ys := by
      have hb0 := b.nonzero
      rw [hb] at hb0
      simp only [List.mem_append, List.mem_cons, not_or] at hb0 ⊢
      exact ⟨hb0.1, Ne.symm hzero, hb0.2.2⟩
    obtain ⟨b', hb'⟩ : ∃ b' : Block, b'.data = xs ++ y' :: ys :=
      ⟨⟨_, hnonzero, hlength ▸ b.length_le⟩, rfl⟩
    rw [← hb'] at hlength
    refine ⟨b', by rw [Block.bytes, Block.code, hlength, hb', Block.code], fun dest hroom => ?_⟩
    -- The block keeps its length, so it decodes to as many bytes, one of them changed.
    have hfull : b'.full = b.full := by rw [Block.full, Block.full, hlength]
    obtain ⟨front, back, hpayload, hpayload'⟩ := rest_block pre post b b' hfull true
    have hlen : (payload (pre ++ b' :: post)).length = d.length := by
      simp only [hd, payload, hpayload, hpayload', List.length_append, hlength]
    obtain ⟨dest', hrun, hdest'⟩ := Codec.decodeSlice_delimited 0
      (show pre ++ b' :: post ≠ [] by simp) [] dest (hlen ▸ hroom)
    rw [List.replicate_zero, List.nil_append, Nat.zero_add, hlen] at hrun
    refine ⟨dest', hrun, ?_⟩
    rw [← hlen, hdest'.take]
    exact rejects_body hb hb' hne (hd ▸ haccepts)

/-- An acknowledgement whose kind was changed. -/
theorem parse_rejects_bursts_kind :
    ∃ fields, (Packet.ack 7 0).bytes = 2 :: fields ∧ parse (1 :: fields) = some none := by
  have haccepts : parse (Packet.ack 7 0).bytes = some (some (.ack 7 0)) := by
    rw [Packet.bytes, parse_sealed]
    rfl
  exact ⟨_, rfl, (parse_rejects_bursts haccepts).2.1 [] 2 _ 1 rfl (by decide)⟩

end CobsIoAsync.Protocol
