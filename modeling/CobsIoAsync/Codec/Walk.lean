import CobsIoAsync.Codec.Decode
import CobsIoAsync.Reasoning.Cobs

/-!
# Codec.Walk — what the decoder does on one frame

`walk` is the decoder on zero-free bytes without a destination: the bytes it hands out and the
state it is left in.  The loop of the decoder is the walk together with the capacity of the
destination, and the walk over a sequence of blocks hands out their payload.
-/

namespace CobsIoAsync.Codec

open Reasoning Cobs

/-- The byte written for `byte` by a push, if any. -/
def PushResult.written (byte : UInt8) : PushResult → List UInt8
  | .addSingle => [byte]
  | .writeSentinel => [0]
  | _ => []

/-- The decoder over zero-free bytes: the bytes written and the state after them. -/
def DecoderState.walk (state : DecoderState) : List UInt8 → List UInt8 × DecoderState
  | [] => ([], state)
  | byte :: bytes =>
    let r := state.push byte
    let w := r.2.walk bytes
    (r.1.written byte ++ w.1, w.2)

@[simp] theorem DecoderState.walk_nil (state : DecoderState) : state.walk [] = ([], state) := rfl

theorem DecoderState.walk_append (state : DecoderState) (xs ys : List UInt8) :
    state.walk (xs ++ ys) =
      ((state.walk xs).1 ++ ((state.walk xs).2.walk ys).1, ((state.walk xs).2.walk ys).2) := by
  induction xs generalizing state with
  | nil => rfl
  | cons x xs ih => simp only [List.cons_append, walk, ih, List.append_assoc]

variable {n : Nat}

/-! ## Bounds -/

/-- What the loop reports as written lies within the destination. -/
theorem decodeLoop_len_le {source : List UInt8} {idx : Nat} {state : DecoderState} {started : Bool}
    {written : Nat} {dest dest' : Bytes n} {decoded : DecodedFrame} (hwritten : written ≤ n)
    (h : decodeLoop source idx state started written dest = (.ok decoded, dest')) :
    decoded.len ≤ n := by
  -- the count goes up only where the destination had room for the byte
  have hset : ∀ {dest dest' : Bytes n} {i : Nat} {x : UInt8}, dest.set? i x = some dest' →
      i + 1 ≤ n := by
    intro dest dest' i x hx
    by_contra hn
    rw [Bytes.set?_eq_none (by omega)] at hx
    cases hx
  induction source generalizing idx state started written dest with
  | nil =>
      rw [decodeLoop] at h
      split at h
      · cases h
      · split at h
        · cases h
        · cases h
          exact hwritten
  | cons byte source ih =>
      rw [decodeLoop] at h
      split at h
      · exact ih hwritten h
      · split at h
        · exact ih hwritten h
        · split at h
          · exact ih (hset ‹_›) h
          · cases h
        · split at h
          · exact ih (hset ‹_›) h
          · cases h
        · cases h
          exact hwritten
        · cases h

/-! ## What was in the destination before -/

/-- The same result, with the same decoded bytes. -/
def Agree (r r' : DecodeResult × Bytes n) : Prop :=
  r.1 = r'.1 ∧ ∀ frame, r.1 = .ok frame → r.2.toList.take frame.len = r'.2.toList.take frame.len

theorem agree_error (dest dest' : Bytes n) (error : DecodeError Empty SeekableError) :
    Agree (.error error, dest) (.error error, dest') :=
  ⟨rfl, fun frame hframe => by cases hframe⟩

theorem agree_ok {dest dest' : Bytes n} {written : Nat}
    (h : dest.toList.take written = dest'.toList.take written) (consumed : Nat) :
    Agree (.ok ⟨written, consumed⟩, dest) (.ok ⟨written, consumed⟩, dest') := by
  refine ⟨rfl, fun frame hframe => ?_⟩
  obtain rfl := Except.ok.inj hframe
  exact h

theorem set?_agree {dest dest' : Bytes n} {written : Nat}
    (h : dest.toList.take written = dest'.toList.take written) (byte : UInt8) :
    dest.set? written byte = none ∧ dest'.set? written byte = none ∨
      ∃ out out', dest.set? written byte = some out ∧ dest'.set? written byte = some out' ∧
        out.toList.take (written + 1) = out'.toList.take (written + 1) := by
  by_cases hroom : written < n
  · refine .inr ⟨_, _, Bytes.set?_eq hroom byte, Bytes.set?_eq hroom byte, ?_⟩
    rw [List.take_add_one, List.take_add_one, List.take_set_of_le (Nat.le_refl _),
      List.take_set_of_le (Nat.le_refl _), h]
    simp [hroom]
  · have hfull := Nat.not_lt.mp hroom
    exact .inl ⟨Bytes.set?_eq_none hfull byte, Bytes.set?_eq_none hfull byte⟩

/-- A byte is written to both destinations or to none. -/
theorem agree_write {written : Nat} {dest dest' : Bytes n}
    (h : dest.toList.take written = dest'.toList.take written) (x : UInt8)
    {next : Bytes n → DecodeResult × Bytes n}
    (hnext : ∀ {out out' : Bytes n}, out.toList.take (written + 1) = out'.toList.take (written + 1) →
      Agree (next out) (next out')) :
    Agree
      (match dest.set? written x with
        | some dest => next dest
        | none => (.error (.destination .outOfBounds), dest))
      (match dest'.set? written x with
        | some dest => next dest
        | none => (.error (.destination .outOfBounds), dest')) := by
  rcases set?_agree h x with ⟨hnone, hnone'⟩ | ⟨out, out', hout, hout', htake⟩
  · rw [hnone, hnone']
    exact agree_error _ _ _
  · rw [hout, hout']
    exact hnext htake

/-- The decoder reads nothing from the destination. -/
theorem decodeLoop_agree (source : List UInt8) (idx : Nat) (state : DecoderState) (started : Bool)
    {written : Nat} {dest dest' : Bytes n}
    (h : dest.toList.take written = dest'.toList.take written) :
    Agree (decodeLoop source idx state started written dest)
      (decodeLoop source idx state started written dest') := by
  induction source generalizing idx state started written dest dest' with
  | nil =>
      rw [decodeLoop, decodeLoop]
      split_ifs
      · exact agree_error _ _ _
      · exact agree_error _ _ _
      · exact agree_ok h _
  | cons byte source ih =>
      rw [decodeLoop, decodeLoop]
      -- neither the padding test nor the state machine looks at the destination
      by_cases hpadding : (!started && byte == 0) = true
      · rw [if_pos hpadding, if_pos hpadding]
        exact ih _ _ _ h
      · rw [if_neg hpadding, if_neg hpadding]
        obtain ⟨result, state'⟩ := state.push byte
        cases result with
        | addSingle => exact agree_write h byte fun htake => ih _ _ _ htake
        | writeSentinel => exact agree_write h 0 fun htake => ih _ _ _ htake
        | invalidFrame => exact agree_error _ _ _
        | endOfFrame => exact agree_ok h _
        | skip => exact ih _ _ _ h

theorem decodeSlice_agree (source : List UInt8) (dest dest' : Bytes n) :
    Agree (decodeSlice source dest) (decodeSlice source dest') :=
  decodeLoop_agree source 0 .new false rfl

/-! ## The loop and the walk -/

/-- Padding in front of a frame is counted and otherwise ignored. -/
theorem decodeLoop_padding (k : Nat) (source : List UInt8) (idx : Nat) (state : DecoderState)
    (written : Nat) (dest : Bytes n) :
    decodeLoop (List.replicate k 0 ++ source) idx state false written dest =
      decodeLoop source (idx + k) state false written dest := by
  induction k generalizing idx with
  | zero => simp
  | succ k ih =>
      rw [List.replicate_succ, List.cons_append, decodeLoop]
      simp only [Bool.not_false, beq_self_eq_true, Bool.and_self, if_true, ih]
      rw [show idx + 1 + k = idx + (k + 1) by omega]

/-- The first nonzero byte starts the frame. -/
theorem decodeLoop_start {byte : UInt8} (hbyte : byte ≠ 0) (source : List UInt8) (idx : Nat)
    (state : DecoderState) (written : Nat) (dest : Bytes n) :
    decodeLoop (byte :: source) idx state false written dest =
      decodeLoop (byte :: source) idx state true written dest := by
  have hb : (byte == 0) = false := by simpa using hbyte
  simp only [decodeLoop, hb, Bool.and_false]
  rfl

/-- A nonzero byte neither ends the frame nor invalidates it. -/
theorem push_nonzero {byte : UInt8} (hbyte : byte ≠ 0) (state : DecoderState) :
    (state.push byte).1 ≠ .endOfFrame ∧ (state.push byte).1 ≠ .invalidFrame := by
  simp only [DecoderState.push, if_neg hbyte]
  split
  · split <;> simp
  · simp

/-- A nonzero byte is pushed and what it hands out is written behind `out`. -/
theorem decodeLoop_push {byte : UInt8} (hbyte : byte ≠ 0) (source : List UInt8) (idx : Nat)
    (state : DecoderState) {out : List UInt8} {orig dest : Bytes n}
    (hdest : orig.Overwrites out dest)
    (hroom : (out ++ (state.push byte).1.written byte).length ≤ n) :
    ∃ dest', decodeLoop (byte :: source) idx state true out.length dest =
        decodeLoop source (idx + 1) (state.push byte).2 true
          (out ++ (state.push byte).1.written byte).length dest' ∧
      orig.Overwrites (out ++ (state.push byte).1.written byte) dest' := by
  have hp := push_nonzero hbyte state
  rw [decodeLoop]
  simp only [Bool.not_true, Bool.false_and, Bool.false_eq_true, if_false]
  generalize state.push byte = p at hp hroom ⊢
  obtain ⟨r, state'⟩ := p
  -- a nonzero byte ends no frame, so that the last two cases do not occur
  cases r with
  | skip => exact ⟨dest, by simp [PushResult.written], by simpa [PushResult.written] using hdest⟩
  | addSingle =>
      obtain ⟨dest', hset, hdest'⟩ := hdest.push (by simp [PushResult.written] at hroom; omega) byte
      simp only [PushResult.written, List.length_append, List.length_singleton, hset]
      exact ⟨dest', rfl, hdest'⟩
  | writeSentinel =>
      obtain ⟨dest', hset, hdest'⟩ := hdest.push (by simp [PushResult.written] at hroom; omega) 0
      simp only [PushResult.written, List.length_append, List.length_singleton, hset]
      exact ⟨dest', rfl, hdest'⟩
  | endOfFrame => exact absurd rfl hp.1
  | invalidFrame => exact absurd rfl hp.2

/-- Over zero-free bytes that fit, the loop writes what the walk hands out. -/
theorem decodeLoop_walk {bytes : List UInt8} (hbytes : 0 ∉ bytes) (source : List UInt8) (idx : Nat)
    (state : DecoderState) {out : List UInt8} {orig dest : Bytes n}
    (hdest : orig.Overwrites out dest) (hroom : (out ++ (state.walk bytes).1).length ≤ n) :
    ∃ dest', decodeLoop (bytes ++ source) idx state true out.length dest =
        decodeLoop source (idx + bytes.length) (state.walk bytes).2 true
          (out ++ (state.walk bytes).1).length dest' ∧
      orig.Overwrites (out ++ (state.walk bytes).1) dest' := by
  induction bytes generalizing idx state out dest with
  | nil => exact ⟨dest, by simp, by simpa using hdest⟩
  | cons byte bytes ih =>
      simp only [List.mem_cons, not_or] at hbytes
      simp only [DecoderState.walk, ← List.append_assoc] at hroom ⊢
      obtain ⟨dest₁, hrun₁, hdest₁⟩ := decodeLoop_push (Ne.symm hbytes.1) (bytes ++ source) idx
        state hdest (by simp only [List.length_append] at hroom ⊢; omega)
      obtain ⟨dest₂, hrun₂, hdest₂⟩ := ih hbytes.2 (idx + 1) (state.push byte).2 hdest₁ hroom
      refine ⟨dest₂, ?_, hdest₂⟩
      rw [List.cons_append, hrun₁, hrun₂, List.length_cons,
        show idx + 1 + bytes.length = idx + (bytes.length + 1) by omega]

/-! ## The walk over blocks -/

/-- Inside a block the walk hands out the data bytes. -/
theorem walk_data (full : Bool) (data : List UInt8) (hdata : 0 ∉ data) (k : UInt8)
    (hk : k.toNat = data.length + 1) :
    DecoderState.walk ⟨k, full⟩ data = (data, ⟨1, full⟩) := by
  induction data generalizing k with
  | nil =>
      have h1 : k = 1 := UInt8.toNat_inj.mp (by simpa using hk)
      rw [DecoderState.walk_nil, h1]
  | cons x xs ih =>
      simp only [List.mem_cons, not_or] at hdata
      simp only [List.length_cons] at hk
      have hgt : ¬ k ≤ 1 := by
        rw [UInt8.le_iff_toNat_le, hk]
        simp
      have hsub : (k - 1).toNat = xs.length + 1 := by
        rw [UInt8.toNat_sub_of_le _ _ (by rw [UInt8.le_iff_toNat_le, hk]; simp), hk]
        simp
      simp only [DecoderState.walk, DecoderState.push, if_neg (Ne.symm hdata.1), if_neg hgt,
        ih hdata.2 (k - 1) hsub, PushResult.written, List.singleton_append]

/-- At a block boundary the walk hands out the separator and the data of the next block. -/
theorem walk_block (b : Block) (k : UInt8) (full : Bool) (hk : k ≤ 1) :
    DecoderState.walk ⟨k, full⟩ b.bytes =
      (separator (k == 0 || full) ++ b.data, ⟨1, b.full⟩) := by
  have hfull : (b.code == 0xFF) = b.full := by
    have hl := b.length_le
    have hc := b.code_toNat
    simp only [Block.full]
    rw [Bool.eq_iff_iff, beq_iff_eq, beq_iff_eq, ← UInt8.toNat_inj, hc]
    simp
  simp only [Block.bytes, DecoderState.walk, DecoderState.push, if_neg b.code_ne_zero, if_pos hk,
    hfull, walk_data b.full b.data b.nonzero b.code b.code_toNat]
  congr 2
  by_cases h : k = 0 ∨ full = true
  · rw [if_pos h]
    rcases h with rfl | rfl <;> simp [PushResult.written, separator]
  · rw [if_neg h]
    simp only [not_or] at h
    simp [PushResult.written, separator, h.1, h.2]

/-- The walk over blocks behind a block hands out what they add to the payload. -/
theorem walk_wire (bs : List Block) (full : Bool) :
    ∃ full', DecoderState.walk ⟨1, full⟩ (wire bs) = (rest full bs, ⟨1, full'⟩) := by
  induction bs generalizing full with
  | nil => exact ⟨full, rfl⟩
  | cons b bs ih =>
      obtain ⟨full', h⟩ := ih b.full
      refine ⟨full', ?_⟩
      rw [wire_cons, DecoderState.walk_append, walk_block b 1 full (by decide), h, rest]
      rfl

/-- From the start of a frame the walk over blocks hands out their payload. -/
theorem walk_new_wire (b : Block) (bs : List Block) :
    ∃ full, DecoderState.new.walk (wire (b :: bs)) = (payload (b :: bs), ⟨1, full⟩) := by
  obtain ⟨full, h⟩ := walk_wire bs b.full
  refine ⟨full, ?_⟩
  rw [wire_cons, DecoderState.walk_append, DecoderState.new, walk_block b 0 false (by decide), h,
    payload, rest]
  rfl

/-! ## Frames -/

/-- The loop reaches the end of a frame of blocks with the whole payload written. -/
theorem decodeSlice_wire (k : Nat) (b : Block) (bs : List Block) (tail : List UInt8)
    (dest : Bytes n) (hroom : (payload (b :: bs)).length ≤ n) :
    ∃ full dest', decodeSlice (List.replicate k 0 ++ (wire (b :: bs) ++ tail)) dest =
        decodeLoop tail (k + (wire (b :: bs)).length) ⟨1, full⟩ true
          (payload (b :: bs)).length dest' ∧
      dest.Overwrites (payload (b :: bs)) dest' := by
  obtain ⟨full, hwalk⟩ := walk_new_wire b bs
  obtain ⟨dest', hrun, hdest'⟩ := decodeLoop_walk (zero_notMem_wire (b :: bs)) tail k .new
    (.refl dest) (by rw [hwalk]; exact hroom)
  refine ⟨full, dest', ?_, ?_⟩
  · rw [decodeSlice, decodeLoop_padding, Nat.zero_add]
    simp only [hwalk, List.nil_append] at hrun
    rw [← hrun]
    exact decodeLoop_start b.code_ne_zero (b.data ++ wire bs ++ tail) k .new 0 dest
  · rwa [hwalk, List.nil_append] at hdest'

/-- A frame of blocks behind padding is decoded up to and including its delimiter. -/
theorem decodeSlice_delimited (k : Nat) {bs : List Block} (hbs : bs ≠ []) (tail : List UInt8)
    (dest : Bytes n) (hroom : (payload bs).length ≤ n) :
    ∃ dest', decodeSlice (List.replicate k 0 ++ (wire bs ++ 0 :: tail)) dest =
        (.ok ⟨(payload bs).length, k + (wire bs).length + 1⟩, dest') ∧
      dest.Overwrites (payload bs) dest' := by
  obtain ⟨b, bs, rfl⟩ := List.exists_cons_of_ne_nil hbs
  obtain ⟨full, dest', hrun, hdest'⟩ := decodeSlice_wire k b bs (0 :: tail) dest hroom
  exact ⟨dest', hrun, hdest'⟩

/-- Without a delimiter it is decoded up to the end of the source. -/
theorem decodeSlice_undelimited (k : Nat) {bs : List Block} (hbs : bs ≠ []) (dest : Bytes n)
    (hroom : (payload bs).length ≤ n) :
    ∃ dest', decodeSlice (List.replicate k 0 ++ wire bs) dest =
        (.ok ⟨(payload bs).length, k + (wire bs).length⟩, dest') ∧
      dest.Overwrites (payload bs) dest' := by
  obtain ⟨b, bs, rfl⟩ := List.exists_cons_of_ne_nil hbs
  obtain ⟨full, dest', hrun, hdest'⟩ := decodeSlice_wire k b bs [] dest hroom
  rw [List.append_nil] at hrun
  exact ⟨dest', hrun, hdest'⟩

end CobsIoAsync.Codec
