import CobsIoAsync.Error

/-!
# Codec.Decode — the decoder of `codec/decode.rs`

The decoder walks the source one byte at a time.  Besides its result it leaves the destination as
overwritten so far, also when it fails.
-/

namespace CobsIoAsync.Codec

open Reasoning

/-- `DecodedFrame`. -/
structure DecodedFrame where
  len : Nat
  consumed : Nat
  deriving DecidableEq

/-- `DecoderState`. -/
structure DecoderState where
  nextSentinelIdx : UInt8
  currentBlockIsFull : Bool
  deriving DecidableEq

/-- `PushResult`. -/
inductive PushResult where
  | addSingle
  | writeSentinel
  | invalidFrame
  | endOfFrame
  | skip
  deriving DecidableEq

namespace DecoderState

/-- `DecoderState::new`. -/
def new : DecoderState := ⟨0, false⟩

/-- `DecoderState::push`. -/
def push (state : DecoderState) (byte : UInt8) : PushResult × DecoderState :=
  if byte = 0 then
    if state.nextSentinelIdx > 1 then (.invalidFrame, { state with nextSentinelIdx := 0 })
    else (.endOfFrame, { state with nextSentinelIdx := 0 })
  else if state.nextSentinelIdx ≤ 1 then
    (if state.nextSentinelIdx = 0 ∨ state.currentBlockIsFull then .skip else .writeSentinel,
      ⟨byte, byte == 0xFF⟩)
  else
    (.addSingle, { state with nextSentinelIdx := state.nextSentinelIdx - 1 })

end DecoderState

/-- The result of `decode_slice`; its source cannot fail. -/
abbrev DecodeResult := Except (DecodeError Empty SeekableError) DecodedFrame

variable {n : Nat}

/-- The `for` loop of `decode_slice` from index `idx` on, and what follows it. -/
def decodeLoop : List UInt8 → Nat → DecoderState → Bool → Nat → Bytes n → DecodeResult × Bytes n
  | [], idx, state, started, written, dest =>
    if state.nextSentinelIdx > 1 then (.error .unexpectedSourceEof, dest)
    else if !started then (.error .emptyFrame, dest)
    else (.ok ⟨written, idx⟩, dest)
  | byte :: source, idx, state, started, written, dest =>
    if !started && byte == 0 then decodeLoop source (idx + 1) state started written dest
    else
      match state.push byte with
      | (.skip, state) => decodeLoop source (idx + 1) state true written dest
      | (.addSingle, state) =>
        match dest.set? written byte with
        | some dest => decodeLoop source (idx + 1) state true (written + 1) dest
        | none => (.error (.destination .outOfBounds), dest)
      | (.writeSentinel, state) =>
        match dest.set? written 0 with
        | some dest => decodeLoop source (idx + 1) state true (written + 1) dest
        | none => (.error (.destination .outOfBounds), dest)
      | (.endOfFrame, _) => (.ok ⟨written, idx + 1⟩, dest)
      | (.invalidFrame, _) => (.error (.invalidFrame ⟨idx + 1, written, none⟩), dest)

/-- `decode_slice`. -/
def decodeSlice (source : List UInt8) (dest : Bytes n) : DecodeResult × Bytes n :=
  decodeLoop source 0 .new false 0 dest

end CobsIoAsync.Codec
