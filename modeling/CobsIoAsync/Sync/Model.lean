import CobsIoAsync.Codec.Decode

/-!
# Sync.Model — the functions of `sync.rs`

The encoder writes into a destination slice through `SliceOutput`.  An error leaves the function
through `?` and the destination keeps what was written so far, so an error carries the destination.
-/

namespace CobsIoAsync.Sync

open Reasoning

/-- Fallible code over a destination of `n` bytes: panics outside, `Result` inside, the error
together with the destination as it was left. -/
abbrev Fallible (n : Nat) (α : Type) := ExceptT (SeekableError × Bytes n) Exec α

/-- `SliceOutput`. -/
structure SliceOutput (n : Nat) where
  dest : Bytes n
  len : Nat

namespace SliceOutput

variable {n : Nat}

/-- `SliceOutput::append`. -/
def append (output : SliceOutput n) (byte : UInt8) : Fallible n (SliceOutput n) :=
  match output.dest.set? output.len byte with
  | some dest => pure ⟨dest, output.len + 1⟩
  | none => throw (.outOfBounds, output.dest)

/-- `SliceOutput::set`. -/
def set (output : SliceOutput n) (idx : Nat) (byte : UInt8) : Fallible n (SliceOutput n) :=
  match output.dest.set? idx byte with
  | some dest => pure { output with dest := dest }
  | none => throw (.outOfBounds, output.dest)

end SliceOutput

/-- The local variables of `encode_from_slice`. -/
structure Encoder (n : Nat) where
  output : SliceOutput n
  codeIdx : Nat
  code : Nat
  needsCodePlaceholder : Bool

variable {n : Nat}

/-- One round of the `for` loop of `encode_from_slice`. -/
def encodeByte (encoder : Encoder n) (byte : UInt8) : Fallible n (Encoder n) := do
  let output ←
    if encoder.needsCodePlaceholder then encoder.output.append 0 else pure encoder.output
  if byte = 0 then
    let output ← output.set encoder.codeIdx (UInt8.ofNat encoder.code)
    let codeIdx := output.len
    let output ← output.append 0
    pure ⟨output, codeIdx, 1, false⟩
  else
    let code ← ExceptT.lift (checkedAdd u8Max encoder.code 1)
    if code = u8Max then
      let output ← output.set encoder.codeIdx (UInt8.ofNat code)
      let output ← output.append byte
      pure ⟨output, output.len, 1, true⟩
    else
      let output ← output.append byte
      pure ⟨output, encoder.codeIdx, code, false⟩

/-- `encode_from_slice`: the encoded length and the destination. -/
def encodeFromSlice (source : List UInt8) (dest : Bytes n) : Fallible n (Nat × Bytes n) := do
  let output ← SliceOutput.append ⟨dest, 0⟩ 0
  let encoder ← source.foldlM encodeByte ⟨output, 0, 1, false⟩
  let output ←
    if !encoder.needsCodePlaceholder then
      encoder.output.set encoder.codeIdx (UInt8.ofNat encoder.code)
    else pure encoder.output
  pure (output.len, output.dest)

/-- `encode_from_slice_including_sentinels`. -/
def encodeFromSliceIncludingSentinels (source : List UInt8) :
    {n : Nat} → Bytes n → Fallible n (Nat × Bytes n)
  | 0, dest => throw (.outOfBounds, dest)
  | _ + 1, dest =>
    ExceptT.mk do
      match ← (encodeFromSlice source dest.tail).run with
      | .error (error, rest) => pure (.error (error, rest.cons 0))
      | .ok (bodyLen, rest) =>
        match rest.set? bodyLen 0 with
        | some rest => pure (.ok (bodyLen + 2, rest.cons 0))
        | none => pure (.error (.outOfBounds, rest.cons 0))

/-- `decode_to_slice`. -/
def decodeToSlice (source : List UInt8) (dest : Bytes n) : Codec.DecodeResult × Bytes n :=
  Codec.decodeSlice source dest

end CobsIoAsync.Sync
