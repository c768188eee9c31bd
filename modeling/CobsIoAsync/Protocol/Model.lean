import CobsIoAsync.EncodingLength
import CobsIoAsync.Reasoning.BigEndian
import CobsIoAsync.Sync.Model

/-!
# Protocol.Model — the packets of `protocol.rs`
-/

namespace CobsIoAsync.Protocol

open Reasoning

def kindData : UInt8 := 1
def kindAck : UInt8 := 2

def headerLen : Nat := 1 + 8 + 4
def crcLen : Nat := 4
def overhead : Nat := headerLen + crcLen

/-- `ACK_FRAME_LEN`; a constant, so `max_encoding_length` is evaluated at compile time. -/
def ackFrameLen : Nat := overhead + maxEncodingOverhead overhead + 2

/-- `Packet`. -/
inductive Packet where
  | data (session : UInt64) (seq : UInt32) (payload : List UInt8)
  | ack (session : UInt64) (seq : UInt32)
  deriving DecidableEq

/-! ## Checksum -/

/-- One round of the inner loop that fills `CRC_TABLE`. -/
def crcBit (crc : UInt32) : UInt32 :=
  if crc &&& 1 ≠ 0 then (crc >>> 1) ^^^ 0xEDB88320 else crc >>> 1

/-- `CRC_TABLE`. -/
def crcTable : List UInt32 := (List.range 256).map fun i => crcBit^[8] (UInt32.ofNat i)

/-- One round of the fold of `crc32`; a `u8` always indexes the table. -/
def crcByte (crc : UInt32) (byte : UInt8) : UInt32 :=
  crcTable.getD (crc.toUInt8 ^^^ byte).toNat 0 ^^^ (crc >>> 8)

/-- `crc32`. -/
def crc32 (data : List UInt8) : UInt32 := ~~~ data.foldl crcByte (~~~ 0)

/-! ## Capacity -/

/-- The `while` loop of `max_payload`. -/
def maxPayloadLoop [Target] (body : Nat) : Nat → Exec Nat
  | 0 => some 0
  | len + 1 =>
    if len + 1 > overhead then do
      let encoded ← maxEncodingLength (len + 1)
      if encoded > body then maxPayloadLoop body len else some (len + 1)
    else some (len + 1)

/-- `max_payload`. -/
def maxPayload [Target] (capacity : Nat) : Exec Nat :=
  match checkedSub capacity 2 with
  | none => some 0
  | some body => do
    let len ← maxPayloadLoop body body
    some (len - overhead)

/-! ## Encoding -/

variable {m n : Nat}

/-- `seal`: the frame length, the packet buffer and the frame buffer. -/
def sealPacket (decoded : Bytes m) (len : Nat) (frame : Bytes n) : Exec (Nat × Bytes m × Bytes n) := do
  let crcAt ← checkedSub len crcLen
  let covered ← slice decoded.toList 0 crcAt
  let decoded ← decoded.copyFromSlice crcAt len (BigEndian.bytes 4 (crc32 covered).toNat)
  let packet ← slice decoded.toList 0 len
  match ← (Sync.encodeFromSliceIncludingSentinels packet frame).run with
  | .ok (frameLen, frame) => some (frameLen, decoded, frame)
  | .error _ => none

/-- `header`. -/
def header (decoded : Bytes m) (kind : UInt8) (session : UInt64) (seq : UInt32) :
    Exec (Bytes m) := do
  let decoded ← decoded.set? 0 kind
  let decoded ← decoded.copyFromSlice 1 9 (BigEndian.bytes 8 session.toNat)
  decoded.copyFromSlice 9 headerLen (BigEndian.bytes 4 seq.toNat)

/-- `encode_data`: the frame length, the scratch buffer and the frame buffer. -/
def encodeData (session : UInt64) (seq : UInt32) (payload : List UInt8) (scratch : Bytes m)
    (frame : Bytes n) : Exec (Nat × Bytes m × Bytes n) := do
  let scratch ← header scratch kindData session seq
  let scratch ← scratch.copyFromSlice headerLen (headerLen + payload.length) payload
  sealPacket scratch (overhead + payload.length) frame

/-- `encode_ack`: the frame length and the frame buffer. -/
def encodeAck (session : UInt64) (seq : UInt32) (frame : Bytes ackFrameLen) :
    Exec (Nat × Bytes ackFrameLen) := do
  let decoded ← header (.zeros overhead) kindAck session seq
  let (len, _, frame) ← sealPacket decoded overhead frame
  some (len, frame)

/-! ## Parsing -/

/-- `parse`. -/
def parse (decoded : List UInt8) : Exec (Option Packet) :=
  if decoded.length < overhead then some none
  else do
    let crcAt ← checkedSub decoded.length crcLen
    let body ← slice decoded 0 crcAt
    let crc ← slice decoded crcAt decoded.length
    if crc32 body ≠ UInt32.ofNat (BigEndian.value crc) then some none
    else
      let session ← slice body 1 9
      let seq ← slice body 9 headerLen
      let payload ← slice body headerLen body.length
      let kind ← body[0]?
      let session := UInt64.ofNat (BigEndian.value session)
      let seq := UInt32.ofNat (BigEndian.value seq)
      if kind = kindData ∧ payload ≠ [] then some (some (.data session seq payload))
      else if kind = kindAck ∧ payload = [] then some (some (.ack session seq))
      else some none

end CobsIoAsync.Protocol
