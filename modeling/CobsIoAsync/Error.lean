import CobsIoAsync.Reasoning.Bytes

/-!
# Error — the error types of the crate

Each enumeration keeps the variants of `error.rs`; the progress record of an invalid frame comes
from `codec/decode.rs`.
-/

namespace CobsIoAsync

/-- `SeekableError`. -/
inductive SeekableError where
  | outOfBounds
  deriving DecidableEq

/-- `DecodeProgress`. -/
structure DecodeProgress where
  consumed : Nat
  written : Nat
  frameLen : Option Nat
  deriving DecidableEq

/-- `DecodeError`, generic in the source and destination errors. -/
inductive DecodeError (SourceError DestinationError : Type) where
  | source (error : SourceError)
  | destination (error : DestinationError)
  | unexpectedSourceEof
  | emptyFrame
  | invalidFrame (progress : DecodeProgress)
  deriving DecidableEq

/-- `ConfigError`. -/
inductive ConfigError where
  | bufferTooSmall
  deriving DecidableEq

/-- `ConnectionError`, generic in the error of the underlying transport. -/
inductive ConnectionError (TransportError : Type) where
  | transport (error : TransportError)
  | unexpectedEof
  | writeZero
  | timeout
  | sequenceExhausted
  | failed
  deriving DecidableEq

end CobsIoAsync
