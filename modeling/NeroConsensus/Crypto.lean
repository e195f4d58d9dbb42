import Mathlib.Data.Vector.Basic

/-!
# Keys and digests

`crypto/src/lib.rs`, as far as the primary uses it: a digest and a public key are
thirty-two bytes each, and two of them are equal when their bytes are.
-/

namespace NeroConsensus

/-- `Digest(pub [u8; 32])`. -/
structure Digest where
  bytes : List.Vector UInt8 32
  deriving DecidableEq

/-- `PublicKey(pub [u8; 32])`. -/
structure PublicKey where
  bytes : List.Vector UInt8 32
  deriving DecidableEq

end NeroConsensus
