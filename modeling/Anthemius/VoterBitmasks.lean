import Mathlib.Algebra.Order.Ring.Nat
import Mathlib.Data.List.Induction
import Mathlib.Data.List.Sort
import Mathlib.Data.Nat.Bitwise
import Mathlib.Tactic.Common

/-!
# The bit mask of the voters of a certificate

Positions have 16 bits and are listed by a scan over all bytes of the mask.
-/
namespace Anthemius.Consensus

/-- Eight positions to a byte, the highest bit first. -/
structure AptosBitVec where
  inner : List UInt8
  deriving DecidableEq

namespace AptosBitVec

/-- The bit of a position within its byte. -/
def bucketBit (pos : UInt16) : UInt8 := 128 >>> (pos.toNat % 8).toUInt8

def requiredBuckets (numBits : UInt16) : ℕ :=
  if numBits = 0 then 0 else (numBits.toNat - 1) / 8 + 1

variable (v : AptosBitVec)

def numBuckets : ℕ := v.inner.length

def isSet (pos : UInt16) : Bool :=
  match v.inner[pos.toNat / 8]? with
  | none => false
  | some byte => byte &&& bucketBit pos != 0

def trailingZeros (byte : UInt8) : ℕ := ((List.range 8).find? (byte.toNat.testBit ·)).getD 8

def lastSetBit : Option UInt16 :=
  (v.inner.reverse.zipIdx.find? fun entry => entry.1 != 0).map fun entry =>
    (8 * (v.inner.length - entry.2) - trailingZeros entry.1 - 1).toUInt16

def iterOnes : List ℕ := (List.range (v.inner.length * 8)).filter fun idx => v.isSet idx.toUInt16

end AptosBitVec
end Anthemius.Consensus
