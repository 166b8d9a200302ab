import Anthemius.ValidatorVerifiers
import Mathlib.Data.Countable.Basic
import Mathlib.Logic.Equiv.List

/-!
# Ledger infos signed by a quorum

A ledger info says which block is committed, and at the end of an epoch who the next validators
are. The signatures and the hash function of waypoints are parameters.
-/
namespace Anthemius.Consensus

abbrev Version := UInt64

structure EpochState where
  epoch : UInt64
  verifier : ValidatorVerifier
  deriving DecidableEq

structure BlockInfo where
  epoch : UInt64
  round : Round
  id : HashValue
  executedStateId : HashValue
  version : Version
  timestampUsecs : UInt64
  nextEpochState : Option EpochState
  deriving DecidableEq

structure LedgerInfo where
  commitInfo : BlockInfo
  consensusDataHash : HashValue
  deriving DecidableEq

structure LedgerInfoWithSignatures where
  ledgerInfo : LedgerInfo
  signatures : AggregateSignature
  deriving DecidableEq

/-- The fields of a ledger info a waypoint is made of. -/
structure Ledger2WaypointConverter where
  epoch : UInt64
  rootHash : HashValue
  version : Version
  timestampUsecs : UInt64
  nextEpochState : Option EpochState
  deriving DecidableEq

/-- The signatures and the hash function of waypoints. -/
structure Crypto where
  bls : Bls LedgerInfo
  hashWaypoint : Ledger2WaypointConverter → HashValue

/-! ## Hash functions without collisions

There are only countably many values of the type that is hashed, so a hash function without
collisions exists. -/

instance countableUInt64 : Countable UInt64 := Function.Injective.countable (f := UInt64.toNat)
  fun _ _ h => UInt64.toNat_inj.mp h

instance : Countable ValidatorConsensusInfo := by
  refine Function.Injective.countable
    (f := fun info => (info.address, info.publicKey, info.votingPower)) ?_
  rintro ⟨⟩ ⟨⟩ h
  simpa using h

instance : Countable ValidatorVerifier := by
  refine Function.Injective.countable (f := ValidatorVerifier.validatorInfos) ?_
  rintro ⟨⟩ ⟨⟩ h
  simpa using h

instance : Countable EpochState := by
  refine Function.Injective.countable (f := fun state => (state.epoch, state.verifier)) ?_
  rintro ⟨⟩ ⟨⟩ h
  simpa using h

/-! ## Verification -/

def LedgerInfoWithSignatures.verifySignatures (c : Crypto) (v : ValidatorVerifier)
    (li : LedgerInfoWithSignatures) : Except VerifyError Unit :=
  v.verifyMultiSignatures c.bls li.ledgerInfo li.signatures

/-! ## What passes verification -/

@[simp] theorem mapError_eq_ok {ε ε' α : Type} {x : Except ε α} {f : ε → ε'} {a : α} :
    x.mapError f = .ok a ↔ x = .ok a := by
  cases x <;> simp [Except.mapError]

end Anthemius.Consensus
