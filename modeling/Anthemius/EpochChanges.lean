import Anthemius.Certificates

/-!
# Epoch changes

An epoch change is proved by a chain of ledger infos, each signed by the validators that the one
before has announced. The first one is checked against a waypoint.
-/
namespace Anthemius.Consensus

/-- Lower case hexadecimal digits, all 64 of them. -/
def toHex (hash : HashValue) : String :=
  let digits := Nat.toDigits 16 hash
  String.ofList (List.replicate (64 - digits.length) '0' ++ digits)

/-! ## Hash functions given by a table -/

instance : Countable Ledger2WaypointConverter := by
  refine Function.Injective.countable (f := fun w =>
    (w.epoch, w.rootHash, w.version, w.timestampUsecs, w.nextEpochState)) ?_
  rintro ⟨⟩ ⟨⟩ h
  simpa using h

/-- A hash function without collisions that gives the values of a table their positions. -/
noncomputable def tableHash {α : Type} [Countable α] [DecidableEq α] (table : List α) (a : α) :
    HashValue :=
  if a ∈ table then table.idxOf a else table.length + (exists_injective_nat α).choose a

theorem tableHash_injective {α : Type} [Countable α] [DecidableEq α] (table : List α) :
    Function.Injective (tableHash table) := by
  intro a b h
  unfold tableHash at h
  split at h
  next ha =>
    split at h
    next hb => exact (List.idxOf_inj ha).mp h
    next =>
      exact absurd h (Nat.ne_of_lt (Nat.lt_add_right _ (List.idxOf_lt_length_of_mem ha)))
  next =>
    split at h
    next hb =>
      exact absurd h.symm (Nat.ne_of_lt (Nat.lt_add_right _ (List.idxOf_lt_length_of_mem hb)))
    next => exact (exists_injective_nat α).choose_spec (Nat.add_left_cancel h)

/-! ## Epoch changes -/

structure Waypoint where
  version : Version
  value : HashValue
  deriving DecidableEq

def Ledger2WaypointConverter.new (li : LedgerInfo) : Ledger2WaypointConverter :=
  ⟨li.commitInfo.epoch, li.commitInfo.executedStateId, li.commitInfo.version,
    li.commitInfo.timestampUsecs, li.commitInfo.nextEpochState⟩

/-- What a chain of ledger infos is checked against. -/
inductive Verifier
  | waypoint (waypoint : Waypoint)
  | epochState (epochState : EpochState)

structure EpochChangeProof where
  ledgerInfoWithSigs : List LedgerInfoWithSignatures

section EpochChange
variable (c : Crypto)

namespace Waypoint

def newAny (li : LedgerInfo) : Waypoint :=
  ⟨li.commitInfo.version, c.hashWaypoint (.new li)⟩

def verify (w : Waypoint) (li : LedgerInfo) : Except String Unit := do
  okIf (li.commitInfo.version == w.version)
    ("Waypoint version mismatch: waypoint version = " ++ toString w.version ++
      ", given version = " ++ toString li.commitInfo.version)
  okIf (c.hashWaypoint (.new li) == w.value)
    ("Waypoint value mismatch: waypoint value = " ++ toHex w.value ++
      ", given value = " ++ toHex (c.hashWaypoint (.new li)))

end Waypoint

def EpochState.verify (state : EpochState) (li : LedgerInfoWithSignatures) :
    Except String Unit := do
  okIf (state.epoch == li.ledgerInfo.commitInfo.epoch)
    ("LedgerInfo has unexpected epoch " ++ toString li.ledgerInfo.commitInfo.epoch ++
      ", expected " ++ toString state.epoch)
  (li.verifySignatures c state.verifier).mapError VerifyError.display

namespace Verifier

def verify (verifier : Verifier) (li : LedgerInfoWithSignatures) : Except String Unit :=
  match verifier with
  | .waypoint w => w.verify c li.ledgerInfo
  | .epochState state => state.verify c li

def isLedgerInfoStale (verifier : Verifier) (li : LedgerInfo) : Bool :=
  match verifier with
  | .waypoint w => li.commitInfo.version < w.version
  | .epochState state => li.commitInfo.epoch < state.epoch

/-- The validators that one ledger info of the chain announces check the next one. -/
def verifyNext (verifier : Verifier) (li : LedgerInfoWithSignatures) : Except String Verifier := do
  verifier.verify c li
  let state ← okOr li.ledgerInfo.commitInfo.nextEpochState
    "LedgerInfo doesn't carry a ValidatorSet"
  pure (.epochState state)

end Verifier

/-- Stale ledger infos at the front are skipped. -/
def EpochChangeProof.verify (proof : EpochChangeProof) (verifier : Verifier) :
    Except String LedgerInfoWithSignatures := do
  let last ← okOr proof.ledgerInfoWithSigs.getLast? "The EpochChangeProof is empty"
  okIf (!verifier.isLedgerInfoStale last.ledgerInfo)
    "The EpochChangeProof is stale as our verifier is already ahead of the entire EpochChangeProof"
  let _ ← (proof.ledgerInfoWithSigs.dropWhile fun li =>
    verifier.isLedgerInfoStale li.ledgerInfo).foldlM (Verifier.verifyNext c) verifier
  pure last

end EpochChange

end Anthemius.Consensus
