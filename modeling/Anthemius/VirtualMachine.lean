import Anthemius.ExecutableBlocks

/-!
# Transactions in the virtual machine

The block executor runs preprocessed transactions through the adapter of the virtual machine.
The Move programs themselves (prologue, payload, epilogue, block prologue) are parameters; the
checks around them, the cell that tells whether the prologue was already checked, and the kinds
of transactions are as in the adapter.
-/
namespace Anthemius

abbrev StatusCode := ℕ

/-- `INVALID_SIGNATURE`. -/
def invalidSignature : StatusCode := 1

/-- `SEQUENCE_NUMBER_TOO_NEW`. -/
def sequenceNumberTooNew : StatusCode := 4

/-- How a transaction that is kept has ended. -/
inductive KeptStatus
  | success
  | outOfGas
  | moveAbort (code : ℕ)
  | executionFailure
  | miscellaneousError (code : Option StatusCode)
  deriving DecidableEq

inductive TransactionStatus
  | discard (code : StatusCode)
  | keep (status : KeptStatus)
  | retry
  deriving DecidableEq

/-- What an output holds beside its writes and deltas. -/
structure VmPayload (Ev : Type) where
  events : List Ev
  gasUsed : ℕ
  status : TransactionStatus
  deriving DecidableEq

/-- The payload of `skip_output`. -/
instance {Ev : Type} : Inhabited (VmPayload Ev) := ⟨⟨[], 0, .retry⟩⟩

abbrev VmOutput (K Ev : Type) := TransactionOutput K (VmPayload Ev)

/-- The parameters: sessions `S` with their data cache, statuses `X` of the machine and events
`Ev`. No part of the machine finds a signature invalid. -/
structure AptosVM (K T W S X Ev : Type) where
  gasFeatureVersion : ℕ
  executed : X
  error : StatusCode → X
  statusCode : X → StatusCode
  isNewEpochEvent : Ev → Bool
  newSession : T → S
  checkTransactionFormat : T → Except X Unit
  runPrologue : T → S → Program K (S × Except X Unit)
  executePayload : T → Bool → S → Program K (X × VmOutput K Ev)
  processBlockPrologue : BlockMetadata → Program K (Except X (X × VmOutput K Ev))
  processWaypointChangeSet : W → Program K (Except X (X × VmOutput K Ev))
  format_code : ∀ txn err, checkTransactionFormat txn = .error err →
    statusCode err ≠ invalidSignature
  prologue_code : ∀ txn session session' err,
    (runPrologue txn session).Yields (session', .error err) → statusCode err ≠ invalidSignature
  payload_status : ∀ txn skip session result, (executePayload txn skip session).Yields result →
    result.2.payload.status ≠ .discard invalidSignature
  blockPrologue_status : ∀ metadata result,
    (processBlockPrologue metadata).Yields (.ok result) →
      result.2.payload.status ≠ .discard invalidSignature
  waypoint_status : ∀ writeSet result, (processWaypointChangeSet writeSet).Yields (.ok result) →
    result.2.payload.status ≠ .discard invalidSignature

/-- `InvalidSignature` is there, but nothing makes it. -/
inductive PreprocessedTransaction (T W : Type)
  | userTransaction (txn : T)
  | waypointWriteSet (writeSet : W)
  | blockMetadata (metadata : BlockMetadata)
  | invalidSignature
  | stateCheckpoint

/-- The transaction as it is executed, with the key that later transactions of the same sender
are recognised by. -/
def preprocessTransaction {T W : Type} (sender : T → List UInt8) :
    Transaction T W → PreprocessedTransaction T W × List UInt8
  | .blockMetadata metadata => (.blockMetadata metadata, [])
  | .genesisTransaction writeSet => (.waypointWriteSet writeSet, [])
  | .userTransaction txn => (.userTransaction txn, sender txn)
  | .stateCheckpoint _ => (.stateCheckpoint, [])

namespace AptosVM
variable {K T W S X Ev : Type} (vm : AptosVM K T W S X Ev)

/-- An output without effects. -/
def discardErrorVmStatus (err : X) : X × VmOutput K Ev :=
  (err, .ofWrite none ⟨[], 0, .discard (vm.statusCode err)⟩)

/-- The check before a transaction, with the session as it leaves it. -/
def validateSignatureCheckedTransaction (txn : T) (session : S) (allowTooNew : Bool) :
    Program K (S × Except X Unit) :=
  match vm.checkTransactionFormat txn with
  | .error err => .finished (session, .error err)
  | .ok () => (vm.runPrologue txn session).map fun
    | (session, .error err) =>
      if !allowTooNew || vm.statusCode err ≠ sequenceNumberTooNew then (session, .error err)
      else (session, .ok ())
    | (session, .ok ()) => (session, .ok ())

/-- From the check on: later versions of the gas schedule flush the cache of the session. -/
def executeBody (txn : T) (skipProEpi : Bool) (session : S) : Program K (X × VmOutput K Ev) :=
  vm.executePayload txn skipProEpi
    (if vm.gasFeatureVersion ≥ 1 then vm.newSession txn else session)

/-- Execution with the check. -/
def executeChecked (txn : T) (skipProEpi : Bool) : Program K (X × VmOutput K Ev) :=
  (vm.validateSignatureCheckedTransaction txn (vm.newSession txn) false).bind fun
    | (_, .error err) => .finished (vm.discardErrorVmStatus err)
    | (session, .ok ()) => vm.executeBody txn skipProEpi session

/-- The outcome of a user transaction and the new content of its cell. The cell is only used
when its flag is set, and it is set before the check is made. -/
def executeUserTransaction (txn : T) (skipProEpi : Bool) (prologue : Bool × Bool) :
    Program K ((X × VmOutput K Ev) × Bool) :=
  if skipProEpi then
    (vm.executeBody txn skipProEpi (vm.newSession txn)).map fun outcome => (outcome, prologue.2)
  else if !prologue.1 then
    (vm.executeChecked txn skipProEpi).map fun outcome => (outcome, prologue.2)
  else if !prologue.2 then
    (vm.executeChecked txn skipProEpi).map fun outcome => (outcome, true)
  else
    (vm.executeBody txn skipProEpi (vm.newSession txn)).map fun outcome => (outcome, prologue.2)

def executeUserTransactionPrologue (txn : T) : Program K Bool :=
  (vm.validateSignatureCheckedTransaction txn (vm.newSession txn) false).map fun
    | (_, .error _) => false
    | (_, .ok ()) => true

/-- The outcome of any transaction, with the new content of the cell. -/
def executeSingleTransaction (txn : PreprocessedTransaction T W) (skipProEpi : Bool)
    (prologue : Bool × Bool) : Program K (Except X (X × VmOutput K Ev) × Bool) :=
  match txn with
  | .blockMetadata metadata => (vm.processBlockPrologue metadata).map (·, prologue.2)
  | .waypointWriteSet writeSet => (vm.processWaypointChangeSet writeSet).map (·, prologue.2)
  | .userTransaction txn => (vm.executeUserTransaction txn skipProEpi prologue).map fun
    | (outcome, cell) => (.ok outcome, cell)
  | .invalidSignature =>
    .finished (.ok (vm.discardErrorVmStatus (vm.error invalidSignature)), prologue.2)
  | .stateCheckpoint =>
    .finished (.ok (vm.executed, .ofWrite none ⟨[], 0, .keep .success⟩), prologue.2)

def executeSingleTransactionPrologue : PreprocessedTransaction T W → Program K Bool
  | .userTransaction txn => vm.executeUserTransactionPrologue txn
  | _ => .finished false

def shouldRestartExecution (output : VmOutput K Ev) : Bool :=
  output.payload.events.any vm.isNewEpochEvent

/-- `execute_transaction` of the executor task, before deltas are materialised. -/
def executeTransaction (txn : PreprocessedTransaction T W) (prologue : Bool × Bool) :
    Program K (TxnStatus K (VmPayload Ev) X) :=
  (vm.executeSingleTransaction txn false prologue).map fun
    | (.ok (_, output), _) =>
      if vm.shouldRestartExecution output then .skipRest output else .success output
    | (.error err, _) => .abort err

end AptosVM
end Anthemius
