import Anthemius.MultiVersionMap
import Mathlib.Data.List.Dedup

/-! Reads of a speculative execution: what the view hands to the virtual machine, what it
records about the read, how a later validation compares the two, and the last recorded
input and output of every transaction. -/
namespace Anthemius
open LittleEndianBytes

inductive ReadKind
  | version (txn : TxnIndex) (incarnation : Incarnation)
  | resolved (value : ℕ)
  | unresolved (delta : DeltaOp)
  | storage
  | deltaApplicationFailure
  deriving DecidableEq

structure ReadDescriptor (K : Type) where
  accessPath : K
  kind : ReadKind
  deriving DecidableEq

inductive ReadResult
  | value (data : WriteOp)
  | u128 (value : ℕ)
  | unresolved (delta : DeltaOp)
  | none

/-- One round of the loop in `MVHashMapView::read`: the kind of read that is recorded and
the result that is returned, or the transaction whose estimate was hit. -/
def captureRead : MVHashMapResult → Except TxnIndex (ReadKind × ReadResult)
  | .ok (.version v data) => .ok (.version v.1 v.2, .value data)
  | .ok (.resolved value) => .ok (.resolved value, .u128 value)
  | .error .notFound => .ok (.storage, .none)
  | .error (.unresolved delta) => .ok (.unresolved delta, .unresolved delta)
  | .error (.dependency txn) => .error txn
  | .error .deltaApplicationFailure => .ok (.deltaApplicationFailure, .u128 0)

/-- `LatestView::get_state_value` over a multi-version map; `none` is the panic on a stored
value that is not an aggregator. -/
def latestValue (stored : Option Bytes) : ReadResult → Option StateValue
  | .value data => some (.ok data.extractRawBytes)
  | .u128 value => some (.ok (some (serialize value)))
  | .unresolved delta =>
    match stored with
    | none => some (.error .storageError)
    | some bytes => (deserialize bytes).map fun value =>
        match delta.applyTo value with
        | .ok result => .ok (some (serialize result))
        | .error e => .error (.deltaError e)
  | .none => some (.ok stored)

/-- A read of the speculative view, up to its value: the recorded kind with the state value,
or the transaction to wait for. -/
def MVHashMap.getStateValue {K : Type} (mv : MVHashMap K) (base : K → Option Bytes) (key : K)
    (txn : TxnIndex) : Option (Except TxnIndex (ReadKind × StateValue)) :=
  (mv.read key txn).bind fun res =>
    match captureRead res with
    | .error dep => some (.error dep)
    | .ok (kind, result) => (latestValue (base key) result).map fun value => .ok (kind, value)

/-- Does a repeated read agree with the recorded one? An estimate never does. -/
def ReadKind.validate (kind : ReadKind) : MVHashMapResult → Bool
  | .ok (.version v _) => kind = .version v.1 v.2
  | .ok (.resolved value) => kind = .resolved value
  | .error (.dependency _) => false
  | .error (.unresolved delta) => kind = .unresolved delta
  | .error .notFound => kind = .storage
  | .error .deltaApplicationFailure => kind = .deltaApplicationFailure

/-- Validation accepts a read exactly when the loop of a new read would record it again. -/
theorem ReadKind.validate_iff (kind : ReadKind) (res : MVHashMapResult) :
    kind.validate res = true ↔ ∃ r, captureRead res = .ok (kind, r) := by
  rcases res with (_ | _ | _ | _) | (_ | _) <;>
    simp [validate, captureRead, eq_comm (b := kind)]

structure TxnLastInputOutput (K P E : Type) where
  inputs : TxnIndex → Option (List (ReadDescriptor K))
  outputs : TxnIndex → Option (TxnOutput K P E)

namespace TxnLastInputOutput
variable {K P E : Type} [DecidableEq K]

def new : TxnLastInputOutput K P E := ⟨fun _ => none, fun _ => none⟩

/-- The keys that the last recorded output of a transaction writes or updates, each once. -/
def modifiedKeys (io : TxnLastInputOutput K P E) (txn : TxnIndex) : List K :=
  match (io.outputs txn).bind (·.output?) with
  | none => []
  | some output => (output.getWrites.map Prod.fst ++ output.getDeltas.map Prod.fst).dedup

end TxnLastInputOutput
end Anthemius
