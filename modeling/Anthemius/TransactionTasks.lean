import Anthemius.DeltaOperations

/-!
# Transactions as seen by the block executor

A transaction is run by the virtual machine against a state view. Its run is a program that
asks the view for one key after the other and ends with a status; the program is the same
for every view, so an execution is a deterministic function of the answers it was given.
-/
namespace Anthemius
open LittleEndianBytes

abbrev TxnIndex := ℕ
abbrev Incarnation := ℕ
abbrev Version := TxnIndex × Incarnation

inductive WriteOp
  | creation (data : Bytes)
  | modification (data : Bytes)
  | deletion
  deriving DecidableEq

def WriteOp.extractRawBytes : WriteOp → Option Bytes
  | .creation data | .modification data => some data
  | .deletion => none

/-- The side effects of one execution; the writes and the deltas come out of maps. The payload
stands for the events, the gas and the transaction status, which the executor passes on
untouched. -/
structure TransactionOutput (K P : Type) where
  getWrites : List (K × WriteOp)
  getDeltas : List (K × DeltaOp)
  payload : P
  writes_nodup : (getWrites.map Prod.fst).Nodup
  deltas_nodup : (getDeltas.map Prod.fst).Nodup
  deriving DecidableEq

/-- The output of a transaction that comes after a `SkipRest`; the default payload is the
retry status without events or gas. -/
def TransactionOutput.skipOutput {K P : Type} [Inhabited P] : TransactionOutput K P :=
  ⟨[], [], default, .nil, .nil⟩

/-- An output with at most one write. -/
def TransactionOutput.ofWrite {K P : Type} (write : Option (K × WriteOp)) (payload : P) :
    TransactionOutput K P :=
  ⟨write.toList, [], payload, by cases write <;> simp, .nil⟩

/-- An output with one delta. -/
def TransactionOutput.ofDelta {K P : Type} (key : K) (delta : DeltaOp) (payload : P) :
    TransactionOutput K P :=
  ⟨[], [(key, delta)], payload, .nil, by simp⟩

namespace Task

/-- The result of executing a transaction. -/
inductive ExecutionStatus (T E : Type)
  | success (output : T)
  | abort (error : E)
  | skipRest (output : T)
  deriving DecidableEq

def ExecutionStatus.output? {T E : Type} : ExecutionStatus T E → Option T
  | .success output | .skipRest output => some output
  | .abort _ => none

def ExecutionStatus.mapError {T E F : Type} (f : E → F) : ExecutionStatus T E → ExecutionStatus T F
  | .success output => .success output
  | .abort error => .abort (f error)
  | .skipRest output => .skipRest output

@[simp] theorem ExecutionStatus.output?_mapError {T E F : Type} (f : E → F)
    (s : ExecutionStatus T E) : (s.mapError f).output? = s.output? := by
  cases s <;> rfl

end Task

/-- Errors of block execution. -/
inductive Error (E : Type)
  | modulePathReadWrite
  | userError (error : E)
  | skip
  deriving DecidableEq

/-- What the executor returns for one transaction, and what it keeps as last output. -/
abbrev TxnStatus (K P E : Type) := Task.ExecutionStatus (TransactionOutput K P) E
abbrev TxnOutput (K P E : Type) := Task.ExecutionStatus (TransactionOutput K P) (Error E)

/-- Why a state view fails to answer: an aggregator that is not in storage, or a delta that
does not apply to the stored value. -/
inductive ViewError
  | storageError
  | deltaError (error : PartialVMError)
  deriving DecidableEq

abbrev StateValue := Except ViewError (Option Bytes)

/-- A run of the virtual machine: either finished, or about to read a key and continue with
whatever the view answers. -/
inductive Program (K R : Type)
  | finished (result : R)
  | readKey (key : K) (next : StateValue → Program K R)

/-- The result of a program on a fixed view. -/
def Program.run {K R : Type} (view : K → StateValue) : Program K R → R
  | .finished result => result
  | .readKey key next => (next (view key)).run view

/-- The keys that a program reads on a fixed view. -/
def Program.readKeys {K R : Type} (view : K → StateValue) : Program K R → List K
  | .finished _ => []
  | .readKey key next => key :: (next (view key)).readKeys view

def Program.bind {K R R' : Type} : Program K R → (R → Program K R') → Program K R'
  | .finished result, f => f result
  | .readKey key next, f => .readKey key fun value => (next value).bind f

def Program.map {K R R' : Type} (f : R → R') (p : Program K R) : Program K R' :=
  p.bind fun result => .finished (f result)

@[simp] theorem Program.run_bind {K R R' : Type} (view : K → StateValue) (p : Program K R)
    (f : R → Program K R') : (p.bind f).run view = (f (p.run view)).run view := by
  induction p with
  | finished result => rfl
  | readKey key next ih => exact ih (view key)

@[simp] theorem Program.run_map {K R R' : Type} (view : K → StateValue) (f : R → R')
    (p : Program K R) : (p.map f).run view = f (p.run view) :=
  p.run_bind view _

/-- The program can end with this result, whatever it is answered. -/
inductive Program.Yields {K R : Type} : Program K R → R → Prop
  | finished (result : R) : Yields (.finished result) result
  | readKey {key : K} {next : StateValue → Program K R} {result : R} (value : StateValue)
      (h : Yields (next value) result) : Yields (.readKey key next) result

theorem Program.yields_run {K R : Type} (view : K → StateValue) (p : Program K R) :
    p.Yields (p.run view) := by
  induction p with
  | finished result => exact .finished result
  | readKey key next ih => exact .readKey (view key) (ih (view key))

theorem Program.Yields.of_bind {K R R' : Type} {p : Program K R} {f : R → Program K R'}
    {result : R'}
    (h : (p.bind f).Yields result) : ∃ r, p.Yields r ∧ (f r).Yields result := by
  induction p with
  | finished r => exact ⟨r, .finished r, h⟩
  | readKey key next ih =>
    cases h with
    | readKey value h =>
      obtain ⟨r, hr, hf⟩ := ih value h
      exact ⟨r, .readKey value hr, hf⟩

theorem Program.Yields.of_map {K R R' : Type} {p : Program K R} {f : R → R'} {result : R'}
    (h : (p.map f).Yields result) : ∃ r, p.Yields r ∧ result = f r := by
  obtain ⟨r, hr, hf⟩ := Yields.of_bind h
  cases hf
  exact ⟨r, hr, rfl⟩

end Anthemius
