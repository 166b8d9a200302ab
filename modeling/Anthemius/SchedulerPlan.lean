import Anthemius.TransactionTasks
import Mathlib.Logic.Function.Basic
import Mathlib.Data.Nat.Bitwise

/-!
# Shared state of the scheduler

The status cells of every transaction, the packed validation index, the two channels and
the lists of transactions that a finished transaction releases. `Plan.new` is the part of
the constructor that reads the hint graph: path costs, children, the transactions that can
start, and the parent that releases each of the others.
-/
namespace Anthemius

abbrev Wave := ℕ

/-- The identity of a condition variable. -/
abbrev DependencyCondvar := ℕ

inductive ExecutionMode
  | standard
  | pythia
  | pythiaSig
  deriving DecidableEq

inductive SchedulerTask
  | executionTask (version : Version) (condvar : Option DependencyCondvar)
  | validationTask (version : Version) (wave : Wave)
  | sigTask (index : ℕ)
  | prologueTask
  | noTask
  | done
  deriving DecidableEq

/-- The task that `finish_execution` returns for the version it may have incarnated. -/
def SchedulerTask.ofNext : Option (Version × Option DependencyCondvar) → SchedulerTask
  | none => .noTask
  | some (version, condvar) => .executionTask version condvar

inductive ExecutionStatus
  | readyToExecute (incarnation : Incarnation) (condvar : Option DependencyCondvar)
  | executing (incarnation : Incarnation)
  | suspended (incarnation : Incarnation) (condvar : DependencyCondvar)
  | executed (incarnation : Incarnation)
  | committed (incarnation : Incarnation)
  | aborting (incarnation : Incarnation)
  deriving DecidableEq

def ExecutionStatus.incarnation : ExecutionStatus → Incarnation
  | .readyToExecute i _ | .executing i | .suspended i _ | .executed i | .committed i
  | .aborting i => i

/-- The incarnation of an executed transaction; a committed one counts when asked for. -/
def ExecutionStatus.isExecuted (status : ExecutionStatus) (includeCommitted : Bool) :
    Option Incarnation :=
  match status with
  | .executed i => some i
  | .committed i => if includeCommitted then some i else none
  | _ => none

theorem ExecutionStatus.isExecuted_false {status : ExecutionStatus} {i : Incarnation}
    (h : status.isExecuted false = some i) : status = .executed i := by
  cases status <;> simp_all [isExecuted]

structure ValidationStatus where
  maxTriggeredWave : Wave
  requiredWave : Wave
  maybeMaxValidatedWave : Option Wave
  deriving DecidableEq

def ValidationStatus.new : ValidationStatus := ⟨0, 0, none⟩

/-! ## The packed validation index -/

def txnIdxMask : UInt64 := ((1 : UInt64) <<< 32) - 1

def unpackValidationIdx (validationIdx : UInt64) : TxnIndex × Wave :=
  ((validationIdx &&& txnIdxMask).toNat, (validationIdx >>> 32).toNat)

/-- The effect of `decrease_validation_idx`: the word it publishes and the wave it returns, or
nothing if the index is not above the target. The shift drops what does not fit, so in the
last wave the published word starts again with wave 0; the wave it would return is then out
of range, which is a panic. -/
def decreaseValidationIdx (validationIdx : UInt64) (target : TxnIndex) : Option (UInt64 × Wave) :=
  let (txn, wave) := unpackValidationIdx validationIdx
  if txn > target then some (target.toUInt64 ||| ((wave.toUInt64 + 1) <<< 32), wave + 1) else none

theorem unpackValidationIdx_eq (v : UInt64) :
    unpackValidationIdx v = (v.toNat % 2 ^ 32, v.toNat / 2 ^ 32) := by
  have hmask : txnIdxMask.toNat = 2 ^ 32 - 1 := by decide
  rw [unpackValidationIdx, UInt64.toNat_and, hmask, Nat.and_two_pow_sub_one_eq_mod,
    UInt64.toNat_shiftRight, Nat.shiftRight_eq_div_pow]
  rfl

/-- The carry of an increment stays inside the index while that is below its width. -/
theorem unpackValidationIdx_succ {v : UInt64} (hi : (unpackValidationIdx v).1 + 1 < (2 ^ 32 : ℕ)) :
    unpackValidationIdx (v + 1) = ((unpackValidationIdx v).1 + 1, (unpackValidationIdx v).2) := by
  have hv := v.toNat_lt
  have hone : (1 : UInt64).toNat = 1 := rfl
  simp only [unpackValidationIdx_eq, UInt64.toNat_add, hone] at hi ⊢
  dsimp only [TxnIndex] at hi
  have hm : (v.toNat + 1) % 2 ^ 64 % 2 ^ 32 = v.toNat % 2 ^ 32 + 1 := by omega
  have hd : (v.toNat + 1) % 2 ^ 64 / 2 ^ 32 = v.toNat / 2 ^ 32 := by omega
  rw [hm, hd]

theorem decreaseValidationIdx_none {v : UInt64} {target : TxnIndex}
    (h : decreaseValidationIdx v target = none) : (unpackValidationIdx v).1 ≤ target := by
  simp only [decreaseValidationIdx, ite_eq_right_iff, reduceCtorEq, imp_false] at h
  exact not_lt.mp h

private theorem toNat_pack {i w : ℕ} (hi : i < 2 ^ 32) (hw : w < 2 ^ 32) :
    (i.toUInt64 ||| ((w.toUInt64 + 1) <<< 32)).toNat = (w + 1) % 2 ^ 32 * 2 ^ 32 + i := by
  have h32 : (32 : UInt64).toNat % 64 = 32 := rfl
  have hone : (1 : UInt64).toNat = 1 := rfl
  have hsize : UInt64.size = 2 ^ 64 := rfl
  have hshift : (w + 1) * 2 ^ 32 % 2 ^ 64 = (w + 1) % 2 ^ 32 * 2 ^ 32 := by omega
  rw [UInt64.toNat_or, UInt64.toNat_shiftLeft, h32, UInt64.toNat_add, hone, Nat.toUInt64_eq,
    Nat.toUInt64_eq, UInt64.toNat_ofNat_of_lt' (by omega), UInt64.toNat_ofNat_of_lt' (by omega),
    Nat.mod_eq_of_lt (a := w + 1) (by omega), Nat.shiftLeft_eq, hshift, Nat.or_comm,
    ← Nat.shiftLeft_eq, ← Nat.shiftLeft_add_eq_or_of_lt hi]

theorem unpackValidationIdx_pack {i w : ℕ} (hi : i < 2 ^ 32) (hw : w < 2 ^ 32) :
    unpackValidationIdx (i.toUInt64 ||| ((w.toUInt64 + 1) <<< 32)) = (i, (w + 1) % 2 ^ 32) := by
  have hm : ((w + 1) % 2 ^ 32 * 2 ^ 32 + i) % 2 ^ 32 = i := by omega
  have hd : ((w + 1) % 2 ^ 32 * 2 ^ 32 + i) / 2 ^ 32 = (w + 1) % 2 ^ 32 := by omega
  rw [unpackValidationIdx_eq, toNat_pack hi hw, hm, hd]

theorem decreaseValidationIdx_some {v packed : UInt64} {target : TxnIndex} {wave : Wave}
    (ht : target < (2 ^ 32 : ℕ)) (h : decreaseValidationIdx v target = some (packed, wave)) :
    target < (unpackValidationIdx v).1 ∧ wave = (unpackValidationIdx v).2 + 1 ∧
      unpackValidationIdx packed = (target, wave % 2 ^ 32) := by
  simp only [decreaseValidationIdx] at h
  split at h
  next hlt =>
    have hwave : (unpackValidationIdx v).2 < 2 ^ 32 := by
      rw [unpackValidationIdx_eq]
      have hv := v.toNat_lt
      exact Nat.div_lt_of_lt_mul hv
    simp only [Option.some.injEq, Prod.mk.injEq] at h
    obtain ⟨rfl, rfl⟩ := h
    exact ⟨hlt, rfl, unpackValidationIdx_pack ht hwave⟩
  next => cases h

example : decreaseValidationIdx 0xffffffff00000005 2 = some (2, 2 ^ 32) := by decide

/-! ## The plan read off the hint graph -/

structure Plan where
  pathCost : TxnIndex → ℕ
  children : TxnIndex → List TxnIndex
  sendVec : List TxnIndex
  criticalPathParent : TxnIndex → List TxnIndex

namespace Plan

/-- The parent index that stands for "no parent". -/
def noParent : TxnIndex := 50000

/-- The slowest of the listed parents; ties keep the first one. -/
def slowestParent (pathCost : TxnIndex → ℕ) (nodes : List TxnIndex) : ℕ × TxnIndex :=
  nodes.foldl (fun best node => if pathCost node > best.1 then (pathCost node, node) else best)
    (0, noParent)

def start (gasEstimates : List ℕ) : Plan :=
  ⟨fun i => gasEstimates.getD i 0, fun _ => [], [], fun _ => []⟩

/-- The loop body for one transaction. `none` is the panic of an index out of bounds or of
the 32-bit path cost. -/
def visit (numTxns costLen : ℕ) (dependencies : List (List TxnIndex)) (p : Plan) (i : TxnIndex) :
    Option Plan :=
  let nodes := dependencies.getD i []
  let best := slowestParent p.pathCost nodes
  if (∀ node ∈ nodes, node < costLen ∧ node < numTxns) ∧ p.pathCost i + best.1 < 2 ^ 32 then
    some {
      pathCost := Function.update p.pathCost i (p.pathCost i + best.1)
      children := nodes.foldl (fun ch node => Function.update ch node (ch node ++ [i])) p.children
      sendVec := if best.2 = noParent then p.sendVec ++ [i] else p.sendVec
      criticalPathParent :=
        if best.2 = noParent then p.criticalPathParent
        else Function.update p.criticalPathParent best.2 (p.criticalPathParent best.2 ++ [i]) }
  else none

def new (numTxns : ℕ) (dependencies : List (List TxnIndex)) (gasEstimates : List ℕ) : Option Plan :=
  if gasEstimates.length ≥ numTxns ∧ dependencies.length ≥ numTxns then
    (List.range numTxns).foldlM (visit numTxns gasEstimates.length dependencies)
      (start gasEstimates)
  else none

def channels (p : Plan) : List TxnIndex := p.sendVec.filter fun i => (p.children i).isEmpty

def priochannels (p : Plan) : List TxnIndex := p.sendVec.filter fun i => !(p.children i).isEmpty

end Plan

/-- The mutable part of the scheduler. Locks are not stored: who holds one follows from where
the workers stand. -/
structure Scheduler where
  validationIdx : UInt64
  doneMarker : Bool
  txnStatus : TxnIndex → ExecutionStatus
  validationStatus : TxnIndex → ValidationStatus
  channels : List TxnIndex
  priochannels : List TxnIndex
  sigValIdx : ℕ
  prologueIndex : ℕ
  criticalPathParent : TxnIndex → List TxnIndex

namespace Scheduler

def new (plan : Plan) : Scheduler where
  validationIdx := 0
  doneMarker := false
  txnStatus := fun _ => .readyToExecute 0 none
  validationStatus := fun _ => .new
  channels := plan.channels
  priochannels := plan.priochannels
  sigValIdx := 0
  prologueIndex := 0
  criticalPathParent := plan.criticalPathParent

def setStatus (s : Scheduler) (txn : TxnIndex) (status : ExecutionStatus) : Scheduler :=
  { s with txnStatus := Function.update s.txnStatus txn status }

def push (s : Scheduler) (parent txn : TxnIndex) : Scheduler :=
  { s with
    criticalPathParent :=
      Function.update s.criticalPathParent parent (s.criticalPathParent parent ++ [txn]) }

def storeTriggered (s : Scheduler) (txn : TxnIndex) (wave : Wave) : Scheduler :=
  { s with
    validationStatus := Function.update s.validationStatus txn
      { s.validationStatus txn with maxTriggeredWave := wave } }

def finishValidation (s : Scheduler) (txn : TxnIndex) (wave : Wave) : Scheduler :=
  let previous := (s.validationStatus txn).maybeMaxValidatedWave
  { s with
    validationStatus := Function.update s.validationStatus txn
      { s.validationStatus txn with
        maybeMaxValidatedWave := some (previous.elim wave fun prev => max prev wave) } }

end Scheduler
end Anthemius
