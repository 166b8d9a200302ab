import Anthemius.SpeculationRefinement
import Mathlib.Algebra.BigOperators.Fin
import Mathlib.Algebra.Order.BigOperators.Group.Finset

/-! The status machine of the scheduler, in every interleaving of the workers: what never
goes back along a run, and what holds in every state it reaches. -/
namespace Anthemius.StatusMachine
open InterleavedRuns Speculation

variable {K P E : Type} {m : ℕ} [DecidableEq K] {job : Job K P E}

/-! ## Waves and aborts -/

section Waves
variable {d : Discipline} {w : Fin m} {s s' : Speculation K P E m}

end Waves

variable {s s' : State K P E m}

/-- What no run takes back: incarnations and commits, and the validation wave unless its 32 bits
overflow, for which as many versions have to be aborted. -/
structure Progress (s s' : State K P E m) : Prop where
  incarnation_le : ∀ i, (s.sched.txnStatus i).incarnation ≤ (s'.sched.txnStatus i).incarnation
  committed : ∀ i inc, s.sched.txnStatus i = .committed inc → s'.sched.txnStatus i = .committed inc
  aborted_le : (abortedVersions s.history).length ≤ (abortedVersions s'.history).length
  wave_le : (abortedVersions s'.history).length < 2 ^ 32 →
    (unpackValidationIdx s.sched.validationIdx).2 ≤ (unpackValidationIdx s'.sched.validationIdx).2

omit [DecidableEq K] in
theorem Progress.refl (s : State K P E m) : Progress s s :=
  ⟨fun _ => le_rfl, fun _ _ h => h, le_rfl, fun _ => le_rfl⟩

omit [DecidableEq K] in
theorem Progress.trans {t : State K P E m} (h : Progress s s') (h' : Progress s' t) :
    Progress s t :=
  ⟨fun i => (h.incarnation_le i).trans (h'.incarnation_le i),
    fun i inc hi => h'.committed i inc (h.committed i inc hi), h.aborted_le.trans h'.aborted_le,
    fun ha => (h.wave_le (h'.aborted_le.trans_lt ha)).trans (h'.wave_le ha)⟩

/-- The invariants of the status machine. -/
structure Sound (job : Job K P E) (s : State K P E m) : Prop where
  handedOut_once : (handedOut s.history).Nodup
  aborted_once : (abortedVersions s.history).Nodup
  committed_iff : ∀ i, (∃ inc, s.sched.txnStatus i = .committed inc) ↔ i < s.commitState.1
  index_le : (unpackValidationIdx s.sched.validationIdx).1 ≤ job.numTxns
  setExecuted : ∀ w v, (s.workers w).pc = .execute v .setExecuted →
    s.sched.txnStatus v.1 = .executing v.2
  setAborted : ∀ w v, (s.workers w).pc = .abort v .resetting →
    s.sched.txnStatus v.1 = .aborting v.2
  no_condvar : ∀ w v condvar, (s.workers w).pc ≠ .tryCommit (.executionTask v (some condvar)) ∧
    ∀ txn pos count, (s.workers w).pc ≠ .releaseChildren txn pos count (some (v, some condvar))
  in_loop : ∀ w, (s.workers w).pc ≠ .exited false

private def writeIf (condition : Bool) (key : ℕ) : TxnStatus ℕ Unit Unit :=
  .success ⟨if condition then [(key, .modification [1])] else [], [], (),
    by cases condition <;> simp, .nil⟩

/-- Transaction 0 writes key 0, each later transaction writes its own key if it found the key
of its predecessor written. -/
def chainProgram : TxnIndex → Program ℕ (TxnStatus ℕ Unit Unit)
  | 0 => .finished (writeIf true 0)
  | i + 1 => .readKey i fun value => .finished (writeIf (decide (value = .ok (some [1]))) (i + 1))

/-- Three transactions of the chain on an empty base state, without hints. -/
def chainBlock : Job ℕ Unit Unit where
  numTxns := 3
  numTxns_lt := by decide
  program := chainProgram
  prologue := fun _ => .finished true
  prologueMap := fun _ => false
  base := fun _ => none
  mode := .standard
  dependencies := [[], [], []]
  gasEstimates := [1, 1, 1]
  plan := (Plan.new 3 [[], [], []] [1, 1, 1]).get rfl
  plan_new := rfl

/-- A schedule given by turns: a worker and how many steps it takes. -/
def turns {m : ℕ} (ts : List (Fin m × ℕ)) : List (Fin m × ℕ) :=
  ts.flatMap fun t => List.replicate t.2 (t.1, 0)

/-- Two workers take turns of the given lengths. -/
def alternate (lengths : List ℕ) : List (Fin 2 × ℕ) :=
  turns (lengths.mapIdx fun i length => (Fin.ofNat 2 i, length))

/-- Both workers execute, transaction 1 too early; its validation fails, and it is aborted and
executed a second time. -/
def staleSchedule : List (Fin 2 × ℕ) :=
  turns [(0, 8), (1, 31), (0, 32), (1, 6), (0, 12), (1, 18), (0, 24), (1, 5)]

end Anthemius.StatusMachine
