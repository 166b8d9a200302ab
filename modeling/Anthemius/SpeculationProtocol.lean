import Anthemius.ExecutorMachine

/-!
# The speculation protocol

The executor without its queues: the statuses, the validation index with its wave, the
commit state, the multi-version map and the recorded inputs and outputs. A worker is only
known by its role in the protocol, and an idle worker may attempt any ready transaction at
any time, so no result about this protocol depends on the order in which the channels hand
out transactions.
-/
namespace Anthemius

/-- What a worker is doing, with the data it carries. A worker is stranded once it holds a
task that its loop has no arm for. -/
inductive Role (K P E : Type)
  | idle
  | stranded
  | loading
  | loaded (idx : TxnIndex)
  | peeked (idx : TxnIndex) (incarnation : Incarnation)
  | attempting (version : Version) (condvar : Option DependencyCondvar) (retry : Bool)
  | executing (version : Version) (phase : ExecutePhase K P E)
  | validating (version : Version) (wave : Wave) (phase : ValidatePhase K)
  | rejecting (version : Version) (wave : Wave)
  | accepting (version : Version) (wave : Wave)
  | aborting (version : Version) (phase : AbortPhase K)
  | lowering (txn : TxnIndex)
  | storing (txn : TxnIndex) (wave : Wave)
  | retrying (txn : TxnIndex)

namespace Role
variable {K P E : Type}

/-- The status cell that only this worker may change, with its value: an attempt holds the
write lock, an execution and an abort are the only ones of their version. -/
def owned : Role K P E → Option (TxnIndex × ExecutionStatus)
  | .attempting v condvar _ => some (v.1, .readyToExecute v.2 condvar)
  | .executing v _ => some (v.1, .executing v.2)
  | .aborting v _ => some (v.1, .aborting v.2)
  | _ => none

/-- The transaction whose validation status is locked. -/
def sealed : Role K P E → Option TxnIndex
  | .aborting v .resetting => some v.1
  | .lowering i | .storing i _ | .retrying i => some i
  | .attempting v _ true => some v.1
  | _ => none

/-- The version and the wave of a validation that is not finished yet. -/
def claim : Role K P E → Option (Version × Wave)
  | .validating v wave _ | .rejecting v wave | .accepting v wave => some (v, wave)
  | _ => none

/-- The index seen by the worker that holds the lock of `try_validate_next_version`. -/
def seenIndex : Role K P E → Option TxnIndex
  | .loaded i | .peeked i _ => some i
  | _ => none

def HoldsValock : Role K P E → Prop
  | .loading | .loaded _ | .peeked _ _ => True
  | _ => False

def Attempts (txn : TxnIndex) : Role K P E → Prop
  | .attempting v _ _ => v.1 = txn
  | _ => False

end Role

/-- Restrictions on runs. Atomic claims: nothing the claim relies on has changed since the
index was loaded. Steadfast aborts: the attempt that ends an abort is not given up for a
dependency that is not executed. Bounded waves: the counter of the waves never starts again
from zero. -/
structure Discipline where
  atomicClaims : Prop
  steadfastAborts : Prop
  boundedWaves : Prop

structure Speculation (K P E : Type) (m : ℕ) where
  status : TxnIndex → ExecutionStatus
  triggered : TxnIndex → Wave
  validated : TxnIndex → Option Wave
  index : TxnIndex
  wave : Wave
  commitState : TxnIndex × Wave
  history : List Event
  mv : MVHashMap K
  io : TxnLastInputOutput K P E
  role : Fin m → Role K P E

variable {K P E : Type} {m : ℕ} [DecidableEq K]

/-- A step inside an execution, up to `set_executed_status`. -/
inductive Compute (job : Job K P E) (v : Version) (mv : MVHashMap K)
    (io : TxnLastInputOutput K P E) :
    ExecutePhase K P E → MVHashMap K → TxnLastInputOutput K P E → ExecutePhase K P E → Prop
  | read {key next reads kind value}
      (h : mv.getStateValue job.base key v.1 = some (.ok (kind, value))) :
      Compute job v mv io (.running (.readKey key next) reads) mv io
        (.running (next value) (reads ++ [⟨key, kind⟩]))
  | finish {status reads} :
      Compute job v mv io (.running (.finished status) reads) mv io (.loadPrevious status reads)
  | load {status reads} :
      Compute job v mv io (.loadPrevious status reads) mv io
        (.applyUpdates status reads (Job.updates v.2 status) (io.modifiedKeys v.1))
  | apply {status reads u us prev mv'} (h : mv.apply v.1 u = some mv') :
      Compute job v mv io (.applyUpdates status reads (u :: us) prev) mv' io
        (.applyUpdates status reads us (prev.erase u.1))
  | applied {status reads prev} :
      Compute job v mv io (.applyUpdates status reads [] prev) mv io
        (.removeStale status reads prev)
  | remove {status reads prev choice key mv'} (hk : prev[choice]? = some key)
      (h : mv.delete key v.1 = some mv') :
      Compute job v mv io (.removeStale status reads prev) mv' io
        (.removeStale status reads (prev.eraseIdx choice))
  | removed {status reads} :
      Compute job v mv io (.removeStale status reads []) mv io (.recordInput status reads)
  | recordInput {status reads} :
      Compute job v mv io (.recordInput status reads) mv
        { io with inputs := Function.update io.inputs v.1 (some reads) } (.recordOutput status)
  | recordOutput {status} :
      Compute job v mv io (.recordOutput status) mv
        { io with
          outputs := Function.update io.outputs v.1 (some (status.mapError .userError)) }
        .setExecuted

namespace Speculation

def turn (s : Speculation K P E m) (w : Fin m) (r : Role K P E) : Speculation K P E m :=
  { s with role := Function.update s.role w r }

omit [DecidableEq K] in
theorem turn_self (s : Speculation K P E m) {w : Fin m} {r : Role K P E} (h : r = s.role w) :
    s.turn w r = s := by
  have hr : Function.update s.role w r = s.role := by
    rw [h]
    exact Function.update_eq_self ..
  rw [turn, hr]

def setStatus (s : Speculation K P E m) (i : TxnIndex) (st : ExecutionStatus) :
    Speculation K P E m :=
  { s with status := Function.update s.status i st }

def record (s : Speculation K P E m) (e : Event) : Speculation K P E m :=
  { s with history := e :: s.history }

/-- Some worker holds the lock on the validation status. -/
def Sealed (s : Speculation K P E m) (i : TxnIndex) : Prop := ∃ u, (s.role u).sealed = some i

def new : Speculation K P E m where
  status := fun _ => .readyToExecute 0 none
  triggered := fun _ => 0
  validated := fun _ => none
  index := 0
  wave := 0
  commitState := (0, 0)
  history := []
  mv := .new
  io := .new
  role := fun _ => .idle

/-- One step of a worker. The two commit steps belong to the committing worker, whatever
its role. -/
inductive Step (job : Job K P E) (d : Discipline) (w : Fin m) (s : Speculation K P E m) :
    Speculation K P E m → Prop
  | lock (h : s.role w = .idle) (hfree : ∀ u, ¬ (s.role u).HoldsValock) :
      Step job d w s (s.turn w .loading)
  | unlock (h : s.role w = .loading ∨ ∃ i, s.role w = .loaded i) :
      Step job d w s (s.turn w .idle)
  | load (h : s.role w = .loading) (hi : s.index < job.numTxns) :
      Step job d w s (s.turn w (.loaded s.index))
  | peek {i inc} (h : s.role w = .loaded i) (hs : s.status i = .executed inc) :
      Step job d w s (s.turn w (.peeked i inc))
  | claim {i inc} (h : s.role w = .peeked i inc)
      (hatomic : d.atomicClaims → s.index = i ∧ s.status i = .executed inc) :
      Step job d w s (({ s with index := s.index + 1 }.record
        (.claimed (s.index, inc) s.wave)).turn w (.validating (s.index, inc) s.wave .loadReads))
  | loadReads {v wave reads} (h : s.role w = .validating v wave .loadReads)
      (hr : s.io.inputs v.1 = some reads) :
      Step job d w s (s.turn w (.validating v wave (.reading reads)))
  | check {v wave r rest res} (h : s.role w = .validating v wave (.reading (r :: rest)))
      (hr : s.mv.read r.accessPath v.1 = some res) (hv : r.kind.validate res = true) :
      Step job d w s (s.turn w (.validating v wave (.reading rest)))
  | reject {v wave r rest res} (h : s.role w = .validating v wave (.reading (r :: rest)))
      (hr : s.mv.read r.accessPath v.1 = some res) (hv : r.kind.validate res = false) :
      Step job d w s (s.turn w (.rejecting v wave))
  | accept {v wave} (h : s.role w = .validating v wave (.reading [])) :
      Step job d w s ((s.record (.validated v wave)).turn w (.accepting v wave))
  | abort {v wave} (h : s.role w = .rejecting v wave) (hs : s.status v.1 = .executed v.2) :
      Step job d w s (((s.setStatus v.1 (.aborting v.2)).record (.aborted v)).turn w
        (.aborting v .loadModified))
  | keep {v wave} (h : s.role w = .rejecting v wave) (hs : s.status v.1 ≠ .executed v.2) :
      Step job d w s (s.turn w (.accepting v wave))
  | finish {v wave} (h : s.role w = .accepting v wave) (hfree : ¬ s.Sealed v.1) :
      Step job d w s ({ s with
        validated := Function.update s.validated v.1
          (some ((s.validated v.1).elim wave fun prev => max prev wave)) }.turn w .idle)
  | loadModified {v} (h : s.role w = .aborting v .loadModified) :
      Step job d w s (s.turn w (.aborting v (.marking (s.io.modifiedKeys v.1))))
  | mark {v keys choice key mv} (h : s.role w = .aborting v (.marking keys))
      (hk : keys[choice]? = some key) (hm : s.mv.markEstimate key v.1 = some mv) :
      Step job d w s ({ s with mv := mv }.turn w (.aborting v (.marking (keys.eraseIdx choice))))
  | marked {v} (h : s.role w = .aborting v (.marking [])) :
      Step job d w s (s.turn w (.aborting v .locking))
  | hold {v} (h : s.role w = .aborting v .locking) (hfree : ¬ s.Sealed v.1) :
      Step job d w s (s.turn w (.aborting v .resetting))
  | reset {v} (h : s.role w = .aborting v .resetting) :
      Step job d w s ((s.setStatus v.1 (.readyToExecute (v.2 + 1) none)).turn w (.lowering v.1))
  | lower {i wave} (h : s.role w = .lowering i) (hi : i < s.index) (hle : wave ≤ s.wave + 1)
      (hbounded : d.boundedWaves → wave = s.wave + 1) :
      Step job d w s ({ s with index := i, wave := wave }.turn w (.storing i (s.wave + 1)))
  | pass {i} (h : s.role w = .lowering i) (hi : s.index ≤ i) :
      Step job d w s (s.turn w (.retrying i))
  | store {i wave} (h : s.role w = .storing i wave) :
      Step job d w s ({ s with triggered := Function.update s.triggered i wave }.turn w
        (.retrying i))
  | attempt {i inc condvar} (h : s.role w = .idle) (hi : i < job.numTxns)
      (hs : s.status i = .readyToExecute inc condvar) (hfree : ∀ u, ¬ (s.role u).Attempts i) :
      Step job d w s (s.turn w (.attempting (i, inc) condvar false))
  | retry {i inc condvar} (h : s.role w = .retrying i)
      (hs : s.status i = .readyToExecute inc condvar) (hfree : ∀ u, ¬ (s.role u).Attempts i) :
      Step job d w s (s.turn w (.attempting (i, inc) condvar true))
  | miss {i} (h : s.role w = .retrying i)
      (hs : ∀ inc condvar, s.status i ≠ .readyToExecute inc condvar) :
      Step job d w s (s.turn w .idle)
  | giveUp {v condvar retry} (h : s.role w = .attempting v condvar retry)
      (hsteady : d.steadfastAborts → retry = false) :
      Step job d w s (s.turn w .idle)
  | incarnate {v condvar retry} (h : s.role w = .attempting v condvar retry) :
      Step job d w s (((s.setStatus v.1 (.executing v.2)).record (.incarnated v condvar)).turn w
        (.executing v (.running (job.program v.1) [])))
  | compute {v phase phase' mv io} (h : s.role w = .executing v phase)
      (hc : Compute job v s.mv s.io phase mv io phase') :
      Step job d w s ({ s with mv := mv, io := io }.turn w (.executing v phase'))
  | executed {v} (h : s.role w = .executing v .setExecuted) :
      Step job d w s (((s.setStatus v.1 (.executed v.2)).record (.executed v)).turn w .idle)
  | advance {inc} (hs : s.status s.commitState.1 = .executed inc)
      (hfree : ¬ s.Sealed s.commitState.1) :
      Step job d w s { s with
        commitState := (s.commitState.1, max s.commitState.2 (s.triggered s.commitState.1)) }
  | commit {inc wave} (hn : s.commitState.1 < job.numTxns)
      (hs : s.status s.commitState.1 = .executed inc) (hfree : ¬ s.Sealed s.commitState.1)
      (hv : s.validated s.commitState.1 = some wave)
      (hw : max s.commitState.2 (s.triggered s.commitState.1) ≤ wave) :
      Step job d w s { (s.setStatus s.commitState.1 (.committed inc)).record
          (.committed (s.commitState.1, inc)) with
        commitState := (s.commitState.1 + 1,
          max s.commitState.2 (s.triggered s.commitState.1)) }

/-- The states of all runs under a discipline. -/
def Reachable (job : Job K P E) (d : Discipline) : Speculation K P E m → Prop :=
  Relation.ReflTransGen (fun s s' => ∃ w, Step job d w s s') new

end Speculation
end Anthemius
