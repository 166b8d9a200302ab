import Anthemius.InterleavedRuns
import Anthemius.SpeculativeView
import Anthemius.SchedulerPlan
import Mathlib.Data.Fintype.Basic

/-!
# The workers of the block executor

Every worker is a position in the source of `work_task_with_scope` and of the functions it
calls, with the local variables that are live there. One step of a worker is one access to
shared data: an access to a status cell under its lock, an operation on an atomic, on a
channel, on a list of registered transactions, or on the multi-version map. Positions
between two accesses are merged with the access before them. A label names the worker and a
number that resolves its local choices (whether a `try_lock` is contended, which element of
a hash set comes next). A step that would panic, block or deadlock is not enabled.
-/
namespace Anthemius
open LittleEndianBytes

/-- The input of parallel execution: the transactions as programs, the base state and the
hint graph with its plan. The width of the packed index bounds the block. -/
structure Job (K P E : Type) where
  numTxns : ℕ
  numTxns_lt : numTxns < 2 ^ 32
  program : TxnIndex → Program K (TxnStatus K P E)
  prologue : TxnIndex → Program K Bool
  prologueMap : TxnIndex → Bool
  base : K → Option Bytes
  mode : ExecutionMode
  dependencies : List (List TxnIndex)
  gasEstimates : List ℕ
  plan : Plan
  plan_new : Plan.new numTxns dependencies gasEstimates = some plan

def Job.hintGraph {K P E : Type} (job : Job K P E) (txn : TxnIndex) : List TxnIndex :=
  job.dependencies.getD txn []

/-- Who called `try_incarnate`. -/
inductive Caller
  | tryExecPrio
  | tryExec
  | finishExecution (txn pos count : ℕ)
  | finishAbort
  deriving DecidableEq

/-- Positions inside `BlockExecutor::execute`, up to `set_executed_status`. -/
inductive ExecutePhase (K P E : Type)
  | running (program : Program K (TxnStatus K P E)) (reads : List (ReadDescriptor K))
  | waiting (program : Program K (TxnStatus K P E)) (reads : List (ReadDescriptor K))
      (dep : TxnIndex)
  | loadPrevious (status : TxnStatus K P E) (reads : List (ReadDescriptor K))
  | applyUpdates (status : TxnStatus K P E) (reads : List (ReadDescriptor K))
      (updates : List (K × EntryCell)) (prev : List K)
  | removeStale (status : TxnStatus K P E) (reads : List (ReadDescriptor K)) (prev : List K)
  | recordInput (status : TxnStatus K P E) (reads : List (ReadDescriptor K))
  | recordOutput (status : TxnStatus K P E)
  | setExecuted

/-- Positions inside `BlockExecutor::validate`, before its verdict. -/
inductive ValidatePhase (K : Type)
  | loadReads
  | reading (rest : List (ReadDescriptor K))

/-- Positions between a successful `try_abort` and `set_aborted_status`. -/
inductive AbortPhase (K : Type)
  | loadModified
  | marking (keys : List K)
  | locking
  | resetting

inductive Pc (K P E : Type)
  | start
  | tryCommit (task : SchedulerTask)
  | nextTask
  | recvPrio
  | recv
  | incarnate (txn : TxnIndex) (caller : Caller)
  | checking (version : Version) (condvar : Option DependencyCondvar) (deps : List TxnIndex)
      (caller : Caller)
  | registering (version : Version) (condvar : Option DependencyCondvar) (dep : TxnIndex)
      (deps : List TxnIndex) (caller : Caller)
  | rechecking (version : Version) (condvar : Option DependencyCondvar) (dep : TxnIndex)
      (deps : List TxnIndex) (caller : Caller)
  | lockValidation
  | loadValidation
  | checkExecuted (idx : TxnIndex)
  | claimValidation (idx : TxnIndex) (incarnation : Incarnation)
  | validate (version : Version) (wave : Wave) (phase : ValidatePhase K)
  | tryAbort (version : Version) (wave : Wave)
  | finishValidation (version : Version) (wave : Wave)
  | abort (version : Version) (phase : AbortPhase K)
  | lowerValidation (txn : TxnIndex)
  | storeTriggered (txn : TxnIndex) (wave : Wave)
  | execute (version : Version) (phase : ExecutePhase K P E)
  | countChildren (txn : TxnIndex)
  | releaseChildren (txn pos count : ℕ) (next : Option (Version × Option DependencyCondvar))
  | sigClaim
  | sig (index : ℕ)
  | prologueClaim
  | prologueLock (txn : TxnIndex)
  | prologue (txn : TxnIndex) (program : Program K Bool)
  | prologueWait (txn : TxnIndex) (program : Program K Bool) (dep : TxnIndex)
  | exited (done : Bool)

structure Worker (K P E : Type) where
  pc : Pc K P E
  committing : Bool
  finishedValFlag : Bool
  lastInd : ℕ

/-- What the history records; no step reads it. -/
inductive Event
  | incarnated (version : Version) (condvar : Option DependencyCondvar)
  | executed (version : Version)
  | claimed (version : Version) (wave : Wave)
  | validated (version : Version) (wave : Wave)
  | aborted (version : Version)
  | committed (version : Version)
  deriving DecidableEq

/-- The whole system. Only the worker that won the swap of `committing` ever uses its commit
state, so there is one; the history lists the latest event first. -/
structure State (K P E : Type) (m : ℕ) where
  sched : Scheduler
  mv : MVHashMap K
  io : TxnLastInputOutput K P E
  committing : Bool
  commitState : TxnIndex × Wave
  prologueDone : TxnIndex → Bool
  verified : List TxnIndex
  history : List Event
  workers : Fin m → Worker K P E

variable {K P E : Type} {m : ℕ}

namespace Pc

/-- The write lock on an execution status outlives a step only inside `try_incarnate`. -/
def HoldsStatus (txn : TxnIndex) : Pc K P E → Prop
  | .checking v _ _ _ | .registering v _ _ _ _ | .rechecking v _ _ _ _ => v.1 = txn
  | _ => False

/-- The write lock on a validation status outlives a step only inside `finish_abort`. -/
def HoldsValidation (txn : TxnIndex) : Pc K P E → Prop
  | .abort v .resetting => v.1 = txn
  | .lowerValidation i | .storeTriggered i _ | .incarnate i .finishAbort => i = txn
  | .checking v _ _ .finishAbort | .registering v _ _ _ .finishAbort
  | .rechecking v _ _ _ .finishAbort => v.1 = txn
  | _ => False

/-- The lock of `try_validate_next_version`. -/
def HoldsValock : Pc K P E → Prop
  | .loadValidation | .checkExecuted _ | .claimValidation _ _ => True
  | _ => False

instance (txn : TxnIndex) (pc : Pc K P E) : Decidable (pc.HoldsStatus txn) := by
  unfold HoldsStatus; split <;> infer_instance

instance (txn : TxnIndex) (pc : Pc K P E) : Decidable (pc.HoldsValidation txn) := by
  unfold HoldsValidation; split <;> infer_instance

instance (pc : Pc K P E) : Decidable pc.HoldsValock := by
  unfold HoldsValock; split <;> infer_instance

end Pc

namespace State

def StatusLocked (s : State K P E m) (txn : TxnIndex) : Prop :=
  ∃ w, (s.workers w).pc.HoldsStatus txn

def ValidationLocked (s : State K P E m) (txn : TxnIndex) : Prop :=
  ∃ w, (s.workers w).pc.HoldsValidation txn

def Valocked (s : State K P E m) : Prop := ∃ w, (s.workers w).pc.HoldsValock

instance (s : State K P E m) (txn : TxnIndex) : Decidable (s.StatusLocked txn) :=
  inferInstanceAs (Decidable (∃ _, _))

instance (s : State K P E m) (txn : TxnIndex) : Decidable (s.ValidationLocked txn) :=
  inferInstanceAs (Decidable (∃ _, _))

instance (s : State K P E m) : Decidable s.Valocked :=
  inferInstanceAs (Decidable (∃ _, _))

def setWorker (s : State K P E m) (w : Fin m) (worker : Worker K P E) : State K P E m :=
  { s with workers := Function.update s.workers w worker }

/-- Only the position of a worker changes. -/
def move (s : State K P E m) (w : Fin m) (pc : Pc K P E) : State K P E m :=
  s.setWorker w { s.workers w with pc := pc }

def record (s : State K P E m) (e : Event) : State K P E m :=
  { s with history := e :: s.history }

def new (job : Job K P E) : State K P E m where
  sched := .new job.plan
  mv := .new
  io := .new
  committing := true
  commitState := (0, 0)
  prologueDone := fun _ => false
  verified := []
  history := []
  workers := fun _ => ⟨.start, false, false, 0⟩

end State

namespace Job

/-- The arm of the worker loop that a task selects. -/
def dispatch (job : Job K P E) : SchedulerTask → Pc K P E
  | .executionTask v none => .execute v (.running (job.program v.1) [])
  | .executionTask _ (some _) => .exited false
  | .validationTask v wave => .validate v wave .loadReads
  | .sigTask index => .sig index
  | .prologueTask => .prologueClaim
  | .noTask => .nextTask
  | .done => .exited true

/-- The head of the worker loop with the task of the last round. -/
def loopHead (job : Job K P E) (worker : Worker K P E) (task : SchedulerTask) : Pc K P E :=
  if worker.committing then .tryCommit task else job.dispatch task

/-- `block.len() as u16`. -/
def blockLen (job : Job K P E) : ℕ := job.numTxns % 2 ^ 16

/-- What the loop does with a `NoTask` from `next_task`. -/
def afterNoTask (job : Job K P E) (worker : Worker K P E) : Pc K P E :=
  if worker.lastInd ≥ job.blockLen then
    if job.mode = .pythiaSig then .sigClaim else job.loopHead worker .noTask
  else job.loopHead worker .prologueTask

/-- The rest of `next_task` when `try_exec` found nothing. -/
def afterTryExec (job : Job K P E) (worker : Worker K P E) : Pc K P E :=
  if worker.finishedValFlag then job.afterNoTask worker else .lockValidation

/-- Where `try_incarnate` returns to. -/
def resume (job : Job K P E) (worker : Worker K P E) (caller : Caller)
    (result : Option (Version × Option DependencyCondvar)) : Pc K P E :=
  match caller, result with
  | .tryExecPrio, none => .recv
  | .tryExec, none => job.afterTryExec worker
  | .finishExecution txn pos count, none => .releaseChildren txn (pos + 1) count none
  | .finishAbort, none => job.loopHead worker .noTask
  | .finishExecution txn pos count, some (v, condvar) =>
    .releaseChildren txn (pos + 1) count (some (v, condvar))
  | _, some (v, condvar) => job.loopHead worker (.executionTask v condvar)

/-- The updates of an execution in the order of `apply_updates`: writes, then deltas. -/
def updates (incarnation : Incarnation) (status : TxnStatus K P E) : List (K × EntryCell) :=
  match status.output? with
  | none => []
  | some o => o.getWrites.map (fun x => (x.1, .write incarnation x.2)) ++
      o.getDeltas.map (fun x => (x.1, .delta x.2))

end Job

variable [DecidableEq K]

/-- One update of the multi-version map by an execution. -/
def MVHashMap.apply (mv : MVHashMap K) (txn : TxnIndex) (update : K × EntryCell) :
    Option (MVHashMap K) :=
  match update.2 with
  | .write incarnation data => mv.addWrite update.1 (txn, incarnation) data
  | .delta op => some (mv.addDelta update.1 txn op)

namespace State
variable (job : Job K P E) (s : State K P E m) (w : Fin m)

/-- `try_commit` on the next transaction to commit, or the end of the block. -/
def stepTryCommit (choice : ℕ) (task : SchedulerTask) : State K P E m :=
  let i := s.commitState.1
  if i = job.numTxns then
    { s with
      sched := { s.sched with
        doneMarker := s.sched.doneMarker ||
          decide (job.mode ≠ ExecutionMode.pythiaSig ∨ s.sched.sigValIdx ≥ job.numTxns) } }.move w
            (job.dispatch task)
  else if choice ≠ 0 ∨ s.ValidationLocked i ∨ s.StatusLocked i then s.move w (job.dispatch task)
  else match s.sched.txnStatus i with
    | .executed incarnation =>
      let status := s.sched.validationStatus i
      let wave := max s.commitState.2 status.maxTriggeredWave
      if status.maybeMaxValidatedWave.any (· ≥ max wave status.requiredWave) then
        { s.record (.committed (i, incarnation)) with
          sched := s.sched.setStatus i (.committed incarnation)
          commitState := (i + 1, wave) }
      else { s with commitState := (i, wave) }.move w (job.dispatch task)
    | _ => s.move w (job.dispatch task)

def stepRecv (caller : Caller) (i : TxnIndex) : State K P E m :=
  if i ≥ job.numTxns then s.move w (job.resume (s.workers w) caller none)
  else s.move w (.incarnate i caller)

/-- `try_incarnate` takes the write lock and looks at the status. -/
def stepIncarnate (i : TxnIndex) (caller : Caller) : Option (State K P E m) :=
  if i ≥ job.numTxns then some (s.move w (job.resume (s.workers w) caller none))
  else if s.StatusLocked i then none
  else match s.sched.txnStatus i with
    | .readyToExecute incarnation condvar =>
      some (s.move w (.checking (i, incarnation) condvar (job.hintGraph i).reverse caller))
    | _ => some (s.move w (job.resume (s.workers w) caller none))

/-- `is_executed` with committed transactions included, under the read lock. -/
def executedOrCommitted (i : TxnIndex) : Bool :=
  i < job.numTxns && ((s.sched.txnStatus i).isExecuted true).isSome

def stepChecking (v : Version) (condvar : Option DependencyCondvar) (caller : Caller) :
    List TxnIndex → Option (State K P E m)
  | [] => some ({ s.record (.incarnated v condvar) with
      sched := s.sched.setStatus v.1 (.executing v.2) }.move w
        (job.resume (s.workers w) caller (some (v, condvar))))
  | dep :: deps =>
    if s.StatusLocked dep then none
    else if s.executedOrCommitted job dep then some (s.move w (.checking v condvar deps caller))
    else some (s.move w (.registering v condvar dep deps caller))

def stepRechecking (v : Version) (condvar : Option DependencyCondvar) (dep : TxnIndex)
    (deps : List TxnIndex) (caller : Caller) : Option (State K P E m) :=
  if s.StatusLocked dep then none
  else if s.executedOrCommitted job dep then some (s.move w (.checking v condvar deps caller))
  else some (s.move w (job.resume (s.workers w) caller none))

def stepLoadValidation : State K P E m :=
  let idx := (unpackValidationIdx s.sched.validationIdx).1
  if idx ≥ job.numTxns then
    s.setWorker w { s.workers w with
      finishedValFlag := true
      pc := job.afterNoTask (s.workers w) }
  else s.move w (.checkExecuted idx)

def stepCheckExecuted (idx : TxnIndex) : Option (State K P E m) :=
  if s.StatusLocked idx then none
  else match if idx < job.numTxns then (s.sched.txnStatus idx).isExecuted false else none with
    | none => some (s.move w (job.afterNoTask (s.workers w)))
    | some incarnation => some (s.move w (.claimValidation idx incarnation))

/-- The `fetch_add`: the index and the wave are those of the moment, the incarnation is the
one seen before. -/
def stepClaimValidation (incarnation : Incarnation) : State K P E m :=
  let claim := unpackValidationIdx s.sched.validationIdx
  { s.record (.claimed (claim.1, incarnation) claim.2) with
    sched := { s.sched with validationIdx := s.sched.validationIdx + 1 } }.move w
      (job.loopHead (s.workers w) (.validationTask (claim.1, incarnation) claim.2))

def stepValidate (v : Version) (wave : Wave) : ValidatePhase K → Option (State K P E m)
  | .loadReads => (s.io.inputs v.1).map fun reads => s.move w (.validate v wave (.reading reads))
  | .reading [] => some ((s.record (.validated v wave)).move w (.finishValidation v wave))
  | .reading (r :: rest) => (s.mv.read r.accessPath v.1).map fun res =>
      if r.kind.validate res then s.move w (.validate v wave (.reading rest))
      else s.move w (.tryAbort v wave)

def stepTryAbort (v : Version) (wave : Wave) : Option (State K P E m) :=
  if s.StatusLocked v.1 then none
  else if s.sched.txnStatus v.1 = .executed v.2 then
    some ({ s.record (.aborted v) with
      sched := s.sched.setStatus v.1 (.aborting v.2) }.move w (.abort v .loadModified))
  else some (s.move w (.finishValidation v wave))

def stepAbort (choice : ℕ) (v : Version) : AbortPhase K → Option (State K P E m)
  | .loadModified => some (s.move w (.abort v (.marking (s.io.modifiedKeys v.1))))
  | .marking [] => some (s.move w (.abort v .locking))
  | .marking (k :: ks) => ((k :: ks)[choice]?).bind fun key =>
      (s.mv.markEstimate key v.1).map fun mv =>
        { s with mv := mv }.move w (.abort v (.marking ((k :: ks).eraseIdx choice)))
  | .locking => if s.ValidationLocked v.1 then none else some (s.move w (.abort v .resetting))
  | .resetting =>
    if s.StatusLocked v.1 then none
    else some ({ s with
      sched := s.sched.setStatus v.1 (.readyToExecute (v.2 + 1) none) }.move w
        (.lowerValidation v.1))

def stepLowerValidation (i : TxnIndex) : State K P E m :=
  match decreaseValidationIdx s.sched.validationIdx i with
  | none => s.move w (.incarnate i .finishAbort)
  | some (packed, wave) => { s with
      sched := { s.sched with validationIdx := packed } }.move w (.storeTriggered i wave)

/-- A wave that does not fit its type was a panic before anything is stored. -/
def stepStoreTriggered (i : TxnIndex) (wave : Wave) : Option (State K P E m) :=
  if wave < 2 ^ 32 then
    some ({ s with sched := s.sched.storeTriggered i wave }.move w (.incarnate i .finishAbort))
  else none

def stepExecute (choice : ℕ) (v : Version) : ExecutePhase K P E → Option (State K P E m)
  | .running (.finished status) reads => some (s.move w (.execute v (.loadPrevious status reads)))
  | .running (.readKey key next) reads => (s.mv.getStateValue job.base key v.1).map fun
    | .error dep => s.move w (.execute v (.waiting (.readKey key next) reads dep))
    | .ok (kind, value) => s.move w (.execute v (.running (next value) (reads ++ [⟨key, kind⟩])))
  | .waiting program reads dep => some ({ s with
      sched := s.sched.push dep v.1 }.move w (.execute v (.running program reads)))
  | .loadPrevious status reads => some (s.move w (.execute v
      (.applyUpdates status reads (Job.updates v.2 status) (s.io.modifiedKeys v.1))))
  | .applyUpdates status reads [] prev => some (s.move w
      (.execute v (.removeStale status reads prev)))
  | .applyUpdates status reads (u :: us) prev => (s.mv.apply v.1 u).map fun mv =>
      { s with mv := mv }.move w (.execute v (.applyUpdates status reads us (prev.erase u.1)))
  | .removeStale status reads [] => some (s.move w (.execute v (.recordInput status reads)))
  | .removeStale status reads (k :: ks) => ((k :: ks)[choice]?).bind fun key =>
      (s.mv.delete key v.1).map fun mv =>
        { s with mv := mv }.move w
          (.execute v (.removeStale status reads ((k :: ks).eraseIdx choice)))
  | .recordInput status reads => some ({ s with
      io := { s.io with inputs := Function.update s.io.inputs v.1 (some reads) } }.move w
        (.execute v (.recordOutput status)))
  | .recordOutput status => some ({ s with
      io := { s.io with
        outputs := Function.update s.io.outputs v.1 (some (status.mapError .userError)) } }.move w
        (.execute v .setExecuted))
  | .setExecuted =>
    if s.StatusLocked v.1 then none
    else some ({ s.record (.executed v) with
      sched := s.sched.setStatus v.1 (.executed v.2) }.move w (.countChildren v.1))

/-- One round of the loop in `finish_execution`; an index past the list is out of bounds. -/
def stepReleaseChildren (txn pos count : ℕ) (next : Option (Version × Option DependencyCondvar)) :
    Option (State K P E m) :=
  if pos ≥ count then some (s.move w (job.loopHead (s.workers w) (.ofNext next)))
  else ((s.sched.criticalPathParent txn)[pos]?).map fun tx =>
    if (job.plan.children tx).isEmpty then
      { s with sched := { s.sched with channels := s.sched.channels ++ [tx] } }.move w
        (.releaseChildren txn (pos + 1) count next)
    else match next with
      | some _ =>
        { s with sched := { s.sched with priochannels := s.sched.priochannels ++ [tx] } }.move w
          (.releaseChildren txn (pos + 1) count next)
      | none => s.stepRecv job w (.finishExecution txn pos count) tx

def stepPrologueClaim : State K P E m :=
  let worker := s.workers w
  if worker.lastInd ≥ job.blockLen then s.move w (job.loopHead worker .noTask)
  else
    let ind := s.sched.prologueIndex
    { s with
      sched := { s.sched with prologueIndex := (ind + 1) % 2 ^ 16 } }.setWorker w { worker with
        lastInd := ind
        pc := if ind < job.blockLen ∧ job.prologueMap ind then .prologueLock ind
          else job.loopHead worker .noTask }

def stepPrologue (i : TxnIndex) : Program K Bool → Option (State K P E m)
  | .finished result => some ({ s with
      prologueDone := Function.update s.prologueDone i result }.move w
        (job.loopHead (s.workers w) .noTask))
  | .readKey key next => (s.mv.getStateValue job.base key i).map fun
    | .error dep => s.move w (.prologueWait i (.readKey key next) dep)
    | .ok (_, value) => s.move w (.prologue i (next value))

/-- One step of a worker. -/
def step (l : Fin m × ℕ) (s : State K P E m) : Option (State K P E m) :=
  let w := l.1
  let worker := s.workers w
  match worker.pc with
  | .start => some ({ s with committing := false }.setWorker w { worker with
      committing := s.committing
      pc := if s.committing then .tryCommit .noTask else job.dispatch .noTask })
  | .tryCommit task => some (s.stepTryCommit job w l.2 task)
  | .nextTask =>
    if worker.finishedValFlag && s.sched.doneMarker then
      some (s.move w (job.loopHead worker .done))
    else some (s.move w .recvPrio)
  | .recvPrio =>
    match s.sched.priochannels with
    | [] => some (s.move w .recv)
    | i :: rest => some (({ s with
        sched := { s.sched with priochannels := rest } } : State K P E m).stepRecv job w
          .tryExecPrio i)
  | .recv =>
    match s.sched.channels with
    | [] => some (s.move w (job.afterTryExec worker))
    | i :: rest => some (({ s with
        sched := { s.sched with channels := rest } } : State K P E m).stepRecv job w .tryExec i)
  | .incarnate i caller => s.stepIncarnate job w i caller
  | .checking v condvar deps caller => s.stepChecking job w v condvar caller deps
  | .registering v condvar dep deps caller => some ({ s with
      sched := s.sched.push dep v.1 }.move w (.rechecking v condvar dep deps caller))
  | .rechecking v condvar dep deps caller => s.stepRechecking job w v condvar dep deps caller
  | .lockValidation =>
    if s.Valocked then some (s.move w (job.afterNoTask worker)) else some (s.move w .loadValidation)
  | .loadValidation => some (s.stepLoadValidation job w)
  | .checkExecuted idx => s.stepCheckExecuted job w idx
  | .claimValidation _ incarnation => some (s.stepClaimValidation job w incarnation)
  | .validate v wave phase => s.stepValidate w v wave phase
  | .tryAbort v wave => s.stepTryAbort w v wave
  | .finishValidation v wave =>
    if s.ValidationLocked v.1 then none
    else some ({ s with
      sched := s.sched.finishValidation v.1 wave }.move w (job.loopHead worker .noTask))
  | .abort v phase => s.stepAbort w l.2 v phase
  | .lowerValidation i => some (s.stepLowerValidation w i)
  | .storeTriggered i wave => s.stepStoreTriggered w i wave
  | .execute v phase => s.stepExecute job w l.2 v phase
  | .countChildren i =>
    some (s.move w (.releaseChildren i 0 (s.sched.criticalPathParent i).length none))
  | .releaseChildren txn pos count next => s.stepReleaseChildren job w txn pos count next
  | .sigClaim => some ({ s with
      sched := { s.sched with sigValIdx := s.sched.sigValIdx + 25 } }.move w
        (job.loopHead worker
          (if s.sched.sigValIdx ≤ job.numTxns then .sigTask s.sched.sigValIdx else .noTask)))
  | .sig index => some ({ s with
      verified := s.verified ++
        ((List.range 24).map (index + ·)).filter (· < job.numTxns) }.move w
          (job.loopHead worker .noTask))
  | .prologueClaim => some (s.stepPrologueClaim job w)
  | .prologueLock i =>
    if l.2 = 0 ∧ ¬ s.prologueDone i then some (s.move w (.prologue i (job.prologue i)))
    else some (s.move w (job.loopHead worker .noTask))
  | .prologue i program => s.stepPrologue job w i program
  | .prologueWait i program dep => some ({ s with
      sched := s.sched.push dep i }.move w (.prologue i program))
  | .exited _ => none

/-- The states of all runs of `m` workers whose steps meet a guard. -/
def Reached (guard : Fin m × ℕ → State K P E m → Prop) : State K P E m → Prop :=
  InterleavedRuns.Reachable (step job) guard (new job)

/-- The states of all runs of `m` workers. -/
def Reachable : State K P E m → Prop := Reached job InterleavedRuns.anyStep

variable {job}

theorem Reached.of_schedule {guard : Fin m × ℕ → State K P E m → Prop} (ls : List (Fin m × ℕ))
    (hg : InterleavedRuns.Guarded (step job) guard ls (new job)) {p : State K P E m → Prop}
    [DecidablePred p] (h : (InterleavedRuns.follow (step job) ls (new job)).any (p ·) = true) :
    ∃ s, Reached job guard s ∧ p s :=
  InterleavedRuns.Reachable.of_schedule ls hg h

theorem Reachable.of_schedule (ls : List (Fin m × ℕ)) {p : State K P E m → Prop} [DecidablePred p]
    (h : (InterleavedRuns.follow (step job) ls (new job)).any (p ·) = true) :
    ∃ s, Reachable job s ∧ p s :=
  Reached.of_schedule ls (InterleavedRuns.guarded_anyStep ls _) h

end State
end Anthemius
