import Anthemius.SpeculationProtocol

/-!
# The steps of a worker

One constructor for each way a worker goes on from its position, with the conditions that the
invariants of the machine rest on. The reads and updates inside an execution are those of
`Compute`.
-/
namespace Anthemius

variable {K P E : Type} {m : ℕ} [DecidableEq K]

namespace State
variable (job : Job K P E) (s : State K P E m) (w : Fin m)

inductive WorkerStep : Pc K P E → State K P E m → Prop
  | start : WorkerStep .start ({ s with committing := false }.setWorker w { s.workers w with
      committing := s.committing
      pc := if s.committing then .tryCommit .noTask else job.dispatch .noTask })
  | commitEnd {task} (hend : s.commitState.1 = job.numTxns) :
      WorkerStep (.tryCommit task) ({ s with
        sched := { s.sched with
          doneMarker := s.sched.doneMarker ||
            decide (job.mode ≠ ExecutionMode.pythiaSig ∨ s.sched.sigValIdx ≥ job.numTxns) } }.move w
              (job.dispatch task))
  | commitLater {task} : WorkerStep (.tryCommit task) (s.move w (job.dispatch task))
  | commitAdvance {task inc} (hn : s.commitState.1 ≠ job.numTxns)
      (hfree : ¬ s.ValidationLocked s.commitState.1)
      (hst : s.sched.txnStatus s.commitState.1 = .executed inc) :
      WorkerStep (.tryCommit task) ({ s with
        commitState := (s.commitState.1, max s.commitState.2
          (s.sched.validationStatus s.commitState.1).maxTriggeredWave) }.move w (job.dispatch task))
  | commit {task inc validated} (hn : s.commitState.1 ≠ job.numTxns)
      (hfree : ¬ s.ValidationLocked s.commitState.1)
      (hst : s.sched.txnStatus s.commitState.1 = .executed inc)
      (hval : (s.sched.validationStatus s.commitState.1).maybeMaxValidatedWave = some validated)
      (hle : max s.commitState.2
        (s.sched.validationStatus s.commitState.1).maxTriggeredWave ≤ validated) :
      WorkerStep (.tryCommit task) { s.record (.committed (s.commitState.1, inc)) with
        sched := s.sched.setStatus s.commitState.1 (.committed inc)
        commitState := (s.commitState.1 + 1, max s.commitState.2
          (s.sched.validationStatus s.commitState.1).maxTriggeredWave) }
  | leave (hflag : (s.workers w).finishedValFlag = true) (hdone : s.sched.doneMarker = true) :
      WorkerStep .nextTask (s.move w (job.loopHead (s.workers w) .done))
  | look : WorkerStep .nextTask (s.move w .recvPrio)
  | recvPrioEmpty : WorkerStep .recvPrio (s.move w .recv)
  | recvPrio {i rest} (hch : s.sched.priochannels = i :: rest) :
      WorkerStep .recvPrio (({ s with
        sched := { s.sched with priochannels := rest } } : State K P E m).stepRecv job w
          .tryExecPrio i)
  | recvEmpty : WorkerStep .recv (s.move w (job.afterTryExec (s.workers w)))
  | recv {i rest} (hch : s.sched.channels = i :: rest) :
      WorkerStep .recv (({ s with
        sched := { s.sched with channels := rest } } : State K P E m).stepRecv job w .tryExec i)
  | attempt {i caller inc condvar} (hlt : i < job.numTxns) (hfree : ¬ s.StatusLocked i)
      (hst : s.sched.txnStatus i = .readyToExecute inc condvar) :
      WorkerStep (.incarnate i caller)
        (s.move w (.checking (i, inc) condvar (job.hintGraph i).reverse caller))
  | miss {i caller}
      (hst : i < job.numTxns → ∀ inc condvar, s.sched.txnStatus i ≠ .readyToExecute inc condvar) :
      WorkerStep (.incarnate i caller) (s.move w (job.resume (s.workers w) caller none))
  | incarnate {v condvar caller} :
      WorkerStep (.checking v condvar [] caller) ({ s.record (.incarnated v condvar) with
        sched := s.sched.setStatus v.1 (.executing v.2) }.move w
          (job.resume (s.workers w) caller (some (v, condvar))))
  | check {v condvar dep deps caller} :
      WorkerStep (.checking v condvar (dep :: deps) caller)
        (s.move w (.checking v condvar deps caller))
  | await {v condvar dep deps caller} :
      WorkerStep (.checking v condvar (dep :: deps) caller)
        (s.move w (.registering v condvar dep deps caller))
  | register {v condvar dep deps caller} :
      WorkerStep (.registering v condvar dep deps caller) ({ s with
        sched := s.sched.push dep v.1 }.move w (.rechecking v condvar dep deps caller))
  | recheck {v condvar dep deps caller} :
      WorkerStep (.rechecking v condvar dep deps caller)
        (s.move w (.checking v condvar deps caller))
  | giveUp {v condvar dep deps caller} (hdep : s.executedOrCommitted job dep = false) :
      WorkerStep (.rechecking v condvar dep deps caller)
        (s.move w (job.resume (s.workers w) caller none))
  | lockFails : WorkerStep .lockValidation (s.move w (job.afterNoTask (s.workers w)))
  | lock (hfree : ¬ s.Valocked) : WorkerStep .lockValidation (s.move w .loadValidation)
  | loadEnd (hle : job.numTxns ≤ (unpackValidationIdx s.sched.validationIdx).1) :
      WorkerStep .loadValidation (s.setWorker w { s.workers w with
        finishedValFlag := true
        pc := job.afterNoTask (s.workers w) })
  | load (hlt : (unpackValidationIdx s.sched.validationIdx).1 < job.numTxns) :
      WorkerStep .loadValidation
        (s.move w (.checkExecuted (unpackValidationIdx s.sched.validationIdx).1))
  | peekFails {idx} : WorkerStep (.checkExecuted idx) (s.move w (job.afterNoTask (s.workers w)))
  | peek {idx inc} (hst : s.sched.txnStatus idx = .executed inc) :
      WorkerStep (.checkExecuted idx) (s.move w (.claimValidation idx inc))
  | claim {idx inc} :
      WorkerStep (.claimValidation idx inc) (s.stepClaimValidation job w inc)
  | loadReads {v wave reads} (hreads : s.io.inputs v.1 = some reads) :
      WorkerStep (.validate v wave .loadReads) (s.move w (.validate v wave (.reading reads)))
  | accept {v wave} :
      WorkerStep (.validate v wave (.reading []))
        ((s.record (.validated v wave)).move w (.finishValidation v wave))
  | validate {v wave r rest res} (hread : s.mv.read r.accessPath v.1 = some res)
      (hvalid : r.kind.validate res = true) :
      WorkerStep (.validate v wave (.reading (r :: rest)))
        (s.move w (.validate v wave (.reading rest)))
  | reject {v wave r rest res} (hread : s.mv.read r.accessPath v.1 = some res)
      (hvalid : r.kind.validate res = false) :
      WorkerStep (.validate v wave (.reading (r :: rest))) (s.move w (.tryAbort v wave))
  | abort {v wave} (hst : s.sched.txnStatus v.1 = .executed v.2) :
      WorkerStep (.tryAbort v wave) ({ s.record (.aborted v) with
        sched := s.sched.setStatus v.1 (.aborting v.2) }.move w (.abort v .loadModified))
  | keep {v wave} (hst : s.sched.txnStatus v.1 ≠ .executed v.2) :
      WorkerStep (.tryAbort v wave) (s.move w (.finishValidation v wave))
  | finishValidation {v wave} (hfree : ¬ s.ValidationLocked v.1) :
      WorkerStep (.finishValidation v wave) ({ s with
        sched := s.sched.finishValidation v.1 wave }.move w (job.loopHead (s.workers w) .noTask))
  | loadModified {v} :
      WorkerStep (.abort v .loadModified) (s.move w (.abort v (.marking (s.io.modifiedKeys v.1))))
  | marked {v} : WorkerStep (.abort v (.marking [])) (s.move w (.abort v .locking))
  | mark {v keys choice key mv} (hkey : keys[choice]? = some key)
      (hmark : s.mv.markEstimate key v.1 = some mv) :
      WorkerStep (.abort v (.marking keys))
        ({ s with mv := mv }.move w (.abort v (.marking (keys.eraseIdx choice))))
  | hold {v} (hfree : ¬ s.ValidationLocked v.1) :
      WorkerStep (.abort v .locking) (s.move w (.abort v .resetting))
  | reset {v} :
      WorkerStep (.abort v .resetting) ({ s with
        sched := s.sched.setStatus v.1 (.readyToExecute (v.2 + 1) none) }.move w
          (.lowerValidation v.1))
  | pass {i} (hpass : decreaseValidationIdx s.sched.validationIdx i = none) :
      WorkerStep (.lowerValidation i) (s.move w (.incarnate i .finishAbort))
  | lower {i packed wave}
      (hlower : decreaseValidationIdx s.sched.validationIdx i = some (packed, wave)) :
      WorkerStep (.lowerValidation i) ({ s with
        sched := { s.sched with validationIdx := packed } }.move w (.storeTriggered i wave))
  | storeTriggered {i wave} :
      WorkerStep (.storeTriggered i wave) ({ s with
        sched := s.sched.storeTriggered i wave }.move w (.incarnate i .finishAbort))
  | compute {v phase phase' mv io} (hcompute : Compute job v s.mv s.io phase mv io phase') :
      WorkerStep (.execute v phase) ({ s with mv := mv, io := io }.move w (.execute v phase'))
  | readEstimate {v program reads dep} :
      WorkerStep (.execute v (.running program reads))
        (s.move w (.execute v (.waiting program reads dep)))
  | wait {v program reads dep} :
      WorkerStep (.execute v (.waiting program reads dep)) ({ s with
        sched := s.sched.push dep v.1 }.move w (.execute v (.running program reads)))
  | setExecuted {v} :
      WorkerStep (.execute v .setExecuted) ({ s.record (.executed v) with
        sched := s.sched.setStatus v.1 (.executed v.2) }.move w (.countChildren v.1))
  | countChildren {i} :
      WorkerStep (.countChildren i)
        (s.move w (.releaseChildren i 0 (s.sched.criticalPathParent i).length none))
  | released {txn pos count next} (hge : count ≤ pos) :
      WorkerStep (.releaseChildren txn pos count next)
        (s.move w (job.loopHead (s.workers w) (.ofNext next)))
  | release {txn pos count next tx} (hlt : pos < count)
      (htx : (s.sched.criticalPathParent txn)[pos]? = some tx) :
      WorkerStep (.releaseChildren txn pos count next) ({ s with
        sched := { s.sched with channels := s.sched.channels ++ [tx] } }.move w
          (.releaseChildren txn (pos + 1) count next))
  | releasePrio {txn pos count next tx} (hlt : pos < count)
      (htx : (s.sched.criticalPathParent txn)[pos]? = some tx) :
      WorkerStep (.releaseChildren txn pos count next) ({ s with
        sched := { s.sched with priochannels := s.sched.priochannels ++ [tx] } }.move w
          (.releaseChildren txn (pos + 1) count next))
  | releaseTake {txn pos count tx} (hlt : pos < count)
      (htx : (s.sched.criticalPathParent txn)[pos]? = some tx) :
      WorkerStep (.releaseChildren txn pos count none)
        (s.stepRecv job w (.finishExecution txn pos count) tx)
  | sigClaim : WorkerStep .sigClaim ({ s with
      sched := { s.sched with sigValIdx := s.sched.sigValIdx + 25 } }.move w
        (job.loopHead (s.workers w)
          (if s.sched.sigValIdx ≤ job.numTxns then .sigTask s.sched.sigValIdx else .noTask)))
  | sig {index} : WorkerStep (.sig index) ({ s with
      verified := s.verified ++
        ((List.range 24).map (index + ·)).filter (· < job.numTxns) }.move w
          (job.loopHead (s.workers w) .noTask))
  | prologueEnd : WorkerStep .prologueClaim (s.move w (job.loopHead (s.workers w) .noTask))
  | prologueClaim {ind lastInd} : WorkerStep .prologueClaim ({ s with
      sched := { s.sched with prologueIndex := ind } }.setWorker w { s.workers w with
        lastInd := lastInd
        pc := if lastInd < job.blockLen ∧ job.prologueMap lastInd then .prologueLock lastInd
          else job.loopHead (s.workers w) .noTask })
  | prologueStart {i} : WorkerStep (.prologueLock i) (s.move w (.prologue i (job.prologue i)))
  | prologueSkip {i} :
      WorkerStep (.prologueLock i) (s.move w (job.loopHead (s.workers w) .noTask))
  | prologueFinish {i result} :
      WorkerStep (.prologue i (.finished result)) ({ s with
        prologueDone := Function.update s.prologueDone i result }.move w
          (job.loopHead (s.workers w) .noTask))
  | prologueEstimate {i program dep} :
      WorkerStep (.prologue i program) (s.move w (.prologueWait i program dep))
  | prologueRead {i program program'} :
      WorkerStep (.prologue i program) (s.move w (.prologue i program'))
  | prologueWait {i program dep} :
      WorkerStep (.prologueWait i program dep) ({ s with
        sched := s.sched.push dep i }.move w (.prologue i program))

variable {job s w} {s' : State K P E m}

/-! ## Each step is one of them -/

theorem workerStep_tryCommit (choice : ℕ) (task : SchedulerTask) :
    WorkerStep job s w (.tryCommit task) (s.stepTryCommit job w choice task) := by
  unfold stepTryCommit
  dsimp only
  split
  next hend => exact .commitEnd hend
  next hn =>
    split
    next => exact .commitLater
    next hlock =>
      have hfree : ¬ s.ValidationLocked s.commitState.1 := fun h => hlock (.inr (.inl h))
      split
      next inc hst =>
        split
        next hval =>
          obtain ⟨validated, hval, hle⟩ := (Option.any_eq_true _ _).mp hval
          exact .commit hn hfree hst hval ((le_max_left _ _).trans (of_decide_eq_true hle))
        next => exact .commitAdvance hn hfree hst
      next => exact .commitLater

theorem workerStep_incarnate {i : TxnIndex} {caller : Caller}
    (h : s.stepIncarnate job w i caller = some s') :
    WorkerStep job s w (.incarnate i caller) s' := by
  unfold stepIncarnate at h
  split at h
  next hge =>
    cases h
    exact .miss fun hlt => absurd hlt (Nat.not_lt.mpr hge)
  next hlt =>
    split at h
    next => cases h
    next hfree =>
      split at h
      next inc condvar hst =>
        cases h
        exact .attempt (Nat.lt_of_not_ge hlt) hfree hst
      next hst =>
        cases h
        exact .miss fun _ => hst

theorem workerStep_checking {v : Version} {condvar : Option DependencyCondvar} {caller : Caller}
    {deps : List TxnIndex} (h : s.stepChecking job w v condvar caller deps = some s') :
    WorkerStep job s w (.checking v condvar deps caller) s' := by
  cases deps with
  | nil =>
    cases h
    exact .incarnate
  | cons dep deps =>
    simp only [stepChecking] at h
    split at h
    next => cases h
    next =>
      split at h <;> cases h
      · exact .check
      · exact .await

theorem workerStep_rechecking {v : Version} {condvar : Option DependencyCondvar} {dep : TxnIndex}
    {deps : List TxnIndex} {caller : Caller}
    (h : s.stepRechecking job w v condvar dep deps caller = some s') :
    WorkerStep job s w (.rechecking v condvar dep deps caller) s' := by
  unfold stepRechecking at h
  split at h
  next => cases h
  next =>
    split at h
    next =>
      cases h
      exact .recheck
    next hdep =>
      cases h
      exact .giveUp (Bool.eq_false_iff.mpr hdep)

theorem workerStep_checkExecuted {idx : TxnIndex} (h : s.stepCheckExecuted job w idx = some s') :
    WorkerStep job s w (.checkExecuted idx) s' := by
  unfold stepCheckExecuted at h
  split at h
  next => cases h
  next =>
    split at h
    next =>
      cases h
      exact .peekFails
    next inc hst =>
      cases h
      split at hst
      next => exact .peek (ExecutionStatus.isExecuted_false hst)
      next => cases hst

theorem workerStep_validate {v : Version} {wave : Wave} {phase : ValidatePhase K}
    (h : s.stepValidate w v wave phase = some s') :
    WorkerStep job s w (.validate v wave phase) s' := by
  rcases phase with _ | (_ | ⟨r, rest⟩)
  · obtain ⟨reads, hreads, rfl⟩ := Option.map_eq_some_iff.mp h
    exact .loadReads hreads
  · cases h
    exact .accept
  · obtain ⟨res, hread, rfl⟩ := Option.map_eq_some_iff.mp h
    split
    next hvalid => exact .validate hread hvalid
    next hvalid => exact .reject hread (Bool.eq_false_iff.mpr hvalid)

theorem workerStep_abort {choice : ℕ} {v : Version} {phase : AbortPhase K}
    (h : s.stepAbort w choice v phase = some s') : WorkerStep job s w (.abort v phase) s' := by
  rcases phase with _ | (_ | ⟨key, keys⟩) | _ | _
  · cases h
    exact .loadModified
  · cases h
    exact .marked
  · obtain ⟨key, hkey, h⟩ := Option.bind_eq_some_iff.mp h
    obtain ⟨mv, hmark, rfl⟩ := Option.map_eq_some_iff.mp h
    exact .mark hkey hmark
  · simp only [stepAbort] at h
    split at h
    next => cases h
    next hfree =>
      cases h
      exact .hold hfree
  · simp only [stepAbort] at h
    split at h <;> cases h
    exact .reset

theorem workerStep_execute {choice : ℕ} {v : Version} {phase : ExecutePhase K P E}
    (h : s.stepExecute job w choice v phase = some s') :
    WorkerStep job s w (.execute v phase) s' := by
  rcases phase with ⟨_ | ⟨key, next⟩, reads⟩ | _ | _ | ⟨_, _, _ | _, _⟩ | ⟨_, _, _ | _⟩ | _ | _ | _
  case running.finished =>
    cases h
    exact .compute .finish
  case running.readKey =>
    obtain ⟨res, hread, rfl⟩ := Option.map_eq_some_iff.mp h
    rcases res with dep | ⟨kind, value⟩
    · exact .readEstimate
    · exact .compute (.read hread)
  case waiting =>
    cases h
    exact .wait
  case loadPrevious =>
    cases h
    exact .compute .load
  case applyUpdates.nil =>
    cases h
    exact .compute .applied
  case applyUpdates.cons =>
    obtain ⟨mv, happly, rfl⟩ := Option.map_eq_some_iff.mp h
    exact .compute (.apply happly)
  case removeStale.nil =>
    cases h
    exact .compute .removed
  case removeStale.cons =>
    obtain ⟨key, hkey, h⟩ := Option.bind_eq_some_iff.mp h
    obtain ⟨mv, hdelete, rfl⟩ := Option.map_eq_some_iff.mp h
    exact .compute (.remove hkey hdelete)
  case recordInput =>
    cases h
    exact .compute .recordInput
  case recordOutput =>
    cases h
    exact .compute .recordOutput
  case setExecuted =>
    simp only [stepExecute] at h
    split at h <;> cases h
    exact .setExecuted

theorem workerStep_releaseChildren {txn pos count : ℕ}
    {next : Option (Version × Option DependencyCondvar)}
    (h : s.stepReleaseChildren job w txn pos count next = some s') :
    WorkerStep job s w (.releaseChildren txn pos count next) s' := by
  unfold stepReleaseChildren at h
  split at h
  next hge =>
    cases h
    exact .released hge
  next hlt =>
    obtain ⟨tx, htx, rfl⟩ := Option.map_eq_some_iff.mp h
    have hlt := Nat.lt_of_not_ge hlt
    split
    next => exact .release hlt htx
    next =>
      cases next with
      | some v => exact .releasePrio hlt htx
      | none => exact .releaseTake hlt htx

theorem workerStep_prologue {i : TxnIndex} {program : Program K Bool}
    (h : s.stepPrologue job w i program = some s') :
    WorkerStep job s w (.prologue i program) s' := by
  cases program with
  | finished result =>
    cases h
    exact .prologueFinish
  | readKey key next =>
    obtain ⟨res, -, rfl⟩ := Option.map_eq_some_iff.mp h
    rcases res with dep | ⟨kind, value⟩
    · exact .prologueEstimate
    · exact .prologueRead

theorem workerStep {l : Fin m × ℕ} (h : step job l s = some s') :
    WorkerStep job s l.1 (s.workers l.1).pc s' := by
  unfold step at h
  dsimp only at h
  generalize (s.workers l.1).pc = pc at h ⊢
  cases pc with
  | start => cases h; exact .start
  | tryCommit task => cases h; exact workerStep_tryCommit l.2 task
  | nextTask =>
    dsimp only at h
    split at h <;> cases h
    next hleave =>
      obtain ⟨hflag, hdone⟩ := (Bool.and_eq_true _ _).mp hleave
      exact .leave hflag hdone
    next => exact .look
  | recvPrio =>
    dsimp only at h
    split at h <;> cases h
    next => exact .recvPrioEmpty
    next hch => exact .recvPrio hch
  | recv =>
    dsimp only at h
    split at h <;> cases h
    next => exact .recvEmpty
    next hch => exact .recv hch
  | incarnate i caller => exact workerStep_incarnate h
  | checking v condvar deps caller => exact workerStep_checking h
  | registering v condvar dep deps caller => cases h; exact .register
  | rechecking v condvar dep deps caller => exact workerStep_rechecking h
  | lockValidation =>
    dsimp only at h
    split at h <;> cases h
    next => exact .lockFails
    next hfree => exact .lock hfree
  | loadValidation =>
    cases h
    unfold stepLoadValidation
    dsimp only
    split
    next hle => exact .loadEnd hle
    next hlt => exact .load (Nat.lt_of_not_ge hlt)
  | checkExecuted idx => exact workerStep_checkExecuted h
  | claimValidation idx incarnation => cases h; exact .claim
  | validate v wave phase => exact workerStep_validate h
  | tryAbort v wave =>
    simp only [stepTryAbort] at h
    split at h
    next => cases h
    next =>
      split at h <;> cases h
      next hst => exact .abort hst
      next hst => exact .keep hst
  | finishValidation v wave =>
    dsimp only at h
    split at h <;> cases h
    next hfree => exact .finishValidation hfree
  | abort v phase => exact workerStep_abort h
  | lowerValidation i =>
    cases h
    unfold stepLowerValidation
    split
    next hpass => exact .pass hpass
    next hlower => exact .lower hlower
  | storeTriggered i wave =>
    simp only [stepStoreTriggered] at h
    split at h <;> cases h
    exact .storeTriggered
  | execute v phase => exact workerStep_execute h
  | countChildren i => cases h; exact .countChildren
  | releaseChildren txn pos count next => exact workerStep_releaseChildren h
  | sigClaim => cases h; exact .sigClaim
  | sig index => cases h; exact .sig
  | prologueClaim =>
    cases h
    unfold stepPrologueClaim
    dsimp only
    split
    next => exact .prologueEnd
    next => exact .prologueClaim
  | prologueLock i =>
    dsimp only at h
    split at h <;> cases h
    · exact .prologueStart
    · exact .prologueSkip
  | prologue i program => exact workerStep_prologue h
  | prologueWait i program dep => cases h; exact .prologueWait
  | exited done => cases h

end State
end Anthemius
