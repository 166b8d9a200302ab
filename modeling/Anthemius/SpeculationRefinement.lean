import Anthemius.StatusInvariants
import Anthemius.WorkerSteps

/-!
# The workers follow the speculation protocol

The position of a worker determines its role: a task that was handed out but not taken up
yet already counts as the execution or the validation it stands for, and the rounds of a
read that waits for an estimate are one read. Every step of the machine either leaves the
abstraction alone or is one step of the protocol.
-/
namespace Anthemius

variable {K P E : Type} {m : ℕ}

def SchedulerTask.role (job : Job K P E) : SchedulerTask → Role K P E
  | .executionTask v none => .executing v (.running (job.program v.1) [])
  | .executionTask _ (some _) => .stranded
  | .validationTask v wave => .validating v wave .loadReads
  | _ => .idle

def Pc.role (job : Job K P E) : Pc K P E → Role K P E
  | .tryCommit task => task.role job
  | .releaseChildren _ _ _ next => (SchedulerTask.ofNext next).role job
  | .incarnate i .finishAbort => .retrying i
  | .checking v condvar _ caller | .registering v condvar _ _ caller
  | .rechecking v condvar _ _ caller => .attempting v condvar (caller = .finishAbort)
  | .loadValidation => .loading
  | .checkExecuted i => .loaded i
  | .claimValidation i inc => .peeked i inc
  | .validate v wave phase => .validating v wave phase
  | .tryAbort v wave => .rejecting v wave
  | .finishValidation v wave => .accepting v wave
  | .abort v phase => .aborting v phase
  | .lowerValidation i => .lowering i
  | .storeTriggered i wave => .storing i wave
  | .execute v (.waiting program reads _) => .executing v (.running program reads)
  | .execute v phase => .executing v phase
  | .exited false => .stranded
  | _ => .idle

def State.speculation (job : Job K P E) (s : State K P E m) : Speculation K P E m where
  status := s.sched.txnStatus
  triggered := fun i => (s.sched.validationStatus i).maxTriggeredWave
  validated := fun i => (s.sched.validationStatus i).maybeMaxValidatedWave
  index := (unpackValidationIdx s.sched.validationIdx).1
  wave := (unpackValidationIdx s.sched.validationIdx).2
  commitState := s.commitState
  history := s.history
  mv := s.mv
  io := s.io
  role := fun u => (s.workers u).pc.role job

/-- The wave that starts when the validation index is lowered fits its type. -/
def BoundedWaves (l : Fin m × ℕ) (s : State K P E m) : Prop :=
  match (s.workers l.1).pc with
  | .lowerValidation _ => (unpackValidationIdx s.sched.validationIdx).2 + 1 < (2 ^ 32 : ℕ)
  | _ => True

/-- Between the load of the index and the claim, neither the index nor the status moved, and
the counter of the waves does not overflow. -/
def AtomicClaims (l : Fin m × ℕ) (s : State K P E m) : Prop :=
  match (s.workers l.1).pc with
  | .claimValidation idx incarnation =>
    (unpackValidationIdx s.sched.validationIdx).1 = idx ∧
      s.sched.txnStatus idx = .executed incarnation
  | _ => BoundedWaves l s

/-- The attempt at the end of `finish_abort` never finds, twice, that a transaction of the hint
graph is not executed. -/
def SteadfastAborts (job : Job K P E) (l : Fin m × ℕ) (s : State K P E m) : Prop :=
  match (s.workers l.1).pc with
  | .rechecking _ _ dep _ .finishAbort => s.executedOrCommitted job dep = true
  | _ => True

instance (l : Fin m × ℕ) (s : State K P E m) : Decidable (BoundedWaves l s) := by
  unfold BoundedWaves; split <;> infer_instance

instance (l : Fin m × ℕ) (s : State K P E m) : Decidable (AtomicClaims l s) := by
  unfold AtomicClaims; split <;> infer_instance

theorem AtomicClaims.boundedWaves {l : Fin m × ℕ} {s : State K P E m} (h : AtomicClaims l s) :
    BoundedWaves l s := by
  unfold AtomicClaims at h
  split at h
  next hpc => simp only [BoundedWaves, hpc]
  next => exact h

instance (job : Job K P E) (l : Fin m × ℕ) (s : State K P E m) :
    Decidable (SteadfastAborts job l s) := by
  unfold SteadfastAborts; split <;> infer_instance

/-! ## Roles of the positions that calls return to -/

section Roles
variable (job : Job K P E) (worker : Worker K P E)

@[simp] theorem Job.role_dispatch (task : SchedulerTask) :
    (job.dispatch task).role job = task.role job := by
  rcases task with ⟨v, _ | _⟩ | _ | _ | _ | _ | _ <;> rfl

@[simp] theorem Job.role_loopHead (task : SchedulerTask) :
    (job.loopHead worker task).role job = task.role job := by
  unfold Job.loopHead
  split
  · rfl
  · exact job.role_dispatch task

@[simp] theorem Job.role_afterNoTask : (job.afterNoTask worker).role job = .idle := by
  unfold Job.afterNoTask
  split_ifs
  · rfl
  · exact job.role_loopHead worker .noTask
  · exact job.role_loopHead worker .prologueTask

@[simp] theorem Job.role_afterTryExec : (job.afterTryExec worker).role job = .idle := by
  unfold Job.afterTryExec
  split_ifs
  · exact job.role_afterNoTask worker
  · rfl

@[simp] theorem Job.role_resume_none (caller : Caller) :
    (job.resume worker caller none).role job = .idle := by
  cases caller with
  | tryExecPrio => rfl
  | tryExec => exact job.role_afterTryExec worker
  | finishExecution => rfl
  | finishAbort => exact job.role_loopHead worker .noTask

@[simp] theorem Job.role_resume_some (caller : Caller) (v : Version) :
    (job.resume worker caller (some (v, none))).role job =
      .executing v (.running (job.program v.1) []) := by
  cases caller with
  | finishExecution => rfl
  | tryExecPrio | tryExec | finishAbort => exact job.role_loopHead worker (.executionTask v none)

end Roles

namespace Pc
variable (job : Job K P E) (pc : Pc K P E)

theorem holdsStatus_iff (i : TxnIndex) : pc.HoldsStatus i ↔ (pc.role job).Attempts i := by
  cases pc with
  | incarnate _ caller => cases caller <;> simp [HoldsStatus, role, Role.Attempts]
  | execute _ phase => cases phase <;> simp [HoldsStatus, role, Role.Attempts]
  | tryCommit task =>
    rcases task with ⟨v, _ | _⟩ | _ | _ | _ | _ | _ <;>
      simp [HoldsStatus, role, Role.Attempts, SchedulerTask.role]
  | releaseChildren _ _ _ next =>
    rcases next with _ | ⟨v, _ | _⟩ <;>
      simp [HoldsStatus, role, Role.Attempts, SchedulerTask.role, SchedulerTask.ofNext]
  | exited done => cases done <;> simp [HoldsStatus, role, Role.Attempts]
  | _ => simp [HoldsStatus, role, Role.Attempts]

theorem holdsValidation_iff (i : TxnIndex) :
    pc.HoldsValidation i ↔ (pc.role job).sealed = some i := by
  cases pc with
  | incarnate _ caller => cases caller <;> simp [HoldsValidation, role, Role.sealed]
  | checking _ _ _ caller | registering _ _ _ _ caller | rechecking _ _ _ _ caller =>
    cases caller <;> simp [HoldsValidation, role, Role.sealed]
  | execute _ phase => cases phase <;> simp [HoldsValidation, role, Role.sealed]
  | abort _ phase => cases phase <;> simp [HoldsValidation, role, Role.sealed]
  | tryCommit task =>
    rcases task with ⟨v, _ | _⟩ | _ | _ | _ | _ | _ <;>
      simp [HoldsValidation, role, Role.sealed, SchedulerTask.role]
  | releaseChildren _ _ _ next =>
    rcases next with _ | ⟨v, _ | _⟩ <;>
      simp [HoldsValidation, role, Role.sealed, SchedulerTask.role, SchedulerTask.ofNext]
  | exited done => cases done <;> simp [HoldsValidation, role, Role.sealed]
  | _ => simp [HoldsValidation, role, Role.sealed]

theorem holdsValock_iff : pc.HoldsValock ↔ (pc.role job).HoldsValock := by
  cases pc with
  | incarnate _ caller => cases caller <;> simp [HoldsValock, role, Role.HoldsValock]
  | execute _ phase => cases phase <;> simp [HoldsValock, role, Role.HoldsValock]
  | tryCommit task =>
    rcases task with ⟨v, _ | _⟩ | _ | _ | _ | _ | _ <;>
      simp [HoldsValock, role, Role.HoldsValock, SchedulerTask.role]
  | releaseChildren _ _ _ next =>
    rcases next with _ | ⟨v, _ | _⟩ <;>
      simp [HoldsValock, role, Role.HoldsValock, SchedulerTask.role, SchedulerTask.ofNext]
  | exited done => cases done <;> simp [HoldsValock, role, Role.HoldsValock]
  | _ => simp [HoldsValock, role, Role.HoldsValock]

end Pc

namespace State
variable (job : Job K P E) (s : State K P E m) (w : Fin m)

@[simp] theorem speculation_setWorker (worker : Worker K P E) :
    (s.setWorker w worker).speculation job = (s.speculation job).turn w (worker.pc.role job) := by
  simp only [speculation, setWorker, Speculation.turn]
  congr 1
  funext u
  simp only [Function.update_apply]
  split <;> rfl

@[simp] theorem speculation_move (pc : Pc K P E) :
    (s.move w pc).speculation job = (s.speculation job).turn w (pc.role job) :=
  speculation_setWorker job s w _

theorem statusLocked_iff (i : TxnIndex) :
    s.StatusLocked i ↔ ∃ u, ((s.speculation job).role u).Attempts i :=
  exists_congr fun _ => Pc.holdsStatus_iff job _ i

theorem validationLocked_iff (i : TxnIndex) :
    s.ValidationLocked i ↔ (s.speculation job).Sealed i :=
  exists_congr fun _ => Pc.holdsValidation_iff job _ i

theorem valocked_iff : s.Valocked ↔ ∃ u, ((s.speculation job).role u).HoldsValock :=
  exists_congr fun _ => Pc.holdsValock_iff job _

end State

/-- A step of the machine is one of the protocol or invisible to it. -/
def Simulates [DecidableEq K] (job : Job K P E) (d : Discipline) (w : Fin m)
    (s s' : State K P E m) : Prop :=
  s'.speculation job = s.speculation job ∨
    Speculation.Step job d w (s.speculation job) (s'.speculation job)

section Simulation
variable [DecidableEq K] {job : Job K P E} {d : Discipline} {w : Fin m} {s s' : State K P E m}

theorem Simulates.quiet_of_eq {s₁ : State K P E m} {pc : Pc K P E}
    (h₁ : s₁.speculation job = s.speculation job)
    (h : pc.role job = (s.workers w).pc.role job) : Simulates job d w s (s₁.move w pc) :=
  .inl (by rw [State.speculation_move, h₁, Speculation.turn_self _ h])

theorem Simulates.of_step {s₁ : State K P E m} {t : Speculation K P E m} {pc : Pc K P E}
    (h₁ : s₁.speculation job = t)
    (h : Speculation.Step job d w (s.speculation job) (t.turn w (pc.role job))) :
    Simulates job d w s (s₁.move w pc) :=
  .inr (by rwa [State.speculation_move, h₁])

theorem Simulates.quiet {pc : Pc K P E} (h : pc.role job = (s.workers w).pc.role job) :
    Simulates job d w s (s.move w pc) :=
  .quiet_of_eq rfl h

theorem simulates_recv {s₁ : State K P E m} {caller : Caller} (hcaller : caller ≠ .finishAbort)
    (h₁ : s₁.speculation job = s.speculation job) (hw : (s.workers w).pc.role job = .idle)
    (i : TxnIndex) : Simulates job d w s (s₁.stepRecv job w caller i) := by
  unfold State.stepRecv
  split
  · exact .quiet_of_eq h₁ (by rw [job.role_resume_none, hw])
  · refine .quiet_of_eq h₁ ?_
    rw [hw]
    cases caller <;> first | rfl | exact absurd rfl hcaller

omit [DecidableEq K] in
/-- A transaction that is attempted at the end of its abort is retried. -/
theorem role_incarnate (i : TxnIndex) (caller : Caller) :
    (Pc.incarnate i caller : Pc K P E).role job =
      if caller = .finishAbort then .retrying i else .idle := by
  cases caller <;> rfl

theorem simulates_attempt {i : TxnIndex} {caller : Caller} {inc : Incarnation}
    {condvar : Option DependencyCondvar} {deps : List TxnIndex}
    (hpc : (s.workers w).pc = .incarnate i caller) (hlt : i < job.numTxns)
    (hlock : ¬ s.StatusLocked i) (hst : s.sched.txnStatus i = .readyToExecute inc condvar) :
    Simulates job d w s (s.move w (.checking (i, inc) condvar deps caller)) := by
  have hfree : ∀ u, ¬ ((s.speculation job).role u).Attempts i :=
    fun u hu => hlock ((s.statusLocked_iff job i).mpr ⟨u, hu⟩)
  have hrole : (s.speculation job).role w = _ :=
    (congrArg (Pc.role job) hpc).trans (role_incarnate i caller)
  refine .of_step rfl ?_
  by_cases hc : caller = .finishAbort
  · rw [if_pos hc] at hrole
    simp only [Pc.role, hc, decide_true]
    exact .retry hrole hst hfree
  · rw [if_neg hc] at hrole
    simp only [Pc.role, hc, decide_false]
    exact .attempt hrole hlt hst hfree

theorem simulates_miss {i : TxnIndex} {caller : Caller}
    (hpc : (s.workers w).pc = .incarnate i caller)
    (hin : ((s.workers w).pc.role job).Within job.numTxns)
    (hst : i < job.numTxns → ∀ inc condvar, s.sched.txnStatus i ≠ .readyToExecute inc condvar) :
    Simulates job d w s (s.move w (job.resume (s.workers w) caller none)) := by
  have hrole : (s.workers w).pc.role job = _ :=
    (congrArg (Pc.role job) hpc).trans (role_incarnate i caller)
  by_cases hc : caller = .finishAbort
  · rw [if_pos hc] at hrole
    rw [hrole] at hin
    refine .of_step rfl ?_
    rw [job.role_resume_none]
    exact .miss hrole (hst hin)
  · exact .quiet (by rw [job.role_resume_none, hrole, if_neg hc])

omit [DecidableEq K] in
/-- The index was loaded from inside the block and has not grown since, so a claim does not
carry into the wave. -/
theorem claim_lt (hinv : Speculation.IndexInvariant job (s.speculation job)) {idx : TxnIndex}
    {inc : Incarnation} (hpc : (s.workers w).pc = .claimValidation idx inc) :
    (unpackValidationIdx s.sched.validationIdx).1 + 1 < (2 ^ 32 : ℕ) := by
  have hseen : (s.speculation job).index ≤ idx :=
    hinv.index_le_seen (show ((s.workers w).pc.role job).seenIndex = _ by rw [hpc]; rfl)
  have hlt : idx < job.numTxns := by
    have hin : ((s.workers w).pc.role job).Within job.numTxns := hinv.within w
    rwa [hpc] at hin
  exact lt_of_le_of_lt (Nat.succ_le_of_lt (hseen.trans_lt hlt)) job.numTxns_lt

theorem simulates_claimValidation {idx : TxnIndex} {inc : Incarnation}
    (hpc : (s.workers w).pc = .claimValidation idx inc)
    (hi : (unpackValidationIdx s.sched.validationIdx).1 + 1 < (2 ^ 32 : ℕ))
    (hatomic : d.atomicClaims → (unpackValidationIdx s.sched.validationIdx).1 = idx ∧
      s.sched.txnStatus idx = .executed inc) :
    Simulates job d w s (s.stepClaimValidation job w inc) := by
  refine .of_step (t := { s.speculation job with
    index := (s.speculation job).index + 1 }.record
      (.claimed ((s.speculation job).index, inc) (s.speculation job).wave)) ?_ ?_
  · simp only [State.speculation, State.record, Speculation.record,
      unpackValidationIdx_succ hi]
  · rw [job.role_loopHead]
    exact .claim (congrArg (Pc.role job) hpc) hatomic

theorem simulates_finishValidation {v : Version} {wave : Wave}
    (hpc : (s.workers w).pc = .finishValidation v wave) (hfree : ¬ s.ValidationLocked v.1) :
    Simulates job d w s ({ s with sched := s.sched.finishValidation v.1 wave }.move w
      (job.loopHead (s.workers w) .noTask)) := by
  refine .of_step (t := { s.speculation job with
    validated := Function.update (s.speculation job).validated v.1
      (some (((s.speculation job).validated v.1).elim wave fun prev => max prev wave)) }) ?_ ?_
  · simp only [State.speculation, Scheduler.finishValidation, Speculation.mk.injEq, true_and,
      and_true]
    constructor <;> funext i <;> simp only [Function.update_apply] <;> split <;> simp_all
  · rw [job.role_loopHead]
    exact .finish (congrArg (Pc.role job) hpc)
      fun hf => hfree ((s.validationLocked_iff job _).mpr hf)

theorem simulates_storeTriggered {i : TxnIndex} {wave : Wave}
    (hpc : (s.workers w).pc = .storeTriggered i wave) :
    Simulates job d w s ({ s with sched := s.sched.storeTriggered i wave }.move w
      (.incarnate i .finishAbort)) := by
  refine .of_step ?_ (.store (congrArg (Pc.role job) hpc))
  simp only [State.speculation, Scheduler.storeTriggered, Speculation.mk.injEq, true_and, and_true]
  constructor <;> funext j <;> simp only [Function.update_apply] <;> split <;> simp_all

theorem Compute.role_eq {v : Version} {mv mv' : MVHashMap K} {io io' : TxnLastInputOutput K P E}
    {phase phase' : ExecutePhase K P E} (h : Compute job v mv io phase mv' io' phase') :
    (Pc.execute v phase).role job = .executing v phase ∧
      (Pc.execute v phase').role job = .executing v phase' := by
  cases h <;> exact ⟨rfl, rfl⟩

theorem simulates_step {l : Fin m × ℕ}
    (hinv : Speculation.StatusInvariant job (s.speculation job))
    (hatomic : d.atomicClaims → AtomicClaims l s)
    (hsteady : d.steadfastAborts → SteadfastAborts job l s)
    (hbounded : d.boundedWaves → BoundedWaves l s)
    (h : State.step job l s = some s') : Simulates job d l.1 s s' := by
  have hin := hinv.index.within l.1
  have hstep := State.workerStep h
  generalize hpc : (s.workers l.1).pc = pc at hstep
  have hrole : (s.speculation job).role l.1 = pc.role job := congrArg (Pc.role job) hpc
  have hunsealed {i : TxnIndex} (hfree : ¬ s.ValidationLocked i) : ¬ (s.speculation job).Sealed i :=
    fun hi => hfree ((s.validationLocked_iff job i).mpr hi)
  cases hstep with
  | start =>
    refine .inl ?_
    rw [State.speculation_setWorker]
    refine Speculation.turn_self _ ?_
    dsimp only
    split
    · exact hrole.symm
    · exact (job.role_dispatch _).trans hrole.symm
  | commitEnd | commitLater => exact .quiet_of_eq rfl ((job.role_dispatch _).trans hrole.symm)
  | @commitAdvance task _ _ hfree hst =>
    have hdispatch : (job.dispatch task).role job = (s.workers l.1).pc.role job :=
      (job.role_dispatch task).trans hrole.symm
    refine .inr ?_
    rw [State.speculation_move, Speculation.turn_self _ hdispatch]
    exact .advance hst (hunsealed hfree)
  | commit hn hfree hst hval hle =>
    exact .inr (.commit (lt_of_le_of_ne hinv.commit.commit_le hn) hst (hunsealed hfree) hval hle)
  | recvEmpty => exact .quiet ((job.role_afterTryExec _).trans hrole.symm)
  | recvPrio | recv | releaseTake =>
    refine simulates_recv (by simp) ?_ hrole _
    rfl
  | attempt hlt hfree hst => exact simulates_attempt hpc hlt hfree hst
  | miss hst => exact simulates_miss hpc hin hst
  | incarnate =>
    obtain rfl := hinv.commit.no_condvar _ _ _
      (hinv.owns.status_eq ((congrArg Role.owned hrole).trans rfl))
    refine .of_step rfl ?_
    rw [job.role_resume_some]
    exact .incarnate hrole
  | giveUp hdep =>
    refine .of_step rfl ?_
    rw [job.role_resume_none]
    refine .giveUp hrole fun hd => decide_eq_false fun hc => ?_
    have hdone := hsteady hd
    simp only [SteadfastAborts, hpc, hc] at hdone
    exact absurd (hdep.symm.trans hdone) Bool.false_ne_true
  | lockFails => exact .quiet ((job.role_afterNoTask _).trans hrole.symm)
  | lock hfree =>
    exact .of_step rfl (.lock hrole fun u hu => hfree ((s.valocked_iff job).mpr ⟨u, hu⟩))
  | loadEnd =>
    refine .inr ?_
    rw [State.speculation_setWorker, job.role_afterNoTask]
    exact .unlock (.inl hrole)
  | load hlt => exact .of_step rfl (.load hrole hlt)
  | peekFails =>
    refine .of_step rfl ?_
    rw [job.role_afterNoTask]
    exact .unlock (.inr ⟨_, hrole⟩)
  | peek hst => exact .of_step rfl (.peek hrole hst)
  | claim =>
    refine simulates_claimValidation hpc (claim_lt hinv.index hpc) fun hd => ?_
    have hclaim := hatomic hd
    simpa only [AtomicClaims, hpc] using hclaim
  | loadReads hreads => exact .of_step rfl (.loadReads hrole hreads)
  | accept => exact .of_step rfl (.accept hrole)
  | validate hread hvalid => exact .of_step rfl (.check hrole hread hvalid)
  | reject hread hvalid => exact .of_step rfl (.reject hrole hread hvalid)
  | abort hst => exact .of_step rfl (.abort hrole hst)
  | keep hst => exact .of_step rfl (.keep hrole hst)
  | finishValidation hfree => exact simulates_finishValidation hpc hfree
  | loadModified => exact .of_step rfl (.loadModified hrole)
  | marked => exact .of_step rfl (.marked hrole)
  | mark hkey hmark => exact .of_step rfl (.mark hrole hkey hmark)
  | hold hfree => exact .of_step rfl (.hold hrole (hunsealed hfree))
  | reset => exact .of_step rfl (.reset hrole)
  | pass hpass => exact .of_step rfl (.pass hrole (decreaseValidationIdx_none hpass))
  | lower hlower =>
    rw [show (s.speculation job).role l.1 = (s.workers l.1).pc.role job from rfl, hpc] at hin
    obtain ⟨hlt, rfl, hpack⟩ := decreaseValidationIdx_some (lt_trans hin job.numTxns_lt) hlower
    refine .of_step ?_ (.lower hrole hlt (Nat.mod_le _ (2 ^ 32)) fun hd => ?_)
    · simp only [State.speculation, hpack]
    · have hb := hbounded hd
      simp only [BoundedWaves, hpc] at hb
      exact Nat.mod_eq_of_lt hb
  | storeTriggered => exact simulates_storeTriggered hpc
  | compute hcompute =>
    refine .of_step rfl ?_
    rw [hcompute.role_eq.2]
    exact .compute (hrole.trans hcompute.role_eq.1) hcompute
  | setExecuted => exact .of_step rfl (.executed hrole)
  | leave | released | sig | prologueEnd | prologueSkip | prologueFinish =>
    exact .quiet_of_eq rfl ((job.role_loopHead _ _).trans hrole.symm)
  | sigClaim =>
    refine .quiet_of_eq rfl ((job.role_loopHead _ _).trans ?_)
    split <;> exact hrole.symm
  | prologueClaim =>
    refine .inl ?_
    rw [State.speculation_setWorker]
    refine Speculation.turn_self _ ?_
    dsimp only
    split
    · exact hrole.symm
    · exact (job.role_loopHead _ _).trans hrole.symm
  | _ => exact .quiet_of_eq rfl hrole.symm

omit [DecidableEq K] in
theorem State.speculation_new : (State.new job : State K P E m).speculation job = .new := by
  have h0 : unpackValidationIdx 0 = (0, 0) := by decide
  simp only [State.speculation, State.new, Scheduler.new, h0]
  rfl

/-- The abstraction of every state reached is a state of the protocol. -/
theorem State.Reached.speculation {guard : Fin m × ℕ → State K P E m → Prop}
    (hatomic : d.atomicClaims → ∀ l s, guard l s → AtomicClaims l s)
    (hsteady : d.steadfastAborts → ∀ l s, guard l s → SteadfastAborts job l s)
    (hbounded : d.boundedWaves → ∀ l s, guard l s → BoundedWaves l s)
    (hs : State.Reached job guard s) : Speculation.Reachable job d (s.speculation job) := by
  unfold Speculation.Reachable
  rw [← State.speculation_new]
  refine InterleavedRuns.Reachable.simulates (State.speculation job) (fun l t t' ht hg h => ?_) hs
  rw [State.speculation_new] at ht
  rcases simulates_step (Speculation.Reachable.statusInvariant ht) (fun hd => hatomic hd l t hg)
    (fun hd => hsteady hd l t hg) (fun hd => hbounded hd l t hg) h with h' | h'
  · exact .inl h'
  · exact .inr ⟨l.1, h'⟩

/-- Unrestricted runs need no discipline. -/
theorem State.Reachable.speculation (hs : State.Reachable job s) :
    Speculation.Reachable job ⟨False, False, False⟩ (s.speculation job) :=
  State.Reached.speculation (d := ⟨False, False, False⟩) (fun h => h.elim) (fun h => h.elim)
    (fun h => h.elim) hs

end Simulation
end Anthemius
