import Anthemius.SpeculationRefinement

/-!
# The duties of the workers

A second view of the executor, in which a worker is only known by its private flag and by
what it has undertaken: to validate, to verify the signatures from some index on, or to
leave. Who may set the flag, lower the validation index or leave the loop can be read off
the few steps of this view, and every step of the machine is one of them or invisible here.
-/
namespace Anthemius

inductive Duty
  | idle
  | validating
  | verifying (index : ℕ)
  | leaving
  deriving DecidableEq

/-- The workers with the shared data that their duties are about. -/
structure Crew (m : ℕ) where
  index : TxnIndex
  flag : Fin m → Bool
  duty : Fin m → Duty
  sigValIdx : ℕ
  verified : List TxnIndex
  doneMarker : Bool

namespace Crew
variable {m : ℕ}

def turn (c : Crew m) (w : Fin m) (d : Duty) : Crew m :=
  { c with duty := Function.update c.duty w d }

theorem turn_self (c : Crew m) {w : Fin m} {d : Duty} (h : d = c.duty w) : c.turn w d = c := by
  have hd : Function.update c.duty w d = c.duty := by
    rw [h]
    exact Function.update_eq_self ..
  rw [turn, hd]

def new : Crew m := ⟨0, fun _ => false, fun _ => .idle, 0, [], false⟩

/-- The indices of one signature task that are in the block. -/
def sigTask (n index : ℕ) : List TxnIndex := ((List.range 24).map (index + ·)).filter (· < n)

/-- One step of a worker in a block of `n` transactions. -/
inductive Step (n : ℕ) (mode : ExecutionMode) (w : Fin m) (c : Crew m) : Crew m → Prop
  | lock (hd : c.duty w = .idle) (hf : c.flag w = false) : Step n mode w c (c.turn w .validating)
  | release (hd : c.duty w = .validating) : Step n mode w c (c.turn w .idle)
  | observe (hd : c.duty w = .validating) (hi : n ≤ c.index) :
      Step n mode w c ({ c with flag := Function.update c.flag w true }.turn w .idle)
  | claim (hd : c.duty w = .validating) :
      Step n mode w c ({ c with index := c.index + 1 }.turn w .validating)
  | lower {i} (hd : c.duty w = .validating) : Step n mode w c ({ c with index := i }.turn w .idle)
  | sigClaim (hd : c.duty w = .idle) :
      Step n mode w c ({ c with sigValIdx := c.sigValIdx + 25 }.turn w
        (if c.sigValIdx ≤ n then .verifying c.sigValIdx else .idle))
  | verify {k} (hd : c.duty w = .verifying k) :
      Step n mode w c ({ c with verified := c.verified ++ sigTask n k }.turn w .idle)
  | leave (hd : c.duty w = .idle) (hf : c.flag w = true) : Step n mode w c (c.turn w .leaving)
  | mark (hm : mode ≠ .pythiaSig ∨ n ≤ c.sigValIdx) :
      Step n mode w c { c with doneMarker := true }

def Reachable (n : ℕ) (mode : ExecutionMode) : Crew m → Prop :=
  Relation.ReflTransGen (fun c c' => ∃ w, Step n mode w c c') new

end Crew

/-! ## The duty of a position -/

def SchedulerTask.duty : SchedulerTask → Duty
  | .validationTask _ _ => .validating
  | .sigTask index => .verifying index
  | .done => .leaving
  | _ => .idle

variable {K P E : Type} {m : ℕ}

def Pc.duty : Pc K P E → Duty
  | .tryCommit task => task.duty
  | .lockValidation | .loadValidation | .checkExecuted _ | .claimValidation _ _
  | .validate _ _ _ | .tryAbort _ _ | .finishValidation _ _ | .abort _ _
  | .lowerValidation _ => .validating
  | .sig index => .verifying index
  | .exited true => .leaving
  | _ => .idle

def State.crew (s : State K P E m) : Crew m where
  index := (unpackValidationIdx s.sched.validationIdx).1
  flag := fun u => (s.workers u).finishedValFlag
  duty := fun u => (s.workers u).pc.duty
  sigValIdx := s.sched.sigValIdx
  verified := s.verified
  doneMarker := s.sched.doneMarker

namespace Job
variable (job : Job K P E) (worker : Worker K P E)

@[simp] theorem duty_dispatch (task : SchedulerTask) : (job.dispatch task).duty = task.duty := by
  rcases task with ⟨v, _ | _⟩ | _ | _ | _ | _ | _ <;> rfl

@[simp] theorem duty_loopHead (task : SchedulerTask) :
    (job.loopHead worker task).duty = task.duty := by
  unfold loopHead
  split
  · rfl
  · exact job.duty_dispatch task

@[simp] theorem duty_afterNoTask : (job.afterNoTask worker).duty = .idle := by
  unfold afterNoTask
  split_ifs
  · rfl
  · exact job.duty_loopHead worker .noTask
  · exact job.duty_loopHead worker .prologueTask

theorem duty_afterTryExec : (job.afterTryExec worker).duty =
    if worker.finishedValFlag then .idle else .validating := by
  unfold afterTryExec
  split
  · exact job.duty_afterNoTask worker
  · rfl

theorem duty_resume_some (caller : Caller) (v : Version) (condvar : Option DependencyCondvar) :
    (job.resume worker caller (some (v, condvar))).duty = .idle := by
  cases caller with
  | finishExecution => rfl
  | tryExecPrio | tryExec | finishAbort => exact job.duty_loopHead worker (.executionTask v condvar)

end Job

namespace State
variable (s : State K P E m) (w : Fin m)

theorem crew_setWorker (worker : Worker K P E)
    (hf : worker.finishedValFlag = (s.workers w).finishedValFlag) :
    (s.setWorker w worker).crew = s.crew.turn w worker.pc.duty := by
  have hflag : (fun u => (Function.update s.workers w worker u).finishedValFlag) =
      fun u => (s.workers u).finishedValFlag := by
    funext u
    by_cases hu : u = w
    · rw [hu, Function.update_self, hf]
    · rw [Function.update_of_ne hu]
  have hduty : (fun u => (Function.update s.workers w worker u).pc.duty) =
      Function.update (fun u => (s.workers u).pc.duty) w worker.pc.duty := by
    funext u
    by_cases hu : u = w
    · rw [hu, Function.update_self, Function.update_self]
    · rw [Function.update_of_ne hu, Function.update_of_ne hu]
  simp only [crew, setWorker, Crew.turn, hflag, hduty]

theorem crew_move (pc : Pc K P E) : (s.move w pc).crew = s.crew.turn w pc.duty :=
  s.crew_setWorker w _ rfl

end State

/-- A step of the machine is one of the crew or invisible to it. -/
def Follows (job : Job K P E) (w : Fin m) (s s' : State K P E m) : Prop :=
  s'.crew = s.crew ∨ Crew.Step job.numTxns job.mode w s.crew s'.crew

section Follows
variable {job : Job K P E} {w : Fin m} {s s' s₁ : State K P E m} {pc : Pc K P E}

theorem Follows.quiet (h₁ : s₁.crew = s.crew) (h : pc.duty = (s.workers w).pc.duty) :
    Follows job w s (s₁.move w pc) :=
  .inl (by rw [State.crew_move, h₁]; exact s.crew.turn_self h)

theorem Follows.quiet_setWorker {worker : Worker K P E} (h₁ : s₁.crew = s.crew)
    (hw : s₁.workers w = s.workers w)
    (hf : worker.finishedValFlag = (s.workers w).finishedValFlag)
    (h : worker.pc.duty = (s.workers w).pc.duty) : Follows job w s (s₁.setWorker w worker) :=
  .inl (by rw [State.crew_setWorker _ _ _ (hw ▸ hf), h₁]; exact s.crew.turn_self h)

theorem Follows.of_step {c : Crew m} (h₁ : s₁.crew = c)
    (h : Crew.Step job.numTxns job.mode w s.crew (c.turn w pc.duty)) :
    Follows job w s (s₁.move w pc) :=
  .inr (by rwa [State.crew_move, h₁])

/-- A worker without a task looks for one to validate, unless its flag is set. -/
theorem follows_afterTryExec (h₁ : s₁.crew = s.crew) (hd : (s.workers w).pc.duty = .idle) :
    Follows job w s (s₁.move w (job.afterTryExec (s.workers w))) := by
  cases hf : (s.workers w).finishedValFlag with
  | true => exact .quiet h₁ (by rw [job.duty_afterTryExec, hf, hd]; rfl)
  | false =>
    refine .of_step h₁ ?_
    rw [job.duty_afterTryExec, hf]
    exact .lock hd hf

theorem follows_resume_none (h₁ : s₁.crew = s.crew) (hd : (s.workers w).pc.duty = .idle)
    (caller : Caller) : Follows job w s (s₁.move w (job.resume (s.workers w) caller none)) := by
  cases caller with
  | tryExecPrio | finishExecution => exact .quiet h₁ hd.symm
  | tryExec => exact follows_afterTryExec h₁ hd
  | finishAbort => exact .quiet h₁ (by rw [hd]; exact job.duty_loopHead _ .noTask)

theorem follows_recv (h₁ : s₁.crew = s.crew) (hw : s₁.workers w = s.workers w)
    (hd : (s.workers w).pc.duty = .idle) (caller : Caller) (i : TxnIndex) :
    Follows job w s (s₁.stepRecv job w caller i) := by
  unfold State.stepRecv
  rw [hw]
  split
  · exact follows_resume_none h₁ hd caller
  · exact .quiet h₁ hd.symm

theorem crew_setFlag : (s.setWorker w { s.workers w with
    finishedValFlag := true
    pc := pc }).crew =
      { s.crew with flag := Function.update s.crew.flag w true }.turn w pc.duty := by
  simp only [State.crew, State.setWorker, Crew.turn, Crew.mk.injEq, true_and, and_true]
  constructor <;> funext u <;> by_cases hu : u = w <;> simp [hu]

variable [DecidableEq K]

/-- Every step of the machine; a claim needs that the index does not run over its field. -/
theorem follows_step {l : Fin m × ℕ}
    (hinv : Speculation.StatusInvariant job (s.speculation job))
    (h : State.step job l s = some s') : Follows job l.1 s s' := by
  have hstep := State.workerStep h
  generalize hpc : (s.workers l.1).pc = pc at hstep
  have hduty : (s.workers l.1).pc.duty = pc.duty := congrArg Pc.duty hpc
  cases hstep with
  | start =>
    refine .quiet_setWorker rfl rfl rfl ?_
    dsimp only
    split <;> exact hduty.symm
  | commitEnd =>
    -- only the end of the block sets the marker
    have hdispatch := (job.duty_dispatch _).trans hduty.symm
    by_cases hm : job.mode ≠ .pythiaSig ∨ s.sched.sigValIdx ≥ job.numTxns
    · refine .inr ?_
      rw [State.crew_move, Crew.turn_self _ hdispatch]
      simpa [State.crew, hm] using Crew.Step.mark (c := s.crew) (w := l.1) hm
    · refine .quiet ?_ hdispatch
      simp [State.crew, hm]
  | commitLater | commitAdvance => exact .quiet rfl ((job.duty_dispatch _).trans hduty.symm)
  | commit => exact .inl rfl
  | leave hflag =>
    refine .of_step rfl ?_
    rw [job.duty_loopHead]
    exact .leave hduty hflag
  | recvEmpty => exact follows_afterTryExec rfl hduty
  | recvPrio | recv | releaseTake => refine follows_recv ?_ ?_ hduty _ _ <;> rfl
  | miss | giveUp => exact follows_resume_none rfl hduty _
  | incarnate => exact .quiet rfl ((job.duty_resume_some _ _ _ _).trans hduty.symm)
  | lockFails | peekFails =>
    refine .of_step rfl ?_
    rw [job.duty_afterNoTask]
    exact .release hduty
  | loadEnd hle =>
    refine .inr ?_
    rw [crew_setFlag, job.duty_afterNoTask]
    exact .observe hduty hle
  | claim =>
    have hi := claim_lt hinv.index hpc
    refine .of_step (c := { s.crew with index := s.crew.index + 1 }) ?_ ?_
    · simp only [State.crew, State.record, unpackValidationIdx_succ hi]
    · rw [job.duty_loopHead]
      exact .claim hduty
  | finishValidation =>
    refine .of_step rfl ?_
    rw [job.duty_loopHead]
    exact .release hduty
  | pass => exact .of_step rfl (.release hduty)
  | lower => exact .of_step rfl (.lower hduty)
  | @released _ _ _ next =>
    refine .quiet rfl ?_
    rw [job.duty_loopHead, hduty]
    cases next <;> rfl
  | sigClaim =>
    refine .of_step (c := { s.crew with sigValIdx := s.crew.sigValIdx + 25 }) rfl ?_
    rw [job.duty_loopHead, apply_ite SchedulerTask.duty]
    exact .sigClaim hduty
  | @sig index =>
    refine .of_step (c := { s.crew with
      verified := s.crew.verified ++ Crew.sigTask job.numTxns index }) rfl ?_
    rw [job.duty_loopHead]
    exact .verify hduty
  | prologueEnd | prologueSkip | prologueFinish =>
    exact .quiet rfl ((job.duty_loopHead _ _).trans hduty.symm)
  | prologueClaim =>
    refine .quiet_setWorker rfl rfl rfl ?_
    dsimp only
    split
    · exact hduty.symm
    · exact (job.duty_loopHead _ _).trans hduty.symm
  | _ => exact .quiet rfl hduty.symm

theorem State.Reachable.crew (hs : State.Reachable job s) :
    Crew.Reachable job.numTxns job.mode s.crew := by
  have h0 : unpackValidationIdx 0 = (0, 0) := by decide
  refine InterleavedRuns.Reachable.invariant
    (I := fun t : State K P E m => Crew.Reachable job.numTxns job.mode t.crew) ?_ ?_ hs
  · have hnew : (State.new job : State K P E m).crew = .new := by
      simp only [State.crew, State.new, Scheduler.new, h0]
      rfl
    rw [hnew]
    exact .refl
  · intro l t t' ht hc _ h
    rcases follows_step (State.Reachable.speculation ht).statusInvariant h with h' | h'
    · exact h' ▸ hc
    · exact hc.tail ⟨l.1, h'⟩

end Follows
end Anthemius
