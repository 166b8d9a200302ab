import Anthemius.SpeculationRefinement

/-! How a block ends: a worker leaves its loop only after the done marker was set, and the
committing worker sets it only after the last commit. -/
namespace Anthemius

variable {K P E : Type} {m : ℕ}

/-- The worker has been told that the block is done. -/
def Pc.Ended : Pc K P E → Prop
  | .exited true | .tryCommit .done => True
  | _ => False

def Pc.isDone : Pc K P E → Bool
  | .exited done => done
  | _ => false

theorem Pc.isDone_iff {pc : Pc K P E} : pc.isDone = true ↔ pc = .exited true := by
  cases pc <;> simp [isDone]

namespace Job
variable (job : Job K P E) (worker : Worker K P E)

theorem ended_dispatch {task : SchedulerTask} (h : (job.dispatch task).Ended) : task = .done := by
  rcases task with ⟨v, _ | _⟩ | _ | _ | _ | _ | _ <;> first | rfl | exact h.elim

theorem ended_loopHead {task : SchedulerTask} (h : (job.loopHead worker task).Ended) :
    task = .done := by
  unfold loopHead at h
  split at h
  · cases task <;> first | rfl | exact h.elim
  · exact job.ended_dispatch h

theorem not_ended_loopHead {task : SchedulerTask} (h : task ≠ .done) :
    ¬ (job.loopHead worker task).Ended := fun he => h (job.ended_loopHead worker he)

theorem not_ended_afterNoTask : ¬ (job.afterNoTask worker).Ended := by
  unfold afterNoTask
  split
  · split
    · exact id
    · exact job.not_ended_loopHead worker nofun
  · exact job.not_ended_loopHead worker nofun

theorem not_ended_afterTryExec : ¬ (job.afterTryExec worker).Ended := by
  unfold afterTryExec
  split
  · exact job.not_ended_afterNoTask worker
  · exact id

theorem not_ended_resume (caller : Caller) (result : Option (Version × Option DependencyCondvar)) :
    ¬ (job.resume worker caller result).Ended := by
  rcases caller with _ | _ | ⟨txn, pos, count⟩ | _ <;> rcases result with _ | ⟨v, condvar⟩
  · exact id
  · exact job.not_ended_loopHead worker nofun
  · exact job.not_ended_afterTryExec worker
  · exact job.not_ended_loopHead worker nofun
  · exact id
  · exact id
  · exact job.not_ended_loopHead worker nofun
  · exact job.not_ended_loopHead worker nofun

end Job

namespace State
variable {job : Job K P E} {s s' : State K P E m} {w : Fin m}

structure EndInvariant (job : Job K P E) (s : State K P E m) : Prop where
  marked : s.sched.doneMarker = true → s.commitState.1 = job.numTxns
  ended : ∀ w, (s.workers w).pc.Ended → s.sched.doneMarker = true

/-- A step that neither commits nor ends anything. -/
theorem EndInvariant.continue {s₁ : State K P E m} {worker : Worker K P E}
    (hi : s.EndInvariant job) (hmarker : s₁.sched.doneMarker = s.sched.doneMarker)
    (hcommit : s₁.commitState = s.commitState) (hworkers : s₁.workers = s.workers)
    (hpc : ¬ worker.pc.Ended) : (s₁.setWorker w worker).EndInvariant job where
  marked hm := (congrArg Prod.fst hcommit).trans (hi.marked (hmarker ▸ hm))
  ended u hu := by
    refine hmarker.trans (hi.ended u ?_)
    by_cases huw : u = w
    · subst huw
      simp only [setWorker, Function.update_self] at hu
      exact absurd hu hpc
    · simpa only [setWorker, Function.update_of_ne huw, hworkers] using hu

theorem EndInvariant.recv {s₁ : State K P E m} (hi : s.EndInvariant job)
    (hmarker : s₁.sched.doneMarker = s.sched.doneMarker) (hcommit : s₁.commitState = s.commitState)
    (hworkers : s₁.workers = s.workers) (caller : Caller) (i : TxnIndex) :
    (s₁.stepRecv job w caller i).EndInvariant job := by
  unfold stepRecv
  split
  · exact hi.continue hmarker hcommit hworkers (job.not_ended_resume _ _ _)
  · exact hi.continue hmarker hcommit hworkers id

/-- A worker that goes on with its task after `try_commit` has ended only if it had before. -/
theorem EndInvariant.dispatch {s₁ : State K P E m} {task : SchedulerTask}
    (hi : s.EndInvariant job) (hpc : (s.workers w).pc = .tryCommit task)
    (hmarked : s₁.sched.doneMarker = true → s₁.commitState.1 = job.numTxns)
    (hmono : s.sched.doneMarker = true → s₁.sched.doneMarker = true)
    (hworkers : s₁.workers = s.workers) : (s₁.move w (job.dispatch task)).EndInvariant job := by
  refine ⟨hmarked, fun u hu => hmono ?_⟩
  by_cases huw : u = w
  · subst huw
    simp only [move, setWorker, Function.update_self] at hu
    exact hi.ended u (by rw [hpc, job.ended_dispatch hu]; trivial)
  · simp only [move, setWorker, Function.update_of_ne huw, hworkers] at hu
    exact hi.ended u hu

variable [DecidableEq K]

/-- The marker is set at the end of the block only, and seen only where a worker leaves. -/
theorem endInvariant_step {l : Fin m × ℕ} (hi : s.EndInvariant job) (h : step job l s = some s') :
    s'.EndInvariant job := by
  have hstep := workerStep h
  generalize hpc : (s.workers l.1).pc = pc at hstep
  cases hstep with
  | commitEnd hend => exact hi.dispatch hpc (fun _ => hend) (fun h => by simp [h]) rfl
  | commitLater => exact hi.dispatch hpc hi.marked id rfl
  | commitAdvance hn => exact hi.dispatch hpc (fun h => absurd (hi.marked h) hn) id rfl
  | commit hn => exact ⟨fun h => absurd (hi.marked h) hn, fun u hu => hi.ended u hu⟩
  | leave hflag hdone => exact ⟨hi.marked, fun _ _ => hdone⟩
  | start =>
    refine hi.continue rfl rfl rfl ?_
    dsimp only
    split <;> exact id
  | recvPrio | recv | releaseTake => refine hi.recv ?_ ?_ ?_ _ _ <;> rfl
  | miss | incarnate | giveUp => exact hi.continue rfl rfl rfl (job.not_ended_resume _ _ _)
  | recvEmpty => exact hi.continue rfl rfl rfl (job.not_ended_afterTryExec _)
  | lockFails | loadEnd | peekFails =>
    exact hi.continue rfl rfl rfl (job.not_ended_afterNoTask _)
  | claim | finishValidation | sig | prologueEnd | prologueSkip | prologueFinish =>
    exact hi.continue rfl rfl rfl (job.not_ended_loopHead _ nofun)
  | @released _ _ _ next =>
    refine hi.continue rfl rfl rfl (job.not_ended_loopHead _ ?_)
    cases next <;> nofun
  | sigClaim =>
    refine hi.continue rfl rfl rfl (job.not_ended_loopHead _ ?_)
    split <;> nofun
  | prologueClaim =>
    refine hi.continue rfl rfl rfl ?_
    dsimp only
    split
    · exact id
    · exact job.not_ended_loopHead _ nofun
  | _ => exact hi.continue rfl rfl rfl id

/-- When a worker has left with `Done`, every transaction is committed. -/
theorem Reached.committed_of_exited {guard : Fin m × ℕ → State K P E m → Prop}
    (hs : State.Reached job guard s) (hw : (s.workers w).pc = .exited true) {i : TxnIndex}
    (hi : i < job.numTxns) : ∃ inc, s.sched.txnStatus i = .committed inc := by
  have hend : s.EndInvariant job := InterleavedRuns.Reachable.invariant
    ⟨nofun, fun _ h => h.elim⟩ (fun _ _ _ _ ht _ h => endInvariant_step ht h) hs
  have hmark := hend.ended w (by rw [hw]; trivial)
  have hinv := (State.Reachable.speculation hs.any).statusInvariant
  exact (hinv.commit.committed_iff i).mpr ((hend.marked hmark).symm ▸ hi)

end State
end Anthemius
