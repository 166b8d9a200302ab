import Anthemius.ReleasePlan
import Anthemius.StatusMachine

/-!
# No transaction is lost

A transaction that is ready to execute is on its way to a worker: in a channel, in the hands
of a worker that has not finished its attempt, or recorded with a transaction whose next
`finish_execution` will look at the record. The record survives since the list of a
transaction only grows and every execution runs through it from the start.
-/
namespace Anthemius

/-! ## The plan places every transaction -/

namespace Plan

def Places (n : ℕ) (p : Plan) (i : TxnIndex) : Prop :=
  i ∈ p.sendVec ∨ ∃ d < n, i ∈ p.criticalPathParent d

theorem visit_places {n costLen : ℕ} {dependencies : List (List TxnIndex)} {p p' : Plan}
    {i : TxnIndex} (h : visit n costLen dependencies p i = some p') :
    (∀ d ∈ dependencies.getD i [], d < n) ∧ p'.Places n i ∧ ∀ j, p.Places n j → p'.Places n j := by
  unfold visit at h
  dsimp only at h
  split at h
  · rename_i hok
    cases h
    have hlt : ∀ d ∈ dependencies.getD i [], d < n := fun d hd => (hok.1 d hd).2
    refine ⟨hlt, ?_⟩
    dsimp only [Places]
    split
    · refine ⟨.inl (by simp), ?_⟩
      rintro j (hj | hj)
      · exact .inl (List.mem_append_left _ hj)
      · exact .inr hj
    · rename_i hparent
      have hparent := hlt _ ((slowestParent_mem _ _).resolve_left hparent)
      generalize (slowestParent p.pathCost (dependencies.getD i [])).2 = parent at hparent
      refine ⟨.inr ⟨parent, hparent, by simp⟩, ?_⟩
      rintro j (hj | ⟨d, hdn, hd⟩)
      · exact .inl hj
      · refine .inr ⟨d, hdn, ?_⟩
        by_cases hdp : d = parent
        · subst hdp
          rw [Function.update_self]
          exact List.mem_append_left _ hd
        · rw [Function.update_of_ne hdp]
          exact hd
  · cases h

theorem foldlM_places {n costLen : ℕ} {dependencies : List (List TxnIndex)} {p p' : Plan}
    (l : List TxnIndex) (h : l.foldlM (visit n costLen dependencies) p = some p') :
    (∀ i ∈ l, (∀ d ∈ dependencies.getD i [], d < n) ∧ p'.Places n i) ∧
      ∀ j, p.Places n j → p'.Places n j := by
  induction l generalizing p with
  | nil =>
    cases h
    exact ⟨nofun, fun _ hj => hj⟩
  | cons i l ih =>
    rw [List.foldlM_cons] at h
    obtain ⟨q, hq, h⟩ := Option.bind_eq_some_iff.mp h
    obtain ⟨hlt, hi, hkeep⟩ := visit_places hq
    obtain ⟨hl, hkeep'⟩ := ih h
    refine ⟨fun j hj => ?_, fun j hj => hkeep' j (hkeep j hj)⟩
    rcases List.mem_cons.mp hj with rfl | hj
    · exact ⟨hlt, hkeep' j hi⟩
    · exact hl j hj

/-- The hints of a transaction of the block stay in the block, and the transaction starts in a
channel or in the list of its parent. -/
theorem new_places {n : ℕ} {dependencies : List (List TxnIndex)} {gasEstimates : List ℕ} {p : Plan}
    (h : new n dependencies gasEstimates = some p) {i : TxnIndex} (hi : i < n) :
    (∀ d ∈ dependencies.getD i [], d < n) ∧
      (i ∈ p.channels ∨ i ∈ p.priochannels ∨ ∃ d < n, i ∈ p.criticalPathParent d) := by
  unfold new at h
  split at h
  · obtain ⟨hlt, hs | hd⟩ := (foldlM_places _ h).1 i (List.mem_range.mpr hi)
    · refine ⟨hlt, ?_⟩
      by_cases hc : (p.children i).isEmpty = true
      · exact .inl (List.mem_filter.mpr ⟨hs, hc⟩)
      · exact .inr (.inl (List.mem_filter.mpr ⟨hs, by simpa using hc⟩))
    · exact ⟨hlt, .inr (.inr hd)⟩
  · cases h

end Plan

variable {K P E : Type} {m : ℕ}

/-! ## Where a ready transaction is -/

/-- The loop of `finish_execution` over the records of `d` that called `try_incarnate` has
position `pos` still before it. -/
def Caller.Releases (d pos : ℕ) : Caller → Prop
  | .finishExecution txn p count => txn = d ∧ p < pos ∧ pos < count
  | _ => False

namespace Pc

/-- The worker has taken the transaction and not finished its attempt to incarnate it. After
`set_aborted_status` that attempt is the end of `finish_abort`. -/
def Attempts (x : TxnIndex) : Pc K P E → Prop
  | .incarnate i _ | .lowerValidation i | .storeTriggered i _ => i = x
  | .checking v _ _ _ | .registering v _ _ _ _ | .rechecking v _ _ _ _ => v.1 = x
  | _ => False

/-- The worker is in `finish_execution` of `d` and its loop has not passed position `pos`. -/
def Releases (d pos : ℕ) : Pc K P E → Prop
  | .countChildren i => i = d
  | .releaseChildren txn p count _ => txn = d ∧ p ≤ pos ∧ pos < count
  | .incarnate _ caller | .checking _ _ _ caller | .registering _ _ _ _ caller
  | .rechecking _ _ _ _ caller => caller.Releases d pos
  | _ => False

/-- The hints that an attempt has before it are in the block, and a transaction that was
just registered is in the list of its dependency. -/
def Recorded (n : ℕ) (parents : TxnIndex → List TxnIndex) : Pc K P E → Prop
  | .checking _ _ deps _ => ∀ d ∈ deps, d < n
  | .registering _ _ dep deps _ => dep < n ∧ ∀ d ∈ deps, d < n
  | .rechecking v _ dep deps _ => v.1 ∈ parents dep ∧ dep < n ∧ ∀ d ∈ deps, d < n
  | _ => True

theorem Recorded.mono {n : ℕ} {parents parents' : TxnIndex → List TxnIndex} {pc : Pc K P E}
    (h : pc.Recorded n parents) (hle : ∀ d, parents d <+: parents' d) : pc.Recorded n parents' := by
  cases pc with
  | rechecking v condvar dep deps caller => exact ⟨(hle dep).subset h.1, h.2⟩
  | _ => exact h

/-- No transaction depends on the worker at this position. -/
structure Inert (pc : Pc K P E) : Prop where
  attempts : ∀ x, ¬ pc.Attempts x
  releases : ∀ d pos, ¬ pc.Releases d pos

end Pc

section Positions
variable (job : Job K P E) (worker : Worker K P E) {n : ℕ} {parents : TxnIndex → List TxnIndex}

@[simp] theorem Job.recorded_dispatch (task : SchedulerTask) :
    (job.dispatch task).Recorded n parents := by
  rcases task with ⟨v, _ | _⟩ | _ | _ | _ | _ | _ <;> trivial

@[simp] theorem Job.recorded_loopHead (task : SchedulerTask) :
    (job.loopHead worker task).Recorded n parents := by
  unfold Job.loopHead
  split
  · trivial
  · exact job.recorded_dispatch task

@[simp] theorem Job.recorded_afterNoTask : (job.afterNoTask worker).Recorded n parents := by
  unfold Job.afterNoTask
  split_ifs
  · trivial
  · exact job.recorded_loopHead worker _
  · exact job.recorded_loopHead worker _

@[simp] theorem Job.recorded_afterTryExec : (job.afterTryExec worker).Recorded n parents := by
  unfold Job.afterTryExec
  split_ifs
  · exact job.recorded_afterNoTask worker
  · trivial

@[simp] theorem Job.recorded_resume (caller : Caller)
    (result : Option (Version × Option DependencyCondvar)) :
    (job.resume worker caller result).Recorded n parents := by
  rcases caller with _ | _ | _ | _ <;> rcases result with _ | ⟨v, condvar⟩ <;>
    first
    | trivial
    | exact job.recorded_loopHead worker _
    | exact job.recorded_afterTryExec worker

theorem Job.releases_resume {caller : Caller} {d pos : ℕ} (h : caller.Releases d pos)
    (result : Option (Version × Option DependencyCondvar)) :
    (job.resume worker caller result).Releases d pos := by
  cases caller with
  | finishExecution txn p count => rcases result with _ | ⟨v, condvar⟩ <;> exact h
  | _ => exact h.elim

end Positions

namespace State
variable (job : Job K P E) (s : State K P E m)

def Ready (x : TxnIndex) : Prop := ∃ inc condvar, s.sched.txnStatus x = .readyToExecute inc condvar

/-- A ready transaction is on its way to a worker. -/
def Delivered (x : TxnIndex) : Prop :=
  x ∈ s.sched.channels ∨ x ∈ s.sched.priochannels ∨ (∃ w, (s.workers w).pc.Attempts x) ∨
    ∃ d < job.numTxns, ∃ pos, (s.sched.criticalPathParent d)[pos]? = some x ∧
      (s.executedOrCommitted job d = false ∨ ∃ w, (s.workers w).pc.Releases d pos)

structure DeliveryInvariant : Prop where
  delivered : ∀ x < job.numTxns, s.Ready x → s.Delivered job x
  recorded : ∀ w, (s.workers w).pc.Recorded job.numTxns s.sched.criticalPathParent

variable {job s} {s₁ s' : State K P E m} {w : Fin m} {pc pc' : Pc K P E} {x : TxnIndex}

/-- What a step of worker `w` owes to the transactions that relied on the state before it. -/
structure Transfers (job : Job K P E) (w : Fin m) (s s' : State K P E m) : Prop where
  workers : ∀ u, u ≠ w → s'.workers u = s.workers u
  ready : ∀ x < job.numTxns, s'.Ready x → s.Ready x ∨ s'.Delivered job x
  channels : ∀ x < job.numTxns, x ∈ s.sched.channels ∨ x ∈ s.sched.priochannels →
    s'.Delivered job x
  attempts : ∀ x < job.numTxns, s'.Ready x → (s.workers w).pc.Attempts x → s'.Delivered job x
  parents : ∀ d, s.sched.criticalPathParent d <+: s'.sched.criticalPathParent d
  executed : ∀ d pos : ℕ, s.executedOrCommitted job d = false →
    s'.executedOrCommitted job d = false ∨ (s'.workers w).pc.Releases d pos
  releases : ∀ d pos x : ℕ, x < job.numTxns → (s.sched.criticalPathParent d)[pos]? = some x →
    (s.workers w).pc.Releases d pos → (s'.workers w).pc.Releases d pos ∨ s'.Delivered job x
  recorded : (s'.workers w).pc.Recorded job.numTxns s'.sched.criticalPathParent

theorem getElem?_of_prefix {α : Type} {l l' : List α} (h : l <+: l') {pos : ℕ} {a : α}
    (ha : l[pos]? = some a) : l'[pos]? = some a := by
  obtain ⟨hpos, -⟩ := List.getElem?_eq_some_iff.mp ha
  rw [List.prefix_iff_getElem?.mp h pos hpos, ← ha, List.getElem?_eq_getElem hpos]

theorem Transfers.delivered (h : Transfers job w s s') (hn : x < job.numTxns) (hr : s'.Ready x)
    (hx : s.Delivered job x) : s'.Delivered job x := by
  rcases hx with hc | hc | ⟨u, hu⟩ | ⟨d, hdn, pos, hp, hd⟩
  · exact h.channels x hn (.inl hc)
  · exact h.channels x hn (.inr hc)
  · by_cases huw : u = w
    · exact h.attempts x hn hr (huw ▸ hu)
    · exact .inr (.inr (.inl ⟨u, by rwa [h.workers u huw]⟩))
  · have hrec : (s'.executedOrCommitted job d = false ∨ ∃ u, (s'.workers u).pc.Releases d pos) →
        s'.Delivered job x :=
      fun hd' => .inr (.inr (.inr ⟨d, hdn, pos, getElem?_of_prefix (h.parents d) hp, hd'⟩))
    rcases hd with hd | ⟨u, hu⟩
    · rcases h.executed d pos hd with hd' | hrel
      · exact hrec (.inl hd')
      · exact hrec (.inr ⟨w, hrel⟩)
    · by_cases huw : u = w
      · subst huw
        rcases h.releases d pos x hn hp hu with hrel | hx'
        · exact hrec (.inr ⟨u, hrel⟩)
        · exact hx'
      · exact hrec (.inr ⟨u, by rwa [h.workers u huw]⟩)

theorem Transfers.invariant (h : Transfers job w s s') (hs : s.DeliveryInvariant job) :
    s'.DeliveryInvariant job where
  delivered := by
    intro x hn hr
    rcases h.ready x hn hr with hr' | hx
    · exact h.delivered hn hr (hs.delivered x hn hr')
    · exact hx
  recorded := by
    intro u
    by_cases huw : u = w
    · exact huw ▸ h.recorded
    · rw [h.workers u huw]
      exact (hs.recorded u).mono h.parents

/-! ## What each kind of step owes -/

section Steps
variable {worker : Worker K P E} {i : TxnIndex} {status : ExecutionStatus}

theorem setWorker_of_ne (hwk : s₁.workers = s.workers) {u : Fin m} (hu : u ≠ w) :
    (s₁.setWorker w worker).workers u = s.workers u := by
  simp only [setWorker, Function.update_of_ne hu, hwk]

@[simp] theorem setWorker_sched : (s.setWorker w worker).sched = s.sched := rfl

@[simp] theorem setWorker_self : (s.setWorker w worker).workers w = worker :=
  Function.update_self ..

theorem Transfers.of_setWorker (h : Transfers job w s (s'.setWorker w (s'.workers w))) :
    Transfers job w s s' := by
  rwa [setWorker, Function.update_eq_self] at h

theorem delivered_of_attempts (h : (s.workers w).pc.Attempts x) : s.Delivered job x :=
  .inr (.inr (.inl ⟨w, h⟩))

/-- What the step itself still has in hand: a place in a channel, or the worker's attempt. -/
def Offered (s₁ : State K P E m) (worker : Worker K P E) (x : TxnIndex) : Prop :=
  x ∈ s₁.sched.channels ∨ x ∈ s₁.sched.priochannels ∨ worker.pc.Attempts x

theorem Offered.delivered (h : s₁.Offered worker x) : (s₁.setWorker w worker).Delivered job x := by
  rcases h with h | h | h
  · exact .inl h
  · exact .inr (.inl h)
  · exact delivered_of_attempts (w := w) (by simpa using h)

theorem Transfers.offer (hwk : s₁.workers = s.workers)
    (hst : s₁.sched.txnStatus = s.sched.txnStatus)
    (hpar : s₁.sched.criticalPathParent = s.sched.criticalPathParent)
    (hch : ∀ x < job.numTxns, x ∈ s.sched.channels ∨ x ∈ s.sched.priochannels →
      s₁.Offered worker x)
    (hatt : ∀ x < job.numTxns, s.Ready x → (s.workers w).pc.Attempts x → worker.pc.Attempts x)
    (hrel : ∀ d pos x : ℕ, x < job.numTxns → (s.sched.criticalPathParent d)[pos]? = some x →
      (s.workers w).pc.Releases d pos → worker.pc.Releases d pos ∨ s₁.Offered worker x)
    (hrec : worker.pc.Recorded job.numTxns s₁.sched.criticalPathParent) :
    Transfers job w s (s₁.setWorker w worker) where
  workers u hu := setWorker_of_ne hwk hu
  ready x _ hr := .inl (by simpa only [Ready, setWorker_sched, hst] using hr)
  channels x hx hc := (hch x hx hc).delivered
  attempts x hx hr hpc :=
    have hr' : s.Ready x := by simpa only [Ready, setWorker_sched, hst] using hr
    delivered_of_attempts (w := w) (by simpa using hatt x hx hr' hpc)
  parents d := by rw [← hpar]; exact List.prefix_rfl
  executed d _ hd := .inl (by simpa only [executedOrCommitted, setWorker_sched, hst] using hd)
  releases d pos x hx hp hpc := by
    rw [setWorker_self]
    exact (hrel d pos x hx hp hpc).imp id Offered.delivered
  recorded := by rwa [setWorker_self]

/-- A step that leaves the channels alone as well. -/
theorem Transfers.turn (hwk : s₁.workers = s.workers)
    (hst : s₁.sched.txnStatus = s.sched.txnStatus) (hch : s₁.sched.channels = s.sched.channels)
    (hprio : s₁.sched.priochannels = s.sched.priochannels)
    (hpar : s₁.sched.criticalPathParent = s.sched.criticalPathParent)
    (hatt : ∀ x < job.numTxns, s.Ready x → (s.workers w).pc.Attempts x → worker.pc.Attempts x)
    (hrel : ∀ d pos, (s.workers w).pc.Releases d pos → worker.pc.Releases d pos)
    (hrec : worker.pc.Recorded job.numTxns s₁.sched.criticalPathParent) :
    Transfers job w s (s₁.setWorker w worker) :=
  .offer hwk hst hpar
    (fun _ _ hx => hx.elim (fun h => .inl (hch ▸ h)) fun h => .inr (.inl (hprio ▸ h)))
    hatt (fun d pos _ _ _ h => .inl (hrel d pos h)) hrec

theorem Transfers.inert (hin : (s.workers w).pc.Inert) (hwk : s₁.workers = s.workers)
    (hst : s₁.sched.txnStatus = s.sched.txnStatus) (hch : s₁.sched.channels = s.sched.channels)
    (hprio : s₁.sched.priochannels = s.sched.priochannels)
    (hpar : s₁.sched.criticalPathParent = s.sched.criticalPathParent)
    (hrec : worker.pc.Recorded job.numTxns s₁.sched.criticalPathParent) :
    Transfers job w s (s₁.setWorker w worker) :=
  .turn hwk hst hch hprio hpar (fun x _ _ hx => (hin.attempts x hx).elim)
    (fun d pos hx => (hin.releases d pos hx).elim) hrec

/-- A status write. A transaction that becomes ready stays with the worker, and one that
becomes executed is followed by a walk over its records. -/
theorem Transfers.setStatus (hwk : s₁.workers = s.workers)
    (hsched : s₁.sched = s.sched.setStatus i status)
    (hready : ∀ inc condvar, status = .readyToExecute inc condvar → worker.pc.Attempts i)
    (hexec : i < job.numTxns → (status.isExecuted true).isSome →
      s.executedOrCommitted job i = true ∨ ∀ pos, worker.pc.Releases i pos)
    (hatt : ∀ x, (s.workers w).pc.Attempts x → x = i)
    (hrel : ∀ d pos, (s.workers w).pc.Releases d pos → worker.pc.Releases d pos)
    (hrec : worker.pc.Recorded job.numTxns s₁.sched.criticalPathParent) :
    Transfers job w s (s₁.setWorker w worker) := by
  have hnew : ∀ x, (s₁.setWorker w worker).Ready x → x = i → worker.pc.Attempts i := by
    rintro _ ⟨inc, condvar, hx⟩ rfl
    refine hready inc condvar ?_
    simpa [setWorker, hsched, Scheduler.setStatus] using hx
  refine ⟨fun u hu => setWorker_of_ne hwk hu, fun x _ hr => ?_, fun x _ hx => ?_,
    fun x _ hr hx => ?_, fun d => ?_, fun d pos hd => ?_, fun d pos x _ _ hrel' => ?_, ?_⟩
  · by_cases hxi : x = i
    · exact .inr (delivered_of_attempts (w := w) (by simpa [hxi] using hnew x hr hxi))
    · left
      simpa [Ready, setWorker, hsched, Scheduler.setStatus, Function.update_of_ne hxi] using hr
  · simpa [Delivered, setWorker, hsched, Scheduler.setStatus] using
      hx.elim (fun h => .inl h) fun h => .inr (.inl h)
  · have hxi := hatt x hx
    exact delivered_of_attempts (w := w) (by simpa [hxi] using hnew x hr hxi)
  · simp [setWorker, hsched, Scheduler.setStatus]
  · by_cases hdi : d = i
    · subst hdi
      by_cases hs : d < job.numTxns ∧ (status.isExecuted true).isSome = true
      · rcases hexec hs.1 hs.2 with h | h
        · exact absurd (hd.symm.trans h) Bool.false_ne_true
        · exact .inr (by simpa using h pos)
      · left
        simpa [executedOrCommitted, hsched, Scheduler.setStatus] using hs
    · left
      simpa [executedOrCommitted, setWorker, hsched, Scheduler.setStatus,
        Function.update_of_ne hdi] using hd
  · exact .inl (by simpa using hrel d pos hrel')
  · rwa [setWorker_self]

theorem Transfers.push {dep : TxnIndex} (hwk : s₁.workers = s.workers)
    (hsched : s₁.sched = s.sched.push dep i)
    (hatt : ∀ x, (s.workers w).pc.Attempts x → worker.pc.Attempts x)
    (hrel : ∀ d pos, (s.workers w).pc.Releases d pos → worker.pc.Releases d pos)
    (hrec : worker.pc.Recorded job.numTxns s₁.sched.criticalPathParent) :
    Transfers job w s (s₁.setWorker w worker) := by
  have hst : s₁.sched.txnStatus = s.sched.txnStatus := by rw [hsched]; rfl
  refine ⟨fun u hu => setWorker_of_ne hwk hu, fun x _ hr => .inl ?_, fun x _ hx => ?_,
    fun x _ _ hx => ?_, fun d => ?_, fun d _ hd => .inl ?_, fun d pos x _ _ h => .inl ?_, ?_⟩
  · simpa only [Ready, setWorker_sched, hst] using hr
  · refine Offered.delivered ?_
    rw [Offered, hsched]
    exact hx.elim .inl fun h => .inr (.inl h)
  · exact delivered_of_attempts (w := w) (by simpa using hatt x hx)
  · rw [setWorker_sched, hsched, Scheduler.push]
    by_cases hd : d = dep
    · simp [hd]
    · simp [Function.update_of_ne hd]
  · simpa only [executedOrCommitted, setWorker_sched, hst] using hd
  · simpa using hrel d pos h
  · rwa [setWorker_self]

end Steps

/-! ## The steps of a worker -/

theorem transfers_recv {caller : Caller} {i : TxnIndex} (hwk : s₁.workers = s.workers)
    (hst : s₁.sched.txnStatus = s.sched.txnStatus)
    (hpar : s₁.sched.criticalPathParent = s.sched.criticalPathParent)
    (hch : ∀ x, x ∈ s.sched.channels ∨ x ∈ s.sched.priochannels →
      x = i ∨ x ∈ s₁.sched.channels ∨ x ∈ s₁.sched.priochannels)
    (hatt : ∀ x, ¬ (s.workers w).pc.Attempts x)
    (hrel : ∀ d pos x : ℕ, (s.sched.criticalPathParent d)[pos]? = some x →
      (s.workers w).pc.Releases d pos → x = i ∨ caller.Releases d pos) :
    Transfers job w s (s₁.stepRecv job w caller i) := by
  unfold stepRecv
  split
  · rename_i hge
    refine Transfers.offer hwk hst hpar (fun x hx hc => ?_) (fun x _ _ h => (hatt x h).elim)
      (fun d pos x hx hp h => .inl ?_) (job.recorded_resume _ _ _)
    · rcases hch x hc with rfl | hc | hc
      · exact absurd hx (Nat.not_lt.mpr hge)
      · exact .inl hc
      · exact .inr (.inl hc)
    · rcases hrel d pos x hp h with rfl | h
      · exact absurd hx (Nat.not_lt.mpr hge)
      · exact job.releases_resume _ h none
  · refine Transfers.offer hwk hst hpar (fun x hx hc => ?_) (fun x _ _ h => (hatt x h).elim)
      (fun d pos x hx hp h => ?_) trivial
    · rcases hch x hc with rfl | hc | hc
      · exact .inr (.inr rfl)
      · exact .inl hc
      · exact .inr (.inl hc)
    · rcases hrel d pos x hp h with rfl | h
      · exact .inr (.inr (.inr rfl))
      · exact .inl h

/-- The end of an attempt that waits for a hint: the transaction is recorded with a
transaction that is not executed. -/
theorem transfers_giveUp {v : Version} {condvar : Option DependencyCondvar} {dep : TxnIndex}
    {deps : List TxnIndex} {caller : Caller} (hs : s.DeliveryInvariant job)
    (hpc : (s.workers w).pc = .rechecking v condvar dep deps caller)
    (hwait : s.executedOrCommitted job dep = false) :
    Transfers job w s (s.move w (job.resume (s.workers w) caller none)) := by
  obtain ⟨hrec, hdep, -⟩ : v.1 ∈ s.sched.criticalPathParent dep ∧ dep < job.numTxns ∧
      ∀ d ∈ deps, d < job.numTxns := by simpa [hpc, Pc.Recorded] using hs.recorded w
  refine ⟨fun u hu => setWorker_of_ne rfl hu, fun x _ hr => .inl hr,
    fun x _ hx => hx.elim .inl fun hx => .inr (.inl hx), fun x _ _ hx => ?_,
    fun d => List.prefix_rfl, fun d _ hd => .inl hd, fun d pos x _ _ hx => .inl ?_, ?_⟩
  · rw [hpc] at hx
    obtain rfl : v.1 = x := hx
    obtain ⟨pos, hpos⟩ := List.mem_iff_getElem?.mp hrec
    exact .inr (.inr (.inr ⟨dep, hdep, pos, hpos, .inl hwait⟩))
  · rw [hpc] at hx
    rw [move, setWorker_self]
    exact job.releases_resume _ hx none
  · rw [move, setWorker_self]
    exact job.recorded_resume _ _ _

/-- One round of the loop over the records passes on the transaction it looks at. -/
theorem releases_next {txn p count tx d pos x : ℕ}
    (htx : (s.sched.criticalPathParent txn)[p]? = some tx)
    (hx : (s.sched.criticalPathParent d)[pos]? = some x) (h : txn = d ∧ p ≤ pos ∧ pos < count) :
    x = tx ∨ txn = d ∧ p < pos ∧ pos < count := by
  obtain ⟨rfl, hp, hlt⟩ := h
  rcases Nat.eq_or_lt_of_le hp with rfl | hp
  · exact .inl (Option.some_inj.mp (hx.symm.trans htx))
  · exact .inr ⟨rfl, hp, hlt⟩

theorem transfers_step [DecidableEq K] {l : Fin m × ℕ} (hs : s.DeliveryInvariant job)
    (h : step job l s = some s') : Transfers job l.1 s s' := by
  have hstep := workerStep h
  generalize hpc : (s.workers l.1).pc = pc at hstep
  have hatt : ∀ x, (s.workers l.1).pc.Attempts x → pc.Attempts x := fun x hx => hpc ▸ hx
  have hrel : ∀ d pos, (s.workers l.1).pc.Releases d pos → pc.Releases d pos :=
    fun d pos hx => hpc ▸ hx
  have hrec : pc.Recorded job.numTxns s.sched.criticalPathParent := hpc ▸ hs.recorded l.1
  -- most positions are ones that no transaction depends on
  have hinert (ha : ∀ x, ¬ pc.Attempts x) (hr : ∀ d pos, ¬ pc.Releases d pos) :
      (s.workers l.1).pc.Inert := hpc ▸ ⟨ha, hr⟩
  cases hstep with
  | start =>
    refine .inert (hinert (fun _ h => h) fun _ _ h => h) rfl rfl rfl rfl rfl ?_
    dsimp only
    split
    · trivial
    · exact job.recorded_dispatch _
  | commitEnd | commitLater | commitAdvance =>
    exact .inert (hinert (fun _ h => h) fun _ _ h => h) rfl rfl rfl rfl rfl
      (job.recorded_dispatch _)
  | commit _ _ hst =>
    -- the worker keeps its position, and a committed transaction was executed before
    refine .of_setWorker (.setStatus rfl rfl (fun _ _ h => by cases h) (fun hlt _ => .inl ?_)
      (fun x hx => (hatt x hx).elim) (fun d pos hx => (hrel d pos hx).elim) ?_)
    · simp [executedOrCommitted, hst, hlt, ExecutionStatus.isExecuted]
    · simp [hpc, record, Pc.Recorded]
  | leave | claim | finishValidation | sigClaim | sig | prologueEnd | prologueSkip
  | prologueFinish =>
    exact .inert (hinert (fun _ h => h) fun _ _ h => h) rfl rfl rfl rfl rfl
      (job.recorded_loopHead _ _)
  | recvEmpty =>
    exact .inert (hinert (fun _ h => h) fun _ _ h => h) rfl rfl rfl rfl rfl
      (job.recorded_afterTryExec _)
  | lockFails | loadEnd | peekFails =>
    exact .inert (hinert (fun _ h => h) fun _ _ h => h) rfl rfl rfl rfl rfl
      (job.recorded_afterNoTask _)
  | recvPrio hch | recv hch =>
    refine transfers_recv rfl rfl rfl (fun x hx => ?_) (fun x hx => hatt x hx)
      (fun d pos _ _ hx => (hrel d pos hx).elim)
    rw [hch, List.mem_cons] at hx
    tauto
  | attempt hlt =>
    refine .turn rfl rfl rfl rfl rfl (fun x _ _ hx => hatt x hx) hrel fun d hd => ?_
    exact (Plan.new_places job.plan_new hlt).1 d (List.mem_reverse.mp hd)
  | miss hst =>
    -- an attempt that fails at once finds no ready transaction, so it drops none
    refine .turn rfl rfl rfl rfl rfl (fun x hx hr ha => ?_)
      (fun d pos hx => job.releases_resume _ (hrel d pos hx) none) (job.recorded_resume _ _ _)
    obtain rfl := hatt x ha
    obtain ⟨inc, condvar, hready⟩ := hr
    exact absurd hready (hst hx inc condvar)
  | incarnate =>
    exact .setStatus rfl rfl (fun _ _ h => by cases h) (fun _ h => by cases h)
      (fun x hx => (hatt x hx).symm)
      (fun d pos hx => job.releases_resume _ (hrel d pos hx) _) (job.recorded_resume _ _ _)
  | check =>
    exact .turn rfl rfl rfl rfl rfl (fun x _ _ hx => hatt x hx) hrel
      (List.forall_mem_cons.mp hrec).2
  | await =>
    exact .turn rfl rfl rfl rfl rfl (fun x _ _ hx => hatt x hx) hrel
      (List.forall_mem_cons.mp hrec)
  | register =>
    refine .push rfl rfl hatt hrel ⟨?_, hrec⟩
    simp [Scheduler.push]
  | recheck => exact .turn rfl rfl rfl rfl rfl (fun x _ _ hx => hatt x hx) hrel hrec.2.2
  | giveUp hdep => exact transfers_giveUp hs hpc hdep
  | abort =>
    exact .setStatus rfl rfl (fun _ _ h => by cases h) (fun _ h => by cases h)
      (fun x hx => (hatt x hx).elim) (fun d pos hx => (hrel d pos hx).elim) trivial
  | reset =>
    exact .setStatus rfl rfl (fun _ _ _ => rfl) (fun _ h => by cases h)
      (fun x hx => (hatt x hx).elim) (fun d pos hx => (hrel d pos hx).elim) trivial
  | setExecuted =>
    exact .setStatus rfl rfl (fun _ _ h => by cases h) (fun _ _ => .inr fun _ => rfl)
      (fun x hx => (hatt x hx).elim) (fun d pos hx => (hrel d pos hx).elim) trivial
  | pass | lower | storeTriggered =>
    -- until its own attempt the worker keeps the transaction it has aborted
    exact .turn rfl rfl rfl rfl rfl (fun x _ _ hx => hatt x hx)
      (fun d pos hx => (hrel d pos hx).elim) trivial
  | wait | prologueWait =>
    exact .push rfl rfl (fun x hx => (hatt x hx).elim) (fun d pos hx => (hrel d pos hx).elim)
      trivial
  | countChildren =>
    -- the count is taken once, so a record that is in the list by now is below it
    refine .offer rfl rfl rfl (fun x _ hx => hx.elim .inl fun h => .inr (.inl h))
      (fun x _ _ hx => (hatt x hx).elim) (fun d pos x _ hx hr => .inl ?_) trivial
    obtain rfl := hrel d pos hr
    exact ⟨rfl, pos.zero_le, (List.getElem?_eq_some_iff.mp hx).1⟩
  | released hge =>
    refine .turn rfl rfl rfl rfl rfl (fun x _ _ hx => (hatt x hx).elim) (fun d pos hx => ?_)
      (job.recorded_loopHead _ _)
    obtain ⟨-, hp, hlt⟩ := hrel d pos hx
    omega
  | release _ htx =>
    refine .offer rfl rfl rfl (fun x _ hx => ?_) (fun x _ _ hx => (hatt x hx).elim)
      (fun d pos x _ hx hr => ?_) trivial
    · exact hx.elim (fun h => .inl (List.mem_append_left _ h)) fun h => .inr (.inl h)
    · rcases releases_next htx hx (hrel d pos hr) with rfl | hr
      · exact .inr (.inl (List.mem_append_right _ (List.mem_singleton_self x)))
      · exact .inl hr
  | releasePrio _ htx =>
    refine .offer rfl rfl rfl (fun x _ hx => ?_) (fun x _ _ hx => (hatt x hx).elim)
      (fun d pos x _ hx hr => ?_) trivial
    · exact hx.elim .inl fun h => .inr (.inl (List.mem_append_left _ h))
    · rcases releases_next htx hx (hrel d pos hr) with rfl | hr
      · exact .inr (.inr (.inl (List.mem_append_right _ (List.mem_singleton_self x))))
      · exact .inl hr
  | releaseTake _ htx =>
    exact transfers_recv rfl rfl rfl (fun x hx => .inr hx) (fun x hx => hatt x hx)
      (fun d pos x hx hr => releases_next htx hx (hrel d pos hr))
  | prologueClaim =>
    refine .inert (hinert (fun _ h => h) fun _ _ h => h) rfl rfl rfl rfl rfl ?_
    dsimp only
    split
    · trivial
    · exact job.recorded_loopHead _ _
  | _ => exact .inert (hinert (fun _ h => h) fun _ _ h => h) rfl rfl rfl rfl rfl trivial

theorem deliveryInvariant_new : (new job : State K P E m).DeliveryInvariant job where
  delivered := by
    intro x hx _
    rcases (Plan.new_places job.plan_new hx).2 with h | h | ⟨d, hd, h⟩
    · exact .inl h
    · exact .inr (.inl h)
    · obtain ⟨pos, hpos⟩ := List.mem_iff_getElem?.mp h
      refine .inr (.inr (.inr ⟨d, hd, pos, hpos, .inl ?_⟩))
      simp [executedOrCommitted, new, Scheduler.new, ExecutionStatus.isExecuted]
  recorded := fun _ => trivial

end State

/-- In every reachable state of any number of workers, each transaction of the block that is
ready to execute is in one of the two channels, or with a worker that has not finished its
attempt to incarnate it, or recorded with a transaction of the block that is neither executed
nor committed or whose `finish_execution` has not passed the record. -/
theorem State.Reachable.ready_delivered [DecidableEq K] {job : Job K P E} {s : State K P E m}
    (hs : State.Reachable job s) {x : TxnIndex} (hx : x < job.numTxns) (hr : s.Ready x) :
    s.Delivered job x := by
  have hinv : s.DeliveryInvariant job := InterleavedRuns.Reachable.invariant
    State.deliveryInvariant_new
    (fun _ _ _ _ ht _ h => (State.transfers_step ht h).invariant ht) hs
  exact hinv.delivered x hx hr

/-- The chain with the hints that each transaction follows its predecessor. -/
def hintedBlock : Job ℕ Unit Unit :=
  { StatusMachine.chainBlock with
    dependencies := [[], [0], [1]]
    plan := (Plan.new 3 [[], [0], [1]] [1, 1, 1]).get rfl
    plan_new := rfl }

/-- Transaction 0 has just become executed, and only the loop of its `finish_execution` still
knows transaction 1. -/
theorem ready_delivered_hintedBlock :
    ∃ s : State ℕ Unit Unit 2, State.Reachable hintedBlock s ∧
      s.executedOrCommitted hintedBlock 0 = true ∧ s.sched.channels ++ s.sched.priochannels = [] ∧
      s.Ready 1 ∧ s.Delivered hintedBlock 1 := by
  obtain ⟨s, hr, hexecuted, hchannels, hready⟩ : ∃ s : State ℕ Unit Unit 2,
      State.Reachable hintedBlock s ∧ s.executedOrCommitted hintedBlock 0 = true ∧
        s.sched.channels ++ s.sched.priochannels = [] ∧
        s.sched.txnStatus 1 = .readyToExecute 0 none :=
    State.Reachable.of_schedule (StatusMachine.turns [(0, 15)]) (by decide +kernel)
  exact ⟨s, hr, hexecuted, hchannels, ⟨0, none, hready⟩,
    hr.ready_delivered (by decide) ⟨0, none, hready⟩⟩

end Anthemius
