import Anthemius.SpeculationProtocol

/-! Who may change a status cell, and how it changes. Every status cell that is locked, being
executed or being aborted has exactly one worker in charge, and a step moves a status only
along the arrows of the transition diagram, each of which raises its rank. -/
namespace Anthemius

variable {K P E : Type} {m : ℕ}

namespace ExecutionStatus

/-- The position of a status on the path of its transaction through all incarnations. -/
def rank : ExecutionStatus → ℕ
  | .readyToExecute inc _ => 4 * inc
  | .executing inc | .suspended inc _ => 4 * inc + 1
  | .executed inc => 4 * inc + 2
  | .committed inc | .aborting inc => 4 * inc + 3

/-- The arrows of the transition diagram. -/
inductive Arrow : ExecutionStatus → ExecutionStatus → Prop
  | incarnate (inc condvar) : Arrow (.readyToExecute inc condvar) (.executing inc)
  | execute (inc) : Arrow (.executing inc) (.executed inc)
  | abort (inc) : Arrow (.executed inc) (.aborting inc)
  | reset (inc) : Arrow (.aborting inc) (.readyToExecute (inc + 1) none)
  | commit (inc) : Arrow (.executed inc) (.committed inc)

theorem Arrow.rank_lt {a b : ExecutionStatus} (h : Arrow a b) : a.rank < b.rank := by
  cases h <;> simp only [rank] <;> omega

/-- Some worker has to be at work on a transaction with such a status. -/
def Active : ExecutionStatus → Prop
  | .executing _ | .aborting _ => True
  | _ => False

/-- The transaction has an output that nobody is replacing. -/
def Settled : ExecutionStatus → Prop
  | .executed _ | .committed _ => True
  | _ => False

end ExecutionStatus

namespace Role

theorem owned_not_settled {r : Role K P E} {i : TxnIndex} {st : ExecutionStatus}
    (h : r.owned = some (i, st)) : ¬ st.Settled := by
  cases r <;> simp only [owned, Option.some.injEq, Prod.mk.injEq, reduceCtorEq] at h <;>
    simp [← h.2, ExecutionStatus.Settled]

theorem attempts_of_owned {r : Role K P E} {i : TxnIndex} {inc condvar}
    (h : r.owned = some (i, .readyToExecute inc condvar)) : r.Attempts i := by
  cases r <;> simp_all [owned, Attempts]

/-- The worker is in its loop and every transaction its role mentions is one of the block. -/
def Within (n : ℕ) : Role K P E → Prop
  | .idle | .loading => True
  | .stranded => False
  | .loaded i | .peeked i _ | .lowering i | .storing i _ | .retrying i => i < n
  | .attempting v _ _ | .executing v _ | .validating v _ _ | .rejecting v _ | .accepting v _
  | .aborting v _ => v.1 < n

end Role

/-- Every owned status cell has the value its owner expects, and one owner. -/
structure Owns (status : TxnIndex → ExecutionStatus) (role : Fin m → Role K P E) : Prop where
  status_eq : ∀ {w i st}, (role w).owned = some (i, st) → status i = st
  unique : ∀ {w u i st st'}, (role w).owned = some (i, st) → (role u).owned = some (i, st') → w = u

namespace Owns
variable {status : TxnIndex → ExecutionStatus} {role : Fin m → Role K P E} {w : Fin m}
  {r : Role K P E} {i : TxnIndex}

/-- A worker takes, keeps or drops the cell of `i` while nobody else has it. -/
theorem update (h : Owns status role) (st : ExecutionStatus)
    (hfree : ∀ u st', u ≠ w → (role u).owned ≠ some (i, st'))
    (hr : ∀ j st', r.owned = some (j, st') → j = i ∧ st' = st) :
    Owns (Function.update status i st) (Function.update role w r) where
  status_eq := by
    intro u j st' hu
    rw [Function.update_apply] at hu
    split_ifs at hu with hw
    · obtain ⟨rfl, rfl⟩ := hr _ _ hu
      exact Function.update_self ..
    · have hj : j ≠ i := fun hj => hfree u st' hw (hj ▸ hu)
      rw [Function.update_of_ne hj]
      exact h.status_eq hu
  unique := by
    intro u u' j st₁ st₂ h₁ h₂
    by_cases hu : u = w <;> by_cases hu' : u' = w
    · rw [hu, hu']
    · subst hu
      rw [Function.update_self] at h₁
      rw [Function.update_of_ne hu', (hr _ _ h₁).1] at h₂
      exact absurd h₂ (hfree u' st₂ hu')
    · subst hu'
      rw [Function.update_self] at h₂
      rw [Function.update_of_ne hu, (hr _ _ h₂).1] at h₁
      exact absurd h₁ (hfree u st₁ hu)
    · rw [Function.update_of_ne hu] at h₁
      rw [Function.update_of_ne hu'] at h₂
      exact h.unique h₁ h₂

/-- A worker takes a cell that nobody has. -/
theorem take (h : Owns status role)
    (hfree : ∀ u st', u ≠ w → (role u).owned ≠ some (i, st'))
    (hr : r.owned = some (i, status i)) : Owns status (Function.update role w r) := by
  have := h.update (r := r) (status i) hfree fun j st' hj => by
    rw [hr] at hj; cases hj; exact ⟨rfl, rfl⟩
  rwa [Function.update_eq_self] at this

theorem free_of_owner (h : Owns status role) {st : ExecutionStatus}
    (hw : (role w).owned = some (i, st)) :
    ∀ u st', u ≠ w → (role u).owned ≠ some (i, st') :=
  fun _ _ hne hu => hne (h.unique hu hw)

theorem free_of_settled (h : Owns status role) (hi : (status i).Settled) :
    ∀ u st', u ≠ w → (role u).owned ≠ some (i, st') :=
  fun _ _ _ hu => Role.owned_not_settled hu (h.status_eq hu ▸ hi)

theorem free_of_ready (h : Owns status role) {inc condvar}
    (hi : status i = .readyToExecute inc condvar) (hfree : ∀ u, ¬ (role u).Attempts i) :
    ∀ u st', u ≠ w → (role u).owned ≠ some (i, st') :=
  fun u _ _ hu => hfree u (Role.attempts_of_owned (hi ▸ h.status_eq hu ▸ hu))

/-- The cell of a settled transaction has no owner, so it may change. -/
theorem set_of_settled (h : Owns status role) (st : ExecutionStatus) (hi : (status i).Settled) :
    Owns (Function.update status i st) role where
  status_eq := by
    intro u j st' hu
    have hj : j ≠ i := by
      rintro rfl
      exact Role.owned_not_settled hu (h.status_eq hu ▸ hi)
    rw [Function.update_of_ne hj]
    exact h.status_eq hu
  unique := h.unique

/-- The status cells do not change and the worker keeps what it has, or drops it. -/
theorem turn (h : Owns status role) (hr : r.owned = none ∨ r.owned = (role w).owned) :
    Owns status (Function.update role w r) := by
  rcases hr with hr | hr
  · refine ⟨fun {u j st} hu => ?_, fun {u u' j st₁ st₂} h₁ h₂ => ?_⟩
    · rw [Function.update_apply] at hu
      split at hu
      · rw [hr] at hu; cases hu
      · exact h.status_eq hu
    · rw [Function.update_apply] at h₁ h₂
      split at h₁
      · rw [hr] at h₁; cases h₁
      · split at h₂
        · rw [hr] at h₂; cases h₂
        · exact h.unique h₁ h₂
  · have key : ∀ u, (Function.update role w r u).owned = (role u).owned := by
      intro u
      by_cases hu : u = w
      · subst hu; rw [Function.update_self, hr]
      · rw [Function.update_of_ne hu]
    exact ⟨fun hu => h.status_eq (key _ ▸ hu), fun h₁ h₂ => h.unique (key _ ▸ h₁) (key _ ▸ h₂)⟩

end Owns

variable [DecidableEq K] {job : Job K P E} {d : Discipline} {w : Fin m} {s s' : Speculation K P E m}

namespace Speculation
open ExecutionStatus

omit [DecidableEq K] in
theorem owns_new : Owns (new : Speculation K P E m).status (new : Speculation K P E m).role :=
  ⟨nofun, nofun⟩

theorem owns_step (h : Owns s.status s.role) (hs : Step job d w s s') : Owns s'.status s'.role := by
  cases hs with
  | lock hw | unlock hw | load hw | peek hw | claim hw | loadReads hw | check hw | reject hw
  | accept hw | keep hw | finish hw | lower hw | pass hw | store hw | miss hw | giveUp hw =>
    exact h.turn (.inl rfl)
  | loadModified hw | mark hw | marked hw | hold hw | compute hw =>
    exact h.turn (.inr (by rw [hw]; rfl))
  | advance => exact h
  | abort hw hst =>
    exact h.update _ (h.free_of_settled (by rw [hst]; trivial)) fun j st' hj => by
      cases hj; exact ⟨rfl, rfl⟩
  | reset hw =>
    exact h.update _ (h.free_of_owner (by rw [hw]; rfl)) fun j st' hj => by cases hj
  | executed hw =>
    exact h.update _ (h.free_of_owner (by rw [hw]; rfl)) fun j st' hj => by cases hj
  | incarnate hw =>
    exact h.update _ (h.free_of_owner (by rw [hw]; rfl)) fun j st' hj => by
      cases hj; exact ⟨rfl, rfl⟩
  | attempt hw hi hst hfree => exact h.take (h.free_of_ready hst hfree) (by rw [hst]; rfl)
  | retry hw hst hfree => exact h.take (h.free_of_ready hst hfree) (by rw [hst]; rfl)
  | commit hn hst hfree hv hwave => exact h.set_of_settled _ (by rw [hst]; trivial)

private theorem arrow_update {status : TxnIndex → ExecutionStatus} {k : TxnIndex}
    {st : ExecutionStatus} (h : Arrow (status k) st) (i : TxnIndex) :
    Function.update status k st i = status i ∨
      Arrow (status i) (Function.update status k st i) := by
  by_cases hi : i = k
  · subst hi
    rw [Function.update_self]
    exact .inr h
  · exact .inl (Function.update_of_ne hi ..)

/-- A step moves a status along an arrow or not at all. -/
theorem status_arrow (h : Owns s.status s.role) (hs : Step job d w s s') (i : TxnIndex) :
    s'.status i = s.status i ∨ Arrow (s.status i) (s'.status i) := by
  cases hs with
  | abort hw hst => exact arrow_update (by rw [hst]; exact .abort _) i
  | commit hn hst => exact arrow_update (by rw [hst]; exact .commit _) i
  | reset hw => exact arrow_update (by rw [h.status_eq (by rw [hw]; rfl)]; exact .reset _) i
  | incarnate hw =>
    exact arrow_update (by rw [h.status_eq (by rw [hw]; rfl)]; exact .incarnate _ _) i
  | executed hw => exact arrow_update (by rw [h.status_eq (by rw [hw]; rfl)]; exact .execute _) i
  | _ => exact .inl rfl

theorem rank_mono (h : Owns s.status s.role) (hs : Step job d w s s') (i : TxnIndex) :
    (s.status i).rank ≤ (s'.status i).rank := by
  rcases status_arrow h hs i with he | ha
  · rw [he]
  · exact ha.rank_lt.le

theorem committed_stable (h : Owns s.status s.role) (hs : Step job d w s s') {i inc}
    (hi : s.status i = .committed inc) : s'.status i = .committed inc := by
  rcases status_arrow h hs i with he | ha
  · rw [he, hi]
  · rw [hi] at ha; cases ha

/-! ## Active transactions have a worker -/

def Staffed (status : TxnIndex → ExecutionStatus) (role : Fin m → Role K P E) : Prop :=
  ∀ i, (status i).Active → ∃ w, (role w).owned = some (i, status i)

section Staffed
variable {status : TxnIndex → ExecutionStatus} {role : Fin m → Role K P E} {r : Role K P E}
  {i : TxnIndex}

omit [DecidableEq K] in
theorem Staffed.turn (h : Staffed status role)
    (hr : r.owned = (role w).owned ∨ ∀ j st, (role w).owned = some (j, st) → ¬ st.Active) :
    Staffed status (Function.update role w r) := by
  intro j hj
  obtain ⟨u, hu⟩ := h j hj
  by_cases huw : u = w
  · subst huw
    rcases hr with hr | hr
    · exact ⟨u, by rw [Function.update_self, hr, hu]⟩
    · exact absurd hj (hr j _ hu)
  · exact ⟨u, by rw [Function.update_of_ne huw, hu]⟩

omit [DecidableEq K] in
theorem Staffed.update (h : Staffed status role) {st : ExecutionStatus}
    (hr : st.Active → r.owned = some (i, st))
    (hw : ∀ j st', (role w).owned = some (j, st') → j = i) :
    Staffed (Function.update status i st) (Function.update role w r) := by
  intro j hj
  by_cases hji : j = i
  · subst hji
    rw [Function.update_self] at hj ⊢
    exact ⟨w, by rw [Function.update_self, hr hj]⟩
  · rw [Function.update_of_ne hji] at hj ⊢
    obtain ⟨u, hu⟩ := h j hj
    have huw : u ≠ w := by
      rintro rfl
      exact hji (hw _ _ hu)
    exact ⟨u, by rw [Function.update_of_ne huw, hu]⟩

end Staffed

theorem staffed_step (h : Staffed s.status s.role) (hs : Step job d w s s') :
    Staffed s'.status s'.role := by
  cases hs with
  | unlock hw =>
    refine h.turn (.inl ?_)
    rcases hw with hw | ⟨i, hw⟩ <;> rw [hw] <;> rfl
  | lock hw | load hw | peek hw | claim hw | loadReads hw | check hw | reject hw | accept hw
  | keep hw | finish hw | lower hw | pass hw | store hw | miss hw | loadModified hw | mark hw
  | marked hw | hold hw | compute hw =>
    exact h.turn (.inl (by rw [hw]; rfl))
  | attempt hw | retry hw => exact h.turn (.inr (by rw [hw]; nofun))
  | giveUp hw =>
    refine h.turn (.inr fun j st hj => ?_)
    rw [hw] at hj
    cases hj
    exact id
  | advance => exact h
  | abort hw => exact h.update (fun _ => rfl) (by rw [hw]; nofun)
  | reset hw => exact h.update nofun (by rw [hw]; rintro j st' ⟨⟩; rfl)
  | executed hw => exact h.update nofun (by rw [hw]; rintro j st' ⟨⟩; rfl)
  | incarnate hw => exact h.update (fun _ => rfl) (by rw [hw]; rintro j st' ⟨⟩; rfl)
  | commit hn hst =>
    intro j hj
    by_cases hji : j = s.commitState.1
    · subst hji
      simp [setStatus, record, Active] at hj
    · simp only [setStatus, record, Function.update_of_ne hji] at hj ⊢
      exact h j hj

/-! ## The validation index -/

theorem role_of_ne (hs : Step job d w s s') {u : Fin m} (hu : u ≠ w) : s'.role u = s.role u := by
  cases hs with
  | advance | commit => rfl
  | _ => exact Function.update_of_ne hu ..

/-- One worker at a time moves the index up, so an index seen under the lock is still an upper
bound when the worker claims. -/
structure IndexInvariant (job : Job K P E) (s : Speculation K P E m) : Prop where
  within : ∀ u, (s.role u).Within job.numTxns
  index_le : s.index ≤ job.numTxns
  valock_unique : ∀ {u u'}, (s.role u).HoldsValock → (s.role u').HoldsValock → u = u'
  index_le_seen : ∀ {u i}, (s.role u).seenIndex = some i → s.index ≤ i

omit [DecidableEq K] in
theorem indexInvariant_new : IndexInvariant job (new : Speculation K P E m) :=
  ⟨fun _ => trivial, Nat.zero_le _, nofun, nofun⟩

theorem within_step (h : IndexInvariant job s) (hs : Step job d w s s') (u : Fin m) :
    (s'.role u).Within job.numTxns := by
  by_cases hu : u = w
  · subst hu
    have hw := h.within u
    cases hs with
    | advance | commit => exact hw
    | lock | unlock | finish | miss | giveUp | executed => simp [turn, Role.Within]
    | claim hr =>
      rw [hr] at hw
      simpa [turn, Role.Within] using (h.index_le_seen (by rw [hr]; rfl)).trans_lt hw
    | load _ hi | attempt _ hi => simpa [turn, Role.Within] using hi
    | _ hr => rw [hr] at hw; simpa [turn, Role.Within] using hw
  · rw [role_of_ne hs hu]
    exact h.within u

theorem holdsValock_step (hs : Step job d w s s') :
    (s'.role w).HoldsValock → (s.role w).HoldsValock ∨ ∀ u, ¬ (s.role u).HoldsValock := by
  intro h
  cases hs with
  | lock hr hfree => exact .inr hfree
  | load hr | peek hr => exact .inl (by rw [hr]; trivial)
  | advance | commit => exact .inl h
  | _ => simp [turn, Role.HoldsValock] at h

theorem valock_step (h : IndexInvariant job s) (hs : Step job d w s s') {u u' : Fin m}
    (hu : (s'.role u).HoldsValock) (hu' : (s'.role u').HoldsValock) : u = u' := by
  by_cases h₁ : u = w <;> by_cases h₂ : u' = w
  · rw [h₁, h₂]
  · subst h₁
    rw [role_of_ne hs h₂] at hu'
    rcases holdsValock_step hs hu with hold | hfree
    · exact h.valock_unique hold hu'
    · exact absurd hu' (hfree u')
  · subst h₂
    rw [role_of_ne hs h₁] at hu
    rcases holdsValock_step hs hu' with hold | hfree
    · exact h.valock_unique hu hold
    · exact absurd hu (hfree u)
  · rw [role_of_ne hs h₁] at hu
    rw [role_of_ne hs h₂] at hu'
    exact h.valock_unique hu hu'

theorem index_le_seen_step (h : IndexInvariant job s) (hs : Step job d w s s') {u : Fin m}
    {i : TxnIndex} (hu : (s'.role u).seenIndex = some i) : s'.index ≤ i := by
  by_cases huw : u = w
  · subst huw
    cases hs with
    | load hr =>
      simp only [turn, Function.update_self, Role.seenIndex, Option.some.injEq] at hu
      exact hu ▸ le_rfl
    | peek hr =>
      refine h.index_le_seen (u := u) ?_
      rw [hr]
      simpa [turn, Role.seenIndex] using hu
    | advance | commit => exact h.index_le_seen hu
    | _ => simp [turn, Role.seenIndex] at hu
  · rw [role_of_ne hs huw] at hu
    have hi := h.index_le_seen hu
    cases hs with
    | claim hr =>
      refine absurd (h.valock_unique (u := u) ?_
        (show (s.role w).HoldsValock by rw [hr]; trivial)) huw
      cases hrole : s.role u <;> simp_all [Role.seenIndex, Role.HoldsValock]
    | lower hr hlt => exact hlt.le.trans hi
    | _ => exact hi

theorem indexInvariant_step (h : IndexInvariant job s) (hs : Step job d w s s') :
    IndexInvariant job s' where
  within := within_step h hs
  index_le := by
    cases hs with
    | claim hr =>
      have hw := h.within w
      rw [hr] at hw
      exact (h.index_le_seen (by rw [hr]; rfl)).trans_lt hw
    | lower hr hlt => exact hlt.le.trans h.index_le
    | _ => exact h.index_le
  valock_unique := valock_step h hs
  index_le_seen := index_le_seen_step h hs

theorem wave_mono (hb : d.boundedWaves) (hs : Step job d w s s') : s.wave ≤ s'.wave := by
  cases hs with
  | lower hr hlt hle hwave => exact (Nat.le_succ _).trans (hwave hb).ge
  | _ => exact le_rfl

/-! ## Commits and condition variables -/

structure CommitInvariant (job : Job K P E) (s : Speculation K P E m) : Prop where
  committed_iff : ∀ i, (∃ inc, s.status i = .committed inc) ↔ i < s.commitState.1
  commit_le : s.commitState.1 ≤ job.numTxns
  no_condvar : ∀ i inc condvar, s.status i = .readyToExecute inc condvar → condvar = none
  not_suspended : ∀ i inc condvar, s.status i ≠ .suspended inc condvar

omit [DecidableEq K] in
theorem commitInvariant_new : CommitInvariant job (new : Speculation K P E m) := by
  refine ⟨?_, Nat.zero_le _, ?_, nofun⟩
  · simp [new]
  · rintro i inc condvar ⟨⟩
    rfl

theorem commitState_step (hs : Step job d w s s') :
    s'.commitState.1 = s.commitState.1 ∧
      (∀ i inc, s'.status i = .committed inc → s.status i = .committed inc) ∨
      ∃ inc, s.commitState.1 < job.numTxns ∧ s.status s.commitState.1 = .executed inc ∧
        s'.commitState.1 = s.commitState.1 + 1 ∧
        s'.status = Function.update s.status s.commitState.1 (.committed inc) := by
  cases hs with
  | commit hn hst => exact .inr ⟨_, hn, hst, rfl, rfl⟩
  | abort | reset | incarnate | executed =>
    refine .inl ⟨rfl, fun i inc hi => ?_⟩
    simp only [turn, record, setStatus, Function.update_apply] at hi
    split at hi
    · cases hi
    · exact hi
  | _ => exact .inl ⟨rfl, fun _ _ hi => hi⟩

theorem commitInvariant_step (ho : Owns s.status s.role) (h : CommitInvariant job s)
    (hs : Step job d w s s') : CommitInvariant job s' where
  committed_iff := by
    intro i
    rcases commitState_step hs with ⟨hc, hst⟩ | ⟨inc, hn, hex, hc, hst⟩
    · rw [hc, ← h.committed_iff]
      exact ⟨fun ⟨inc, hi⟩ => ⟨inc, hst i inc hi⟩,
        fun ⟨inc, hi⟩ => ⟨inc, committed_stable ho hs hi⟩⟩
    · rw [hst, hc, Nat.lt_succ_iff_lt_or_eq, ← h.committed_iff, Function.update_apply]
      split
      · rename_i hi; simp [hi]
      · rename_i hi; simp [hi]
  commit_le := by
    rcases commitState_step hs with ⟨hc, -⟩ | ⟨inc, hn, -, hc, -⟩
    · exact hc ▸ h.commit_le
    · exact hc ▸ hn
  no_condvar := by
    intro i inc condvar hi
    rcases status_arrow ho hs i with he | ha
    · exact h.no_condvar i inc condvar (he ▸ hi)
    · rw [hi] at ha
      generalize s.status i = st at ha
      cases ha
      rfl
  not_suspended := by
    intro i inc condvar hi
    rcases status_arrow ho hs i with he | ha
    · exact h.not_suspended i inc condvar (he ▸ hi)
    · rw [hi] at ha
      generalize s.status i = st at ha
      cases ha

/-! ## Every version is handed out once and aborted once -/

/-- The versions handed out as execution tasks, the latest first. -/
def handedOut (history : List Event) : List Version :=
  history.filterMap fun
    | .incarnated v _ => some v
    | _ => none

def abortedVersions (history : List Event) : List Version :=
  history.filterMap fun
    | .aborted v => some v
    | _ => none

structure HistoryInvariant (s : Speculation K P E m) : Prop where
  handedOut_rank : ∀ v ∈ handedOut s.history, 4 * v.2 < (s.status v.1).rank
  handedOut_nodup : (handedOut s.history).Nodup
  aborted_rank : ∀ v ∈ abortedVersions s.history, 4 * v.2 + 2 < (s.status v.1).rank
  aborted_nodup : (abortedVersions s.history).Nodup

omit [DecidableEq K] in
theorem historyInvariant_new : HistoryInvariant (new : Speculation K P E m) :=
  ⟨nofun, List.nodup_nil, nofun, List.nodup_nil⟩

/-- The event lists grow only by a version whose transaction just moved past that point. -/
theorem events_step (ho : Owns s.status s.role) (hs : Step job d w s s') :
    (handedOut s'.history = handedOut s.history ∨
      ∃ v, handedOut s'.history = v :: handedOut s.history ∧ (s.status v.1).rank = 4 * v.2 ∧
        4 * v.2 < (s'.status v.1).rank) ∧
    (abortedVersions s'.history = abortedVersions s.history ∨
      ∃ v, abortedVersions s'.history = v :: abortedVersions s.history ∧
        (s.status v.1).rank = 4 * v.2 + 2 ∧ 4 * v.2 + 2 < (s'.status v.1).rank) := by
  cases hs with
  | @incarnate v _ _ hw =>
    refine ⟨.inr ⟨v, rfl, ?_, ?_⟩, .inl rfl⟩
    · rw [ho.status_eq (by rw [hw]; rfl), rank]
    · simp [turn, record, setStatus, rank]
  | @abort v _ hw hst =>
    refine ⟨.inl rfl, .inr ⟨v, rfl, ?_, ?_⟩⟩
    · rw [hst, rank]
    · simp [turn, record, setStatus, rank]
  | _ => exact ⟨.inl rfl, .inl rfl⟩

/-- A list of versions that lie below the rank of their transaction stays one without
repetition when a version is added at the moment its transaction passes it. -/
private theorem nodup_step {c : ℕ} {l l' : List Version}
    {status status' : TxnIndex → ExecutionStatus}
    (hmono : ∀ i, (status i).rank ≤ (status' i).rank)
    (hrank : ∀ v ∈ l, 4 * v.2 + c < (status v.1).rank) (hl : l.Nodup)
    (h : l' = l ∨ ∃ v, l' = v :: l ∧ (status v.1).rank = 4 * v.2 + c ∧
      4 * v.2 + c < (status' v.1).rank) :
    (∀ v ∈ l', 4 * v.2 + c < (status' v.1).rank) ∧ l'.Nodup := by
  rcases h with rfl | ⟨v, rfl, hv, hv'⟩
  · exact ⟨fun v hv => (hrank v hv).trans_le (hmono _), hl⟩
  · refine ⟨fun u hu => ?_, List.nodup_cons.mpr ⟨fun hm => ?_, hl⟩⟩
    · rcases List.mem_cons.mp hu with rfl | hu
      · exact hv'
      · exact (hrank u hu).trans_le (hmono _)
    · exact (hrank v hm).ne' hv

theorem historyInvariant_step (ho : Owns s.status s.role) (h : HistoryInvariant s)
    (hs : Step job d w s s') : HistoryInvariant s' := by
  obtain ⟨hout, habort⟩ := events_step ho hs
  have hmono := rank_mono ho hs
  obtain ⟨h₁, h₂⟩ := nodup_step (c := 0) hmono h.handedOut_rank h.handedOut_nodup hout
  obtain ⟨h₃, h₄⟩ := nodup_step (c := 2) hmono h.aborted_rank h.aborted_nodup habort
  exact ⟨h₁, h₂, h₃, h₄⟩

/-! ## All reachable states -/

structure StatusInvariant (job : Job K P E) (s : Speculation K P E m) : Prop where
  owns : Owns s.status s.role
  staffed : Staffed s.status s.role
  index : IndexInvariant job s
  commit : CommitInvariant job s
  history : HistoryInvariant s

omit [DecidableEq K] in
theorem statusInvariant_new : StatusInvariant job (new : Speculation K P E m) :=
  ⟨owns_new, nofun, indexInvariant_new, commitInvariant_new, historyInvariant_new⟩

theorem statusInvariant_step (h : StatusInvariant job s) (hs : Step job d w s s') :
    StatusInvariant job s' :=
  ⟨owns_step h.owns hs, staffed_step h.staffed hs, indexInvariant_step h.index hs,
    commitInvariant_step h.owns h.commit hs, historyInvariant_step h.owns h.history hs⟩

theorem Reachable.statusInvariant (hr : Reachable job d s) : StatusInvariant job s :=
  InterleavedRuns.invariant_of_step statusInvariant_new
    (fun _ _ _ h ⟨_, hs⟩ => statusInvariant_step h hs) hr

end Speculation
end Anthemius
