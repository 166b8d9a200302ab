import Anthemius.ExecutionMirror
import Anthemius.StatusMachine
import Mathlib.Data.Fin.VecNotation

/-!
# Waiting for an estimate

A read that hits an estimate is repeated until the transaction that left the estimate has
been executed again. All workers can end up in such reads while that transaction sits in a
channel: `finish_abort` gives up on it when a transaction of its hints is not executed, and
hands it over to a list that only feeds the channels. As long as the worker that aborts a
transaction also starts its next incarnation, somebody is always at work.
-/
namespace Anthemius
open InterleavedRuns StatusMachine

variable {K P E : Type} {m : ℕ}

namespace Pc

/-- The transaction and the key of the read that the worker is in. -/
def reading : Pc K P E → Option (TxnIndex × K)
  | .execute v (.running (.readKey key _) _) | .execute v (.waiting (.readKey key _) _ _) =>
    some (v.1, key)
  | .prologue i (.readKey key _) | .prologueWait i (.readKey key _) _ => some (i, key)
  | _ => none

/-- The transaction that the worker executes. -/
def executing : Pc K P E → Option TxnIndex
  | .execute v _ => some v.1
  | _ => none

/-- A worker inside a read executes a transaction or checks its prologue. -/
theorem role_of_reading (job : Job K P E) {pc : Pc K P E} {i : TxnIndex} {key : K}
    (h : pc.reading = some (i, key)) : pc.role job = .idle ∨
      ∃ v phase, pc.role job = .executing v phase ∧ pc.executing = some v.1 := by
  cases pc with
  | execute v phase =>
    right
    cases phase with
    | waiting program reads dep => exact ⟨v, _, rfl, rfl⟩
    | _ => exact ⟨v, _, rfl, rfl⟩
  | prologue | prologueWait => exact .inl rfl
  | _ => cases h

end Pc

namespace State

/-- The read that the worker is in hits an estimate of `d`. -/
def WaitsFor (s : State K P E m) (w : Fin m) (d : TxnIndex) : Prop :=
  ∃ i key, (s.workers w).pc.reading = some (i, key) ∧
    s.mv.read key i = some (.error (.dependency d))

/-- Every worker waits for a transaction that no worker executes. -/
def Deadlocked (s : State K P E m) : Prop :=
  ∀ w, ∃ d, s.WaitsFor w d ∧ ∀ u, (s.workers u).pc.executing ≠ some d

end State

/-! ## Nothing leaves a deadlock -/

section Stable
variable [DecidableEq K] {job : Job K P E} {s s' : State K P E m} {l : Fin m × ℕ}

theorem State.WaitsFor.step {d : TxnIndex} (h : s.WaitsFor l.1 d)
    (hs : State.step job l s = some s') : s'.mv = s.mv ∧ ∀ u,
      (s'.workers u).pc.reading = (s.workers u).pc.reading ∧
      (s'.workers u).pc.executing = (s.workers u).pc.executing := by
  obtain ⟨i, key, hr, hread⟩ := h
  have hvalue : s.mv.getStateValue job.base key i = some (.error d) := by
    simp [MVHashMap.getStateValue, hread, captureRead]
  have hmove {t : State K P E m} {pc : Pc K P E} (hw : t.workers = s.workers)
      (h₁ : pc.reading = (s.workers l.1).pc.reading)
      (h₂ : pc.executing = (s.workers l.1).pc.executing) (u : Fin m) :
      ((t.move l.1 pc).workers u).pc.reading = (s.workers u).pc.reading ∧
      ((t.move l.1 pc).workers u).pc.executing = (s.workers u).pc.executing := by
    by_cases hu : u = l.1
    · subst hu
      simp [State.move, State.setWorker, h₁, h₂]
    · simp [State.move, State.setWorker, Function.update_of_ne hu, hw]
  cases hpc : (s.workers l.1).pc with
  | execute v phase =>
    simp only [State.step, hpc] at hs
    rw [hpc] at hr
    cases phase with
    | running program reads =>
      cases program with
      | finished => cases hr
      | readKey key' next =>
        cases hr
        simp only [State.stepExecute, hvalue, Option.map_some, Option.some.injEq] at hs
        subst hs
        exact ⟨rfl, hmove rfl (by rw [hpc]; rfl) (by rw [hpc]; rfl)⟩
    | waiting program reads dep =>
      cases hs
      refine ⟨rfl, hmove rfl ?_ (by rw [hpc]; rfl)⟩
      rw [hpc]
      cases program <;> rfl
    | _ => cases hr
  | prologue j program =>
    simp only [State.step, hpc] at hs
    rw [hpc] at hr
    cases program with
    | finished => cases hr
    | readKey key' next =>
      cases hr
      simp only [State.stepPrologue, hvalue, Option.map_some, Option.some.injEq] at hs
      subst hs
      exact ⟨rfl, hmove rfl (by rw [hpc]; rfl) (by rw [hpc]; rfl)⟩
  | prologueWait j program dep =>
    simp only [State.step, hpc, Option.some.injEq] at hs
    subst hs
    refine ⟨rfl, hmove rfl ?_ (by rw [hpc]; rfl)⟩
    rw [hpc]
    cases program <;> rfl
  | _ =>
    rw [hpc] at hr
    cases hr

theorem State.Deadlocked.follow (h : s.Deadlocked) (ls : List (Fin m × ℕ))
    (hs : InterleavedRuns.follow (State.step job) ls s = some s') : s'.Deadlocked := by
  induction ls generalizing s with
  | nil =>
    cases hs
    exact h
  | cons l ls ih =>
    obtain ⟨t, ht, hs⟩ := Option.bind_eq_some_iff.mp hs
    refine ih (fun w => ?_) hs
    obtain ⟨d₀, hwait, -⟩ := h l.1
    obtain ⟨hmv, hpcs⟩ := hwait.step ht
    obtain ⟨d, ⟨i, key, hr, hread⟩, hnone⟩ := h w
    exact ⟨d, ⟨i, key, (hpcs w).1.trans hr, by rwa [hmv]⟩,
      fun u hu => hnone u ((hpcs u).2.symm.trans hu)⟩

end Stable

/-! ## Aborted transactions under steadfast aborts -/

/-- The worker aborted the transaction and is about to start its next incarnation. -/
def Role.Recovers (i : TxnIndex) : Role K P E → Prop
  | .lowering j | .storing j _ | .retrying j => j = i
  | .attempting v _ true => v.1 = i
  | _ => False

namespace Speculation
open ExecutionStatus

/-- An aborted transaction is not ready without a worker. -/
def RecoveryInvariant (s : Speculation K P E m) : Prop :=
  ∀ i inc condvar, s.status i = .readyToExecute (inc + 1) condvar → ∃ u, (s.role u).Recovers i

variable [DecidableEq K] {job : Job K P E} {d : Discipline} {w : Fin m} {s s' : Speculation K P E m}

theorem recovers_step (hd : d.steadfastAborts) (hs : Step job d w s s') {i : TxnIndex}
    {inc : Incarnation} {condvar : Option DependencyCondvar}
    (hst : s'.status i = .readyToExecute inc condvar) (hsame : s'.status i = s.status i)
    (hw : (s.role w).Recovers i) : (s'.role w).Recovers i := by
  cases hs with
  | unlock hr => rcases hr with hr | ⟨j, hr⟩ <;> rw [hr] at hw <;> exact hw.elim
  | lower hr | pass hr | store hr | retry hr =>
    rw [hr] at hw
    simpa [turn, Role.Recovers] using hw
  | miss hr hne =>
    rw [hr] at hw
    obtain rfl : _ = i := hw
    exact absurd (hsame.symm.trans hst) (hne inc condvar)
  | giveUp hr hsteady =>
    rw [hr, hsteady hd] at hw
    exact hw.elim
  | @incarnate v cv retry hr =>
    have hvi : v.1 = i := by
      rw [hr] at hw
      cases retry with
      | true => exact hw
      | false => exact hw.elim
    simp [turn, record, setStatus, hvi] at hst
  | advance | commit => exact hw
  | _ hr =>
    rw [hr] at hw
    exact hw.elim

theorem recoveryInvariant_step (hd : d.steadfastAborts) (hi : StatusInvariant job s)
    (h : RecoveryInvariant s) (hs : Step job d w s s') : RecoveryInvariant s' := by
  intro i inc condvar hst
  rcases status_arrow hi.owns hs i with hsame | harrow
  · obtain ⟨u, hu⟩ := h i inc condvar (hsame ▸ hst)
    by_cases huw : u = w
    · exact ⟨w, recovers_step hd hs hst hsame (huw ▸ hu)⟩
    · exact ⟨u, by rwa [role_of_ne hs huw]⟩
  · -- only the end of an abort makes a transaction ready
    cases hs with
    | @reset v hr =>
      by_cases hvi : i = v.1
      · exact ⟨w, by simp [turn, hvi, Role.Recovers]⟩
      · simp only [turn, setStatus, Function.update_of_ne hvi] at harrow
        exact absurd rfl harrow.rank_lt.ne
    | abort | incarnate | executed | commit =>
      simp only [turn, record, setStatus, Function.update_apply] at hst harrow
      split at hst
      · cases hst
      · rename_i hne
        rw [if_neg hne] at harrow
        exact absurd rfl harrow.rank_lt.ne
    | _ => exact absurd rfl harrow.rank_lt.ne

theorem Reachable.recoveryInvariant (hd : d.steadfastAborts) (hr : Reachable job d s) :
    RecoveryInvariant s :=
  InterleavedRuns.invariant_of_step (fun _ _ _ h => by cases h)
    (fun _ _ ht h ⟨_, hs⟩ => recoveryInvariant_step hd (Reachable.statusInvariant ht) h hs) hr

/-- Whoever left an estimate is being executed or aborted, or about to be executed again. -/
theorem estimate_staffed (hr : Reachable job d s) (hd : d.steadfastAborts) {key : K}
    {i : TxnIndex} {cell : EntryCell} (he : s.mv.entry key i = some ⟨.estimate, cell⟩) :
    ∃ u, (s.role u).Recovers i ∨ ∃ st, (s.role u).owned = some (i, st) ∧ st.Active := by
  obtain ⟨outcomes, hmirror⟩ := hr.mirrorInvariant
  have hi := hr.statusInvariant
  have hcol := hmirror.mirrored i
  have hactive (ha : (s.status i).Active) : ∃ u, (s.role u).Recovers i ∨
      ∃ st, (s.role u).owned = some (i, st) ∧ st.Active := by
    obtain ⟨u, hu⟩ := hi.staffed i ha
    exact ⟨u, .inr ⟨_, hu, ha⟩⟩
  unfold Mirrored at hcol
  cases hst : s.status i with
  | readyToExecute inc condvar =>
    simp only [hst] at hcol
    cases inc with
    | zero =>
      have := hcol.shows key
      simp [columnOf, he, previousUpdates] at this
    | succ inc =>
      obtain ⟨u, hu⟩ := hr.recoveryInvariant hd i inc condvar hst
      exact ⟨u, .inl hu⟩
  | executing inc => exact hactive (by rw [hst]; trivial)
  | suspended inc condvar => exact absurd hst (hi.commit.not_suspended i inc condvar)
  | executed inc | committed inc =>
    simp only [hst] at hcol
    obtain ⟨status, reads, hset, -, -⟩ := hcol
    have := hset.entries_eq key
    simp only [columnOf, he] at this
    obtain ⟨cell', -, hc⟩ := Option.map_eq_some_iff.mp this.symm
    cases hc
  | aborting inc => exact hactive (by rw [hst]; trivial)

end Speculation

/-! ## No deadlock -/

/-- In a run in which every abort starts the next incarnation itself, the workers never all
wait for transactions that nobody executes. -/
theorem State.not_deadlocked_of_steadfastAborts [DecidableEq K] {job : Job K P E}
    {s : State K P E m} (hm : 0 < m) (hs : State.Reached job (SteadfastAborts job) s) :
    ¬ s.Deadlocked := by
  intro hdead
  have hr : Speculation.Reachable job ⟨False, True, False⟩ (s.speculation job) :=
    State.Reached.speculation (fun h => h.elim) (fun _ _ _ h => h) (fun h => h.elim) hs
  obtain ⟨d, ⟨i, key, -, hread⟩, hnone⟩ := hdead ⟨0, hm⟩
  obtain ⟨-, cell, he⟩ := MVHashMap.readBelow_dependency i none hread
  obtain ⟨u, hu⟩ := Speculation.estimate_staffed hr trivial he
  -- that worker is inside a read as well
  obtain ⟨d', ⟨i', key', hu', -⟩, -⟩ := hdead u
  rcases Pc.role_of_reading job hu' with hidle | ⟨v, phase, hrole, hexec⟩
  · rcases hu with hu | ⟨st, hu, -⟩ <;>
      simp [State.speculation, hidle, Role.Recovers, Role.owned] at hu
  · rcases hu with hu | ⟨st, hu, -⟩
    · simp [State.speculation, hrole, Role.Recovers] at hu
    · simp only [State.speculation, hrole, Role.owned, Option.some.injEq, Prod.mk.injEq] at hu
      exact hnone u (hu.1 ▸ hexec)

/-- Transactions 0, 1 and 2 write keys 0, 1 and 2, transaction 1 after a read of key 0 and
transaction 2 after a read of key 1; the last three only read key 2. -/
def relayProgram : TxnIndex → Program ℕ (TxnStatus ℕ Unit Unit)
  | 0 => .finished (.success (.ofWrite (some (0, .modification [1])) ()))
  | 1 => .readKey 0 fun _ => .finished (.success (.ofWrite (some (1, .modification [1])) ()))
  | 2 => .readKey 1 fun _ => .finished (.success (.ofWrite (some (2, .modification [1])) ()))
  | 3 => .finished (.success (.ofWrite none ()))
  | _ => .readKey 2 fun _ => .finished (.success (.ofWrite none ()))

/-- The hints let transaction 2 follow 1 and the last three follow 3. -/
def relayBlock : Job ℕ Unit Unit where
  numTxns := 7
  numTxns_lt := by decide
  program := relayProgram
  prologue := fun _ => .finished true
  prologueMap := fun _ => false
  base := fun _ => none
  mode := .standard
  dependencies := [[], [], [1], [], [3], [3], [3]]
  gasEstimates := [1, 1, 1, 1, 1, 1, 1]
  plan := (Plan.new 7 [[], [], [1], [], [3], [3], [3]] [1, 1, 1, 1, 1, 1, 1]).get rfl
  plan_new := rfl

/-- Worker 0 waits for transaction 1, which worker 2 aborted and executes again. -/
theorem not_deadlocked_relayBlock : ∃ s : State ℕ Unit Unit 3,
    State.Reached relayBlock (SteadfastAborts relayBlock) s ∧ s.WaitsFor 0 1 ∧ ¬ s.Deadlocked := by
  obtain ⟨s, hr, h⟩ : ∃ s : State ℕ Unit Unit 3,
      State.Reached relayBlock (SteadfastAborts relayBlock) s ∧
        (s.workers 0).pc.reading = some (2, 1) ∧ s.mv.read 1 2 = some (.error (.dependency 1)) :=
    State.Reached.of_schedule (turns [(0, 7), (1, 8), (2, 8), (0, 20), (2, 37), (0, 1)])
      (by decide +kernel) (by decide +kernel)
  exact ⟨s, hr, ⟨2, 1, h⟩, State.not_deadlocked_of_steadfastAborts (by decide) hr⟩

/-- Worker 2 executes transaction 1 again when worker 0 aborts transaction 2 and gives it up
for its hint. Before transaction 1 is done, the end of transaction 3 fills the channel with
the last three, and each worker takes one of them and waits for transaction 2, which is in
the channel behind them. No step gets them out of it. -/
theorem deadlocked_relayBlock : ∃ s : State ℕ Unit Unit 3, State.Reachable relayBlock s ∧
    s.sched.txnStatus 2 = .readyToExecute 1 none ∧ 2 ∈ s.sched.channels ∧ s.Deadlocked ∧
    ∀ ls s', follow (State.step relayBlock) ls s = some s' → s'.Deadlocked := by
  let reader : Fin 3 → TxnIndex := ![5, 4, 6]
  obtain ⟨s, hr, hst, hch, hw⟩ : ∃ s : State ℕ Unit Unit 3, State.Reachable relayBlock s ∧
      s.sched.txnStatus 2 = .readyToExecute 1 none ∧ 2 ∈ s.sched.channels ∧
        ∀ w, (s.workers w).pc.reading = some (reader w, 2) ∧
          (s.workers w).pc.executing = some (reader w) ∧
          s.mv.read 2 (reader w) = some (.error (.dependency 2)) :=
    State.Reachable.of_schedule (turns [(0, 7), (1, 8), (2, 8), (0, 33), (2, 25), (0, 6), (2, 12),
      (0, 16), (1, 16), (0, 8), (2, 20)]) (by decide +kernel)
  have hdead : s.Deadlocked := by
    intro w
    refine ⟨2, ⟨reader w, 2, (hw w).1, (hw w).2.2⟩, fun u hu => ?_⟩
    have hne : ∀ u, reader u ≠ 2 := by decide
    exact hne u (Option.some_inj.mp ((hw u).2.1.symm.trans hu))
  exact ⟨s, hr, hst, hch, hdead, fun ls _ h => hdead.follow ls h⟩

end Anthemius
