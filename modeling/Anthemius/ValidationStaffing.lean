import Anthemius.WorkerDuties
import Anthemius.StatusMachine

/-! Validation is never abandoned: a worker sets its flag only when the index has passed the
block, and only a worker that validates, whose flag is not set, can lower the index again. -/
namespace Anthemius

namespace Crew
variable {m n : ℕ} {mode : ExecutionMode} {w : Fin m} {c c' : Crew m}

structure FlagInvariant (n : ℕ) (c : Crew m) : Prop where
  validating : ∀ u, c.duty u = .validating → c.flag u = false
  leaving : ∀ u, c.duty u = .leaving → c.flag u = true
  staffed : c.index < n → ∃ u, c.flag u = false

/-- A worker that takes up a duty fitting its flag, while the others keep theirs. -/
theorem FlagInvariant.turn (h : FlagInvariant n c) (hflag : c'.flag = c.flag)
    (hduty : c'.duty = c.duty) {d : Duty} (hv : d = .validating → c.flag w = false)
    (hl : d = .leaving → c.flag w = true) (hs : c'.index < n → ∃ u, c.flag u = false) :
    FlagInvariant n (c'.turn w d) where
  validating u hu := by
    simp only [Crew.turn, hflag, hduty] at hu ⊢
    rw [Function.update_apply] at hu
    split_ifs at hu with huw
    · exact huw ▸ hv hu
    · exact h.validating u hu
  leaving u hu := by
    simp only [Crew.turn, hflag, hduty] at hu ⊢
    rw [Function.update_apply] at hu
    split_ifs at hu with huw
    · exact huw ▸ hl hu
    · exact h.leaving u hu
  staffed hi := by
    simp only [Crew.turn, hflag] at hi ⊢
    exact hs hi

theorem flagInvariant_step (h : FlagInvariant n c) (hs : Step n mode w c c') :
    FlagInvariant n c' := by
  have hidle {t : Crew m} (hflag : t.flag = c.flag) (hduty : t.duty = c.duty)
      (hs : t.index < n → ∃ u, c.flag u = false) : FlagInvariant n (t.turn w .idle) := by
    refine h.turn hflag hduty ?_ ?_ hs <;> intro h <;> cases h
  cases hs with
  | lock hd hf =>
    refine h.turn rfl rfl (fun _ => hf) ?_ h.staffed
    intro hl
    cases hl
  | release hd => exact hidle rfl rfl h.staffed
  | observe hd hi =>
    refine ⟨fun u hu => ?_, fun u hu => ?_, fun hlt => absurd hlt (not_lt.mpr hi)⟩
    · simp only [Crew.turn] at hu ⊢
      by_cases huw : u = w
      · subst huw
        rw [Function.update_self] at hu
        cases hu
      · rw [Function.update_of_ne huw] at hu ⊢
        exact h.validating u hu
    · simp only [Crew.turn] at hu ⊢
      by_cases huw : u = w
      · subst huw
        exact Function.update_self ..
      · rw [Function.update_of_ne huw] at hu ⊢
        exact h.leaving u hu
  | claim hd =>
    refine h.turn ?_ ?_ (fun _ => h.validating w hd) ?_ ?_
    · rfl
    · rfl
    · intro hl
      cases hl
    · exact fun hi => h.staffed (Nat.lt_of_succ_lt hi)
  | lower hd =>
    -- whoever lowers the index has not set its flag
    exact hidle rfl rfl fun _ => ⟨w, h.validating w hd⟩
  | sigClaim hd =>
    by_cases hn : c.sigValIdx ≤ n
    · rw [if_pos hn]
      refine h.turn ?_ ?_ ?_ ?_ h.staffed
      · rfl
      · rfl
      · intro hv
        cases hv
      · intro hl
        cases hl
    · rw [if_neg hn]
      exact hidle rfl rfl h.staffed
  | verify hd => exact hidle rfl rfl h.staffed
  | leave hd hf =>
    refine h.turn rfl rfl ?_ (fun _ => hf) h.staffed
    intro hv
    cases hv
  | mark hm => exact ⟨h.validating, h.leaving, h.staffed⟩

theorem flagInvariant_new (hm : 0 < m) : FlagInvariant n (new : Crew m) where
  validating _ _ := rfl
  leaving _ h := by cases h
  staffed _ := ⟨⟨0, hm⟩, rfl⟩

theorem Reachable.flagInvariant (hm : 0 < m) (hc : Reachable n mode c) : FlagInvariant n c := by
  refine InterleavedRuns.invariant_of_step (flagInvariant_new hm) ?_ hc
  rintro t t' - ht ⟨w, hs⟩
  exact flagInvariant_step ht hs

end Crew

variable {K P E : Type} {m : ℕ} [DecidableEq K]

/-- While the validation index is inside the block, some worker that has not left the loop
has not set its flag. -/
theorem State.validation_staffed {job : Job K P E} (hm : 0 < m) {s : State K P E m}
    (hs : State.Reachable job s)
    (hi : (unpackValidationIdx s.sched.validationIdx).1 < job.numTxns) :
    ∃ w, (s.workers w).finishedValFlag = false ∧ ∀ done, (s.workers w).pc ≠ .exited done := by
  have hinv := (State.Reachable.crew hs).flagInvariant hm
  obtain ⟨w, hw⟩ := hinv.staffed hi
  have hflag : (s.workers w).finishedValFlag = false := hw
  refine ⟨w, hflag, fun done hpc => ?_⟩
  cases done with
  | true =>
    have hset : (s.workers w).finishedValFlag = true :=
      hinv.leaving w (by simp only [State.crew, hpc]; rfl)
    rw [hflag] at hset
    cases hset
  | false =>
    -- a worker with a task that its loop has no arm for
    have hin : ((s.workers w).pc.role job).Within job.numTxns :=
      (State.Reachable.speculation hs).statusInvariant.index.within w
    rw [hpc] at hin
    exact hin

open StatusMachine in
/-- Worker 1 has seen the end of the block and set its flag; then worker 0 aborts
transaction 1 and lowers the index, with its own flag still unset. -/
theorem validation_staffed_chainBlock : ∃ s : State ℕ Unit Unit 2, State.Reachable chainBlock s ∧
    (unpackValidationIdx s.sched.validationIdx).1 = 1 ∧ (s.workers 1).finishedValFlag = true ∧
    ∃ w, (s.workers w).finishedValFlag = false ∧ ∀ done, (s.workers w).pc ≠ .exited done := by
  obtain ⟨s, hreach, hi, hflag⟩ : ∃ s : State ℕ Unit Unit 2, State.Reachable chainBlock s ∧
      (unpackValidationIdx s.sched.validationIdx).1 = 1 ∧ (s.workers 1).finishedValFlag = true :=
    State.Reachable.of_schedule (alternate [8, 31, 32, 16, 9]) (by decide +kernel)
  refine ⟨s, hreach, hi, hflag, State.validation_staffed (by decide) hreach ?_⟩
  rw [hi]
  decide

end Anthemius
