import Anthemius.VirtualMachine

/-!
# The cell of a checked prologue

The first transaction of a sender comes with a cell. Executions and prologue tasks of the
transaction use it under its lock, one after the other: an execution that finds it unset sets it
and makes the check, a prologue task that finds it unset stores the verdict of the check on the
view it has. An execution that finds it set runs without a check.
-/
namespace Anthemius

/-- A use of the cell, on the view that the execution or the task has at that time. A prologue
task does nothing when it finds the lock taken. -/
inductive CellUse (K : Type)
  | execute (view : K → StateValue)
  | prologueTask (view : K → StateValue) (lockFree : Bool)

namespace AptosVM
variable {K T W S X Ev : Type} (vm : AptosVM K T W S X Ev) (txn : T)

/-- The cell after a use of it. -/
def useCell (cell : Bool) : CellUse K → Bool
  | .execute view => ((vm.executeUserTransaction txn false (true, cell)).run view).2
  | .prologueTask view lockFree =>
    if lockFree && !cell then (vm.executeUserTransactionPrologue txn).run view else cell

/-- The cell after a history of uses. -/
def cellAfter (uses : List (CellUse K)) : Bool := uses.foldl (vm.useCell txn) false

/-- The outcome of an execution of the transaction. -/
def outcome (prologue : Bool × Bool) (view : K → StateValue) : X × VmOutput K Ev :=
  ((vm.executeUserTransaction txn false prologue).run view).1

/-- The verdict of the check on a view. -/
def check (view : K → StateValue) : S × Except X Unit :=
  (vm.validateSignatureCheckedTransaction txn (vm.newSession txn) false).run view

/-- The uses that leave the cell set: every execution, whatever its check said, and every task
whose check passed. -/
def Sets : CellUse K → Prop
  | .execute _ => True
  | .prologueTask view lockFree => lockFree = true ∧ (vm.check txn view).2 = .ok ()

variable {vm txn}

theorem prologue_run (view : K → StateValue) :
    (vm.executeUserTransactionPrologue txn).run view = true ↔ (vm.check txn view).2 = .ok () := by
  rw [executeUserTransactionPrologue, Program.run_map, check]
  rcases (vm.validateSignatureCheckedTransaction txn (vm.newSession txn) false).run view with
    ⟨session, err | _⟩ <;> simp

theorem useCell_eq_true (cell : Bool) (use : CellUse K) :
    vm.useCell txn cell use = true ↔ cell = true ∨ vm.Sets txn use := by
  cases use with
  | execute view => cases cell <;> simp [useCell, executeUserTransaction, Sets]
  | prologueTask view lockFree =>
    cases cell <;> cases lockFree <;> simp [useCell, Sets, prologue_run]

theorem cellAfter_eq_true (uses : List (CellUse K)) :
    vm.cellAfter txn uses = true ↔ ∃ use ∈ uses, vm.Sets txn use := by
  induction uses using List.reverseRecOn with
  | nil => simp [cellAfter]
  | append_singleton uses use ih =>
    have hlast : vm.cellAfter txn (uses ++ [use]) = vm.useCell txn (vm.cellAfter txn uses) use := by
      simp [cellAfter, List.foldl_append]
    rw [hlast, useCell_eq_true, ih]
    simp [or_and_right, exists_or]

theorem outcome_checked (cell : Bool) (view : K → StateValue) :
    vm.outcome txn (false, cell) view = (vm.executeChecked txn false).run view ∧
      vm.outcome txn (true, false) view = (vm.executeChecked txn false).run view := by
  simp [outcome, executeUserTransaction]

theorem outcome_unchecked (view : K → StateValue) : vm.outcome txn (true, true) view =
    (vm.executeBody txn false (vm.newSession txn)).run view := by
  simp [outcome, executeUserTransaction]

theorem run_executeChecked (view : K → StateValue) : (vm.executeChecked txn false).run view =
    match vm.check txn view with
    | (_, .error err) => vm.discardErrorVmStatus err
    | (session, .ok ()) => (vm.executeBody txn false session).run view := by
  rw [executeChecked, Program.run_bind, check]
  rcases (vm.validateSignatureCheckedTransaction txn (vm.newSession txn) false).run view with
    ⟨session, err | _⟩ <;> rfl

/-- A check that passes leaves no trace when the cache of its session is flushed. -/
theorem run_executeChecked_of_ok {view : K → StateValue} (hcheck : (vm.check txn view).2 = .ok ())
    (hversion : vm.gasFeatureVersion ≥ 1) : (vm.executeChecked txn false).run view =
      (vm.executeBody txn false (vm.newSession txn)).run view := by
  rw [run_executeChecked, show vm.check txn view = ((vm.check txn view).1, .ok ()) from
    Prod.ext rfl hcheck]
  simp only [executeBody, if_pos hversion]

/-- After any history the outcome of an execution with the cell is that of an execution without
one if the cell was never set, or if the check passes on this view and its session is flushed.
A cell that was set hides a check that fails, unless the payload is discarded by itself. -/
theorem cached_eq_fresh (uses : List (CellUse K)) (view : K → StateValue) (cell : Bool) :
    ((∀ use ∈ uses, ¬vm.Sets txn use) ∨
        (vm.check txn view).2 = .ok () ∧ vm.gasFeatureVersion ≥ 1 →
      vm.outcome txn (true, vm.cellAfter txn uses) view = vm.outcome txn (false, cell) view) ∧
    ((∃ use ∈ uses, vm.Sets txn use) → (vm.check txn view).2 ≠ .ok () →
      (∀ code, (vm.outcome txn (true, vm.cellAfter txn uses) view).2.payload.status ≠
        .discard code) →
      vm.outcome txn (true, vm.cellAfter txn uses) view ≠ vm.outcome txn (false, cell) view) := by
  rw [(outcome_checked cell view).1]
  constructor
  · intro h
    cases hcell : vm.cellAfter txn uses with
    | false => exact (outcome_checked cell view).2
    | true =>
      obtain ⟨use, huse, hsets⟩ := (cellAfter_eq_true uses).mp hcell
      obtain ⟨hcheck, hversion⟩ := h.resolve_left fun hunset => hunset use huse hsets
      rw [outcome_unchecked, run_executeChecked_of_ok hcheck hversion]
  · intro hset hcheck hkept heq
    rw [heq, run_executeChecked] at hkept
    rcases hverdict : vm.check txn view with ⟨session, err | u⟩ <;> rw [hverdict] at hcheck hkept
    · exact hkept _ rfl
    · exact hcheck rfl

end AptosVM

/-- A machine whose prologue wants key 0 to be set and whose payloads read and write key 1. -/
def accountVm : AptosVM ℕ ℕ Unit Unit StatusCode Unit where
  gasFeatureVersion := 1
  executed := 0
  error := id
  statusCode := id
  isNewEpochEvent _ := false
  newSession _ := ()
  checkTransactionFormat _ := .ok ()
  runPrologue _ _ := .readKey 0 fun value =>
    if value = .ok (some [1]) then .finished ((), .ok ()) else .finished ((), .error 3)
  executePayload _ _ _ := .readKey 1 fun _ =>
    .finished (0, .ofWrite (some (1, .modification [9])) ⟨[], 5, .keep .success⟩)
  processBlockPrologue _ := .finished (.ok (0, .ofWrite none ⟨[], 0, .keep .success⟩))
  processWaypointChangeSet _ := .finished (.ok (0, .ofWrite none ⟨[], 0, .keep .success⟩))
  format_code _ err h := by cases h
  prologue_code _ _ _ err h := by
    cases h with
    | readKey value h =>
      dsimp only at h
      split at h
      · cases h
      · cases h
        decide
  payload_status _ _ _ _ h := by
    cases h with
    | readKey value h =>
      cases h
      exact fun h => by cases h
  blockPrologue_status _ _ h := by
    cases h
    exact fun h => by cases h
  waypoint_status _ _ h := by
    cases h
    exact fun h => by cases h

/-- The first execution sets the cell and is discarded; the second one, on the same view, is
kept. -/
theorem cached_ne_fresh_accountVm :
    (accountVm.outcome 7 (true, false) fun _ => .ok none).2.payload.status = .discard 3 ∧
    (accountVm.outcome 7 (true, accountVm.cellAfter 7 [.execute fun _ => .ok none])
      fun _ => .ok none).2.payload.status = .keep .success ∧
    accountVm.outcome 7 (true, accountVm.cellAfter 7 [.execute fun _ => .ok none])
      (fun _ => .ok none) ≠ accountVm.outcome 7 (false, true) fun _ => .ok none := by
  refine ⟨by decide, by decide, fun h => ?_⟩
  have hstatus := congrArg (fun o => o.2.payload.status) h
  revert hstatus
  decide

/-- After a prologue task that failed the cell is unset; once an execution has set it, a check
that passes changes nothing, and one that fails is not made. -/
theorem cached_eq_fresh_accountVm :
    accountVm.outcome 7
      (true, accountVm.cellAfter 7 [.prologueTask (fun _ => .ok none) true]) (fun _ => .ok none) =
      accountVm.outcome 7 (false, true) (fun _ => .ok none) ∧
    accountVm.outcome 7 (true, accountVm.cellAfter 7 [.execute fun _ => .ok none])
      (fun _ => .ok (some [1])) = accountVm.outcome 7 (false, true) (fun _ => .ok (some [1])) ∧
    accountVm.outcome 7 (true, accountVm.cellAfter 7 [.execute fun _ => .ok (some [1])])
      (fun _ => .ok none) ≠ accountVm.outcome 7 (false, true) fun _ => .ok none := by
  refine ⟨(AptosVM.cached_eq_fresh _ _ true).1 (.inl fun use huse => ?_),
    (AptosVM.cached_eq_fresh _ _ true).1 (.inr ⟨rfl, le_rfl⟩),
    (AptosVM.cached_eq_fresh _ _ true).2 ⟨_, List.mem_singleton_self _, trivial⟩ (by decide)
      fun code => nofun⟩
  cases List.mem_singleton.mp huse
  rintro ⟨-, h⟩
  exact absurd h (by decide)

end Anthemius
