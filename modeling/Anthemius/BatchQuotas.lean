import Anthemius.BatchReaders
import Mathlib.Algebra.BigOperators.Group.Multiset.Basic

/-!
# The quota of an author

A batch is charged to its author when it is saved and given back when it expires or is replaced.
After every sequence of calls the balances are those of the batches that are kept.
-/
namespace Anthemius.QuorumStore

variable {A P : Type}

/-- The bytes of the batches that are kept in a mode. -/
def bytes (mode : StorageMode) (kept : Multiset (PersistedValue A P)) : ℕ :=
  ((kept.filter (payloadStorageMode · = mode)).map PersistedValue.numBytes).sum

theorem bytes_cons (mode : StorageMode) (value : PersistedValue A P)
    (kept : Multiset (PersistedValue A P)) : bytes mode (value ::ₘ kept) =
      (if payloadStorageMode value = mode then value.numBytes else 0) + bytes mode kept := by
  rw [bytes, Multiset.filter_cons]
  split <;> simp [bytes]

namespace QuotaManager
variable {maxDb maxMemory : ℕ}

/-- The quota of an author with their batches. -/
abbrev Account (A P : Type) := QuotaManager × Multiset (PersistedValue A P)

/-- What is kept without its payload fits into the quota of the database, together with what is
in memory it may not. -/
structure Balanced (maxDb maxMemory : ℕ) (account : Account A P) : Prop where
  memoryQuota : account.1.memoryQuota = maxMemory
  dbQuota : account.1.dbQuota = maxDb
  memory : account.1.memoryBalance = bytes .memoryAndPersisted account.2
  db : account.1.dbBalance =
    bytes .memoryAndPersisted account.2 + bytes .persistedOnly account.2
  memory_le : bytes .memoryAndPersisted account.2 ≤ maxMemory
  persisted_le : bytes .persistedOnly account.2 ≤ maxDb

theorem Balanced.freeQuota {quota : QuotaManager} {value : PersistedValue A P}
    {kept : Multiset (PersistedValue A P)} (h : Balanced maxDb maxMemory (quota, value ::ₘ kept)) :
    ∃ quota', quota.freeQuota value.numBytes (payloadStorageMode value) = .ok quota' ∧
      Balanced maxDb maxMemory (quota', kept) := by
  obtain ⟨hmemoryQuota, hdbQuota, hmemory, hdb, hmemoryLe, hpersistedLe⟩ := h
  have hsub : ∀ {a b : ℕ}, b ≤ a → checkedSub a b = .ok (a - b) := fun h => if_pos h
  simp only [bytes_cons] at hmemory hdb hmemoryLe hpersistedLe
  cases hmode : payloadStorageMode value
  all_goals
    simp only [hmode, reduceCtorEq, if_true, if_false] at hmemory hdb hmemoryLe hpersistedLe
  case persistedOnly =>
    rw [QuotaManager.freeQuota, hsub (by omega)]
    exact ⟨_, rfl, by constructor <;> dsimp only <;> omega⟩
  case memoryAndPersisted =>
    rw [QuotaManager.freeQuota, hsub (by omega), hsub (by omega)]
    exact ⟨_, rfl, by constructor <;> dsimp only <;> omega⟩

/-- A batch is saved with its payload, or one that is kept is given back. -/
inductive Call (A P : Type)
  | save (payload : P) (expiration : LogicalTime) (author : A) (numBytes : ℕ)
  | free (value : PersistedValue A P)

variable [DecidableEq A] [DecidableEq P]

def perform (account : Account A P) : Call A P → Except Panic (Account A P)
  | .save payload expiration author numBytes => do
    let value : PersistedValue A P := ⟨some payload, expiration, author, numBytes⟩
    match ← account.1.updateQuota value.numBytes with
    | .ok (quota, .persistedOnly) => pure (quota, value.removePayload ::ₘ account.2)
    | .ok (quota, .memoryAndPersisted) => pure (quota, value ::ₘ account.2)
    | .error _ => pure account
  | .free value =>
    if value ∈ account.2 then do
      let quota ← account.1.freeQuota value.numBytes (payloadStorageMode value)
      pure (quota, account.2.erase value)
    else pure account

theorem Balanced.perform {account : Account A P} (h : Balanced maxDb maxMemory account)
    (call : Call A P) : perform account call = .error .overflow ∨
      ∃ account', perform account call = .ok account' ∧ Balanced maxDb maxMemory account' := by
  cases call with
  | save payload expiration author numBytes =>
    obtain ⟨hmemoryQuota, hdbQuota, hmemory, hdb, hmemoryLe, hpersistedLe⟩ := h
    simp only [QuotaManager.perform, updateQuota]
    cases hsum : checkedAdd account.1.memoryBalance numBytes with
    | error panic =>
      rw [(checkedAdd_eq_error.mp hsum).2]
      exact Or.inl rfl
    | ok memory =>
      cases hsum' : checkedAdd account.1.dbBalance numBytes with
      | error panic =>
        rw [(checkedAdd_eq_error.mp hsum').2]
        exact Or.inl rfl
      | ok db =>
        obtain ⟨-, rfl⟩ := checkedAdd_eq_ok.mp hsum
        obtain ⟨-, rfl⟩ := checkedAdd_eq_ok.mp hsum'
        simp only [bind, Except.bind]
        split_ifs
        · refine Or.inr ⟨_, rfl, ?_⟩
          constructor <;> simp [bytes_cons, payloadStorageMode] <;> omega
        · refine Or.inr ⟨_, rfl, ?_⟩
          constructor <;>
            simp [bytes_cons, payloadStorageMode, PersistedValue.removePayload] <;> omega
        · refine Or.inr ⟨_, rfl, ?_⟩
          constructor <;> assumption
  | free value =>
    simp only [QuotaManager.perform]
    split_ifs with hin
    · have hcons : (account.1, value ::ₘ account.2.erase value) = account := by
        rw [Multiset.cons_erase hin]
      obtain ⟨quota', hfree, hbalanced⟩ := Balanced.freeQuota (hcons ▸ h)
      rw [hfree]
      exact Or.inr ⟨_, rfl, hbalanced⟩
    · exact Or.inr ⟨account, rfl, h⟩

def run (maxDb maxMemory : ℕ) (calls : List (Call A P)) : Except Panic (Account A P) := do
  let quota ← new maxDb maxMemory
  calls.foldlM perform (quota, 0)

/-- The balances are those of the batches that are kept unless a sum does not fit into a word:
nothing is given back that was not charged. -/
theorem balanced_run (hquotas : maxMemory ≤ maxDb) (calls : List (Call A P)) :
    run maxDb maxMemory calls = .error .overflow ∨
      ∃ account, run maxDb maxMemory calls = .ok account ∧ Balanced maxDb maxMemory account := by
  suffices hfrom : ∀ account : Account A P, Balanced maxDb maxMemory account →
      calls.foldlM QuotaManager.perform account = .error .overflow ∨
        ∃ account', calls.foldlM QuotaManager.perform account = .ok account' ∧
          Balanced maxDb maxMemory account' by
    rw [run, new, assertThat, if_pos hquotas]
    exact hfrom _ ⟨rfl, rfl, rfl, rfl, Nat.zero_le _, Nat.zero_le _⟩
  induction calls with
  | nil => exact fun account h => Or.inr ⟨account, rfl, h⟩
  | cons call calls ih =>
    intro account h
    rw [List.foldlM_cons]
    obtain hoverflow | ⟨account', hok, h'⟩ := h.perform call
    · rw [hoverflow]
      exact Or.inl rfl
    · rw [hok]
      exact ih account' h'

/-- More is kept than the quota of the database. -/
theorem balanced_run_three :
    ∃ account, run 10 5 [.save () ⟨0, 1⟩ 7 6, .save () ⟨0, 1⟩ 7 4, .save () ⟨0, 1⟩ 7 1] =
      .ok account ∧ Balanced 10 5 account ∧ account.1.dbBalance = 11 := by
  obtain h | ⟨account, hrun, hbalanced⟩ := balanced_run (by decide : 5 ≤ 10)
    [.save () ⟨0, 1⟩ 7 6, .save () ⟨0, 1⟩ 7 4, .save () ⟨0, 1⟩ 7 1]
  · cases h
  · refine ⟨account, hrun, hbalanced, ?_⟩
    cases hrun
    rfl

end QuotaManager

end Anthemius.QuorumStore
