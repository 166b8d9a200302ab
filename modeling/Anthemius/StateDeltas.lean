import Anthemius.EntryMaps
import Anthemius.Outcomes

/-!
# Differences of states

A state delta holds two state trees and the updates that lead from the first to the second. A
chain of states is the specification: the state after every number of transactions, and the
writes of each transaction.
-/
namespace Anthemius.StateStore

open EntryMaps

variable {T K V H : Type} [DecidableEq K]

structure StateDelta (T K V : Type) where
  base : T
  baseVersion : Option ℕ
  current : T
  currentVersion : Option ℕ
  updatesSinceBase : List (K × Option V)

/-- The number of transactions up to a version. -/
def nextVersion (version : Option ℕ) : ℕ := version.elim 0 (· + 1)

theorem nextVersion_injective : Function.Injective nextVersion := by
  intro a b h
  cases a <;> cases b <;> simp_all [nextVersion]

namespace StateDelta

/-- The delta starts where the other one ends. -/
def follow (rootHash : T → H) (delta other : StateDelta T K V) : Prop :=
  delta.baseVersion = other.currentVersion ∧ rootHash other.current = rootHash delta.base

instance [DecidableEq H] (rootHash : T → H) (delta other : StateDelta T K V) :
    Decidable (delta.follow rootHash other) :=
  inferInstanceAs (Decidable (_ ∧ _))

/-- `none` is the failed assertion. -/
def merge [DecidableEq H] (rootHash : T → H) (delta other : StateDelta T K V) :
    Option (StateDelta T K V) :=
  if other.follow rootHash delta then
    some { delta with
      updatesSinceBase := extend delta.updatesSinceBase other.updatesSinceBase
      current := other.current
      currentVersion := other.currentVersion }
  else none

/-- The updates lead from the first state to the second. -/
def Applies (content : T → K → Option V) (delta : StateDelta T K V) : Prop :=
  overlay delta.updatesSinceBase (content delta.base) = content delta.current

end StateDelta

/-! ## Chains of states -/

/-- The states after each number of transactions. A checkpoint is a number of transactions too. -/
structure StateChain (K V H : Type) [DecidableEq K] where
  state : ℕ → K → Option V
  root : ℕ → H
  writes : ℕ → List (K × Option V)
  checkpoint : ℕ → Prop
  state_succ : ∀ n, state (n + 1) = applyAll (writes n) (state n)

namespace StateChain
variable {chain : StateChain K V H}

/-- All updates of a range of transactions, the last one of each key. -/
def changes (chain : StateChain K V H) (first last : ℕ) : List (K × Option V) :=
  extend [] ((List.range' first (last - first)).flatMap chain.writes)

theorem applyAll_writes (chain : StateChain K V H) (first count : ℕ) :
    applyAll ((List.range' first count).flatMap chain.writes) (chain.state first) =
      chain.state (first + count) := by
  induction count generalizing first with
  | zero => rfl
  | succ count ih =>
    rw [List.range'_succ, List.flatMap_cons, applyAll, List.foldl_append]
    change applyAll _ (applyAll (chain.writes first) (chain.state first)) = _
    rw [← chain.state_succ, ih, Nat.add_assoc, Nat.add_comm 1]

theorem overlay_changes (chain : StateChain K V H) {first last : ℕ} (h : first ≤ last) :
    overlay (chain.changes first last) (chain.state first) = chain.state last := by
  rw [changes, overlay_extend]
  change applyAll _ (chain.state first) = _
  rw [applyAll_writes, Nat.add_sub_cancel' h]

end StateChain

section Deltas
variable {rootHash : T → H} {content : T → K → Option V}

/-- The tree is the one of the chain after a number of transactions. -/
structure IsState (chain : StateChain K V H) (rootHash : T → H) (content : T → K → Option V)
    (tree : T) (n : ℕ) : Prop where
  root : rootHash tree = chain.root n
  content : content tree = chain.state n

/-- The entries are all updates of a range, as a map. -/
structure IsChanges (chain : StateChain K V H) (updates : List (K × Option V))
    (first last : ℕ) : Prop where
  distinct : Distinct updates
  get_eq : ∀ k, get k updates = get k (chain.changes first last)

/-- A delta between the latest checkpoint of the chain and a version. -/
structure IsDelta (chain : StateChain K V H) (rootHash : T → H) (content : T → K → Option V)
    (delta : StateDelta T K V) : Prop where
  base : IsState chain rootHash content delta.base (nextVersion delta.baseVersion)
  current : IsState chain rootHash content delta.current (nextVersion delta.currentVersion)
  updates : IsChanges chain delta.updatesSinceBase (nextVersion delta.baseVersion)
    (nextVersion delta.currentVersion)
  le : nextVersion delta.baseVersion ≤ nextVersion delta.currentVersion
  checkpoint : chain.checkpoint (nextVersion delta.baseVersion)
  latest : ∀ n, nextVersion delta.baseVersion < n → n ≤ nextVersion delta.currentVersion →
    ¬ chain.checkpoint n

variable {chain : StateChain K V H}

theorem IsChanges.overlay_eq {updates : List (K × Option V)} {first last : ℕ}
    (h : IsChanges chain updates first last) (hle : first ≤ last) :
    overlay updates (chain.state first) = chain.state last := by
  rw [overlay_congr h.get_eq, chain.overlay_changes hle]

theorem IsDelta.applies {delta : StateDelta T K V} (h : IsDelta chain rootHash content delta) :
    delta.Applies content := by
  rw [StateDelta.Applies, h.base.content, h.current.content, h.updates.overlay_eq h.le]

end Deltas

end Anthemius.StateStore
