import Mathlib.Data.Finset.Lattice.Fold
import Mathlib.Logic.Relation
import Mathlib.Order.Lattice.Nat
import Mathlib.Order.Nat
import Mathlib.Tactic.Common

/-! Costs of longest paths in a graph on an initial segment of the natural numbers whose edges
lead to smaller numbers. The cost of a node is its weight on top of the largest cost among
its parents; this determines the costs and bounds them by the number of nodes. -/
namespace Anthemius.CriticalPaths

/-- The nodes below `n` have earlier parents only, and `cost` is their path cost. -/
structure IsPathCost (weight : ℕ → ℕ) (parents : ℕ → Finset ℕ) (n : ℕ) (cost : ℕ → ℕ) : Prop where
  earlier : ∀ j < n, ∀ p ∈ parents j, p < j
  cost_eq : ∀ j < n, cost j = weight j + (parents j).sup cost

namespace IsPathCost
variable {weight : ℕ → ℕ} {parents : ℕ → Finset ℕ} {n : ℕ} {cost : ℕ → ℕ}

theorem congr {weight' : ℕ → ℕ} {parents' : ℕ → Finset ℕ} {cost' : ℕ → ℕ}
    (h : IsPathCost weight parents n cost) (hw : ∀ j < n, weight' j = weight j)
    (hp : ∀ j < n, parents' j = parents j) (hc : ∀ j < n, cost' j = cost j) :
    IsPathCost weight' parents' n cost' where
  earlier j hj p hpj := h.earlier j hj p (hp j hj ▸ hpj)
  cost_eq j hj := by
    rw [hc j hj, hw j hj, hp j hj, h.cost_eq j hj]
    exact congrArg (weight j + ·)
      (Finset.sup_congr rfl fun p hpj => (hc p ((h.earlier j hj p hpj).trans hj)).symm)

/-- One more node, whose parents are among the others. -/
theorem succ (h : IsPathCost weight parents n cost) (hearlier : ∀ p ∈ parents n, p < n)
    (hcost : cost n = weight n + (parents n).sup cost) :
    IsPathCost weight parents (n + 1) cost where
  earlier j hj := by
    rcases Nat.lt_succ_iff_lt_or_eq.mp hj with hj | rfl
    · exact h.earlier j hj
    · exact hearlier
  cost_eq j hj := by
    rcases Nat.lt_succ_iff_lt_or_eq.mp hj with hj | rfl
    · exact h.cost_eq j hj
    · exact hcost

theorem weight_le (h : IsPathCost weight parents n cost) {j : ℕ} (hj : j < n) :
    weight j ≤ cost j := by
  rw [h.cost_eq j hj]
  exact Nat.le_add_right _ _

/-- A path to a node has no more nodes than there are up to it. -/
theorem le_mul (h : IsPathCost weight parents n cost) {g : ℕ} (hg : ∀ j < n, weight j ≤ g) :
    ∀ j < n, cost j ≤ g * (j + 1) := by
  intro j
  induction j using Nat.strong_induction_on with
  | _ j ih =>
    intro hj
    have hsup : (parents j).sup cost ≤ g * j := by
      refine Finset.sup_le fun p hp => ?_
      have hlt := h.earlier j hj p hp
      exact (ih p hlt (hlt.trans hj)).trans (Nat.mul_le_mul_left g hlt)
    calc cost j = weight j + (parents j).sup cost := h.cost_eq j hj
      _ ≤ g + g * j := Nat.add_le_add (hg j hj) hsup
      _ = g * (j + 1) := by rw [Nat.mul_succ, Nat.add_comm]

/-- Path costs exist when all edges lead to smaller numbers. -/
theorem exists_of_earlier (weight : ℕ → ℕ) (parents : ℕ → Finset ℕ) (n : ℕ)
    (hearlier : ∀ j < n, ∀ p ∈ parents j, p < j) : ∃ cost, IsPathCost weight parents n cost := by
  induction n with
  | zero => exact ⟨weight, fun j hj => absurd hj j.not_lt_zero, fun j hj => absurd hj j.not_lt_zero⟩
  | succ n ih =>
    obtain ⟨cost, hcost⟩ := ih fun j hj => hearlier j (hj.trans n.lt_succ_self)
    have hlast := hearlier n n.lt_succ_self
    have hsame : ∀ j < n, Function.update cost n (weight n + (parents n).sup cost) j = cost j :=
      fun j hj => Function.update_of_ne hj.ne _ _
    refine ⟨Function.update cost n (weight n + (parents n).sup cost), ?_⟩
    refine (hcost.congr (fun _ _ => rfl) (fun _ _ => rfl) hsame).succ hlast ?_
    rw [Function.update_self]
    exact congrArg (weight n + ·) (Finset.sup_congr rfl fun p hp => (hsame p (hlast p hp)).symm)

end IsPathCost
end Anthemius.CriticalPaths
