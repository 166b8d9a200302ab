import Anthemius.CheckedLoops
import Anthemius.CriticalPaths
import Anthemius.TransactionRegister
import Mathlib.Data.List.GetD
import Mathlib.Data.List.Nodup

/-!
# The plan read off the hint graph

The constructor of the scheduler computes path costs, gives every transaction to the slowest of
its parents and releases those for which it finds no parent. The search starts from cost zero
and a parent index that stands for none, with a strict comparison; what this means for
parents without cost, and for a parent with just that index, is said here.
-/
namespace Anthemius
open CheckedLoops CriticalPaths

namespace Plan

/-! ## The slowest parent -/

section SlowestParent
variable (cost : ℕ → ℕ)

theorem slowestParent_concat (nodes : List ℕ) (node : ℕ) :
    slowestParent cost (nodes ++ [node]) =
      if cost node > (slowestParent cost nodes).1 then (cost node, node)
      else slowestParent cost nodes := by
  simp [slowestParent, List.foldl_append]

theorem slowestParent_fst (nodes : List ℕ) :
    (slowestParent cost nodes).1 = nodes.toFinset.sup cost := by
  induction nodes using List.reverseRecOn with
  | nil => rfl
  | append_singleton nodes node ih =>
    have hset : (nodes ++ [node]).toFinset = insert node nodes.toFinset := by
      ext i
      simp
    rw [slowestParent_concat, hset, Finset.sup_insert, ← ih]
    split
    · exact (max_eq_left (le_of_lt ‹_›)).symm
    · exact (max_eq_right (not_lt.mp ‹_›)).symm

variable {cost}

theorem slowestParent_congr {cost' : ℕ → ℕ} {nodes : List ℕ}
    (h : ∀ node ∈ nodes, cost' node = cost node) :
    slowestParent cost' nodes = slowestParent cost nodes := by
  refine List.foldl_ext _ _ _ fun best node hnode => ?_
  rw [h node hnode]

theorem slowestParent_append {nodes later : List ℕ}
    (h : ∀ node ∈ later, cost node ≤ (slowestParent cost nodes).1) :
    slowestParent cost (nodes ++ later) = slowestParent cost nodes := by
  induction later using List.reverseRecOn with
  | nil => rw [List.append_nil]
  | append_singleton later node ih =>
    rw [← List.append_assoc, slowestParent_concat,
      ih fun k hk => h k (List.mem_append_left _ hk)]
    exact if_neg (not_lt.mpr (h node (by simp)))

/-- The first of the listed parents that none of them exceeds in path cost. -/
def firstSlowest (cost : ℕ → ℕ) (nodes : List ℕ) : Option ℕ :=
  nodes.find? fun k => ∀ j ∈ nodes, cost j ≤ cost k

theorem firstSlowest_spec {nodes : List ℕ} {k : ℕ} (h : firstSlowest cost nodes = some k) :
    k ∈ nodes ∧ ∀ j ∈ nodes, cost j ≤ cost k := by
  have hmax := List.find?_some h
  exact ⟨List.mem_of_find?_eq_some h, of_decide_eq_true hmax⟩

theorem exists_firstSlowest {nodes : List ℕ} (h : nodes ≠ []) :
    ∃ k, firstSlowest cost nodes = some k := by
  have hne : nodes.toFinset.Nonempty := List.toFinset_nonempty_iff _ |>.mpr h
  obtain ⟨k, hk, hmax⟩ := nodes.toFinset.exists_max_image cost hne
  refine Option.isSome_iff_exists.mp (List.find?_isSome.mpr ⟨k, List.mem_toFinset.mp hk, ?_⟩)
  exact decide_eq_true fun j hj => hmax j (List.mem_toFinset.mpr hj)

theorem slowestParent_of_pos {nodes : List ℕ} {k : ℕ} (h : firstSlowest cost nodes = some k)
    (hpos : 0 < cost k) : slowestParent cost nodes = (cost k, k) := by
  obtain ⟨-, before, after, rfl, hbefore⟩ := List.find?_eq_some_iff_append.mp h
  have hmax := (firstSlowest_spec h).2
  have hless : (slowestParent cost before).1 < cost k := by
    rw [slowestParent_fst, Finset.sup_lt_iff hpos]
    intro a ha
    have ha := hbefore a (List.mem_toFinset.mp ha)
    simp only [Bool.not_eq_true', decide_eq_false_iff_not, not_forall, not_le] at ha
    obtain ⟨j, hj, hlt⟩ := ha
    exact hlt.trans_le (hmax j hj)
  have hk : slowestParent cost (before ++ [k]) = (cost k, k) := by
    rw [slowestParent_concat, if_pos hless]
  rw [List.append_cons, slowestParent_append, hk]
  intro j hj
  rw [hk]
  exact hmax j (by simp [hj])

theorem slowestParent_of_zero {nodes : List ℕ} (h : ∀ k ∈ nodes, cost k = 0) :
    slowestParent cost nodes = (0, noParent) :=
  calc slowestParent cost nodes = slowestParent cost ([] ++ nodes) := rfl
    _ = slowestParent cost [] := slowestParent_append fun k hk => (h k hk).le
    _ = (0, noParent) := rfl

/-- The search finds no parent when none has a cost, nor when the index of the first slowest one
is the one that stands for none. -/
theorem slowestParent_ne_noParent {nodes : List ℕ} (h : nodes ≠ []) :
    (slowestParent cost nodes).2 ≠ noParent ↔
      ∃ k, firstSlowest cost nodes = some k ∧ 0 < cost k ∧ k ≠ noParent := by
  obtain ⟨k, hk⟩ := @exists_firstSlowest cost _ h
  rcases Nat.eq_zero_or_pos (cost k) with hzero | hpos
  · rw [slowestParent_of_zero fun j hj => Nat.le_zero.mp (hzero ▸ (firstSlowest_spec hk).2 j hj)]
    simp [hk, hzero]
  · rw [slowestParent_of_pos hk hpos]
    simp [hk, hpos]

theorem slowestParent_mem (cost : ℕ → ℕ) (nodes : List ℕ) :
    (slowestParent cost nodes).2 = noParent ∨ (slowestParent cost nodes).2 ∈ nodes := by
  rcases eq_or_ne nodes [] with rfl | hne
  · exact .inl rfl
  · refine or_iff_not_imp_left.mpr fun h => ?_
    obtain ⟨k, hk, hpos, -⟩ := (slowestParent_ne_noParent hne).mp h
    rw [slowestParent_of_pos hk hpos]
    exact (firstSlowest_spec hk).1

end SlowestParent

/-! ## The loop over the transactions -/

/-- The plan after the first `n` rounds, in terms of the final path costs. -/
structure Computes (cost : ℕ → ℕ) (graph : List (List ℕ)) (n : ℕ) (p : Plan) : Prop where
  pathCost : ∀ j < n, p.pathCost j = cost j
  sendVec : p.sendVec =
    (List.range n).filter fun i => (slowestParent cost (graph.getD i [])).2 = noParent
  criticalPathParent : ∀ d, p.criticalPathParent d =
    (List.range n).filter fun i => (slowestParent cost (graph.getD i [])).2 = d ∧ d ≠ noParent

variable {n : ℕ} {graph : List (List ℕ)} {gas : List ℕ} {cost : ℕ → ℕ} {p : Plan}

/-- One round, for a transaction whose parents have their final costs. -/
theorem Computes.visit {i costLen : ℕ} (h : p.Computes cost graph i)
    (hnodes : ∀ node ∈ graph.getD i [], node < i) (hi : i < costLen ∧ i < n)
    (hcost : p.pathCost i + (slowestParent cost (graph.getD i [])).1 = cost i)
    (hbound : cost i < 2 ^ 32) :
    ∃ q, visit n costLen graph p i = some q ∧ q.Computes cost graph (i + 1) ∧
      ∀ j, i < j → q.pathCost j = p.pathCost j := by
  have hbest : slowestParent p.pathCost (graph.getD i []) = slowestParent cost (graph.getD i []) :=
    slowestParent_congr fun node hnode => h.pathCost node (hnodes node hnode)
  have hok : (∀ node ∈ graph.getD i [], node < costLen ∧ node < n) ∧
      p.pathCost i + (slowestParent p.pathCost (graph.getD i [])).1 < 2 ^ 32 := by
    rw [hbest, hcost]
    refine ⟨fun node hnode => ?_, hbound⟩
    have := hnodes node hnode
    omega
  refine ⟨_, if_pos hok, ⟨fun j hj => ?_, ?_, fun d => ?_⟩, fun j hj => ?_⟩
  · rcases Nat.lt_succ_iff_lt_or_eq.mp hj with hj | rfl
    · exact (Function.update_of_ne hj.ne _ _).trans (h.pathCost j hj)
    · exact (Function.update_self ..).trans (hbest ▸ hcost)
  · rw [List.range_succ, List.filter_append, ← h.sendVec, hbest]
    split <;> simp_all
  · rw [List.range_succ, List.filter_append, ← h.criticalPathParent, hbest]
    by_cases hd : (slowestParent cost (graph.getD i [])).2 = d
    · subst hd
      split <;> simp_all
    · have hnone : [i].filter (fun i => (slowestParent cost (graph.getD i [])).2 = d ∧
          d ≠ noParent) = [] := by
        simp only [List.filter_eq_nil_iff, List.mem_singleton, forall_eq, decide_eq_true_eq]
        exact fun h => hd h.1
      rw [hnone, List.append_nil]
      split
      · rfl
      · exact Function.update_of_ne (Ne.symm hd) _ _
  · exact Function.update_of_ne hj.ne' _ _

/-- The constructor computes the path costs of a graph whose costs fit into 32 bits, for every
order of the parents, and releases accordingly. -/
theorem new_computes {parents : ℕ → Finset ℕ} (hgas : n ≤ gas.length) (hgraph : n ≤ graph.length)
    (hparents : ∀ j < n, (graph.getD j []).toFinset = parents j)
    (hpath : IsPathCost (fun j => gas.getD j 0) parents n cost) (hcost : ∀ j < n, cost j < 2 ^ 32) :
    ∃ plan, new n graph gas = some plan ∧ plan.Computes cost graph n := by
  -- the entries that the rounds have not come to are still the estimates
  have hrounds : ∀ k ≤ n, ∃ p,
      (List.range k).foldlM (visit n gas.length graph) (start gas) = some p ∧
      p.Computes cost graph k ∧ ∀ j, k ≤ j → p.pathCost j = gas.getD j 0 := by
    intro k hk
    induction k with
    | zero =>
      exact ⟨start gas, rfl, ⟨fun j hj => absurd hj j.not_lt_zero, rfl, fun _ => rfl⟩,
        fun _ _ => rfl⟩
    | succ k ih =>
      obtain ⟨p, hfold, hp, hrest⟩ := ih (Nat.le_of_succ_le hk)
      have hbefore : ∀ node ∈ graph.getD k [], node < k := by
        intro node hnode
        refine hpath.earlier k hk node ?_
        rw [← hparents k hk]
        exact List.mem_toFinset.mpr hnode
      have hsum : p.pathCost k + (slowestParent cost (graph.getD k [])).1 = cost k := by
        rw [slowestParent_fst, hparents k hk, hrest k le_rfl, hpath.cost_eq k hk]
      obtain ⟨q, hvisit, hq, hrest'⟩ :=
        hp.visit hbefore ⟨Nat.lt_of_lt_of_le hk hgas, hk⟩ hsum (hcost k hk)
      refine ⟨q, ?_, hq, fun j hj => (hrest' j hj).trans (hrest j (Nat.le_of_succ_le hj))⟩
      rw [List.range_succ, foldlM_concat, hfold]
      exact hvisit
  obtain ⟨p, hfold, hp, -⟩ := hrounds n le_rfl
  refine ⟨p, ?_, hp⟩
  rw [new, if_pos ⟨hgas, hgraph⟩, hfold]

theorem count_channels (p : Plan) (i : TxnIndex) :
    p.channels.count i + p.priochannels.count i = p.sendVec.count i := by
  cases hc : (p.children i).isEmpty with
  | true =>
    have hfree : p.channels.count i = p.sendVec.count i := List.count_filter hc
    have hprio : i ∉ p.priochannels := by simp [priochannels, hc]
    rw [hfree, List.count_eq_zero_of_not_mem hprio, Nat.add_zero]
  | false =>
    have hfree : i ∉ p.channels := by simp [channels, hc]
    have hprio : p.priochannels.count i = p.sendVec.count i := List.count_filter (by simp [hc])
    rw [hprio, List.count_eq_zero_of_not_mem hfree, Nat.zero_add]

theorem count_filter_range (q : ℕ → Prop) [DecidablePred q] {i : ℕ} (hi : i < n) :
    ((List.range n).filter fun i => q i).count i = if q i then 1 else 0 := by
  have hnodup := List.Nodup.filter (fun i => decide (q i)) (@List.nodup_range n)
  rw [hnodup.count]
  simp [hi]

theorem Computes.mem_of_kept (h : p.Computes cost graph n) {d i : ℕ}
    (hi : i ∈ p.criticalPathParent d) : i < n ∧ d ∈ graph.getD i [] := by
  rw [h.criticalPathParent, List.mem_filter, List.mem_range, decide_eq_true_eq] at hi
  obtain ⟨hlt, rfl, hne⟩ := hi
  exact ⟨hlt, (slowestParent_mem cost _).resolve_left hne⟩

theorem Computes.count_released (h : p.Computes cost graph n) {i : ℕ} (hi : i < n) :
    p.channels.count i + p.priochannels.count i =
      if (slowestParent cost (graph.getD i [])).2 = noParent then 1 else 0 := by
  rw [count_channels, h.sendVec, count_filter_range _ hi]

theorem Computes.count_kept (h : p.Computes cost graph n) {i : ℕ} (hi : i < n) (d : ℕ) :
    (p.criticalPathParent d).count i =
      if (slowestParent cost (graph.getD i [])).2 = d ∧ d ≠ noParent then 1 else 0 := by
  rw [h.criticalPathParent, count_filter_range _ hi]

end Plan

/-! ## Initial release -/

/-- Hints as the constructor takes them, with edges to earlier transactions only. -/
structure HintGraph where
  dependencies : List (List TxnIndex)
  gasEstimates : List ℕ
  length_eq : gasEstimates.length = dependencies.length
  earlier : ∀ i < dependencies.length, ∀ k ∈ dependencies.getD i [], k < i
  index_lt : ∀ i < dependencies.length, ∀ k ∈ dependencies.getD i [], k < 2 ^ 16
  gas_lt : ∀ gas ∈ gasEstimates, gas < 2 ^ 16

/-- Transactions without hints are in one of the channels; each of the others is with just one
of its dependencies, a slowest one. -/
structure Scheduler.FollowsHints (s : Scheduler) (cost : TxnIndex → ℕ)
    (dependencies : List (List TxnIndex)) : Prop where
  free : ∀ i < dependencies.length, dependencies.getD i [] = [] →
    s.channels.count i + s.priochannels.count i = 1
  bound : ∀ i < dependencies.length, dependencies.getD i [] ≠ [] →
    i ∉ s.channels ∧ i ∉ s.priochannels ∧ ∃ parent ∈ dependencies.getD i [],
      (s.criticalPathParent parent).count i = 1 ∧
      (∀ d, i ∈ s.criticalPathParent d → d = parent) ∧
      ∀ d ∈ dependencies.getD i [], cost d ≤ cost parent

namespace HintGraph
open Plan
variable (g : HintGraph)

def IsCost (cost : ℕ → ℕ) : Prop :=
  IsPathCost (fun i => g.gasEstimates.getD i 0) (fun i => (g.dependencies.getD i []).toFinset)
    g.dependencies.length cost

/-- Estimates and indices of 16 bits give path costs of 32 bits. -/
theorem exists_cost : ∃ cost, g.IsCost cost ∧ ∀ j < g.dependencies.length, cost j < 2 ^ 32 := by
  obtain ⟨cost, hcost⟩ := IsPathCost.exists_of_earlier (fun i => g.gasEstimates.getD i 0)
    (fun i => (g.dependencies.getD i []).toFinset) g.dependencies.length
    fun j hj k hk => g.earlier j hj k (List.mem_toFinset.mp hk)
  have hgas : ∀ j < g.dependencies.length, g.gasEstimates.getD j 0 ≤ 2 ^ 16 - 1 := by
    intro j hj
    rw [List.getD_eq_getElem _ _ (g.length_eq ▸ hj)]
    exact Nat.le_sub_one_of_lt (g.gas_lt _ (List.getElem_mem _))
  refine ⟨cost, hcost, fun j hj => ?_⟩
  have hsup : (g.dependencies.getD j []).toFinset.sup cost ≤ (2 ^ 16 - 1) * 2 ^ 16 := by
    refine Finset.sup_le fun k hk => ?_
    have hk := List.mem_toFinset.mp hk
    have hle := hcost.le_mul hgas k ((g.earlier j hj k hk).trans hj)
    exact hle.trans (Nat.mul_le_mul_left _ (g.index_lt j hj k hk))
  have hj' := hgas j hj
  rw [hcost.cost_eq j hj]
  omega

/-- The constructor returns, with the path costs of the graph. -/
theorem new_isCost : ∃ p, Plan.new g.dependencies.length g.dependencies g.gasEstimates = some p ∧
    g.IsCost p.pathCost ∧ p.Computes p.pathCost g.dependencies g.dependencies.length := by
  obtain ⟨cost, hcost, hbound⟩ := g.exists_cost
  obtain ⟨p, hp, hcomputes⟩ :=
    new_computes g.length_eq.ge le_rfl (fun _ _ => rfl) hcost hbound
  have hcost' : g.IsCost p.pathCost :=
    hcost.congr (fun _ _ => rfl) (fun _ _ => rfl) hcomputes.pathCost
  obtain ⟨p', hp', hcomputes'⟩ :=
    new_computes g.length_eq.ge le_rfl (fun _ _ => rfl) hcost' fun j hj =>
      hcomputes.pathCost j hj ▸ hbound j hj
  obtain rfl : p = p' := Option.some.inj (hp.symm.trans hp')
  exact ⟨p, hp, hcost', hcomputes'⟩

/-- Initial release follows the hints just when every transaction with dependencies has among
them one with a cost, and the first of the slowest is not the transaction whose index stands
for "no parent". -/
theorem followsHints_iff :
    ∃ p, Plan.new g.dependencies.length g.dependencies g.gasEstimates = some p ∧
      g.IsCost p.pathCost ∧
      ((Scheduler.new p).FollowsHints p.pathCost g.dependencies ↔
        ∀ i < g.dependencies.length, g.dependencies.getD i [] ≠ [] →
          ∃ k, firstSlowest p.pathCost (g.dependencies.getD i []) = some k ∧
            0 < p.pathCost k ∧ k ≠ noParent) := by
  obtain ⟨p, hp, hcost, hcomputes⟩ := g.new_isCost
  refine ⟨p, hp, hcost, fun h i hi hne => ?_, fun h => ⟨fun i hi hnil => ?_, fun i hi hne => ?_⟩⟩
  · refine (slowestParent_ne_noParent hne).mp fun hnone => ?_
    have hfree : i ∉ p.channels := (h.bound i hi hne).1
    have hprio : i ∉ p.priochannels := (h.bound i hi hne).2.1
    have hcount := hcomputes.count_released hi
    rw [if_pos hnone, List.count_eq_zero_of_not_mem hfree, List.count_eq_zero_of_not_mem hprio]
      at hcount
    cases hcount
  · have hcount := hcomputes.count_released hi
    rw [hnil] at hcount
    exact hcount
  · obtain ⟨k, hk, hpos, hsentinel⟩ := h i hi hne
    have hparent := slowestParent_of_pos hk hpos
    obtain ⟨hmem, hmax⟩ := firstSlowest_spec hk
    have hcount := hcomputes.count_released hi
    rw [hparent, if_neg hsentinel, Nat.add_eq_zero_iff, List.count_eq_zero, List.count_eq_zero]
      at hcount
    refine ⟨hcount.1, hcount.2, k, hmem, ?_, fun d hd => ?_, hmax⟩
    · have hkept := hcomputes.count_kept hi k
      rwa [hparent, if_pos ⟨rfl, hsentinel⟩] at hkept
    · have hkept := hcomputes.count_kept hi d
      rw [hparent] at hkept
      by_contra hdk
      rw [if_neg fun h => hdk h.1.symm, List.count_eq_zero] at hkept
      exact hkept hd

end HintGraph

/-- Three transactions whose estimates are known: the last waits for the slower of the others. -/
def costlyHints : HintGraph where
  dependencies := [[], [0], [0, 1]]
  gasEstimates := [5, 3, 2]
  length_eq := rfl
  earlier := by decide
  index_lt := by decide
  gas_lt := by decide

theorem followsHints_costlyHints : ∃ p, Plan.new 3 [[], [0], [0, 1]] [5, 3, 2] = some p ∧
    (Scheduler.new p).FollowsHints p.pathCost [[], [0], [0, 1]] := by
  obtain ⟨p, hp, -, hiff⟩ := costlyHints.followsHints_iff
  have hcond : (Plan.new 3 [[], [0], [0, 1]] [5, 3, 2]).map (fun p => decide
      (∀ i : ℕ, i < 3 → [[], [0], [0, 1]].getD i [] ≠ [] →
        ((Plan.firstSlowest p.pathCost ([[], [0], [0, 1]].getD i [])).any fun k =>
          0 < p.pathCost k ∧ k ≠ Plan.noParent) = true)) = some true := by decide +kernel
  obtain ⟨q, hq, hcond⟩ := Option.map_eq_some_iff.mp hcond
  obtain rfl : p = q := Option.some.inj (hp.symm.trans hq)
  refine ⟨p, hp, hiff.mpr fun i hi hne => ?_⟩
  obtain ⟨k, hk, hpos⟩ := (Option.any_eq_true _ _).mp (of_decide_eq_true hcond i hi hne)
  exact ⟨k, hk, of_decide_eq_true hpos⟩

/-- The register of a plain list of three transactions has no estimates, so the second one,
with a hint to the first, is released at once. -/
theorem released_ofTxns : ∃ p, (let r := TransactionRegister.ofTxns [70, 71, 72]
    Plan.new r.txns.length r.dependencyGraph r.gasEstimates) = some p ∧
    (TransactionRegister.ofTxns [70, 71, 72]).dependencyGraph.getD 1 [] = [0] ∧
    1 ∈ (Scheduler.new p).channels ∧
    ¬(Scheduler.new p).FollowsHints p.pathCost
      (TransactionRegister.ofTxns [70, 71, 72]).dependencyGraph := by
  have hrun : (Plan.new 3 (TransactionRegister.ofTxns [70, 71, 72]).dependencyGraph [0, 0, 0]).map
      (fun p => decide (1 ∈ p.channels)) = some true := by decide +kernel
  obtain ⟨p, hp, hmem⟩ := Option.map_eq_some_iff.mp hrun
  have hmem : 1 ∈ (Scheduler.new p).channels := of_decide_eq_true hmem
  exact ⟨p, hp, rfl, hmem, fun h => (h.bound 1 (by decide) (by decide)).1 hmem⟩

end Anthemius
