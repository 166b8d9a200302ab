import Anthemius.BitWords
import Mathlib.Data.List.GetD
import Mathlib.Data.Nat.Log
import Mathlib.Data.Nat.Size
import Mathlib.Tactic.Common
import Mathlib.Tactic.Ring

/-! Binary hash trees over a list of leaves. A node is named by its level and its place at the
level, and a part of the tree without leaves is one placeholder. The leaves are covered by full
trees, one for each binary digit of their number. -/
namespace Anthemius.PaddedTree

/-- How two nodes are combined, and what stands for a part without leaves. -/
structure Hashing (H : Type) where
  combine : H → H → H
  placeholder : H

namespace Hashing
variable {H : Type} (c : Hashing H)

structure Injective : Prop where
  combine : ∀ {a b a' b' : H}, c.combine a b = c.combine a' b' → a = a' ∧ b = b'

/-- Leaves, combined nodes and the placeholder are told apart. -/
structure Separates (leaf : H → Prop) : Prop extends c.Injective where
  combine_ne : ∀ a b, c.combine a b ≠ c.placeholder
  leaf_combine : ∀ a b, ¬ leaf (c.combine a b)
  leaf_placeholder : ¬ leaf c.placeholder

end Hashing

/-- Hashes as terms, that are told apart by how they are made. -/
inductive Term (A : Type)
  | leaf (a : A)
  | placeholder
  | combine (left right : Term A)
  deriving DecidableEq

namespace Term
variable {A : Type}

def hashing (A : Type) : Hashing (Term A) := ⟨combine, placeholder⟩

def IsLeaf (h : Term A) : Prop := ∃ a, leaf a = h

theorem separates : (hashing A).Separates IsLeaf where
  combine h := by
    injection h with hleft hright
    exact ⟨hleft, hright⟩
  combine_ne _ _ h := by cases h
  leaf_combine _ _ h := by
    obtain ⟨a, ha⟩ := h
    cases ha
  leaf_placeholder h := by
    obtain ⟨a, ha⟩ := h
    cases ha

end Term

/-! ## Nodes -/

section Nodes
variable {H : Type} (c : Hashing H) {leaves leaves' : List H} {l k : ℕ}

def node (leaves : List H) : ℕ → ℕ → H
  | 0, k => leaves.getD k c.placeholder
  | l + 1, k =>
    if leaves.length ≤ k * 2 ^ (l + 1) then c.placeholder
    else c.combine (node leaves l (2 * k)) (node leaves l (2 * k + 1))

/-- The smallest tree that has all leaves. -/
def root (leaves : List H) : H := node c leaves (Nat.clog 2 leaves.length) 0

variable {c}

theorem node_of_le (h : leaves.length ≤ k * 2 ^ l) : node c leaves l k = c.placeholder := by
  cases l with
  | zero =>
    rw [pow_zero, mul_one] at h
    rw [node, List.getD_eq_getElem?_getD, List.getElem?_eq_none h]
    rfl
  | succ l => rw [node, if_pos h]

theorem node_succ (h : k * 2 ^ (l + 1) < leaves.length) :
    node c leaves (l + 1) k =
      c.combine (node c leaves l (2 * k)) (node c leaves l (2 * k + 1)) := by
  rw [node, if_neg (Nat.not_le.mpr h)]

/-- The place of the other child. -/
def other (k : ℕ) : ℕ := if k % 2 = 0 then k + 1 else k - 1

/-! The leaf `i` is below the node at place `i / 2 ^ l` of a level. -/

theorem div_two_pow_succ (i l : ℕ) : i / 2 ^ (l + 1) = i / 2 ^ l / 2 := by
  rw [pow_succ, Nat.div_div_eq_div_mul]

theorem div_two_pow_succ_of_left {i : ℕ} (h : i / 2 ^ l = 2 * k) : i / 2 ^ (l + 1) = k := by
  rw [div_two_pow_succ, h]
  omega

theorem div_two_pow_succ_of_right {i : ℕ} (h : i / 2 ^ l = 2 * k + 1) : i / 2 ^ (l + 1) = k := by
  rw [div_two_pow_succ, h]
  omega

theorem lt_of_div_eq {i n : ℕ} (h : i / 2 ^ l = k) (hn : (k + 1) * 2 ^ l ≤ n) : i < n :=
  lt_of_lt_of_le ((Nat.div_lt_iff_lt_mul (Nat.two_pow_pos l)).mp (by omega)) hn

theorem le_of_div_eq {i : ℕ} (h : i / 2 ^ l = k) : k * 2 ^ l ≤ i := by
  rw [← h]
  exact Nat.div_mul_le_self i _

theorem node_congr (h : ∀ i, i / 2 ^ l = k → leaves[i]? = leaves'[i]?) :
    node c leaves l k = node c leaves' l k := by
  induction l generalizing k with
  | zero =>
    have hleaf := h k (by rw [pow_zero, Nat.div_one])
    rw [node, node, List.getD_eq_getElem?_getD, hleaf, List.getD_eq_getElem?_getD]
  | succ l ih =>
    have hleft := ih fun i hi => h i (div_two_pow_succ_of_left hi)
    have hright := ih fun i hi => h i (div_two_pow_succ_of_right hi)
    have hfirst := h (k * 2 ^ (l + 1)) (Nat.mul_div_cancel k (Nat.two_pow_pos _))
    have hsame : leaves.length ≤ k * 2 ^ (l + 1) ↔ leaves'.length ≤ k * 2 ^ (l + 1) := by
      rw [← List.getElem?_eq_none_iff, hfirst, List.getElem?_eq_none_iff]
    rw [node, node, hleft, hright]
    exact if_congr hsame rfl rfl

/-- A node that is full does not change. -/
theorem node_append {more : List H} (h : (k + 1) * 2 ^ l ≤ leaves.length) :
    node c (leaves ++ more) l k = node c leaves l k :=
  node_congr fun _ hi => List.getElem?_append_left (lt_of_div_eq hi h)

/-- Equal nodes over as many leaves have the same leaves. -/
theorem getElem?_eq_of_node_eq (hc : c.Injective)
    (hsame : ∀ i, i / 2 ^ l = k → (i < leaves.length ↔ i < leaves'.length))
    (h : node c leaves l k = node c leaves' l k) {i : ℕ} (hi : i / 2 ^ l = k) :
    leaves[i]? = leaves'[i]? := by
  induction l generalizing k with
  | zero =>
    rw [pow_zero, Nat.div_one] at hi
    subst hi
    have hlength := hsame i (by rw [pow_zero, Nat.div_one])
    by_cases hlt : i < leaves.length
    · rw [node, node, List.getD_eq_getElem _ _ hlt, List.getD_eq_getElem _ _ (hlength.mp hlt)] at h
      rw [List.getElem?_eq_getElem hlt, List.getElem?_eq_getElem (hlength.mp hlt), h]
    · rw [List.getElem?_eq_none (by omega), List.getElem?_eq_none (by omega)]
  | succ l ih =>
    have hlength := hsame (k * 2 ^ (l + 1)) (Nat.mul_div_cancel k (Nat.two_pow_pos _))
    by_cases hlt : k * 2 ^ (l + 1) < leaves.length
    · rw [node_succ hlt, node_succ (hlength.mp hlt)] at h
      obtain ⟨hleft, hright⟩ := hc.combine h
      rw [div_two_pow_succ] at hi
      obtain hi | hi : i / 2 ^ l = 2 * k ∨ i / 2 ^ l = 2 * k + 1 := by omega
      · exact ih (fun j hj => hsame j (div_two_pow_succ_of_left hj)) hleft hi
      · exact ih (fun j hj => hsame j (div_two_pow_succ_of_right hj)) hright hi
    · have hle := le_of_div_eq hi
      rw [List.getElem?_eq_none (by omega), List.getElem?_eq_none (by omega)]

/-- Lists of one length with one root are equal. -/
theorem eq_of_root_eq (hc : c.Injective) (hlength : leaves.length = leaves'.length)
    (h : root c leaves = root c leaves') : leaves = leaves' := by
  rw [root, root, ← hlength] at h
  refine List.ext_getElem? fun i => ?_
  by_cases hlt : i < leaves.length
  · refine getElem?_eq_of_node_eq hc (fun j _ => by rw [hlength]) h ?_
    exact Nat.div_eq_of_lt (lt_of_lt_of_le hlt (Nat.le_pow_clog one_lt_two _))
  · rw [List.getElem?_eq_none (by omega), List.getElem?_eq_none (by omega)]

section Separated
variable {leaf : H → Prop}

/-- A node that is combined is above others. -/
theorem exists_of_combine_eq (hc : c.Separates leaf) (hleaves : ∀ h ∈ leaves, leaf h) {a b : H}
    (h : c.combine a b = node c leaves l k) :
    ∃ l', l = l' + 1 ∧ a = node c leaves l' (2 * k) ∧ b = node c leaves l' (2 * k + 1) := by
  by_cases hlt : k * 2 ^ l < leaves.length
  · cases l with
    | zero =>
      rw [pow_zero, mul_one] at hlt
      rw [node, List.getD_eq_getElem _ _ hlt] at h
      exact absurd (h ▸ hleaves _ (List.getElem_mem hlt)) (hc.leaf_combine a b)
    | succ l =>
      rw [node_succ hlt] at h
      exact ⟨l, rfl, hc.combine h⟩
  · rw [node_of_le (Nat.not_lt.mp hlt)] at h
    exact absurd h (hc.combine_ne a b)

/-- A node that is a leaf is one of the leaves. -/
theorem getElem?_of_leaf (hc : c.Separates leaf) (h : leaf (node c leaves l k)) :
    l = 0 ∧ leaves[k]? = some (node c leaves l k) := by
  by_cases hlt : k * 2 ^ l < leaves.length
  · cases l with
    | zero =>
      rw [pow_zero, mul_one] at hlt
      rw [node, List.getD_eq_getElem _ _ hlt, List.getElem?_eq_getElem hlt]
      exact ⟨rfl, rfl⟩
    | succ l =>
      rw [node_succ hlt] at h
      exact absurd h (hc.leaf_combine _ _)
  · rw [node_of_le (Nat.not_lt.mp hlt)] at h
    exact absurd h hc.leaf_placeholder

end Separated

end Nodes

/-! ## Full trees -/

/-- The full trees that cover the first `m` places of a level, from left to right. -/
def frozen (l m : ℕ) : List (ℕ × ℕ) :=
  if m = 0 then [] else frozen (l + 1) (m / 2) ++ if m % 2 = 1 then [(l, m - 1)] else []
termination_by m
decreasing_by exact Nat.div_lt_self (by omega) one_lt_two

@[simp] theorem frozen_zero (l : ℕ) : frozen l 0 = [] := by
  rw [frozen, if_pos rfl]

theorem frozen_two_mul (l q : ℕ) : frozen l (2 * q) = frozen (l + 1) q := by
  by_cases hq : q = 0
  · rw [hq, mul_zero, frozen_zero, frozen_zero]
  · rw [frozen, if_neg (by omega), if_neg (by omega), List.append_nil]
    congr 1
    omega

theorem frozen_two_mul_add_one (l q : ℕ) :
    frozen l (2 * q + 1) = frozen (l + 1) q ++ [(l, 2 * q)] := by
  rw [frozen, if_neg (by omega), if_pos (by omega)]
  congr 2
  omega

theorem frozen_two_pow_mul (l t q : ℕ) : frozen l (2 ^ t * q) = frozen (l + t) q := by
  induction t generalizing l with
  | zero => rw [pow_zero, one_mul, add_zero]
  | succ t ih =>
    have heq : 2 ^ (t + 1) * q = 2 * (2 ^ t * q) := by ring
    rw [heq, frozen_two_mul, ih]
    congr 1
    omega

/-- One tree for each binary digit. -/
theorem length_frozen (l m : ℕ) : (frozen l m).length = m.bits.count true := by
  induction m using Nat.evenOddRec generalizing l with
  | h0 => rw [frozen_zero]; rfl
  | h_even q ih => rw [frozen_two_mul, ih, BitWords.count_bits_two_mul]
  | h_odd q ih =>
    rw [frozen_two_mul_add_one, List.length_append, ih, BitWords.count_bits_two_mul_add_one]
    rfl

/-- The trees are full and cover what is to be covered. -/
theorem mem_frozen_le {l m : ℕ} {p : ℕ × ℕ} (h : p ∈ frozen l m) :
    l ≤ p.1 ∧ (p.2 + 1) * 2 ^ p.1 ≤ m * 2 ^ l := by
  induction m using Nat.evenOddRec generalizing l with
  | h0 =>
    rw [frozen_zero] at h
    cases h
  | h_even q ih =>
    rw [frozen_two_mul] at h
    obtain ⟨hle, hbound⟩ := ih h
    exact ⟨by omega, le_of_le_of_eq hbound (by ring)⟩
  | h_odd q ih =>
    rw [frozen_two_mul_add_one, List.mem_append, List.mem_singleton] at h
    obtain h | rfl := h
    · obtain ⟨hle, hbound⟩ := ih h
      refine ⟨by omega, hbound.trans ?_⟩
      rw [show q * 2 ^ (l + 1) = 2 * q * 2 ^ l by ring]
      exact Nat.mul_le_mul_right _ (by omega)
    · exact ⟨le_rfl, le_rfl⟩

theorem exists_mem_frozen {l m i : ℕ} (h : i < m * 2 ^ l) :
    ∃ p ∈ frozen l m, i / 2 ^ p.1 = p.2 := by
  induction m using Nat.evenOddRec generalizing l with
  | h0 => omega
  | h_even q ih =>
    rw [frozen_two_mul]
    exact ih (lt_of_lt_of_eq h (by ring))
  | h_odd q ih =>
    rw [frozen_two_mul_add_one]
    by_cases hlt : i < q * 2 ^ (l + 1)
    · obtain ⟨p, hp, heq⟩ := ih hlt
      exact ⟨p, List.mem_append_left _ hp, heq⟩
    · refine ⟨(l, 2 * q), List.mem_append_right _ List.mem_cons_self, ?_⟩
      refine Nat.div_eq_of_lt_le ?_ h
      exact le_of_eq_of_le (by ring) (Nat.not_lt.mp hlt)

/-- A full tree that is smaller than all others comes last. -/
theorem frozen_add_two_pow {m s : ℕ} (h : 2 ^ (s + 1) ∣ m) :
    frozen 0 (m + 2 ^ s) = frozen 0 m ++ [(s, m / 2 ^ s)] := by
  obtain ⟨q, rfl⟩ := h
  rw [show 2 ^ (s + 1) * q + 2 ^ s = 2 ^ s * (2 * q + 1) by ring, frozen_two_pow_mul,
    frozen_two_mul_add_one, frozen_two_pow_mul, show 2 ^ (s + 1) * q = 2 * q * 2 ^ s by ring,
    Nat.mul_div_cancel _ (Nat.two_pow_pos s), Nat.zero_add, Nat.zero_add]

/-! ## Growing -/

/-- The level of the largest full tree that can start at leaf `n` and has at most `r` leaves. -/
def growLevel (n r : ℕ) : ℕ := Nat.findGreatest (fun s => 2 ^ s ∣ n ∧ 2 ^ s ≤ r) r

theorem growLevel_eq {n r s : ℕ} (hdvd : 2 ^ s ∣ n) (hle : 2 ^ s ≤ r)
    (hmax : ∀ s' > s, 2 ^ s' ∣ n → r < 2 ^ s') : growLevel n r = s := by
  rw [growLevel, Nat.findGreatest_eq_iff]
  refine ⟨Nat.lt_two_pow_self.le.trans hle, fun _ => ⟨hdvd, hle⟩, fun s' hs' _ hp => ?_⟩
  exact absurd (hmax s' hs' hp.1) (Nat.not_lt.mpr hp.2)

theorem growLevel_spec (n : ℕ) {r : ℕ} (hr : 0 < r) :
    2 ^ growLevel n r ∣ n ∧ 2 ^ growLevel n r ≤ r :=
  Nat.findGreatest_spec (P := fun s => 2 ^ s ∣ n ∧ 2 ^ s ≤ r) (Nat.zero_le r)
    ⟨one_dvd n, hr⟩

theorem growLevel_odd {t q r : ℕ} (hr : 2 ^ t ≤ r) : growLevel (2 ^ t * (2 * q + 1)) r = t := by
  refine growLevel_eq (Dvd.intro _ rfl) hr fun s' hs' hdvd => ?_
  have htwo : 2 ^ t * 2 ∣ 2 ^ t * (2 * q + 1) := (pow_succ 2 t ▸ pow_dvd_pow 2 hs').trans hdvd
  have := Nat.dvd_of_mul_dvd_mul_left (Nat.two_pow_pos t) htwo
  omega

theorem growLevel_of_lt {n r t : ℕ} (hn : 2 ^ t ∣ n) (hr : r < 2 ^ t) (hpos : 0 < r) :
    growLevel n r = Nat.log 2 r := by
  have hle : 2 ^ Nat.log 2 r ≤ r := Nat.pow_log_le_self 2 hpos.ne'
  have hlt : r < 2 ^ (Nat.log 2 r + 1) := Nat.lt_pow_succ_log_self one_lt_two r
  have hst : Nat.log 2 r < t := (Nat.pow_lt_pow_iff_right one_lt_two).mp (lt_of_le_of_lt hle hr)
  refine growLevel_eq ((pow_dvd_pow 2 hst.le).trans hn) hle fun s' hs' _ => ?_
  exact lt_of_lt_of_le hlt (Nat.pow_le_pow_right two_pos hs')

/-- The full trees that are put behind `n` leaves, when there are `r` more. -/
def grow (n r : ℕ) : List (ℕ × ℕ) :=
  if r = 0 then []
  else
    (growLevel n r, n / 2 ^ growLevel n r) ::
      grow (n + 2 ^ growLevel n r) (r - 2 ^ growLevel n r)
termination_by r
decreasing_by exact Nat.sub_lt (by omega) (Nat.two_pow_pos _)

@[simp] theorem grow_zero (n : ℕ) : grow n 0 = [] := by
  rw [grow, if_pos rfl]

theorem grow_eq {n r s : ℕ} (hs : growLevel n r = s) (hr : r ≠ 0) :
    grow n r = (s, n / 2 ^ s) :: grow (n + 2 ^ s) (r - 2 ^ s) := by
  subst hs
  rw [grow, if_neg hr]

theorem mem_grow_le {n r : ℕ} {p : ℕ × ℕ} (h : p ∈ grow n r) : (p.2 + 1) * 2 ^ p.1 ≤ n + r := by
  induction r using Nat.strong_induction_on generalizing n with
  | _ r ih =>
    obtain rfl | hpos := Nat.eq_zero_or_pos r
    · rw [grow_zero] at h
      cases h
    · obtain ⟨hdvd, hle⟩ := growLevel_spec n hpos
      rw [grow_eq rfl hpos.ne', List.mem_cons] at h
      obtain rfl | h := h
      · dsimp only
        rw [Nat.add_mul, Nat.div_mul_cancel hdvd]
        omega
      · have hrest := ih (r - 2 ^ growLevel n r) (Nat.sub_lt hpos (Nat.two_pow_pos _)) h
        omega

/-- Smaller trees than all those that are there only come behind them. -/
theorem frozen_add {n r t : ℕ} (hn : 2 ^ t ∣ n) (hr : r < 2 ^ t) :
    frozen 0 (n + r) = frozen 0 n ++ grow n r := by
  induction r using Nat.strong_induction_on generalizing n t with
  | _ r ih =>
    obtain rfl | hpos := Nat.eq_zero_or_pos r
    · rw [grow_zero, List.append_nil, Nat.add_zero]
    · have hle : 2 ^ Nat.log 2 r ≤ r := Nat.pow_log_le_self 2 hpos.ne'
      have hlt : r < 2 ^ (Nat.log 2 r + 1) := Nat.lt_pow_succ_log_self one_lt_two r
      have hst : Nat.log 2 r + 1 ≤ t :=
        (Nat.pow_lt_pow_iff_right one_lt_two).mp (lt_of_le_of_lt hle hr)
      have hdvd : 2 ^ (Nat.log 2 r + 1) ∣ n := (pow_dvd_pow 2 hst).trans hn
      have hdvd' : 2 ^ Nat.log 2 r ∣ n := (pow_dvd_pow 2 (Nat.le_succ _)).trans hdvd
      have hlevel := growLevel_of_lt hn hr hpos
      have hrest := ih (r - 2 ^ Nat.log 2 r) (Nat.sub_lt hpos (Nat.two_pow_pos _))
        (n := n + 2 ^ Nat.log 2 r) (t := Nat.log 2 r) (Nat.dvd_add_self_right.mpr hdvd')
        (by rw [pow_succ] at hlt; omega)
      rw [show n + 2 ^ Nat.log 2 r + (r - 2 ^ Nat.log 2 r) = n + r by omega,
        frozen_add_two_pow hdvd] at hrest
      rw [hrest, grow_eq hlevel hpos.ne', List.append_assoc, List.singleton_append]

section Frozen
variable {H : Type} (c : Hashing H) {leaves leaves' more : List H} {l m : ℕ}

def frozenNodes (leaves : List H) (l m : ℕ) : List H :=
  (frozen l m).map fun p => node c leaves p.1 p.2

variable {c}

theorem length_frozenNodes : (frozenNodes c leaves l m).length = m.bits.count true := by
  rw [frozenNodes, List.length_map, length_frozen]

@[simp] theorem frozenNodes_zero : frozenNodes c leaves l 0 = [] := by
  rw [frozenNodes, frozen_zero, List.map_nil]

theorem frozenNodes_two_mul (q : ℕ) :
    frozenNodes c leaves l (2 * q) = frozenNodes c leaves (l + 1) q := by
  rw [frozenNodes, frozen_two_mul, frozenNodes]

theorem frozenNodes_two_mul_add_one (q : ℕ) :
    frozenNodes c leaves l (2 * q + 1) =
      frozenNodes c leaves (l + 1) q ++ [node c leaves l (2 * q)] := by
  rw [frozenNodes, frozen_two_mul_add_one, List.map_append, frozenNodes, List.map_singleton]

theorem frozenNodes_two_pow_mul (t q : ℕ) :
    frozenNodes c leaves l (2 ^ t * q) = frozenNodes c leaves (l + t) q := by
  rw [frozenNodes, frozen_two_pow_mul, frozenNodes]

theorem length_frozenNodes_pos (hm : m ≠ 0) : 0 < (frozenNodes c leaves l m).length := by
  obtain ⟨p, hp, -⟩ := exists_mem_frozen (l := l) (m := m) (i := 0)
    (Nat.mul_pos (Nat.pos_of_ne_zero hm) (Nat.two_pow_pos l))
  rw [frozenNodes, List.length_map]
  exact List.length_pos_of_mem hp

theorem frozenNodes_append (h : m * 2 ^ l ≤ leaves.length) :
    frozenNodes c (leaves ++ more) l m = frozenNodes c leaves l m :=
  List.map_congr_left fun _ hp => node_append ((mem_frozen_le hp).2.trans h)

/-- The full trees tell the leaves. -/
theorem prefix_of_frozenNodes_eq (hc : c.Injective) (hlength : leaves.length ≤ leaves'.length)
    (h : frozenNodes c leaves 0 leaves.length = frozenNodes c leaves' 0 leaves.length) :
    leaves <+: leaves' := by
  rw [List.prefix_iff_getElem?]
  intro i hi
  obtain ⟨p, hp, hdiv⟩ := exists_mem_frozen (l := 0) (m := leaves.length) (i := i) (by omega)
  obtain ⟨-, hle⟩ := mem_frozen_le hp
  rw [pow_zero, mul_one] at hle
  rw [← List.getElem?_eq_getElem hi]
  refine (getElem?_eq_of_node_eq hc (fun j hj => ?_) (List.map_inj_left.mp h p hp) hdiv).symm
  have hlt := lt_of_div_eq hj hle
  exact iff_of_true hlt (by omega)

end Frozen

end Anthemius.PaddedTree
