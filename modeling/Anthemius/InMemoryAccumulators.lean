import Anthemius.Outcomes
import Anthemius.Positions
import Mathlib.Data.Nat.Bitwise

/-!
# Accumulators in memory

An accumulator keeps the roots of its full trees. Numbers of leaves are words of 64 bits in the
source and natural numbers here, and no sum below is larger than a word for an accumulator that can
be built. While trees are merged their roots are a stack with the last one on top.
-/
namespace Anthemius.Accumulators
open PaddedTree BitWords Outcomes

def maxAccumulatorProofDepth : ℕ := 63

def maxAccumulatorLeaves : ℕ := 1 <<< maxAccumulatorProofDepth

/-- The errors with what their texts show. -/
inductive AccumulatorError (H : Type)
  | frozenSubtreesDoNotMatch (numRoots : ℕ) (numLeaves : ℕ)
  | tooManyNewLeaves (numLeaves numNewLeaves : ℕ)
  | tooFewSubtrees
  | missingNode (position : Position)
  | invalidLeafIndex (leafIndex numLeaves : ℕ)
  | newerThanLocal (numLeaves subAccLeaves : ℕ)
  | numLeavesNotZero
  | numLeavesZero
  | tooManyLeaves
  | invalidLastLeafIndex (lastLeafIndex numLeaves : ℕ)

structure InMemoryAccumulator (H : Type) where
  frozenSubtreeRoots : List H
  numLeaves : ℕ
  rootHash : H
  deriving DecidableEq

namespace InMemoryAccumulator
variable {H : Type} (c : Hashing H)

/-- One round for each bit, at most 64. The roots come from the last to the first. -/
def computeRootLoop : ℕ → ℕ → List H → H → Option H
  | 0, _, _, currentHash => some currentHash
  | fuel + 1, bitmap, roots, currentHash =>
    if bitmap = 0 then some currentHash
    else if bitmap &&& 1 ≠ 0 then
      match roots with
      | [] => none
      | frozen :: rest => computeRootLoop fuel (bitmap >>> 1) rest (c.combine frozen currentHash)
    else computeRootLoop fuel (bitmap >>> 1) roots (c.combine currentHash c.placeholder)

def computeRootHash (frozenSubtreeRoots : List H) (numLeaves : ℕ) : Option H :=
  match frozenSubtreeRoots with
  | [] => some c.placeholder
  | [single] => some single
  | roots =>
    computeRootLoop c 64 (numLeaves >>> trailingZeros (BitVec.ofNat 64 numLeaves)) roots.reverse
      c.placeholder

def new (frozenSubtreeRoots : List H) (numLeaves : ℕ) :
    Outcome (AccumulatorError H) (InMemoryAccumulator H) := do
  ensure (frozenSubtreeRoots.length = countOnes (BitVec.ofNat 64 numLeaves))
    (.frozenSubtreesDoNotMatch frozenSubtreeRoots.length numLeaves)
  let rootHash ← expect (computeRootHash c frozenSubtreeRoots numLeaves)
  pure ⟨frozenSubtreeRoots, numLeaves, rootHash⟩

def newEmpty : InMemoryAccumulator H := ⟨[], 0, c.placeholder⟩

/-- The last two trees become one. -/
def mergeLast : List H → Option (List H)
  | right :: left :: rest => some (c.combine left right :: rest)
  | _ => none

/-- Adding one to the number of leaves carries once for each one at its end. -/
def appendOne (roots : List H) (numExistingLeaves : ℕ) (leaf : H) : Option (List H) :=
  (List.range (trailingZeros (~~~ BitVec.ofNat 64 numExistingLeaves))).foldlM
    (fun roots _ => mergeLast c roots) (leaf :: roots)

def appendLeaves (roots : List H) (numLeaves : ℕ) : List H → Option (List H × ℕ)
  | [] => some (roots, numLeaves)
  | leaf :: leaves => do
    let merged ← appendOne c roots numLeaves leaf
    appendLeaves merged (numLeaves + 1) leaves

variable (a : InMemoryAccumulator H)

/-- Roots that do not match the number of leaves are a crash here. -/
def append (leaves : List H) : Option (InMemoryAccumulator H) := do
  let (roots, numLeaves) ← appendLeaves c a.frozenSubtreeRoots.reverse a.numLeaves leaves
  match (new c roots.reverse numLeaves).run with
  | some (.ok appended) => some appended
  | some (.error _) | none => none

/-- One append after the other. -/
def appendBatches (batches : List (List H)) : Option (InMemoryAccumulator H) :=
  batches.foldlM (fun a batch => a.append c batch) a

/-- A tree of size `2 ^ t` is merged with the trees of the same size that are there. -/
def mergeSubtree (numLeaves : ℕ) (roots : List H) (currentHash : H) (t : ℕ) :
    Option (List H × ℕ) :=
  if numLeaves &&& 1 <<< t ≠ 0 then
    match roots with
    | [] => none
    | left :: rest => mergeSubtree numLeaves rest (c.combine left currentHash) (t + 1)
  else some (currentHash :: roots, t)

/-- The last tree has size `2 ^ t`. What is left of the subtrees when they are all smaller is
appended. -/
def appendSubtreesLoop (subtrees roots : List H) (numLeaves remaining : ℕ) (t : ℕ) :
    Outcome (AccumulatorError H) (List H × ℕ) :=
  if 1 <<< t ≤ remaining then
    match subtrees with
    | [] => throw .tooFewSubtrees
    | subtree :: rest => do
      let (merged, t') ← expect (mergeSubtree c numLeaves roots subtree t)
      appendSubtreesLoop rest merged (numLeaves + 1 <<< t) (remaining - 1 <<< t) t'
  else pure (subtrees.reverse ++ roots, numLeaves + remaining)

def appendSubtrees (subtrees : List H) (numNewLeaves : ℕ) :
    Outcome (AccumulatorError H) (InMemoryAccumulator H) := do
  assert (a.numLeaves ≤ maxAccumulatorLeaves)
  ensure (numNewLeaves ≤ maxAccumulatorLeaves - a.numLeaves)
    (.tooManyNewLeaves a.numLeaves numNewLeaves)
  if a.numLeaves = 0 then new c subtrees numNewLeaves
  else do
    let (roots, numLeaves) ← appendSubtreesLoop c subtrees a.frozenSubtreeRoots.reverse
      a.numLeaves numNewLeaves (trailingZeros (BitVec.ofNat 64 a.numLeaves))
    new c roots.reverse numLeaves

def version : ℕ := if a.numLeaves = 0 then 0 else a.numLeaves - 1

/-! ## The root -/

variable {c} {leaves : List H}

theorem computeRootLoop_odd {fuel q : ℕ} {frozen hash : H} {rest : List H} :
    computeRootLoop c (fuel + 1) (2 * q + 1) (frozen :: rest) hash =
      computeRootLoop c fuel q rest (c.combine frozen hash) := by
  rw [computeRootLoop, if_neg (by omega), if_pos (by rw [Nat.and_one_is_mod]; omega),
    Nat.shiftRight_one, show (2 * q + 1) / 2 = q by omega]

theorem computeRootLoop_even {fuel q : ℕ} {hash : H} {roots : List H} (hq : q ≠ 0) :
    computeRootLoop c (fuel + 1) (2 * q) roots hash =
      computeRootLoop c fuel q roots (c.combine hash c.placeholder) := by
  rw [computeRootLoop.eq_def]
  dsimp only
  rw [if_neg (by omega), if_neg (by rw [Nat.and_one_is_mod]; omega), Nat.shiftRight_one,
    show 2 * q / 2 = q by omega]

theorem size_two_mul_add_one (q : ℕ) : (2 * q + 1).size = q.size + 1 :=
  Nat.size_bit (b := true) (n := q) (by simp)

theorem size_two_mul {q : ℕ} (hq : q ≠ 0) : (2 * q).size = q.size + 1 :=
  Nat.size_bit (b := false) (n := q) (by simpa using hq)

/-- From the level `l` on, the hash is that of the node behind the full trees. -/
theorem computeRootLoop_eq {fuel l b : ℕ} (hb : b < 2 ^ fuel) (hle : b * 2 ^ l ≤ leaves.length)
    (hub : leaves.length ≤ (b + 1) * 2 ^ l) (hpart : b % 2 = 1 ∨ b * 2 ^ l < leaves.length) :
    computeRootLoop c fuel b (frozenNodes c leaves l b).reverse (node c leaves l b) =
      some (node c leaves (l + b.size) 0) := by
  induction fuel generalizing l b with
  | zero =>
    obtain rfl : b = 0 := by omega
    rfl
  | succ fuel ih =>
    have hpow : 0 < 2 ^ l := Nat.two_pow_pos l
    obtain ⟨q, rfl | rfl⟩ := b.even_or_odd'
    · by_cases hq : q = 0
      · subst hq
        rfl
      · have hlt : q * 2 ^ (l + 1) < leaves.length := by
          refine lt_of_eq_of_lt (by ring) (hpart.resolve_left (by omega))
        rw [computeRootLoop_even hq, frozenNodes_two_mul, ← node_of_le hub, ← node_succ hlt,
          ih (by omega) hlt.le ?_ (Or.inr hlt), size_two_mul hq]
        · congr 2
          omega
        · refine hub.trans ?_
          rw [show (q + 1) * 2 ^ (l + 1) = (2 * q + 2) * 2 ^ l by ring]
          exact Nat.mul_le_mul_right _ (by omega)
    · have hlt : q * 2 ^ (l + 1) < leaves.length := by
        refine lt_of_lt_of_le ?_ hle
        rw [show q * 2 ^ (l + 1) = 2 * q * 2 ^ l by ring]
        exact Nat.mul_lt_mul_of_pos_right (by omega) hpow
      rw [frozenNodes_two_mul_add_one, List.reverse_append, List.reverse_singleton,
        List.singleton_append, computeRootLoop_odd, ← node_succ hlt,
        ih (by omega) hlt.le (le_of_le_of_eq hub (by ring)) (Or.inr hlt), size_two_mul_add_one]
      congr 2
      omega

theorem clog_eq_size {n : ℕ} (h : ∀ t, n ≠ 2 ^ t) : Nat.clog 2 n = n.size := by
  refine le_antisymm (Nat.clog_le_of_le_pow (Nat.size_le.mp le_rfl).le) ?_
  rw [Nat.size_le]
  exact lt_of_le_of_ne (Nat.le_pow_clog one_lt_two n) (h _)

theorem size_two_pow_mul (t : ℕ) {q : ℕ} (hq : q ≠ 0) : (2 ^ t * q).size = t + q.size := by
  induction t with
  | zero => rw [pow_zero, one_mul, zero_add]
  | succ t ih =>
    have hne : 2 ^ t * q ≠ 0 := Nat.mul_ne_zero (Nat.two_pow_pos t).ne' hq
    rw [show 2 ^ (t + 1) * q = 2 * (2 ^ t * q) by ring, size_two_mul hne, ih]
    omega

theorem ofNat_toNat {n : ℕ} (h : n < 2 ^ 64) : (BitVec.ofNat 64 n).toNat = n := by
  rw [BitVec.toNat_ofNat, Nat.mod_eq_of_lt h]

theorem computeRootHash_of_length {roots : List H} {n : ℕ} (h : 2 ≤ roots.length) :
    computeRootHash c roots n =
      computeRootLoop c 64 (n >>> trailingZeros (BitVec.ofNat 64 n)) roots.reverse
        c.placeholder := by
  obtain _ | ⟨_, _ | ⟨_, _⟩⟩ := roots
  · cases h
  · cases h with
    | step h => cases h
  · rfl

theorem computeRootHash_eq (h : leaves.length < 2 ^ 64) :
    computeRootHash c (frozenNodes c leaves 0 leaves.length) leaves.length =
      some (root c leaves) := by
  obtain hzero | hpos := Nat.eq_zero_or_pos leaves.length
  · rw [hzero, frozenNodes_zero, computeRootHash, root, node_of_le]
    omega
  · obtain ⟨t, q, hn⟩ := exists_two_pow_mul hpos
    have htrailing := trailingZeros_eq ((ofNat_toNat h).trans hn)
    have hroots : frozenNodes c leaves 0 leaves.length =
        frozenNodes c leaves (t + 1) q ++ [node c leaves t (2 * q)] := by
      rw [hn, frozenNodes_two_pow_mul, zero_add, frozenNodes_two_mul_add_one]
    by_cases hq : q = 0
    · -- one full tree
      subst hq
      rw [hroots, frozenNodes_zero, List.nil_append, computeRootHash, root, hn, mul_zero,
        zero_add, mul_one, Nat.clog_pow 2 t one_lt_two]
    · have hnot : ∀ s, leaves.length ≠ 2 ^ s := by
        intro s heq
        obtain ⟨k, -, hk⟩ := (Nat.dvd_prime_pow Nat.prime_two).mp
          (Dvd.intro_left (2 ^ t) (hn.symm.trans heq))
        cases k with
        | zero => omega
        | succ k => omega
      have hlength : 2 ≤ (frozenNodes c leaves 0 leaves.length).length := by
        have hsome : 0 < (frozenNodes c leaves (t + 1) q).length := length_frozenNodes_pos hq
        rw [hroots, List.length_append, List.length_singleton]
        omega
      have hend : leaves.length = (2 * q + 1) * 2 ^ t := by
        rw [hn, mul_comm]
      have hloop := @computeRootLoop_eq H c leaves 64 t _
        (lt_of_le_of_lt (Nat.le_mul_of_pos_left _ (Nat.two_pow_pos t)) (hn ▸ h)) hend.ge
        (hend.le.trans (Nat.mul_le_mul_right _ (by omega))) (Or.inl (by omega))
      rw [computeRootHash_of_length hlength, htrailing, root, clog_eq_size hnot, hn,
        Nat.shiftRight_eq_div_pow, Nat.mul_div_cancel_left _ (Nat.two_pow_pos t),
        frozenNodes_two_pow_mul, zero_add, size_two_pow_mul t (by omega), ← hloop,
        node_of_le hend.le]

/-! ## Appending leaves -/

variable (c) in
/-- What the accumulator of a list of leaves is. -/
def summary (leaves : List H) : InMemoryAccumulator H :=
  ⟨frozenNodes c leaves 0 leaves.length, leaves.length, root c leaves⟩

theorem new_summary (h : leaves.length < 2 ^ 64) :
    Returns (new c (frozenNodes c leaves 0 leaves.length) leaves.length) (summary c leaves) := by
  rw [new]
  simp only [returns_bind, returns_ensure, returns_expect, returns_pure]
  refine ⟨(), ?_, root c leaves, computeRootHash_eq h, rfl⟩
  rw [length_frozenNodes, countOnes_eq, ofNat_toNat h]

theorem mergeLast_eq {l q : ℕ} (h : q * 2 ^ (l + 1) < leaves.length) :
    mergeLast c (node c leaves l (2 * q + 1) :: (frozenNodes c leaves l (2 * q + 1)).reverse) =
      some (node c leaves (l + 1) q :: (frozenNodes c leaves (l + 1) q).reverse) := by
  rw [frozenNodes_two_mul_add_one, List.reverse_append, List.reverse_singleton,
    List.singleton_append, mergeLast, node_succ h]

/-- A node behind the full trees of its level is merged with those that end in it. -/
theorem carry_eq {t l m q : ℕ} (hm : m + 1 = 2 ^ t * (2 * q + 1))
    (h : m * 2 ^ l < leaves.length) :
    (List.range t).foldlM (fun roots _ => mergeLast c roots)
        (node c leaves l m :: (frozenNodes c leaves l m).reverse) =
      some (frozenNodes c leaves l (m + 1)).reverse := by
  induction t generalizing l m with
  | zero =>
    obtain rfl : m = 2 * q := by omega
    rw [List.range_zero, List.foldlM_nil, frozenNodes_two_mul_add_one, List.reverse_append,
      List.reverse_singleton, List.singleton_append, frozenNodes_two_mul]
    rfl
  | succ t ih =>
    have hsplit : 2 ^ (t + 1) * (2 * q + 1) = 2 * (2 ^ t * (2 * q + 1)) := by ring
    obtain ⟨m', rfl⟩ : ∃ m', m = 2 * m' + 1 := ⟨2 ^ t * (2 * q + 1) - 1, by
      have hpos : 0 < 2 ^ t * (2 * q + 1) := Nat.mul_pos (Nat.two_pow_pos t) (by omega)
      omega⟩
    have hlt : m' * 2 ^ (l + 1) < leaves.length := by
      refine lt_of_le_of_lt ?_ h
      rw [show m' * 2 ^ (l + 1) = 2 * m' * 2 ^ l by ring]
      exact Nat.mul_le_mul_right _ (by omega)
    rw [List.range_succ_eq_map, List.foldlM_cons, mergeLast_eq hlt, Option.bind_eq_bind,
      Option.bind_some, List.foldlM_map,
      show 2 * m' + 1 + 1 = 2 * (m' + 1) by ring, frozenNodes_two_mul]
    exact ih (by omega) hlt

theorem appendOne_eq {leaf : H} (h : leaves.length < 2 ^ 64) :
    appendOne c (frozenNodes c leaves 0 leaves.length).reverse leaves.length leaf =
      some (frozenNodes c (leaves ++ [leaf]) 0 (leaves ++ [leaf]).length).reverse := by
  obtain ⟨t, q, hn⟩ := exists_two_pow_mul (Nat.succ_pos leaves.length)
  have hlast : node c (leaves ++ [leaf]) 0 leaves.length = leaf := by
    rw [node, List.getD_eq_getElem?_getD, List.getElem?_concat_length]
    rfl
  have hlt : leaves.length * 2 ^ 0 < (leaves ++ [leaf]).length := by
    rw [List.length_append, List.length_singleton]
    omega
  have hcarry := carry_eq (c := c) hn hlt
  rw [hlast, frozenNodes_append (by rw [pow_zero, mul_one])] at hcarry
  rw [appendOne, trailingZeros_not (by rw [ofNat_toNat h]; exact hn), hcarry, List.length_append,
    List.length_singleton]

theorem appendLeaves_eq {more : List H} (h : (leaves ++ more).length ≤ 2 ^ 64) :
    appendLeaves c (frozenNodes c leaves 0 leaves.length).reverse leaves.length more =
      some ((frozenNodes c (leaves ++ more) 0 (leaves ++ more).length).reverse,
        (leaves ++ more).length) := by
  induction more generalizing leaves with
  | nil => rw [List.append_nil, appendLeaves]
  | cons leaf more ih =>
    rw [show leaves ++ leaf :: more = leaves ++ [leaf] ++ more by simp] at h ⊢
    have hlength : (leaves ++ [leaf]).length = leaves.length + 1 := by
      rw [List.length_append, List.length_singleton]
    have hlt : leaves.length < 2 ^ 64 := by
      rw [List.length_append, hlength] at h
      omega
    rw [appendLeaves, appendOne_eq hlt, Option.bind_eq_bind, Option.bind_some, ← hlength, ih h]

theorem append_summary {more : List H} (h : (leaves ++ more).length < 2 ^ 64) :
    (summary c leaves).append c more = some (summary c (leaves ++ more)) := by
  have hnew := new_summary (c := c) h
  rw [Returns] at hnew
  rw [append, summary, appendLeaves_eq h.le, Option.bind_eq_bind, Option.bind_some]
  dsimp only
  rw [List.reverse_reverse, hnew]

theorem appendBatches_summary {batches : List (List H)}
    (h : (leaves ++ batches.flatten).length < 2 ^ 64) :
    appendBatches c (summary c leaves) batches = some (summary c (leaves ++ batches.flatten)) := by
  induction batches generalizing leaves with
  | nil =>
    rw [List.flatten_nil, List.append_nil]
    rfl
  | cons batch batches ih =>
    rw [List.flatten_cons, ← List.append_assoc] at h ⊢
    have hfirst : (leaves ++ batch).length < 2 ^ 64 := by
      rw [List.length_append] at h
      omega
    rw [appendBatches, List.foldlM_cons, append_summary hfirst]
    exact ih h

/-! ## Appending subtrees -/

theorem testBit_iff_and_ne_zero (n t : ℕ) : n &&& 1 <<< t ≠ 0 ↔ n / 2 ^ t % 2 = 1 := by
  rw [Nat.one_shiftLeft, Nat.and_two_pow, Nat.testBit_eq_decide_div_mod_eq]
  have hpos : 0 < 2 ^ t := Nat.two_pow_pos t
  by_cases hbit : n / 2 ^ t % 2 = 1
  · simp [hbit]
  · simp [hbit]

/-- The merging of a subtree carries as the adding of a leaf does. -/
theorem mergeSubtree_eq {n s q t : ℕ} {roots : List H} {hash : H}
    (h : n / 2 ^ t + 1 = 2 ^ s * (2 * q + 1)) :
    mergeSubtree c n roots hash t =
      ((List.range s).foldlM (fun roots _ => mergeLast c roots) (hash :: roots)).map
        (·, t + s) := by
  induction s generalizing roots hash t with
  | zero =>
    have heven : ¬ n &&& 1 <<< t ≠ 0 := by
      rw [testBit_iff_and_ne_zero]
      omega
    rw [mergeSubtree.eq_def, if_neg heven]
    rfl
  | succ s ih =>
    have hsplit : 2 ^ (s + 1) * (2 * q + 1) = 2 * (2 ^ s * (2 * q + 1)) := by ring
    have hodd : n &&& 1 <<< t ≠ 0 := by
      rw [testBit_iff_and_ne_zero]
      omega
    rw [mergeSubtree.eq_def, if_pos hodd, List.range_succ_eq_map, List.foldlM_cons]
    cases roots with
    | nil => rfl
    | cons left rest =>
      have hnext := @ih (t + 1) rest (c.combine left hash) (by rw [div_two_pow_succ]; omega)
      rw [mergeLast, Option.bind_eq_bind, Option.bind_some, List.foldlM_map]
      dsimp only
      rw [hnext, show t + 1 + s = t + (s + 1) by omega]

theorem two_pow_mul_odd_add (t q s q' : ℕ) (h : 2 * q + 1 + 1 = 2 ^ s * (2 * q' + 1)) :
    2 ^ t * (2 * q + 1) + 2 ^ t = 2 ^ (t + s) * (2 * q' + 1) := by
  rw [pow_add, mul_assoc, ← h]
  ring

theorem appendSubtreesLoop_cons {t q s q' r : ℕ} {subtree : H} {subtrees roots : List H}
    (hs : 2 * q + 1 + 1 = 2 ^ s * (2 * q' + 1)) (hr : 2 ^ t ≤ r)
    {result : List H × ℕ} :
    Returns (appendSubtreesLoop c (subtree :: subtrees) roots (2 ^ t * (2 * q + 1)) r t) result ↔
      ∃ merged, (List.range s).foldlM (fun roots _ => mergeLast c roots) (subtree :: roots) =
          some merged ∧
        Returns (appendSubtreesLoop c subtrees merged (2 ^ (t + s) * (2 * q' + 1)) (r - 2 ^ t)
          (t + s)) result := by
  have hdiv : 2 ^ t * (2 * q + 1) / 2 ^ t = 2 * q + 1 :=
    Nat.mul_div_cancel_left _ (Nat.two_pow_pos t)
  rw [appendSubtreesLoop, Nat.one_shiftLeft, if_pos hr, mergeSubtree_eq (by rw [hdiv, hs]),
    two_pow_mul_odd_add t q s q' hs]
  simp only [returns_bind, returns_expect, Option.map_eq_some_iff, Prod.exists, Prod.mk.injEq]
  constructor
  · rintro ⟨_, _, ⟨merged, hmerged, rfl, rfl⟩, hloop⟩
    exact ⟨merged, hmerged, hloop⟩
  · rintro ⟨merged, hmerged, hloop⟩
    exact ⟨merged, t + s, ⟨merged, hmerged, rfl, rfl⟩, hloop⟩

theorem appendSubtreesLoop_eq {t q r : ℕ} (h : 2 ^ t * (2 * q + 1) + r = leaves.length) :
    Returns (appendSubtreesLoop c
        ((grow (2 ^ t * (2 * q + 1)) r).map fun p => node c leaves p.1 p.2)
        (frozenNodes c leaves 0 (2 ^ t * (2 * q + 1))).reverse (2 ^ t * (2 * q + 1)) r t)
      ((frozenNodes c leaves 0 leaves.length).reverse, leaves.length) := by
  induction r using Nat.strong_induction_on generalizing t q with
  | _ r ih =>
    by_cases hr : 2 ^ t ≤ r
    · have hpos : 0 < 2 ^ t := Nat.two_pow_pos t
      obtain ⟨s, q', hs⟩ := exists_two_pow_mul (Nat.succ_pos (2 * q + 1))
      have hadd := two_pow_mul_odd_add t q s q' hs
      have hrest := ih (r - 2 ^ t) (by omega) (t := t + s) (q := q') (by omega)
      have hlt : (2 * q + 1) * 2 ^ t < leaves.length := by
        rw [mul_comm]
        omega
      have hcarry := carry_eq (c := c) hs hlt
      rw [frozenNodes_two_pow_mul, zero_add, grow_eq (growLevel_odd hr) (by omega),
        Nat.mul_div_cancel_left _ hpos, hadd, List.map_cons, appendSubtreesLoop_cons hs hr]
      refine ⟨_, hcarry, ?_⟩
      rwa [frozenNodes_two_pow_mul, zero_add, ← frozenNodes_two_pow_mul, ← hs] at hrest
    · rw [appendSubtreesLoop.eq_def, Nat.one_shiftLeft, if_neg hr, returns_pure, h]
      refine Prod.ext ?_ rfl
      dsimp only
      rw [← h, ← List.reverse_append, frozenNodes, frozenNodes,
        frozen_add (Dvd.intro _ rfl) (Nat.not_le.mp hr), List.map_append]

theorem appendSubtrees_summary {more : List H}
    (h : (leaves ++ more).length ≤ maxAccumulatorLeaves) :
    Returns ((summary c leaves).appendSubtrees c
        ((grow leaves.length more.length).map fun p => node c (leaves ++ more) p.1 p.2) more.length)
      (summary c (leaves ++ more)) := by
  have hword : (leaves ++ more).length < 2 ^ 64 := lt_of_le_of_lt h (by decide)
  have hnew := new_summary (c := c) hword
  rw [List.length_append] at h
  simp only [appendSubtrees, returns_bind, returns_assert, returns_ensure]
  refine ⟨(), (Nat.le_add_right _ _).trans h, (), Nat.le_sub_of_add_le' h, ?_⟩
  obtain hzero | hpos := Nat.eq_zero_or_pos leaves.length
  · obtain rfl := List.eq_nil_of_length_eq_zero hzero
    have hgrow := frozen_add (n := 0) (dvd_zero _) (Nat.lt_two_pow_self (n := more.length))
    rw [Nat.zero_add, frozen_zero, List.nil_append] at hgrow
    rw [if_pos (show (summary c []).numLeaves = 0 from rfl), List.nil_append]
    rwa [frozenNodes, List.nil_append, hgrow] at hnew
  · obtain ⟨t, q, hn⟩ := exists_two_pow_mul hpos
    have hloop := @appendSubtreesLoop_eq H c (leaves ++ more) t q more.length
      (by rw [← hn, List.length_append])
    rw [← hn, frozenNodes_append (by rw [pow_zero, mul_one])] at hloop
    have hne : (summary c leaves).numLeaves ≠ 0 := hpos.ne'
    have hlt : leaves.length < 2 ^ 64 := by
      rw [List.length_append] at hword
      omega
    rw [← trailingZeros_eq ((ofNat_toNat hlt).trans hn)] at hloop
    rw [if_neg hne, returns_bind]
    refine ⟨_, hloop, ?_⟩
    rwa [List.reverse_reverse]

end InMemoryAccumulator

end Anthemius.Accumulators
