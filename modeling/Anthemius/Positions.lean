import Anthemius.PaddedTrees

/-!
# Positions of accumulator nodes

A node is numbered by its place in the in-order traversal. The numbers are words of 64 bits. A
position is at level `l` and place `k` when its number ends in `l` ones behind a zero and the bits
of `k`. A failed assertion is `none`.
-/
namespace Anthemius.Accumulators
open BitWords PaddedTree

structure Position where
  inorderIndex : BitVec 64
  deriving DecidableEq

namespace Position

/-! ## Helper functions on words -/

/-- All ones below the first one. -/
def smearOnesForU64 (v : BitVec 64) : BitVec 64 :=
  let n := v ||| v >>> 1
  let n := n ||| n >>> 2
  let n := n ||| n >>> 4
  let n := n ||| n >>> 8
  let n := n ||| n >>> 16
  n ||| n >>> 32

def turnOffRightMostNBits (v : BitVec 64) (n : ℕ) : BitVec 64 := (v >>> n) <<< n

def isolateRightmostZeroBit (v : BitVec 64) : BitVec 64 := ~~~v &&& (v + 1)

/-! ## Moving in the tree -/

variable (p : Position)

def level : ℕ := trailingZeros (~~~p.inorderIndex)

def isLeaf : Bool := p.inorderIndex &&& 1 == 0

/-- A level is below 64. -/
def fromLevelAndPos (level : Fin 64) (pos : BitVec 64) : Position :=
  let levelOneBits := (1#64 <<< level.val) - 1
  let shiftedPos := if level = 63 then 0 else pos <<< (level.val + 1)
  ⟨shiftedPos ||| levelOneBits⟩

def fromLeafIndex (leafIndex : ℕ) : Position := fromLevelAndPos 0 (BitVec.ofNat 64 leafIndex)

/-- The invariant that is asserted before a move. -/
def Valid : Prop := p.inorderIndex < BitVec.allOnes 64 - 1

instance : Decidable p.Valid := inferInstanceAs (Decidable (p.inorderIndex < _))

def parent : Option Position :=
  if p.Valid then
    let zero := isolateRightmostZeroBit p.inorderIndex
    some ⟨(p.inorderIndex ||| zero) &&& ~~~(zero <<< 1)⟩
  else none

def leftChild : Option Position :=
  if ¬ p.isLeaf ∧ p.Valid then
    let zero := isolateRightmostZeroBit p.inorderIndex
    some ⟨(p.inorderIndex ||| 0) &&& ~~~(zero >>> 1)⟩
  else none

def rightChild : Option Position :=
  if ¬ p.isLeaf ∧ p.Valid then
    let zero := isolateRightmostZeroBit p.inorderIndex
    some ⟨(p.inorderIndex ||| zero) &&& ~~~(zero >>> 1)⟩
  else none

def isLeftChild : Option Bool :=
  if p.Valid then
    some (p.inorderIndex &&& (isolateRightmostZeroBit p.inorderIndex <<< 1) == 0)
  else none

def isRightChild : Option Bool := p.isLeftChild.map (!·)

def sibling : Option Position :=
  if p.Valid then
    some ⟨p.inorderIndex ^^^ (isolateRightmostZeroBit p.inorderIndex <<< 1)⟩
  else none

def rootFromLeafIndex (leafIndex : ℕ) : Position :=
  ⟨smearOnesForU64 (fromLeafIndex leafIndex).inorderIndex >>> 1⟩

def rootFromLeafCount (leafCount : ℕ) : Option Position :=
  if 0 < leafCount then some (rootFromLeafIndex (leafCount - 1)) else none

def rootLevelFromLeafCount (leafCount : ℕ) : Option ℕ :=
  if 0 < leafCount then some (63 + 1 - leadingZeros (BitVec.ofNat 64 (leafCount - 1))) else none

def rightMostChild : Position := ⟨p.inorderIndex + (1#64 <<< p.level) - 1⟩

def leftMostChild : Position := ⟨turnOffRightMostNBits p.inorderIndex p.level⟩

/-! ## Nodes that do not change -/

/-- All leaves below are there, when the last leaf is at the index. -/
def isFreezable (leafIndex : ℕ) : Bool :=
  p.rightMostChild.inorderIndex ≤ (fromLeafIndex leafIndex).inorderIndex

/-- No leaf below is there. -/
def isPlaceholder (leafIndex : ℕ) : Bool :=
  let leaf := (fromLeafIndex leafIndex).inorderIndex
  ¬ p.inorderIndex ≤ leaf ∧ ¬ p.leftMostChild.inorderIndex ≤ leaf

def childrenOfNode (node : BitVec 64) : BitVec 64 := (isolateRightmostZeroBit node <<< 1) - 2

def nodesToLeftOf (node : BitVec 64) : BitVec 64 :=
  let onesUpToLevel := isolateRightmostZeroBit node - 1
  let unsetLevelZeros := node ^^^ onesUpToLevel
  unsetLevelZeros - BitVec.ofNat 64 (countOnes unsetLevelZeros)

def inorderToPostorder (node : BitVec 64) : BitVec 64 := childrenOfNode node + nodesToLeftOf node

def toPostorderIndex : BitVec 64 := inorderToPostorder p.inorderIndex

/-! ## Levels and places -/

/-- The position of the node at level `l` with `k` nodes to its left. -/
def At (l k : ℕ) : Prop := p.inorderIndex.toNat + 1 = 2 ^ l * (2 * k + 1)

variable {p} {l k : ℕ}

theorem At.level_eq (h : p.At l k) : p.level = l := trailingZeros_not h

theorem At.unique {l' k' : ℕ} (h : p.At l k) (h' : p.At l' k') : (l, k) = (l', k') := by
  obtain rfl : l = l' := h.level_eq.symm.trans h'.level_eq
  have heq : 2 ^ l * (2 * k + 1) = 2 ^ l * (2 * k' + 1) := h.symm.trans h'
  have hodd := Nat.eq_of_mul_eq_mul_left (Nat.two_pow_pos l) heq
  rw [show k = k' by omega]

/-- The bit `i` of the position at level `l` and place `k`. -/
def placeBit (l k i : ℕ) : Bool :=
  if i < l then true else if i = l then false else k.testBit (i - l - 1)

theorem placeBit_of_lt {i : ℕ} (h : i < l) : placeBit l k i = true := if_pos h

@[simp] theorem placeBit_self : placeBit l k l = false := by
  rw [placeBit, if_neg (lt_irrefl l), if_pos rfl]

@[simp] theorem placeBit_add (j : ℕ) : placeBit l k (l + 1 + j) = k.testBit j := by
  rw [placeBit, if_neg (by omega), if_neg (by omega), show l + 1 + j - l - 1 = j by omega]

theorem placeBit_child {c : ℕ} (hc : c / 2 = k) (j : ℕ) :
    placeBit l c (l + 1 + (j + 1)) = placeBit (l + 1) k (l + 1 + (j + 1)) := by
  rw [placeBit_add, Nat.testBit_succ, hc, show l + 1 + (j + 1) = l + 1 + 1 + j by omega,
    placeBit_add]

@[simp] theorem placeBit_succ : placeBit l k (l + 1) = k.testBit 0 := placeBit_add 0

/-- The bits below, at and behind a level. -/
theorem bit_cases (l i : ℕ) : i < l ∨ i = l ∨ ∃ j, i = l + 1 + j := by
  obtain hlt | rfl | hgt := Nat.lt_trichotomy i l
  · exact Or.inl hlt
  · exact Or.inr (Or.inl rfl)
  · exact Or.inr (Or.inr ⟨i - (l + 1), by omega⟩)

theorem testBit_of_place {n : ℕ} (h : n + 1 = 2 ^ l * (2 * k + 1)) (i : ℕ) :
    n.testBit i = placeBit l k i := by
  rw [testBit_of_add_one_eq h]
  obtain hlt | rfl | ⟨j, rfl⟩ := bit_cases l i
  · rw [if_pos hlt, placeBit_of_lt hlt]
  · simp
  · rw [if_neg (by omega), placeBit_add, show l + 1 + j - l = j + 1 by omega, Nat.testBit_succ,
      Nat.mul_div_cancel_left k two_pos]

theorem At.getLsbD (h : p.At l k) (i : ℕ) : p.inorderIndex.getLsbD i = placeBit l k i :=
  testBit_of_place h i

theorem at_of_getLsbD (hlt : 2 ^ l * (2 * k + 1) ≤ 2 ^ 64)
    (h : ∀ i < 64, p.inorderIndex.getLsbD i = placeBit l k i) : p.At l k := by
  have hpos : 0 < 2 ^ l * (2 * k + 1) := Nat.mul_pos (Nat.two_pow_pos l) (by omega)
  have hbits := testBit_of_place (n := 2 ^ l * (2 * k + 1) - 1) (l := l) (k := k) (by omega)
  have heq : p.inorderIndex.toNat = 2 ^ l * (2 * k + 1) - 1 := by
    refine Nat.eq_of_testBit_eq fun i => ?_
    by_cases hi : i < 64
    · rw [hbits]
      exact h i hi
    · rw [Nat.testBit_lt_two_pow
          (lt_of_lt_of_le p.inorderIndex.isLt (Nat.pow_le_pow_right two_pos (by omega))),
        Nat.testBit_lt_two_pow
          (lt_of_lt_of_le (by omega : _ < 2 ^ 64) (Nat.pow_le_pow_right two_pos (by omega)))]
  rw [At, heq]
  omega

theorem valid_iff : p.Valid ↔ p.inorderIndex.toNat + 2 < 2 ^ 64 := by
  rw [Valid, BitVec.lt_def]
  have hvalue : (BitVec.allOnes 64 - 1).toNat = 2 ^ 64 - 2 := by decide
  omega

theorem At.level_lt (h : p.At l k) (hvalid : p.Valid) : l < 64 := by
  rw [valid_iff] at hvalid
  refine (Nat.pow_lt_pow_iff_right one_lt_two).mp (lt_of_le_of_lt ?_ (Nat.lt_of_succ_lt hvalid))
  rw [h]
  exact Nat.le_mul_of_pos_right _ (by omega)

theorem At.getLsbD_isolate (h : p.At l k) (hvalid : p.Valid) (i : ℕ) :
    (isolateRightmostZeroBit p.inorderIndex).getLsbD i = decide (i = l) := by
  have hlt := h.level_lt hvalid
  rw [valid_iff] at hvalid
  have hsucc : (p.inorderIndex + 1).toNat = 2 ^ l * (2 * k + 1) := by
    rw [BitVec.toNat_add, ← h]
    exact Nat.mod_eq_of_lt (Nat.lt_of_succ_lt hvalid)
  have hnext : (p.inorderIndex + 1).getLsbD i =
      (decide (l ≤ i) && (2 * k + 1).testBit (i - l)) := by
    rw [BitVec.getLsbD, hsucc, Nat.testBit_two_pow_mul]
  rw [isolateRightmostZeroBit, BitVec.getLsbD_and, BitVec.getLsbD_not, h.getLsbD, hnext]
  obtain hi | rfl | ⟨j, rfl⟩ := bit_cases l i
  · simp [placeBit_of_lt hi, hi.ne]
  · simp [hlt]
  · have hodd : (2 * k + 1).testBit (j + 1) = k.testBit j := by
      rw [Nat.testBit_succ, show (2 * k + 1) / 2 = k by omega]
    rw [placeBit_add, show l + 1 + j - l = j + 1 by omega, hodd,
      decide_eq_false (by omega : ¬ l + 1 + j = l)]
    cases k.testBit j <;> simp

theorem At.getLsbD_isolate_shiftLeft (h : p.At l k) (hvalid : p.Valid) {i : ℕ} (hi : i < 64) :
    (isolateRightmostZeroBit p.inorderIndex <<< 1).getLsbD i = decide (i = l + 1) := by
  rw [BitVec.getLsbD_shiftLeft, h.getLsbD_isolate hvalid, decide_eq_true hi, Bool.true_and]
  cases i with
  | zero => simp
  | succ i => simp

theorem At.getLsbD_isolate_ushiftRight (h : p.At l k) (hvalid : p.Valid) (i : ℕ) :
    (isolateRightmostZeroBit p.inorderIndex >>> 1).getLsbD i = decide (i + 1 = l) := by
  rw [BitVec.getLsbD_ushiftRight, h.getLsbD_isolate hvalid, Nat.add_comm]

/-- The position at a level and a place. -/
def pos (l k : ℕ) : Position := ⟨BitVec.ofNat 64 (2 ^ l * (2 * k + 1) - 1)⟩

/-- The node is above less than `2 ^ 63` leaves and not the last one. -/
def Fits (l k : ℕ) : Prop := 2 ^ l * (2 * k + 1) + 1 < 2 ^ 64

theorem pos_at (h : 2 ^ l * (2 * k + 1) ≤ 2 ^ 64) : (pos l k).At l k := by
  have hpos : 0 < 2 ^ l * (2 * k + 1) := Nat.mul_pos (Nat.two_pow_pos l) (by omega)
  rw [At, pos, BitVec.toNat_ofNat, Nat.mod_eq_of_lt (by omega)]
  omega

theorem At.eq_pos (h : p.At l k) : p = pos l k := by
  obtain ⟨index⟩ := p
  have hlt := index.isLt
  rw [At] at h
  dsimp only at h
  rw [pos, Position.mk.injEq, BitVec.toNat_eq, BitVec.toNat_ofNat, ← h, Nat.add_sub_cancel,
    Nat.mod_eq_of_lt hlt]

theorem Fits.at_pos (h : Fits l k) : (pos l k).At l k :=
  pos_at (by rw [Fits] at h; omega)

theorem Fits.valid (h : Fits l k) : (pos l k).Valid := by
  have hat := h.at_pos
  rw [At] at hat
  rw [Fits] at h
  rw [valid_iff]
  omega

theorem Valid.fits (h : (pos l k).Valid) (hle : 2 ^ l * (2 * k + 1) ≤ 2 ^ 64) : Fits l k := by
  have hat := pos_at hle
  rw [valid_iff] at h
  rw [At] at hat
  rw [Fits]
  omega

theorem Fits.level_lt (h : Fits l k) : l < 64 := h.at_pos.level_lt h.valid

/-- The bound in the words of a level. -/
theorem Fits.lt_two_pow (h : Fits l k) : 2 * k + 1 < 2 ^ (64 - l) := by
  have hsplit : 2 ^ 64 = 2 ^ l * 2 ^ (64 - l) := by
    rw [← pow_add, Nat.add_sub_cancel' h.level_lt.le]
  rw [Fits] at h
  exact Nat.lt_of_mul_lt_mul_left (hsplit ▸ (by omega : 2 ^ l * (2 * k + 1) < 2 ^ 64))

theorem mul_le_two_pow {m : ℕ} (hl : l ≤ 64) (h : m ≤ 2 ^ (64 - l)) : 2 ^ l * m ≤ 2 ^ 64 := by
  rw [show 2 ^ 64 = 2 ^ l * 2 ^ (64 - l) by rw [← pow_add, Nat.add_sub_cancel' hl]]
  exact Nat.mul_le_mul_left _ h

theorem Fits.parent_eq (h : Fits l k) : (pos l k).parent = some (pos (l + 1) (k / 2)) := by
  have hlt := h.level_lt
  have hbound : 2 ^ (l + 1) * (2 * (k / 2) + 1) ≤ 2 ^ 64 := by
    have heven : 2 ^ (64 - l) = 2 * 2 ^ (64 - (l + 1)) := by
      rw [← pow_succ', show 64 - (l + 1) + 1 = 64 - l by omega]
    have hle := h.lt_two_pow
    exact mul_le_two_pow hlt (by omega)
  rw [parent, if_pos h.valid]
  refine congrArg some (At.eq_pos (at_of_getLsbD hbound fun i hi => ?_))
  dsimp only
  rw [BitVec.getLsbD_and, BitVec.getLsbD_or, BitVec.getLsbD_not, decide_eq_true hi,
    h.at_pos.getLsbD, h.at_pos.getLsbD_isolate h.valid,
    h.at_pos.getLsbD_isolate_shiftLeft h.valid hi]
  obtain hlow | rfl | ⟨_ | j, rfl⟩ := bit_cases l i
  · rw [placeBit_of_lt hlow, placeBit_of_lt (Nat.lt_succ_of_lt hlow)]
    simp [show ¬ i = l + 1 by omega]
  · rw [placeBit_self, placeBit_of_lt (Nat.lt_succ_self i)]
    simp
  · simp
  · rw [placeBit_child rfl]
    simp [show ¬ l + 1 + (j + 1) = l by omega]

theorem testBit_zero_eq (k : ℕ) : k.testBit 0 = (k % 2 == 1) := by
  rw [Nat.testBit_zero]
  rfl

theorem Fits.isLeftChild_eq (h : Fits l k) : (pos l k).isLeftChild = some (k % 2 == 0) := by
  rw [isLeftChild, if_pos h.valid]
  refine congrArg some ?_
  obtain heven | hodd := Nat.mod_two_eq_zero_or_one k
  · have hzero : (pos l k).inorderIndex &&&
        isolateRightmostZeroBit (pos l k).inorderIndex <<< 1 = 0 := by
      refine BitVec.eq_of_getLsbD_eq fun i hi => ?_
      rw [BitVec.getLsbD_and, h.at_pos.getLsbD, h.at_pos.getLsbD_isolate_shiftLeft h.valid hi]
      obtain rfl | hne := eq_or_ne i (l + 1)
      · rw [placeBit_succ, testBit_zero_eq, heven]
        simp
      · simp [hne]
    rw [hzero, heven]
    rfl
  · have hlt : l + 1 < 64 := by
      have hbound := h.lt_two_pow
      by_contra hge
      have hle := Nat.pow_le_pow_right two_pos (by omega : 64 - l ≤ 1)
      omega
    have hone : ((pos l k).inorderIndex &&&
        isolateRightmostZeroBit (pos l k).inorderIndex <<< 1).getLsbD (l + 1) = true := by
      rw [BitVec.getLsbD_and, h.at_pos.getLsbD, h.at_pos.getLsbD_isolate_shiftLeft h.valid hlt,
        placeBit_succ, testBit_zero_eq, hodd]
      simp
    rw [hodd]
    refine beq_eq_false_iff_ne.mpr fun heq => ?_
    rw [heq] at hone
    simp at hone

theorem Fits.isRightChild_eq (h : Fits l k) : (pos l k).isRightChild = some (k % 2 == 1) := by
  rw [isRightChild, h.isLeftChild_eq, Option.map_some]
  obtain hzero | hone := Nat.mod_two_eq_zero_or_one k
  · rw [hzero]
    rfl
  · rw [hone]
    rfl

theorem valid_of_isLeftChild {b : Bool} (h : p.isLeftChild = some b) : p.Valid := by
  by_contra hnot
  rw [isLeftChild, if_neg hnot] at h
  cases h

theorem valid_of_isRightChild {b : Bool} (h : p.isRightChild = some b) : p.Valid := by
  rw [isRightChild, Option.map_eq_some_iff] at h
  obtain ⟨b', hb', -⟩ := h
  exact valid_of_isLeftChild hb'

theorem testBit_zero_other (k : ℕ) : (other k).testBit 0 = !k.testBit 0 := by
  rw [testBit_zero_eq, testBit_zero_eq, other]
  split
  next heven =>
    rw [heven, show (k + 1) % 2 = 1 by omega]
    rfl
  next hodd =>
    rw [show k % 2 = 1 by omega, show (k - 1) % 2 = 0 by omega]
    rfl

theorem other_div_two (k : ℕ) : other k / 2 = k / 2 := by
  rw [other]
  split <;> omega

theorem Fits.sibling_eq (h : Fits l k) (hl : l < 63) :
    (pos l k).sibling = some (pos l (other k)) := by
  have hbound : 2 ^ l * (2 * other k + 1) ≤ 2 ^ 64 := by
    have hsplit : 2 ^ (64 - l) = 4 * 2 ^ (62 - l) := by
      rw [show 64 - l = 62 - l + 2 by omega, pow_add]
      ring
    have hle := h.lt_two_pow
    have hother := other_div_two k
    exact mul_le_two_pow h.level_lt.le (by omega)
  rw [sibling, if_pos h.valid]
  refine congrArg some (At.eq_pos (at_of_getLsbD hbound fun i hi => ?_))
  rw [BitVec.getLsbD_xor, h.at_pos.getLsbD, h.at_pos.getLsbD_isolate_shiftLeft h.valid hi]
  obtain hlow | rfl | ⟨_ | j, rfl⟩ := bit_cases l i
  · rw [placeBit_of_lt hlow, placeBit_of_lt hlow]
    simp [show ¬ i = l + 1 by omega]
  · simp
  · rw [placeBit_add, placeBit_add, testBit_zero_other]
    simp
  · rw [placeBit_add, placeBit_add, Nat.testBit_succ, Nat.testBit_succ, other_div_two]
    simp

theorem Fits.not_isLeaf (h : Fits (l + 1) k) : (pos (l + 1) k).isLeaf = false := by
  have hbit : ((pos (l + 1) k).inorderIndex &&& 1).getLsbD 0 = true := by
    rw [BitVec.getLsbD_and, h.at_pos.getLsbD, placeBit_of_lt (Nat.succ_pos l)]
    rfl
  refine beq_eq_false_iff_ne.mpr fun heq => ?_
  rw [heq] at hbit
  simp at hbit

theorem Fits.child_le (h : Fits (l + 1) k) : 2 ^ l * (2 * (2 * k + 1) + 1) ≤ 2 ^ 64 := by
  have hlt := h.level_lt
  have hbound := h.lt_two_pow
  have hsplit : 2 ^ (64 - l) = 2 * 2 ^ (64 - (l + 1)) := by
    rw [← pow_succ', show 64 - (l + 1) + 1 = 64 - l by omega]
  exact mul_le_two_pow (by omega) (by omega)

theorem Fits.leftChild_eq (h : Fits (l + 1) k) :
    (pos (l + 1) k).leftChild = some (pos l (2 * k)) := by
  have hbound : 2 ^ l * (2 * (2 * k) + 1) ≤ 2 ^ 64 :=
    (Nat.mul_le_mul_left _ (by omega)).trans h.child_le
  rw [leftChild, if_pos ⟨by rw [h.not_isLeaf]; exact Bool.false_ne_true, h.valid⟩]
  refine congrArg some (At.eq_pos (at_of_getLsbD hbound fun i hi => ?_))
  rw [BitVec.getLsbD_and, BitVec.getLsbD_or, BitVec.getLsbD_not, decide_eq_true hi,
    h.at_pos.getLsbD, h.at_pos.getLsbD_isolate_ushiftRight h.valid]
  obtain hlow | rfl | ⟨_ | j, rfl⟩ := bit_cases l i
  · rw [placeBit_of_lt hlow, placeBit_of_lt (Nat.lt_succ_of_lt hlow)]
    simp [hlow.ne]
  · simp
  · simp
  · rw [placeBit_child (Nat.mul_div_cancel_left k two_pos)]
    simp [show ¬ l + 1 + (j + 1) = l by omega]

theorem Fits.rightChild_eq (h : Fits (l + 1) k) :
    (pos (l + 1) k).rightChild = some (pos l (2 * k + 1)) := by
  rw [rightChild, if_pos ⟨by rw [h.not_isLeaf]; exact Bool.false_ne_true, h.valid⟩]
  refine congrArg some (At.eq_pos (at_of_getLsbD h.child_le fun i hi => ?_))
  rw [BitVec.getLsbD_and, BitVec.getLsbD_or, BitVec.getLsbD_not, decide_eq_true hi,
    h.at_pos.getLsbD, h.at_pos.getLsbD_isolate_ushiftRight h.valid,
    h.at_pos.getLsbD_isolate h.valid]
  obtain hlow | rfl | ⟨_ | j, rfl⟩ := bit_cases l i
  · rw [placeBit_of_lt hlow, placeBit_of_lt (Nat.lt_succ_of_lt hlow)]
    simp [hlow.ne]
  · simp
  · simp
  · rw [placeBit_child (show (2 * k + 1) / 2 = k by omega)]
    simp [show ¬ l + 1 + (j + 1) = l by omega]

/-! ## Leaves below a node -/

theorem fromLeafIndex_toNat (i : ℕ) : (fromLeafIndex i).inorderIndex.toNat = 2 * i % 2 ^ 64 := by
  have hindex : (fromLeafIndex i).inorderIndex = BitVec.ofNat 64 i <<< 1 := by
    show BitVec.ofNat 64 i <<< 1 ||| 0 = _
    exact BitVec.or_zero
  rw [hindex, BitVec.toNat_shiftLeft, BitVec.toNat_ofNat, Nat.shiftLeft_eq, pow_one, Nat.mul_comm]
  omega

/-- The first bit of an index that is too large is lost. -/
theorem fromLeafIndex_eq (i : ℕ) : fromLeafIndex i = pos 0 (i % 2 ^ 63) := by
  refine At.eq_pos ?_
  rw [At, fromLeafIndex_toNat]
  omega

/-- The node is above leaves that can be counted. -/
def Within (l k : ℕ) : Prop := (k + 1) * 2 ^ l ≤ 2 ^ 63

theorem Within.at_pos (h : Within l k) : (pos l k).At l k := by
  refine pos_at ?_
  rw [Within] at h
  calc 2 ^ l * (2 * k + 1) ≤ 2 ^ l * (2 * (k + 1)) := Nat.mul_le_mul_left _ (by omega)
    _ = 2 * ((k + 1) * 2 ^ l) := by ring
    _ ≤ 2 ^ 64 := by omega

theorem Within.level_lt (h : Within l k) : l < 64 := by
  refine (Nat.pow_lt_pow_iff_right one_lt_two).mp (lt_of_le_of_lt ?_ (by decide : 2 ^ 63 < 2 ^ 64))
  exact le_trans (Nat.le_mul_of_pos_left _ (by omega)) h

theorem Within.fits (h : Within (l + 1) k) : Fits (l + 1) k := by
  rw [Within] at h
  have hpow : 2 ≤ 2 ^ (l + 1) := by
    rw [pow_succ]
    have := Nat.two_pow_pos l
    omega
  have hsplit : 2 ^ (l + 1) * (2 * k + 1) + 2 ^ (l + 1) = 2 * ((k + 1) * 2 ^ (l + 1)) := by ring
  rw [Fits]
  omega

theorem Within.right (h : Within (l + 1) k) : Within l (2 * k + 1) := by
  rw [Within] at h ⊢
  exact le_of_eq_of_le (by ring) h

theorem Within.left (h : Within (l + 1) k) : Within l (2 * k) :=
  (Nat.mul_le_mul_right _ (by omega)).trans h.right

/-- The nodes above a leaf. -/
theorem within_of_lt {i : ℕ} (hi : i < 2 ^ 63) (hl : l ≤ 63) : Within l (i / 2 ^ l) := by
  have hsplit : 2 ^ 63 = 2 ^ (63 - l) * 2 ^ l := by
    rw [← pow_add, Nat.sub_add_cancel hl]
  have hlt : i / 2 ^ l < 2 ^ (63 - l) := by
    rw [Nat.div_lt_iff_lt_mul (Nat.two_pow_pos l), ← hsplit]
    exact hi
  rw [Within, hsplit]
  exact Nat.mul_le_mul_right _ hlt

theorem fits_of_lt {i : ℕ} (hi : i + 1 < 2 ^ 63) (hl : l ≤ 63) : Fits l (i / 2 ^ l) := by
  cases l with
  | zero =>
    rw [Fits, pow_zero, Nat.div_one]
    omega
  | succ l => exact (within_of_lt (by omega) hl).fits

theorem Within.toNat_eq (h : Within l k) :
    (pos l k).inorderIndex.toNat + 1 + 2 ^ l = 2 * ((k + 1) * 2 ^ l) := by
  have hat := h.at_pos
  rw [At] at hat
  rw [hat]
  ring

theorem Within.one_shiftLeft_level (h : Within l k) :
    (1#64 <<< (pos l k).level).toNat = 2 ^ l := by
  rw [h.at_pos.level_eq, BitVec.toNat_shiftLeft, BitVec.toNat_ofNat,
    Nat.one_mod_eq_one.mpr (by decide), Nat.one_shiftLeft]
  exact Nat.mod_eq_of_lt (Nat.pow_lt_pow_right one_lt_two h.level_lt)

theorem Within.rightMostChild_toNat (h : Within l k) :
    (pos l k).rightMostChild.inorderIndex.toNat = 2 * ((k + 1) * 2 ^ l - 1) := by
  have hpos : 0 < 2 ^ l := Nat.two_pow_pos l
  have hone : (1 : BitVec 64).toNat = 1 := rfl
  have hpow := h.one_shiftLeft_level
  have hindex := h.toNat_eq
  rw [Within] at h
  have hadd : ((pos l k).inorderIndex + 1#64 <<< (pos l k).level).toNat =
      2 * ((k + 1) * 2 ^ l) - 1 := by
    rw [BitVec.toNat_add, hpow, Nat.mod_eq_of_lt (by omega)]
    omega
  rw [rightMostChild, BitVec.toNat_sub_of_le (by rw [BitVec.le_def, hadd, hone]; omega), hadd,
    hone]
  omega

theorem Within.leftMostChild_toNat (h : Within l k) :
    (pos l k).leftMostChild.inorderIndex.toNat = 2 * (k * 2 ^ l) := by
  have hpos : 0 < 2 ^ l := Nat.two_pow_pos l
  have hat := h.at_pos
  rw [At] at hat
  have hindex : (pos l k).inorderIndex.toNat / 2 ^ l = 2 * k := by
    refine Nat.div_eq_of_lt_le ?_ ?_
    · rw [Nat.mul_add, Nat.mul_one] at hat
      rw [Nat.mul_comm]
      omega
    · rw [Nat.mul_comm]
      omega
  have hlt : 2 * k * 2 ^ l < 2 ^ 64 := by
    rw [Within, Nat.add_mul] at h
    rw [Nat.mul_assoc]
    omega
  rw [leftMostChild, turnOffRightMostNBits, h.at_pos.level_eq, BitVec.toNat_shiftLeft,
    BitVec.toNat_ushiftRight, Nat.shiftRight_eq_div_pow, hindex, Nat.shiftLeft_eq,
    Nat.mod_eq_of_lt hlt, Nat.mul_assoc]

theorem Within.isFreezable_eq (h : Within l k) {i : ℕ} (hi : i < 2 ^ 63) :
    (pos l k).isFreezable i = decide ((k + 1) * 2 ^ l ≤ i + 1) := by
  have hpos : 0 < (k + 1) * 2 ^ l := Nat.mul_pos (by omega) (Nat.two_pow_pos l)
  rw [isFreezable]
  refine decide_eq_decide.mpr ?_
  rw [BitVec.le_def, h.rightMostChild_toNat, fromLeafIndex_toNat]
  omega

theorem Within.isPlaceholder_eq (h : Within l k) {i : ℕ} (hi : i < 2 ^ 63) :
    (pos l k).isPlaceholder i = decide (i < k * 2 ^ l) := by
  have hindex := h.toNat_eq
  have hpos : 0 < 2 ^ l := Nat.two_pow_pos l
  rw [isPlaceholder]
  refine decide_eq_decide.mpr ?_
  rw [BitVec.le_def, BitVec.le_def, h.leftMostChild_toNat, fromLeafIndex_toNat]
  rw [Nat.add_mul] at hindex
  omega

/-! ## The root -/

/-- Each step doubles the reach of the ones. -/
theorem smear_step {v n : BitVec 64} {s : ℕ}
    (h : ∀ i, n.getLsbD i = true ↔ ∃ j, i ≤ j ∧ j < i + s ∧ v.getLsbD j = true) (i : ℕ) :
    (n ||| n >>> s).getLsbD i = true ↔ ∃ j, i ≤ j ∧ j < i + (s + s) ∧ v.getLsbD j = true := by
  rw [BitVec.getLsbD_or, BitVec.getLsbD_ushiftRight, Bool.or_eq_true, h, h]
  constructor
  · rintro (⟨j, hle, hlt, hbit⟩ | ⟨j, hle, hlt, hbit⟩)
    · exact ⟨j, hle, by omega, hbit⟩
    · exact ⟨j, by omega, by omega, hbit⟩
  · rintro ⟨j, hle, hlt, hbit⟩
    by_cases hj : j < i + s
    · exact Or.inl ⟨j, hle, hj, hbit⟩
    · exact Or.inr ⟨j, by omega, by omega, hbit⟩

theorem smearOnesForU64_toNat (v : BitVec 64) :
    (smearOnesForU64 v).toNat = 2 ^ v.toNat.size - 1 := by
  have hfirst : ∀ i, v.getLsbD i = true ↔ ∃ j, i ≤ j ∧ j < i + 1 ∧ v.getLsbD j = true := by
    intro i
    constructor
    · exact fun hbit => ⟨i, le_rfl, Nat.lt_succ_self i, hbit⟩
    · rintro ⟨j, hle, hlt, hbit⟩
      rwa [show i = j by omega]
  have hall := smear_step (smear_step (smear_step (smear_step (smear_step (smear_step hfirst)))))
  refine Nat.eq_of_testBit_eq fun i => ?_
  rw [Nat.testBit_two_pow_sub_one, Bool.eq_iff_iff, decide_eq_true_iff, Nat.lt_size]
  refine (hall i).trans ⟨?_, fun hge => ?_⟩
  · rintro ⟨j, hle, -, hbit⟩
    exact (Nat.pow_le_pow_right two_pos hle).trans (Nat.ge_two_pow_of_testBit hbit)
  · obtain ⟨j, hle, hbit⟩ := Nat.exists_ge_and_testBit_of_ge_two_pow hge
    have hlt := BitVec.lt_of_getLsbD (x := v) hbit
    exact ⟨j, hle, by omega, hbit⟩

theorem rootFromLeafIndex_eq {i : ℕ} (h : i < 2 ^ 63) : rootFromLeafIndex i = pos i.size 0 := by
  refine At.eq_pos ?_
  rw [At, rootFromLeafIndex, BitVec.toNat_ushiftRight, smearOnesForU64_toNat, fromLeafIndex_toNat,
    Nat.mod_eq_of_lt (by omega), Nat.shiftRight_one]
  obtain rfl | hpos := Nat.eq_zero_or_pos i
  · rfl
  · have hsize : (2 * i).size = i.size + 1 :=
      Nat.size_bit (b := false) (n := i) (by simpa using hpos.ne')
    have htwo : 0 < 2 ^ i.size := Nat.two_pow_pos _
    rw [hsize, pow_succ]
    omega

theorem clog_eq_size_sub_one {n : ℕ} (h : 0 < n) : Nat.clog 2 n = (n - 1).size := by
  refine le_antisymm ?_ ?_
  · refine Nat.clog_le_of_le_pow ?_
    have := Nat.size_le.mp (le_refl (n - 1).size)
    omega
  · rw [Nat.size_le]
    have := Nat.le_pow_clog one_lt_two n
    omega

theorem rootFromLeafCount_eq {n : ℕ} (hpos : 0 < n) (h : n ≤ 2 ^ 63) :
    rootFromLeafCount n = some (pos (Nat.clog 2 n) 0) := by
  rw [rootFromLeafCount, if_pos hpos, rootFromLeafIndex_eq (by omega), clog_eq_size_sub_one hpos]

theorem rootLevelFromLeafCount_eq {n : ℕ} (hpos : 0 < n) (h : n ≤ 2 ^ 64) :
    rootLevelFromLeafCount n = some (Nat.clog 2 n) := by
  have hsize : (n - 1).size ≤ 64 := Nat.size_le.mpr (by omega)
  rw [rootLevelFromLeafCount, if_pos hpos, leadingZeros_eq, BitVec.toNat_ofNat,
    Nat.mod_eq_of_lt (by omega), clog_eq_size_sub_one hpos]
  congr 1
  omega

/-! ## The order of traversal -/

theorem Fits.isolate_toNat (h : Fits l k) :
    (isolateRightmostZeroBit (pos l k).inorderIndex).toNat = 2 ^ l := by
  refine Nat.eq_of_testBit_eq fun i => ?_
  rw [Nat.testBit_two_pow]
  refine (h.at_pos.getLsbD_isolate h.valid i).trans ?_
  exact decide_eq_decide.mpr eq_comm

theorem Fits.unset_toNat (h : Fits l k) :
    ((pos l k).inorderIndex ^^^
      (isolateRightmostZeroBit (pos l k).inorderIndex - 1)).toNat = 2 ^ (l + 1) * k := by
  have hpos : 0 < 2 ^ l := Nat.two_pow_pos l
  have hone : (1 : BitVec 64).toNat = 1 := rfl
  have hones : (isolateRightmostZeroBit (pos l k).inorderIndex - 1).toNat = 2 ^ l - 1 := by
    rw [BitVec.toNat_sub_of_le (by rw [BitVec.le_def, h.isolate_toNat, hone]; omega),
      h.isolate_toNat, hone]
  refine Nat.eq_of_testBit_eq fun i => ?_
  rw [BitVec.toNat_xor, hones, Nat.testBit_xor, testBit_of_place h.at_pos,
    Nat.testBit_two_pow_sub_one, Nat.testBit_two_pow_mul]
  obtain hlow | rfl | ⟨j, rfl⟩ := bit_cases l i
  · rw [placeBit_of_lt hlow]
    simp [hlow, show ¬ l + 1 ≤ i by omega]
  · simp
  · rw [placeBit_add]
    simp [show ¬ l + 1 + j < l by omega]

theorem Fits.isolate_shiftLeft_toNat (h : Fits l k) (hl : l < 63) :
    (isolateRightmostZeroBit (pos l k).inorderIndex <<< 1).toNat = 2 ^ (l + 1) := by
  rw [BitVec.toNat_shiftLeft, h.isolate_toNat, Nat.shiftLeft_eq, pow_one, ← pow_succ,
    Nat.mod_eq_of_lt (Nat.pow_lt_pow_right one_lt_two (by omega))]

theorem Fits.childrenOfNode_toNat (h : Fits l k) (hl : l < 63) :
    (2 : BitVec 64) ≤ isolateRightmostZeroBit (pos l k).inorderIndex <<< 1 ∧
      (childrenOfNode (pos l k).inorderIndex).toNat = 2 ^ (l + 1) - 2 := by
  have hshift := h.isolate_shiftLeft_toNat hl
  have hval : (2 : BitVec 64).toNat = 2 := rfl
  have hle : (2 : BitVec 64) ≤ isolateRightmostZeroBit (pos l k).inorderIndex <<< 1 := by
    rw [BitVec.le_def, hshift, hval]
    exact Nat.le_self_pow (Nat.succ_ne_zero l) 2
  exact ⟨hle, by rw [childrenOfNode, BitVec.toNat_sub_of_le hle, hshift, hval]⟩

/-- The ones of the turns are subtracted. -/
theorem Fits.nodesToLeftOf_toNat (h : Fits l k) :
    let unset := (pos l k).inorderIndex ^^^ (isolateRightmostZeroBit (pos l k).inorderIndex - 1)
    BitVec.ofNat 64 (countOnes unset) ≤ unset ∧
      (nodesToLeftOf (pos l k).inorderIndex).toNat = 2 ^ (l + 1) * k - k.bits.count true := by
  intro unset
  have hunset : unset.toNat = 2 ^ (l + 1) * k := h.unset_toNat
  have hcount : countOnes unset = k.bits.count true := by
    rw [countOnes_eq, hunset, count_bits_two_pow_mul]
  have hle : k.bits.count true ≤ 2 ^ (l + 1) * k :=
    (count_bits_le k).trans (Nat.le_mul_of_pos_left k (Nat.two_pow_pos _))
  have hlt : 2 ^ (l + 1) * k < 2 ^ 64 := hunset ▸ BitVec.isLt _
  have hval : (BitVec.ofNat 64 (countOnes unset)).toNat = k.bits.count true := by
    rw [hcount, BitVec.toNat_ofNat, Nat.mod_eq_of_lt (by omega)]
  have hsub : BitVec.ofNat 64 (countOnes unset) ≤ unset := by
    rw [BitVec.le_def, hunset, hval]
    exact hle
  refine ⟨hsub, ?_⟩
  change (unset - BitVec.ofNat 64 (countOnes unset)).toNat = _
  rw [BitVec.toNat_sub_of_le hsub, hunset, hval]

theorem Fits.sum_lt (h : Fits l k) (hl : l < 63) :
    (childrenOfNode (pos l k).inorderIndex).toNat +
      (nodesToLeftOf (pos l k).inorderIndex).toNat + 2 + k.bits.count true =
        (k + 1) * 2 ^ (l + 1) ∧ (k + 1) * 2 ^ (l + 1) ≤ 2 ^ 64 := by
  have htwo : 2 ≤ 2 ^ (l + 1) := Nat.le_self_pow (Nat.succ_ne_zero l) 2
  have hle : k.bits.count true ≤ 2 ^ (l + 1) * k :=
    (count_bits_le k).trans (Nat.le_mul_of_pos_left k (by omega))
  have hbound : 2 ^ l * (2 * (k + 1)) ≤ 2 ^ 64 :=
    mul_le_two_pow h.level_lt.le (by have := h.lt_two_pow; omega)
  have hsplit : 2 ^ l * (2 * (k + 1)) = (k + 1) * 2 ^ (l + 1) := by ring
  have hend : (k + 1) * 2 ^ (l + 1) = 2 ^ (l + 1) * k + 2 ^ (l + 1) := by ring
  rw [(h.childrenOfNode_toNat hl).2, h.nodesToLeftOf_toNat.2]
  omega

/-- What comes before a node in post-order. -/
theorem Fits.toPostorderIndex_toNat (h : Fits l k) (hl : l < 63) :
    (pos l k).toPostorderIndex.toNat + 2 + k.bits.count true = (k + 1) * 2 ^ (l + 1) := by
  obtain ⟨hsum, hle⟩ := h.sum_lt hl
  rw [toPostorderIndex, inorderToPostorder, BitVec.toNat_add, Nat.mod_eq_of_lt (by omega), hsum]

end Position

/-! ## Iterators over full trees -/

open Position

def nextNewLeafBatch (remainingNewLeaves : ℕ) : ℕ :=
  1 <<< (63 - leadingZeros (BitVec.ofNat 64 remainingNewLeaves))

/-- The size of the next tree that `FrozenSubtreeSiblingIterator` gives. -/
def nextSubtreeLeaves (currentNumLeaves remainingNewLeaves : ℕ) : ℕ :=
  if 0 < currentNumLeaves then
    let rightmostFrozenSubtreeLeaves := 1 <<< trailingZeros (BitVec.ofNat 64 currentNumLeaves)
    if rightmostFrozenSubtreeLeaves ≤ remainingNewLeaves then rightmostFrozenSubtreeLeaves
    else nextNewLeafBatch remainingNewLeaves
  else nextNewLeafBatch remainingNewLeaves

theorem nextSubtreeLeaves_pos (currentNumLeaves remainingNewLeaves : ℕ) :
    0 < nextSubtreeLeaves currentNumLeaves remainingNewLeaves := by
  have hpos : ∀ s, 0 < 1 <<< s := fun s => by
    rw [Nat.one_shiftLeft]
    exact Nat.two_pow_pos s
  unfold nextSubtreeLeaves nextNewLeafBatch
  dsimp only
  split_ifs <;> exact hpos _

def frozenSubtreeSiblings (currentNumLeaves remainingNewLeaves : ℕ) : List Position :=
  if remainingNewLeaves = 0 then []
  else
    let nextLeaves := nextSubtreeLeaves currentNumLeaves remainingNewLeaves
    let firstLeafIndex := currentNumLeaves
    let lastLeafIndex := firstLeafIndex + nextLeaves - 1
    ⟨BitVec.ofNat 64 (firstLeafIndex + lastLeafIndex)⟩ ::
      frozenSubtreeSiblings (currentNumLeaves + nextLeaves) (remainingNewLeaves - nextLeaves)
termination_by remainingNewLeaves
decreasing_by exact Nat.sub_lt (by omega) (nextSubtreeLeaves_pos _ _)

theorem size_eq_log {r : ℕ} (h : 0 < r) : r.size = Nat.log 2 r + 1 := by
  refine le_antisymm (Nat.size_le.mpr (Nat.lt_pow_succ_log_self one_lt_two r)) ?_
  exact Nat.lt_size.mpr (Nat.pow_log_le_self 2 h.ne')

theorem nextNewLeafBatch_eq {r : ℕ} (hpos : 0 < r) (h : r < 2 ^ 64) :
    nextNewLeafBatch r = 2 ^ Nat.log 2 r := by
  have hsize : r.size ≤ 64 := Nat.size_le.mpr h
  have hlog := size_eq_log hpos
  rw [nextNewLeafBatch, leadingZeros_eq, BitVec.toNat_ofNat, Nat.mod_eq_of_lt h, Nat.one_shiftLeft]
  congr 1
  omega

theorem nextSubtreeLeaves_eq {n r : ℕ} (hpos : 0 < r) (h : n + r < 2 ^ 64) :
    nextSubtreeLeaves n r = 2 ^ growLevel n r := by
  rw [nextSubtreeLeaves, nextNewLeafBatch_eq hpos (by omega)]
  obtain rfl | hn := Nat.eq_zero_or_pos n
  · rw [if_neg (lt_irrefl 0), growLevel_of_lt (dvd_zero _) Nat.lt_two_pow_self hpos]
  · obtain ⟨t, q, hodd⟩ := exists_two_pow_mul hn
    have htrailing : trailingZeros (BitVec.ofNat 64 n) = t := by
      refine trailingZeros_eq (q := q) ?_
      rw [BitVec.toNat_ofNat, Nat.mod_eq_of_lt (by omega), hodd]
    rw [if_pos hn, htrailing, Nat.one_shiftLeft]
    dsimp only
    split
    next hle => rw [hodd, growLevel_odd hle]
    next hlt => rw [growLevel_of_lt (Dvd.intro _ hodd.symm) (Nat.not_le.mp hlt) hpos]

theorem frozenSubtreeSiblings_eq {n r : ℕ} (h : n + r ≤ 2 ^ 63) :
    frozenSubtreeSiblings n r = (grow n r).map fun p => pos p.1 p.2 := by
  induction r using Nat.strong_induction_on generalizing n with
  | _ r ih =>
    obtain rfl | hpos := Nat.eq_zero_or_pos r
    · rw [frozenSubtreeSiblings, if_pos rfl, grow_zero, List.map_nil]
    · obtain ⟨hdvd, hle⟩ := growLevel_spec n hpos
      have htwo : 0 < 2 ^ growLevel n r := Nat.two_pow_pos _
      have hplace : (⟨BitVec.ofNat 64 (n + (n + 2 ^ growLevel n r - 1))⟩ : Position) =
          pos (growLevel n r) (n / 2 ^ growLevel n r) := by
        refine At.eq_pos ?_
        rw [At, BitVec.toNat_ofNat, Nat.mod_eq_of_lt (by omega), Nat.mul_add, Nat.mul_one,
          Nat.mul_left_comm, Nat.mul_div_cancel' hdvd]
        omega
      rw [frozenSubtreeSiblings, if_neg hpos.ne', nextSubtreeLeaves_eq hpos (by omega)]
      dsimp only
      rw [hplace, ih _ (Nat.sub_lt hpos htwo) (by omega), grow_eq rfl hpos.ne', List.map_cons]

end Anthemius.Accumulators
