import Anthemius.PerfectTrees
import Anthemius.Positions

/-!
# Positions as nodes of the perfect tree

The positions are the in-order numbers of the perfect tree with `2 ^ 63` leaves. The moves follow
the turns of a node, and the two conversions to and from post-order numbers are inverse to each
other. Sums and differences are checked, so an overflow is `none`.
-/
namespace Anthemius.Accumulators.Position
open BitWords PaddedTree PerfectTrees

def checkedAdd (a b : BitVec 64) : Option (BitVec 64) :=
  if a.toNat + b.toNat < 2 ^ 64 then some (a + b) else none

def checkedSub (a b : BitVec 64) : Option (BitVec 64) := if b ≤ a then some (a - b) else none

def checkedRightMostChild (p : Position) : Option Position := do
  let last ← checkedAdd p.inorderIndex (1#64 <<< p.level)
  let last ← checkedSub last 1
  some ⟨last⟩

def checkedNodesToLeftOf (node : BitVec 64) : Option (BitVec 64) := do
  let onesUpToLevel ← checkedSub (isolateRightmostZeroBit node) 1
  let unsetLevelZeros := node ^^^ onesUpToLevel
  checkedSub unsetLevelZeros (BitVec.ofNat 64 (countOnes unsetLevelZeros))

def checkedInorderToPostorder (node : BitVec 64) : Option (BitVec 64) := do
  let children ← checkedSub (isolateRightmostZeroBit node <<< 1) 2
  let leftNodes ← checkedNodesToLeftOf node
  checkedAdd children leftNodes

def checkedToPostorderIndex (p : Position) : Option (BitVec 64) :=
  checkedInorderToPostorder p.inorderIndex

/-- The variables of the loop: the rest of the number, the turns and the size of a part. -/
structure Descent where
  node : BitVec 64
  bitmap : BitVec 64
  fullBinarySize : BitVec 64

def Descent.step (d : Descent) (i : ℕ) : Descent :=
  if d.fullBinarySize ≤ d.node then
    ⟨d.node - d.fullBinarySize, d.bitmap ||| 1#64 <<< i, d.fullBinarySize >>> 1⟩
  else { d with fullBinarySize := d.fullBinarySize >>> 1 }

def Descent.run (d : Descent) (rounds : ℕ) : Descent := (List.range rounds).reverse.foldl step d

def checkedFromLevelAndPos (level : ℕ) (pos : BitVec 64) : Option Position :=
  if h : level < 64 then some (fromLevelAndPos ⟨level, h⟩ pos) else none

/-- The rest of the number is cast to 32 bits. -/
def postorderToInorder (node : BitVec 64) : Option Position :=
  let d := Descent.run ⟨node, 0, BitVec.allOnes 64⟩ 64
  let level := d.node.toNat % 2 ^ 32
  checkedFromLevelAndPos level (d.bitmap >>> level)

def fromPostorderIndex (index : BitVec 64) : Option (Except String Position) :=
  if index < BitVec.allOnes 64 then (postorderToInorder index).map .ok
  else some (.error
    ("node index " ++ toString index.toNat ++ " is invalid (equal to 2^64 - 1)"))

/-! ## Nodes of the tree -/

/-- The position is the in-order number of the node. -/
def Numbers (p : Position) (path : List Bool) : Prop :=
  (inorder 63)[p.inorderIndex.toNat]? = some path

variable {p : Position} {path : List Bool} {l k : ℕ}

theorem numbers_iff : p.Numbers path ↔ path.length ≤ 63 ∧ p.At (63 - path.length) (place path) :=
  getElem?_inorder

theorem numbers_pos (h : path.length + l = 63) : (pos l (place path)).Numbers path := by
  have hplace := place_lt path
  have hpow : 2 ^ 63 = 2 ^ path.length * 2 ^ l := by rw [← pow_add, h]
  have hle : 2 ^ l * (2 * place path + 1) ≤ 2 ^ 64 := by
    calc 2 ^ l * (2 * place path + 1) ≤ 2 ^ l * (2 * 2 ^ path.length) :=
          Nat.mul_le_mul_left _ (by omega)
      _ = 2 ^ 64 := by rw [show 2 ^ 64 = 2 * 2 ^ 63 by rfl, hpow]; ring
  refine numbers_iff.mpr ⟨by omega, ?_⟩
  rw [show 63 - path.length = l by omega]
  exact pos_at hle

theorem Numbers.eq_pos (h : p.Numbers path) : p = pos (63 - path.length) (place path) :=
  (numbers_iff.mp h).2.eq_pos

theorem Valid.exists_numbers (h : p.Valid) : ∃ path, p.Numbers path := by
  have hlength := length_inorder 63
  rw [valid_iff] at h
  exact ⟨_, List.getElem?_eq_getElem (by omega)⟩

theorem Numbers.within (h : p.Numbers path) : Within (63 - path.length) (place path) := by
  have hlength := (numbers_iff.mp h).1
  have hplace := place_lt path
  rw [Within, show 2 ^ 63 = 2 ^ path.length * 2 ^ (63 - path.length) by
    rw [← pow_add, Nat.add_sub_cancel' hlength]]
  exact Nat.mul_le_mul_right _ hplace

theorem Numbers.fits (h : p.Numbers path) (hvalid : p.Valid) :
    Fits (63 - path.length) (place path) := by
  obtain ⟨-, hat⟩ := numbers_iff.mp h
  rw [hat.eq_pos] at hvalid
  refine hvalid.fits ?_
  rw [← hat]
  exact p.inorderIndex.isLt

/-- The moves follow the turns, wherever there is a node to move to. -/
structure MovesAgree (p : Position) (path : List Bool) : Prop where
  level : p.level = 63 - path.length
  parent : ∀ rest turn, path = rest ++ [turn] → ∃ q, p.parent = some q ∧ q.Numbers rest
  sibling : ∀ rest turn, path = rest ++ [turn] →
    ∃ q, p.sibling = some q ∧ q.Numbers (rest ++ [!turn])
  leftChild : path.length < 63 → ∃ q, p.leftChild = some q ∧ q.Numbers (path ++ [false])
  rightChild : path.length < 63 → ∃ q, p.rightChild = some q ∧ q.Numbers (path ++ [true])
  leftMostChild : p.leftMostChild.Numbers (path ++ List.replicate (63 - path.length) false)
  rightMostChild : ∃ q, p.checkedRightMostChild = some q ∧
    q.Numbers (path ++ List.replicate (63 - path.length) true)

theorem other_place_concat (rest : List Bool) (turn : Bool) :
    other (place (rest ++ [turn])) = place (rest ++ [!turn]) := by
  rw [place_concat, place_concat, other]
  cases turn <;> simp

theorem checkedRightMostChild_eq (h : Within l k) :
    ∃ q, (pos l k).checkedRightMostChild = some q ∧
      q.inorderIndex.toNat + 2 = 2 * ((k + 1) * 2 ^ l) := by
  have hpos : 0 < (k + 1) * 2 ^ l := Nat.mul_pos k.succ_pos (Nat.two_pow_pos l)
  have hpow := h.one_shiftLeft_level
  have hindex := h.toNat_eq
  have hlast := h.rightMostChild_toNat
  rw [Within] at h
  have hsum : (pos l k).inorderIndex.toNat + (1#64 <<< (pos l k).level).toNat < 2 ^ 64 := by
    rw [hpow]
    omega
  have hone : 1 ≤ (pos l k).inorderIndex + 1#64 <<< (pos l k).level := by
    rw [BitVec.le_def, BitVec.toNat_add, Nat.mod_eq_of_lt hsum, hpow]
    change 1 ≤ _
    have := Nat.two_pow_pos l
    omega
  refine ⟨(pos l k).rightMostChild, ?_, by omega⟩
  rw [checkedRightMostChild, checkedAdd, if_pos hsum, Option.bind_eq_bind, Option.bind_some,
    checkedSub, if_pos hone]
  rfl

theorem Numbers.movesAgree (h : p.Numbers path) (hvalid : p.Valid) : p.MovesAgree path := by
  obtain ⟨hlength, hat⟩ := numbers_iff.mp h
  have hfits := h.fits hvalid
  have hwithin := h.within
  obtain rfl := h.eq_pos
  refine ⟨hat.level_eq, ?_, ?_, ?_, ?_, ?_, ?_⟩
  · rintro rest turn rfl
    have hup : 63 - (rest ++ [turn]).length + 1 = 63 - rest.length := by
      rw [List.length_append, List.length_singleton] at hlength ⊢
      omega
    have hhalf : place (rest ++ [turn]) / 2 = place rest := by
      rw [place_concat]
      have := Bool.toNat_le turn
      omega
    refine ⟨_, hfits.parent_eq, ?_⟩
    rw [hup, hhalf]
    refine numbers_pos ?_
    omega
  · rintro rest turn rfl
    rw [List.length_append, List.length_singleton] at hlength hfits ⊢
    refine ⟨_, hfits.sibling_eq (by omega), ?_⟩
    rw [other_place_concat]
    refine numbers_pos ?_
    rw [List.length_append, List.length_singleton]
    omega
  · intro hlt
    have hdown : 63 - path.length = 62 - path.length + 1 := by omega
    rw [hdown] at hfits ⊢
    refine ⟨_, hfits.leftChild_eq, ?_⟩
    have hplace : 2 * place path = place (path ++ [false]) := (place_concat path false).symm
    rw [hplace]
    refine numbers_pos ?_
    rw [List.length_append, List.length_singleton]
    omega
  · intro hlt
    have hdown : 63 - path.length = 62 - path.length + 1 := by omega
    rw [hdown] at hfits ⊢
    refine ⟨_, hfits.rightChild_eq, ?_⟩
    have hplace : 2 * place path + 1 = place (path ++ [true]) := (place_concat path true).symm
    rw [hplace]
    refine numbers_pos ?_
    rw [List.length_append, List.length_singleton]
    omega
  · refine numbers_iff.mpr ?_
    have hplace : place (path ++ List.replicate (63 - path.length) false) + 0 =
        (place path + 0) * 2 ^ (63 - path.length) := place_replicate _ false
    rw [Nat.add_zero, Nat.add_zero] at hplace
    rw [List.length_append, List.length_replicate, Nat.add_sub_cancel' hlength, Nat.sub_self, At,
      hwithin.leftMostChild_toNat, hplace, pow_zero, Nat.one_mul]
    exact ⟨le_rfl, rfl⟩
  · obtain ⟨q, hq, hindex⟩ := checkedRightMostChild_eq hwithin
    refine ⟨q, hq, numbers_iff.mpr ?_⟩
    have hplace : place (path ++ List.replicate (63 - path.length) true) + 1 =
        (place path + 1) * 2 ^ (63 - path.length) := place_replicate _ true
    rw [List.length_append, List.length_replicate, Nat.add_sub_cancel' hlength, Nat.sub_self, At,
      pow_zero, Nat.one_mul]
    refine ⟨le_rfl, ?_⟩
    omega

/-! ## From in-order to post-order -/

/-- The root has too many nodes below it to be counted in a word of 64 bits. -/
theorem checkedToPostorderIndex_root : (pos 63 0).checkedToPostorderIndex = none := by
  decide +kernel

theorem Fits.checkedToPostorderIndex_eq (h : Fits l k) (hl : l < 63) :
    ∃ index, (pos l k).checkedToPostorderIndex = some index ∧
      index.toNat + 2 + k.bits.count true = (k + 1) * 2 ^ (l + 1) := by
  refine ⟨(pos l k).toPostorderIndex, ?_, h.toPostorderIndex_toNat hl⟩
  have hone : 1 ≤ isolateRightmostZeroBit (pos l k).inorderIndex := by
    rw [BitVec.le_def, h.isolate_toNat]
    exact Nat.two_pow_pos l
  obtain ⟨hsum, hle⟩ := h.sum_lt hl
  have hchildren : checkedSub (isolateRightmostZeroBit (pos l k).inorderIndex <<< 1) 2 =
      some (childrenOfNode (pos l k).inorderIndex) := if_pos (h.childrenOfNode_toNat hl).1
  have hleft : checkedNodesToLeftOf (pos l k).inorderIndex =
      some (nodesToLeftOf (pos l k).inorderIndex) := by
    rw [checkedNodesToLeftOf, checkedSub, if_pos hone]
    exact if_pos h.nodesToLeftOf_toNat.1
  rw [checkedToPostorderIndex, checkedInorderToPostorder, hchildren, Option.bind_eq_bind,
    Option.bind_some, hleft, Option.bind_some, checkedAdd, if_pos (by omega)]
  rfl

/-- The last leaf is not valid, but it has a post-order number. -/
theorem Numbers.checkedToPostorderIndex_eq (h : p.Numbers path) (hpath : path ≠ []) :
    ∃ index, p.checkedToPostorderIndex = some index ∧
      (PerfectTrees.postorder 63)[index.toNat]? = some path := by
  obtain ⟨hlength, hat⟩ := numbers_iff.mp h
  have hlevel : 63 - path.length < 63 := by
    have := List.length_pos_of_ne_nil hpath
    omega
  have hindex : ∃ index, p.checkedToPostorderIndex = some index ∧
      index.toNat + 2 + (place path).bits.count true =
        (place path + 1) * 2 ^ (63 - path.length + 1) := by
    by_cases hvalid : p.Valid
    · obtain rfl := h.eq_pos
      exact (h.fits hvalid).checkedToPostorderIndex_eq hlevel
    · rw [valid_iff] at hvalid
      have hbound := (List.getElem?_eq_some_iff.mp h).1
      have hcount := length_inorder 63
      obtain rfl : p = pos 0 (2 ^ 63 - 1) := by
        refine At.eq_pos ?_
        rw [At]
        omega
      have hlast := pos_at (l := 0) (k := 2 ^ 63 - 1) (by decide)
      have hsame := hat.unique hlast
      rw [Prod.mk.injEq] at hsame
      rw [hsame.1, hsame.2]
      exact ⟨_, rfl, by decide +kernel⟩
  obtain ⟨index, hindex, hvalue⟩ := hindex
  rw [count_bits_place] at hvalue
  exact ⟨index, hindex, getElem?_postorder.mpr ⟨hlength, hvalue⟩⟩

/-! ## From post-order to in-order -/

theorem Descent.run_succ (d : Descent) (n : ℕ) : d.run (n + 1) = (d.step n).run n := by
  rw [run, List.range_succ, List.reverse_concat, List.foldl_cons, run]

/-- The next part has `2 ^ n - 1` nodes, and the turns so far are above bit `n`. -/
structure Descent.Ready (d : Descent) (n : ℕ) : Prop where
  le : n ≤ 64
  size : d.fullBinarySize.toNat + 1 = 2 ^ n
  turns : 2 ^ n ∣ d.bitmap.toNat

variable {d : Descent} {n : ℕ}

theorem Descent.Ready.stay (h : d.Ready (n + 1)) (hlt : d.node.toNat + 1 < 2 ^ (n + 1)) :
    (d.step n).Ready n ∧ (d.step n).node = d.node ∧ (d.step n).bitmap = d.bitmap := by
  have hsize := h.size
  have hstep : d.step n = { d with fullBinarySize := d.fullBinarySize >>> 1 } := by
    refine if_neg ?_
    rw [BitVec.le_def]
    omega
  rw [hstep]
  refine ⟨⟨Nat.le_of_succ_le h.le, ?_, (pow_dvd_pow 2 n.le_succ).trans h.turns⟩, rfl, rfl⟩
  rw [BitVec.toNat_ushiftRight, Nat.shiftRight_one]
  rw [pow_succ] at hsize
  omega

theorem Descent.Ready.skip (h : d.Ready (n + 1)) (hle : 2 ^ (n + 1) ≤ d.node.toNat + 1) :
    (d.step n).Ready n ∧ (d.step n).node.toNat + 2 ^ (n + 1) = d.node.toNat + 1 ∧
      (d.step n).bitmap.toNat = d.bitmap.toNat + 2 ^ n := by
  have hsize := h.size
  have hge : d.fullBinarySize ≤ d.node := by
    rw [BitVec.le_def]
    omega
  have hstep : d.step n =
      ⟨d.node - d.fullBinarySize, d.bitmap ||| 1#64 <<< n, d.fullBinarySize >>> 1⟩ := if_pos hge
  have hpow : 2 ^ n < 2 ^ (n + 1) := Nat.pow_lt_pow_right one_lt_two n.lt_succ_self
  have hbits : (d.bitmap ||| 1#64 <<< n).toNat = d.bitmap.toNat + 2 ^ n := by
    obtain ⟨a, ha⟩ := h.turns
    have hone : (1#64 <<< n).toNat = 2 ^ n := by
      rw [BitVec.toNat_shiftLeft, BitVec.toNat_ofNat, Nat.one_mod_eq_one.mpr (by decide),
        Nat.one_shiftLeft]
      exact Nat.mod_eq_of_lt (Nat.pow_lt_pow_right one_lt_two h.le)
    rw [BitVec.toNat_or, hone, ha, Nat.two_pow_add_eq_or_of_lt hpow]
  rw [hstep]
  refine ⟨⟨Nat.le_of_succ_le h.le, ?_, ?_⟩, ?_, hbits⟩
  · rw [BitVec.toNat_ushiftRight, Nat.shiftRight_one]
    rw [pow_succ] at hsize
    omega
  · rw [hbits]
    exact ((pow_dvd_pow 2 n.le_succ).trans h.turns).add (dvd_refl _)
  · rw [BitVec.toNat_sub_of_le hge]
    omega

/-- Below the node that is looked for every part is skipped, and the rest ends at its level. -/
theorem Descent.Ready.run_rest {m : ℕ} (h : d.Ready n)
    (hnode : d.node.toNat + 2 = 2 ^ (n + 1) + m) :
    (d.run n).node.toNat = n + m ∧ (d.run n).bitmap.toNat / 2 ^ n = d.bitmap.toNat / 2 ^ n := by
  induction n generalizing d m with
  | zero =>
    refine ⟨?_, rfl⟩
    change d.node.toNat = _
    rw [Nat.zero_add, pow_one] at hnode
    omega
  | succ n ih =>
    have hpos := Nat.two_pow_pos n
    rw [pow_succ, pow_succ] at hnode
    obtain ⟨hready, hrest, hbits⟩ := h.skip (by rw [pow_succ]; omega)
    rw [pow_succ] at hrest
    obtain ⟨hlevel, hturns⟩ := ih hready (m := m + 1) (by rw [pow_succ]; omega)
    obtain ⟨a, ha⟩ := h.turns
    rw [run_succ]
    refine ⟨by omega, ?_⟩
    rw [pow_succ, ← Nat.div_div_eq_div_mul, ← Nat.div_div_eq_div_mul, hturns, hbits,
      Nat.add_div_right _ hpos, ha, pow_succ, Nat.mul_assoc, Nat.mul_div_cancel_left _ hpos]
    omega

/-- The turns of a node are read off its post-order number. -/
theorem Descent.Ready.run_path (h : d.Ready n) (hn : path.length + l = n)
    (hnode : d.node.toNat + 2 + path.count true = (place path + 1) * 2 ^ (l + 1)) :
    (d.run n).node.toNat = l ∧
      (d.run n).bitmap.toNat / 2 ^ l = d.bitmap.toNat / 2 ^ l + place path := by
  induction path generalizing n d with
  | nil =>
    obtain rfl : l = n := by simpa using hn
    refine h.run_rest (m := 0) ?_
    simpa [place] using hnode
  | cons turn rest ih =>
    obtain ⟨n, rfl, hrest⟩ := exists_length_rest hn
    have hpow : 2 ^ (n + 1) = 2 ^ rest.length * 2 ^ (l + 1) := by
      rw [← pow_add, ← hrest, Nat.add_assoc]
    rw [place_cons] at hnode ⊢
    rw [run_succ]
    cases turn with
    | false =>
      rw [Bool.toNat_false, Nat.zero_mul, Nat.zero_add, List.count_cons_of_ne (by decide)] at hnode
      have hlt : d.node.toNat + 1 < 2 ^ (n + 1) := by
        have := Nat.mul_le_mul_right (2 ^ (l + 1)) (Nat.succ_le_of_lt (place_lt rest))
        rw [Nat.succ_eq_add_one] at this
        omega
      obtain ⟨hready, hsame, hbits⟩ := h.stay hlt
      rw [← hsame] at hnode
      rw [Bool.toNat_false, Nat.zero_mul, Nat.zero_add, ← hbits]
      exact ih hready hrest hnode
    | true =>
      rw [Bool.toNat_true, Nat.one_mul, List.count_cons_self, Nat.add_assoc (2 ^ rest.length),
        Nat.add_mul, ← hpow] at hnode
      have hcount := two_add_count_le rest l
      obtain ⟨hready, hnext, hbits⟩ := h.skip (by omega)
      obtain ⟨hlevel, hturns⟩ := ih hready hrest (by omega)
      refine ⟨hlevel, ?_⟩
      rw [hturns, hbits, Bool.toNat_true, Nat.one_mul, ← hrest, pow_add, Nat.mul_comm,
        Nat.add_mul_div_left _ _ (Nat.two_pow_pos l), Nat.add_assoc]

theorem fromLevelAndPos_eq {v : BitVec 64} (hl : l < 64) (hwithin : Within l v.toNat) :
    fromLevelAndPos ⟨l, hl⟩ v = pos l v.toNat := by
  have hbound : 2 ^ (l + 1) * v.toNat + 2 ^ (l + 1) ≤ 2 ^ 64 := by
    rw [Within] at hwithin
    calc 2 ^ (l + 1) * v.toNat + 2 ^ (l + 1) = 2 * ((v.toNat + 1) * 2 ^ l) := by ring
      _ ≤ 2 ^ 64 := by omega
  have hpow : 2 ^ l < 2 ^ (l + 1) := Nat.pow_lt_pow_right one_lt_two l.lt_succ_self
  have hpos := Nat.two_pow_pos l
  have hones : (1#64 <<< l - 1).toNat = 2 ^ l - 1 := by
    have hone : (1#64 <<< l).toNat = 2 ^ l := by
      rw [BitVec.toNat_shiftLeft, BitVec.toNat_ofNat, Nat.one_mod_eq_one.mpr (by decide),
        Nat.one_shiftLeft]
      exact Nat.mod_eq_of_lt (Nat.pow_lt_pow_right one_lt_two hl)
    rw [BitVec.toNat_sub_of_le (by rw [BitVec.le_def, hone]; exact hpos), hone]
    rfl
  have hshifted : (if (⟨l, hl⟩ : Fin 64) = 63 then 0 else v <<< (l + 1)).toNat =
      2 ^ (l + 1) * v.toNat := by
    split
    next hlast =>
      obtain rfl : l = 63 := congrArg Fin.val hlast
      rw [show v.toNat = 0 by omega]
      rfl
    next =>
      rw [BitVec.toNat_shiftLeft, Nat.shiftLeft_eq, Nat.mul_comm, Nat.mod_eq_of_lt (by omega)]
  refine At.eq_pos ?_
  rw [At, fromLevelAndPos]
  dsimp only
  rw [BitVec.toNat_or, hshifted, hones, ← Nat.two_pow_add_eq_or_of_lt (by omega),
    Nat.add_assoc, Nat.sub_add_cancel hpos, pow_succ]
  ring

theorem postorderToInorder_eq {index : BitVec 64}
    (h : (PerfectTrees.postorder 63)[index.toNat]? = some path) :
    ∃ q, postorderToInorder index = some q ∧ q.Numbers path := by
  obtain ⟨hlength, hindex⟩ := getElem?_postorder.mp h
  have hready : Descent.Ready ⟨index, 0, BitVec.allOnes 64⟩ 64 :=
    ⟨le_rfl, show (BitVec.allOnes 64).toNat + 1 = 2 ^ 64 by decide, dvd_zero _⟩
  -- the whole tree is the left part of the next larger one
  have hsize : (false :: path).length + (63 - path.length) = 64 := by
    rw [List.length_cons]
    omega
  obtain ⟨hlevel, hturns⟩ := hready.run_path hsize (by simpa [place_cons] using hindex)
  have hnumbers : (pos (63 - path.length) (place path)).Numbers path := numbers_pos (by omega)
  have hplace : ((Descent.run ⟨index, 0, BitVec.allOnes 64⟩ 64).bitmap >>>
      (63 - path.length)).toNat = place path := by
    rw [BitVec.toNat_ushiftRight, Nat.shiftRight_eq_div_pow]
    simpa [place_cons] using hturns
  refine ⟨_, ?_, hnumbers⟩
  rw [postorderToInorder, hlevel, Nat.mod_eq_of_lt (by omega), checkedFromLevelAndPos,
    dif_pos (by omega),
    fromLevelAndPos_eq (by omega) (by rw [hplace]; exact hnumbers.within), hplace]

theorem Numbers.unique {q : Position} (h : p.Numbers path) (hq : q.Numbers path) : p = q :=
  h.eq_pos.trans hq.eq_pos.symm

theorem exists_postorder {index : BitVec 64} (h : index < BitVec.allOnes 64) :
    ∃ path, (PerfectTrees.postorder 63)[index.toNat]? = some path := by
  have hlength := length_postorder 63
  have hlt : index.toNat < 2 ^ 64 - 1 := BitVec.lt_def.mp h
  exact ⟨_, List.getElem?_eq_getElem (by omega)⟩

theorem fromPostorderIndex_eq {index : BitVec 64}
    (h : (PerfectTrees.postorder 63)[index.toNat]? = some path) :
    ∃ q, fromPostorderIndex index = some (.ok q) ∧ q.Numbers path := by
  obtain ⟨q, hq, hnumbers⟩ := postorderToInorder_eq h
  have hlength := length_postorder 63
  have hbound := (List.getElem?_eq_some_iff.mp h).1
  have hlt : index < BitVec.allOnes 64 := by
    rw [BitVec.lt_def, BitVec.toNat_allOnes]
    omega
  refine ⟨q, ?_, hnumbers⟩
  rw [fromPostorderIndex, if_pos hlt, hq]
  rfl

theorem idxOf_postorder {index : ℕ} (h : (PerfectTrees.postorder 63)[index]? = some path) :
    (PerfectTrees.postorder 63).idxOf path = index := by
  obtain ⟨hlt, rfl⟩ := List.getElem?_eq_some_iff.mp h
  exact (nodup_postorder 63).idxOf_getElem index hlt

/-! ## Positions and nodes -/

/-- The moves are the moves in the tree. The post-order number of every node but the root is the
number of nodes before it, and both conversions are inverse to each other. -/
theorem position_arithmetic (p : Position) (index : BitVec 64) :
    (p.Valid → ∃ path, p.Numbers path ∧ p.MovesAgree path) ∧
    (∀ path, p.Numbers path → if path = [] then p.checkedToPostorderIndex = none
      else ∃ index, p.checkedToPostorderIndex = some index ∧
        index.toNat = (PerfectTrees.postorder 63).idxOf path ∧
        fromPostorderIndex index = some (.ok p)) ∧
    (index < BitVec.allOnes 64 → ∃ p path,
      fromPostorderIndex index = some (.ok p) ∧ p.Numbers path ∧
        index.toNat = (PerfectTrees.postorder 63).idxOf path ∧
          (path ≠ [] → p.checkedToPostorderIndex = some index)) := by
  refine ⟨?_, ?_, ?_⟩
  · intro hvalid
    obtain ⟨path, hpath⟩ := hvalid.exists_numbers
    exact ⟨path, hpath, hpath.movesAgree hvalid⟩
  · intro path hpath
    split
    next hroot =>
      subst hroot
      rw [hpath.eq_pos]
      exact checkedToPostorderIndex_root
    next hne =>
      obtain ⟨index, hindex, hplace⟩ := hpath.checkedToPostorderIndex_eq hne
      obtain ⟨q, hq, hnumbers⟩ := fromPostorderIndex_eq hplace
      rw [hpath.unique hnumbers]
      exact ⟨index, hpath.unique hnumbers ▸ hindex, (idxOf_postorder hplace).symm, hq⟩
  · intro hlt
    obtain ⟨path, hplace⟩ := exists_postorder hlt
    obtain ⟨q, hq, hnumbers⟩ := fromPostorderIndex_eq hplace
    refine ⟨q, path, hq, hnumbers, (idxOf_postorder hplace).symm, ?_⟩
    intro hne
    obtain ⟨other, hother, hsame⟩ := hnumbers.checkedToPostorderIndex_eq hne
    have heq : other.toNat = index.toNat :=
      (idxOf_postorder hsame).symm.trans (idxOf_postorder hplace)
    rw [hother, BitVec.eq_of_toNat_eq heq]

/-- The node 5 is the right child of the node 3. -/
theorem position_arithmetic_five : ∃ path, Numbers ⟨5⟩ path ∧ MovesAgree ⟨5⟩ path :=
  (position_arithmetic ⟨5⟩ 0).1 (by decide)

/-- The root is found by its post-order number, but its own conversion overflows. -/
theorem toPostorderIndex_overflows : fromPostorderIndex (BitVec.allOnes 64 - 1) =
    some (.ok ⟨BitVec.ofNat 64 (2 ^ 63 - 1)⟩) ∧
      checkedToPostorderIndex ⟨BitVec.ofNat 64 (2 ^ 63 - 1)⟩ = none ∧
        Valid ⟨BitVec.ofNat 64 (2 ^ 63 - 1)⟩ := by
  decide +kernel

end Anthemius.Accumulators.Position
