import Anthemius.InMemoryAccumulators

/-!
# The accumulator in storage

The nodes that do not change any more are stored, and a reader gets them by position. All other
nodes are computed from them.
-/
namespace Anthemius.Accumulators
open PaddedTree BitWords Outcomes Position

/-- A node that is not there is an error. -/
abbrev HashReader (H : Type) := Position → Option H

abbrev Node (H : Type) := Position × H

namespace MerkleAccumulatorView
variable {H : Type} (c : Hashing H) (reader : HashReader H) (numLeaves : ℕ)

def get (position : Position) : Outcome (AccumulatorError H) H :=
  orElse (reader position) (.missingNode position)

/-- A node that is neither frozen nor a placeholder is above two others, so the calls end at the
leaves. -/
def getHashLoop : ℕ → Position → Outcome (AccumulatorError H) H
  | 0, _ => crash
  | fuel + 1, position =>
    let idx := numLeaves - 1
    if position.isPlaceholder idx then pure c.placeholder
    else if position.isFreezable idx then get reader position
    else do
      let left ← expect position.leftChild
      let leftHash ← getHashLoop fuel left
      let right ← expect position.rightChild
      let rightHash ← getHashLoop fuel right
      pure (c.combine leftHash rightHash)

/-- There is no last leaf in an empty accumulator. -/
def getHash (position : Position) : Outcome (AccumulatorError H) H := do
  assert (0 < numLeaves)
  getHashLoop c reader numLeaves 64 position

def getRootHash : Outcome (AccumulatorError H) H := do
  let root ← expect (rootFromLeafCount numLeaves)
  getHash c reader numLeaves root

/-! ## Appending -/

/-- The left sibling is one of the new nodes or has been stored before. -/
def joinLeft (leftSiblings : List (Node H)) (position : Position) (hash : H) :
    Outcome (AccumulatorError H) (H × List (Node H)) := do
  let sibling ← expect position.sibling
  match leftSiblings with
  | (x, leftHash) :: rest => do
    assert (x = sibling)
    pure (c.combine leftHash hash, rest)
  | [] => do
    let leftHash ← get reader sibling
    pure (c.combine leftHash hash, [])

/-- What is done so far: the node, the left siblings and the frozen nodes. -/
structure Freezing (H : Type) where
  position : Position
  hash : H
  leftSiblings : List (Node H)
  toFreeze : List (Node H)

/-- The parents of right children are frozen. -/
def freezeParents : ℕ → Freezing H → Outcome (AccumulatorError H) (Freezing H)
  | 0, _ => crash
  | fuel + 1, s => do
    let isRight ← expect s.position.isRightChild
    if isRight then
      let (hash, leftSiblings) ← joinLeft c reader s.leftSiblings s.position s.hash
      let parent ← expect s.position.parent
      freezeParents fuel ⟨parent, hash, leftSiblings, s.toFreeze ++ [(parent, hash)]⟩
    else pure s

def appendLeaf (leafIndex : ℕ) (leaf : H) (leftSiblings toFreeze : List (Node H)) :
    Outcome (AccumulatorError H) (List (Node H) × List (Node H)) := do
  let position := fromLeafIndex leafIndex
  let s ← freezeParents c reader 64 ⟨position, leaf, leftSiblings, toFreeze ++ [(position, leaf)]⟩
  pure ((s.position, s.hash) :: s.leftSiblings, s.toFreeze)

def appendLeaves (leafIndex : ℕ) (leftSiblings toFreeze : List (Node H)) :
    List H → Outcome (AccumulatorError H) (List (Node H) × List (Node H))
  | [] => pure (leftSiblings, toFreeze)
  | leaf :: leaves => do
    let (leftSiblings, toFreeze) ← appendLeaf c reader leafIndex leaf leftSiblings toFreeze
    appendLeaves (leafIndex + 1) leftSiblings toFreeze leaves

/-- Nothing is to the right of the last leaves. -/
def joinSibling (isLeft : Bool) (leftSiblings : List (Node H)) (position : Position) (hash : H) :
    Outcome (AccumulatorError H) (H × List (Node H)) :=
  if isLeft then pure (c.combine hash c.placeholder, leftSiblings)
  else joinLeft c reader leftSiblings position hash

/-- Up to the level of the root. -/
def climbToRoot : ℕ → Position → H → List (Node H) →
    Outcome (AccumulatorError H) (H × List (Node H))
  | 0, _, hash, leftSiblings => pure (hash, leftSiblings)
  | levels + 1, position, hash, leftSiblings => do
    let isLeft ← expect position.isLeftChild
    let (hash, leftSiblings) ← joinSibling c reader isLeft leftSiblings position hash
    let parent ← expect position.parent
    climbToRoot levels parent hash leftSiblings

/-- The assertions of the bound on the nodes to freeze. -/
def maxToFreeze (numNewLeaves rootLevel : ℕ) : Outcome (AccumulatorError H) ℕ := do
  assert (rootLevel ≤ maxAccumulatorProofDepth)
  assert (numNewLeaves < (2 ^ 64 - 1) / 2)
  assert (numNewLeaves * 2 ≤ 2 ^ 64 - 1 - rootLevel)
  pure (numNewLeaves * 2 + rootLevel)

def append (newLeaves : List H) : Outcome (AccumulatorError H) (H × List (Node H)) := do
  if newLeaves = [] then
    if numLeaves = 0 then pure (c.placeholder, [])
    else do
      let root ← expect (rootFromLeafCount numLeaves)
      let rootHash ← getHash c reader numLeaves root
      pure (rootHash, [])
  else do
    let rootLevel ← expect (rootLevelFromLeafCount (numLeaves + newLeaves.length))
    let _ ← maxToFreeze newLeaves.length rootLevel
    let (leftSiblings, toFreeze) ← appendLeaves c reader numLeaves [] [] newLeaves
    let (last, rest) ← expect (leftSiblings.head?.map (·, leftSiblings.tail))
    let (hash, rest) ← climbToRoot c reader (rootLevel - last.1.level) last.1 last.2 rest
    assert (rest = [])
    pure (hash, toFreeze)

/-! ## Proofs -/

/-- The siblings of the ancestors, from the leaf up. -/
def ancestorSiblings : ℕ → Position → Outcome (AccumulatorError H) (List Position)
  | 0, _ => pure []
  | count + 1, position => do
    let sibling ← expect position.sibling
    let parent ← expect position.parent
    let rest ← ancestorSiblings count parent
    pure (sibling :: rest)

def getHashes (positions : List Position) : Outcome (AccumulatorError H) (List H) :=
  positions.mapM (getHash c reader numLeaves)

def filterM (p : Position → Option Bool) :
    List Position → Outcome (AccumulatorError H) (List Position)
  | [] => pure []
  | position :: rest => do
    let keep ← expect (p position)
    let kept ← filterM p rest
    pure (if keep then position :: kept else kept)

def getSiblingPositions (leafIndex : ℕ) (filter : Position → Option Bool) :
    Outcome (AccumulatorError H) (List Position) := do
  let root ← expect (rootFromLeafCount numLeaves)
  let positions ← ancestorSiblings root.level (fromLeafIndex leafIndex)
  filterM filter positions

def getProof (leafIndex : ℕ) : Outcome (AccumulatorError H) (List H) := do
  ensure (leafIndex < numLeaves) (.invalidLeafIndex leafIndex numLeaves)
  let positions ← getSiblingPositions numLeaves leafIndex fun _ => some true
  getHashes c reader numLeaves positions

/-- The constructor of the iterator asserts that the numbers are in order and not too large. -/
def getConsistencyProof (subAccLeaves : ℕ) : Outcome (AccumulatorError H) (List H) := do
  ensure (subAccLeaves ≤ numLeaves) (.newerThanLocal numLeaves subAccLeaves)
  assert (numLeaves ≤ maxAccumulatorLeaves)
  (frozenSubtreeSiblings subAccLeaves (numLeaves - subAccLeaves)).mapM (get reader)

def getRangeProofPositions (firstLeafIndex : Option ℕ) (count : ℕ) :
    Outcome (AccumulatorError H) (List Position × List Position) := do
  match firstLeafIndex with
  | none => do
    ensure (count = 0) .numLeavesNotZero
    pure ([], [])
  | some first => do
    ensure (0 < count) .numLeavesZero
    ensure (first + (count - 1) < 2 ^ 64) .tooManyLeaves
    let last := first + (count - 1)
    ensure (last < numLeaves) (.invalidLastLeafIndex last numLeaves)
    let left ← getSiblingPositions numLeaves first isLeftChild
    let right ← getSiblingPositions numLeaves last isRightChild
    pure (left, right)

def getRangeProof (firstLeafIndex : Option ℕ) (count : ℕ) :
    Outcome (AccumulatorError H) (List H × List H) := do
  let (left, right) ← getRangeProofPositions numLeaves firstLeafIndex count
  let leftHashes ← getHashes c reader numLeaves left
  let rightHashes ← getHashes c reader numLeaves right
  pure (leftHashes, rightHashes)

/-! ## Reading -/

variable {reader} {leaves more : List H}

variable (reader leaves) in
/-- The reader has the full trees of the leaves. -/
def Holds : Prop :=
  ∀ l k, (k + 1) * 2 ^ l ≤ leaves.length → reader (pos l k) = some (node c leaves l k)

variable {c}

theorem Holds.get (h : Holds c reader leaves) {l k : ℕ} (hle : (k + 1) * 2 ^ l ≤ leaves.length) :
    Returns (get reader (pos l k)) (node c leaves l k) :=
  returns_orElse.mpr (h l k hle)

theorem getHashLoop_eq (h : Holds c reader leaves) (hpos : 0 < leaves.length)
    (hmax : leaves.length ≤ 2 ^ 63) {fuel l k : ℕ} (hwithin : Within l k) (hfuel : l < fuel) :
    Returns (getHashLoop c reader leaves.length fuel (pos l k)) (node c leaves l k) := by
  induction fuel generalizing l k with
  | zero => omega
  | succ fuel ih =>
    rw [getHashLoop, hwithin.isPlaceholder_eq (by omega), hwithin.isFreezable_eq (by omega)]
    by_cases hempty : leaves.length - 1 < k * 2 ^ l
    · rw [if_pos (decide_eq_true hempty), returns_pure, node_of_le (by omega)]
    · rw [if_neg (by simpa using hempty)]
      by_cases hfull : (k + 1) * 2 ^ l ≤ leaves.length - 1 + 1
      · rw [if_pos (decide_eq_true hfull)]
        exact h.get (by omega)
      · rw [if_neg (by simpa using hfull)]
        cases l with
        | zero => omega
        | succ l =>
          have hfits := hwithin.fits
          simp only [returns_bind, returns_expect, returns_pure]
          refine ⟨_, hfits.leftChild_eq, _, ih hwithin.left (by omega), _, hfits.rightChild_eq, _,
            ih hwithin.right (by omega), (node_succ (by omega)).symm⟩

theorem getHash_eq (h : Holds c reader leaves) (hpos : 0 < leaves.length)
    (hmax : leaves.length ≤ 2 ^ 63) {l k : ℕ} (hwithin : Within l k) :
    Returns (getHash c reader leaves.length (pos l k)) (node c leaves l k) := by
  rw [getHash, returns_bind]
  exact ⟨(), returns_assert.mpr hpos, getHashLoop_eq h hpos hmax hwithin hwithin.level_lt⟩

theorem within_root (hmax : leaves.length ≤ 2 ^ 63) : Within (Nat.clog 2 leaves.length) 0 := by
  rw [Within, Nat.zero_add, Nat.one_mul]
  exact Nat.pow_le_pow_right two_pos (Nat.clog_le_of_le_pow hmax)

theorem getRootHash_eq (h : Holds c reader leaves) (hpos : 0 < leaves.length)
    (hmax : leaves.length ≤ 2 ^ 63) :
    Returns (getRootHash c reader leaves.length) (root c leaves) := by
  rw [getRootHash, returns_bind]
  exact ⟨_, returns_expect.mpr (rootFromLeafCount_eq hpos hmax),
    getHash_eq h hpos hmax (within_root hmax)⟩

/-! ## What an append keeps -/

variable (c) in
def nodeAt (leaves : List H) (p : ℕ × ℕ) : Node H := (pos p.1 p.2, node c leaves p.1 p.2)

variable (c) in
/-- The full trees before place `m` of a level that end behind the first `n` leaves, the last one
first. -/
def newTrees (leaves : List H) (n l m : ℕ) : List (Node H) :=
  (((frozen l m).filter fun p => n < (p.2 + 1) * 2 ^ p.1).map (nodeAt c leaves)).reverse

theorem newTrees_two_mul (n l q : ℕ) :
    newTrees c leaves n l (2 * q) = newTrees c leaves n (l + 1) q := by
  rw [newTrees, frozen_two_mul, newTrees]

theorem newTrees_two_pow_mul (n l t q : ℕ) :
    newTrees c leaves n l (2 ^ t * q) = newTrees c leaves n (l + t) q := by
  rw [newTrees, frozen_two_pow_mul, newTrees]

theorem newTrees_two_mul_add_one {n l q : ℕ} (h : n < (2 * q + 1) * 2 ^ l) :
    newTrees c leaves n l (2 * q + 1) =
      nodeAt c leaves (l, 2 * q) :: newTrees c leaves n (l + 1) q := by
  rw [newTrees, frozen_two_mul_add_one, List.filter_append, List.filter_singleton,
    decide_eq_true h, cond_true, List.map_append, List.reverse_append, List.map_singleton,
    List.reverse_singleton, List.singleton_append, newTrees]

theorem newTrees_of_le {n l m : ℕ} (h : m * 2 ^ l ≤ n) : newTrees c leaves n l m = [] := by
  have hnone : (frozen l m).filter (fun p => n < (p.2 + 1) * 2 ^ p.1) = [] := by
    refine List.filter_eq_nil_iff.mpr fun p hp => ?_
    have hle := (mem_frozen_le hp).2
    simpa using hle.trans h
  rw [newTrees, hnone, List.map_nil, List.reverse_nil]

theorem newTrees_zero (n l : ℕ) : newTrees c leaves n l 0 = [] :=
  newTrees_of_le (by rw [Nat.zero_mul]; exact Nat.zero_le n)

/-- A right child and its sibling, that is new or stored. -/
theorem joinLeft_eq (h : Holds c reader leaves) {l q : ℕ} (hfits : Fits l (2 * q + 1))
    (hl : l < 63) (hq : q * 2 ^ (l + 1) < (leaves ++ more).length) :
    Returns (joinLeft c reader (newTrees c (leaves ++ more) leaves.length l (2 * q + 1))
        (pos l (2 * q + 1)) (node c (leaves ++ more) l (2 * q + 1)))
      (node c (leaves ++ more) (l + 1) q,
        newTrees c (leaves ++ more) leaves.length (l + 1) q) := by
  have hsibling : (pos l (2 * q + 1)).sibling = some (pos l (2 * q)) := by
    rw [hfits.sibling_eq hl, other, if_neg (by omega), Nat.add_sub_cancel]
  rw [joinLeft, returns_bind]
  refine ⟨_, returns_expect.mpr hsibling, ?_⟩
  by_cases hnew : leaves.length < (2 * q + 1) * 2 ^ l
  · rw [newTrees_two_mul_add_one hnew]
    simp only [nodeAt, returns_bind, returns_assert, returns_pure]
    exact ⟨(), trivial, by rw [node_succ hq]⟩
  · have hold : (2 * q + 1) * 2 ^ l ≤ leaves.length := Nat.not_lt.mp hnew
    have hparent : q * 2 ^ (l + 1) ≤ leaves.length := by
      rw [show q * 2 ^ (l + 1) = 2 * q * 2 ^ l by ring]
      exact (Nat.mul_le_mul_right _ (by omega)).trans hold
    have hread := h.get hold
    have hsame : node c (leaves ++ more) l (2 * q) = node c leaves l (2 * q) := node_append hold
    rw [← hsame] at hread
    rw [newTrees_of_le hold, newTrees_of_le hparent]
    simp only [returns_bind, returns_pure]
    exact ⟨_, hread, by rw [node_succ hq]⟩

/-- The nodes that are full with the node at a level, above it. -/
def above (l m : ℕ) : List (ℕ × ℕ) :=
  if m % 2 = 1 then (l + 1, m / 2) :: above (l + 1) (m / 2) else []
termination_by m
decreasing_by exact Nat.div_lt_self (by omega) one_lt_two

theorem above_two_mul (l q : ℕ) : above l (2 * q) = [] := by
  rw [above, if_neg (by omega)]

theorem above_two_mul_add_one (l q : ℕ) :
    above l (2 * q + 1) = (l + 1, q) :: above (l + 1) q := by
  rw [above, if_pos (by omega), show (2 * q + 1) / 2 = q by omega]

theorem freezeParents_eq (h : Holds c reader leaves) {t fuel l m q : ℕ}
    (hm : m + 1 = 2 ^ t * (2 * q + 1)) (hfuel : t < fuel)
    (hfits : ∀ s ≤ t, Fits (l + s) (m / 2 ^ s)) (hl : l + t ≤ 63)
    (hlt : m * 2 ^ l < (leaves ++ more).length) (toFreeze : List (Node H)) :
    Returns (freezeParents c reader fuel ⟨pos l m, node c (leaves ++ more) l m,
        newTrees c (leaves ++ more) leaves.length l m, toFreeze⟩)
      ⟨pos (l + t) (2 * q), node c (leaves ++ more) (l + t) (2 * q),
        newTrees c (leaves ++ more) leaves.length (l + t) (2 * q),
        toFreeze ++ (above l m).map (nodeAt c (leaves ++ more))⟩ := by
  induction t generalizing fuel l m toFreeze with
  | zero =>
    obtain rfl : m = 2 * q := by omega
    obtain ⟨fuel, rfl⟩ : ∃ f, fuel = f + 1 := ⟨fuel - 1, by omega⟩
    have hchild := (hfits 0 le_rfl).isLeftChild_eq
    rw [Nat.add_zero, pow_zero, Nat.div_one] at hchild
    rw [freezeParents, returns_bind]
    refine ⟨false, ?_, ?_⟩
    · rw [returns_expect, isRightChild, hchild]
      simp
    · rw [if_neg Bool.false_ne_true, returns_pure, above_two_mul, List.map_nil, List.append_nil,
        Nat.add_zero]
  | succ t ih =>
    have hsplit : 2 ^ (t + 1) * (2 * q + 1) = 2 * (2 ^ t * (2 * q + 1)) := by ring
    have hpos : 0 < 2 ^ t * (2 * q + 1) := Nat.mul_pos (Nat.two_pow_pos t) (by omega)
    obtain ⟨m', rfl⟩ : ∃ m', m = 2 * m' + 1 := ⟨2 ^ t * (2 * q + 1) - 1, by omega⟩
    obtain ⟨fuel, rfl⟩ : ∃ f, fuel = f + 1 := ⟨fuel - 1, by omega⟩
    have hfirst := hfits 0 (Nat.zero_le _)
    rw [Nat.add_zero, pow_zero, Nat.div_one] at hfirst
    have hparent := hfirst.parent_eq
    rw [show (2 * m' + 1) / 2 = m' by omega] at hparent
    have hlt' : m' * 2 ^ (l + 1) < (leaves ++ more).length := by
      refine lt_of_le_of_lt ?_ hlt
      rw [show m' * 2 ^ (l + 1) = 2 * m' * 2 ^ l by ring]
      exact Nat.mul_le_mul_right _ (by omega)
    have hfits' : ∀ s ≤ t, Fits (l + 1 + s) (m' / 2 ^ s) := by
      intro s hs
      have hnext := hfits (s + 1) (by omega)
      rwa [show l + (s + 1) = l + 1 + s by omega, pow_succ', ← Nat.div_div_eq_div_mul,
        show (2 * m' + 1) / 2 = m' by omega] at hnext
    have hrest := @ih fuel (l + 1) m' (by omega) (by omega) hfits' (by omega) hlt'
      (toFreeze ++ [nodeAt c (leaves ++ more) (l + 1, m')])
    rw [freezeParents, returns_bind]
    refine ⟨true, ?_, ?_⟩
    · rw [returns_expect, isRightChild, hfirst.isLeftChild_eq]
      simp
    · rw [if_pos rfl]
      simp only [returns_bind, returns_expect]
      refine ⟨_, joinLeft_eq h hfirst (by omega) hlt', _, hparent, ?_⟩
      rw [above_two_mul_add_one, List.map_cons, show l + (t + 1) = l + 1 + t by omega]
      rwa [List.append_assoc, List.singleton_append] at hrest

theorem appendLeaf_eq (h : Holds c reader leaves) {i : ℕ} (hi : i < (leaves ++ more).length)
    (hmax : (leaves ++ more).length < 2 ^ 62) (hnew : leaves.length ≤ i)
    (toFreeze : List (Node H)) :
    Returns (appendLeaf c reader i (node c (leaves ++ more) 0 i)
        (newTrees c (leaves ++ more) leaves.length 0 i) toFreeze)
      (newTrees c (leaves ++ more) leaves.length 0 (i + 1),
        toFreeze ++ ((0, i) :: above 0 i).map (nodeAt c (leaves ++ more))) := by
  obtain ⟨t, q, hm⟩ := exists_two_pow_mul (Nat.succ_pos i)
  have hle : 2 ^ t ≤ i + 1 := by
    rw [Nat.succ_eq_add_one] at hm
    rw [hm]
    exact Nat.le_mul_of_pos_right _ (by omega)
  have ht : t < 63 := (Nat.pow_lt_pow_iff_right one_lt_two).mp (by omega)
  have hleaf : fromLeafIndex i = pos 0 i := by
    rw [fromLeafIndex_eq, Nat.mod_eq_of_lt (by omega)]
  have hfrozen := @freezeParents_eq H c reader leaves more h t 64 0 i q hm (by omega)
    (fun s hs => by rw [Nat.zero_add]; exact fits_of_lt (by omega) (by omega)) (by omega)
    (by rwa [pow_zero, Nat.mul_one]) (toFreeze ++ [nodeAt c (leaves ++ more) (0, i)])
  rw [appendLeaf]
  simp only [returns_bind, returns_pure]
  refine ⟨_, by rw [hleaf]; exact hfrozen, ?_⟩
  have hend : (2 * q + 1) * 2 ^ t = i + 1 := by
    rw [Nat.mul_comm]
    exact hm.symm
  rw [List.append_assoc, List.singleton_append, List.map_cons]
  refine Prod.ext ?_ rfl
  dsimp only
  rw [Nat.succ_eq_add_one] at hm
  rw [hm, newTrees_two_pow_mul, newTrees_two_mul_add_one (by rw [Nat.zero_add, hend]; omega),
    newTrees_two_mul, Nat.zero_add]
  rfl

/-- The nodes that are full with the leaves from `n` on. -/
def frozenWith (n count : ℕ) : List (ℕ × ℕ) :=
  (List.range' n count).flatMap fun i => (0, i) :: above 0 i

theorem frozenWith_succ (n count : ℕ) :
    frozenWith n (count + 1) = ((0, n) :: above 0 n) ++ frozenWith (n + 1) count := by
  rw [frozenWith, List.range'_succ, List.flatMap_cons, frozenWith]

theorem appendLeaves_eq (h : Holds c reader leaves) (hmax : (leaves ++ more).length < 2 ^ 62)
    {rest : List H} {i : ℕ} (hrest : (leaves ++ more).drop i = rest) (hnew : leaves.length ≤ i)
    (hi : i ≤ (leaves ++ more).length) (toFreeze : List (Node H)) :
    Returns (appendLeaves c reader i (newTrees c (leaves ++ more) leaves.length 0 i) toFreeze rest)
      (newTrees c (leaves ++ more) leaves.length 0 (leaves ++ more).length,
        toFreeze ++ (frozenWith i rest.length).map (nodeAt c (leaves ++ more))) := by
  induction rest generalizing i toFreeze with
  | nil =>
    have hend : i = (leaves ++ more).length := le_antisymm hi (List.drop_eq_nil_iff.mp hrest)
    rw [appendLeaves, returns_pure, hend, List.length_nil]
    simp [frozenWith]
  | cons leaf rest ih =>
    have hlt : i < (leaves ++ more).length := by
      by_contra hge
      rw [List.drop_eq_nil_of_le (Nat.not_lt.mp hge)] at hrest
      cases hrest
    rw [List.drop_eq_getElem_cons hlt] at hrest
    obtain ⟨hleaf, htail⟩ := List.cons.inj hrest
    have hnode : node c (leaves ++ more) 0 i = leaf := by
      rw [node, List.getD_eq_getElem _ _ hlt, hleaf]
    have hfirst := appendLeaf_eq h hlt hmax hnew toFreeze
    rw [hnode] at hfirst
    rw [appendLeaves]
    simp only [returns_bind]
    refine ⟨_, hfirst, ?_⟩
    have hnext := ih htail (by omega) hlt
      (toFreeze ++ ((0, i) :: above 0 i).map (nodeAt c (leaves ++ more)))
    rwa [List.append_assoc, ← List.map_append, ← frozenWith_succ] at hnext

theorem climbToRoot_eq (h : Holds c reader leaves) (hmax : (leaves ++ more).length < 2 ^ 62)
    {i : ℕ} (hi : i + 1 = (leaves ++ more).length) {levels l d : ℕ} (hd : l + levels = d)
    (hle : d ≤ 62) :
    Returns (climbToRoot c reader levels (pos l (i / 2 ^ l))
        (node c (leaves ++ more) l (i / 2 ^ l))
        (newTrees c (leaves ++ more) leaves.length l (i / 2 ^ l)))
      (node c (leaves ++ more) d (i / 2 ^ d),
        newTrees c (leaves ++ more) leaves.length d (i / 2 ^ d)) := by
  induction levels generalizing l with
  | zero =>
    obtain rfl : l = d := by omega
    rw [climbToRoot, returns_pure]
  | succ levels ih =>
    have hfits : Fits l (i / 2 ^ l) := fits_of_lt (by omega) (by omega)
    have hlast : (leaves ++ more).length ≤ (i / 2 ^ l + 1) * 2 ^ l := by
      have := Nat.lt_div_mul_add (a := i) (Nat.two_pow_pos l)
      rw [Nat.add_mul]
      omega
    have hlt : i / 2 ^ (l + 1) * 2 ^ (l + 1) < (leaves ++ more).length := by
      have := Nat.div_mul_le_self i (2 ^ (l + 1))
      omega
    have hparent := hfits.parent_eq
    rw [← div_two_pow_succ] at hparent
    have hnext := ih (l := l + 1) (by omega)
    rw [climbToRoot]
    simp only [returns_bind, returns_expect]
    refine ⟨_, hfits.isLeftChild_eq, (node c (leaves ++ more) (l + 1) (i / 2 ^ (l + 1)),
      newTrees c (leaves ++ more) leaves.length (l + 1) (i / 2 ^ (l + 1))), ?_, _, hparent, hnext⟩
    obtain ⟨q, hq | hq⟩ := (i / 2 ^ l).even_or_odd'
    · have hhalf : i / 2 ^ (l + 1) = q := div_two_pow_succ_of_left hq
      rw [hhalf] at hlt
      rw [hq] at hlast
      rw [hq, hhalf, joinSibling, if_pos (by simp), returns_pure, newTrees_two_mul,
        node_succ hlt, node_of_le hlast]
    · have hhalf : i / 2 ^ (l + 1) = q := div_two_pow_succ_of_right hq
      rw [hhalf] at hlt
      rw [hq] at hfits
      rw [hq, hhalf, joinSibling, if_neg (by simp)]
      exact joinLeft_eq h hfits (by omega) hlt

theorem exists_newTrees_eq {i n : ℕ} (hn : n ≤ i) :
    ∃ t, 2 ^ t ≤ i + 1 ∧ newTrees c leaves n 0 (i + 1) =
      nodeAt c leaves (t, i / 2 ^ t) :: newTrees c leaves n t (i / 2 ^ t) := by
  obtain ⟨t, q, hm⟩ := exists_two_pow_mul (Nat.succ_pos i)
  rw [Nat.succ_eq_add_one] at hm
  have hpos : 0 < 2 ^ t := Nat.two_pow_pos t
  have hend : (2 * q + 1) * 2 ^ t = i + 1 := by
    rw [Nat.mul_comm]
    exact hm.symm
  have hdiv : i / 2 ^ t = 2 * q := by
    refine Nat.div_eq_of_lt_le ?_ (by omega)
    rw [Nat.add_mul] at hend
    omega
  refine ⟨t, ?_, ?_⟩
  · rw [hm]
    exact Nat.le_mul_of_pos_right _ (by omega)
  · rw [hm, newTrees_two_pow_mul, Nat.zero_add, newTrees_two_mul_add_one (by rw [hend]; omega),
      hdiv, newTrees_two_mul]

theorem maxToFreeze_returns {count level : ℕ} (hcount : count < 2 ^ 62) (hlevel : level ≤ 62) :
    ∃ bound, Returns (maxToFreeze count level : Outcome (AccumulatorError H) ℕ) bound := by
  refine ⟨count * 2 + level, ?_⟩
  simp only [maxToFreeze, returns_bind, returns_assert, returns_pure]
  exact ⟨(), hlevel.trans (by decide), (), by omega, (), by omega, trivial⟩

theorem append_eq (h : Holds c reader leaves) (hmax : (leaves ++ more).length < 2 ^ 62) :
    Returns (append c reader leaves.length more) (root c (leaves ++ more),
      (frozenWith leaves.length more.length).map (nodeAt c (leaves ++ more))) := by
  rw [append]
  split
  next hempty =>
    subst hempty
    rw [List.append_nil] at hmax ⊢
    split
    next hzero =>
      obtain rfl := List.eq_nil_of_length_eq_zero hzero
      rw [returns_pure]
      rfl
    next hne =>
      have hpos := Nat.pos_of_ne_zero hne
      simp only [returns_bind, returns_expect, returns_pure]
      exact ⟨_, rootFromLeafCount_eq hpos (by omega), _,
        getHash_eq h hpos (by omega) (within_root (by omega)), rfl⟩
  next hmore =>
    have hlength : leaves.length + more.length = (leaves ++ more).length := List.length_append.symm
    have hpos : 0 < more.length := List.length_pos_iff.mpr hmore
    obtain ⟨i, hi⟩ : ∃ i, i + 1 = (leaves ++ more).length :=
      ⟨(leaves ++ more).length - 1, by omega⟩
    obtain ⟨t, ht, htrees⟩ := @exists_newTrees_eq H c (leaves ++ more) i leaves.length (by omega)
    have hclog : (leaves ++ more).length ≤ 2 ^ Nat.clog 2 (leaves ++ more).length :=
      Nat.le_pow_clog one_lt_two _
    have hle : Nat.clog 2 (leaves ++ more).length ≤ 62 := Nat.clog_le_of_le_pow hmax.le
    have htd : t ≤ Nat.clog 2 (leaves ++ more).length :=
      (Nat.pow_le_pow_iff_right one_lt_two).mp (by omega)
    obtain ⟨bound, hbound⟩ := maxToFreeze_returns (H := H) (by omega : more.length < 2 ^ 62) hle
    have hloop := appendLeaves_eq h hmax (@List.drop_left _ leaves more) le_rfl
      (by omega) []
    rw [newTrees_of_le (by rw [pow_zero, Nat.mul_one]), List.nil_append, ← hi, htrees] at hloop
    have hclimb := climbToRoot_eq h hmax hi (l := t) (Nat.add_sub_cancel' htd) hle
    have hroot : i / 2 ^ Nat.clog 2 (leaves ++ more).length = 0 := Nat.div_eq_of_lt (by omega)
    rw [hroot, newTrees_zero] at hclimb
    have hlevel : (nodeAt c (leaves ++ more) (t, i / 2 ^ t)).1.level = t :=
      (fits_of_lt (by omega) (by omega)).at_pos.level_eq
    rw [hlength]
    simp only [returns_bind, returns_expect, returns_assert, returns_pure]
    refine ⟨_, rootLevelFromLeafCount_eq (by omega) (by omega), bound, hbound, _, hloop,
      _, rfl, (root c (leaves ++ more), []), ?_, (), rfl, rfl⟩
    dsimp only
    rw [hlevel]
    exact hclimb

end MerkleAccumulatorView

end Anthemius.Accumulators
