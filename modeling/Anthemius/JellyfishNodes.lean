import Anthemius.BitWords
import Anthemius.NibblePaths
import Anthemius.Outcomes
import Mathlib.Data.Fintype.Pi

/-!
# Nodes of the Jellyfish Merkle tree

An internal node has up to sixteen children, one for each nibble, and is made only if it has two
of them or one that is no leaf. Two bitmaps say which children there are and which are leaves.
-/
namespace Anthemius.Jellyfish
open BitWords Outcomes

abbrev Version := ℕ

inductive TreeError
  /-- "Children must not be empty" -/
  | noChildren
  /-- "If there's only one child, it must not be a leaf." -/
  | singleLeafChild

inductive NodeType
  | leaf
  | null
  | internal (leafCount : ℕ)
  deriving DecidableEq

structure Child (H : Type) where
  hash : H
  version : Version
  nodeType : NodeType

namespace Child
variable {H : Type} (child : Child H)

def isLeaf : Bool :=
  match child.nodeType with
  | .leaf => true
  | _ => false

def leafCount : Outcome TreeError ℕ :=
  match child.nodeType with
  | .leaf => pure 1
  | .internal leafCount => pure leafCount
  | .null => crash

end Child

/-- The children by their nibbles. -/
abbrev Children (H : Type) := Nibble → Option (Child H)

/-- The pairs of the map, in the order of the nibbles. -/
def Children.toList {H : Type} (children : Children H) : List (Nibble × Child H) :=
  (List.finRange 16).filterMap fun n => (children n).map fun child => (n, child)

structure InternalNode (H : Type) where
  children : Children H
  leafCount : ℕ

structure LeafNode (K V : Type) where
  accountKey : HashValue
  valueHash : V
  valueIndex : K × Version

inductive Node (K V H : Type)
  | internal (node : InternalNode H)
  | leaf (node : LeafNode K V)
  | null

variable {K V H : Type}

/-- The position of a child that a bitmap names. -/
def nibbleFrom (i : ℕ) : Option Nibble := if h : i < 16 then some ⟨i, h⟩ else none

/-- The single child, if it is a leaf. -/
def Children.onlyLeaf (children : Children H) : Bool :=
  match children.toList with
  | [(_, child)] => child.isLeaf
  | _ => false

namespace InternalNode

def newImpl (children : Children H) : Outcome TreeError (InternalNode H) := do
  ensure (children.toList.isEmpty = false) .noChildren
  ensure (children.onlyLeaf = false) .singleLeafChild
  let counts ← children.toList.mapM fun child => child.2.leafCount
  pure ⟨children, counts.sum⟩

variable (node : InternalNode H)

/-- Which children exist, and which of them are leaves. -/
def generateBitmaps : Outcome TreeError (BitVec 16 × BitVec 16) := do
  let bitmaps := node.children.toList.foldl (fun bitmaps child =>
    (bitmaps.1 ||| 1#16 <<< child.1.val,
      if child.2.isLeaf then bitmaps.2 ||| 1#16 <<< child.1.val else bitmaps.2)) (0#16, 0#16)
  assert (bitmaps.1 ||| bitmaps.2 = bitmaps.1)
  pure bitmaps

end InternalNode

/-! ## Bitmaps -/

section Bitmaps
variable {children : Children H} {n : Nibble} {child : Child H}

theorem Children.mem_toList : (n, child) ∈ children.toList ↔ children n = some child := by
  rw [toList, List.mem_filterMap]
  constructor
  · rintro ⟨m, -, h⟩
    obtain ⟨child', hchild, heq⟩ := Option.map_eq_some_iff.mp h
    cases heq
    exact hchild
  · intro h
    exact ⟨n, List.mem_finRange n, by rw [h]; rfl⟩

theorem getLsbD_foldl (l : List (Nibble × Child H)) (bitmaps : BitVec 16 × BitVec 16) {i : ℕ}
    (hi : i < 16) :
    let result := l.foldl (fun bitmaps child => (bitmaps.1 ||| 1#16 <<< child.1.val,
      if child.2.isLeaf then bitmaps.2 ||| 1#16 <<< child.1.val else bitmaps.2)) bitmaps
    result.1.getLsbD i = (bitmaps.1.getLsbD i || l.any fun child => child.1.val = i) ∧
      result.2.getLsbD i =
        (bitmaps.2.getLsbD i || l.any fun child => child.1.val = i ∧ child.2.isLeaf) := by
  induction l generalizing bitmaps with
  | nil => simp
  | cons child l ih =>
    obtain ⟨hexists, hleaf⟩ := ih (bitmaps.1 ||| 1#16 <<< child.1.val,
      if child.2.isLeaf then bitmaps.2 ||| 1#16 <<< child.1.val else bitmaps.2)
    simp only [List.foldl_cons, List.any_cons]
    refine ⟨?_, ?_⟩
    · rw [hexists, getLsbD_or_shiftLeft _ hi, Bool.or_assoc]
    · rw [hleaf, ← Bool.or_assoc]
      congr 1
      cases child.2.isLeaf
      · simp
      · simp only [if_true, and_true]
        exact getLsbD_or_shiftLeft _ hi

theorem InternalNode.generateBitmaps_returns (node : InternalNode H) :
    ∃ bitmaps, Returns node.generateBitmaps bitmaps ∧ ∀ n : Nibble,
      bitmaps.1.getLsbD n.val = (node.children n).isSome ∧
      bitmaps.2.getLsbD n.val = (node.children n).any Child.isLeaf := by
  have hbits := fun n : Nibble => getLsbD_foldl node.children.toList (0#16, 0#16) n.isLt
  generalize hbitmaps : node.children.toList.foldl _ (0#16, 0#16) = bitmaps at hbits
  have hexists : ∀ n : Nibble, bitmaps.1.getLsbD n.val = (node.children n).isSome := by
    intro n
    rw [(hbits n).1, BitVec.getLsbD_zero, Bool.false_or, Bool.eq_iff_iff, List.any_eq_true]
    constructor
    · rintro ⟨⟨m, child⟩, hmem, heq⟩
      obtain rfl : m = n := Fin.ext (by simpa using heq)
      rw [Children.mem_toList.mp hmem]
      rfl
    · intro hsome
      obtain ⟨child, hchild⟩ := Option.isSome_iff_exists.mp hsome
      exact ⟨(n, child), Children.mem_toList.mpr hchild, by simp⟩
  have hleaf : ∀ n : Nibble, bitmaps.2.getLsbD n.val = (node.children n).any Child.isLeaf := by
    intro n
    rw [(hbits n).2, BitVec.getLsbD_zero, Bool.false_or, Bool.eq_iff_iff, List.any_eq_true,
      Option.any_eq_true]
    constructor
    · rintro ⟨⟨m, child⟩, hmem, heq⟩
      obtain ⟨hm, hchild⟩ := of_decide_eq_true heq
      obtain rfl : m = n := Fin.ext hm
      exact ⟨child, Children.mem_toList.mp hmem, hchild⟩
    · rintro ⟨child, hchild, hisLeaf⟩
      exact ⟨(n, child), Children.mem_toList.mpr hchild, decide_eq_true ⟨rfl, hisLeaf⟩⟩
  refine ⟨bitmaps, ?_, fun n => ⟨hexists n, hleaf n⟩⟩
  have hsubset : bitmaps.1 ||| bitmaps.2 = bitmaps.1 := by
    refine BitVec.eq_of_getLsbD_eq fun i hi => ?_
    rw [BitVec.getLsbD_or, hexists ⟨i, hi⟩, hleaf ⟨i, hi⟩]
    cases node.children ⟨i, hi⟩ <;> rfl
  simp only [generateBitmaps, hbitmaps, returns_bind, returns_assert, returns_pure]
  exact ⟨(), hsubset, trivial⟩

end Bitmaps

end Anthemius.Jellyfish
