import Anthemius.JellyfishNodes
import Anthemius.StoredNodeKeys

/-!
# Nodes in storage

The children of an internal node are stored in the order of their nibbles behind two bitmaps.
Versions and leaf counts take seven bits in each of the first eight bytes and eight in the ninth.
-/
namespace Anthemius.Jellyfish
open BitWords Outcomes
open LittleEndianBytes (Bytes)

/-! ## Numbers of variable length -/

/-- `rounds` bytes of seven bits are left. An assertion is `none`. -/
def serializeVarint : ℕ → ℕ → Option Bytes
  | 0, num => if num ≠ 0 ∧ num ≤ 0xFF then some [UInt8.ofNat num] else none
  | rounds + 1, num =>
    let lowBits := UInt8.ofNat (num % 128)
    if num / 128 = 0 then some [lowBits]
    else (serializeVarint rounds (num / 128)).map ((lowBits ||| 0x80) :: ·)

def serializeU64Varint (num : ℕ) : Option Bytes := serializeVarint 8 num

/-- `i` bytes have been read, and `rounds` bytes of seven bits are left. -/
def deserializeVarint : ℕ → ℕ → ℕ → Bytes → Outcome DecodeError (ℕ × Bytes)
  | 0, _, num, data => do
    let (byte, data) ← readU8 data
    pure (num ||| byte.toNat <<< 56, data)
  | rounds + 1, i, num, data => do
    let (byte, data) ← readU8 data
    let num := num ||| (byte &&& 0x7F).toNat <<< (i * 7)
    if byte &&& 0x80 = 0 then pure (num, data)
    else deserializeVarint rounds (i + 1) num data

def deserializeU64Varint (data : Bytes) : Outcome DecodeError (ℕ × Bytes) :=
  deserializeVarint 8 0 0 data

theorem lowBits_toNat : ∀ low < 128, (UInt8.ofNat low &&& 0x7F).toNat = low ∧
    UInt8.ofNat low &&& 0x80 = 0 ∧ ((UInt8.ofNat low ||| 0x80) &&& 0x7F).toNat = low ∧
      (UInt8.ofNat low ||| 0x80) &&& 0x80 ≠ 0 := by
  decide

theorem or_shiftLeft {acc n s : ℕ} (h : acc < 2 ^ s) : acc ||| n <<< s = acc + 2 ^ s * n := by
  rw [Nat.shiftLeft_eq, Nat.mul_comm, Nat.or_comm, ← Nat.two_pow_add_eq_or_of_lt h, Nat.add_comm]

theorem serializeVarint_isSome {rounds num : ℕ} (hne : rounds = 0 → num ≠ 0)
    (h : num < 2 ^ (7 * rounds + 8)) : ∃ bytes, serializeVarint rounds num = some bytes := by
  induction rounds generalizing num with
  | zero => exact ⟨_, if_pos ⟨hne rfl, Nat.le_of_lt_succ h⟩⟩
  | succ rounds ih =>
    rw [serializeVarint]
    split
    · exact ⟨_, rfl⟩
    next hpos =>
      have hlt : num / 128 < 2 ^ (7 * rounds + 8) := by
        rw [Nat.div_lt_iff_lt_mul (by decide)]
        exact lt_of_lt_of_eq h (by ring)
      obtain ⟨bytes, hbytes⟩ := ih (fun _ => hpos) hlt
      exact ⟨_, by rw [hbytes]; rfl⟩

/-- What is behind a number stays to be read. -/
theorem deserializeVarint_returns {rounds i acc num : ℕ} {bytes : Bytes} (hi : i + rounds = 8)
    (hacc : acc < 2 ^ (7 * i)) (h : serializeVarint rounds num = some bytes) (rest : Bytes) :
    Returns (deserializeVarint rounds i acc (bytes ++ rest)) (acc + 2 ^ (7 * i) * num, rest) := by
  induction rounds generalizing i acc num bytes with
  | zero =>
    obtain rfl : i = 8 := by omega
    rw [serializeVarint] at h
    split at h
    next hnum =>
      cases h
      rw [deserializeVarint, List.singleton_append]
      refine returns_bind.mpr ⟨_, returns_pure.mpr rfl, returns_pure.mpr ?_⟩
      rw [UInt8.toNat_ofNat_of_lt' (show num < 256 by omega), or_shiftLeft hacc]
    · cases h
  | succ rounds ih =>
    have hlt : num % 128 < 128 := Nat.mod_lt _ (by decide)
    obtain ⟨hlow, hlast, hmore, hnext⟩ := lowBits_toNat (num % 128) hlt
    have hdiv := Nat.div_add_mod num 128
    rw [serializeVarint] at h
    split at h
    next hzero =>
      cases h
      rw [deserializeVarint, List.singleton_append]
      refine returns_bind.mpr ⟨_, returns_pure.mpr rfl, ?_⟩
      dsimp only
      rw [if_pos hlast, hlow, Nat.mul_comm i, or_shiftLeft hacc, returns_pure,
        show num % 128 = num by omega]
    next hpos =>
      obtain ⟨tail, htail, rfl⟩ := Option.map_eq_some_iff.mp h
      rw [deserializeVarint, List.cons_append]
      refine returns_bind.mpr ⟨_, returns_pure.mpr rfl, ?_⟩
      dsimp only
      rw [if_neg hnext, hmore, Nat.mul_comm i, or_shiftLeft hacc]
      have hpow : 2 ^ (7 * (i + 1)) = 2 ^ (7 * i) * 128 := pow_add 2 (7 * i) 7
      have hacc' : acc + 2 ^ (7 * i) * (num % 128) < 2 ^ (7 * (i + 1)) := by
        rw [hpow]
        calc acc + 2 ^ (7 * i) * (num % 128) < 2 ^ (7 * i) + 2 ^ (7 * i) * (num % 128) :=
              Nat.add_lt_add_right hacc _
          _ = 2 ^ (7 * i) * (num % 128 + 1) := by ring
          _ ≤ 2 ^ (7 * i) * 128 := Nat.mul_le_mul_left _ hlt
      have hrec := ih (by omega) hacc' htail
      have hsum : acc + 2 ^ (7 * i) * (num % 128) + 2 ^ (7 * (i + 1)) * (num / 128) =
          acc + 2 ^ (7 * i) * num := by
        rw [hpow, Nat.mul_assoc, Nat.add_assoc, ← Nat.mul_add, Nat.add_comm (num % 128), hdiv]
      rwa [hsum] at hrec

theorem u64Varint_spec {num : ℕ} (h : num < 2 ^ 64) : ∃ bytes,
    serializeU64Varint num = some bytes ∧
      ∀ rest, Returns (deserializeU64Varint (bytes ++ rest)) (num, rest) := by
  obtain ⟨bytes, hbytes⟩ := @serializeVarint_isSome 8 num (by simp) h
  refine ⟨bytes, hbytes, fun rest => ?_⟩
  have hread := @deserializeVarint_returns 8 0 0 num bytes rfl Nat.one_pos hbytes rest
  rwa [Nat.mul_zero, pow_zero, Nat.one_mul, Nat.zero_add] at hread

/-! ## Internal nodes -/

/-- A hash is stored as its 32 bytes. -/
abbrev HashBytes := {bytes : Bytes // bytes.length = 32}

def serializeChild (child : Child HashBytes) : Outcome TreeError Bytes := do
  let version ← expect (serializeU64Varint child.version)
  match child.nodeType with
  | .leaf => pure (version ++ child.hash.val)
  | .internal leafCount => do
    let leafCount ← expect (serializeU64Varint leafCount)
    pure (version ++ (child.hash.val ++ leafCount))
  | .null => crash

/-- The bit of a child is cleared when the child is done. -/
def clearBit (bitmap : BitVec 16) (n : Nibble) : BitVec 16 := bitmap &&& ~~~(1#16 <<< n.val)

namespace InternalNode

def serializeChildren (node : InternalNode HashBytes) :
    ℕ → BitVec 16 → Outcome TreeError Bytes
  | 0, _ => pure []
  | rounds + 1, existenceBitmap => do
    let nextChild ← expect (nibbleFrom (trailingZeros existenceBitmap))
    let child ← expect (node.children nextChild)
    let first ← serializeChild child
    let others ← serializeChildren node rounds (clearBit existenceBitmap nextChild)
    pure (first ++ others)

def serialize (node : InternalNode HashBytes) : Outcome TreeError Bytes := do
  let (existenceBitmap, leafBitmap) ← node.generateBitmaps
  let children ← node.serializeChildren (countOnes existenceBitmap) existenceBitmap
  pure (LittleEndianBytes.encode 2 existenceBitmap.toNat ++
    (LittleEndianBytes.encode 2 leafBitmap.toNat ++ children))

/-- The sum of the leaf counts must not overflow. -/
def newChecked (children : Children HashBytes) : Outcome TreeError (InternalNode HashBytes) := do
  let node ← newImpl children
  assert (node.leafCount < 2 ^ 64)
  pure node

end InternalNode

def readHash (children : ℕ) (data : Bytes) : Outcome DecodeError (HashBytes × Bytes) :=
  if h : 32 ≤ data.length then
    pure (⟨data.take 32, List.length_take_of_le h⟩, data.drop 32)
  else throw (.notEnoughBytes children data.length)

def readNodeType (isLeaf : Bool) (data : Bytes) : Outcome DecodeError (NodeType × Bytes) :=
  if isLeaf then pure (.leaf, data)
  else do
    let (leafCount, data) ← deserializeU64Varint data
    pure (.internal leafCount, data)

def readChild (children : ℕ) (isLeaf : Bool) (data : Bytes) :
    Outcome DecodeError (Child HashBytes × Bytes) := do
  let (version, data) ← deserializeU64Varint data
  let (hash, data) ← readHash children data
  let (nodeType, data) ← readNodeType isLeaf data
  pure (⟨hash, version, nodeType⟩, data)

namespace InternalNode

/-- The children that are read, and the bits that are left. -/
def deserializeChildren (leafBitmap : BitVec 16) :
    ℕ → BitVec 16 → Children HashBytes → Bytes →
      Outcome DecodeError (Children HashBytes × BitVec 16)
  | 0, existenceBitmap, children, _ => pure (children, existenceBitmap)
  | rounds + 1, existenceBitmap, children, data => do
    let nextChild ← expect (nibbleFrom (trailingZeros existenceBitmap))
    let (child, data) ← readChild (countOnes existenceBitmap)
      (leafBitmap.getLsbD nextChild.val) data
    deserializeChildren leafBitmap rounds (clearBit existenceBitmap nextChild)
      (Function.update children nextChild (some child)) data

def deserialize (data : Bytes) : Outcome DecodeError (InternalNode HashBytes) := do
  let (existence, data) ← readExact 2 data
  let (leaves, data) ← readExact 2 data
  let existenceBitmap := BitVec.ofNat 16 (LittleEndianBytes.value existence)
  let leafBitmap := BitVec.ofNat 16 (LittleEndianBytes.value leaves)
  ensure (existenceBitmap ≠ 0) .noChildren
  ensure (existenceBitmap &&& leafBitmap = leafBitmap) (.extraLeaves existenceBitmap leafBitmap)
  let (children, left) ← deserializeChildren leafBitmap (countOnes existenceBitmap)
    existenceBitmap (fun _ => none) data
  assert (left = 0)
  mapError (fun _ => .illogicalChildren) (newChecked children)

end InternalNode

/-- Leaf nodes are stored by the `bcs` crate. -/
structure LeafCodec (K V : Type) where
  toBytes : LeafNode K V → Outcome TreeError Bytes
  fromBytes : Bytes → Outcome DecodeError (LeafNode K V)

namespace Node
variable {K V : Type} (codec : LeafCodec K V)

def encode : Node K V HashBytes → Outcome TreeError Bytes
  | .internal node => (2 :: ·) <$> node.serialize
  | .leaf node => (1 :: ·) <$> codec.toBytes node
  | .null => pure [3]

def decode : Bytes → Outcome DecodeError (Node K V HashBytes)
  | [] => throw .emptyInput
  | tag :: data =>
    if tag = 2 then .internal <$> InternalNode.deserialize data
    else if tag = 1 then .leaf <$> codec.fromBytes data
    else if tag = 3 then pure .null
    else throw (.unknownTag tag)

end Node

/-! ## Reading what was written -/

/-- The numbers of a child are words of 64 bits. -/
structure Child.Storable (child : Child HashBytes) : Prop where
  version : child.version < 2 ^ 64
  leafCount : ∀ leafCount, child.nodeType = .internal leafCount → leafCount < 2 ^ 64
  notNull : child.nodeType ≠ .null

theorem Child.Storable.read {child : Child HashBytes} (h : child.Storable) : ∃ bytes,
    Returns (serializeChild child) bytes ∧ ∀ children rest,
      Returns (readChild children child.isLeaf (bytes ++ rest)) (child, rest) := by
  obtain ⟨version, hversion, hread⟩ := u64Varint_spec h.version
  have hhash : ∀ children rest,
      Returns (readHash children (child.hash.val ++ rest)) (child.hash, rest) := by
    intro children rest
    have hlength := child.hash.property
    rw [readHash, dif_pos (by rw [List.length_append]; omega), returns_pure]
    refine Prod.ext (Subtype.ext ?_) ?_
    · exact List.take_left' hlength
    · exact List.drop_left' hlength
  obtain ⟨hash, v, nodeType⟩ := child
  cases nodeType with
  | null => exact absurd rfl h.notNull
  | leaf =>
    refine ⟨version ++ hash.val, ?_, fun children rest => ?_⟩
    · exact returns_bind.mpr ⟨_, returns_expect.mpr hversion, returns_pure.mpr rfl⟩
    · rw [List.append_assoc]
      refine returns_bind.mpr ⟨_, hread _, returns_bind.mpr ⟨_, hhash children rest, ?_⟩⟩
      exact returns_bind.mpr ⟨_, returns_pure.mpr rfl, returns_pure.mpr rfl⟩
  | internal leafCount =>
    obtain ⟨count, hcount, hreadCount⟩ := u64Varint_spec (h.leafCount leafCount rfl)
    refine ⟨version ++ (hash.val ++ count), ?_, fun children rest => ?_⟩
    · refine returns_bind.mpr ⟨_, returns_expect.mpr hversion, ?_⟩
      exact returns_bind.mpr ⟨_, returns_expect.mpr hcount, returns_pure.mpr rfl⟩
    · rw [List.append_assoc, List.append_assoc]
      refine returns_bind.mpr ⟨_, hread _, returns_bind.mpr ⟨_, hhash children _, ?_⟩⟩
      refine returns_bind.mpr ⟨(.internal leafCount, rest), ?_, returns_pure.mpr rfl⟩
      exact returns_bind.mpr ⟨_, hreadCount rest, returns_pure.mpr rfl⟩

/-- The bits of a bitmap are those of some nibbles. -/
def Marks (bitmap : BitVec 16) (ns : List Nibble) : Prop :=
  ∀ n : Nibble, bitmap.getLsbD n.val = decide (n ∈ ns)

section Marks
variable {bitmap : BitVec 16} {n : Nibble} {ns : List Nibble}

theorem Marks.eq_zero (h : Marks bitmap []) : bitmap = 0 := by
  refine eq_zero_iff.mpr fun i hi => ?_
  exact (h ⟨i, hi⟩).trans (decide_eq_false List.not_mem_nil)

theorem Marks.first (h : Marks bitmap (n :: ns)) (hsorted : ∀ m ∈ ns, n < m) :
    nibbleFrom (trailingZeros bitmap) = some n := by
  have hbit : bitmap.getLsbD n.val = true := (h n).trans (decide_eq_true List.mem_cons_self)
  have hne : bitmap ≠ 0#16 := by
    rintro rfl
    rw [BitVec.getLsbD_zero] at hbit
    cases hbit
  obtain ⟨hlt, hset, hbelow⟩ := getLsbD_trailingZeros hne
  have hmem : (⟨trailingZeros bitmap, hlt⟩ : Nibble) ∈ n :: ns :=
    of_decide_eq_true ((h _).symm.trans hset)
  have hle : trailingZeros bitmap ≤ n.val := by
    by_contra hgt
    rw [hbelow n.val (by omega)] at hbit
    cases hbit
  have hsame : (⟨trailingZeros bitmap, hlt⟩ : Nibble) = n := by
    obtain heq | hmem := List.mem_cons.mp hmem
    · exact heq
    · exact absurd (hsorted _ hmem) (Nat.not_lt.mpr hle)
  rw [nibbleFrom, dif_pos hlt, hsame]

theorem Marks.clear (h : Marks bitmap (n :: ns)) (hn : n ∉ ns) : Marks (clearBit bitmap n) ns := by
  intro m
  rw [clearBit, BitVec.getLsbD_and, BitVec.getLsbD_not, getLsbD_one_shiftLeft m.isLt,
    decide_eq_true m.isLt, Bool.true_and, h m]
  by_cases hm : m = n
  · subst hm
    simp [hn]
  · simp [hm, Fin.val_ne_of_ne hm]

theorem Marks.countOnes (h : Marks bitmap ns) (hnodup : ns.Nodup) :
    BitWords.countOnes bitmap = ns.length := by
  have hperm : ((List.finRange 16).filter fun n => bitmap.getLsbD n.val).Perm ns := by
    refine (List.perm_ext_iff_of_nodup ((List.nodup_finRange 16).filter _) hnodup).mpr fun n => ?_
    rw [List.mem_filter, h n, decide_eq_true_eq]
    exact and_iff_right (List.mem_finRange n)
  rw [← hperm.length_eq, BitWords.countOnes, ← List.map_coe_finRange_eq_range, List.countP_map,
    List.countP_eq_length_filter]
  rfl

end Marks

namespace InternalNode
variable {node : InternalNode HashBytes} {leafBitmap : BitVec 16}

/-- The loops of both directions go through the same children. -/
theorem children_read
    (hleaf : ∀ n child, node.children n = some child → leafBitmap.getLsbD n.val = child.isLeaf)
    {ns : List Nibble} (hsorted : ns.Pairwise (· < ·))
    (hchildren : ∀ n ∈ ns, ∃ child, node.children n = some child ∧ child.Storable)
    {bitmap : BitVec 16} (hbitmap : Marks bitmap ns) : ∃ bytes,
      Returns (node.serializeChildren ns.length bitmap) bytes ∧ ∀ acc rest,
        Returns (deserializeChildren leafBitmap ns.length bitmap acc (bytes ++ rest))
          ((fun n => if n ∈ ns then node.children n else acc n), 0) := by
  induction ns generalizing bitmap with
  | nil =>
    refine ⟨[], returns_pure.mpr rfl, fun acc rest => returns_pure.mpr ?_⟩
    rw [hbitmap.eq_zero]
    simp
  | cons n ns ih =>
    obtain ⟨hfirst, hsorted⟩ := List.pairwise_cons.mp hsorted
    obtain ⟨⟨child, hchild, hstorable⟩, hchildren⟩ := List.forall_mem_cons.mp hchildren
    have hn : n ∉ ns := fun hmem => lt_irrefl n (hfirst n hmem)
    have hnext := hbitmap.first hfirst
    obtain ⟨first, hwrite, hread⟩ := hstorable.read
    obtain ⟨others, hothers, hloop⟩ := ih hsorted hchildren (hbitmap.clear hn)
    refine ⟨first ++ others, ?_, fun acc rest => ?_⟩
    · refine returns_bind.mpr ⟨n, returns_expect.mpr hnext, ?_⟩
      refine returns_bind.mpr ⟨child, returns_expect.mpr hchild, ?_⟩
      exact returns_bind.mpr ⟨_, hwrite, returns_bind.mpr ⟨_, hothers, returns_pure.mpr rfl⟩⟩
    · have hacc : (fun m => if m ∈ n :: ns then node.children m else acc m) =
          fun m => if m ∈ ns then node.children m else
            Function.update acc n (some child) m := by
        funext m
        by_cases hm : m = n
        · subst hm
          rw [if_pos List.mem_cons_self, if_neg hn, Function.update_self, hchild]
        · rw [Function.update_of_ne hm]
          simp [hm]
      rw [hacc, List.append_assoc]
      refine returns_bind.mpr ⟨n, returns_expect.mpr hnext, ?_⟩
      rw [hleaf n child hchild]
      exact returns_bind.mpr ⟨_, hread _ _, hloop _ _⟩

/-- A node that the constructor returns, with numbers that are words of 64 bits. -/
structure Storable (node : InternalNode HashBytes) : Prop where
  built : Returns (newChecked node.children) node
  version : ∀ n child, node.children n = some child → child.version < 2 ^ 64
  leafCount : ∀ n child leafCount, node.children n = some child →
    child.nodeType = .internal leafCount → leafCount < 2 ^ 64

theorem Storable.newImpl (h : node.Storable) : Returns (newImpl node.children) node := by
  obtain ⟨built, hbuilt, hchecked⟩ := returns_bind.mp h.built
  obtain ⟨_, -, hsame⟩ := returns_bind.mp hchecked
  rwa [returns_pure.mp hsame] at hbuilt

theorem Storable.child (h : node.Storable) {n : Nibble} {child : Child HashBytes}
    (hchild : node.children n = some child) : child.Storable := by
  refine ⟨h.version n child hchild, fun leafCount => h.leafCount n child leafCount hchild, ?_⟩
  intro hnull
  obtain ⟨_, -, hrest⟩ := returns_bind.mp h.newImpl
  obtain ⟨_, -, hcounts⟩ := returns_bind.mp hrest
  obtain ⟨counts, hcounts, -⟩ := returns_bind.mp hcounts
  obtain ⟨count, hcount⟩ := exists_of_returns_mapM hcounts (n, child)
    (Children.mem_toList.mpr hchild)
  rw [Child.leafCount, hnull] at hcount
  exact returns_crash hcount

theorem Storable.nonempty (h : node.Storable) : ∃ n child, node.children n = some child := by
  obtain ⟨_, hne, -⟩ := returns_bind.mp h.newImpl
  have hne := returns_ensure.mp hne
  cases hlist : node.children.toList with
  | nil =>
    rw [hlist] at hne
    cases hne
  | cons entry rest =>
    have hmem : (entry.1, entry.2) ∈ node.children.toList := hlist ▸ List.mem_cons_self
    exact ⟨entry.1, entry.2, Children.mem_toList.mp hmem⟩

theorem read_bitmap (bitmap : BitVec 16) : BitVec.ofNat 16
    (LittleEndianBytes.value (LittleEndianBytes.encode 2 bitmap.toNat)) = bitmap := by
  rw [LittleEndianBytes.value_encode 2 bitmap.toNat bitmap.isLt, BitVec.ofNat_toNat,
    BitVec.setWidth_eq]

theorem Storable.deserialize_serialize (h : node.Storable) : ∃ bytes,
    Returns node.serialize bytes ∧ Returns (deserialize bytes) node := by
  obtain ⟨⟨existence, leaves⟩, hbitmaps, hbits⟩ := node.generateBitmaps_returns
  -- the nibbles of the children in ascending order
  have hmem : ∀ {n}, n ∈ (List.finRange 16).filter (fun n => (node.children n).isSome) ↔
      (node.children n).isSome := fun {n} => by
    rw [List.mem_filter]
    exact and_iff_right (List.mem_finRange n)
  have hsorted : ((List.finRange 16).filter fun n => (node.children n).isSome).Pairwise (· < ·) :=
    (List.pairwise_lt_finRange 16).filter _
  have hmarks : Marks existence ((List.finRange 16).filter fun n => (node.children n).isSome) := by
    intro n
    rw [(hbits n).1]
    exact Bool.eq_iff_iff.mpr (hmem.symm.trans decide_eq_true_iff.symm)
  have hleaf : ∀ n child, node.children n = some child →
      leaves.getLsbD n.val = child.isLeaf := by
    intro n child hchild
    rw [(hbits n).2, hchild]
    rfl
  obtain ⟨children, hwrite, hread⟩ := children_read hleaf hsorted (fun n hn => by
    obtain ⟨child, hchild⟩ := Option.isSome_iff_exists.mp (hmem.mp hn)
    exact ⟨child, hchild, h.child hchild⟩) hmarks
  rw [← hmarks.countOnes hsorted.nodup] at hwrite hread
  refine ⟨_, returns_bind.mpr ⟨_, hbitmaps, returns_bind.mpr ⟨_, hwrite, returns_pure.mpr rfl⟩⟩, ?_⟩
  have hfirst := readExact_append (LittleEndianBytes.encode 2 existence.toNat)
    (LittleEndianBytes.encode 2 leaves.toNat ++ children)
  have hsecond := readExact_append (LittleEndianBytes.encode 2 leaves.toNat) children
  rw [LittleEndianBytes.length_encode] at hfirst hsecond
  refine returns_bind.mpr ⟨_, hfirst, returns_bind.mpr ⟨_, hsecond, ?_⟩⟩
  dsimp only
  rw [read_bitmap, read_bitmap]
  have hne : existence ≠ 0 := by
    rintro rfl
    obtain ⟨n, child, hchild⟩ := h.nonempty
    have hbit := (hbits n).1
    rw [hchild, BitVec.ofNat_eq_ofNat, BitVec.getLsbD_zero] at hbit
    cases hbit
  have hsub : existence &&& leaves = leaves := by
    refine BitVec.eq_of_getLsbD_eq fun i hi => ?_
    rw [BitVec.getLsbD_and, (hbits ⟨i, hi⟩).1, (hbits ⟨i, hi⟩).2]
    cases node.children ⟨i, hi⟩ <;> rfl
  refine returns_bind.mpr ⟨(), returns_ensure.mpr hne, ?_⟩
  refine returns_bind.mpr ⟨(), returns_ensure.mpr hsub, ?_⟩
  have hread := hread (fun _ => none) []
  rw [List.append_nil] at hread
  refine returns_bind.mpr ⟨_, hread, returns_bind.mpr ⟨(), returns_assert.mpr rfl, ?_⟩⟩
  have hsame : (fun n => if n ∈ (List.finRange 16).filter (fun n => (node.children n).isSome)
      then node.children n else none) = node.children := by
    funext n
    rw [if_congr hmem rfl rfl]
    cases node.children n <;> rfl
  dsimp only
  rw [hsame]
  exact returns_mapError.mpr h.built

end InternalNode

/-- Keys and internal nodes are read as they were written, keys that are read are written as they
were stored, and the order of the bytes is the order of the keys. -/
theorem stored_as_written {K V : Type} (codec : LeafCodec K V) :
    (∀ key : StoredNodeKey, Returns (StoredNodeKey.decode key.encode) key) ∧
    (∀ key key' : StoredNodeKey, key.encode < key'.encode ↔ key.Precedes key') ∧
    (∀ val key, Returns (StoredNodeKey.decode val) key → key.encode = val) ∧
    (∀ node : InternalNode HashBytes, node.Storable → ∃ bytes,
      Returns (Node.encode codec (.internal node)) bytes ∧
        Returns (Node.decode codec bytes) (.internal node)) := by
  refine ⟨StoredNodeKey.decode_encode, fun key key' => StoredNodeKey.encode_lt_encode_iff,
    fun val key => StoredNodeKey.encode_of_decode, ?_⟩
  intro node hnode
  obtain ⟨bytes, hwrite, hread⟩ := hnode.deserialize_serialize
  refine ⟨2 :: bytes, returns_map.mpr ⟨bytes, hwrite, rfl⟩, ?_⟩
  rw [Node.decode, if_pos rfl]
  exact returns_map.mpr ⟨node, hread, rfl⟩

def storedLeaf : Child HashBytes := ⟨⟨List.replicate 32 1, rfl⟩, 7, .leaf⟩

/-- A node with five leaves below it. -/
def storedInternal : Child HashBytes := ⟨⟨List.replicate 32 0, rfl⟩, 2 ^ 64 - 1, .internal 5⟩

def twoChildren : InternalNode HashBytes :=
  ⟨fun n => if n = 3 then some storedInternal else if n = 10 then some storedLeaf else none, 6⟩

theorem stored_as_written_twoChildren : ∃ bytes,
    Returns (Node.encode (⟨fun _ => crash, fun _ => crash⟩ : LeafCodec Unit Unit)
        (.internal twoChildren)) bytes ∧
      Returns (Node.decode ⟨fun _ => crash, fun _ => crash⟩ bytes)
        (.internal twoChildren : Node Unit Unit HashBytes) := by
  have honly : ∀ n child, twoChildren.children n = some child →
      child = storedInternal ∨ child = storedLeaf := by
    intro n child hchild
    simp only [twoChildren] at hchild
    split_ifs at hchild
    · exact .inl (Option.some.inj hchild).symm
    · exact .inr (Option.some.inj hchild).symm
  have hstorable : twoChildren.Storable := by
    refine ⟨rfl, ?_, ?_⟩
    · intro n child hchild
      obtain rfl | rfl := honly n child hchild
      all_goals decide
    · intro n child leafCount hchild hcount
      obtain rfl | rfl := honly n child hchild
      all_goals cases hcount
      decide
  exact (stored_as_written _).2.2.2 twoChildren hstorable

end Anthemius.Jellyfish
