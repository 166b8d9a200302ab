import Anthemius.AccumulatorViews

/-!
# One root

Leaves are appended in batches. The accumulator in storage, the one in memory and the one that only
gets the new full trees have the root of the padded tree over all leaves.
-/
namespace Anthemius.Accumulators
open PaddedTree BitWords Outcomes Position MerkleAccumulatorView

variable {H : Type} (c : Hashing H)

/-! ## The order of the nodes -/

/-- The nodes that are full when a leaf comes have the last leaf of the tree below them. -/
theorem mem_above_eq {l m : ℕ} {p : ℕ × ℕ} (h : p ∈ (l, m) :: above l m) :
    (p.2 + 1) * 2 ^ p.1 = (m + 1) * 2 ^ l := by
  induction m using Nat.strong_induction_on generalizing l with
  | _ m ih =>
    obtain ⟨q, rfl | rfl⟩ := m.even_or_odd'
    · rw [above_two_mul, List.mem_singleton] at h
      rw [h]
    · rw [above_two_mul_add_one, List.mem_cons] at h
      obtain rfl | h := h
      · rfl
      · rw [ih q (by omega) h]
        ring

theorem mem_above {l s m k : ℕ} (h : m + 1 = 2 ^ s * (k + 1)) :
    (l + s, k) ∈ (l, m) :: above l m := by
  induction s generalizing l m with
  | zero =>
    obtain rfl : m = k := by omega
    exact List.mem_cons_self
  | succ s ih =>
    have hsplit : 2 ^ (s + 1) * (k + 1) = 2 * (2 ^ s * (k + 1)) := by ring
    have hpos : 0 < 2 ^ s * (k + 1) := Nat.mul_pos (Nat.two_pow_pos s) (Nat.succ_pos k)
    obtain ⟨q, rfl⟩ : ∃ q, m = 2 * q + 1 := ⟨2 ^ s * (k + 1) - 1, by omega⟩
    rw [above_two_mul_add_one, show l + (s + 1) = l + 1 + s by omega]
    exact List.mem_cons_of_mem _ (ih (by omega))

theorem frozenWith_add (n count more : ℕ) :
    frozenWith n (count + more) = frozenWith n count ++ frozenWith (n + count) more := by
  rw [frozenWith, ← List.range'_append_1, List.flatMap_append, frozenWith, frozenWith]

theorem frozenWith_one (n : ℕ) : frozenWith n 1 = (0, n) :: above 0 n := by
  rw [frozenWith_succ]
  simp [frozenWith]

theorem mem_frozenWith {n l k : ℕ} : (l, k) ∈ frozenWith 0 n ↔ (k + 1) * 2 ^ l ≤ n := by
  rw [frozenWith, List.mem_flatMap]
  constructor
  · rintro ⟨i, hi, hmem⟩
    have heq := mem_above_eq hmem
    rw [List.mem_range'_1] at hi
    rw [pow_zero, Nat.mul_one] at heq
    dsimp only at heq
    omega
  · intro hle
    have hpos : 0 < (k + 1) * 2 ^ l := Nat.mul_pos (Nat.succ_pos k) (Nat.two_pow_pos l)
    refine ⟨(k + 1) * 2 ^ l - 1, List.mem_range'_1.mpr ⟨Nat.zero_le _, by omega⟩, ?_⟩
    have hmem := mem_above (l := 0) (s := l) (m := (k + 1) * 2 ^ l - 1) (k := k)
      (by rw [Nat.mul_comm (2 ^ l)]; omega)
    rwa [Nat.zero_add] at hmem

/-- Ones at the end of a number become zeros when one is added. -/
theorem length_above (l m : ℕ) :
    (above l m).length + (m + 1).bits.count true = m.bits.count true + 1 := by
  induction m using Nat.strong_induction_on generalizing l with
  | _ m ih =>
    obtain ⟨q, rfl | rfl⟩ := m.even_or_odd'
    · rw [above_two_mul, count_bits_two_mul_add_one, count_bits_two_mul, List.length_nil,
        Nat.zero_add]
    · have hrest := ih q (by omega) (l + 1)
      rw [above_two_mul_add_one, count_bits_two_mul_add_one,
        show 2 * q + 1 + 1 = 2 * (q + 1) by ring, count_bits_two_mul, List.length_cons]
      omega

def postorder (p : ℕ × ℕ) : ℕ := (pos p.1 p.2).toPostorderIndex.toNat

theorem fits_of_full {l k : ℕ} (h : (k + 1) * 2 ^ l < 2 ^ 62) : Fits l k := by
  have hle : 2 ^ l * (2 * k + 1) ≤ 2 * ((k + 1) * 2 ^ l) :=
    (Nat.le_add_right _ (2 ^ l)).trans_eq (by ring)
  rw [Fits]
  omega

theorem postorder_eq {l k : ℕ} (h : (k + 1) * 2 ^ l < 2 ^ 62) :
    postorder (l, k) + 2 + k.bits.count true = (k + 1) * 2 ^ (l + 1) := by
  have hpow : 2 ^ l ≤ (k + 1) * 2 ^ l := Nat.le_mul_of_pos_left _ (Nat.succ_pos k)
  have hl : l < 62 := (Nat.pow_lt_pow_iff_right one_lt_two).mp (by omega)
  exact (fits_of_full h).toPostorderIndex_toNat (by omega)

/-- A node comes right before the node that is full with it. -/
theorem map_postorder_above {l m : ℕ} (h : (m + 1) * 2 ^ l < 2 ^ 62) :
    ((l, m) :: above l m).map postorder =
      List.range' (postorder (l, m)) ((above l m).length + 1) := by
  induction m using Nat.strong_induction_on generalizing l with
  | _ m ih =>
    obtain ⟨q, rfl | rfl⟩ := m.even_or_odd'
    · rw [above_two_mul]
      rfl
    · have hparent : (q + 1) * 2 ^ (l + 1) < 2 ^ 62 := lt_of_eq_of_lt (by ring) h
      have hnext : postorder (l + 1, q) = postorder (l, 2 * q + 1) + 1 := by
        have hchild := postorder_eq h
        have hup := postorder_eq hparent
        have hsame : (q + 1) * 2 ^ (l + 1 + 1) = (2 * q + 1 + 1) * 2 ^ (l + 1) := by ring
        rw [count_bits_two_mul_add_one] at hchild
        omega
      rw [above_two_mul_add_one, List.map_cons, ih q (by omega) hparent, hnext, List.length_cons,
        List.range'_succ (n := (above (l + 1) q).length + 1)]

/-- The nodes are stored in post-order. -/
theorem map_postorder_frozenWith {n : ℕ} (h : n < 2 ^ 62) :
    (frozenWith 0 n).map postorder = List.range (2 * n - n.bits.count true) := by
  induction n with
  | zero => simp [frozenWith]
  | succ n ih =>
    have hleaf : postorder (0, n) = 2 * n - n.bits.count true := by
      have heq := postorder_eq (l := 0) (k := n) (by omega)
      rw [Nat.zero_add, pow_one] at heq
      omega
    have hcount : 2 * (n + 1) - (n + 1).bits.count true =
        2 * n - n.bits.count true + ((above 0 n).length + 1) := by
      have hlength := length_above 0 n
      have hle := count_bits_le n
      have hle' := count_bits_le (n + 1)
      omega
    rw [frozenWith_add, Nat.zero_add, frozenWith_one, List.map_append, ih (by omega),
      map_postorder_above (by omega), hleaf, hcount, List.range_eq_range', List.range_eq_range',
      ← List.range'_append_1 (s := 0), Nat.zero_add]

/-! ## Storage -/

/-- The nodes that are stored, as a list, and the number of leaves. -/
structure MerkleAccumulator (H : Type) where
  nodes : List (Node H)
  numLeaves : ℕ

namespace MerkleAccumulator

def empty : MerkleAccumulator H := ⟨[], 0⟩

variable (s : MerkleAccumulator H)

def reader : HashReader H := fun position => s.nodes.lookup position

/-- The frozen nodes are written behind the others. -/
def append (newLeaves : List H) : Outcome (AccumulatorError H) (H × MerkleAccumulator H) := do
  let (rootHash, toFreeze) ← MerkleAccumulatorView.append c s.reader s.numLeaves newLeaves
  pure (rootHash, ⟨s.nodes ++ toFreeze, s.numLeaves + newLeaves.length⟩)

/-- One append after the other, with the root after each. -/
def appendBatches :
    MerkleAccumulator H → List (List H) →
      Outcome (AccumulatorError H) (List H × MerkleAccumulator H)
  | s, [] => pure ([], s)
  | s, batch :: batches => do
    let (rootHash, s) ← append c s batch
    let (rootHashes, s) ← appendBatches s batches
    pure (rootHash :: rootHashes, s)

/-- The nodes of the leaves in storage. -/
def ofLeaves (leaves : List H) : MerkleAccumulator H :=
  ⟨(frozenWith 0 leaves.length).map (nodeAt c leaves), leaves.length⟩

variable {c} {leaves more : List H}

theorem lookup_map {α β γ : Type} [DecidableEq β] {f : α → β} {g : α → γ} {xs : List α} {x : α}
    (hx : x ∈ xs) (hinj : ∀ y ∈ xs, f y = f x → g y = g x) :
    (xs.map fun y => (f y, g y)).lookup (f x) = some (g x) := by
  induction xs with
  | nil => cases hx
  | cons y ys ih =>
    rw [List.map_cons, List.lookup_cons]
    by_cases heq : f x = f y
    · rw [heq, beq_self_eq_true]
      exact congrArg some (hinj y List.mem_cons_self heq.symm)
    · rw [beq_eq_false_iff_ne.mpr heq]
      refine ih ?_ fun z hz => hinj z (List.mem_cons_of_mem y hz)
      exact (List.mem_cons.mp hx).resolve_left fun hxy => heq (congrArg f hxy)

theorem ofLeaves_holds (h : leaves.length < 2 ^ 62) :
    Holds c (ofLeaves c leaves).reader leaves := by
  intro l k hle
  refine lookup_map (f := fun p => pos p.1 p.2) (g := fun p => node c leaves p.1 p.2)
    (mem_frozenWith.mpr hle) fun p hp heq => ?_
  have hp' := mem_frozenWith.mp hp
  have hat := (fits_of_full (lt_of_le_of_lt hp' h)).at_pos
  rw [show pos p.1 p.2 = pos l k from heq] at hat
  have hsame := hat.unique (fits_of_full (lt_of_le_of_lt hle h)).at_pos
  exact congrArg (fun q => node c leaves q.1 q.2) hsame

theorem nodes_ofLeaves_append : (ofLeaves c (leaves ++ more)).nodes = (ofLeaves c leaves).nodes ++
    (frozenWith leaves.length more.length).map (nodeAt c (leaves ++ more)) := by
  have hstored : (frozenWith 0 leaves.length).map (nodeAt c leaves) =
      (frozenWith 0 leaves.length).map (nodeAt c (leaves ++ more)) := by
    refine List.map_congr_left fun p hp => ?_
    rw [nodeAt, nodeAt, node_append (mem_frozenWith.mp hp)]
  rw [ofLeaves, ofLeaves, List.length_append, frozenWith_add, Nat.zero_add, List.map_append,
    hstored]

theorem append_ofLeaves (h : (leaves ++ more).length < 2 ^ 62) :
    Returns ((ofLeaves c leaves).append c more)
      (root c (leaves ++ more), ofLeaves c (leaves ++ more)) := by
  have hlength : (leaves ++ more).length = leaves.length + more.length := List.length_append
  rw [append]
  simp only [returns_bind, returns_pure]
  refine ⟨_, append_eq (ofLeaves_holds (by omega)) h, ?_⟩
  rw [← nodes_ofLeaves_append, ofLeaves, ofLeaves, hlength]

theorem appendBatches_ofLeaves {batches : List (List H)}
    (h : (leaves ++ batches.flatten).length < 2 ^ 62) :
    Returns (appendBatches c (ofLeaves c leaves) batches)
      ((List.range batches.length).map fun i => root c (leaves ++ (batches.take (i + 1)).flatten),
        ofLeaves c (leaves ++ batches.flatten)) := by
  induction batches generalizing leaves with
  | nil =>
    rw [appendBatches, returns_pure, List.flatten_nil, List.append_nil]
    rfl
  | cons batch batches ih =>
    rw [List.flatten_cons, ← List.append_assoc] at h ⊢
    have hfirst : (leaves ++ batch).length < 2 ^ 62 := by
      rw [List.length_append] at h
      omega
    simp only [appendBatches, returns_bind, returns_pure]
    refine ⟨_, append_ofLeaves hfirst, _, ih h, Prod.ext ?_ rfl⟩
    rw [List.length_cons, List.range_succ_eq_map, List.map_cons, List.map_map]
    refine congrArg₂ List.cons ?_ (List.map_congr_left fun i _ => ?_)
    · simp
    · simp

theorem getConsistencyProof_eq (h : (leaves ++ more).length < 2 ^ 62) :
    Returns (getConsistencyProof (ofLeaves c (leaves ++ more)).reader (leaves ++ more).length
        leaves.length)
      ((grow leaves.length more.length).map fun p => node c (leaves ++ more) p.1 p.2) := by
  have hlength : (leaves ++ more).length = leaves.length + more.length := List.length_append
  have hmax : (leaves ++ more).length ≤ maxAccumulatorLeaves := h.le.trans (by decide)
  rw [getConsistencyProof]
  simp only [returns_bind, returns_ensure, returns_assert]
  refine ⟨(), by omega, (), hmax, ?_⟩
  rw [show (leaves ++ more).length - leaves.length = more.length by omega,
    frozenSubtreeSiblings_eq (by omega), List.mapM_map]
  refine returns_mapM fun p hp => ?_
  exact (ofLeaves_holds h).get ((mem_grow_le hp).trans_eq hlength.symm)

theorem map_postorder_nodes (h : leaves.length < 2 ^ 62) :
    (ofLeaves c leaves).nodes.map (fun n => n.1.toPostorderIndex.toNat) =
      List.range (2 * leaves.length - leaves.length.bits.count true) := by
  rw [ofLeaves, List.map_map]
  exact map_postorder_frozenWith h

theorem postorder_nodes (h : leaves.length < 2 ^ 62) :
    (ofLeaves c leaves).nodes.map (fun n => n.1.toPostorderIndex.toNat) =
      List.range (ofLeaves c leaves).nodes.length := by
  have hlength := congrArg List.length (map_postorder_nodes (c := c) h)
  rw [List.length_map, List.length_range] at hlength
  rw [map_postorder_nodes h, hlength]

/-- There is no root position without leaves. -/
theorem getRootHash_zero (reader : HashReader H) : ¬ Safe (getRootHash c reader 0) := by
  rw [Safe, not_not]
  rfl

/-- The accumulators agree, and storage has the nodes in post-order. Only the root of an empty
accumulator cannot be read from storage. -/
theorem appendBatches_root (c : Hashing H) (batches : List (List H))
    (h : batches.flatten.length < 2 ^ 62) :
    ∃ s, Returns (appendBatches c empty batches)
        ((List.range batches.length).map fun i => root c (batches.take (i + 1)).flatten, s) ∧
      s.numLeaves = batches.flatten.length ∧
      s.nodes.map (fun n => n.1.toPostorderIndex.toNat) = List.range s.nodes.length ∧
      (batches.flatten ≠ [] →
        Returns (getRootHash c s.reader s.numLeaves) (root c batches.flatten)) ∧
      (batches.flatten = [] → ¬ Safe (getRootHash c s.reader s.numLeaves)) ∧
      ∃ a : InMemoryAccumulator H,
        InMemoryAccumulator.appendBatches c (.newEmpty c) batches = some a ∧
        a.rootHash = root c batches.flatten ∧
        ∀ (old : List (List H)) (new : List H), old.flatten ++ new = batches.flatten →
          ∃ subtrees a',
            Returns (getConsistencyProof s.reader s.numLeaves old.flatten.length) subtrees ∧
            InMemoryAccumulator.appendBatches c (.newEmpty c) old = some a' ∧
            Returns (a'.appendSubtrees c subtrees new.length) a := by
  have hempty : InMemoryAccumulator.newEmpty c = .summary c [] := by
    rw [InMemoryAccumulator.summary, List.length_nil, frozenNodes_zero]
    rfl
  have hstored : (empty : MerkleAccumulator H) = ofLeaves c [] := rfl
  have hbatches := @appendBatches_ofLeaves H c [] batches h
  have hmemory : ∀ parts : List (List H), parts.flatten.length < 2 ^ 62 →
      InMemoryAccumulator.appendBatches c (.newEmpty c) parts =
        some (.summary c parts.flatten) := by
    intro parts hparts
    rw [hempty, InMemoryAccumulator.appendBatches_summary (by rw [List.nil_append]; omega),
      List.nil_append]
  refine ⟨ofLeaves c batches.flatten, hbatches, rfl, postorder_nodes h, fun hne => ?_,
    fun hnil => ?_, .summary c batches.flatten, hmemory batches h, rfl, fun old new heq => ?_⟩
  · exact getRootHash_eq (ofLeaves_holds h) (List.length_pos_iff.mpr hne) (by omega)
  · rw [hnil]
    exact getRootHash_zero _
  · have hlength : old.flatten.length + new.length = batches.flatten.length := by
      rw [← heq, List.length_append]
    have hproof := @getConsistencyProof_eq H c old.flatten new (by rwa [heq])
    have happend := @InMemoryAccumulator.appendSubtrees_summary H c old.flatten new
      (by rw [heq]; exact h.le.trans (by decide))
    rw [heq] at hproof happend
    exact ⟨_, _, hproof, hmemory old (by omega), happend⟩

theorem appendBatches_root_three :
    ∃ s, Returns (appendBatches (Term.hashing ℕ) empty [[.leaf 0, .leaf 1], [.leaf 2]])
        ([.combine (.leaf 0) (.leaf 1),
          .combine (.combine (.leaf 0) (.leaf 1)) (.combine (.leaf 2) .placeholder)], s) ∧
      s.numLeaves = 3 ∧ s.nodes.map (fun n => n.1.toPostorderIndex.toNat) =
        List.range s.nodes.length := by
  obtain ⟨s, hroots, hleaves, hnodes, -⟩ := appendBatches_root (Term.hashing ℕ)
    [[.leaf 0, .leaf 1], [.leaf 2]] (by decide)
  exact ⟨s, hroots, hleaves, hnodes⟩

/-- Without a leaf there is a root in memory and none is read from storage. -/
theorem appendBatches_root_nil :
    Returns (appendBatches (Term.hashing ℕ) empty []) ([], empty) ∧
      ¬ Safe (getRootHash (Term.hashing ℕ) (empty : MerkleAccumulator (Term ℕ)).reader 0) ∧
      (InMemoryAccumulator.newEmpty (Term.hashing ℕ)).rootHash = root (Term.hashing ℕ) [] :=
  ⟨rfl, getRootHash_zero _, rfl⟩

end MerkleAccumulator

end Anthemius.Accumulators
