import Anthemius.PaddedTrees

/-! Paths from leaves to the root of a padded tree. A path goes with the siblings of its nodes, and
a row of nodes goes with the nodes at its two ends. Whoever reaches a node of the tree has used the
nodes below it. -/
namespace Anthemius.PaddedTree

variable {H : Type} (c : Hashing H) {leaves : List H} {l k : ℕ}

/-! ## One node -/

/-- The digits of the place tell on which side the siblings are. -/
def climb (hash : H) (k : ℕ) : List H → H
  | [] => hash
  | sibling :: siblings =>
    climb (if k % 2 = 0 then c.combine hash sibling else c.combine sibling hash) (k / 2) siblings

/-- The siblings of the nodes above a leaf. -/
def siblings (leaves : List H) (i l count : ℕ) : List H :=
  (List.range' l count).map fun j => node c leaves j (other (i / 2 ^ j))

variable {c}

theorem combine_other (h : k / 2 * 2 ^ (l + 1) < leaves.length) :
    (if k % 2 = 0 then c.combine (node c leaves l k) (node c leaves l (other k))
      else c.combine (node c leaves l (other k)) (node c leaves l k)) =
      node c leaves (l + 1) (k / 2) := by
  rw [node_succ h, other]
  obtain ⟨q, rfl | rfl⟩ := k.even_or_odd'
  · rw [if_pos (by omega), if_pos (by omega), show 2 * q / 2 = q by omega]
  · rw [if_neg (by omega), if_neg (by omega), show (2 * q + 1) / 2 = q by omega,
      Nat.add_sub_cancel]

theorem climb_siblings {i count : ℕ} (hi : i < leaves.length) :
    climb c (node c leaves l (i / 2 ^ l)) (i / 2 ^ l) (siblings c leaves i l count) =
      node c leaves (l + count) (i / 2 ^ (l + count)) := by
  induction count generalizing l with
  | zero => rfl
  | succ count ih =>
    have hlt : i / 2 ^ l / 2 * 2 ^ (l + 1) < leaves.length := by
      rw [← div_two_pow_succ]
      exact lt_of_le_of_lt (Nat.div_mul_le_self i _) hi
    rw [siblings, List.range'_succ, List.map_cons, climb, combine_other hlt, ← div_two_pow_succ]
    refine (ih (l := l + 1)).trans ?_
    rw [show l + 1 + count = l + (count + 1) by omega]

theorem node_zero {i : ℕ} {hash : H} (h : leaves[i]? = some hash) : node c leaves 0 i = hash := by
  rw [node, List.getD_eq_getElem?_getD, h, Option.getD_some]

theorem div_root {i : ℕ} (h : i < leaves.length) : i / 2 ^ Nat.clog 2 leaves.length = 0 :=
  Nat.div_eq_of_lt (lt_of_lt_of_le h (Nat.le_pow_clog one_lt_two _))

theorem climb_root {i : ℕ} {hash : H} (h : leaves[i]? = some hash) :
    climb c hash i (siblings c leaves i 0 (Nat.clog 2 leaves.length)) = root c leaves := by
  have hi : i < leaves.length := (List.getElem?_eq_some_iff.mp h).1
  have hclimb := @climb_siblings H c leaves 0 i (Nat.clog 2 leaves.length) hi
  rwa [pow_zero, Nat.div_one, node_zero h, Nat.zero_add, div_root hi] at hclimb

@[simp] theorem length_siblings (i count : ℕ) : (siblings c leaves i l count).length = count := by
  rw [siblings, List.length_map, List.length_range']

theorem mod_two_pow_succ (k r : ℕ) : k % 2 ^ (r + 1) = 2 * (k / 2 % 2 ^ r) + k % 2 := by
  rw [pow_succ', Nat.mod_mul]
  omega

theorem count_bits_two_mul_add {q b : ℕ} (hb : b < 2) :
    (2 * q + b).bits.count true = q.bits.count true + b := by
  obtain rfl | rfl : b = 0 ∨ b = 1 := by omega
  · exact BitWords.count_bits_two_mul q
  · exact BitWords.count_bits_two_mul_add_one q

section Separated
variable {leaf : H → Prop}

/-- A path that ends at a node of the tree starts at a node below it. -/
theorem climb_eq_node (hc : c.Separates leaf) (hleaves : ∀ h ∈ leaves, leaf h) {hash : H}
    {path : List H} {d j : ℕ} (h : climb c hash k path = node c leaves d j) :
    ∃ l, l + path.length = d ∧
      hash = node c leaves l (j * 2 ^ path.length + k % 2 ^ path.length) := by
  induction path generalizing hash k with
  | nil =>
    rw [climb] at h
    refine ⟨d, rfl, ?_⟩
    rw [List.length_nil, pow_zero, Nat.mod_one, Nat.mul_one, Nat.add_zero, h]
  | cons sibling path ih =>
    obtain ⟨l, hl, hnode⟩ := ih h
    by_cases heven : k % 2 = 0
    · rw [if_pos heven] at hnode
      obtain ⟨l', rfl, hleft, -⟩ := exists_of_combine_eq hc hleaves hnode
      refine ⟨l', by rw [List.length_cons]; omega, ?_⟩
      rw [hleft, List.length_cons, mod_two_pow_succ, heven, pow_succ]
      ring_nf
    · rw [if_neg heven] at hnode
      obtain ⟨l', rfl, -, hright⟩ := exists_of_combine_eq hc hleaves hnode
      refine ⟨l', by rw [List.length_cons]; omega, ?_⟩
      rw [hright, List.length_cons, mod_two_pow_succ, show k % 2 = 1 by omega, pow_succ]
      ring_nf

end Separated

/-! ## A row of nodes -/

variable (c) in
def row (leaves : List H) (l k count : ℕ) : List H :=
  (List.range' k count).map (node c leaves l)

variable (c) in
def joinPairs : List H → List H
  | left :: right :: rest => c.combine left right :: joinPairs rest
  | _ => []

theorem length_joinPairs (hashes : List H) :
    (joinPairs c hashes).length = hashes.length / 2 := by
  induction hashes using joinPairs.induct with
  | case1 left right rest ih =>
    rw [joinPairs, List.length_cons, ih, List.length_cons, List.length_cons]
    omega
  | case2 rest hrest =>
    rcases rest with _ | ⟨a, _ | ⟨b, rest⟩⟩
    · simp [joinPairs]
    · simp [joinPairs]
    · exact absurd rfl (hrest a b rest)

@[simp] theorem length_row (count : ℕ) : (row c leaves l k count).length = count := by
  rw [row, List.length_map, List.length_range']

theorem row_succ (count : ℕ) :
    row c leaves l k (count + 1) = node c leaves l k :: row c leaves l (k + 1) count := by
  rw [row, List.range'_succ, List.map_cons, row]

theorem row_add (count more : ℕ) :
    row c leaves l k (count + more) =
      row c leaves l k count ++ row c leaves l (k + count) more := by
  rw [row, ← List.range'_append_1, List.map_append, row, row]

theorem joinPairs_row {count : ℕ} (h : (k + count) * 2 ^ (l + 1) < leaves.length + 2 ^ (l + 1)) :
    joinPairs c (row c leaves l (2 * k) (2 * count)) = row c leaves (l + 1) k count := by
  induction count generalizing k with
  | zero => rfl
  | succ count ih =>
    have hfirst : k * 2 ^ (l + 1) < leaves.length := by
      rw [Nat.add_mul, Nat.add_mul] at h
      omega
    rw [show 2 * (count + 1) = 2 * count + 1 + 1 by ring, row_succ, row_succ, joinPairs,
      row_succ, node_succ hfirst]
    refine congrArg _ (ih (k := k + 1) ?_)
    rwa [show k + 1 + count = k + (count + 1) by omega]

theorem row_zero {count : ℕ} (h : k + count ≤ leaves.length) :
    row c leaves 0 k count = (leaves.drop k).take count := by
  refine List.ext_getElem? fun i => ?_
  rw [row, List.getElem?_map, List.getElem?_take, List.getElem?_drop]
  split
  next hi =>
    rw [List.getElem?_range' hi, List.getElem?_eq_getElem (by omega), Option.map_some, node,
      List.getD_eq_getElem _ _ (by omega)]
    simp
  next hi =>
    rw [List.getElem?_eq_none (by rw [List.length_range']; omega), Option.map_none]

/-- A row of leaves is at the lowest level and in the list. -/
theorem row_of_leaf {leaf : H → Prop} (hc : c.Separates leaf) {count : ℕ} (hcount : 0 < count)
    (h : ∀ x ∈ row c leaves l k count, leaf x) :
    l = 0 ∧ k + count ≤ leaves.length := by
  have hlast : node c leaves l (k + (count - 1)) ∈ row c leaves l k count :=
    List.mem_map_of_mem (List.mem_range'_1.mpr (by omega))
  obtain ⟨rfl, hleaf⟩ := getElem?_of_leaf hc (h _ hlast)
  have hlt := (List.getElem?_eq_some_iff.mp hleaf).1
  exact ⟨rfl, by omega⟩

/-! A row from leaf `f` to leaf `g` at a level goes from place `f / 2 ^ l` to place `g / 2 ^ l`. -/

variable (c) in
/-- The siblings of the nodes above a leaf that are on one side of them. -/
def sideSiblings (leaves : List H) (i side l count : ℕ) : List H :=
  ((List.range' l count).filter fun j => other (i / 2 ^ j) % 2 == side).map
    fun j => node c leaves j (other (i / 2 ^ j))

theorem sideSiblings_succ (i side count : ℕ) :
    sideSiblings c leaves i side l (count + 1) =
      (if other (i / 2 ^ l) % 2 = side then [node c leaves l (other (i / 2 ^ l))] else []) ++
        sideSiblings c leaves i side (l + 1) count := by
  rw [sideSiblings, List.range'_succ, List.filter_cons, sideSiblings]
  by_cases hside : other (i / 2 ^ l) % 2 = side
  · rw [if_pos (beq_iff_eq.mpr hside), if_pos hside, List.map_cons, List.singleton_append]
  · rw [if_neg (by rwa [beq_iff_eq]), if_neg hside, List.nil_append]

theorem other_two_mul (q : ℕ) : other (2 * q) = 2 * q + 1 := by
  rw [other, if_pos (by omega)]

theorem other_two_mul_add_one (q : ℕ) : other (2 * q + 1) = 2 * q := by
  rw [other, if_neg (by omega), Nat.add_sub_cancel]

theorem length_leftEnd (k : ℕ) (x : H) :
    (if other k % 2 = 0 then [x] else []).length = k % 2 := by
  obtain ⟨q, rfl | rfl⟩ := k.even_or_odd'
  · rw [other_two_mul, if_neg (by omega), List.length_nil]
    omega
  · rw [other_two_mul_add_one, if_pos (by omega), List.length_singleton]
    omega

theorem length_rightEnd (k : ℕ) (x : H) :
    (if other k % 2 = 1 then [x] else []).length = (k + 1) % 2 := by
  obtain ⟨q, rfl | rfl⟩ := k.even_or_odd'
  · rw [other_two_mul, if_pos (by omega), List.length_singleton]
    omega
  · rw [other_two_mul_add_one, if_neg (by omega), List.length_nil]
    omega

/-- With a left sibling before it and a right sibling behind it a row has pairs only. -/
theorem row_ends {m : ℕ} (h : k ≤ m) :
    (if other k % 2 = 0 then [node c leaves l (other k)] else []) ++
        row c leaves l k (m + 1 - k) ++
        (if other m % 2 = 1 then [node c leaves l (other m)] else []) =
      row c leaves l (2 * (k / 2)) (2 * (m / 2 + 1 - k / 2)) := by
  have hfirst : (if other k % 2 = 0 then [node c leaves l (other k)] else []) ++
      row c leaves l k (m + 1 - k) = row c leaves l (2 * (k / 2)) (m + 1 - 2 * (k / 2)) := by
    obtain ⟨q, rfl | rfl⟩ := k.even_or_odd'
    · rw [other_two_mul, if_neg (by omega), List.nil_append, show 2 * q / 2 = q by omega]
    · rw [other_two_mul_add_one, if_pos (by omega), show (2 * q + 1) / 2 = q by omega,
        show m + 1 - 2 * q = m + 1 - (2 * q + 1) + 1 by omega, row_succ, List.singleton_append]
  rw [hfirst]
  obtain ⟨q, rfl | rfl⟩ := m.even_or_odd'
  · rw [other_two_mul, if_pos (by omega), show 2 * q / 2 = q by omega,
      show 2 * (q + 1 - k / 2) = 2 * q + 1 - 2 * (k / 2) + 1 by omega, row_add,
      show 2 * (k / 2) + (2 * q + 1 - 2 * (k / 2)) = 2 * q + 1 by omega]
    rfl
  · rw [other_two_mul_add_one, if_neg (by omega), List.append_nil,
      show (2 * q + 1) / 2 = q by omega,
      show 2 * q + 1 + 1 - 2 * (k / 2) = 2 * (q + 1 - k / 2) by omega]

section Separated
variable {leaf : H → Prop} {hashes : List H}

theorem exists_pair (h : 2 ≤ hashes.length) : ∃ a b rest, hashes = a :: b :: rest := by
  cases hashes with
  | nil => cases h
  | cons a tail =>
    cases tail with
    | nil =>
      rw [List.length_singleton] at h
      omega
    | cons b rest => exact ⟨a, b, rest, rfl⟩

theorem row_of_joinPairs_eq (hc : c.Separates leaf) (hleaves : ∀ h ∈ leaves, leaf h) {count : ℕ}
    (hlength : hashes.length = 2 * count)
    (h : joinPairs c hashes = row c leaves (l + 1) k count) :
    hashes = row c leaves l (2 * k) (2 * count) := by
  induction count generalizing hashes k with
  | zero => exact List.eq_nil_of_length_eq_zero hlength
  | succ count ih =>
    obtain ⟨a, b, rest, rfl⟩ := exists_pair (by omega : 2 ≤ hashes.length)
    rw [joinPairs, row_succ, List.cons.injEq] at h
    obtain ⟨l', hl, hleft, hright⟩ := exists_of_combine_eq hc hleaves h.1
    obtain rfl : l = l' := by omega
    have hrest := ih (by simp only [List.length_cons] at hlength; omega) h.2
    rw [show 2 * (count + 1) = 2 * count + 1 + 1 by ring, row_succ, row_succ, ← hleft, ← hright,
      hrest]
    rfl

/-- Pairs that are nodes of the tree are made of the nodes below. -/
theorem row_of_joinPairs (hc : c.Separates leaf) (hleaves : ∀ h ∈ leaves, leaf h) {d count : ℕ}
    (hcount : 0 < count) (hlength : hashes.length = 2 * count)
    (h : joinPairs c hashes = row c leaves d k count) :
    ∃ l, d = l + 1 ∧ hashes = row c leaves l (2 * k) (2 * count) := by
  obtain ⟨count, rfl⟩ : ∃ n, count = n + 1 := ⟨count - 1, by omega⟩
  obtain ⟨a, b, rest, rfl⟩ := exists_pair (by omega : 2 ≤ hashes.length)
  have hfirst := h
  rw [joinPairs, row_succ, List.cons.injEq] at hfirst
  obtain ⟨l, rfl, -⟩ := exists_of_combine_eq hc hleaves hfirst.1
  exact ⟨l, rfl, row_of_joinPairs_eq hc hleaves hlength h⟩

end Separated

end Anthemius.PaddedTree
