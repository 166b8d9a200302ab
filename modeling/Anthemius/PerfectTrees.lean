import Anthemius.BitWords
import Mathlib.Data.List.Induction
import Mathlib.Data.List.Nodup
import Mathlib.Data.Nat.Bits
import Mathlib.Tactic.Common
import Mathlib.Tactic.Ring

/-! Perfect binary trees. A node is named by the turns on the way from the root to it, where `true`
is a turn to the right. The nodes of a tree are listed in two orders, and the place of a node in
both is computed from its turns. -/
namespace Anthemius.PerfectTrees

variable {l n i : ℕ} {path : List Bool}

/-- The nodes of the left part, the root, the nodes of the right part. -/
def inorder : ℕ → List (List Bool)
  | 0 => [[]]
  | l + 1 => (inorder l).map (false :: ·) ++ [] :: (inorder l).map (true :: ·)

/-- The nodes of the left part, the nodes of the right part, the root. -/
def postorder : ℕ → List (List Bool)
  | 0 => [[]]
  | l + 1 => (postorder l).map (false :: ·) ++ ((postorder l).map (true :: ·) ++ [[]])

/-- How many nodes of the same depth are to the left. -/
def place (path : List Bool) : ℕ := path.foldl (fun k turn => 2 * k + turn.toNat) 0

theorem place_concat (path : List Bool) (turn : Bool) :
    place (path ++ [turn]) = 2 * place path + turn.toNat := by
  rw [place, List.foldl_append]
  rfl

theorem place_cons (turn : Bool) (path : List Bool) :
    place (turn :: path) = turn.toNat * 2 ^ path.length + place path := by
  induction path using List.reverseRecOn with
  | nil =>
    rw [List.length_nil, pow_zero, Nat.mul_one]
    exact (Nat.zero_add _).trans (Nat.add_zero _).symm
  | append_singleton path last ih =>
    rw [← List.cons_append, place_concat, place_concat, ih, List.length_append,
      List.length_singleton, pow_succ]
    ring

theorem place_lt (path : List Bool) : place path < 2 ^ path.length := by
  induction path with
  | nil => exact Nat.one_pos
  | cons turn path ih =>
    rw [place_cons, List.length_cons, pow_succ]
    cases turn
    · rw [Bool.toNat_false]
      omega
    · rw [Bool.toNat_true]
      omega

theorem place_replicate (m : ℕ) (turn : Bool) :
    place (path ++ List.replicate m turn) + turn.toNat =
      (place path + turn.toNat) * 2 ^ m := by
  induction m with
  | zero => rw [List.replicate_zero, List.append_nil, pow_zero, Nat.mul_one]
  | succ m ih =>
    rw [List.replicate_succ', ← List.append_assoc, place_concat, pow_succ, ← Nat.mul_assoc, ← ih]
    ring

/-- The ones among the binary digits of a place are the turns to the right. -/
theorem count_bits_place (path : List Bool) : (place path).bits.count true = path.count true := by
  induction path using List.reverseRecOn with
  | nil => rfl
  | append_singleton path turn ih =>
    rw [place_concat, List.count_append, ← ih]
    cases turn with
    | false =>
      rw [Bool.toNat_false, Nat.add_zero, BitWords.count_bits_two_mul]
      rfl
    | true =>
      rw [Bool.toNat_true, BitWords.count_bits_two_mul_add_one]
      rfl

theorem count_le_place (path : List Bool) : path.count true ≤ place path := by
  induction path using List.reverseRecOn with
  | nil => exact Nat.le_refl 0
  | append_singleton path turn ih =>
    rw [List.count_append, place_concat]
    cases turn with
    | false =>
      rw [show [false].count true = 0 from rfl, Bool.toNat_false]
      omega
    | true =>
      rw [show [true].count true = 1 from rfl, Bool.toNat_true]
      omega

theorem two_add_count_le (path : List Bool) (l : ℕ) :
    2 + path.count true ≤ (place path + 1) * 2 ^ (l + 1) := by
  have hpow : 2 ≤ 2 ^ (l + 1) := Nat.le_self_pow (Nat.succ_ne_zero l) 2
  have hplace := Nat.mul_le_mul_left (place path + 1) hpow
  have hright := count_le_place path
  omega

/-! ## The order with the root in the middle -/

theorem length_inorder (l : ℕ) : (inorder l).length + 1 = 2 ^ (l + 1) := by
  induction l with
  | zero => rfl
  | succ l ih =>
    rw [inorder, List.length_append, List.length_cons, List.length_map, List.length_map, pow_succ,
      ← ih]
    ring

theorem length_le_of_mem_inorder (h : path ∈ inorder n) : path.length ≤ n := by
  induction n generalizing path with
  | zero =>
    rw [List.mem_singleton.mp h]
    rfl
  | succ n ih =>
    rw [inorder, List.mem_append, List.mem_cons] at h
    rcases h with h | rfl | h
    · obtain ⟨rest, hrest, rfl⟩ := List.mem_map.mp h
      exact Nat.succ_le_succ (ih hrest)
    · exact Nat.zero_le _
    · obtain ⟨rest, hrest, rfl⟩ := List.mem_map.mp h
      exact Nat.succ_le_succ (ih hrest)

theorem nodup_inorder (l : ℕ) : (inorder l).Nodup := by
  induction l with
  | zero => exact List.nodup_singleton _
  | succ l ih =>
    have hcons : ∀ turn : Bool, ((inorder l).map (turn :: ·)).Nodup := fun turn =>
      ih.map (List.cons_injective)
    rw [inorder, List.nodup_append]
    refine ⟨hcons false, List.nodup_cons.mpr ⟨by simp, hcons true⟩, ?_⟩
    intro path hpath other hother heq
    obtain ⟨rest, -, rfl⟩ := List.mem_map.mp hpath
    subst heq
    simp at hother

theorem exists_length_rest {turn : Bool} {rest : List Bool} (hn : (turn :: rest).length + l = n) :
    ∃ m, n = m + 1 ∧ rest.length + l = m := by
  refine ⟨rest.length + l, ?_, rfl⟩
  rw [← hn, List.length_cons]
  omega

theorem getElem?_inorder_of (hi : i + 1 = 2 ^ l * (2 * place path + 1))
    (hn : path.length + l = n) : (inorder n)[i]? = some path := by
  induction path generalizing n i with
  | nil =>
    obtain rfl : l = n := by simpa using hn
    obtain rfl : i = 2 ^ l - 1 := by
      rw [show place [] = 0 from rfl, Nat.mul_zero, Nat.zero_add, Nat.mul_one] at hi
      omega
    cases l with
    | zero => rfl
    | succ l =>
      have hlength := length_inorder l
      rw [inorder, List.getElem?_append_right (by rw [List.length_map]; omega), List.length_map,
        show 2 ^ (l + 1) - 1 - (inorder l).length = 0 by omega]
      rfl
  | cons turn rest ih =>
    obtain ⟨n, rfl, hrest⟩ := exists_length_rest hn
    have hlength := length_inorder n
    rw [place_cons] at hi
    cases turn with
    | false =>
      have hfound := ih (by simpa using hi) hrest
      have hlt := (List.getElem?_eq_some_iff.mp hfound).1
      rw [inorder, List.getElem?_append_left (by rwa [List.length_map]), List.getElem?_map, hfound]
      rfl
    | true =>
      have hsplit : i + 1 = 2 ^ (n + 1) + 2 ^ l * (2 * place rest + 1) := by
        rw [hi, ← hrest, Bool.toNat_true, pow_succ, pow_add]
        ring
      have hpos : 0 < 2 ^ l * (2 * place rest + 1) := Nat.mul_pos (Nat.two_pow_pos l) (by omega)
      have hfound := ih (i := i - 2 ^ (n + 1)) (by omega) hrest
      rw [inorder, List.getElem?_append_right (by rw [List.length_map]; omega), List.length_map,
        show i - (inorder n).length = i - 2 ^ (n + 1) + 1 by omega, List.getElem?_cons_succ,
        List.getElem?_map, hfound]
      rfl

/-- The number of a node. -/
theorem getElem?_inorder : (inorder n)[i]? = some path ↔
    path.length ≤ n ∧ i + 1 = 2 ^ (n - path.length) * (2 * place path + 1) := by
  constructor
  · intro h
    have hle := length_le_of_mem_inorder (List.mem_of_getElem? h)
    have hpos : 0 < 2 ^ (n - path.length) * (2 * place path + 1) :=
      Nat.mul_pos (Nat.two_pow_pos _) (by omega)
    have hplace := getElem?_inorder_of (i := 2 ^ (n - path.length) * (2 * place path + 1) - 1)
      (Nat.sub_add_cancel hpos) (Nat.add_sub_cancel' hle)
    have hsame := (List.getElem?_inj (List.getElem?_eq_some_iff.mp h).1 (nodup_inorder n)).mp
      (h.trans hplace.symm)
    refine ⟨hle, ?_⟩
    rw [hsame, Nat.sub_add_cancel hpos]
  · rintro ⟨hle, hi⟩
    exact getElem?_inorder_of hi (Nat.add_sub_cancel' hle)

/-! ## The order with the root last -/

theorem postorder_perm (l : ℕ) : (postorder l).Perm (inorder l) := by
  induction l with
  | zero => exact List.Perm.refl _
  | succ l ih =>
    refine (ih.map _).append ?_
    exact (List.perm_append_singleton _ _).trans ((ih.map _).cons _)

theorem length_postorder (l : ℕ) : (postorder l).length + 1 = 2 ^ (l + 1) := by
  rw [(postorder_perm l).length_eq]
  exact length_inorder l

theorem nodup_postorder (l : ℕ) : (postorder l).Nodup :=
  (postorder_perm l).nodup_iff.mpr (nodup_inorder l)

theorem getElem?_postorder_of (hi : i + 2 + path.count true = (place path + 1) * 2 ^ (l + 1))
    (hn : path.length + l = n) : (postorder n)[i]? = some path := by
  induction path generalizing n i with
  | nil =>
    obtain rfl : l = n := by simpa using hn
    obtain rfl : i = 2 ^ (l + 1) - 2 := by
      rw [List.count_nil, show place [] = 0 from rfl, Nat.zero_add, Nat.one_mul] at hi
      omega
    cases l with
    | zero => rfl
    | succ l =>
      have hlength := length_postorder l
      rw [postorder, ← List.append_assoc, List.getElem?_append_right
        (by rw [List.length_append, List.length_map, List.length_map]; omega), List.length_append,
        List.length_map, List.length_map, show 2 ^ (l + 1 + 1) - 2 -
          ((postorder l).length + (postorder l).length) = 0 by rw [pow_succ 2 (l + 1)]; omega]
      rfl
  | cons turn rest ih =>
    obtain ⟨n, rfl, hrest⟩ := exists_length_rest hn
    have hlength := length_postorder n
    rw [place_cons] at hi
    cases turn with
    | false =>
      have hfound := ih (by simpa using hi) hrest
      have hlt := (List.getElem?_eq_some_iff.mp hfound).1
      rw [postorder, List.getElem?_append_left (by rwa [List.length_map]), List.getElem?_map,
        hfound]
      rfl
    | true =>
      have hsplit : i + 2 + rest.count true + 1 =
          2 ^ (n + 1) + (place rest + 1) * 2 ^ (l + 1) := by
        rw [List.count_cons_self, Bool.toNat_true] at hi
        rw [Nat.add_assoc _ _ 1, hi, ← hrest, pow_succ, pow_succ, pow_add]
        ring
      have hcount := two_add_count_le rest l
      have hfound := ih (i := i + 1 - 2 ^ (n + 1)) (by omega) hrest
      have hlt := (List.getElem?_eq_some_iff.mp hfound).1
      rw [postorder, List.getElem?_append_right (by rw [List.length_map]; omega), List.length_map,
        show i - (postorder n).length = i + 1 - 2 ^ (n + 1) by omega,
        List.getElem?_append_left (by rwa [List.length_map]), List.getElem?_map, hfound]
      rfl

/-- The number of nodes that come before a node. -/
theorem getElem?_postorder : (postorder n)[i]? = some path ↔ path.length ≤ n ∧
    i + 2 + path.count true = (place path + 1) * 2 ^ (n - path.length + 1) := by
  constructor
  · intro h
    have hmem := (postorder_perm n).mem_iff.mp (List.mem_of_getElem? h)
    have hle := length_le_of_mem_inorder hmem
    obtain ⟨j, hj⟩ := Nat.exists_eq_add_of_le (two_add_count_le path (n - path.length))
    have hplace := getElem?_postorder_of (i := j) (by rw [hj]; ring) (Nat.add_sub_cancel' hle)
    have hsame := (List.getElem?_inj (List.getElem?_eq_some_iff.mp h).1 (nodup_postorder n)).mp
      (h.trans hplace.symm)
    refine ⟨hle, ?_⟩
    rw [hj, hsame]
    ring
  · rintro ⟨hle, hi⟩
    exact getElem?_postorder_of hi (Nat.add_sub_cancel' hle)

end Anthemius.PerfectTrees
