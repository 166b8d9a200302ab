import Anthemius.AccumulatorViews
import Anthemius.PaddedTreePaths

/-!
# Proofs from storage

The siblings that are read for a leaf or a range of leaves are nodes of the padded tree.
-/
namespace Anthemius.Accumulators
open PaddedTree Outcomes Position

namespace MerkleAccumulatorView
variable {H : Type} {c : Hashing H} {reader : HashReader H} {leaves : List H} {i l count : ℕ}

theorem ancestorSiblings_eq (hi : i + 1 < 2 ^ 63) (hd : l + count ≤ 63) :
    Returns (ancestorSiblings count (pos l (i / 2 ^ l)) : Outcome (AccumulatorError H) _)
      ((List.range' l count).map fun j => pos j (other (i / 2 ^ j))) := by
  induction count generalizing l with
  | zero => exact returns_pure.mpr rfl
  | succ count ih =>
    have hfits : Fits l (i / 2 ^ l) := fits_of_lt hi (by omega)
    have hparent := hfits.parent_eq
    rw [← div_two_pow_succ] at hparent
    simp only [ancestorSiblings, returns_bind, returns_expect, returns_pure]
    exact ⟨_, hfits.sibling_eq (by omega), _, hparent, _, ih (by omega), rfl⟩

theorem within_other (hi : i < 2 ^ 63) (hl : l < 63) : Within l (other (i / 2 ^ l)) := by
  have hparent := within_of_lt hi (Nat.succ_le_of_lt hl)
  rw [div_two_pow_succ] at hparent
  rw [other]
  split
  next heven =>
    rw [show i / 2 ^ l + 1 = 2 * (i / 2 ^ l / 2) + 1 by omega]
    exact hparent.right
  next hodd =>
    rw [show i / 2 ^ l - 1 = 2 * (i / 2 ^ l / 2) by omega]
    exact hparent.left

theorem filterM_map {α : Type} {p : Position → Option Bool} {f : α → Position} {keep : α → Bool}
    {xs : List α} (h : ∀ x ∈ xs, p (f x) = some (keep x)) :
    Returns (filterM p (xs.map f) : Outcome (AccumulatorError H) _) ((xs.filter keep).map f) := by
  induction xs with
  | nil => exact returns_pure.mpr rfl
  | cons x xs ih =>
    rw [List.forall_mem_cons] at h
    simp only [List.map_cons, filterM, returns_bind, returns_expect, returns_pure]
    refine ⟨_, h.1, _, ih h.2, ?_⟩
    rw [List.filter_cons]
    split <;> rfl

theorem clog_le (hmax : leaves.length ≤ 2 ^ 63) : Nat.clog 2 leaves.length ≤ 63 :=
  Nat.clog_le_of_le_pow hmax

theorem getSiblingPositions_eq (hmax : leaves.length ≤ 2 ^ 63) (hi : i < leaves.length)
    (hword : i + 1 < 2 ^ 63) {filter : Position → Option Bool} {keep : ℕ → Bool}
    (hfilter : ∀ l < 63, filter (pos l (other (i / 2 ^ l))) = some (keep l)) :
    Returns (getSiblingPositions leaves.length i filter : Outcome (AccumulatorError H) _)
      (((List.range' 0 (Nat.clog 2 leaves.length)).filter keep).map
        fun j => pos j (other (i / 2 ^ j))) := by
  have hclog := clog_le hmax
  have hleaf : fromLeafIndex i = pos 0 (i / 2 ^ 0) := by
    rw [fromLeafIndex_eq, Nat.mod_eq_of_lt (by omega), pow_zero, Nat.div_one]
  have hlevel : (pos (Nat.clog 2 leaves.length) 0).level = Nat.clog 2 leaves.length :=
    (within_root hmax).at_pos.level_eq
  simp only [getSiblingPositions, returns_bind, returns_expect]
  refine ⟨_, rootFromLeafCount_eq (by omega) hmax, _, ?_, filterM_map fun j hj => hfilter j ?_⟩
  · rw [hlevel, hleaf]
    exact ancestorSiblings_eq hword (by omega)
  · have hlt := List.mem_range'_1.mp hj
    omega

theorem getHashes_siblings (h : Holds c reader leaves) (hmax : leaves.length ≤ 2 ^ 63)
    (hi : i < leaves.length) (keep : ℕ → Bool) :
    Returns (getHashes c reader leaves.length
        (((List.range' 0 (Nat.clog 2 leaves.length)).filter keep).map
          fun j => pos j (other (i / 2 ^ j))))
      (((List.range' 0 (Nat.clog 2 leaves.length)).filter keep).map
        fun j => node c leaves j (other (i / 2 ^ j))) := by
  have hclog := clog_le hmax
  rw [getHashes, List.mapM_map]
  refine returns_mapM fun j hj => getHash_eq h (by omega) hmax (within_other (by omega) ?_)
  have hlt := List.mem_range'_1.mp (List.mem_of_mem_filter hj)
  omega

theorem getProof_eq (h : Holds c reader leaves) (hmax : leaves.length ≤ 2 ^ 63)
    (hi : i < leaves.length) (hword : i + 1 < 2 ^ 63) :
    Returns (getProof c reader leaves.length i)
      (siblings c leaves i 0 (Nat.clog 2 leaves.length)) := by
  have hhashes := getHashes_siblings h hmax hi fun _ => true
  have hpositions : Returns (getSiblingPositions leaves.length i fun _ => some true) _ :=
    getSiblingPositions_eq hmax hi hword fun _ _ => rfl
  simp only [getProof, returns_bind, returns_ensure]
  refine ⟨(), hi, _, hpositions, ?_⟩
  rwa [List.filter_true] at hhashes ⊢

theorem fits_other (hi : i + 2 < 2 ^ 63) (hl : l < 63) : Fits l (other (i / 2 ^ l)) := by
  cases l with
  | zero =>
    rw [Fits, pow_zero, Nat.div_one, other]
    split <;> omega
  | succ l => exact (within_other (by omega) hl).fits

theorem getRangeProof_eq (h : Holds c reader leaves) (hmax : leaves.length ≤ 2 ^ 63)
    {first last : ℕ} (hle : first ≤ last) (hlast : last < leaves.length)
    (hword : last + 2 < 2 ^ 63) :
    Returns (getRangeProof c reader leaves.length (some first) (last + 1 - first))
      (sideSiblings c leaves first 0 0 (Nat.clog 2 leaves.length),
        sideSiblings c leaves last 1 0 (Nat.clog 2 leaves.length)) := by
  have hend : first + (last + 1 - first - 1) = last := by omega
  have hleft : Returns (getSiblingPositions leaves.length first isLeftChild) _ :=
    getSiblingPositions_eq hmax (by omega) (by omega)
      fun l hl => (fits_other (by omega) hl).isLeftChild_eq
  have hright : Returns (getSiblingPositions leaves.length last isRightChild) _ :=
    getSiblingPositions_eq hmax hlast (by omega)
      fun l hl => (fits_other (by omega) hl).isRightChild_eq
  simp only [getRangeProof, getRangeProofPositions, returns_bind, returns_ensure, returns_pure]
  rw [hend]
  exact ⟨_, ⟨(), by omega, (), by omega, (), hlast, _, hleft, _, hright, rfl⟩, _,
    getHashes_siblings h hmax (by omega) _, _, getHashes_siblings h hmax hlast _, rfl⟩

/-! A position at the end of the words has no sibling and cannot be asked for its side. -/

theorem exists_of_getSiblingPositions (hmax : leaves.length ≤ 2 ^ 63) (hi : i < leaves.length)
    (htwo : 2 ≤ leaves.length) {filter : Position → Option Bool} {positions : List Position}
    (h : Returns (getSiblingPositions leaves.length i filter : Outcome (AccumulatorError H) _)
      positions) :
    i + 1 < 2 ^ 63 ∧ ∃ rest,
      Returns (filterM filter (pos 0 (other i) :: rest) : Outcome (AccumulatorError H) _)
        positions := by
  obtain ⟨d, hd⟩ : ∃ d, Nat.clog 2 leaves.length = d + 1 :=
    Nat.exists_eq_add_one.mpr (Nat.clog_pos one_lt_two htwo)
  have hleaf : fromLeafIndex i = pos 0 i := by
    rw [fromLeafIndex_eq, Nat.mod_eq_of_lt (by omega)]
  have hlevel : (pos (d + 1) 0).level = d + 1 := by
    rw [← hd]
    exact (within_root hmax).at_pos.level_eq
  simp only [getSiblingPositions, returns_bind, returns_expect,
    rootFromLeafCount_eq (by omega : 0 < leaves.length) hmax, Option.some.injEq] at h
  obtain ⟨_, rfl, siblings, hsiblings, hkept⟩ := h
  rw [hd, hlevel, hleaf, ancestorSiblings] at hsiblings
  simp only [returns_bind, returns_expect, returns_pure] at hsiblings
  obtain ⟨sibling, hsibling, parent, -, rest, -, rfl⟩ := hsiblings
  have hfits : Fits 0 i := by
    refine Valid.fits ?_ (by omega)
    by_contra hnot
    rw [Position.sibling, if_neg hnot] at hsibling
    cases hsibling
  rw [hfits.sibling_eq (by decide), Option.some.injEq] at hsibling
  rw [Fits, pow_zero] at hfits
  exact ⟨by omega, rest, by rwa [hsibling]⟩

theorem lt_of_getProof (hmax : leaves.length ≤ 2 ^ 63) {hashes : List H}
    (h : Returns (getProof c reader leaves.length i) hashes) : i + 1 < 2 ^ 63 := by
  simp only [getProof, returns_bind, returns_ensure] at h
  obtain ⟨-, hi, positions, hpositions, -⟩ := h
  by_cases htwo : 2 ≤ leaves.length
  · exact (exists_of_getSiblingPositions hmax hi htwo hpositions).1
  · omega

theorem lt_of_getSiblingPositions (hmax : leaves.length ≤ 2 ^ 63) (hi : i < leaves.length)
    {filter : Position → Option Bool} (hfilter : ∀ x b, filter x = some b → x.Valid)
    {positions : List Position}
    (h : Returns (getSiblingPositions leaves.length i filter : Outcome (AccumulatorError H) _)
      positions) : i + 2 < 2 ^ 63 := by
  by_cases htwo : 2 ≤ leaves.length
  · obtain ⟨hlt, rest, hkept⟩ := exists_of_getSiblingPositions hmax hi htwo h
    rw [filterM] at hkept
    simp only [returns_bind, returns_expect] at hkept
    obtain ⟨b, hb, -⟩ := hkept
    have hfits : Fits 0 (other i) := by
      refine (hfilter _ b hb).fits ?_
      rw [pow_zero, other]
      split <;> omega
    rw [Fits, pow_zero, other] at hfits
    split at hfits <;> omega
  · omega

theorem lt_of_getRangeProof (hmax : leaves.length ≤ 2 ^ 63) {first count : ℕ}
    {proof : List H × List H}
    (h : Returns (getRangeProof c reader leaves.length (some first) count) proof) :
    0 < count ∧ first + count ≤ leaves.length ∧ first + count + 1 < 2 ^ 63 := by
  simp only [getRangeProof, getRangeProofPositions, returns_bind, returns_ensure,
    returns_pure] at h
  obtain ⟨_, ⟨-, hcount, -, -, -, hlast, left, -, right, hright, -⟩, -⟩ := h
  have hlt := lt_of_getSiblingPositions hmax hlast (fun _ _ => valid_of_isRightChild) hright
  omega

end MerkleAccumulatorView

end Anthemius.Accumulators
