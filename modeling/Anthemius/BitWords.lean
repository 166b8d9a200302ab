import Mathlib.Data.Nat.Bits
import Mathlib.Data.Nat.EvenOddRec
import Mathlib.Data.Nat.Factorization.Basic
import Mathlib.Data.Nat.Size
import Mathlib.Tactic.Common
import Mathlib.Tactic.Ring

/-! Words of a fixed width: the zeros at both ends, the number of ones, and the bits of a word that
ends in ones. -/
namespace Anthemius.BitWords

variable {w : ℕ} {v : BitVec w} {t q : ℕ}

def trailingZeros (v : BitVec w) : ℕ := (List.range w).findIdx (v.getLsbD ·)

def leadingZeros (v : BitVec w) : ℕ := (List.range w).findIdx (v.getMsbD ·)

def countOnes (v : BitVec w) : ℕ := (List.range w).countP (v.getLsbD ·)

/-- A positive number is odd but for its trailing zeros. -/
theorem exists_two_pow_mul {n : ℕ} (h : 0 < n) : ∃ t q, n = 2 ^ t * (2 * q + 1) := by
  obtain ⟨t, m, hm, rfl⟩ := Nat.exists_eq_two_pow_mul_odd h.ne'
  obtain ⟨q, rfl⟩ := hm
  exact ⟨t, q, rfl⟩

theorem lt_width (h : v.toNat = 2 ^ t * (2 * q + 1)) : t < w := by
  refine (Nat.pow_lt_pow_iff_right one_lt_two).mp (lt_of_le_of_lt ?_ v.isLt)
  rw [h]
  exact Nat.le_mul_of_pos_right _ (by omega)

theorem trailingZeros_eq (h : v.toNat = 2 ^ t * (2 * q + 1)) : trailingZeros v = t := by
  have ht : t < (List.range w).length := by
    rw [List.length_range]
    exact lt_width h
  rw [trailingZeros, List.findIdx_eq ht]
  constructor
  · rw [List.getElem_range, BitVec.getLsbD, h, Nat.testBit_two_pow_mul]
    simp
  · intro i hi
    rw [List.getElem_range, BitVec.getLsbD, h, Nat.testBit_two_pow_mul,
      decide_eq_false (by omega), Bool.false_and]

/-- The bits of a number that ends in `t` ones. -/
theorem testBit_of_add_one_eq {n : ℕ} (h : n + 1 = 2 ^ t * (2 * q + 1)) (i : ℕ) :
    n.testBit i = if i < t then true else (2 * q).testBit (i - t) := by
  have hpos : 0 < 2 ^ t := Nat.two_pow_pos t
  have heq : n = 2 ^ t * (2 * q) + (2 ^ t - 1) := by
    rw [Nat.mul_add, Nat.mul_one] at h
    omega
  rw [heq, Nat.testBit_two_pow_mul_add _ (by omega), Nat.testBit_two_pow_sub_one]
  exact if_ctx_congr Iff.rfl (fun hi => decide_eq_true hi) fun _ => rfl

theorem trailingZeros_not (h : v.toNat + 1 = 2 ^ t * (2 * q + 1)) : trailingZeros (~~~v) = t := by
  have hle : t ≤ w := by
    refine (Nat.pow_le_pow_iff_right one_lt_two).mp (le_trans ?_ (Nat.succ_le_of_lt v.isLt))
    rw [Nat.succ_eq_add_one, h]
    exact Nat.le_mul_of_pos_right _ (by omega)
  have hlow : ∀ i < t, (~~~v).getLsbD i = false := by
    intro i hi
    rw [BitVec.getLsbD_not, BitVec.getLsbD, testBit_of_add_one_eq h, if_pos hi]
    simp
  obtain hlt | rfl := Nat.lt_or_eq_of_le hle
  · have ht : t < (List.range w).length := by
      rw [List.length_range]
      exact hlt
    rw [trailingZeros, List.findIdx_eq ht]
    constructor
    · rw [List.getElem_range, BitVec.getLsbD_not, BitVec.getLsbD, testBit_of_add_one_eq h,
        if_neg (by omega)]
      simp [hlt]
    · intro i hi
      rw [List.getElem_range]
      exact hlow i hi
  · -- all bits are ones
    have hnone : (List.range t).findIdx ((~~~v).getLsbD ·) = (List.range t).length :=
      List.findIdx_eq_length.mpr fun i hi => hlow i (List.mem_range.mp hi)
    rwa [List.length_range] at hnone

theorem getLsbD_one_shiftLeft {n i : ℕ} (hi : i < w) :
    (1#w <<< n).getLsbD i = decide (i = n) := by
  rw [BitVec.getLsbD_shiftLeft]
  simp only [hi, decide_true, Bool.true_and, BitVec.getLsbD_one]
  grind

theorem getLsbD_or_shiftLeft (v : BitVec w) {n i : ℕ} (hi : i < w) :
    (v ||| 1#w <<< n).getLsbD i = (v.getLsbD i || decide (n = i)) := by
  rw [BitVec.getLsbD_or, getLsbD_one_shiftLeft hi]
  simp only [eq_comm]

theorem eq_zero_iff : v = 0#w ↔ ∀ i < w, v.getLsbD i = false := by
  constructor
  · rintro rfl i _
    exact BitVec.getLsbD_zero
  · intro h
    refine BitVec.eq_of_getLsbD_eq fun i hi => ?_
    rw [h i hi, BitVec.getLsbD_zero]

theorem getLsbD_trailingZeros (h : v ≠ 0#w) :
    trailingZeros v < w ∧ v.getLsbD (trailingZeros v) = true ∧
      ∀ i < trailingZeros v, v.getLsbD i = false := by
  have hsome : ∃ i ∈ List.range w, v.getLsbD i = true := by
    by_contra hnone
    refine h (eq_zero_iff.mpr fun i hi => ?_)
    by_contra hbit
    exact hnone ⟨i, List.mem_range.mpr hi, by simpa using hbit⟩
  have hlt : trailingZeros v < (List.range w).length := List.findIdx_lt_length.mpr hsome
  have hfirst : (List.range w).findIdx (v.getLsbD ·) = trailingZeros v := rfl
  obtain ⟨hbit, hbelow⟩ := (List.findIdx_eq hlt).mp hfirst
  rw [List.getElem_range] at hbit
  refine ⟨by rwa [List.length_range] at hlt, hbit, fun i hi => ?_⟩
  have hzero := hbelow i hi
  rwa [List.getElem_range] at hzero

theorem leadingZeros_eq (v : BitVec w) : leadingZeros v = w - v.toNat.size := by
  have hsize : v.toNat.size ≤ w := Nat.size_le.mpr v.isLt
  have hhigh : ∀ i < w - v.toNat.size, v.getMsbD i = false := by
    intro i hi
    rw [BitVec.getMsbD_eq_getLsbD, BitVec.getLsbD,
      Nat.testBit_lt_two_pow (Nat.size_le.mp (by omega)), Bool.and_false]
  by_cases hzero : v.toNat.size = 0
  · have hnone : (List.range w).findIdx (v.getMsbD ·) = (List.range w).length :=
      List.findIdx_eq_length.mpr fun i hi => hhigh i (by have := List.mem_range.mp hi; omega)
    rw [List.length_range] at hnone
    rw [leadingZeros, hnone, hzero, Nat.sub_zero]
  · have hlt : w - v.toNat.size < (List.range w).length := by
      rw [List.length_range]
      omega
    rw [leadingZeros, List.findIdx_eq hlt]
    constructor
    · rw [List.getElem_range, BitVec.getMsbD_eq_getLsbD, BitVec.getLsbD,
        show w - 1 - (w - v.toNat.size) = v.toNat.size - 1 by omega]
      have hbit := Nat.testBit_of_two_pow_le_and_two_pow_add_one_gt
        (Nat.lt_size.mp (by omega : v.toNat.size - 1 < v.toNat.size))
        (Nat.size_le.mp (by omega : v.toNat.size ≤ v.toNat.size - 1 + 1))
      rw [hbit, Bool.and_true]
      exact decide_eq_true (by omega)
    · intro i hi
      rw [List.getElem_range]
      exact hhigh i hi

/-! ## The number of ones -/

theorem count_bits_two_mul (q : ℕ) : (2 * q).bits.count true = q.bits.count true := by
  by_cases hq : q = 0
  · rw [hq, Nat.mul_zero]
  · rw [Nat.bit0_bits _ hq, List.count_cons_of_ne (by decide)]

theorem count_bits_two_mul_add_one (q : ℕ) :
    (2 * q + 1).bits.count true = q.bits.count true + 1 := by
  rw [Nat.bit1_bits, List.count_cons_self]

/-- Shifted numbers have the same ones. -/
theorem count_bits_two_pow_mul (t q : ℕ) : (2 ^ t * q).bits.count true = q.bits.count true := by
  induction t with
  | zero => rw [pow_zero, Nat.one_mul]
  | succ t ih => rw [pow_succ', Nat.mul_assoc, count_bits_two_mul, ih]

theorem count_bits_le (n : ℕ) : n.bits.count true ≤ n := by
  induction n using Nat.evenOddRec with
  | h0 => exact Nat.le_refl 0
  | h_even q ih =>
    rw [count_bits_two_mul]
    omega
  | h_odd q ih =>
    rw [count_bits_two_mul_add_one]
    omega

theorem countP_testBit (n : ℕ) (h : n < 2 ^ w) :
    (List.range w).countP (n.testBit ·) = n.bits.count true := by
  induction w generalizing n with
  | zero =>
    obtain rfl : n = 0 := by omega
    rfl
  | succ w ih =>
    have hhalf := ih (n / 2) (by omega)
    rw [List.range_succ_eq_map, List.countP_cons, List.countP_map]
    have hshift : (n.testBit ·) ∘ Nat.succ = ((n / 2).testBit ·) := by
      funext i
      exact Nat.testBit_succ n i
    rw [hshift, hhalf]
    obtain ⟨q, rfl | rfl⟩ := n.even_or_odd'
    · rw [count_bits_two_mul, show 2 * q / 2 = q by omega]
      simp
    · rw [count_bits_two_mul_add_one, show (2 * q + 1) / 2 = q by omega]
      simp

theorem countOnes_eq (v : BitVec w) : countOnes v = v.toNat.bits.count true :=
  countP_testBit v.toNat v.isLt

end Anthemius.BitWords
