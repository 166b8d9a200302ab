import Mathlib.Data.UInt
import Mathlib.Algebra.Order.Ring.Nat
import Mathlib.Tactic.Ring

/-! Fixed-width little-endian words: the width is the number of bytes, decoding accepts
exactly the words of that width, and it inverts encoding below the width's bound. -/
namespace Anthemius.LittleEndianBytes

abbrev Bytes := List UInt8

def encode : ℕ → ℕ → Bytes
  | 0, _ => []
  | k + 1, v => UInt8.ofNat (v % 256) :: encode k (v / 256)

def value : Bytes → ℕ
  | [] => 0
  | b :: bs => b.toNat + 256 * value bs

/-- Decoding fails on a word of another width. -/
def decode (width : ℕ) (bs : Bytes) : Option ℕ :=
  if bs.length = width then some (value bs) else none

@[simp] theorem length_encode (k v : ℕ) : (encode k v).length = k := by
  induction k generalizing v with
  | zero => rfl
  | succ k ih => simp [encode, ih]

theorem value_encode (k v : ℕ) (h : v < 256 ^ k) : value (encode k v) = v := by
  induction k generalizing v with
  | zero =>
    have hv : v = 0 := by simpa using h
    subst hv
    rfl
  | succ k ih =>
    have hd : v / 256 < 256 ^ k := by
      apply Nat.div_lt_of_lt_mul
      rwa [pow_succ, Nat.mul_comm] at h
    have hb : (UInt8.ofNat (v % 256)).toNat = v % 256 := by
      simp
    rw [encode, value, ih _ hd, hb]
    exact Nat.mod_add_div v 256

theorem decode_encode (k v : ℕ) (h : v < 256 ^ k) : decode k (encode k v) = some v := by
  simp [decode, value_encode k v h]

end Anthemius.LittleEndianBytes
