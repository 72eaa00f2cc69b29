import Mathlib.Data.Nat.ModEq

/-!
# Big-endian integers

A natural number as a fixed number of bytes.  Two numbers have the same bytes
exactly if they agree modulo the range of that width.
-/

namespace ClobApi.Foundation

/-- The last `width` digits of `n` in base 256, most significant first. -/
def bigEndian : Nat → Nat → List UInt8
  | 0, _ => []
  | width + 1, n => bigEndian width (n / 256) ++ [UInt8.ofNat n]

@[simp] theorem length_bigEndian (width n : Nat) :
    (bigEndian width n).length = width := by
  induction width generalizing n with
  | zero => rfl
  | succ width ih => simp [bigEndian, ih]

theorem byte_eq_iff (m n : Nat) :
    UInt8.ofNat m = UInt8.ofNat n ↔ m % 256 = n % 256 := by
  rw [← UInt8.toNat_inj]
  simp

theorem bigEndian_inj {width m n : Nat} :
    bigEndian width m = bigEndian width n ↔
      m % 256 ^ width = n % 256 ^ width := by
  induction width generalizing m n with
  | zero => simp [bigEndian, Nat.mod_one]
  | succ width ih =>
      have hsplit : ∀ k : Nat,
          k % 256 ^ (width + 1) = k % 256 + 256 * (k / 256 % 256 ^ width) := by
        intro k
        rw [Nat.pow_succ, Nat.mul_comm, Nat.mod_mul]
      have happend : bigEndian (width + 1) m = bigEndian (width + 1) n ↔
          bigEndian width (m / 256) = bigEndian width (n / 256) ∧
            UInt8.ofNat m = UInt8.ofNat n := by
        rw [bigEndian, bigEndian, List.append_eq_append_iff_of_size_eq_right
          (by simp)]
        simp
      rw [happend, ih, byte_eq_iff, hsplit, hsplit]
      have hm := Nat.mod_lt m (by decide : 256 > 0)
      have hn := Nat.mod_lt n (by decide : 256 > 0)
      omega

end ClobApi.Foundation
