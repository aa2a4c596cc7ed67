import Mathlib.Algebra.Group.Int.Defs
import Mathlib.Algebra.Group.Nat.Defs
import Mathlib.Data.Nat.Basic

/-!
# Machine words

The kernel code modelled here computes in `__u64`, `__u32` and `loff_t`. Words
are natural numbers below `2 ^ 64`; an operation that can leave that range is
followed by `u64` or `u32`, which is what the hardware does. A `loff_t` is the same word
read as a signed number, `toS64`.
-/

namespace Lustre

/-- Truncation to 64 bits. -/
def u64 (x : ℕ) : ℕ := x % 2 ^ 64

/-- Truncation to 32 bits. -/
def u32 (x : ℕ) : ℕ := x % 2 ^ 32

/-- Subtraction of 64-bit words, wrapping below zero. -/
def sub64 (x y : ℕ) : ℕ := u64 (x + 2 ^ 64 - y)

/-- A 64-bit word read as a signed number (`loff_t`, `__s64`). -/
def toS64 (x : ℕ) : ℤ := if x < 2 ^ 63 then x else (x : ℤ) - 2 ^ 64

/-- A 32-bit word read as a signed number (`int`). -/
def toS32 (x : ℕ) : ℤ := if x < 2 ^ 31 then x else (x : ℤ) - 2 ^ 32

/-- `OBD_OBJECT_EOF`, which is `LUSTRE_EOF`: all bits set. -/
def obdObjectEof : ℕ := 2 ^ 64 - 1

variable {x : ℕ}

theorem u64_of_lt (h : x < 2 ^ 64) : u64 x = x := Nat.mod_eq_of_lt h

theorem u64_lt (x : ℕ) : u64 x < 2 ^ 64 := Nat.mod_lt _ (by decide)

theorem u32_of_lt (h : x < 2 ^ 32) : u32 x = x := Nat.mod_eq_of_lt h

theorem sub64_of_le {x y : ℕ} (hx : x < 2 ^ 64) (h : y ≤ x) : sub64 x y = x - y := by
  have hs : x + 2 ^ 64 - y = (x - y) + 2 ^ 64 := by omega
  rw [sub64, u64, hs, Nat.add_mod_right]
  exact Nat.mod_eq_of_lt (by omega)

theorem toS64_of_lt (h : x < 2 ^ 63) : toS64 x = x := if_pos h

theorem toS32_of_lt (h : x < 2 ^ 31) : toS32 x = x := if_pos h

/-- Words below `2 ^ 63` compare the same way signed and unsigned. -/
theorem toS64_lt_iff {x y : ℕ} (hx : x < 2 ^ 63) (hy : y < 2 ^ 63) : toS64 x < toS64 y ↔ x < y := by
  rw [toS64_of_lt hx, toS64_of_lt hy]
  exact Int.ofNat_lt

/-! ## Masks -/

theorem lor_mask (x k : ℕ) : x ||| (2 ^ k - 1) = x / 2 ^ k * 2 ^ k + (2 ^ k - 1) := by
  have hlt : 2 ^ k - 1 < 2 ^ k := Nat.sub_lt (Nat.two_pow_pos k) Nat.one_pos
  rw [mul_comm]
  refine Nat.eq_of_testBit_eq fun i => ?_
  rw [Nat.testBit_or, Nat.testBit_two_pow_mul_add _ hlt, Nat.testBit_two_pow_sub_one]
  by_cases hi : i < k
  · simp [hi]
  · rw [if_neg hi, Nat.testBit_div_two_pow, Nat.sub_add_cancel (not_lt.mp hi)]
    simp [hi]

theorem land_mask (hx : x < 2 ^ 64) (k : ℕ) :
    x &&& ((2 ^ 64 - 1) ^^^ (2 ^ k - 1)) = x / 2 ^ k * 2 ^ k := by
  rw [mul_comm]
  refine Nat.eq_of_testBit_eq fun i => ?_
  -- a word has no bits above
  have hhigh : 64 ≤ i → x.testBit i = false := fun hi =>
    Nat.testBit_lt_two_pow (Nat.lt_of_lt_of_le hx (Nat.pow_le_pow_right (by decide) hi))
  rw [Nat.testBit_and, Nat.testBit_xor, Nat.testBit_two_pow_sub_one, Nat.testBit_two_pow_sub_one,
    ← add_zero (2 ^ k * (x / 2 ^ k)), Nat.testBit_two_pow_mul_add _ (Nat.two_pow_pos k)]
  by_cases hi : i < k
  · rw [if_pos hi, Nat.zero_testBit]
    by_cases h64 : i < 64
    · simp [hi, h64]
    · simp [hhigh (not_lt.mp h64)]
  · rw [if_neg hi, Nat.testBit_div_two_pow, Nat.sub_add_cancel (not_lt.mp hi)]
    by_cases h64 : i < 64
    · simp [hi, h64]
    · simp [hhigh (not_lt.mp h64)]

theorem dvd_lor_iff {a b k : ℕ} : 2 ^ k ∣ a ||| b ↔ 2 ^ k ∣ a ∧ 2 ^ k ∣ b := by
  rw [Nat.dvd_iff_mod_eq_zero, Nat.dvd_iff_mod_eq_zero, Nat.dvd_iff_mod_eq_zero, Nat.or_mod_two_pow,
    Nat.or_eq_zero_iff]

end Lustre
