/-
  ExoCore.Lib.Word — 64-bit and 32-bit wrapping arithmetic on `Nat`.

  A machine word is a `Nat`; every operation that can leave the word range
  carries its own `% 2 ^ 64` (or `% 2 ^ 32`).  The lemmas are of two kinds: what the operation
  is when NOTHING WRAPS (the rewriting direction of every safety proof), and the
  power-of-two rounding `(x + (2^k - 1)) & ~(2^k - 1)` as plain division.
-/
import Mathlib.Data.Nat.Bitwise
import Mathlib.Tactic.Common

namespace ExoCore.Lib

/-! ## §1. Addition and subtraction. -/

/-- Wrapping 64-bit addition. -/
def add64 (a b : ℕ) : ℕ := (a + b) % 2 ^ 64

/-- Wrapping 64-bit subtraction of words. -/
def sub64 (a b : ℕ) : ℕ := (a + 2 ^ 64 - b) % 2 ^ 64

/-- Wrapping 32-bit addition. -/
def add32 (a b : ℕ) : ℕ := (a + b) % 2 ^ 32

/-- Wrapping 32-bit multiplication. -/
def mul32 (a b : ℕ) : ℕ := a * b % 2 ^ 32

/-- Wrapping 32-bit subtraction of words. -/
def sub32 (a b : ℕ) : ℕ := (a + 2 ^ 32 - b) % 2 ^ 32

/-- A 64-bit signed word. -/
def toLong (x : ℤ) : ℤ := Int.bmod x (2 ^ 64)

/-- A 32-bit signed word. -/
def toInt (x : ℤ) : ℤ := Int.bmod x (2 ^ 32)

variable {a b k : ℕ}

theorem add64_of_lt (h : a + b < 2 ^ 64) : add64 a b = a + b :=
  Nat.mod_eq_of_lt h

theorem add64_lt (a b : ℕ) : add64 a b < 2 ^ 64 :=
  Nat.mod_lt _ (by decide)

theorem add32_of_lt (h : a + b < 2 ^ 32) : add32 a b = a + b :=
  Nat.mod_eq_of_lt h

theorem mul32_of_lt (h : a * b < 2 ^ 32) : mul32 a b = a * b :=
  Nat.mod_eq_of_lt h

theorem sub32_of_le (hb : b ≤ a) (ha : a < 2 ^ 32) : sub32 a b = a - b := by
  unfold sub32; omega

theorem toInt_eq (x : ℤ) : toInt x = if x % 4294967296 < 2147483648 then x % 4294967296
    else x % 4294967296 - 4294967296 := rfl

/-- The successor of a positive 32-bit word: the largest one wraps to the smallest. -/
theorem toInt_succ {x : ℤ} (h0 : 0 ≤ x) (h : x < 2 ^ 31) :
    (x + 1 < 2 ^ 31 ∧ toInt (x + 1) = x + 1) ∨ (x = 2 ^ 31 - 1 ∧ toInt (x + 1) = -2 ^ 31) := by
  rw [toInt_eq]
  split <;> omega

theorem toInt_lt (x : ℤ) : toInt x < 2 ^ 31 := by
  have h := Int.bmod_lt (x := x) (m := 2 ^ 32) (by decide)
  unfold toInt
  omega

theorem toInt_toInt_add (x y : ℤ) : toInt (toInt x + y) = toInt (x + y) := Int.bmod_add_bmod

/-- A counter that starts at 2 is back at 1 only after `2^32 - 1` increments. -/
theorem toInt_ne_one (h : k < 2 ^ 32 - 1) : toInt (2 + k) ≠ 1 := by
  rw [toInt_eq]
  split <;> omega

theorem toInt_of_range {x : ℤ} (h0 : -2 ^ 31 ≤ x) (h : x < 2 ^ 31) : toInt x = x := by
  rw [toInt_eq]
  split <;> omega

theorem sub64_of_le (hb : b ≤ a) (ha : a < 2 ^ 64) : sub64 a b = a - b := by
  unfold sub64; omega

/-! ## §2. Rounding up to a power of two. -/

/-- Clearing the low `k` bits of a word: `x & ~(2^k - 1)`. -/
def clearLow64 (k x : ℕ) : ℕ := x &&& (2 ^ 64 - 2 ^ k)

/-- `(x + (2^k - 1)) & ~(2^k - 1)`, the C idiom for rounding up. -/
def roundUp64 (k x : ℕ) : ℕ := clearLow64 k (add64 x (2 ^ k - 1))

theorem clearLow64_eq {x : ℕ} (hk : k ≤ 64) (hx : x < 2 ^ 64) :
    clearLow64 k x = x / 2 ^ k * 2 ^ k := by
  have hmask : 2 ^ 64 - 2 ^ k = (2 ^ (64 - k) - 1) * 2 ^ k := by
    rw [Nat.sub_mul, ← Nat.pow_add, Nat.sub_add_cancel hk, Nat.one_mul]
  apply Nat.eq_of_testBit_eq
  intro i
  rw [clearLow64, hmask, Nat.testBit_and, Nat.testBit_mul_two_pow, Nat.testBit_mul_two_pow,
    Nat.testBit_two_pow_sub_one, Nat.testBit_div_two_pow]
  by_cases hki : k ≤ i
  · by_cases hi : i < 64
    · simp [hki, show i - k < 64 - k by omega, Nat.sub_add_cancel hki]
    · -- above the word every bit of `x` is clear
      have hxi : x.testBit i = false :=
        Nat.testBit_lt_two_pow (lt_of_lt_of_le hx (Nat.pow_le_pow_right (by omega) (by omega)))
      simp [hxi, Nat.sub_add_cancel hki]
  · simp [hki]

theorem roundUp64_eq {x : ℕ} (hk : k ≤ 64) :
    roundUp64 k x = add64 x (2 ^ k - 1) / 2 ^ k * 2 ^ k :=
  clearLow64_eq hk (add64_lt _ _)

end ExoCore.Lib
