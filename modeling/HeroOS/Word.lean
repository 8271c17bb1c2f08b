import Mathlib

/-! # Sixty-four-bit machine arithmetic on natural numbers

A machine word is a natural number below `2 ^ 64`.  The operations wrap explicitly, so that a
model can be compared with C code on `uint64_t` line by line, and the lemmas say when a
wrapped operation is the ordinary one: `wadd_of_lt`, `wsub_of_le`, `wmul_of_lt`.

Masks of consecutive bits are handled by one lemma, `and_shifted_mask`; rounding up to a power
of two (`alignUp`) follows from it (`alignUp_two_pow`).  Conversions between signed and unsigned words
are `toU64` and `toS64`. -/

namespace HeroOS

/-- A signed 64-bit value converted to `uint64_t`. -/
def toU64 (x : ℤ) : ℕ := (x % 2 ^ 64).toNat

/-- A `size_t` converted to `ssize_t`. -/
def toS64 (n : ℕ) : ℤ := if n < 2 ^ 63 then n else n - 2 ^ 64

namespace Word

/-- Addition modulo `2 ^ 64`. -/
def wadd (a b : ℕ) : ℕ := (a + b) % 2 ^ 64

/-- Subtraction modulo `2 ^ 64`. -/
def wsub (a b : ℕ) : ℕ := (a + (2 ^ 64 - b % 2 ^ 64)) % 2 ^ 64

/-- Multiplication modulo `2 ^ 64`. -/
def wmul (a b : ℕ) : ℕ := (a * b) % 2 ^ 64

/-- Bitwise complement of a word. -/
def wnot (a : ℕ) : ℕ := 2 ^ 64 - 1 - a % 2 ^ 64

/-- `x` rounded up to a multiple of the power of two `a`: `(x + a - 1) & ~(a - 1)`. -/
def alignUp (x a : ℕ) : ℕ := wsub (wadd x a) 1 &&& wnot (wsub a 1)

/-- The same on a 32-bit `x`, where the sum wraps modulo `2 ^ 32`. -/
def alignUp32 (x a : ℕ) : ℕ := (x + a - 1) % 2 ^ 32 &&& (2 ^ 32 - a)

theorem wadd_lt (a b : ℕ) : wadd a b < 2 ^ 64 := Nat.mod_lt _ (by norm_num)

theorem wsub_lt (a b : ℕ) : wsub a b < 2 ^ 64 := Nat.mod_lt _ (by norm_num)

theorem wadd_of_lt {a b : ℕ} (h : a + b < 2 ^ 64) : wadd a b = a + b := Nat.mod_eq_of_lt h

theorem wsub_of_le {a b : ℕ} (ha : a < 2 ^ 64) (h : b ≤ a) : wsub a b = a - b := by
  unfold wsub
  omega

theorem wmul_of_lt {a b : ℕ} (h : a * b < 2 ^ 64) : wmul a b = a * b := Nat.mod_eq_of_lt h

theorem toU64_lt (x : ℤ) : toU64 x < 2 ^ 64 := by
  unfold toU64
  omega

theorem toU64_natCast {n : ℕ} (h : n < 2 ^ 64) : toU64 (n : ℤ) = n := by
  unfold toU64
  omega

theorem toS64_of_lt {n : ℕ} (h : n < 2 ^ 63) : toS64 n = n := if_pos h

theorem toU64_toS64 {n : ℕ} (h : n < 2 ^ 64) : toU64 (toS64 n) = n := by
  unfold toU64 toS64
  split <;> omega

/-! ### Masks -/

/-- Masking with `n` consecutive ones at position `k` keeps exactly these bits. -/
theorem and_shifted_mask (x n k : ℕ) :
    x &&& (2 ^ n - 1) * 2 ^ k = x / 2 ^ k % 2 ^ n * 2 ^ k := by
  apply Nat.eq_of_testBit_eq
  intro i
  rw [Nat.testBit_and, Nat.testBit_mul_two_pow, Nat.testBit_mul_two_pow,
    Nat.testBit_two_pow_sub_one, Nat.testBit_mod_two_pow, Nat.testBit_div_two_pow]
  by_cases hk : k ≤ i
  · rw [Nat.sub_add_cancel hk]
    simp [hk, Bool.and_comm]
  · simp [hk]

theorem wnot_two_pow_sub_one {k : ℕ} (hk : k ≤ 64) :
    wnot (2 ^ k - 1) = (2 ^ (64 - k) - 1) * 2 ^ k := by
  have hp : 2 ^ k ≤ 2 ^ 64 := Nat.pow_le_pow_right (by norm_num) hk
  have h1 : 1 ≤ 2 ^ k := Nat.one_le_two_pow
  have hs : 2 ^ (64 - k) * 2 ^ k = 2 ^ 64 := by rw [← Nat.pow_add, Nat.sub_add_cancel hk]
  unfold wnot
  rw [Nat.mod_eq_of_lt (by omega), Nat.sub_mul, hs]
  omega

/-- Rounding up to a power of two, as long as the rounding does not wrap. -/
theorem alignUp_two_pow {x k : ℕ} (hk : k < 64) (h : x + 2 ^ k - 1 < 2 ^ 64) :
    alignUp x (2 ^ k) = (x + 2 ^ k - 1) / 2 ^ k * 2 ^ k := by
  have hp : 2 ^ k < 2 ^ 64 := Nat.pow_lt_pow_right (by norm_num) hk
  have h1 : 1 ≤ 2 ^ k := Nat.one_le_two_pow
  have hs : 2 ^ (64 - k) * 2 ^ k = 2 ^ 64 := by rw [← Nat.pow_add, Nat.sub_add_cancel hk.le]
  have hx : wsub (wadd x (2 ^ k)) 1 = x + 2 ^ k - 1 := by
    unfold wsub wadd
    omega
  have hd : (x + 2 ^ k - 1) / 2 ^ k < 2 ^ (64 - k) := by
    rw [Nat.div_lt_iff_lt_mul (by omega), hs]
    exact h
  unfold alignUp
  rw [hx, wsub_of_le hp h1, wnot_two_pow_sub_one hk.le, and_shifted_mask, Nat.mod_eq_of_lt hd]

/-- Rounding up yields the next multiple. -/
theorem alignUp_bounds {x k : ℕ} (hk : k < 64) (h : x + 2 ^ k - 1 < 2 ^ 64) :
    x ≤ alignUp x (2 ^ k) ∧ alignUp x (2 ^ k) < x + 2 ^ k ∧ 2 ^ k ∣ alignUp x (2 ^ k) := by
  have h1 : 1 ≤ 2 ^ k := Nat.one_le_two_pow
  have hdiv := Nat.div_add_mod (x + 2 ^ k - 1) (2 ^ k)
  have hmod := Nat.mod_lt (x + 2 ^ k - 1) (show 0 < 2 ^ k by omega)
  rw [alignUp_two_pow hk h, Nat.mul_comm ((x + 2 ^ k - 1) / 2 ^ k)]
  exact ⟨by omega, by omega, Nat.dvd_mul_right _ _⟩

/-- Rounding up wraps to zero where the next multiple does not fit a word. -/
theorem alignUp_two_pow_wrap {x k : ℕ} (hk : k < 64) (hx : x < 2 ^ 64) (h : 2 ^ 64 ≤ x + 2 ^ k - 1) :
    alignUp x (2 ^ k) = 0 := by
  have hp : 2 ^ k < 2 ^ 64 := Nat.pow_lt_pow_right (by norm_num) hk
  have h1 : 1 ≤ 2 ^ k := Nat.one_le_two_pow
  have hsum : wsub (wadd x (2 ^ k)) 1 = x + 2 ^ k - 1 - 2 ^ 64 := by
    unfold wsub wadd
    omega
  have hd : (x + 2 ^ k - 1 - 2 ^ 64) / 2 ^ k = 0 := Nat.div_eq_of_lt (by omega)
  unfold alignUp
  rw [hsum, wsub_of_le hp h1, wnot_two_pow_sub_one hk.le, and_shifted_mask, hd]
  simp

/-- Rounding a 32-bit number up to a multiple of 8. -/
theorem alignUp32_eight (x : ℕ) : alignUp32 x 8 = (x + 7) % 2 ^ 32 / 8 * 8 := by
  have hlt : (x + 7) % 2 ^ 32 / 8 < 2 ^ 29 := by omega
  unfold alignUp32
  rw [show (2 : ℕ) ^ 32 - 8 = (2 ^ 29 - 1) * 2 ^ 3 by norm_num, and_shifted_mask]
  omega

end Word
end HeroOS
