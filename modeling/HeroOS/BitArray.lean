import Mathlib

/-! # Bit arrays in 64-bit words

Bit `i` of the array is bit `i % 64` of word `i / 64`.  Setting, clearing and testing a bit go
through one-bit masks; `test_setBit` and `test_clearBit` describe them on the set of indices,
and two arrays that agree on every test are equal (`ext_test`). -/

namespace HeroOS

/-- An array of 64-bit words, read as an array of bits. -/
abbrev BitArray := ℕ → BitVec 64

namespace BitArray

/-- The mask of bit `i` in its word. -/
def mask (i : ℕ) : BitVec 64 := 1#64 <<< (i % 64)

/-- `words[i / 64] |= 1 << (i % 64)`. -/
def setBit (w : BitArray) (i : ℕ) : BitArray := Function.update w (i / 64) (w (i / 64) ||| mask i)

/-- `words[i / 64] &= ~(1 << (i % 64))`. -/
def clearBit (w : BitArray) (i : ℕ) : BitArray :=
  Function.update w (i / 64) (w (i / 64) &&& ~~~ mask i)

/-- `(words[i / 64] & (1 << (i % 64))) != 0`. -/
def test (w : BitArray) (i : ℕ) : Bool := (w (i / 64) &&& mask i) != 0#64

variable {w w' : BitArray} {i j : ℕ}

theorem mask_eq_twoPow (i : ℕ) : mask i = BitVec.twoPow 64 (i % 64) := (BitVec.twoPow_eq _ _).symm

theorem getLsbD_mask (i k : ℕ) : (mask i).getLsbD k = decide (i % 64 = k) := by
  have h : i % 64 < 64 := Nat.mod_lt _ (by norm_num)
  rw [mask_eq_twoPow, BitVec.getLsbD_twoPow]
  simp [h]

theorem test_eq_getLsbD (w : BitArray) (i : ℕ) : w.test i = (w (i / 64)).getLsbD (i % 64) := by
  have h : i % 64 < 64 := Nat.mod_lt _ (by norm_num)
  have hne : BitVec.twoPow 64 (i % 64) ≠ 0#64 := by
    intro h0
    have := congrArg (fun b => BitVec.getLsbD b (i % 64)) h0
    simp [h] at this
  unfold test
  rw [mask_eq_twoPow, BitVec.and_twoPow]
  cases (w (i / 64)).getLsbD (i % 64) with
  | true => simpa using hne
  | false => simp

theorem test_setBit (w : BitArray) (i j : ℕ) : (w.setBit i).test j = (decide (j = i) || w.test j) := by
  rw [test_eq_getLsbD, test_eq_getLsbD, setBit]
  by_cases hw : j / 64 = i / 64
  · rw [hw, Function.update_self, BitVec.getLsbD_or, getLsbD_mask, Bool.or_comm]
    congr 1
    exact decide_eq_decide.mpr ⟨fun h => by omega, fun h => by rw [h]⟩
  · rw [Function.update_of_ne hw]
    have : j ≠ i := fun h => hw (by rw [h])
    simp [this]

theorem test_clearBit (w : BitArray) (i j : ℕ) :
    (w.clearBit i).test j = (!decide (j = i) && w.test j) := by
  have hj : j % 64 < 64 := Nat.mod_lt _ (by norm_num)
  rw [test_eq_getLsbD, test_eq_getLsbD, clearBit]
  by_cases hw : j / 64 = i / 64
  · rw [hw, Function.update_self, BitVec.getLsbD_and, BitVec.getLsbD_not, getLsbD_mask, Bool.and_comm]
    have : decide (i % 64 = j % 64) = decide (j = i) :=
      decide_eq_decide.mpr ⟨fun h => by omega, fun h => by rw [h]⟩
    rw [this]
    simp [hj]
  · rw [Function.update_of_ne hw]
    have : j ≠ i := fun h => hw (by rw [h])
    simp [this]

/-- An array of bits is determined by its tests. -/
theorem ext_test (h : ∀ i, w.test i = w'.test i) : w = w' := by
  funext k
  apply BitVec.eq_of_getLsbD_eq
  intro b hb
  have hk := h (64 * k + b)
  rw [test_eq_getLsbD, test_eq_getLsbD] at hk
  rwa [show (64 * k + b) / 64 = k by omega, show (64 * k + b) % 64 = b by omega] at hk

end BitArray
end HeroOS
