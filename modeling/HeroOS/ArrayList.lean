import Mathlib

/-! # Lists in arrays

An array whose first `n` cells are in use is the list `entries n a`.  Writing the cell behind them appends
(`entries_push`), and moving the cells behind `i` down by one erases (`entries_closeGap`).  An entry that is
written at the end, while an earlier one is taken out, leaves the cells as they were exactly when all of them
from the earlier one on are equal (`closeGap_push_iff`). -/

namespace HeroOS.ArrayList

variable {α : Type} {n i j k : ℕ} {a : ℕ → α} {x : α}

/-- The first `n` cells. -/
def entries (n : ℕ) (a : ℕ → α) : List α := (List.range n).map a

/-- Move `n` cells behind `j` down by one. -/
def closeGap : ℕ → ℕ → (ℕ → α) → (ℕ → α)
  | 0, _, a => a
  | n + 1, j, a => closeGap n (j + 1) (Function.update a j (a (j + 1)))

@[simp]
theorem length_entries (n : ℕ) (a : ℕ → α) : (entries n a).length = n := by simp [entries]

theorem getElem?_entries (n : ℕ) (a : ℕ → α) (i : ℕ) : (entries n a)[i]? = if i < n then some (a i) else none := by
  unfold entries
  by_cases h : i < n
  · simp [h]
  · simp [h]

theorem mem_entries (h : i < n) : a i ∈ entries n a := List.mem_map.mpr ⟨i, List.mem_range.mpr h, rfl⟩

/-- **Appending**: a write right behind the entries. -/
theorem entries_push (n : ℕ) (a : ℕ → α) (x : α) : entries (n + 1) (Function.update a n x) = entries n a ++ [x] := by
  apply List.ext_getElem?
  intro k
  rw [List.getElem?_append, getElem?_entries, getElem?_entries, length_entries]
  obtain hk | rfl | hk := lt_trichotomy k n
  · simp [hk, hk.ne, Nat.lt_succ_of_lt hk]
  · simp
  · have h : k - n ≠ 0 := by omega
    simp [hk.not_gt, not_lt.mpr (Nat.succ_le_of_lt hk), h]

theorem closeGap_apply (n j : ℕ) (a : ℕ → α) (k : ℕ) :
    closeGap n j a k = if j ≤ k ∧ k < j + n then a (k + 1) else a k := by
  induction n generalizing j a with
  | zero => rw [closeGap, if_neg (by omega)]
  | succ n ih =>
      rw [closeGap, ih]
      by_cases hk : k = j
      · subst hk
        rw [if_neg (by omega), if_pos (by omega), Function.update_self]
      · by_cases hin : j + 1 ≤ k ∧ k < j + 1 + n
        · rw [if_pos hin, if_pos (by omega), Function.update_of_ne (by omega)]
        · rw [if_neg hin, if_neg (by omega), Function.update_of_ne hk]

/-- **Erasing**: the cells behind `i` move down by one. -/
theorem entries_closeGap (hi : i < n) : entries (n - 1) (closeGap (n - 1 - i) i a) = (entries n a).eraseIdx i := by
  apply List.ext_getElem?
  intro k
  rw [getElem?_entries, List.getElem?_eraseIdx, getElem?_entries, getElem?_entries, closeGap_apply]
  by_cases hk : k < i
  · have hlt : k < n - 1 := by omega
    have hstay : ¬ (i ≤ k ∧ k < i + (n - 1 - i)) := by omega
    rw [if_pos hlt, if_neg hstay, if_pos hk, if_pos (hk.trans hi)]
  · rw [if_neg hk]
    by_cases hlt : k < n - 1
    · have hmove : i ≤ k ∧ k < i + (n - 1 - i) := by omega
      rw [if_pos hlt, if_pos hmove, if_pos (by omega)]
    · rw [if_neg hlt, if_neg (by omega)]

/-- **Appending and erasing** an earlier entry keeps the cells exactly when all from that one on equal the new entry. -/
theorem closeGap_push_iff (hi : i ≤ n) :
    (∀ j < n, closeGap (n - i) i (Function.update a n x) j = a j) ↔ ∀ j, i ≤ j → j < n → a j = x := by
  have hnext : ∀ j, i ≤ j → j < n → closeGap (n - i) i (Function.update a n x) j = Function.update a n x (j + 1) :=
    fun j h1 h2 => (closeGap_apply _ _ _ _).trans (if_pos (by omega))
  constructor
  · intro h j hij hjn
    -- downwards from the new entry
    induction hd : n - 1 - j generalizing j with
    | zero =>
        have hj := h j hjn
        rw [hnext j hij hjn, show j + 1 = n by omega, Function.update_self] at hj
        exact hj.symm
    | succ d ih =>
        have hj := h j hjn
        rw [hnext j hij hjn, Function.update_of_ne (by omega)] at hj
        rw [← hj]
        exact ih (j + 1) (by omega) (by omega) (by omega)
  · intro h j hjn
    by_cases hij : i ≤ j
    · rw [hnext j hij hjn, h j hij hjn]
      by_cases hlast : j + 1 = n
      · rw [hlast, Function.update_self]
      · rw [Function.update_of_ne hlast]
        exact h (j + 1) (by omega) (by omega)
    · rw [closeGap_apply, if_neg (by omega), Function.update_of_ne (by omega)]

end HeroOS.ArrayList
