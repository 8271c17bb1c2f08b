import Mathlib

/-! # Circular buffers

`contents n buf pos count` reads `count` cells of a buffer of `n` cells in order, starting at the
position `pos`, which is reduced modulo `n`.  A cell written right behind the contents extends them
(`contents_push`), or replaces the first one where the buffer is full (`contents_overwrite`).  The
position may be shifted by a multiple of `n` (`contents_congr`), and reading a few cells splits the
contents (`contents_add`). -/

namespace HeroOS.Ring

variable {α : Type} {n pos pos' count : ℕ} {buf : ℕ → α}

/-- The `count` cells from position `pos` on. -/
def contents (n : ℕ) (buf : ℕ → α) : ℕ → ℕ → List α
  | _, 0 => []
  | pos, count + 1 => buf (pos % n) :: contents n buf (pos + 1) count

@[simp]
theorem length_contents (n : ℕ) (buf : ℕ → α) (pos count : ℕ) : (contents n buf pos count).length = count := by
  induction count generalizing pos with
  | zero => rfl
  | succ count ih => simp [contents, ih]

theorem contents_congr (h : pos % n = pos' % n) : contents n buf pos count = contents n buf pos' count := by
  induction count generalizing pos pos' with
  | zero => rfl
  | succ count ih =>
      have hs : (pos + 1) % n = (pos' + 1) % n := Nat.ModEq.add_right 1 h
      rw [contents, contents, h, ih hs]

/-- Reading `k` cells and then the rest. -/
theorem contents_add (k : ℕ) : contents n buf pos (k + count) =
    contents n buf pos k ++ contents n buf (pos + k) count := by
  induction k generalizing pos with
  | zero => simp [contents]
  | succ k ih =>
      rw [Nat.succ_add, contents, ih, contents, List.cons_append, Nat.add_right_comm, Nat.add_assoc]

theorem contents_update_of_ne {k : ℕ} {x : α} (h : ∀ i < count, (pos + i) % n ≠ k) :
    contents n (Function.update buf k x) pos count = contents n buf pos count := by
  induction count generalizing pos with
  | zero => rfl
  | succ count ih =>
      have h0 : pos % n ≠ k := h 0 (Nat.succ_pos _)
      rw [contents, contents, Function.update_of_ne h0, ih]
      intro i hi
      have := h (i + 1) (Nat.succ_lt_succ hi)
      rwa [Nat.add_comm i, ← Nat.add_assoc] at this

/-- The cells of a window no longer than the buffer are distinct. -/
theorem cell_ne {i : ℕ} (hi : i < count) (hn : count < n) : (pos + i) % n ≠ (pos + count) % n := by
  intro h
  have hmod : i ≡ count [MOD n] := Nat.ModEq.add_left_cancel' pos h
  have heq : i = count := hmod.eq_of_lt_of_lt (hi.trans hn) hn
  omega

/-- A cell of the contents. -/
theorem getElem?_contents (i : ℕ) : (contents n buf pos count)[i]? = if i < count then some (buf ((pos + i) % n)) else none := by
  induction count generalizing pos i with
  | zero => rfl
  | succ count ih =>
      cases i with
      | zero => rfl
      | succ i =>
          rw [contents, List.getElem?_cons_succ, ih]
          by_cases hi : i < count
          · rw [if_pos hi, if_pos (by omega), Nat.add_right_comm, Nat.add_assoc]
          · rw [if_neg hi, if_neg (by omega)]

/-- **Appending**: a write right behind the contents. -/
theorem contents_push (hn : count < n) (x : α) :
    contents n (Function.update buf ((pos + count) % n) x) pos (count + 1) = contents n buf pos count ++ [x] := by
  rw [contents_add, contents_update_of_ne (fun i hi => cell_ne hi hn), contents, contents, Function.update_self]

/-- **Overwriting**: in a full buffer a write to the first cell drops it and appends the new one. -/
theorem contents_overwrite (hn : 0 < n) (x : α) :
    contents n (Function.update buf (pos % n) x) (pos + 1) n = (contents n buf pos n).tail ++ [x] := by
  obtain ⟨m, rfl⟩ : ∃ m, n = m + 1 := ⟨n - 1, by omega⟩
  have hlast : pos + 1 + m = pos + (m + 1) := by omega
  have hkeep : ∀ i < m, (pos + 1 + i) % (m + 1) ≠ pos % (m + 1) := by
    intro i hi heq
    have hmod : pos + (1 + i) ≡ pos + 0 [MOD m + 1] := by rwa [← Nat.add_assoc]
    have hzero : 1 + i = 0 := (Nat.ModEq.add_left_cancel' pos hmod).eq_of_lt_of_lt (by omega) (by omega)
    omega
  calc contents (m + 1) (Function.update buf (pos % (m + 1)) x) (pos + 1) (m + 1)
      = contents (m + 1) (Function.update buf (pos % (m + 1)) x) (pos + 1) m ++
          contents (m + 1) (Function.update buf (pos % (m + 1)) x) (pos + 1 + m) 1 := contents_add m
    _ = contents (m + 1) buf (pos + 1) m ++ [x] := by
        rw [contents_update_of_ne hkeep, hlast, contents, contents, Nat.add_mod_right, Function.update_self]
    _ = (contents (m + 1) buf pos (m + 1)).tail ++ [x] := rfl

end HeroOS.Ring
