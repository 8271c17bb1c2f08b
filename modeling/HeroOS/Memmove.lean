import HeroOS.Framebuffer
import HeroOS.Word

/-! # `memmove` and its pointers

The loops of `memmove` advance two 64-bit pointers, which wrap: the pointer behind the last byte of the address
space is 0.  They copy byte by byte between ranges that may overlap.

* `forwardLoop_eq_moves`, `backwardLoop_eq_moves`: each loop makes the moves `byteMove d s i`, in one or the other
  order;
* `memmove_eq`: where the ranges do not wrap, this is the `memmove` on natural addresses, which the models of the
  heap and of the framebuffer use;
* `memmove_moved`: the range at `dst` gets what the range at `src` held, and nothing else changes;
* `fbScrollUp_memmove`: so scrolling moves the rows of the screen. -/

namespace HeroOS.Memmove

open Word Moves

/-- `while (n--) *d++ = *s++;` -/
def forwardLoop (m : Mem) : ℕ → ℕ → ℕ → Mem
  | _, _, 0 => m
  | d, s, n + 1 => forwardLoop (m.write8 d (m s)) (wadd d 1) (wadd s 1) n

/-- `while (n--) *--d = *--s;` -/
def backwardLoop (m : Mem) : ℕ → ℕ → ℕ → Mem
  | _, _, 0 => m
  | d, s, n + 1 => backwardLoop (m.write8 (wsub d 1) (m (wsub s 1))) (wsub d 1) (wsub s 1) n

/-- `memmove` -/
def memmove (m : Mem) (dst src n : ℕ) : Mem :=
  if dst < src then forwardLoop m dst src n
  else if dst > src then backwardLoop m (wadd dst n) (wadd src n) n
  else m

variable {m : Mem} {dst src d s n i : ℕ}

/-! ### The moves of the loops -/

/-- The move of the byte `i`. -/
def byteMove (d s i : ℕ) : ℕ × ℕ := (wadd d i, wadd s i)

theorem byteMove_zero (hd : d < 2 ^ 64) (hs : s < 2 ^ 64) : byteMove d s 0 = (d, s) :=
  Prod.ext (wadd_of_lt hd) (wadd_of_lt hs)

theorem byteMove_succ (d s : ℕ) : byteMove (wadd d 1) (wadd s 1) = byteMove d s ∘ Nat.succ := by
  funext i
  unfold byteMove wadd
  simp only [Function.comp, Nat.mod_add_mod, Nat.add_assoc, Nat.succ_eq_one_add]

/-- The pointers before the first step backwards. -/
theorem wsub_wadd_succ (d n : ℕ) : wsub (wadd d (n + 1)) 1 = wadd d n := by
  unfold wsub wadd
  omega

theorem forwardLoop_eq_moves (hd : d < 2 ^ 64) (hs : s < 2 ^ 64) :
    forwardLoop m d s n = moves m ((List.range n).map (byteMove d s)) := by
  induction n generalizing m d s with
  | zero => rfl
  | succ n ih =>
      rw [forwardLoop, ih (wadd_lt d 1) (wadd_lt s 1), byteMove_succ, Mem.write8_eq_update, List.range_succ_eq_map,
        List.map_cons, List.map_map, byteMove_zero hd hs, moves]

theorem backwardLoop_eq_moves :
    backwardLoop m (wadd d n) (wadd s n) n = moves m ((List.range n).reverse.map (byteMove d s)) := by
  induction n generalizing m with
  | zero => rfl
  | succ n ih =>
      rw [backwardLoop, wsub_wadd_succ, wsub_wadd_succ, ih, Mem.write8_eq_update, List.range_succ, List.reverse_append]
      rfl

/-! ### Ranges that do not wrap -/

theorem byteMove_eq (hd : d + n ≤ 2 ^ 64) (hs : s + n ≤ 2 ^ 64) (hi : i < n) : byteMove d s i = (d + i, s + i) := by
  unfold byteMove
  rw [wadd_of_lt (by omega), wadd_of_lt (by omega)]

/-- Where neither range wraps, the pointers are the addresses. -/
theorem memmove_eq (hd : dst + n ≤ 2 ^ 64) (hs : src + n ≤ 2 ^ 64) : memmove m dst src n = m.memmove dst src n := by
  have hup : (List.range n).map (byteMove dst src) = (List.range n).map fun i => (dst + i, src + i) :=
    List.map_congr_left fun i hi => byteMove_eq hd hs (List.mem_range.mp hi)
  have hdown : (List.range n).reverse.map (byteMove dst src) = (List.range n).reverse.map fun i => (dst + i, src + i) :=
    List.map_congr_left fun i hi => byteMove_eq hd hs (List.mem_range.mp (List.mem_reverse.mp hi))
  unfold memmove Mem.memmove
  rw [backwardLoop_eq_moves, hdown, ← Mem.copyDown_eq_moves]
  rcases Nat.eq_zero_or_pos n with rfl | hn
  · rfl
  · split
    · rename_i hlt
      rw [forwardLoop_eq_moves (by omega) (by omega), hup, ← Mem.copy_eq_moves]
    · rfl

/-- **`memmove`.**  However the two ranges overlap: the `n` bytes at `dst` become what the `n` bytes at `src` were,
and all other bytes are kept. -/
theorem memmove_moved (m : Mem) (hd : dst + n ≤ 2 ^ 64) (hs : src + n ≤ 2 ^ 64) :
    (∀ i < n, memmove m dst src n (dst + i) = m (src + i)) ∧
      ∀ x, x ∉ Set.Ico dst (dst + n) → memmove m dst src n x = m x := by
  rw [memmove_eq hd hs]
  constructor
  · intro i hi
    rw [Mem.memmove_apply, if_pos ⟨Nat.le_add_right dst i, Nat.add_lt_add_left hi dst⟩, Nat.add_sub_cancel_left]
  · intro x hx
    rw [Mem.memmove_apply, if_neg hx]

/-- The six bytes from `2 ^ 64 - 8` on are moved up by two, to the end of the address space. -/
theorem memmove_moved_end :
    memmove UInt8.ofNat (2 ^ 64 - 6) (2 ^ 64 - 8) 6 (2 ^ 64 - 1) = UInt8.ofNat (2 ^ 64 - 3) ∧
      memmove UInt8.ofNat (2 ^ 64 - 6) (2 ^ 64 - 8) 6 (2 ^ 64 - 7) = UInt8.ofNat (2 ^ 64 - 7) := by
  obtain ⟨hmoved, hkept⟩ := @memmove_moved (2 ^ 64 - 6) (2 ^ 64 - 8) 6 UInt8.ofNat (by norm_num) (by norm_num)
  exact ⟨hmoved 5 (by norm_num), hkept _ (by rw [Set.mem_Ico]; norm_num)⟩

/-- `fb_scroll_up` moves the rows of the screen so. -/
theorem fbScrollUp_memmove {d : Display} {lines bg : ℕ} (hg : d.Geometry) (hw : 0 < d.fb.width) (hh : 0 < d.fb.height)
    (hlines : lines * FONT_H ≤ d.fb.height) (hin : d.fbMem + d.fb.pitch * d.fb.height < 2 ^ 64) :
    d.fbScrollUp m lines bg =
      d.fbFillRect (memmove m d.fbMem (wadd d.fbMem (lines * FONT_H * d.fb.pitch)) ((d.fb.height - lines * FONT_H) * d.fb.pitch))
        0 (d.fb.height - lines * FONT_H) d.fb.width (lines * FONT_H) bg := by
  have hrows : lines * FONT_H * d.fb.pitch + (d.fb.height - lines * FONT_H) * d.fb.pitch = d.fb.pitch * d.fb.height := by
    rw [← Nat.add_mul, Nat.add_sub_cancel' hlines, Nat.mul_comm]
  rw [Display.fbScrollUp_eq hg hw hh hlines, wadd_of_lt (by omega), memmove_eq (by omega) (by omega)]

end HeroOS.Memmove
