import HeroOS.Pmm
import HeroOS.Run

/-! # The free-page counter

The counter `pmm_free_phys_pages` is the number of clear bits of the bitmap, whatever the clients
pass: `Counted` is kept by every call, with unaligned, out-of-range, repeated and overlapping
arguments (`PmmCallStep.counted`), so that it holds throughout every run
(`free_counter_exact`).  Each loop changes a bit and the counter together; the two ways to do so
are `Counted.take` and `Counted.release`. -/

namespace HeroOS.Pmm

open Word

variable {s s' : Pmm} {i n : ℕ}

/-- The pages whose bit is clear. -/
def clearPages (s : Pmm) : Finset ℕ := (Finset.range PMM_MAX_PAGES).filter (fun p => s.bitmapTest p = false)

/-- The counter is the number of clear bits, and the hint lies in the bitmap or at its end. -/
structure Counted (s : Pmm) : Prop where
  hint : s.lastFreeHint ≤ PMM_MAX_PAGES
  free : s.freePhysPages = s.clearPages.card

theorem mem_clearPages {p : ℕ} : p ∈ s.clearPages ↔ p < PMM_MAX_PAGES ∧ s.bitmapTest p = false := by
  simp [clearPages]

theorem card_clearPages_le (s : Pmm) : s.clearPages.card ≤ PMM_MAX_PAGES := by
  have h := Finset.card_filter_le (Finset.range PMM_MAX_PAGES) (fun p => s.bitmapTest p = false)
  rwa [Finset.card_range] at h

theorem Counted.free_lt (h : Counted s) : s.freePhysPages < 2 ^ 64 := by
  have hle := card_clearPages_le s
  rw [h.free]
  unfold PMM_MAX_PAGES at hle
  omega

/-- The page of a bit that is set is no longer among the clear ones. -/
theorem clearPages_take (htest : ∀ q, s'.bitmapTest q = (decide (q = i) || s.bitmapTest q)) :
    s'.clearPages = s.clearPages.erase i := by
  ext q
  rw [Finset.mem_erase, mem_clearPages, mem_clearPages, htest]
  by_cases hq : q = i <;> simp [hq]

/-- The page of a bit that is cleared is among them. -/
theorem clearPages_release (hi : i < PMM_MAX_PAGES) (htest : ∀ q, s'.bitmapTest q = (!decide (q = i) && s.bitmapTest q)) :
    s'.clearPages = insert i s.clearPages := by
  ext q
  rw [Finset.mem_insert, mem_clearPages, mem_clearPages, htest]
  by_cases hq : q = i
  · simp [hq, hi]
  · simp [hq]

/-- Setting a clear bit and counting down. -/
theorem Counted.take (h : Counted s) (hi : i < PMM_MAX_PAGES) (hc : s.bitmapTest i = false)
    (hhint : s'.lastFreeHint ≤ PMM_MAX_PAGES)
    (htest : ∀ q, s'.bitmapTest q = (decide (q = i) || s.bitmapTest q))
    (hfree : s'.freePhysPages = s.freePhysPages - 1) : Counted s' := by
  have hmem : i ∈ s.clearPages := mem_clearPages.mpr ⟨hi, hc⟩
  exact ⟨hhint, by rw [hfree, clearPages_take htest, Finset.card_erase_of_mem hmem, h.free]⟩

/-- Clearing a set bit and counting up. -/
theorem Counted.release (h : Counted s) (hi : i < PMM_MAX_PAGES) (hu : s.bitmapTest i = true)
    (hhint : s'.lastFreeHint ≤ PMM_MAX_PAGES)
    (htest : ∀ q, s'.bitmapTest q = (!decide (q = i) && s.bitmapTest q))
    (hfree : s'.freePhysPages = wadd s.freePhysPages 1) : Counted s' := by
  have hnot : i ∉ s.clearPages := by
    intro hm
    rw [(mem_clearPages.mp hm).2] at hu
    cases hu
  refine ⟨hhint, ?_⟩
  have hle := card_clearPages_le s'
  rw [clearPages_release hi htest, Finset.card_insert_of_notMem hnot] at hle ⊢
  rw [hfree, h.free]
  unfold PMM_MAX_PAGES at hle
  exact wadd_of_lt (by omega)

/-! ### The calls -/

/-- An allocation takes its pages off the counter. -/
theorem Counted.allocates {p : ℕ} (h : Counted s) (ha : Allocates s n s' p) : Counted s' := by
  have hsub : Finset.Ico p (p + n) ⊆ s.clearPages := by
    intro q hq
    rw [Finset.mem_Ico] at hq
    have hb := ha.bound
    exact mem_clearPages.mpr ⟨by omega, ha.wasFree q hq⟩
  have hset : s'.clearPages = s.clearPages \ Finset.Ico p (p + n) := by
    ext q
    rw [Finset.mem_sdiff, mem_clearPages, mem_clearPages, Finset.mem_Ico, ← Bool.not_eq_true,
      ← Bool.not_eq_true, ha.test_iff, Set.mem_Ico]
    tauto
  have hcard := Finset.card_le_card hsub
  rw [Nat.card_Ico, Nat.add_sub_cancel_left] at hcard
  refine ⟨ha.hint h.hint, ?_⟩
  rw [ha.count, hset, Finset.card_sdiff_of_subset hsub, Nat.card_Ico, Nat.add_sub_cancel_left, ← h.free]
  exact wsub_of_le h.free_lt (h.free ▸ hcard)

theorem Counted.freePage (h : Counted s) (phys : ℕ) : Counted (s.pmmFreePage phys) := by
  by_cases hb : phys / PAGE_SIZE < PMM_MAX_PAGES
  · cases hu : s.bitmapTest (phys / PAGE_SIZE) with
    | true =>
        obtain ⟨ht, hf, hh⟩ := pmmFreePage_of_used hb hu
        exact h.release hb hu (hh h.hint) ht hf
    | false =>
        unfold pmmFreePage
        rw [if_neg (by omega), if_neg (by simp [hu])]
        exact h
  · unfold pmmFreePage
    rw [if_pos (by omega)]
    exact h

theorem Counted.freeLoop (h : Counted s) (phys n i : ℕ) : Counted (s.freeLoop phys n i) := by
  induction n generalizing s i with
  | zero => exact h
  | succ n ih => exact ih (h.freePage _) (i + 1)

theorem Counted.markUsedLoop (h : Counted s) (n i : ℕ) : Counted (s.markUsedLoop n i) := by
  induction n generalizing s i with
  | zero => exact h
  | succ n ih =>
      rw [Pmm.markUsedLoop]
      split
      · exact h
      · rename_i hi
        split
        · exact ih h (i + 1)
        · rename_i hc
          apply ih
          refine h.take (i := i) (by omega) (by simpa using hc) ?_ ?_ ?_
          · exact h.hint
          · exact fun q => s.bitmap.test_setBit i q
          · dsimp only
            split <;> omega

theorem Counted.markFreeLoop (h : Counted s) (n i : ℕ) : Counted (s.markFreeLoop n i) := by
  induction n generalizing s i with
  | zero => exact h
  | succ n ih =>
      rw [Pmm.markFreeLoop]
      split
      · exact h
      · rename_i hi
        split
        · rename_i hu
          apply ih
          refine h.release (i := i) (by omega) hu ?_ ?_ ?_
          · exact h.hint
          · exact fun q => s.bitmap.test_clearBit i q
          · rfl
        · exact ih h (i + 1)

/-! ### Runs -/

/-- The calls of the manager, with any arguments. -/
inductive PmmCall where
  | allocPage
  | allocPages (count : ℕ)
  | freePage (phys : ℕ)
  | freePages (phys count : ℕ)
  | markUsed (phys size : ℕ)
  | markFree (phys size : ℕ)
deriving DecidableEq, Repr

/-- A call that returns: an allocation without memory stops the kernel. -/
inductive PmmCallStep (s : Pmm) : PmmCall → Pmm → Prop
  | allocPage {s' : Pmm} {phys : ℕ} (h : s.pmmAllocPage = .ok (s', phys)) : PmmCallStep s .allocPage s'
  | allocPages {s' : Pmm} {count phys : ℕ} (h : s.pmmAllocPages count = .ok (s', phys)) :
      PmmCallStep s (.allocPages count) s'
  | freePage (phys : ℕ) : PmmCallStep s (.freePage phys) (s.pmmFreePage phys)
  | freePages (phys count : ℕ) : PmmCallStep s (.freePages phys count) (s.pmmFreePages phys count)
  | markUsed (phys size : ℕ) : PmmCallStep s (.markUsed phys size) (s.pmmMarkUsed phys size)
  | markFree (phys size : ℕ) : PmmCallStep s (.markFree phys size) (s.pmmMarkFree phys size)

theorem PmmCallStep.counted {call : PmmCall} (hc : Counted s) (h : PmmCallStep s call s') : Counted s' := by
  cases h with
  | allocPage h =>
      obtain ⟨p, _, ha⟩ := pmmAllocPage_spec hc.hint h
      exact hc.allocates ha
  | @allocPages _ count phys h =>
      by_cases hn : count = 0
      · subst hn
        cases h
        exact hc
      · obtain ⟨p, _, ha⟩ := pmmAllocPages_spec (Nat.one_le_iff_ne_zero.mpr hn) hc.hint hc.free_lt h
        exact hc.allocates ha
  | freePage phys => exact hc.freePage phys
  | freePages phys count => exact hc.freeLoop phys count 0
  | markUsed phys size => exact hc.markUsedLoop _ _
  | markFree phys size => exact hc.markFreeLoop _ _

/-- **The free counter counts the clear bits** in every state that any calls with any arguments
lead to, once it does; in particular it never wraps below zero.  The hint of where to search next,
which no call checks, stays inside the bitmap as well. -/
theorem free_counter_exact {calls : List PmmCall} (hhint : s.lastFreeHint ≤ PMM_MAX_PAGES)
    (hfree : s.freePhysPages = ((Finset.range PMM_MAX_PAGES).filter (fun p => s.bitmapTest p = false)).card)
    (h : Run PmmCallStep s calls s') :
    s'.freePhysPages = ((Finset.range PMM_MAX_PAGES).filter (fun p => s'.bitmapTest p = false)).card ∧
      s'.lastFreeHint ≤ PMM_MAX_PAGES := by
  have h0 : Counted s := ⟨hhint, hfree⟩
  have h1 : Counted s' := h.invariant (fun _ _ _ hc hs => hs.counted hc) h0
  exact ⟨h1.free, h1.hint⟩

/-- From a manager with every page free: an allocation, overlapping reservations, a double release
and arguments far outside the bitmap. -/
theorem free_counter_exact_overlapping :
    ∃ s', Run PmmCallStep ⟨fun _ => 0#64, PMM_MAX_PAGES, PMM_MAX_PAGES, 0⟩
        [.allocPage, .markUsed 0 8192, .markUsed 4096 1, .freePage 5000, .freePage 4096,
          .freePages (2 ^ 64 - 1) 3, .markFree (2 ^ 63) 8192] s' ∧
      s'.freePhysPages = ((Finset.range PMM_MAX_PAGES).filter (fun p => s'.bitmapTest p = false)).card := by
  have hrun : Run PmmCallStep ⟨fun _ => 0#64, PMM_MAX_PAGES, PMM_MAX_PAGES, 0⟩
      [.allocPage, .markUsed 0 8192, .markUsed 4096 1, .freePage 5000, .freePage 4096,
        .freePages (2 ^ 64 - 1) 3, .markFree (2 ^ 63) 8192] _ :=
    .cons (.allocPage rfl) (.cons (.markUsed _ _) (.cons (.markUsed _ _) (.cons (.freePage _)
      (.cons (.freePage _) (.cons (.freePages _ _) (.cons (.markFree _ _) (.nil _)))))))
  refine ⟨_, hrun, (free_counter_exact (Nat.zero_le _) ?_ hrun).1⟩
  have hall : ∀ p ∈ Finset.range PMM_MAX_PAGES,
      bitmapTest ⟨fun _ => 0#64, PMM_MAX_PAGES, PMM_MAX_PAGES, 0⟩ p = false := by
    intro p _
    simp [bitmapTest, BitArray.test]
  rw [Finset.filter_true_of_mem hall, Finset.card_range]

end HeroOS.Pmm
