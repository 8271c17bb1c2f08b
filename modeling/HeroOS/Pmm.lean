import HeroOS.BitArray
import HeroOS.Outcome
import HeroOS.Word

/-! # The physical memory manager

`kernel/mm/pmm.c`: one bit per 4 KiB page, `1` for a used or reserved page, with a counter of
free pages and a hint at which the search for a single page starts.

Every allocation, of one page through the hint or of a contiguous run by first fit, is described
by the one relation `Allocates s n s' p`: the `n` pages from `p` were free and are the only ones
whose bit changes (`pmmAllocPage_spec`, `pmmAllocPages_spec`).  Freeing a used page clears its bit
and nothing else (`pmmFreePage_of_used`). -/

namespace HeroOS

open Word

/-- `PAGE_SIZE`: 4 KiB. -/
def PAGE_SIZE : ℕ := 0x1000

theorem alignUp_page {n : ℕ} (h : n + 4095 < 2 ^ 64) : alignUp n PAGE_SIZE = (n + 4095) / 4096 * 4096 :=
  alignUp_two_pow (k := 12) (by norm_num) h

/-- `PMM_MAX_PAGES`: up to 4 GiB of physical memory. -/
def PMM_MAX_PAGES : ℕ := 1024 * 1024

/-- The state of the physical memory manager. -/
structure Pmm where
  /-- `pmm_bitmap` -/
  bitmap : BitArray
  /-- `pmm_total_phys_pages` -/
  totalPhysPages : ℕ
  /-- `pmm_free_phys_pages` -/
  freePhysPages : ℕ
  /-- `pmm_last_free_hint` -/
  lastFreeHint : ℕ

namespace Pmm

/-- `bitmap_set` -/
def bitmapSet (s : Pmm) (page : ℕ) : Pmm := { s with bitmap := s.bitmap.setBit page }

/-- `bitmap_clear` -/
def bitmapClear (s : Pmm) (page : ℕ) : Pmm := { s with bitmap := s.bitmap.clearBit page }

/-- `bitmap_test` -/
def bitmapTest (s : Pmm) (page : ℕ) : Bool := s.bitmap.test page

/-- `bitmap_set(page); pmm_free_phys_pages--` -/
def takePage (s : Pmm) (page : ℕ) : Pmm :=
  { s.bitmapSet page with freePhysPages := wsub s.freePhysPages 1 }

/-! ### Allocation -/

/-- The first page without its bit among the `n` pages from `i`. -/
def scanFree (s : Pmm) : ℕ → ℕ → Option ℕ
  | 0, _ => none
  | n + 1, i => if s.bitmapTest i then scanFree s n (i + 1) else some i

/-- `pmm_alloc_page`: search from the hint, then wrap around to the pages below it. -/
def pmmAllocPage (s : Pmm) : Except Halt (Pmm × ℕ) :=
  match s.scanFree (PMM_MAX_PAGES - s.lastFreeHint) s.lastFreeHint with
  | some i => .ok ({ s.takePage i with lastFreeHint := i + 1 }, i * PAGE_SIZE)
  | none =>
      match s.scanFree s.lastFreeHint 0 with
      | some i => .ok ({ s.takePage i with lastFreeHint := i + 1 }, i * PAGE_SIZE)
      | none => .error (.panic "PMM: out of physical memory!")

/-- The search loop of `pmm_alloc_pages`: `n` pages from `i` are still to be looked at, and the
`run` pages from `start` on, up to `i`, were free. -/
def scanRun (s : Pmm) (count : ℕ) : ℕ → ℕ → ℕ → ℕ → Option ℕ
  | 0, _, _, _ => none
  | n + 1, i, start, run =>
      if s.bitmapTest i then scanRun s count n (i + 1) start 0
      else
        let start := if run = 0 then i else start
        if run + 1 = count then some start else scanRun s count n (i + 1) start (run + 1)

/-- Take the `n` pages from `j` on, one after the other. -/
def takePages (s : Pmm) : ℕ → ℕ → Pmm
  | 0, _ => s
  | n + 1, j => takePages (s.takePage j) n (j + 1)

/-- `pmm_alloc_pages`: first fit for a contiguous run of `count` pages. -/
def pmmAllocPages (s : Pmm) (count : ℕ) : Except Halt (Pmm × ℕ) :=
  if count = 0 then .ok (s, 0)
  else if count = 1 then s.pmmAllocPage
  else
    match s.scanRun count PMM_MAX_PAGES 0 0 0 with
    | some start => .ok (s.takePages count start, start * PAGE_SIZE)
    | none => .error (.panic "PMM: cannot allocate contiguous pages")

/-! ### Release -/

/-- `pmm_free_page`, with its guard against freeing a free page. -/
def pmmFreePage (s : Pmm) (phys : ℕ) : Pmm :=
  let page := phys / PAGE_SIZE
  if page ≥ PMM_MAX_PAGES then s
  else if s.bitmapTest page then
    { s.bitmapClear page with
      freePhysPages := wadd s.freePhysPages 1
      lastFreeHint := if page < s.lastFreeHint then page else s.lastFreeHint }
  else s

/-- The loop of `pmm_free_pages` from index `i` on. -/
def freeLoop (s : Pmm) (phys : ℕ) : ℕ → ℕ → Pmm
  | 0, _ => s
  | n + 1, i => freeLoop (s.pmmFreePage (wadd phys (wmul i PAGE_SIZE))) phys n (i + 1)

/-- `pmm_free_pages` -/
def pmmFreePages (s : Pmm) (phys count : ℕ) : Pmm := s.freeLoop phys count 0

/-! ### Reservation -/

/-- The loop of `pmm_mark_used`: at most `n` more pages, from `i` on. -/
def markUsedLoop (s : Pmm) : ℕ → ℕ → Pmm
  | 0, _ => s
  | n + 1, i =>
      if i ≥ PMM_MAX_PAGES then s
      else if s.bitmapTest i then markUsedLoop s n (i + 1)
      else
        markUsedLoop { s.bitmapSet i with
          freePhysPages := if s.freePhysPages > 0 then s.freePhysPages - 1 else s.freePhysPages } n (i + 1)

/-- `pmm_mark_used` -/
def pmmMarkUsed (s : Pmm) (phys size : ℕ) : Pmm :=
  s.markUsedLoop (alignUp size PAGE_SIZE / PAGE_SIZE) (phys / PAGE_SIZE)

/-- The loop of `pmm_mark_free`. -/
def markFreeLoop (s : Pmm) : ℕ → ℕ → Pmm
  | 0, _ => s
  | n + 1, i =>
      if i ≥ PMM_MAX_PAGES then s
      else if s.bitmapTest i then
        markFreeLoop { s.bitmapClear i with freePhysPages := wadd s.freePhysPages 1 } n (i + 1)
      else markFreeLoop s n (i + 1)

/-- `pmm_mark_free` -/
def pmmMarkFree (s : Pmm) (phys size : ℕ) : Pmm := s.markFreeLoop (size / PAGE_SIZE) (phys / PAGE_SIZE)

/-! ### What an allocation does -/

/-- An allocation of the `n` pages from `p`: they were free, and are the only ones to change. -/
structure Allocates (s : Pmm) (n : ℕ) (s' : Pmm) (p : ℕ) : Prop where
  bound : p + n ≤ PMM_MAX_PAGES
  wasFree : ∀ q ∈ Set.Ico p (p + n), s.bitmapTest q = false
  test_iff : ∀ q, s'.bitmapTest q = true ↔ q ∈ Set.Ico p (p + n) ∨ s.bitmapTest q = true
  count : s'.freePhysPages = wsub s.freePhysPages n
  hint : s.lastFreeHint ≤ PMM_MAX_PAGES → s'.lastFreeHint ≤ PMM_MAX_PAGES

variable {s s' : Pmm}

@[simp] theorem bitmapTest_takePage (s : Pmm) (i q : ℕ) :
    (s.takePage i).bitmapTest q = (decide (q = i) || s.bitmapTest q) :=
  s.bitmap.test_setBit i q

theorem scanFree_some : ∀ {n i p : ℕ}, s.scanFree n i = some p →
    i ≤ p ∧ p < i + n ∧ s.bitmapTest p = false
  | 0, _, _, h => by simp [scanFree] at h
  | n + 1, i, p, h => by
      unfold scanFree at h
      cases ht : s.bitmapTest i with
      | true =>
          rw [if_pos ht] at h
          obtain ⟨h1, h2, h3⟩ := scanFree_some h
          exact ⟨by omega, by omega, h3⟩
      | false =>
          rw [if_neg (by simp [ht])] at h
          obtain rfl := Option.some.inj h
          exact ⟨le_rfl, by omega, ht⟩

/-- Taking one free page is an allocation, wherever the hint moves. -/
theorem allocates_takePage {i h : ℕ} (hi : i < PMM_MAX_PAGES) (hf : s.bitmapTest i = false)
    (hh : h ≤ PMM_MAX_PAGES) :
    Allocates s 1 { s.takePage i with lastFreeHint := h } i := by
  refine ⟨hi, ?_, ?_, rfl, fun _ => hh⟩
  · intro q hq
    obtain rfl : q = i := by have := hq.1; have := hq.2; omega
    exact hf
  · intro q
    show (s.takePage i).bitmapTest q = true ↔ _
    rw [bitmapTest_takePage, Bool.or_eq_true, decide_eq_true_iff, Set.mem_Ico]
    constructor
    · rintro (rfl | h)
      · exact .inl ⟨le_rfl, by omega⟩
      · exact .inr h
    · rintro (⟨h1, h2⟩ | h)
      · exact .inl (by omega)
      · exact .inr h

/-- **Allocating one page.** -/
theorem pmmAllocPage_spec {phys : ℕ} (hh : s.lastFreeHint ≤ PMM_MAX_PAGES)
    (h : s.pmmAllocPage = .ok (s', phys)) : ∃ p, phys = p * PAGE_SIZE ∧ Allocates s 1 s' p := by
  have key : ∀ {n i p : ℕ}, s.scanFree n i = some p → i + n ≤ PMM_MAX_PAGES →
      Allocates s 1 { s.takePage p with lastFreeHint := p + 1 } p := by
    intro n i p hs hb
    obtain ⟨_, h2, h3⟩ := scanFree_some hs
    exact allocates_takePage (by omega) h3 (by omega)
  unfold pmmAllocPage at h
  cases h1 : s.scanFree (PMM_MAX_PAGES - s.lastFreeHint) s.lastFreeHint with
  | some p =>
      rw [h1] at h
      obtain ⟨rfl, rfl⟩ := Prod.mk.inj (Except.ok.inj h)
      exact ⟨p, rfl, key h1 (by omega)⟩
  | none =>
      rw [h1] at h
      cases h2 : s.scanFree s.lastFreeHint 0 with
      | some p =>
          simp only [h2] at h
          obtain ⟨rfl, rfl⟩ := Prod.mk.inj (Except.ok.inj h)
          exact ⟨p, rfl, key h2 (by omega)⟩
      | none =>
          simp only [h2] at h
          cases h

/-- The search loop keeps the `run` pages below `i` free, so that it ends on a free run. -/
theorem scanRun_some {count : ℕ} : ∀ {n i start run p : ℕ}, s.scanRun count n i start run = some p →
    (run = 0 ∨ start + run = i) → (∀ q, start ≤ q → q < start + run → s.bitmapTest q = false) →
    p + count ≤ i + n ∧ ∀ q ∈ Set.Ico p (p + count), s.bitmapTest q = false
  | 0, _, _, _, _, h, _, _ => by simp [scanRun] at h
  | n + 1, i, start, run, p, h, hrun, hfree => by
      unfold scanRun at h
      cases ht : s.bitmapTest i with
      | true =>
          rw [if_pos ht] at h
          obtain ⟨h1, h2⟩ := scanRun_some h (.inl rfl) (fun q _ _ => by omega)
          exact ⟨by omega, h2⟩
      | false =>
          rw [if_neg (by simp [ht])] at h
          obtain ⟨st, hst⟩ : ∃ st, (if run = 0 then i else start) = st := ⟨_, rfl⟩
          rw [hst] at h
          have hend : st + run = i := by
            rw [← hst]
            split_ifs <;> omega
          have hfree' : ∀ q, st ≤ q → q < st + (run + 1) → s.bitmapTest q = false := by
            intro q h1 h2
            by_cases hq : q = i
            · rw [hq]
              exact ht
            · have hr : run ≠ 0 := by omega
              rw [if_neg hr] at hst
              exact hfree q (by omega) (by omega)
          by_cases hc : run + 1 = count
          · rw [if_pos hc] at h
            obtain rfl := Option.some.inj h
            subst hc
            exact ⟨by omega, fun q hq => hfree' q hq.1 hq.2⟩
          · rw [if_neg hc] at h
            obtain ⟨h1, h2⟩ := scanRun_some h (.inr (by omega)) hfree'
            exact ⟨by omega, h2⟩

theorem takePages_test : ∀ (n : ℕ) (s : Pmm) (j q : ℕ),
    (s.takePages n j).bitmapTest q = true ↔ q ∈ Set.Ico j (j + n) ∨ s.bitmapTest q = true
  | 0, s, j, q => by simp [takePages]
  | n + 1, s, j, q => by
      rw [takePages, takePages_test n, bitmapTest_takePage, Bool.or_eq_true, decide_eq_true_iff,
        Set.mem_Ico, Set.mem_Ico]
      constructor
      · rintro (h | h | h)
        · exact .inl (by omega)
        · exact .inl (by omega)
        · exact .inr h
      · rintro (h | h)
        · by_cases hq : q = j
          · exact .inr (.inl hq)
          · exact .inl (by omega)
        · exact .inr (.inr h)

theorem takePages_hint : ∀ (n : ℕ) (s : Pmm) (j : ℕ),
    (s.takePages n j).lastFreeHint = s.lastFreeHint
  | 0, _, _ => rfl
  | n + 1, s, j => by rw [takePages, takePages_hint n]; rfl

theorem takePages_free : ∀ (n : ℕ) (s : Pmm) (j : ℕ), s.freePhysPages < 2 ^ 64 →
    (s.takePages n j).freePhysPages = wsub s.freePhysPages n
  | 0, s, j, h => by simp [takePages, wsub_of_le h]
  | n + 1, s, j, h => by
      rw [takePages, takePages_free n _ _ (wsub_lt _ _)]
      show wsub (wsub s.freePhysPages 1) n = _
      unfold wsub
      omega

/-- **Allocating a run of pages**: one page through the hint, more by first fit. -/
theorem pmmAllocPages_spec {n phys : ℕ} (hn : 1 ≤ n) (hh : s.lastFreeHint ≤ PMM_MAX_PAGES)
    (hc : s.freePhysPages < 2 ^ 64) (h : s.pmmAllocPages n = .ok (s', phys)) :
    ∃ p, phys = p * PAGE_SIZE ∧ Allocates s n s' p := by
  unfold pmmAllocPages at h
  rw [if_neg (by omega)] at h
  by_cases h1 : n = 1
  · rw [if_pos h1] at h
    subst h1
    exact pmmAllocPage_spec hh h
  · rw [if_neg h1] at h
    cases hs : s.scanRun n PMM_MAX_PAGES 0 0 0 with
    | none =>
        rw [hs] at h
        cases h
    | some p =>
        rw [hs] at h
        obtain ⟨rfl, rfl⟩ := Prod.mk.inj (Except.ok.inj h)
        obtain ⟨hb, hf⟩ := scanRun_some hs (.inl rfl) (fun q _ _ => by omega)
        refine ⟨p, rfl, by omega, hf, takePages_test n s p, takePages_free n s p hc, fun hh => ?_⟩
        rw [takePages_hint]
        exact hh

/-- What a returned address says about the pages of the allocation. -/
theorem page_of_phys {p phys : ℕ} (h : phys = p * PAGE_SIZE) : phys / PAGE_SIZE = p := by
  rw [h]
  exact Nat.mul_div_cancel _ (by norm_num [PAGE_SIZE])

/-! ### What a release does -/

/-- Freeing a used page clears exactly its bit. -/
theorem pmmFreePage_of_used {phys : ℕ} (hb : phys / PAGE_SIZE < PMM_MAX_PAGES)
    (hu : s.bitmapTest (phys / PAGE_SIZE) = true) :
    (∀ q, (s.pmmFreePage phys).bitmapTest q = (!decide (q = phys / PAGE_SIZE) && s.bitmapTest q)) ∧
      (s.pmmFreePage phys).freePhysPages = wadd s.freePhysPages 1 ∧
      (s.lastFreeHint ≤ PMM_MAX_PAGES → (s.pmmFreePage phys).lastFreeHint ≤ PMM_MAX_PAGES) := by
  have e : s.pmmFreePage phys = { s.bitmapClear (phys / PAGE_SIZE) with
      freePhysPages := wadd s.freePhysPages 1
      lastFreeHint := if phys / PAGE_SIZE < s.lastFreeHint then phys / PAGE_SIZE
        else s.lastFreeHint } := by
    unfold pmmFreePage
    rw [if_neg (by omega), if_pos hu]
  rw [e]
  refine ⟨fun q => s.bitmap.test_clearBit _ q, rfl, fun hh => ?_⟩
  show (if phys / PAGE_SIZE < s.lastFreeHint then phys / PAGE_SIZE else s.lastFreeHint) ≤ _
  split_ifs <;> omega

end Pmm
end HeroOS
