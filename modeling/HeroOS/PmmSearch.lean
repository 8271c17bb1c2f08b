import HeroOS.PmmCount
import HeroOS.PmmInit

/-! # Which pages an allocation finds

`pmm_alloc_page` starts its search at a hint, `pmm_alloc_pages` scans all pages for a run.

* `scanRun_first`: the scan finds the first free run that is long enough;
* `pmm_alloc_pages_first_fit`: so `pmm_alloc_pages` is first fit, and panics with the bitmap unchanged;
* `HintLow`: no page below the hint is free.  Every call but `pmm_mark_free` keeps this
  (`PmmCallStep.hintLow`), and then the hint does not change what is found;
* `pmm_alloc_page_lowest`: the lowest free page, for whole runs from `pmm_init`. -/

namespace HeroOS

/-- The first number with a property, or none. -/
def IsFirst (P : ℕ → Prop) : Option ℕ → Prop
  | some p => P p ∧ ∀ q < p, ¬ P q
  | none => ∀ q, ¬ P q

theorem IsFirst.unique {P : ℕ → Prop} {r r' : Option ℕ} (h : IsFirst P r) (h' : IsFirst P r') : r = r' := by
  cases r with
  | none =>
      cases r' with
      | none => rfl
      | some q => exact absurd h'.1 (h q)
  | some p =>
      cases r' with
      | none => exact absurd h.1 (h' p)
      | some q =>
          have h1 : ¬ p < q := fun hlt => h'.2 p hlt h.1
          have h2 : ¬ q < p := fun hlt => h.2 q hlt h'.1
          rw [show p = q by omega]

theorem IsFirst.congr {P Q : ℕ → Prop} {r : Option ℕ} (h : IsFirst P r) (hPQ : ∀ q, P q ↔ Q q) : IsFirst Q r := by
  have hfun : P = Q := funext fun q => propext (hPQ q)
  rwa [← hfun]

namespace Pmm

open Word

variable {s s' : Pmm} {i n p q count phys : ℕ}

/-! ### Searching -/

/-- `count` free pages from `p` on. -/
def FreeRun (s : Pmm) (count p : ℕ) : Prop := p + count ≤ PMM_MAX_PAGES ∧ ∀ q ∈ Set.Ico p (p + count), s.bitmapTest q = false

/-- The page is free. -/
def Free (s : Pmm) (p : ℕ) : Prop := p < PMM_MAX_PAGES ∧ s.bitmapTest p = false

theorem scanFree_first (s : Pmm) (n i : ℕ) :
    IsFirst (fun p => (i ≤ p ∧ p < i + n) ∧ s.bitmapTest p = false) (s.scanFree n i) := by
  induction n generalizing i with
  | zero => exact fun q hq => by omega
  | succ n ih =>
      rw [scanFree]
      split
      · rename_i hu
        apply (ih (i + 1)).congr
        intro q
        constructor
        · rintro ⟨hq, hf⟩
          exact ⟨by omega, hf⟩
        · rintro ⟨hq, hf⟩
          have hne : q ≠ i := by
            rintro rfl
            rw [hu] at hf
            cases hf
          exact ⟨by omega, hf⟩
      · rename_i hf
        exact ⟨⟨by omega, by simpa using hf⟩, fun q hlt hq => by omega⟩

/-- A window of pages that contains a used one. -/
theorem not_freeRun (hq : q ∈ Set.Ico p (p + count)) (hu : s.bitmapTest q = true) : ¬ s.FreeRun count p := by
  intro h
  rw [h.2 q hq] at hu
  cases hu

/-- The loop of `pmm_alloc_pages` at page `i`, behind `run` free pages: no run begins before them. -/
theorem scanRun_first {start run : ℕ} (hend : i + n = PMM_MAX_PAGES) (hstart : run = 0 ∨ start + run = i) (hle : run ≤ i)
    (hlt : run < count) (hfree : ∀ q, i - run ≤ q → q < i → s.bitmapTest q = false)
    (hfirst : ∀ p < i - run, ¬ s.FreeRun count p) : IsFirst (s.FreeRun count) (s.scanRun count n i start run) := by
  induction n generalizing i start run with
  | zero =>
      intro p hp
      by_cases hpi : p < i - run
      · exact hfirst p hpi hp
      · have := hp.1
        omega
  | succ n ih =>
      rw [scanRun]
      split
      · rename_i hu
        apply ih (by omega) (.inl rfl) (Nat.zero_le _) (by omega) (fun q h1 h2 => by omega)
        intro p hp
        by_cases hpi : p < i - run
        · exact hfirst p hpi
        · exact not_freeRun ⟨by omega, by omega⟩ hu
      · rename_i hf
        have hf : s.bitmapTest i = false := by simpa using hf
        have hbegin : (if run = 0 then i else start) = i - run := by
          split
          · omega
          · omega
        have hfree' : ∀ q, i - run ≤ q → q < i + 1 → s.bitmapTest q = false := by
          intro q h1 h2
          by_cases hq : q = i
          · rw [hq]
            exact hf
          · exact hfree q h1 (by omega)
        dsimp only
        rw [hbegin]
        split
        · exact ⟨⟨by omega, fun q hq => hfree' q hq.1 (by have := hq.2; omega)⟩, hfirst⟩
        · have hsub : i + 1 - (run + 1) = i - run := by omega
          apply ih (by omega) (.inr (by omega)) (by omega) (by omega)
          · rwa [hsub]
          · rwa [hsub]

/-! ### Runs of pages -/

/-- The search loop of `pmm_alloc_pages` with the state it leaves: the pages are taken inside it. -/
def allocPagesLoop (count : ℕ) : ℕ → Pmm → ℕ → ℕ → ℕ → Pmm × Option ℕ
  | 0, s, _, _, _ => (s, none)
  | n + 1, s, i, start, run =>
      if s.bitmapTest i then allocPagesLoop count n s (i + 1) start 0
      else
        let start := if run = 0 then i else start
        if run + 1 = count then (s.takePages count start, some start)
        else allocPagesLoop count n s (i + 1) start (run + 1)

/-- `pmm_alloc_pages` for two pages or more: the state when it returns or stops the kernel, and the result. -/
def allocPagesEnd (s : Pmm) (count : ℕ) : Pmm × Except Halt ℕ :=
  match allocPagesLoop count PMM_MAX_PAGES s 0 0 0 with
  | (s, some start) => (s, .ok (start * PAGE_SIZE))
  | (s, none) => (s, .error (.panic "PMM: cannot allocate contiguous pages"))

theorem allocPagesLoop_eq {start run : ℕ} : allocPagesLoop count n s i start run =
    match s.scanRun count n i start run with
    | some start => (s.takePages count start, some start)
    | none => (s, none) := by
  induction n generalizing i start run with
  | zero => rfl
  | succ n ih =>
      rw [allocPagesLoop, scanRun]
      split
      · exact ih
      · dsimp only
        by_cases hc : run + 1 = count
        · simp only [if_pos hc]
        · simp only [if_neg hc]
          exact ih

/-- The two descriptions of the call agree. -/
theorem pmmAllocPages_eq_end (hn : 2 ≤ count) :
    s.pmmAllocPages count = (s.allocPagesEnd count).2.map (fun phys => ((s.allocPagesEnd count).1, phys)) := by
  unfold pmmAllocPages allocPagesEnd
  rw [if_neg (by omega), if_neg (by omega), allocPagesLoop_eq]
  cases s.scanRun count PMM_MAX_PAGES 0 0 0 with
  | none => rfl
  | some start => rfl

theorem takePages_free_succ (s : Pmm) (n j : ℕ) : (s.takePages (n + 1) j).freePhysPages = wsub s.freePhysPages (n + 1) := by
  have hfree : (s.takePage j).freePhysPages = wsub s.freePhysPages 1 := rfl
  rw [takePages, takePages_free n _ _ (by rw [hfree]; exact wsub_lt _ _), hfree]
  unfold wsub
  omega

/-- The search from the beginning. -/
theorem scanRun_all (s : Pmm) (hn : 2 ≤ count) : IsFirst (s.FreeRun count) (s.scanRun count PMM_MAX_PAGES 0 0 0) :=
  scanRun_first (Nat.zero_add _) (.inl rfl) le_rfl (by omega) (fun q _ h => by omega) (fun p h => by omega)

/-- **`pmm_alloc_pages` is first fit.**  For every bitmap and every count of two or more: where pages `p` to
`p + count - 1` are the first run of free pages that is long enough, the call returns the address of `p`, sets
the bits of the run and no others, and takes `count` off the counter; it panics if and only if there is no such
run, and then it has changed nothing. -/
theorem pmm_alloc_pages_first_fit (s : Pmm) (hn : 2 ≤ count) :
    (∀ p, s.FreeRun count p → (∀ q < p, ¬ s.FreeRun count q) → ∃ s', s.pmmAllocPages count = .ok (s', p * PAGE_SIZE) ∧
      (∀ q, s'.bitmapTest q = true ↔ q ∈ Set.Ico p (p + count) ∨ s.bitmapTest q = true) ∧
      s'.freePhysPages = wsub s.freePhysPages count) ∧
    (s.pmmAllocPages count = .error (.panic "PMM: cannot allocate contiguous pages") ↔ ∀ p, ¬ s.FreeRun count p) ∧
    (s.pmmAllocPages count = .error (.panic "PMM: cannot allocate contiguous pages") → (s.allocPagesEnd count).1 = s) := by
  have hscan := scanRun_all s hn
  have hcall : s.pmmAllocPages count = match s.scanRun count PMM_MAX_PAGES 0 0 0 with
      | some start => .ok (s.takePages count start, start * PAGE_SIZE)
      | none => .error (.panic "PMM: cannot allocate contiguous pages") := by
    unfold pmmAllocPages
    rw [if_neg (by omega)]
    exact if_neg (by omega)
  refine ⟨fun p hp hmin => ?_, ?_, fun h => ?_⟩
  · have hsome : s.scanRun count PMM_MAX_PAGES 0 0 0 = some p := hscan.unique ⟨hp, hmin⟩
    obtain ⟨k, rfl⟩ : ∃ k, count = k + 1 := ⟨count - 1, by omega⟩
    refine ⟨s.takePages (k + 1) p, ?_, takePages_test _ s p, takePages_free_succ s k p⟩
    rw [hcall, hsome]
  · rw [hcall]
    cases hs : s.scanRun count PMM_MAX_PAGES 0 0 0 with
    | none =>
        rw [hs] at hscan
        exact iff_of_true rfl hscan
    | some p =>
        rw [hs] at hscan
        apply iff_of_false
        · exact fun h => nomatch h
        · exact fun h => h p hscan.1
  · unfold allocPagesEnd
    rw [allocPagesLoop_eq]
    cases hs : s.scanRun count PMM_MAX_PAGES 0 0 0 with
    | none => rfl
    | some p =>
        rw [hcall, hs] at h
        cases h

/-- A gap of one page is passed over. -/
theorem pmm_alloc_pages_first_fit_gap : ∃ s' : Pmm,
    pmmAllocPages ⟨fun _ => 0b1011, 100, 100, 0⟩ 2 = .ok (s', 4 * PAGE_SIZE) ∧ s'.freePhysPages = 98 := by
  obtain ⟨hfit, _⟩ := @pmm_alloc_pages_first_fit 2 ⟨fun _ => 0b1011, 100, 100, 0⟩ le_rfl
  have hrun : FreeRun ⟨fun _ => 0b1011, 100, 100, 0⟩ 2 4 := by
    refine ⟨by decide, fun q hq => ?_⟩
    obtain rfl | rfl : q = 4 ∨ q = 5 := by have := hq.1; have := hq.2; omega
    · decide
    · decide
  have hmin : ∀ q < 4, ¬ FreeRun ⟨fun _ => 0b1011, 100, 100, 0⟩ 2 q := by
    intro q hq h
    have h0 := h.2 q ⟨le_rfl, by omega⟩
    have h1 := h.2 (q + 1) ⟨by omega, by omega⟩
    have hused : ∀ q < 4, bitmapTest ⟨fun _ => 0b1011, 100, 100, 0⟩ q = true ∨
        bitmapTest ⟨fun _ => 0b1011, 100, 100, 0⟩ (q + 1) = true := by decide
    rcases hused q hq with hu | hu
    · rw [hu] at h0
      cases h0
    · rw [hu] at h1
      cases h1
  obtain ⟨s', hs', _, hfree⟩ := hfit 4 hrun hmin
  exact ⟨s', hs', hfree⟩

/-! ### Single pages -/

/-- Where all pages below the hint are used. -/
structure HintLow (s : Pmm) : Prop where
  le : s.lastFreeHint ≤ PMM_MAX_PAGES
  used : ∀ p < s.lastFreeHint, s.bitmapTest p = true

/-- `pmm_alloc_page` without the hint: a scan of all pages. -/
def scanAllocPage (s : Pmm) : Except Halt (Pmm × ℕ) :=
  match s.scanFree PMM_MAX_PAGES 0 with
  | some i => .ok ({ s.takePage i with lastFreeHint := i + 1 }, i * PAGE_SIZE)
  | none => .error (.panic "PMM: out of physical memory!")

theorem scanFree_all (s : Pmm) : IsFirst s.Free (s.scanFree PMM_MAX_PAGES 0) := by
  apply (scanFree_first s PMM_MAX_PAGES 0).congr
  intro q
  unfold Free
  simp

/-- The search from the hint and the search below it together cover all pages. -/
theorem pmmAllocPage_cases (hle : s.lastFreeHint ≤ PMM_MAX_PAGES) :
    (s.pmmAllocPage = .error (.panic "PMM: out of physical memory!") ∧ ∀ p, ¬ s.Free p) ∨
      ∃ p, s.Free p ∧ (∀ q < p, s.lastFreeHint ≤ q → ¬ s.Free q) ∧
        s.pmmAllocPage = .ok ({ s.takePage p with lastFreeHint := p + 1 }, p * PAGE_SIZE) := by
  have hhigh := scanFree_first s (PMM_MAX_PAGES - s.lastFreeHint) s.lastFreeHint
  have hlow := scanFree_first s s.lastFreeHint 0
  unfold pmmAllocPage
  cases h1 : s.scanFree (PMM_MAX_PAGES - s.lastFreeHint) s.lastFreeHint with
  | some p =>
      rw [h1] at hhigh
      obtain ⟨⟨hp, hf⟩, hmin⟩ := hhigh
      refine .inr ⟨p, ⟨by omega, hf⟩, fun q hq hle hfree => ?_, rfl⟩
      exact hmin q hq ⟨⟨hle, by omega⟩, hfree.2⟩
  | none =>
      rw [h1] at hhigh
      have hnone : ∀ q, s.lastFreeHint ≤ q → ¬ s.Free q := fun q hle hf => hhigh q ⟨⟨hle, by have := hf.1; omega⟩, hf.2⟩
      cases h2 : s.scanFree s.lastFreeHint 0 with
      | some p =>
          rw [h2] at hlow
          obtain ⟨⟨hp, hf⟩, _⟩ := hlow
          exact .inr ⟨p, ⟨by omega, hf⟩, fun q _ hle => hnone q hle, by simp only⟩
      | none =>
          rw [h2] at hlow
          refine .inl ⟨by simp only, fun q hf => ?_⟩
          by_cases hq : s.lastFreeHint ≤ q
          · exact hnone q hq hf
          · exact hlow q ⟨by omega, hf.2⟩

/-- Below the hint nothing is found that a scan of all pages would not find first. -/
theorem HintLow.allocPage_eq (h : HintLow s) : s.pmmAllocPage = s.scanAllocPage := by
  have hscan := scanFree_all s
  unfold scanAllocPage
  obtain ⟨he, hnone⟩ | ⟨p, hp, hmin, he⟩ := pmmAllocPage_cases h.le
  · have hfirst : IsFirst s.Free none := hnone
    rw [he, hscan.unique hfirst]
  · have hfirst : IsFirst s.Free (some p) := by
      refine ⟨hp, fun q hq hf => ?_⟩
      by_cases hle : s.lastFreeHint ≤ q
      · exact hmin q hq hle hf
      · have hu := h.used q (not_le.mp hle)
        rw [hf.2] at hu
        cases hu
    rw [he, hscan.unique hfirst]

/-! ### What the calls keep -/

/-- Bits are only set, and the hint stays. -/
theorem HintLow.of_set (h : HintLow s) (hhint : s'.lastFreeHint = s.lastFreeHint)
    (hset : ∀ p < PMM_MAX_PAGES, s.bitmapTest p = true → s'.bitmapTest p = true) : HintLow s' := by
  have hle := h.le
  refine ⟨hhint ▸ h.le, fun p hp => ?_⟩
  rw [hhint] at hp
  exact hset p (by omega) (h.used p hp)

theorem HintLow.allocPage (h : HintLow s) (ha : s.pmmAllocPage = .ok (s', phys)) : HintLow s' := by
  obtain ⟨he, _⟩ | ⟨p, hp, hmin, he⟩ := pmmAllocPage_cases h.le
  · rw [he] at ha
    cases ha
  · obtain ⟨rfl, _⟩ := Prod.mk.inj (Except.ok.inj (he.symm.trans ha))
    have hlt := hp.1
    refine ⟨hlt, fun q hq => ?_⟩
    have htest : bitmapTest { s.takePage p with lastFreeHint := p + 1 } q = (decide (q = p) || s.bitmapTest q) :=
      bitmapTest_takePage s p q
    rw [htest, Bool.or_eq_true, decide_eq_true_iff]
    by_cases hqp : q = p
    · exact .inl hqp
    · have hq : q < p + 1 := hq
      right
      by_cases hle : s.lastFreeHint ≤ q
      · have hfree := hmin q (by omega) hle
        unfold Free at hfree
        rw [not_and, Bool.not_eq_false] at hfree
        exact hfree (by omega)
      · exact h.used q (not_le.mp hle)

theorem HintLow.allocPages (h : HintLow s) (ha : s.pmmAllocPages count = .ok (s', phys)) : HintLow s' := by
  unfold pmmAllocPages at ha
  split at ha
  · cases ha
    exact h
  · split at ha
    · exact h.allocPage ha
    · split at ha
      · cases ha
        apply h.of_set (takePages_hint _ _ _)
        exact fun p _ hu => (takePages_test _ _ _ _).mpr (.inr hu)
      · cases ha

/-- A page that is freed lowers the hint. -/
theorem HintLow.freePage (h : HintLow s) (phys : ℕ) : HintLow (s.pmmFreePage phys) := by
  have hle := h.le
  by_cases hb : phys / PAGE_SIZE < PMM_MAX_PAGES
  · cases hu : s.bitmapTest (phys / PAGE_SIZE) with
    | true =>
        obtain ⟨htest, _, hhint⟩ := pmmFreePage_of_used hb hu
        refine ⟨hhint hle, fun q hq => ?_⟩
        have hmin : (s.pmmFreePage phys).lastFreeHint =
            if phys / PAGE_SIZE < s.lastFreeHint then phys / PAGE_SIZE else s.lastFreeHint := by
          unfold pmmFreePage
          rw [if_neg (by omega), if_pos hu]
        have hlt : q < phys / PAGE_SIZE ∧ q < s.lastFreeHint := by
          rw [hmin] at hq
          split at hq <;> omega
        rw [htest, h.used q hlt.2]
        simp [hlt.1.ne]
    | false =>
        unfold pmmFreePage
        rw [if_neg (by omega), if_neg (by simp [hu])]
        exact h
  · unfold pmmFreePage
    rw [if_pos (by omega)]
    exact h

theorem HintLow.freeLoop (h : HintLow s) (phys n i : ℕ) : HintLow (s.freeLoop phys n i) := by
  induction n generalizing s i with
  | zero => exact h
  | succ n ih => exact ih (h.freePage _) (i + 1)

theorem markUsedLoop_hint (n : ℕ) {s : Pmm} {i : ℕ} : (s.markUsedLoop n i).lastFreeHint = s.lastFreeHint := by
  induction n generalizing s i with
  | zero => rfl
  | succ n ih =>
      rw [markUsedLoop]
      split
      · rfl
      · split
        · exact ih
        · rw [ih]
          rfl

theorem HintLow.markUsed (h : HintLow s) (phys size : ℕ) : HintLow (s.pmmMarkUsed phys size) := by
  apply h.of_set (markUsedLoop_hint _)
  intro p hp hu
  rw [← Bool.not_eq_false] at hu ⊢
  exact fun hf => hu ((markUsedLoop_test _ _ _ hp).mp hf).2

/-- The call is not `pmm_mark_free`. -/
def PmmCall.KeepsHint : PmmCall → Prop
  | .markFree _ _ => False
  | _ => True

instance : (call : PmmCall) → Decidable call.KeepsHint
  | .markFree _ _ => inferInstanceAs (Decidable False)
  | .allocPage | .allocPages _ | .freePage _ | .freePages _ _ | .markUsed _ _ => inferInstanceAs (Decidable True)

theorem PmmCallStep.hintLow {call : PmmCall} (hk : call.KeepsHint) (hs : PmmCallStep s call s') (h : HintLow s) :
    HintLow s' := by
  cases hs with
  | allocPage ha => exact h.allocPage ha
  | allocPages ha => exact h.allocPages ha
  | freePage phys => exact h.freePage phys
  | freePages phys count => exact h.freeLoop phys count 0
  | markUsed phys size => exact h.markUsed phys size
  | markFree phys size => exact hk.elim

theorem markFreeLoop_hint (n : ℕ) {s : Pmm} {i : ℕ} : (s.markFreeLoop n i).lastFreeHint = s.lastFreeHint := by
  induction n generalizing s i with
  | zero => rfl
  | succ n ih =>
      rw [markFreeLoop]
      split
      · rfl
      · split
        · rw [ih]
          rfl
        · exact ih

theorem pmmFreePage_hint_le (s : Pmm) (phys : ℕ) : (s.pmmFreePage phys).lastFreeHint ≤ s.lastFreeHint := by
  unfold pmmFreePage
  dsimp only
  split
  · exact le_rfl
  · split
    · dsimp only
      split <;> omega
    · exact le_rfl

theorem freeLoop_hint_le (n : ℕ) {s : Pmm} {i : ℕ} : (s.freeLoop phys n i).lastFreeHint ≤ s.lastFreeHint := by
  induction n generalizing s i with
  | zero => exact le_rfl
  | succ n ih => exact ih.trans (pmmFreePage_hint_le s _)

/-- No call moves the hint behind the last page. -/
theorem PmmCallStep.hint_le {call : PmmCall} (hs : PmmCallStep s call s') (h : s.lastFreeHint ≤ PMM_MAX_PAGES) :
    s'.lastFreeHint ≤ PMM_MAX_PAGES := by
  have hpage : ∀ {s' phys}, s.pmmAllocPage = .ok (s', phys) → s'.lastFreeHint ≤ PMM_MAX_PAGES := by
    intro s' phys ha
    obtain ⟨p, _, hp⟩ := pmmAllocPage_spec h ha
    exact hp.hint h
  cases hs with
  | allocPage ha => exact hpage ha
  | allocPages ha =>
      unfold pmmAllocPages at ha
      split at ha
      · cases ha
        exact h
      · split at ha
        · exact hpage ha
        · split at ha
          · cases ha
            rwa [takePages_hint]
          · cases ha
  | freePage phys => exact (pmmFreePage_hint_le s phys).trans h
  | freePages phys count => exact (freeLoop_hint_le count).trans h
  | markUsed phys size => exact (markUsedLoop_hint _).trans_le h
  | markFree phys size => exact (markFreeLoop_hint _).trans_le h

/-! ### Runs from the start -/

theorem lowLoop_hint (n : ℕ) {s : Pmm} {i : ℕ} : (s.lowLoop n i).lastFreeHint = s.lastFreeHint := by
  induction n generalizing s i with
  | zero => rfl
  | succ n ih =>
      rw [lowLoop]
      split
      · rw [ih]
        split <;> rfl
      · rfl

theorem offerLoop_hint (n : ℕ) {s : Pmm} {i : ℕ} : (s.offerLoop n i).lastFreeHint = s.lastFreeHint := by
  induction n generalizing s i with
  | zero => rfl
  | succ n ih =>
      rw [offerLoop]
      split
      · rw [ih]
        rfl
      · rfl

theorem foldl_applyEntry_hint (es : List MmapEntry) {s : Pmm} : (es.foldl applyEntry s).lastFreeHint = s.lastFreeHint := by
  induction es generalizing s with
  | nil => rfl
  | cons e es ih =>
      rw [List.foldl_cons, ih]
      unfold applyEntry
      dsimp only
      split
      · exact offerLoop_hint _
      · rfl

/-- `pmm_init` leaves the hint alone. -/
theorem pmmInit_hint {fuel info : ℕ} {m : Mem} (h : pmmInit fuel m s info = .ok s') : s'.lastFreeHint = s.lastFreeHint := by
  by_cases h0 : info = 0
  · unfold pmmInit at h
    rw [if_pos h0] at h
    obtain rfl := Except.ok.inj h
    rfl
  · rw [pmmInit_eq h0] at h
    cases hes : mapRead fuel m info with
    | error e =>
        rw [hes] at h
        cases h
    | ok es =>
        rw [hes] at h
        obtain rfl := Except.ok.inj h
        unfold ofEntries pmmMarkUsed
        rw [markUsedLoop_hint, lowLoop_hint, foldl_applyEntry_hint]
        rfl

/-- **The hint never matters.**  In every run of calls with any arguments from `pmm_init`: where
`pmm_mark_free` is not called, no page below the hint is free, and `pmm_alloc_page` does what a scan of all
pages would do, that is, it returns the lowest free page; and in any case it panics if and only if no page is
free. -/
theorem pmm_alloc_page_lowest {fuel info : ℕ} {m : Mem} {s₀ : Pmm} {calls : List PmmCall}
    (h0 : pmmInit fuel m zeroed info = .ok s₀) (hrun : Run PmmCallStep s₀ calls s) :
    ((∀ call ∈ calls, call.KeepsHint) →
      (∀ p < s.lastFreeHint, s.bitmapTest p = true) ∧ s.pmmAllocPage = s.scanAllocPage ∧
        ∀ s' phys, s.pmmAllocPage = .ok (s', phys) → ∃ p, phys = p * PAGE_SIZE ∧ s.Free p ∧ ∀ q < p, ¬ s.Free q) ∧
    (s.pmmAllocPage = .error (.panic "PMM: out of physical memory!") ↔ ∀ p, ¬ s.Free p) := by
  have hstart : s₀.lastFreeHint = 0 := pmmInit_hint h0
  constructor
  · intro hkeep
    have hlow₀ : HintLow s₀ := ⟨hstart ▸ Nat.zero_le _, fun p hp => by omega⟩
    have hlow : HintLow s := (hrun.restrict hkeep).invariant (fun _ _ _ h hs => hs.2.hintLow hs.1 h) hlow₀
    refine ⟨hlow.used, hlow.allocPage_eq, fun s' phys ha => ?_⟩
    have hscan := scanFree_all s
    rw [hlow.allocPage_eq] at ha
    unfold scanAllocPage at ha
    cases hp : s.scanFree PMM_MAX_PAGES 0 with
    | none =>
        rw [hp] at ha
        cases ha
    | some p =>
        rw [hp] at ha hscan
        obtain ⟨_, rfl⟩ := Prod.mk.inj (Except.ok.inj ha)
        exact ⟨p, rfl, hscan⟩
  · have hle : s.lastFreeHint ≤ PMM_MAX_PAGES :=
      hrun.invariant (I := fun s => s.lastFreeHint ≤ PMM_MAX_PAGES) (fun _ _ _ h hs => hs.hint_le h) (by omega)
    obtain ⟨he, hnone⟩ | ⟨p, hp, _, he⟩ := pmmAllocPage_cases hle
    · exact iff_of_true he hnone
    · rw [he]
      apply iff_of_false
      · exact fun h => nomatch h
      · exact fun h => h p hp

/-- A run of pages is allocated and its first page freed, with three pages of memory behind 1 MiB. -/
theorem pmm_alloc_page_lowest_freed : ∃ s₀ s, pmmInit 2 (wordMem 0x10000 (mapBlock [⟨0x100000, 0x3000, 1⟩])) zeroed 0x10000 = .ok s₀ ∧
    Run PmmCallStep s₀ [.allocPages 2, .freePage 0x100000] s ∧ (∀ p < s.lastFreeHint, s.bitmapTest p = true) ∧
      s.pmmAllocPage = s.scanAllocPage := by
  have hsome : (pmmInit 2 (wordMem 0x10000 (mapBlock [⟨0x100000, 0x3000, 1⟩])) zeroed 0x10000).toOption.any
      (fun s => (s.pmmAllocPages 2).toOption.isSome) = true := by decide +kernel
  obtain ⟨s₀, hs₀, hsome⟩ := (Option.any_eq_true _ _).mp hsome
  obtain ⟨⟨s₁, phys⟩, hs₁⟩ := Option.isSome_iff_exists.mp hsome
  have h0 := toOption_eq_some.mp hs₀
  have hrun : Run PmmCallStep s₀ [.allocPages 2, .freePage 0x100000] (s₁.pmmFreePage 0x100000) :=
    .cons (.allocPages (toOption_eq_some.mp hs₁)) (.single (.freePage _))
  obtain ⟨hused, hscan, _⟩ := (pmm_alloc_page_lowest h0 hrun).1 (by decide)
  exact ⟨s₀, _, h0, hrun, hused, hscan⟩

end Pmm
end HeroOS
