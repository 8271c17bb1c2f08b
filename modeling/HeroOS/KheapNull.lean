import HeroOS.KheapWrap

/-! # Requests that `kmalloc` refuses

`heap_expand` takes the pages of an expansion before it compares the new end of the heap with the limit, and
does not give them back.

* `kmalloc_null_iff`: when `kmalloc` returns `NULL`;
* `kmalloc_mono`: it never frees a page;
* `kmalloc_null_unchanged_iff`: a request that is refused leaves heap and pages as they were exactly when it asked
  for no page. -/

namespace HeroOS

open Word

variable {bs : List Block} {s s' s₁ : Heap} {fuel size n ptr : ℕ} {r : ℤ}

/-- The pages that a round without a block that passes asks for. -/
def askedPages (size : ℕ) : ℕ := Heap.expandPages (wadd (needFor size) PAGE_SIZE)

/-- No block passes the test and the heap may not grow, or what it grows by does not serve the request. -/
def Refuses (s : Heap) (bs : List Block) (size : ℕ) : Prop :=
  size = 0 ∨ (∀ b ∈ bs, ¬ b.Passes (needFor size)) ∧
    (s.heapMax < wadd s.heapEnd (wmul (askedPages size) PAGE_SIZE) ∨ alignUp size 16 = 0 ∨
      size ≤ 2 ^ 64 - 64 ∧ ¬ NoWrap size)

/-! ### When `kmalloc` returns `NULL` -/

/-- A block at the end of the list that passes the test. -/
theorem kmalloc_served {c : Block} (hi : HeapInv s (bs ++ [c])) (hc : c.Passes (needFor size)) (h0 : size ≠ 0)
    (h : s.kmalloc fuel size = .ok (s', ptr)) : ptr ≠ 0 := by
  cases fuel with
  | zero => cases h
  | succ fuel =>
      obtain ⟨_, b, _, _, _, hptr, _⟩ | ⟨hno, _⟩ := kmalloc_round hi h0 h
      · omega
      · exact absurd hc (hno c (by simp))

/-- Where no size wraps, an expansion that is not refused serves the request. -/
theorem kmalloc_expanded (hi : HeapInv s bs) (hw : NoWrap size) (h0 : size ≠ 0)
    (hexp : s.heapExpand fuel (wadd (needFor size) PAGE_SIZE) = .ok (s₁, 0))
    (h : s₁.kmalloc n (alignUp size 16) = .ok (s', ptr)) : ptr ≠ 0 := by
  obtain ⟨halign, halign', hneed, hask⟩ := hw.sizes
  unfold NoWrap at hw
  unfold needFor at hexp
  rw [halign, hneed, hask] at hexp
  obtain ⟨p, _, _, _, ⟨hr, _⟩ | ⟨_, _, hi₁, _⟩⟩ := heapExpand_spec hi (by omega) (by omega) hexp
  · cases hr
  · rw [halign] at h
    apply kmalloc_served hi₁ _ (by omega) h
    unfold needFor
    rw [halign', hneed]
    exact ⟨rfl, by dsimp only; omega⟩

/-- The same above `2 ^ 64 - 64`, where the new block passes the test for the wrapped size. -/
theorem kmalloc_expanded_wrapped (hi : HeapInv s bs) (hsize : 2 ^ 64 - 64 < size) (hlt : size < 2 ^ 64)
    (hexp : s.heapExpand fuel (wadd (needFor size) PAGE_SIZE) = .ok (s₁, 0))
    (h : s₁.kmalloc n (alignUp size 16) = .ok (s', ptr)) : ptr = 0 ↔ alignUp size 16 = 0 := by
  have hcases := wrapped_sizes hsize hlt
  have hneed : needFor size ≤ 56 := by omega
  have hask : wadd (needFor size) PAGE_SIZE = needFor size + 4096 := by
    unfold PAGE_SIZE
    exact wadd_of_lt (by omega)
  rw [hask] at hexp
  have htwo : (needFor size + 4096 + 4095) / 4096 = 2 := by omega
  obtain ⟨p, _, _, _, ⟨hr, _⟩ | ⟨_, _, hi₁, _⟩⟩ := heapExpand_spec hi (by omega) (by omega) hexp
  · cases hr
  · rw [htwo] at hi₁
    obtain ⟨hwrap, hptr⟩ | ⟨hnowrap, b, _, hptr⟩ := kmalloc_retry_wrapped hi₁ ⟨rfl, by norm_num⟩ hsize hlt h
    · apply iff_of_true hptr
      omega
    · apply iff_of_false
      · omega
      · omega

/-- **When `kmalloc` returns `NULL`.** -/
theorem kmalloc_null_iff (hi : HeapInv s bs) (hz : ¬ s.obtained.Holds 0) (hlt : size < 2 ^ 64)
    (h : s.kmalloc fuel size = .ok (s', ptr)) : ptr = 0 ↔ Refuses s bs size := by
  cases fuel with
  | zero => cases h
  | succ fuel =>
      by_cases h0 : size = 0
      · exact iff_of_true (kmalloc_zero h0 h).2 (.inl h0)
      · have hround := kmalloc_round hi h0 h
        rw [show wadd (alignUp size 16) OVERHEAD = needFor size from rfl] at hround
        obtain ⟨xs, c, ys, rfl, hc, hptr, _⟩ | ⟨hno, s₁, r, hexp, hrest⟩ := hround
        · apply iff_of_false (by omega)
          rintro (h0' | ⟨hno, _⟩)
          · exact h0 h0'
          · exact hno c (by simp) hc
        · have hrefuses : Refuses s bs size ↔ (s.heapMax < wadd s.heapEnd (wmul (askedPages size) PAGE_SIZE) ∨
              alignUp size 16 = 0 ∨ size ≤ 2 ^ 64 - 64 ∧ ¬ NoWrap size) :=
            (or_iff_right h0).trans (and_iff_right hno)
          rw [hrefuses]
          obtain ⟨rfl, hle⟩ | ⟨rfl, hmax⟩ := heapExpand_limit hexp
          · obtain ⟨_, hnext⟩ | ⟨hr, _⟩ := hrest
            · have hroom : ¬ s.heapMax < wadd s.heapEnd (wmul (askedPages size) PAGE_SIZE) := not_lt.mpr hle
              rw [or_iff_right hroom]
              by_cases hsize : size ≤ 2 ^ 64 - 64
              · by_cases hw : NoWrap size
                · apply iff_of_false (kmalloc_expanded hi hw h0 hexp hnext)
                  rintro (halign | ⟨_, hnw⟩)
                  · rw [hw.sizes.1] at halign
                    omega
                  · exact hnw hw
                · have hptr : ptr = 0 := by
                    unfold NoWrap at hw
                    exact kmalloc_unserved hi hz h0 (alignUp_16 (by omega)) (by omega) (by omega) (by omega) h
                  exact iff_of_true hptr (.inr ⟨hsize, hw⟩)
              · rw [kmalloc_expanded_wrapped hi (not_le.mp hsize) hlt hexp hnext]
                exact (or_iff_left fun hle => hsize hle.1).symm
            · exact absurd rfl hr
          · obtain ⟨hr, _⟩ | ⟨_, _, rfl⟩ := hrest
            · cases hr
            · exact iff_of_true rfl (.inl hmax)

/-! ### Pages are never given back -/

/-- What an expansion asks of the page allocator, and where it succeeds the new end of the heap; the limit stays. -/
theorem heapExpand_fields (h : s.heapExpand fuel n = .ok (s', r)) :
    ∃ phys, s.pmm.pmmAllocPages (Heap.expandPages n) = .ok (s'.pmm, phys) ∧
      (r = 0 → s'.heapEnd = wadd s.heapEnd (wmul (Heap.expandPages n) PAGE_SIZE) ∧ s'.heapMax = s.heapMax) := by
  unfold Heap.heapExpand at h
  simp only [bind_eq_ok] at h
  obtain ⟨⟨pmm, phys⟩, hp, h⟩ := h
  refine ⟨phys, ?_⟩
  dsimp only at h
  split at h
  · obtain ⟨rfl, hr⟩ := Prod.mk.inj (Except.ok.inj h)
    exact ⟨hp, fun h0 => nomatch hr.trans h0⟩
  · obtain ⟨s₂, h₂, h⟩ := bind_eq_ok.mp h
    obtain ⟨rfl, _⟩ := Prod.mk.inj (Except.ok.inj h)
    unfold Heap.appendBlock at h₂
    split at h₂
    · obtain rfl := Except.ok.inj h₂
      exact ⟨hp, fun _ => ⟨rfl, rfl⟩⟩
    · obtain ⟨cur, _, h₂⟩ := bind_eq_ok.mp h₂
      obtain rfl := Except.ok.inj h₂
      exact ⟨hp, fun _ => ⟨rfl, rfl⟩⟩

theorem pmmAllocPages_mono {pmm pmm' : Pmm} {q phys : ℕ} (h : pmm.pmmAllocPages n = .ok (pmm', phys))
    (hq : pmm.bitmapTest q = true) : pmm'.bitmapTest q = true := by
  have hpage : ∀ i hint, Pmm.bitmapTest { pmm.takePage i with lastFreeHint := hint } q = true := by
    intro i hint
    have htest := pmm.bitmapTest_takePage i q
    rw [hq, Bool.or_true] at htest
    exact htest
  unfold Pmm.pmmAllocPages at h
  split at h
  · obtain ⟨rfl, _⟩ := Prod.mk.inj (Except.ok.inj h)
    exact hq
  · split at h
    · unfold Pmm.pmmAllocPage at h
      split at h
      · obtain ⟨rfl, _⟩ := Prod.mk.inj (Except.ok.inj h)
        exact hpage _ _
      · split at h
        · obtain ⟨rfl, _⟩ := Prod.mk.inj (Except.ok.inj h)
          exact hpage _ _
        · cases h
    · split at h
      · obtain ⟨rfl, _⟩ := Prod.mk.inj (Except.ok.inj h)
        exact (Pmm.takePages_test _ _ _ _).mpr (.inr hq)
      · cases h

/-- **`kmalloc` never frees a page.** -/
theorem kmalloc_mono {q : ℕ} (h : s.kmalloc fuel size = .ok (s', ptr)) (hq : s.pmm.bitmapTest q = true) :
    s'.pmm.bitmapTest q = true := by
  induction fuel generalizing s size with
  | zero => cases h
  | succ fuel ih =>
      unfold Heap.kmalloc at h
      split at h
      · obtain ⟨rfl, _⟩ := Prod.mk.inj (Except.ok.inj h)
        exact hq
      · obtain ⟨cur, _, h⟩ := bind_eq_ok.mp h
        dsimp only at h
        split at h
        · obtain ⟨rfl, _⟩ := Prod.mk.inj (Except.ok.inj h)
          exact hq
        · obtain ⟨⟨s₁, r⟩, hexp, h⟩ := bind_eq_ok.mp h
          obtain ⟨phys, hp, _⟩ := heapExpand_fields hexp
          have hq₁ := pmmAllocPages_mono hp hq
          dsimp only at h
          split at h
          · exact ih h hq₁
          · obtain ⟨rfl, _⟩ := Prod.mk.inj (Except.ok.inj h)
            exact hq₁

/-! ### Expansions by no page -/

/-- The sizes for which the expansion is rounded to no page. -/
theorem askedPages_eq_zero (hlt : size < 2 ^ 64) (hk : askedPages size = 0) :
    2 ^ 64 ≤ needFor size + 4096 + 4095 ∧ needFor size + 4096 < 2 ^ 64 ∧ alignUp size 16 + 56 = needFor size ∧
      alignUp (alignUp size 16) 16 = alignUp size 16 := by
  by_cases hbig : 2 ^ 64 - 64 < size
  · have hcases := wrapped_sizes hbig hlt
    have hask : wadd (needFor size) PAGE_SIZE = needFor size + 4096 := by
      unfold PAGE_SIZE
      exact wadd_of_lt (by omega)
    unfold askedPages at hk
    rw [hask, expandPages_eq (by omega)] at hk
    omega
  · have halign : alignUp size 16 = (size + 15) / 16 * 16 := alignUp_16 (by omega)
    have hneed : needFor size = (size + 15) / 16 * 16 + 56 := by
      unfold needFor
      rw [halign]
      exact wadd_of_lt (by unfold OVERHEAD HEADER_SIZE FOOTER_SIZE; omega)
    have halign' : alignUp ((size + 15) / 16 * 16) 16 = (size + 15) / 16 * 16 := by
      rw [alignUp_16 (by omega)]
      omega
    rw [halign, hneed]
    unfold askedPages at hk
    rw [hneed] at hk
    unfold wadd PAGE_SIZE at hk
    by_cases hw : ((size + 15) / 16 * 16 + 56 + 4096) % 2 ^ 64 + 4095 < 2 ^ 64
    · rw [expandPages_eq hw] at hk
      omega
    · refine ⟨by omega, by omega, rfl, halign'⟩

/-- Where an expansion by no page is not refused, the call never returns. -/
theorem kmalloc_no_pages (hi : HeapInv s bs) (hz : ¬ s.obtained.Holds 0) (h0 : size ≠ 0) (hlt : size < 2 ^ 64)
    (hk : askedPages size = 0) (hend : wadd s.heapEnd 0 ≤ s.heapMax) : s.kmalloc fuel size ≠ .ok (s', ptr) := by
  induction fuel generalizing s size with
  | zero => exact fun h => nomatch h
  | succ fuel ih =>
      intro h
      obtain ⟨hlarge, hfits, hneed, halign⟩ := askedPages_eq_zero hlt hk
      have hask : wadd (needFor size) PAGE_SIZE = needFor size + 4096 := wadd_of_lt hfits
      have hround := kmalloc_round hi h0 h
      rw [show wadd (alignUp size 16) OVERHEAD = needFor size from rfl] at hround
      obtain ⟨xs, c, ys, rfl, hc, _⟩ | ⟨_, s₁, r, hexp, hrest⟩ := hround
      · exact hi.not_passes (by omega) c (by simp) hc
      · have hlimit := heapExpand_limit hexp
        have hsame : Heap.expandPages (wadd (needFor size) PAGE_SIZE) = 0 := hk
        rw [hsame, show wmul 0 PAGE_SIZE = 0 from rfl] at hlimit
        obtain ⟨rfl, _⟩ | ⟨_, hmax⟩ := hlimit
        · obtain ⟨_, hnext⟩ | ⟨hr, _⟩ := hrest
          · obtain ⟨_, _, hend⟩ := heapExpand_fields hexp
            obtain ⟨hend₁, hmax₁⟩ := hend rfl
            rw [hask] at hexp
            obtain ⟨hi₁, hz₁⟩ := heapExpand_none hi hz hfits (by omega) hexp
            have hneed' : needFor (alignUp size 16) = needFor size := by
              unfold needFor
              rw [halign]
            have hk' : askedPages (alignUp size 16) = 0 := by
              unfold askedPages
              rw [hneed']
              exact hk
            have hend' : wadd s₁.heapEnd 0 ≤ s₁.heapMax := by
              rw [hend₁, hmax₁, hsame]
              unfold wadd wmul at *
              omega
            exact ih hi₁ hz₁ (by omega) (by omega) hk' hend' hnext
          · exact absurd rfl hr
        · omega

/-! ### What a refused request costs -/

/-- Memory, the list of blocks, the end of the heap and the page allocator are as before. -/
structure Unchanged (s s' : Heap) : Prop where
  mem : s'.mem = s.mem
  heapHead : s'.heapHead = s.heapHead
  heapEnd : s'.heapEnd = s.heapEnd
  pmm : s'.pmm = s.pmm

/-- An expansion by no page that is refused. -/
theorem heapExpand_no_pages (hk : Heap.expandPages n = 0) (h : s.heapExpand fuel n = .ok (s', r)) (hr : r ≠ 0) :
    Unchanged s s' := by
  unfold Heap.heapExpand at h
  rw [hk] at h
  simp only [Pmm.pmmAllocPages, if_pos, bind_eq_ok, Except.ok.injEq, exists_eq_left'] at h
  split at h
  · obtain ⟨rfl, _⟩ := Prod.mk.inj (Except.ok.inj h)
    exact ⟨rfl, rfl, rfl, rfl⟩
  · obtain ⟨_, _, h⟩ := bind_eq_ok.mp h
    exact absurd (Prod.mk.inj (Except.ok.inj h)).2.symm hr

/-- A request that is not met at once has taken the pages that it asked for. -/
theorem kmalloc_takes (hi : HeapInv s bs) (hk : askedPages size ≠ 0)
    (hexp : s.heapExpand fuel (wadd (needFor size) PAGE_SIZE) = .ok (s₁, r)) :
    ∃ p, s.pmm.bitmapTest p = false ∧ s₁.pmm.bitmapTest p = true := by
  obtain ⟨phys, hp, _⟩ := heapExpand_fields hexp
  obtain ⟨p, _, ha⟩ := Pmm.pmmAllocPages_spec (Nat.one_le_iff_ne_zero.mpr hk) hi.hint hi.count hp
  have hin : p ∈ Set.Ico p (p + askedPages size) := ⟨le_rfl, by omega⟩
  exact ⟨p, ha.wasFree p hin, (ha.test_iff p).mpr (.inl hin)⟩

/-- **What a refused request costs.**  In every well-formed heap and for every size, if the call returns: that
a result of `NULL` leaves the heap, its end and the page allocator as they were holds if and only if the
request is not refused, or it is one for 0 bytes, or what it asks for is rounded to no page. -/
theorem kmalloc_null_unchanged_iff (hi : HeapInv s bs) (hz : ¬ s.obtained.Holds 0) (hlt : size < 2 ^ 64)
    (h : s.kmalloc fuel size = .ok (s', ptr)) :
    (ptr = 0 → Unchanged s s') ↔ ¬ Refuses s bs size ∨ size = 0 ∨ askedPages size = 0 := by
  rw [← kmalloc_null_iff hi hz hlt h]
  cases fuel with
  | zero => cases h
  | succ fuel =>
      by_cases h0 : size = 0
      · obtain ⟨rfl, _⟩ := kmalloc_zero h0 h
        exact iff_of_true (fun _ => ⟨rfl, rfl, rfl, rfl⟩) (.inr (.inl h0))
      · rw [or_iff_right h0]
        by_cases hptr : ptr = 0
        · simp only [hptr, not_true_eq_false, false_or, true_imp_iff]
          have hround := kmalloc_round hi h0 h
          rw [show wadd (alignUp size 16) OVERHEAD = needFor size from rfl] at hround
          obtain ⟨_, c, _, _, _, hc, _⟩ | ⟨_, s₁, r, hexp, hrest⟩ := hround
          · omega
          · constructor
            · intro hsame
              by_contra hk
              obtain ⟨p, hfree, hused⟩ := kmalloc_takes hi hk hexp
              have hkept : s'.pmm.bitmapTest p = true := by
                obtain ⟨_, hnext⟩ | ⟨_, rfl, _⟩ := hrest
                · exact kmalloc_mono hnext hused
                · exact hused
              rw [hsame.pmm, hfree] at hkept
              cases hkept
            · intro hk
              obtain ⟨rfl, hnext⟩ | ⟨hr, rfl, _⟩ := hrest
              · have hle : wadd s.heapEnd 0 ≤ s.heapMax := by
                  obtain ⟨_, hle⟩ | ⟨hr, _⟩ := heapExpand_limit hexp
                  · have hsame : Heap.expandPages (wadd (needFor size) PAGE_SIZE) = 0 := hk
                    rwa [hsame] at hle
                  · cases hr
                exact absurd h (kmalloc_no_pages hi hz h0 hlt hk hle)
              · exact heapExpand_no_pages hk hexp hr
        · exact iff_of_true (fun h => absurd h hptr) (.inl hptr)

theorem kmalloc_null_unchanged_thousand : ∃ s bs s' ptr, HeapInv s bs ∧ s.kmalloc 4 1000 = .ok (s', ptr) ∧
    (ptr = 0 → Unchanged s s') := by
  obtain ⟨s, bs, s', ptr, hi, hz, hm, hptr⟩ := @firstMalloc_spec 1000 (fun _ ptr => ptr = 4194344) _ (by decide +kernel)
  have hserved : ¬ Refuses s bs 1000 := by
    rw [← kmalloc_null_iff hi hz (by norm_num) hm]
    omega
  exact ⟨s, bs, s', ptr, hi, hm, (kmalloc_null_unchanged_iff hi hz (by norm_num) hm).mpr (.inl hserved)⟩

/-- A heap of 64 KiB that may not grow, and `kmalloc` on it. -/
def fullMalloc (size : ℕ) : Except Halt (Heap × Heap × ℕ) := do
  let s ← freshHeap.kheapInit 4 0x02000000 (64 * 1024)
  let (s', ptr) ← s.kmalloc 4 size
  .ok (s, s', ptr)

/-- A request for 64 KiB is refused and has cost 18 pages. -/
theorem kmalloc_refused_leaks : ∃ s bs s' ptr, HeapInv s bs ∧ s.kmalloc 4 65536 = .ok (s', ptr) ∧ ptr = 0 ∧
    s.pmm.freePhysPages = 15344 ∧ s'.pmm.freePhysPages = 15326 ∧ ¬ (ptr = 0 → Unchanged s s') := by
  have hany : (fullMalloc 65536).toOption.any (fun r => decide (r.2.2 = 0 ∧ r.1.pmm.freePhysPages = 15344 ∧
      r.2.1.pmm.freePhysPages = 15326)) = true := by decide +kernel
  obtain ⟨⟨s, s', ptr⟩, hr, hP⟩ := (Option.any_eq_true _ _).mp hany
  obtain ⟨s, hs, hr⟩ := bind_eq_ok.mp (toOption_eq_some.mp hr)
  obtain ⟨⟨_, _⟩, hm, hr⟩ := bind_eq_ok.mp hr
  cases hr
  obtain ⟨bs, hi, _⟩ := freshHeap_inv hs
  obtain ⟨rfl, hbefore, hafter⟩ := of_decide_eq_true hP
  dsimp only at hbefore hafter
  refine ⟨s, bs, s', 0, hi, hm, rfl, hbefore, hafter, fun h => ?_⟩
  have hsame := (h rfl).pmm
  rw [hsame, hbefore] at hafter
  omega

end HeroOS
