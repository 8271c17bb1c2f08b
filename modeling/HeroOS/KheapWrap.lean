import HeroOS.KheapRuns

/-! # Requests near `2 ^ 64`

`kmalloc` computes the size rounded up to 16, the overhead, the spare page of an expansion and the whole
pages of it, each modulo `2 ^ 64`.  Up to `2 ^ 64 - 64` bytes the first two do not wrap: no block passes
the test, and where the expansion wraps the call ends with `NULL` or not at all
(`kmalloc_unserved`).  Above, the test asks for 8, 24, 40 or 56 bytes only.

* `kmalloc_sound`: up to `2 ^ 64 - 64` bytes a pointer that is returned heads a block of at least
  `size` bytes;
* `kmalloc_payload_iff`: above, this holds exactly when no pointer is returned: no free block passes the
  test, and the heap may not grow or the size has wrapped to 0. -/

namespace HeroOS

open Word LinkedList Mem

variable {m : Mem} {bs xs ys : List Block} {s s' : Heap} {fuel size n ptr : ℕ} {r : ℤ}

/-- The free payload that `kmalloc` looks for: size and overhead as it computes them. -/
def needFor (size : ℕ) : ℕ := wadd (alignUp size 16) OVERHEAD

/-- A pointer that is returned heads a used block of at least `size` bytes inside the pages of the heap,
all blocks of which are in order, and no size was wrapped. -/
def PayloadHolds (size : ℕ) (s : Heap) (ptr : ℕ) : Prop :=
  ptr ≠ 0 → NoWrap size ∧ ∃ bs, HeapInv s bs ∧ ∃ b ∈ bs, b.free = false ∧ ptr = b.addr + 40 ∧ size ≤ b.size ∧
    ∀ x ∈ b.payload, s.obtained.Holds (x / PAGE_SIZE)

/-- The request cannot be met by a wrapped size. -/
def WrapHarmless (s : Heap) (bs : List Block) (size : ℕ) : Prop :=
  size ≤ 2 ^ 64 - 64 ∨ (∀ b ∈ bs, ¬ b.Passes (needFor size)) ∧
    (2 ^ 64 - 16 < size ∨ s.heapMax < wadd s.heapEnd (2 * PAGE_SIZE))

/-- All blocks are in the first 4 GiB. -/
theorem HeapInv.stop_le {b : Block} (hi : HeapInv s bs) (hb : b ∈ bs) : b.stop ≤ 2 ^ 32 := by
  have hlast : b.stop - 1 ∈ b.extent := by
    unfold Block.extent Block.stop
    rw [Set.mem_Ico]
    omega
  have hpage := (hi.used _ (hi.owned b hb _ hlast)).1
  unfold PAGE_SIZE PMM_MAX_PAGES at hpage
  omega

theorem HeapInv.size_lt {b : Block} (hi : HeapInv s bs) (hb : b ∈ bs) : b.size < 2 ^ 32 := by
  have h := hi.stop_le hb
  unfold Block.stop at h
  omega

theorem PayloadHolds.size_lt (h : PayloadHolds size s ptr) (hp : ptr ≠ 0) : size < 2 ^ 32 := by
  obtain ⟨_, bs, hi, b, hb, _, _, hle, _⟩ := h hp
  exact hle.trans_lt (hi.size_lt hb)

theorem payloadHolds_null : PayloadHolds size s 0 := fun h => absurd rfl h

/-! ### Expansions -/

/-- An expansion is refused exactly when it would pass the limit. -/
theorem heapExpand_limit (h : s.heapExpand fuel n = .ok (s', r)) :
    (r = 0 ∧ wadd s.heapEnd (wmul (Heap.expandPages n) PAGE_SIZE) ≤ s.heapMax) ∨
      (r = -1 ∧ s.heapMax < wadd s.heapEnd (wmul (Heap.expandPages n) PAGE_SIZE)) := by
  unfold Heap.heapExpand at h
  simp only [bind_eq_ok] at h
  obtain ⟨⟨pmm, phys⟩, _, h⟩ := h
  dsimp only at h
  split at h
  · rename_i hmax
    obtain ⟨_, rfl⟩ := Prod.mk.inj (Except.ok.inj h)
    exact .inr ⟨rfl, hmax⟩
  · rename_i hmax
    obtain ⟨s₂, _, h⟩ := bind_eq_ok.mp h
    obtain ⟨_, rfl⟩ := Prod.mk.inj (Except.ok.inj h)
    exact .inl ⟨rfl, not_lt.mp hmax⟩

/-- A request for bytes that wraps when rounded to pages is one for no page. -/
theorem expandPages_wrap (hn : n < 2 ^ 64) (h : 2 ^ 64 ≤ n + 4095) : Heap.expandPages n = 0 := by
  have halign : alignUp n PAGE_SIZE = 0 := alignUp_two_pow_wrap (k := 12) (by norm_num) hn h
  unfold Heap.expandPages
  rw [halign]
  rfl

/-- What an expansion by no page writes: a header at address 0, with a footer at the end of the address
space. -/
def noPageMem (m : Mem) : Mem := ((m.writeBlock 0 (wsub (wmul 0 PAGE_SIZE) OVERHEAD) true).setPrev 0 0).setNext 0 0

theorem noPageMem_of_outside {x : ℕ} (h1 : 40 ≤ x) (h2 : x < 2 ^ 32) : noPageMem m x = m x := by
  have hsize : wsub (wmul 0 PAGE_SIZE) OVERHEAD = 2 ^ 64 - 56 := rfl
  unfold noPageMem
  rw [hsize, setNext, write64_of_outside (by omega), setPrev, write64_of_outside (by omega)]
  exact writeBlock_of_outside (by omega) (by omega) (by omega)

/-- Bytes of the blocks of a heap without page 0. -/
theorem HeapInv.tags_range {b : Block} {x : ℕ} (hi : HeapInv s bs) (hz : ¬ s.obtained.Holds 0) (hb : b ∈ bs)
    (hx : x ∈ b.tags) : 4096 ≤ x ∧ x < 2 ^ 32 := by
  have hle := hi.stop_le hb
  have hext : x ∈ b.extent := by
    unfold Block.tags Block.extent Block.footer Block.stop at *
    simp only [Set.mem_union, Set.mem_Ico] at *
    omega
  refine ⟨?_, lt_of_lt_of_le hext.2 hle⟩
  by_contra hlt
  have hpage := hi.owned b hb x hext
  rw [show x / PAGE_SIZE = 0 from Nat.div_eq_of_lt (not_le.mp hlt)] at hpage
  exact hz hpage

/-- Appending the block at `NULL` leaves the list as it is. -/
theorem appendBlock_null {t t' : Heap} (hl : HeapList t.mem t.heapHead bs) (h : t.appendBlock fuel 0 = .ok t') :
    ∃ m, t' = { t with mem := m } ∧ ∀ x, 40 ≤ x → m x = t.mem x := by
  unfold Heap.appendBlock at h
  split at h
  · rename_i hhead
    obtain rfl := Except.ok.inj h
    refine ⟨t.mem, ?_, fun _ _ => rfl⟩
    rw [← hhead]
  · rename_i hhead
    obtain ⟨cur, hcur, h⟩ := bind_eq_ok.mp h
    obtain rfl := Except.ok.inj h
    refine ⟨_, rfl, fun x hx => ?_⟩
    rcases List.eq_nil_or_concat bs with rfl | ⟨ls, l, rfl⟩
    · exact absurd hl.head_eq hhead
    · rw [List.concat_eq_append] at hl
      obtain rfl := hl.lastBlock_head hcur
      have hnext : t.mem.read64 (l.addr + 32) = 0 := hl.links_at.2
      have hkeep : t.mem.setNext l.addr 0 = t.mem := by
        unfold setNext write64
        rw [← hnext]
        exact writeLE_readLE t.mem (l.addr + 32) 8
      rw [hkeep, setPrev]
      exact write64_of_outside (by omega)

/-- The list does not change where an expansion by no page writes. -/
theorem heapExpand_none (hi : HeapInv s bs) (hz : ¬ s.obtained.Holds 0) (hn : n < 2 ^ 64) (hw : 2 ^ 64 ≤ n + 4095)
    (h : s.heapExpand fuel n = .ok (s', r)) : HeapInv s' bs ∧ ¬ s'.obtained.Holds 0 := by
  have hob : ∀ q, Ledger.Holds (Finset.Ico (0 / PAGE_SIZE) (0 / PAGE_SIZE + 0) :: s.obtained) q ↔ s.obtained.Holds q := by
    simp
  have hlist : ∀ m, (∀ x, 4096 ≤ x → x < 2 ^ 32 → m x = s.mem x) → HeapList m s.heapHead bs := fun m hm =>
    hi.list.congr fun b hb x hx => hm x (hi.tags_range hz hb hx).1 (hi.tags_range hz hb hx).2
  have hinv : ∀ m e, HeapList m s.heapHead bs → HeapInv { s with
      mem := m, heapEnd := e, obtained := Finset.Ico (0 / PAGE_SIZE) (0 / PAGE_SIZE + 0) :: s.obtained } bs := by
    intro m e hl
    refine ⟨hl, fun b hb x hx => (hob _).mpr (hi.owned b hb x hx), fun q hq => hi.used q ((hob q).mp hq), hi.hint, hi.count,
      hi.pageZero⟩
  unfold Heap.heapExpand at h
  rw [expandPages_wrap hn hw] at h
  simp only [Pmm.pmmAllocPages, if_pos, bind_eq_ok, Except.ok.injEq, exists_eq_left'] at h
  split at h
  · obtain ⟨rfl, _⟩ := Prod.mk.inj (Except.ok.inj h)
    exact ⟨hinv s.mem s.heapEnd hi.list, fun h0 => hz ((hob 0).mp h0)⟩
  · obtain ⟨t, ht, h⟩ := bind_eq_ok.mp h
    obtain ⟨rfl, _⟩ := Prod.mk.inj (Except.ok.inj h)
    have hmem : ∀ x, 4096 ≤ x → x < 2 ^ 32 → noPageMem s.mem x = s.mem x :=
      fun x h1 h2 => noPageMem_of_outside (by omega) h2
    obtain ⟨m, rfl, hm⟩ := appendBlock_null (hlist (noPageMem s.mem) hmem) ht
    refine ⟨hinv m _ (hlist m fun x h1 h2 => ?_), fun h0 => hz ((hob 0).mp h0)⟩
    exact (hm x (by omega)).trans (hmem x h1 h2)

/-! ### Sizes up to `2 ^ 64 - 64` -/

/-- A block of the size asked for would not fit into memory. -/
theorem HeapInv.not_passes {need : ℕ} (hi : HeapInv s bs) (hneed : 2 ^ 32 ≤ need) : ∀ b ∈ bs, ¬ b.Passes need := by
  intro b hb hp
  have hlt := hi.size_lt hb
  have hle := hp.2
  omega

/-- **Where the expansion wraps**, `kmalloc` returns nothing but `NULL`: a small or empty expansion does not
serve the request, and the next round asks for the same. -/
theorem kmalloc_unserved (hi : HeapInv s bs) (hz : ¬ s.obtained.Holds 0) (h0 : size ≠ 0) (halign : alignUp size 16 = n)
    (hn : n + 64 ≤ 2 ^ 64) (hdiv : n % 16 = 0) (hw : 2 ^ 64 ≤ n + 56 + 4096 + 4095)
    (h : s.kmalloc fuel size = .ok (s', ptr)) : ptr = 0 := by
  induction fuel generalizing s bs size with
  | zero => cases h
  | succ fuel ih =>
      have hneed : wadd n OVERHEAD = n + 56 := wadd_of_lt (by unfold OVERHEAD HEADER_SIZE FOOTER_SIZE; omega)
      have halign' : alignUp n 16 = n := by
        rw [alignUp_16 (by omega)]
        omega
      obtain h := kmalloc_round hi h0 h
      rw [halign, hneed] at h
      obtain ⟨xs, c, ys, rfl, hc, _⟩ | ⟨_, s₁, r, hexp, h⟩ := h
      · exact absurd hc (hi.not_passes (by omega) c (by simp))
      · have hnext : ∃ bs₁, HeapInv s₁ bs₁ ∧ ¬ s₁.obtained.Holds 0 := by
          by_cases hsum : n + 56 + 4096 < 2 ^ 64
          · rw [show wadd (n + 56) PAGE_SIZE = n + 56 + 4096 from wadd_of_lt hsum] at hexp
            exact ⟨bs, heapExpand_none hi hz hsum hw hexp⟩
          · have hask : wadd (n + 56) PAGE_SIZE = n + 56 + 4096 - 2 ^ 64 := by
              unfold wadd PAGE_SIZE
              omega
            rw [hask] at hexp
            obtain ⟨p, hp, _, hob, hcase⟩ := heapExpand_spec hi (by omega) (by omega) hexp
            have hz₁ : ¬ s₁.obtained.Holds 0 := by
              rw [hob, Ledger.holds_cons, Finset.mem_Ico]
              rintro (⟨hle, _⟩ | h)
              · exact hp (Nat.le_zero.mp hle)
              · exact hz h
            obtain ⟨_, _, _, _, hi₁⟩ | ⟨_, _, hi₁, _⟩ := hcase
            · exact ⟨_, hi₁, hz₁⟩
            · exact ⟨_, hi₁, hz₁⟩
        obtain ⟨_, h⟩ | ⟨_, _, hptr⟩ := h
        · obtain ⟨bs₁, hi₁, hz₁⟩ := hnext
          exact ih hi₁ hz₁ (by omega) halign' h
        · exact hptr

/-- A call that no size wraps. -/
theorem Mallocs.payloadHolds (hw : NoWrap size) (h : Mallocs s bs size s' ptr) : PayloadHolds size s' ptr := by
  intro hp
  obtain ⟨s₁, bs₁, hg, ⟨hptr, _⟩ | ⟨xs, c, ys, n, hle, rfl, hc, hptr, rfl⟩⟩ := h
  · exact absurd hptr hp
  · obtain ⟨b, hb, hfree, haddr, hsize⟩ := carve_head hc.2
    have hi := hg.inv.takeBlock hc
    have hmem : b ∈ xs ++ (c.carve n ++ ys) := by simp [hb]
    refine ⟨hw, _, hi, b, hmem, hfree, by rw [hptr, haddr], hle.trans hsize, fun x hx => ?_⟩
    apply hi.owned b hmem
    unfold Block.payload Block.extent Block.stop at *
    rw [Set.mem_Ico] at *
    omega

/-- **Up to `2 ^ 64 - 64` bytes.** -/
theorem kmalloc_sound (hi : HeapInv s bs) (hz : ¬ s.obtained.Holds 0) (h0 : size ≠ 0) (hsize : size ≤ 2 ^ 64 - 64)
    (h : s.kmalloc fuel size = .ok (s', ptr)) : PayloadHolds size s' ptr := by
  by_cases hw : NoWrap size
  · exact (kmalloc_spec hi hw h).payloadHolds hw
  · unfold NoWrap at hw
    rw [kmalloc_unserved hi hz h0 (alignUp_16 (by omega)) (by omega) (by omega) (by omega) h]
    exact payloadHolds_null

/-- The same for `krealloc`: no block of `2 ^ 32` bytes or more. -/
theorem krealloc_lt {p : ℕ} (hi : HeapInv s bs) (hz : ¬ s.obtained.Holds 0) (hptr : ptr = 0 ∨ ∃ b ∈ bs, ptr = b.addr + 40)
    (hn : n ≤ 2 ^ 64 - 64) (h : s.krealloc fuel ptr n = .ok (s', p)) (hp : p ≠ 0) : n < 2 ^ 32 := by
  have hmalloc : ∀ {s₁}, s.kmalloc fuel n = .ok (s₁, p) → n < 2 ^ 32 := by
    intro s₁ hm
    by_cases h0 : n = 0
    · rw [h0]
      norm_num
    · exact (kmalloc_sound hi hz h0 hn hm).size_lt hp
  unfold Heap.krealloc at h
  split at h
  · exact hmalloc h
  · rename_i hne
    obtain ⟨b, hb, rfl⟩ := hptr.resolve_left hne
    split at h
    · obtain ⟨_, rfl⟩ := Prod.mk.inj (Except.ok.inj h)
      exact absurd rfl hp
    · have hback : wsub (b.addr + 40) HEADER_SIZE = b.addr := by
        have hstop := hi.stop_le hb
        unfold Block.stop at hstop
        exact wsub_of_le (by omega) (Nat.le_add_left _ _)
      dsimp only at h
      rw [hback, (hi.list.blocks b hb).size] at h
      split at h
      · rename_i hfits
        exact lt_of_le_of_lt hfits (hi.size_lt hb)
      · obtain ⟨⟨s₁, p₁⟩, hm, h⟩ := bind_eq_ok.mp h
        dsimp only at h
        split at h
        · obtain ⟨_, rfl⟩ := Prod.mk.inj (Except.ok.inj h)
          exact absurd rfl hp
        · obtain ⟨_, rfl⟩ := Prod.mk.inj (Except.ok.inj h)
          exact hmalloc hm

/-! ### Larger sizes -/

/-- The sizes that a round computes from a size above `2 ^ 64 - 64`. -/
theorem wrapped_sizes (hsize : 2 ^ 64 - 64 < size) (hlt : size < 2 ^ 64) :
    (2 ^ 64 - 16 < size ∧ alignUp size 16 = 0 ∧ needFor size = 56) ∨
      (size ≤ 2 ^ 64 - 16 ∧ alignUp size 16 ≠ 0 ∧ alignUp (alignUp size 16) 16 = alignUp size 16 ∧
        8 ≤ needFor size ∧ needFor size ≤ 40) := by
  unfold needFor
  by_cases hwrap : 2 ^ 64 - 16 < size
  · have halign : alignUp size 16 = 0 := alignUp_two_pow_wrap (k := 4) (by norm_num) hlt (by omega)
    rw [halign]
    exact .inl ⟨hwrap, rfl, rfl⟩
  · have halign : alignUp size 16 = (size + 15) / 16 * 16 := alignUp_16 (by omega)
    have halign' : alignUp ((size + 15) / 16 * 16) 16 = (size + 15) / 16 * 16 := by
      rw [alignUp_16 (by omega)]
      omega
    rw [halign]
    have hneed : wadd ((size + 15) / 16 * 16) OVERHEAD = (size + 15) / 16 * 16 + 56 - 2 ^ 64 := by
      unfold wadd OVERHEAD HEADER_SIZE FOOTER_SIZE
      omega
    rw [hneed]
    exact .inr ⟨by omega, by omega, halign', by omega, by omega⟩

/-- A pointer that is returned there heads no payload of that size. -/
theorem not_payloadHolds {c : Block} (hsize : 2 ^ 64 - 64 < size) (hptr : ptr = c.addr + 40) :
    ¬ PayloadHolds size s ptr := by
  intro h
  have := h.size_lt (by omega)
  omega

/-- The round after an expansion: with the size wrapped to 0 it returns `NULL`, else the new block passes the
test. -/
theorem kmalloc_retry_wrapped {c : Block} (hi : HeapInv s (xs ++ [c])) (hc : c.Passes 56) (hsize : 2 ^ 64 - 64 < size)
    (hlt : size < 2 ^ 64) (h : s.kmalloc fuel (alignUp size 16) = .ok (s', ptr)) :
    2 ^ 64 - 16 < size ∧ ptr = 0 ∨ size ≤ 2 ^ 64 - 16 ∧ ∃ b ∈ xs ++ [c], ptr = b.addr + 40 := by
  cases fuel with
  | zero => cases h
  | succ fuel =>
      obtain ⟨hwrap, hzero, _⟩ | ⟨hnowrap, hne, halign, _, hle⟩ := wrapped_sizes hsize hlt
      · exact .inl ⟨hwrap, (kmalloc_zero hzero h).2⟩
      · obtain h := kmalloc_round hi hne h
        rw [halign, show wadd (alignUp size 16) OVERHEAD = needFor size from rfl] at h
        obtain ⟨_, b, _, hbs, _, hptr, _⟩ | ⟨hno, _⟩ := h
        · exact .inr ⟨hnowrap, b, by rw [hbs]; simp, hptr⟩
        · exact absurd ⟨hc.1, by have := hc.2; omega⟩ (hno c (by simp))

/-- **When `kmalloc` keeps its promise.**  In every well-formed heap and for every size, if the call
returns: a pointer other than `NULL` heads a used block of at least `size` bytes in a well-formed heap, with
no size wrapped, if and only if the size is at most `2 ^ 64 - 64`, or no free block passes the test for the
wrapped size and the heap may not grow by two pages or the rounded size has wrapped to 0. -/
theorem kmalloc_payload_iff (hi : HeapInv s bs) (hz : ¬ s.obtained.Holds 0) (h0 : size ≠ 0) (hlt : size < 2 ^ 64)
    (h : s.kmalloc fuel size = .ok (s', ptr)) : PayloadHolds size s' ptr ↔ WrapHarmless s bs size := by
  by_cases hsize : size ≤ 2 ^ 64 - 64
  · exact iff_of_true (kmalloc_sound hi hz h0 hsize h) (.inl hsize)
  · have hbig := not_le.mp hsize
    cases fuel with
    | zero => cases h
    | succ fuel =>
        have hneed : 8 ≤ needFor size ∧ needFor size ≤ 56 := by
          have := wrapped_sizes hbig hlt
          omega
        have hask : wadd (needFor size) PAGE_SIZE = needFor size + 4096 := by
          unfold PAGE_SIZE
          exact wadd_of_lt (by omega)
        have htwo : (needFor size + 4096 + 4095) / 4096 = 2 := by omega
        obtain h := kmalloc_round hi h0 h
        rw [show wadd (alignUp size 16) OVERHEAD = needFor size from rfl] at h
        obtain ⟨xs, c, ys, rfl, hc, hptr, _⟩ | ⟨hno, s₁, r, hexp, h⟩ := h
        · apply iff_of_false (not_payloadHolds hbig hptr)
          rintro (hle | ⟨hno, _⟩)
          · exact hsize hle
          · exact hno c (by simp) hc
        · rw [hask] at hexp
          have hlimit := heapExpand_limit hexp
          rw [expandPages_eq (by omega), htwo, show wmul 2 PAGE_SIZE = 2 * PAGE_SIZE from rfl] at hlimit
          obtain ⟨p, _, _, _, hcase⟩ := heapExpand_spec hi (by omega) (by omega) hexp
          rw [htwo] at hcase
          obtain ⟨rfl, hle⟩ | ⟨rfl, hmax⟩ := hlimit
          · obtain ⟨_, h⟩ | ⟨hr, _⟩ := h
            · obtain ⟨hr, _⟩ | ⟨_, _, hi₁, _⟩ := hcase
              · cases hr
              · obtain ⟨hwrap, rfl⟩ | ⟨hnowrap, b, _, hptr⟩ := kmalloc_retry_wrapped hi₁ ⟨rfl, by norm_num⟩ hbig hlt h
                · exact iff_of_true payloadHolds_null (.inr ⟨hno, .inl hwrap⟩)
                · apply iff_of_false (not_payloadHolds hbig hptr)
                  rintro (hle | ⟨_, hwrap | hmax⟩)
                  · exact hsize hle
                  · omega
                  · exact absurd hle (not_le.mpr hmax)
            · exact absurd rfl hr
          · obtain ⟨hr, _⟩ | ⟨_, _, rfl⟩ := h
            · cases hr
            · exact iff_of_true payloadHolds_null (.inr ⟨hno, .inr hmax⟩)

/-- The heap after `kheap_init`, and `kmalloc` on it. -/
def firstMalloc (size : ℕ) : Except Halt (Heap × ℕ) := do
  let s ← freshHeap.kheapInit 4 0x02000000 (64 * 1024 * 1024)
  s.kmalloc 4 size

theorem firstMalloc_spec {P : Heap → ℕ → Prop} [∀ s ptr, Decidable (P s ptr)]
    (h : (firstMalloc size).toOption.any (fun r => decide (P r.1 r.2)) = true) : ∃ s bs s' ptr, HeapInv s bs ∧
      ¬ s.obtained.Holds 0 ∧ s.kmalloc 4 size = .ok (s', ptr) ∧ P s' ptr := by
  obtain ⟨⟨s', ptr⟩, hr, hP⟩ := (Option.any_eq_true _ _).mp h
  obtain ⟨s, hs, hm⟩ := bind_eq_ok.mp (toOption_eq_some.mp hr)
  obtain ⟨bs, hi, hz⟩ := freshHeap_inv hs
  exact ⟨s, bs, s', ptr, hi, hz, hm, of_decide_eq_true hP⟩

/-- A thousand bytes. -/
theorem kmalloc_payload_thousand : ∃ s bs s' ptr, HeapInv s bs ∧ s.kmalloc 4 1000 = .ok (s', ptr) ∧ ptr = 4194344 ∧
    PayloadHolds 1000 s' ptr := by
  obtain ⟨s, bs, s', ptr, hi, hz, hm, hptr⟩ := @firstMalloc_spec 1000 (fun _ ptr => ptr = 4194344) _ (by decide +kernel)
  exact ⟨s, bs, s', ptr, hi, hm, hptr, (kmalloc_payload_iff hi hz (by norm_num) (by norm_num) hm).mpr (.inl (by norm_num))⟩

/-- A request for all but 16 bytes of the address space is met by the first block. -/
theorem kmalloc_wraps : ∃ s bs s' ptr, HeapInv s bs ∧ s.kmalloc 4 (2 ^ 64 - 16) = .ok (s', ptr) ∧ ptr = 4194344 ∧
    ¬ PayloadHolds (2 ^ 64 - 16) s' ptr := by
  obtain ⟨s, bs, s', ptr, hi, _, hm, hptr⟩ :=
    @firstMalloc_spec (2 ^ 64 - 16) (fun _ ptr => ptr = 4194344) _ (by decide +kernel)
  refine ⟨s, bs, s', ptr, hi, hm, hptr, fun h => ?_⟩
  have hlt := h.size_lt (by omega)
  norm_num at hlt

end HeroOS
