import HeroOS.KheapNull
import HeroOS.KheapTiling

/-! # The fit test

`kmalloc` looks for a free block whose size is at least the rounded size and the overhead, asks for an expansion
where there is none, and begins again.

* `kmalloc_returns`: the recursion ends, with one expansion at most (`kmalloc_obtained`);
* `kmalloc_expands_once`: a request other than for 0 bytes is refused only where the heap would pass its limit;
* `kmalloc_fit_iff`: a free block that could hold the request is used exactly when there is one with 56 bytes to
  spare. -/

namespace HeroOS

open Word Mem

variable {m : Mem} {head : ℕ} {bs xs ys : List Block} {s s' s₁ : Heap} {fuel size n ptr : ℕ} {r : ℤ}

/-! ### Walks end -/

theorem HeapList.findFit_returns (xs : List Block) (hl : HeapList m head (xs ++ ys)) (hf : ys.length < fuel) :
    ∃ r, m.findFit n fuel ((ys.map Block.addr).headD 0) = .ok r := by
  induction ys generalizing xs fuel with
  | nil =>
      obtain ⟨fuel, rfl⟩ := Nat.exists_eq_add_of_lt hf
      exact ⟨0, by simp [Mem.findFit]⟩
  | cons b ys ih =>
      obtain ⟨fuel, rfl⟩ := Nat.exists_eq_succ_of_ne_zero (Nat.ne_zero_of_lt hf)
      have hl' : HeapList m head ((xs ++ [b]) ++ ys) := by simpa using hl
      obtain ⟨r, hr⟩ := ih _ hl' (Nat.lt_of_succ_lt_succ hf)
      rw [List.map_cons, List.headD_cons, Mem.findFit, if_neg (hl.nonnull b (by simp))]
      split
      · exact ⟨b.addr, rfl⟩
      · rw [hl.links_at.2]
        exact ⟨r, hr⟩

theorem HeapList.lastBlock_returns (xs : List Block) {l : Block} (hl : HeapList m head (xs ++ l :: ys))
    (hf : ys.length < fuel) : ∃ r, m.lastBlock fuel l.addr = .ok r := by
  induction ys generalizing xs l fuel with
  | nil =>
      obtain ⟨fuel, rfl⟩ := Nat.exists_eq_succ_of_ne_zero (Nat.ne_zero_of_lt hf)
      have hn : m.hdrNext l.addr = 0 := hl.links_at.2
      exact ⟨l.addr, by rw [Mem.lastBlock, if_pos hn]⟩
  | cons b ys ih =>
      obtain ⟨fuel, rfl⟩ := Nat.exists_eq_succ_of_ne_zero (Nat.ne_zero_of_lt hf)
      have hn : m.hdrNext l.addr = b.addr := hl.links_at.2
      have hl' : HeapList m head ((xs ++ [l]) ++ b :: ys) := by simpa using hl
      rw [Mem.lastBlock, hn, if_neg (hl.nonnull b (by simp))]
      exact ih _ hl' (Nat.lt_of_succ_lt_succ hf)

theorem appendBlock_returns {block : ℕ} (hl : HeapList s.mem s.heapHead bs) (hf : bs.length ≤ fuel) :
    ∃ s', s.appendBlock fuel block = .ok s' := by
  unfold Heap.appendBlock
  split
  · exact ⟨_, rfl⟩
  · rename_i hhead
    cases bs with
    | nil => exact absurd hl.head_eq hhead
    | cons b bs =>
        have hhead : s.heapHead = b.addr := hl.head_eq
        obtain ⟨r, hr⟩ := HeapList.lastBlock_returns [] hl hf
        rw [hhead, hr]
        exact ⟨_, rfl⟩

theorem pmmAllocPages_ne_outOfFuel (pmm : Pmm) (count : ℕ) : pmm.pmmAllocPages count ≠ .error .outOfFuel := by
  have hpanic : ∀ msg, (.error (.panic msg) : Except Halt (Pmm × ℕ)) ≠ .error .outOfFuel := by
    intro msg h
    cases h
  unfold Pmm.pmmAllocPages Pmm.pmmAllocPage
  split
  · exact ok_ne_error _ _
  · split
    · split
      · exact ok_ne_error _ _
      · split
        · exact ok_ne_error _ _
        · exact hpanic _
    · split
      · exact ok_ne_error _ _
      · exact hpanic _

/-- An expansion returns or panics. -/
theorem heapExpand_returns (hi : HeapInv s bs) (hn : 1 ≤ n) (hw : n + 4095 < 2 ^ 64) (hf : bs.length ≤ fuel) :
    s.heapExpand fuel n ≠ .error .outOfFuel := by
  unfold Heap.heapExpand
  rw [expandPages_eq hw]
  obtain ⟨k, hk⟩ : ∃ k, k = (n + 4095) / 4096 := ⟨_, rfl⟩
  have hk1 : 1 ≤ k := by omega
  rw [← hk]
  apply bind_ne_error (pmmAllocPages_ne_outOfFuel _ _)
  rintro ⟨pmm, phys⟩ hp
  obtain ⟨p, hphys, ha⟩ := Pmm.pmmAllocPages_spec hk1 hi.hint hi.count hp
  have hb := ha.bound
  unfold PMM_MAX_PAGES at hb
  have hsize : wsub (wmul k PAGE_SIZE) OVERHEAD = k * 4096 - 56 := by
    have hmul : wmul k PAGE_SIZE = k * 4096 := wmul_of_lt (by unfold PAGE_SIZE; omega)
    rw [hmul]
    exact wsub_of_le (by omega) (by unfold OVERHEAD HEADER_SIZE FOOTER_SIZE; omega)
  have hlist : HeapList (newBlockMem s.mem ⟨p * 4096, k * 4096 - 56, true⟩) s.heapHead bs :=
    hi.list.withNewBlock (by dsimp only; omega) (hi.apart_newBlock hk1 ha)
  dsimp only
  split
  · exact ok_ne_error _ _
  · refine bind_ne_error ?_ (fun _ _ => ok_ne_error _ _)
    rw [hsize, hphys]
    have hreturns := fun t ht => @appendBlock_returns bs t fuel (p * PAGE_SIZE) ht hf
    obtain ⟨s', hs'⟩ := hreturns { s with
      pmm := pmm
      obtained := Finset.Ico (p * PAGE_SIZE / PAGE_SIZE) (p * PAGE_SIZE / PAGE_SIZE + k) :: s.obtained
      heapEnd := wadd s.heapEnd (wmul k PAGE_SIZE)
      mem := newBlockMem s.mem ⟨p * 4096, k * 4096 - 56, true⟩ } hlist
    exact fun h => ok_ne_error _ _ (hs'.symm.trans h)

/-! ### One expansion at most -/

/-- The search finds a block that passes the test. -/
theorem HeapInv.findFit_passes {need : ℕ} (hi : HeapInv s bs) (hp : ∃ b ∈ bs, b.Passes (wadd need OVERHEAD)) (hf : bs.length < fuel) :
    ∃ cur, cur ≠ 0 ∧ s.mem.findFit need fuel s.heapHead = .ok cur := by
  obtain ⟨cur, hcur⟩ := HeapList.findFit_returns (n := need) [] hi.list hf
  rw [← hi.list.head_eq] at hcur
  obtain ⟨_, hno⟩ | ⟨hne, _⟩ := hi.findFit hcur
  · obtain ⟨b, hb, hpass⟩ := hp
    exact absurd hpass (hno b hb)
  · exact ⟨cur, hne, hcur⟩

/-- Where a block passes the test, the request is met from the list. -/
theorem kmalloc_of_passes (hi : HeapInv s bs) (hp : ∃ b ∈ bs, b.Passes (needFor size)) (h0 : size ≠ 0) (hf : bs.length < fuel) :
    ∃ m ptr, ptr ≠ 0 ∧ s.kmalloc fuel size = .ok ({ s with mem := m }, ptr) := by
  obtain ⟨fuel, rfl⟩ := Nat.exists_eq_succ_of_ne_zero (Nat.ne_zero_of_lt hf)
  obtain ⟨cur, hne, hcur⟩ := hi.findFit_passes hp hf
  refine ⟨s.mem.takeBlock cur (alignUp size 16), wadd cur HEADER_SIZE, ?_, ?_⟩
  · obtain ⟨h, _⟩ | ⟨_, hptr, _⟩ := hi.findFit hcur
    · exact absurd h hne
    · omega
  · unfold Heap.kmalloc
    rw [if_neg h0]
    dsimp only
    rw [hcur]
    exact if_pos hne

/-- So does every call that returns. -/
theorem kmalloc_passes (hi : HeapInv s bs) (hp : ∃ b ∈ bs, b.Passes (needFor size)) (h0 : size ≠ 0)
    (h : s.kmalloc fuel size = .ok (s', ptr)) : ptr ≠ 0 ∧ ∃ m, s' = { s with mem := m } := by
  cases fuel with
  | zero => cases h
  | succ fuel =>
      obtain ⟨_, c, _, _, _, hptr, hs⟩ | ⟨hno, _⟩ := kmalloc_round hi h0 h
      · exact ⟨by omega, _, hs⟩
      · obtain ⟨b, hb, hpass⟩ := hp
        exact absurd hpass (hno b hb)

/-- The block that an expansion appends passes the test. -/
theorem heapExpand_passes (hi : HeapInv s bs) (hw : NoWrap size)
    (h : s.heapExpand fuel (wadd (needFor size) PAGE_SIZE) = .ok (s₁, 0)) :
    ∃ c, HeapInv s₁ (bs ++ [c]) ∧ c.Passes (needFor size) ∧ c.addr % PAGE_SIZE = 0 := by
  obtain ⟨halign, _, hneed, hask⟩ := hw.sizes
  unfold needFor at h ⊢
  unfold NoWrap at hw
  rw [halign, hneed, hask] at h
  rw [halign, hneed]
  obtain ⟨p, _, _, _, ⟨hr, _⟩ | ⟨_, _, hi₁, _⟩⟩ := heapExpand_spec hi (by omega) (by omega) h
  · cases hr
  · exact ⟨_, hi₁, ⟨rfl, by dsimp only; omega⟩, Nat.mul_mod_left p 4096⟩

theorem NoWrap.rounded (hw : NoWrap size) : NoWrap (alignUp size 16) ∧ needFor (alignUp size 16) = needFor size := by
  obtain ⟨halign, halign', _⟩ := hw.sizes
  unfold NoWrap needFor at *
  rw [halign, halign']
  exact ⟨by omega, rfl⟩

/-- **The recursion ends.** -/
theorem kmalloc_returns (hi : HeapInv s bs) (hw : NoWrap size) (hf : bs.length + 2 < fuel) :
    s.kmalloc fuel size ≠ .error .outOfFuel := by
  obtain ⟨fuel, rfl⟩ := Nat.exists_eq_succ_of_ne_zero (Nat.ne_zero_of_lt hf)
  obtain ⟨halign, _, hneed, hask⟩ := hw.sizes
  by_cases h0 : size = 0
  · unfold Heap.kmalloc
    rw [if_pos h0]
    exact ok_ne_error _ _
  · unfold Heap.kmalloc
    rw [if_neg h0]
    have hlen : bs.length < fuel + 1 := by omega
    obtain ⟨cur, hcur⟩ := HeapList.findFit_returns (n := alignUp size 16) [] hi.list hlen
    rw [← hi.list.head_eq] at hcur
    dsimp only
    rw [hcur]
    show (if cur ≠ 0 then _ else _) ≠ _
    split
    · exact ok_ne_error _ _
    · apply bind_ne_error
      · rw [halign, hneed, hask]
        unfold NoWrap at hw
        exact heapExpand_returns hi (by omega) (by omega) (by omega)
      · rintro ⟨s₁, r⟩ hexp
        dsimp only
        split
        · rename_i hr
          rw [hr] at hexp
          obtain ⟨c, hi₁, hc, _⟩ := heapExpand_passes hi hw hexp
          have hne : alignUp size 16 ≠ 0 := by omega
          have hlen' : (bs ++ [c]).length < fuel := by
            rw [List.length_append, List.length_singleton]
            omega
          obtain ⟨m, ptr, _, hm⟩ := kmalloc_of_passes hi₁ ⟨c, by simp, by rwa [hw.rounded.2]⟩ hne hlen'
          rw [hm]
          exact ok_ne_error _ _
        · exact ok_ne_error _ _

/-- The pages of at most one expansion are added. -/
theorem kmalloc_obtained (hi : HeapInv s bs) (hw : NoWrap size) (h : s.kmalloc fuel size = .ok (s', ptr)) :
    s'.obtained = s.obtained ∨ ∃ o, s'.obtained = o :: s.obtained := by
  cases fuel with
  | zero => cases h
  | succ fuel =>
      by_cases h0 : size = 0
      · rw [(kmalloc_zero h0 h).1]
        exact .inl rfl
      · obtain ⟨halign, halign', hneed, hask⟩ := hw.sizes
        obtain ⟨_, _, _, _, _, _, rfl⟩ | ⟨_, s₁, r, hexp, hrest⟩ := kmalloc_round hi h0 h
        · exact .inl rfl
        · right
          have hexp' := hexp
          unfold NoWrap at hw
          rw [halign, hneed, hask] at hexp'
          obtain ⟨p, _, _, hob, _⟩ := heapExpand_spec hi (by omega) (by omega) hexp'
          obtain ⟨rfl, hnext⟩ | ⟨_, rfl, _⟩ := hrest
          · obtain ⟨c, hi₁, hc, _⟩ := heapExpand_passes hi hw hexp
            rw [← (NoWrap.rounded hw).2] at hc
            obtain ⟨_, m, rfl⟩ := kmalloc_passes hi₁ ⟨c, by simp, hc⟩ (by omega) hnext
            exact ⟨_, hob⟩
          · exact ⟨_, hob⟩

/-- The pages that are asked for, without wrapping. -/
theorem askedPages_bytes (hw : NoWrap size) : wmul (askedPages size) PAGE_SIZE = askedPages size * PAGE_SIZE := by
  obtain ⟨halign, _, hneed, hask⟩ := hw.sizes
  unfold NoWrap at hw
  have hpages : askedPages size = ((size + 15) / 16 * 16 + 56 + 4096 + 4095) / 4096 := by
    unfold askedPages needFor
    rw [halign, hneed, hask]
    exact expandPages_eq (by omega)
  rw [hpages]
  unfold PAGE_SIZE
  exact wmul_of_lt (by omega)

/-- A request that is refused. -/
theorem kmalloc_refused (hi : HeapInv s bs) (hw : NoWrap size) (h0 : size ≠ 0) (h : s.kmalloc fuel size = .ok (s', 0)) :
    s.heapMax < wadd s.heapEnd (askedPages size * PAGE_SIZE) := by
  cases fuel with
  | zero => cases h
  | succ fuel =>
      obtain ⟨_, c, _, _, _, hptr, _⟩ | ⟨_, s₁, r, hexp, hrest⟩ := kmalloc_round hi h0 h
      · omega
      · have hlimit := heapExpand_limit hexp
        rw [← askedPages_bytes hw]
        obtain ⟨rfl, hnext⟩ | ⟨hr, _⟩ := hrest
        · exact absurd rfl (kmalloc_expanded hi hw h0 hexp hnext)
        · exact (hlimit.resolve_left fun h => hr h.1).2

/-- **`kmalloc` expands the heap at most once.**  In every well-formed heap and for every size for which none of
the size computations wraps: the call ends (or the page allocator panics); after an expansion the search finds a
block; what the call returns has taken the pages of one expansion at most; and it returns `NULL` only for 0 bytes or
where the expansion would move the end of the heap past its limit. -/
theorem kmalloc_expands_once (hi : HeapInv s bs) (hw : NoWrap size) (hend : s.heapEnd + askedPages size * PAGE_SIZE < 2 ^ 64) :
    (∀ fuel, bs.length + 2 < fuel → s.kmalloc fuel size ≠ .error .outOfFuel) ∧
    (∀ fuel s₁ fuel₁, s.heapExpand fuel (wadd (needFor size) PAGE_SIZE) = .ok (s₁, 0) → bs.length + 1 < fuel₁ →
      ∃ cur, cur ≠ 0 ∧ s₁.mem.findFit (alignUp size 16) fuel₁ s₁.heapHead = .ok cur) ∧
    ∀ fuel s' ptr, s.kmalloc fuel size = .ok (s', ptr) →
      (s'.obtained = s.obtained ∨ ∃ o, s'.obtained = o :: s.obtained) ∧
        (ptr = 0 → size = 0 ∨ s.heapMax < s.heapEnd + askedPages size * PAGE_SIZE) := by
  refine ⟨fun fuel => kmalloc_returns hi hw, fun fuel s₁ fuel₁ hexp hf => ?_, fun fuel s' ptr h => ⟨kmalloc_obtained hi hw h, ?_⟩⟩
  · obtain ⟨c, hi₁, hc, _⟩ := heapExpand_passes hi hw hexp
    exact hi₁.findFit_passes ⟨c, by simp, hc⟩ (by simpa using hf)
  · rintro rfl
    by_cases h0 : size = 0
    · exact .inl h0
    · have hmax := kmalloc_refused hi hw h0 h
      rw [wadd_of_lt hend] at hmax
      exact .inr hmax

/-- The heap as the kernel initialises it. -/
theorem initHeap_spec {P : Heap → Prop} [DecidablePred P]
    (h : (freshHeap.kheapInit 4 0x02000000 (64 * 1024 * 1024)).toOption.any (fun s => decide (P s)) = true) :
    ∃ s bs, HeapInv s bs ∧ P s := by
  obtain ⟨s, hs, hP⟩ := (Option.any_eq_true _ _).mp h
  obtain ⟨bs, hi, _⟩ := freshHeap_inv (toOption_eq_some.mp hs)
  exact ⟨s, bs, hi, of_decide_eq_true hP⟩

theorem kmalloc_expands_once_thousand : ∃ s bs, HeapInv s bs ∧
    ∀ fuel, bs.length + 2 < fuel → s.kmalloc fuel 1000 ≠ .error .outOfFuel := by
  obtain ⟨s, bs, hi, hend⟩ := @initHeap_spec (fun s => s.heapEnd = 33619968) _ (by decide +kernel)
  have hpages : askedPages 1000 = 2 := by decide +kernel
  obtain ⟨hreturns, _⟩ := @kmalloc_expands_once bs s 1000 hi (by decide) (by
    rw [hend, hpages]
    norm_num [PAGE_SIZE])
  exact ⟨s, bs, hi, hreturns⟩

/-- A request for 0 bytes is refused although the heap may grow by far more than it would ask for. -/
theorem kmalloc_zero_null : ∃ s bs, HeapInv s bs ∧ NoWrap 0 ∧ s.heapEnd + askedPages 0 * PAGE_SIZE < 2 ^ 64 ∧
    s.kmalloc 1 0 = .ok (s, 0) ∧ ¬ s.heapMax < s.heapEnd + askedPages 0 * PAGE_SIZE := by
  obtain ⟨s, bs, hi, hend, hmax⟩ := @initHeap_spec (fun s => s.heapEnd = 33619968 ∧ s.heapMax = 100663296) _ (by decide +kernel)
  have hpages : askedPages 0 * PAGE_SIZE = 8192 := by decide +kernel
  refine ⟨s, bs, hi, by decide, by omega, rfl, ?_⟩
  omega

/-! ### The window -/

/-- The request is met without `heap_expand`: pages, end and heap stay. -/
def ServedFromList (s : Heap) (size : ℕ) : Prop := ∃ fuel s' ptr, s.kmalloc fuel size = .ok (s', ptr) ∧
  (size ≠ 0 → ptr ≠ 0) ∧ s'.pmm = s.pmm ∧ s'.heapEnd = s.heapEnd ∧ s'.obtained = s.obtained

/-- It is met exactly where a free block has the rounded size and 56 bytes to spare. -/
theorem servedFromList_iff (hi : HeapInv s bs) (hw : NoWrap size) :
    ServedFromList s size ↔ size = 0 ∨ ∃ b ∈ bs, b.Passes (alignUp size 16 + 56) := by
  obtain ⟨halign, _, hneed, _⟩ := hw.sizes
  have hneed' : needFor size = alignUp size 16 + 56 := by
    unfold needFor
    rw [halign, hneed]
  rw [← hneed']
  constructor
  · rintro ⟨fuel, s', ptr, h, _, hpmm, _⟩
    by_cases h0 : size = 0
    · exact .inl h0
    · obtain ⟨⟨b, hb, hfit⟩, _⟩ | ⟨_, k, p, hk, ha⟩ := kmalloc_pages hi h0 hw h
      · rw [← halign] at hfit
        rw [hneed']
        exact .inr ⟨b, hb, hfit⟩
      · -- the pages of an expansion were free and are used
        have hin : p ∈ Set.Ico p (p + k) := ⟨le_rfl, by omega⟩
        have hfree := ha.wasFree p hin
        have hused := (ha.test_iff p).mpr (.inl hin)
        rw [hpmm, hfree] at hused
        cases hused
  · rintro (rfl | hp)
    · exact ⟨1, s, 0, rfl, fun h => absurd rfl h, rfl, rfl, rfl⟩
    · by_cases h0 : size = 0
      · subst h0
        exact ⟨1, s, 0, rfl, fun h => absurd rfl h, rfl, rfl, rfl⟩
      · obtain ⟨m, ptr, hptr, h⟩ := kmalloc_of_passes hi hp h0 (lt_add_one _)
        exact ⟨_, _, ptr, h, fun _ => hptr, rfl, rfl, rfl⟩

/-- What a free block that is large enough is worth. -/
theorem fit_served_iff (hi : HeapInv s bs) (hw : NoWrap size) :
    ((∃ b ∈ bs, b.Passes (alignUp size 16)) → ServedFromList s size) ↔
      size = 0 ∨ (∀ b ∈ bs, ¬ b.Passes (alignUp size 16)) ∨ ∃ b ∈ bs, b.Passes (alignUp size 16 + 56) := by
  rw [servedFromList_iff hi hw]
  constructor
  · intro h
    by_cases hroom : ∃ b ∈ bs, b.Passes (alignUp size 16)
    · exact (h hroom).imp_right .inr
    · exact .inr (.inl fun b hb hp => hroom ⟨b, hb, hp⟩)
  · rintro (h0 | hno | hroom) ⟨b, hb, hp⟩
    · exact .inl h0
    · exact absurd hp (hno b hb)
    · exact .inr hroom

/-- The released block is part of a free one. -/
theorem Released.passes {b : Block} {bs' : List Block} (hr : Released xs b ys bs') : ∃ c ∈ bs', c.Passes b.size := by
  obtain ⟨c, hc, hfree, hsub⟩ := hr.merged
  have hstop : b.stop = b.addr + 56 + b.size := rfl
  have hfirst : b.addr ∈ c.extent := hsub ⟨le_rfl, by omega⟩
  have hlast : b.stop - 1 ∈ c.extent := hsub ⟨by omega, by omega⟩
  have hlow : c.addr ≤ b.addr := hfirst.1
  have hhigh : b.stop - 1 < c.addr + 56 + c.size := hlast.2
  exact ⟨c, hc, hfree, by omega⟩

/-- A block that is released lies in a free block of at least its size. -/
theorem HeapInv.kfree {b : Block} (hi : HeapInv s (xs ++ b :: ys)) (hu : b.free = false) (ha : AdjacentIn xs b ys) :
    ∃ bs', HeapInv { s with mem := s.mem.kfree (b.addr + 40) } bs' ∧ ∃ c ∈ bs', c.Passes b.size := by
  obtain ⟨bs', hr, hl, _⟩ := hi.list.kfree hu ha
  refine ⟨bs', hi.withMem hl (fun c hc x hx => ?_), hr.passes⟩
  obtain ⟨d, hd, hxd⟩ := hr.covered c hc x hx
  exact hi.owned d hd x hxd

/-- **When a free block that is large enough is used.**  In every well-formed heap and for every size that does
not wrap: that `kmalloc` meets the request from the list where a free block holds the rounded size is true if and
only if the size is 0, no free block holds it, or one holds it with 56 bytes to spare.  The same decides whether
a block that is released can be asked for again, up to its own size. -/
theorem kmalloc_fit_iff (hi : HeapInv s bs) :
    (∀ size, NoWrap size → (((∃ b ∈ bs, b.Passes (alignUp size 16)) → ServedFromList s size) ↔
      size = 0 ∨ (∀ b ∈ bs, ¬ b.Passes (alignUp size 16)) ∨ ∃ b ∈ bs, b.Passes (alignUp size 16 + 56))) ∧
    ∀ xs b ys size, bs = xs ++ b :: ys → b.free = false → AdjacentIn xs b ys → size ≤ b.size →
      ∃ bs', HeapInv { s with mem := s.mem.kfree (b.addr + 40) } bs' ∧ (∃ c ∈ bs', c.Passes b.size) ∧
        (ServedFromList { s with mem := s.mem.kfree (b.addr + 40) } size ↔
          size = 0 ∨ ∃ c ∈ bs', c.Passes (alignUp size 16 + 56)) := by
  refine ⟨fun size hw => fit_served_iff hi hw, ?_⟩
  rintro xs b ys size rfl hu ha hle
  obtain ⟨bs', hi', hpass⟩ := hi.kfree hu ha
  have hlt := hi.size_lt (show b ∈ xs ++ b :: ys by simp)
  have hw : NoWrap size := by
    unfold NoWrap
    omega
  exact ⟨bs', hi', hpass, servedFromList_iff hi' hw⟩

/-- In the initial heap a request for 1000 bytes is met from the list. -/
theorem kmalloc_fit_iff_thousand : ∃ s bs, HeapInv s bs ∧ ServedFromList s 1000 := by
  obtain ⟨s, bs, hi, hlist⟩ := @initHeap_spec (fun s => BlockList s.mem s.heapHead [⟨4194304, 65480, true⟩]) _
    (by decide +kernel)
  have hbs := blockList_unique hi.list.blockList hlist
  have hround : alignUp 1000 16 = 1008 := by decide +kernel
  have hroom : ∀ n ≤ 65480, ∃ b ∈ bs, b.Passes n := by
    intro n hn
    rw [hbs]
    exact ⟨_, List.mem_cons_self, rfl, hn⟩
  refine ⟨s, bs, hi, ((kmalloc_fit_iff hi).1 1000 (by decide)).mpr (.inr (.inr ?_)) ?_⟩
  · exact hroom _ (by omega)
  · exact hroom _ (by omega)

/-- The whole region is used by two blocks, and the one of 112 bytes is released: it is free and holds 112 bytes,
but a request for them is not met from the list. -/
theorem kmalloc_own_size_expands : ∃ s bs, HeapInv s bs ∧ NoWrap 112 ∧ (∃ b ∈ bs, b.Passes (alignUp 112 16)) ∧
    ¬ ServedFromList s 112 := by
  obtain ⟨s, w, hs, hrun, hlist⟩ := worldAfter_run
    (fun w op => if MergesAdjacent 4 w op then w.exec 4 op else none)
    (fun w op w' => ∃ fuel, MergesAdjacent fuel w op ∧ HeapStep fuel w op w')
    [.malloc 112, .malloc 65248, .free 4194344]
    (fun w => BlockList w.heap.mem w.heap.heapHead [⟨4194304, 112, true⟩, ⟨4194472, 65312, false⟩])
    (fun w op w' h => by
      split_ifs at h with ha
      exact ⟨4, ha, HeapWorld.exec_step h⟩)
    (by decide +kernel)
  obtain ⟨bs, hi⟩ := worldInv_of_run freshHeap_beforeInit hs hrun
  have hbs := blockList_unique hi.inv.list.blockList hlist
  have hround : alignUp 112 16 = 112 := by decide +kernel
  have hw : NoWrap 112 := by decide
  refine ⟨w.heap, bs, hi.inv, hw, ?_, fun hserved => ?_⟩
  · rw [hbs, hround]
    exact ⟨_, List.mem_cons_self, rfl, le_rfl⟩
  · obtain h0 | ⟨b, hb, hfree, hsize⟩ := (servedFromList_iff hi.inv hw).mp hserved
    · cases h0
    · rw [hbs] at hb
      rw [hround] at hsize
      obtain rfl | hb := List.mem_cons.mp hb
      · exact absurd hsize (by decide)
      · obtain rfl := List.mem_singleton.mp hb
        cases hfree

end HeroOS
