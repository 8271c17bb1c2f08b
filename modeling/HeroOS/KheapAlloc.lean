import HeroOS.KheapFree

/-! # Allocating a block

`HeapInv s bs`: the heap list consists of the blocks `bs`, every byte of which lies in a page that
`heap_expand` obtained, and these pages are marked used.

For a request whose size computations do not wrap, `kmalloc` either fails, takes the first block
that fits, or extends the heap by one block and takes a block from the longer list
(`kmalloc_spec`).  `heapExpand_spec` describes the extension: the new block lies in pages that
were free, hence apart from every other block. -/

namespace HeroOS

open Word LinkedList Mem

/-- The block can serve a request for `size` bytes. -/
def Block.Fits (b : Block) (size : ℕ) : Prop := b.free = true ∧ size + 56 ≤ b.size

/-- The block is free and passes the test `size >= need`. -/
def Block.Passes (b : Block) (need : ℕ) : Prop := b.free = true ∧ need ≤ b.size

/-- The heap list and its pages. -/
structure HeapInv (s : Heap) (bs : List Block) : Prop where
  list : HeapList s.mem s.heapHead bs
  owned : ∀ b ∈ bs, ∀ x ∈ b.extent, s.obtained.Holds (x / PAGE_SIZE)
  used : ∀ p, s.obtained.Holds p → p < PMM_MAX_PAGES ∧ s.pmm.bitmapTest p = true
  hint : s.pmm.lastFreeHint ≤ PMM_MAX_PAGES
  count : s.pmm.freePhysPages < 2 ^ 64
  pageZero : s.pmm.bitmapTest 0 = true

/-- No size computation of `kmalloc(size)` wraps: not the rounding to 16 bytes, and not the
overhead, the spare page and the rounding to whole pages of an expansion. -/
def NoWrap (size : ℕ) : Prop := (size + 15) / 16 * 16 + 56 + 4096 + 4095 < 2 ^ 64

instance (size : ℕ) : Decidable (NoWrap size) := inferInstanceAs (Decidable (_ < _))

variable {m : Mem} {head : ℕ} {bs xs ys : List Block} {s s' : Heap}

theorem alignUp_16 {n : ℕ} (h : n + 15 < 2 ^ 64) : alignUp n 16 = (n + 15) / 16 * 16 :=
  alignUp_two_pow (k := 4) (by norm_num) h

theorem expandPages_eq {n : ℕ} (h : n + 4095 < 2 ^ 64) : Heap.expandPages n = (n + 4095) / 4096 := by
  unfold Heap.expandPages
  rw [alignUp_page h]
  exact Nat.mul_div_cancel _ (by norm_num)

/-! ### Walks -/

/-- The search from a point of the list on finds the first block that passes the test. -/
theorem HeapList.findFit {size : ℕ} : ∀ (fuel : ℕ) (xs : List Block) {ys : List Block} {r : ℕ},
    HeapList m head (xs ++ ys) → m.findFit size fuel ((ys.map Block.addr).headD 0) = .ok r →
    (r = 0 ∧ ∀ b ∈ ys, ¬ b.Passes (wadd size OVERHEAD)) ∨
      ∃ ys₁ c ys₂, ys = ys₁ ++ c :: ys₂ ∧ r = c.addr ∧ c.Passes (wadd size OVERHEAD)
  | 0, _, _, _, _, h => by cases h
  | fuel + 1, xs, [], r, _, h => by
      obtain rfl : 0 = r := Except.ok.inj h
      exact .inl ⟨rfl, by simp⟩
  | fuel + 1, xs, b :: ys, r, hl, h => by
      have hb : b ∈ xs ++ b :: ys := by simp
      simp only [List.map_cons, List.headD_cons, Mem.findFit] at h
      rw [if_neg (hl.nonnull b hb), (hl.blocks b hb).flag, (hl.blocks b hb).size] at h
      by_cases hf : b.free = true ∧ b.size ≥ wadd size OVERHEAD
      · rw [if_pos hf] at h
        obtain rfl : b.addr = r := Except.ok.inj h
        exact .inr ⟨[], b, ys, rfl, rfl, hf⟩
      · rw [if_neg hf, hl.links_at.2] at h
        have hl' : HeapList m head ((xs ++ [b]) ++ ys) := by simpa using hl
        rcases HeapList.findFit fuel _ hl' h with ⟨h0, hno⟩ | ⟨ys₁, c, ys₂, e, hr, hc⟩
        · refine .inl ⟨h0, fun c hc => ?_⟩
          rcases List.mem_cons.mp hc with rfl | hc
          · exact hf
          · exact hno c hc
        · exact .inr ⟨b :: ys₁, c, ys₂, by rw [e]; rfl, hr, hc⟩

/-- The walk to the last block. -/
theorem HeapList.lastBlock (xs : List Block) {fuel : ℕ} {l : Block} {r : ℕ} (hl : HeapList m head (xs ++ l :: ys))
    (h : m.lastBlock fuel l.addr = .ok r) : r = (ys.map Block.addr).getLastD l.addr := by
  induction fuel generalizing xs l ys with
  | zero => cases h
  | succ fuel ih =>
      have hn := hl.links_at.2
      unfold Mem.lastBlock at h
      cases ys with
      | nil =>
          rw [show m.hdrNext l.addr = 0 from hn, if_pos rfl] at h
          exact (Except.ok.inj h).symm
      | cons b ys =>
          rw [show m.hdrNext l.addr = b.addr from hn, if_neg (hl.nonnull b (by simp))] at h
          have hl' : HeapList m head ((xs ++ [l]) ++ b :: ys) := by simpa using hl
          rw [ih _ hl' h, List.map_cons, List.getLastD_cons]

/-! ### Extending the list -/

/-- The walk to the last block of a list. -/
theorem HeapList.lastBlock_head {ls : List Block} {l : Block} {fuel r : ℕ} (hl : HeapList m head (ls ++ [l]))
    (h : m.lastBlock fuel head = .ok r) : r = l.addr := by
  rw [hl.head_eq] at h
  cases ls with
  | nil => exact HeapList.lastBlock [] hl h
  | cons b ls =>
      have hl' : HeapList m head ([] ++ b :: (ls ++ [l])) := hl
      rw [HeapList.lastBlock [] hl' h]
      simp

/-- The block at `c` has been linked behind the block at `l`. -/
structure LinkedBehind (m m' : Mem) (l c : ℕ) : Prop where
  frame : ∀ x, (x < l + 32 ∨ l + 40 ≤ x) → (x < c + 24 ∨ c + 32 ≤ x) → m' x = m x
  next_new : m'.hdrNext c = m.hdrNext c
  prev_new : m'.hdrPrev c = l
  next_last : m'.hdrNext l = c
  prev_last : m'.hdrPrev l = m.hdrPrev l

theorem linkedBehind_set {l c : ℕ} (hap : l + 40 ≤ c ∨ c + 40 ≤ l) (hl : l + 40 < 2 ^ 64) (hc : c + 40 < 2 ^ 64) :
    LinkedBehind m ((m.setNext l c).setPrev c l) l c := by
  refine ⟨?_, ?_, ?_, ?_, ?_⟩
  · intro x h1 h2
    rw [setPrev, write64_of_outside (by omega), setNext, write64_of_outside (by omega)]
  · rw [setPrev, hdrNext, read64_write64_of_disjoint (by omega), setNext,
      read64_write64_of_disjoint (by omega)]
    rfl
  · rw [setPrev, hdrPrev, read64_write64_same _ _ (by omega)]
  · rw [setPrev, hdrNext, read64_write64_of_disjoint (by omega), setNext, read64_write64_same _ _ (by omega)]
  · rw [setPrev, hdrPrev, read64_write64_of_disjoint (by omega), setNext,
      read64_write64_of_disjoint (by omega)]
    rfl

/-- The list after the block `c`, apart from the rest, has been linked behind its last block. -/
theorem HeapList.linkLast {c l : Block} {ls : List Block} (hl : HeapList m head (ls ++ [l])) (hc : BlockAt m c)
    (h0 : c.addr ≠ 0) (hlt : c.stop < 2 ^ 64) (hnext : m.hdrNext c.addr = 0)
    (hap : ∀ b ∈ ls ++ [l], Block.Apart b c) (hk : LinkedBehind m m' l.addr c.addr) :
    HeapList m' head (ls ++ [l] ++ [c]) := by
  have hlm : l ∈ ls ++ [l] := by simp
  have hlc := hap l hlm
  unfold Block.Apart Block.stop at hlc
  -- every block of the old list keeps all but the forward link of the last one
  have hold : ∀ b ∈ ls, ∀ x, b.addr ≤ x → x < b.stop → m' x = m x := by
    intro b hb x h1 h2
    have h3 := hap b (by simp [hb])
    have h4 : Block.Apart b l := (List.pairwise_append.mp hl.apart).2.2 b hb l (by simp)
    unfold Block.Apart Block.stop at *
    exact hk.frame x (by omega) (by omega)
  refine ⟨?_, ?_, ?_, ?_, ?_, ?_⟩
  · rw [hl.head_eq]
    cases ls <;> rfl
  · have hlk := hl.links
    rw [List.map_append, seg_append] at hlk
    rw [List.map_append, List.map_append, seg_append, seg_append]
    refine ⟨⟨?_, ?_, hk.next_last, trivial⟩, ?_, hk.next_new.trans hnext, trivial⟩
    · refine hlk.1.congr (fun a ha => ?_) (fun a ha => ?_)
      · obtain ⟨b, hb, rfl⟩ := List.mem_map.mp ha
        exact hdrNext_congr (fun x h1 h2 => hold b hb x (by omega) (by unfold Block.stop; omega))
      · obtain ⟨b, hb, rfl⟩ := List.mem_map.mp ha
        exact hdrPrev_congr (fun x h1 h2 => hold b hb x (by omega) (by unfold Block.stop; omega))
    · rw [hk.prev_last]
      exact hlk.2.1
    · rw [hk.prev_new]
      simp
  · intro b hb
    simp only [List.mem_append, List.mem_singleton] at hb
    rcases hb with (hb | rfl) | rfl
    · exact (hl.blocks b (by simp [hb])).congr_extent (fun x h1 h2 _ => hold b hb x h1 h2)
    · refine (hl.blocks b hlm).congr_extent (fun x h1 h2 h3 => hk.frame x (by omega) ?_)
      unfold Block.stop at h2
      omega
    · refine hc.congr_extent (fun x h1 h2 h3 => hk.frame x ?_ (by omega))
      unfold Block.stop at h2
      omega
  · intro b hb
    rcases List.mem_append.mp hb with hb | hb
    · exact hl.nonnull b hb
    · obtain rfl := List.mem_singleton.mp hb
      exact h0
  · intro b hb
    rcases List.mem_append.mp hb with hb | hb
    · exact hl.bound b hb
    · obtain rfl := List.mem_singleton.mp hb
      exact hlt
  · refine List.pairwise_append.mpr ⟨hl.apart, List.pairwise_singleton _ _, fun b hb d hd => ?_⟩
    obtain rfl := List.mem_singleton.mp hd
    exact hap b hb

/-- Appending the block `c`, already written with empty links and apart from the rest. -/
theorem HeapList.append {c : Block} {fuel : ℕ} (hl : HeapList s.mem s.heapHead bs)
    (hc : BlockAt s.mem c) (h0 : c.addr ≠ 0) (hlt : c.stop < 2 ^ 64)
    (hprev : s.mem.hdrPrev c.addr = 0) (hnext : s.mem.hdrNext c.addr = 0)
    (hap : ∀ b ∈ bs, Block.Apart b c) (h : s.appendBlock fuel c.addr = .ok s') :
    HeapList s'.mem s'.heapHead (bs ++ [c]) ∧
      (∀ x, (∀ b ∈ bs ++ [c], x ∉ b.tags) → s'.mem x = s.mem x) ∧
      s' = { s with mem := s'.mem, heapHead := s'.heapHead } := by
  unfold Heap.appendBlock at h
  rcases List.eq_nil_or_concat bs with rfl | ⟨ls, l, rfl⟩
  · have hhead : s.heapHead = 0 := hl.head_eq
    rw [if_pos hhead] at h
    obtain rfl := Except.ok.inj h
    refine ⟨⟨rfl, ⟨hprev, hnext, trivial⟩, ?_, ?_, ?_, List.pairwise_singleton _ _⟩, fun x _ => rfl, rfl⟩
    all_goals
      intro b hb
      obtain rfl := List.mem_singleton.mp hb
      assumption
  · rw [List.concat_eq_append] at *
    have hlm : l ∈ ls ++ [l] := by simp
    have hhead : s.heapHead ≠ 0 := by
      rw [hl.head_eq]
      cases ls with
      | nil => exact hl.nonnull l (by simp)
      | cons b ls => exact hl.nonnull b (by simp)
    rw [if_neg hhead, bind_eq_ok] at h
    obtain ⟨r, hr, h⟩ := h
    obtain rfl := hl.lastBlock_head hr
    obtain rfl := Except.ok.inj h
    have hk : LinkedBehind s.mem ((s.mem.setNext l.addr c.addr).setPrev c.addr l.addr) l.addr c.addr := by
      have hlc := hap l hlm
      have hbl := hl.bound l hlm
      have hbc := hlt
      unfold Block.Apart Block.stop at *
      exact linkedBehind_set (by omega) (by omega) (by omega)
    refine ⟨hl.linkLast hc h0 hlt hnext hap hk, ?_, rfl⟩
    intro x hxt
    have h1 := hxt l (by simp)
    have h2 := hxt c (by simp)
    simp only [Block.tags, Set.mem_union, Set.mem_Ico] at h1 h2
    exact hk.frame x (by omega) (by omega)

/-- A byte of a payload is no byte of any header or footer. -/
theorem HeapList.payload_untagged {b : Block} {x : ℕ} (hl : HeapList m head bs) (hb : b ∈ bs)
    (hx : x ∈ b.payload) : ∀ c ∈ bs, x ∉ c.tags := by
  intro c hc hxc
  by_cases hbc : b = c
  · subst hbc
    simp only [Block.payload, Block.tags, Block.footer, Block.stop, Set.mem_union, Set.mem_Ico] at *
    omega
  · have := hl.apart.forall hb hc hbc
    simp only [Block.Apart, Block.payload, Block.tags, Block.footer, Block.stop, Set.mem_union,
      Set.mem_Ico] at *
    omega

/-- Changes of the memory and of the block list that stay on the pages of the heap. -/
theorem HeapInv.withMem {m : Mem} {bs' : List Block} (hi : HeapInv s bs) (hl : HeapList m s.heapHead bs')
    (ho : ∀ b ∈ bs', ∀ x ∈ b.extent, s.obtained.Holds (x / PAGE_SIZE)) :
    HeapInv { s with mem := m } bs' :=
  ⟨hl, ho, hi.used, hi.hint, hi.count, hi.pageZero⟩

/-! ### Expansion -/

/-- What an expansion, successful or refused, does to the heap. -/
structure Grows (s : Heap) (bs : List Block) (s₁ : Heap) (bs₁ : List Block) : Prop where
  inv : HeapInv s₁ bs₁
  used_mono : ∀ q, s.pmm.bitmapTest q = true → s₁.pmm.bitmapTest q = true
  obtained_mono : ∀ q, s.obtained.Holds q → s₁.obtained.Holds q
  fresh : ∀ q, s₁.obtained.Holds q → s.obtained.Holds q ∨ s.pmm.bitmapTest q = false
  blocks : bs₁ = bs ∨ s₁.heapEnd ≠ s.heapEnd ∧ ∃ c, bs₁ = bs ++ [c]
  frame : ∀ x, (∀ b ∈ bs₁, x ∉ b.tags) → s₁.mem x = s.mem x

theorem Grows.refl (hi : HeapInv s bs) : Grows s bs s bs :=
  ⟨hi, fun _ h => h, fun _ h => h, fun _ h => .inl h, .inl rfl, fun _ _ => rfl⟩

/-- The invariant after pages have been taken and before any of them is used. -/
theorem HeapInv.takePages {n p : ℕ} {pmm : Pmm} (hi : HeapInv s bs)
    (ha : Pmm.Allocates s.pmm n pmm p) :
    HeapInv { s with pmm := pmm, obtained := Finset.Ico p (p + n) :: s.obtained } bs := by
  refine ⟨hi.list, fun b hb x hx => ?_, fun q hq => ?_, ha.hint hi.hint, ?_, ?_⟩
  · exact Ledger.holds_cons.mpr (.inr (hi.owned b hb x hx))
  · rcases Ledger.holds_cons.mp hq with hq | hq
    · have hq' := Finset.mem_Ico.mp hq
      have := ha.bound
      exact ⟨by omega, (ha.test_iff q).mpr (.inl hq')⟩
    · exact ⟨(hi.used q hq).1, (ha.test_iff q).mpr (.inr (hi.used q hq).2)⟩
  · rw [show ({ s with pmm := pmm, obtained := Finset.Ico p (p + n) :: s.obtained } : Heap).pmm = pmm
      from rfl, ha.count]
    exact wsub_lt _ _
  · exact (ha.test_iff 0).mpr (.inr hi.pageZero)

/-- The block that covers `n` new pages is apart from every block of the heap. -/
theorem HeapInv.apart_newBlock {n p : ℕ} {pmm : Pmm} (hi : HeapInv s bs) (hn : 1 ≤ n)
    (ha : Pmm.Allocates s.pmm n pmm p) :
    ∀ b ∈ bs, Block.Apart b ⟨p * 4096, n * 4096 - 56, true⟩ := by
  intro b hb
  have hnot : ∀ x ∈ b.extent, ¬ (p * 4096 ≤ x ∧ x < p * 4096 + n * 4096) := by
    intro x hx h
    have hu := (hi.used _ (hi.owned b hb x hx)).2
    have hf := ha.wasFree (x / PAGE_SIZE) (by unfold PAGE_SIZE; exact ⟨by omega, by omega⟩)
    rw [hf] at hu
    cases hu
  -- a common byte would be the larger of the two start addresses
  have h1 := hnot b.addr
  have h2 := hnot (p * 4096)
  simp only [Block.Apart, Block.extent, Block.stop, Set.mem_Ico] at *
  omega

/-- The header and the footer that `heap_expand` writes, with empty links. -/
def newBlockMem (m : Mem) (c : Block) : Mem := ((m.writeBlock c.addr c.size true).setPrev c.addr 0).setNext c.addr 0

/-- They touch no byte outside the new block. -/
theorem newBlockMem_of_outside {c : Block} {x : ℕ} (hstop : c.addr + 56 + c.size < 2 ^ 64) (hx : x ∉ c.tags) :
    newBlockMem m c x = m x := by
  simp only [Block.tags, Block.footer, Block.stop, Set.mem_union, Set.mem_Ico] at hx
  rw [newBlockMem, setNext, write64_of_outside (by omega), setPrev, write64_of_outside (by omega),
    writeBlock_of_outside (by omega) (by omega) (by omega)]

/-- So the blocks apart from it are a list as before. -/
theorem HeapList.withNewBlock {c : Block} (hl : HeapList m head bs) (hstop : c.addr + 56 + c.size < 2 ^ 64)
    (hap : ∀ b ∈ bs, Block.Apart b c) : HeapList (newBlockMem m c) head bs := by
  refine hl.congr (fun b hb x hx => newBlockMem_of_outside hstop (fun hxc => ?_))
  have := hap b hb
  simp only [Block.Apart, Block.tags, Block.footer, Block.stop, Set.mem_union, Set.mem_Ico] at *
  omega

/-- A free block on pages the heap has obtained is written and appended to the list. -/
theorem HeapInv.appendBlock {c : Block} {fuel e : ℕ} (hi : HeapInv s bs) (hfree : c.free = true)
    (h0 : c.addr ≠ 0) (hstop : c.addr + 56 + c.size < 2 ^ 64) (hap : ∀ b ∈ bs, Block.Apart b c)
    (howned : ∀ x ∈ c.extent, s.obtained.Holds (x / PAGE_SIZE))
    (h : Heap.appendBlock fuel { s with
      heapEnd := e
      mem := ((s.mem.writeBlock c.addr c.size true).setPrev c.addr 0).setNext c.addr 0 } c.addr = .ok s') :
    HeapInv s' (bs ++ [c]) ∧ (∀ x, (∀ b ∈ bs ++ [c], x ∉ b.tags) → s'.mem x = s.mem x) ∧
      s' = { s with mem := s'.mem, heapHead := s'.heapHead, heapEnd := e } := by
  have hlist := hi.list.withNewBlock hstop hap
  have hmx : ∀ x, x ∉ c.tags → newBlockMem s.mem c x = s.mem x := fun x => newBlockMem_of_outside hstop
  unfold newBlockMem at hlist hmx
  obtain ⟨m, hm⟩ : ∃ m, m = ((s.mem.writeBlock c.addr c.size true).setPrev c.addr 0).setNext c.addr 0 :=
    ⟨_, rfl⟩
  rw [← hm] at h hlist hmx
  have hat : BlockAt m c := by
    have hw : BlockAt (s.mem.writeBlock c.addr c.size true) c := by
      rw [← hfree]
      exact blockAt_writeBlock hstop
    refine hw.congr_extent (fun x _ _ hx => ?_)
    rw [hm, setNext, write64_of_outside (by omega), setPrev, write64_of_outside (by omega)]
  have hprev : m.hdrPrev c.addr = 0 := by
    rw [hm, setNext, hdrPrev, read64_write64_of_disjoint (by omega), setPrev,
      read64_write64_same _ _ (by norm_num)]
  have hnext : m.hdrNext c.addr = 0 := by
    rw [hm, setNext, hdrNext, read64_write64_same _ _ (by norm_num)]
  obtain ⟨hl', hf', e'⟩ := HeapList.append (s := { s with heapEnd := e, mem := m }) hlist hat h0
    hstop hprev hnext hap h
  refine ⟨?_, fun x hx => (hf' x hx).trans (hmx x (hx c (by simp))), e'⟩
  rw [e']
  refine ⟨hl', fun b hb x hx => ?_, hi.used, hi.hint, hi.count, hi.pageZero⟩
  rcases List.mem_append.mp hb with hb | hb
  · exact hi.owned b hb x hx
  · obtain rfl := List.mem_singleton.mp hb
    exact howned x hx

/-- **Expanding the heap.**  The pages are taken in any case; on success the free block that
covers them becomes the last block of the list. -/
theorem heapExpand_spec {fuel n : ℕ} {r : ℤ} (hi : HeapInv s bs) (hn : 1 ≤ n) (hw : n + 4095 < 2 ^ 64)
    (h : s.heapExpand fuel n = .ok (s', r)) :
    ∃ p, p ≠ 0 ∧ Pmm.Allocates s.pmm ((n + 4095) / 4096) s'.pmm p ∧
      s'.obtained = Finset.Ico p (p + (n + 4095) / 4096) :: s.obtained ∧
      ((r = -1 ∧ s'.mem = s.mem ∧ s'.heapHead = s.heapHead ∧ s'.heapEnd = s.heapEnd ∧ HeapInv s' bs) ∨
        (r = 0 ∧ s'.heapEnd = wadd s.heapEnd ((n + 4095) / 4096 * 4096) ∧
          HeapInv s' (bs ++ [⟨p * 4096, (n + 4095) / 4096 * 4096 - 56, true⟩]) ∧
          ∀ x, (∀ b ∈ bs ++ [⟨p * 4096, (n + 4095) / 4096 * 4096 - 56, true⟩], x ∉ b.tags) →
            s'.mem x = s.mem x)) := by
  unfold Heap.heapExpand at h
  rw [expandPages_eq hw] at h
  obtain ⟨k, hk⟩ : ∃ k, k = (n + 4095) / 4096 := ⟨_, rfl⟩
  have hk1 : 1 ≤ k := by omega
  rw [← hk] at h ⊢
  rw [bind_eq_ok] at h
  obtain ⟨⟨pmm, phys⟩, hp, h⟩ := h
  obtain ⟨p, hphys, ha⟩ := Pmm.pmmAllocPages_spec hk1 hi.hint hi.count hp
  have hpage := Pmm.page_of_phys hphys
  have hb := ha.bound
  have hsize : wmul k PAGE_SIZE = k * 4096 := by
    unfold PAGE_SIZE PMM_MAX_PAGES at *
    exact wmul_of_lt (by omega)
  have h0 : p ≠ 0 := by
    rintro rfl
    have := ha.wasFree 0 ⟨le_rfl, by omega⟩
    rw [hi.pageZero] at this
    cases this
  have hi₁ := hi.takePages ha
  dsimp only at h
  rw [hpage, hsize] at h
  by_cases hmax : wadd s.heapEnd (k * 4096) > s.heapMax
  · rw [if_pos hmax] at h
    obtain ⟨rfl, rfl⟩ := Prod.mk.inj (Except.ok.inj h)
    exact ⟨p, h0, ha, rfl, .inl ⟨rfl, rfl, rfl, rfl, hi₁⟩⟩
  · rw [if_neg hmax, bind_eq_ok] at h
    obtain ⟨s₂, h₂, h⟩ := h
    obtain ⟨rfl, rfl⟩ := Prod.mk.inj (Except.ok.inj h)
    have hcsize : wsub (k * 4096) OVERHEAD = k * 4096 - 56 := by
      unfold OVERHEAD HEADER_SIZE FOOTER_SIZE PMM_MAX_PAGES at *
      exact wsub_of_le (by omega) (by omega)
    rw [hphys, hcsize] at h₂
    have howned : ∀ x ∈ Block.extent ⟨p * 4096, k * 4096 - 56, true⟩,
        Ledger.Holds (Finset.Ico p (p + k) :: s.obtained) (x / PAGE_SIZE) := by
      intro x hx
      refine Ledger.holds_cons.mpr (.inl (Finset.mem_Ico.mpr ?_))
      simp only [Block.extent, Block.stop, Set.mem_Ico] at hx
      unfold PAGE_SIZE
      exact ⟨by omega, by omega⟩
    have hstop : p * 4096 + 56 + (k * 4096 - 56) < 2 ^ 64 := by
      unfold PMM_MAX_PAGES at hb
      omega
    obtain ⟨hi₂, hf₂, e₂⟩ := hi₁.appendBlock (c := ⟨p * 4096, k * 4096 - 56, true⟩) rfl
      (show p * 4096 ≠ 0 by omega) hstop (hi.apart_newBlock hk1 ha) howned h₂
    refine ⟨p, h0, ?_, ?_, .inr ⟨rfl, ?_, hi₂, hf₂⟩⟩
    all_goals rw [e₂]
    exact ha

/-- An expansion in terms of `Grows`: the new block is large enough for what was asked for. -/
theorem heapExpand_grows {fuel n : ℕ} {r : ℤ} (hi : HeapInv s bs) (hn : 1 ≤ n) (hw : n + 4095 < 2 ^ 64)
    (h : s.heapExpand fuel n = .ok (s', r)) :
    (r = -1 ∧ Grows s bs s' bs) ∨
      (r = 0 ∧ ∃ c : Block, c.free = true ∧ n ≤ c.size + 56 ∧ Grows s bs s' (bs ++ [c])) := by
  obtain ⟨p, _, ha, ho, h⟩ := heapExpand_spec hi hn hw h
  have hb := ha.bound
  have hmono : ∀ q, s.pmm.bitmapTest q = true → s'.pmm.bitmapTest q = true :=
    fun q hq => (ha.test_iff q).mpr (.inr hq)
  have homono : ∀ q, s.obtained.Holds q → s'.obtained.Holds q := by
    intro q hq
    rw [ho]
    exact Ledger.holds_cons.mpr (.inr hq)
  have hfresh : ∀ q, s'.obtained.Holds q → s.obtained.Holds q ∨ s.pmm.bitmapTest q = false := by
    intro q hq
    rw [ho] at hq
    rcases Ledger.holds_cons.mp hq with hq | hq
    · exact .inr (ha.wasFree q (Finset.mem_Ico.mp hq))
    · exact .inl hq
  rcases h with ⟨hr, hm, hh, he, hi'⟩ | ⟨hr, he, hi', hf⟩
  · exact .inl ⟨hr, hi', hmono, homono, hfresh, .inl rfl, fun x _ => by rw [hm]⟩
  · refine .inr ⟨hr, _, rfl, ?_, hi', hmono, homono, hfresh, .inr ⟨?_, _, rfl⟩, hf⟩
    · show n ≤ (n + 4095) / 4096 * 4096 - 56 + 56
      omega
    · rw [he]
      unfold wadd PMM_MAX_PAGES at *
      omega

/-! ### Taking a block -/

theorem mem_extent_of_carve {c b : Block} {n x : ℕ} (hb : b ∈ c.carve n) (hx : x ∈ b.extent) :
    x ∈ c.extent := by
  unfold Block.carve at hb
  split_ifs at hb
  · simp only [List.mem_cons, List.not_mem_nil, or_false] at hb
    rcases hb with rfl | rfl
    all_goals
      simp only [Block.extent, Block.stop, Set.mem_Ico] at *
      omega
  · obtain rfl := List.mem_singleton.mp hb
    exact hx

/-- The block at the front of a carved block is used and holds the request. -/
theorem carve_head {c : Block} {n : ℕ} (hn : n + 56 ≤ c.size) :
    ∃ b ∈ c.carve n, b.free = false ∧ b.addr = c.addr ∧ n ≤ b.size := by
  unfold Block.carve
  split_ifs
  · exact ⟨_, List.mem_cons_self, rfl, rfl, le_rfl⟩
  · exact ⟨_, List.mem_cons_self, rfl, rfl, by show n ≤ c.size; omega⟩

theorem HeapInv.takeBlock {c : Block} {n : ℕ} (hi : HeapInv s (xs ++ c :: ys)) (hc : c.Fits n) :
    HeapInv { s with mem := s.mem.takeBlock c.addr n } (xs ++ (c.carve n ++ ys)) := by
  obtain ⟨hl, _⟩ := hi.list.takeBlock hc.2
  refine hi.withMem hl (fun b hb x hx => ?_)
  rw [List.mem_append, List.mem_append] at hb
  rcases hb with hb | hb | hb
  · exact hi.owned b (by simp [hb]) x hx
  · exact hi.owned c (by simp) x (mem_extent_of_carve hb hx)
  · exact hi.owned b (by simp [hb]) x hx

/-- Taking a block leaves the payloads of all used blocks alone. -/
theorem HeapList.takeBlock_payload {c b : Block} {n x : ℕ} (hl : HeapList m head (xs ++ c :: ys))
    (hc : c.Fits n) (hb : b ∈ xs ++ c :: ys) (hu : b.free = false) (hx : x ∈ b.payload) :
    m.takeBlock c.addr n x = m x := by
  obtain ⟨_, hf⟩ := hl.takeBlock hc.2
  have hbc : b ≠ c := by
    rintro rfl
    rw [hc.1] at hu
    cases hu
  refine hf x (fun hxc => ?_) (fun d hd => hl.payload_untagged hb hx d (by simp [hd]))
  have := hl.apart.forall hb (by simp : c ∈ xs ++ c :: ys) hbc
  simp only [Block.Apart, Block.payload, Block.extent, Block.stop, Set.mem_Ico] at *
  omega

/-! ### `kmalloc` -/

/-- The outcomes of `kmalloc`: the heap may have grown, and from the list it then has, a block of
at least `size` bytes may have been taken. -/
def Mallocs (s : Heap) (bs : List Block) (size : ℕ) (s' : Heap) (ptr : ℕ) : Prop :=
  ∃ s₁ bs₁, Grows s bs s₁ bs₁ ∧
    ((ptr = 0 ∧ s' = s₁) ∨
      ∃ xs c ys n, size ≤ n ∧ bs₁ = xs ++ c :: ys ∧ c.Fits n ∧ ptr = c.addr + 40 ∧
        s' = { s₁ with mem := s₁.mem.takeBlock c.addr n })

/-- The search of `kmalloc`. -/
theorem HeapInv.findFit {fuel n cur : ℕ} (hi : HeapInv s bs) (h : s.mem.findFit n fuel s.heapHead = .ok cur) :
    (cur = 0 ∧ ∀ b ∈ bs, ¬ b.Passes (wadd n OVERHEAD)) ∨
      (cur ≠ 0 ∧ wadd cur HEADER_SIZE = cur + 40 ∧
        ∃ xs c ys, bs = xs ++ c :: ys ∧ cur = c.addr ∧ c.Passes (wadd n OVERHEAD)) := by
  rw [hi.list.head_eq] at h
  rcases HeapList.findFit fuel [] hi.list h with h | ⟨xs, c, ys, e, rfl, hc⟩
  · exact .inl h
  · have hcm : c ∈ bs := by simp [e]
    have hlt := hi.list.bound c hcm
    unfold Block.stop at hlt
    exact .inr ⟨hi.list.nonnull c hcm, wadd_of_lt (by unfold HEADER_SIZE; omega), xs, c, ys, e, rfl, hc⟩

/-- A request for 0 bytes gets `NULL`. -/
theorem kmalloc_zero {fuel size ptr : ℕ} (h0 : size = 0) (h : s.kmalloc fuel size = .ok (s', ptr)) : s' = s ∧ ptr = 0 := by
  cases fuel with
  | zero => cases h
  | succ fuel =>
      unfold Heap.kmalloc at h
      rw [if_pos h0] at h
      obtain ⟨rfl, rfl⟩ := Prod.mk.inj (Except.ok.inj h)
      exact ⟨rfl, rfl⟩

/-- **One round of `kmalloc`**, whether its computations wrap or not: it takes the first block that passes
the test, or asks for an expansion and, if it gets it, begins again with the rounded size. -/
theorem kmalloc_round {fuel size ptr : ℕ} (hi : HeapInv s bs) (h0 : size ≠ 0)
    (h : s.kmalloc (fuel + 1) size = .ok (s', ptr)) :
    (∃ xs c ys, bs = xs ++ c :: ys ∧ c.Passes (wadd (alignUp size 16) OVERHEAD) ∧ ptr = c.addr + 40 ∧
      s' = { s with mem := s.mem.takeBlock c.addr (alignUp size 16) }) ∨
    (∀ b ∈ bs, ¬ b.Passes (wadd (alignUp size 16) OVERHEAD)) ∧ ∃ s₁ r,
      s.heapExpand (fuel + 1) (wadd (wadd (alignUp size 16) OVERHEAD) PAGE_SIZE) = .ok (s₁, r) ∧
        (r = 0 ∧ s₁.kmalloc fuel (alignUp size 16) = .ok (s', ptr) ∨ r ≠ 0 ∧ s' = s₁ ∧ ptr = 0) := by
  unfold Heap.kmalloc at h
  rw [if_neg h0] at h
  simp only [bind_eq_ok] at h
  obtain ⟨cur, hfind, h⟩ := h
  rcases hi.findFit hfind with ⟨rfl, hno⟩ | ⟨hne, hptr, xs, c, ys, e, rfl, hc⟩
  · rw [if_neg (by simp), bind_eq_ok] at h
    obtain ⟨⟨s₁, r⟩, hexp, h⟩ := h
    refine .inr ⟨hno, s₁, r, hexp, ?_⟩
    dsimp only at h
    split at h
    · rename_i hr
      exact .inl ⟨hr, h⟩
    · rename_i hr
      obtain ⟨rfl, rfl⟩ := Prod.mk.inj (Except.ok.inj h)
      exact .inr ⟨hr, rfl, rfl⟩
  · rw [if_pos hne] at h
    obtain ⟨rfl, rfl⟩ := Prod.mk.inj (Except.ok.inj h)
    exact .inl ⟨xs, c, ys, e, hc, hptr, rfl⟩

/-- The sizes that a round computes from a size that does not wrap. -/
theorem NoWrap.sizes {size : ℕ} (hw : NoWrap size) : alignUp size 16 = (size + 15) / 16 * 16 ∧
    alignUp ((size + 15) / 16 * 16) 16 = (size + 15) / 16 * 16 ∧
    wadd ((size + 15) / 16 * 16) OVERHEAD = (size + 15) / 16 * 16 + 56 ∧
    wadd ((size + 15) / 16 * 16 + 56) PAGE_SIZE = (size + 15) / 16 * 16 + 56 + 4096 := by
  unfold NoWrap at hw
  unfold OVERHEAD HEADER_SIZE FOOTER_SIZE PAGE_SIZE
  refine ⟨alignUp_16 (by omega), ?_, wadd_of_lt (by omega), wadd_of_lt (by omega)⟩
  rw [alignUp_16 (by omega)]
  omega

/-- The expansion and the round after it: the new block serves the request. -/
theorem kmalloc_retry {fuel fuel' n ptr : ℕ} {s₁ : Heap} {r : ℤ} (hi : HeapInv s bs) (h0 : n ≠ 0)
    (hn : n + 56 + 4096 + 4095 < 2 ^ 64) (halign : alignUp n 16 = n)
    (hexp : s.heapExpand fuel' (n + 56 + 4096) = .ok (s₁, r))
    (h : r = 0 ∧ s₁.kmalloc fuel n = .ok (s', ptr) ∨ r ≠ 0 ∧ s' = s₁ ∧ ptr = 0) :
    (Grows s bs s' bs ∧ ptr = 0 ∨ ∃ bs₁ xs c ys, Grows s bs s₁ bs₁ ∧ bs₁ = xs ++ c :: ys ∧ c.Fits n ∧
      ptr = c.addr + 40 ∧ s' = { s₁ with mem := s₁.mem.takeBlock c.addr n }) ∧
    ∃ k p, 1 ≤ k ∧ Pmm.Allocates s.pmm k s'.pmm p := by
  obtain ⟨p, _, ha, _⟩ := heapExpand_spec hi (by omega) (by omega) hexp
  have hk : 1 ≤ (n + 56 + 4096 + 4095) / 4096 := by omega
  rcases heapExpand_grows hi (by omega) (by omega) hexp with ⟨rfl, hg⟩ | ⟨rfl, c', hcf, hcs, hg⟩
  · obtain ⟨hr, _⟩ | ⟨_, rfl, rfl⟩ := h
    · cases hr
    · exact ⟨.inl ⟨hg, rfl⟩, _, p, hk, ha⟩
  · obtain ⟨_, h⟩ | ⟨hr, _⟩ := h
    · cases fuel with
      | zero => cases h
      | succ fuel =>
          have hneed : wadd n OVERHEAD = n + 56 := wadd_of_lt (by unfold OVERHEAD HEADER_SIZE FOOTER_SIZE; omega)
          obtain ⟨xs, c, ys, e, hc, hptr, hs⟩ | ⟨hno, _⟩ := kmalloc_round hg.inv h0 h
          · rw [halign] at hc hs
            rw [hneed] at hc
            refine ⟨.inr ⟨_, xs, c, ys, hg, e, hc, hptr, hs⟩, _, p, hk, ?_⟩
            rw [hs]
            exact ha
          · rw [halign, hneed] at hno
            exact absurd ⟨hcf, by omega⟩ (hno c' (by simp))
    · exact absurd rfl hr

/-- **What `kmalloc` does.**  After a successful expansion the second search always succeeds, so
the heap grows at most once. -/
theorem kmalloc_spec {fuel size ptr : ℕ} (hi : HeapInv s bs) (hw : NoWrap size)
    (h : s.kmalloc fuel size = .ok (s', ptr)) : Mallocs s bs size s' ptr := by
  cases fuel with
  | zero => cases h
  | succ fuel =>
      by_cases h0 : size = 0
      · obtain ⟨rfl, rfl⟩ := kmalloc_zero h0 h
        exact ⟨s', bs, .refl hi, .inl ⟨rfl, rfl⟩⟩
      · obtain ⟨halign, halign', hneed, hask⟩ := hw.sizes
        obtain h := kmalloc_round hi h0 h
        rw [halign, hneed, hask] at h
        unfold NoWrap at hw
        obtain ⟨xs, c, ys, e, hc, hptr, hs⟩ | ⟨_, s₁, r, hexp, h⟩ := h
        · exact ⟨s, bs, .refl hi, .inr ⟨xs, c, ys, _, by omega, e, hc, hptr, hs⟩⟩
        · obtain ⟨⟨hg, rfl⟩ | ⟨bs₁, xs, c, ys, hg, e, hc, hptr, hs⟩, _⟩ :=
            kmalloc_retry hi (by omega) hw halign' hexp h
          · exact ⟨s', bs, hg, .inl ⟨rfl, rfl⟩⟩
          · exact ⟨s₁, bs₁, hg, .inr ⟨xs, c, ys, _, by omega, e, hc, hptr, hs⟩⟩

/-- **The pages that `kmalloc` takes**: none where a block fits, else at least one. -/
theorem kmalloc_pages {fuel size ptr : ℕ} (hi : HeapInv s bs) (h0 : size ≠ 0) (hw : NoWrap size)
    (h : s.kmalloc fuel size = .ok (s', ptr)) :
    ((∃ b ∈ bs, b.Fits ((size + 15) / 16 * 16)) ∧ s'.pmm = s.pmm) ∨
      (¬ ∃ b ∈ bs, b.Fits ((size + 15) / 16 * 16)) ∧ ∃ k p, 1 ≤ k ∧ Pmm.Allocates s.pmm k s'.pmm p := by
  cases fuel with
  | zero => cases h
  | succ fuel =>
      obtain ⟨halign, halign', hneed, hask⟩ := hw.sizes
      obtain h := kmalloc_round hi h0 h
      rw [halign, hneed, hask] at h
      unfold NoWrap at hw
      obtain ⟨xs, c, ys, e, hc, _, hs⟩ | ⟨hno, s₁, r, hexp, h⟩ := h
      · exact .inl ⟨⟨c, by simp [e], hc⟩, by rw [hs]⟩
      · exact .inr ⟨fun ⟨b, hb, hfit⟩ => hno b hb hfit, (kmalloc_retry hi (by omega) hw halign' hexp h).2⟩

end HeroOS
