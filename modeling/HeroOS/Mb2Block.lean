import HeroOS.Kheap
import HeroOS.Mb2Walk
import HeroOS.PmmMaps
import HeroOS.PmmRuns
import HeroOS.PmmSearch

/-! # The information block after `pmm_init`

`kmain` walks the information block again, after the heap and the drivers have allocated pages and written to
them.  `pmm_init` reserves the low 1 MiB and the kernel, but not the block.

`BootStep` runs the page allocator, the ledger of its outstanding pages and the memory together: memory is
written only in pages that are held.

* `block_unchanged`: a block whose pages are all used after `pmm_init` is the same in every state of a run;
* `mb2FindTag_congr`: then `mb2_find_tag` finds the same tags;
* `mb2_block_kept_iff`: the pages are all used if and only if no available entry marks one of them free. -/

namespace HeroOS

open Word Pmm

/-- The allocator with the pages that are held, and memory. -/
structure Boot where
  pmm : Pmm
  ledger : Ledger ℕ
  mem : Mem

/-- An allocator call, or writes to pages that are held. -/
inductive BootStep : Boot → Option Op → Boot → Prop
  | call {c : Boot} {op : Op} {s' : Pmm} {l' : Ledger ℕ} (h : PmmStep (c.pmm, c.ledger) op (s', l')) :
      BootStep c (some op) { c with pmm := s', ledger := l' }
  | write {c : Boot} {m' : Mem} (h : ∀ x, ¬ c.ledger.Holds (x / PAGE_SIZE) → m' x = c.mem x) :
      BootStep c none { c with mem := m' }

/-- The addresses of the block. -/
def blockBytes (m : Mem) (info : ℕ) : Set ℕ := Set.Ico info (info + m.read32 info)

/-- No page of the block is free, and in every run from here `mb2_find_tag` returns, for every tag that is asked
for, what it would have returned at the beginning. -/
structure BlockKept (m : Mem) (info : ℕ) (s : Pmm) : Prop where
  used : ∀ x ∈ blockBytes m info, x / PAGE_SIZE < PMM_MAX_PAGES → s.bitmapTest (x / PAGE_SIZE) = true
  found : ∀ events c, Run BootStep ⟨s, [], m⟩ events c → ∀ tagType, ∃ r,
    mb2FindTag (m.read32 info + 1) m info tagType = .ok r ∧ mb2FindTag (m.read32 info + 1) c.mem info tagType = .ok r

variable {s : Pmm} {m m' : Mem} {tags : List Tag} {c c' : Boot} {info lo hi p r fuel tagType : ℕ}

/-! ### Runs -/

/-- What holds of the allocator and of the memory outside of the pages that were free at the beginning. -/
structure BootInv (s : Pmm) (m : Mem) (c : Boot) : Prop where
  accounts : Accounts s c.pmm c.ledger
  mem : ∀ x, ¬ s.Free (x / PAGE_SIZE) → c.mem x = m x

theorem BootInv.step {event : Option Op} (h : BootInv s m c) (hs : BootStep c event c') : BootInv s m c' := by
  cases hs with
  | call hs => exact ⟨hs.accounts h.accounts, h.mem⟩
  | write hw =>
      refine ⟨h.accounts, fun x hx => ?_⟩
      have hout : ¬ c.ledger.Holds (x / PAGE_SIZE) := fun hheld => hx (h.accounts.held _ hheld)
      exact (hw x hout).trans (h.mem x hx)

/-- **Memory that is not free** stays as it is. -/
theorem block_unchanged {events : List (Option Op)} (hint : s.lastFreeHint ≤ PMM_MAX_PAGES) (hlt : s.freePhysPages < 2 ^ 64)
    (h : Run BootStep ⟨s, [], m⟩ events c) {x : ℕ} (hx : ¬ s.Free (x / PAGE_SIZE)) : c.mem x = m x := by
  have h0 : BootInv s m ⟨s, [], m⟩ := ⟨Accounts.init hint hlt, fun _ _ => rfl⟩
  have hinv : BootInv s m c := h.invariant (fun _ _ _ h hs => h.step hs) h0
  exact hinv.mem x hx

/-! ### Finding a tag again -/

theorem findLoopM_congr (heq : Set.EqOn m' m (Set.Ico lo hi)) (h : findLoopM m lo hi tagType fuel p = .ok r) :
    findLoopM m' lo hi tagType fuel p = .ok r := by
  have hread : ∀ {a}, lo ≤ a ∧ a + 4 ≤ hi → m'.read32 a = m.read32 a := by
    intro a ha
    apply Mem.readLE_congr 4
    intro x hx
    exact heq ⟨ha.1.trans hx.1, lt_of_lt_of_le hx.2 ha.2⟩
  induction fuel generalizing p with
  | zero => cases h
  | succ fuel ih =>
      rw [findLoopM] at h ⊢
      split
      · rename_i hp
        rw [if_pos hp, within_bind] at h
        obtain ⟨htype, h⟩ := h
        rw [within_bind, hread htype]
        refine ⟨htype, ?_⟩
        split
        · rename_i h0
          rwa [if_pos h0] at h
        · rename_i h0
          rw [if_neg h0] at h
          split
          · rename_i ht
            rwa [if_pos ht] at h
          · rename_i ht
            rw [if_neg ht, within_bind] at h
            rw [within_bind, hread h.1]
            exact ⟨h.1, ih h.2⟩
      · rename_i hp
        rwa [if_neg hp] at h

/-- In a well-formed block `mb2_find_tag` returns, also from a memory that agrees with the block. -/
theorem mb2FindTag_congr (h : InfoAt m info tags) (heq : Set.EqOn m' m (blockBytes m info)) (tagType : ℕ) :
    ∃ r, mb2FindTag (m.read32 info + 1) m info tagType = .ok r ∧ mb2FindTag (m.read32 info + 1) m' info tagType = .ok r := by
  have hle := h.tags.le
  have hin := h.inMemory
  obtain ⟨r, hr⟩ := @findLoopM_returns m info (info + m.read32 info) (info + 8) (m.read32 info + 1) tagType
    (headersFit_infoAt h) (by omega) (by omega)
  have htotal : m'.read32 info = m.read32 info := by
    apply Mem.readLE_congr 4
    intro x hx
    exact heq ⟨hx.1, lt_of_lt_of_le hx.2 (by omega)⟩
  have hend : wadd info (m.read32 info) = info + m.read32 info := wadd_of_lt hin
  have hstart : wadd info 8 = info + 8 := wadd_of_lt (by omega)
  refine ⟨r, ?_, ?_⟩
  · unfold mb2FindTag
    rw [if_neg h.nonnull, hend, hstart]
    exact findLoopM_val hr
  · unfold mb2FindTag
    rw [if_neg h.nonnull, htotal, hend, hstart]
    exact findLoopM_val (findLoopM_congr heq hr)

/-! ### Which blocks are kept -/

/-- **Which blocks are kept.**  For every well-formed block, wherever it is and whatever its memory maps are:
`pmm_init` returns, and no page of the block is free after it, so that no run of allocations and of writes to
allocated pages changes what `mb2_find_tag` finds, if and only if no available entry marks a page of the block
free. -/
theorem mb2_block_kept_iff (h : InfoAt m info tags) (hs : ∀ tag ∈ tags, tag.Strided) :
    ∃ s', pmmInit (tags.length + 1) m zeroed info = .ok s' ∧
      (BlockKept m info s' ↔
        ∀ x ∈ blockBytes m info, ∀ e ∈ arraysOf m (info + 8) tags, e.Available → x / PAGE_SIZE ∉ roundedPages e) := by
  have hinit := @pmmInit_infoAt zeroed _ _ _ _ h hs (Nat.lt_succ_self _)
  refine ⟨_, hinit, ?_⟩
  constructor
  · rintro ⟨hused, _⟩ x hx e he ha hr
    have hlt := hr.1.2.1
    have hfree := (@ofEntries_test zeroed _ _ hlt).mpr ⟨e, he, ha, hr⟩
    rw [hused x hx hlt] at hfree
    cases hfree
  · intro hout
    have hnot : ∀ x ∈ blockBytes m info, ¬ (zeroed.ofEntries (arraysOf m (info + 8) tags)).Free (x / PAGE_SIZE) := by
      rintro x hx ⟨hlt, hfree⟩
      obtain ⟨e, he, ha, hr⟩ := (ofEntries_test hlt).mp hfree
      exact hout x hx e he ha hr
    refine ⟨fun x hx hlt => ?_, fun events c hrun tagType => ?_⟩
    · rw [← Bool.not_eq_false]
      exact fun hfree => hnot x hx ⟨hlt, hfree⟩
    · have hint : (zeroed.ofEntries (arraysOf m (info + 8) tags)).lastFreeHint ≤ PMM_MAX_PAGES :=
        (pmmInit_hint hinit).trans_le (Nat.zero_le _)
      have hlt := (ofEntries_exceeds zeroed (mapRead_infoAt h hs (Nat.lt_succ_self _)).2).lt
      exact mb2FindTag_congr h (fun x hx => block_unchanged hint hlt hrun (hnot x hx)) tagType

/-! ### Examples of blocks -/

theorem mb2_block_kept_low : ∃ s', pmmInit 2 (wordMem 0x10000 (mapBlock plainMap)) zeroed 0x10000 = .ok s' ∧
    BlockKept (wordMem 0x10000 (mapBlock plainMap)) 0x10000 s' := by
  have htotal : (wordMem 0x10000 (mapBlock plainMap)).read32 0x10000 = 104 := by decide +kernel
  obtain ⟨s', hs', hiff⟩ := mb2_block_kept_iff infoAt_plainMap (by simp [Tag.Strided, MMAP_ENTRY_SIZE])
  refine ⟨s', hs', hiff.mpr fun x hx e _ _ hr => ?_⟩
  have hlow := hr.1.1
  have hlt : x < 0x10000 + 104 := htotal ▸ hx.2
  unfold PAGE_SIZE at hlow
  omega

/-- A block at 1 MiB in the memory that its map offers. -/
def blockMap : List MmapEntry := [⟨0x100000, 0x20000, 1⟩]

/-- The heap begins in the block's page, and the tag is lost. -/
theorem mb2_block_overwritten : ∃ s' heap, pmmInit 2 (wordMem 0x100000 (mapBlock blockMap)) zeroed 0x100000 = .ok s' ∧
    s'.bitmapTest 0x100 = false ∧
    Heap.kheapInit 1 ⟨wordMem 0x100000 (mapBlock blockMap), s', 0, 0, 0, 0, []⟩ 0x2000000 0x4000000 = .ok heap ∧
    mb2FindTag 2 (wordMem 0x100000 (mapBlock blockMap)) 0x100000 MB2_TAG_TYPE_MMAP = .ok 0x100008 ∧
    mb2FindTag 2 heap.mem 0x100000 MB2_TAG_TYPE_MMAP = .error .outOfFuel ∧
    ¬ BlockKept (wordMem 0x100000 (mapBlock blockMap)) 0x100000 s' := by
  have h : InfoAt (wordMem 0x100000 (mapBlock blockMap)) 0x100000 [.mmap MMAP_ENTRY_SIZE blockMap] :=
    ⟨by decide, by decide +kernel, ⟨by decide +kernel, by decide +kernel, by decide +kernel⟩, by decide +kernel,
      by decide +kernel, by decide +kernel⟩
  have hinit := @pmmInit_infoAt zeroed _ _ _ 2 h (by simp [Tag.Strided, MMAP_ENTRY_SIZE]) (by decide)
  have hentries : [Tag.mmap MMAP_ENTRY_SIZE blockMap].flatMap Tag.entries = blockMap := rfl
  rw [arraysOf_packed h.tags (by simp [Tag.Packed]), hentries] at hinit
  have hfree : (zeroed.ofEntries blockMap).bitmapTest 0x100 = false := by decide +kernel
  have hheap : (Heap.kheapInit 1 ⟨wordMem 0x100000 (mapBlock blockMap), zeroed.ofEntries blockMap, 0, 0, 0, 0, []⟩
      0x2000000 0x4000000).toOption.any
      (fun heap => decide (mb2FindTag 2 heap.mem 0x100000 MB2_TAG_TYPE_MMAP = .error .outOfFuel)) = true := by decide +kernel
  obtain ⟨heap, hheap, hlost⟩ := (Option.any_eq_true _ _).mp hheap
  refine ⟨_, heap, hinit, hfree, toOption_eq_some.mp hheap, by decide +kernel, of_decide_eq_true hlost, fun hkept => ?_⟩
  have hin : 0x100000 ∈ blockBytes (wordMem 0x100000 (mapBlock blockMap)) 0x100000 := ⟨le_rfl, by decide +kernel⟩
  have hused := hkept.used 0x100000 hin (by decide)
  rw [show 0x100000 / PAGE_SIZE = 0x100 from rfl, hfree] at hused
  cases hused

end HeroOS
