import HeroOS.VmmRuns
import HeroOS.KheapRuns

/-! # Leaving an address space

The life of an address space in `kernel/mm/vmm.c`, over the kernel heap that holds its structure:
`vmm_create_address_space` takes a block of the heap and a page for the PML4, `vmm_map_range` takes
pages for tables below it, and `vmm_destroy_address_space` frees the page of the PML4 and the block.
Nothing frees the tables below.

* `Mapping.step`: the page allocator and the tables stay in step over any calls, with any arguments;
* `address_space_returned_iff`: the pages come back exactly when none was mapped and the heap had room
  for the structure. -/

namespace HeroOS

open Word Mem Pmm

/-- `sizeof(addr_space_t)`: four words. -/
def SIZEOF_ADDR_SPACE : ℕ := 32

/-- The kernel heap and the active tables, over one memory and one page allocator. -/
structure VmMachine extends Heap where
  cr3 : ℕ
  /-- Ghost: the pages in use as tables. -/
  tables : List ℕ

namespace Paging

/-- The loop of `vmm_unmap_range`: `n` pages are left, from `offset` on. -/
def unmapLoop (s : Paging) (virt : ℕ) : ℕ → ℕ → Paging
  | 0, _ => s
  | n + 1, offset => unmapLoop (s.pagingUnmap (wadd virt offset)) virt n (offset + PAGE_SIZE)

/-- `vmm_unmap_range` -/
def vmmUnmapRange (s : Paging) (virt size : ℕ) : Paging := s.unmapLoop virt (alignUp size PAGE_SIZE / PAGE_SIZE) 0

end Paging

namespace VmMachine

/-- The part of the machine that the paging code works on. -/
def paging (s : VmMachine) : Paging := ⟨s.mem, s.pmm, s.cr3, s.tables⟩

/-- The machine after the paging code has worked on it. -/
def withPaging (s : VmMachine) (p : Paging) : VmMachine :=
  { s with mem := p.mem, pmm := p.pmm, cr3 := p.cr3, tables := p.tables }

/-- `vmm_create_address_space`; the fields of `addr_space_t` are `pml4_phys` at 0, `heap_start` at 8,
`heap_end` at 16 and `stack_top` at 24. -/
def vmmCreateAddressSpace (fuel : ℕ) (s : VmMachine) : Except Halt (VmMachine × ℕ) := do
  let (heap, as) ← s.toHeap.kmalloc fuel SIZEOF_ADDR_SPACE
  if as = 0 then .ok ({ s with toHeap := heap }, 0)
  else do
    let (pmm, pml4Phys) ← heap.pmm.pmmAllocPage
    let mem := heap.mem.fill pml4Phys PAGE_SIZE 0
    let mem := mem.write64 as pml4Phys
    let mem := mem.write64 (as + 8) 0x400000
    let mem := mem.write64 (as + 16) (mem.read64 (as + 8))
    let mem := mem.write64 (as + 24) 0x00007FFFFFFFE000
    .ok ({ s with toHeap := { heap with mem := mem, pmm := pmm } }, as)

/-- `vmm_destroy_address_space` -/
def vmmDestroyAddressSpace (s : VmMachine) (as : ℕ) : VmMachine :=
  if as = 0 then s
  else
    let s := { s with pmm := s.pmm.pmmFreePage (s.mem.read64 as) }
    { s with mem := s.mem.kfree as }

/-- `vmm_switch_address_space`, to an address space without tables below its PML4. -/
def vmmSwitchAddressSpace (s : VmMachine) (as : ℕ) : VmMachine :=
  if as = 0 then s else { s with cr3 := s.mem.read64 as, tables := [s.mem.read64 as] }

end VmMachine

/-- The calls between the creation of an address space and its end. -/
inductive RangeOp where
  | map (virt phys size flags : ℕ)
  | unmap (virt size : ℕ)
deriving DecidableEq, Repr

/-- The number of pages that a call maps. -/
def RangeOp.mappedPages : RangeOp → ℕ
  | .map _ _ size _ => alignUp size PAGE_SIZE / PAGE_SIZE
  | .unmap _ _ => 0

/-- A call that returns. -/
inductive RangeStep (s : VmMachine) : RangeOp → VmMachine → Prop
  | map {virt phys size flags : ℕ} {p : Paging} (h : s.paging.vmmMapRange virt phys size flags = .ok p) :
      RangeStep s (.map virt phys size flags) (s.withPaging p)
  | unmap (virt size : ℕ) : RangeStep s (.unmap virt size) (s.withPaging (s.paging.vmmUnmapRange virt size))

variable {b : Pmm} {m : Mem} {root v phys flags size : ℕ} {s s' : Paging} {lv : ℕ → ℕ} {bs : List Block} {fuel as : ℕ}
  {w w' : VmMachine} {op : RangeOp} {ops : List RangeOp}

/-! ### Mapping and unmapping -/

theorem VmMachine.paging_withPaging (w : VmMachine) (p : Paging) : (w.withPaging p).paging = p := rfl

theorem VmMachine.tables_withPaging (w : VmMachine) (p : Paging) : (w.withPaging p).tables = p.tables := rfl

theorem VmMachine.tables_paging (w : VmMachine) : w.paging.tables = w.tables := rfl

/-- The active tables, below a PML4 at `root`: their pages are what the allocator has given out since
`b`, and nothing but tables has been written since `m`. -/
structure Mapping (b : Pmm) (m : Mem) (root : ℕ) (s : Paging) (lv : ℕ → ℕ) : Prop where
  inv : TableInv s lv
  noHuge : NoHuge s lv
  books : Accounts b s.pmm s.tableLedger
  pml4 : s.pml4 = root
  writes : ∀ x, s.mem x ≠ m x → ∃ t ∈ s.tables, t ≤ x ∧ x < t + 4096

/-- There is a table below the PML4. -/
def Deep (root : ℕ) (s : Paging) : Prop := ∃ t ∈ s.tables, t ≠ root

theorem Mapping.setLeaf {pt e : ℕ} {i : Fin 512} (h : Mapping b m root s lv) (hpt : pt ∈ s.tables) (h1 : lv pt = 1) :
    Mapping b m root (s.setLeaf pt i e) lv := by
  refine ⟨h.inv.setLeaf hpt h1, h.inv.noHuge_setLeaf h.noHuge hpt h1, h.books, h.pml4, fun x hx => ?_⟩
  by_cases hin : pt ≤ x ∧ x < pt + 4096
  · exact ⟨pt, hpt, hin⟩
  · have hout : (s.setLeaf pt i e).mem x = s.mem x := Mem.setPte_of_outside (by omega)
    rw [hout] at hx
    exact h.writes x hx

/-- **Mapping a page**, at any address and with any flags, leaves a table below the PML4. -/
theorem Mapping.map (h : Mapping b m root s lv) (hm : s.pagingMap v phys flags = .ok s') :
    (∃ lv', Mapping b m root s' lv') ∧ Deep root s' := by
  have hb : Accounts b s.pmm ([] ++ (s.tableLedger ++ [])) := by simpa using h.books
  have hbooks := Paging.pagingMap_accounts hb hm
  rw [List.append_nil, List.nil_append] at hbooks
  obtain ⟨s₁, lv₁, pt, hex, ht, rfl⟩ := pagingMap_spec h.inv (h.inv.hugeMapped_of_noHuge h.noHuge v) hm
  obtain ⟨hpt, h1⟩ := hex.inv.tableOf_mem ht
  have hroot : s₁.pml4 = root := hex.pml4.trans h.pml4
  have h₁ : Mapping b m root s₁ lv₁ := by
    refine ⟨hex.inv, hex.noHuge h.noHuge, hbooks, hroot, fun x hx => ?_⟩
    by_cases hs : s₁.mem x = s.mem x
    · rw [hs] at hx
      obtain ⟨t, ht, hin⟩ := h.writes x hx
      exact ⟨t, hex.mono t ht, hin⟩
    · exact hex.writes x hs
  refine ⟨⟨lv₁, h₁.setLeaf hpt h1⟩, pt, hpt, ?_⟩
  rintro rfl
  have h4 := hex.inv.root_level
  rw [hroot] at h4
  omega

theorem Mapping.unmap (h : Mapping b m root s lv) (v : ℕ) :
    Mapping b m root (s.pagingUnmap v) lv ∧ (s.pagingUnmap v).tables = s.tables := by
  rw [pagingUnmap_eq h.inv (h.inv.hugeMapped_of_noHuge h.noHuge v)]
  cases ht : s.tableOf lv v with
  | none => exact ⟨h, rfl⟩
  | some pt =>
      obtain ⟨hpt, h1⟩ := h.inv.tableOf_mem ht
      exact ⟨h.setLeaf hpt h1, rfl⟩

theorem Mapping.mapLoop {n offset : ℕ} (h : Mapping b m root s lv) (hm : s.mapLoop v phys flags n offset = .ok s') :
    (∃ lv', Mapping b m root s' lv') ∧ (n = 0 → s' = s) ∧ (n ≠ 0 ∨ Deep root s → Deep root s') := by
  induction n generalizing s lv offset with
  | zero =>
      obtain rfl := Except.ok.inj hm
      exact ⟨⟨lv, h⟩, fun _ => rfl, fun hd => hd.resolve_left (by simp)⟩
  | succ n ih =>
      unfold Paging.mapLoop at hm
      obtain ⟨s₁, h₁, hm⟩ := bind_eq_ok.mp hm
      obtain ⟨⟨lv₁, hs₁⟩, hdeep⟩ := h.map h₁
      obtain ⟨hs', _, hd⟩ := ih hs₁ hm
      exact ⟨hs', fun h0 => by omega, fun _ => hd (.inr hdeep)⟩

theorem Mapping.unmapLoop {n offset : ℕ} (h : Mapping b m root s lv) :
    Mapping b m root (s.unmapLoop v n offset) lv ∧ (s.unmapLoop v n offset).tables = s.tables := by
  induction n generalizing s offset with
  | zero => exact ⟨h, rfl⟩
  | succ n ih =>
      obtain ⟨h₁, ht₁⟩ := h.unmap (wadd v offset)
      obtain ⟨h', ht'⟩ := ih h₁
      exact ⟨h', ht'.trans ht₁⟩

theorem Mapping.unmapRange (h : Mapping b m root s lv) (virt size : ℕ) :
    Mapping b m root (s.vmmUnmapRange virt size) lv ∧ (s.vmmUnmapRange virt size).tables = s.tables := by
  unfold Paging.vmmUnmapRange
  exact h.unmapLoop

/-- **One call** keeps the invariant; the tables stay as they are unless a page is mapped, and then
there is one below the PML4. -/
theorem Mapping.step (h : ∃ lv, Mapping b m root w.paging lv) (hs : RangeStep w op w') :
    (∃ lv, Mapping b m root w'.paging lv) ∧ (op.mappedPages = 0 → w'.tables = w.tables) ∧
      (op.mappedPages ≠ 0 ∨ Deep root w.paging → Deep root w'.paging) := by
  obtain ⟨lv, h⟩ := h
  cases hs with
  | @map virt phys size flags p hm =>
      rw [VmMachine.paging_withPaging, VmMachine.tables_withPaging, RangeOp.mappedPages]
      unfold Paging.vmmMapRange at hm
      generalize alignUp size PAGE_SIZE / PAGE_SIZE = n at hm ⊢
      obtain ⟨h', hnone, hdeep⟩ := h.mapLoop hm
      refine ⟨h', fun h0 => ?_, hdeep⟩
      rw [hnone h0, VmMachine.tables_paging]
  | unmap virt size =>
      obtain ⟨h', ht⟩ := h.unmapRange virt size
      rw [VmMachine.paging_withPaging, VmMachine.tables_withPaging, ← VmMachine.tables_paging, RangeOp.mappedPages]
      refine ⟨⟨lv, h'⟩, fun _ => ht, fun hd => ?_⟩
      obtain ⟨t, htab, hne⟩ := hd.resolve_left (fun hn => hn rfl)
      refine ⟨t, ?_, hne⟩
      rw [ht]
      exact htab

theorem Mapping.run (h : ∃ lv, Mapping b m root w.paging lv) (hr : Run RangeStep w ops w') :
    (∃ lv, Mapping b m root w'.paging lv) ∧ ((∀ op ∈ ops, op.mappedPages = 0) → w'.tables = w.tables) ∧
      ((∃ op ∈ ops, op.mappedPages ≠ 0) ∨ Deep root w.paging → Deep root w'.paging) := by
  induction hr with
  | nil w => exact ⟨h, fun _ => rfl, fun hd => hd.resolve_left (by simp)⟩
  | @cons w w₁ w₂ op ops hs _ ih =>
      obtain ⟨h₁, hsame, hdeep⟩ := Mapping.step h hs
      obtain ⟨h', hsame', hdeep'⟩ := ih h₁
      refine ⟨h', fun hall => ?_, fun hd => hdeep' ?_⟩
      · rw [hsame' fun op hop => hall op (List.mem_cons_of_mem _ hop), hsame (hall op List.mem_cons_self)]
      · rcases hd with ⟨op', hop', hne⟩ | hd
        · rcases List.mem_cons.mp hop' with rfl | hop'
          · exact .inr (hdeep (.inl hne))
          · exact .inl ⟨op', hop', hne⟩
        · exact .inr (hdeep (.inr hd))

/-! ### Creation -/

/-- A machine with a new address space `as`: its structure points to a cleared page `p`, which has been
taken after the heap was left in the state `b` of the allocator. -/
structure Created (b : Pmm) (p as : ℕ) (w : VmMachine) : Prop where
  hint : b.lastFreeHint ≤ PMM_MAX_PAGES
  free_lt : b.freePhysPages < 2 ^ 64
  page : Allocates b 1 w.pmm p
  pml4 : w.mem.read64 as = p * PAGE_SIZE
  cleared : ∀ x, p * PAGE_SIZE ≤ x → x < p * PAGE_SIZE + 4096 → w.mem x = 0
  struct : ∀ x, as ≤ x → x < as + 32 → b.bitmapTest (x / PAGE_SIZE) = true

/-- The block that `kmalloc` returns lies in used pages. -/
theorem kmalloc_used {s s' : Heap} {ptr : ℕ} (hi : HeapInv s bs) (hw : NoWrap size) (hp : ptr ≠ 0)
    (h : s.kmalloc fuel size = .ok (s', ptr)) :
    s'.pmm.lastFreeHint ≤ PMM_MAX_PAGES ∧ s'.pmm.freePhysPages < 2 ^ 64 ∧
      ∀ x, ptr ≤ x → x < ptr + size → s'.pmm.bitmapTest (x / PAGE_SIZE) = true := by
  obtain ⟨s₁, bs₁, hg, hcase⟩ := kmalloc_spec hi hw h
  rcases hcase with ⟨h0, _⟩ | ⟨xs, c, ys, n, hn, hbs, hfit, hptr, rfl⟩
  · exact absurd h0 hp
  · refine ⟨hg.inv.hint, hg.inv.count, fun x hlow hhigh => ?_⟩
    have hc : c ∈ bs₁ := by simp [hbs]
    have hsize := hfit.2
    have hx : x ∈ c.extent := by
      simp only [Block.extent, Block.stop, Set.mem_Ico]
      omega
    exact (hg.inv.used _ (hg.inv.owned c hc x hx)).2

theorem Created.create (hi : HeapInv w.toHeap bs) (has : as ≠ 0) (h : w.vmmCreateAddressSpace fuel = .ok (w', as)) :
    ∃ b p, Created b p as w' ∧ ((∃ c ∈ bs, c.Fits 32) ∧ b = w.pmm ∨
      (¬ ∃ c ∈ bs, c.Fits 32) ∧ ∃ k q, 1 ≤ k ∧ Allocates w.pmm k b q) := by
  unfold VmMachine.vmmCreateAddressSpace at h
  obtain ⟨⟨heap, ptr⟩, hk, h⟩ := bind_eq_ok.mp h
  dsimp only at h
  split at h
  · cases h
    exact absurd rfl has
  · rename_i hptr
    obtain ⟨⟨pmm, phys⟩, ha, h⟩ := bind_eq_ok.mp h
    obtain ⟨rfl, rfl⟩ := Prod.mk.inj (Except.ok.inj h)
    have hw : NoWrap SIZEOF_ADDR_SPACE := by decide
    obtain ⟨hhint, hfree, hused⟩ := kmalloc_used hi hw hptr hk
    obtain ⟨p, rfl, hal⟩ := pmmAllocPage_spec hhint ha
    have hb := hal.bound
    have hlt : p * PAGE_SIZE < 2 ^ 64 := by
      unfold PAGE_SIZE PMM_MAX_PAGES at *
      omega
    have hpages := kmalloc_pages hi (by decide) hw hk
    refine ⟨heap.pmm, p, ⟨hhint, hfree, hal, ?_, fun x hlow hhigh => ?_, hused⟩, ?_⟩
    · dsimp only
      rw [read64_write64_of_disjoint (by omega), read64_write64_of_disjoint (by omega),
        read64_write64_of_disjoint (by omega), read64_write64_same _ _ hlt]
    · -- the structure lies in used pages, so that it does not overlap the page taken here
      have hpage : x / PAGE_SIZE = p := by
        unfold PAGE_SIZE at *
        omega
      have hout : ¬ (ptr ≤ x ∧ x < ptr + 32) := by
        rintro ⟨h1, h2⟩
        have hu := hused x h1 h2
        rw [hpage, hal.wasFree p ⟨le_rfl, by omega⟩] at hu
        cases hu
      dsimp only
      rw [write64_of_outside (by omega), write64_of_outside (by omega), write64_of_outside (by omega),
        write64_of_outside (by omega)]
      exact if_pos ⟨hlow, hhigh⟩
    · rcases hpages with ⟨hfit, he⟩ | ⟨hno, hk⟩
      · exact .inl ⟨hfit, he⟩
      · exact .inr ⟨hno, hk⟩

/-- The new address space becomes the active one. -/
theorem Created.mapping {p : ℕ} (h : Created b p as w) (has : as ≠ 0) :
    ∃ lv, Mapping b w.mem (p * PAGE_SIZE) (w.vmmSwitchAddressSpace as).paging lv := by
  have hpage : (p * PAGE_SIZE) / 4096 = p := page_of_phys rfl
  have hb := h.page.bound
  have hswitch : (w.vmmSwitchAddressSpace as).paging = w.paging.pagingSwitchDirectory (p * PAGE_SIZE) := by
    unfold VmMachine.vmmSwitchAddressSpace
    rw [if_neg has, h.pml4]
    rfl
  rw [hswitch]
  have hroot : (w.paging.pagingSwitchDirectory (p * PAGE_SIZE)).pml4 = p * PAGE_SIZE :=
    Paging.pml4_pagingSwitchDirectory (by omega)
  have hempty : EmptyPml4 (w.paging.pagingSwitchDirectory (p * PAGE_SIZE)) := by
    refine ⟨?_, fun x hlow hhigh => ?_, ?_, h.page.hint h.hint⟩
    · rw [hroot]
      rfl
    · rw [hroot] at hlow hhigh
      exact h.cleared x hlow hhigh
    · rw [hroot, hpage]
      exact ⟨by omega, (h.page.test_iff p).mpr (.inl ⟨le_rfl, by omega⟩)⟩
  have hr := hempty.refines
  have hbooks : Accounts b w.pmm (Finset.Ico p (p + 1) :: []) := (Accounts.init h.hint h.free_lt).alloc h.page
  refine ⟨_, hr.inv, hr.noHuge, ?_, hroot, fun x hx => absurd rfl hx⟩
  have hledger : (w.paging.pagingSwitchDirectory (p * PAGE_SIZE)).tableLedger = [Finset.Ico p (p + 1)] := by
    unfold Paging.tableLedger Paging.pagingSwitchDirectory
    dsimp only
    rw [List.map_singleton, page_of_phys rfl, Nat.Ico_succ_singleton]
  rw [hledger]
  exact hbooks

/-! ### Destruction -/

/-- What the tables have taken. -/
theorem total_tableLedger (s : Paging) : s.tableLedger.total = s.tables.length := by
  unfold Paging.tableLedger
  induction s.tables with
  | nil => rfl
  | cons t ts ih => rw [List.map_cons, Ledger.total_cons, ih, Finset.card_singleton, List.length_cons, Nat.add_comm]

/-- **Destroying an address space** gives one page back, that of its PML4. -/
theorem Created.destroyed {p : ℕ} (h : Created b p as w) (has : as ≠ 0) (cr3 : ℕ) (tables : List ℕ)
    (hm : Mapping b w.mem (p * PAGE_SIZE) w'.paging lv) :
    wadd (VmMachine.vmmDestroyAddressSpace { w' with cr3 := cr3, tables := tables } as).pmm.freePhysPages
        (w'.tables.length - 1) = b.freePhysPages ∧
      (VmMachine.vmmDestroyAddressSpace { w' with cr3 := cr3, tables := tables } as).pmm.freePhysPages < 2 ^ 64 ∧
      w'.tables.length ≤ PMM_MAX_PAGES := by
  have hread : w'.mem.read64 as = p * PAGE_SIZE := by
    rw [← h.pml4]
    refine read64_congr fun x hx => ?_
    by_contra hne
    obtain ⟨t, ht, hlow, hhigh⟩ := hm.writes x hne
    have halign := hm.inv.aligned t ht
    have hpage : x / PAGE_SIZE = t / PAGE_SIZE := by
      unfold PAGE_SIZE
      omega
    have hheld : w'.paging.tableLedger.Holds (t / PAGE_SIZE) :=
      ⟨_, List.mem_map_of_mem ht, Finset.mem_singleton_self _⟩
    have hu := h.struct x hx.1 (by have := hx.2; omega)
    rw [hpage, (hm.books.held _ hheld).2] at hu
    cases hu
  have hdestroy : (VmMachine.vmmDestroyAddressSpace { w' with cr3 := cr3, tables := tables } as).pmm =
      w'.pmm.pmmFreePage (p * PAGE_SIZE) := by
    unfold VmMachine.vmmDestroyAddressSpace
    rw [if_neg has]
    dsimp only
    rw [hread]
  have hroot : p * PAGE_SIZE ∈ w'.paging.tables := hm.pml4 ▸ hm.inv.root_mem
  have hheld : w'.paging.tableLedger.Holds (p * PAGE_SIZE / PAGE_SIZE) :=
    ⟨_, List.mem_map_of_mem hroot, Finset.mem_singleton_self _⟩
  have hafter := hm.books.freePage hheld
  have htotal := Ledger.total_release hm.books.disjoint hheld
  have hle := Accounts.total_le (l := []) (by rw [List.append_nil]; exact hm.books)
  rw [total_tableLedger, VmMachine.tables_paging] at htotal hle
  have hlen : (w'.paging.tableLedger.release (p * PAGE_SIZE / PAGE_SIZE)).total = w'.tables.length - 1 := by omega
  have hf := hafter.free
  rw [hlen] at hf
  rw [hdestroy]
  exact ⟨hf, hafter.free_lt, hle⟩

/-- Two tables are more than one. -/
theorem Deep.length {root : ℕ} (h : Deep root s) (hroot : root ∈ s.tables) : 2 ≤ s.tables.length := by
  obtain ⟨t, ht, hne⟩ := h
  match hs : s.tables with
  | [] => simp [hs] at ht
  | [x] =>
      rw [hs, List.mem_singleton] at ht hroot
      exact absurd (ht.trans hroot.symm) hne
  | _ :: _ :: _ => simp

/-- **When the pages of an address space come back.**  In a well-formed heap, after the creation of an
address space, a switch to it, any calls of `vmm_map_range` and `vmm_unmap_range`, a switch away and its
destruction, as many pages are free as before exactly when the heap had a block for the structure, so that
it was not extended, and no call has mapped a page. -/
theorem address_space_returned_iff {w₁ w₂ : VmMachine} {other : ℕ} (hi : HeapInv w.toHeap bs)
    (hcreate : w.vmmCreateAddressSpace fuel = .ok (w₁, as)) (has : as ≠ 0)
    (hrun : Run RangeStep (w₁.vmmSwitchAddressSpace as) ops w₂) :
    ((w₂.vmmSwitchAddressSpace other).vmmDestroyAddressSpace as).pmm.freePhysPages = w.pmm.freePhysPages ↔
      (∃ c ∈ bs, c.Fits 32) ∧ ∀ op ∈ ops, op.mappedPages = 0 := by
  obtain ⟨b, p, hc, hpages⟩ := Created.create hi has hcreate
  obtain ⟨⟨lv, hm⟩, hsame, hdeep⟩ := Mapping.run (hc.mapping has) hrun
  obtain ⟨cr3, tables, hswitch⟩ : ∃ cr3 tables,
      w₂.vmmSwitchAddressSpace other = { w₂ with cr3 := cr3, tables := tables } := by
    unfold VmMachine.vmmSwitchAddressSpace
    split
    · exact ⟨w₂.cr3, w₂.tables, rfl⟩
    · exact ⟨_, _, rfl⟩
  obtain ⟨hfree, hlt, hle⟩ := hc.destroyed has cr3 tables hm
  have hroot : p * PAGE_SIZE ∈ w₂.paging.tables := hm.pml4 ▸ hm.inv.root_mem
  have hone : w₂.tables.length = 1 ↔ ∀ op ∈ ops, op.mappedPages = 0 := by
    constructor
    · intro hlen op hop
      by_contra hne
      have hlong := (hdeep (.inl ⟨op, hop, hne⟩)).length hroot
      rw [VmMachine.tables_paging] at hlong
      omega
    · intro hall
      rw [hsame hall]
      unfold VmMachine.vmmSwitchAddressSpace
      rw [if_neg has]
      rfl
  have hpos : 1 ≤ w₂.tables.length := List.length_pos_of_mem (VmMachine.tables_paging w₂ ▸ hroot)
  have hw := hi.count
  rw [hswitch, ← hone]
  generalize (VmMachine.vmmDestroyAddressSpace { w₂ with cr3 := cr3, tables := tables } as).pmm.freePhysPages = n
    at hfree hlt ⊢
  generalize w₂.tables.length = k at *
  rcases hpages with ⟨hfit, rfl⟩ | ⟨hno, j, q, hj, hal⟩
  · simp only [hfit, true_and]
    unfold wadd PMM_MAX_PAGES at *
    omega
  · simp only [hno, false_and, iff_false]
    have hb := hal.bound
    rw [hal.count] at hfree
    unfold wadd wsub PMM_MAX_PAGES at *
    omega

/-! ### A leak of three tables -/

/-- The calls between creation and destruction, as a function. -/
def RangeOp.exec (w : VmMachine) : RangeOp → Option VmMachine
  | .map virt phys size flags => (w.paging.vmmMapRange virt phys size flags).toOption.map w.withPaging
  | .unmap virt size => some (w.withPaging (w.paging.vmmUnmapRange virt size))

theorem RangeStep.of_exec (h : RangeOp.exec w op = some w') : RangeStep w op w' := by
  cases op with
  | map virt phys size flags =>
      obtain ⟨p, hp, rfl⟩ := Option.map_eq_some_iff.mp h
      exact .map (toOption_eq_some.mp hp)
  | unmap virt size =>
      obtain rfl := Option.some.inj h
      exact .unmap virt size

/-- The machine after `kheap_init`, with an empty PML4 in page 1. -/
def vmMachine : Option VmMachine :=
  ((freshHeap.kheapInit 4 0x02000000 (64 * 1024 * 1024)).toOption).map (fun s => ⟨s, 4096, [4096]⟩)

/-- An address space is created, used and destroyed. -/
def addressSpaceLife (ops : List RangeOp) : Option (VmMachine × VmMachine × ℕ × VmMachine) := do
  let w ← vmMachine
  let (w₁, as) ← (w.vmmCreateAddressSpace 4).toOption
  let w₂ ← ops.foldlM RangeOp.exec (w₁.vmmSwitchAddressSpace as)
  some (w, w₁, as, w₂)

theorem addressSpaceLife_spec (ops : List RangeOp) (P : VmMachine → ℕ → VmMachine → Prop)
    [∀ w as w₂, Decidable (P w as w₂)]
    (h : (addressSpaceLife ops).any (fun r => decide (P r.1 r.2.2.1 r.2.2.2)) = true) :
    ∃ (bs : List Block) (w w₁ : VmMachine) (as : ℕ) (w₂ : VmMachine), HeapInv w.toHeap bs ∧
      w.vmmCreateAddressSpace 4 = .ok (w₁, as) ∧ Run RangeStep (w₁.vmmSwitchAddressSpace as) ops w₂ ∧ P w as w₂ := by
  obtain ⟨⟨w, w₁, as, w₂⟩, hlife, hP⟩ := (Option.any_eq_true _ _).mp h
  unfold addressSpaceLife at hlife
  simp only [Option.bind_eq_bind, Option.bind_eq_some_iff, Option.some.injEq] at hlife
  obtain ⟨w', hw, ⟨w₁', as'⟩, hcreate, w₂', hrun, hlife⟩ := hlife
  simp only [Prod.mk.injEq] at hlife
  obtain ⟨rfl, rfl, rfl, rfl⟩ := hlife
  have hheap : ∃ bs, HeapInv w'.toHeap bs := by
    obtain ⟨s, hs, rfl⟩ := Option.map_eq_some_iff.mp hw
    obtain ⟨bs, hinv, _⟩ := freshHeap_inv (toOption_eq_some.mp hs)
    exact ⟨bs, hinv⟩
  obtain ⟨bs, hi⟩ := hheap
  have hstep : ∀ w op w', RangeOp.exec w op = some w' → RangeStep w op w' := fun _ _ _ h => RangeStep.of_exec h
  exact ⟨bs, _, _, _, _, hi, toOption_eq_some.mp hcreate, Run.of_exec hstep hrun, of_decide_eq_true hP⟩

/-- A range of no bytes is mapped and a page unmapped: nothing is lost. -/
theorem address_space_returned_unused : ∃ (bs : List Block) (w w₁ : VmMachine) (as : ℕ) (w₂ : VmMachine), HeapInv w.toHeap bs ∧
    w.vmmCreateAddressSpace 4 = .ok (w₁, as) ∧
    Run RangeStep (w₁.vmmSwitchAddressSpace as) [.map 0x400000 0x5000000 0 7, .unmap 0x400000 4096] w₂ ∧
    ∃ c ∈ bs, c.Fits 32 := by
  obtain ⟨bs, w, w₁, as, w₂, hi, hcreate, hrun, has, heq⟩ := addressSpaceLife_spec
    [.map 0x400000 0x5000000 0 7, .unmap 0x400000 4096]
    (fun w as w₂ => as ≠ 0 ∧
      ((w₂.vmmSwitchAddressSpace 0).vmmDestroyAddressSpace as).pmm.freePhysPages = w.pmm.freePhysPages)
    (by decide +kernel)
  exact ⟨bs, w, w₁, as, w₂, hi, hcreate, hrun, ((address_space_returned_iff hi hcreate has hrun).mp heq).1⟩

/-- One page is mapped and unmapped again: the three tables on the way to it are lost. -/
theorem address_space_tables_leaked : ∃ (bs : List Block) (w w₁ : VmMachine) (as : ℕ) (w₂ : VmMachine), HeapInv w.toHeap bs ∧
    w.vmmCreateAddressSpace 4 = .ok (w₁, as) ∧
    Run RangeStep (w₁.vmmSwitchAddressSpace as) [.map 0x400000 0x5000000 4096 7, .unmap 0x400000 4096] w₂ ∧
    as ≠ 0 ∧ ((w₂.vmmSwitchAddressSpace 0).vmmDestroyAddressSpace as).pmm.freePhysPages + 3 = w.pmm.freePhysPages :=
  addressSpaceLife_spec [.map 0x400000 0x5000000 4096 7, .unmap 0x400000 4096]
    (fun w as w₂ => as ≠ 0 ∧
      ((w₂.vmmSwitchAddressSpace 0).vmmDestroyAddressSpace as).pmm.freePhysPages + 3 = w.pmm.freePhysPages)
    (by decide +kernel)

end HeroOS
