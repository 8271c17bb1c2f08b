import HeroOS.PagingRuns
import HeroOS.PmmRuns

/-! # Virtual memory

Address spaces and the allocation of mapped pages of `kernel/mm/vmm.c`.  `vmm_map_range`,
`vmm_alloc_pages` and `vmm_virt_to_phys` do not look at the tables of their address space: they work
on those that `CR3` points to.

`mapLoop_spec` says what the mapping loop does: the tables of the result refine the function of
before, extended by the mapped range, and the only pages taken from the physical memory manager are
new tables. -/

namespace HeroOS

open Word Pmm

/-- `addr_space_t` -/
structure AddrSpace where
  pml4Phys : ℕ
  heapStart : ℕ
  heapEnd : ℕ
  stackTop : ℕ

namespace Paging

/-- `vmm_create_address_space`, where `kmalloc` has room for the structure. -/
def vmmCreateAddressSpace (s : Paging) : Except Halt (Paging × AddrSpace) := do
  let (pmm, pml4Phys) ← s.pmm.pmmAllocPage
  .ok ({ s with mem := s.mem.fill pml4Phys PAGE_SIZE 0, pmm := pmm },
    ⟨pml4Phys, 0x400000, 0x400000, 0x00007FFFFFFFE000⟩)

/-- `paging_switch_directory` to a table without entries. -/
def pagingSwitchDirectory (s : Paging) (pml4Phys : ℕ) : Paging :=
  { s with cr3 := pml4Phys, tables := [pml4Phys] }

/-- The loop of `vmm_map_range`: `n` pages are left, from `offset` on. -/
def mapLoop (s : Paging) (virt phys flags : ℕ) : ℕ → ℕ → Except Halt Paging
  | 0, _ => .ok s
  | n + 1, offset => do
      let s ← s.pagingMap (wadd virt offset) (wadd phys offset) flags
      mapLoop s virt phys flags n (offset + PAGE_SIZE)

/-- `vmm_map_range` -/
def vmmMapRange (s : Paging) (virt phys size flags : ℕ) : Except Halt Paging :=
  s.mapLoop virt phys flags (alignUp size PAGE_SIZE / PAGE_SIZE) 0

/-- `vmm_alloc_pages`, with the address that it returns. -/
def vmmAllocPages (s : Paging) (as : Option AddrSpace) (count flags : ℕ) :
    Except Halt (Paging × Option AddrSpace × ℕ) := do
  let (pmm, phys) ← s.pmm.pmmAllocPages count
  match as with
  | none => .ok ({ s with pmm := pmm }, none, phys)
  | some as =>
      let s ← { s with pmm := pmm }.vmmMapRange as.heapEnd phys (wmul count PAGE_SIZE) flags
      .ok (s, some { as with heapEnd := wadd as.heapEnd (wmul count PAGE_SIZE) }, as.heapEnd)

/-- `vmm_virt_to_phys` -/
def vmmVirtToPhys (s : Paging) (virt : ℕ) : ℕ := s.pagingVirtToPhys virt

/-- The holdings of the page tables. -/
def tableLedger (s : Paging) : Ledger ℕ := s.tables.map (fun t => {t / PAGE_SIZE})

end Paging

/-- The flags of a present page, without bits of an address. -/
structure PageFlags (flags : ℕ) : Prop where
  lt : flags < 2 ^ 64
  present : isPresent flags = true
  no_addr : pteAddr flags = 0

instance (flags : ℕ) : Decidable (PageFlags flags) :=
  decidable_of_iff (flags < 2 ^ 64 ∧ isPresent flags = true ∧ pteAddr flags = 0)
    ⟨fun ⟨h1, h2, h3⟩ => ⟨h1, h2, h3⟩, fun h => ⟨h.lt, h.present, h.no_addr⟩⟩

variable {b : Pmm} {s s' : Paging} {k l : Ledger ℕ} {f : ℕ → Option ℕ} {virt phys flags : ℕ}

/-! ### Pages taken by `paging_map` -/

theorem Paging.getOrCreateTable_accounts {parent idx fl t : ℕ} (hb : Accounts b s.pmm (k ++ (s.tableLedger ++ l)))
    (h : s.getOrCreateTable parent idx fl = .ok (s', t)) : Accounts b s'.pmm (k ++ (s'.tableLedger ++ l)) := by
  unfold getOrCreateTable at h
  split at h
  · simp only [Except.ok.injEq, Prod.mk.injEq] at h
    rwa [← h.1]
  · rw [bind_eq_ok] at h
    obtain ⟨⟨pmm, phys⟩, ha, h⟩ := h
    simp only [Except.ok.injEq, Prod.mk.injEq] at h
    rw [← h.1]
    exact (PmmStep.allocPage ha : PmmStep (s.pmm, s.tableLedger ++ l) _ _).frame hb

theorem Paging.pagingMap_accounts (hb : Accounts b s.pmm (k ++ (s.tableLedger ++ l)))
    (h : s.pagingMap virt phys flags = .ok s') : Accounts b s'.pmm (k ++ (s'.tableLedger ++ l)) := by
  unfold pagingMap at h
  simp only [bind_eq_ok] at h
  obtain ⟨⟨s₁, pdpt⟩, h₁, ⟨s₂, pd⟩, h₂, ⟨s₃, pt⟩, h₃, h⟩ := h
  have hb₁ := getOrCreateTable_accounts hb h₁
  have hb₂ := getOrCreateTable_accounts hb₁ h₂
  have hb₃ := getOrCreateTable_accounts hb₂ h₃
  rw [← Except.ok.inj h]
  exact hb₃

/-! ### The mapping loop -/

/-- A function of page numbers with `n` pages from `virt` on sent to the frames from `phys` on. -/
def mapped (f : ℕ → Option ℕ) (virt phys n : ℕ) (key : ℕ) : Option ℕ :=
  if virt / PAGE_SIZE ≤ key ∧ key < virt / PAGE_SIZE + n then some (phys + (key - virt / PAGE_SIZE) * PAGE_SIZE)
  else f key

theorem mapped_zero (f : ℕ → Option ℕ) (virt phys : ℕ) : mapped f virt phys 0 = f := by
  funext key
  exact if_neg (by omega)

/-- The pages of a range one after the other. -/
theorem mapped_succ (f : ℕ → Option ℕ) (virt phys n : ℕ) :
    mapped f virt phys (n + 1) = mapped (Function.update f (virt / PAGE_SIZE) (some phys))
      (virt + PAGE_SIZE) (phys + PAGE_SIZE) n := by
  have hnext : (virt + PAGE_SIZE) / PAGE_SIZE = virt / PAGE_SIZE + 1 := Nat.add_div_right virt (by decide)
  funext key
  unfold mapped
  rw [hnext]
  by_cases hkey : key = virt / PAGE_SIZE
  · subst hkey
    rw [if_pos ⟨le_rfl, by omega⟩, if_neg (by omega), Function.update_self]
    simp
  · rw [Function.update_of_ne hkey]
    by_cases hin : virt / PAGE_SIZE + 1 ≤ key ∧ key < virt / PAGE_SIZE + 1 + n
    · rw [if_pos (by omega), if_pos hin]
      obtain ⟨d, rfl⟩ := Nat.exists_eq_add_of_le hin.1
      congr 1
      rw [show virt / PAGE_SIZE + 1 + d - virt / PAGE_SIZE = d + 1 by omega,
        show virt / PAGE_SIZE + 1 + d - (virt / PAGE_SIZE + 1) = d by omega]
      ring
    · rw [if_neg (by omega), if_neg hin]

/-- Addresses below `2 ^ 48` are told apart by their page. -/
theorem pageKey_of_lt {v : ℕ} (h : v < 2 ^ 48) : pageKey v = v / PAGE_SIZE := by
  unfold pageKey PAGE_SIZE
  omega

/-- **The mapping loop** extends the function that the tables stand for by the pages of the range. -/
theorem Refines.mapLoop (hflags : PageFlags flags) (hv : virt % 4096 = 0) (hlt : virt < 2 ^ 64) (hp : phys % 4096 = 0) :
    ∀ (n offset : ℕ) {s : Paging} {lv : ℕ → ℕ} {f : ℕ → Option ℕ}, offset % 4096 = 0 →
      virt % 2 ^ 48 + offset + n * 4096 ≤ 2 ^ 48 → phys + offset + n * 4096 ≤ 2 ^ 52 → Refines s f lv →
      s.mapLoop virt phys flags n offset = .ok s' →
      ∃ lv', Refines s' (mapped f (virt % 2 ^ 48 + offset) (phys + offset) n) lv'
  | 0, offset, s, lv, f, _, _, _, hr, h => by
      obtain rfl := Except.ok.inj h
      rw [mapped_zero]
      exact ⟨lv, hr⟩
  | n + 1, offset, s, lv, f, ho, hvb, hpb, hr, h => by
      obtain ⟨s₁, hmap, hloop⟩ := bind_eq_ok.mp h
      rw [wadd_of_lt (by omega), wadd_of_lt (by omega)] at hmap
      have hargs : MapArgs (phys + offset) flags :=
        ⟨by omega, by omega, hflags.lt, hflags.present, hflags.no_addr⟩
      have hkey : pageKey (virt + offset) = (virt % 2 ^ 48 + offset) / PAGE_SIZE := by
        unfold pageKey PAGE_SIZE
        omega
      obtain ⟨lv₁, hr₁⟩ := (PagingStep.map hargs hmap).refines ⟨lv, hr⟩
      rw [mapSpec, hkey] at hr₁
      have hrest := hr₁.mapLoop hflags hv hlt hp n (offset + PAGE_SIZE) (by unfold PAGE_SIZE; omega)
        (by unfold PAGE_SIZE; omega) (by unfold PAGE_SIZE; omega) hloop
      rw [mapped_succ, Nat.add_assoc _ offset, Nat.add_assoc phys]
      exact hrest

/-- It takes no pages but new tables. -/
theorem Paging.mapLoop_accounts : ∀ (n offset : ℕ) {s : Paging}, Accounts b s.pmm (k ++ (s.tableLedger ++ l)) →
    s.mapLoop virt phys flags n offset = .ok s' → Accounts b s'.pmm (k ++ (s'.tableLedger ++ l))
  | 0, _, _, hb, h => by
      obtain rfl := Except.ok.inj h
      exact hb
  | n + 1, offset, _, hb, h => by
      obtain ⟨_, hmap, hloop⟩ := bind_eq_ok.mp h
      exact mapLoop_accounts n (offset + PAGE_SIZE) (pagingMap_accounts hb hmap) hloop

/-- Both, for addresses below `2 ^ 48`. -/
theorem Paging.mapLoop_spec {n : ℕ} {lv : ℕ → ℕ} (hflags : PageFlags flags) (hv : virt % 4096 = 0) (hp : phys % 4096 = 0)
    (hvb : virt + n * 4096 ≤ 2 ^ 48) (hpb : phys + n * 4096 ≤ 2 ^ 48) (hr : Refines s f lv)
    (hb : Accounts b s.pmm (k ++ (s.tableLedger ++ l))) (h : s.mapLoop virt phys flags n 0 = .ok s') :
    (∃ lv', Refines s' (mapped f virt phys n) lv') ∧ Accounts b s'.pmm (k ++ (s'.tableLedger ++ l)) := by
  refine ⟨?_, mapLoop_accounts n 0 hb h⟩
  cases n with
  | zero =>
      obtain rfl := Except.ok.inj h
      rw [mapped_zero]
      exact ⟨lv, hr⟩
  | succ n =>
      have hmod : virt % 2 ^ 48 = virt := Nat.mod_eq_of_lt (by omega)
      have hrange := hr.mapLoop hflags hv (by omega) hp (n + 1) 0 (by norm_num) (by omega) (by omega) h
      rwa [hmod] at hrange

/-! ### New address spaces -/

theorem Paging.vmmCreateAddressSpace_spec {as : AddrSpace} (hh : s.pmm.lastFreeHint ≤ PMM_MAX_PAGES)
    (h : s.vmmCreateAddressSpace = .ok (s', as)) :
    ∃ p, Allocates s.pmm 1 s'.pmm p ∧ as = ⟨p * PAGE_SIZE, 0x400000, 0x400000, 0x00007FFFFFFFE000⟩ ∧
      s'.mem = s.mem.fill (p * PAGE_SIZE) PAGE_SIZE 0 := by
  unfold vmmCreateAddressSpace at h
  rw [bind_eq_ok] at h
  obtain ⟨⟨pmm, phys⟩, ha, h⟩ := h
  obtain ⟨rfl, rfl⟩ := Prod.mk.inj (Except.ok.inj h)
  obtain ⟨p, rfl, hal⟩ := pmmAllocPage_spec hh ha
  exact ⟨p, hal, rfl, rfl⟩

theorem Paging.pml4_pagingSwitchDirectory {p : ℕ} (hp : p < PMM_MAX_PAGES) :
    (s.pagingSwitchDirectory (p * PAGE_SIZE)).pml4 = p * PAGE_SIZE := by
  unfold pml4 pagingSwitchDirectory
  dsimp only
  rw [show (0xFFF : ℕ) = 2 ^ 12 - 1 from rfl, wnot_two_pow_sub_one (by norm_num), and_shifted_mask]
  unfold PAGE_SIZE PMM_MAX_PAGES at *
  omega

/-- A cleared page makes an empty table. -/
theorem EmptyPml4.of_switch {m : Mem} {p : ℕ} (hp : p < PMM_MAX_PAGES)
    (hmem : s.mem = m.fill (p * PAGE_SIZE) PAGE_SIZE 0) (hused : s.pmm.bitmapTest p = true)
    (hhint : s.pmm.lastFreeHint ≤ PMM_MAX_PAGES) : EmptyPml4 (s.pagingSwitchDirectory (p * PAGE_SIZE)) := by
  have hroot := Paging.pml4_pagingSwitchDirectory (s := s) hp
  have hpage : p * PAGE_SIZE / 4096 = p := page_of_phys rfl
  refine ⟨?_, fun x hlow hhigh => ?_, ?_, hhint⟩
  · rw [hroot]
    rfl
  · rw [hroot] at hlow hhigh
    show s.mem x = 0
    rw [hmem]
    exact if_pos ⟨hlow, hhigh⟩
  · rw [hroot, hpage]
    exact ⟨hp, hused⟩

end HeroOS
