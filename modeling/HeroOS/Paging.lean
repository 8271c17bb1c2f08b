import HeroOS.Memory
import HeroOS.Pmm

/-! # Four-level paging

`kernel/mm/vmm.c` with the macros of `arch/x86_64/mm/paging.h`: mapping, unmapping and translating
one page through the tables that `CR3` points to.  Tables are read and written in byte-addressed
physical memory, all of which the kernel reaches under its physical addresses here (`Linear` has the
same functions behind the tables in force), and new tables come from the physical memory manager.

`paging_virt_to_phys` looks at `PTE_HUGE` in the page directory; `paging_map` and `paging_unmap`
take every present entry of the directory for a pointer to a page table. -/

namespace HeroOS

open Word

/-! ### Entries -/

/-- `PTE_PRESENT` -/
def PTE_PRESENT : ℕ := 0x1
/-- `PTE_WRITABLE` -/
def PTE_WRITABLE : ℕ := 0x2
/-- `PTE_HUGE`: an entry of the page directory that maps 2 MiB. -/
def PTE_HUGE : ℕ := 0x80

/-- `PML4_IDX` -/
def pml4Idx (va : ℕ) : ℕ := (va >>> 39) &&& 0x1FF
/-- `PDPT_IDX` -/
def pdptIdx (va : ℕ) : ℕ := (va >>> 30) &&& 0x1FF
/-- `PD_IDX` -/
def pdIdx (va : ℕ) : ℕ := (va >>> 21) &&& 0x1FF
/-- `PT_IDX` -/
def ptIdx (va : ℕ) : ℕ := (va >>> 12) &&& 0x1FF
/-- `PAGE_OFFSET` -/
def pageOffset (va : ℕ) : ℕ := va &&& 0xFFF

/-- `PTE_ADDR` -/
def pteAddr (pte : ℕ) : ℕ := pte &&& 0x000FFFFFFFFFF000

/-- `pte & PTE_PRESENT`, as a truth value. -/
def isPresent (pte : ℕ) : Bool := pte &&& PTE_PRESENT != 0

/-- `pte & PTE_HUGE`, as a truth value. -/
def isHuge (pte : ℕ) : Bool := pte &&& PTE_HUGE != 0

/-- `table[idx]` -/
def Mem.pte (m : Mem) (table idx : ℕ) : ℕ := m.read64 (table + 8 * idx)

/-- `table[idx] = pte` -/
def Mem.setPte (m : Mem) (table idx pte : ℕ) : Mem := m.write64 (table + 8 * idx) pte

/-! ### State -/

/-- Physical memory, its page allocator and the active table. -/
structure Paging where
  mem : Mem
  pmm : Pmm
  cr3 : ℕ
  /-- Ghost: the pages in use as tables. -/
  tables : List ℕ

namespace Paging

/-- `cr3 & ~0xFFF` -/
def pml4 (s : Paging) : ℕ := s.cr3 &&& wnot 0xFFF

/-- `get_or_create_table` -/
def getOrCreateTable (s : Paging) (parent idx flags : ℕ) : Except Halt (Paging × ℕ) :=
  if isPresent (s.mem.pte parent idx) then .ok (s, pteAddr (s.mem.pte parent idx))
  else do
    let (pmm, phys) ← s.pmm.pmmAllocPage
    let mem := (s.mem.fill phys PAGE_SIZE 0).setPte parent idx (phys ||| flags)
    .ok ({ s with mem := mem, pmm := pmm, tables := phys :: s.tables }, phys)

/-- `paging_map` -/
def pagingMap (s : Paging) (virt phys flags : ℕ) : Except Halt Paging := do
  let (s, pdpt) ← s.getOrCreateTable s.pml4 (pml4Idx virt) (PTE_PRESENT ||| PTE_WRITABLE)
  let (s, pd) ← s.getOrCreateTable pdpt (pdptIdx virt) (PTE_PRESENT ||| PTE_WRITABLE)
  let (s, pt) ← s.getOrCreateTable pd (pdIdx virt) (PTE_PRESENT ||| PTE_WRITABLE)
  .ok { s with mem := s.mem.setPte pt (ptIdx virt) (phys ||| flags) }

/-- `paging_unmap` -/
def pagingUnmap (s : Paging) (virt : ℕ) : Paging :=
  if !isPresent (s.mem.pte s.pml4 (pml4Idx virt)) then s
  else
    let pdpt := pteAddr (s.mem.pte s.pml4 (pml4Idx virt))
    if !isPresent (s.mem.pte pdpt (pdptIdx virt)) then s
    else
      let pd := pteAddr (s.mem.pte pdpt (pdptIdx virt))
      if !isPresent (s.mem.pte pd (pdIdx virt)) then s
      else
        let pt := pteAddr (s.mem.pte pd (pdIdx virt))
        { s with mem := s.mem.setPte pt (ptIdx virt) 0 }

/-- `paging_virt_to_phys` -/
def pagingVirtToPhys (s : Paging) (virt : ℕ) : ℕ :=
  if !isPresent (s.mem.pte s.pml4 (pml4Idx virt)) then 0
  else
    let pdpt := pteAddr (s.mem.pte s.pml4 (pml4Idx virt))
    if !isPresent (s.mem.pte pdpt (pdptIdx virt)) then 0
    else
      let pd := pteAddr (s.mem.pte pdpt (pdptIdx virt))
      if !isPresent (s.mem.pte pd (pdIdx virt)) then 0
      else if isHuge (s.mem.pte pd (pdIdx virt)) then
        wadd (pteAddr (s.mem.pte pd (pdIdx virt))) (virt &&& 0x1FFFFF)
      else
        let pt := pteAddr (s.mem.pte pd (pdIdx virt))
        if !isPresent (s.mem.pte pt (ptIdx virt)) then 0
        else wadd (pteAddr (s.mem.pte pt (ptIdx virt))) (pageOffset virt)

end Paging

/-! ### Index and entry arithmetic -/

theorem and_mask (x n : ℕ) : x &&& (2 ^ n - 1) = x % 2 ^ n := Nat.and_two_pow_sub_one_eq_mod x n

theorem pml4Idx_eq (va : ℕ) : pml4Idx va = va / 2 ^ 39 % 512 := by
  unfold pml4Idx
  rw [Nat.shiftRight_eq_div_pow]
  exact and_mask _ 9

theorem pdptIdx_eq (va : ℕ) : pdptIdx va = va / 2 ^ 30 % 512 := by
  unfold pdptIdx
  rw [Nat.shiftRight_eq_div_pow]
  exact and_mask _ 9

theorem pdIdx_eq (va : ℕ) : pdIdx va = va / 2 ^ 21 % 512 := by
  unfold pdIdx
  rw [Nat.shiftRight_eq_div_pow]
  exact and_mask _ 9

theorem ptIdx_eq (va : ℕ) : ptIdx va = va / 2 ^ 12 % 512 := by
  unfold ptIdx
  rw [Nat.shiftRight_eq_div_pow]
  exact and_mask _ 9

theorem pageOffset_eq (va : ℕ) : pageOffset va = va % 4096 := and_mask va 12

theorem pteAddr_eq (pte : ℕ) : pteAddr pte = pte / 2 ^ 12 % 2 ^ 40 * 2 ^ 12 :=
  and_shifted_mask pte 40 12

theorem isPresent_eq (pte : ℕ) : isPresent pte = decide (pte % 2 = 1) := by
  unfold isPresent PTE_PRESENT
  rw [show pte &&& 1 = pte % 2 from and_mask pte 1]
  rcases Nat.mod_two_eq_zero_or_one pte with h | h <;> simp [h]

theorem isHuge_eq (pte : ℕ) : isHuge pte = decide (pte / 2 ^ 7 % 2 = 1) := by
  unfold isHuge PTE_HUGE
  rw [show pte &&& 0x80 = pte / 2 ^ 7 % 2 * 2 ^ 7 from and_shifted_mask pte 1 7]
  generalize pte / 2 ^ 7 = q
  rcases Nat.mod_two_eq_zero_or_one q with h | h <;> simp [h]

/-- The entry for a new table. -/
theorem tableEntry_eq (p : ℕ) : p * PAGE_SIZE ||| (PTE_PRESENT ||| PTE_WRITABLE) = p * 4096 + 3 := by
  have h : 2 ^ 12 * p + 3 = 2 ^ 12 * p ||| 3 := Nat.two_pow_add_eq_or_of_lt (by norm_num) p
  rw [show p * PAGE_SIZE = 2 ^ 12 * p from Nat.mul_comm p _,
    show PTE_PRESENT ||| PTE_WRITABLE = 3 from rfl, ← h]
  omega

/-- Address and flags of an entry do not mix. -/
theorem pteAddr_or {phys flags : ℕ} (hp : phys % 4096 = 0) (hb : phys < 2 ^ 52)
    (hf : pteAddr flags = 0) : pteAddr (phys ||| flags) = phys := by
  have hphys : pteAddr phys = phys := by
    rw [pteAddr_eq]
    omega
  unfold pteAddr at *
  rw [Nat.and_or_distrib_right, hphys, hf, Nat.or_zero]

theorem isPresent_or {phys flags : ℕ} (hf : isPresent flags = true) :
    isPresent (phys ||| flags) = true := by
  rw [isPresent_eq, decide_eq_true_iff] at *
  rw [Nat.mod_two_eq_one_iff_testBit_zero] at *
  rw [Nat.testBit_or, hf, Bool.or_true]

end HeroOS
