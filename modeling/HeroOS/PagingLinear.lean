import HeroOS.BootPaging

/-! # The paging code behind its own tables

`CR3` and the entries of the tables hold physical addresses, and `kernel/mm/vmm.c` uses them as pointers: the
processor translates them once more, through the tables that are being edited.  `Paging.translate` is its walk, and
`Linear.pagingMap`, `Linear.pagingUnmap` and `Linear.pagingVirtToPhys` are the functions of `vmm.c` in which every
access to a table goes through it.

The boot code maps the first GiB to itself, and only that (`boot_maps_first_gib_iff`).  Calls that concern no huge
entry leave this mapping alone (`LowGib`), so that tables in the first GiB are found under their own addresses and the
functions are those on physical memory (`LowGib.pagingMap_eq`).  A page from further up, taken for a new table, is not
mapped: clearing it is a page fault. -/

namespace HeroOS

open Word RadixTree

/-! ### Accesses -/

/-- Bits 48 to 63 of an address repeat bit 47. -/
def Canonical (a : ℕ) : Prop := a < 2 ^ 47 ∨ 2 ^ 64 - 2 ^ 47 ≤ a

instance (a : ℕ) : Decidable (Canonical a) := inferInstanceAs (Decidable (_ ∨ _))

namespace Paging

/-- Where the processor finds the byte at `a`: its walk of the tables that `CR3` points to, which a set bit 7 ends at
a page of 1 GiB or 2 MiB.  `CR0.WP` is clear, so that the kernel may write to every page that is present.  An
exception ends in `isr_common_handler`, which panics with its name. -/
def translate (s : Paging) (a : ℕ) : Except Halt ℕ :=
  if ¬ Canonical a then .error (.panic "General Protection")
  else if !isPresent (s.pml4e a) then .error (.panic "Page Fault")
  else if !isPresent (s.pdpte a) then .error (.panic "Page Fault")
  else if isHuge (s.pdpte a) then .ok (pteAddr (s.pdpte a) / 2 ^ 30 * 2 ^ 30 + a % 2 ^ 30)
  else if !isPresent (s.pde a) then .error (.panic "Page Fault")
  else if isHuge (s.pde a) then .ok (pteAddr (s.pde a) / 2 ^ 21 * 2 ^ 21 + a % 2 ^ 21)
  else if !isPresent (s.mem.pte (pteAddr (s.pde a)) (idx1 a)) then .error (.panic "Page Fault")
  else .ok (pteAddr (s.mem.pte (pteAddr (s.pde a)) (idx1 a)) + a % 4096)

/-- A load of 8 bytes; those of an entry lie in one page. -/
def load64 (s : Paging) (a : ℕ) : Except Halt ℕ := do
  let p ← s.translate a
  .ok (s.mem.read64 p)

/-- A store of 8 bytes. -/
def store64 (s : Paging) (a v : ℕ) : Except Halt Paging := do
  let p ← s.translate a
  .ok { s with mem := s.mem.write64 p v }

/-- `memset`, byte by byte. -/
def memset : Paging → ℕ → UInt8 → ℕ → Except Halt Paging
  | s, _, _, 0 => .ok s
  | s, dst, c, n + 1 => do
      let p ← s.translate dst
      memset { s with mem := s.mem.write8 p c } (wadd dst 1) c n

end Paging

/-! ### The code -/

namespace Linear

/-- `get_or_create_table` -/
def getOrCreateTable (s : Paging) (parent idx flags : ℕ) : Except Halt (Paging × ℕ) := do
  let entry ← s.load64 (parent + 8 * idx)
  if isPresent entry then .ok (s, pteAddr entry)
  else do
    let (pmm, phys) ← s.pmm.pmmAllocPage
    let s ← Paging.memset { s with pmm := pmm, tables := phys :: s.tables } phys 0 PAGE_SIZE
    let s ← s.store64 (parent + 8 * idx) (phys ||| flags)
    .ok (s, phys)

/-- `paging_map` -/
def pagingMap (s : Paging) (virt phys flags : ℕ) : Except Halt Paging := do
  let (s, pdpt) ← getOrCreateTable s s.pml4 (pml4Idx virt) (PTE_PRESENT ||| PTE_WRITABLE)
  let (s, pd) ← getOrCreateTable s pdpt (pdptIdx virt) (PTE_PRESENT ||| PTE_WRITABLE)
  let (s, pt) ← getOrCreateTable s pd (pdIdx virt) (PTE_PRESENT ||| PTE_WRITABLE)
  s.store64 (pt + 8 * ptIdx virt) (phys ||| flags)

/-- `paging_unmap` -/
def pagingUnmap (s : Paging) (virt : ℕ) : Except Halt Paging := do
  let pml4e ← s.load64 (s.pml4 + 8 * pml4Idx virt)
  if !isPresent pml4e then .ok s
  else do
    let pdpte ← s.load64 (pteAddr pml4e + 8 * pdptIdx virt)
    if !isPresent pdpte then .ok s
    else do
      let pde ← s.load64 (pteAddr pdpte + 8 * pdIdx virt)
      if !isPresent pde then .ok s
      else s.store64 (pteAddr pde + 8 * ptIdx virt) 0

/-- `paging_virt_to_phys` -/
def pagingVirtToPhys (s : Paging) (virt : ℕ) : Except Halt ℕ := do
  let pml4e ← s.load64 (s.pml4 + 8 * pml4Idx virt)
  if !isPresent pml4e then .ok 0
  else do
    let pdpte ← s.load64 (pteAddr pml4e + 8 * pdptIdx virt)
    if !isPresent pdpte then .ok 0
    else do
      let pde ← s.load64 (pteAddr pdpte + 8 * pdIdx virt)
      if !isPresent pde then .ok 0
      else if isHuge pde then .ok (wadd (pteAddr pde) (virt &&& 0x1FFFFF))
      else do
        let pte ← s.load64 (pteAddr pde + 8 * ptIdx virt)
        if !isPresent pte then .ok 0
        else .ok (wadd (pteAddr pte) (pageOffset virt))

end Linear

/-! ### The first GiB -/

variable {s s' : Paging} {lv lv' : ℕ → ℕ} {a t c v e parent : ℕ} {i : Fin 512}

/-- The tables that lead to the first GiB, of those that the boot code builds. -/
def bootPath (b : ℕ) : List ℕ := [b, b + 0x1000, b + 0x3000]

/-- The first GiB is mapped to itself, as by the boot code, and all tables lie in it. -/
structure LowGib (s : Paging) : Prop where
  pml4e : s.mem.pte s.pml4 (0 : Fin 512) = s.pml4 + 0x1003
  pdpte : s.mem.pte (s.pml4 + 0x1000) (0 : Fin 512) = s.pml4 + 0x3003
  pde : ∀ j : Fin 512, s.mem.pte (s.pml4 + 0x3000) j = 0x83 + j * 0x200000
  path : ∀ t ∈ bootPath s.pml4, t ∈ s.tables
  low : ∀ t ∈ s.tables, t + 4096 ≤ 2 ^ 30

theorem LowGib.pml4_low (h : LowGib s) : s.pml4 + 0x4000 ≤ 2 ^ 30 := by
  have := h.low _ (h.path (s.pml4 + 0x3000) (by simp [bootPath]))
  omega

theorem LowGib.pml4e_low (h : LowGib s) (ha : a < 2 ^ 30) : s.pml4e a = s.pml4 + 0x1003 := by
  have hidx : idx4 a = 0 := Fin.ext (by show pml4Idx a = 0; rw [pml4Idx_eq]; omega)
  unfold Paging.pml4e
  rw [hidx, h.pml4e]

theorem LowGib.pdpte_low (h : LowGib s) (ha : a < 2 ^ 30) :
    pteAddr (s.pml4e a) = s.pml4 + 0x1000 ∧ s.pdpte a = s.pml4 + 0x3003 := by
  have hlow := h.pml4_low
  have hal := pml4_aligned s
  have hidx : idx3 a = 0 := Fin.ext (by show pdptIdx a = 0; rw [pdptIdx_eq]; omega)
  have haddr : pteAddr (s.pml4e a) = s.pml4 + 0x1000 := by
    rw [h.pml4e_low ha]
    exact pteAddr_boot (a := s.pml4 + 0x1000) (by omega) (by omega)
  refine ⟨haddr, ?_⟩
  unfold Paging.pdpte
  rw [haddr, hidx, h.pdpte]

theorem LowGib.pde_low (h : LowGib s) (ha : a < 2 ^ 30) :
    pteAddr (s.pdpte a) = s.pml4 + 0x3000 ∧ s.pde a = 0x83 + a / 2 ^ 21 * 0x200000 := by
  have hlow := h.pml4_low
  have hal := pml4_aligned s
  have hidx : (idx2 a : ℕ) = a / 2 ^ 21 := by show pdIdx a = _; rw [pdIdx_eq]; omega
  have haddr : pteAddr (s.pdpte a) = s.pml4 + 0x3000 := by
    rw [(h.pdpte_low ha).2]
    exact pteAddr_boot (a := s.pml4 + 0x3000) (by omega) (by omega)
  refine ⟨haddr, ?_⟩
  unfold Paging.pde
  rw [haddr, h.pde, hidx]

/-- The addresses of the first GiB have present entries, the last of which maps 2 MiB. -/
theorem LowGib.present_low (h : LowGib s) (ha : a < 2 ^ 30) :
    isPresent (s.pml4e a) = true ∧ isPresent (s.pdpte a) = true ∧ isHuge (s.pdpte a) = false ∧
      isPresent (s.pde a) = true ∧ isHuge (s.pde a) = true := by
  have hal := pml4_aligned s
  rw [h.pml4e_low ha, (h.pdpte_low ha).2, (h.pde_low ha).2]
  refine ⟨?_, ?_, ?_, isPresent_boot _, isHuge_boot _⟩
  · rw [isPresent_eq, decide_eq_true_iff]
    omega
  · rw [isPresent_eq, decide_eq_true_iff]
    omega
  · rw [isHuge_eq, decide_eq_false_iff_not]
    omega

/-- Their tables are those of the boot code. -/
theorem LowGib.path_low (h : LowGib s) (ha : a < 2 ^ 30) :
    s.pml4 ∈ s.tables ∧ pteAddr (s.pml4e a) ∈ s.tables ∧ pteAddr (s.pdpte a) ∈ s.tables := by
  refine ⟨h.path _ ?_, h.path _ ?_, h.path _ ?_⟩
  · simp [bootPath]
  · simp [bootPath, (h.pdpte_low ha).1]
  · simp [bootPath, (h.pde_low ha).1]

theorem LowGib.pteAddr_pde (h : LowGib s) (ha : a < 2 ^ 30) : pteAddr (s.pde a) = a / 2 ^ 21 * 2 ^ 21 := by
  rw [(h.pde_low ha).2, pteAddr_eq]
  omega

/-- **The first GiB is reached under its own addresses.** -/
theorem LowGib.translate (h : LowGib s) (ha : a < 2 ^ 30) : s.translate a = .ok a := by
  obtain ⟨hp4, hp3, hh3, hp2, hh2⟩ := h.present_low ha
  have haddr : pteAddr (s.pde a) / 2 ^ 21 * 2 ^ 21 + a % 2 ^ 21 = a := by
    rw [h.pteAddr_pde ha]
    omega
  unfold Paging.translate
  rw [if_neg (not_not.mpr (.inl (by omega))), hp4, hp3, hh3, hp2, hh2, haddr]
  rfl

/-- The entries of the boot code are kept by whoever keeps the present entries of their tables. -/
theorem LowGib.of_keeps (h : LowGib s) (hcr3 : s'.cr3 = s.cr3) (hmono : ∀ t ∈ s.tables, t ∈ s'.tables)
    (hlow : ∀ t ∈ s'.tables, t + 4096 ≤ 2 ^ 30)
    (hkeep : ∀ t ∈ bootPath s.pml4, ∀ j : Fin 512, isPresent (s.mem.pte t j) = true → s'.mem.pte t j = s.mem.pte t j) :
    LowGib s' := by
  have hal := pml4_aligned s
  have hroot : s'.pml4 = s.pml4 := by
    unfold Paging.pml4
    rw [hcr3]
  refine ⟨?_, ?_, fun j => ?_, fun t ht => hmono t (h.path t (hroot ▸ ht)), hlow⟩
  · rw [hroot, hkeep _ (by simp [bootPath]), h.pml4e]
    rw [h.pml4e, isPresent_eq, decide_eq_true_iff]
    omega
  · rw [hroot, hkeep _ (by simp [bootPath]), h.pdpte]
    rw [h.pdpte, isPresent_eq, decide_eq_true_iff]
    omega
  · rw [hroot, hkeep _ (by simp [bootPath]), h.pde]
    rw [h.pde]
    exact isPresent_boot j

/-- None of these tables is a page table. -/
theorem LowGib.level_ne_one (h : LowGib s) (hi : TableInv s lv) (ht : t ∈ bootPath s.pml4) : lv t ≠ 1 := by
  have hal := pml4_aligned s
  have hlow := h.pml4_low
  have hroot := hi.root_level
  have hp4 : isPresent (s.mem.pte s.pml4 (0 : Fin 512)) = true := by
    rw [h.pml4e, isPresent_eq, decide_eq_true_iff]
    omega
  have hp3 : isPresent (s.mem.pte (s.pml4 + 0x1000) (0 : Fin 512)) = true := by
    rw [h.pdpte, isPresent_eq, decide_eq_true_iff]
    omega
  have hc4 : child s.mem lv s.pml4 0 = some (pteAddr (s.mem.pte s.pml4 (0 : Fin 512))) :=
    child_of_present (by omega) hp4 (by omega)
  rw [h.pml4e, pteAddr_boot (a := s.pml4 + 0x1000) (by omega) (by omega)] at hc4
  have hl3 := hi.layered.level_eq hi.root_mem hc4
  have hc3 : child s.mem lv (s.pml4 + 0x1000) 0 = some (pteAddr (s.mem.pte (s.pml4 + 0x1000) (0 : Fin 512))) :=
    child_of_present (by omega) hp3 (by omega)
  rw [h.pdpte, pteAddr_boot (a := s.pml4 + 0x3000) (by omega) (by omega)] at hc3
  have hl2 := hi.layered.level_eq (hi.layered.closed hi.root_mem hc4) hc3
  simp only [bootPath, List.mem_cons, List.not_mem_nil, or_false] at ht
  obtain rfl | rfl | rfl := ht
  · omega
  · omega
  · omega

/-- The boot tables of a kernel image in the first GiB. -/
theorem BootState.lowGib (h : BootState s) (himage : s.pml4 + 0x5000 ≤ 2 ^ 30) : LowGib s := by
  have he := h.entries
  refine ⟨he.pml4 0, he.low 0, fun j => he.pd j (by omega), fun t ht => ?_, fun t ht => ?_⟩
  · simp only [bootPath, List.mem_cons, List.not_mem_nil, or_false] at ht
    rw [h.tables]
    simp only [List.mem_cons, List.not_mem_nil, or_false]
    omega
  · rw [h.tables] at ht
    simp only [List.mem_cons, List.not_mem_nil, or_false] at ht
    omega

/-! ### Accesses to tables in the first GiB -/

theorem LowGib.load64 (h : LowGib s) (ht : t ∈ s.tables) : s.load64 (t + 8 * (i : ℕ)) = .ok (s.mem.pte t i) := by
  have hlow := h.low t ht
  unfold Paging.load64
  rw [h.translate (by omega)]
  rfl

theorem LowGib.load_pml4e (h : LowGib s) : s.load64 (s.pml4 + 8 * pml4Idx v) = .ok (s.pml4e v) :=
  h.load64 (i := idx4 v) (h.path _ (by simp [bootPath]))

theorem LowGib.load_pdpte (h : LowGib s) (ht : pteAddr (s.pml4e v) ∈ s.tables) :
    s.load64 (pteAddr (s.pml4e v) + 8 * pdptIdx v) = .ok (s.pdpte v) := h.load64 (i := idx3 v) ht

theorem LowGib.load_pde (h : LowGib s) (ht : pteAddr (s.pdpte v) ∈ s.tables) :
    s.load64 (pteAddr (s.pdpte v) + 8 * pdIdx v) = .ok (s.pde v) := h.load64 (i := idx2 v) ht

theorem LowGib.store64 (h : LowGib s) (hlow : t + 4096 ≤ 2 ^ 30) :
    s.store64 (t + 8 * (i : ℕ)) e = .ok { s with mem := s.mem.setPte t i e } := by
  unfold Paging.store64
  rw [h.translate (by omega)]
  rfl

/-- **Clearing a page** of the first GiB that is no table. -/
theorem LowGib.memset {p n dst : ℕ} (h : LowGib s) (hal : ∀ t ∈ bootPath s.pml4, t % 4096 = 0 ∧ t ≠ p) (hp : p % 4096 = 0)
    (hlow : p + 4096 ≤ 2 ^ 30) (hdst : p ≤ dst) (hn : dst + n ≤ p + 4096) :
    s.memset dst 0 n = .ok { s with mem := s.mem.fill dst n 0 } := by
  induction n generalizing s dst with
  | zero =>
      have hfill : s.mem.fill dst 0 0 = s.mem := funext fun x => if_neg (by omega)
      rw [hfill]
      rfl
  | succ n ih =>
      have h' : LowGib { s with mem := s.mem.write8 dst 0 } := by
        refine h.of_keeps rfl (fun _ ht => ht) h.low fun t ht j _ => Mem.pte_congr fun y h1 h2 => ?_
        obtain ⟨h3, h4⟩ := hal t ht
        exact Mem.write8_of_ne (by omega)
      have hfill : (s.mem.write8 dst 0).fill (dst + 1) n 0 = s.mem.fill dst (n + 1) 0 := by
        funext x
        unfold Mem.fill Mem.write8
        by_cases hx : x = dst
        · rw [if_neg (by omega), if_pos hx, if_pos (by omega)]
        · rw [if_neg hx]
          by_cases hr : dst + 1 ≤ x ∧ x < dst + 1 + n
          · rw [if_pos hr, if_pos (by omega)]
          · rw [if_neg hr, if_neg (by omega)]
      have hrest : Paging.memset _ (dst + 1) 0 n = _ := ih h' hal (by omega) (by omega)
      unfold Paging.memset
      rw [h.translate (by omega), wadd_of_lt (by omega)]
      show Paging.memset _ _ _ _ = _
      rw [hrest, hfill]

/-- **`get_or_create_table`** in the first GiB, if a new table lies there too. -/
theorem LowGib.getOrCreateTable_eq (h : LowGib s) (hi : TableInv s lv) (hp : parent ∈ s.tables)
    (hnew : isPresent (s.mem.pte parent i) = false → ∀ pmm phys, s.pmm.pmmAllocPage = .ok (pmm, phys) → phys < 2 ^ 30) :
    Linear.getOrCreateTable s parent i (PTE_PRESENT ||| PTE_WRITABLE) =
      s.getOrCreateTable parent i (PTE_PRESENT ||| PTE_WRITABLE) := by
  unfold Linear.getOrCreateTable Paging.getOrCreateTable
  rw [h.load64 hp]
  show (if isPresent (s.mem.pte parent i) then _ else _) = _
  cases hpr : isPresent (s.mem.pte parent i) with
  | true => rfl
  | false =>
      cases halloc : s.pmm.pmmAllocPage with
      | error e => rfl
      | ok r =>
          obtain ⟨pmm, phys⟩ := r
          have hlow := hnew hpr pmm phys halloc
          obtain ⟨p, rfl, ha⟩ := Pmm.pmmAllocPage_spec hi.hint halloc
          rw [show p * PAGE_SIZE = p * 4096 from rfl] at hlow ⊢
          have hfresh := hi.ne_of_allocates ha
          have hpath : ∀ t ∈ bootPath s.pml4, t % 4096 = 0 ∧ t ≠ p * 4096 := fun t ht =>
            ⟨hi.aligned t (h.path t ht), hfresh t (h.path t ht)⟩
          have h₁ : LowGib { s with pmm := pmm, tables := p * 4096 :: s.tables } := by
            refine h.of_keeps rfl (fun _ ht => List.mem_cons_of_mem _ ht) (fun t ht => ?_) fun _ _ _ _ => rfl
            obtain rfl | ht := List.mem_cons.mp ht
            · omega
            · exact h.low t ht
          have hclear := h₁.memset (p := p * 4096) (n := PAGE_SIZE) hpath (by omega) (by omega) le_rfl le_rfl
          have h₂ : LowGib { s with mem := s.mem.fill (p * 4096) PAGE_SIZE 0, pmm := pmm, tables := p * 4096 :: s.tables } := by
            refine h₁.of_keeps rfl (fun _ ht => ht) h₁.low fun t ht j _ => Mem.pte_congr fun y h1 h2 => ?_
            obtain ⟨h3, h4⟩ := hpath t ht
            have hsize : PAGE_SIZE = 4096 := rfl
            exact Mem.fill_of_outside (by omega)
          have hlink := h₂.store64 (i := i) (e := p * 4096 ||| (PTE_PRESENT ||| PTE_WRITABLE)) (h.low parent hp)
          show (Paging.memset _ _ _ _ >>= _) = _
          rw [hclear]
          show (Paging.store64 _ _ _ >>= _) = _
          rw [hlink]
          rfl

/-! ### Calls that take their tables from the first GiB -/

/-- The pages that the next `n` calls of `pmm_alloc_page` return. -/
def Pmm.nextPages : Pmm → ℕ → List ℕ
  | _, 0 => []
  | s, n + 1 =>
      match s.pmmAllocPage with
      | .ok (s', phys) => phys :: nextPages s' n
      | .error _ => []

/-- The number of tables that a path from `t` lacks. -/
def missingTables (m : Mem) : ℕ → List (Fin 512) → ℕ
  | _, [] => 0
  | t, i :: is => if isPresent (m.pte t i) then missingTables m (pteAddr (m.pte t i)) is else is.length + 1

/-- The pages that `paging_map` takes for the tables that `virt` lacks. -/
def Paging.newTables (s : Paging) (virt : ℕ) : List ℕ := s.pmm.nextPages (missingTables s.mem s.pml4 (tablePath virt))

/-- The call takes no page behind the first GiB for a table. -/
def NewTablesLow (s : Paging) : PagingOp → Prop
  | .map virt _ _ => ∀ phys ∈ s.newTables virt, phys < 2 ^ 30
  | .unmap _ => True
  | .other _ _ => True

/-- The tables that a path from `t` lacks come from the first GiB. -/
def PathLow (s : Paging) (t : ℕ) (is : List (Fin 512)) : Prop :=
  ∀ phys ∈ s.pmm.nextPages (missingTables s.mem t is), phys < 2 ^ 30

theorem PathLow.alloc {is : List (Fin 512)} {pmm : Pmm} {phys : ℕ} (h : PathLow s parent (i :: is))
    (hpr : isPresent (s.mem.pte parent i) = false) (ha : s.pmm.pmmAllocPage = .ok (pmm, phys)) :
    phys < 2 ^ 30 ∧ ∀ phys ∈ pmm.nextPages is.length, phys < 2 ^ 30 := by
  have hmissing : missingTables s.mem parent (i :: is) = is.length + 1 := by
    rw [missingTables, hpr]
    rfl
  have hnext : s.pmm.nextPages (is.length + 1) = phys :: pmm.nextPages is.length := by
    rw [Pmm.nextPages, ha]
  unfold PathLow at h
  rw [hmissing, hnext] at h
  exact ⟨h phys List.mem_cons_self, fun q hq => h q (List.mem_cons_of_mem _ hq)⟩

/-- **One level.**  `get_or_create_table` finds the table by its own address, and the path from it lacks what is left. -/
theorem LowGib.getOrCreateTable_step {is : List (Fin 512)} (h : LowGib s) (hi : TableInv s lv) (hp : parent ∈ s.tables)
    (hlow : PathLow s parent (i :: is)) :
    Linear.getOrCreateTable s parent i (PTE_PRESENT ||| PTE_WRITABLE) =
      s.getOrCreateTable parent i (PTE_PRESENT ||| PTE_WRITABLE) ∧
    ∀ s' c, s.getOrCreateTable parent i (PTE_PRESENT ||| PTE_WRITABLE) = .ok (s', c) → LowGib s' ∧ PathLow s' c is := by
  refine ⟨h.getOrCreateTable_eq hi hp fun hpr pmm phys ha => (hlow.alloc hpr ha).1, fun s' c hc => ?_⟩
  obtain ⟨hpr, rfl, rfl⟩ | ⟨hpr, p, m', pmm, rfl, ha, hnot, hlink, _, rfl⟩ := getOrCreateTable_cases hi hp hc
  · refine ⟨h, ?_⟩
    unfold PathLow at *
    rwa [missingTables, if_pos hpr] at hlow
  · have halloc : s.pmm.pmmAllocPage = .ok (pmm, p * 4096) := by
      unfold Paging.getOrCreateTable at hc
      rw [if_neg (by simp [hpr]), bind_eq_ok] at hc
      obtain ⟨⟨pmm', phys⟩, halloc, hc⟩ := hc
      obtain ⟨hs, rfl⟩ := Prod.mk.inj (Except.ok.inj hc)
      rw [halloc, show pmm' = pmm from congrArg Paging.pmm hs]
    obtain ⟨hpage, hrest⟩ := hlow.alloc hpr halloc
    refine ⟨h.of_keeps rfl (fun _ ht => List.mem_cons_of_mem _ ht) (fun t ht => ?_) fun t ht j hj => ?_, ?_⟩
    · obtain rfl | ht := List.mem_cons.mp ht
      · omega
      · exact h.low t ht
    · apply hlink.others t (h.path t ht) j
      rintro ⟨rfl, rfl⟩
      rw [hpr] at hj
      cases hj
    · unfold PathLow
      have hmissing : missingTables m' (p * 4096) is = is.length := by
        cases is with
        | nil => rfl
        | cons j js =>
            rw [missingTables, hlink.empty j]
            rfl
      rw [hmissing]
      exact hrest

/-- A walk that has reached a table whose level is that of the rest of its path. -/
structure Reached (s : Paging) (lv : ℕ → ℕ) (t n : ℕ) : Prop where
  inv : TableInv s lv
  mem : t ∈ s.tables
  level : lv t = n

theorem Reached.next {s' : Paging} {n : ℕ} (h : Reached s lv parent (n + 3)) (hc : s.getOrCreateTable parent i
    (PTE_PRESENT ||| PTE_WRITABLE) = .ok (s', c)) : ∃ lv', Reached s' lv' c (n + 2) := by
  have hlv := h.level
  obtain ⟨lv', hex, hm, hchild⟩ := getOrCreateTable_extends h.inv h.mem (by omega) (by omega) hc
  have hl := hex.inv.layered.level_eq (hex.mono _ h.mem) hchild
  rw [hex.level _ h.mem] at hl
  exact ⟨lv', hex.inv, hm, by omega⟩

theorem LowGib.setLeaf {pt : ℕ} (h : LowGib s) (hi : TableInv s lv) (hpt : pt ∈ s.tables) (h1 : lv pt = 1) :
    LowGib (s.setLeaf pt i e) := by
  refine h.of_keeps rfl (fun _ ht => ht) h.low fun t ht j _ => hi.pte_setLeaf hpt (h.path t ht) ?_
  rintro ⟨rfl, _⟩
  exact h.level_ne_one hi ht h1

/-- **`paging_map`** in the first GiB. -/
theorem LowGib.pagingMap_eq {phys flags : ℕ} (h : LowGib s) (hi : TableInv s lv) (hh : s.hugeMapped v = false)
    (hlow : ∀ phys ∈ s.newTables v, phys < 2 ^ 30) :
    Linear.pagingMap s v phys flags = s.pagingMap v phys flags ∧
    ∀ s', s.pagingMap v phys flags = .ok s' → LowGib s' := by
  have hroot : Reached s lv s.pml4 4 := ⟨hi, hi.root_mem, hi.root_level⟩
  have hpath : PathLow s s.pml4 [idx4 v, idx3 v, idx2 v] := hlow
  obtain ⟨e₁, k₁⟩ := h.getOrCreateTable_step hi hi.root_mem hpath
  unfold Linear.pagingMap Paging.pagingMap
  rw [show pml4Idx v = (idx4 v : ℕ) from rfl, show pdptIdx v = (idx3 v : ℕ) from rfl, show pdIdx v = (idx2 v : ℕ) from rfl, e₁]
  cases h₁ : s.getOrCreateTable s.pml4 (idx4 v) (PTE_PRESENT ||| PTE_WRITABLE) with
  | error _ => exact ⟨rfl, fun _ hs' => nomatch hs'⟩
  | ok r₁ =>
      obtain ⟨s₁, pdpt⟩ := r₁
      obtain ⟨hl₁, hp₁⟩ := k₁ s₁ pdpt h₁
      obtain ⟨lv₁, hr₁⟩ := hroot.next h₁
      obtain ⟨e₂, k₂⟩ := hl₁.getOrCreateTable_step hr₁.inv hr₁.mem hp₁
      dsimp only [bind, Except.bind]
      rw [e₂]
      cases h₂ : s₁.getOrCreateTable pdpt (idx3 v) (PTE_PRESENT ||| PTE_WRITABLE) with
      | error _ => exact ⟨rfl, fun _ hs' => nomatch hs'⟩
      | ok r₂ =>
          obtain ⟨s₂, pd⟩ := r₂
          obtain ⟨hl₂, hp₂⟩ := k₂ s₂ pd h₂
          obtain ⟨lv₂, hr₂⟩ := hr₁.next h₂
          obtain ⟨e₃, k₃⟩ := hl₂.getOrCreateTable_step hr₂.inv hr₂.mem hp₂
          dsimp only
          rw [e₃]
          cases h₃ : s₂.getOrCreateTable pd (idx2 v) (PTE_PRESENT ||| PTE_WRITABLE) with
          | error _ => exact ⟨rfl, fun _ hs' => nomatch hs'⟩
          | ok r₃ =>
              obtain ⟨s₃, pt⟩ := r₃
              obtain ⟨hl₃, _⟩ := k₃ s₃ pt h₃
              obtain ⟨lv₃, hex, _, htable⟩ := getOrCreateTable_path hi hh h₁ h₂ h₃
              obtain ⟨hpt, h1⟩ := hex.inv.tableOf_mem htable
              refine ⟨hl₃.store64 (i := idx1 v) (hl₃.low pt hpt), fun s' hs' => ?_⟩
              obtain rfl := Except.ok.inj hs'
              exact hl₃.setLeaf (i := idx1 v) (e := phys ||| flags) hex.inv hpt h1

/-- The tables on the path of an address, as far as it is present. -/
theorem TableInv.walk_mem (hi : TableInv s lv) : (isPresent (s.pml4e v) = true → pteAddr (s.pml4e v) ∈ s.tables) ∧
    (isPresent (s.pml4e v) = true → isPresent (s.pdpte v) = true → pteAddr (s.pdpte v) ∈ s.tables) ∧
    (isPresent (s.pml4e v) = true → isPresent (s.pdpte v) = true → isPresent (s.pde v) = true → isHuge (s.pde v) = false →
      pteAddr (s.pde v) ∈ s.tables ∧ lv (pteAddr (s.pde v)) = 1) := by
  have hroot := hi.root_level
  have hc4 : isPresent (s.pml4e v) = true → child s.mem lv s.pml4 (idx4 v) = some (pteAddr (s.pml4e v)) :=
    fun h4 => child_of_present (by omega) h4 (by omega)
  have hc3 : isPresent (s.pml4e v) = true → isPresent (s.pdpte v) = true →
      lv (pteAddr (s.pml4e v)) = 3 ∧ child s.mem lv (pteAddr (s.pml4e v)) (idx3 v) = some (pteAddr (s.pdpte v)) := by
    intro h4 h3
    have hl := hi.layered.level_eq hi.root_mem (hc4 h4)
    exact ⟨by omega, child_of_present (by omega) h3 (by omega)⟩
  refine ⟨fun h4 => hi.layered.closed hi.root_mem (hc4 h4), fun h4 h3 => ?_, fun h4 h3 h2 hh => ?_⟩
  · exact hi.layered.closed (hi.layered.closed hi.root_mem (hc4 h4)) (hc3 h4 h3).2
  · obtain ⟨hl3, hc⟩ := hc3 h4 h3
    have hm4 := hi.layered.closed hi.root_mem (hc4 h4)
    have hm3 := hi.layered.closed hm4 hc
    have hl := hi.layered.level_eq hm4 hc
    have hc2 : child s.mem lv (pteAddr (s.pdpte v)) (idx2 v) = some (pteAddr (s.pde v)) :=
      child_of_present (by omega) h2 (fun h => absurd (hh.symm.trans h.2) (by decide))
    have hl2 := hi.layered.level_eq hm3 hc2
    exact ⟨hi.layered.closed hm3 hc2, by omega⟩

/-- **`paging_unmap`** in the first GiB. -/
theorem LowGib.pagingUnmap_eq (h : LowGib s) (hi : TableInv s lv) (hh : s.hugeMapped v = false) :
    Linear.pagingUnmap s v = .ok (s.pagingUnmap v) ∧ LowGib (s.pagingUnmap v) := by
  obtain ⟨hm4, hm3, hm2⟩ := hi.walk_mem (v := v)
  have hraw : s.pagingUnmap v =
      if !isPresent (s.pml4e v) then s
      else if !isPresent (s.pdpte v) then s
      else if !isPresent (s.pde v) then s
      else s.setLeaf (pteAddr (s.pde v)) (idx1 v) 0 := rfl
  unfold Linear.pagingUnmap
  rw [hraw, h.load_pml4e]
  dsimp only [bind, Except.bind]
  cases h4 : isPresent (s.pml4e v) with
  | false => exact ⟨rfl, h⟩
  | true =>
      rw [h.load_pdpte (hm4 h4)]
      dsimp only
      cases h3 : isPresent (s.pdpte v) with
      | false => exact ⟨rfl, h⟩
      | true =>
          rw [h.load_pde (hm3 h4 h3)]
          dsimp only
          cases h2 : isPresent (s.pde v) with
          | false => exact ⟨rfl, h⟩
          | true =>
              have hnh : isHuge (s.pde v) = false := by simpa [Paging.hugeMapped, h4, h3, h2] using hh
              obtain ⟨hpt, h1⟩ := hm2 h4 h3 h2 hnh
              exact ⟨h.store64 (i := idx1 v) (h.low _ hpt), h.setLeaf hi hpt h1⟩

/-- **`paging_virt_to_phys`** in the first GiB. -/
theorem LowGib.pagingVirtToPhys_eq (h : LowGib s) (hi : TableInv s lv) (v : ℕ) :
    Linear.pagingVirtToPhys s v = .ok (s.pagingVirtToPhys v) := by
  obtain ⟨hm4, hm3, hm2⟩ := hi.walk_mem (v := v)
  unfold Linear.pagingVirtToPhys
  rw [pagingVirtToPhys_walk, h.load_pml4e]
  dsimp only [bind, Except.bind]
  cases h4 : isPresent (s.pml4e v) with
  | false => rfl
  | true =>
      rw [h.load_pdpte (hm4 h4)]
      dsimp only
      cases h3 : isPresent (s.pdpte v) with
      | false => rfl
      | true =>
          rw [h.load_pde (hm3 h4 h3)]
          dsimp only
          cases h2 : isPresent (s.pde v) with
          | false => rfl
          | true =>
              cases hh : isHuge (s.pde v) with
              | true => rfl
              | false =>
                  obtain ⟨hpt, _⟩ := hm2 h4 h3 h2 hh
                  rw [show s.load64 (pteAddr (s.pde v) + 8 * ptIdx v) = .ok (s.mem.pte (pteAddr (s.pde v)) (idx1 v)) from
                    h.load64 (i := idx1 v) hpt]
                  dsimp only
                  cases isPresent (s.mem.pte (pteAddr (s.pde v)) (idx1 v)) with
                  | false => rfl
                  | true => rfl

/-! ### Calls that concern the first GiB -/

theorem LowGib.pagingVirtToPhys_low (h : LowGib s) (ha : a < 2 ^ 30) : Linear.pagingVirtToPhys s a = .ok a := by
  obtain ⟨hp4, hp3, _, hp2, hh2⟩ := h.present_low ha
  obtain ⟨_, hm3, hm2⟩ := h.path_low ha
  have haddr : wadd (pteAddr (s.pde a)) (a &&& 0x1FFFFF) = a := by
    rw [h.pteAddr_pde ha, show a &&& 0x1FFFFF = a % 2 ^ 21 from and_mask a 21, wadd_of_lt (by omega)]
    omega
  unfold Linear.pagingVirtToPhys
  rw [h.load_pml4e]
  dsimp only [bind, Except.bind]
  rw [hp4, h.load_pdpte hm3]
  dsimp only
  rw [hp3, h.load_pde hm2]
  dsimp only
  rw [hp2, hh2, haddr]
  rfl

/-- `get_or_create_table` follows a present entry, whatever it maps. -/
theorem LowGib.getOrCreateTable_present {flags : ℕ} (h : LowGib s) (hp : parent ∈ s.tables)
    (hpr : isPresent (s.mem.pte parent i) = true) :
    Linear.getOrCreateTable s parent i flags = .ok (s, pteAddr (s.mem.pte parent i)) := by
  unfold Linear.getOrCreateTable
  rw [h.load64 hp]
  exact if_pos hpr

/-- **The huge pages.**  Mapping an address of the first GiB writes the entry into the frame of 2 MiB that it lies in,
and the address still translates to itself. -/
theorem LowGib.pagingMap_low {phys flags frame : ℕ} (h : LowGib s) (hi : TableInv s lv) (ha : a < 2 ^ 30)
    (hf : frame = a / 2 ^ 21 * 2 ^ 21) (hframe : frame ∉ s.tables) :
    ∃ s', Linear.pagingMap s a phys flags = .ok s' ∧ s' = s.setLeaf frame (idx1 a) (phys ||| flags) ∧
      Linear.pagingVirtToPhys s' a = .ok a := by
  obtain ⟨hp4, hp3, _, hp2, _⟩ := h.present_low ha
  obtain ⟨hm4, hm3, hm2⟩ := h.path_low ha
  have hal : frame % 4096 = 0 ∧ frame + 4096 ≤ 2 ^ 30 := by omega
  have h' : LowGib (s.setLeaf frame (idx1 a) (phys ||| flags)) := by
    refine h.of_keeps rfl (fun _ ht => ht) h.low fun t ht j _ => ?_
    apply Mem.pte_setPte_of_ne hal.1 (hi.aligned t (h.path t ht))
    rintro ⟨rfl, _⟩
    exact hframe (h.path _ ht)
  refine ⟨_, ?_, rfl, h'.pagingVirtToPhys_low ha⟩
  unfold Linear.pagingMap
  rw [show pml4Idx a = (idx4 a : ℕ) from rfl, h.getOrCreateTable_present hm4 hp4]
  dsimp only [bind, Except.bind]
  rw [show pteAddr (s.mem.pte s.pml4 (idx4 a)) = pteAddr (s.pml4e a) from rfl, show pdptIdx a = (idx3 a : ℕ) from rfl,
    h.getOrCreateTable_present hm3 hp3]
  dsimp only
  rw [show pteAddr (s.mem.pte (pteAddr (s.pml4e a)) (idx3 a)) = pteAddr (s.pdpte a) from rfl,
    show pdIdx a = (idx2 a : ℕ) from rfl, h.getOrCreateTable_present hm2 hp2]
  dsimp only
  rw [show pteAddr (s.mem.pte (pteAddr (s.pdpte a)) (idx2 a)) = pteAddr (s.pde a) from rfl, h.pteAddr_pde ha, ← hf]
  exact h.store64 (i := idx1 a) hal.2

/-! ### Runs -/

/-- One call, with the code's own accesses to the tables. -/
inductive Linear.Step : Paging → PagingOp → Paging → Prop
  | map {s s' : Paging} {virt phys flags : ℕ} :
      MapArgs phys flags → Linear.pagingMap s virt phys flags = .ok s' → Linear.Step s (.map virt phys flags) s'
  | unmap {s s' : Paging} {virt : ℕ} : Linear.pagingUnmap s virt = .ok s' → Linear.Step s (.unmap virt) s'
  | other {s : Paging} {mem : Mem} {pmm : Pmm} :
      (∀ t ∈ s.tables, ∀ x, t ≤ x → x < t + 4096 → mem x = s.mem x) →
      (∀ t ∈ s.tables, pmm.bitmapTest (t / 4096) = true) → pmm.lastFreeHint ≤ PMM_MAX_PAGES →
      Linear.Step s (.other mem pmm) { s with mem := mem, pmm := pmm }

/-- **One step** is one on physical memory, and leaves the first GiB as it is. -/
theorem Linear.Step.physical {op : PagingOp} (hs : Linear.Step s op s') (ha : AvoidsHuge s op) (hn : NewTablesLow s op)
    (hi : TableInv s lv) (h : LowGib s) : PagingStep s op s' ∧ LowGib s' := by
  cases hs with
  | map hargs hm =>
      obtain ⟨e, hl⟩ := h.pagingMap_eq hi ha hn
      rw [e] at hm
      exact ⟨.map hargs hm, hl s' hm⟩
  | unmap hu =>
      obtain ⟨e, hl⟩ := h.pagingUnmap_eq hi ha
      rw [e] at hu
      obtain rfl := Except.ok.inj hu
      exact ⟨.unmap, hl⟩
  | other hmem hused hhint =>
      refine ⟨.other hmem hused hhint, h.of_keeps rfl (fun _ ht => ht) h.low fun t ht j _ => ?_⟩
      exact Mem.pte_congr (hmem t (h.path t ht))

theorem Linear.run_invariant {s₀ : Paging} {ops : List PagingOp} (h0 : BootState s₀) (himage : s₀.pml4 + 0x5000 ≤ 2 ^ 30)
    (h : Run (fun s op s' => (AvoidsHuge s op ∧ NewTablesLow s op) ∧ Linear.Step s op s') s₀ ops s) :
    (∃ lv, TableInv s lv) ∧ LowGib s := by
  refine h.invariant (I := fun s => (∃ lv, TableInv s lv) ∧ LowGib s) ?_ ⟨⟨_, h0.tableInv⟩, h0.lowGib himage⟩
  rintro s op s' ⟨⟨lv, hi⟩, hl⟩ ⟨⟨ha, hn⟩, hs⟩
  obtain ⟨hp, hl'⟩ := hs.physical ha hn hi hl
  exact ⟨hp.tableInv ha ⟨lv, hi⟩, hl'⟩

/-- The only way in which `paging_map` does not return. -/
theorem pagingMap_error {phys flags : ℕ} {e : Halt} (h : s.pagingMap v phys flags = .error e) :
    e = .panic "PMM: out of physical memory!" := by
  have hget : ∀ (s : Paging) (t i f : ℕ) (e : Halt), s.getOrCreateTable t i f = .error e →
      e = .panic "PMM: out of physical memory!" := by
    intro s t i f e he
    unfold Paging.getOrCreateTable at he
    split at he
    · cases he
    · cases ha : s.pmm.pmmAllocPage with
      | ok r =>
          rw [ha] at he
          cases he
      | error e' =>
          rw [ha] at he
          obtain rfl := Except.error.inj he
          unfold Pmm.pmmAllocPage at ha
          split at ha
          · cases ha
          · split at ha
            · cases ha
            · exact (Except.error.inj ha).symm
  by_contra hne
  have hne' : ∀ (s : Paging) (t i f : ℕ), s.getOrCreateTable t i f ≠ .error e := fun s t i f he => hne (hget s t i f e he)
  refine bind_ne_error (hne' _ _ _ _) (fun r _ => ?_) h
  refine bind_ne_error (hne' _ _ _ _) (fun r _ => ?_)
  exact bind_ne_error (hne' _ _ _ _) (fun r _ => ok_ne_error _ _)

/-- **Mapping and unmapping on the boot tables.**  For a kernel image in the first GiB, where the linker script puts
it: in every state reached from the boot tables by calls that concern no huge entry and take no page behind the first
GiB for a table, and for every page-aligned address without huge entry, mapping it is no page fault and makes its page
translate to the frame, unmapping it makes its page untranslated, and both write to tables only. -/
theorem boot_paging_correct {s₀ : Paging} {ops : List PagingOp} (h0 : BootState s₀) (himage : s₀.pml4 + 0x5000 ≤ 2 ^ 30)
    (h : Run (fun s op s' => (AvoidsHuge s op ∧ NewTablesLow s op) ∧ Linear.Step s op s') s₀ ops s) {virt : ℕ}
    (hv : virt % 4096 = 0) (hh : s.hugeMapped virt = false) :
    (∀ phys flags, MapArgs phys flags → (∀ page ∈ s.newTables virt, page < 2 ^ 30) →
      Linear.pagingMap s virt phys flags = .error (.panic "PMM: out of physical memory!") ∨
      ∃ s', Linear.pagingMap s virt phys flags = .ok s' ∧
        (∀ o < 4096, Linear.pagingVirtToPhys s' (virt + o) = .ok (phys + o)) ∧ WritesTables s s') ∧
    ∃ s', Linear.pagingUnmap s virt = .ok s' ∧
      (∀ o < 4096, Linear.pagingVirtToPhys s' (virt + o) = .ok 0) ∧ WritesTables s s' := by
  obtain ⟨⟨lv, hi⟩, hl⟩ := Linear.run_invariant h0 himage h
  constructor
  · intro phys flags ha hn
    obtain ⟨(e : Linear.pagingMap s virt phys flags = _), hl'⟩ := hl.pagingMap_eq hi hh hn
    rw [e]
    cases hm : s.pagingMap virt phys flags with
    | error err => exact .inl (by rw [pagingMap_error hm])
    | ok s' =>
        obtain ⟨lv', hi'⟩ : ∃ lv', TableInv s' lv' := PagingStep.tableInv (.map ha hm) hh ⟨lv, hi⟩
        obtain ⟨htr, hw⟩ := hi.pagingMap_translate hv hh ha hm
        refine .inr ⟨s', rfl, fun o ho => ?_, hw⟩
        rw [(hl' s' hm).pagingVirtToPhys_eq hi', htr o ho]
  · obtain ⟨e, hl'⟩ := hl.pagingUnmap_eq hi hh
    have hstep : PagingStep s (.unmap virt) (s.pagingUnmap virt) := .unmap
    obtain ⟨lv', hi'⟩ := hstep.tableInv hh ⟨lv, hi⟩
    obtain ⟨htr, hw⟩ := hi.pagingUnmap_translate hv hh
    refine ⟨_, e, fun o ho => ?_, hw⟩
    rw [hl'.pagingVirtToPhys_eq hi', htr o ho]

/-- Two pages above 1 GiB, where the boot code maps nothing: the second shares the tables that were created for the
first, at 4 MiB. -/
theorem boot_paging_correct_above_gigabyte :
    ∃ s s', Run (fun s op s' => (AvoidsHuge s op ∧ NewTablesLow s op) ∧ Linear.Step s op s') bootMachine
        [.map 0x40000000 0x5000000 7] s ∧
      Linear.pagingMap s 0x40001000 0x6000000 7 = .ok s' ∧
      Linear.pagingVirtToPhys s' (0x40001000 + 0x123) = .ok (0x6000000 + 0x123) ∧ WritesTables s s' := by
  have himage : bootMachine.pml4 + 0x5000 ≤ 2 ^ 30 := by decide +kernel
  have hsome : ((bootMachine.pagingMap 0x40000000 0x5000000 7).toOption.any (fun s =>
      !bootMachine.hugeMapped 0x40000000 && (bootMachine.newTables 0x40000000).all (· < 2 ^ 30) &&
        !s.hugeMapped 0x40001000 && (s.newTables 0x40001000).all (· < 2 ^ 30) &&
          (s.pagingMap 0x40001000 0x6000000 7).toOption.isSome)) = true := by
    decide +kernel
  obtain ⟨s, hs, h⟩ := (Option.any_eq_true _ _).mp hsome
  simp only [Bool.and_eq_true, Bool.not_eq_true', List.all_eq_true, decide_eq_true_eq] at h
  obtain ⟨⟨⟨⟨hh₀, hn₀⟩, hh⟩, hn⟩, hmap⟩ := h
  have hstart : Linear.pagingMap bootMachine 0x40000000 0x5000000 7 = bootMachine.pagingMap 0x40000000 0x5000000 7 :=
    ((bootMachine_bootState.lowGib himage).pagingMap_eq bootMachine_bootState.tableInv hh₀ hn₀).1
  have hrun : Run (fun s op s' => (AvoidsHuge s op ∧ NewTablesLow s op) ∧ Linear.Step s op s') bootMachine
      [.map 0x40000000 0x5000000 7] s :=
    Run.single ⟨⟨hh₀, hn₀⟩, .map (by decide +kernel) (hstart.trans (toOption_eq_some.mp hs))⟩
  obtain ⟨⟨lv, hi⟩, hl⟩ := Linear.run_invariant bootMachine_bootState himage hrun
  obtain ⟨s₁, hs₁⟩ := Option.isSome_iff_exists.mp hmap
  obtain ⟨hok, _⟩ := boot_paging_correct bootMachine_bootState himage hrun (by norm_num) hh
  obtain herr | ⟨s', hs', htr, hw⟩ := hok 0x6000000 7 (by decide +kernel) hn
  · rw [(hl.pagingMap_eq hi hh hn).1, toOption_eq_some.mp hs₁] at herr
    cases herr
  · exact ⟨s, s', hrun, hs', htr 0x123 (by norm_num), hw⟩

/-- The boot tables do not depend on which other pages are free. -/
theorem BootState.with_pmm {pmm : Pmm} (h : BootState s)
    (hused : ∀ t ∈ s.tables, t / 4096 < PMM_MAX_PAGES ∧ pmm.bitmapTest (t / 4096) = true)
    (hhint : pmm.lastFreeHint ≤ PMM_MAX_PAGES) : BootState { s with pmm := pmm } :=
  ⟨h.low, h.built, h.tables, hused, hhint⟩

/-- The same machine with 2 GiB, of which the lower half is taken. -/
def fullMachine : Paging :=
  { bootMachine with pmm := ⟨fun i => if 4096 ≤ i ∧ i < 8192 then 0#64 else BitVec.allOnes 64, 524288, 262144, 262144⟩ }

theorem fullMachine_bootState : BootState fullMachine := by
  refine bootMachine_bootState.with_pmm (fun t ht => ?_) ?_
  · have hall : ∀ t ∈ [0x100000, 0x101000, 0x102000, 0x103000, 0x104000],
        t / 4096 < PMM_MAX_PAGES ∧ fullMachine.pmm.bitmapTest (t / 4096) = true := by decide +kernel
    exact hall t ht
  · norm_num [PMM_MAX_PAGES]

/-- Mapping the first page of the user heap, 4 MiB, right after boot: the translation stays that of the huge page, and
the entry is written into the frame at 4 MiB.  Mapping a page at 1 GiB when the first free page is the one at 1 GiB:
clearing the new table is a page fault. -/
theorem boot_paging_map_fails :
    (BootState bootMachine ∧ MapArgs 0x5000000 7 ∧
      ∃ s', Linear.pagingMap bootMachine 0x400000 0x5000000 7 = .ok s' ∧
        Linear.pagingVirtToPhys s' 0x400000 = .ok 0x400000 ∧ ¬ WritesTables bootMachine s') ∧
    BootState fullMachine ∧ fullMachine.pmm.nextPages 1 = [0x40000000] ∧
      Linear.pagingMap fullMachine 0x40000000 0x5000000 7 = .error (.panic "Page Fault") := by
  have himage : bootMachine.pml4 + 0x5000 ≤ 2 ^ 30 := by decide +kernel
  have hframe : (0x400000 : ℕ) = 0x400000 / 2 ^ 21 * 2 ^ 21 := by norm_num
  obtain ⟨s', (hmap : Linear.pagingMap bootMachine 0x400000 0x5000000 7 = _), hs', htr⟩ :=
    (bootMachine_bootState.lowGib himage).pagingMap_low bootMachine_bootState.tableInv (by norm_num) hframe (by decide)
  have hwrite : (bootMachine.setLeaf 0x400000 (idx1 0x400000) (0x5000000 ||| 7)).mem 0x400000 ≠ bootMachine.mem 0x400000 := by
    decide +kernel
  have hout : ∀ t ∈ bootMachine.tables, ¬ (t ≤ 0x400000 ∧ 0x400000 < t + 4096) := by decide
  have hfault : (match Linear.pagingMap fullMachine 0x40000000 0x5000000 7 with
      | .ok _ => false
      | .error e => decide (e = .panic "Page Fault")) = true := by
    decide +kernel
  refine ⟨⟨bootMachine_bootState, by decide +kernel, s', hmap, htr, fun hw => ?_⟩, fullMachine_bootState, by decide +kernel, ?_⟩
  · obtain ⟨t, ht, hb⟩ := hw 0x400000 (by rw [hs']; exact hwrite)
    rw [hs'] at ht
    exact hout t ht hb
  · split at hfault
    · cases hfault
    · rename_i e he
      exact he.trans (congrArg Except.error (of_decide_eq_true hfault))

end HeroOS
