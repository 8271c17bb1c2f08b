import HeroOS.PagingRuns

/-! # Paging on top of the boot page tables

`arch/x86_64/boot/boot.asm` builds the first page tables: one PML4, two PDPTs that share a page
directory, and 1024 directory entries of 2 MiB each, written as 32-bit words into zeroed memory
(`BootEntries`).

On these tables `paging_map` and `paging_unmap` do what they promise for every address whose directory
entry is not huge (`TableInv.pagingMap_translate`, `TableInv.pagingUnmap_translate`).  For an address inside the
huge-page region they take the 2 MiB frame for a page table and write into it.

Of the 2 GiB that the directory covers only the first is reachable (`boot_maps_first_gib_iff`). -/

namespace HeroOS

open Word RadixTree

/-! ### The boot code -/

/-- Memory, `edi` and `eax` after one turn of the loop `.fill_pd`. -/
def fillStep (r : Mem × ℕ × ℕ) : Mem × ℕ × ℕ :=
  (r.1.write32 r.2.1 r.2.2, r.2.1 + 8, (r.2.2 + 0x200000) % 2 ^ 32)

/-- The loop `.fill_pd`: `n` entries from `edi` on, the first one `eax`. -/
def fillPd (m : Mem) (n edi eax : ℕ) : Mem := (fillStep^[n] (m, edi, eax)).1

/-- The page-table setup of `boot.asm` with `pml4_table` at `b`, followed by `pdpt_low`,
`pdpt_high` and the two pages of `pd_table`. -/
def bootPageTables (m : Mem) (b : ℕ) : Mem :=
  let pdptLow := b + 0x1000
  let pdptHigh := b + 0x2000
  let pdTable := b + 0x3000
  let m := m.fill b (3 * 512 * 4) 0
  let m := m.write32 b (pdptLow ||| 0x03)
  let m := m.write32 (b + 511 * 8) (pdptHigh ||| 0x03)
  let m := m.write32 pdptLow (pdTable ||| 0x03)
  let m := m.write32 (pdptHigh + 510 * 8) (pdTable ||| 0x03)
  fillPd m 1024 pdTable 0x83

/-- The loop invariant: the registers, the entries written so far, and the memory outside. -/
theorem fillStep_iterate (m : Mem) (edi eax n : ℕ)
    (hz : ∀ x, edi ≤ x → x < edi + 8 * n → m x = 0) (hlt : eax + n * 0x200000 < 2 ^ 32) :
    (fillStep^[n] (m, edi, eax)).2 = (edi + 8 * n, eax + n * 0x200000) ∧
      (∀ j < n, (fillPd m n edi eax).read64 (edi + 8 * j) = eax + j * 0x200000) ∧
      ∀ x, x < edi ∨ edi + 8 * n ≤ x → fillPd m n edi eax x = m x := by
  induction n with
  | zero => exact ⟨by simp, by simp, fun x _ => rfl⟩
  | succ n ih =>
      have hlt' : eax + n * 0x200000 < 2 ^ 32 :=
        lt_of_le_of_lt (Nat.add_le_add_left (Nat.mul_le_mul_right _ n.le_succ) _) hlt
      obtain ⟨hreg, hr, hf⟩ := ih (fun x h1 h2 => hz x h1 (by omega)) hlt'
      have hw : fillPd m (n + 1) edi eax =
          (fillPd m n edi eax).write64 (edi + 8 * n) (eax + n * 0x200000) := by
        unfold fillPd
        rw [Function.iterate_succ_apply', fillStep, hreg]
        refine Mem.write32_eq_write64 hlt' (fun x h1 h2 => ?_)
        exact (hf x (by omega)).trans (hz x (by omega) (by omega))
      refine ⟨?_, fun j hj => ?_, fun x hx => ?_⟩
      · rw [Function.iterate_succ_apply', fillStep, hreg, Prod.mk.injEq]
        constructor
        · show edi + 8 * n + 8 = edi + 8 * (n + 1)
          omega
        · show (eax + n * 0x200000 + 0x200000) % 2 ^ 32 = eax + (n + 1) * 0x200000
          omega
      · rw [hw]
        by_cases hjn : j = n
        · subst hjn
          exact Mem.read64_write64_same _ _ (hlt'.trans (by norm_num))
        · rw [Mem.read64_write64_of_disjoint (by omega)]
          exact hr j (by omega)
      · rw [hw, Mem.write64_of_outside (by omega)]
        exact hf x (by omega)

/-- The entries of the boot tables. -/
structure BootEntries (m : Mem) (b : ℕ) : Prop where
  pml4 : ∀ i : Fin 512, m.pte b i = if i = 0 then b + 0x1003 else if i = 511 then b + 0x2003 else 0
  low : ∀ i : Fin 512, m.pte (b + 0x1000) i = if i = 0 then b + 0x3003 else 0
  high : ∀ i : Fin 512, m.pte (b + 0x2000) i = if i = 510 then b + 0x3003 else 0
  pd : ∀ j < 1024, m.read64 (b + 0x3000 + 8 * j) = 0x83 + j * 0x200000

theorem aligned_or_three {a e : ℕ} (h : a % 4096 = 0) (he : e = a + 3) : a ||| 0x03 = e := by
  have := Nat.two_pow_add_eq_or_of_lt (i := 12) (b := 3) (by norm_num) (a / 2 ^ 12)
  rw [show 2 ^ 12 * (a / 2 ^ 12) = a by omega] at this
  rw [he]
  exact this.symm

/-- A link to the table at `c`, written as 32 bits into an entry that is zero, is the whole entry. -/
theorem write32_link {m : Mem} {t a c : ℕ} (i : Fin 512) (hc : c % 4096 = 0) (hlt : c + 3 < 2 ^ 32) (ha : a = t + 8 * (i : ℕ))
    (hz : ∀ x, t ≤ x → x < t + 4096 → m x = 0 ∨ x < a) : m.write32 a (c ||| 0x03) = m.setPte t i (c + 3) := by
  have hi := i.isLt
  rw [aligned_or_three hc rfl, ha]
  apply Mem.write32_eq_write64 hlt
  intro x h1 h2
  exact (hz x (by omega) (by omega)).resolve_right (by omega)

/-- The entries of a table that was zero but for one. -/
theorem pte_setPte_zero {m : Mem} {t e : ℕ} {i : Fin 512} (ht : t % 4096 = 0) (he : e < 2 ^ 64)
    (hz : ∀ x, t ≤ x → x < t + 4096 → m x = 0) (j : Fin 512) : (m.setPte t i e).pte t j = if j = i then e else 0 := by
  by_cases hj : j = i
  · rw [hj, Mem.pte_setPte_same he, if_pos rfl]
  · rw [Mem.pte_setPte_of_ne ht ht (fun h => hj h.2), if_neg hj]
    exact Mem.pte_eq_zero hz

/-- Memory behind a table stays zero when an entry of it is written. -/
theorem zero_setPte {m : Mem} {t e lo hi : ℕ} {i : Fin 512} (ht : t + 4096 ≤ lo) (hz : ∀ x, lo ≤ x → x < hi → m x = 0) :
    ∀ x, lo ≤ x → x < hi → m.setPte t i e x = 0 := fun x h1 h2 => (Mem.setPte_of_outside (by omega)).trans (hz x h1 h2)

/-- The boot code builds these entries in memory that is zero. -/
theorem bootEntries {m : Mem} {b : ℕ} (hb : b % 4096 = 0) (hlt : b + 0x5000 ≤ 2 ^ 32)
    (hz : ∀ x, b ≤ x → x < b + 0x5000 → m x = 0) : BootEntries (bootPageTables m b) b := by
  obtain ⟨m₀, hm₀⟩ : ∃ m₀, m₀ = m.fill b (3 * 512 * 4) 0 := ⟨_, rfl⟩
  have hz₀ : ∀ x, b ≤ x → x < b + 0x5000 → m₀ x = 0 := by
    intro x h1 h2
    rw [hm₀]
    by_cases h : x < b + 3 * 512 * 4
    · exact if_pos ⟨h1, h⟩
    · rw [Mem.fill_of_outside (by omega)]
      exact hz x h1 h2
  -- the four links, each to a table behind the one that it is written to
  obtain ⟨m₁, hm₁⟩ : ∃ m₁, m₁ = m₀.setPte b (0 : Fin 512) (b + 0x1000 + 3) := ⟨_, rfl⟩
  obtain ⟨m₂, hm₂⟩ : ∃ m₂, m₂ = m₁.setPte b (511 : Fin 512) (b + 0x2000 + 3) := ⟨_, rfl⟩
  obtain ⟨m₃, hm₃⟩ : ∃ m₃, m₃ = m₂.setPte (b + 0x1000) (0 : Fin 512) (b + 0x3000 + 3) := ⟨_, rfl⟩
  obtain ⟨m₄, hm₄⟩ : ∃ m₄, m₄ = m₃.setPte (b + 0x2000) (510 : Fin 512) (b + 0x3000 + 3) := ⟨_, rfl⟩
  have hz₁ : ∀ x, b + 0x1000 ≤ x → x < b + 0x5000 → m₁ x = 0 :=
    hm₁ ▸ zero_setPte (by omega) (fun x h1 h2 => hz₀ x (by omega) h2)
  have hz₂ : ∀ x, b + 0x1000 ≤ x → x < b + 0x5000 → m₂ x = 0 := hm₂ ▸ zero_setPte (by omega) hz₁
  have hz₃ : ∀ x, b + 0x2000 ≤ x → x < b + 0x5000 → m₃ x = 0 :=
    hm₃ ▸ zero_setPte (by omega) (fun x h1 h2 => hz₂ x (by omega) h2)
  have hz₄ : ∀ x, b + 0x3000 ≤ x → x < b + 0x5000 → m₄ x = 0 :=
    hm₄ ▸ zero_setPte (by omega) (fun x h1 h2 => hz₃ x (by omega) h2)
  have e₁ : m₀.write32 b ((b + 0x1000) ||| 0x03) = m₁ :=
    hm₁ ▸ write32_link 0 (by omega) (by omega) rfl (fun x h1 h2 => .inl (hz₀ x h1 (by omega)))
  have e₂ : m₁.write32 (b + 511 * 8) ((b + 0x2000) ||| 0x03) = m₂ := by
    rw [hm₂]
    apply write32_link 511 (by omega) (by omega) rfl
    intro x h1 h2
    by_cases hx : x < b + 511 * 8
    · exact .inr hx
    · rw [hm₁]
      exact .inl ((Mem.write64_of_outside (.inr (by dsimp only [Fin.val_zero]; omega))).trans (hz₀ x h1 (by omega)))
  have e₃ : m₂.write32 (b + 0x1000) ((b + 0x3000) ||| 0x03) = m₃ :=
    hm₃ ▸ write32_link 0 (by omega) (by omega) rfl (fun x h1 h2 => .inl (hz₂ x h1 (by omega)))
  have e₄ : m₃.write32 (b + 0x2000 + 510 * 8) ((b + 0x3000) ||| 0x03) = m₄ :=
    hm₄ ▸ write32_link 510 (by omega) (by omega) rfl (fun x h1 h2 => .inl (hz₃ x h1 (by omega)))
  have e : bootPageTables m b = fillPd m₄ 1024 (b + 0x3000) 0x83 := by
    rw [← e₄, ← e₃, ← e₂, ← e₁, hm₀]
    rfl
  obtain ⟨_, hpd, hout⟩ := fillStep_iterate m₄ (b + 0x3000) 0x83 1024
    (fun x h1 h2 => hz₄ x h1 (h2.trans_eq (Nat.add_assoc b 0x3000 (8 * 1024)))) (by norm_num)
  have hbelow : ∀ t, t + 4096 ≤ b + 0x3000 → ∀ i : Fin 512,
      (fillPd m₄ 1024 (b + 0x3000) 0x83).pte t i = m₄.pte t i :=
    fun t ht i => Mem.pte_congr (fun x _ h2 => hout x (.inl (by omega)))
  rw [e]
  refine ⟨fun i => ?_, fun i => ?_, fun i => ?_, hpd⟩
  · rw [hbelow b (by omega), hm₄, Mem.pte_setPte_of_ne (by omega) hb (by omega), hm₃,
      Mem.pte_setPte_of_ne (by omega) hb (by omega), hm₂]
    by_cases h511 : i = 511
    · subst h511
      rw [Mem.pte_setPte_same (by omega)]
      rfl
    · rw [Mem.pte_setPte_of_ne hb hb (fun h => h511 h.2), hm₁, if_neg h511]
      exact pte_setPte_zero hb (by omega) (fun x h1 h2 => hz₀ x h1 (by omega)) i
  · rw [hbelow _ (by omega), hm₄, Mem.pte_setPte_of_ne (by omega) (by omega) (by omega), hm₃]
    exact pte_setPte_zero (by omega) (by omega) (fun x h1 h2 => hz₂ x h1 (by omega)) i
  · rw [hbelow _ (by omega), hm₄]
    exact pte_setPte_zero (by omega) (by omega) (fun x h1 h2 => hz₃ x h1 (by omega)) i

/-! ### The invariant holds at boot -/

/-- The machine after the boot code: the boot tables, built in zeroed memory below 4 GiB, are active,
and their pages, as part of the kernel image, are marked used. -/
structure BootState (s : Paging) : Prop where
  low : s.pml4 + 0x5000 ≤ 2 ^ 32
  built : ∃ m : Mem, (∀ x, s.pml4 ≤ x → x < s.pml4 + 0x5000 → m x = 0) ∧
    s.mem = bootPageTables m s.pml4
  tables : s.tables = [s.pml4, s.pml4 + 0x1000, s.pml4 + 0x2000, s.pml4 + 0x3000, s.pml4 + 0x4000]
  used : ∀ t ∈ s.tables, t / 4096 < PMM_MAX_PAGES ∧ s.pmm.bitmapTest (t / 4096) = true
  hint : s.pmm.lastFreeHint ≤ PMM_MAX_PAGES

theorem BootState.entries {s : Paging} (h : BootState s) : BootEntries s.mem s.pml4 := by
  obtain ⟨m, hz, e⟩ := h.built
  rw [e]
  exact bootEntries (pml4_aligned s) h.low hz

/-- The levels of the boot tables. -/
def bootLevel (b t : ℕ) : ℕ :=
  if t = b then 4 else if t = b + 0x1000 ∨ t = b + 0x2000 then 3 else 2

theorem isPresent_boot (j : ℕ) : isPresent (0x83 + j * 0x200000) = true := by
  rw [isPresent_eq, decide_eq_true_iff]
  omega

theorem isHuge_boot (j : ℕ) : isHuge (0x83 + j * 0x200000) = true := by
  rw [isHuge_eq, decide_eq_true_iff]
  omega

/-- The address in an entry that points to a boot table. -/
theorem pteAddr_boot {a : ℕ} (ha : a % 4096 = 0) (hlt : a < 2 ^ 32) : pteAddr (a + 3) = a := by
  rw [pteAddr_eq]
  omega

variable {s s' : Paging}

theorem BootState.pde_huge (h : BootState s) {t : ℕ} {i : Fin 512}
    (ht : t = s.pml4 + 0x3000 ∨ t = s.pml4 + 0x4000) :
    isPresent (s.mem.pte t i) = true ∧ isHuge (s.mem.pte t i) = true := by
  have hi := i.isLt
  obtain ⟨j, hj, e⟩ : ∃ j < 1024, t + 8 * i = s.pml4 + 0x3000 + 8 * j := by
    rcases ht with rfl | rfl
    · exact ⟨i, by omega, rfl⟩
    · exact ⟨512 + i, by omega, by omega⟩
  unfold Mem.pte
  rw [e, h.entries.pd j hj]
  exact ⟨isPresent_boot j, isHuge_boot j⟩

/-- The only links of the boot tables. -/
theorem BootState.child_eq (h : BootState s) {t c : ℕ} {i : Fin 512} (ht : t ∈ s.tables)
    (hc : child s.mem (bootLevel s.pml4) t i = some c) :
    (t = s.pml4 ∧ (c = s.pml4 + 0x1000 ∨ c = s.pml4 + 0x2000)) ∨
      ((t = s.pml4 + 0x1000 ∨ t = s.pml4 + 0x2000) ∧ c = s.pml4 + 0x3000) := by
  have hal := pml4_aligned s
  have hlow := h.low
  have he := h.entries
  obtain ⟨h2, hp, rfl, hh⟩ := child_eq_some hc
  rw [h.tables] at ht
  simp only [List.mem_cons, List.not_mem_nil, or_false] at ht
  have hzero : isPresent 0 = false := rfl
  rcases ht with rfl | rfl | rfl | ht
  · refine .inl ⟨rfl, ?_⟩
    rw [he.pml4 i] at hp ⊢
    split_ifs at hp ⊢
    · exact .inl (pteAddr_boot (a := s.pml4 + 0x1000) (by omega) (by omega))
    · exact .inr (pteAddr_boot (a := s.pml4 + 0x2000) (by omega) (by omega))
    · cases hp
  · refine .inr ⟨.inl rfl, ?_⟩
    rw [he.low i] at hp ⊢
    split_ifs at hp ⊢
    · exact pteAddr_boot (a := s.pml4 + 0x3000) (by omega) (by omega)
    · cases hp
  · refine .inr ⟨.inr rfl, ?_⟩
    rw [he.high i] at hp ⊢
    split_ifs at hp ⊢
    · exact pteAddr_boot (a := s.pml4 + 0x3000) (by omega) (by omega)
    · cases hp
  · refine absurd ⟨?_, (h.pde_huge ht).2⟩ hh
    unfold bootLevel
    rw [if_neg (by omega), if_neg (by omega)]

/-- **The boot tables form a layered tree.** -/
theorem BootState.tableInv (h : BootState s) : TableInv s (bootLevel s.pml4) := by
  have hal := pml4_aligned s
  refine ⟨by simp [h.tables], if_pos rfl, fun t _ => ?_, fun t ht => ?_, h.used, ⟨fun ht hc => ?_, fun ht hc => ?_⟩,
    h.hint⟩
  · unfold bootLevel
    split_ifs <;> norm_num
  · rw [h.tables] at ht
    simp only [List.mem_cons, List.not_mem_nil, or_false] at ht
    omega
  · rw [h.tables]
    rcases h.child_eq ht hc with ⟨_, rfl | rfl⟩ | ⟨_, rfl⟩
    · simp
    · simp
    · simp
  · unfold bootLevel
    rcases h.child_eq ht hc with ⟨rfl, hc'⟩ | ⟨ht', rfl⟩
    · rw [if_pos rfl, if_neg (by omega), if_pos hc']
    · rw [if_neg (by omega), if_pos ht', if_neg (by omega), if_neg (by omega)]

/-! ### Runs -/

/-- The call does not concern an address whose directory entry is huge. -/
def AvoidsHuge (s : Paging) : PagingOp → Prop
  | .map virt _ _ => s.hugeMapped virt = false
  | .unmap virt => s.hugeMapped virt = false
  | .other _ _ => True

/-- All bytes that differ lie in tables. -/
def WritesTables (s s' : Paging) : Prop :=
  ∀ x, s'.mem x ≠ s.mem x → ∃ t ∈ s'.tables, t ≤ x ∧ x < t + 4096

theorem PagingStep.tableInv {op : PagingOp} (hs : PagingStep s op s') (ha : AvoidsHuge s op)
    (h : ∃ lv, TableInv s lv) : ∃ lv, TableInv s' lv := by
  obtain ⟨lv, hi⟩ := h
  cases hs with
  | map _ hm =>
      obtain ⟨s₁, lv₁, pt, hex, ht, rfl⟩ := pagingMap_spec hi ha hm
      obtain ⟨hpt, h1⟩ := hex.inv.tableOf_mem ht
      exact ⟨lv₁, hex.inv.setLeaf hpt h1⟩
  | unmap =>
      rw [pagingUnmap_eq hi ha]
      split
      · rename_i pt ht
        obtain ⟨hpt, h1⟩ := hi.tableOf_mem ht
        exact ⟨lv, hi.setLeaf hpt h1⟩
      · exact ⟨lv, hi⟩
  | other hmem hused hhint => exact ⟨lv, hi.other (fun t ht j => Mem.pte_congr (hmem t ht)) hused hhint⟩

variable {lv : ℕ → ℕ} {v v' pt e : ℕ}

theorem tableOf_congr_key (hk : pageKey v' = pageKey v) : s.tableOf lv v' = s.tableOf lv v := by
  unfold Paging.tableOf
  rw [(pageKey_eq_iff.mp hk).1]

theorem hugeMapped_congr_key (hk : pageKey v' = pageKey v) : s.hugeMapped v' = s.hugeMapped v := by
  obtain ⟨hpath, _⟩ := pageKey_eq_iff.mp hk
  simp only [tablePath, List.cons.injEq, and_true] at hpath
  obtain ⟨h4, h3, h2⟩ := hpath
  simp only [Paging.hugeMapped, Paging.pde, Paging.pdpte, Paging.pml4e, h4, h3, h2]

theorem pageKey_offset {o : ℕ} (hv : v % 4096 = 0) (ho : o < 4096) : pageKey (v + o) = pageKey v := by
  unfold pageKey
  omega

/-- The translation of a page whose entry has just been written. -/
theorem TableInv.translate_setLeaf (hi : TableInv s lv) (ht : s.tableOf lv v = some pt) (he : e < 2 ^ 64)
    (hk : pageKey v' = pageKey v) :
    (s.setLeaf pt (idx1 v) e).pagingVirtToPhys v' =
      if isPresent e then pteAddr e + v' % 4096 else 0 := by
  obtain ⟨hpt, h1⟩ := hi.tableOf_mem ht
  have hi' : TableInv (s.setLeaf pt (idx1 v) e) lv := hi.setLeaf hpt h1
  have ht' : s.tableOf lv v' = some pt := (tableOf_congr_key hk).trans ht
  have htl : (s.setLeaf pt (idx1 v) e).tableOf lv v' = some pt :=
    (hi.tableOf_congr (hi.child_setLeaf hpt h1)).trans ht'
  rw [pagingVirtToPhys_eq hi' (hi'.hugeMapped_of_tableOf htl), hi.entryOf_setLeaf hpt h1 he,
    if_pos ⟨ht', (pageKey_eq_iff.mp hk).2⟩]
  split_ifs <;> rfl

theorem writesTables_setLeaf {i : Fin 512} (hpt : pt ∈ s.tables) : WritesTables s (s.setLeaf pt i e) := by
  intro x hx
  refine ⟨pt, hpt, ?_⟩
  by_contra hout
  exact hx (Mem.setPte_of_outside (by omega))

/-- **One call.**  Mapping a page without huge entry makes it translate to the frame, unmapping it makes it
untranslated, and both write to tables only. -/
theorem TableInv.pagingMap_translate {phys flags : ℕ} (hi : TableInv s lv) (hv : v % 4096 = 0) (hh : s.hugeMapped v = false)
    (ha : MapArgs phys flags) (hm : s.pagingMap v phys flags = .ok s') :
    (∀ o < 4096, s'.pagingVirtToPhys (v + o) = phys + o) ∧ WritesTables s s' := by
  obtain ⟨s₁, lv₁, pt, hex, ht, rfl⟩ := pagingMap_spec hi hh hm
  have hlt : phys ||| flags < 2 ^ 64 :=
    Nat.or_lt_two_pow (lt_trans ha.bound (by norm_num)) ha.flags_lt
  refine ⟨fun o ho => ?_, fun x hx => ?_⟩
  · rw [hex.inv.translate_setLeaf ht hlt (pageKey_offset hv ho), if_pos (isPresent_or ha.present),
      pteAddr_or ha.aligned ha.bound ha.no_addr]
    omega
  · by_cases hx₁ : (s₁.setLeaf pt (idx1 v) (phys ||| flags)).mem x = s₁.mem x
    · exact hex.writes x (by rwa [← hx₁])
    · exact writesTables_setLeaf (hex.inv.tableOf_mem ht).1 x hx₁

theorem TableInv.pagingUnmap_translate (hi : TableInv s lv) (hv : v % 4096 = 0) (hh : s.hugeMapped v = false) :
    (∀ o < 4096, (s.pagingUnmap v).pagingVirtToPhys (v + o) = 0) ∧ WritesTables s (s.pagingUnmap v) := by
  rw [pagingUnmap_eq hi hh]
  cases ht : s.tableOf lv v with
  | some pt =>
      refine ⟨fun o ho => ?_, writesTables_setLeaf (hi.tableOf_mem ht).1⟩
      exact hi.translate_setLeaf ht (by norm_num) (pageKey_offset hv ho)
  | none =>
      refine ⟨fun o ho => ?_, fun x hx => absurd rfl hx⟩
      have hk := pageKey_offset hv ho
      have ht' : s.tableOf lv (v + o) = none := (tableOf_congr_key hk).trans ht
      rw [pagingVirtToPhys_eq hi ((hugeMapped_congr_key hk).trans hh)]
      unfold Paging.entryOf lookup
      rw [show descend (child s.mem lv) s.pml4 (tablePath (v + o)) = s.tableOf lv (v + o) from rfl, ht']
      rfl

/-- A machine with 64 MiB whose boot tables start at 1 MiB, with the lowest 4 MiB reserved. -/
def bootMachine : Paging :=
  ⟨bootPageTables (fun _ => 0) 0x100000,
    ⟨fun i => if 16 ≤ i ∧ i < 256 then 0#64 else BitVec.allOnes 64, 16384, 15360, 1024⟩,
    0x100000, [0x100000, 0x101000, 0x102000, 0x103000, 0x104000]⟩

theorem bootMachine_bootState : BootState bootMachine := by
  have hp : bootMachine.pml4 = 0x100000 := by decide +kernel
  refine ⟨?_, ⟨fun _ => 0, fun _ _ _ => rfl, ?_⟩, ?_, ?_, ?_⟩
  · rw [hp]
    norm_num
  · rw [hp, bootMachine]
  · rw [hp]
    norm_num [bootMachine]
  · intro t ht
    have hall : ∀ t ∈ [0x100000, 0x101000, 0x102000, 0x103000, 0x104000],
        t / 4096 < PMM_MAX_PAGES ∧ bootMachine.pmm.bitmapTest (t / 4096) = true := by decide +kernel
    exact hall t ht
  · norm_num [bootMachine, PMM_MAX_PAGES]

/-! ### What the boot tables map -/

section boot
variable {v a : ℕ}

/-- Addresses behind the page directory are looked up in its first half. -/
theorem BootState.translate_pd (h : BootState s) (h4 : isPresent (s.pml4e v) = true) (h3 : isPresent (s.pdpte v) = true)
    (hpd : pteAddr (s.pdpte v) = s.pml4 + 0x3000) : s.pagingVirtToPhys v = v % 2 ^ 30 := by
  obtain ⟨hp, hh⟩ := h.pde_huge (t := s.pml4 + 0x3000) (i := idx2 v) (.inl rfl)
  have hidx : (idx2 v : ℕ) = v / 2 ^ 21 % 512 := pdIdx_eq v
  have hpde : s.pde v = 0x83 + v / 2 ^ 21 % 512 * 0x200000 := by
    unfold Paging.pde Mem.pte
    rw [hpd, hidx, h.entries.pd _ (by omega)]
  have haddr : pteAddr (s.pde v) = v / 2 ^ 21 % 512 * 0x200000 := by
    rw [hpde, pteAddr_eq]
    omega
  have hmask : v &&& 0x1FFFFF = v % 2 ^ 21 := and_mask v 21
  rw [← hpd] at hp hh
  rw [pagingVirtToPhys_walk, h4, h3, show isPresent (s.pde v) = true from hp, show isHuge (s.pde v) = true from hh, haddr, hmask]
  simp only [Bool.not_true, Bool.false_eq_true, if_false, if_true]
  rw [wadd_of_lt (by omega)]
  omega

/-- Addresses without a page directory. -/
theorem translate_no_pd (h3 : isPresent (s.pdpte v) = false) : s.pagingVirtToPhys v = 0 := by
  rw [pagingVirtToPhys_walk, h3]
  simp

/-- Of the addresses behind one link of the PML4 to a table with one entry, those with the index of that entry are
mapped. -/
theorem BootState.translate (h : BootState s) {t i : ℕ} (ht : t = s.pml4 + 0x1000 ∨ t = s.pml4 + 0x2000)
    (h4 : s.pml4e v = t + 3) (h3 : ∀ j : Fin 512, s.mem.pte t j = if (j : ℕ) = i then s.pml4 + 0x3003 else 0) :
    s.pagingVirtToPhys v = if v / 2 ^ 30 % 512 = i then v % 2 ^ 30 else 0 := by
  have hal := pml4_aligned s
  have hlow := h.low
  have hidx : (idx3 v : ℕ) = v / 2 ^ 30 % 512 := pdptIdx_eq v
  have hpdpt : pteAddr (s.pml4e v) = t := by
    rw [h4]
    exact pteAddr_boot (by omega) (by omega)
  have hpdpte : s.pdpte v = if v / 2 ^ 30 % 512 = i then s.pml4 + 0x3003 else 0 := by
    unfold Paging.pdpte
    rw [hpdpt, h3, hidx]
  split_ifs at hpdpte ⊢
  · apply h.translate_pd
    · rw [h4, isPresent_eq, decide_eq_true_iff]
      omega
    · rw [hpdpte, isPresent_eq, decide_eq_true_iff]
      omega
    · rw [hpdpte]
      exact pteAddr_boot (a := s.pml4 + 0x3000) (by omega) (by omega)
  · apply translate_no_pd
    rw [hpdpte]
    rfl

/-- The lower half of the tables. -/
theorem BootState.translate_low (h : BootState s) (ha : a < 2 ^ 39) :
    s.pagingVirtToPhys a = if a / 2 ^ 30 % 512 = 0 then a % 2 ^ 30 else 0 := by
  have hidx : idx4 a = 0 := Fin.ext (by show pml4Idx a = 0; rw [pml4Idx_eq]; omega)
  apply h.translate (.inl rfl)
  · unfold Paging.pml4e
    rw [hidx, h.entries.pml4, if_pos rfl]
  · intro j
    rw [h.entries.low]
    simp only [Fin.ext_iff, Fin.val_zero]

/-- The upper half of the tables. -/
theorem BootState.translate_high (h : BootState s) (ha : a < 2 ^ 39) :
    s.pagingVirtToPhys (0xFFFFFF8000000000 + a) = if a / 2 ^ 30 % 512 = 510 then a % 2 ^ 30 else 0 := by
  have hidx : idx4 (0xFFFFFF8000000000 + a) = 511 := Fin.ext (by
    show pml4Idx (0xFFFFFF8000000000 + a) = 511
    rw [pml4Idx_eq]
    omega)
  have hmap := h.translate (v := 0xFFFFFF8000000000 + a) (i := 510) (.inr rfl) (by
    unfold Paging.pml4e
    rw [hidx, h.entries.pml4, if_neg (by decide), if_pos rfl]) (by
    intro j
    rw [h.entries.high]
    simp only [Fin.ext_iff]
    rfl)
  rw [hmap, show (0xFFFFFF8000000000 + a) / 2 ^ 30 % 512 = a / 2 ^ 30 % 512 by omega,
    show (0xFFFFFF8000000000 + a) % 2 ^ 30 = a % 2 ^ 30 by omega]

/-- **The boot tables map the first GiB.**  Of the 2 GiB that the boot code sets out to map, at 0 and at
`0xFFFFFFFF80000000`, exactly the addresses of the first translate to themselves: no PDPT entry leads to the second
half of the page directory. -/
theorem boot_maps_first_gib_iff (h : BootState s) (ha : a < 2 ^ 31) :
    (s.pagingVirtToPhys a = a ∧ s.pagingVirtToPhys (0xFFFFFFFF80000000 + a) = a) ↔ a < 2 ^ 30 := by
  have hlow := h.translate_low (a := a) (by omega)
  have hhigh := h.translate_high (a := 0x7F80000000 + a) (by omega)
  rw [← Nat.add_assoc] at hhigh
  rw [hlow, show 0xFFFFFFFF80000000 + a = 0xFFFFFF8000000000 + 0x7F80000000 + a by omega, hhigh]
  by_cases hlt : a < 2 ^ 30
  · rw [if_pos (by omega), if_pos (by omega)]
    omega
  · rw [if_neg (by omega)]
    omega

/-- The last byte of the first GiB. -/
theorem boot_maps_last_byte : bootMachine.pagingVirtToPhys 0x3FFFFFFF = 0x3FFFFFFF ∧
    bootMachine.pagingVirtToPhys (0xFFFFFFFF80000000 + 0x3FFFFFFF) = 0x3FFFFFFF :=
  (boot_maps_first_gib_iff bootMachine_bootState (by norm_num)).mpr (by norm_num)

/-- The second GiB is not mapped. -/
theorem boot_second_gib_unmapped : BootState bootMachine ∧ bootMachine.pagingVirtToPhys 0x40000000 = 0 ∧
    bootMachine.pagingVirtToPhys 0xFFFFFFFFC0000000 = 0 ∧ ¬ ∀ a < 2 ^ 31, bootMachine.pagingVirtToPhys a = a ∧
      bootMachine.pagingVirtToPhys (0xFFFFFFFF80000000 + a) = a := by
  have h := bootMachine_bootState
  have hlow := h.translate_low (a := 0x40000000) (by norm_num)
  have hhigh := h.translate_high (a := 0x7FC0000000) (by norm_num)
  norm_num at hlow hhigh
  refine ⟨h, hlow, hhigh, fun hall => ?_⟩
  have hself := (hall 0x40000000 (by norm_num)).1
  rw [hlow] at hself
  cases hself

end boot

end HeroOS
