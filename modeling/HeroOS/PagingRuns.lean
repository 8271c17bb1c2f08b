import HeroOS.PagingTables
import HeroOS.Run

/-! # Page tables refine a partial function

`paging_map` extends the tree to the page table of its address and writes one entry there
(`pagingMap_spec`), `paging_unmap` clears that entry.  In a tree without huge entries in which every
table has one parent, only the addresses of one page lead to that entry, so that the tables refine a
partial function from page numbers to frames: `paging_refines_map`. -/

namespace HeroOS

open Word RadixTree

variable {s s' : Paging} {lv lv' : ℕ → ℕ} {v pt e : ℕ} {i : Fin 512}

/-! ### Writing an entry of a page table -/

/-- The state after `pt[i] = e`. -/
def Paging.setLeaf (s : Paging) (pt : ℕ) (i : Fin 512) (e : ℕ) : Paging :=
  { s with mem := s.mem.setPte pt i e }

theorem TableInv.pte_setLeaf {t : ℕ} {j : Fin 512} (hi : TableInv s lv) (hpt : pt ∈ s.tables)
    (ht : t ∈ s.tables) (h : ¬ (t = pt ∧ j = i)) :
    (s.setLeaf pt i e).mem.pte t j = s.mem.pte t j :=
  Mem.pte_setPte_of_ne (hi.aligned pt hpt) (hi.aligned t ht) h

/-- Entries of a page table are no links. -/
theorem TableInv.child_setLeaf (hi : TableInv s lv) (hpt : pt ∈ s.tables) (h1 : lv pt = 1) :
    ∀ t ∈ s.tables, ∀ j, child (s.setLeaf pt i e).mem lv t j = child s.mem lv t j := by
  intro t ht j
  by_cases htp : t = pt
  · subst htp
    unfold child
    rw [if_neg (by omega), if_neg (by omega)]
  · unfold child
    rw [hi.pte_setLeaf hpt ht (fun h => htp h.1)]

/-- Links that agree on all tables make the same layers. -/
theorem Layered.congr {next next' : ℕ → Fin 512 → Option ℕ} {node : ℕ → Prop}
    (hl : Layered next node lv) (h : ∀ t, node t → ∀ j, next' t j = next t j) :
    Layered next' node lv := by
  refine ⟨fun ht hc => ?_, fun ht hc => ?_⟩
  · rw [h _ ht] at hc
    exact hl.closed ht hc
  · rw [h _ ht] at hc
    exact hl.level_eq ht hc

theorem TableInv.setLeaf (hi : TableInv s lv) (hpt : pt ∈ s.tables) (h1 : lv pt = 1) :
    TableInv (s.setLeaf pt i e) lv :=
  ⟨hi.root_mem, hi.root_level, hi.level_pos, hi.aligned, hi.used,
    Layered.congr hi.layered (hi.child_setLeaf hpt h1), hi.hint⟩

theorem TableInv.tableOf_mem (hi : TableInv s lv) (h : s.tableOf lv v = some pt) :
    pt ∈ s.tables ∧ lv pt = 1 := by
  obtain ⟨hm, hl⟩ := hi.layered.descend hi.root_mem h
  rw [hi.root_level, show (tablePath v).length = 3 from rfl] at hl
  exact ⟨hm, by omega⟩

theorem TableInv.tableOf_congr {m' : Mem} {pmm' : Pmm} (hi : TableInv s lv)
    (h : ∀ t ∈ s.tables, ∀ j, child m' lv t j = child s.mem lv t j) :
    Paging.tableOf { s with mem := m', pmm := pmm' } lv v = s.tableOf lv v := by
  have hlen : (tablePath v).length < lv s.pml4 := by
    rw [hi.root_level, show (tablePath v).length = 3 from rfl]
    norm_num
  exact descend_congr hi.layered (fun t i ht _ => h t ht i) hi.root_mem hlen

/-- The entry of an address lies in its page table. -/
theorem entryOf_eq (s : Paging) : s.entryOf lv v = (s.tableOf lv v).bind (fun p => leafEntry s.mem p (idx1 v)) :=
  rfl

/-- The entries of all addresses after one entry of a page table has been written. -/
theorem TableInv.entryOf_setLeaf (hi : TableInv s lv) (hpt : pt ∈ s.tables) (h1 : lv pt = 1)
    (he : e < 2 ^ 64) :
    (s.setLeaf pt i e).entryOf lv v =
      if s.tableOf lv v = some pt ∧ idx1 v = i then (if isPresent e then some e else none)
      else s.entryOf lv v := by
  have ht : (s.setLeaf pt i e).tableOf lv v = s.tableOf lv v := hi.tableOf_congr (hi.child_setLeaf hpt h1)
  rw [entryOf_eq, entryOf_eq, ht]
  cases hv : s.tableOf lv v with
  | none => simp
  | some p =>
      obtain ⟨hp, _⟩ := hi.tableOf_mem hv
      rw [Option.bind_some, Option.bind_some]
      by_cases h : p = pt ∧ idx1 v = i
      · obtain ⟨rfl, rfl⟩ := h
        rw [if_pos ⟨rfl, rfl⟩]
        unfold leafEntry Paging.setLeaf
        rw [Mem.pte_setPte_same he]
      · rw [if_neg (fun h' => h ⟨Option.some.inj h'.1, h'.2⟩)]
        unfold leafEntry
        rw [hi.pte_setLeaf hpt hp h]

theorem child_congr (lv : ℕ → ℕ) {m' : Mem} (h : ∀ t ∈ s.tables, ∀ j : Fin 512, m'.pte t j = s.mem.pte t j) :
    ∀ t ∈ s.tables, ∀ j, child m' lv t j = child s.mem lv t j := by
  intro t ht j
  unfold child
  rw [h t ht j]

/-- Tables whose entries agree give every address the same entry. -/
theorem TableInv.entryOf_congr {mem : Mem} {pmm : Pmm} (hi : TableInv s lv)
    (hpte : ∀ t ∈ s.tables, ∀ j : Fin 512, mem.pte t j = s.mem.pte t j) :
    ({ s with mem := mem, pmm := pmm } : Paging).entryOf lv v = s.entryOf lv v := by
  have ht : ({ s with mem := mem, pmm := pmm } : Paging).tableOf lv v = s.tableOf lv v :=
    hi.tableOf_congr (child_congr lv hpte)
  rw [entryOf_eq, entryOf_eq, ht]
  cases hv : s.tableOf lv v with
  | none => simp
  | some p =>
      unfold leafEntry
      simp only [Option.bind_some, hpte p (hi.tableOf_mem hv).1]

/-- Other code that writes to no table and frees none keeps the invariant. -/
theorem TableInv.other {mem : Mem} {pmm : Pmm} (hi : TableInv s lv)
    (hpte : ∀ t ∈ s.tables, ∀ j : Fin 512, mem.pte t j = s.mem.pte t j)
    (hused : ∀ t ∈ s.tables, pmm.bitmapTest (t / 4096) = true)
    (hhint : pmm.lastFreeHint ≤ PMM_MAX_PAGES) : TableInv { s with mem := mem, pmm := pmm } lv := by
  have hlayered : Layered (child mem lv) (· ∈ s.tables) lv := Layered.congr hi.layered (child_congr lv hpte)
  exact ⟨hi.root_mem, hi.root_level, hi.level_pos, hi.aligned, fun t ht => ⟨(hi.used t ht).1, hused t ht⟩, hlayered, hhint⟩

/-! ### `paging_map` -/

theorem Extends.pml4 (h : Extends s lv s' lv') : s'.pml4 = s.pml4 := by
  unfold Paging.pml4
  rw [h.cr3]

theorem Extends.entryOf_eq (h : Extends s lv s' lv') (hi : TableInv s lv) :
    s'.entryOf lv' v = s.entryOf lv v := by
  unfold Paging.entryOf
  rw [h.pml4]
  exact h.lookup_eq _ hi.root_mem _ _ hi.root_level

/-- The three calls of `get_or_create_table` lead to the page table of the address. -/
theorem getOrCreateTable_path {s₁ s₂ s₃ : Paging} {pdpt pd : ℕ} (hi : TableInv s lv) (hh : s.hugeMapped v = false)
    (h₁ : s.getOrCreateTable s.pml4 (idx4 v) (PTE_PRESENT ||| PTE_WRITABLE) = .ok (s₁, pdpt))
    (h₂ : s₁.getOrCreateTable pdpt (idx3 v) (PTE_PRESENT ||| PTE_WRITABLE) = .ok (s₂, pd))
    (h₃ : s₂.getOrCreateTable pd (idx2 v) (PTE_PRESENT ||| PTE_WRITABLE) = .ok (s₃, pt)) :
    ∃ lv₃, Extends s lv s₃ lv₃ ∧ AddsTables s s₃ ∧ s₃.tableOf lv₃ v = some pt := by
  obtain ⟨lv₁, ex₁, hm₁, hc₁⟩ := getOrCreateTable_extends (i := idx4 v) hi hi.root_mem
    (by rw [hi.root_level]; norm_num) (by rw [hi.root_level]; omega) h₁
  have hroot₁ : lv₁ s.pml4 = 4 := (ex₁.level _ hi.root_mem).trans hi.root_level
  have hl₁ := ex₁.inv.layered.level_eq (ex₁.mono _ hi.root_mem) hc₁
  obtain ⟨lv₂, ex₂, hm₂, hc₂⟩ := getOrCreateTable_extends (i := idx3 v) ex₁.inv hm₁ (by omega) (by omega) h₂
  have hl₂ := ex₂.inv.layered.level_eq (ex₂.mono _ hm₁) hc₂
  rw [ex₂.level _ hm₁] at hl₂
  have ex₁₂ := ex₁.trans ex₂
  have hc₁₂ := ex₂.links _ (ex₁.mono _ hi.root_mem) _ _ hc₁
  -- a huge entry at the third level would be an old one, on the old path of the address
  have hnh : ¬ (lv₂ pd = 2 ∧ isPresent (s₂.mem.pte pd (idx2 v)) = true ∧
      isHuge (s₂.mem.pte pd (idx2 v)) = true) := by
    rintro ⟨h2, hp, hg⟩
    obtain ⟨hpd, e⟩ := ex₁₂.huge pd hm₂ (idx2 v) h2 hp hg
    obtain ⟨hpdpt, hc₃⟩ := ex₁₂.back _ (ex₂.mono _ hm₁) _ _ hc₂ hpd
    obtain ⟨_, hc₄⟩ := ex₁₂.back _ (ex₁₂.mono _ hi.root_mem) _ _ hc₁₂ hpdpt
    obtain ⟨_, hp₄, rfl, _⟩ := child_eq_some hc₄
    obtain ⟨_, hp₃, rfl, _⟩ := child_eq_some hc₃
    rw [e] at hp hg
    have : s.hugeMapped v = true := by
      unfold Paging.hugeMapped
      rw [show isPresent (s.pml4e v) = true from hp₄, show isPresent (s.pdpte v) = true from hp₃,
        show isPresent (s.pde v) = true from hp, show isHuge (s.pde v) = true from hg]
      rfl
    rw [hh] at this
    cases this
  obtain ⟨lv₃, ex₃, _, hc₃⟩ := getOrCreateTable_extends (i := idx2 v) ex₂.inv hm₂ (by omega) hnh h₃
  have ex := ex₁₂.trans ex₃
  have ha₁ := getOrCreateTable_adds (i := idx4 v) hi hi.root_mem h₁
  have ha₂ := getOrCreateTable_adds (i := idx3 v) ex₁.inv hm₁ h₂
  have ha₃ := getOrCreateTable_adds (i := idx2 v) ex₂.inv hm₂ h₃
  refine ⟨lv₃, ex, (ha₁.trans ha₂).trans ha₃, ?_⟩
  unfold Paging.tableOf tablePath
  simp only [descend]
  rw [ex.pml4, ex₃.links _ (ex₁₂.mono _ hi.root_mem) _ _ hc₁₂, Option.bind_some,
    ex₃.links _ (ex₂.mono _ hm₁) _ _ hc₂, Option.bind_some, hc₃, Option.bind_some]

/-- The tables that `paging_map` adds, and the entry that it writes. -/
theorem pagingMap_adds {phys flags : ℕ} (hi : TableInv s lv) (hh : s.hugeMapped v = false)
    (h : s.pagingMap v phys flags = .ok s') :
    ∃ s₁ lv₁ pt, Extends s lv s₁ lv₁ ∧ AddsTables s s₁ ∧ s₁.tableOf lv₁ v = some pt ∧
      s' = s₁.setLeaf pt (idx1 v) (phys ||| flags) := by
  unfold Paging.pagingMap at h
  simp only [bind_eq_ok] at h
  obtain ⟨⟨s₁, pdpt⟩, h₁, ⟨s₂, pd⟩, h₂, ⟨s₃, pt⟩, h₃, h⟩ := h
  obtain ⟨lv₃, hex, hadds, ht⟩ := getOrCreateTable_path hi hh h₁ h₂ h₃
  exact ⟨s₃, lv₃, pt, hex, hadds, ht, (Except.ok.inj h).symm⟩

/-- **`paging_map`** extends the tree to the page table of the address and writes one entry. -/
theorem pagingMap_spec {phys flags : ℕ} (hi : TableInv s lv) (hh : s.hugeMapped v = false)
    (h : s.pagingMap v phys flags = .ok s') :
    ∃ s₁ lv₁ pt, Extends s lv s₁ lv₁ ∧ s₁.tableOf lv₁ v = some pt ∧
      s' = s₁.setLeaf pt (idx1 v) (phys ||| flags) := by
  obtain ⟨s₁, lv₁, pt, hex, _, ht, hs'⟩ := pagingMap_adds hi hh h
  exact ⟨s₁, lv₁, pt, hex, ht, hs'⟩

/-! ### Runs -/

/-- Calls of the paging code, and whatever other kernel code does meanwhile. -/
inductive PagingOp where
  | map (virt phys flags : ℕ)
  | unmap (virt : ℕ)
  | other (mem : Mem) (pmm : Pmm)

/-- The arguments of `paging_map` fit the format of an entry. -/
structure MapArgs (phys flags : ℕ) : Prop where
  aligned : phys % 4096 = 0
  bound : phys < 2 ^ 52
  flags_lt : flags < 2 ^ 64
  present : isPresent flags = true
  no_addr : pteAddr flags = 0

instance (phys flags : ℕ) : Decidable (MapArgs phys flags) :=
  decidable_of_iff (phys % 4096 = 0 ∧ phys < 2 ^ 52 ∧ flags < 2 ^ 64 ∧ isPresent flags = true ∧
      pteAddr flags = 0)
    ⟨fun ⟨h1, h2, h3, h4, h5⟩ => ⟨h1, h2, h3, h4, h5⟩,
      fun h => ⟨h.aligned, h.bound, h.flags_lt, h.present, h.no_addr⟩⟩

/-- One call.  Other code writes to no table and leaves the tables marked used, so that
`pmm_alloc_page` never returns a page in use as a table. -/
inductive PagingStep : Paging → PagingOp → Paging → Prop
  | map {s s' : Paging} {virt phys flags : ℕ} :
      MapArgs phys flags → s.pagingMap virt phys flags = .ok s' →
      PagingStep s (.map virt phys flags) s'
  | unmap {s : Paging} {virt : ℕ} : PagingStep s (.unmap virt) (s.pagingUnmap virt)
  | other {s : Paging} {mem : Mem} {pmm : Pmm} :
      (∀ t ∈ s.tables, ∀ x, t ≤ x → x < t + 4096 → mem x = s.mem x) →
      (∀ t ∈ s.tables, pmm.bitmapTest (t / 4096) = true) → pmm.lastFreeHint ≤ PMM_MAX_PAGES →
      PagingStep s (.other mem pmm) { s with mem := mem, pmm := pmm }

/-- The calls of the paging code, as a function. -/
def Paging.exec (s : Paging) : PagingOp → Option Paging
  | .map virt phys flags =>
      if MapArgs phys flags then (s.pagingMap virt phys flags).toOption else none
  | .unmap virt => some (s.pagingUnmap virt)
  | .other _ _ => none

theorem Paging.exec_step {op : PagingOp} (h : s.exec op = some s') : PagingStep s op s' := by
  cases op with
  | map virt phys flags =>
      simp only [exec] at h
      split_ifs at h with ha
      exact .map ha (toOption_eq_some.mp h)
  | unmap virt =>
      obtain rfl := Option.some.inj h
      exact .unmap
  | other mem pmm => cases h

/-- The partial function that the tables stand for: the last frame mapped for a page number and
not unmapped since. -/
def mapSpec (f : ℕ → Option ℕ) : PagingOp → ℕ → Option ℕ
  | .map virt phys _ => Function.update f (pageKey virt) (some phys)
  | .unmap virt => Function.update f (pageKey virt) none
  | .other _ _ => f

/-- No entry of a page directory maps 2 MiB. -/
def NoHuge (s : Paging) (lv : ℕ → ℕ) : Prop :=
  ∀ t ∈ s.tables, lv t = 2 → ∀ i : Fin 512, isPresent (s.mem.pte t i) = true →
    isHuge (s.mem.pte t i) = false

/-- The tables form a tree without huge entries that holds the frames of `f`. -/
structure Refines (s : Paging) (f : ℕ → Option ℕ) (lv : ℕ → ℕ) : Prop where
  inv : TableInv s lv
  parents : SingleParent (child s.mem lv) (· ∈ s.tables)
  noHuge : NoHuge s lv
  frames : ∀ v, (s.entryOf lv v).map pteAddr = f (pageKey v)

theorem TableInv.hugeMapped_of_noHuge (hi : TableInv s lv) (hn : NoHuge s lv) (v : ℕ) :
    s.hugeMapped v = false := by
  rw [Bool.eq_false_iff]
  intro hh
  unfold Paging.hugeMapped at hh
  simp only [Bool.and_eq_true] at hh
  obtain ⟨⟨⟨h4, h3⟩, h2⟩, hh⟩ := hh
  have hroot := hi.root_level
  have hc4 : child s.mem lv s.pml4 (idx4 v) = some (pteAddr (s.pml4e v)) :=
    child_of_present (by omega) h4 (by omega)
  have hl4 := hi.layered.level_eq hi.root_mem hc4
  have hm4 := hi.layered.closed hi.root_mem hc4
  have hc3 : child s.mem lv (pteAddr (s.pml4e v)) (idx3 v) = some (pteAddr (s.pdpte v)) :=
    child_of_present (by omega) h3 (by omega)
  have hl3 := hi.layered.level_eq hm4 hc3
  have hnh : isHuge (s.pde v) = false := hn _ (hi.layered.closed hm4 hc3) (by omega) (idx2 v) h2
  rw [hnh] at hh
  cases hh

/-- Entries of page tables are no entries of page directories. -/
theorem TableInv.noHuge_setLeaf (hi : TableInv s lv) (hn : NoHuge s lv) (hpt : pt ∈ s.tables) (h1 : lv pt = 1) :
    NoHuge (s.setLeaf pt i e) lv := by
  intro t ht h2 j hp
  have htp : t ≠ pt := by
    rintro rfl
    omega
  rw [hi.pte_setLeaf hpt ht (fun h => htp h.1)] at hp ⊢
  exact hn t ht h2 j hp

/-- The tables that an extension adds hold no huge entries. -/
theorem Extends.noHuge (h : Extends s lv s' lv') (hn : NoHuge s lv) : NoHuge s' lv' := by
  intro t ht h2 i hp
  rw [Bool.eq_false_iff]
  intro hh
  obtain ⟨ht', e⟩ := h.huge t ht i h2 hp hh
  rw [e] at hp hh
  rw [hn t ht' ((h.level t ht').symm.trans h2) i hp] at hh
  cases hh

/-- Pages are told apart by the table and the index of their entry. -/
theorem Refines.key_of_tableOf {f : ℕ → Option ℕ} {v' : ℕ} (hr : Refines s f lv)
    (h : s.tableOf lv v = some pt) (h' : s.tableOf lv v' = some pt) (hi : idx1 v' = idx1 v) :
    pageKey v' = pageKey v := by
  have hlen : (tablePath v').length = (tablePath v).length := rfl
  have hpath := (descend_injective hr.inv.layered hr.parents hr.inv.root_mem hr.inv.root_mem hlen h' h).2
  exact pageKey_eq_iff.mpr ⟨hpath, hi⟩

/-- Writing the entry of `v`. -/
theorem Refines.setLeaf {f : ℕ → Option ℕ} (hr : Refines s f lv) (h : s.tableOf lv v = some pt)
    (he : e < 2 ^ 64) :
    Refines (s.setLeaf pt (idx1 v) e)
      (Function.update f (pageKey v) (if isPresent e then some (pteAddr e) else none)) lv := by
  obtain ⟨hpt, h1⟩ := hr.inv.tableOf_mem h
  have hchild := hr.inv.child_setLeaf (i := idx1 v) (e := e) hpt h1
  refine ⟨hr.inv.setLeaf hpt h1, ?_, hr.inv.noHuge_setLeaf hr.noHuge hpt h1, fun v' => ?_⟩
  · intro t t' j j' c ht ht' hc hc'
    rw [hchild t ht] at hc
    rw [hchild t' ht'] at hc'
    exact hr.parents ht ht' hc hc'
  · rw [hr.inv.entryOf_setLeaf hpt h1 he]
    by_cases hk : pageKey v' = pageKey v
    · obtain ⟨hpath, hidx⟩ := pageKey_eq_iff.mp hk
      have ht' : s.tableOf lv v' = some pt := by
        unfold Paging.tableOf at *
        rw [hpath]
        exact h
      rw [if_pos ⟨ht', hidx⟩, hk, Function.update_self]
      split_ifs <;> rfl
    · rw [if_neg (fun h' => hk (hr.key_of_tableOf h h'.1 h'.2)), Function.update_of_ne hk]
      exact hr.frames v'

/-- Without a page table there is nothing to unmap. -/
theorem Refines.of_no_table {f : ℕ → Option ℕ} (hr : Refines s f lv) (h : s.tableOf lv v = none) :
    Function.update f (pageKey v) none = f := by
  rw [Function.update_eq_self_iff, ← hr.frames v]
  unfold Paging.entryOf lookup
  rw [show descend (child s.mem lv) s.pml4 (tablePath v) = s.tableOf lv v from rfl, h]
  rfl

theorem Refines.extends {f : ℕ → Option ℕ} (hr : Refines s f lv) (h : Extends s lv s' lv') :
    Refines s' f lv' := by
  refine ⟨h.inv, h.parents hr.parents, h.noHuge hr.noHuge, fun v => ?_⟩
  rw [h.entryOf_eq hr.inv]
  exact hr.frames v

theorem Refines.other {f : ℕ → Option ℕ} {mem : Mem} {pmm : Pmm} (hr : Refines s f lv)
    (hpte : ∀ t ∈ s.tables, ∀ j : Fin 512, mem.pte t j = s.mem.pte t j)
    (hused : ∀ t ∈ s.tables, pmm.bitmapTest (t / 4096) = true) (hhint : pmm.lastFreeHint ≤ PMM_MAX_PAGES) :
    Refines { s with mem := mem, pmm := pmm } f lv := by
  have hchild := child_congr lv hpte
  refine ⟨hr.inv.other hpte hused hhint, ?_, ?_, fun v => ?_⟩
  · intro t t' j j' c ht ht' hc hc'
    rw [hchild t ht] at hc
    rw [hchild t' ht'] at hc'
    exact hr.parents ht ht' hc hc'
  · intro t ht h2 j hp
    have e : mem.pte t j = s.mem.pte t j := hpte t ht j
    simp only [e] at hp ⊢
    exact hr.noHuge t ht h2 j hp
  · rw [hr.inv.entryOf_congr hpte]
    exact hr.frames v

/-- **Every step follows the partial function.** -/
theorem PagingStep.refines {op : PagingOp} {f : ℕ → Option ℕ} (hs : PagingStep s op s')
    (h : ∃ lv, Refines s f lv) : ∃ lv, Refines s' (mapSpec f op) lv := by
  obtain ⟨lv, hr⟩ := h
  cases hs with
  | @map _ virt phys flags ha hm =>
      obtain ⟨s₁, lv₁, pt, hex, ht, rfl⟩ :=
        pagingMap_spec hr.inv (hr.inv.hugeMapped_of_noHuge hr.noHuge virt) hm
      have hlt : phys ||| flags < 2 ^ 64 :=
        Nat.or_lt_two_pow (lt_trans ha.bound (by norm_num)) ha.flags_lt
      have hr' := (hr.extends hex).setLeaf ht hlt
      rw [if_pos (isPresent_or ha.present), pteAddr_or ha.aligned ha.bound ha.no_addr] at hr'
      exact ⟨lv₁, hr'⟩
  | @unmap virt =>
      rw [pagingUnmap_eq hr.inv (hr.inv.hugeMapped_of_noHuge hr.noHuge virt)]
      cases ht : s.tableOf lv virt with
      | some pt => exact ⟨lv, hr.setLeaf ht (by norm_num)⟩
      | none =>
          refine ⟨lv, ?_⟩
          simp only [mapSpec]
          rw [hr.of_no_table ht]
          exact hr
  | @other mem pmm hmem hused hhint => exact ⟨lv, hr.other (fun t ht j => Mem.pte_congr (hmem t ht)) hused hhint⟩

/-- What a refined function says about translation. -/
theorem Refines.pagingVirtToPhys {f : ℕ → Option ℕ} (hr : Refines s f lv) (v : ℕ) :
    s.pagingVirtToPhys v = ((f (pageKey v)).map (fun phys => phys + v % 4096)).getD 0 := by
  rw [pagingVirtToPhys_eq hr.inv (hr.inv.hugeMapped_of_noHuge hr.noHuge v), ← hr.frames v, Option.map_map]
  rfl

/-- An all-zero PML4 on a page of the allocator is the only table. -/
structure EmptyPml4 (s : Paging) : Prop where
  tables : s.tables = [s.pml4]
  zero : ∀ x, s.pml4 ≤ x → x < s.pml4 + 4096 → s.mem x = 0
  used : s.pml4 / 4096 < PMM_MAX_PAGES ∧ s.pmm.bitmapTest (s.pml4 / 4096) = true
  hint : s.pmm.lastFreeHint ≤ PMM_MAX_PAGES

theorem pml4_aligned (s : Paging) : s.pml4 % 4096 = 0 := by
  unfold Paging.pml4
  rw [show (0xFFF : ℕ) = 2 ^ 12 - 1 from rfl, wnot_two_pow_sub_one (by norm_num), and_shifted_mask]
  omega

theorem EmptyPml4.refines (h : EmptyPml4 s) : Refines s (fun _ => none) (fun _ => 4) := by
  have hzero : ∀ t ∈ s.tables, ∀ j : Fin 512, s.mem.pte t j = 0 := by
    intro t ht j
    rw [h.tables, List.mem_singleton] at ht
    subst ht
    exact Mem.pte_eq_zero h.zero
  have hnone : ∀ t ∈ s.tables, ∀ j : Fin 512, child s.mem (fun _ => 4) t j = none := by
    intro t ht j
    refine child_of_not_present ?_
    rw [hzero t ht j]
    rfl
  have hroot : s.pml4 ∈ s.tables := by simp [h.tables]
  refine ⟨⟨hroot, rfl, fun _ _ => by norm_num, ?_, ?_, ⟨?_, ?_⟩, h.hint⟩, ?_, ?_, ?_⟩
  · intro t ht
    rw [h.tables, List.mem_singleton] at ht
    rw [ht]
    exact pml4_aligned s
  · intro t ht
    rw [h.tables, List.mem_singleton] at ht
    rw [ht]
    exact h.used
  · intro t j c ht hc
    rw [hnone t ht j] at hc
    cases hc
  · intro t j c ht hc
    rw [hnone t ht j] at hc
    cases hc
  · intro t t' j j' c ht _ hc _
    rw [hnone t ht j] at hc
    cases hc
  · intro t _ h2
    exact absurd h2 (by norm_num)
  · intro v
    unfold Paging.entryOf lookup tablePath
    simp only [descend, hnone _ hroot, Option.bind_none, Option.map_none]

/-- Whether a call is about the page of `v`. -/
def PagingOp.Concerns (v : ℕ) : PagingOp → Prop
  | .map virt _ _ => pageKey virt = pageKey v
  | .unmap virt => pageKey virt = pageKey v
  | .other _ _ => False

theorem mapSpec_of_not_concerns {f : ℕ → Option ℕ} {op : PagingOp} (h : ¬ op.Concerns v) :
    mapSpec f op (pageKey v) = f (pageKey v) := by
  cases op with
  | map virt phys flags => exact Function.update_of_ne (fun e => h e.symm) _ _
  | unmap virt => exact Function.update_of_ne (fun e => h e.symm) _ _
  | other mem pmm => rfl

/-- **Refinement.**  After any run from an empty PML4, every address translates to the frame last
mapped for its page and not unmapped since, and to `0` if there is none; a call about one page never
changes the translation of another. -/
theorem paging_refines_map {s₀ : Paging} {ops : List PagingOp} (h0 : EmptyPml4 s₀)
    (h : Run PagingStep s₀ ops s) :
    (∀ v, s.pagingVirtToPhys v =
      ((ops.foldl mapSpec (fun _ => none) (pageKey v)).map (fun phys => phys + v % 4096)).getD 0) ∧
    ∀ op s', PagingStep s op s' → ∀ v, ¬ op.Concerns v → s'.pagingVirtToPhys v = s.pagingVirtToPhys v := by
  obtain ⟨lv, hr⟩ : ∃ lv, Refines s (ops.foldl mapSpec (fun _ => none)) lv :=
    h.simulation (R := fun s f => ∃ lv, Refines s f lv) (fun _ _ _ _ hR hs => hs.refines hR)
      ⟨_, h0.refines⟩
  refine ⟨hr.pagingVirtToPhys, fun op s' hs v hv => ?_⟩
  obtain ⟨lv', hr'⟩ := hs.refines ⟨lv, hr⟩
  rw [hr.pagingVirtToPhys, hr'.pagingVirtToPhys, mapSpec_of_not_concerns hv]

/-- An empty PML4 in page 1, with pages 0 and 1 used. -/
def emptyTables : Paging :=
  ⟨fun _ => 0, ⟨fun i => if i = 0 then 3#64 else 0#64, 64, 62, 2⟩, 4096, [4096]⟩

theorem emptyTables_empty : EmptyPml4 emptyTables := by
  have hp : emptyTables.pml4 = 4096 := by decide +kernel
  refine ⟨?_, fun _ _ _ => rfl, ?_, ?_⟩
  · rw [hp]
    rfl
  · rw [hp]
    exact ⟨by norm_num [PMM_MAX_PAGES], by decide +kernel⟩
  · norm_num [emptyTables, PMM_MAX_PAGES]

/-- Two neighbouring pages, one of them unmapped again, and one far away. -/
theorem paging_refines_map_user_heap :
    ∃ s, Run PagingStep emptyTables
        [.map 0x400000 0x5000000 7, .map 0x401000 0x6000000 7, .unmap 0x400000,
          .map 0x7FFFFFFFE000 0x7000000 7] s ∧
      s.pagingVirtToPhys 0x401234 = 0x6000234 ∧ s.pagingVirtToPhys 0x400000 = 0 := by
  have hsome : (([.map 0x400000 0x5000000 7, .map 0x401000 0x6000000 7, .unmap 0x400000,
      .map 0x7FFFFFFFE000 0x7000000 7] : List PagingOp).foldlM Paging.exec emptyTables).isSome = true := by
    decide +kernel
  obtain ⟨s, hs⟩ := Option.isSome_iff_exists.mp hsome
  have hstep : ∀ s op s', Paging.exec s op = some s' → PagingStep s op s' := fun _ _ _ h => Paging.exec_step h
  have hrun := Run.of_exec hstep hs
  obtain ⟨ht, _⟩ := paging_refines_map emptyTables_empty hrun
  refine ⟨s, hrun, ?_, ?_⟩
  · rw [ht]
    decide
  · rw [ht]
    decide

end HeroOS
