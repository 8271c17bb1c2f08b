import HeroOS.Paging
import HeroOS.RadixTree

/-! # Page tables as a radix tree

The tables that `CR3` leads to form a radix tree in memory: `TableInv s lv` assigns every table in
use its level, from `4` for the PML4 down to `1`, and says that present entries lead from a table to a
table one level below.  Entries of a page directory may instead map 2 MiB.

The code's three walks are walks in this tree (`pagingVirtToPhys_eq`, `pagingUnmap_eq`), and
`get_or_create_table` follows a link or grafts an empty table (`getOrCreateTable_extends`), which keeps
the invariant and every lookup (`Extends`). -/

namespace HeroOS

open Word RadixTree

/-! ### Entries in memory -/

namespace Mem

variable {m : Mem} {t t' e : ℕ} {i i' : Fin 512}

theorem pte_setPte_same (he : e < 2 ^ 64) : (m.setPte t i e).pte t i = e :=
  read64_write64_same _ _ he

/-- Entries of page-aligned tables do not overlap. -/
theorem pte_setPte_of_ne (ht : t % 4096 = 0) (ht' : t' % 4096 = 0) (h : ¬ (t' = t ∧ i' = i)) :
    (m.setPte t i e).pte t' i' = m.pte t' i' := by
  have hi := i.isLt
  have hi' := i'.isLt
  have h' : ¬ (t' = t ∧ i'.val = i.val) := by
    rintro ⟨h1, h2⟩
    exact h ⟨h1, Fin.ext h2⟩
  apply read64_write64_of_disjoint
  omega

theorem setPte_of_outside {x : ℕ} (h : x < t ∨ t + 4096 ≤ x) : m.setPte t i e x = m x := by
  have hi := i.isLt
  exact write64_of_outside (by omega)

theorem pte_fill_same : (m.fill t 4096 0).pte t i = 0 := by
  have hi := i.isLt
  exact read64_fill_zero m (by omega) (by omega)

theorem pte_eq_zero (h : ∀ x, t ≤ x → x < t + 4096 → m x = 0) : m.pte t i = 0 := by
  have hi := i.isLt
  exact readLE_eq_zero 8 (fun x hx => h x (by have := hx.1; omega) (by have := hx.2; omega))

theorem pte_congr {m' : Mem} (h : ∀ x, t ≤ x → x < t + 4096 → m' x = m x) : m'.pte t i = m.pte t i := by
  have hi := i.isLt
  exact read64_congr (fun x hx => h x (by have := hx.1; omega) (by have := hx.2; omega))

end Mem

/-! ### The tree -/

/-- The table that an entry of a table above level `1` points to. -/
def child (m : Mem) (lv : ℕ → ℕ) (t : ℕ) (i : Fin 512) : Option ℕ :=
  if 2 ≤ lv t ∧ isPresent (m.pte t i) ∧ ¬ (lv t = 2 ∧ isHuge (m.pte t i)) then
    some (pteAddr (m.pte t i))
  else none

/-- The entry of a page table, if present. -/
def leafEntry (m : Mem) (t : ℕ) (i : Fin 512) : Option ℕ :=
  if isPresent (m.pte t i) then some (m.pte t i) else none

/-- The tables in use, with their levels. -/
structure TableInv (s : Paging) (lv : ℕ → ℕ) : Prop where
  root_mem : s.pml4 ∈ s.tables
  root_level : lv s.pml4 = 4
  level_pos : ∀ t ∈ s.tables, 1 ≤ lv t
  aligned : ∀ t ∈ s.tables, t % 4096 = 0
  used : ∀ t ∈ s.tables, t / 4096 < PMM_MAX_PAGES ∧ s.pmm.bitmapTest (t / 4096) = true
  layered : Layered (child s.mem lv) (· ∈ s.tables) lv
  hint : s.pmm.lastFreeHint ≤ PMM_MAX_PAGES

/-- The index of `va` in the PML4. -/
def idx4 (va : ℕ) : Fin 512 := ⟨pml4Idx va, by rw [pml4Idx_eq]; omega⟩
/-- The index of `va` in its PDPT. -/
def idx3 (va : ℕ) : Fin 512 := ⟨pdptIdx va, by rw [pdptIdx_eq]; omega⟩
/-- The index of `va` in its page directory. -/
def idx2 (va : ℕ) : Fin 512 := ⟨pdIdx va, by rw [pdIdx_eq]; omega⟩
/-- The index of `va` in its page table. -/
def idx1 (va : ℕ) : Fin 512 := ⟨ptIdx va, by rw [ptIdx_eq]; omega⟩

/-- The path to the page table of `va`. -/
def tablePath (va : ℕ) : List (Fin 512) := [idx4 va, idx3 va, idx2 va]

/-- The page table of `va`. -/
def Paging.tableOf (s : Paging) (lv : ℕ → ℕ) (va : ℕ) : Option ℕ :=
  descend (child s.mem lv) s.pml4 (tablePath va)

/-- The entry of `va`. -/
def Paging.entryOf (s : Paging) (lv : ℕ → ℕ) (va : ℕ) : Option ℕ :=
  lookup (child s.mem lv) (leafEntry s.mem) s.pml4 (tablePath va) (idx1 va)

/-- The entry of `va` in the PML4. -/
def Paging.pml4e (s : Paging) (va : ℕ) : ℕ := s.mem.pte s.pml4 (idx4 va)
/-- The entry of `va` in its PDPT. -/
def Paging.pdpte (s : Paging) (va : ℕ) : ℕ := s.mem.pte (pteAddr (s.pml4e va)) (idx3 va)
/-- The entry of `va` in its page directory. -/
def Paging.pde (s : Paging) (va : ℕ) : ℕ := s.mem.pte (pteAddr (s.pdpte va)) (idx2 va)

/-- The directory entry that `va` leads to is present and maps 2 MiB. -/
def Paging.hugeMapped (s : Paging) (va : ℕ) : Bool :=
  isPresent (s.pml4e va) && isPresent (s.pdpte va) && isPresent (s.pde va) && isHuge (s.pde va)

/-- Addresses are told apart by bits 12 to 47. -/
def pageKey (va : ℕ) : ℕ := va / 4096 % 2 ^ 36

theorem pageKey_eq_iff {v v' : ℕ} :
    pageKey v = pageKey v' ↔ tablePath v = tablePath v' ∧ idx1 v = idx1 v' := by
  unfold pageKey
  simp only [tablePath, idx4, idx3, idx2, idx1, List.cons.injEq, Fin.mk.injEq, and_true, pml4Idx_eq, pdptIdx_eq,
    pdIdx_eq, ptIdx_eq]
  omega

variable {s s' : Paging} {lv lv' : ℕ → ℕ} {t c v : ℕ} {i : Fin 512}

theorem child_of_present {m : Mem} (h2 : 2 ≤ lv t) (hp : isPresent (m.pte t i) = true)
    (hh : ¬ (lv t = 2 ∧ isHuge (m.pte t i) = true)) :
    child m lv t i = some (pteAddr (m.pte t i)) := if_pos ⟨h2, hp, hh⟩

theorem child_of_not_present {m : Mem} (hp : isPresent (m.pte t i) = false) :
    child m lv t i = none := if_neg (by simp [hp])

/-- What a link says about the entry behind it. -/
theorem child_eq_some {m : Mem} (h : child m lv t i = some c) :
    2 ≤ lv t ∧ isPresent (m.pte t i) = true ∧ pteAddr (m.pte t i) = c ∧
      ¬ (lv t = 2 ∧ isHuge (m.pte t i) = true) := by
  unfold child at h
  split_ifs at h with hc
  exact ⟨hc.1, hc.2.1, Option.some.inj h, hc.2.2⟩

/-- The page table of an address without huge entry, as the code finds it. -/
theorem TableInv.tableOf_eq (hi : TableInv s lv) (hh : s.hugeMapped v = false) :
    s.tableOf lv v =
      if isPresent (s.pml4e v) ∧ isPresent (s.pdpte v) ∧ isPresent (s.pde v) then
        some (pteAddr (s.pde v))
      else none := by
  have hroot := hi.root_level
  unfold Paging.tableOf tablePath
  simp only [descend]
  cases h4 : isPresent (s.pml4e v) with
  | false =>
      rw [child_of_not_present h4]
      simp
  | true =>
      have hc4 : child s.mem lv s.pml4 (idx4 v) = some (pteAddr (s.pml4e v)) :=
        child_of_present (by omega) h4 (by omega)
      have hl4 := hi.layered.level_eq hi.root_mem hc4
      rw [hc4, Option.bind_some]
      cases h3 : isPresent (s.pdpte v) with
      | false =>
          rw [child_of_not_present h3]
          simp
      | true =>
          have hc3 : child s.mem lv (pteAddr (s.pml4e v)) (idx3 v) = some (pteAddr (s.pdpte v)) :=
            child_of_present (by omega) h3 (by omega)
          have hl3 := hi.layered.level_eq (hi.layered.closed hi.root_mem hc4) hc3
          rw [hc3, Option.bind_some]
          cases h2 : isPresent (s.pde v) with
          | false =>
              rw [child_of_not_present h2]
              simp
          | true =>
              have hnh : isHuge (s.pde v) = false := by
                simpa [Paging.hugeMapped, h4, h3, h2] using hh
              have hc2 : child s.mem lv (pteAddr (s.pdpte v)) (idx2 v) = some (pteAddr (s.pde v)) :=
                child_of_present (by omega) h2 (fun h => by
                  have hb : isHuge (s.pde v) = true := h.2
                  rw [hnh] at hb
                  cases hb)
              rw [hc2]
              simp

/-- A walk that finds a page table meets no huge entry. -/
theorem TableInv.hugeMapped_of_tableOf {pt : ℕ} (hi : TableInv s lv) (h : s.tableOf lv v = some pt) :
    s.hugeMapped v = false := by
  have hroot := hi.root_level
  obtain ⟨pdpt, h4, h⟩ := Option.bind_eq_some_iff.mp h
  obtain ⟨pd, h3, h⟩ := Option.bind_eq_some_iff.mp h
  obtain ⟨pt', h2, _⟩ := Option.bind_eq_some_iff.mp h
  have hl4 := hi.layered.level_eq hi.root_mem h4
  have hl3 := hi.layered.level_eq (hi.layered.closed hi.root_mem h4) h3
  obtain ⟨_, _, rfl, _⟩ := child_eq_some h4
  obtain ⟨_, _, rfl, _⟩ := child_eq_some h3
  obtain ⟨_, _, _, hh⟩ := child_eq_some h2
  have hh' : isHuge (s.pde v) = false := by
    rw [Bool.eq_false_iff]
    exact fun hb => hh ⟨by omega, hb⟩
  simp [Paging.hugeMapped, hh']

/-- The walk of translation, over the entries of the address. -/
theorem pagingVirtToPhys_walk (s : Paging) (v : ℕ) : s.pagingVirtToPhys v =
    if !isPresent (s.pml4e v) then 0
    else if !isPresent (s.pdpte v) then 0
    else if !isPresent (s.pde v) then 0
    else if isHuge (s.pde v) then wadd (pteAddr (s.pde v)) (v &&& 0x1FFFFF)
    else if !isPresent (s.mem.pte (pteAddr (s.pde v)) (idx1 v)) then 0
    else wadd (pteAddr (s.mem.pte (pteAddr (s.pde v)) (idx1 v))) (pageOffset v) := rfl

/-- **Translation is a lookup.** -/
theorem pagingVirtToPhys_eq (hi : TableInv s lv) (hh : s.hugeMapped v = false) :
    s.pagingVirtToPhys v = ((s.entryOf lv v).map (fun e => pteAddr e + v % 4096)).getD 0 := by
  have hadd : ∀ e, wadd (pteAddr e) (pageOffset v) = pteAddr e + v % 4096 := by
    intro e
    rw [pageOffset_eq, pteAddr_eq]
    exact wadd_of_lt (by omega)
  have hdef : s.pagingVirtToPhys v =
      if isPresent (s.pml4e v) ∧ isPresent (s.pdpte v) ∧ isPresent (s.pde v) then
        if isPresent (s.mem.pte (pteAddr (s.pde v)) (idx1 v)) then
          wadd (pteAddr (s.mem.pte (pteAddr (s.pde v)) (idx1 v))) (pageOffset v)
        else 0
      else 0 := by
    rw [pagingVirtToPhys_walk]
    cases h4 : isPresent (s.pml4e v) with
    | false => simp
    | true =>
        cases h3 : isPresent (s.pdpte v) with
        | false => simp
        | true =>
            cases h2 : isPresent (s.pde v) with
            | false => simp
            | true =>
                have hnh : isHuge (s.pde v) = false := by
                  simpa [Paging.hugeMapped, h4, h3, h2] using hh
                cases isPresent (s.mem.pte (pteAddr (s.pde v)) (idx1 v)) <;> simp [hnh]
  rw [hdef]
  unfold Paging.entryOf lookup
  rw [show descend (child s.mem lv) s.pml4 (tablePath v) = s.tableOf lv v from rfl, hi.tableOf_eq hh]
  split_ifs with h1 h2
  · simp [leafEntry, h2, hadd]
  · simp [leafEntry, h2]
  · simp

/-- **Unmapping clears the entry that translation reads.** -/
theorem pagingUnmap_eq (hi : TableInv s lv) (hh : s.hugeMapped v = false) :
    s.pagingUnmap v =
      match s.tableOf lv v with
      | some pt => { s with mem := s.mem.setPte pt (idx1 v) 0 }
      | none => s := by
  have e : s.pagingUnmap v =
      if !isPresent (s.pml4e v) then s
      else if !isPresent (s.pdpte v) then s
      else if !isPresent (s.pde v) then s
      else { s with mem := s.mem.setPte (pteAddr (s.pde v)) (idx1 v) 0 } := rfl
  rw [e, hi.tableOf_eq hh]
  cases isPresent (s.pml4e v) with
  | false => simp
  | true =>
      cases isPresent (s.pdpte v) with
      | false => simp
      | true => cases isPresent (s.pde v) <;> simp

/-! ### Growing the tree -/

/-- The tree has grown by empty tables: no lookup has changed, and everything that was written lies
in a table. -/
structure Extends (s : Paging) (lv : ℕ → ℕ) (s' : Paging) (lv' : ℕ → ℕ) : Prop where
  inv : TableInv s' lv'
  cr3 : s'.cr3 = s.cr3
  mono : ∀ t ∈ s.tables, t ∈ s'.tables
  level : ∀ t ∈ s.tables, lv' t = lv t
  links : ∀ t ∈ s.tables, ∀ i c, child s.mem lv t i = some c → child s'.mem lv' t i = some c
  back : ∀ t ∈ s'.tables, ∀ i c, child s'.mem lv' t i = some c → c ∈ s.tables →
    t ∈ s.tables ∧ child s.mem lv t i = some c
  lookup_eq : ∀ t ∈ s.tables, ∀ is i, lv t = is.length + 1 →
    lookup (child s'.mem lv') (leafEntry s'.mem) t is i = lookup (child s.mem lv) (leafEntry s.mem) t is i
  parents : SingleParent (child s.mem lv) (· ∈ s.tables) →
    SingleParent (child s'.mem lv') (· ∈ s'.tables)
  huge : ∀ t ∈ s'.tables, ∀ i : Fin 512, lv' t = 2 → isPresent (s'.mem.pte t i) = true →
    isHuge (s'.mem.pte t i) = true → t ∈ s.tables ∧ s'.mem.pte t i = s.mem.pte t i
  writes : ∀ x, s'.mem x ≠ s.mem x → ∃ t ∈ s'.tables, t ≤ x ∧ x < t + 4096

theorem Extends.refl (hi : TableInv s lv) : Extends s lv s lv :=
  ⟨hi, rfl, fun _ h => h, fun _ _ => rfl, fun _ _ _ _ h => h, fun _ h _ _ hc _ => ⟨h, hc⟩,
    fun _ _ _ _ _ => rfl, fun h => h, fun _ h _ _ _ _ => ⟨h, rfl⟩, fun _ h => absurd rfl h⟩

theorem Extends.trans {s₂ : Paging} {lv₂ : ℕ → ℕ} (h : Extends s lv s' lv') (h' : Extends s' lv' s₂ lv₂) :
    Extends s lv s₂ lv₂ := by
  refine ⟨h'.inv, h'.cr3.trans h.cr3, fun t ht => h'.mono t (h.mono t ht), ?_, ?_, ?_, ?_,
    fun hp => h'.parents (h.parents hp), ?_, ?_⟩
  · intro t ht
    rw [h'.level t (h.mono t ht), h.level t ht]
  · intro t ht i c hc
    exact h'.links t (h.mono t ht) i c (h.links t ht i c hc)
  · intro t ht i c hc hcs
    obtain ⟨ht', hc'⟩ := h'.back t ht i c hc (h.mono c hcs)
    exact h.back t ht' i c hc' hcs
  · intro t ht is i hlen
    rw [h'.lookup_eq t (h.mono t ht) is i (by rw [h.level t ht]; exact hlen), h.lookup_eq t ht is i hlen]
  · intro t ht i hl hp hh
    obtain ⟨ht', e'⟩ := h'.huge t ht i hl hp hh
    rw [e'] at hp hh
    obtain ⟨ht, e⟩ := h.huge t ht' i (by rw [← h'.level t ht']; exact hl) hp hh
    exact ⟨ht, e'.trans e⟩
  · intro x hx
    by_cases hx' : s₂.mem x = s'.mem x
    · obtain ⟨t, ht, hb⟩ := h.writes x (by rwa [← hx'])
      exact ⟨t, h'.mono t ht, hb⟩
    · exact h'.writes x hx'

/-- The entries after a table at `p * 4096` has been cleared and linked from `parent`. -/
theorem pte_newTable {m : Mem} {parent p : ℕ} {i : Fin 512} (hpa : parent % 4096 = 0)
    (hne : parent ≠ p * 4096) (hb : p < PMM_MAX_PAGES) :
    ((m.fill (p * 4096) 4096 0).setPte parent i (p * 4096 + 3)).pte parent i = p * 4096 + 3 ∧
    (∀ j : Fin 512, ((m.fill (p * 4096) 4096 0).setPte parent i (p * 4096 + 3)).pte (p * 4096) j = 0) ∧
    (∀ t, t % 4096 = 0 → t ≠ p * 4096 → ∀ j : Fin 512, ¬ (t = parent ∧ j = i) →
      ((m.fill (p * 4096) 4096 0).setPte parent i (p * 4096 + 3)).pte t j = m.pte t j) := by
  unfold PMM_MAX_PAGES at hb
  refine ⟨Mem.pte_setPte_same (by omega), fun j => ?_, fun t ht htp j hj => ?_⟩
  · rw [Mem.pte_setPte_of_ne hpa (by omega) (by omega), Mem.pte_fill_same]
  · rw [Mem.pte_setPte_of_ne hpa ht hj]
    exact Mem.pte_congr (fun x h1 h2 => Mem.fill_of_outside (by omega))

/-- A memory in which the empty table `c` has been linked from `parent`. -/
structure LinksTable (s : Paging) (parent : ℕ) (i : Fin 512) (c : ℕ) (m' : Mem) : Prop where
  entry : m'.pte parent i = c + 3
  empty : ∀ j : Fin 512, m'.pte c j = 0
  others : ∀ t ∈ s.tables, ∀ j : Fin 512, ¬ (t = parent ∧ j = i) → m'.pte t j = s.mem.pte t j

theorem LinksTable.grafts {parent : ℕ} {m' : Mem} (hm : LinksTable s parent i c m')
    (hp : parent ∈ s.tables) (h2 : 2 ≤ lv parent) (hpr : isPresent (s.mem.pte parent i) = false)
    (hc : c % 4096 = 0) (hlt : c < 2 ^ 52) (hfresh : c ∉ s.tables) :
    Grafts (child s.mem lv) (leafEntry s.mem) (child m' (Function.update lv c (lv parent - 1)))
      (leafEntry m') (· ∈ s.tables) lv parent i c := by
  have hlv : ∀ t ∈ s.tables, Function.update lv c (lv parent - 1) t = lv t := fun t ht =>
    Function.update_of_ne (ne_of_mem_of_not_mem ht hfresh) _ _
  have hpresent : isPresent (m'.pte parent i) = true := by
    rw [hm.entry, isPresent_eq, decide_eq_true_iff]
    omega
  have hhuge : isHuge (m'.pte parent i) = false := by
    rw [hm.entry, isHuge_eq, decide_eq_false_iff_not]
    omega
  refine ⟨hp, child_of_not_present hpr, ?_, hfresh, fun j => ?_, fun j => ?_, ?_, ?_⟩
  · rw [child_of_present (by rw [hlv parent hp]; exact h2) hpresent (by simp [hhuge]), hm.entry, pteAddr_eq]
    congr 1
    omega
  · exact child_of_not_present (by rw [hm.empty j]; rfl)
  · unfold leafEntry
    rw [hm.empty j]
    rfl
  · intro t j ht hj
    unfold child
    rw [hlv t ht, hm.others t ht j hj]
  · intro t j ht h1
    unfold leafEntry
    rw [hm.others t ht j (by rintro ⟨rfl, _⟩; omega)]

/-- Linking an empty page as a table keeps the invariant. -/
theorem tableInv_of_grafts {parent p : ℕ} {m' : Mem} {pmm : Pmm}
    (hg : Grafts (child s.mem lv) (leafEntry s.mem) (child m' (Function.update lv (p * 4096) (lv parent - 1)))
      (leafEntry m') (· ∈ s.tables) lv parent i (p * 4096))
    (hi : TableInv s lv) (ha : Pmm.Allocates s.pmm 1 pmm p) (h2 : 2 ≤ lv parent) :
    TableInv { s with mem := m', pmm := pmm, tables := p * 4096 :: s.tables }
      (Function.update lv (p * 4096) (lv parent - 1)) := by
  have hlv : ∀ t ∈ s.tables, Function.update lv (p * 4096) (lv parent - 1) t = lv t := fun t ht =>
    Function.update_of_ne (ne_of_mem_of_not_mem ht hg.fresh) _ _
  have hb := ha.bound
  refine ⟨List.mem_cons_of_mem _ hi.root_mem, (hlv _ hi.root_mem).trans hi.root_level, ?_, ?_, ?_, ?_, ha.hint hi.hint⟩
  · intro t ht
    rcases List.mem_cons.mp ht with rfl | ht
    · rw [Function.update_self]
      omega
    · rw [hlv t ht]
      exact hi.level_pos t ht
  · intro t ht
    rcases List.mem_cons.mp ht with rfl | ht
    · omega
    · exact hi.aligned t ht
  · intro t ht
    rcases List.mem_cons.mp ht with rfl | ht
    · rw [show p * 4096 / 4096 = p by omega]
      exact ⟨by omega, (ha.test_iff p).mpr (.inl ⟨le_rfl, by omega⟩)⟩
    · exact ⟨(hi.used t ht).1, (ha.test_iff _).mpr (.inr (hi.used t ht).2)⟩
  · show Layered _ (fun t => t ∈ p * 4096 :: s.tables) _
    simp only [List.mem_cons]
    exact hg.layered hi.layered (by omega)

/-- Linking an empty page as a table extends the tree. -/
theorem extends_of_grafts {parent p : ℕ} {m' : Mem} {pmm : Pmm}
    (hg : Grafts (child s.mem lv) (leafEntry s.mem) (child m' (Function.update lv (p * 4096) (lv parent - 1)))
      (leafEntry m') (· ∈ s.tables) lv parent i (p * 4096))
    (hi : TableInv s lv) (hm : LinksTable s parent i (p * 4096) m')
    (ha : Pmm.Allocates s.pmm 1 pmm p) (h2 : 2 ≤ lv parent)
    (hw : ∀ x, m' x ≠ s.mem x → ∃ t ∈ p * 4096 :: s.tables, t ≤ x ∧ x < t + 4096) :
    Extends s lv { s with mem := m', pmm := pmm, tables := p * 4096 :: s.tables }
      (Function.update lv (p * 4096) (lv parent - 1)) := by
  refine ⟨tableInv_of_grafts hg hi ha h2, rfl, fun t ht => List.mem_cons_of_mem _ ht,
    fun t ht => Function.update_of_ne (ne_of_mem_of_not_mem ht hg.fresh) _ _,
    ?_, ?_, fun t ht is j hlen => hg.lookup_eq hi.layered ht hlen, ?_, ?_, hw⟩
  · intro t ht j d hd
    rw [← hd]
    refine hg.next_eq ht ?_
    rintro ⟨rfl, rfl⟩
    rw [hg.missing] at hd
    cases hd
  · intro t ht j d hd hds
    rcases List.mem_cons.mp ht with rfl | ht
    · rw [hg.next_empty] at hd
      cases hd
    · by_cases hj : t = parent ∧ j = i
      · obtain ⟨rfl, rfl⟩ := hj
        rw [hg.grafted] at hd
        obtain rfl := Option.some.inj hd
        exact absurd hds hg.fresh
      · rw [hg.next_eq ht hj] at hd
        exact ⟨ht, hd⟩
  · intro hs
    show SingleParent _ (fun t => t ∈ p * 4096 :: s.tables)
    simp only [List.mem_cons]
    exact hg.singleParent hi.layered hs
  · intro t ht j _ hpr hhuge
    have hpr : isPresent (m'.pte t j) = true := hpr
    have hhuge : isHuge (m'.pte t j) = true := hhuge
    rcases List.mem_cons.mp ht with rfl | ht
    · rw [hm.empty j] at hpr
      cases hpr
    · by_cases hj : t = parent ∧ j = i
      · obtain ⟨rfl, rfl⟩ := hj
        rw [hm.entry, isHuge_eq, decide_eq_true_iff] at hhuge
        omega
      · exact ⟨ht, hm.others t ht j hj⟩

/-- Tables in use are marked used, so that a new page is none of them. -/
theorem TableInv.ne_of_allocates {p : ℕ} {pmm : Pmm} (hi : TableInv s lv) (ha : Pmm.Allocates s.pmm 1 pmm p) :
    ∀ t ∈ s.tables, t ≠ p * 4096 := by
  rintro t ht rfl
  have hu := (hi.used _ ht).2
  rw [show p * 4096 / 4096 = p by omega, ha.wasFree p ⟨le_rfl, by omega⟩] at hu
  cases hu

/-- What `get_or_create_table` does: it follows a link, or links a page that is no table yet and has been cleared. -/
theorem getOrCreateTable_cases {parent : ℕ} (hi : TableInv s lv) (hp : parent ∈ s.tables)
    (h : s.getOrCreateTable parent i (PTE_PRESENT ||| PTE_WRITABLE) = .ok (s', c)) :
    isPresent (s.mem.pte parent i) = true ∧ s' = s ∧ c = pteAddr (s.mem.pte parent i) ∨
    isPresent (s.mem.pte parent i) = false ∧ ∃ p m' pmm, c = p * 4096 ∧ Pmm.Allocates s.pmm 1 pmm p ∧ p * 4096 ∉ s.tables ∧
      LinksTable s parent i (p * 4096) m' ∧ (∀ x, m' x ≠ s.mem x → ∃ t ∈ p * 4096 :: s.tables, t ≤ x ∧ x < t + 4096) ∧
      s' = { s with mem := m', pmm := pmm, tables := p * 4096 :: s.tables } := by
  unfold Paging.getOrCreateTable at h
  cases hpr : isPresent (s.mem.pte parent i) with
  | true =>
      rw [if_pos hpr] at h
      obtain ⟨rfl, rfl⟩ := Prod.mk.inj (Except.ok.inj h)
      exact .inl ⟨rfl, rfl, rfl⟩
  | false =>
      rw [if_neg (by simp [hpr]), bind_eq_ok] at h
      obtain ⟨⟨pmm, phys⟩, halloc, h⟩ := h
      obtain ⟨p, rfl, ha⟩ := Pmm.pmmAllocPage_spec hi.hint halloc
      dsimp only at h
      rw [tableEntry_eq, show p * PAGE_SIZE = p * 4096 from rfl, show PAGE_SIZE = 4096 from rfl] at h
      obtain ⟨rfl, rfl⟩ := Prod.mk.inj (Except.ok.inj h)
      have hb := ha.bound
      have hfresh := hi.ne_of_allocates ha
      refine .inr ⟨rfl, p, _, pmm, rfl, ha, fun h => hfresh _ h rfl, ?_, fun x hx => ?_, rfl⟩
      · obtain ⟨h1, h2, h3⟩ := pte_newTable (m := s.mem) (i := i) (hi.aligned parent hp) (hfresh parent hp)
          (by omega)
        exact ⟨h1, h2, fun t ht => h3 t (hi.aligned t ht) (hfresh t ht)⟩
      · by_cases h1 : p * 4096 ≤ x ∧ x < p * 4096 + 4096
        · exact ⟨_, List.mem_cons_self, h1⟩
        · refine ⟨parent, List.mem_cons_of_mem _ hp, ?_⟩
          by_contra h3
          apply hx
          rw [Mem.setPte_of_outside (by omega), Mem.fill_of_outside (by omega)]

/-- **`get_or_create_table`** follows a link or grafts an empty table. -/
theorem getOrCreateTable_extends {parent : ℕ} (hi : TableInv s lv) (hp : parent ∈ s.tables)
    (h2 : 2 ≤ lv parent)
    (hh : ¬ (lv parent = 2 ∧ isPresent (s.mem.pte parent i) = true ∧ isHuge (s.mem.pte parent i) = true))
    (h : s.getOrCreateTable parent i (PTE_PRESENT ||| PTE_WRITABLE) = .ok (s', c)) :
    ∃ lv', Extends s lv s' lv' ∧ c ∈ s'.tables ∧ child s'.mem lv' parent i = some c := by
  obtain ⟨hpr, rfl, rfl⟩ | ⟨hpr, p, m', pmm, rfl, ha, hnot, hlink, hwrites, rfl⟩ := getOrCreateTable_cases hi hp h
  · have hc : child s'.mem lv parent i = some (pteAddr (s'.mem.pte parent i)) :=
      child_of_present h2 hpr (fun hb => hh ⟨hb.1, hpr, hb.2⟩)
    exact ⟨lv, .refl hi, hi.layered.closed hp hc, hc⟩
  · have hb := ha.bound
    have hg := hlink.grafts hp h2 hpr (by omega) (by unfold PMM_MAX_PAGES at hb; omega) hnot
    exact ⟨_, extends_of_grafts hg hi hlink ha h2 hwrites, List.mem_cons_self, hg.grafted⟩

/-- Entries of tables are kept, empty, or links to new tables. -/
def AddsTables (s s' : Paging) : Prop :=
  ∀ t ∈ s'.tables, ∀ i : Fin 512, t ∈ s.tables ∧ s'.mem.pte t i = s.mem.pte t i ∨ s'.mem.pte t i = 0 ∨
    ∃ c, c % 4096 = 0 ∧ s'.mem.pte t i = c + 3

theorem AddsTables.trans {s₂ : Paging} (h : AddsTables s s') (h' : AddsTables s' s₂) : AddsTables s s₂ := by
  intro t ht i
  rcases h' t ht i with ⟨ht', e⟩ | hnew
  · rw [e]
    exact h t ht' i
  · exact .inr hnew

theorem getOrCreateTable_adds {parent : ℕ} (hi : TableInv s lv) (hp : parent ∈ s.tables)
    (h : s.getOrCreateTable parent i (PTE_PRESENT ||| PTE_WRITABLE) = .ok (s', c)) : AddsTables s s' := by
  intro t ht j
  obtain ⟨_, rfl, _⟩ | ⟨_, p, m', pmm, _, _, _, hlink, _, rfl⟩ := getOrCreateTable_cases hi hp h
  · exact .inl ⟨ht, rfl⟩
  · rcases List.mem_cons.mp ht with rfl | ht
    · exact .inr (.inl (hlink.empty j))
    · by_cases hj : t = parent ∧ j = i
      · obtain ⟨rfl, rfl⟩ := hj
        exact .inr (.inr ⟨_, Nat.mul_mod_left p 4096, hlink.entry⟩)
      · exact .inl ⟨ht, hlink.others t ht j hj⟩

end HeroOS
