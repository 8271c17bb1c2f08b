import HeroOS.VmmLeak

/-! # Mapping and unmapping a range of pages

`vmm_map_range` and `vmm_unmap_range` on any tree of tables without huge entries: the pages of the range translate
to the given frames and then to nothing, and no other page is affected, wherever the range crosses from one table
into the next (`vmm_range_frame`). -/

namespace HeroOS

open Word RadixTree

variable {s s' : Paging} {lv : ℕ → ℕ} {f : ℕ → Option ℕ} {virt phys size flags n offset v : ℕ}

/-- The whole pages of a range of `size` bytes. -/
def rangePages (size : ℕ) : ℕ := (size + 4095) / 4096

/-- What the callers of `vmm_map_range` promise: whole pages inside one space of 48 bits, frames that fit an entry,
and flags of a present page. -/
structure RangeArgs (virt phys size flags : ℕ) : Prop where
  virt_aligned : virt % 4096 = 0
  virt_lt : virt < 2 ^ 64
  virt_room : virt % 2 ^ 48 + rangePages size * 4096 ≤ 2 ^ 48
  phys_aligned : phys % 4096 = 0
  phys_room : phys + rangePages size * 4096 ≤ 2 ^ 52
  flags : PageFlags flags

/-- The address lies in one of the `n` pages from `virt` on.  The tables look at the lower 48 bits only. -/
def InPages (virt n v : ℕ) : Prop := virt % 2 ^ 48 ≤ v % 2 ^ 48 ∧ v % 2 ^ 48 < virt % 2 ^ 48 + n * 4096

/-! ### The functions of page numbers -/

/-- The frames that the tables hold. -/
def Paging.frames (s : Paging) (lv : ℕ → ℕ) (key : ℕ) : Option ℕ := (s.entryOf lv (key * 4096)).map pteAddr

/-- Every tree of tables without huge entries refines the function of its frames. -/
theorem TableInv.refines (hi : TableInv s lv) (hp : SingleParent (child s.mem lv) (· ∈ s.tables)) (hn : NoHuge s lv) :
    Refines s (s.frames lv) lv := by
  refine ⟨hi, hp, hn, fun v => ?_⟩
  have hkey : pageKey (pageKey v * 4096) = pageKey v := by
    unfold pageKey
    omega
  obtain ⟨hpath, hidx⟩ := pageKey_eq_iff.mp hkey
  unfold Paging.frames Paging.entryOf
  rw [hpath, hidx]

/-- A function of page numbers without the `n` pages from `virt` on. -/
def unmapped (f : ℕ → Option ℕ) (virt n key : ℕ) : Option ℕ :=
  if virt / PAGE_SIZE ≤ key ∧ key < virt / PAGE_SIZE + n then none else f key

theorem unmapped_zero (f : ℕ → Option ℕ) (virt : ℕ) : unmapped f virt 0 = f := by
  funext key
  exact if_neg (by omega)

theorem unmapped_succ (f : ℕ → Option ℕ) (virt n : ℕ) :
    unmapped f virt (n + 1) = unmapped (Function.update f (virt / PAGE_SIZE) none) (virt + PAGE_SIZE) n := by
  have hnext : (virt + PAGE_SIZE) / PAGE_SIZE = virt / PAGE_SIZE + 1 := Nat.add_div_right virt (by decide)
  funext key
  unfold unmapped
  rw [hnext]
  by_cases hkey : key = virt / PAGE_SIZE
  · subst hkey
    rw [if_pos ⟨le_rfl, by omega⟩, if_neg (by omega), Function.update_self]
  · rw [Function.update_of_ne hkey]
    by_cases hin : virt / PAGE_SIZE + 1 ≤ key ∧ key < virt / PAGE_SIZE + 1 + n
    · rw [if_pos (by omega), if_pos hin]
    · rw [if_neg (by omega), if_neg hin]

/-- The page number of an address, and the pages of a range. -/
theorem pageKey_eq (v : ℕ) : pageKey v = v % 2 ^ 48 / PAGE_SIZE := by
  unfold pageKey PAGE_SIZE
  omega

theorem inPages_iff (hv : virt % 4096 = 0) : InPages virt n v ↔
    virt % 2 ^ 48 / PAGE_SIZE ≤ pageKey v ∧ pageKey v < virt % 2 ^ 48 / PAGE_SIZE + n := by
  unfold InPages
  rw [pageKey_eq]
  unfold PAGE_SIZE
  omega

theorem mapped_of_outside (hv : virt % 4096 = 0) (hout : ¬ InPages virt n v) :
    mapped f (virt % 2 ^ 48) phys n (pageKey v) = f (pageKey v) :=
  if_neg (fun h => hout ((inPages_iff hv).mpr h))

theorem mapped_of_inside (hv : virt % 4096 = 0) (hin : InPages virt n v) :
    mapped f (virt % 2 ^ 48) phys n (pageKey v) = some (phys + (pageKey v - virt % 2 ^ 48 / PAGE_SIZE) * PAGE_SIZE) :=
  if_pos ((inPages_iff hv).mp hin)

theorem unmapped_of_outside (hv : virt % 4096 = 0) (hout : ¬ InPages virt n v) :
    unmapped f (virt % 2 ^ 48) n (pageKey v) = f (pageKey v) :=
  if_neg (fun h => hout ((inPages_iff hv).mpr h))

theorem unmapped_of_inside (hv : virt % 4096 = 0) (hin : InPages virt n v) :
    unmapped f (virt % 2 ^ 48) n (pageKey v) = none :=
  if_pos ((inPages_iff hv).mp hin)

/-! ### The loops -/

/-- **The unmapping loop** takes the pages of the range out of the function that the tables stand for. -/
theorem Refines.unmapLoop (hv : virt % 4096 = 0) (hlt : virt < 2 ^ 64) :
    ∀ (n offset : ℕ) {s : Paging} {lv : ℕ → ℕ} {f : ℕ → Option ℕ}, offset % 4096 = 0 →
      virt % 2 ^ 48 + offset + n * 4096 ≤ 2 ^ 48 → Refines s f lv →
      ∃ lv', Refines (s.unmapLoop virt n offset) (unmapped f (virt % 2 ^ 48 + offset) n) lv'
  | 0, offset, s, lv, f, _, _, hr => by
      rw [unmapped_zero]
      exact ⟨lv, hr⟩
  | n + 1, offset, s, lv, f, ho, hvb, hr => by
      have hsum : wadd virt offset = virt + offset := wadd_of_lt (by omega)
      have hkey : pageKey (virt + offset) = (virt % 2 ^ 48 + offset) / PAGE_SIZE := by
        unfold pageKey PAGE_SIZE
        omega
      obtain ⟨lv₁, hr₁⟩ := (@PagingStep.unmap s (virt + offset)).refines ⟨lv, hr⟩
      rw [mapSpec, hkey] at hr₁
      have hrest := hr₁.unmapLoop hv hlt n (offset + PAGE_SIZE) (by unfold PAGE_SIZE; omega) (by unfold PAGE_SIZE; omega)
      unfold Paging.unmapLoop
      rw [unmapped_succ, Nat.add_assoc _ offset, hsum]
      exact hrest

/-- The number of pages that both loops run over. -/
theorem RangeArgs.pages (h : RangeArgs virt phys size flags) : alignUp size PAGE_SIZE / PAGE_SIZE = rangePages size := by
  have hroom := h.virt_room
  unfold rangePages at *
  rw [alignUp_page (by omega)]
  exact Nat.mul_div_cancel _ (by norm_num)

theorem RangeArgs.mapRange (h : RangeArgs virt phys size flags) (hr : Refines s f lv)
    (hm : s.vmmMapRange virt phys size flags = .ok s') :
    ∃ lv', Refines s' (mapped f (virt % 2 ^ 48) phys (rangePages size)) lv' := by
  have hvr := h.virt_room
  have hpr := h.phys_room
  unfold Paging.vmmMapRange at hm
  rw [h.pages] at hm
  exact hr.mapLoop h.flags h.virt_aligned h.virt_lt h.phys_aligned _ 0 (by norm_num) (by omega) (by omega) hm

theorem RangeArgs.unmapRange (h : RangeArgs virt phys size flags) (hr : Refines s f lv) :
    ∃ lv', Refines (s.vmmUnmapRange virt size) (unmapped f (virt % 2 ^ 48) (rangePages size)) lv' := by
  have hvr := h.virt_room
  unfold Paging.vmmUnmapRange
  rw [h.pages]
  exact hr.unmapLoop h.virt_aligned h.virt_lt _ 0 (by norm_num) (by omega)

/-- The addresses of the range lie in its pages. -/
theorem RangeArgs.inPages (h : RangeArgs virt phys size flags) (hlow : virt ≤ v) (hhigh : v < virt + size) :
    InPages virt (rangePages size) v := by
  have hvr := h.virt_room
  unfold InPages rangePages at *
  omega

/-- **Mapping and unmapping a range.**  In every tree of tables without huge entries and for every range of pages
inside one space of 48 bits: after `vmm_map_range` the addresses of the range translate to the given frames and all
other pages as before; after `vmm_unmap_range` no page of the range translates, and all others still do as before. -/
theorem vmm_range_frame (hi : TableInv s lv) (hp : SingleParent (child s.mem lv) (· ∈ s.tables)) (hn : NoHuge s lv)
    (ha : RangeArgs virt phys size flags) (hm : s.vmmMapRange virt phys size flags = .ok s') :
    (∀ v, virt ≤ v → v < virt + size → s'.pagingVirtToPhys v = phys + (v - virt)) ∧
    (∀ v, ¬ InPages virt (rangePages size) v → s'.pagingVirtToPhys v = s.pagingVirtToPhys v) ∧
    (∀ v, InPages virt (rangePages size) v → (s'.vmmUnmapRange virt size).pagingVirtToPhys v = 0) ∧
    (∀ v, ¬ InPages virt (rangePages size) v → (s'.vmmUnmapRange virt size).pagingVirtToPhys v = s.pagingVirtToPhys v) := by
  have hv := ha.virt_aligned
  have hr := hi.refines hp hn
  obtain ⟨_, hr₁⟩ := ha.mapRange hr hm
  obtain ⟨_, hr₂⟩ := ha.unmapRange hr₁
  refine ⟨fun v hlow hhigh => ?_, fun v hout => ?_, fun v hin => ?_, fun v hout => ?_⟩
  · rw [hr₁.pagingVirtToPhys, mapped_of_inside hv (ha.inPages hlow hhigh), pageKey_eq]
    have hvr := ha.virt_room
    show phys + (v % 2 ^ 48 / 4096 - virt % 2 ^ 48 / 4096) * 4096 + v % 4096 = phys + (v - virt)
    unfold rangePages at hvr
    omega
  · rw [hr₁.pagingVirtToPhys, mapped_of_outside hv hout, hr.pagingVirtToPhys]
  · rw [hr₂.pagingVirtToPhys, unmapped_of_inside hv hin]
    rfl
  · rw [hr₂.pagingVirtToPhys, unmapped_of_outside hv hout, mapped_of_outside hv hout, hr.pagingVirtToPhys]

/-- Three pages across the end of a page table, the second of them in the next table. -/
theorem vmm_range_frame_two_tables : ∃ s', emptyTables.vmmMapRange 0x3FF000 0x5000000 0x2010 7 = .ok s' ∧
    s'.pagingVirtToPhys 0x400234 = 0x5001234 ∧ (s'.vmmUnmapRange 0x3FF000 0x2010).pagingVirtToPhys 0x400234 = 0 := by
  have hsome : (emptyTables.vmmMapRange 0x3FF000 0x5000000 0x2010 7).toOption.isSome = true := by decide +kernel
  obtain ⟨s', hs'⟩ := Option.isSome_iff_exists.mp hsome
  have hm := toOption_eq_some.mp hs'
  have hr := emptyTables_empty.refines
  have ha : RangeArgs 0x3FF000 0x5000000 0x2010 7 :=
    ⟨by norm_num, by norm_num, by norm_num [rangePages], by norm_num, by norm_num [rangePages], by decide⟩
  obtain ⟨hin, _, hgone, _⟩ := vmm_range_frame hr.inv hr.parents hr.noHuge ha hm
  exact ⟨s', hm, hin _ (by norm_num) (by norm_num), hgone _ (by unfold InPages rangePages; norm_num)⟩

end HeroOS
