import HeroOS.Shm

/-! # Segments over whole runs

Any calls of `shm_create`, `shm_attach`, `shm_detach` and `shm_destroy`, with any arguments, between
allocations and releases of the other clients of the physical memory manager.

* `ShmStep.inv`: every call keeps `ShmInv`, the live segments and the holdings of the other clients
  being disjoint parts of the books of the page bitmap;
* `shm_segments_disjoint`: segments cover what was asked for, are disjoint, and are freed once. -/

namespace HeroOS

open Word Pmm

variable {s₀ : Pmm} {w w' : ShmWorld} {op : ShmOp} {i j p size : ℕ} {shmid id : ℤ}

theorem shmSlot_eq_some : shmSlot shmid = some i ↔ shmid = i ∧ i < SHM_MAX_SEGS := by
  unfold shmSlot
  split
  · rename_i h
    constructor
    · intro hn
      cases hn
    · rintro ⟨rfl, hi⟩
      omega
  · rename_i h
    rw [Option.some.injEq]
    omega

theorem shmSlot_natCast (hi : i < SHM_MAX_SEGS) : shmSlot i = some i := shmSlot_eq_some.mpr ⟨rfl, hi⟩

namespace Shm

variable {s s' : Shm} {pmm pmm' : Pmm}

theorem alignUp_page_cases (hsize : size < 2 ^ 64) : alignUp size PAGE_SIZE = 0 ∧ (size = 0 ∨ SHM_MAX_SIZE < size) ∨
    alignUp size PAGE_SIZE = (size + 4095) / 4096 * 4096 ∧ 0 < size := by
  have hpage : PAGE_SIZE = 2 ^ 12 := rfl
  unfold SHM_MAX_SIZE
  rw [hpage]
  by_cases h : size + 2 ^ 12 - 1 < 2 ^ 64
  · rw [alignUp_two_pow (by norm_num) h]
    by_cases h0 : size = 0
    · subst h0
      exact .inl ⟨by norm_num, .inl rfl⟩
    · exact .inr ⟨rfl, Nat.pos_of_ne_zero h0⟩
  · exact .inl ⟨alignUp_two_pow_wrap (by norm_num) hsize (not_lt.mp h), .inr (by omega)⟩

/-- The region that a successful `shm_create` fills in. -/
def newRegion (s : Shm) (n p : ℕ) : Shm where
  regions := Function.update s.regions s.nextShmid ⟨s.nextShmid, n * PAGE_SIZE, p * PAGE_SIZE, 0⟩
  nextShmid := s.nextShmid + 1

/-- `shm_create` fails, possibly with pages at the address `0` that it has lost, or makes a segment of
`n` pages that covers the request. -/
theorem shmCreate_cases (hsize : size < 2 ^ 64) (hh : pmm.lastFreeHint ≤ PMM_MAX_PAGES)
    (hf : pmm.freePhysPages < 2 ^ 64) (h : s.shmCreate pmm size = .ok (s', pmm', id)) :
    (id = -1 ∧ s' = s ∧ (pmm' = pmm ∨ ∃ n p, Allocates pmm n pmm' p)) ∨
      ∃ n p, id = s.nextShmid ∧ s.nextShmid < SHM_MAX_SEGS ∧ 0 < size ∧ size ≤ n * PAGE_SIZE ∧
        n * PAGE_SIZE ≤ SHM_MAX_SIZE ∧ 1 ≤ n ∧ 1 ≤ p ∧ Allocates pmm n pmm' p ∧ s' = s.newRegion n p := by
  have hcases := alignUp_page_cases hsize
  unfold shmCreate at h
  dsimp only at h
  generalize alignUp size PAGE_SIZE = a at *
  split at h
  · cases h
    exact .inl ⟨rfl, rfl, .inl rfl⟩
  · rename_i hnext
    split at h
    · cases h
      exact .inl ⟨rfl, rfl, .inl rfl⟩
    · rename_i hmax
      obtain ⟨⟨pmm₁, phys⟩, halloc, h⟩ := bind_eq_ok.mp h
      obtain ⟨rfl, _⟩ | ⟨ha, hpos⟩ := hcases
      · -- no pages are asked for, and none are returned
        rw [Nat.zero_div] at halloc
        obtain ⟨rfl, rfl⟩ := Prod.mk.inj (Except.ok.inj halloc)
        rw [if_pos rfl] at h
        simp only [Except.ok.injEq, Prod.mk.injEq] at h
        obtain ⟨rfl, rfl, rfl⟩ := h
        exact .inl ⟨rfl, rfl, .inl rfl⟩
      · obtain ⟨n, hn⟩ : ∃ n, (size + 4095) / 4096 = n := ⟨_, rfl⟩
        have han : a = n * PAGE_SIZE := by
          rw [ha, hn]
          rfl
        have hdiv : a / PAGE_SIZE = n := by
          rw [han]
          exact Nat.mul_div_cancel n (by decide)
        have hn1 : 1 ≤ n := by omega
        rw [hdiv] at halloc
        obtain ⟨p, hp, hal⟩ := pmmAllocPages_spec hn1 hh hf halloc
        split at h
        · simp only [Except.ok.injEq, Prod.mk.injEq] at h
          obtain ⟨rfl, rfl, rfl⟩ := h
          exact .inl ⟨rfl, rfl, .inr ⟨n, p, hal⟩⟩
        · rename_i hphys
          simp only [Except.ok.injEq, Prod.mk.injEq] at h
          obtain ⟨rfl, rfl, rfl⟩ := h
          have hp1 : 1 ≤ p := by
            rw [hp] at hphys
            exact Nat.pos_of_ne_zero fun h0 => hphys (by rw [h0, Nat.zero_mul])
          refine .inr ⟨n, p, rfl, not_le.mp hnext, hpos, ?_, by omega, hn1, hp1, hal, ?_⟩
          · unfold PAGE_SIZE
            omega
          · unfold newRegion
            rw [han, hp]

/-- Regions that occupy the same pages. -/
theorem segments_congr (hnext : s'.nextShmid = s.nextShmid)
    (hheld : ∀ i < s.nextShmid, (s'.regions i).held = (s.regions i).held) : s'.segments = s.segments := by
  unfold segments
  rw [hnext]
  apply List.map_congr_left
  intro i hi
  rw [List.mem_reverse, List.mem_range] at hi
  exact hheld i hi

theorem mem_segments (hi : i < s.nextShmid) : (s.regions i).held ∈ s.segments :=
  List.mem_map.mpr ⟨i, by simpa using hi, rfl⟩

theorem held_newRegion (s : Shm) {n : ℕ} (hp : 1 ≤ p) :
    ((s.newRegion n p).regions s.nextShmid).held = Finset.Ico p (p + n) := by
  have hpage : 0 < PAGE_SIZE := by decide
  have hregion : (s.newRegion n p).regions s.nextShmid = ⟨s.nextShmid, n * PAGE_SIZE, p * PAGE_SIZE, 0⟩ :=
    Function.update_self _ _ _
  rw [hregion]
  unfold ShmRegion.held ShmRegion.pages
  rw [if_neg (Nat.mul_pos hp hpage).ne', Nat.mul_div_cancel _ hpage, Nat.mul_div_cancel _ hpage]

theorem segments_newRegion (s : Shm) {n : ℕ} (hp : 1 ≤ p) :
    (s.newRegion n p).segments = Finset.Ico p (p + n) :: s.segments := by
  have hold : (List.range s.nextShmid).reverse.map (fun i => ((s.newRegion n p).regions i).held) = s.segments := by
    apply List.map_congr_left
    intro i hi
    rw [List.mem_reverse, List.mem_range] at hi
    unfold newRegion
    dsimp only
    rw [Function.update_of_ne hi.ne]
  unfold segments at hold ⊢
  have hnext : (s.newRegion n p).nextShmid = s.nextShmid + 1 := rfl
  rw [hnext, List.range_succ, List.reverse_append, List.reverse_singleton, List.singleton_append, List.map_cons,
    held_newRegion s hp, hold]

theorem segments_disjoint (h : s.segments.Pairwise Disjoint) (hi : i < s.nextShmid) (hj : j < s.nextShmid)
    (hne : i ≠ j) : Disjoint (s.regions i).held (s.regions j).held := by
  have hpair : (List.range s.nextShmid).reverse.Pairwise
      (fun i j => Disjoint (s.regions i).held (s.regions j).held) := List.pairwise_map.mp h
  have : Std.Symm (fun i j => Disjoint (s.regions i).held (s.regions j).held) := ⟨fun _ _ hd => hd.symm⟩
  exact hpair.forall (by simpa using hi) (by simpa using hj) hne

/-- The table after `shm_destroy` of a live segment. -/
def freed (s : Shm) (i : ℕ) : Shm := s.setRegion i { s.regions i with physBase := 0 }

theorem shmDestroy_live (hi : i < SHM_MAX_SEGS) (hlive : (s.regions i).physBase ≠ 0) (pmm : Pmm) :
    s.shmDestroy pmm i =
      (s.freed i, pmm.pmmFreePages (s.regions i).physBase ((s.regions i).size / PAGE_SIZE)) := by
  unfold shmDestroy
  rw [shmSlot_natCast hi]
  exact if_neg hlive

/-- `shm_destroy` of anything else does nothing. -/
theorem shmDestroy_dead (h : ∀ i, shmSlot shmid = some i → (s.regions i).physBase = 0) (pmm : Pmm) :
    s.shmDestroy pmm shmid = (s, pmm) := by
  unfold shmDestroy
  cases hi : shmSlot shmid with
  | none => rfl
  | some i => exact if_pos (h i hi)

theorem segments_freed (h : s.segments.Pairwise Disjoint) (hi : i < s.nextShmid) :
    (s.freed i).segments = s.segments.without (s.regions i).held := by
  unfold segments Ledger.without
  rw [List.map_map]
  apply List.map_congr_left
  intro j hj
  rw [List.mem_reverse, List.mem_range] at hj
  unfold freed setRegion
  dsimp only
  by_cases hji : j = i
  · rw [hji, Function.update_self, Function.comp_apply, Finset.sdiff_self]
    exact if_pos rfl
  · rw [Function.update_of_ne hji, Function.comp_apply]
    exact (Finset.sdiff_eq_self_of_disjoint (segments_disjoint h hj hi hji)).symm

end Shm

/-! ### The invariant -/

/-- Live segments have pages, and the segments and the holdings of the other clients are disjoint
parts of the books.  The pages in `lost` are nobody's any more. -/
structure ShmInv (s₀ : Pmm) (w : ShmWorld) : Prop where
  bound : w.shm.nextShmid ≤ SHM_MAX_SEGS
  unused : ∀ i, w.shm.nextShmid ≤ i → (w.shm.regions i).physBase = 0
  live : ∀ i, (w.shm.regions i).physBase ≠ 0 → (w.shm.regions i).pages.Nonempty ∧ w.pages i = (w.shm.regions i).pages
  books : ∃ lost, Accounts s₀ w.pmm (w.shm.segments ++ (w.rest ++ lost))

theorem ShmInv.init (hh : s₀.lastFreeHint ≤ PMM_MAX_PAGES) (hf : s₀.freePhysPages < 2 ^ 64) :
    ShmInv s₀ (.init s₀) :=
  ⟨Nat.zero_le _, fun _ _ => rfl, fun _ h => absurd rfl h, [], Accounts.init hh hf⟩

theorem ShmInv.lt_next (h : ShmInv s₀ w) (hi : (w.shm.regions i).physBase ≠ 0) : i < w.shm.nextShmid := by
  by_contra hge
  exact hi (h.unused i (not_lt.mp hge))

/-- Only counts of references differ. -/
structure Shm.SameRegions (s s' : Shm) : Prop where
  next : s'.nextShmid = s.nextShmid
  base : ∀ i, (s'.regions i).physBase = (s.regions i).physBase
  size : ∀ i, (s'.regions i).size = (s.regions i).size

theorem Shm.SameRegions.refl (s : Shm) : s.SameRegions s := ⟨rfl, fun _ => rfl, fun _ => rfl⟩

theorem Shm.sameRegions_setRegion (s : Shm) (i : ℕ) (n : ℤ) :
    s.SameRegions (s.setRegion i { s.regions i with refCount := n }) := by
  refine ⟨rfl, fun j => ?_, fun j => ?_⟩ <;> unfold Shm.setRegion
  · by_cases hj : j = i
    · simp [hj]
    · simp [hj]
  · by_cases hj : j = i
    · simp [hj]
    · simp [hj]

theorem Shm.sameRegions_attach (s : Shm) (shmid : ℤ) : s.SameRegions (s.shmAttach shmid).1 := by
  unfold Shm.shmAttach
  cases shmSlot shmid with
  | none => exact .refl s
  | some i =>
      dsimp only
      split
      · exact .refl s
      · exact s.sameRegions_setRegion i _

theorem Shm.sameRegions_detach (s : Shm) (shmid : ℤ) : s.SameRegions (s.shmDetach shmid) := by
  unfold Shm.shmDetach
  cases shmSlot shmid with
  | none => exact .refl s
  | some i =>
      dsimp only
      split
      · exact s.sameRegions_setRegion i _
      · exact .refl s

/-- Rewriting the counts of references keeps the invariant. -/
theorem ShmInv.of_sameRegions (h : ShmInv s₀ w) (hs : w.shm.SameRegions w'.shm) (hpages : w'.pages = w.pages)
    (hpmm : w'.pmm = w.pmm) (hrest : w'.rest = w.rest) : ShmInv s₀ w' := by
  have heq : ∀ i, (w'.shm.regions i).pages = (w.shm.regions i).pages := by
    intro i
    unfold ShmRegion.pages
    rw [hs.base, hs.size]
  refine ⟨by rw [hs.next]; exact h.bound, fun i hi => ?_, fun i hi => ?_, ?_⟩
  · rw [hs.base]
    exact h.unused i (hs.next ▸ hi)
  · rw [hs.base] at hi
    rw [heq, hpages]
    exact h.live i hi
  · rw [hpmm, hrest, Shm.segments_congr hs.next]
    · exact h.books
    · intro i _
      unfold ShmRegion.held
      rw [hs.base, heq]

/-- A new segment. -/
theorem ShmInv.newRegion {pmm : Pmm} {n : ℕ} (h : ShmInv s₀ w) (hnext : w.shm.nextShmid < SHM_MAX_SEGS) (hn : 1 ≤ n)
    (hp : 1 ≤ p) (ha : Allocates w.pmm n pmm p) :
    ShmInv s₀ (w.created (w.shm.newRegion n p) pmm w.shm.nextShmid) := by
  have hid : ¬ (w.shm.nextShmid : ℤ) < 0 := by omega
  have hheld := w.shm.held_newRegion (n := n) hp
  have hnew : ((w.shm.newRegion n p).regions w.shm.nextShmid).physBase ≠ 0 := by
    intro h0
    unfold ShmRegion.held at hheld
    rw [if_pos h0] at hheld
    have hmem : p ∈ Finset.Ico p (p + n) := Finset.mem_Ico.mpr ⟨le_rfl, by omega⟩
    rw [← hheld] at hmem
    exact absurd hmem (Finset.notMem_empty p)
  have hpages : ((w.shm.newRegion n p).regions w.shm.nextShmid).pages = Finset.Ico p (p + n) := by
    rwa [ShmRegion.held, if_neg hnew] at hheld
  have hother : ∀ i, i ≠ w.shm.nextShmid → (w.shm.newRegion n p).regions i = w.shm.regions i :=
    fun i hi => Function.update_of_ne hi _ _
  unfold ShmWorld.created
  rw [if_neg hid]
  refine ⟨hnext, fun i hi => ?_, fun i hi => ?_, ?_⟩
  · have hi : w.shm.nextShmid + 1 ≤ i := hi
    dsimp only
    rw [hother i (by omega)]
    exact h.unused i (by omega)
  · dsimp only at hi ⊢
    rw [Int.toNat_natCast]
    by_cases hin : i = w.shm.nextShmid
    · rw [hin, Function.update_self, hpages]
      exact ⟨⟨p, Finset.mem_Ico.mpr ⟨le_rfl, by omega⟩⟩, rfl⟩
    · rw [Function.update_of_ne hin]
      rw [hother i hin] at hi ⊢
      exact h.live i hi
  · obtain ⟨lost, hb⟩ := h.books
    refine ⟨lost, ?_⟩
    dsimp only
    rw [Shm.segments_newRegion w.shm hp]
    exact hb.alloc ha

/-- `shm_destroy` of a live segment, or of anything else, which does nothing. -/
theorem ShmWorld.destroyed_cases (w : ShmWorld) (shmid : ℤ) :
    (∃ i : ℕ, shmid = i ∧ i < SHM_MAX_SEGS ∧ (w.shm.regions i).physBase ≠ 0) ∨
      (∀ i, shmSlot shmid = some i → (w.shm.regions i).physBase = 0) ∧ w.destroyed shmid = w := by
  by_cases hlive : ∃ i, shmSlot shmid = some i ∧ (w.shm.regions i).physBase ≠ 0
  · obtain ⟨i, hi, hlive⟩ := hlive
    obtain ⟨rfl, hslot⟩ := shmSlot_eq_some.mp hi
    exact .inl ⟨i, rfl, hslot, hlive⟩
  · have hdead : ∀ i, shmSlot shmid = some i → (w.shm.regions i).physBase = 0 :=
      fun i hi => by_contra fun h0 => hlive ⟨i, hi, h0⟩
    refine .inr ⟨hdead, ?_⟩
    unfold ShmWorld.destroyed
    rw [Shm.shmDestroy_dead hdead w.pmm]

/-- A live segment is destroyed. -/
theorem ShmInv.freed (h : ShmInv s₀ w) (hi : (w.shm.regions i).physBase ≠ 0) :
    (w.destroyed i).shm = w.shm.freed i ∧ ShmInv s₀ (w.destroyed i) := by
  have hnext := h.lt_next hi
  have hslot : i < SHM_MAX_SEGS := hnext.trans_le h.bound
  have hheld : (w.shm.regions i).held = (w.shm.regions i).pages := if_neg hi
  unfold ShmWorld.destroyed
  rw [Shm.shmDestroy_live hslot hi]
  have hother : ∀ j, j ≠ i → (w.shm.freed i).regions j = w.shm.regions j := fun j hj => Function.update_of_ne hj _ _
  have hself : ((w.shm.freed i).regions i).physBase = 0 := by
    unfold Shm.freed Shm.setRegion
    simp
  refine ⟨rfl, h.bound, fun j hj => ?_, fun j hj => ?_, ?_⟩
  · by_cases hji : j = i
    · rw [hji]
      exact hself
    · dsimp only
      rw [hother j hji]
      exact h.unused j hj
  · dsimp only at hj ⊢
    have hji : j ≠ i := fun he => hj (he ▸ hself)
    rw [hother j hji] at hj ⊢
    exact h.live j hj
  · obtain ⟨lost, hb⟩ := h.books
    refine ⟨lost, ?_⟩
    have hmem := Shm.mem_segments hnext
    rw [hheld] at hmem
    have hfree : Accounts s₀ (w.pmm.pmmFreePages (w.shm.regions i).physBase ((w.shm.regions i).size / PAGE_SIZE)) _ :=
      hb.freePages fun j hj =>
        Ledger.holds_append.mpr (.inl ⟨_, hmem, Finset.mem_Ico.mpr ⟨by omega, by omega⟩⟩)
    obtain ⟨hpair, _, hdisj⟩ := List.pairwise_append.mp hb.disjoint
    have hrest : (w.rest ++ lost).without (w.shm.regions i).pages = w.rest ++ lost :=
      Ledger.without_of_disjoint fun o ho => (hdisj _ hmem o ho).symm
    have hsplit : (w.shm.segments ++ (w.rest ++ lost)).without (w.shm.regions i).pages =
        (w.shm.freed i).segments ++ (w.rest ++ lost) := by
      unfold Ledger.without at hrest ⊢
      rw [List.map_append, hrest, Shm.segments_freed hpair hnext, hheld]
      rfl
    rw [← hsplit]
    exact hfree

/-- **Every call keeps the invariant.** -/
theorem ShmStep.inv (hs : ShmStep w op w') (h : ShmInv s₀ w) : ShmInv s₀ w' := by
  obtain ⟨lost, hb⟩ := h.books
  cases hs with
  | @create size shm pmm id hsize hc =>
      obtain ⟨rfl, rfl, rfl | ⟨n, p, ha⟩⟩ | ⟨n, p, rfl, hnext, _, _, _, hn, hp, ha, rfl⟩ :=
        Shm.shmCreate_cases hsize hb.hint hb.free_lt hc
      · exact h
      · refine ⟨h.bound, h.unused, h.live, Finset.Ico p (p + n) :: lost, (hb.alloc ha).perm ?_⟩
        rw [← List.append_assoc, ← List.append_assoc]
        exact List.perm_middle.symm
      · exact h.newRegion hnext hn hp ha
  | attach shmid => exact h.of_sameRegions (w.shm.sameRegions_attach shmid) rfl rfl rfl
  | detach shmid => exact h.of_sameRegions (w.shm.sameRegions_detach shmid) rfl rfl rfl
  | destroy shmid =>
      obtain ⟨i, rfl, _, hlive⟩ | ⟨_, hsame⟩ := w.destroyed_cases shmid
      · exact (h.freed hlive).2
      · rwa [hsame]
  | pmm hp =>
      have hperm : (w.shm.segments ++ (w.rest ++ lost)).Perm ((w.shm.segments ++ lost) ++ w.rest) := by
        rw [List.append_assoc]
        exact List.perm_append_comm.append_left _
      refine ⟨h.bound, h.unused, h.live, lost, (hp.frame (hb.perm hperm)).perm ?_⟩
      rw [List.append_assoc]
      exact List.perm_append_comm.append_left _

/-! ### Segments and pages -/

theorem shmInv_of_run {ops : List ShmOp} (hh : s₀.lastFreeHint ≤ PMM_MAX_PAGES) (hf : s₀.freePhysPages < 2 ^ 64)
    (hrun : Run ShmStep (.init s₀) ops w) : ShmInv s₀ w :=
  hrun.invariant (fun _ _ _ h hs => hs.inv h) (.init hh hf)

/-- What `shm_destroy` would free. -/
def ShmWorld.target (w : ShmWorld) (shmid : ℤ) : Finset ℕ :=
  match shmSlot shmid with
  | none => ∅
  | some i => (w.shm.regions i).held

theorem ShmInv.held_disjoint (h : ShmInv s₀ w) (hne : i ≠ j) :
    Disjoint (w.shm.regions i).held (w.shm.regions j).held := by
  obtain ⟨lost, hb⟩ := h.books
  have hempty : ∀ i, w.shm.nextShmid ≤ i → (w.shm.regions i).held = ∅ := fun i hi => if_pos (h.unused i hi)
  by_cases hi : i < w.shm.nextShmid
  · by_cases hj : j < w.shm.nextShmid
    · exact Shm.segments_disjoint (List.pairwise_append.mp hb.disjoint).1 hi hj hne
    · rw [hempty j (not_lt.mp hj)]
      exact Finset.disjoint_empty_right _
  · rw [hempty i (not_lt.mp hi)]
    exact Finset.disjoint_empty_left _

/-- The pages of a live segment are in use, and nobody else's. -/
theorem ShmInv.held_used (h : ShmInv s₀ w) (hp : p ∈ (w.shm.regions i).held) :
    ¬ w.rest.Holds p ∧ w.pmm.bitmapTest p = true := by
  obtain ⟨lost, hb⟩ := h.books
  have hlive : (w.shm.regions i).physBase ≠ 0 := by
    intro h0
    unfold ShmRegion.held at hp
    rw [if_pos h0] at hp
    exact absurd hp (Finset.notMem_empty p)
  have hmem := Shm.mem_segments (h.lt_next hlive)
  constructor
  · rintro ⟨o, ho, hpo⟩
    have hdisj := (List.pairwise_append.mp hb.disjoint).2.2 _ hmem o (List.mem_append_left _ ho)
    exact Finset.disjoint_left.mp hdisj hp hpo
  · exact (hb.test_iff p).mpr (.inl (Ledger.holds_append.mpr (.inl ⟨_, hmem, hp⟩)))

/-- `shm_destroy` clears the bits of its segment and no others. -/
theorem ShmInv.destroyed_test (h : ShmInv s₀ w) (shmid : ℤ) (p : ℕ) :
    (w.destroyed shmid).pmm.bitmapTest p = true ↔ w.pmm.bitmapTest p = true ∧ p ∉ w.target shmid := by
  obtain ⟨i, rfl, hslot, hlive⟩ | ⟨hdead, hsame⟩ := w.destroyed_cases shmid
  · have hheld : (w.shm.regions i).held = (w.shm.regions i).pages := if_neg hlive
    obtain ⟨lost, hb⟩ := h.books
    have hmem := Shm.mem_segments (h.lt_next hlive)
    have hhold : ∀ j < (w.shm.regions i).size / PAGE_SIZE, (w.shm.segments ++ (w.rest ++ lost)).Holds
        ((w.shm.regions i).physBase / PAGE_SIZE + j) := fun j hj =>
      Ledger.holds_append.mpr (.inl ⟨_, hheld ▸ hmem, Finset.mem_Ico.mpr ⟨by omega, by omega⟩⟩)
    unfold ShmWorld.target ShmWorld.destroyed
    rw [shmSlot_natCast hslot, Shm.shmDestroy_live hslot hlive]
    dsimp only
    rw [hheld]
    exact hb.freePages_test hhold p
  · have hempty : w.target shmid = ∅ := by
      unfold ShmWorld.target
      cases hi : shmSlot shmid with
      | none => rfl
      | some i => exact if_pos (hdead i hi)
    rw [hsame, hempty]
    simp

/-- A slot that has been used and is not live is never live again. -/
theorem ShmStep.dead (hs : ShmStep w op w') (h : ShmInv s₀ w)
    (hi : i < w.shm.nextShmid ∧ (w.shm.regions i).physBase = 0) :
    i < w'.shm.nextShmid ∧ (w'.shm.regions i).physBase = 0 := by
  obtain ⟨hnext, h0⟩ := hi
  obtain ⟨lost, hb⟩ := h.books
  cases hs with
  | @create size shm pmm id hsize hc =>
      obtain ⟨rfl, rfl, _⟩ | ⟨n, p, rfl, _, _, _, _, _, _, _, rfl⟩ :=
        Shm.shmCreate_cases hsize hb.hint hb.free_lt hc
      · exact ⟨hnext, h0⟩
      · have hother : (w.shm.newRegion n p).regions i = w.shm.regions i := Function.update_of_ne hnext.ne _ _
        unfold ShmWorld.created
        rw [if_neg (by omega)]
        dsimp only
        rw [hother]
        exact ⟨hnext.trans (Nat.lt_succ_self _), h0⟩
  | attach shmid =>
      have hsame := w.shm.sameRegions_attach shmid
      exact ⟨hsame.next ▸ hnext, (hsame.base i).trans h0⟩
  | detach shmid =>
      have hsame := w.shm.sameRegions_detach shmid
      exact ⟨hsame.next ▸ hnext, (hsame.base i).trans h0⟩
  | destroy shmid =>
      obtain ⟨j, rfl, _, hlive⟩ | ⟨_, hsame⟩ := w.destroyed_cases shmid
      · rw [(h.freed hlive).1]
        have hij : i ≠ j := fun he => hlive (he ▸ h0)
        have hother : (w.shm.freed j).regions i = w.shm.regions i := Function.update_of_ne hij _ _
        rw [hother]
        exact ⟨hnext, h0⟩
      · rw [hsame]
        exact ⟨hnext, h0⟩
  | pmm hp => exact ⟨hnext, h0⟩

/-- **Shared memory segments.**  After any calls of `shm_create`, `shm_attach`, `shm_detach` and
`shm_destroy` with any arguments, between allocations and releases of other clients of the physical
memory manager:

* `shm_create` succeeds only for a size from 1 byte to 1 MiB, with an id that was not in use, and
  records a positive multiple of the page size that covers the request;
* live segments occupy disjoint pages, which are in use and which no other client holds;
* `shm_destroy` clears the bits of the pages of its segment and no others;
* once destroyed, a segment is never live again, so that no later `shm_destroy` frees anything for
  its id. -/
theorem shm_segments_disjoint {ops : List ShmOp} (hh : s₀.lastFreeHint ≤ PMM_MAX_PAGES) (hf : s₀.freePhysPages < 2 ^ 64)
    (hrun : Run ShmStep (.init s₀) ops w) :
    (∀ size shm pmm id, size < 2 ^ 64 → w.shm.shmCreate w.pmm size = .ok (shm, pmm, id) → 0 ≤ id →
      0 < size ∧ size ≤ SHM_MAX_SIZE ∧ (w.shm.regions id.toNat).physBase = 0 ∧
        (shm.regions id.toNat).physBase ≠ 0 ∧ size ≤ (shm.regions id.toNat).size ∧
          PAGE_SIZE ∣ (shm.regions id.toNat).size) ∧
    (∀ i j, i ≠ j → Disjoint (w.shm.regions i).held (w.shm.regions j).held) ∧
    (∀ i, ∀ p ∈ (w.shm.regions i).held, ¬ w.rest.Holds p ∧ w.pmm.bitmapTest p = true) ∧
    (∀ shmid p, (w.destroyed shmid).pmm.bitmapTest p = true ↔
      w.pmm.bitmapTest p = true ∧ p ∉ w.target shmid) ∧
    ∀ shmid ops' w', (w.target shmid).Nonempty → Run ShmStep (w.destroyed shmid) ops' w' → w'.target shmid = ∅ := by
  have h := shmInv_of_run hh hf hrun
  refine ⟨?_, fun i j hne => h.held_disjoint hne, fun i p hp => h.held_used hp, h.destroyed_test, ?_⟩
  · intro size shm pmm id hsize hc hid
    obtain ⟨lost, hb⟩ := h.books
    obtain ⟨rfl, _⟩ | ⟨n, p, rfl, hnext, hpos, hle, hmax, hn, hp, _, rfl⟩ :=
      Shm.shmCreate_cases hsize hb.hint hb.free_lt hc
    · omega
    · have hregion : (w.shm.newRegion n p).regions w.shm.nextShmid = ⟨w.shm.nextShmid, n * PAGE_SIZE, p * PAGE_SIZE, 0⟩ :=
        Function.update_self _ _ _
      rw [Int.toNat_natCast, hregion]
      have hbase : p * PAGE_SIZE ≠ 0 := (Nat.mul_pos hp (by decide)).ne'
      exact ⟨hpos, hle.trans hmax, h.unused _ le_rfl, hbase, hle, Dvd.intro_left n rfl⟩
  · intro shmid ops' w' hne hrun'
    unfold ShmWorld.target at hne ⊢
    cases hi : shmSlot shmid with
    | none => rfl
    | some i =>
        rw [hi] at hne
        have hlive : (w.shm.regions i).physBase ≠ 0 := by
          intro h0
          dsimp only [ShmRegion.held] at hne
          rw [if_pos h0] at hne
          exact Finset.not_nonempty_empty hne
        obtain ⟨rfl, _⟩ := shmSlot_eq_some.mp hi
        obtain ⟨hshm, h'⟩ := h.freed hlive
        have hdead : i < (w.destroyed i).shm.nextShmid ∧ ((w.destroyed i).shm.regions i).physBase = 0 := by
          rw [hshm]
          refine ⟨h.lt_next hlive, ?_⟩
          unfold Shm.freed Shm.setRegion
          simp
        have hend := hrun'.invariant (I := fun w => ShmInv s₀ w ∧ i < w.shm.nextShmid ∧ (w.shm.regions i).physBase = 0)
          (fun _ _ _ hI hs => ⟨hs.inv hI.1, hs.dead hI.1 hI.2⟩) ⟨h', hdead⟩
        exact if_pos hend.2.2

/-- A page bitmap in which only page 0 is in use. -/
def pageZeroUsed : Pmm := ⟨fun i => if i = 0 then 1#64 else 0#64, 8, 7, 0⟩

/-- A segment for 5000 bytes has two pages. -/
theorem shm_segments_disjoint_two_pages : ∃ w, Run ShmStep (.init pageZeroUsed) [.create 5000, .attach 0] w ∧
    (w.shm.regions 0).held = Finset.Ico 1 3 ∧ w.pmm.bitmapTest 2 = true := by
  have hrun : ([.create 5000, .attach 0].foldlM ShmWorld.exec (.init pageZeroUsed)).any
      (fun w => decide ((w.shm.regions 0).held = Finset.Ico 1 3)) = true := by decide +kernel
  obtain ⟨w, hw, hp⟩ := (Option.any_eq_true _ _).mp hrun
  have hheld := of_decide_eq_true hp
  have hrun := Run.of_exec (fun _ _ _ => ShmStep.of_exec) hw
  have h := (shm_segments_disjoint (by decide) (by norm_num [pageZeroUsed]) hrun).2.2.1 0 2
  exact ⟨w, hrun, hheld, (h (by rw [hheld]; decide)).2⟩

end HeroOS
