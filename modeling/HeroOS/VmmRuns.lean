import HeroOS.Vmm

/-! # Ranges of mapped pages

Runs of `vmm_alloc_pages` on the active address space, between allocations and releases of other
clients of the physical memory manager and stores of other code outside the page tables.

`VmmInv` has three parts: the ranges that were returned fill the heap of the address space from its
start to its end (`Consecutive`), the page tables refine the function that sends them to their
frames, and the frames, the tables and the holdings of the other clients are disjoint parts of one
ledger of the physical memory manager.  Every call keeps it (`VmmStep.inv`), and
`vmm_ranges_exclusive` follows. -/

namespace HeroOS

open Word Pmm

/-- A range that `vmm_alloc_pages` returned, with the physical address that it got for it. -/
structure VmRange where
  virt : ℕ
  phys : ℕ
  count : ℕ
  deriving DecidableEq

namespace VmRange

/-- The addresses of a range. -/
def addrs (r : VmRange) : Set ℕ := Set.Ico r.virt (r.virt + r.count * PAGE_SIZE)

/-- The physical pages of a range. -/
def pages (r : VmRange) : Finset ℕ := Finset.Ico (r.phys / PAGE_SIZE) (r.phys / PAGE_SIZE + r.count)

end VmRange

/-- An address space and the active tables, the holdings of other clients, and the ranges returned,
the most recent first. -/
structure VmmWorld where
  paging : Paging
  as : AddrSpace
  rest : Ledger ℕ
  ranges : List VmRange

/-- Calls on the address space, and of other code. -/
inductive VmmOp where
  | alloc (count flags : ℕ)
  | pmm (op : Pmm.Op)
  | write (mem : Mem)

/-- One call that returns.  Other code writes to no table. -/
inductive VmmStep : VmmWorld → VmmOp → VmmWorld → Prop
  | alloc {w : VmmWorld} {count flags phys virt : ℕ} {pmm : Pmm} {paging : Paging} {as : AddrSpace}
      (hcount : 1 ≤ count) (hflags : PageFlags flags) (ha : w.paging.pmm.pmmAllocPages count = .ok (pmm, phys))
      (h : w.paging.vmmAllocPages (some w.as) count flags = .ok (paging, some as, virt)) :
      VmmStep w (.alloc count flags) ⟨paging, as, w.rest, ⟨virt, phys, count⟩ :: w.ranges⟩
  | pmm {w : VmmWorld} {op : Pmm.Op} {pmm : Pmm} {rest : Ledger ℕ} (h : PmmStep (w.paging.pmm, w.rest) op (pmm, rest)) :
      VmmStep w (.pmm op) { w with paging := { w.paging with pmm := pmm }, rest := rest }
  | write {w : VmmWorld} {mem : Mem}
      (h : ∀ t ∈ w.paging.tables, ∀ x, t ≤ x → x < t + 4096 → mem x = w.paging.mem x) :
      VmmStep w (.write mem) { w with paging := { w.paging with mem := mem } }

/-- The calls on the address space as a function. -/
def VmmWorld.exec (w : VmmWorld) : VmmOp → Option VmmWorld
  | .alloc count flags =>
      match w.paging.pmm.pmmAllocPages count, w.paging.vmmAllocPages (some w.as) count flags with
      | .ok (_, phys), .ok (paging, some as, virt) =>
          if 1 ≤ count ∧ PageFlags flags then some ⟨paging, as, w.rest, ⟨virt, phys, count⟩ :: w.ranges⟩ else none
      | _, _ => none
  | .pmm _ | .write _ => none

theorem VmmStep.of_exec {w w' : VmmWorld} {op : VmmOp} (h : w.exec op = some w') : VmmStep w op w' := by
  cases op with
  | alloc count flags =>
      unfold VmmWorld.exec at h
      dsimp only at h
      split at h
      · rename_i ha hcall
        split at h
        · rename_i hok
          obtain rfl := Option.some.inj h
          exact .alloc hok.1 hok.2 ha hcall
        · cases h
      · cases h
  | pmm op => cases h
  | write mem => cases h

/-- The ranges, the most recent first, follow each other from `start` up to an end. -/
inductive Consecutive (start : ℕ) : List VmRange → ℕ → Prop
  | nil : Consecutive start [] start
  | cons {rs : List VmRange} {virt : ℕ} (phys n : ℕ) (h : Consecutive start rs virt) :
      Consecutive start (⟨virt, phys, n⟩ :: rs) (virt + n * PAGE_SIZE)

/-- The function that sends the pages of the ranges to their frames. -/
def frames (rs : List VmRange) : ℕ → Option ℕ :=
  rs.foldr (fun r f => mapped f r.virt r.phys r.count) (fun _ => none)

/-- The holdings of the ranges, of the tables and of the other clients. -/
def VmmWorld.held (w : VmmWorld) : Ledger ℕ :=
  w.ranges.map VmRange.pages ++ (w.paging.tableLedger ++ w.rest)

/-- What holds after every call. -/
structure VmmInv (b : Pmm) (w : VmmWorld) : Prop where
  refines : ∃ lv, Refines w.paging (frames w.ranges) lv
  books : Accounts b w.paging.pmm w.held
  cursor : Consecutive w.as.heapStart w.ranges w.as.heapEnd
  start : w.as.heapStart = 0x400000
  aligned : ∀ r ∈ w.ranges, r.phys % 4096 = 0

variable {b : Pmm} {w w' : VmmWorld} {op : VmmOp} {start stop a : ℕ} {rs : List VmRange} {r r' : VmRange}

/-! ### Consecutive ranges -/

theorem Consecutive.stop_eq (h : Consecutive start rs stop) :
    stop = start + Ledger.total (rs.map VmRange.pages) * PAGE_SIZE := by
  induction h with
  | nil => rfl
  | @cons rs virt phys n _ ih =>
      rw [List.map_cons, Ledger.total_cons, ih]
      unfold VmRange.pages
      rw [Nat.card_Ico, Nat.add_sub_cancel_left]
      ring

theorem Consecutive.bounds (h : Consecutive start rs stop) :
    start ≤ stop ∧ ∀ r ∈ rs, start ≤ r.virt ∧ r.virt + r.count * PAGE_SIZE ≤ stop := by
  induction h with
  | nil => exact ⟨le_rfl, fun r hr => by cases hr⟩
  | @cons rs virt phys n _ ih =>
      obtain ⟨hle, hall⟩ := ih
      refine ⟨by omega, fun r hr => ?_⟩
      rcases List.mem_cons.mp hr with rfl | hr
      · exact ⟨hle, le_rfl⟩
      · obtain ⟨h1, h2⟩ := hall r hr
        exact ⟨h1, by omega⟩

theorem Consecutive.pairwise (h : Consecutive start rs stop) :
    rs.Pairwise (fun r r' => Disjoint r.addrs r'.addrs) := by
  induction h with
  | nil => exact .nil
  | @cons rs virt phys n hc ih =>
      refine List.pairwise_cons.mpr ⟨fun r hr => Set.disjoint_left.mpr fun x hx hx' => ?_, ih⟩
      have hle := (hc.bounds.2 r hr).2
      have hlow := hx.1
      have hhigh := hx'.2
      dsimp only at hlow
      omega

theorem Consecutive.aligned (h : Consecutive start rs stop) (hs : start % 4096 = 0) :
    stop % 4096 = 0 ∧ ∀ r ∈ rs, r.virt % 4096 = 0 := by
  induction h with
  | nil => exact ⟨hs, fun r hr => by cases hr⟩
  | @cons rs virt phys n _ ih =>
      refine ⟨by unfold PAGE_SIZE; omega, fun r hr => ?_⟩
      rcases List.mem_cons.mp hr with rfl | hr
      · exact ih.1
      · exact ih.2 r hr

/-- Every page of the ranges has its frame. -/
theorem Consecutive.frames_eq (h : Consecutive start rs stop) (hs : start % 4096 = 0) (hr : r ∈ rs)
    (ha : a ∈ r.addrs) : frames rs (a / PAGE_SIZE) = some (r.phys + (a / PAGE_SIZE - r.virt / PAGE_SIZE) * PAGE_SIZE) := by
  induction h with
  | nil => cases hr
  | @cons rs virt phys n hc ih =>
      have hvirt := (hc.aligned hs).1
      rw [show frames (⟨virt, phys, n⟩ :: rs) = mapped (frames rs) virt phys n from rfl]
      unfold mapped
      obtain ⟨hlow, hhigh⟩ := ha
      rcases List.mem_cons.mp hr with rfl | hr
      · dsimp only at hlow hhigh ⊢
        refine if_pos ?_
        unfold PAGE_SIZE at *
        omega
      · rw [if_neg, ih hr]
        have hle := (hc.bounds.2 r hr).2
        unfold PAGE_SIZE at *
        omega

/-! ### What the invariant says -/

/-- All ranges together have fewer pages than there are. -/
theorem Accounts.total_le {k l : Ledger ℕ} {s : Pmm} (h : Accounts b s (k ++ l)) : k.total ≤ PMM_MAX_PAGES := by
  have hle := Ledger.total_le_card h.disjoint (u := Finset.range PMM_MAX_PAGES)
    fun p hp => Finset.mem_range.mpr (h.held p hp).1
  rw [Finset.card_range, Ledger.total_append] at hle
  omega

theorem VmmInv.heapEnd_le (h : VmmInv b w) : w.as.heapEnd ≤ 0x400000 + 2 ^ 32 := by
  have hle := Accounts.total_le h.books
  rw [h.cursor.stop_eq, h.start]
  unfold PAGE_SIZE PMM_MAX_PAGES at *
  omega

/-- **Translation** of the addresses of a range. -/
theorem VmmInv.translate (h : VmmInv b w) (hr : r ∈ w.ranges) (ha : a ∈ r.addrs) :
    w.paging.vmmVirtToPhys a = r.phys + (a - r.virt) := by
  obtain ⟨lv, hrefines⟩ := h.refines
  have hend := h.heapEnd_le
  have hstart : w.as.heapStart % 4096 = 0 := by rw [h.start]
  have hvirt := (h.cursor.aligned hstart).2 r hr
  obtain ⟨hlow, hhigh⟩ := ha
  have hle := (h.cursor.bounds.2 r hr).2
  unfold Paging.vmmVirtToPhys
  rw [hrefines.pagingVirtToPhys, pageKey_of_lt (by omega), h.cursor.frames_eq hstart hr ⟨hlow, hhigh⟩]
  rw [Option.map_some, Option.getD_some]
  unfold PAGE_SIZE
  omega

/-- The addresses of a range lie in its physical pages. -/
theorem VmmInv.mem_pages (h : VmmInv b w) (hr : r ∈ w.ranges) (ha : a ∈ r.addrs) :
    w.paging.vmmVirtToPhys a / PAGE_SIZE ∈ r.pages := by
  have hphys := h.aligned r hr
  have hstart : w.as.heapStart % 4096 = 0 := by rw [h.start]
  have hvirt := (h.cursor.aligned hstart).2 r hr
  obtain ⟨hlow, hhigh⟩ := ha
  rw [h.translate hr ⟨hlow, hhigh⟩]
  unfold VmRange.pages
  rw [Finset.mem_Ico]
  unfold PAGE_SIZE at *
  omega

theorem VmmInv.offset (h : VmmInv b w) (hr : r ∈ w.ranges) (ha : a ∈ r.addrs) :
    w.paging.vmmVirtToPhys a % PAGE_SIZE = a % PAGE_SIZE := by
  have hphys := h.aligned r hr
  have hstart : w.as.heapStart % 4096 = 0 := by rw [h.start]
  have hvirt := (h.cursor.aligned hstart).2 r hr
  have hlow := ha.1
  rw [h.translate hr ha]
  unfold PAGE_SIZE
  omega

/-- Distinct pages of the ranges have distinct physical pages. -/
theorem VmmInv.page_injective {a' : ℕ} (h : VmmInv b w) (hr : r ∈ w.ranges) (hr' : r' ∈ w.ranges) (ha : a ∈ r.addrs)
    (ha' : a' ∈ r'.addrs) (he : w.paging.vmmVirtToPhys a' / PAGE_SIZE = w.paging.vmmVirtToPhys a / PAGE_SIZE) :
    a' / PAGE_SIZE = a / PAGE_SIZE := by
  have hdisj := List.pairwise_map.mp (List.pairwise_append.mp h.books.disjoint).1
  have hsame : r' = r := by
    by_contra hne
    have : Std.Symm (fun r r' : VmRange => Disjoint r.pages r'.pages) := ⟨fun _ _ hd => hd.symm⟩
    have hd : Disjoint r'.pages r.pages := hdisj.forall hr' hr hne
    exact Finset.disjoint_left.mp hd (h.mem_pages hr' ha') (he ▸ h.mem_pages hr ha)
  subst hsame
  have hphys := h.aligned r' hr
  have hstart : w.as.heapStart % 4096 = 0 := by rw [h.start]
  have hvirt := (h.cursor.aligned hstart).2 r' hr
  have hlow := ha.1
  have hlow' := ha'.1
  rw [h.translate hr ha, h.translate hr ha'] at he
  unfold PAGE_SIZE at *
  omega

/-- The physical pages of a range are in use, and neither tables nor held by others. -/
theorem VmmInv.page_owned {p : ℕ} (h : VmmInv b w) (hr : r ∈ w.ranges) (hp : p ∈ r.pages) :
    b.bitmapTest p = false ∧ w.paging.pmm.bitmapTest p = true ∧ (∀ t ∈ w.paging.tables, t / PAGE_SIZE ≠ p) ∧
      ¬ w.rest.Holds p := by
  have hmem : r.pages ∈ w.ranges.map VmRange.pages := List.mem_map_of_mem hr
  have hheld : w.held.Holds p := Ledger.holds_append.mpr (.inl ⟨_, hmem, hp⟩)
  have hothers := (List.pairwise_append.mp h.books.disjoint).2.2 _ hmem
  refine ⟨(h.books.held p hheld).2, (h.books.test_iff p).mpr (.inl hheld), ?_, ?_⟩
  · intro t ht he
    have htable : ({t / PAGE_SIZE} : Finset ℕ) ∈ w.paging.tableLedger := List.mem_map_of_mem ht
    have hd := hothers _ (List.mem_append_left _ htable)
    exact Finset.disjoint_left.mp hd hp (Finset.mem_singleton.mpr he.symm)
  · rintro ⟨o, ho, hpo⟩
    exact Finset.disjoint_left.mp (hothers o (List.mem_append_right _ ho)) hp hpo

/-! ### Every call keeps it -/

theorem tables_used {s : Paging} {pmm : Pmm} {k l : Ledger ℕ} (hb : Accounts b pmm (k ++ (s.tableLedger ++ l))) :
    ∀ t ∈ s.tables, pmm.bitmapTest (t / 4096) = true := by
  intro t ht
  refine (hb.test_iff _).mpr (.inl (Ledger.holds_append.mpr (.inr (Ledger.holds_append.mpr (.inl ?_)))))
  exact ⟨_, List.mem_map_of_mem ht, Finset.mem_singleton_self _⟩

/-- The tables stay what they are when other code allocates, frees and stores. -/
theorem VmmInv.other {mem : Mem} {pmm : Pmm} {rest : Ledger ℕ} (h : VmmInv b w)
    (hmem : ∀ t ∈ w.paging.tables, ∀ x, t ≤ x → x < t + 4096 → mem x = w.paging.mem x)
    (hbooks : Accounts b pmm (w.ranges.map VmRange.pages ++ (w.paging.tableLedger ++ rest))) :
    VmmInv b { w with paging := { w.paging with mem := mem, pmm := pmm }, rest := rest } :=
  ⟨(PagingStep.other hmem (tables_used hbooks) hbooks.hint).refines h.refines, hbooks, h.cursor, h.start, h.aligned⟩

theorem Paging.vmmAllocPages_some {s paging : Paging} {as as' : AddrSpace} {pmm : Pmm} {count flags phys virt : ℕ}
    (ha : s.pmm.pmmAllocPages count = .ok (pmm, phys))
    (h : s.vmmAllocPages (some as) count flags = .ok (paging, some as', virt)) :
    virt = as.heapEnd ∧ as' = { as with heapEnd := wadd as.heapEnd (wmul count PAGE_SIZE) } ∧
      Paging.vmmMapRange { s with pmm := pmm } as.heapEnd phys (wmul count PAGE_SIZE) flags = .ok paging := by
  unfold vmmAllocPages at h
  rw [ha, bind_eq_ok] at h
  obtain ⟨⟨pmm', phys'⟩, he, h⟩ := h
  obtain ⟨rfl, rfl⟩ := Prod.mk.inj (Except.ok.inj he)
  dsimp only at h
  rw [bind_eq_ok] at h
  obtain ⟨s', hmap, h⟩ := h
  simp only [Except.ok.injEq, Prod.mk.injEq, Option.some.injEq] at h
  obtain ⟨rfl, rfl, rfl⟩ := h
  exact ⟨rfl, rfl, hmap⟩

/-- **Every call keeps the invariant.** -/
theorem VmmStep.inv (hs : VmmStep w op w') (h : VmmInv b w) : VmmInv b w' := by
  cases hs with
  | @alloc count flags phys virt pmm paging as hcount hflags ha hcall =>
      obtain ⟨rfl, rfl, hmap⟩ := Paging.vmmAllocPages_some ha hcall
      obtain ⟨p, rfl, hal⟩ := pmmAllocPages_spec hcount h.books.hint h.books.free_lt ha
      have hbooks : Accounts b pmm ((Finset.Ico p (p + count) :: w.ranges.map VmRange.pages) ++
          (w.paging.tableLedger ++ w.rest)) := h.books.alloc hal
      have hstart : w.as.heapStart % 4096 = 0 := by rw [h.start]
      have hend := (h.cursor.aligned hstart).1
      have hle := h.heapEnd_le
      have hcount' := hal.bound
      unfold PMM_MAX_PAGES at hcount'
      have hsize : wmul count PAGE_SIZE = count * PAGE_SIZE := wmul_of_lt (by unfold PAGE_SIZE; omega)
      have hpages : alignUp (count * PAGE_SIZE) PAGE_SIZE / PAGE_SIZE = count := by
        rw [alignUp_page (by unfold PAGE_SIZE; omega)]
        unfold PAGE_SIZE
        omega
      rw [hsize] at hmap ⊢
      unfold Paging.vmmMapRange at hmap
      rw [hpages] at hmap
      obtain ⟨lv, hr⟩ := (PagingStep.other (fun _ _ _ _ _ => rfl) (tables_used hbooks) hbooks.hint).refines h.refines
      have hphys : p * PAGE_SIZE % 4096 = 0 := Nat.mul_mod_left p _
      obtain ⟨hrefines, hbooks'⟩ := Paging.mapLoop_spec hflags hend hphys (by omega) (by unfold PAGE_SIZE; omega) hr
        hbooks hmap
      rw [wadd_of_lt (by unfold PAGE_SIZE; omega)]
      refine ⟨hrefines, ?_, .cons _ _ h.cursor, h.start, fun r hr => ?_⟩
      · unfold VmmWorld.held
        rw [List.map_cons]
        unfold VmRange.pages
        dsimp only
        rw [page_of_phys rfl]
        exact hbooks'
      · rcases List.mem_cons.mp hr with rfl | hr
        · exact hphys
        · exact h.aligned r hr
  | @pmm op pmm rest hp =>
      refine h.other (fun _ _ _ _ _ => rfl) ?_
      have hbooks := h.books
      unfold VmmWorld.held at hbooks
      rw [← List.append_assoc] at hbooks ⊢
      exact hp.frame hbooks
  | @write mem hmem => exact h.other hmem h.books

/-! ### Runs -/

/-- A new address space is made active. -/
def VmmWorld.init (s : Paging) (as : AddrSpace) (rest : Ledger ℕ) : VmmWorld :=
  ⟨s.pagingSwitchDirectory as.pml4Phys, as, rest, []⟩

theorem VmmInv.init {s s₁ : Paging} {as : AddrSpace} {rest : Ledger ℕ} (hb : Accounts b s.pmm rest)
    (h : s.vmmCreateAddressSpace = .ok (s₁, as)) : VmmInv b (.init s₁ as rest) := by
  obtain ⟨p, hal, rfl, hmem⟩ := Paging.vmmCreateAddressSpace_spec hb.hint h
  have hbooks := hb.alloc hal
  rw [Nat.Ico_succ_singleton] at hbooks
  have hused : s₁.pmm.bitmapTest p = true := (hal.test_iff p).mpr (.inl ⟨le_rfl, Nat.lt_succ_self p⟩)
  have hempty := EmptyPml4.of_switch hal.bound hmem hused hbooks.hint
  refine ⟨⟨_, hempty.refines⟩, ?_, .nil, rfl, fun r hr => by cases hr⟩
  show Accounts b s₁.pmm ({p * PAGE_SIZE / PAGE_SIZE} :: rest)
  rw [page_of_phys rfl]
  exact hbooks

/-- The ranges that have been returned stay. -/
theorem VmmStep.mem_ranges (hs : VmmStep w op w') (hr : r ∈ w.ranges) : r ∈ w'.ranges := by
  cases hs with
  | alloc => exact List.mem_cons_of_mem _ hr
  | pmm => exact hr
  | write => exact hr

/-- **Ranges of mapped pages.**  The physical memory manager has served any clients, an address
space is created and made active, and any calls of `vmm_alloc_pages` on it follow, between
allocations and releases of other clients and stores of other code.  Then:

* the ranges that were returned follow each other from the start of the heap to its end, and are
  pairwise disjoint;
* every address of a range translates to the same offset of a page that the manager has given out,
  that is no table page and that no other client holds; distinct pages of the ranges have distinct
  ones;
* later calls do not change the translation. -/
theorem vmm_ranges_exclusive {s s₁ : Paging} {as : AddrSpace} {rest : Ledger ℕ} {ops₀ : List Pmm.Op} {ops : List VmmOp}
    (hh : b.lastFreeHint ≤ PMM_MAX_PAGES) (hf : b.freePhysPages < 2 ^ 64)
    (hbefore : Run PmmStep (b, []) ops₀ (s.pmm, rest)) (hcreate : s.vmmCreateAddressSpace = .ok (s₁, as))
    (hrun : Run VmmStep (.init s₁ as rest) ops w) :
    Consecutive as.heapStart w.ranges w.as.heapEnd ∧
    w.ranges.Pairwise (fun r r' => Disjoint r.addrs r'.addrs) ∧
    (∀ r ∈ w.ranges, ∀ a ∈ r.addrs,
      w.paging.vmmVirtToPhys a % PAGE_SIZE = a % PAGE_SIZE ∧
      b.bitmapTest (w.paging.vmmVirtToPhys a / PAGE_SIZE) = false ∧
      w.paging.pmm.bitmapTest (w.paging.vmmVirtToPhys a / PAGE_SIZE) = true ∧
      (∀ t ∈ w.paging.tables, t / PAGE_SIZE ≠ w.paging.vmmVirtToPhys a / PAGE_SIZE) ∧
      ¬ w.rest.Holds (w.paging.vmmVirtToPhys a / PAGE_SIZE) ∧
      ∀ r' ∈ w.ranges, ∀ a' ∈ r'.addrs,
        w.paging.vmmVirtToPhys a' / PAGE_SIZE = w.paging.vmmVirtToPhys a / PAGE_SIZE → a' / PAGE_SIZE = a / PAGE_SIZE) ∧
    ∀ ops' w', Run VmmStep w ops' w' → ∀ r ∈ w.ranges, ∀ a ∈ r.addrs,
      w'.paging.vmmVirtToPhys a = w.paging.vmmVirtToPhys a := by
  have hbooks : Accounts b s.pmm rest :=
    hbefore.invariant (I := fun c => Accounts b c.1 c.2) (fun _ _ _ h hs => hs.accounts h) (Accounts.init hh hf)
  have h : VmmInv b w := hrun.invariant (fun _ _ _ h hs => hs.inv h) (VmmInv.init hbooks hcreate)
  have hstart : as.heapStart = w.as.heapStart := (VmmInv.init hbooks hcreate).start.trans h.start.symm
  refine ⟨hstart ▸ h.cursor, h.cursor.pairwise, fun r hr a ha => ?_, fun ops' w' hrun' r hr a ha => ?_⟩
  · obtain ⟨hfree, hused, htables, hrest⟩ := h.page_owned hr (h.mem_pages hr ha)
    exact ⟨h.offset hr ha, hfree, hused, htables, hrest, fun r' hr' a' ha' => h.page_injective hr hr' ha ha'⟩
  · obtain ⟨h', hr'⟩ := hrun'.invariant (I := fun w => VmmInv b w ∧ r ∈ w.ranges)
      (fun _ _ _ hI hs => ⟨hs.inv hI.1, hs.mem_ranges hI.2⟩) ⟨h, hr⟩
    rw [h'.translate hr' ha, h.translate hr ha]

/-- Zeroed memory, none of it in use. -/
def zeroedMemory : Paging := ⟨fun _ => 0, ⟨fun _ => 0#64, 16, 16, 0⟩, 0, []⟩

/-- Two ranges, with the table pages between them. -/
theorem vmm_ranges_exclusive_two_ranges :
    ∃ s₁ as w, zeroedMemory.vmmCreateAddressSpace = .ok (s₁, as) ∧
      Run VmmStep (.init s₁ as []) [.alloc 2 7, .alloc 1 7] w ∧ w.ranges = [⟨0x402000, 0x6000, 1⟩, ⟨0x400000, 0x1000, 2⟩] ∧
      ∀ t ∈ w.paging.tables, t / PAGE_SIZE ≠ w.paging.vmmVirtToPhys 0x402123 / PAGE_SIZE := by
  have hsome : (zeroedMemory.vmmCreateAddressSpace.toOption.bind fun c =>
      [.alloc 2 7, .alloc 1 7].foldlM VmmWorld.exec (.init c.1 c.2 [])).any
        (fun w => decide (w.ranges = [⟨0x402000, 0x6000, 1⟩, ⟨0x400000, 0x1000, 2⟩])) = true := by decide +kernel
  obtain ⟨w, hw, hp⟩ := (Option.any_eq_true _ _).mp hsome
  obtain ⟨⟨s₁, as⟩, hcreate, hexec⟩ := Option.bind_eq_some_iff.mp hw
  have hc := toOption_eq_some.mp hcreate
  have hranges := of_decide_eq_true hp
  have hrun := Run.of_exec (fun _ _ _ => VmmStep.of_exec) hexec
  have h := (vmm_ranges_exclusive (by decide) (by norm_num [zeroedMemory]) (.nil _) hc hrun).2.2.1
  have haddr : (0x402123 : ℕ) ∈ VmRange.addrs ⟨0x402000, 0x6000, 1⟩ := by
    unfold VmRange.addrs PAGE_SIZE
    norm_num
  exact ⟨s₁, as, w, hc, hrun, hranges, (h _ (by rw [hranges]; exact List.mem_cons_self) _ haddr).2.2.2.1⟩

end HeroOS
