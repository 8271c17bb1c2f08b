import HeroOS.PagingRuns

/-! # Access from user mode

The processor lets user mode reach a page only if all four entries on the walk to it have `PTE_USER`.  `paging_map`
gives the flags of a mapping to the last of them; the tables above are linked by `get_or_create_table` with
`PTE_PRESENT | PTE_WRITABLE`, whoever maps first.  So no page is accessible, with whatever flags it is mapped
(`paging_map_user_iff`). -/

namespace HeroOS

open Word

/-- `PTE_USER` -/
def PTE_USER : ℕ := 0x4
/-- `PTE_USER_RW` -/
def PTE_USER_RW : ℕ := PTE_PRESENT ||| PTE_WRITABLE ||| PTE_USER

/-- `pte & PTE_USER`, as a truth value. -/
def isUser (pte : ℕ) : Bool := pte &&& PTE_USER != 0

/-- The entry of `va` in its page table. -/
def Paging.pte (s : Paging) (va : ℕ) : ℕ := s.mem.pte (pteAddr (s.pde va)) (idx1 va)

/-- Every entry on the walk to the page has `PTE_USER`. -/
structure UserWalk (s : Paging) (va : ℕ) : Prop where
  pml4e : isUser (s.pml4e va) = true
  pdpte : isUser (s.pdpte va) = true
  pde : isUser (s.pde va) = true
  pte : isUser (s.pte va) = true

/-- The arguments of a call of `paging_map`. -/
structure MapCall where
  virt : ℕ
  phys : ℕ
  flags : ℕ

/-- One call of `paging_map`. -/
def MapStep (s : Paging) (c : MapCall) (s' : Paging) : Prop := s.pagingMap c.virt c.phys c.flags = .ok s'

variable {s s' s₀ : Paging} {lv lv' : ℕ → ℕ} {c : MapCall} {calls : List MapCall}

theorem isUser_eq (pte : ℕ) : isUser pte = decide (pte / 4 % 2 = 1) := by
  unfold isUser PTE_USER
  rw [show pte &&& 4 = pte / 2 ^ 2 % 2 * 2 ^ 2 from and_shifted_mask pte 1 2]
  rcases Nat.mod_two_eq_zero_or_one (pte / 2 ^ 2) with h | h <;> simp_all

/-- No entry above the page tables has `PTE_USER`, and none maps 2 MiB. -/
structure Supervisor (s : Paging) (lv : ℕ → ℕ) : Prop where
  inv : TableInv s lv
  noHuge : NoHuge s lv
  entries : ∀ t ∈ s.tables, 2 ≤ lv t → ∀ i : Fin 512, isUser (s.mem.pte t i) = false

theorem EmptyPml4.supervisor (h : EmptyPml4 s) : Supervisor s (fun _ => 4) := by
  have hr := h.refines
  refine ⟨hr.inv, hr.noHuge, fun t ht _ i => ?_⟩
  rw [h.tables, List.mem_singleton] at ht
  rw [ht, Mem.pte_eq_zero h.zero]
  rfl

/-- New tables are linked without `PTE_USER`. -/
theorem Supervisor.adds (h : Supervisor s lv) (hex : Extends s lv s' lv') (ha : AddsTables s s') : Supervisor s' lv' := by
  refine ⟨hex.inv, hex.noHuge h.noHuge, fun t ht h2 i => ?_⟩
  rcases ha t ht i with ⟨ht, e⟩ | e | ⟨c, hc, e⟩
  · rw [e]
    exact h.entries t ht (by rwa [← hex.level t ht]) i
  · rw [e]
    rfl
  · rw [e, isUser_eq, decide_eq_false_iff_not]
    omega

theorem Supervisor.setLeaf {pt e : ℕ} {i : Fin 512} (h : Supervisor s lv) (hpt : pt ∈ s.tables) (h1 : lv pt = 1) :
    Supervisor (s.setLeaf pt i e) lv := by
  refine ⟨h.inv.setLeaf hpt h1, h.inv.noHuge_setLeaf h.noHuge hpt h1, fun t ht h2 j => ?_⟩
  rw [h.inv.pte_setLeaf hpt ht (by rintro ⟨rfl, _⟩; omega)]
  exact h.entries t ht h2 j

theorem MapStep.supervisor (hs : MapStep s c s') (h : ∃ lv, Supervisor s lv) : ∃ lv, Supervisor s' lv := by
  obtain ⟨lv, h⟩ := h
  obtain ⟨s₁, lv₁, pt, hex, hadds, ht, rfl⟩ := pagingMap_adds h.inv (h.inv.hugeMapped_of_noHuge h.noHuge c.virt) hs
  obtain ⟨hpt, h1⟩ := hex.inv.tableOf_mem ht
  exact ⟨lv₁, (h.adds hex hadds).setLeaf hpt h1⟩

/-- The walk to a page starts at the PML4. -/
theorem Supervisor.not_userWalk (h : Supervisor s lv) (va : ℕ) : ¬ UserWalk s va := by
  intro hw
  have huser := hw.pml4e
  have hroot := h.inv.root_level
  rw [Paging.pml4e, h.entries s.pml4 h.inv.root_mem (by omega)] at huser
  cases huser

/-- **Mappings for user mode.**  After every run of `paging_map` from an empty PML4: all mappings that were made
with `PTE_USER` have it on their whole walk if and only if there are none. -/
theorem paging_map_user_iff (h0 : EmptyPml4 s₀) (h : Run MapStep s₀ calls s) :
    (∀ c ∈ calls, isUser c.flags = true → UserWalk s c.virt) ↔ ∀ c ∈ calls, isUser c.flags = false := by
  obtain ⟨lv, hs⟩ : ∃ lv, Supervisor s lv :=
    h.invariant (I := fun s => ∃ lv, Supervisor s lv) (fun _ _ _ hi hs => hs.supervisor hi) ⟨_, h0.supervisor⟩
  constructor
  · intro hw c hc
    rw [Bool.eq_false_iff]
    exact fun hu => hs.not_userWalk _ (hw c hc hu)
  · intro hno c hc hu
    rw [hno c hc] at hu
    cases hu

/-- A kernel page is no mapping for user mode. -/
theorem paging_map_user_kernel : ∃ s, Run MapStep emptyTables [⟨0x400000, 0x5000000, 3⟩] s ∧
    ∀ c ∈ [(⟨0x400000, 0x5000000, 3⟩ : MapCall)], isUser c.flags = true → UserWalk s c.virt := by
  have hsome : (emptyTables.pagingMap 0x400000 0x5000000 3).toOption.isSome = true := by decide +kernel
  obtain ⟨s, hs⟩ := Option.isSome_iff_exists.mp hsome
  have hrun : Run MapStep emptyTables [⟨0x400000, 0x5000000, 3⟩] s := Run.single (toOption_eq_some.mp hs)
  refine ⟨s, hrun, (paging_map_user_iff emptyTables_empty hrun).mpr ?_⟩
  decide

/-- The first page of the user heap, mapped with `PTE_USER_RW`: only its last entry has `PTE_USER`. -/
theorem paging_map_user_heap : ∃ s, Run MapStep emptyTables [⟨0x400000, 0x5000000, PTE_USER_RW⟩] s ∧
    s.pml4e 0x400000 = 0x2003 ∧ s.pdpte 0x400000 = 0x3003 ∧ s.pde 0x400000 = 0x4003 ∧ s.pte 0x400000 = 0x5000007 ∧
    ¬ ∀ c ∈ [(⟨0x400000, 0x5000000, PTE_USER_RW⟩ : MapCall)], isUser c.flags = true → UserWalk s c.virt := by
  have hany : (emptyTables.pagingMap 0x400000 0x5000000 PTE_USER_RW).toOption.any (fun s => decide (s.pml4e 0x400000 = 0x2003 ∧
      s.pdpte 0x400000 = 0x3003 ∧ s.pde 0x400000 = 0x4003 ∧ s.pte 0x400000 = 0x5000007)) = true := by decide +kernel
  obtain ⟨s, hs, he⟩ := (Option.any_eq_true _ _).mp hany
  obtain ⟨h4, h3, h2, h1⟩ := of_decide_eq_true he
  refine ⟨s, Run.single (toOption_eq_some.mp hs), h4, h3, h2, h1, fun hw => ?_⟩
  have huser := (hw _ List.mem_cons_self (by decide)).pml4e
  rw [h4] at huser
  cases huser

end HeroOS
