import HeroOS.Pmm
import HeroOS.Ledger
import HeroOS.Run

/-! # Ownership of physical pages over whole runs

Clients of the physical memory manager allocate single pages and contiguous runs and free what
they hold, whole or page by page, in any order.  `PmmStep` runs the manager beside the ledger of
outstanding allocations; `Accounts` says that the bitmap is the initial one with the outstanding
pages added and that the free counter is lower by their number.  Every step keeps it
(`PmmStep.accounts`). -/

namespace HeroOS.Pmm

open Word

/-- Calls of the allocator's clients. -/
inductive Op where
  | allocPage
  | allocPages (count : ℕ)
  | freePage (phys : ℕ)
  | freePages (phys count : ℕ)

/-- The ledger after the pages `i, …, i + n - 1` from `page` have been freed. -/
def releasePages (page : ℕ) : ℕ → ℕ → Ledger ℕ → Ledger ℕ
  | 0, _, l => l
  | n + 1, i, l => releasePages page n (i + 1) (l.release (page + i))

/-- A call together with its effect on the outstanding allocations.  Only outstanding pages
are freed. -/
inductive PmmStep : Pmm × Ledger ℕ → Op → Pmm × Ledger ℕ → Prop
  | allocPage {s s' : Pmm} {l : Ledger ℕ} {phys : ℕ} :
      s.pmmAllocPage = .ok (s', phys) →
      PmmStep (s, l) .allocPage (s', {phys / PAGE_SIZE} :: l)
  | allocPages {s s' : Pmm} {l : Ledger ℕ} {count phys : ℕ} :
      1 ≤ count → s.pmmAllocPages count = .ok (s', phys) →
      PmmStep (s, l) (.allocPages count)
        (s', Finset.Ico (phys / PAGE_SIZE) (phys / PAGE_SIZE + count) :: l)
  | freePage {s : Pmm} {l : Ledger ℕ} {phys : ℕ} :
      l.Holds (phys / PAGE_SIZE) →
      PmmStep (s, l) (.freePage phys) (s.pmmFreePage phys, l.release (phys / PAGE_SIZE))
  | freePages {s : Pmm} {l : Ledger ℕ} {phys count : ℕ} :
      (∀ i < count, l.Holds (phys / PAGE_SIZE + i)) →
      PmmStep (s, l) (.freePages phys count)
        (s.pmmFreePages phys count, releasePages (phys / PAGE_SIZE) count 0 l)

/-- The state `s` is the initial state `s₀` with the pages of the ledger taken. -/
structure Accounts (s₀ s : Pmm) (l : Ledger ℕ) : Prop where
  disjoint : l.Pairwise Disjoint
  held : ∀ p, l.Holds p → p < PMM_MAX_PAGES ∧ s₀.bitmapTest p = false
  test_iff : ∀ p, s.bitmapTest p = true ↔ l.Holds p ∨ s₀.bitmapTest p = true
  free : wadd s.freePhysPages l.total = s₀.freePhysPages
  free_lt : s.freePhysPages < 2 ^ 64
  hint : s.lastFreeHint ≤ PMM_MAX_PAGES

variable {s₀ s s' : Pmm} {l : Ledger ℕ}

theorem Accounts.init (hh : s₀.lastFreeHint ≤ PMM_MAX_PAGES) (hf : s₀.freePhysPages < 2 ^ 64) :
    Accounts s₀ s₀ [] := by
  have hnone : ∀ p, ¬ Ledger.Holds ([] : Ledger ℕ) p := fun p => Ledger.not_holds_of_empty (by simp)
  refine ⟨.nil, fun p hp => absurd hp (hnone p), fun p => ?_, wadd_of_lt hf, hf, hh⟩
  constructor
  · intro h
    exact .inr h
  · rintro (h | h)
    · exact absurd h (hnone p)
    · exact h

/-- An allocation takes pages that were free and that nobody held. -/
theorem Accounts.alloc {n p : ℕ} (h : Accounts s₀ s l) (ha : Allocates s n s' p) :
    Accounts s₀ s' (Finset.Ico p (p + n) :: l) := by
  have hfree : ∀ q ∈ Finset.Ico p (p + n), ¬ (l.Holds q ∨ s₀.bitmapTest q = true) := by
    intro q hq hu
    rw [← h.test_iff q, ha.wasFree q (Finset.mem_Ico.mp hq)] at hu
    cases hu
  refine ⟨?_, ?_, ?_, ?_, ?_, ha.hint h.hint⟩
  · refine List.pairwise_cons.mpr ⟨fun o ho => Finset.disjoint_left.mpr (fun q hq hqo => ?_), h.disjoint⟩
    exact hfree q hq (.inl ⟨o, ho, hqo⟩)
  · intro q hq
    rcases Ledger.holds_cons.mp hq with hq | hq
    · have hb := ha.bound
      have hlt := (Finset.mem_Ico.mp hq).2
      exact ⟨by omega, by simpa using fun hu => hfree q hq (.inr hu)⟩
    · exact h.held q hq
  · intro q
    rw [ha.test_iff, h.test_iff, Ledger.holds_cons, Finset.mem_Ico, Set.mem_Ico, or_assoc]
  · have hf := h.free
    rw [ha.count, Ledger.total_cons, Nat.card_Ico]
    unfold wadd wsub at *
    omega
  · rw [ha.count]
    exact wsub_lt _ _

/-- Freeing an outstanding page gives it back. -/
theorem Accounts.freePage {phys : ℕ} (h : Accounts s₀ s l) (hp : l.Holds (phys / PAGE_SIZE)) :
    Accounts s₀ (s.pmmFreePage phys) (l.release (phys / PAGE_SIZE)) := by
  have hu : s.bitmapTest (phys / PAGE_SIZE) = true := (h.test_iff _).mpr (.inl hp)
  obtain ⟨htest, hcount, hhint⟩ := pmmFreePage_of_used (h.held _ hp).1 hu
  refine ⟨Ledger.pairwise_release h.disjoint _, ?_, ?_, ?_, ?_, hhint h.hint⟩
  · intro q hq
    exact h.held q (Ledger.holds_release.mp hq).2
  · intro q
    rw [htest, Bool.and_eq_true, Bool.not_eq_true', decide_eq_false_iff_not, h.test_iff,
      Ledger.holds_release]
    constructor
    · rintro ⟨hne, hl | h0⟩
      · exact .inl ⟨hne, hl⟩
      · exact .inr h0
    · rintro (⟨hne, hl⟩ | h0)
      · exact ⟨hne, .inl hl⟩
      · refine ⟨fun e => ?_, .inr h0⟩
        rw [e, (h.held _ hp).2] at h0
        cases h0
  · have hf := h.free
    have ht := Ledger.total_release h.disjoint hp
    rw [hcount]
    unfold wadd at *
    omega
  · rw [hcount]
    exact wadd_lt _ _

/-- The loop of `pmm_free_pages` frees the pages one by one. -/
theorem Accounts.freeLoop {phys : ℕ} : ∀ (n i : ℕ) {s : Pmm} {l : Ledger ℕ}, Accounts s₀ s l →
    (∀ j, i ≤ j → j < i + n → l.Holds (phys / PAGE_SIZE + j)) →
    Accounts s₀ (s.freeLoop phys n i) (releasePages (phys / PAGE_SIZE) n i l)
  | 0, _, _, _, h, _ => h
  | n + 1, i, s, l, h, hp => by
      have hi := hp i le_rfl (by omega)
      have hb := (h.held _ hi).1
      -- outstanding pages are below 4 GiB, so no address of the loop wraps
      have hpage : wadd phys (wmul i PAGE_SIZE) / PAGE_SIZE = phys / PAGE_SIZE + i := by
        unfold PAGE_SIZE PMM_MAX_PAGES at *
        rw [wmul_of_lt (by omega), wadd_of_lt (by omega)]
        omega
      have h' : Accounts s₀ (s.pmmFreePage (wadd phys (wmul i PAGE_SIZE)))
          (l.release (phys / PAGE_SIZE + i)) := by
        rw [← hpage] at hi ⊢
        exact h.freePage hi
      refine Accounts.freeLoop n (i + 1) h' (fun j h1 h2 => Ledger.holds_release.mpr ⟨by omega, ?_⟩)
      exact hp j (by omega) (by omega)

/-- **Every call keeps the books.** -/
theorem PmmStep.accounts {c c' : Pmm × Ledger ℕ} {op : Op} (hs : PmmStep c op c')
    (h : Accounts s₀ c.1 c.2) : Accounts s₀ c'.1 c'.2 := by
  cases hs with
  | allocPage ha =>
      obtain ⟨p, hp, hal⟩ := pmmAllocPage_spec h.hint ha
      rw [page_of_phys hp]
      have := h.alloc hal
      rwa [Nat.Ico_succ_singleton] at this
  | allocPages hn ha =>
      obtain ⟨p, hp, hal⟩ := pmmAllocPages_spec hn h.hint h.free_lt ha
      rw [page_of_phys hp]
      exact h.alloc hal
  | freePage hp => exact h.freePage hp
  | freePages hp => exact Accounts.freeLoop _ 0 h (fun j _ hj => hp j (by omega))

/-! ### Frames -/

theorem Accounts.perm {l' : Ledger ℕ} (h : Accounts s₀ s l) (hp : l.Perm l') : Accounts s₀ s l' := by
  refine ⟨Ledger.pairwise_perm hp h.disjoint, fun p hl => h.held p ((Ledger.holds_perm hp).mpr hl), fun p => ?_, ?_,
    h.free_lt, h.hint⟩
  · rw [h.test_iff, Ledger.holds_perm hp]
  · rw [← Ledger.total_perm hp]
    exact h.free

theorem releasePages_append {k : Ledger ℕ} {page : ℕ} (n i : ℕ) {l : Ledger ℕ}
    (h : ∀ j, i ≤ j → j < i + n → ¬ k.Holds (page + j)) :
    releasePages page n i (k ++ l) = k ++ releasePages page n i l := by
  induction n generalizing i l with
  | zero => rfl
  | succ n ih =>
      rw [releasePages, releasePages, Ledger.release_append_right (h i le_rfl (by omega))]
      exact ih (i + 1) fun j h1 h2 => h j (by omega) (by omega)

/-- Freeing a run takes its pages from all holdings. -/
theorem releasePages_eq (page n i : ℕ) (l : Ledger ℕ) :
    releasePages page n i l = l.without (Finset.Ico (page + i) (page + i + n)) := by
  induction n generalizing i l with
  | zero =>
      rw [releasePages, Nat.add_zero, Finset.Ico_self, Ledger.without_of_disjoint]
      exact fun o _ => Finset.disjoint_empty_right o
  | succ n ih =>
      rw [releasePages, ih]
      unfold Ledger.without Ledger.release
      rw [List.map_map]
      apply List.map_congr_left
      intro o _
      ext q
      simp only [Function.comp_apply, Finset.mem_sdiff, Finset.mem_erase, Finset.mem_Ico]
      constructor
      · rintro ⟨⟨hne, hq⟩, hout⟩
        exact ⟨hq, by omega⟩
      · rintro ⟨hq, hout⟩
        exact ⟨⟨by omega, hq⟩, by omega⟩

/-- Freeing an outstanding run. -/
theorem Accounts.freePages {phys n : ℕ} (h : Accounts s₀ s l) (hp : ∀ j < n, l.Holds (phys / PAGE_SIZE + j)) :
    Accounts s₀ (s.pmmFreePages phys n) (l.without (Finset.Ico (phys / PAGE_SIZE) (phys / PAGE_SIZE + n))) := by
  have hloop : Accounts s₀ (s.freeLoop phys n 0) _ := h.freeLoop n 0 fun j _ hj => hp j (by omega)
  rwa [releasePages_eq, Nat.add_zero] at hloop

/-- It clears the bits of the run and no others. -/
theorem Accounts.freePages_test {phys n : ℕ} (h : Accounts s₀ s l)
    (hp : ∀ j < n, l.Holds (phys / PAGE_SIZE + j)) (q : ℕ) : (s.pmmFreePages phys n).bitmapTest q = true ↔
      s.bitmapTest q = true ∧ q ∉ Finset.Ico (phys / PAGE_SIZE) (phys / PAGE_SIZE + n) := by
  rw [(h.freePages hp).test_iff, h.test_iff, Ledger.holds_without]
  constructor
  · rintro (⟨hq, hn⟩ | h0)
    · exact ⟨.inl hq, hn⟩
    · refine ⟨.inr h0, fun hmem => ?_⟩
      obtain ⟨hle, hlt⟩ := Finset.mem_Ico.mp hmem
      have hq := hp (q - phys / PAGE_SIZE) (by omega)
      rw [Nat.add_sub_cancel' hle] at hq
      rw [(h.held q hq).2] at h0
      cases h0
  · rintro ⟨hq | h0, hn⟩
    · exact .inl ⟨hq, hn⟩
    · exact .inr h0

/-- **Frame rule**: a call of some clients keeps the books beside the holdings `k` of the others. -/
theorem PmmStep.frame {k l' : Ledger ℕ} {op : Op} (hs : PmmStep (s, l) op (s', l')) (h : Accounts s₀ s (k ++ l)) :
    Accounts s₀ s' (k ++ l') := by
  cases hs with
  | allocPage ha =>
      have h' := (PmmStep.allocPage ha : PmmStep (s, k ++ l) _ _).accounts h
      exact h'.perm List.perm_middle.symm
  | allocPages hn ha =>
      have h' := (PmmStep.allocPages hn ha : PmmStep (s, k ++ l) _ _).accounts h
      exact h'.perm List.perm_middle.symm
  | freePage hp =>
      rw [← Ledger.release_append_right (Ledger.not_holds_left h.disjoint hp)]
      exact h.freePage (Ledger.holds_append.mpr (.inr hp))
  | freePages hp =>
      rw [← releasePages_append _ 0 fun j _ hj => Ledger.not_holds_left h.disjoint (hp j (by omega))]
      exact Accounts.freeLoop _ 0 h (fun j _ hj => Ledger.holds_append.mpr (.inr (hp j (by omega))))

/-! ### Runs -/

/-- The pages an allocation returns in an accounted state were free and are new to the clients. -/
theorem Accounts.fresh {n p : ℕ} (h : Accounts s₀ s l) (ha : Allocates s n s' p) :
    ∀ q ∈ Set.Ico p (p + n), s.bitmapTest q = false ∧ ¬ l.Holds q ∧ s₀.bitmapTest q = false := by
  intro q hq
  have hf := ha.wasFree q hq
  have hn : ¬ (l.Holds q ∨ s₀.bitmapTest q = true) := by
    rw [← h.test_iff q, hf]
    simp
  exact ⟨hf, fun hl => hn (.inl hl), by simpa using fun hu => hn (.inr hu)⟩

/-- When nothing is outstanding the manager is back in its initial state. -/
theorem Accounts.restored (h : Accounts s₀ s l) (he : ∀ o ∈ l, o = ∅) :
    s.bitmap = s₀.bitmap ∧ s.freePhysPages = s₀.freePhysPages := by
  constructor
  · apply BitArray.ext_test
    intro p
    apply Bool.eq_iff_iff.mpr
    refine (h.test_iff p).trans ⟨?_, .inr⟩
    rintro (hl | h0)
    · exact absurd hl (Ledger.not_holds_of_empty he)
    · exact h0
  · have hf := h.free
    rw [Ledger.total_of_empty he, wadd_of_lt (by have := h.free_lt; omega)] at hf
    exact hf

/-- **Page ownership.**  After any run of allocations and of releases of outstanding pages, from
any initial bitmap and any hint: whatever is allocated next consists of pages that are free, that
nobody holds and that were free initially; outstanding allocations are pairwise disjoint and
never contain a page used initially; and with nothing outstanding, bitmap and free counter are
the initial ones. -/
theorem pmm_runs_account {ops : List Op} (hh : s₀.lastFreeHint ≤ PMM_MAX_PAGES)
    (hf : s₀.freePhysPages < 2 ^ 64) (h : Run PmmStep (s₀, []) ops (s, l)) :
    (∀ phys s', s.pmmAllocPage = .ok (s', phys) →
      s.bitmapTest (phys / PAGE_SIZE) = false ∧ ¬ l.Holds (phys / PAGE_SIZE) ∧
        s₀.bitmapTest (phys / PAGE_SIZE) = false) ∧
    (∀ count phys s', 1 ≤ count → s.pmmAllocPages count = .ok (s', phys) → ∀ i < count,
      s.bitmapTest (phys / PAGE_SIZE + i) = false ∧ ¬ l.Holds (phys / PAGE_SIZE + i) ∧
        s₀.bitmapTest (phys / PAGE_SIZE + i) = false) ∧
    l.Pairwise Disjoint ∧
    (∀ p, l.Holds p → s₀.bitmapTest p = false) ∧
    ((∀ o ∈ l, o = ∅) → s.bitmap = s₀.bitmap ∧ s.freePhysPages = s₀.freePhysPages) := by
  have hacc : Accounts s₀ s l :=
    h.invariant (I := fun c => Accounts s₀ c.1 c.2) (fun _ _ _ h0 hs => hs.accounts h0)
      (Accounts.init hh hf)
  refine ⟨?_, ?_, hacc.disjoint, fun p hp => (hacc.held p hp).2, hacc.restored⟩
  · intro phys s' ha
    obtain ⟨p, hp, hal⟩ := pmmAllocPage_spec hacc.hint ha
    rw [page_of_phys hp]
    exact hacc.fresh hal p ⟨le_rfl, by omega⟩
  · intro count phys s' hn ha i hi
    obtain ⟨p, hp, hal⟩ := pmmAllocPages_spec hn hacc.hint hacc.free_lt ha
    rw [page_of_phys hp]
    exact hacc.fresh hal (p + i) ⟨by omega, by omega⟩

/-- Two clients, one giving its run back whole and one its single page. -/
theorem pmm_runs_account_two_clients :
    ∃ s l, Run PmmStep (⟨fun _ => 0#64, 8, 8, 0⟩, [])
        [.allocPages 2, .allocPage, .freePages 0 2, .freePage 8192] (s, l) ∧
      s.bitmap = (fun _ => 0#64) ∧ s.freePhysPages = 8 := by
  have hrun : Run PmmStep (⟨fun _ => 0#64, 8, 8, 0⟩, [])
      [.allocPages 2, .allocPage, .freePages 0 2, .freePage 8192] (_, _) :=
    .cons (.allocPages (by norm_num) rfl) (.cons (.allocPage rfl)
      (.cons (.freePages (by decide)) (.cons (.freePage (by decide)) (.nil _))))
  exact ⟨_, _, hrun, (pmm_runs_account (by decide) (by norm_num) hrun).2.2.2.2 (by decide)⟩

end HeroOS.Pmm
