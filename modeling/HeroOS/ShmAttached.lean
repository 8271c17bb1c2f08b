import HeroOS.ShmRuns

/-! # Segments that are attached

`shm_attach` and `shm_detach` count the references to a segment, and `shm_destroy` frees its pages
whatever the count is.  So the pages of an attached segment stay allocated, and are not handed out
by the physical memory manager, exactly when no attached segment is destroyed
(`attached_kept_iff`). -/

namespace HeroOS

open Pmm

namespace ShmWorld

variable {s₀ : Pmm} {w w' : ShmWorld} {op : ShmOp} {i p : ℕ} {shmid : ℤ}

/-- The segment has been attached more often than detached. -/
def Attached (w : ShmWorld) (i : ℕ) : Prop := w.detaches i < w.attaches i

/-- The pages of attached segments are in use, and no allocation returns them. -/
def Kept (w : ShmWorld) : Prop :=
  ∀ i, w.Attached i → ∀ p ∈ w.pages i, w.pmm.bitmapTest p = true ∧
    (∀ phys pmm, w.pmm.pmmAllocPage = .ok (pmm, phys) → phys / PAGE_SIZE ≠ p) ∧
    ∀ count phys pmm, 1 ≤ count → w.pmm.pmmAllocPages count = .ok (pmm, phys) →
      p ∉ Finset.Ico (phys / PAGE_SIZE) (phys / PAGE_SIZE + count)

/-- A live segment that is to be destroyed is not attached. -/
def Unattached (w : ShmWorld) : ShmOp → Prop
  | .destroy shmid => ∀ i, shmSlot shmid = some i → (w.shm.regions i).physBase ≠ 0 → ¬ w.Attached i
  | _ => True

instance (w : ShmWorld) (i : ℕ) : Decidable (w.Attached i) := inferInstanceAs (Decidable (_ < _))

instance (w : ShmWorld) : ∀ op, Decidable (w.Unattached op)
  | .destroy shmid =>
      inferInstanceAs (Decidable (∀ i ∈ shmSlot shmid, (w.shm.regions i).physBase ≠ 0 → ¬ w.Attached i))
  | .create _ | .attach _ | .detach _ | .pmm _ => .isTrue trivial

/-- A call on segments, where it destroys no attached segment. -/
def execUnattached (w : ShmWorld) (op : ShmOp) : Option ShmWorld := if w.Unattached op then w.exec op else none

/-- What is attached is live. -/
def AttachedLive (w : ShmWorld) : Prop := ∀ i, w.Attached i → (w.shm.regions i).physBase ≠ 0

end ShmWorld

open ShmWorld

variable {s₀ pmm : Pmm} {w w' : ShmWorld} {op : ShmOp} {i p : ℕ} {shmid : ℤ}

/-- A call that keeps the pages of attached segments. -/
def KeptStep (w : ShmWorld) (op : ShmOp) (w' : ShmWorld) : Prop := ShmStep w op w' ∧ w'.Kept

/-- A call that meets the condition. -/
def UnattachedStep (w : ShmWorld) (op : ShmOp) (w' : ShmWorld) : Prop := ShmStep w op w' ∧ w.Unattached op

/-- The pages of live segments are kept. -/
theorem ShmInv.kept (h : ShmInv s₀ w) (hl : w.AttachedLive) : w.Kept := by
  intro i hi p hp
  have hlive := hl i hi
  rw [(h.live i hlive).2] at hp
  have hused := (h.held_used (by rwa [ShmRegion.held, if_neg hlive] : p ∈ (w.shm.regions i).held)).2
  obtain ⟨lost, hb⟩ := h.books
  refine ⟨hused, ?_, ?_⟩
  · intro phys pmm ha heq
    obtain ⟨q, hq, hal⟩ := pmmAllocPage_spec hb.hint ha
    rw [page_of_phys hq] at heq
    have hfree := hal.wasFree q ⟨le_rfl, by omega⟩
    rw [heq, hused] at hfree
    cases hfree
  · intro count phys pmm hc ha hmem
    obtain ⟨q, hq, hal⟩ := pmmAllocPages_spec hc hb.hint hb.free_lt ha
    rw [page_of_phys hq] at hmem
    have hfree := hal.wasFree p (Finset.mem_Ico.mp hmem)
    rw [hused] at hfree
    cases hfree

/-- A new segment is not attached. -/
theorem ShmWorld.AttachedLive.created (hl : w.AttachedLive) (n p : ℕ) :
    (w.created (w.shm.newRegion n p) pmm w.shm.nextShmid).AttachedLive := by
  unfold ShmWorld.created
  rw [if_neg (by omega)]
  intro i hi
  unfold ShmWorld.Attached at hi
  dsimp only at hi ⊢
  rw [Int.toNat_natCast] at hi
  by_cases hin : i = w.shm.nextShmid
  · rw [hin, Function.update_self, Function.update_self] at hi
    exact absurd hi (lt_irrefl 0)
  · rw [Function.update_of_ne hin, Function.update_of_ne hin] at hi
    have hother : (w.shm.newRegion n p).regions i = w.shm.regions i := Function.update_of_ne hin _ _
    rw [hother]
    exact hl i hi

/-- `shm_attach` returns no address for a segment that is not live. -/
theorem shmAttach_of_dead (hdead : (w.shm.regions shmid.toNat).physBase = 0) : (w.shm.shmAttach shmid).2 = 0 := by
  unfold Shm.shmAttach
  cases hslot : shmSlot shmid with
  | none => rfl
  | some j =>
      obtain ⟨rfl, _⟩ := shmSlot_eq_some.mp hslot
      rw [Int.toNat_natCast] at hdead
      dsimp only
      rw [if_pos hdead]

theorem ShmWorld.AttachedLive.attached (hl : w.AttachedLive) (shmid : ℤ) : (w.attached shmid).AttachedLive := by
  intro i hi hdead
  have hbase : ((w.attached shmid).shm.regions i).physBase = (w.shm.regions i).physBase :=
    (w.shm.sameRegions_attach shmid).base i
  rw [hbase] at hdead
  unfold ShmWorld.attached ShmWorld.Attached at hi
  dsimp only at hi
  split at hi
  · exact hl i hi hdead
  · rename_i hsome
    unfold bump at hi
    by_cases hii : i = shmid.toNat
    · rw [hii] at hdead
      exact hsome (shmAttach_of_dead hdead)
    · rw [Function.update_of_ne hii] at hi
      exact hl i hi hdead

/-- `shm_detach` attaches nothing. -/
theorem attached_of_detached (h : (w.detached shmid).Attached i) : w.Attached i := by
  unfold ShmWorld.detached ShmWorld.Attached at h
  unfold ShmWorld.Attached
  dsimp only at h
  cases hslot : shmSlot shmid with
  | none => rwa [hslot] at h
  | some j =>
      rw [hslot] at h
      dsimp only [bump] at h
      by_cases hij : i = j
      · subst hij
        rw [Function.update_self] at h
        omega
      · rwa [Function.update_of_ne hij] at h

theorem ShmWorld.AttachedLive.detached (hl : w.AttachedLive) (shmid : ℤ) : (w.detached shmid).AttachedLive := by
  intro i hi h0
  have hbase := (w.shm.sameRegions_detach shmid).base i
  exact hl i (attached_of_detached hi) (hbase.symm.trans h0)

/-- A segment that is freed was not attached. -/
theorem ShmWorld.AttachedLive.destroyed (hl : w.AttachedLive) (h : ShmInv s₀ w) (hu : w.Unattached (.destroy shmid)) :
    (w.destroyed shmid).AttachedLive := by
  obtain ⟨j, rfl, hslot, hlive⟩ | ⟨_, hsame⟩ := w.destroyed_cases shmid
  · have hno := hu j (shmSlot_natCast hslot) hlive
    intro i hi
    rw [(h.freed hlive).1]
    have hij : i ≠ j := fun he => hno (he ▸ hi)
    have hother : (w.shm.freed j).regions i = w.shm.regions i := Function.update_of_ne hij _ _
    rw [hother]
    exact hl i hi
  · rwa [hsame]

/-- A call that destroys no attached segment keeps what is attached live. -/
theorem ShmStep.attachedLive (hs : ShmStep w op w') (h : ShmInv s₀ w) (hl : w.AttachedLive)
    (hu : w.Unattached op) : w'.AttachedLive := by
  obtain ⟨lost, hb⟩ := h.books
  cases hs with
  | create hsize hc =>
      obtain ⟨rfl, rfl, _⟩ | ⟨n, p, rfl, _, _, _, _, _, _, _, rfl⟩ :=
        Shm.shmCreate_cases hsize hb.hint hb.free_lt hc
      · exact hl
      · exact hl.created n p
  | attach shmid => exact hl.attached shmid
  | detach shmid => exact hl.detached shmid
  | destroy shmid => exact hl.destroyed h hu
  | pmm hp => exact hl

/-- **One call** keeps the pages of attached segments exactly when it destroys none of them. -/
theorem ShmStep.kept_iff (hs : ShmStep w op w') (h : ShmInv s₀ w) (hl : w.AttachedLive) :
    w'.Kept ↔ w.Unattached op := by
  refine ⟨fun hk => ?_, fun hu => (hs.inv h).kept (hs.attachedLive h hl hu)⟩
  cases hs with
  | create => trivial
  | attach => trivial
  | detach => trivial
  | pmm => trivial
  | destroy shmid =>
      intro i hi hlive hatt
      have htarget : w.target shmid = (w.shm.regions i).pages := by
        unfold ShmWorld.target
        rw [hi]
        exact if_neg hlive
      obtain ⟨⟨p, hp⟩, hpages⟩ := h.live i hlive
      have hused := (hk i hatt p (by rw [← hpages] at hp; exact hp)).1
      exact ((h.destroyed_test shmid p).mp hused).2 (htarget ▸ hp)

/-- **When attached segments are kept.**  In a run of `shm_create`, `shm_attach`, `shm_detach` and
`shm_destroy` by any clients, between allocations and releases of others, after every call the pages
of the segments with more successful attaches than detaches are in use and not returned by any
allocation, exactly when no such segment is destroyed. -/
theorem attached_kept_iff {ops : List ShmOp} (hh : s₀.lastFreeHint ≤ PMM_MAX_PAGES) (hf : s₀.freePhysPages < 2 ^ 64) :
    Run KeptStep (.init s₀) ops w ↔ Run UnattachedStep (.init s₀) ops w := by
  have h0 : ShmInv s₀ (.init s₀) ∧ (ShmWorld.init s₀).AttachedLive :=
    ⟨.init hh hf, fun _ h => absurd h (lt_irrefl 0)⟩
  apply Run.iff_of_invariant (I := fun w => ShmInv s₀ w ∧ w.AttachedLive) ?_ ?_ h0
  · rintro w op w' ⟨h, hl⟩
    exact and_congr_right fun hs => hs.kept_iff h hl
  · rintro w op w' ⟨h, hl⟩ _ ⟨hs, hu⟩
    exact ⟨hs.inv h, hs.attachedLive h hl hu⟩

/-- A segment that is detached before it is destroyed. -/
theorem attached_kept_detached :
    ∃ w, Run KeptStep (.init pageZeroUsed) [.create 5000, .attach 0, .attach 0, .detach 0, .detach 0, .destroy 0] w := by
  have hrun : ([.create 5000, .attach 0, .attach 0, .detach 0, .detach 0, .destroy 0].foldlM execUnattached
      (.init pageZeroUsed)).isSome = true := by decide +kernel
  obtain ⟨w, hw⟩ := Option.isSome_iff_exists.mp hrun
  refine ⟨w, (attached_kept_iff (by decide) (by norm_num [pageZeroUsed])).mpr (Run.of_exec ?_ hw)⟩
  intro w op w' h
  unfold execUnattached at h
  split at h
  · rename_i hu
    exact ⟨.of_exec h, hu⟩
  · cases h

/-- A client creates and attaches a segment, another destroys it, and the page is handed out again. -/
theorem destroyed_while_attached : ¬ ∀ (ops : List ShmOp) (w : ShmWorld),
    Run ShmStep (.init pageZeroUsed) ops w → w.Kept := by
  intro hall
  have hrun : ([.create 4096, .attach 0, .destroy 0].foldlM ShmWorld.exec (.init pageZeroUsed)).any
      (fun w => decide (w.Attached 0 ∧ w.pages 0 = Finset.Ico 1 2) &&
        w.pmm.pmmAllocPage.toOption.any (fun r => decide (r.2 / PAGE_SIZE = 1))) = true := by decide +kernel
  obtain ⟨w, hw, hp⟩ := (Option.any_eq_true _ _).mp hrun
  rw [Bool.and_eq_true] at hp
  obtain ⟨hatt, hpages⟩ := of_decide_eq_true hp.1
  have hkept := hall _ w (Run.of_exec (fun _ _ _ => ShmStep.of_exec) hw) 0 hatt 1 (by rw [hpages]; decide)
  cases ha : w.pmm.pmmAllocPage with
  | error e =>
      rw [ha] at hp
      cases hp.2
  | ok r =>
      rw [ha] at hp
      exact hkept.2.1 r.2 r.1 ha (of_decide_eq_true hp.2)

end HeroOS
