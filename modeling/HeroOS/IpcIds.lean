import HeroOS.IdPool
import HeroOS.MsgQueue
import HeroOS.ShmRuns

/-! # Identifiers of message queues and segments

`msgq_create` and `shm_create` of `kernel/ipc/ipc.c` count their identifiers up to 64 and never look for
a slot that a destroyed queue or segment has left.  Both tables are pools of identifiers in the sense of
`IdPool` (`QueueWorld.pool_exec`, `SegmentStep.pool`).

`ipc_ids_reused_iff`: a create call fails only when 64 objects are live exactly in the runs without a
create call after 64 have been created and one of them destroyed.  No two live objects ever share an
identifier. -/

namespace HeroOS

open Word Pmm IdPool

/-! ### Message queues -/

/-- The identifiers of the live queues. -/
def MsgTable.live (t : MsgTable) : Finset ℕ := (Finset.range 64).filter (fun i => (t.queues i).isSome)

/-- The table, and the number of queues destroyed. -/
structure QueueWorld where
  table : MsgTable
  destroyed : ℕ

/-- Calls of `msgq_create` and `msgq_destroy`. -/
inductive QueueOp where
  | create
  | destroy (qid : ℤ)
deriving DecidableEq, Repr

namespace QueueWorld

/-- No queues. -/
def init : QueueWorld := ⟨.empty, 0⟩

/-- One call; the allocation of `msgq_create` succeeds. -/
def exec (w : QueueWorld) : QueueOp → QueueWorld
  | .create => { w with table := (w.table.msgqCreate true).1 }
  | .destroy qid =>
      { table := w.table.msgqDestroy qid
        destroyed := if (w.table.lookup qid).isSome then w.destroyed + 1 else w.destroyed }

/-- The identifiers as a pool. -/
def pool (w : QueueWorld) : IdPool := ⟨w.table.nextQid, w.table.live, w.destroyed⟩

/-- The call of `msgq_create` in this state returns an identifier unless 64 queues are live. -/
def CreateFailsFull (w : QueueWorld) (op : QueueOp) : Prop :=
  op = .create → (w.table.msgqCreate true).2 = -1 → w.table.live.card = 64

/-- No two live queues have one identifier. -/
def IdsDistinct (w : QueueWorld) : Prop :=
  ∀ i j q q', w.table.queues i = some q → w.table.queues j = some q' → q.id = q'.id → i = j

/-- A call of `msgq_create` comes while fewer than 64 queues have been created or none destroyed. -/
def CreateInTime (w : QueueWorld) (op : QueueOp) : Prop := op = .create → w.table.nextQid < 64 ∨ w.destroyed = 0

end QueueWorld

/-- One call. -/
def QueueStep (w : QueueWorld) (op : QueueOp) (w' : QueueWorld) : Prop := w' = w.exec op

/-- What every call keeps. -/
structure QueueWorld.Inv (w : QueueWorld) : Prop where
  sound : Sound 64 w.pool
  ids : ∀ i q, w.table.queues i = some q → i < 64 ∧ q.id = i

namespace QueueWorld

variable {w : QueueWorld}

theorem Inv.init : Inv .init := ⟨.empty 64, fun _ _ h => by cases h⟩

theorem Inv.mem_live (h : Inv w) {i : ℕ} : i ∈ w.table.live ↔ (w.table.queues i).isSome = true := by
  unfold MsgTable.live
  rw [Finset.mem_filter, Finset.mem_range]
  refine ⟨fun hi => hi.2, fun hi => ⟨?_, hi⟩⟩
  obtain ⟨q, hq⟩ := Option.isSome_iff_exists.mp hi
  exact (h.ids i q hq).1

theorem Inv.distinct (h : Inv w) : w.IdsDistinct := fun i j q q' hi hj he =>
  ((h.ids i q hi).2.symm.trans he).trans (h.ids j q' hj).2

/-- `msgq_create` is a creation in the pool. -/
theorem Inv.create (h : Inv w) : Inv (w.exec .create) ∧ (w.exec .create).pool = w.pool.create 64 := by
  by_cases hlt : w.table.nextQid < 64
  · have hcreate : w.table.msgqCreate true = ({ w.table.set w.table.nextQid (some (.fresh w.table.nextQid)) with
        nextQid := w.table.nextQid + 1 }, (w.table.nextQid : ℤ)) := by
      unfold MsgTable.msgqCreate
      rw [if_neg (not_le.mpr hlt)]
      rfl
    have hexec : w.exec .create = ⟨⟨Function.update w.table.queues w.table.nextQid (some (.fresh w.table.nextQid)),
        w.table.nextQid + 1⟩, w.destroyed⟩ := by
      rw [exec, hcreate]
      rfl
    have hpool : (w.exec .create).pool = w.pool.create 64 := by
      have hnext : w.pool.next < 64 := hlt
      unfold IdPool.create
      rw [if_pos hnext, hexec]
      unfold pool
      congr 1
      ext i
      rw [Finset.mem_insert, h.mem_live]
      unfold MsgTable.live
      rw [Finset.mem_filter, Finset.mem_range]
      dsimp only
      by_cases hi : i = w.table.nextQid
      · subst hi
        simp [hlt]
      · rw [Function.update_of_ne hi]
        simp only [hi, false_or, and_iff_right_iff_imp]
        intro hsome
        obtain ⟨q, hq⟩ := Option.isSome_iff_exists.mp hsome
        exact (h.ids i q hq).1
    refine ⟨⟨hpool ▸ h.sound.create, fun i q hq => ?_⟩, hpool⟩
    rw [hexec] at hq
    dsimp only at hq
    by_cases hi : i = w.table.nextQid
    · rw [hi, Function.update_self] at hq
      obtain rfl := Option.some.inj hq
      exact ⟨hi ▸ hlt, hi.symm⟩
    · rw [Function.update_of_ne hi] at hq
      exact h.ids i q hq
  · have hexec : w.exec .create = w := by
      unfold exec MsgTable.msgqCreate
      rw [if_pos (not_lt.mp hlt)]
    have hpool : w.pool.create 64 = w.pool := if_neg hlt
    rw [hexec, hpool]
    exact ⟨h, rfl⟩

/-- `msgq_destroy` is a destruction in the pool, or does nothing. -/
theorem Inv.destroy (h : Inv w) (qid : ℤ) : Inv (w.exec (.destroy qid)) ∧
    ((w.exec (.destroy qid)).pool = w.pool ∨ (w.exec (.destroy qid)).pool = w.pool.destroy qid.toNat) := by
  cases hq : w.table.lookup qid with
  | none =>
      have hexec : w.exec (.destroy qid) = w := by
        unfold exec MsgTable.msgqDestroy
        simp only [hq]
        rfl
      rw [hexec]
      exact ⟨h, .inl rfl⟩
  | some q =>
      obtain ⟨hpos, hslot⟩ := MsgTable.lookup_eq_some hq
      have hexec : w.exec (.destroy qid) =
          ⟨⟨Function.update w.table.queues qid.toNat none, w.table.nextQid⟩, w.destroyed + 1⟩ := by
        unfold exec MsgTable.msgqDestroy
        simp only [hq]
        rfl
      have hlive : qid.toNat ∈ w.pool.live := h.mem_live.mpr (by rw [hslot]; rfl)
      have hpool : (w.exec (.destroy qid)).pool = w.pool.destroy qid.toNat := by
        unfold IdPool.destroy
        rw [if_pos hlive, hexec]
        unfold pool
        congr 1
        ext i
        rw [Finset.mem_erase, h.mem_live]
        unfold MsgTable.live
        rw [Finset.mem_filter, Finset.mem_range]
        dsimp only
        by_cases hi : i = qid.toNat
        · subst hi
          simp
        · rw [Function.update_of_ne hi]
          simp only [ne_eq, hi, not_false_eq_true, true_and, and_iff_right_iff_imp]
          intro hsome
          obtain ⟨q, hq⟩ := Option.isSome_iff_exists.mp hsome
          exact (h.ids i q hq).1
      refine ⟨⟨hpool ▸ h.sound.destroy _, fun i q' hq' => ?_⟩, .inr hpool⟩
      rw [hexec] at hq'
      dsimp only at hq'
      by_cases hi : i = qid.toNat
      · rw [hi, Function.update_self] at hq'
        cases hq'
      · rw [Function.update_of_ne hi] at hq'
        exact h.ids i q' hq'

theorem Inv.step (h : Inv w) (op : QueueOp) : Inv (w.exec op) := by
  cases op with
  | create => exact h.create.1
  | destroy qid => exact (h.destroy qid).1

/-- `msgq_create` fails exactly when all identifiers have been given out. -/
theorem msgqCreate_fails_iff (t : MsgTable) : (t.msgqCreate true).2 = -1 ↔ 64 ≤ t.nextQid := by
  unfold MsgTable.msgqCreate
  split
  · rename_i hge
    exact ⟨fun _ => hge, fun _ => rfl⟩
  · rename_i hlt
    simp only [Bool.not_true, Bool.false_eq_true, if_false]
    omega

theorem Inv.createFailsFull_iff (h : Inv w) (op : QueueOp) : w.CreateFailsFull op ↔ w.CreateInTime op := by
  unfold CreateFailsFull CreateInTime
  rw [msgqCreate_fails_iff]
  exact imp_congr_right fun _ => h.sound.full_iff

end QueueWorld

/-! ### Segments -/

/-- The identifiers of the live segments. -/
def Shm.live (s : Shm) : Finset ℕ := (Finset.range SHM_MAX_SEGS).filter (fun i => (s.regions i).physBase ≠ 0)

/-- The segments with the other clients of the page allocator, and the number of segments destroyed. -/
structure SegmentWorld where
  world : ShmWorld
  destroyed : ℕ

namespace SegmentWorld

/-- No segments. -/
def init (s₀ : Pmm) : SegmentWorld := ⟨.init s₀, 0⟩

/-- The identifiers as a pool. -/
def pool (w : SegmentWorld) : IdPool := ⟨w.world.shm.nextShmid, w.world.shm.live, w.destroyed⟩

/-- A call of `shm_create` has a valid size, and its allocation succeeds if there is one. -/
def AllocationSucceeds (w : SegmentWorld) (op : ShmOp) : Prop :=
  ∀ size, op = .create size → 0 < size ∧ size ≤ SHM_MAX_SIZE ∧ (w.world.shm.nextShmid < SHM_MAX_SEGS →
    ∃ pmm phys, w.world.pmm.pmmAllocPages (alignUp size PAGE_SIZE / PAGE_SIZE) = .ok (pmm, phys) ∧ phys ≠ 0)

/-- The call destroys a live segment. -/
def Destroys (w : SegmentWorld) (op : ShmOp) : Prop :=
  ∃ i : ℕ, op = .destroy i ∧ i < SHM_MAX_SEGS ∧ (w.world.shm.regions i).physBase ≠ 0

/-- The call of `shm_create` in this state returns an identifier unless 64 segments are live. -/
def CreateFailsFull (w : SegmentWorld) (op : ShmOp) : Prop :=
  ∀ size shm pmm id, op = .create size → w.world.shm.shmCreate w.world.pmm size = .ok (shm, pmm, id) →
    id = -1 → w.world.shm.live.card = SHM_MAX_SEGS

/-- No two live segments have one identifier. -/
def IdsDistinct (w : SegmentWorld) : Prop :=
  ∀ i j, (w.world.shm.regions i).physBase ≠ 0 → (w.world.shm.regions j).physBase ≠ 0 →
    (w.world.shm.regions i).id = (w.world.shm.regions j).id → i = j

/-- A call of `shm_create` comes while fewer than 64 segments have been created or none destroyed. -/
def CreateInTime (w : SegmentWorld) (op : ShmOp) : Prop :=
  ∀ size, op = .create size → w.world.shm.nextShmid < SHM_MAX_SEGS ∨ w.destroyed = 0

end SegmentWorld

/-- One call that returns, with memory for the segments. -/
structure SegmentStep (w : SegmentWorld) (op : ShmOp) (w' : SegmentWorld) : Prop where
  step : ShmStep w.world op w'.world
  allocation : w.AllocationSucceeds op
  count : w.Destroys op ∧ w'.destroyed = w.destroyed + 1 ∨ ¬ w.Destroys op ∧ w'.destroyed = w.destroyed

namespace SegmentWorld

/-- What every call keeps. -/
structure Inv (s₀ : Pmm) (w : SegmentWorld) : Prop where
  shm : ShmInv s₀ w.world
  sound : Sound SHM_MAX_SEGS w.pool
  ids : ∀ i, (w.world.shm.regions i).physBase ≠ 0 → (w.world.shm.regions i).id = i

variable {s₀ : Pmm} {w w' : SegmentWorld} {op : ShmOp}

theorem Inv.init (hh : s₀.lastFreeHint ≤ PMM_MAX_PAGES) (hf : s₀.freePhysPages < 2 ^ 64) : Inv s₀ (.init s₀) := by
  have hnone : (SegmentWorld.init s₀).pool = .empty := by
    unfold pool SegmentWorld.init IdPool.empty
    congr 1
  exact ⟨.init hh hf, hnone ▸ .empty _, fun _ h => absurd rfl h⟩

theorem Inv.distinct (h : Inv s₀ w) : w.IdsDistinct := fun i j hi hj he => (h.ids i hi).symm.trans (he.trans (h.ids j hj))

theorem mem_live {s : Shm} {i : ℕ} : i ∈ s.live ↔ i < SHM_MAX_SEGS ∧ (s.regions i).physBase ≠ 0 := by
  unfold Shm.live
  rw [Finset.mem_filter, Finset.mem_range]

/-- A call that leaves the segments where they are. -/
theorem Inv.same (h : Inv s₀ w) (hs : ShmInv s₀ w'.world) (hregions : w.world.shm.SameRegions w'.world.shm)
    (hid : ∀ i, (w'.world.shm.regions i).id = (w.world.shm.regions i).id) (hcount : w'.destroyed = w.destroyed) :
    Inv s₀ w' := by
  have hpool : w'.pool = w.pool := by
    unfold pool
    rw [hregions.next, hcount]
    congr 1
    ext i
    rw [mem_live, mem_live, hregions.base]
  refine ⟨hs, hpool ▸ h.sound, fun i hi => ?_⟩
  rw [hregions.base] at hi
  rw [hid]
  exact h.ids i hi

/-- A new segment is a creation in the pool. -/
theorem Inv.newRegion {pmm : Pmm} {n p : ℕ} (h : Inv s₀ w) (hs : ShmInv s₀ w'.world)
    (hnext : w.world.shm.nextShmid < SHM_MAX_SEGS) (hp : 1 ≤ p)
    (hw : w'.world = w.world.created (w.world.shm.newRegion n p) pmm w.world.shm.nextShmid)
    (hcount : w'.destroyed = w.destroyed) : Inv s₀ w' := by
  have hshm : w'.world.shm = w.world.shm.newRegion n p := by
    have hid : ¬ (w.world.shm.nextShmid : ℤ) < 0 := by omega
    rw [hw, ShmWorld.created, if_neg hid]
  have hself : (w.world.shm.newRegion n p).regions w.world.shm.nextShmid =
      ⟨w.world.shm.nextShmid, n * PAGE_SIZE, p * PAGE_SIZE, 0⟩ := Function.update_self _ _ _
  have hbase : p * PAGE_SIZE ≠ 0 := (Nat.mul_pos hp (by decide)).ne'
  have hother : ∀ i, i ≠ w.world.shm.nextShmid → (w.world.shm.newRegion n p).regions i = w.world.shm.regions i :=
    fun i hi => Function.update_of_ne hi _ _
  have hpool : w'.pool = w.pool.create SHM_MAX_SEGS := by
    have hlt : w.pool.next < SHM_MAX_SEGS := hnext
    unfold IdPool.create
    rw [if_pos hlt]
    unfold pool
    rw [hshm, hcount]
    congr 1
    ext i
    rw [Finset.mem_insert, mem_live, mem_live]
    by_cases hi : i = w.world.shm.nextShmid
    · rw [hi, hself]
      exact ⟨fun _ => .inl rfl, fun _ => ⟨hnext, hbase⟩⟩
    · rw [hother i hi]
      exact ⟨fun hm => .inr hm, fun hm => hm.resolve_left hi⟩
  refine ⟨hs, hpool ▸ h.sound.create, fun i hi => ?_⟩
  rw [hshm] at hi ⊢
  by_cases hin : i = w.world.shm.nextShmid
  · rw [hin, hself]
  · rw [hother i hin] at hi ⊢
    exact h.ids i hi

/-- The end of a live segment is a destruction in the pool. -/
theorem Inv.freed {i : ℕ} (h : Inv s₀ w) (hs : ShmInv s₀ w'.world) (hi : (w.world.shm.regions i).physBase ≠ 0)
    (hshm : w'.world.shm = w.world.shm.freed i) (hcount : w'.destroyed = w.destroyed + 1) : Inv s₀ w' := by
  have hslot : i < SHM_MAX_SEGS := (h.shm.lt_next hi).trans_le h.shm.bound
  have hself : ((w.world.shm.freed i).regions i).physBase = 0 := by
    unfold Shm.freed Shm.setRegion
    simp
  have hother : ∀ j, j ≠ i → (w.world.shm.freed i).regions j = w.world.shm.regions j :=
    fun j hj => Function.update_of_ne hj _ _
  have hpool : w'.pool = w.pool.destroy i := by
    have hlive : i ∈ w.pool.live := mem_live.mpr ⟨hslot, hi⟩
    unfold IdPool.destroy
    rw [if_pos hlive]
    unfold pool
    rw [hshm, hcount]
    congr 1
    ext j
    rw [Finset.mem_erase, mem_live, mem_live]
    by_cases hj : j = i
    · rw [hj]
      exact ⟨fun hm => absurd hself hm.2, fun hm => absurd rfl hm.1⟩
    · rw [hother j hj]
      exact ⟨fun hm => ⟨hj, hm⟩, fun hm => hm.2⟩
  refine ⟨hs, hpool ▸ h.sound.destroy i, fun j hj => ?_⟩
  rw [hshm] at hj ⊢
  have hji : j ≠ i := fun he => hj (he ▸ hself)
  rw [hother j hji] at hj ⊢
  exact h.ids j hj

theorem id_setRegion (s : Shm) (i j : ℕ) (n : ℤ) :
    ((s.setRegion i { s.regions i with refCount := n }).regions j).id = (s.regions j).id := by
  unfold Shm.setRegion
  by_cases hj : j = i
  · simp [hj]
  · simp [hj]

theorem id_attach (s : Shm) (shmid : ℤ) (j : ℕ) : ((s.shmAttach shmid).1.regions j).id = (s.regions j).id := by
  unfold Shm.shmAttach
  cases shmSlot shmid with
  | none => rfl
  | some i =>
      dsimp only
      split
      · rfl
      · exact id_setRegion s i j _

theorem id_detach (s : Shm) (shmid : ℤ) (j : ℕ) : ((s.shmDetach shmid).regions j).id = (s.regions j).id := by
  unfold Shm.shmDetach
  cases shmSlot shmid with
  | none => rfl
  | some i =>
      dsimp only
      split
      · exact id_setRegion s i j _
      · rfl

/-- **Every call keeps the invariant.** -/
theorem Inv.step (h : Inv s₀ w) (hs : SegmentStep w op w') : Inv s₀ w' := by
  obtain ⟨world', destroyed'⟩ := w'
  obtain ⟨hstep, _, hcount⟩ := hs
  dsimp only at hstep hcount
  have hinv := hstep.inv h.shm
  obtain ⟨lost, hb⟩ := h.shm.books
  have hother : (∀ i : ℕ, op ≠ .destroy i) → destroyed' = w.destroyed := by
    intro hne
    rcases hcount with ⟨⟨i, hop, _⟩, _⟩ | ⟨_, hcount⟩
    · exact absurd hop (hne i)
    · exact hcount
  cases hstep with
  | @create size shm pmm id hsize hc =>
      have hcount := hother fun i hop => by cases hop
      obtain ⟨rfl, rfl, _⟩ | ⟨n, p, rfl, hnext, _, _, _, _, hp, _, rfl⟩ :=
        Shm.shmCreate_cases hsize hb.hint hb.free_lt hc
      · exact h.same hinv (.refl _) (fun _ => rfl) hcount
      · exact h.newRegion hinv hnext hp rfl hcount
  | attach shmid =>
      exact h.same hinv (w.world.shm.sameRegions_attach shmid) (id_attach w.world.shm shmid) (hother fun i hop => by cases hop)
  | detach shmid =>
      exact h.same hinv (w.world.shm.sameRegions_detach shmid) (id_detach w.world.shm shmid) (hother fun i hop => by cases hop)
  | destroy shmid =>
      obtain ⟨i, rfl, hslot, hlive⟩ | ⟨hdead, hsame⟩ := w.world.destroyed_cases shmid
      · have hcount : destroyed' = w.destroyed + 1 := by
          rcases hcount with ⟨_, hcount⟩ | ⟨hnot, _⟩
          · exact hcount
          · exact absurd ⟨i, rfl, hslot, hlive⟩ hnot
        exact h.freed hinv hlive (h.shm.freed hlive).1 hcount
      · have hcount : destroyed' = w.destroyed := by
          rcases hcount with ⟨⟨i, hop, hslot, hlive⟩, _⟩ | ⟨_, hcount⟩
          · cases hop
            exact absurd (hdead i (shmSlot_natCast hslot)) hlive
          · exact hcount
        refine h.same hinv ?_ (fun j => ?_) hcount
        · dsimp only
          rw [hsame]
          exact .refl _
        · dsimp only
          rw [hsame]
  | pmm hp => exact h.same hinv (.refl _) (fun _ => rfl) (hother fun i hop => by cases hop)

/-- `shm_create` with memory for the segment fails exactly when all identifiers have been given out. -/
theorem shmCreate_fails_iff {s s' : Shm} {pmm pmm' : Pmm} {size : ℕ} {id : ℤ} (h0 : 0 < size) (hmax : size ≤ SHM_MAX_SIZE)
    (ha : s.nextShmid < SHM_MAX_SEGS →
      ∃ pmm₁ phys, pmm.pmmAllocPages (alignUp size PAGE_SIZE / PAGE_SIZE) = .ok (pmm₁, phys) ∧ phys ≠ 0)
    (h : s.shmCreate pmm size = .ok (s', pmm', id)) : id = -1 ↔ SHM_MAX_SEGS ≤ s.nextShmid := by
  have halign : alignUp size PAGE_SIZE = (size + 4095) / 4096 * 4096 := by
    unfold SHM_MAX_SIZE at hmax
    exact alignUp_page (by omega)
  have hfits : ¬ alignUp size PAGE_SIZE > SHM_MAX_SIZE := by
    rw [halign]
    unfold SHM_MAX_SIZE at *
    omega
  unfold Shm.shmCreate at h
  dsimp only at h
  by_cases hge : s.nextShmid ≥ SHM_MAX_SEGS
  · rw [if_pos hge] at h
    cases h
    exact ⟨fun _ => hge, fun _ => rfl⟩
  · obtain ⟨pmm₁, phys, halloc, hphys⟩ := ha (not_le.mp hge)
    rw [if_neg hge, if_neg hfits, halloc] at h
    change (if phys = 0 then _ else _) = _ at h
    rw [if_neg hphys] at h
    simp only [Except.ok.injEq, Prod.mk.injEq] at h
    obtain ⟨_, _, rfl⟩ := h
    omega

theorem Inv.createFailsFull_iff (h : Inv s₀ w) (hs : SegmentStep w op w') : w.CreateFailsFull op ↔ w.CreateInTime op := by
  have hfull := h.sound.full_iff
  obtain ⟨world', destroyed'⟩ := w'
  obtain ⟨hstep, halloc, _⟩ := hs
  dsimp only at hstep
  constructor
  · rintro hc size rfl
    obtain ⟨h0, hmax, ha⟩ := halloc size rfl
    refine hfull.mp fun hge => ?_
    cases hstep with
    | create hsize hcreate => exact hc size _ _ _ rfl hcreate ((shmCreate_fails_iff h0 hmax ha hcreate).mpr hge)
  · rintro hc size shm pmm id rfl hcreate hid
    obtain ⟨h0, hmax, ha⟩ := halloc size rfl
    exact hfull.mpr (hc size rfl) ((shmCreate_fails_iff h0 hmax ha hcreate).mp hid)

end SegmentWorld

/-! ### Runs -/

/-- A call after which identifiers are distinct, and a call of `msgq_create` fails only when 64 queues are live. -/
def QueueReuseStep (w : QueueWorld) (op : QueueOp) (w' : QueueWorld) : Prop :=
  QueueStep w op w' ∧ w.CreateFailsFull op ∧ w'.IdsDistinct

/-- A call that is no late call of `msgq_create`. -/
def QueueInTimeStep (w : QueueWorld) (op : QueueOp) (w' : QueueWorld) : Prop := QueueStep w op w' ∧ w.CreateInTime op

/-- A call after which identifiers are distinct, and a call of `shm_create` fails only when 64 segments are live. -/
def SegmentReuseStep (w : SegmentWorld) (op : ShmOp) (w' : SegmentWorld) : Prop :=
  SegmentStep w op w' ∧ w.CreateFailsFull op ∧ w'.IdsDistinct

/-- A call that is no late call of `shm_create`. -/
def SegmentInTimeStep (w : SegmentWorld) (op : ShmOp) (w' : SegmentWorld) : Prop := SegmentStep w op w' ∧ w.CreateInTime op

/-- **When identifiers suffice.**  In a run of `msgq_create` and `msgq_destroy` with memory for the queues,
a create call fails only when 64 queues are live, and no two live queues share an identifier, exactly when
no create call is made after 64 queues have been created and one of them destroyed.  The same holds of
`shm_create` and `shm_destroy` for segments of valid sizes, between other calls on segments and pages. -/
theorem ipc_ids_reused_iff {s₀ : Pmm} {queueOps : List QueueOp} {segmentOps : List ShmOp} {w : QueueWorld}
    {v : SegmentWorld} (hh : s₀.lastFreeHint ≤ PMM_MAX_PAGES) (hf : s₀.freePhysPages < 2 ^ 64) :
    (Run QueueReuseStep .init queueOps w ↔ Run QueueInTimeStep .init queueOps w) ∧
      (Run SegmentReuseStep (.init s₀) segmentOps v ↔ Run SegmentInTimeStep (.init s₀) segmentOps v) := by
  constructor
  · have hkeep : ∀ w op w', QueueWorld.Inv w → QueueStep w op w' → w'.Inv := by
      rintro w op w' hI hs
      rw [hs]
      exact hI.step op
    apply Run.iff_of_invariant (I := QueueWorld.Inv) ?_ (fun w op w' hI hs _ => hkeep w op w' hI hs.1) .init
    refine fun w op w' hI => and_congr_right fun hs => ?_
    rw [← hI.createFailsFull_iff op]
    exact and_iff_left (hkeep w op w' hI hs).distinct
  · apply Run.iff_of_invariant (I := SegmentWorld.Inv s₀) ?_ (fun w op w' hI hs _ => hI.step hs.1) (.init hh hf)
    refine fun w op w' hI => and_congr_right fun hs => ?_
    rw [← hI.createFailsFull_iff hs]
    exact and_iff_left (hI.step hs).distinct

/-! ### Exhaustion -/

theorem QueueWorld.run_foldl (ops : List QueueOp) (w : QueueWorld) : Run QueueStep w ops (ops.foldl exec w) := by
  induction ops generalizing w with
  | nil => exact .nil w
  | cons op ops ih => exact .cons rfl (ih (w.exec op))

/-- A queue is destroyed between two creations, and a segment is created. -/
theorem ipc_ids_reused_few : (∃ w, Run QueueReuseStep .init [.create, .destroy 0, .create] w) ∧
    ∃ v, Run SegmentReuseStep (.init pageZeroUsed) [.create 5000] v := by
  have hqueue : Run QueueInTimeStep .init [.create, .destroy 0, .create]
      ([.create, .destroy 0, .create].foldl QueueWorld.exec .init) :=
    .cons ⟨rfl, fun _ => .inl (by decide)⟩ (.cons ⟨rfl, fun h => by cases h⟩
      (.cons ⟨rfl, fun _ => .inl (by decide +kernel)⟩ (.nil _)))
  have halloc : ((pageZeroUsed.pmmAllocPages (alignUp 5000 PAGE_SIZE / PAGE_SIZE)).toOption.any
      fun r => decide (r.2 ≠ 0)) = true := by decide +kernel
  have hexec : ((ShmWorld.init pageZeroUsed).exec (.create 5000)).isSome = true := by decide +kernel
  obtain ⟨⟨pmm, phys⟩, hpages, hphys⟩ := (Option.any_eq_true _ _).mp halloc
  obtain ⟨world, hworld⟩ := Option.isSome_iff_exists.mp hexec
  have hsegment : Run SegmentInTimeStep (.init pageZeroUsed) [.create 5000] ⟨world, 0⟩ := by
    refine .single ⟨⟨.of_exec hworld, ?_, .inr ⟨?_, rfl⟩⟩, fun _ _ => .inl (by decide)⟩
    · intro size hop
      obtain rfl := ShmOp.create.inj hop
      exact ⟨by decide, by decide, fun _ => ⟨pmm, phys, toOption_eq_some.mp hpages, of_decide_eq_true hphys⟩⟩
    · rintro ⟨i, hop, _⟩
      cases hop
  have h := @ipc_ids_reused_iff pageZeroUsed [.create, .destroy 0, .create] [.create 5000]
    ([.create, .destroy 0, .create].foldl QueueWorld.exec .init) ⟨world, 0⟩ (by decide) (by norm_num [pageZeroUsed])
  exact ⟨⟨_, h.1.mpr hqueue⟩, _, h.2.mpr hsegment⟩

/-- After 64 creations and one destruction no queue can be created, although only 63 are live. -/
theorem queue_ids_exhausted : ∃ w, Run QueueStep .init (List.replicate 64 .create ++ [.destroy 0]) w ∧
    (w.table.msgqCreate true).2 = -1 ∧ w.table.live.card = 63 :=
  ⟨_, QueueWorld.run_foldl _ _, by decide +kernel, by decide +kernel⟩

end HeroOS
