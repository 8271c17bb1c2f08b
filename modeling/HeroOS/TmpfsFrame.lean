import HeroOS.TmpfsPaths

/-! # Paths beside the one that is created or removed

`vfs_mkdir` appends to the children of a directory and `tmpfs_unlink` closes the gap that the freed inode leaves,
while `tmpfs_finddir` takes the first child that matches.

`mkdir_unlink_frame`: after `vfs_mkdir`, every path that led to a node leads to it; after `vfs_unlink`, every path
whose lookup did not pass through the freed node does; a call that fails leaves all paths as they were. -/

namespace HeroOS.Tmpfs

open CString Forest Vfs

variable {fs fs' : Tmpfs} {parent d e n i mode : ℕ} {name path b : List UInt8} {cs : List (List UInt8)}
  {stale stale' : Buf} {res : ℤ}

/-! ### Removing -/

/-- Lookup in a directory is a search among its children. -/
theorem tmpfsFinddir_find (fs : Tmpfs) (d : ℕ) (b : Buf) :
    fs.tmpfsFinddir d b = (fs.kids d).find? fun k => strcmpEq (fs.inodes k).name b := by
  unfold tmpfsFinddir findSlot kids
  rw [List.find?_map]
  rfl

@[simp]
theorem removed_name (fs : Tmpfs) (parent i d : ℕ) : ((fs.removed parent i).inodes d).name = (fs.inodes d).name := by
  by_cases hd : d = parent
  · subst hd
    unfold Tmpfs.removed removeSlot
    dsimp only
    rw [Function.update_self, freeInode_fields]
  · rw [removed_other hd]

section
variable (hi : i < (fs.inodes parent).childCount)
include hi

/-- A name that led elsewhere than to the removed child leads there still. -/
theorem tmpfsFinddir_removed {b : Buf} (h : fs.tmpfsFinddir d b = some e) (hne : e ≠ (fs.inodes parent).children i) :
    (fs.removed parent i).tmpfsFinddir d b = some e := by
  rw [tmpfsFinddir_find] at h ⊢
  simp only [removed_name]
  exact (detach_removed hi).find? h hne

/-- A walk that does not pass through the removed child leads where it led. -/
theorem walk_removed (h : walk fs.tmpfsFinddir d cs = some e)
    (hpass : ∀ pre, pre <+: cs → walk fs.tmpfsFinddir d pre ≠ some ((fs.inodes parent).children i)) :
    walk (fs.removed parent i).tmpfsFinddir d cs = some e := by
  induction cs generalizing d with
  | nil => exact h
  | cons b cs ih =>
      rw [walk_cons, Option.bind_eq_some_iff] at h
      obtain ⟨x, hx, h⟩ := h
      have hne : x ≠ (fs.inodes parent).children i := by
        intro heq
        refine hpass [b] ⟨cs, rfl⟩ ?_
        rw [walk_singleton, hx, heq]
      rw [walk_cons, tmpfsFinddir_removed hi hx hne, Option.bind_some]
      refine ih h fun pre hpre hwalk => hpass (b :: pre) ?_ ?_
      · exact List.cons_prefix_cons.mpr ⟨rfl, hpre⟩
      · rw [walk_cons, hx, Option.bind_some, hwalk]

end

/-! ### Calls -/

/-- The lookup of `path` passes through the node `n` or ends there. -/
def PassesThrough (fs : Tmpfs) (path : List UInt8) (n : ℕ) : Prop :=
  ∃ pre, pre <+: tokens (relative path) ∧ walk fs.tmpfsFinddir fs.root pre = some n

/-- The paths with the property `P` that led to a node lead to it in `fs'`. -/
def KeepsPaths (fs fs' : Tmpfs) (P : List UInt8 → Prop) : Prop :=
  ∀ path e stale stale', NoNul path → path.length < VFS_PATH_MAX - 1 → P path →
    fs.resolve stale path = .ok (some e) → fs'.resolve stale' path = .ok (some e)

/-- All paths lead where they led, or nowhere as before. -/
def SamePaths (fs fs' : Tmpfs) : Prop :=
  ∀ path stale stale', NoNul path → path.length < VFS_PATH_MAX - 1 → fs'.resolve stale' path = fs.resolve stale path

theorem SamePaths.refl (fs : Tmpfs) : SamePaths fs fs := by
  intro path stale stale' hnul hlen
  rw [resolve_eq hnul hlen, resolve_eq hnul hlen]

/-- The node `n` is freed, and no other. -/
def Frees (fs fs' : Tmpfs) (n : ℕ) : Prop := fs.Allocated n ∧ ∀ d, fs'.Allocated d ↔ fs.Allocated d ∧ d ≠ n

/-- The directory part of a path is a path, so that its lookup ends. -/
theorem dirname_resolve (fs : Tmpfs) (hnul : NoNul path) (hlen : path.length < VFS_PATH_MAX - 1) (stale stale' : Buf) :
    ∃ dir r, vfsPathDirname stale path = .ok dir ∧ fs.resolve stale' dir = .ok r := by
  cases split_path hnul hlen stale with
  | noSlash hdir =>
      refine ⟨_, _, hdir, resolve_eq ?_ (by decide)⟩
      decide +kernel
  | splits hdir hnuld hlend => exact ⟨_, _, hdir, resolve_eq hnuld hlend⟩
  | trailing hdir hnuld hlend => exact ⟨_, _, hdir, resolve_eq hnuld hlend⟩
  | doubled hdir hnuld hlend => exact ⟨_, _, hdir, resolve_eq hnuld hlend⟩

/-- `vfs_mkdir` returns. -/
theorem vfsMkdir_returns (fs : Tmpfs) (hnul : NoNul path) (hlen : path.length < VFS_PATH_MAX - 1) (stale stale' : Buf)
    (mode : ℕ) (child : Option ℕ) : ∃ fs' res, fs.vfsMkdir stale stale' path mode child = .ok (fs', res) := by
  obtain ⟨dir, r, hdir, hr⟩ := dirname_resolve fs hnul hlen stale stale'
  cases r with
  | none => exact ⟨fs, -2, bind_eq_ok.mpr ⟨dir, hdir, bind_eq_ok.mpr ⟨none, hr, rfl⟩⟩⟩
  | some parent => exact ⟨_, _, bind_eq_ok.mpr ⟨dir, hdir, bind_eq_ok.mpr ⟨some parent, hr, rfl⟩⟩⟩

/-- `vfs_unlink` returns. -/
theorem vfsUnlink_returns (fs : Tmpfs) (hnul : NoNul path) (hlen : path.length < VFS_PATH_MAX - 1) (stale stale' : Buf) :
    ∃ fs' res, fs.vfsUnlink stale stale' path = .ok (fs', res) := by
  obtain ⟨dir, r, hdir, hr⟩ := dirname_resolve fs hnul hlen stale stale'
  cases r with
  | none => exact ⟨fs, -2, bind_eq_ok.mpr ⟨dir, hdir, bind_eq_ok.mpr ⟨none, hr, rfl⟩⟩⟩
  | some parent => exact ⟨_, _, bind_eq_ok.mpr ⟨dir, hdir, bind_eq_ok.mpr ⟨some parent, hr, rfl⟩⟩⟩

/-- Creating keeps all paths. -/
theorem vfsMkdir_keeps {child : Option ℕ} (hf : WellFormed fs) (hnul : NoNul path)
    (hchild : ∀ c, child = some c → fs.live c = false)
    (h : fs.vfsMkdir stale stale' path mode child = .ok (fs', res)) :
    KeepsPaths fs fs' (fun _ => True) ∧ (res < 0 → SamePaths fs fs') := by
  obtain ⟨rfl, _⟩ | ⟨dir, parent, c, _, hp, hcount, rfl, rfl, rfl⟩ := vfsMkdir_cases h
  · refine ⟨fun q e s s' hq hqlen _ he => ?_, fun _ => .refl _⟩
    rw [SamePaths.refl fs' q s s' hq hqlen, he]
  · refine ⟨fun q e s s' hq hqlen _ he => ?_, fun hres => absurd hres (lt_irrefl 0)⟩
    have hwalk := Except.ok.inj ((resolve_eq hq hqlen).symm.trans he)
    rw [resolve_eq hq hqlen]
    exact congrArg Except.ok (walk_created hf (resolve_reached hp) hcount (hchild c rfl) (NoNul.basename hnul) mode
      (noNul_tokens hq) .root hwalk)

/-- Removing frees one node and keeps the paths that did not pass through it. -/
theorem vfsUnlink_keeps (hf : WellFormed fs) (h : fs.vfsUnlink stale stale' path = .ok (fs', res)) :
    res < 0 ∧ SamePaths fs fs' ∨
      res = 0 ∧ ∃ n, Frees fs fs' n ∧ KeepsPaths fs fs' (fun q => ¬ fs.PassesThrough q n) := by
  obtain ⟨rfl, hres⟩ | ⟨dir, parent, i, _, hp, hslot, rfl, rfl⟩ := vfsUnlink_cases h
  · exact .inl ⟨hres, .refl _⟩
  · have hi := (findSlot_spec hslot).1
    have hlive := ((resolve_reached hp).child (mem_kids hi)).is_live hf.grown.forest
    refine .inr ⟨rfl, _, ⟨hlive, (detach_removed hi).live_iff⟩, fun q e s s' hq hqlen hpass he => ?_⟩
    have hwalk := Except.ok.inj ((resolve_eq hq hqlen).symm.trans he)
    rw [resolve_eq hq hqlen]
    exact congrArg Except.ok (walk_removed hi hwalk fun pre hpre heq => hpass ⟨pre, hpre, heq⟩)

/-- **Creating and removing leave other paths alone.** -/
theorem mkdir_unlink_frame (hf : WellFormed fs) (hnul : NoNul path) (hlen : path.length < VFS_PATH_MAX - 1)
    (stale stale' : Buf) :
    (∀ mode child, (∀ c, child = some c → fs.live c = false) →
      ∃ fs' res, fs.vfsMkdir stale stale' path mode child = .ok (fs', res) ∧
        KeepsPaths fs fs' (fun _ => True) ∧ (res < 0 → SamePaths fs fs')) ∧
    ∃ fs' res, fs.vfsUnlink stale stale' path = .ok (fs', res) ∧
      (res < 0 ∧ SamePaths fs fs' ∨
        res = 0 ∧ ∃ n, Frees fs fs' n ∧ KeepsPaths fs fs' (fun q => ¬ fs.PassesThrough q n)) := by
  constructor
  · intro mode child hchild
    obtain ⟨fs', res, h⟩ := vfsMkdir_returns fs hnul hlen stale stale' mode child
    exact ⟨fs', res, h, vfsMkdir_keeps hf hnul hchild h⟩
  · obtain ⟨fs', res, h⟩ := vfsUnlink_returns fs hnul hlen stale stale'
    exact ⟨fs', res, h, vfsUnlink_keeps hf h⟩

/-- Removing `/a` from a root with this entry only. -/
theorem unlink_pathA_frame : ∃ fs' res, rootA.vfsUnlink zeros zeros pathA = .ok (fs', res) ∧
    (res < 0 ∧ SamePaths rootA fs' ∨
      res = 0 ∧ ∃ n, Frees rootA fs' n ∧ KeepsPaths rootA fs' (fun q => ¬ rootA.PassesThrough q n)) :=
  (mkdir_unlink_frame wellFormed_rootA noNul_pathA (by decide) zeros zeros).2

end HeroOS.Tmpfs
