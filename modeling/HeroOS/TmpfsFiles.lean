import HeroOS.TmpfsTree

/-! # Open files

The calls of `kernel/fs/vfs.c` on nodes, `vfs_open`, `vfs_close`, `vfs_read` and `vfs_write`, next to
the calls on the tree.  Two things are kept beside the tree itself:

* the blocks of the kernel heap that hold the data of the inodes.  `krealloc` frees the old block
  whenever it returns another one, so that an inode has at most one block and a flag for each inode
  says whether the block that its `data` points to is allocated.  It need not be: `krealloc` frees
  the block, and returns `NULL`, when it is asked for no bytes, and `tmpfs_write` asks for no bytes
  when the end of the write is so close to `2 ^ 64` that rounding it up wraps to `0`;
* how often each node has been opened and not been closed since.

A call that touches a block that is not allocated, or leaves the block of the inode, has no defined
outcome (`Halt.overrun`).  `exec_cases` says what a call that returns does. -/

namespace HeroOS

open CString Word Forest

namespace Tmpfs

/-- Set the reference count of a node. -/
def setRefCount (fs : Tmpfs) (node n : ℕ) : Tmpfs :=
  { fs with inodes := Function.update fs.inodes node { fs.inodes node with refCount := n } }

/-- `vfs_open`; `tmpfs_open` ignores the flags. -/
def vfsOpen (fs : Tmpfs) (stale : Buf) (path : List UInt8) : Except Halt (Tmpfs × Option ℕ) := do
  match ← fs.resolve stale path with
  | none => .ok (fs, none)
  | some node => .ok (fs.setRefCount node (((fs.inodes node).refCount + 1) % 2 ^ 32), some node)

/-- `vfs_close` -/
def vfsClose (fs : Tmpfs) : Option ℕ → Tmpfs × ℤ
  | none => (fs, -22)
  | some node =>
      if (fs.inodes node).refCount > 0 then (fs.setRefCount node ((fs.inodes node).refCount - 1), 0)
      else (fs, 0)

/-- The inode that `vfs_unlink` finds under a path. -/
def unlinkTarget (fs : Tmpfs) (stale stale' : Buf) (path : List UInt8) : Except Halt (Option ℕ) := do
  let dir ← Vfs.vfsPathDirname stale path
  match ← fs.resolve stale' dir with
  | none => .ok none
  | some parent => .ok (fs.tmpfsFinddir parent (ofList (Vfs.vfsPathBasename path)))

end Tmpfs

/-- A tmpfs, the allocated data blocks, and how often each node is open. -/
structure Files where
  fs : Tmpfs
  block : ℕ → Bool
  opens : ℕ → ℕ

/-- The calls on a mounted tmpfs, with what their environment contributes. -/
inductive FileOp where
  | openFile (path : List UInt8) (stale : Buf)
  | closeFile (node : Option ℕ)
  | readFile (node : Option ℕ) (offset : ℤ) (size : ℕ)
  | writeFile (node : Option ℕ) (offset : ℤ) (buf : List UInt8) (grow : ℕ → Option Buf)
  | dir (op : DirOp)

namespace Files

/-- A freshly mounted root. -/
def mount (counter root : ℕ) : Files := ⟨Tmpfs.tmpfsMount counter root, fun _ => false, fun _ => 0⟩

/-- The data pointer of the inode points to a block that has been freed. -/
def Dangling (s : Files) (node : ℕ) : Prop := (s.fs.inodes node).data.isSome ∧ s.block node = false

instance (s : Files) (node : ℕ) : Decidable (s.Dangling node) := inferInstanceAs (Decidable (_ ∧ _))

/-- Replace one inode. -/
def setInode (s : Files) (node : ℕ) (inode : Inode) : Files :=
  { s with fs := { s.fs with inodes := Function.update s.fs.inodes node inode } }

/-- `krealloc(inode->data, n)`; `grow n` is the block that the heap has for `n` bytes. -/
def krealloc (s : Files) (node : ℕ) (grow : ℕ → Option Buf) (n : ℕ) : Files × Option Buf :=
  if n = 0 then ({ s with block := Function.update s.block node false }, none)
  else
    match grow n with
    | none => (s, none)
    | some data => ({ s with block := Function.update s.block node true }, some data)

/-- The end of `tmpfs_write`: `memcpy(inode->data + offset, buf, size)`, and the new size. -/
def copyIn (s : Files) (node : ℕ) (offset : ℤ) (buf : List UInt8) (newEnd : ℕ) : Except Halt (Files × ℤ) :=
  let inode := s.fs.inodes node
  if buf ≠ [] ∧ (s.Dangling node ∨ toU64 offset + buf.length > inode.capacity) then .error .overrun
  else .ok (s.setInode node (inode.store offset buf newEnd), toS64 buf.length)

/-- `tmpfs_write`, where `newEnd` is the end of the write. -/
def tmpfsWrite (s : Files) (node : ℕ) (offset : ℤ) (buf : List UInt8) (grow : ℕ → Option Buf) (newEnd : ℕ) :
    Except Halt (Files × ℤ) :=
  if newEnd > (s.fs.inodes node).capacity then
    if s.Dangling node then .error .overrun
    else
      match s.krealloc node grow (alignUp newEnd 512) with
      | (s, none) => .ok (s, -12)
      | (s, some newData) =>
          (s.setInode node { s.fs.inodes node with
            data := some newData, capacity := alignUp newEnd 512 }).copyIn node offset buf newEnd
  else s.copyIn node offset buf newEnd

/-- `vfs_write` -/
def vfsWrite (s : Files) (node : Option ℕ) (offset : ℤ) (buf : List UInt8) (grow : ℕ → Option Buf) :
    Except Halt (Files × ℤ) :=
  match node with
  | none => .ok (s, -38)
  | some node => s.tmpfsWrite node offset buf grow (wadd (toU64 offset) buf.length)

/-- `vfs_read`, which is `tmpfs_read`. -/
def vfsRead (s : Files) (node : Option ℕ) (offset : ℤ) (size : ℕ) : Except Halt (ℤ × List UInt8) :=
  match node with
  | none => .ok (-38, [])
  | some node =>
      let r := (s.fs.inodes node).tmpfsRead offset size
      if r.2 ≠ [] ∧ s.Dangling node then .error .overrun else .ok r

/-- `vfs_unlink`, which frees the data block of the inode together with the inode. -/
def vfsUnlink (s : Files) (stale stale' : Buf) (path : List UInt8) : Except Halt (Files × ℤ) := do
  let target ← s.fs.unlinkTarget stale stale' path
  let r ← s.fs.vfsUnlink stale stale' path
  match target with
  | none => .ok ({ s with fs := r.1 }, r.2)
  | some victim =>
      if s.Dangling victim then .error .overrun
      else .ok ({ s with fs := r.1, block := Function.update s.block victim false }, r.2)

/-- One call; a node that is opened is counted, and a node that is closed is counted off. -/
def exec (s : Files) : FileOp → Except Halt Files
  | .openFile path stale => do
      let r ← s.fs.vfsOpen stale path
      match r.2 with
      | none => .ok { s with fs := r.1 }
      | some node => .ok { s with fs := r.1, opens := Function.update s.opens node (s.opens node + 1) }
  | .closeFile node =>
      let fs := (s.fs.vfsClose node).1
      match node with
      | none => .ok { s with fs := fs }
      | some node => .ok { s with fs := fs, opens := Function.update s.opens node (s.opens node - 1) }
  | .readFile node offset size => do
      let _ ← s.vfsRead node offset size
      .ok s
  | .writeFile node offset buf grow => do
      let r ← s.vfsWrite node offset buf grow
      .ok r.1
  | .dir (.mkdir path mode child stale stale') => do
      let r ← s.fs.vfsMkdir stale stale' path mode child
      .ok { s with fs := r.1 }
  | .dir (.unlink path stale stale') => do
      let r ← s.vfsUnlink stale stale' path
      .ok r.1

/-- Paths are strings, nodes are allocated, and `kcalloc` returns memory that is not in use. -/
def Admissible (s : Files) : FileOp → Prop
  | .openFile path _ => NoNul path
  | .closeFile node => ∀ d, node = some d → s.fs.live d = true
  | .readFile node _ _ => ∀ d, node = some d → s.fs.live d = true
  | .writeFile node _ _ _ => ∀ d, node = some d → s.fs.live d = true
  | .dir op => s.fs.Admissible op

end Files

/-- A call that returns. -/
def FileStep (s : Files) (op : FileOp) (s' : Files) : Prop := s.Admissible op ∧ s.exec op = .ok s'

instance decidableForallSome {α : Type} (o : Option α) (p : α → Prop) [DecidablePred p] : Decidable (∀ a, o = some a → p a) :=
  decidable_of_iff (∀ a ∈ o, p a) Iff.rfl

instance (path : List UInt8) : Decidable (NoNul path) := inferInstanceAs (Decidable (∀ x ∈ path, x ≠ 0))

instance (fs : Tmpfs) : (op : DirOp) → Decidable (fs.Admissible op)
  | .mkdir path _ child _ _ => inferInstanceAs (Decidable (NoNul path ∧ ∀ c, child = some c → fs.live c = false))
  | .unlink path _ _ => inferInstanceAs (Decidable (NoNul path))

instance (s : Files) : (op : FileOp) → Decidable (s.Admissible op)
  | .openFile path _ => inferInstanceAs (Decidable (NoNul path))
  | .closeFile node => inferInstanceAs (Decidable (∀ d, node = some d → s.fs.live d = true))
  | .readFile node _ _ => inferInstanceAs (Decidable (∀ d, node = some d → s.fs.live d = true))
  | .writeFile node _ _ _ => inferInstanceAs (Decidable (∀ d, node = some d → s.fs.live d = true))
  | .dir op => inferInstanceAs (Decidable (s.fs.Admissible op))

/-- The state after some calls. -/
def fileRun (s : Files) (ops : List FileOp) : Option Files :=
  ops.foldlM (fun s op => if s.Admissible op then (s.exec op).toOption else none) s

theorem Run.of_fileRun {s s' : Files} {ops : List FileOp} (h : fileRun s ops = some s') : Run FileStep s ops s' := by
  refine Run.of_exec (fun s op s' hs => ?_) h
  split at hs
  · rename_i hadm
    exact ⟨hadm, toOption_eq_some.mp hs⟩
  · cases hs

/-! ### Calls that leave the tree alone -/

namespace Tmpfs

variable {fs fs' : Tmpfs} {node d : ℕ} {stale stale' : Buf} {path : List UInt8} {r : Option ℕ}

/-- The two file systems have the same directories, with the same entries. -/
structure SameTree (fs fs' : Tmpfs) : Prop where
  root : fs'.root = fs.root
  live : fs'.live = fs.live
  count : ∀ d, (fs'.inodes d).childCount = (fs.inodes d).childCount
  children : ∀ d, (fs'.inodes d).children = (fs.inodes d).children

theorem SameTree.kids_eq (h : SameTree fs fs') : fs'.kids = fs.kids :=
  funext fun d => kids_congr (h.count d) (h.children d)

theorem SameTree.reached_iff (h : SameTree fs fs') : fs'.Reached d ↔ fs.Reached d := by
  unfold Reached
  rw [h.kids_eq, h.root]

theorem SameTree.grown (h : SameTree fs fs') (hg : Grown fs) : Grown fs' := by
  have hlive : fs'.Allocated = fs.Allocated := by
    unfold Allocated
    rw [h.live]
  refine ⟨?_, ?_⟩
  · rw [h.kids_eq, h.root, hlive]
    exact hg.forest
  · intro d hd
    rw [h.count]
    exact hg.bounded d (hlive ▸ hd)

/-- Replacing an inode by one with the same entries. -/
theorem SameTree.update {inode : Inode} (hcount : inode.childCount = (fs.inodes node).childCount)
    (hchildren : inode.children = (fs.inodes node).children) :
    SameTree fs { fs with inodes := Function.update fs.inodes node inode } := by
  refine ⟨rfl, rfl, ?_, ?_⟩
  · intro d
    by_cases hd : d = node
    · simp [hd, hcount]
    · simp [hd]
  · intro d
    by_cases hd : d = node
    · simp [hd, hchildren]
    · simp [hd]

theorem sameTree_setRefCount (fs : Tmpfs) (node n : ℕ) : SameTree fs (fs.setRefCount node n) := .update rfl rfl

theorem setRefCount_refCount (fs : Tmpfs) (node n d : ℕ) :
    ((fs.setRefCount node n).inodes d).refCount = if d = node then n else (fs.inodes d).refCount := by
  unfold setRefCount
  by_cases hd : d = node
  · simp [hd]
  · simp [hd]

theorem setRefCount_data (fs : Tmpfs) (node n d : ℕ) :
    ((fs.setRefCount node n).inodes d).data = (fs.inodes d).data := by
  unfold setRefCount
  by_cases hd : d = node
  · simp [hd]
  · simp [hd]

/-- `vfs_open` counts one more reference to the node that the path leads to. -/
theorem vfsOpen_cases (h : fs.vfsOpen stale path = .ok (fs', r)) :
    (r = none ∧ fs' = fs) ∨ ∃ node, r = some node ∧ fs.resolve stale path = .ok (some node) ∧
      fs' = fs.setRefCount node (((fs.inodes node).refCount + 1) % 2 ^ 32) := by
  unfold vfsOpen at h
  obtain ⟨node, hnode, h⟩ := bind_eq_ok.mp h
  cases node with
  | none =>
      cases h
      exact .inl ⟨rfl, rfl⟩
  | some node =>
      cases h
      exact .inr ⟨node, rfl, hnode, rfl⟩

/-- `vfs_close` counts at most one reference less. -/
theorem vfsClose_eq (fs : Tmpfs) (node : ℕ) :
    (fs.vfsClose (some node)).1 = fs.setRefCount node ((fs.inodes node).refCount - 1) := by
  rw [vfsClose]
  split
  · rfl
  · rename_i h
    have h0 : (fs.inodes node).refCount - 1 = (fs.inodes node).refCount := by omega
    unfold setRefCount
    rw [h0, Function.update_eq_self]

/-- `vfs_unlink` fails when it finds no inode. -/
theorem vfsUnlink_of_target_none {fs' : Tmpfs} {res : ℤ} (ht : fs.unlinkTarget stale stale' path = .ok none)
    (h : fs.vfsUnlink stale stale' path = .ok (fs', res)) : fs' = fs := by
  obtain ⟨rfl, _⟩ | ⟨dir, parent, i, hdir, hparent, hslot, _, _⟩ := vfsUnlink_cases h
  · rfl
  · unfold unlinkTarget at ht
    simp only [hdir, hparent, bind, Except.bind, tmpfsFinddir, hslot] at ht
    cases ht

/-- `vfs_unlink` removes the inode that it finds. -/
theorem vfsUnlink_of_target_some {fs' : Tmpfs} {res : ℤ} (ht : fs.unlinkTarget stale stale' path = .ok (some d))
    (h : fs.vfsUnlink stale stale' path = .ok (fs', res)) : ∃ parent i, fs.Reached parent ∧
      i < (fs.inodes parent).childCount ∧ (fs.inodes parent).children i = d ∧ fs' = fs.removed parent i := by
  unfold unlinkTarget at ht
  obtain ⟨dir, hdir, ht⟩ := bind_eq_ok.mp ht
  obtain ⟨parent, hparent, ht⟩ := bind_eq_ok.mp ht
  cases parent with
  | none => cases ht
  | some parent =>
      obtain ⟨i, hslot, hd⟩ := Option.map_eq_some_iff.mp (Except.ok.inj ht)
      unfold vfsUnlink at h
      simp only [hdir, hparent, bind, Except.bind, tmpfsUnlink, hslot] at h
      cases h
      exact ⟨parent, i, resolve_reached hparent, (findSlot_spec hslot).1, hd, rfl⟩

end Tmpfs

namespace Files

variable {s s' : Files} {node d : ℕ} {offset : ℤ} {buf : List UInt8} {grow : ℕ → Option Buf} {res : ℤ}

/-- `tmpfs_write` asks `krealloc` for no bytes. -/
def WrapsToZero (s : Files) (node newEnd : ℕ) : Prop :=
  newEnd > (s.fs.inodes node).capacity ∧ alignUp newEnd 512 = 0

/-- The inode after a write is the old one with other contents. -/
def Rewritten (old new : Inode) : Prop :=
  new = { old with data := new.data, capacity := new.capacity, size := new.size } ∧
    (old.data.isSome → new.data.isSome)

theorem Rewritten.store {old new : Inode} (h : Rewritten old new) (offset : ℤ) (buf : List UInt8) (newEnd : ℕ) :
    Rewritten old (new.store offset buf newEnd) := by
  refine ⟨?_, fun hs => ?_⟩
  · rw [h.1]
    rfl
  · unfold Inode.store
    simpa using h.2 hs

theorem copyIn_spec {newEnd : ℕ} (h : s.copyIn node offset buf newEnd = .ok (s', res)) :
    s' = s.setInode node ((s.fs.inodes node).store offset buf newEnd) := by
  unfold copyIn at h
  dsimp only at h
  split at h
  · cases h
  · cases h
    rfl

/-- `krealloc` fails and keeps the block, frees it because no bytes are asked for, or succeeds. -/
theorem krealloc_cases (s : Files) (node : ℕ) (grow : ℕ → Option Buf) (n : ℕ) :
    (n = 0 ∧ s.krealloc node grow n = ({ s with block := Function.update s.block node false }, none)) ∨
      (n ≠ 0 ∧ s.krealloc node grow n = (s, none)) ∨
        n ≠ 0 ∧ ∃ data,
          s.krealloc node grow n = ({ s with block := Function.update s.block node true }, some data) := by
  unfold krealloc
  by_cases h0 : n = 0
  · exact .inl ⟨h0, if_pos h0⟩
  · rw [if_neg h0]
    cases grow n with
    | none => exact .inr (.inl ⟨h0, rfl⟩)
    | some data => exact .inr (.inr ⟨h0, data, rfl⟩)

/-- What a write does: the inode gets other contents, and loses its block exactly when `krealloc` is
asked for no bytes. -/
theorem tmpfsWrite_spec {newEnd : ℕ} (h : s.tmpfsWrite node offset buf grow newEnd = .ok (s', res)) :
    ∃ inode b, s' = { s.setInode node inode with block := Function.update s.block node b } ∧
      Rewritten (s.fs.inodes node) inode ∧ (s.WrapsToZero node newEnd → b = false) ∧
      (¬ s.WrapsToZero node newEnd → s.block node = true → b = true) := by
  have hrefl : Rewritten (s.fs.inodes node) (s.fs.inodes node) := ⟨rfl, id⟩
  unfold tmpfsWrite at h
  unfold WrapsToZero
  generalize alignUp newEnd 512 = newCap at *
  split at h
  · rename_i hgrows
    split at h
    · cases h
    · obtain ⟨h0, hk⟩ | ⟨h0, hk⟩ | ⟨h0, data, hk⟩ := s.krealloc_cases node grow newCap
      · rw [hk] at h
        cases h
        refine ⟨s.fs.inodes node, false, ?_, hrefl, fun _ => rfl, fun hn => absurd ⟨hgrows, h0⟩ hn⟩
        unfold setInode
        rw [Function.update_eq_self]
      · rw [hk] at h
        cases h
        refine ⟨s.fs.inodes node, s.block node, ?_, hrefl, fun hw => absurd hw.2 h0, fun _ hb => hb⟩
        unfold setInode
        rw [Function.update_eq_self, Function.update_eq_self]
      · rw [hk] at h
        obtain rfl := copyIn_spec h
        have hnew : Rewritten (s.fs.inodes node)
            { s.fs.inodes node with data := some data, capacity := newCap } := ⟨rfl, fun _ => rfl⟩
        refine ⟨_, true, ?_, hnew.store offset buf newEnd, fun hw => absurd hw.2 h0, fun _ _ => rfl⟩
        unfold setInode
        simp only [Function.update_self, Function.update_idem]
  · rename_i hfits
    obtain rfl := copyIn_spec h
    refine ⟨_, s.block node, ?_, hrefl.store offset buf newEnd, fun hw => absurd hw.1 hfits, fun _ hb => hb⟩
    rw [Function.update_eq_self]
    rfl

/-- What a call that returns does. -/
inductive FileEffect (s : Files) : FileOp → Files → Prop
  | none {op : FileOp} (hop : ∀ path stale stale', op = .dir (.unlink path stale stale') →
      s.fs.unlinkTarget stale stale' path = .ok Option.none)
      (hwrite : ∀ node offset buf grow, op ≠ .writeFile (some node) offset buf grow) : FileEffect s op s
  | opened {path : List UInt8} {stale : Buf} {node : ℕ} (hnode : s.fs.resolve stale path = .ok (some node)) :
      FileEffect s (.openFile path stale) { s with
        fs := s.fs.setRefCount node (((s.fs.inodes node).refCount + 1) % 2 ^ 32)
        opens := Function.update s.opens node (s.opens node + 1) }
  | closed {node : ℕ} (hlive : s.fs.live node = true) :
      FileEffect s (.closeFile (some node)) { s with
        fs := s.fs.setRefCount node ((s.fs.inodes node).refCount - 1)
        opens := Function.update s.opens node (s.opens node - 1) }
  | wrote {node : ℕ} {offset : ℤ} {buf : List UInt8} {grow : ℕ → Option Buf} {inode : Inode} {b : Bool}
      (hlive : s.fs.live node = true) (hinode : Rewritten (s.fs.inodes node) inode)
      (hfrees : s.WrapsToZero node (wadd (toU64 offset) buf.length) → b = false)
      (hkeeps : ¬ s.WrapsToZero node (wadd (toU64 offset) buf.length) → s.block node = true → b = true) :
      FileEffect s (.writeFile (some node) offset buf grow)
        { s.setInode node inode with block := Function.update s.block node b }
  | created {path : List UInt8} {mode : ℕ} {stale stale' : Buf} {name : List UInt8} {parent c : ℕ}
      (hparent : s.fs.Reached parent) (hcount : (s.fs.inodes parent).childCount < TMPFS_MAX_CHILDREN)
      (hc : s.fs.live c = false) :
      FileEffect s (.dir (.mkdir path mode (some c) stale stale'))
        { s with fs := s.fs.created parent name mode c }
  | removed {path : List UInt8} {stale stale' : Buf} {parent i v : ℕ}
      (htarget : s.fs.unlinkTarget stale stale' path = .ok (some v)) (hparent : s.fs.Reached parent)
      (hi : i < (s.fs.inodes parent).childCount) (hv : (s.fs.inodes parent).children i = v) :
      FileEffect s (.dir (.unlink path stale stale'))
        { s with fs := s.fs.removed parent i, block := Function.update s.block v false }

theorem exec_cases {op : FileOp} (h : FileStep s op s') : FileEffect s op s' := by
  obtain ⟨hadm, h⟩ := h
  cases op with
  | openFile path stale =>
      obtain ⟨⟨fs, r⟩, hopen, h⟩ := bind_eq_ok.mp h
      obtain ⟨rfl, rfl⟩ | ⟨node, rfl, hnode, rfl⟩ := Tmpfs.vfsOpen_cases hopen
      · cases h
        exact .none (fun _ _ _ hop => nomatch hop) (fun _ _ _ _ hop => nomatch hop)
      · cases h
        exact .opened hnode
  | closeFile node =>
      cases node with
      | none =>
          cases h
          exact .none (fun _ _ _ hop => nomatch hop) (fun _ _ _ _ hop => nomatch hop)
      | some node =>
          cases h
          rw [Tmpfs.vfsClose_eq]
          exact .closed (hadm node rfl)
  | readFile node offset size =>
      obtain ⟨_, _, h⟩ := bind_eq_ok.mp h
      cases h
      exact .none (fun _ _ _ hop => nomatch hop) (fun _ _ _ _ hop => nomatch hop)
  | writeFile node offset buf grow =>
      obtain ⟨⟨s₁, res⟩, hwrite, h⟩ := bind_eq_ok.mp h
      cases h
      cases node with
      | none =>
          cases hwrite
          exact .none (fun _ _ _ hop => nomatch hop) (fun _ _ _ _ hop => nomatch hop)
      | some node =>
          obtain ⟨inode, b, rfl, hinode, hfrees, hkeeps⟩ := tmpfsWrite_spec hwrite
          exact .wrote (hadm node rfl) hinode hfrees hkeeps
  | dir op =>
      cases op with
      | mkdir path mode child stale stale' =>
          obtain ⟨⟨fs, res⟩, hmkdir, h⟩ := bind_eq_ok.mp h
          cases h
          obtain ⟨rfl, _⟩ | ⟨dir, parent, c, _, hparent, hcount, rfl, rfl, _⟩ := Tmpfs.vfsMkdir_cases hmkdir
          · exact .none (fun _ _ _ hop => nomatch hop) (fun _ _ _ _ hop => nomatch hop)
          · exact .created (Tmpfs.resolve_reached hparent) hcount (hadm.2 c rfl)
      | unlink path stale stale' =>
          obtain ⟨⟨s₁, res⟩, hunlink, h⟩ := bind_eq_ok.mp h
          cases h
          obtain ⟨target, htarget, h⟩ := bind_eq_ok.mp hunlink
          obtain ⟨⟨fs, res⟩, hu, h⟩ := bind_eq_ok.mp h
          cases target with
          | none =>
              cases h
              obtain rfl := Tmpfs.vfsUnlink_of_target_none htarget hu
              refine .none (fun _ _ _ hop => ?_) (fun _ _ _ _ hop => nomatch hop)
              cases hop
              exact htarget
          | some v =>
              obtain ⟨parent, i, hparent, hi, hv, rfl⟩ := Tmpfs.vfsUnlink_of_target_some htarget hu
              dsimp only at h
              split at h
              · cases h
              · cases h
                exact .removed htarget hparent hi hv

/-- Every call keeps the forest. -/
theorem FileEffect.grown {op : FileOp} (e : FileEffect s op s') (hg : Tmpfs.Grown s.fs) : Tmpfs.Grown s'.fs := by
  cases e with
  | none => exact hg
  | opened => exact (Tmpfs.sameTree_setRefCount _ _ _).grown hg
  | closed => exact (Tmpfs.sameTree_setRefCount _ _ _).grown hg
  | wrote _ hinode =>
      exact (Tmpfs.SameTree.update (by rw [hinode.1]) (by rw [hinode.1])).grown hg
  | created hparent hcount hc => exact hg.created hparent hcount hc
  | removed _ hparent hi => exact hg.removed hparent hi

end Files
end HeroOS
