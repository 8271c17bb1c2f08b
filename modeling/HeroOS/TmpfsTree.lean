import HeroOS.ArrayList
import HeroOS.Forest
import HeroOS.Run
import HeroOS.Tmpfs

/-! # The tree of directories

`vfs_mkdir` and `vfs_unlink` with any paths, on a root that `tmpfs_mount` has made.  The children of
a directory are a list (`kids`): `vfs_mkdir` appends to it, the shift loop of `tmpfs_unlink` erases
from it, and path lookup only walks along it.  With this, one call is an edit of the forest of
allocated inodes:

* `vfsMkdir_cases`, `vfsUnlink_cases`: a call fails and changes nothing, or makes one edit in a
  directory that is reached from the root;
* `tmpfs_tree`: in every state reached, the inodes below the root form a tree of allocated inodes
  with at most 64 children each, and their numbers are distinct as long as fewer than `2 ^ 64`
  directories have been asked for, since the 64-bit counter of inode numbers then comes round. -/

namespace HeroOS

open CString Word Forest

/-! ### Path lookup -/

namespace Vfs

variable {ν : Type} {finddir : ν → Buf → Option ν} {P : ν → Prop} {buf stale : Buf} {fuel tok : ℕ}
  {node r root : ν} {path : List UInt8}

/-- A property that every lookup passes on to the result holds of every node that a path leads to. -/
theorem resolveLoop_invariant (hstep : ∀ n name n', P n → finddir n name = some n' → P n') (h0 : P node)
    (h : resolveLoop finddir buf fuel node tok = .ok (some r)) : P r := by
  induction fuel generalizing node tok with
  | zero => cases h
  | succ fuel ih =>
      rw [resolveLoop] at h
      split at h
      · cases h
      · split at h
        · cases h
          exact h0
        · obtain ⟨⟨name, rest⟩, _, h⟩ := bind_eq_ok.mp h
          dsimp only at h
          split at h
          · cases h
          · rename_i node' hnode'
            have h1 : P node' := hstep _ _ _ h0 hnode'
            split at h
            · cases h
              exact h1
            · exact ih h1 h

theorem vfsResolvePath_invariant (hstep : ∀ n name n', P n → finddir n name = some n' → P n') (h0 : P root)
    (h : vfsResolvePath finddir (some root) stale path = .ok (some r)) : P r := by
  unfold vfsResolvePath at h
  dsimp only at h
  split at h
  · cases h
    exact h0
  · exact resolveLoop_invariant hstep h0 h

end Vfs

namespace Tmpfs

variable {fs fs' : Tmpfs} {parent c d i mode : ℕ} {name path dir : List UInt8} {stale stale' : Buf} {res : ℤ}

/-! ### The children of a directory -/

/-- The children of a directory, in the order of their slots. -/
def kids (fs : Tmpfs) (d : ℕ) : List ℕ := (List.range (fs.inodes d).childCount).map (fs.inodes d).children

/-- The inodes below the root. -/
abbrev Reached (fs : Tmpfs) (d : ℕ) : Prop := Reach fs.kids fs.root d

/-- The allocated inodes. -/
def Allocated (fs : Tmpfs) (d : ℕ) : Prop := fs.live d = true

@[simp]
theorem length_kids (fs : Tmpfs) (d : ℕ) : (fs.kids d).length = (fs.inodes d).childCount :=
  ArrayList.length_entries _ _

theorem getElem?_kids (fs : Tmpfs) (d i : ℕ) :
    (fs.kids d)[i]? = if i < (fs.inodes d).childCount then some ((fs.inodes d).children i) else none :=
  ArrayList.getElem?_entries _ _ i

/-- Two directories with the same slots have the same children. -/
theorem kids_congr (hcount : (fs'.inodes d).childCount = (fs.inodes d).childCount)
    (hchildren : (fs'.inodes d).children = (fs.inodes d).children) : fs'.kids d = fs.kids d := by
  unfold kids
  rw [hcount, hchildren]

theorem findSlot_spec {b : Buf} (h : fs.findSlot d b = some i) :
    i < (fs.inodes d).childCount ∧ strcmpEq (fs.inodes ((fs.inodes d).children i)).name b = true :=
  ⟨List.mem_range.mp (List.mem_of_find?_eq_some h), by simpa using List.find?_some h⟩

theorem mem_kids (h : i < (fs.inodes d).childCount) : (fs.inodes d).children i ∈ fs.kids d := ArrayList.mem_entries h

theorem tmpfsFinddir_mem {b : Buf} (h : fs.tmpfsFinddir d b = some c) : c ∈ fs.kids d := by
  obtain ⟨i, hi, rfl⟩ := Option.map_eq_some_iff.mp h
  exact mem_kids (findSlot_spec hi).1

/-- A path leads to an inode below the root. -/
theorem resolve_reached (h : fs.resolve stale path = .ok (some d)) : fs.Reached d :=
  Vfs.vfsResolvePath_invariant (P := fs.Reached) (fun _ _ _ hn hf => hn.child (tmpfsFinddir_mem hf)) .root h

/-! ### Creating -/

/-- The state after `tmpfs_mkdir` has linked the new inode `c`. -/
def created (fs : Tmpfs) (parent : ℕ) (name : List UInt8) (mode c : ℕ) : Tmpfs :=
  addChild { fs with
    inodes := Function.update fs.inodes c (fs.newInode name mode)
    live := Function.update fs.live c true
    inodeCounter := wadd fs.inodeCounter 1 } parent c

theorem created_child (hne : c ≠ parent) : (fs.created parent name mode c).inodes c = fs.newInode name mode := by
  simp [created, addChild, hne]

theorem created_parent (hne : c ≠ parent) : (fs.created parent name mode c).inodes parent =
    { fs.inodes parent with
      children := Function.update (fs.inodes parent).children (fs.inodes parent).childCount c
      childCount := (fs.inodes parent).childCount + 1 } := by
  simp [created, addChild, hne.symm]

theorem created_other (hp : d ≠ parent) (hc : d ≠ c) :
    (fs.created parent name mode c).inodes d = fs.inodes d := by
  simp [created, addChild, hp, hc]

/-- `tmpfs_mkdir` attaches a leaf. -/
theorem attach_created (name : List UInt8) (mode : ℕ) (hlive : fs.live c = false) (hp : fs.Allocated parent) :
    Attach fs.kids fs.Allocated parent c (fs.created parent name mode c).kids
      (fs.created parent name mode c).Allocated := by
  have hne : c ≠ parent := by
    rintro rfl
    exact Bool.false_ne_true (hlive.symm.trans hp)
  refine ⟨by simp [Allocated, hlive], ?_, ?_, ?_, ?_⟩
  · unfold kids
    rw [created_child hne]
    rfl
  · unfold kids
    rw [created_parent hne]
    exact ArrayList.entries_push _ _ c
  · intro d hdp hdc
    rw [kids_congr] <;> rw [created_other hdp hdc]
  · intro d
    unfold Allocated created addChild
    dsimp only
    by_cases hd : d = c
    · simp [hd]
    · simp [hd]

/-- `vfs_mkdir` fails and changes nothing, or attaches a new inode to a directory with room. -/
theorem vfsMkdir_cases {child : Option ℕ} (h : fs.vfsMkdir stale stale' path mode child = .ok (fs', res)) :
    (fs' = fs ∧ res < 0) ∨ ∃ dir parent c, Vfs.vfsPathDirname stale path = .ok dir ∧
      fs.resolve stale' dir = .ok (some parent) ∧ (fs.inodes parent).childCount < TMPFS_MAX_CHILDREN ∧
      child = some c ∧ fs' = fs.created parent (Vfs.vfsPathBasename path) mode c ∧ res = 0 := by
  unfold vfsMkdir at h
  obtain ⟨dir, hdir, h⟩ := bind_eq_ok.mp h
  obtain ⟨parent, hparent, h⟩ := bind_eq_ok.mp h
  cases parent with
  | none =>
      cases h
      exact .inl ⟨rfl, by norm_num⟩
  | some parent =>
      dsimp only at h
      unfold tmpfsMkdir at h
      split at h
      · cases h
        exact .inl ⟨rfl, by norm_num⟩
      · rename_i hcount
        cases child with
        | none =>
            cases h
            exact .inl ⟨rfl, by norm_num⟩
        | some c =>
            cases h
            exact .inr ⟨dir, parent, c, hdir, hparent, not_le.mp hcount, rfl, rfl, rfl⟩

/-! ### Removing -/

/-- The loop of `tmpfs_unlink` closes the gap at `j`. -/
theorem shiftLoop_eq (n j : ℕ) (children : ℕ → ℕ) : Inode.shiftLoop n j children = ArrayList.closeGap n j children := by
  induction n generalizing j children with
  | zero => rfl
  | succ n ih => exact ih _ _

/-- The state after `tmpfs_unlink` has removed slot `i`. -/
def removed (fs : Tmpfs) (parent i : ℕ) : Tmpfs :=
  (fs.freeInode ((fs.inodes parent).children i)).removeSlot parent i

theorem freeInode_fields (fs : Tmpfs) (v d : ℕ) :
    (fs.freeInode v).inodes d = { fs.inodes d with data := ((fs.freeInode v).inodes d).data } := by
  unfold freeInode
  by_cases hd : d = v
  · subst hd
    simp
  · simp [hd]

theorem kids_removed_parent (hi : i < (fs.inodes parent).childCount) :
    (fs.removed parent i).kids parent = (fs.kids parent).eraseIdx i := by
  have hf := freeInode_fields fs ((fs.inodes parent).children i) parent
  have hcount : ((fs.removed parent i).inodes parent).childCount = (fs.inodes parent).childCount - 1 := by
    unfold removed removeSlot
    dsimp only
    rw [Function.update_self, hf]
  have hchildren : ((fs.removed parent i).inodes parent).children =
      Inode.shiftLoop ((fs.inodes parent).childCount - 1 - i) i (fs.inodes parent).children := by
    unfold removed removeSlot
    dsimp only
    rw [Function.update_self, hf]
  calc (fs.removed parent i).kids parent
      = ArrayList.entries ((fs.inodes parent).childCount - 1)
          (ArrayList.closeGap ((fs.inodes parent).childCount - 1 - i) i (fs.inodes parent).children) := by
        unfold kids
        rw [hcount, hchildren, shiftLoop_eq]
        rfl
    _ = (fs.kids parent).eraseIdx i := ArrayList.entries_closeGap hi

/-- `tmpfs_unlink` keeps all other fields. -/
theorem removed_other (hd : d ≠ parent) : (fs.removed parent i).inodes d =
    { fs.inodes d with data := ((fs.removed parent i).inodes d).data } := by
  unfold removed removeSlot
  dsimp only
  rw [Function.update_of_ne hd]
  exact freeInode_fields fs _ d

/-- `tmpfs_unlink` detaches and frees one child. -/
theorem detach_removed (hi : i < (fs.inodes parent).childCount) :
    Detach fs.kids fs.Allocated parent ((fs.inodes parent).children i) (fs.removed parent i).kids
      (fs.removed parent i).Allocated := by
  have hlen : i < (fs.kids parent).length := by rwa [length_kids]
  have hget : (fs.kids parent)[i] = (fs.inodes parent).children i := by
    simp [kids]
  refine ⟨⟨(fs.kids parent).take i, (fs.kids parent).drop (i + 1), ?_, ?_⟩, ?_, ?_⟩
  · rw [← hget, List.getElem_cons_drop, List.take_append_drop]
  · rw [kids_removed_parent hi, List.eraseIdx_eq_take_drop_succ]
  · intro d hd
    rw [kids_congr] <;> rw [removed_other hd]
  · intro d
    unfold Allocated removed removeSlot freeInode
    dsimp only
    by_cases hd : d = (fs.inodes parent).children i
    · simp [hd]
    · simp [hd]

/-- `vfs_unlink` fails and changes nothing, or removes the child with the given name. -/
theorem vfsUnlink_cases (h : fs.vfsUnlink stale stale' path = .ok (fs', res)) :
    (fs' = fs ∧ res < 0) ∨ ∃ dir parent i, Vfs.vfsPathDirname stale path = .ok dir ∧
      fs.resolve stale' dir = .ok (some parent) ∧
      fs.findSlot parent (ofList (Vfs.vfsPathBasename path)) = some i ∧
      fs' = fs.removed parent i ∧ res = 0 := by
  unfold vfsUnlink at h
  obtain ⟨dir, hdir, h⟩ := bind_eq_ok.mp h
  obtain ⟨parent, hparent, h⟩ := bind_eq_ok.mp h
  cases parent with
  | none =>
      cases h
      exact .inl ⟨rfl, by norm_num⟩
  | some parent =>
      dsimp only at h
      unfold tmpfsUnlink at h
      split at h
      · cases h
        exact .inl ⟨rfl, by norm_num⟩
      · rename_i i hi
        cases h
        exact .inr ⟨dir, parent, i, hdir, hparent, hi, rfl, rfl⟩

end Tmpfs

/-! ### Runs -/

/-- The calls that change the tree, with what their environment contributes: the object that
`kcalloc` returns, and the bytes that their buffers on the stack held before. -/
inductive DirOp where
  | mkdir (path : List UInt8) (mode : ℕ) (child : Option ℕ) (stale stale' : Buf)
  | unlink (path : List UInt8) (stale stale' : Buf)

/-- The call is one of `vfs_mkdir`. -/
def DirOp.isMkdir : DirOp → Bool
  | .mkdir .. => true
  | .unlink .. => false

namespace Tmpfs

/-- One call. -/
def exec (fs : Tmpfs) : DirOp → Except Halt (Tmpfs × ℤ)
  | .mkdir path mode child stale stale' => fs.vfsMkdir stale stale' path mode child
  | .unlink path stale stale' => fs.vfsUnlink stale stale' path

/-- The path is a string, and `kcalloc` returns memory that is not in use. -/
def Admissible (fs : Tmpfs) : DirOp → Prop
  | .mkdir path _ child _ _ => NoNul path ∧ ∀ c, child = some c → fs.live c = false
  | .unlink path _ _ => NoNul path

/-- A call that returns `res`. -/
def Returns (fs : Tmpfs) (op : DirOp) (fs' : Tmpfs) (res : ℤ) : Prop :=
  fs.Admissible op ∧ fs.exec op = .ok (fs', res)

end Tmpfs

/-- A call that returns. -/
def DirStep (fs : Tmpfs) (op : DirOp) (fs' : Tmpfs) : Prop := ∃ res, fs.Returns op fs' res

namespace Tmpfs

variable {fs fs' : Tmpfs} {op : DirOp} {parent c d i mode : ℕ} {name : List UInt8} {res : ℤ}

/-- What a call does to the tree. -/
inductive DirEffect (fs : Tmpfs) : DirOp → Tmpfs → ℤ → Prop
  | failed {op : DirOp} {res : ℤ} (hres : res < 0) : DirEffect fs op fs res
  | created {path dir : List UInt8} {mode parent c : ℕ} {stale stale' : Buf} (hpath : NoNul path)
      (hdir : Vfs.vfsPathDirname stale path = .ok dir) (hparent : fs.resolve stale' dir = .ok (some parent))
      (hcount : (fs.inodes parent).childCount < TMPFS_MAX_CHILDREN) (hc : fs.live c = false) :
      DirEffect fs (.mkdir path mode (some c) stale stale')
        (fs.created parent (Vfs.vfsPathBasename path) mode c) 0
  | removed {path dir : List UInt8} {parent i : ℕ} {stale stale' : Buf} (hpath : NoNul path)
      (hdir : Vfs.vfsPathDirname stale path = .ok dir) (hparent : fs.resolve stale' dir = .ok (some parent))
      (hslot : fs.findSlot parent (ofList (Vfs.vfsPathBasename path)) = some i) :
      DirEffect fs (.unlink path stale stale') (fs.removed parent i) 0

theorem Returns.effect (h : fs.Returns op fs' res) : DirEffect fs op fs' res := by
  obtain ⟨hadm, h⟩ := h
  cases op with
  | mkdir path mode child stale stale' =>
      obtain ⟨rfl, hres⟩ | ⟨dir, parent, c, hdir, hparent, hcount, rfl, rfl, rfl⟩ := vfsMkdir_cases h
      · exact .failed hres
      · exact .created hadm.1 hdir hparent hcount (hadm.2 c rfl)
  | unlink path stale stale' =>
      obtain ⟨rfl, hres⟩ | ⟨dir, parent, i, hdir, hparent, hslot, rfl, rfl⟩ := vfsUnlink_cases h
      · exact .failed hres
      · exact .removed hadm hdir hparent hslot

/-- The allocated inodes form a forest of directories with at most 64 children. -/
structure Grown (fs : Tmpfs) : Prop where
  forest : IsForest fs.kids fs.Allocated fs.root
  bounded : ∀ d, fs.Allocated d → (fs.inodes d).childCount ≤ TMPFS_MAX_CHILDREN

/-- A freshly mounted root is empty. -/
@[simp]
theorem kids_mount (counter root d : ℕ) : (tmpfsMount counter root).kids d = [] := by
  unfold kids tmpfsMount
  by_cases hd : d = root
  · simp [hd, rootInode]
  · simp [hd]

theorem Grown.mount (counter root : ℕ) : Grown (tmpfsMount counter root) := by
  have hroot : ∀ d, (tmpfsMount counter root).Allocated d ↔ d = root := by
    intro d
    unfold Allocated tmpfsMount
    exact decide_eq_true_iff
  refine ⟨⟨(hroot root).mpr rfl, ?_, ?_, ?_, ?_⟩, ?_⟩
  · intro d _ c hc
    rw [kids_mount] at hc
    cases hc
  · intro d _
    rw [kids_mount]
    exact List.nodup_nil
  · intro d d' _ hd hd' _ _
    exact ((hroot d).mp hd).trans ((hroot d').mp hd').symm
  · intro d _
    rw [kids_mount]
    exact List.not_mem_nil
  · intro d _
    rw [← length_kids, kids_mount]
    exact Nat.zero_le _

theorem Grown.created (h : Grown fs) (hp : fs.Reached parent)
    (hcount : (fs.inodes parent).childCount < TMPFS_MAX_CHILDREN) (hc : fs.live c = false) :
    Grown (fs.created parent name mode c) := by
  have hlive := hp.is_live h.forest
  have a := attach_created name mode hc hlive
  refine ⟨h.forest.attach hlive a, ?_⟩
  intro d hd
  rw [← length_kids]
  by_cases hdc : d = c
  · rw [hdc, a.leaf]
    exact Nat.zero_le _
  · by_cases hdp : d = parent
    · rw [hdp, a.parent, List.length_append, length_kids]
      exact hcount
    · rw [a.other d hdp hdc, length_kids]
      exact h.bounded d (((a.live_iff d).mp hd).resolve_right hdc)

theorem Grown.removed (h : Grown fs) (hp : fs.Reached parent) (hi : i < (fs.inodes parent).childCount) :
    Grown (fs.removed parent i) := by
  have t := detach_removed hi
  refine ⟨h.forest.detach (hp.is_live h.forest) t, ?_⟩
  intro d hd
  have hle := h.bounded d ((t.live_iff d).mp hd).1
  rw [← length_kids] at hle ⊢
  exact (t.sublist d).length_le.trans hle

theorem Grown.step (h : Grown fs) (e : DirEffect fs op fs' res) : Grown fs' := by
  cases e with
  | failed => exact h
  | created _ _ hparent hcount hc => exact h.created (resolve_reached hparent) hcount hc
  | removed _ _ hparent hslot => exact h.removed (resolve_reached hparent) (findSlot_spec hslot).1

/-! ### Inode numbers -/

/-- `n` inodes have been numbered from `c₀` on, modulo `2 ^ 64`; `serial` says in which order. -/
structure Numbered (c₀ n : ℕ) (serial : ℕ → ℕ) (fs : Tmpfs) : Prop where
  counter : fs.inodeCounter = (c₀ + n) % 2 ^ 64
  serial_lt : ∀ d, fs.Allocated d → serial d < n
  serial_inj : ∀ d d', fs.Allocated d → fs.Allocated d' → serial d = serial d' → d = d'
  number : ∀ d, fs.Allocated d → (fs.inodes d).inode = (c₀ + serial d) % 2 ^ 64 ∧
    (fs.inodes d).inodeNo = (c₀ + serial d) % 2 ^ 64

theorem Numbered.mount {c₀ : ℕ} (hc₀ : c₀ < 2 ^ 64) (root : ℕ) :
    Numbered c₀ 1 (fun _ => 0) (tmpfsMount c₀ root) := by
  have hroot : ∀ d, (tmpfsMount c₀ root).Allocated d → d = root := fun d hd => of_decide_eq_true hd
  refine ⟨rfl, fun _ _ => Nat.one_pos, fun d d' hd hd' _ => (hroot d hd).trans (hroot d' hd').symm, ?_⟩
  intro d hd
  rw [hroot d hd, Nat.add_zero, Nat.mod_eq_of_lt hc₀]
  simp [tmpfsMount, rootInode]

variable {c₀ n : ℕ} {serial : ℕ → ℕ}

theorem Numbered.created (h : Numbered c₀ n serial fs) (hlive : fs.Allocated parent) (hc : fs.live c = false) :
    Numbered c₀ (n + 1) (Function.update serial c n) (fs.created parent name mode c) := by
  have a := attach_created name mode hc hlive
  have hne : c ≠ parent := fun e => a.fresh (e ▸ hlive)
  have hold : ∀ d, (fs.created parent name mode c).Allocated d → d ≠ c →
      fs.Allocated d ∧ Function.update serial c n d = serial d :=
    fun d hd hdc => ⟨((a.live_iff d).mp hd).resolve_right hdc, Function.update_of_ne hdc _ _⟩
  have hlt : ∀ d, (fs.created parent name mode c).Allocated d → d ≠ c → Function.update serial c n d < n := by
    intro d hd hdc
    obtain ⟨hd, hs⟩ := hold d hd hdc
    rw [hs]
    exact h.serial_lt d hd
  have hsame : ∀ d, d ≠ c → ((fs.created parent name mode c).inodes d).inode = (fs.inodes d).inode ∧
      ((fs.created parent name mode c).inodes d).inodeNo = (fs.inodes d).inodeNo := by
    intro d hdc
    by_cases hdp : d = parent
    · rw [hdp, created_parent hne]
      exact ⟨rfl, rfl⟩
    · rw [created_other hdp hdc]
      exact ⟨rfl, rfl⟩
  refine ⟨?_, ?_, ?_, ?_⟩
  · calc wadd fs.inodeCounter 1 = ((c₀ + n) % 2 ^ 64 + 1) % 2 ^ 64 := by rw [h.counter]; rfl
      _ = (c₀ + (n + 1)) % 2 ^ 64 := by rw [Nat.mod_add_mod, Nat.add_assoc]
  · intro d hd
    by_cases hdc : d = c
    · rw [hdc, Function.update_self]
      exact Nat.lt_succ_self n
    · exact (hlt d hd hdc).trans (Nat.lt_succ_self n)
  · intro d d' hd hd' hs
    by_cases hdc : d = c
    · by_cases hdc' : d' = c
      · exact hdc.trans hdc'.symm
      · have := hlt d' hd' hdc'
        rw [← hs, hdc, Function.update_self] at this
        exact absurd this (lt_irrefl n)
    · by_cases hdc' : d' = c
      · have := hlt d hd hdc
        rw [hs, hdc', Function.update_self] at this
        exact absurd this (lt_irrefl n)
      · obtain ⟨hd, h1⟩ := hold d hd hdc
        obtain ⟨hd', h2⟩ := hold d' hd' hdc'
        exact h.serial_inj d d' hd hd' (h1.symm.trans (hs.trans h2))
  · intro d hd
    by_cases hdc : d = c
    · rw [hdc, created_child hne, Function.update_self]
      exact ⟨h.counter, h.counter⟩
    · obtain ⟨hd, h1⟩ := hold d hd hdc
      rw [(hsame d hdc).1, (hsame d hdc).2, h1]
      exact h.number d hd

theorem Numbered.removed (h : Numbered c₀ n serial fs) (hi : i < (fs.inodes parent).childCount) :
    Numbered c₀ n serial (fs.removed parent i) := by
  have t := detach_removed hi
  have hlive : ∀ d, (fs.removed parent i).Allocated d → fs.Allocated d := fun d hd => ((t.live_iff d).mp hd).1
  have hsame : ∀ d, ((fs.removed parent i).inodes d).inode = (fs.inodes d).inode ∧
      ((fs.removed parent i).inodes d).inodeNo = (fs.inodes d).inodeNo := by
    intro d
    by_cases hdp : d = parent
    · subst hdp
      unfold Tmpfs.removed removeSlot
      dsimp only
      rw [Function.update_self, freeInode_fields]
      exact ⟨rfl, rfl⟩
    · rw [removed_other hdp]
      exact ⟨rfl, rfl⟩
  refine ⟨h.counter, fun d hd => h.serial_lt d (hlive d hd),
    fun d d' hd hd' => h.serial_inj d d' (hlive d hd) (hlive d' hd'), ?_⟩
  intro d hd
  rw [(hsame d).1, (hsame d).2]
  exact h.number d (hlive d hd)

/-- The trees in which at most `n` inodes have been numbered. -/
def NumberedUpTo (c₀ n : ℕ) (fs : Tmpfs) : Prop := Grown fs ∧ ∃ k serial, k ≤ n ∧ Numbered c₀ k serial fs

/-- A call numbers at most one inode, and only `vfs_mkdir` does. -/
theorem NumberedUpTo.step (h : NumberedUpTo c₀ n fs) (e : DirEffect fs op fs' res) :
    NumberedUpTo c₀ (if op.isMkdir then n + 1 else n) fs' := by
  obtain ⟨hg, k, serial, hk, hn⟩ := h
  refine ⟨hg.step e, ?_⟩
  cases e with
  | failed =>
      refine ⟨k, serial, ?_, hn⟩
      split <;> omega
  | created _ _ hparent _ hc =>
      have hlive := (resolve_reached hparent).is_live hg.forest
      exact ⟨k + 1, _, Nat.succ_le_succ hk, hn.created hlive hc⟩
  | removed _ _ _ hslot => exact ⟨k, serial, hk, hn.removed (findSlot_spec hslot).1⟩

/-- The inodes below the root form a tree of allocated inodes. -/
structure IsTree (fs : Tmpfs) : Prop where
  unique_slot : ∀ d, fs.Reached d → d ≠ fs.root → ∃! slot : ℕ × ℕ, fs.Reached slot.1 ∧
    slot.2 < (fs.inodes slot.1).childCount ∧ (fs.inodes slot.1).children slot.2 = d
  root_free : ∀ d i, fs.Reached d → i < (fs.inodes d).childCount → (fs.inodes d).children i ≠ fs.root
  bounded : ∀ d, fs.Reached d → (fs.inodes d).childCount ≤ 64
  slots : ∀ d i, fs.Reached d → i < (fs.inodes d).childCount → fs.live ((fs.inodes d).children i) = true
  allocated : ∀ d, fs.Reached d → fs.live d = true

theorem Grown.isTree (h : Grown fs) : IsTree fs := by
  refine ⟨?_, ?_, fun d hd => h.bounded d (hd.is_live h.forest), ?_, fun d hd => hd.is_live h.forest⟩
  · intro d hd hne
    have hslot : ∀ slot : ℕ × ℕ, (fs.kids slot.1)[slot.2]? = some d ↔
        slot.2 < (fs.inodes slot.1).childCount ∧ (fs.inodes slot.1).children slot.2 = d := by
      intro slot
      rw [getElem?_kids]
      split
      · rename_i hlt
        simp [hlt]
      · rename_i hlt
        simp [hlt]
    simpa only [hslot] using h.forest.unique_slot hd hne
  · intro d i hd hi he
    exact h.forest.root_free d (hd.is_live h.forest) (he ▸ mem_kids hi)
  · intro d i hd hi
    exact h.forest.kids_live d (hd.is_live h.forest) _ (mem_kids hi)

theorem foldl_count_mkdir (ops : List DirOp) (n : ℕ) :
    ops.foldl (fun n op => if op.isMkdir then n + 1 else n) n = n + ops.countP DirOp.isMkdir := by
  induction ops generalizing n with
  | nil => rfl
  | cons op ops ih =>
      rw [List.foldl_cons, ih, List.countP_cons]
      cases op.isMkdir with
      | false => rfl
      | true => exact Nat.add_right_comm n 1 _

/-- **The tree of a tmpfs.**  After any calls of `vfs_mkdir` and `vfs_unlink` with any paths, from a
freshly mounted root and with allocations that fail at will, the inodes below the root form a tree
of allocated inodes with at most 64 children each.  Their numbers are pairwise distinct as long as
`vfs_mkdir` has been called fewer than `2 ^ 64` times. -/
theorem tmpfs_tree {root : ℕ} {ops : List DirOp} (hc₀ : c₀ < 2 ^ 64)
    (hrun : Run DirStep (tmpfsMount c₀ root) ops fs) :
    IsTree fs ∧ (ops.countP DirOp.isMkdir < 2 ^ 64 → ∀ d d', fs.Reached d → fs.Reached d' →
      ((fs.inodes d).inodeNo = (fs.inodes d').inodeNo ∨ (fs.inodes d).inode = (fs.inodes d').inode) → d = d') := by
  have h0 : NumberedUpTo c₀ 1 (tmpfsMount c₀ root) :=
    ⟨Grown.mount c₀ root, 1, _, le_rfl, Numbered.mount hc₀ root⟩
  have hI : NumberedUpTo c₀ (ops.foldl (fun n op => if op.isMkdir then n + 1 else n) 1) fs :=
    hrun.simulation (R := fun fs n => NumberedUpTo c₀ n fs) (fun _ _ _ _ h hs => by
      obtain ⟨res, hs⟩ := hs
      exact h.step hs.effect) h0
  rw [foldl_count_mkdir] at hI
  obtain ⟨hg, k, serial, hk, hn⟩ := hI
  refine ⟨hg.isTree, fun hlt d d' hd hd' heq => ?_⟩
  have hd := hd.is_live hg.forest
  have hd' := hd'.is_live hg.forest
  have hs := hn.serial_lt d hd
  have hs' := hn.serial_lt d' hd'
  apply hn.serial_inj d d' hd hd'
  rw [(hn.number d hd).1, (hn.number d hd).2, (hn.number d' hd').1, (hn.number d' hd').2, or_self] at heq
  omega

/-- The path `/a`. -/
def pathA : List UInt8 := [SLASH, 0x61]

/-- A buffer of zeros. -/
def zeros : Buf := fun _ => 0

theorem noNul_pathA : NoNul pathA := by decide +kernel

theorem dirname_pathA : Vfs.vfsPathDirname zeros pathA = .ok [SLASH] := by decide +kernel

theorem basename_pathA : Vfs.vfsPathBasename pathA = [0x61] := by decide +kernel

theorem resolve_slash (fs : Tmpfs) (stale : Buf) : fs.resolve stale [SLASH] = .ok (some fs.root) := rfl

/-- `mkdir /a` in a root with room. -/
theorem returns_mkdir_pathA (hcount : (fs.inodes fs.root).childCount < TMPFS_MAX_CHILDREN) (hc : fs.live c = false) :
    fs.Returns (.mkdir pathA 0o755 (some c) zeros zeros) (fs.created fs.root [0x61] 0o755 c) 0 := by
  refine ⟨⟨noNul_pathA, fun x hx => Option.some.inj hx ▸ hc⟩, ?_⟩
  unfold exec vfsMkdir
  dsimp only
  rw [dirname_pathA, basename_pathA]
  unfold tmpfsMkdir
  exact congrArg Except.ok (if_neg (not_le.mpr hcount))

/-- A tmpfs with an empty root `100` and nothing else, whose next inode gets the number `k`. -/
structure Bare (fs : Tmpfs) (k : ℕ) : Prop where
  root : fs.root = 100
  live : ∀ d, fs.live d = decide (d = 100)
  empty : (fs.inodes 100).childCount = 0
  number : (fs.inodes 100).inodeNo = 1
  counter : fs.inodeCounter = k % 2 ^ 64

theorem Bare.created {k : ℕ} (h : Bare fs k) :
    fs.Returns (.mkdir pathA 0o755 (some 200) zeros zeros) (fs.created 100 [0x61] 0o755 200) 0 := by
  have hc : fs.live 200 = false := by
    rw [h.live]
    rfl
  have hcount : (fs.inodes fs.root).childCount < TMPFS_MAX_CHILDREN := by
    rw [h.root, h.empty]
    decide
  have hr := returns_mkdir_pathA hcount hc
  rwa [h.root] at hr

/-- `mkdir /a` and `unlink /a` use up one inode number. -/
theorem Bare.pair {k : ℕ} (h : Bare fs k) : ∃ ops fs', Run DirStep fs ops fs' ∧ Bare fs' (k + 1) := by
  let fs₁ := fs.created 100 [0x61] 0o755 200
  have hcount : (fs₁.inodes 100).childCount = 1 := by
    rw [created_parent (by decide), h.empty]
  have hchild : (fs₁.inodes 100).children 0 = 200 := by
    rw [created_parent (by decide), h.empty]
    dsimp only
    rw [Function.update_self]
  have hname : (fs₁.inodes 200).name = [0x61] := by
    rw [created_child (by decide)]
    rfl
  have hslot : fs₁.findSlot 100 (ofList [0x61]) = some 0 := by
    unfold findSlot
    rw [hcount]
    simp only [List.range_one, List.find?_cons, hchild, hname]
    rfl
  have hunlink : fs₁.Returns (.unlink pathA zeros zeros) (fs₁.removed 100 0) 0 := by
    refine ⟨noNul_pathA, ?_⟩
    have hroot : fs₁.root = 100 := h.root
    unfold exec vfsUnlink
    dsimp only
    rw [dirname_pathA, basename_pathA]
    unfold tmpfsUnlink
    simp only [bind, Except.bind, resolve_slash, hroot, hslot]
    rfl
  refine ⟨_, _, .cons ⟨0, h.created⟩ (.single ⟨0, hunlink⟩), ?_⟩
  have hkids : (fs₁.removed 100 0).kids 100 = (fs₁.kids 100).eraseIdx 0 := kids_removed_parent (by omega)
  refine ⟨h.root, ?_, ?_, ?_, ?_⟩
  · intro d
    have hfree : (fs₁.removed 100 0).live d = Function.update (Function.update fs.live 200 true)
        ((fs₁.inodes 100).children 0) false d := rfl
    rw [hfree, hchild, Function.update_idem]
    by_cases hd : d = 200
    · rw [hd, Function.update_self]
      rfl
    · rw [Function.update_of_ne hd]
      exact h.live d
  · rw [← length_kids, hkids, List.length_eraseIdx_of_lt (by rw [length_kids]; omega), length_kids, hcount]
  · unfold removed removeSlot
    dsimp only
    rw [Function.update_self, freeInode_fields, created_parent (by decide)]
    exact h.number
  · calc wadd fs.inodeCounter 1 = (k % 2 ^ 64 + 1) % 2 ^ 64 := by rw [h.counter]; rfl
      _ = (k + 1) % 2 ^ 64 := Nat.mod_add_mod _ _ _

theorem Bare.pairs {k : ℕ} (h : Bare fs k) (n : ℕ) : ∃ ops fs', Run DirStep fs ops fs' ∧ Bare fs' (k + n) := by
  induction n with
  | zero => exact ⟨[], fs, .nil fs, h⟩
  | succ n ih =>
      obtain ⟨ops, fs₁, hrun, h1⟩ := ih
      obtain ⟨ops', fs₂, hrun', h2⟩ := h1.pair
      exact ⟨ops ++ ops', fs₂, hrun.append hrun', h2⟩

theorem Bare.mount : Bare (tmpfsMount 1 100) 2 := ⟨rfl, fun _ => rfl, rfl, rfl, rfl⟩

/-- After `mkdir /a` the tree has two inodes. -/
theorem tmpfs_tree_pathA :
    ∃ fs, Run DirStep (tmpfsMount 1 100) [.mkdir pathA 0o755 (some 200) zeros zeros] fs ∧ fs.kids 100 = [200] ∧
      IsTree fs ∧ ∀ d d', fs.Reached d → fs.Reached d' →
        ((fs.inodes d).inodeNo = (fs.inodes d').inodeNo ∨ (fs.inodes d).inode = (fs.inodes d').inode) → d = d' := by
  have hrun : Run DirStep (tmpfsMount 1 100) [.mkdir pathA 0o755 (some 200) zeros zeros] _ :=
    .single ⟨0, Bare.mount.created⟩
  have htree := tmpfs_tree (by norm_num) hrun
  exact ⟨_, hrun, by decide +kernel, htree.1, htree.2 (by decide)⟩

/-- After `2 ^ 64 - 1` times `mkdir /a` and `unlink /a`, one more `mkdir /a` gives the new directory
the inode number of the root. -/
theorem inode_numbers_come_round :
    ¬ ∀ (c₀ root : ℕ) (ops : List DirOp) (fs : Tmpfs), c₀ < 2 ^ 64 → Run DirStep (tmpfsMount c₀ root) ops fs →
      ∀ d d', fs.Reached d → fs.Reached d' → (fs.inodes d).inodeNo = (fs.inodes d').inodeNo → d = d' := by
  intro hall
  obtain ⟨ops, fs, hrun, h⟩ := Bare.mount.pairs (2 ^ 64 - 1)
  have hrun' := hrun.append (.single ⟨0, h.created⟩)
  have hroot : (fs.created 100 [0x61] 0o755 200).root = 100 := h.root
  have hmem : 200 ∈ (fs.created 100 [0x61] 0o755 200).kids 100 := by
    have hc : fs.live 200 = false := by
      rw [h.live]
      rfl
    have hp : fs.Allocated 100 := by
      unfold Allocated
      rw [h.live]
      rfl
    rw [(attach_created _ _ hc hp).parent]
    simp
  have hreach : (fs.created 100 [0x61] 0o755 200).Reached 100 := by
    unfold Reached
    rw [hroot]
    exact .root
  refine absurd (hall 1 100 _ _ (by norm_num) hrun' 100 200 hreach (hreach.child hmem) ?_) (by decide)
  rw [created_parent (by decide), created_child (by decide)]
  exact h.number.trans h.counter.symm

end Tmpfs
end HeroOS
