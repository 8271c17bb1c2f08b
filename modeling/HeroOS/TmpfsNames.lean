import HeroOS.TmpfsTree

/-! # Names in a directory

`tmpfs_mkdir` does not look for an entry with the name it is given, and the name behind the last
slash of a path may be empty.  So `vfs_mkdir` may add a second entry with the name of an existing
one, an entry without a name, or succeed on a path that leads somewhere already.

* `created_namesOk_iff`: a new entry keeps the names of the tree distinct and non-empty exactly when
  its own name, cut to 255 bytes, is not empty and not in use in its directory;
* `names_distinct_iff`: the calls of a run keep the names in order, and none of them succeeds on a
  path that leads somewhere already, exactly when every call that gets as far as linking a new
  directory has such a name and such a path. -/

namespace HeroOS.Tmpfs

open CString Forest

variable {fs fs' : Tmpfs} {op : DirOp} {parent c d i mode : ℕ} {name path : List UInt8} {res : ℤ}

/-- The names in a directory. -/
def names (fs : Tmpfs) (d : ℕ) : List (List UInt8) := (fs.kids d).map (fun c => (fs.inodes c).name)

/-- The names in every directory below the root are pairwise distinct and not empty. -/
def NamesOk (fs : Tmpfs) : Prop := ∀ d, fs.Reached d → (fs.names d).Nodup ∧ [] ∉ fs.names d

/-! ### One call -/

theorem created_name (hne : c ≠ parent) (hd : d ≠ c) :
    ((fs.created parent name mode c).inodes d).name = (fs.inodes d).name := by
  by_cases hdp : d = parent
  · rw [hdp, created_parent hne]
  · rw [created_other hdp hd]

section
variable (hg : Grown fs) (hp : fs.Reached parent) (hc : fs.live c = false)
include hg hp hc

theorem created_kid_name (hd : fs.Allocated d) :
    (fs.kids d).map (fun k => ((fs.created parent name mode c).inodes k).name) = fs.names d := by
  have hne : c ≠ parent := by
    rintro rfl
    exact Bool.false_ne_true (hc.symm.trans (hp.is_live hg.forest))
  apply List.map_congr_left
  intro k hk
  apply created_name hne
  rintro rfl
  exact Bool.false_ne_true (hc.symm.trans (hg.forest.kids_live d hd k hk))

theorem names_created_parent (name : List UInt8) (mode : ℕ) :
    (fs.created parent name mode c).names parent = fs.names parent ++ [name.take VFS_NAME_MAX] := by
  have hlive := hp.is_live hg.forest
  have a := attach_created name mode hc hlive
  have hne : c ≠ parent := fun e => a.fresh (e ▸ hlive)
  rw [names, a.parent, List.map_append, created_kid_name hg hp hc hlive, List.map_singleton, created_child hne]
  rfl

theorem names_created_other (hd : fs.Reached d) (hdp : d ≠ parent) :
    (fs.created parent name mode c).names d = fs.names d := by
  have a := attach_created name mode hc (hp.is_live hg.forest)
  have hlive := hd.is_live hg.forest
  have hdc : d ≠ c := fun e => a.fresh (e ▸ hlive)
  rw [names, a.other d hdp hdc, created_kid_name hg hp hc hlive]

/-- The parent of a new entry is still reached. -/
theorem created_reached (hd : fs.Reached d) : (fs.created parent name mode c).Reached d :=
  (attach_created name mode hc (hp.is_live hg.forest)).reached hg.forest hd

/-- A new entry keeps the names in order exactly when its own name is not empty and not in use. -/
theorem created_namesOk_iff (name : List UInt8) (mode : ℕ) (hn : NamesOk fs) : NamesOk (fs.created parent name mode c) ↔
    name.take VFS_NAME_MAX ≠ [] ∧ name.take VFS_NAME_MAX ∉ fs.names parent := by
  have hpar := names_created_parent hg hp hc name mode
  constructor
  · intro h
    obtain ⟨hnodup, hempty⟩ := h parent (created_reached hg hp hc hp)
    rw [hpar] at hnodup hempty
    refine ⟨fun h0 => hempty (by rw [h0]; simp), fun hm => ?_⟩
    exact (List.nodup_append.mp hnodup).2.2 _ hm _ List.mem_cons_self rfl
  · rintro ⟨hempty, hfree⟩ d hd
    have a := attach_created name mode hc (hp.is_live hg.forest)
    obtain hd | rfl := a.reach hg.forest (hp.is_live hg.forest) hd
    · obtain ⟨hnd, hne⟩ := hn d hd
      by_cases hdp : d = parent
      · subst hdp
        rw [hpar]
        refine ⟨hnd.append (List.nodup_singleton _) (by simpa using hfree), ?_⟩
        rw [List.mem_append, List.mem_singleton]
        rintro (h | h)
        · exact hne h
        · exact hempty h.symm
      · rw [names_created_other hg hp hc hd hdp]
        exact ⟨hnd, hne⟩
    · rw [names, a.leaf]
      simp

end

/-- Removing an entry keeps the names in order. -/
theorem NamesOk.removed (hn : NamesOk fs) (hi : i < (fs.inodes parent).childCount) : NamesOk (fs.removed parent i) := by
  have t := detach_removed hi
  have hname : ∀ d, ((fs.removed parent i).inodes d).name = (fs.inodes d).name := by
    intro d
    by_cases hdp : d = parent
    · subst hdp
      unfold Tmpfs.removed removeSlot
      dsimp only
      rw [Function.update_self, freeInode_fields]
    · rw [removed_other hdp]
  intro d hd
  have hsub : ((fs.removed parent i).names d).Sublist (fs.names d) := by
    unfold names
    simp only [hname]
    exact (t.sublist d).map _
  obtain ⟨hnd, hne⟩ := hn d (t.reach hd)
  exact ⟨hnd.sublist hsub, fun h => hne (hsub.subset h)⟩

/-! ### Runs -/

/-- After the call the names are in order, and a call of `vfs_mkdir` with a path that leads
somewhere already has failed and changed nothing. -/
def Orderly (fs : Tmpfs) (op : DirOp) (fs' : Tmpfs) (res : ℤ) : Prop :=
  NamesOk fs' ∧ ∀ path mode child stale stale' stale'' node, op = .mkdir path mode child stale stale' →
    fs.resolve stale'' path = .ok (some node) → res < 0 ∧ fs' = fs

/-- If the call gets as far as linking a new directory, its name is neither empty nor in use, and
its path leads nowhere yet. -/
def NewName (fs : Tmpfs) : DirOp → Prop
  | .mkdir path _ child stale stale' => ∀ dir parent, Vfs.vfsPathDirname stale path = .ok dir →
      fs.resolve stale' dir = .ok (some parent) → (fs.inodes parent).childCount < TMPFS_MAX_CHILDREN →
      child ≠ none → (Vfs.vfsPathBasename path).take VFS_NAME_MAX ≠ [] ∧
        (Vfs.vfsPathBasename path).take VFS_NAME_MAX ∉ fs.names parent ∧
        ∀ stale'' node, fs.resolve stale'' path ≠ .ok (some node)
  | .unlink .. => True

/-- A call that is orderly. -/
def OrderlyStep (fs : Tmpfs) (op : DirOp) (fs' : Tmpfs) : Prop := ∃ res, fs.Returns op fs' res ∧ Orderly fs op fs' res

/-- A call that meets the condition. -/
def NewNameStep (fs : Tmpfs) (op : DirOp) (fs' : Tmpfs) : Prop := DirStep fs op fs' ∧ fs.NewName op

/-- A call that can link a new directory does so. -/
theorem vfsMkdir_eq {dir : List UInt8} {stale stale' : Buf} (hdir : Vfs.vfsPathDirname stale path = .ok dir)
    (hparent : fs.resolve stale' dir = .ok (some parent))
    (hcount : (fs.inodes parent).childCount < TMPFS_MAX_CHILDREN) :
    fs.vfsMkdir stale stale' path mode (some c) =
      .ok (fs.created parent (Vfs.vfsPathBasename path) mode c, 0) := by
  unfold vfsMkdir
  simp only [hdir, hparent, bind, Except.bind]
  unfold tmpfsMkdir
  exact congrArg Except.ok (if_neg (not_le.mpr hcount))

/-- **One call**: it is orderly exactly when it meets the condition. -/
theorem orderly_iff (hg : Grown fs) (hn : NamesOk fs) (h : fs.Returns op fs' res) :
    Orderly fs op fs' res ↔ fs.NewName op := by
  cases h.effect with
  | @failed _ _ hres =>
      refine ⟨fun _ => ?_, fun _ => ⟨hn, fun _ _ _ _ _ _ _ _ _ => ⟨hres, rfl⟩⟩⟩
      cases op with
      | unlink => trivial
      | mkdir path mode child stale stale' =>
          intro dir parent hdir hparent hcount hchild
          obtain ⟨c, rfl⟩ := Option.ne_none_iff_exists'.mp hchild
          have heq := h.2.symm.trans (vfsMkdir_eq hdir hparent hcount)
          have h0 : res = 0 := congrArg Prod.snd (Except.ok.inj heq)
          omega
  | @created path dir mode parent c stale stale' hpath hdir hparent hcount hc =>
      have hiff := created_namesOk_iff hg (resolve_reached hparent) hc (Vfs.vfsPathBasename path) mode hn
      constructor
      · rintro ⟨hok, hres⟩ dir' parent' hdir' hparent' _ _
        obtain rfl : dir = dir' := Except.ok.inj (hdir.symm.trans hdir')
        obtain rfl : parent = parent' := Option.some.inj (Except.ok.inj (hparent.symm.trans hparent'))
        obtain ⟨h1, h2⟩ := hiff.mp hok
        refine ⟨h1, h2, fun stale'' node hnode => ?_⟩
        exact absurd (hres path mode (some c) stale stale' stale'' node rfl hnode).1 (lt_irrefl 0)
      · intro hnew
        obtain ⟨h1, h2, h3⟩ := hnew dir parent hdir hparent hcount (Option.some_ne_none c)
        refine ⟨hiff.mpr ⟨h1, h2⟩, ?_⟩
        intro path' mode' child stale₁ stale₂ stale'' node hop hnode
        cases hop
        exact absurd hnode (h3 stale'' node)
  | removed hpath hdir hparent hslot =>
      refine ⟨fun _ => trivial, fun _ => ⟨hn.removed (findSlot_spec hslot).1, ?_⟩⟩
      intro _ _ _ _ _ _ _ hop
      cases hop

theorem NamesOk.mount (counter root : ℕ) : NamesOk (tmpfsMount counter root) := by
  intro d _
  simp [names]

/-- **When names stay distinct.**  In a run of `vfs_mkdir` and `vfs_unlink` with any paths from a
freshly mounted root, every call leaves the names of every directory pairwise distinct and
non-empty, and fails without effect when it is asked to create what exists already, exactly when
every call that gets as far as linking a new directory has a name that is neither empty nor in use,
and a path that leads nowhere yet. -/
theorem names_distinct_iff {counter root : ℕ} {ops : List DirOp} :
    Run OrderlyStep (tmpfsMount counter root) ops fs ↔ Run NewNameStep (tmpfsMount counter root) ops fs := by
  have h0 : Grown (tmpfsMount counter root) ∧ NamesOk (tmpfsMount counter root) :=
    ⟨Grown.mount counter root, NamesOk.mount counter root⟩
  apply Run.iff_of_invariant (I := fun fs => Grown fs ∧ NamesOk fs) ?_ ?_ h0
  · rintro fs op fs' ⟨hg, hn⟩
    constructor
    · rintro ⟨res, hret, hord⟩
      exact ⟨⟨res, hret⟩, (orderly_iff hg hn hret).mp hord⟩
    · rintro ⟨⟨res, hret⟩, hnew⟩
      exact ⟨res, hret, (orderly_iff hg hn hret).mpr hnew⟩
  · rintro fs op fs' ⟨hg, _⟩ ⟨res, hret, hord⟩ _
    exact ⟨hg.step hret.effect, hord.1⟩

/-- `mkdir /a` twice: the second call succeeds, and the root has two entries of the same name. -/
theorem mkdir_twice_same_name :
    ¬ ∀ (counter root : ℕ) (ops : List DirOp) (fs : Tmpfs), Run DirStep (tmpfsMount counter root) ops fs →
      NamesOk fs := by
  intro hall
  let fs₁ := (tmpfsMount 1 100).created 100 [0x61] 0o755 200
  have h1 : (tmpfsMount 1 100).Returns (.mkdir pathA 0o755 (some 200) zeros zeros) fs₁ 0 := Bare.mount.created
  have h2 : fs₁.Returns (.mkdir pathA 0o755 (some 201) zeros zeros) (fs₁.created 100 [0x61] 0o755 201) 0 :=
    returns_mkdir_pathA (by decide +kernel) (by decide +kernel)
  have hok := hall 1 100 _ _ (.cons ⟨0, h1⟩ (.single ⟨0, h2⟩)) 100 .root
  have hnames : (fs₁.created 100 [0x61] 0o755 201).names 100 = [[0x61], [0x61]] := by decide +kernel
  rw [hnames] at hok
  simp at hok

end HeroOS.Tmpfs
