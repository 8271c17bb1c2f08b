import HeroOS.TmpfsNames
import HeroOS.VfsPaths

/-! # Creating and removing by path

`vfs_mkdir` and `vfs_unlink` split a path into directory and base name and look up the directory
part, while `vfs_resolve_path` looks up the whole path.  The two ways agree on the paths that have a
slash and whose base name is empty exactly when the last slash follows another one (`Splits`).

* `unlink_removes_iff`: a path that leads to a node other than the root is unlinked, and just this
  node removed, exactly when it is such a path;
* `mkdir_resolves_iff`: a new directory is found under the path it was created with exactly when
  this is such a path and the base name has at most 255 characters. -/

namespace HeroOS.Tmpfs

open CString Forest Vfs

variable {fs fs' : Tmpfs} {op : DirOp} {parent c d e n i mode : ℕ} {name path b : List UInt8}
  {stale stale' stale'' : Buf} {res : ℤ}

/-! ### Trees -/

/-- A tree of inodes with strings for names. -/
structure WellFormed (fs : Tmpfs) : Prop where
  grown : Grown fs
  noNul : ∀ d, fs.Allocated d → NoNul (fs.inodes d).name

theorem WellFormed.mount (counter root : ℕ) : WellFormed (tmpfsMount counter root) := by
  refine ⟨.mount counter root, fun d hd => ?_⟩
  obtain rfl : d = root := of_decide_eq_true hd
  unfold tmpfsMount
  dsimp only
  rw [Function.update_self]
  unfold rootInode NoNul
  dsimp only
  decide +kernel

theorem NoNul.basename (h : NoNul path) : NoNul (vfsPathBasename path) := by
  unfold vfsPathBasename
  cases strrchr SLASH path with
  | none => exact h.take _
  | some i => exact (h.drop (i + 1)).take _

/-- A new entry with a string for its name keeps the tree well formed. -/
theorem WellFormed.created (h : WellFormed fs) (hp : fs.Reached parent)
    (hcount : (fs.inodes parent).childCount < TMPFS_MAX_CHILDREN) (hc : fs.live c = false) (hname : NoNul name) :
    WellFormed (fs.created parent name mode c) := by
  have hlive := hp.is_live h.grown.forest
  have a := attach_created name mode hc hlive
  have hne : c ≠ parent := fun heq => a.fresh (heq ▸ hlive)
  refine ⟨h.grown.created hp hcount hc, fun d hd => ?_⟩
  by_cases hdc : d = c
  · rw [hdc, created_child hne]
    exact hname.take _
  · rw [created_name hne hdc]
    exact h.noNul d (((a.live_iff d).mp hd).resolve_right hdc)

/-- Every call keeps the tree well formed. -/
theorem WellFormed.step (h : WellFormed fs) (he : DirEffect fs op fs' res) : WellFormed fs' := by
  cases he with
  | failed => exact h
  | created hpath _ hparent hcount hc => exact h.created (resolve_reached hparent) hcount hc (NoNul.basename hpath)
  | @removed path dir parent i stale stale' hpath hdir hparent hslot =>
      refine ⟨h.grown.step (.removed hpath hdir hparent hslot), ?_⟩
      have t := detach_removed (findSlot_spec hslot).1
      intro d hd
      have hd := h.noNul d ((t.live_iff d).mp hd).1
      by_cases hdp : d = parent
      · subst hdp
        unfold Tmpfs.removed removeSlot
        dsimp only
        rwa [Function.update_self, freeInode_fields]
      · rwa [removed_other hdp]

/-- The trees that the calls on a mounted root lead to are well formed. -/
theorem wellFormed_of_run {counter root : ℕ} {ops : List DirOp} (hrun : Run DirStep (tmpfsMount counter root) ops fs) :
    WellFormed fs :=
  hrun.invariant (fun _ _ _ h hs => by
    obtain ⟨res, hs⟩ := hs
    exact h.step hs.effect) (.mount counter root)

/-- Looking up a string finds the first child of this name. -/
theorem tmpfsFinddir_eq (h : WellFormed fs) (hd : fs.Allocated d) (hb : NoNul b) :
    fs.tmpfsFinddir d (ofList b) = (fs.kids d).find? (fun k => (fs.inodes k).name == b) := by
  unfold tmpfsFinddir findSlot kids
  rw [List.find?_map]
  congr 1
  apply List.find?_congr
  intro i hi
  have hk := h.grown.forest.kids_live d hd _ (mem_kids (List.mem_range.mp hi))
  have hiff := strcmpEq_iff (h.noNul _ hk) hb
  rw [Bool.eq_iff_iff, hiff]
  simp

theorem resolve_eq (hnul : NoNul path) (hlen : path.length < VFS_PATH_MAX - 1) :
    fs.resolve stale path = .ok (walk fs.tmpfsFinddir fs.root (tokens (relative path))) :=
  vfsResolvePath_eq hnul hlen

theorem walk_reached {cs : List (List UInt8)} (hd : fs.Reached d) (h : walk fs.tmpfsFinddir d cs = some e) :
    fs.Reached e := by
  induction cs generalizing d with
  | nil =>
      obtain rfl := Option.some.inj h
      exact hd
  | cons c cs ih =>
      rw [walk_cons, Option.bind_eq_some_iff] at h
      obtain ⟨x, hx, h⟩ := h
      exact ih (hd.child (tmpfsFinddir_mem hx)) h

/-! ### Splitting a path -/

/-- The path has a slash, and its base name is empty exactly when the last slash follows another. -/
def Splits (path : List UInt8) : Prop :=
  ∃ d b, path = d ++ SLASH :: b ∧ SLASH ∉ b ∧ (b = [] ↔ d.getLast? = some SLASH)

/-- How the components of a path compare with those of its directory part `dir`. -/
inductive Split (path : List UInt8) (stale : Buf) : Prop
  | noSlash (hdir : vfsPathDirname stale path = .ok [DOT]) (hbase : vfsPathBasename path = path)
      (hpath : tokens (relative path) = if path = [] then [] else [path]) (hs : ¬ Splits path)
  | splits {dir b : List UInt8} (hdir : vfsPathDirname stale path = .ok dir) (hnul : NoNul dir)
      (hlen : dir.length < VFS_PATH_MAX - 1) (hbase : vfsPathBasename path = b)
      (hpath : tokens (relative path) = tokens (relative dir) ++ [b]) (hs : Splits path)
  | trailing {dir : List UInt8} (hdir : vfsPathDirname stale path = .ok dir) (hnul : NoNul dir)
      (hlen : dir.length < VFS_PATH_MAX - 1)
      (hpath : tokens (relative path) = tokens (relative dir)) (hs : ¬ Splits path)
  | doubled {dir b : List UInt8} (hdir : vfsPathDirname stale path = .ok dir) (hnul : NoNul dir)
      (hlen : dir.length < VFS_PATH_MAX - 1) (hbase : vfsPathBasename path = b) (hb : b ≠ [])
      (hpath : tokens (relative path) = tokens (relative dir) ++ [[], b]) (hs : ¬ Splits path)

theorem splits_slash {d : List UInt8} (hb : SLASH ∉ b) :
    Splits (d ++ SLASH :: b) ↔ (b = [] ↔ d.getLast? = some SLASH) := by
  constructor
  · rintro ⟨d', b', heq, hb', h⟩
    have hlen : d.length = d'.length := by
      have h1 := strrchr_slash d hb
      rw [heq, strrchr_slash d' hb'] at h1
      exact (Option.some.inj h1).symm
    obtain ⟨rfl, htail⟩ := List.append_inj heq hlen
    obtain rfl := (List.cons.inj htail).2
    exact h
  · intro h
    exact ⟨d, b, rfl, hb, h⟩

theorem parentPath_noNul {d : List UInt8} (h : NoNul d) : NoNul (parentPath d) := by
  unfold parentPath
  split
  · decide +kernel
  · exact h

theorem split_path (hnul : NoNul path) (hlen : path.length < VFS_PATH_MAX - 1) (stale : Buf) : Split path stale := by
  by_cases hslash : SLASH ∈ path
  · obtain ⟨d, b, rfl, hb⟩ := exists_last_slash hslash
    have hdir := vfsPathDirname_slash stale hnul hlen hb
    have hbase := vfsPathBasename_slash hlen hb
    have htok := tokens_relative_slash d hb
    have hnul' : NoNul (parentPath d) := parentPath_noNul fun x hx => hnul x (List.mem_append_left _ hx)
    have hlen' : (parentPath d).length < VFS_PATH_MAX - 1 := by
      rw [List.length_append, List.length_cons] at hlen
      unfold parentPath
      split
      · decide
      · omega
    have hs : Splits (d ++ SLASH :: b) ↔ _ := splits_slash hb
    by_cases h0 : b = []
    · by_cases hd : d.getLast? = some SLASH
      · refine .splits hdir hnul' hlen' hbase ?_ (hs.mpr (by simp [h0, hd]))
        rw [htok, if_pos hd, if_pos h0, h0]
        rfl
      · refine .trailing hdir hnul' hlen' ?_ (fun h => hd ((hs.mp h).mp h0))
        rw [htok, if_neg hd, if_pos h0, List.append_nil, List.append_nil]
    · by_cases hd : d.getLast? = some SLASH
      · refine .doubled hdir hnul' hlen' hbase h0 ?_ (fun h => h0 ((hs.mp h).mpr hd))
        rw [htok, if_pos hd, if_neg h0]
        rfl
      · refine .splits hdir hnul' hlen' hbase ?_ (hs.mpr (by simp [h0, hd]))
        rw [htok, if_neg hd, if_neg h0]
        rfl
  · refine .noSlash (vfsPathDirname_of_noSlash hnul hlen hslash) (vfsPathBasename_of_noSlash hlen hslash) ?_ ?_
    · have hrel : relative path = path := by
        refine if_neg fun h => hslash ?_
        exact List.mem_of_mem_head? h
      rw [hrel]
      split
      · rename_i h0
        rw [h0, tokens_nil]
      · rename_i h0
        exact tokens_of_noSlash hslash h0
    · rintro ⟨d, b, rfl, _⟩
      simp at hslash

/-- A path without a slash is looked up below `.` for its directory part. -/
theorem resolve_dot (h : fs.resolve stale [DOT] = .ok (some parent)) : parent ∈ fs.kids fs.root := by
  have hdot : NoNul [DOT] := by decide +kernel
  have htok : tokens (relative [DOT]) = [[DOT]] := by decide +kernel
  rw [resolve_eq hdot (by decide), htok, walk_singleton] at h
  exact tmpfsFinddir_mem (Except.ok.inj h)

/-! ### Removing -/

/-- `vfs_unlink` returns 0 and has removed just the node `n` from its directory. -/
def UnlinksExactly (fs : Tmpfs) (stale stale' : Buf) (path : List UInt8) (n : ℕ) : Prop :=
  ∃ parent i, fs.Reached parent ∧ i < (fs.inodes parent).childCount ∧ (fs.inodes parent).children i = n ∧
    fs.vfsUnlink stale stale' path = .ok (fs.removed parent i, 0)

/-- Two removals that free the same inode are the removal of that inode. -/
theorem removed_inj {p p' j : ℕ} (hi : i < (fs.inodes p).childCount) (hj : j < (fs.inodes p').childCount)
    (hlive : fs.Allocated ((fs.inodes p).children i)) (h : fs.removed p i = fs.removed p' j) :
    (fs.inodes p').children j = (fs.inodes p).children i := by
  by_contra hne
  have hfree := ((detach_removed hi).live_iff ((fs.inodes p).children i)).not.mpr (fun hx => hx.2 rfl)
  rw [h] at hfree
  exact hfree (((detach_removed hj).live_iff _).mpr ⟨hlive, fun heq => hne heq.symm⟩)

/-- **When unlinking removes what the path leads to.** -/
theorem unlink_removes_iff (hf : WellFormed fs) (hnul : NoNul path) (hlen : path.length < VFS_PATH_MAX - 1)
    (hn : fs.resolve stale'' path = .ok (some n)) (hroot : n ≠ fs.root) (stale stale' : Buf) :
    fs.UnlinksExactly stale stale' path n ↔ Splits path := by
  have hforest := hf.grown.forest
  have hwalk := Except.ok.inj ((resolve_eq hnul hlen).symm.trans hn)
  have hreached := resolve_reached hn
  -- what an unlink that removes `n` has looked up
  have hinv : fs.UnlinksExactly stale stale' path n → ∃ dir p, vfsPathDirname stale path = .ok dir ∧
      fs.resolve stale' dir = .ok (some p) ∧ n ∈ fs.kids p := by
    rintro ⟨parent, i, hparent, hi, rfl, h⟩
    obtain ⟨_, hneg⟩ | ⟨dir, p, j, hdir, hp, hslot, heq, _⟩ := vfsUnlink_cases h
    · exact absurd hneg (lt_irrefl 0)
    · have hj := (findSlot_spec hslot).1
      refine ⟨dir, p, hdir, hp, ?_⟩
      rw [← removed_inj hi hj (hreached.is_live hforest) heq]
      exact mem_kids hj
  cases split_path hnul hlen stale with
  | noSlash hdir hbase hpath hs =>
      refine ⟨fun h => ?_, fun h => absurd h hs⟩
      obtain ⟨dir, p, hdir', hp, hmem⟩ := hinv h
      obtain rfl := Except.ok.inj (hdir.symm.trans hdir')
      have hpk := resolve_dot hp
      rw [hpath] at hwalk
      split at hwalk
      · exact absurd (Option.some.inj hwalk).symm hroot
      · rw [walk_singleton] at hwalk
        have hnk := tmpfsFinddir_mem hwalk
        have hplive := hforest.kids_live _ hforest.root_live _ hpk
        have heq := hforest.disjoint _ _ n hplive hforest.root_live hmem hnk
        exact absurd (heq ▸ hpk) (hforest.root_free _ hforest.root_live)
  | @splits dir b hdir hnuld hlend hbase hpath hs =>
      refine ⟨fun _ => hs, fun _ => ?_⟩
      rw [hpath, walk_append, Option.bind_eq_some_iff] at hwalk
      obtain ⟨p, hp, hfind⟩ := hwalk
      rw [walk_singleton] at hfind
      obtain ⟨i, hslot, hi⟩ := Option.map_eq_some_iff.mp hfind
      refine ⟨p, i, walk_reached .root hp, (findSlot_spec hslot).1, hi, ?_⟩
      unfold vfsUnlink
      simp only [hdir, hbase, resolve_eq hnuld hlend, hp, bind, Except.bind, tmpfsUnlink, hslot]
      rfl
  | @trailing dir hdir hnuld hlend hpath hs =>
      refine ⟨fun h => ?_, fun h => absurd h hs⟩
      obtain ⟨dir', p, hdir', hp, hmem⟩ := hinv h
      obtain rfl := Except.ok.inj (hdir.symm.trans hdir')
      rw [resolve_eq hnuld hlend, ← hpath, hwalk] at hp
      obtain rfl := Option.some.inj (Except.ok.inj hp)
      exact absurd hmem (hreached.irrefl hforest)
  | @doubled dir b hdir hnuld hlend hbase hb hpath hs =>
      refine ⟨fun h => ?_, fun h => absurd h hs⟩
      obtain ⟨dir', p, hdir', hp, hmem⟩ := hinv h
      obtain rfl := Except.ok.inj (hdir.symm.trans hdir')
      have hpr := resolve_reached hp
      rw [resolve_eq hnuld hlend] at hp
      rw [hpath, walk_append, Except.ok.inj hp, Option.bind_some, walk_cons, Option.bind_eq_some_iff] at hwalk
      obtain ⟨e, he, hwalk⟩ := hwalk
      rw [walk_singleton] at hwalk
      have hek := tmpfsFinddir_mem he
      have heq := hforest.disjoint _ _ n ((hpr.child hek).is_live hforest) (hpr.is_live hforest)
        (tmpfsFinddir_mem hwalk) hmem
      exact absurd (heq ▸ hek) (hpr.irrefl hforest)

/-- The root with an entry `a`. -/
def rootA : Tmpfs := (tmpfsMount 1 100).created 100 [0x61] 0o755 200

theorem wellFormed_rootA : WellFormed rootA := wellFormed_of_run (.single ⟨0, Bare.mount.created⟩)

theorem unlink_removes_pathA : rootA.UnlinksExactly zeros zeros pathA 200 :=
  have hpath : rootA.resolve zeros pathA = .ok (some 200) := by decide +kernel
  (unlink_removes_iff wellFormed_rootA noNul_pathA (by decide) hpath (by decide) zeros zeros).mpr
    ⟨[], [0x61], rfl, by decide, by decide⟩

/-- The path `a`, without a slash, leads to the entry and cannot be unlinked. -/
theorem relative_path_not_unlinked : ¬ ∀ (fs : Tmpfs) (path : List UInt8) (n : ℕ) (stale stale' stale'' : Buf),
    WellFormed fs → NoNul path → path.length < VFS_PATH_MAX - 1 → fs.resolve stale'' path = .ok (some n) →
      n ≠ fs.root → fs.UnlinksExactly stale stale' path n := by
  intro hall
  have hnul : NoNul [0x61] := by decide +kernel
  obtain ⟨parent, i, _, _, _, h⟩ := hall rootA [0x61] 200 zeros zeros zeros wellFormed_rootA hnul (by decide)
    (by decide +kernel) (by decide)
  have hres : (rootA.vfsUnlink zeros zeros [0x61]).toOption.map Prod.snd = some (-2) := by decide +kernel
  rw [h] at hres
  cases hres

/-! ### Creating -/

section
variable (hf : WellFormed fs) (hp : fs.Reached parent)
  (hcount : (fs.inodes parent).childCount < TMPFS_MAX_CHILDREN) (hc : fs.live c = false) (hname : NoNul name)
include hf hp hcount hc hname

/-- A new entry is found behind those that were there. -/
theorem tmpfsFinddir_created (mode : ℕ) (hd : fs.Allocated d) (hb : NoNul b) :
    (fs.created parent name mode c).tmpfsFinddir d (ofList b) =
      (fs.tmpfsFinddir d (ofList b)).or (if d = parent ∧ name.take VFS_NAME_MAX = b then some c else none) := by
  have hlive := hp.is_live hf.grown.forest
  have a := attach_created name mode hc hlive
  have hne : c ≠ parent := fun heq => a.fresh (heq ▸ hlive)
  have hold : (fs.kids d).find? (fun k => ((fs.created parent name mode c).inodes k).name == b) =
      (fs.kids d).find? (fun k => (fs.inodes k).name == b) := by
    apply List.find?_congr
    intro k hk
    have hkc : k ≠ c := fun heq => a.fresh (heq ▸ hf.grown.forest.kids_live d hd k hk)
    rw [created_name hne hkc]
  have hd' := (a.live_iff d).mpr (.inl hd)
  rw [tmpfsFinddir_eq (hf.created hp hcount hc hname) hd' hb, tmpfsFinddir_eq hf hd hb]
  by_cases hdp : d = parent
  · have hchild : ((fs.created parent name mode c).inodes c).name = name.take VFS_NAME_MAX := by
      rw [created_child hne]
      rfl
    subst hdp
    rw [a.parent, List.find?_append, hold, List.find?_singleton, hchild]
    simp
  · have hdc : d ≠ c := fun heq => a.fresh (heq ▸ hd)
    rw [a.other d hdp hdc, hold]
    simp [hdp]

/-- A walk that led somewhere still leads there. -/
theorem walk_created (mode : ℕ) {cs : List (List UInt8)} (hcs : ∀ b ∈ cs, NoNul b) (hd : fs.Reached d)
    (h : walk fs.tmpfsFinddir d cs = some e) :
    walk (fs.created parent name mode c).tmpfsFinddir d cs = some e := by
  induction cs generalizing d with
  | nil => exact h
  | cons b cs ih =>
      rw [walk_cons, Option.bind_eq_some_iff] at h
      obtain ⟨x, hx, h⟩ := h
      have hfind := tmpfsFinddir_created hf hp hcount hc hname mode (hd.is_live hf.grown.forest)
        (hcs b List.mem_cons_self)
      rw [walk_cons, hfind, hx, Option.some_or, Option.bind_some]
      exact ih (fun b hb => hcs b (List.mem_cons_of_mem _ hb)) (hd.child (tmpfsFinddir_mem hx)) h

/-- No new name appears in other directories. -/
theorem tmpfsFinddir_created_other (mode : ℕ) (hd : fs.Reached d) (hdp : d ≠ parent) (hb : NoNul b)
    (h : fs.tmpfsFinddir d (ofList b) = none) : (fs.created parent name mode c).tmpfsFinddir d (ofList b) = none := by
  rw [tmpfsFinddir_created hf hp hcount hc hname mode (hd.is_live hf.grown.forest) hb, h, if_neg fun heq => hdp heq.1]
  rfl

/-- Behind the path of its directory, the new entry is found under its name. -/
theorem walk_created_last (mode : ℕ) {cs : List (List UInt8)} (hcs : ∀ b ∈ cs, NoNul b) (hd : fs.Reached d)
    (hdir : walk fs.tmpfsFinddir d cs = some parent) (hb : NoNul b) (hno : walk fs.tmpfsFinddir d (cs ++ [b]) = none) :
    walk (fs.created parent name mode c).tmpfsFinddir d (cs ++ [b]) =
      if name.take VFS_NAME_MAX = b then some c else none := by
  rw [walk_append, hdir, Option.bind_some, walk_singleton] at hno
  rw [walk_append, walk_created hf hp hcount hc hname mode hcs hd hdir, Option.bind_some, walk_singleton,
    tmpfsFinddir_created hf hp hcount hc hname mode (hp.is_live hf.grown.forest) hb, hno, Option.none_or]
  simp

/-- Behind an empty component that leads on, it is not found. -/
theorem walk_created_doubled (mode : ℕ) {cs : List (List UInt8)} (hcs : ∀ b ∈ cs, NoNul b) (hd : fs.Reached d)
    (hdir : walk fs.tmpfsFinddir d cs = some parent) (hb : NoNul b) (h0 : name.take VFS_NAME_MAX ≠ [])
    (hno : walk fs.tmpfsFinddir d (cs ++ [[], b]) = none) :
    walk (fs.created parent name mode c).tmpfsFinddir d (cs ++ [[], b]) = none := by
  have hforest := hf.grown.forest
  have hnil : NoNul [] := fun _ hx => nomatch hx
  rw [walk_append, hdir, Option.bind_some, walk_cons] at hno
  rw [walk_append, walk_created hf hp hcount hc hname mode hcs hd hdir, Option.bind_some, walk_cons,
    tmpfsFinddir_created hf hp hcount hc hname mode (hp.is_live hforest) hnil, if_neg fun heq => h0 heq.2, Option.or_none]
  cases he : fs.tmpfsFinddir parent (ofList []) with
  | none => rfl
  | some e =>
      have hek := tmpfsFinddir_mem he
      have hep : e ≠ parent := fun heq => hp.irrefl hforest (heq ▸ hek)
      rw [he, Option.bind_some, walk_singleton] at hno
      rw [Option.bind_some, walk_singleton]
      exact tmpfsFinddir_created_other hf hp hcount hc hname mode (hp.child hek) hep hb hno

end

/-- `vfs_resolve_path` leads to the new directory `c`, which is empty and has the given mode. -/
def ResolvesTo (fs' : Tmpfs) (stale : Buf) (path : List UInt8) (mode c : ℕ) : Prop :=
  fs'.resolve stale path = .ok (some c) ∧ (fs'.inodes c).type = VFS_DIRECTORY ∧
    (fs'.inodes c).childCount = 0 ∧ (fs'.inodes c).mode = mode

/-- The new directory is as it should be, so that the walk along the components decides. -/
theorem resolvesTo_created_iff (hnul : NoNul path) (hlen : path.length < VFS_PATH_MAX - 1) (hne : c ≠ parent) :
    (∃ c', some c = some c' ∧ (fs.created parent name mode c).ResolvesTo stale path mode c') ↔
      walk (fs.created parent name mode c).tmpfsFinddir fs.root (tokens (relative path)) = some c := by
  unfold ResolvesTo
  rw [resolve_eq hnul hlen]
  constructor
  · rintro ⟨c', hcc, h, _⟩
    obtain rfl := Option.some.inj hcc
    exact Except.ok.inj h
  · intro h
    refine ⟨c, rfl, congrArg Except.ok h, ?_⟩
    rw [created_child hne]
    exact ⟨rfl, rfl, rfl⟩

/-- **When a new directory is found under its path.** -/
theorem mkdir_resolves_iff {child : Option ℕ} (hf : WellFormed fs) (hnul : NoNul path)
    (hlen : path.length < VFS_PATH_MAX - 1) (hno : fs.resolve stale'' path = .ok none)
    (hchild : ∀ c, child = some c → fs.live c = false)
    (hok : fs.vfsMkdir stale stale' path mode child = .ok (fs', 0)) (stale₁ : Buf) :
    (∃ c, child = some c ∧ fs'.ResolvesTo stale₁ path mode c) ↔
      Splits path ∧ (vfsPathBasename path).length ≤ VFS_NAME_MAX := by
  have hforest := hf.grown.forest
  obtain ⟨_, hneg⟩ | ⟨dir, p, c, hdir, hp, hcount, rfl, rfl, _⟩ := vfsMkdir_cases hok
  · exact absurd hneg (lt_irrefl 0)
  have hc := hchild c rfl
  have hpr := resolve_reached hp
  have hbase := NoNul.basename hnul
  have hwalk := Except.ok.inj ((resolve_eq hnul hlen).symm.trans hno)
  have hne : c ≠ p := fun heq => Bool.false_ne_true (hc.symm.trans (heq ▸ hpr.is_live hforest))
  rw [resolvesTo_created_iff hnul hlen hne]
  cases split_path hnul hlen stale with
  | noSlash hdir' hb hpath hs =>
      refine ⟨fun h => ?_, fun h => absurd h.1 hs⟩
      obtain rfl := Except.ok.inj (hdir'.symm.trans hdir)
      -- the new entry is below a child of the root, not in the root itself
      have hpk := resolve_dot hp
      have hroot : fs.root ≠ p := fun heq => hforest.root_free _ hforest.root_live (heq ▸ hpk)
      rw [hpath] at h hwalk
      split at h
      · rename_i h0
        rw [if_pos h0] at hwalk
        cases hwalk
      · rename_i h0
        rw [if_neg h0, walk_singleton] at hwalk
        rw [walk_singleton, tmpfsFinddir_created_other hf hpr hcount hc hbase mode .root hroot hnul hwalk] at h
        cases h
  | @splits dir' b hdir' hnuld hlend hb hpath hs =>
      obtain rfl := Except.ok.inj (hdir'.symm.trans hdir)
      rw [resolve_eq hnuld hlend] at hp
      rw [hpath] at hwalk ⊢
      rw [walk_created_last hf hpr hcount hc hbase mode (noNul_tokens hnuld) .root (Except.ok.inj hp) (hb ▸ hbase) hwalk, hb]
      constructor
      · intro h
        refine ⟨hs, ?_⟩
        split at h
        · rename_i heq
          exact List.take_eq_self_iff _ |>.mp heq
        · cases h
      · rintro ⟨_, hle⟩
        exact if_pos (List.take_of_length_le hle)
  | @trailing dir' hdir' hnuld hlend hpath hs =>
      obtain rfl := Except.ok.inj (hdir'.symm.trans hdir)
      rw [resolve_eq hnuld hlend, ← hpath, hwalk] at hp
      cases Except.ok.inj hp
  | @doubled dir' b hdir' hnuld hlend hb hb0 hpath hs =>
      refine ⟨fun h => ?_, fun h => absurd h.1 hs⟩
      obtain rfl := Except.ok.inj (hdir'.symm.trans hdir)
      have htake : (vfsPathBasename path).take VFS_NAME_MAX ≠ [] := by
        rw [Ne, List.take_eq_nil_iff, hb]
        exact fun h0 => h0.elim (by decide) hb0
      rw [resolve_eq hnuld hlend] at hp
      rw [hpath] at hwalk h
      rw [walk_created_doubled hf hpr hcount hc hbase mode (noNul_tokens hnuld) .root (Except.ok.inj hp) (hb ▸ hbase) htake
        hwalk] at h
      cases h

theorem mkdir_resolves_pathA : rootA.ResolvesTo zeros pathA 0o755 200 := by
  have hpath : (tmpfsMount 1 100).resolve zeros pathA = .ok none := by decide +kernel
  have hiff := mkdir_resolves_iff (.mount 1 100) noNul_pathA (by decide) hpath
    (fun c hc => Option.some.inj hc ▸ rfl) Bare.mount.created.2 zeros
  obtain ⟨c, hc, h⟩ := hiff.mpr ⟨⟨[], [0x61], rfl, by decide, by decide⟩, by decide⟩
  obtain rfl := Option.some.inj hc
  exact h

/-- The path `//a`: the new entry `a` of the root is not found under it. -/
theorem doubled_slash_not_resolved : ¬ ∀ (fs fs' : Tmpfs) (path : List UInt8) (mode : ℕ) (child : Option ℕ)
    (stale stale' stale'' stale₁ : Buf), WellFormed fs → NoNul path → path.length < VFS_PATH_MAX - 1 →
      fs.resolve stale'' path = .ok none → (∀ c, child = some c → fs.live c = false) →
      fs.vfsMkdir stale stale' path mode child = .ok (fs', 0) →
      ∃ c, child = some c ∧ fs'.ResolvesTo stale₁ path mode c := by
  intro hall
  have hnul : NoNul [SLASH, SLASH, 0x61] := by decide +kernel
  have hdir : vfsPathDirname zeros [SLASH, SLASH, 0x61] = .ok [SLASH] := by decide +kernel
  have hok : (tmpfsMount 1 100).vfsMkdir zeros zeros [SLASH, SLASH, 0x61] 0o755 (some 200) = _ :=
    vfsMkdir_eq hdir (resolve_slash _ zeros) (by decide)
  obtain ⟨c, _, h, _⟩ := hall _ _ _ _ _ zeros zeros zeros zeros (.mount 1 100) hnul (by decide) (by decide +kernel)
    (fun c hc => Option.some.inj hc ▸ rfl) hok
  have hnone : (tmpfsMount 1 100 |>.created 100 (vfsPathBasename [SLASH, SLASH, 0x61]) 0o755 200).resolve zeros
      [SLASH, SLASH, 0x61] = .ok none := by decide +kernel
  cases hnone.symm.trans h

end HeroOS.Tmpfs
