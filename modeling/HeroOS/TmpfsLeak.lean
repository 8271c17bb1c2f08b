import HeroOS.TmpfsFiles

/-! # Inodes that are lost

An inode is allocated when it is linked into the tree, and a data block when it is stored in an
inode.  `tmpfs_unlink` frees one inode and its data; the children of that inode stay allocated,
with nothing that leads to them.

* `noLeak_iff`: a call loses nothing exactly when it does not unlink a directory with children;
* `nothing_leaked_iff`: the same for all calls of a run. -/

namespace HeroOS.Files

variable {s s' : Files} {op : FileOp} {d : ℕ}

/-- Every allocated inode is below the root, and so is the inode of every allocated data block. -/
structure NoLeak (s : Files) : Prop where
  inode : ∀ d, s.fs.live d = true → s.fs.Reached d
  block : ∀ d, s.block d = true → s.fs.Reached d

/-- The inode to be unlinked has no children. -/
def UnlinksLeaf (s : Files) : FileOp → Prop
  | .dir (.unlink path stale stale') =>
      ∀ v, s.fs.unlinkTarget stale stale' path = .ok (some v) → (s.fs.inodes v).childCount = 0
  | _ => True

/-- A call after which nothing is lost. -/
def NoLeakStep (s : Files) (op : FileOp) (s' : Files) : Prop := FileStep s op s' ∧ NoLeak s'

/-- A call that meets the condition. -/
def LeafStep (s : Files) (op : FileOp) (s' : Files) : Prop := FileStep s op s' ∧ s.UnlinksLeaf op

theorem NoLeak.mount (counter root : ℕ) : NoLeak (Files.mount counter root) := by
  refine ⟨fun d hd => ?_, fun d hd => absurd hd Bool.false_ne_true⟩
  obtain rfl : d = root := of_decide_eq_true hd
  exact .root

/-- A call that only rewrites inodes loses nothing. -/
theorem NoLeak.of_sameTree (hn : NoLeak s) (htree : Tmpfs.SameTree s.fs s'.fs)
    (hblock : ∀ d, s'.block d = true → s.fs.live d = true ∨ s.block d = true) : NoLeak s' := by
  refine ⟨fun d hd => ?_, fun d hd => ?_⟩
  · rw [htree.live] at hd
    exact htree.reached_iff.mpr (hn.inode d hd)
  · rw [htree.reached_iff]
    obtain hd | hd := hblock d hd
    · exact hn.inode d hd
    · exact hn.block d hd

theorem kids_eq_nil_iff {fs : Tmpfs} : fs.kids d = [] ↔ (fs.inodes d).childCount = 0 := by
  rw [← Tmpfs.length_kids, List.length_eq_zero_iff]

/-- Creating a directory loses nothing. -/
theorem NoLeak.created {mode parent c : ℕ} {name : List UInt8} (hn : NoLeak s) (hg : Tmpfs.Grown s.fs)
    (hparent : s.fs.Reached parent) (hc : s.fs.live c = false) :
    NoLeak { s with fs := s.fs.created parent name mode c } := by
  have a := Tmpfs.attach_created name mode hc (hparent.is_live hg.forest)
  have hkept : ∀ d, s.fs.Reached d → (s.fs.created parent name mode c).Reached d :=
    fun d hd => a.reached hg.forest hd
  refine ⟨fun d hd => ?_, fun d hd => hkept d (hn.block d hd)⟩
  obtain hd | rfl := (a.live_iff d).mp hd
  · exact hkept d (hn.inode d hd)
  · refine .child (hkept parent hparent) ?_
    rw [a.parent]
    simp

/-- Unlinking loses nothing exactly when the inode had no children. -/
theorem noLeak_removed_iff {parent i v : ℕ} (hg : Tmpfs.Grown s.fs) (hn : NoLeak s) (hparent : s.fs.Reached parent)
    (hi : i < (s.fs.inodes parent).childCount) (hv : (s.fs.inodes parent).children i = v) :
    NoLeak { s with fs := s.fs.removed parent i, block := Function.update s.block v false } ↔
      (s.fs.inodes v).childCount = 0 := by
  subst hv
  have t := Tmpfs.detach_removed hi
  have hlive := hparent.is_live hg.forest
  constructor
  · intro hn'
    by_contra hne
    -- the first child of the freed directory is allocated and no longer reached
    have hmem := Tmpfs.mem_kids (Nat.pos_of_ne_zero hne)
    have hvlive := hg.forest.kids_live parent hlive _ t.mem
    have hself := (hn.inode _ hvlive).irrefl hg.forest
    have hx := (t.live_iff _).mpr ⟨hg.forest.kids_live _ hvlive _ hmem, fun h => hself (by rwa [h] at hmem)⟩
    exact t.not_reach hg.forest hlive hmem (hn'.inode _ hx)
  · intro hleaf
    have hkids := kids_eq_nil_iff.mpr hleaf
    have hkept : ∀ d, s.fs.Reached d → d ≠ (s.fs.inodes parent).children i → (s.fs.removed parent i).Reached d :=
      fun d hd hdv => (t.reached hkids hd).resolve_left hdv
    refine ⟨fun d hd => ?_, fun d hd => ?_⟩
    · obtain ⟨hd, hdv⟩ := (t.live_iff d).mp hd
      exact hkept d (hn.inode d hd) hdv
    · dsimp only at hd
      by_cases hdv : d = (s.fs.inodes parent).children i
      · rw [hdv, Function.update_self] at hd
        cases hd
      · rw [Function.update_of_ne hdv] at hd
        exact hkept d (hn.block d hd) hdv

/-- **One call** loses nothing exactly when it meets the condition. -/
theorem noLeak_iff (hg : Tmpfs.Grown s.fs) (hn : NoLeak s) (e : FileEffect s op s') :
    NoLeak s' ↔ s.UnlinksLeaf op := by
  cases e with
  | none hop =>
      refine ⟨fun _ => ?_, fun _ => hn⟩
      cases op with
      | dir op =>
          cases op with
          | mkdir => trivial
          | unlink path stale stale' =>
              intro v hv
              cases (hop path stale stale' rfl).symm.trans hv
      | openFile => trivial
      | closeFile => trivial
      | readFile => trivial
      | writeFile => trivial
  | opened =>
      exact ⟨fun _ => trivial, fun _ => hn.of_sameTree (Tmpfs.sameTree_setRefCount _ _ _) (fun d hd => .inr hd)⟩
  | closed =>
      exact ⟨fun _ => trivial, fun _ => hn.of_sameTree (Tmpfs.sameTree_setRefCount _ _ _) (fun d hd => .inr hd)⟩
  | @wrote node offset buf grow inode b hlive hinode =>
      refine ⟨fun _ => trivial, fun _ => hn.of_sameTree (.update (by rw [hinode.1]) (by rw [hinode.1])) ?_⟩
      intro d hd
      by_cases hdn : d = node
      · exact .inl (hdn ▸ hlive)
      · dsimp only at hd
        rw [Function.update_of_ne hdn] at hd
        exact .inr hd
  | created hparent _ hc => exact ⟨fun _ => trivial, fun _ => hn.created hg hparent hc⟩
  | removed htarget hparent hi hv =>
      rw [noLeak_removed_iff hg hn hparent hi hv]
      constructor
      · intro hleaf w hw
        obtain rfl := Option.some.inj (Except.ok.inj (htarget.symm.trans hw))
        exact hleaf
      · exact fun hleaf => hleaf _ htarget

/-- **When nothing is leaked.**  In a run of `vfs_mkdir`, `vfs_unlink` and `vfs_write`, and of
`vfs_open`, `vfs_close` and `vfs_read`, from a freshly mounted root, after every call all allocated
inodes and data blocks are reachable from the root exactly when no call unlinks a directory that
has children. -/
theorem nothing_leaked_iff {counter root : ℕ} {ops : List FileOp} :
    Run NoLeakStep (mount counter root) ops s ↔ Run LeafStep (mount counter root) ops s := by
  have h0 : Tmpfs.Grown (mount counter root).fs ∧ NoLeak (mount counter root) :=
    ⟨Tmpfs.Grown.mount counter root, .mount counter root⟩
  apply Run.iff_of_invariant (I := fun s => Tmpfs.Grown s.fs ∧ NoLeak s) ?_ ?_ h0
  · rintro s op s' ⟨hg, hn⟩
    exact and_congr_right fun hstep => noLeak_iff hg hn (exec_cases hstep)
  · rintro s op s' ⟨hg, _⟩ ⟨hstep, hn'⟩ _
    exact ⟨(exec_cases hstep).grown hg, hn'⟩

theorem reached_of_empty_root {fs : Tmpfs} (h : (fs.inodes fs.root).childCount = 0) (hd : fs.Reached d) :
    d = fs.root := by
  induction hd with
  | root => rfl
  | child _ hx ih =>
      rw [ih, kids_eq_nil_iff.mpr h] at hx
      cases hx

/-- The path `/a/b`. -/
def pathAB : List UInt8 := [SLASH, 0x61, SLASH, 0x62]

/-- `mkdir /a`, `mkdir /a/b`, `unlink /a`: the inode of `/a/b` is allocated and lost. -/
theorem unlink_leaks_subtree : ¬ ∀ (counter root : ℕ) (ops : List FileOp) (s : Files),
    Run FileStep (mount counter root) ops s → NoLeak s := by
  intro hall
  have hrun : (fileRun (mount 1 100) [.dir (.mkdir Tmpfs.pathA 0o755 (some 200) Tmpfs.zeros Tmpfs.zeros),
      .dir (.mkdir pathAB 0o755 (some 300) Tmpfs.zeros Tmpfs.zeros),
      .dir (.unlink Tmpfs.pathA Tmpfs.zeros Tmpfs.zeros)]).any
        (fun s => decide (s.fs.live 300 = true ∧ s.fs.root = 100 ∧ (s.fs.inodes 100).childCount = 0)) = true := by
    decide +kernel
  obtain ⟨s, hs, hp⟩ := (Option.any_eq_true _ _).mp hrun
  obtain ⟨hlive, hroot, hcount⟩ := of_decide_eq_true hp
  have hreached := (hall 1 100 _ s (Run.of_fileRun hs)).inode 300 hlive
  have h := reached_of_empty_root (by rw [hroot, hcount]) hreached
  rw [hroot] at h
  cases h

end HeroOS.Files
