import HeroOS.TmpfsFiles

/-! # Nodes that are open

`vfs_open` counts references to the node it returns, and `vfs_close` counts them off.  Nothing else
looks at the count: `tmpfs_unlink` frees the inode it finds, with its data, however often it is open.

* `keeps_iff`: a call keeps the open nodes, and their data, exactly when it does not unlink an open
  node and makes no write whose end wraps to a buffer of no bytes;
* `open_nodes_kept_iff`: the same for all calls of a run. -/

namespace HeroOS.Files

open Word

variable {s s' : Files} {op : FileOp} {d : ℕ}

/-- The data of the inode are in an allocated block. -/
def HasBlock (s : Files) (d : ℕ) : Prop := (s.fs.inodes d).data.isSome ∧ s.block d = true

/-- No inode with references is freed, what is open is allocated, and an open node that had a data
block has one. -/
structure Keeps (s s' : Files) : Prop where
  counted : ∀ d, s.fs.live d = true → 0 < (s.fs.inodes d).refCount → s'.fs.live d = true
  opened : ∀ d, 0 < s'.opens d → s'.fs.live d = true
  block : ∀ d, 0 < s.opens d → s.HasBlock d → s'.HasBlock d

/-- The inode to be unlinked is not open, and the write does not take its block from an open node. -/
def Spares (s : Files) : FileOp → Prop
  | .dir (.unlink path stale stale') => ∀ v, s.fs.unlinkTarget stale stale' path = .ok (some v) → s.opens v = 0
  | .writeFile (some node) offset buf _ =>
      s.WrapsToZero node (wadd (toU64 offset) buf.length) → 0 < s.opens node → ¬ s.HasBlock node
  | _ => True

/-- A call that keeps what is open. -/
def KeepsStep (s : Files) (op : FileOp) (s' : Files) : Prop := FileStep s op s' ∧ Keeps s s'

/-- A call that meets the condition. -/
def SparesStep (s : Files) (op : FileOp) (s' : Files) : Prop := FileStep s op s' ∧ s.Spares op

/-- Open nodes are allocated, and no count of references exceeds the number of opens. -/
structure Referenced (s : Files) : Prop where
  grown : Tmpfs.Grown s.fs
  counted : ∀ d, (s.fs.inodes d).refCount ≤ s.opens d
  opened : ∀ d, 0 < s.opens d → s.fs.live d = true

theorem Referenced.mount (counter root : ℕ) : Referenced (Files.mount counter root) := by
  refine ⟨Tmpfs.Grown.mount counter root, ?_, fun d hd => absurd hd (lt_irrefl 0)⟩
  intro d
  unfold Files.mount Tmpfs.tmpfsMount
  by_cases hd : d = root
  · simp [hd, Tmpfs.rootInode]
  · simp [hd]

theorem update_pos {f : ℕ → ℕ} {node n : ℕ} (h : 0 < Function.update f node n d) : d = node ∨ 0 < f d := by
  by_cases hd : d = node
  · exact .inl hd
  · rw [Function.update_of_ne hd] at h
    exact .inr h

/-! ### One call -/

/-- Unlinking touches no other data and no count of references. -/
theorem removed_refCount (fs : Tmpfs) (parent i d : ℕ) :
    ((fs.removed parent i).inodes d).refCount = (fs.inodes d).refCount := by
  by_cases hd : d = parent
  · subst hd
    unfold Tmpfs.removed Tmpfs.removeSlot
    dsimp only
    rw [Function.update_self, Tmpfs.freeInode_fields]
  · rw [Tmpfs.removed_other hd]

theorem removed_data {fs : Tmpfs} {parent i : ℕ} (hd : d ≠ (fs.inodes parent).children i) :
    ((fs.removed parent i).inodes d).data = (fs.inodes d).data := by
  have hfree : ((fs.freeInode ((fs.inodes parent).children i)).inodes d).data = (fs.inodes d).data := by
    unfold Tmpfs.freeInode
    dsimp only
    rw [Function.update_of_ne hd]
  unfold Tmpfs.removed Tmpfs.removeSlot
  dsimp only
  by_cases hp : d = parent
  · subst hp
    rw [Function.update_self, hfree]
  · rw [Function.update_of_ne hp, hfree]

/-- A call that keeps what is open keeps the counts below the number of opens. -/
theorem Referenced.step (hI : Referenced s) (e : FileEffect s op s') (hk : Keeps s s') : Referenced s' := by
  refine ⟨e.grown hI.grown, ?_, hk.opened⟩
  intro d
  have hle := hI.counted d
  cases e with
  | none => exact hle
  | @opened path stale node hnode =>
      rw [Tmpfs.setRefCount_refCount]
      dsimp only
      by_cases hd : d = node
      · rw [if_pos hd, hd, Function.update_self]
        have := hI.counted node
        omega
      · rwa [if_neg hd, Function.update_of_ne hd]
  | @closed node =>
      rw [Tmpfs.setRefCount_refCount]
      dsimp only
      by_cases hd : d = node
      · rw [if_pos hd, hd, Function.update_self]
        have := hI.counted node
        omega
      · rwa [if_neg hd, Function.update_of_ne hd]
  | @wrote node offset buf grow inode b _ hinode =>
      unfold setInode
      dsimp only
      by_cases hd : d = node
      · rw [hd, Function.update_self, hinode.1]
        exact hI.counted node
      · rwa [Function.update_of_ne hd]
  | @created path mode stale stale' name parent c hparent _ hc =>
      have hne : c ≠ parent := fun h => by
        have hlive := hparent.is_live hI.grown.forest
        rw [← h, Tmpfs.Allocated, hc] at hlive
        cases hlive
      by_cases hdc : d = c
      · rw [hdc, Tmpfs.created_child hne]
        exact Nat.zero_le _
      · by_cases hdp : d = parent
        · rw [hdp, Tmpfs.created_parent hne]
          exact hI.counted parent
        · rwa [Tmpfs.created_other hdp hdc]
  | removed =>
      rw [removed_refCount]
      exact hle

/-- A call that frees and rewrites nothing keeps what is open. -/
theorem Keeps.of_same (hlive : s'.fs.live = s.fs.live)
    (hdata : ∀ d, (s'.fs.inodes d).data = (s.fs.inodes d).data) (hblock : s'.block = s.block)
    (hopens : ∀ d, 0 < s'.opens d → s.fs.live d = true) : Keeps s s' := by
  refine ⟨fun d hd _ => ?_, fun d hd => ?_, fun d _ hd => ?_⟩
  · rwa [hlive]
  · rw [hlive]
    exact hopens d hd
  · unfold HasBlock
    rwa [hdata, hblock]

/-- A write keeps what is open unless it takes the block of an open node. -/
theorem keeps_wrote_iff {node endOff : ℕ} {inode : Inode} {b : Bool} (hI : Referenced s)
    (hinode : Rewritten (s.fs.inodes node) inode) (hfrees : s.WrapsToZero node endOff → b = false)
    (hkeeps : ¬ s.WrapsToZero node endOff → s.block node = true → b = true) :
    Keeps s { s.setInode node inode with block := Function.update s.block node b } ↔
      (s.WrapsToZero node endOff → 0 < s.opens node → ¬ s.HasBlock node) := by
  constructor
  · intro hk hwrap hopen hblock
    have hb := (hk.block node hopen hblock).2
    dsimp only at hb
    rw [Function.update_self, hfrees hwrap] at hb
    cases hb
  · intro hsp
    refine ⟨fun d hd _ => hd, hI.opened, fun d hd hblock => ?_⟩
    unfold HasBlock setInode
    dsimp only
    by_cases hdn : d = node
    · subst hdn
      rw [Function.update_self, Function.update_self]
      exact ⟨hinode.2 hblock.1, hkeeps (fun hwrap => hsp hwrap hd hblock) hblock.2⟩
    · rw [Function.update_of_ne hdn, Function.update_of_ne hdn]
      exact hblock

/-- Creating a directory keeps what is open. -/
theorem Referenced.keeps_created {mode parent c : ℕ} {name : List UInt8} (hI : Referenced s)
    (hparent : s.fs.Reached parent) (hc : s.fs.live c = false) :
    Keeps s { s with fs := s.fs.created parent name mode c } := by
  have hlive := hparent.is_live hI.grown.forest
  have a := Tmpfs.attach_created name mode hc hlive
  have hne : c ≠ parent := fun h => a.fresh (h ▸ hlive)
  have hkept : ∀ d, s.fs.live d = true → (s.fs.created parent name mode c).live d = true :=
    fun d hd => (a.live_iff d).mpr (.inl hd)
  refine ⟨fun d hd _ => hkept d hd, fun d hd => hkept d (hI.opened d hd), fun d hd hblock => ?_⟩
  have hdc : d ≠ c := fun h => a.fresh (h ▸ hI.opened d hd)
  unfold HasBlock
  dsimp only
  by_cases hdp : d = parent
  · subst hdp
    rw [Tmpfs.created_parent hne]
    exact hblock
  · rw [Tmpfs.created_other hdp hdc]
    exact hblock

/-- Unlinking keeps what is open exactly when the inode was not open. -/
theorem keeps_removed_iff {parent i v : ℕ} (hI : Referenced s) (hi : i < (s.fs.inodes parent).childCount)
    (hv : (s.fs.inodes parent).children i = v) :
    Keeps s { s with fs := s.fs.removed parent i, block := Function.update s.block v false } ↔ s.opens v = 0 := by
  subst hv
  have t := Tmpfs.detach_removed hi
  constructor
  · intro hk
    by_contra hopen
    exact ((t.live_iff _).mp (hk.opened _ (Nat.pos_of_ne_zero hopen))).2 rfl
  · intro hclosed
    have hkept : ∀ d, s.fs.live d = true → d ≠ (s.fs.inodes parent).children i →
        (s.fs.removed parent i).live d = true := fun d hd hdv => (t.live_iff d).mpr ⟨hd, hdv⟩
    have hopened : ∀ d, 0 < s.opens d → d ≠ (s.fs.inodes parent).children i := by
      rintro d hd rfl
      omega
    refine ⟨fun d hd href => hkept d hd ?_, fun d hd => hkept d (hI.opened d hd) (hopened d hd),
      fun d hd hblock => ?_⟩
    · exact hopened d (href.trans_le (hI.counted d))
    · unfold HasBlock
      dsimp only
      rw [removed_data (hopened d hd), Function.update_of_ne (hopened d hd)]
      exact hblock

/-- **One call** keeps what is open exactly when it meets the condition. -/
theorem keeps_iff (hI : Referenced s) (e : FileEffect s op s') : Keeps s s' ↔ s.Spares op := by
  cases e with
  | none hop hwrite =>
      refine ⟨fun _ => ?_, fun _ => .of_same rfl (fun _ => rfl) rfl hI.opened⟩
      unfold Spares
      split
      · rename_i path stale stale'
        intro v hv
        cases (hop path stale stale' rfl).symm.trans hv
      · rename_i node offset buf grow
        exact absurd rfl (hwrite node offset buf grow)
      · trivial
  | @opened path stale node hnode =>
      refine ⟨fun _ => trivial, fun _ => .of_same rfl (fun d => Tmpfs.setRefCount_data _ _ _ _) rfl ?_⟩
      intro d hd
      obtain rfl | hd := update_pos hd
      · exact (Tmpfs.resolve_reached hnode).is_live hI.grown.forest
      · exact hI.opened d hd
  | @closed node hlive =>
      refine ⟨fun _ => trivial, fun _ => .of_same rfl (fun d => Tmpfs.setRefCount_data _ _ _ _) rfl ?_⟩
      intro d hd
      obtain rfl | hd := update_pos hd
      · exact hlive
      · exact hI.opened d hd
  | wrote _ hinode hfrees hkeeps => exact keeps_wrote_iff hI hinode hfrees hkeeps
  | created hparent _ hc => exact ⟨fun _ => trivial, fun _ => hI.keeps_created hparent hc⟩
  | removed htarget _ hi hv =>
      rw [keeps_removed_iff hI hi hv]
      constructor
      · intro hclosed w hw
        obtain rfl := Option.some.inj (Except.ok.inj (htarget.symm.trans hw))
        exact hclosed
      · exact fun hsp => hsp _ htarget

/-! ### Runs -/

/-- **When open nodes are kept.**  In a run of `vfs_open`, `vfs_close`, `vfs_read`, `vfs_write`,
`vfs_mkdir` and `vfs_unlink` from a freshly mounted root, every call frees no inode with a positive
count of references and leaves every open node allocated, with its data block, exactly when no call
unlinks an open node or takes the block from one by a write whose end wraps. -/
theorem open_nodes_kept_iff {counter root : ℕ} {ops : List FileOp} :
    Run KeepsStep (mount counter root) ops s ↔ Run SparesStep (mount counter root) ops s := by
  apply Run.iff_of_invariant (I := Referenced) ?_ ?_ (.mount counter root)
  · intro s op s' hI
    exact and_congr_right fun hstep => keeps_iff hI (exec_cases hstep)
  · rintro s op s' hI ⟨hstep, hk⟩ _
    exact hI.step (exec_cases hstep) hk

/-- `mkdir /a`, `open /a`, `unlink /a`: the node is still open and has been freed. -/
theorem unlink_frees_open_node : ¬ ∀ (counter root : ℕ) (ops : List FileOp) (s : Files),
    Run FileStep (mount counter root) ops s → ∀ d, 0 < s.opens d → s.fs.live d = true := by
  intro hall
  have hrun : (fileRun (mount 1 100) [.dir (.mkdir Tmpfs.pathA 0o755 (some 200) Tmpfs.zeros Tmpfs.zeros),
      .openFile Tmpfs.pathA Tmpfs.zeros, .dir (.unlink Tmpfs.pathA Tmpfs.zeros Tmpfs.zeros)]).any
        (fun s => decide (s.opens 200 = 1 ∧ s.fs.live 200 = false)) = true := by decide +kernel
  obtain ⟨s, hs, hp⟩ := (Option.any_eq_true _ _).mp hrun
  obtain ⟨hopen, hfreed⟩ := of_decide_eq_true hp
  have hlive := hall 1 100 _ s (Run.of_fileRun hs) 200 (by omega)
  rw [hfreed] at hlive
  cases hlive

end HeroOS.Files
