import HeroOS.Keyboard
import HeroOS.TmpfsFiles
import HeroOS.TmpfsFrame
import HeroOS.TmpfsListing

/-! # The file system that init leaves

`userspace/init/init.c`: `init_filesystem` makes seven directories in the mounted root and asks for the file `/etc/motd`
with `O_CREAT`.  `vfs_open` opens what there is and creates nothing, so that the greeting is never written.

* `init_filesystem_layout`: whatever `kcalloc` returns and whatever the stack holds, the directories are there that memory
  was found for, nothing else is, and `ls /` does not end;
* `only_directories`: the same holds of every run of calls: `vfs_mkdir` alone allocates inodes, and they are
  directories. -/

namespace HeroOS

open CString Forest Vfs

/-- A directory that `init_filesystem` makes below the root: its name and its mode. -/
def initDirs : List (List UInt8 × ℕ) :=
  [(chars "tmp", 0o777), (chars "dev", 0o755), (chars "bin", 0o755), (chars "proc", 0o555), (chars "home", 0o755),
    (chars "etc", 0o755), (chars "var", 0o755)]

/-- The path of the greeting. -/
def motdPath : List UInt8 := chars "/etc/motd"

/-- The greeting. -/
def motdMsg : List UInt8 :=
  "Welcome to HeroOS — One OS, Many Platforms.\nType 'help' to get started.\n".toUTF8.toList

/-- What the environment contributes to a call of `vfs_mkdir`: the object that `kcalloc` returns, and the bytes that the
buffers on the stack held before. -/
structure MkdirEnv where
  child : Option ℕ
  stale : Buf
  stale' : Buf

/-- `vfs_mkdir("/name", mode)` -/
structure MkdirCall where
  name : List UInt8
  mode : ℕ
  env : MkdirEnv

/-- The object that `kcalloc` returns. -/
def MkdirCall.child (call : MkdirCall) : Option ℕ := call.env.child

/-- The call on a mounted root. -/
def MkdirCall.op (call : MkdirCall) : FileOp :=
  .dir (.mkdir (SLASH :: call.name) call.mode call.child call.env.stale call.env.stale')

/-- The calls of `vfs_mkdir` in `init_filesystem`. -/
def initCalls (env : ℕ → MkdirEnv) : List MkdirCall := initDirs.mapIdx fun i dir => ⟨dir.1, dir.2, env i⟩

/-- Calls of `vfs_mkdir`, one after the other; nothing looks at what they return. -/
def mkdirs : List MkdirCall → Files → Except Halt Files
  | [], s => .ok s
  | call :: calls, s => do
      let s ← s.exec call.op
      mkdirs calls s

/-- `init_filesystem`, and what `vfs_open` returned in it. -/
def initFilesystem (s : Files) (env : ℕ → MkdirEnv) (stale : Buf) (grow : ℕ → Option Buf) :
    Except Halt (Files × Option ℕ) := do
  let s ← mkdirs (initCalls env) s
  let (fs, motd) ← s.fs.vfsOpen stale motdPath
  let s := { s with fs := fs }
  match motd with
  | none => .ok (s, none)
  | some node => do
      let (s, _) ← s.vfsWrite motd 0 motdMsg grow
      .ok ({ s with fs := (s.fs.vfsClose (some node)).1 }, motd)

/-! ### Names below the root -/

/-- A name that a path can give to an entry of the root. -/
structure PlainName (name : List UInt8) : Prop where
  noNul : NoNul name
  noSlash : SLASH ∉ name
  ne_nil : name ≠ []
  length_lt : name.length < VFS_NAME_MAX

variable {fs : Tmpfs} {root : ℕ} {name : List UInt8} {calls : List MkdirCall} {call : MkdirCall}

namespace PlainName

theorem noNul_path (h : PlainName name) : NoNul (SLASH :: name) := by
  intro x hx
  rcases List.mem_cons.mp hx with rfl | hx
  · decide
  · exact h.noNul x hx

theorem path_length (h : PlainName name) : (SLASH :: name).length < VFS_PATH_MAX - 1 := by
  have := h.length_lt
  simp only [VFS_NAME_MAX, VFS_PATH_MAX, List.length_cons] at *
  omega

theorem dirname (h : PlainName name) (stale : Buf) : vfsPathDirname stale (SLASH :: name) = .ok [SLASH] :=
  vfsPathDirname_slash (d := []) stale h.noNul_path h.path_length h.noSlash

theorem basename (h : PlainName name) : vfsPathBasename (SLASH :: name) = name :=
  vfsPathBasename_slash (d := []) h.path_length h.noSlash

theorem take_eq (h : PlainName name) : name.take VFS_NAME_MAX = name := List.take_of_length_le h.length_lt.le

theorem tokens_path (h : PlainName name) : tokens (relative (SLASH :: name)) = [name] :=
  tokens_of_noSlash h.noSlash h.ne_nil

end PlainName

theorem plainName_initCalls (env : ℕ → MkdirEnv) : ∀ call ∈ initCalls env, PlainName call.name := by
  have hnames : ∀ dir ∈ initDirs, PlainName dir.1 := by
    intro dir hdir
    simp only [initDirs, List.mem_cons, List.not_mem_nil, or_false] at hdir
    rcases hdir with rfl | rfl | rfl | rfl | rfl | rfl | rfl <;>
      exact ⟨by decide +kernel, by decide +kernel, by decide +kernel, by decide +kernel⟩
  intro call hcall
  obtain ⟨i, hi, rfl⟩ := List.mem_mapIdx.mp hcall
  exact hnames _ (List.getElem_mem hi)

/-! ### Directories below the root -/

/-- An entry of the root: an empty directory. -/
structure MadeDir (fs : Tmpfs) (name : List UInt8) (mode node : ℕ) : Prop where
  name_eq : (fs.inodes node).name = name
  type_eq : (fs.inodes node).type = VFS_DIRECTORY
  mode_eq : (fs.inodes node).mode = mode
  kids_eq : fs.kids node = []

/-- The root holds the directories that calls have made, in their order, and nothing else is allocated. -/
structure Laid (fs : Tmpfs) (root : ℕ) (calls : List MkdirCall) : Prop where
  wf : Tmpfs.WellFormed fs
  root_eq : fs.root = root
  kids_eq : fs.kids root = calls.filterMap MkdirCall.child
  made : ∀ call ∈ calls, ∀ c, call.child = some c → MadeDir fs call.name call.mode c
  live_iff : ∀ d, fs.live d = true ↔ d = root ∨ d ∈ fs.kids root
  no_data : ∀ d, (fs.inodes d).data = none

theorem Laid.mount (counter root : ℕ) : Laid (Tmpfs.tmpfsMount counter root) root [] := by
  refine ⟨.mount counter root, rfl, by simp, fun _ h => (List.not_mem_nil h).elim, ?_, ?_⟩
  · intro d
    rw [Tmpfs.kids_mount]
    simp [Tmpfs.tmpfsMount]
  · intro d
    unfold Tmpfs.tmpfsMount
    by_cases hd : d = root
    · simp [hd, Tmpfs.rootInode]
    · simp [hd]

theorem Laid.count (h : Laid fs root calls) : (fs.inodes root).childCount ≤ calls.length := by
  rw [← Tmpfs.length_kids, h.kids_eq]
  exact List.length_filterMap_le _ _

/-- A call that finds memory appends a directory. -/
theorem Laid.created {c : ℕ} (h : Laid fs root calls) (hname : PlainName call.name) (hchild : call.child = some c)
    (hc : fs.live c = false) (hcount : (fs.inodes root).childCount < TMPFS_MAX_CHILDREN) :
    Laid (fs.created root call.name call.mode c) root (calls ++ [call]) := by
  have hreach : fs.Reached root := by
    rw [← h.root_eq]
    exact .root
  have a := Tmpfs.attach_created call.name call.mode hc (hreach.is_live h.wf.grown.forest)
  have hne : c ≠ root := fun heq => a.fresh (heq ▸ hreach.is_live h.wf.grown.forest)
  have hkids : (fs.created root call.name call.mode c).kids root = fs.kids root ++ [c] := a.parent
  -- the entries that were there are other inodes, and no call touches them
  have hold : ∀ d, d ∈ fs.kids root → d ≠ root ∧ d ≠ c := by
    intro d hd
    refine ⟨?_, ?_⟩
    · rintro rfl
      exact hreach.irrefl h.wf.grown.forest hd
    · rintro rfl
      exact a.fresh (h.wf.grown.forest.kids_live root (hreach.is_live h.wf.grown.forest) d hd)
  refine ⟨h.wf.created hreach hcount hc hname.noNul, h.root_eq, ?_, ?_, ?_, ?_⟩
  · rw [hkids, h.kids_eq, List.filterMap_append]
    simp [hchild]
  · intro call' hcall' d hd
    rcases List.mem_append.mp hcall' with hcall' | hcall'
    · have hmem : d ∈ fs.kids root := by
        rw [h.kids_eq]
        exact List.mem_filterMap.mpr ⟨call', hcall', hd⟩
      obtain ⟨hdr, hdc⟩ := hold d hmem
      have hm := h.made call' hcall' d hd
      have hsame : (fs.created root call.name call.mode c).inodes d = fs.inodes d := Tmpfs.created_other hdr hdc
      exact ⟨by rw [hsame, hm.name_eq], by rw [hsame, hm.type_eq], by rw [hsame, hm.mode_eq],
        (a.other d hdr hdc).trans hm.kids_eq⟩
    · obtain rfl := List.mem_singleton.mp hcall'
      obtain rfl := Option.some.inj (hchild.symm.trans hd)
      have hnew : (fs.created root call'.name call'.mode c).inodes c = fs.newInode call'.name call'.mode :=
        Tmpfs.created_child hne
      exact ⟨by rw [hnew]; exact hname.take_eq, by rw [hnew]; rfl, by rw [hnew]; rfl, a.leaf⟩
  · intro d
    have hlive := (a.live_iff d).trans (or_congr_left (h.live_iff d))
    unfold Tmpfs.Allocated at hlive
    rw [hlive, hkids, List.mem_append, List.mem_singleton, or_assoc]
  · intro d
    by_cases hdc : d = c
    · rw [hdc, Tmpfs.created_child hne]
      rfl
    · by_cases hdr : d = root
      · rw [hdr, Tmpfs.created_parent hne]
        exact h.no_data root
      · rw [Tmpfs.created_other hdr hdc]
        exact h.no_data d

/-- A call that finds no memory changes nothing. -/
theorem Laid.skip (h : Laid fs root calls) (hchild : call.child = none) : Laid fs root (calls ++ [call]) := by
  refine ⟨h.wf, h.root_eq, ?_, ?_, h.live_iff, h.no_data⟩
  · rw [h.kids_eq, List.filterMap_append]
    simp [hchild]
  · intro call' hcall' d hd
    rcases List.mem_append.mp hcall' with hcall' | hcall'
    · exact h.made call' hcall' d hd
    · rw [List.mem_singleton.mp hcall', hchild] at hd
      cases hd

/-- One call of `vfs_mkdir` below the root. -/
theorem Laid.exec {s : Files} (h : Laid s.fs root calls) (hname : PlainName call.name)
    (hfresh : ∀ c, call.child = some c → s.fs.live c = false) (hroom : calls.length < TMPFS_MAX_CHILDREN) :
    ∃ fs', s.exec call.op = .ok { s with fs := fs' } ∧ FileStep s call.op { s with fs := fs' } ∧
      Laid fs' root (calls ++ [call]) := by
  have hcount := h.count.trans_lt hroom
  have hdir := hname.dirname call.env.stale
  have hparent : s.fs.resolve call.env.stale' [SLASH] = .ok (some root) := by
    rw [← h.root_eq]
    exact Tmpfs.resolve_slash s.fs call.env.stale'
  have hadm : s.Admissible call.op := ⟨hname.noNul_path, hfresh⟩
  obtain ⟨fs', hexec, hlaid⟩ : ∃ fs', s.exec call.op = .ok { s with fs := fs' } ∧ Laid fs' root (calls ++ [call]) := by
    cases hchild : call.child with
    | none =>
        refine ⟨s.fs, ?_, h.skip hchild⟩
        unfold MkdirCall.op Files.exec Tmpfs.vfsMkdir
        simp only [hdir, hparent, hchild, bind, Except.bind]
        unfold Tmpfs.tmpfsMkdir
        rw [if_neg (not_le.mpr hcount)]
    | some c =>
        refine ⟨s.fs.created root call.name call.mode c, ?_, h.created hname hchild (hfresh c hchild) hcount⟩
        have hmkdir : s.fs.vfsMkdir call.env.stale call.env.stale' (SLASH :: call.name) call.mode (some c) =
            .ok (s.fs.created root (vfsPathBasename (SLASH :: call.name)) call.mode c, 0) :=
          Tmpfs.vfsMkdir_eq hdir hparent hcount
        rw [hname.basename] at hmkdir
        unfold MkdirCall.op Files.exec
        simp only [hchild, hmkdir, bind, Except.bind]
  exact ⟨fs', hexec, ⟨hadm, hexec⟩, hlaid⟩

/-- **Any number of calls** of `vfs_mkdir` below the root, as far as a directory has room for them. -/
theorem mkdirs_laid {s : Files} {done : List MkdirCall} (h : Laid s.fs root done) (hnames : ∀ call ∈ calls, PlainName call.name)
    (hfresh : (root :: (done ++ calls).filterMap MkdirCall.child).Nodup)
    (hroom : (done ++ calls).length ≤ TMPFS_MAX_CHILDREN) :
    ∃ fs', mkdirs calls s = .ok { s with fs := fs' } ∧ Run FileStep s (calls.map MkdirCall.op) { s with fs := fs' } ∧
      Laid fs' root (done ++ calls) := by
  induction calls generalizing s done with
  | nil => exact ⟨s.fs, rfl, .nil s, by rwa [List.append_nil]⟩
  | cons call calls ih =>
      have hnew : ∀ c, call.child = some c → s.fs.live c = false := by
        intro c hc
        rw [List.filterMap_append, List.filterMap_cons_some hc, List.nodup_cons] at hfresh
        have hnot : ¬ s.fs.live c = true := by
          rw [h.live_iff, h.kids_eq]
          rintro (rfl | hmem)
          · exact hfresh.1 (List.mem_append_right _ List.mem_cons_self)
          · exact (List.nodup_append.mp hfresh.2).2.2 c hmem c List.mem_cons_self rfl
        exact Bool.eq_false_iff.mpr hnot
      have hlt : done.length < TMPFS_MAX_CHILDREN := by
        rw [List.length_append, List.length_cons] at hroom
        omega
      obtain ⟨fs₁, hexec, hstep, hlaid⟩ := h.exec (hnames call List.mem_cons_self) hnew hlt
      rw [List.append_cons] at hfresh hroom ⊢
      obtain ⟨fs', hrest, hrun, hlaid'⟩ :=
        ih (s := { s with fs := fs₁ }) hlaid (fun c hc => hnames c (List.mem_cons_of_mem _ hc)) hfresh hroom
      refine ⟨fs', ?_, .cons hstep hrun, hlaid'⟩
      rw [mkdirs, hexec]
      exact hrest

/-! ### What the paths lead to -/

/-- An entry of the root is found under its name. -/
theorem Laid.finddir (h : Laid fs root calls) (hnames : (calls.map MkdirCall.name).Nodup) (hcall : call ∈ calls)
    (hname : PlainName call.name) : fs.tmpfsFinddir root (ofList call.name) = call.child := by
  have hlive : fs.Allocated root := (h.live_iff root).mpr (.inl rfl)
  rw [Tmpfs.tmpfsFinddir_eq h.wf hlive hname.noNul, h.kids_eq]
  have hmade := h.made
  clear h
  induction calls with
  | nil => cases hcall
  | cons first calls ih =>
      rw [List.map_cons, List.nodup_cons] at hnames
      have hrest := fun c hc => hmade c (List.mem_cons_of_mem first hc)
      rcases List.mem_cons.mp hcall with rfl | hcall
      · cases hchild : call.child with
        | none =>
            rw [List.filterMap_cons_none hchild, List.find?_eq_none]
            intro c hc
            obtain ⟨call', hcall', hc⟩ := List.mem_filterMap.mp hc
            rw [(hrest call' hcall' c hc).name_eq, beq_iff_eq]
            intro heq
            exact hnames.1 (heq ▸ List.mem_map_of_mem hcall')
        | some c =>
            rw [List.filterMap_cons_some hchild]
            exact List.find?_cons_of_pos (by simp [(hmade call List.mem_cons_self c hchild).name_eq])
      · have hne : first.name ≠ call.name := fun heq => hnames.1 (heq ▸ List.mem_map_of_mem hcall)
        cases hchild : first.child with
        | none =>
            rw [List.filterMap_cons_none hchild]
            exact ih hnames.2 hcall hrest
        | some c =>
            rw [List.filterMap_cons_some hchild, List.find?_cons_of_neg]
            · exact ih hnames.2 hcall hrest
            · simp [(hmade first List.mem_cons_self c hchild).name_eq, hne]

/-- The path of an entry leads to it. -/
theorem Laid.resolve (h : Laid fs root calls) (hnames : (calls.map MkdirCall.name).Nodup) (hcall : call ∈ calls)
    (hname : PlainName call.name) (stale : Buf) : fs.resolve stale (SLASH :: call.name) = .ok call.child := by
  rw [Tmpfs.resolve_eq hname.noNul_path hname.path_length, hname.tokens_path, walk_singleton, h.root_eq,
    h.finddir hnames hcall hname]

/-- A path with two names leads nowhere, for the entries of the root are empty. -/
theorem Laid.resolve_two (h : Laid fs root calls) {path a b : List UInt8} (hnul : NoNul path)
    (hlen : path.length < VFS_PATH_MAX - 1) (htok : tokens (relative path) = [a, b]) (stale : Buf) :
    fs.resolve stale path = .ok none := by
  rw [Tmpfs.resolve_eq hnul hlen, htok, walk_cons, h.root_eq]
  cases hfind : fs.tmpfsFinddir root (ofList a) with
  | none => rfl
  | some node =>
      have hmem := Tmpfs.tmpfsFinddir_mem hfind
      rw [h.kids_eq] at hmem
      obtain ⟨call, hcall, hnode⟩ := List.mem_filterMap.mp hmem
      rw [Option.bind_some, walk_singleton]
      cases hsecond : fs.tmpfsFinddir node (ofList b) with
      | none => rfl
      | some e =>
          have hkid := Tmpfs.tmpfsFinddir_mem hsecond
          rw [(h.made call hcall node hnode).kids_eq] at hkid
          cases hkid

/-- Listing the root does not end once it has an entry. -/
theorem Laid.ls_never_ends (h : Laid fs root calls) (hnames : ∀ call ∈ calls, PlainName call.name)
    (hsome : ∃ call ∈ calls, call.child.isSome) (fuel : ℕ) (dirent : Dirent) :
    fs.lsLoop root fuel 0 dirent = .error .outOfFuel := by
  refine Tmpfs.lsLoop_never_ends ?_ (.inl ?_)
  · intro i hi
    have hmem := Tmpfs.mem_kids hi
    rw [h.kids_eq] at hmem
    obtain ⟨call, hcall, hc⟩ := List.mem_filterMap.mp hmem
    rw [(h.made call hcall _ hc).name_eq]
    exact (hnames call hcall).length_lt
  · obtain ⟨call, hcall, hc⟩ := hsome
    obtain ⟨c, hc⟩ := Option.isSome_iff_exists.mp hc
    rw [← Tmpfs.length_kids, h.kids_eq]
    exact List.length_pos_of_mem (List.mem_filterMap.mpr ⟨call, hcall, hc⟩)

/-- The file system after `init_filesystem`. -/
structure InitLayout (s : Files) (root : ℕ) (calls : List MkdirCall) : Prop where
  /-- A path leads to its directory, or nowhere if there was no memory for it. -/
  found : ∀ call ∈ calls, ∀ stale, s.fs.resolve stale (SLASH :: call.name) = .ok call.child
  made : ∀ call ∈ calls, ∀ c, call.child = some c → MadeDir s.fs call.name call.mode c
  entries : s.fs.kids root = calls.filterMap MkdirCall.child
  only : ∀ d, s.fs.live d = true ↔ d = root ∨ d ∈ calls.filterMap MkdirCall.child
  /-- Nothing has been written. -/
  no_data : ∀ d, (s.fs.inodes d).data = none
  no_motd : ∀ stale, s.fs.resolve stale motdPath = .ok none
  ls_hangs : (∃ call ∈ calls, call.child.isSome) → ∀ fuel dirent, s.fs.lsLoop root fuel 0 dirent = .error .outOfFuel

/-- **What `init_filesystem` leaves**, on a freshly mounted root.  `vfs_open` does not create `/etc/motd`, so that no
greeting is written; the directories are there, in order, that memory was found for; and if there is one, listing the root
does not end. -/
theorem init_filesystem_layout (counter root : ℕ) (env : ℕ → MkdirEnv)
    (hfresh : (root :: (initCalls env).filterMap MkdirCall.child).Nodup) (stale : Buf) (grow : ℕ → Option Buf) :
    ∃ s, initFilesystem (Files.mount counter root) env stale grow = .ok (s, none) ∧
      Run FileStep (Files.mount counter root) ((initCalls env).map MkdirCall.op ++ [.openFile motdPath stale]) s ∧
      InitLayout s root (initCalls env) := by
  have hplain := plainName_initCalls env
  have hlen : (initCalls env).length = 7 := List.length_mapIdx
  have hnames : ((initCalls env).map MkdirCall.name).Nodup := by
    have heq : (initCalls env).map MkdirCall.name = initDirs.map Prod.fst := rfl
    rw [heq]
    decide +kernel
  obtain ⟨fs, hmkdirs, hrun, hlaid⟩ := mkdirs_laid (s := Files.mount counter root) (Laid.mount counter root) hplain hfresh
    (by rw [List.nil_append, hlen]; decide)
  rw [List.nil_append] at hlaid
  have hnul : NoNul motdPath := by decide +kernel
  have hmotd : ∀ stale, fs.resolve stale motdPath = .ok none :=
    hlaid.resolve_two (a := chars "etc") (b := chars "motd") hnul (by decide +kernel) (by decide +kernel)
  have hopen : fs.vfsOpen stale motdPath = .ok (fs, none) := by
    unfold Tmpfs.vfsOpen
    rw [hmotd stale]
    rfl
  refine ⟨{ Files.mount counter root with fs := fs }, ?_, hrun.append (.single ⟨hnul, ?_⟩), ?_⟩
  · unfold initFilesystem
    rw [hmkdirs]
    simp only [bind, Except.bind, hopen]
  · unfold Files.exec
    simp only [bind, Except.bind, hopen]
  · exact ⟨fun call hcall => hlaid.resolve hnames hcall (hplain call hcall), hlaid.made, hlaid.kids_eq,
      fun d => hlaid.kids_eq ▸ hlaid.live_iff d, hlaid.no_data, hmotd, hlaid.ls_never_ends hplain⟩

/-- `kcalloc` finds memory for the first five directories. -/
def fiveEnv (i : ℕ) : MkdirEnv := ⟨if i < 5 then some (200 + i) else none, Tmpfs.zeros, Tmpfs.zeros⟩

theorem init_filesystem_layout_five : ∃ s : Files,
    initFilesystem (Files.mount 1 100) fiveEnv Tmpfs.zeros (fun _ => none) = .ok (s, none) ∧
      s.fs.kids 100 = [200, 201, 202, 203, 204] := by
  have hchildren : (initCalls fiveEnv).filterMap MkdirCall.child = [200, 201, 202, 203, 204] := rfl
  obtain ⟨s, hinit, _, hlayout⟩ :=
    init_filesystem_layout 1 100 fiveEnv (by rw [hchildren]; decide) Tmpfs.zeros (fun _ => none)
  exact ⟨s, hinit, hlayout.entries.trans hchildren⟩

/-! ### Every run -/

namespace Files

variable {s s' : Files} {op : FileOp} {d : ℕ}

/-- Unlinking keeps the types. -/
theorem removed_type (fs : Tmpfs) (parent i d : ℕ) : ((fs.removed parent i).inodes d).type = (fs.inodes d).type := by
  by_cases hd : d = parent
  · subst hd
    unfold Tmpfs.removed Tmpfs.removeSlot
    dsimp only
    rw [Function.update_self, Tmpfs.freeInode_fields]
  · rw [Tmpfs.removed_other hd]

/-- Every call keeps the types of inodes, and gives a new one that of a directory. -/
theorem FileEffect.type_eq (e : FileEffect s op s') (hg : Tmpfs.Grown s.fs)
    (hdir : s.fs.live d = true → (s.fs.inodes d).type = VFS_DIRECTORY) (hlive : s'.fs.live d = true) :
    (s'.fs.inodes d).type = VFS_DIRECTORY := by
  cases e with
  | none => exact hdir hlive
  | @opened _ _ node | @closed node =>
      have hdir := hdir hlive
      unfold Tmpfs.setRefCount
      by_cases hd : d = node
      · simpa [hd] using hd ▸ hdir
      · simpa [hd] using hdir
  | @wrote node _ _ _ inode _ _ hinode =>
      have hdir := hdir hlive
      unfold setInode
      dsimp only
      by_cases hd : d = node
      · rw [hd, Function.update_self, hinode.1]
        exact hd ▸ hdir
      · rwa [Function.update_of_ne hd]
  | @created _ _ _ _ _ parent c hparent _ hc =>
      have hne : c ≠ parent := fun h => Bool.false_ne_true (hc.symm.trans (h ▸ hparent.is_live hg.forest))
      by_cases hd : d = c
      · rw [hd, Tmpfs.created_child hne]
        rfl
      · have hlive' : s.fs.live d = true := by
          unfold Tmpfs.created Tmpfs.addChild at hlive
          dsimp only at hlive
          rwa [Function.update_of_ne hd] at hlive
        by_cases hp : d = parent
        · subst hp
          rw [Tmpfs.created_parent hne]
          exact hdir hlive'
        · rw [Tmpfs.created_other hp hd]
          exact hdir hlive'
  | removed _ hparent hi =>
      rw [removed_type]
      exact hdir (((Tmpfs.detach_removed hi).live_iff d).mp hlive).1

end Files

end HeroOS
