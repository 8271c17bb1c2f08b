import HeroOS.VfsMount

/-! # The buffer of `vfs_resolve_path`

`vfs_resolve_path` cuts its copy of the path into names: it overwrites the slash behind the current name with a
terminator and passes a pointer into the buffer to `finddir`.  Nodes may lack a table of operations, and tables an
entry for `finddir`.

* `resolveLoop_eq_view`: the bytes from the current name on are still those of the path, so that the loop does what
  the one of `Vfs.vfsResolvePath` does, which leaves the buffer as it is;
* `vfs_resolve_path_eq`: a path that fits its buffer is resolved by a walk along its components;
* `path_buffer_iff`: a path that does not is resolved, and split by `vfs_path_dirname`, by bytes that were in the
  buffer before. -/

namespace HeroOS

open CString

namespace Vfs.InPlace

/-- `vfs_ops_t`, of which lookup uses one entry. -/
structure Ops (ν : Type) where
  finddir : Option (ν → Buf → Option ν)

/-- `strchr(s + i, c)` for a character `c`, in a buffer with `n` more bytes: the offset, or none for `NULL`. -/
def strchrFrom (buf : Buf) (c : UInt8) : ℕ → ℕ → Except Halt (Option ℕ)
  | 0, _ => .error .overrun
  | n + 1, i =>
      if buf i = 0 then .ok none
      else if buf i = c then .ok (some i)
      else strchrFrom buf c n (i + 1)

/-- `if (slash) *slash = '\0'` -/
def cutAt (buf : Buf) : Option ℕ → Buf
  | some i => Function.update buf i 0
  | none => buf

variable {ν : Type} (ops : ν → Option (Ops ν))

/-- `node->ops->finddir`, if there is one. -/
def finddirOf (node : ν) : Option (ν → Buf → Option ν) := (ops node).bind Ops.finddir

/-- The loop of `vfs_resolve_path` with `tok` at offset `tok` of the buffer. -/
def resolveLoop : ℕ → Buf → ν → ℕ → Except Halt (Option ν)
  | 0, _, _, _ => .error .outOfFuel
  | fuel + 1, buf, node, tok =>
      if tok ≥ VFS_PATH_MAX then .error .overrun
      else if buf tok = 0 then .ok (some node)
      else do
        let slash ← strchrFrom buf SLASH (VFS_PATH_MAX - tok) tok
        let buf := cutAt buf slash
        match finddirOf ops node with
        | none => .ok none
        | some finddir =>
            let name ← cstrFrom buf (VFS_PATH_MAX - tok) tok
            match finddir node (ofList name) with
            | none => .ok none
            | some node' =>
                match slash with
                | none => .ok (some node')
                | some i => resolveLoop fuel buf node' (i + 1)

/-- `vfs_resolve_path`; `stale` are the bytes that the buffer on the stack held before. -/
def vfsResolvePath (vfsRoot : Option ν) (stale : Buf) (path : Option (List UInt8)) : Except Halt (Option ν) :=
  match path, vfsRoot with
  | some path, some root =>
      if ofList path 0 = SLASH ∧ ofList path 1 = 0 then .ok (some root)
      else
        let buf := strncpy stale path (VFS_PATH_MAX - 1)
        resolveLoop ops (VFS_PATH_MAX + 1) buf root (if buf 0 = SLASH then 1 else 0)
  | _, _ => .ok none

/-- Looking up one name: nothing is found in a node without `finddir`. -/
def lookup (node : ν) (name : Buf) : Option ν := (finddirOf ops node).bind (fun finddir => finddir node name)

variable {ops} {buf buf' stale : Buf} {path : List UInt8} {node : ν} {fuel n i j tok : ℕ}

/-! ### One name -/

/-- A name of the path, found by `strchr` and read behind the terminator that replaces its slash. -/
theorem component_eq (h : strchrFrom buf SLASH n i = .ok (some j)) :
    i ≤ j ∧ ∃ c, cstrFrom (cutAt buf (some j)) n i = .ok c ∧ component buf n i = .ok (c, some (j + 1)) := by
  induction n generalizing i with
  | zero => cases h
  | succ n ih =>
      rw [strchrFrom] at h
      split_ifs at h with h0 hs
      · cases h
      · obtain rfl : i = j := Option.some.inj (Except.ok.inj h)
        refine ⟨le_rfl, [], ?_, ?_⟩
        · rw [cstrFrom, cutAt, Function.update_self, if_pos rfl]
        · rw [component, if_neg h0, if_pos hs]
      · obtain ⟨hle, c, hc, hcomp⟩ := ih h
        have hne : i ≠ j := by omega
        refine ⟨by omega, buf i :: c, ?_, ?_⟩
        · rw [cstrFrom, cutAt, Function.update_of_ne hne, if_neg h0, ← cutAt, hc]
          rfl
        · rw [component, if_neg h0, if_neg hs, hcomp]
          rfl

/-- The last name of the path. -/
theorem component_eq_last (h : strchrFrom buf SLASH n i = .ok none) :
    ∃ c, cstrFrom (cutAt buf none) n i = .ok c ∧ component buf n i = .ok (c, none) := by
  induction n generalizing i with
  | zero => cases h
  | succ n ih =>
      rw [strchrFrom] at h
      split_ifs at h with h0 hs
      · exact ⟨[], by rw [cstrFrom, cutAt, if_pos h0], by rw [component, if_pos h0]⟩
      · cases h
      · obtain ⟨c, hc, hcomp⟩ := ih h
        refine ⟨buf i :: c, ?_, ?_⟩
        · rw [cutAt] at hc ⊢
          rw [cstrFrom, if_neg h0, hc]
          rfl
        · rw [component, if_neg h0, if_neg hs, hcomp]
          rfl

/-- Where `strchr` leaves the buffer, so does the search for the name. -/
theorem component_error {e : Halt} (h : strchrFrom buf SLASH n i = .error e) : component buf n i = .error e := by
  induction n generalizing i with
  | zero =>
      cases h
      rfl
  | succ n ih =>
      rw [strchrFrom] at h
      split_ifs at h with h0 hs
      rw [component, if_neg h0, if_neg hs, ih h]
      rfl

theorem strchrFrom_congr (c : UInt8) (h : ∀ j, i ≤ j → buf' j = buf j) : strchrFrom buf' c n i = strchrFrom buf c n i := by
  induction n generalizing i with
  | zero => rfl
  | succ n ih =>
      rw [strchrFrom, strchrFrom, h i le_rfl, ih (fun j hj => h j (by omega))]

/-! ### The loop -/

/-- **The unread part of the buffer is the path.**  As long as the bytes from the current name on are those of the
path, the loop finds what it would find without overwriting any. -/
theorem resolveLoop_eq_view (h : ∀ j, tok ≤ j → buf' j = buf j) :
    resolveLoop ops fuel buf' node tok = Vfs.resolveLoop (lookup ops) buf fuel node tok := by
  induction fuel generalizing buf' node tok with
  | zero => rfl
  | succ fuel ih =>
      rw [resolveLoop, Vfs.resolveLoop, h tok le_rfl, strchrFrom_congr SLASH h]
      split_ifs
      · rfl
      · rfl
      · cases hslash : strchrFrom buf SLASH (VFS_PATH_MAX - tok) tok with
        | error e =>
            rw [component_error hslash]
            rfl
        | ok slash =>
            -- the name that `finddir` reads is the component of the path
            obtain ⟨c, hc, hcomp⟩ : ∃ c, cstrFrom (cutAt buf slash) (VFS_PATH_MAX - tok) tok = .ok c ∧
                component buf (VFS_PATH_MAX - tok) tok = .ok (c, slash.map (· + 1)) := by
              cases slash with
              | none => exact component_eq_last hslash
              | some i => exact (component_eq hslash).2
            have hread : cstrFrom (cutAt buf' slash) (VFS_PATH_MAX - tok) tok = .ok c := by
              rw [← hc]
              apply cstrFrom_congr
              intro j hj _
              cases slash with
              | none => exact h j hj
              | some i => simp only [cutAt, Function.update_apply, h j hj]
            rw [hcomp]
            simp only [bind, Except.bind, lookup]
            cases finddirOf ops node with
            | none => rfl
            | some finddir =>
                rw [hread]
                dsimp only [Option.bind_some]
                cases finddir node (ofList c) with
                | none => rfl
                | some node' =>
                    cases slash with
                    | none => rfl
                    | some i =>
                        -- only the byte of the slash was overwritten, and it lies behind the next name
                        have hle := (component_eq hslash).1
                        exact ih (fun j hj => (Function.update_of_ne (by omega) _ _).trans (h j (by omega)))

theorem root_path_iff (hnul : NoNul path) : (ofList path 0 = SLASH ∧ ofList path 1 = 0) ↔ path = [SLASH] := by
  constructor
  · rintro ⟨h0, h1⟩
    match path with
    | [] => cases h0
    | [x] => rw [show x = SLASH from h0]
    | x :: y :: _ => exact absurd h1 (hnul y (by simp))
  · rintro rfl
    exact ⟨rfl, rfl⟩

/-- The function that leaves the buffer as it is has the same results. -/
theorem vfsResolvePath_eq_view (ops : ν → Option (Ops ν)) (vfsRoot : Option ν) (stale : Buf) (hnul : NoNul path) :
    vfsResolvePath ops vfsRoot stale (some path) = Vfs.vfsResolvePath (lookup ops) vfsRoot stale path := by
  unfold vfsResolvePath Vfs.vfsResolvePath
  cases vfsRoot with
  | none => rfl
  | some root =>
      dsimp only
      simp only [root_path_iff hnul]
      split_ifs
      · rfl
      · exact resolveLoop_eq_view (fun _ _ => rfl)
      · exact resolveLoop_eq_view (fun _ _ => rfl)

/-- The reference: one leading slash dropped, the rest split at the slashes, one empty component at the end dropped,
and `finddir` folded over the components. -/
def reference (ops : ν → Option (Ops ν)) (vfsRoot : Option ν) (path : List UInt8) : Option ν :=
  vfsRoot.bind (fun root => walk (lookup ops) root (tokens (relative path)))

/-- **Path resolution.**  In every file system, whatever the buffer held before: a path of fewer than 4095 characters
is resolved as the reference says. -/
theorem vfs_resolve_path_eq (ops : ν → Option (Ops ν)) (vfsRoot : Option ν) (stale : Buf) (hnul : NoNul path)
    (hlen : path.length < VFS_PATH_MAX - 1) :
    vfsResolvePath ops vfsRoot stale (some path) = .ok (reference ops vfsRoot path) := by
  rw [vfsResolvePath_eq_view ops vfsRoot stale hnul]
  cases vfsRoot with
  | none => rfl
  | some root => exact vfsResolvePath_eq hnul hlen

/-- The path `a//b/` in a file system that appends the bytes of names: the inner empty component is looked up, the
last one is not. -/
theorem vfs_resolve_path_eq_inner_empty :
    vfsResolvePath (fun _ : List UInt8 => some ⟨some fun node name => some (node ++ [name 0])⟩) (some []) (fun _ => 1)
      (some [0x61, SLASH, SLASH, 0x62, SLASH]) = .ok (some [0x61, 0, 0x62]) := by
  have hnul : NoNul [0x61, SLASH, SLASH, 0x62, SLASH] := by decide +kernel
  rw [vfs_resolve_path_eq _ _ _ hnul (by decide)]
  decide +kernel

/-! ### Bytes that were in the buffer before -/

/-- The result does not depend on what the buffer held before, and no read leaves the buffer. -/
structure StaleFree {α : Type} (f : Buf → Except Halt α) : Prop where
  same : ∀ stale stale', f stale = f stale'
  bounded : ∀ stale, f stale ≠ .error .overrun

theorem staleFree_const {α : Type} (a : α) : StaleFree (fun _ => (.ok a : Except Halt α)) :=
  ⟨fun _ _ => rfl, fun _ h => by cases h⟩

/-- A buffer without a terminator is read to its end and beyond. -/
theorem cstrFrom_unterminated (h : ∀ j, i ≤ j → j < i + n → buf j ≠ 0) : cstrFrom buf n i = .error .overrun := by
  induction n generalizing i with
  | zero => rfl
  | succ n ih =>
      rw [cstrFrom, if_neg (h i le_rfl (by omega)), ih (fun j h1 h2 => h j (by omega) (by omega))]
      rfl

/-- The copy of a long path in a buffer that held no zero. -/
theorem strncpy_long (hnul : NoNul path) (hlen : VFS_PATH_MAX - 1 ≤ path.length) (j : ℕ) :
    strncpy (fun _ => 1) path (VFS_PATH_MAX - 1) j ≠ 0 := by
  unfold strncpy
  split_ifs with hj
  · have hlt : j < path.length := by omega
    rw [List.getD_eq_getElem _ _ hlt]
    exact hnul _ (List.getElem_mem hlt)
  · exact (by decide : (1 : UInt8) ≠ 0)

/-- The copy of a long path in a buffer that held zeros is terminated by its last byte. -/
theorem stringAt_long (hlen : VFS_PATH_MAX - 1 ≤ path.length) :
    StringAt (strncpy (fun _ => 0) path (VFS_PATH_MAX - 1)) 0 (path.take (VFS_PATH_MAX - 1)) := by
  intro k hk
  rw [List.length_take, min_eq_left hlen] at hk
  unfold strncpy
  rw [Nat.zero_add]
  split_ifs with hlt
  · rw [List.getD_eq_getElem?_getD, List.getD_eq_getElem?_getD, List.getElem?_take, if_pos hlt]
  · rw [List.getD_eq_default]
    rw [List.length_take]
    omega

theorem dirname_staleFree (hnul : NoNul path) (hlen : path.length < VFS_PATH_MAX - 1) :
    StaleFree (fun stale => vfsPathDirname stale path) := by
  by_cases hslash : SLASH ∈ path
  · obtain ⟨d, b, rfl, hb⟩ := exists_last_slash hslash
    simp only [vfsPathDirname_slash _ hnul hlen hb]
    exact staleFree_const _
  · simp only [vfsPathDirname_of_noSlash hnul hlen hslash]
    exact staleFree_const _

theorem dirname_not_staleFree (hnul : NoNul path) (hlen : VFS_PATH_MAX - 1 ≤ path.length) :
    ¬ StaleFree (fun stale => vfsPathDirname stale path) := by
  intro h
  apply h.bounded (fun _ => 1)
  unfold vfsPathDirname cstr
  rw [cstrFrom_unterminated (fun j _ _ => strncpy_long hnul hlen j)]
  rfl

theorem resolve_staleFree (ops : ν → Option (Ops ν)) (vfsRoot : Option ν) (hnul : NoNul path)
    (hlen : path.length < VFS_PATH_MAX - 1) : StaleFree (fun stale => vfsResolvePath ops vfsRoot stale (some path)) := by
  simp only [vfsResolvePath_eq_view ops vfsRoot _ hnul]
  cases vfsRoot with
  | none => exact staleFree_const _
  | some root =>
      simp only [vfsResolvePath_eq hnul hlen]
      exact staleFree_const _

/-- A file system in which every name leads to the one node. -/
def oneNode (_ : Unit) : Option (Ops Unit) := some ⟨some fun _ _ => some ()⟩

theorem resolve_not_staleFree (hnul : NoNul path) (hlen : VFS_PATH_MAX - 1 ≤ path.length) :
    ¬ StaleFree (fun stale => vfsResolvePath oneNode (some ()) stale (some path)) := by
  intro h
  have hroot : path ≠ [SLASH] := by
    rintro rfl
    exact absurd hlen (by decide)
  have hone : Vfs.vfsResolvePath (lookup oneNode) (some ()) (fun _ => 0) path =
      .ok (walk (lookup oneNode) () (tokens (relative (path.take (VFS_PATH_MAX - 1))))) := by
    rw [Vfs.vfsResolvePath, if_neg hroot]
    refine resolveLoop_from_start (stringAt_long hlen) (hnul.take _) ?_
    rw [List.length_take]
    exact (min_le_left _ _).trans_lt (by decide)
  have hsame := h.same (fun _ => 1) (fun _ => 0)
  simp only [vfsResolvePath_eq_view _ _ _ hnul] at hsame
  rw [hone, Vfs.vfsResolvePath, if_neg hroot] at hsame
  exact MountState.resolveLoop_unterminated (fun j _ => strncpy_long hnul hlen j) hsame

/-- **When the old contents of the buffer do not matter.**  For every path: the results of `vfs_path_dirname`, and
those of `vfs_resolve_path` over all file systems, do not depend on what the buffer held before, with all reads inside
the buffer, if and only if the path has fewer than 4095 characters. -/
theorem path_buffer_iff (hnul : NoNul path) :
    (StaleFree (fun stale => vfsPathDirname stale path) ↔ path.length < VFS_PATH_MAX - 1) ∧
    ((∀ (ν : Type) (ops : ν → Option (Ops ν)) (vfsRoot : Option ν),
      StaleFree (fun stale => vfsResolvePath ops vfsRoot stale (some path))) ↔ path.length < VFS_PATH_MAX - 1) := by
  refine ⟨⟨fun h => ?_, dirname_staleFree hnul⟩, fun h => ?_, fun hlen _ ops vfsRoot => resolve_staleFree ops vfsRoot hnul hlen⟩
  · by_contra hlen
    exact dirname_not_staleFree hnul (not_lt.mp hlen) h
  · by_contra hlen
    exact resolve_not_staleFree hnul (not_lt.mp hlen) (h Unit oneNode (some ()))

/-- The path `/a`. -/
theorem path_buffer_short : StaleFree (fun stale => vfsPathDirname stale [SLASH, 0x61]) := by
  have hnul : NoNul [SLASH, 0x61] := by decide +kernel
  exact (path_buffer_iff hnul).1.mpr (by decide)

/-- A path of 4095 times the letter `a`. -/
theorem path_buffer_long : ¬ ∀ path, NoNul path → StaleFree (fun stale => vfsPathDirname stale path) ∧
    ∀ (ν : Type) (ops : ν → Option (Ops ν)) (vfsRoot : Option ν),
      StaleFree (fun stale => vfsResolvePath ops vfsRoot stale (some path)) := by
  intro hall
  have hnul : NoNul (List.replicate 4095 0x61) := by
    intro x hx
    rw [List.eq_of_mem_replicate hx]
    decide
  have hlen : VFS_PATH_MAX - 1 ≤ (List.replicate 4095 (0x61 : UInt8)).length := by
    rw [List.length_replicate]
    decide
  exact dirname_not_staleFree hnul hlen (hall _ hnul).1

end Vfs.InPlace
end HeroOS
