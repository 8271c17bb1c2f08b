import HeroOS.VfsBuffer

/-! # Directory part and base name

`vfs_mkdir` and `vfs_unlink` split a path with `vfs_path_dirname` and `vfs_path_basename`, resolve the directory part
and act there on the base name.

For a path whose names are not empty this is the node that the whole path leads to: `reference_slash` takes the last
name off the walk of the reference, and `vfs_resolve_path_split` says it of the three functions with their buffers. -/

namespace HeroOS

open CString

namespace Vfs.InPlace

variable {ν : Type}

/-- `vfs_finddir` -/
def vfsFinddir (ops : ν → Option (Ops ν)) (dir : Option ν) (name : List UInt8) : Option ν :=
  match dir with
  | none => none
  | some dir => lookup ops dir (ofList name)

variable {path d b : List UInt8}

/-- The path leads from the node of its directory part by its base name, if neither name is empty. -/
theorem reference_slash (ops : ν → Option (Ops ν)) (vfsRoot : Option ν) (hb : SLASH ∉ b) (hne : b ≠ [])
    (hd : d.getLast? ≠ some SLASH) :
    reference ops vfsRoot (d ++ SLASH :: b) = vfsFinddir ops (reference ops vfsRoot (parentPath d)) b := by
  unfold reference
  cases vfsRoot with
  | none => rfl
  | some root =>
      rw [Option.bind_some, Option.bind_some, tokens_relative_slash d hb, if_neg hd, if_neg hne, List.nil_append, walk_append]
      cases walk (lookup ops) root (tokens (relative (parentPath d))) with
      | none => rfl
      | some dir => exact walk_singleton dir b

theorem noNul_parentPath (hd : NoNul d) : NoNul (parentPath d) := by
  unfold parentPath
  split
  · decide +kernel
  · exact hd

theorem length_parentPath_le (d : List UInt8) : (parentPath d).length ≤ d.length + 1 := by
  unfold parentPath
  split
  · exact Nat.le_add_left 1 d.length
  · exact Nat.le_succ d.length

/-- The directory part, unless it stands for the root, is in front of the last slash. -/
theorem parentPath_append (d : List UInt8) (hb : SLASH ∉ b) :
    d ++ SLASH :: b = (if SLASH ∈ (d ++ SLASH :: b).tail then parentPath d else []) ++ SLASH :: b := by
  cases d with
  | nil =>
      have htail : SLASH ∉ (([] : List UInt8) ++ SLASH :: b).tail := hb
      rw [if_neg htail]
  | cons x d =>
      have htail : SLASH ∈ (x :: d ++ SLASH :: b).tail := List.mem_append_right d List.mem_cons_self
      rw [if_pos htail]
      rfl

/-- **Splitting a path.**  A path of fewer than 4095 characters with a slash, a last name and no two slashes in a row
leads to what `vfs_finddir` finds under its base name in the node of its directory part, in every file system and
whatever the buffers held before.  The base name has no slash; it stands behind the directory part and a slash, or
behind the slash alone if no other one follows. -/
theorem vfs_resolve_path_split (ops : ν → Option (Ops ν)) (vfsRoot : Option ν) (stale staleDir staleParent : Buf)
    (hnul : NoNul path) (hlen : path.length < VFS_PATH_MAX - 1) (hslash : SLASH ∈ path)
    (hlast : path.getLast? ≠ some SLASH) (hdouble : ¬ [SLASH, SLASH] <:+: path) :
    ∃ dir parent, vfsPathDirname staleDir path = .ok dir ∧
      vfsResolvePath ops vfsRoot staleParent (some dir) = .ok parent ∧
      vfsResolvePath ops vfsRoot stale (some path) = .ok (vfsFinddir ops parent (vfsPathBasename path)) ∧
      SLASH ∉ vfsPathBasename path ∧
      path = (if SLASH ∈ path.tail then dir else []) ++ SLASH :: vfsPathBasename path := by
  obtain ⟨d, b, rfl, hb⟩ := exists_last_slash hslash
  have hne : b ≠ [] := by
    rintro rfl
    exact hlast List.getLast?_concat
  have hd : d.getLast? ≠ some SLASH := by
    intro h
    obtain ⟨d', rfl⟩ := List.getLast?_eq_some_iff.mp h
    exact hdouble ⟨d', b, by simp⟩
  have hdnul : NoNul (parentPath d) := noNul_parentPath fun x hx => hnul x (List.mem_append_left _ hx)
  have hdlen : (parentPath d).length < VFS_PATH_MAX - 1 := by
    have hle := length_parentPath_le d
    rw [List.length_append, List.length_cons] at hlen
    omega
  rw [vfsPathBasename_slash hlen hb, vfs_resolve_path_eq ops vfsRoot stale hnul hlen, reference_slash ops vfsRoot hb hne hd]
  exact ⟨parentPath d, _, vfsPathDirname_slash staleDir hnul hlen hb, vfs_resolve_path_eq ops vfsRoot staleParent hdnul hdlen,
    rfl, hb, parentPath_append d hb⟩

/-- A file system in which a node is the list of the first bytes of the names that lead to it. -/
def firstBytes (_ : List UInt8) : Option (Ops (List UInt8)) := some ⟨some fun node name => some (node ++ [name 0])⟩

/-- The path `/a/b`. -/
theorem vfs_resolve_path_split_ab : ∃ dir parent, vfsPathDirname (fun _ => 1) [SLASH, 0x61, SLASH, 0x62] = .ok dir ∧
    vfsResolvePath firstBytes (some []) (fun _ => 2) (some dir) = .ok parent ∧
    vfsResolvePath firstBytes (some []) (fun _ => 3) (some [SLASH, 0x61, SLASH, 0x62]) = .ok (vfsFinddir firstBytes parent [0x62]) ∧
    [SLASH, 0x61, SLASH, 0x62] = dir ++ [SLASH, 0x62] := by
  have hnul : NoNul [SLASH, 0x61, SLASH, 0x62] := by decide +kernel
  have hbase : vfsPathBasename [SLASH, 0x61, SLASH, 0x62] = [0x62] := by decide +kernel
  obtain ⟨dir, parent, hdir, hparent, hpath, _, happend⟩ := vfs_resolve_path_split firstBytes (some []) (fun _ => 3)
    (fun _ => 1) (fun _ => 2) hnul (by decide) (by decide) (by decide) (by decide)
  rw [hbase] at hpath happend
  rw [if_pos (by decide)] at happend
  exact ⟨dir, parent, hdir, hparent, hpath, happend⟩

end Vfs.InPlace
end HeroOS
