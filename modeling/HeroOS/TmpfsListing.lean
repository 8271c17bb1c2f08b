import HeroOS.Tmpfs

/-! # Listing a directory

`builtin_ls` calls `vfs_readdir` with growing indices and one `dirent` until it returns `NULL`.
But `vfs_readdir` ignores the result of the file system's `readdir` and looks up whatever name is
in `dirent`: one past the last entry that is the name of the last entry, which is found again.

* `lsLoop_never_ends`: a directory with entries is listed forever, as long as names leave room for
  their terminator;
* `ls_lists_iff`: the listing is right exactly for empty directories. -/

namespace HeroOS.Tmpfs

open CString

variable {fs : Tmpfs} {dir idx fuel : ℕ} {d : Dirent} {out : List (Buf × ℕ)}

/-- The listing ends after one successful call for each child, and the `i`-th call reports the
`i`-th child. -/
def ListsChildren (fs : Tmpfs) (dir : ℕ) (d : Dirent) : Prop :=
  ∃ fuel out, fs.lsLoop dir fuel 0 d = .ok out ∧ out.length = (fs.inodes dir).childCount ∧
    ∀ i < (fs.inodes dir).childCount, ∃ e, out[i]? = some e ∧ e.2 = (fs.inodes dir).children i ∧
      strcmpEq (fs.inodes ((fs.inodes dir).children i)).name e.1 = true

/-- Past the last entry `dirent` is left alone. -/
theorem vfsReaddir_past (h : (fs.inodes dir).childCount ≤ idx) :
    fs.vfsReaddir dir idx d = (fs.tmpfsFinddir dir d.name, d) := by
  unfold vfsReaddir tmpfsReaddir
  rw [if_pos h]

/-- The node that `vfs_readdir` returns is the one with the name in `dirent`. -/
theorem vfsReaddir_fst (fs : Tmpfs) (dir idx : ℕ) (d : Dirent) :
    (fs.vfsReaddir dir idx d).1 = fs.tmpfsFinddir dir (fs.vfsReaddir dir idx d).2.name := rfl

/-- A listing that reaches the last entry goes on behind it. -/
theorem lsLoop_length_ne (h : fs.lsLoop dir fuel idx d = .ok out) (hidx : idx < (fs.inodes dir).childCount)
    (hcount : (fs.inodes dir).childCount < 2 ^ 32) : idx + out.length ≠ (fs.inodes dir).childCount := by
  induction fuel generalizing idx d out with
  | zero => cases h
  | succ fuel ih =>
      rw [lsLoop] at h
      split at h
      · cases h
        rw [List.length_nil]
        omega
      · rename_i node d' hcall
        obtain ⟨rest, hrest, h⟩ := bind_eq_ok.mp h
        cases h
        rw [Nat.mod_eq_of_lt (by omega)] at hrest
        rw [List.length_cons]
        by_cases hlast : idx + 1 < (fs.inodes dir).childCount
        · have := ih hrest hlast
          omega
        · -- `dirent` still holds the name of the last entry
          have hfound : fs.tmpfsFinddir dir d'.name = some node := by
            have hfst := vfsReaddir_fst fs dir idx d
            rw [hcall] at hfst
            exact hfst.symm
          have hpos : 0 < rest.length := by
            cases fuel with
            | zero => cases hrest
            | succ fuel =>
                rw [lsLoop, vfsReaddir_past (not_lt.mp hlast), hfound] at hrest
                obtain ⟨_, _, hrest⟩ := bind_eq_ok.mp hrest
                cases hrest
                exact Nat.succ_pos _
          omega

/-- **When `ls` is right.**  With any initial contents of `dirent`, the listing of a directory ends
after one successful call for each child and reports each of them once, in order, exactly when the
directory has no children. -/
theorem ls_lists_iff (hcount : (fs.inodes dir).childCount < 2 ^ 32) :
    ListsChildren fs dir d ↔ (fs.inodes dir).childCount = 0 := by
  constructor
  · rintro ⟨fuel, out, h, hlen, _⟩
    by_contra hne
    exact lsLoop_length_ne h (Nat.pos_of_ne_zero hne) hcount (by rw [Nat.zero_add]; exact hlen)
  · intro h0
    have hfind : fs.tmpfsFinddir dir d.name = none := by
      unfold tmpfsFinddir findSlot
      rw [h0]
      rfl
    refine ⟨1, [], ?_, by rw [h0]; rfl, fun i hi => by omega⟩
    rw [lsLoop, vfsReaddir_past (by omega), hfind]

/-! ### Listings that never end -/

theorem tmpfsFinddir_isSome {name : Buf} {i : ℕ} (hi : i < (fs.inodes dir).childCount)
    (hname : strcmpEq (fs.inodes ((fs.inodes dir).children i)).name name = true) :
    ∃ node, fs.tmpfsFinddir dir name = some node := by
  unfold tmpfsFinddir findSlot
  have hsome : ((List.range (fs.inodes dir).childCount).find? (fun i =>
      strcmpEq (fs.inodes ((fs.inodes dir).children i)).name name)).isSome = true := by
    rw [List.find?_isSome]
    exact ⟨i, List.mem_range.mpr hi, hname⟩
  obtain ⟨k, hk⟩ := Option.isSome_iff_exists.mp hsome
  exact ⟨_, by rw [hk]; rfl⟩

/-- A directory with entries is listed forever. -/
theorem lsLoop_never_ends (hnames : ∀ i < (fs.inodes dir).childCount,
      (fs.inodes ((fs.inodes dir).children i)).name.length < VFS_NAME_MAX)
    (h : idx < (fs.inodes dir).childCount ∨ ∃ i < (fs.inodes dir).childCount,
      strcmpEq (fs.inodes ((fs.inodes dir).children i)).name d.name = true) :
    fs.lsLoop dir fuel idx d = .error .outOfFuel := by
  induction fuel generalizing idx d with
  | zero => rfl
  | succ fuel ih =>
      -- after the call `dirent` holds the name of some entry
      have hcall : ∃ i < (fs.inodes dir).childCount,
          strcmpEq (fs.inodes ((fs.inodes dir).children i)).name (fs.vfsReaddir dir idx d).2.name = true := by
        by_cases hidx : idx < (fs.inodes dir).childCount
        · refine ⟨idx, hidx, ?_⟩
          unfold vfsReaddir tmpfsReaddir
          rw [if_neg (not_le.mpr hidx)]
          exact strcmpEq_strncpy _ (hnames idx hidx)
        · rw [vfsReaddir_past (not_lt.mp hidx)]
          exact h.resolve_left hidx
      obtain ⟨i, hi, hname⟩ := hcall
      obtain ⟨node, hnode⟩ := tmpfsFinddir_isSome hi hname
      rw [← vfsReaddir_fst] at hnode
      have hrest : fs.lsLoop dir fuel ((idx + 1) % 2 ^ 32) (fs.vfsReaddir dir idx d).2 = .error .outOfFuel :=
        ih (.inr ⟨i, hi, hname⟩)
      rw [lsLoop, show fs.vfsReaddir dir idx d = (some node, (fs.vfsReaddir dir idx d).2) from
        Prod.ext hnode rfl]
      dsimp only
      rw [hrest]
      rfl

/-- The root after `mkdir /a`. -/
def oneChild : Tmpfs := ((tmpfsMount 1 100).tmpfsMkdir 100 [0x61] 0o755 (some 200)).1

/-- A zeroed `dirent`. -/
def zeroDirent : Dirent := ⟨0, 0, 0, 0, fun _ => 0⟩

/-- An empty root is listed correctly. -/
theorem ls_lists_empty_root : ListsChildren (tmpfsMount 1 100) 100 zeroDirent :=
  (ls_lists_iff (by decide)).mpr (by decide)

/-- `ls /` after `mkdir /a` never ends. -/
theorem ls_one_child_never_ends :
    (∀ fuel, oneChild.lsLoop 100 fuel 0 zeroDirent = .error .outOfFuel) ∧
      ¬ ListsChildren oneChild 100 zeroDirent := by
  have hnever : ∀ fuel, oneChild.lsLoop 100 fuel 0 zeroDirent = .error .outOfFuel := by
    intro fuel
    exact lsLoop_never_ends (by decide) (.inl (by decide))
  refine ⟨hnever, ?_⟩
  rintro ⟨fuel, out, h, _⟩
  rw [hnever] at h
  cases h

end HeroOS.Tmpfs
