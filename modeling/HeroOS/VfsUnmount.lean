import HeroOS.ArrayList
import HeroOS.VfsMount

/-! # Undoing a mount

`vfs_mount` writes its entry behind the last one; `vfs_unmount` takes out the first entry with the path and moves
the later ones down, and leaves `vfs_root` alone.

`mount_unmount_iff`: a mount followed by an unmount of the path restores the table and `vfs_root` exactly when the
path was not mounted yet, or by entries like the new one only, and a mount on `/` has not changed `vfs_root`. -/

namespace HeroOS

open CString

namespace Mounts

variable {ν : Type} {s s₁ s' : Mounts ν} {path : List UInt8} {root : ν} {i j k n : ℕ} {table : ℕ → MountEntry ν}

/-- All slots of the table, used or not, are zero behind the bytes that `vfs_mount` copies. -/
def SlotsTerminated (s : Mounts ν) : Prop := ∀ i k, VFS_PATH_MAX - 1 ≤ k → (s.mountTable i).path k = 0

/-- Entries, their number and the root are as before. -/
structure Restored (s s' : Mounts ν) : Prop where
  vfsRoot : s'.vfsRoot = s.vfsRoot
  mountCount : s'.mountCount = s.mountCount
  entries : ∀ j < s.mountCount, s'.mountTable j = s.mountTable j

/-- The entry of a mount. -/
def entry (path : List UInt8) (root : ν) : MountEntry ν := ⟨ofList path, some root⟩

/-- The entry at `i` is for `path`, as `strcmp` sees it. -/
def Matches (table : ℕ → MountEntry ν) (path : List UInt8) (i : ℕ) : Prop := strcmpEq path (table i).path = true

instance (table : ℕ → MountEntry ν) (path : List UInt8) : DecidablePred (Matches table path) :=
  fun i => inferInstanceAs (Decidable (strcmpEq path (table i).path = true))

/-! ### The table -/

/-- The inner loop of `vfs_unmount` closes the gap at `j`. -/
theorem shiftLoop_eq (n j : ℕ) (table : ℕ → MountEntry ν) : shiftLoop n j table = ArrayList.closeGap n j table := by
  induction n generalizing j table with
  | zero => rfl
  | succ n ih => exact ih _ _

theorem SlotsTerminated.copy (h : SlotsTerminated s) (hlen : path.length < VFS_PATH_MAX) (i : ℕ) :
    strncpy (s.mountTable i).path path (VFS_PATH_MAX - 1) = ofList path := by
  funext k
  unfold strncpy ofList
  split_ifs with hk
  · rfl
  · rw [h i k (by omega), List.getD_eq_default]
    omega

/-- A mount that succeeds. -/
theorem vfsMount_ok (h : s.vfsMount (some path) (some root) = (s₁, 0)) : s.mountCount < 32 ∧
    s₁.vfsRoot = (if strcmpEq path (ofList [SLASH]) then some root else s.vfsRoot) ∧
    s₁.mountCount = s.mountCount + 1 ∧ s₁.mountTable = Function.update s.mountTable s.mountCount
      ⟨strncpy (s.mountTable s.mountCount).path path (VFS_PATH_MAX - 1), some root⟩ := by
  unfold vfsMount at h
  dsimp only at h
  by_cases hfull : s.mountCount ≥ 32
  · rw [if_pos hfull] at h
    cases (Prod.mk.inj h).2
  · rw [if_neg hfull] at h
    obtain ⟨rfl, _⟩ := Prod.mk.inj h
    exact ⟨not_le.mp hfull, rfl, rfl, rfl⟩

/-- An unmount takes out the first entry for the path. -/
theorem vfsUnmount_first (hi : i < s.mountCount) (hm : Matches s.mountTable path i)
    (hfirst : ∀ j < i, ¬ Matches s.mountTable path j) :
    s.vfsUnmount path = ({ s with
      mountTable := shiftLoop (s.mountCount - 1 - i) i s.mountTable, mountCount := s.mountCount - 1 }, 0) := by
  have hfind : (List.range s.mountCount).find? (fun i => strcmpEq path (s.mountTable i).path) = some i := by
    refine List.find?_range_eq_some.mpr ⟨hm, List.mem_range.mpr hi, fun j hj => ?_⟩
    simpa [Matches] using hfirst j hj
  unfold vfsUnmount
  rw [hfind]

theorem SlotsTerminated.mount (h : SlotsTerminated s) (path : Option (List UInt8)) (root : Option ν) :
    SlotsTerminated (s.vfsMount path root).1 := by
  unfold vfsMount
  split
  · split
    · exact h
    · intro i k hk
      dsimp only
      rw [Function.update_apply]
      split_ifs
      · exact (if_neg (not_lt.mpr hk)).trans (h _ k hk)
      · exact h i k hk
  · exact h

theorem SlotsTerminated.unmount (h : SlotsTerminated s) (path : List UInt8) : SlotsTerminated (s.vfsUnmount path).1 := by
  unfold vfsUnmount
  split
  · exact h
  · intro i k hk
    dsimp only
    rw [shiftLoop_eq, ArrayList.closeGap_apply]
    split_ifs
    · exact h _ k hk
    · exact h i k hk

theorem slotsTerminated_of_run {ops : List (MountOp ν)} {st : MountState ν} (hrun : Run MountStep MountState.init ops st) :
    SlotsTerminated st.mounts := by
  refine hrun.invariant (I := fun st => SlotsTerminated st.mounts) (fun st op st' h hs => ?_) (fun _ _ _ => rfl)
  obtain ⟨_, rfl⟩ := hs
  cases op with
  | mount path root => exact h.mount path root
  | unmount path => exact h.unmount path

/-! ### Mount and unmount -/

/-- **When an unmount undoes a mount.**  In every state that calls of `vfs_mount` and `vfs_unmount` lead to, for every
path of fewer than 4096 characters: after a mount that succeeds, an unmount of the path returns 0 and restores the
table and `vfs_root` if and only if a mount on `/` was one of the root that `vfs_root` already was, and all entries from
the first one for the path on are entries of the same path and root. -/
theorem mount_unmount_iff {ops : List (MountOp ν)} {st : MountState ν} (hrun : Run MountStep MountState.init ops st)
    (hnul : NoNul path) (hlen : path.length < VFS_PATH_MAX) (h : st.mounts.vfsMount (some path) (some root) = (s₁, 0)) :
    ((s₁.vfsUnmount path).2 = 0 ∧ Restored st.mounts (s₁.vfsUnmount path).1) ↔
      (path = [SLASH] → st.mounts.vfsRoot = some root) ∧
        ∀ j < st.mounts.mountCount, (∃ i ≤ j, Matches st.mounts.mountTable path i) →
          st.mounts.mountTable j = entry path root := by
  have hslots := slotsTerminated_of_run hrun
  obtain ⟨s, hs⟩ : ∃ s, s = st.mounts := ⟨_, rfl⟩
  rw [← hs] at h hslots ⊢
  obtain ⟨_, hroot, hcount, htable⟩ := vfsMount_ok h
  rw [hslots.copy hlen] at htable
  simp only [strcmpEq_iff hnul MountState.noNul_slash] at hroot
  have hnew : Matches s₁.mountTable path s.mountCount := by
    unfold Matches
    rw [htable, Function.update_self]
    exact (strcmpEq_iff hnul hnul).mpr rfl
  have hold : ∀ i < s.mountCount, Matches s₁.mountTable path i ↔ Matches s.mountTable path i := by
    intro i hi
    unfold Matches
    rw [htable, Function.update_of_ne hi.ne]
  -- the entry that the unmount takes out
  obtain ⟨i, hi, hle, hfirst⟩ : ∃ i, Matches s₁.mountTable path i ∧ i ≤ s.mountCount ∧ ∀ j < i, ¬ Matches s₁.mountTable path j :=
    ⟨Nat.find ⟨_, hnew⟩, Nat.find_spec ⟨_, hnew⟩, Nat.find_min' ⟨_, hnew⟩ hnew, fun j hj => Nat.find_min ⟨_, hnew⟩ hj⟩
  have hunmount := vfsUnmount_first (by omega) hi hfirst
  rw [hcount, Nat.add_sub_cancel, shiftLoop_eq] at hunmount
  have hentries := @ArrayList.closeGap_push_iff (MountEntry ν) s.mountCount i s.mountTable (entry path root) hle
  have hfrom : (∀ j < s.mountCount, (∃ i ≤ j, Matches s.mountTable path i) → s.mountTable j = entry path root) ↔
      ∀ j, i ≤ j → j < s.mountCount → s.mountTable j = entry path root := by
    constructor
    · intro hall j hij hj
      exact hall j hj ⟨i, hij, (hold i (by omega)).mp hi⟩
    · rintro hall j hj ⟨i', hi'j, hi'⟩
      refine hall j ?_ hj
      by_contra hlt
      exact hfirst i' (by omega) ((hold i' (by omega)).mpr hi')
  have hrootiff : s₁.vfsRoot = s.vfsRoot ↔ (path = [SLASH] → s.vfsRoot = some root) := by
    rw [hroot]
    by_cases hp : path = [SLASH]
    · simp [hp, eq_comm]
    · simp [hp]
  rw [hunmount, hfrom, ← hentries, ← hrootiff, show Function.update s.mountTable s.mountCount (entry path root) =
    s₁.mountTable from htable.symm]
  constructor
  · rintro ⟨_, hr⟩
    exact ⟨hr.vfsRoot, hr.entries⟩
  · rintro ⟨h1, h2⟩
    exact ⟨rfl, h1, rfl, h2⟩

/-- Another mount point next to `/`. -/
theorem mount_unmount_fresh : ∃ (st : MountState ℕ) (s₁ : Mounts ℕ), Run MountStep MountState.init [.mount (some [SLASH]) (some 7)] st ∧
    st.mounts.vfsMount (some [SLASH, 0x61]) (some 8) = (s₁, 0) ∧ (s₁.vfsUnmount [SLASH, 0x61]).2 = 0 ∧
      Restored st.mounts (s₁.vfsUnmount [SLASH, 0x61]).1 := by
  have hnul : NoNul [SLASH, 0x61] := by decide +kernel
  have hrun : Run MountStep MountState.init [.mount (some [SLASH]) (some 7)] _ :=
    .single ⟨fun p hp => Option.some.inj hp ▸ MountState.noNul_slash, rfl⟩
  obtain ⟨hreturns, hrestored⟩ :=
    (@mount_unmount_iff ℕ _ [SLASH, 0x61] 8 _ _ hrun hnul (by decide) rfl).mpr ⟨fun h => by simp at h, fun j hj ⟨i, hij, hi⟩ => by
      have hj1 : j < 1 := hj
      obtain rfl : i = 0 := by omega
      exact absurd hi (by decide +kernel)⟩
  exact ⟨_, _, hrun, rfl, hreturns, hrestored⟩

/-- A mount on `/` that is undone leaves `vfs_root`; a second mount on `/a` that is undone takes out the first. -/
theorem mount_unmount_differs :
    (∃ s₁, (init : Mounts ℕ).vfsMount (some [SLASH]) (some 7) = (s₁, 0) ∧ (s₁.vfsUnmount [SLASH]).2 = 0 ∧
      (s₁.vfsUnmount [SLASH]).1.vfsRoot = some 7 ∧ ¬ Restored init (s₁.vfsUnmount [SLASH]).1) ∧
    ∃ (st : MountState ℕ) (s₁ : Mounts ℕ), Run MountStep MountState.init [.mount (some [SLASH, 0x61]) (some 7)] st ∧
      st.mounts.vfsMount (some [SLASH, 0x61]) (some 8) = (s₁, 0) ∧ (s₁.vfsUnmount [SLASH, 0x61]).2 = 0 ∧
        ((s₁.vfsUnmount [SLASH, 0x61]).1.mountTable 0).root = some 8 ∧ ¬ Restored st.mounts (s₁.vfsUnmount [SLASH, 0x61]).1 := by
  have hnul : NoNul [SLASH, 0x61] := by decide +kernel
  have hrun : Run MountStep MountState.init [.mount (some [SLASH, 0x61]) (some 7)] _ :=
    .single ⟨fun p hp => Option.some.inj hp ▸ hnul, rfl⟩
  refine ⟨⟨_, rfl, by decide +kernel, by decide +kernel, fun h => ?_⟩, _, _, hrun, rfl, by decide +kernel, by decide +kernel, fun h => ?_⟩
  · exact absurd h.vfsRoot (by decide +kernel)
  · have hroot := congrArg MountEntry.root (h.entries 0 (by decide +kernel))
    exact absurd hroot (by decide +kernel)

end Mounts
end HeroOS
