import HeroOS.Run
import HeroOS.VfsPaths

/-! # Mount points

`vfs_mount` and `vfs_unmount` of `kernel/fs/vfs.c`, over any type of nodes.  The mount table is
written and never read by path lookup: a lookup starts at `vfs_root`, the root that was last mounted
on `/`, and walks on with `finddir` alone.

`mount_respected_iff`: whatever the file systems are, a mount at `p` is what `vfs_open` sees at `p`
and below exactly when `p` is `/`. -/

namespace HeroOS

open CString

/-- `mount_entry_t` -/
structure MountEntry (ν : Type) where
  path : Buf
  root : Option ν

/-- The globals of `vfs.c`. -/
structure Mounts (ν : Type) where
  vfsRoot : Option ν
  mountTable : ℕ → MountEntry ν
  mountCount : ℕ

namespace Mounts

variable {ν : Type}

/-- The zeroed table that `vfs_init` leaves. -/
def init : Mounts ν := ⟨none, fun _ => ⟨fun _ => 0, none⟩, 0⟩

/-- `vfs_mount` -/
def vfsMount (s : Mounts ν) (path : Option (List UInt8)) (root : Option ν) : Mounts ν × ℤ :=
  match path, root with
  | some path, some root =>
      if s.mountCount ≥ 32 then (s, -28)
      else
        ({ vfsRoot := if strcmpEq path (ofList [SLASH]) then some root else s.vfsRoot
           mountTable := Function.update s.mountTable s.mountCount
             ⟨strncpy (s.mountTable s.mountCount).path path (VFS_PATH_MAX - 1), some root⟩
           mountCount := s.mountCount + 1 }, 0)
  | _, _ => (s, -22)

/-- The inner loop of `vfs_unmount` at `j`, with `n` entries to move. -/
def shiftLoop : ℕ → ℕ → (ℕ → MountEntry ν) → (ℕ → MountEntry ν)
  | 0, _, table => table
  | n + 1, j, table => shiftLoop n (j + 1) (Function.update table j (table (j + 1)))

/-- `vfs_unmount` -/
def vfsUnmount (s : Mounts ν) (path : List UInt8) : Mounts ν × ℤ :=
  match (List.range s.mountCount).find? (fun i => strcmpEq path (s.mountTable i).path) with
  | none => (s, -2)
  | some i =>
      ({ s with
        mountTable := shiftLoop (s.mountCount - 1 - i) i s.mountTable
        mountCount := s.mountCount - 1 }, 0)

/-- The node that `vfs_open` returns. -/
def vfsOpen (s : Mounts ν) (finddir : ν → Buf → Option ν) (stale : Buf) (path : List UInt8) :
    Except Halt (Option ν) :=
  Vfs.vfsResolvePath finddir s.vfsRoot stale path

end Mounts

/-- The calls on the mount table. -/
inductive MountOp (ν : Type) where
  | mount (path : Option (List UInt8)) (root : Option ν)
  | unmount (path : List UInt8)

/-- The mount table, and the root that each path has been mounted with and not been mounted with
again, or unmounted from, since. -/
structure MountState (ν : Type) where
  mounts : Mounts ν
  latest : List UInt8 → Option ν

namespace MountState

variable {ν : Type}

/-- Nothing is mounted. -/
def init : MountState ν := ⟨.init, fun _ => none⟩

/-- One call; a call that succeeds is recorded. -/
def exec (s : MountState ν) : MountOp ν → MountState ν
  | .mount path root =>
      let r := s.mounts.vfsMount path root
      { mounts := r.1
        latest := match path with
          | some path => if r.2 = 0 then Function.update s.latest path root else s.latest
          | none => s.latest }
  | .unmount path =>
      let r := s.mounts.vfsUnmount path
      { mounts := r.1, latest := if r.2 = 0 then Function.update s.latest path none else s.latest }

/-- Paths are strings. -/
def Admissible : MountOp ν → Prop
  | .mount path _ => ∀ p, path = some p → NoNul p
  | .unmount path => NoNul path

end MountState

/-- One call with strings for its arguments. -/
def MountStep {ν : Type} (s : MountState ν) (op : MountOp ν) (s' : MountState ν) : Prop :=
  MountState.Admissible op ∧ s' = s.exec op

namespace MountState

variable {ν : Type} {s s' : MountState ν} {op : MountOp ν} {p q path : List UInt8} {r root : ν} {i n tok fuel : ℕ}
  {buf stale : Buf}

/-- What is mounted on `/` is the root of all lookups. -/
def RootMounted (s : MountState ν) : Prop := ∀ r, s.latest [SLASH] = some r → s.mounts.vfsRoot = some r

theorem noNul_slash : NoNul [SLASH] := by decide +kernel

theorem noNul_slash_cons (hq : NoNul q) : NoNul (SLASH :: q) := by
  intro x hx
  obtain rfl | hx := List.mem_cons.mp hx
  · decide
  · exact hq x hx

theorem RootMounted.step (h : RootMounted s) (hs : MountStep s op s') : RootMounted s' := by
  obtain ⟨hadm, rfl⟩ := hs
  intro r hr
  cases op with
  | mount path root =>
      cases path with
      | none => exact h r hr
      | some path =>
          cases root with
          | none => exact h r hr
          | some root =>
              have hslash := strcmpEq_iff (hadm path rfl) noNul_slash
              unfold exec Mounts.vfsMount at hr ⊢
              dsimp only at hr ⊢
              split at hr
              · rename_i hfull
                rw [if_pos hfull]
                exact h r (by simpa using hr)
              · rename_i hroom
                rw [if_neg hroom]
                dsimp only at hr ⊢
                rw [if_pos rfl] at hr
                by_cases hp : path = [SLASH]
                · rw [hp, Function.update_self] at hr
                  rw [if_pos (hslash.mpr hp), ← hr]
                · rw [Function.update_of_ne (Ne.symm hp)] at hr
                  rw [if_neg (fun hc => hp (hslash.mp hc))]
                  exact h r hr
  | unmount path =>
      unfold exec Mounts.vfsUnmount at hr ⊢
      dsimp only at hr ⊢
      split at hr
      · exact h r (by simpa using hr)
      · dsimp only at hr ⊢
        rw [if_pos rfl] at hr
        by_cases hp : path = [SLASH]
        · rw [hp, Function.update_self] at hr
          cases hr
        · rw [Function.update_of_ne (Ne.symm hp)] at hr
          exact h r hr

theorem rootMounted_of_run {ops : List (MountOp ν)} (hrun : Run MountStep init ops s) : RootMounted s :=
  hrun.invariant (fun _ _ _ h hs => h.step hs) (fun _ h => nomatch h)

/-! ### Long paths -/

/-- A component ends the lookup only at a terminator. -/
theorem component_none {r : List UInt8 × Option ℕ} (h : Vfs.component buf n i = .ok r) (hr : r.2 = none) :
    ∃ j, i ≤ j ∧ j < i + n ∧ buf j = 0 := by
  induction n generalizing i r with
  | zero => cases h
  | succ n ih =>
      rw [Vfs.component] at h
      split at h
      · rename_i h0
        exact ⟨i, le_rfl, by omega, h0⟩
      · split at h
        · cases h
          cases hr
        · obtain ⟨r', hr', h⟩ := bind_eq_ok.mp h
          cases h
          obtain ⟨j, hij, hj, h0⟩ := ih hr' hr
          exact ⟨j, by omega, by omega, h0⟩

/-- Without a terminator in the buffer, a lookup in which every name exists does not end well. -/
theorem resolveLoop_unterminated {node : ν} {res : Option ν} (h0 : ∀ j < VFS_PATH_MAX, buf j ≠ 0) :
    Vfs.resolveLoop (fun _ _ => some r) buf fuel node tok ≠ .ok res := by
  induction fuel generalizing node tok with
  | zero =>
      intro h
      cases h
  | succ fuel ih =>
      rw [Vfs.resolveLoop]
      split
      · intro h
        cases h
      · rename_i htok
        rw [if_neg (h0 tok (by omega))]
        intro h
        obtain ⟨⟨c, rest⟩, hc, h⟩ := bind_eq_ok.mp h
        cases rest with
        | none =>
            obtain ⟨j, _, hj, hz⟩ := component_none hc rfl
            exact h0 j (by omega) hz
        | some tok' => exact ih h

/-! ### What a mount means -/

/-- The path `p/q`. -/
def below (p q : List UInt8) : List UInt8 := if p = [SLASH] then SLASH :: q else p ++ SLASH :: q

/-- Opening `p` gives `r`, and opening `p/q` looks up `q` from `r` on. -/
def Respected (s : MountState ν) (finddir : ν → Buf → Option ν) (p q : List UInt8) (r : ν) : Prop :=
  (∀ stale, s.mounts.vfsOpen finddir stale p = .ok (some r)) ∧
    ∀ stale, s.mounts.vfsOpen finddir stale (below p q) = .ok (Vfs.walk finddir r (Vfs.tokens q))

/-- Where nothing is found, the only absolute path that leads anywhere is `/`. -/
theorem open_of_not_found (hslash : p.head? = some SLASH) (hnul : NoNul p) (hp : p ≠ [SLASH]) (stale : Buf)
    (s : Mounts ν) : s.vfsOpen (fun _ _ => none) stale p ≠ .ok (some r) := by
  obtain ⟨rest, rfl⟩ : ∃ rest, p = SLASH :: rest := by
    cases p with
    | nil => cases hslash
    | cons x rest => exact ⟨rest, by rw [Option.some.inj hslash]⟩
  obtain ⟨y, rest, rfl⟩ := List.exists_cons_of_ne_nil (fun h0 => hp (by rw [h0]) : rest ≠ [])
  unfold Mounts.vfsOpen Vfs.vfsResolvePath
  cases s.vfsRoot with
  | none =>
      intro h
      cases h
  | some root =>
      dsimp only
      have h1 : strncpy stale (SLASH :: y :: rest) (VFS_PATH_MAX - 1) 1 = y := if_pos (by decide)
      have h2 : strncpy stale (SLASH :: y :: rest) (VFS_PATH_MAX - 1) 0 = SLASH := if_pos (by decide)
      have hy : y ≠ 0 := hnul y (by simp)
      rw [if_neg hp, h2, if_pos rfl, Vfs.resolveLoop, if_neg (by decide), h1, if_neg hy]
      intro h
      obtain ⟨r, _, h⟩ := bind_eq_ok.mp h
      cases h

/-- **When a mount is respected.**  After any calls of `vfs_mount` and `vfs_unmount` with the root `r`
mounted at the absolute path `p`, and not mounted again or unmounted since: in every file system
`vfs_open` of `p` returns `r` and of `p/q` looks up `q` from `r` on, exactly when `p` is `/` and the
path `p/q` has fewer than 4095 characters. -/
theorem mount_respected_iff {ops : List (MountOp ν)} (hrun : Run MountStep init ops s) (hslash : p.head? = some SLASH)
    (hp : NoNul p) (hmounted : s.latest p = some r) (hq : NoNul q) :
    (∀ finddir, s.Respected finddir p q r) ↔ p = [SLASH] ∧ (below p q).length < VFS_PATH_MAX - 1 := by
  constructor
  · intro h
    have hroot : p = [SLASH] := by
      by_contra hne
      exact open_of_not_found hslash hp hne (fun _ => 0) s.mounts ((h fun _ _ => none).1 _)
    refine ⟨hroot, ?_⟩
    subst hroot
    by_contra hlong
    have hvfs := rootMounted_of_run hrun r hmounted
    have hbelow : below [SLASH] q = SLASH :: q := if_pos rfl
    rw [hbelow] at hlong
    -- every name exists, and the buffer holds no terminator
    have hopen := (h fun _ _ => some r).2 (fun _ => 1)
    have hne : SLASH :: q ≠ [SLASH] := fun heq => hlong (by rw [heq]; decide)
    unfold Mounts.vfsOpen Vfs.vfsResolvePath at hopen
    rw [hvfs, hbelow] at hopen
    dsimp only at hopen
    rw [if_neg hne] at hopen
    refine resolveLoop_unterminated ?_ hopen
    intro j hj
    unfold strncpy
    split
    · rename_i hlt
      have hlen : j < (SLASH :: q).length := by omega
      rw [List.getD_eq_getElem _ _ hlen]
      exact noNul_slash_cons hq _ (List.getElem_mem hlen)
    · exact (by decide : (1 : UInt8) ≠ 0)
  · rintro ⟨rfl, hlen⟩ finddir
    have hvfs := rootMounted_of_run hrun r hmounted
    have hbelow : below [SLASH] q = SLASH :: q := if_pos rfl
    unfold Respected Mounts.vfsOpen
    rw [hvfs, hbelow]
    rw [hbelow] at hlen
    exact ⟨fun _ => rfl, fun stale => Vfs.vfsResolvePath_eq (noNul_slash_cons hq) hlen⟩

/-- A root that is mounted on `/` is what the path `/a` is looked up in. -/
theorem mount_respected_slash : ∃ s : MountState ℕ, Run MountStep init [.mount (some [SLASH]) (some 7)] s ∧
    ∀ finddir, s.Respected finddir [SLASH] [0x61] 7 := by
  have hadm : MountState.Admissible (.mount (some [SLASH]) (some 7)) :=
    fun p hp => Option.some.inj hp ▸ noNul_slash
  have hrun : Run MountStep init [.mount (some [SLASH]) (some 7)] _ := .single ⟨hadm, rfl⟩
  have hnul : NoNul [0x61] := by decide +kernel
  exact ⟨_, hrun, (mount_respected_iff hrun rfl noNul_slash (by decide +kernel) hnul).mpr ⟨rfl, by decide⟩⟩

/-- A root that is mounted on `/m` is not found there. -/
theorem mount_point_ignored : ¬ ∀ (ops : List (MountOp ℕ)) (s : MountState ℕ) (p : List UInt8) (r : ℕ)
    (finddir : ℕ → Buf → Option ℕ) (stale : Buf), Run MountStep init ops s → p.head? = some SLASH → NoNul p →
      s.latest p = some r → s.mounts.vfsOpen finddir stale p = .ok (some r) := by
  intro hall
  have hm : NoNul [SLASH, 0x6D] := by decide +kernel
  have hrun : Run MountStep init [.mount (some [SLASH]) (some 7), .mount (some [SLASH, 0x6D]) (some 8)] _ :=
    .cons ⟨fun p hp => Option.some.inj hp ▸ noNul_slash, rfl⟩
      (.single ⟨fun p hp => Option.some.inj hp ▸ hm, rfl⟩)
  have h := hall _ _ [SLASH, 0x6D] 8 (fun _ _ => none) (fun _ => 0) hrun rfl hm (by decide +kernel)
  exact open_of_not_found rfl hm (by decide) _ _ h

end MountState
end HeroOS
