import HeroOS.TmpfsFile
import HeroOS.TmpfsOpen

/-! # Writes at any offset

`tmpfs_write` adds the offset, as an unsigned number, to the size and compares the sum with the capacity; both
the sum and its rounding to blocks of 512 bytes may wrap.

* `memcpyTo_of_untouched`: the copy changes the bytes at the positions from the offset on, modulo `2 ^ 64`;
* `tmpfs_write_inside_iff`: they lie in the buffer if and only if the end of the write does not wrap;
* `tmpfs_write_failure_iff`: a write that fails leaves the inode as it was unless the rounded end has wrapped to 0
  and the inode has a block, which `krealloc` then frees.

The heap gives no block of `2 ^ 32` bytes or more (`krealloc_lt`), so that capacities are small and no size of a
write that succeeds is negative. -/

namespace HeroOS

open Word

namespace Inode

variable {node : Inode} {grow : ℕ → Option Buf} {offset : ℤ} {buf : List UInt8} {off j : ℕ}

/-! ### Where the copy goes -/

/-- `krealloc(inode->data, n)`; `grow n` is the block that the heap has for `n` bytes. -/
def reallocOf (grow : ℕ → Option Buf) (n : ℕ) : Option Buf := if n = 0 then none else grow n

/-- The end of the write as `tmpfs_write` computes it. -/
def writeEnd (offset : ℤ) (buf : List UInt8) : ℕ := wadd (toU64 offset) buf.length

/-- There is no room for the write, and `krealloc` returns none. -/
def NoRoom (node : Inode) (grow : ℕ → Option Buf) (offset : ℤ) (buf : List UInt8) : Prop :=
  node.capacity < writeEnd offset buf ∧ reallocOf grow (alignUp (writeEnd offset buf) 512) = none

/-- Every position that is copied to lies in the buffer. -/
def CopiesInside (node : Inode) (offset : ℤ) (buf : List UInt8) : Prop :=
  ∀ i < buf.length, (toU64 offset + i) % 2 ^ 64 < node.capacity

/-- Other positions keep their bytes. -/
theorem memcpyTo_of_untouched (d : Buf) (hj : j < 2 ^ 64) (h : ∀ i < buf.length, (off + i) % 2 ^ 64 ≠ j) :
    memcpyTo d off buf j = d j := by
  apply if_neg
  intro hlt
  apply h _ hlt
  unfold wsub
  omega

/-- The last position decides, or there is none. -/
theorem copiesInside_iff (hcap : node.capacity < 2 ^ 64) :
    CopiesInside node offset buf ↔ buf = [] ∨ toU64 offset + buf.length ≤ node.capacity := by
  have hoff := toU64_lt offset
  constructor
  · intro h
    cases buf with
    | nil => exact .inl rfl
    | cons b buf =>
        right
        by_contra hout
        by_cases hwrap : toU64 offset + (b :: buf).length ≤ 2 ^ 64
        · have hlast := h ((b :: buf).length - 1) (by simp)
          rw [List.length_cons] at *
          omega
        · have htop := h (2 ^ 64 - 1 - toU64 offset) (by omega)
          omega
  · rintro (rfl | h) i hi
    · exact absurd hi (Nat.not_lt_zero _)
    · omega

/-- A write without room returns an error and changes nothing. -/
theorem tmpfsWrite_of_noRoom (h : NoRoom node grow offset buf) : node.tmpfsWrite (reallocOf grow) offset buf = (node, -12) := by
  obtain ⟨hlt, hnone⟩ := h
  unfold writeEnd at hlt hnone
  unfold tmpfsWrite
  dsimp only
  rw [if_pos hlt, hnone]

/-- The capacity after a write with room. -/
theorem tmpfsWrite_capacity (h : ¬ NoRoom node grow offset buf) : (node.tmpfsWrite (reallocOf grow) offset buf).1.capacity =
    if node.capacity < writeEnd offset buf then alignUp (writeEnd offset buf) 512 else node.capacity := by
  unfold NoRoom writeEnd at h
  unfold tmpfsWrite writeEnd
  dsimp only
  split
  · rename_i hlt
    cases hk : reallocOf grow (alignUp (wadd (toU64 offset) buf.length) 512) with
    | none => exact absurd ⟨hlt, hk⟩ h
    | some data => rfl
  · rfl

theorem alignUp_block_wrap {n : ℕ} (hn : n < 2 ^ 64) (h : 2 ^ 64 ≤ n + 511) : alignUp n 512 = 0 :=
  alignUp_two_pow_wrap (k := 9) (by norm_num) hn h

theorem writeEnd_lt (offset : ℤ) (buf : List UInt8) : writeEnd offset buf < 2 ^ 64 := wadd_lt _ _

/-- A file size rounded up is a 64-bit number. -/
theorem alignUp_block_lt {n : ℕ} (hn : n < 2 ^ 64) : alignUp n 512 < 2 ^ 64 := by
  by_cases h : n + 511 < 2 ^ 64
  · have hle := (alignUp_block h).2
    omega
  · rw [alignUp_block_wrap hn (by omega)]
    norm_num

/-- Where there is room and the end does not wrap, the buffer reaches to it. -/
theorem writeEnd_le_capacity (h : ¬ NoRoom node grow offset buf) :
    writeEnd offset buf ≤ (node.tmpfsWrite (reallocOf grow) offset buf).1.capacity := by
  have hlt := writeEnd_lt offset buf
  rw [tmpfsWrite_capacity h]
  split
  · rename_i hgrows
    by_cases hround : writeEnd offset buf + 511 < 2 ^ 64
    · exact (alignUp_block hround).1
    · have hzero : alignUp (writeEnd offset buf) 512 = 0 := alignUp_block_wrap hlt (by omega)
      exact absurd ⟨hgrows, if_pos hzero⟩ h
  · rename_i hfits
    exact not_lt.mp hfits

/-- **When a write stays in the buffer.**  For every inode, offset and data: the write fails without a copy, or
all positions that it copies to lie in the buffer, if and only if it fails or the end of the write does not
wrap. -/
theorem tmpfs_write_inside_iff (grow : ℕ → Option Buf) (offset : ℤ) (buf : List UInt8) (hcap : node.capacity < 2 ^ 64) :
    NoRoom node grow offset buf ∨ CopiesInside (node.tmpfsWrite (reallocOf grow) offset buf).1 offset buf ↔
      NoRoom node grow offset buf ∨ toU64 offset + buf.length < 2 ^ 64 := by
  have hoff := toU64_lt offset
  apply or_congr_right'
  intro hroom
  have hreach := writeEnd_le_capacity hroom
  have hbound : (node.tmpfsWrite (reallocOf grow) offset buf).1.capacity < 2 ^ 64 := by
    rw [tmpfsWrite_capacity hroom]
    split
    · exact alignUp_block_lt (writeEnd_lt offset buf)
    · exact hcap
  rw [copiesInside_iff hbound]
  constructor
  · rintro (rfl | hle)
    · exact hoff
    · omega
  · intro hfits
    have hend : writeEnd offset buf = toU64 offset + buf.length := wadd_of_lt hfits
    exact .inr (by omega)

/-- Ten bytes at the beginning of an empty file. -/
theorem tmpfs_write_inside_ten : CopiesInside ((({} : Inode).tmpfsWrite (reallocOf fun _ => some fun _ => 0) 0
    (List.replicate 10 1)).1) 0 (List.replicate 10 1) := by
  have h := (@tmpfs_write_inside_iff {} (fun _ => some fun _ => 0) 0 (List.replicate 10 1) (by decide)).mpr (.inr (by decide))
  apply h.resolve_left
  rintro ⟨_, hnone⟩
  have hsize : alignUp (writeEnd 0 (List.replicate 10 1)) 512 = 512 := by decide
  rw [hsize] at hnone
  cases hnone

/-- An inode with 512 bytes. -/
def oneBlock : Inode := { size := 512, data := some fun _ => 0, capacity := 512 }

/-- Twenty bytes from ten bytes before the beginning: the end wraps to 10, and the first ten bytes are copied
in front of the buffer. -/
theorem tmpfs_write_outside : oneBlock.size ≤ oneBlock.capacity ∧
    (oneBlock.tmpfsWrite (reallocOf fun _ => none) (-10) (List.replicate 20 1)).2 = 20 ∧
    ¬ (NoRoom oneBlock (fun _ => none) (-10) (List.replicate 20 1) ∨
      CopiesInside (oneBlock.tmpfsWrite (reallocOf fun _ => none) (-10) (List.replicate 20 1)).1 (-10) (List.replicate 20 1)) := by
  refine ⟨le_rfl, by decide, ?_⟩
  rw [tmpfs_write_inside_iff _ _ _ (by decide)]
  rintro (⟨hlt, _⟩ | hfits)
  · exact absurd hlt (by decide)
  · exact absurd hfits (by decide)

end Inode

namespace Files

variable {s s' : Files} {node n : ℕ} {grow : ℕ → Option Buf} {offset : ℤ} {buf : List UInt8} {r : ℤ}

/-! ### Writes that fail -/

/-- The copy into a block that is allocated returns if and only if it stays inside. -/
theorem copyIn_returns_iff {newEnd : ℕ} (hd : ¬ s.Dangling node) (hcap : (s.fs.inodes node).capacity < 2 ^ 64) :
    (∃ c, s.copyIn node offset buf newEnd = .ok c) ↔ (s.fs.inodes node).CopiesInside offset buf := by
  rw [Inode.copiesInside_iff hcap]
  unfold copyIn
  dsimp only
  split
  · rename_i hout
    apply iff_of_false
    · rintro ⟨c, hc⟩
      cases hc
    · rintro (rfl | hle)
      · exact hout.1 rfl
      · exact hout.2.elim hd (by omega)
  · rename_i hin
    apply iff_of_true
    · exact ⟨_, rfl⟩
    · by_contra hout
      obtain ⟨hne, hlt⟩ := not_or.mp hout
      exact hin ⟨hne, .inr (not_le.mp hlt)⟩

/-- The inode is as before, and its block, if it had one, is still allocated. -/
def InodeKept (s s' : Files) (node : ℕ) : Prop :=
  s'.fs.inodes node = s.fs.inodes node ∧ (¬ s.Dangling node → ¬ s'.Dangling node)

theorem copyIn_nonneg {newEnd : ℕ} (hcap : (s.fs.inodes node).capacity < 2 ^ 63)
    (h : s.copyIn node offset buf newEnd = .ok (s', r)) : 0 ≤ r := by
  unfold copyIn at h
  dsimp only at h
  split at h
  · cases h
  · rename_i hin
    obtain ⟨_, rfl⟩ := Prod.mk.inj (Except.ok.inj h)
    by_cases hb : buf = []
    · subst hb
      exact le_rfl
    · have hle : toU64 offset + buf.length ≤ (s.fs.inodes node).capacity := by
        by_contra hlt
        exact hin ⟨hb, .inr (not_le.mp hlt)⟩
      rw [toS64_of_lt (by omega)]
      exact Int.natCast_nonneg _

/-- A block that `krealloc` returns has the size asked for. -/
theorem krealloc_some {s₁ : Files} {data : Buf} (hk : s.krealloc node grow n = (s₁, some data)) : grow n = some data := by
  unfold krealloc at hk
  split at hk
  · cases hk
  · split at hk
    · cases hk
    · rename_i data' hdata
      cases hk
      exact hdata

/-- A negative result comes from `krealloc`. -/
theorem tmpfsWrite_negative {newEnd : ℕ} (hcap : (s.fs.inodes node).capacity < 2 ^ 63)
    (hgrow : ∀ n data, grow n = some data → n < 2 ^ 63)
    (h : s.tmpfsWrite node offset buf grow newEnd = .ok (s', r)) (hr : r < 0) :
    newEnd > (s.fs.inodes node).capacity ∧ ¬ s.Dangling node ∧ s.krealloc node grow (alignUp newEnd 512) = (s', none) := by
  unfold tmpfsWrite at h
  generalize alignUp newEnd 512 = newCap at *
  split at h
  · rename_i hgrows
    split at h
    · cases h
    · rename_i hd
      refine ⟨hgrows, hd, ?_⟩
      split at h
      · rename_i s₁ hk
        cases h
        exact hk
      · rename_i s₁ data hk
        have hlt := hgrow _ _ (krealloc_some hk)
        have hnonneg := copyIn_nonneg (by simpa [setInode] using hlt) h
        omega
  · have hnonneg := copyIn_nonneg hcap h
    omega

/-- Asked for no bytes, `krealloc` frees the block, and the write fails. -/
theorem tmpfsWrite_wraps {newEnd : ℕ} (hw : s.WrapsToZero node newEnd) (hd : ¬ s.Dangling node) :
    s.tmpfsWrite node offset buf grow newEnd = .ok ({ s with block := Function.update s.block node false }, -12) := by
  unfold WrapsToZero at hw
  unfold tmpfsWrite
  generalize alignUp newEnd 512 = newCap at *
  obtain ⟨hgrows, hzero⟩ := hw
  have hk : s.krealloc node grow newCap = ({ s with block := Function.update s.block node false }, none) := if_pos hzero
  rw [if_pos hgrows, if_neg hd, hk]

/-- **What a failed write leaves.**  For every inode, offset and data, if `vfs_write` returns: that a negative
result leaves the inode and its block as they were holds if and only if it is not the case that the end of the
write, beyond the capacity, has wrapped to 0 when rounded while the inode has a block. -/
theorem tmpfs_write_failure_iff (hcap : (s.fs.inodes node).capacity < 2 ^ 63) (hgrow : ∀ n data, grow n = some data → n < 2 ^ 63)
    (h : s.vfsWrite (some node) offset buf grow = .ok (s', r)) :
    (r < 0 → InodeKept s s' node) ↔ ¬ (s.WrapsToZero node (Inode.writeEnd offset buf) ∧ s.HasBlock node) := by
  have h : s.tmpfsWrite node offset buf grow (Inode.writeEnd offset buf) = .ok (s', r) := h
  generalize Inode.writeEnd offset buf = newEnd at *
  constructor
  · rintro hkept ⟨hw, hsome, hblock⟩
    have hd : ¬ s.Dangling node := by
      rintro ⟨_, hfalse⟩
      rw [hblock] at hfalse
      cases hfalse
    rw [tmpfsWrite_wraps hw hd] at h
    cases h
    obtain ⟨_, hsafe⟩ := hkept (by norm_num)
    exact hsafe hd ⟨hsome, Function.update_self _ _ _⟩
  · intro hno hr
    obtain ⟨hgrows, hd, hk⟩ := tmpfsWrite_negative hcap hgrow h hr
    unfold WrapsToZero at hno
    generalize alignUp newEnd 512 = newCap at *
    obtain ⟨h0, hk'⟩ | ⟨_, hk'⟩ | ⟨_, data, hk'⟩ := s.krealloc_cases node grow newCap
    · rw [hk'] at hk
      cases hk
      refine ⟨rfl, fun _ hd' => ?_⟩
      have hblock : s.block node = true := by
        by_contra hfalse
        exact hd ⟨hd'.1, by simpa using hfalse⟩
      exact hno ⟨⟨hgrows, h0⟩, hd'.1, hblock⟩
    · rw [hk'] at hk
      cases hk
      exact ⟨rfl, id⟩
    · rw [hk'] at hk
      cases hk

/-- A tmpfs with one file of 512 bytes. -/
def oneFile : Files := ⟨⟨fun _ => Inode.oneBlock, fun _ => true, 2, 1⟩, fun _ => true, fun _ => 0⟩

/-- There is no memory for a longer file. -/
theorem tmpfs_write_failure_full : ∃ s', oneFile.vfsWrite (some 1) 512 [1] (fun _ => none) = .ok (s', -12) ∧ InodeKept oneFile s' 1 := by
  have hend : Inode.writeEnd 512 [1] = 513 := by decide
  have hcap : alignUp 513 512 = 1024 := by decide
  have hk : oneFile.krealloc 1 (fun _ => none) 1024 = (oneFile, none) := rfl
  have h : oneFile.vfsWrite (some 1) 512 [1] (fun _ => none) = .ok (oneFile, -12) := by
    show oneFile.tmpfsWrite 1 512 [1] (fun _ => none) (Inode.writeEnd 512 [1]) = _
    unfold tmpfsWrite
    rw [hend, hcap, hk, if_pos (by decide), if_neg (by decide)]
  have hno : ¬ (oneFile.WrapsToZero 1 (Inode.writeEnd 512 [1]) ∧ oneFile.HasBlock 1) := by
    rintro ⟨⟨_, hzero⟩, _⟩
    rw [hend, hcap] at hzero
    cases hzero
  have hgrow : ∀ n data, (fun _ : ℕ => (none : Option Buf)) n = some data → n < 2 ^ 63 := by
    intro n data hnone
    cases hnone
  exact ⟨oneFile, h, (tmpfs_write_failure_iff (by decide) hgrow h).mpr hno (by norm_num)⟩

/-- A write of nothing at offset -1 frees the block of the file. -/
theorem tmpfs_write_frees : ∃ s', oneFile.vfsWrite (some 1) (-1) [] (fun _ => none) = .ok (s', -12) ∧ ¬ oneFile.Dangling 1 ∧
    s'.Dangling 1 ∧ ¬ InodeKept oneFile s' 1 := by
  have hw : oneFile.WrapsToZero 1 (Inode.writeEnd (-1) []) := ⟨by decide, by decide⟩
  have hd : ¬ oneFile.Dangling 1 := by decide
  have h := @tmpfsWrite_wraps oneFile 1 (fun _ => none) (-1) [] _ hw hd
  have hd' : Dangling { oneFile with block := Function.update oneFile.block 1 false } 1 := ⟨rfl, rfl⟩
  exact ⟨_, h, hd, hd', fun hkept => hkept.2 hd hd'⟩

end Files
end HeroOS
