import HeroOS.Run
import HeroOS.Tmpfs

/-! # File contents

`tmpfs_write` and `tmpfs_read` on one inode.

* `tmpfs_file_refines`: for writes that start inside the file or at its end, the file is the list of
  bytes that overwriting and appending gives, and a read returns the slice it asks for, whatever
  blocks `krealloc` returns and wherever it fails;
* `reads_independent_iff`: a write may also start behind the end of the file; the bytes in between
  are whatever the heap held, so that reads depend on nothing but the writes exactly when every
  byte of the file has been written. -/

namespace HeroOS.Inode

open Word

variable {node node' : Inode} {krealloc : ℕ → Option Buf} {off : ℕ} {buf : List UInt8}

/-! ### One write -/

/-- The copied bytes, as long as the addresses do not wrap. -/
theorem memcpyTo_apply (d : Buf) {i : ℕ} (hend : off + buf.length ≤ 2 ^ 64) (hoff : off < 2 ^ 64) (hi : i < 2 ^ 64) :
    memcpyTo d off buf i = if off ≤ i ∧ i < off + buf.length then buf.getD (i - off) 0 else d i := by
  unfold memcpyTo
  by_cases h : off ≤ i
  · rw [wsub_of_le hi h]
    by_cases h' : i - off < buf.length
    · rw [if_pos h', if_pos ⟨h, by omega⟩]
    · rw [if_neg h', if_neg (by omega)]
  · have hw : wsub i off = 2 ^ 64 + i - off := by
      unfold wsub
      omega
    rw [hw, if_neg (by omega), if_neg (by omega)]

/-- The inode with a buffer that is large enough, before the copy. -/
def Grown (node : Inode) (krealloc : ℕ → Option Buf) (newEnd : ℕ) (node₁ : Inode) : Prop :=
  (newEnd ≤ node.capacity ∧ node₁ = node) ∨
    node.capacity < newEnd ∧ ∃ d, krealloc (alignUp newEnd 512) = some d ∧
      node₁ = { node with data := some d, capacity := alignUp newEnd 512 }

/-- A write fails and changes nothing, or makes room and stores. -/
theorem tmpfsWrite_cases (node : Inode) (krealloc : ℕ → Option Buf) (off : ℕ) (buf : List UInt8)
    (hend : off + buf.length < 2 ^ 64) :
    (node.capacity < off + buf.length ∧ krealloc (alignUp (off + buf.length) 512) = none ∧
      node.tmpfsWrite krealloc off buf = (node, -12)) ∨
    ∃ node₁, Grown node krealloc (off + buf.length) node₁ ∧
      node.tmpfsWrite krealloc off buf = (node₁.store off buf (off + buf.length), toS64 buf.length) := by
  have hnew : wadd (toU64 (off : ℤ)) buf.length = off + buf.length := by
    rw [toU64_natCast (by omega)]
    exact wadd_of_lt hend
  unfold tmpfsWrite
  rw [hnew]
  dsimp only
  split
  · rename_i hgrow
    cases hk : krealloc (alignUp (off + buf.length) 512) with
    | none => exact .inl ⟨hgrow, rfl, rfl⟩
    | some d => exact .inr ⟨_, .inr ⟨hgrow, d, hk, rfl⟩, rfl⟩
  · rename_i hfits
    exact .inr ⟨node, .inl ⟨not_lt.mp hfits, rfl⟩, rfl⟩

/-- Rounding a file size up to blocks of 512 bytes. -/
theorem alignUp_block {n : ℕ} (h : n + 511 < 2 ^ 64) : n ≤ alignUp n 512 ∧ alignUp n 512 ≤ n + 511 := by
  have e : alignUp n (2 ^ 9) = (n + 2 ^ 9 - 1) / 2 ^ 9 * 2 ^ 9 := alignUp_two_pow (by norm_num) (by omega)
  norm_num at e
  rw [e]
  omega

/-! ### The contents -/

/-- The bytes of a file after `buf` has been written at `off`, inside the file or at its end. -/
def splice (ref : List UInt8) (off : ℕ) (buf : List UInt8) : List UInt8 :=
  ref.take off ++ buf ++ ref.drop (off + buf.length)

theorem length_splice {ref : List UInt8} (h : off ≤ ref.length) :
    (splice ref off buf).length = max (off + buf.length) ref.length := by
  simp only [splice, List.length_append, List.length_take, List.length_drop]
  omega

theorem getD_splice {ref : List UInt8} (h : off ≤ ref.length) (i : ℕ) :
    (splice ref off buf).getD i 0 =
      if off ≤ i ∧ i < off + buf.length then buf.getD (i - off) 0 else ref.getD i 0 := by
  have hlen : (ref.take off).length = off := by
    rw [List.length_take]
    omega
  unfold splice
  by_cases h1 : i < off
  · rw [if_neg (by omega), List.append_assoc, List.getD_append _ _ _ _ (by omega)]
    simp only [List.getD_eq_getElem?_getD, List.getElem?_take, if_pos h1]
  · by_cases h2 : i < off + buf.length
    · rw [if_pos ⟨not_lt.mp h1, h2⟩, List.getD_append _ _ _ _ (by rw [List.length_append]; omega),
        List.getD_append_right _ _ _ _ (by omega), hlen]
    · rw [if_neg (by omega), List.getD_append_right _ _ _ _ (by rw [List.length_append]; omega),
        List.length_append, hlen]
      simp only [List.getD_eq_getElem?_getD, List.getElem?_drop]
      congr 2
      omega

/-- The inode holds the bytes `ref`. -/
structure Holds (node : Inode) (ref : List UInt8) : Prop where
  size : node.size = ref.length
  size_le : node.size ≤ node.capacity
  size_lt : node.size < 2 ^ 63
  unallocated : node.data = none → node.capacity = 0
  bytes : ∀ d, node.data = some d → ∀ i < ref.length, d i = ref.getD i 0

/-- A file without a buffer: a zeroed inode. -/
theorem Holds.fresh (hd : node.data = none) (hs : node.size = 0) (hc : node.capacity = 0) : Holds node [] :=
  ⟨hs, by omega, by omega, fun _ => hc, fun d h => by rw [hd] at h; cases h⟩

/-- Making room keeps the contents. -/
theorem Holds.grown {ref : List UInt8} {newEnd : ℕ} (h : Holds node ref) (hend : newEnd < 2 ^ 63)
    (hkeep : ∀ n d', krealloc n = some d' → ∀ d, node.data = some d → ∀ i < node.capacity, d' i = d i)
    (hg : Grown node krealloc newEnd node') : Holds node' ref ∧ newEnd ≤ node'.capacity := by
  obtain ⟨hle, rfl⟩ | ⟨hlt, d', hk, rfl⟩ := hg
  · exact ⟨h, hle⟩
  · obtain ⟨hcap, _⟩ := alignUp_block (n := newEnd) (by omega)
    have hsize := h.size_le
    refine ⟨⟨h.size, hsize.trans (hlt.le.trans hcap), h.size_lt, fun h => absurd h (Option.some_ne_none _), ?_⟩, hcap⟩
    intro d'' hd'' i hi
    obtain rfl := Option.some.inj hd''
    have hlen := h.size
    cases hd : node.data with
    | none =>
        have := h.unallocated hd
        omega
    | some d => rw [hkeep _ _ hk d hd i (by omega), h.bytes d hd i hi]

/-- The copy overwrites and appends. -/
theorem Holds.store {ref : List UInt8} (h : Holds node ref) (hoff : off ≤ ref.length)
    (hend : off + buf.length < 2 ^ 63) (hcap : off + buf.length ≤ node.capacity) :
    Holds (node.store off buf (off + buf.length)) (splice ref off buf) := by
  have hsize := h.size
  have hle := h.size_le
  have hlt := h.size_lt
  refine ⟨?_, ?_, ?_, ?_, ?_⟩
  · rw [length_splice hoff]
    unfold Inode.store
    dsimp only
    split <;> omega
  · unfold Inode.store
    dsimp only
    split <;> omega
  · unfold Inode.store
    dsimp only
    split <;> omega
  · intro hd
    exact h.unallocated (Option.map_eq_none_iff.mp hd)
  · intro d' hd' i hi
    obtain ⟨d, hd, rfl⟩ := Option.map_eq_some_iff.mp hd'
    rw [length_splice hoff] at hi
    rw [toU64_natCast (by omega), memcpyTo_apply d (by omega) (by omega) (by omega), getD_splice hoff]
    split
    · rfl
    · exact h.bytes d hd i (by omega)

/-- **Reading.** -/
theorem Holds.read {ref : List UInt8} (h : Holds node ref) (offset : ℤ) (size : ℕ)
    (hlo : -2 ^ 63 ≤ offset) (hhi : offset < 2 ^ 63) :
    node.tmpfsRead offset size =
      if 0 ≤ offset then
        (((min size (ref.length - offset.toNat) : ℕ) : ℤ), (ref.drop offset.toNat).take size)
      else (0, []) := by
  have hsize := h.size
  have hlt := h.size_lt
  by_cases h0 : 0 ≤ offset
  · obtain ⟨k, rfl⟩ := Int.eq_ofNat_of_zero_le h0
    rw [if_pos h0, Int.toNat_natCast]
    have hu : toU64 (k : ℤ) = k := toU64_natCast (by omega)
    by_cases hk : k < ref.length
    · obtain ⟨d, hd⟩ : ∃ d, node.data = some d := by
        cases hd : node.data with
        | none =>
            have := h.unallocated hd
            have := h.size_le
            omega
        | some d => exact ⟨d, rfl⟩
      unfold tmpfsRead
      rw [hd]
      dsimp only
      rw [hu, if_neg (by omega), hsize, toS64_of_lt (by omega)]
      refine Prod.ext rfl ?_
      apply List.ext_getElem?
      intro i
      by_cases hi : i < min size (ref.length - k)
      · have hb := h.bytes d hd (k + i) (by omega)
        rw [List.getD_eq_getElem _ _ (by omega)] at hb
        rw [List.getElem?_map, List.getElem?_range hi, List.getElem?_take, if_pos (by omega),
          List.getElem?_drop, List.getElem?_eq_getElem (by omega), Option.map_some, hb]
      · rw [List.getElem?_eq_none (by rw [List.length_map, List.length_range]; omega),
          List.getElem?_eq_none (by rw [List.length_take, List.length_drop]; omega)]
    · have hz : ref.length - k = 0 := by omega
      rw [hz, List.drop_eq_nil_of_le (by omega), List.take_nil, Nat.min_zero]
      unfold tmpfsRead
      split
      · rfl
      · rw [hu, if_pos (by omega)]
        rfl
  · rw [if_neg h0]
    have hu : node.size ≤ toU64 offset := by
      unfold toU64
      omega
    unfold tmpfsRead
    split
    · rfl
    · rw [if_pos hu]

/-! ### Runs of writes inside the file -/

/-- A write: where, what, and the blocks that `krealloc` returns. -/
structure WriteOp where
  offset : ℕ
  buf : List UInt8
  krealloc : ℕ → Option Buf

/-- A write that starts inside the file or at its end, and the reference contents after it.  When
`krealloc` succeeds, it has kept the old payload. -/
inductive WriteStep : Inode × List UInt8 → WriteOp → Inode × List UInt8 → Prop
  | write {node : Inode} {ref : List UInt8} {op : WriteOp} (hoff : op.offset ≤ node.size)
      (hend : op.offset + op.buf.length < 2 ^ 63)
      (hkeep : ∀ n d', op.krealloc n = some d' → ∀ d, node.data = some d → ∀ i < node.capacity, d' i = d i) :
      WriteStep (node, ref) op ((node.tmpfsWrite op.krealloc op.offset op.buf).1,
        if 0 ≤ (node.tmpfsWrite op.krealloc op.offset op.buf).2 then splice ref op.offset op.buf else ref)

theorem WriteStep.holds {c c' : Inode × List UInt8} {op : WriteOp} (h : Holds c.1 c.2) (hs : WriteStep c op c') :
    Holds c'.1 c'.2 := by
  cases hs with
  | @write node ref _ hoff hend hkeep =>
      dsimp only at h ⊢
      obtain ⟨_, _, hw⟩ | ⟨node₁, hg, hw⟩ := tmpfsWrite_cases node op.krealloc op.offset op.buf
        (by omega)
      · rw [hw, if_neg (by norm_num)]
        exact h
      · obtain ⟨h1, hcap⟩ := h.grown hend hkeep hg
        rw [hw, if_pos (by dsimp only; rw [toS64_of_lt (by omega)]; omega)]
        rw [h.size] at hoff
        exact h1.store hoff hend hcap

/-- **A file is a list of bytes.**  After any writes to a fresh inode, each starting inside the file
or at its end, some of which may fail: a read with any offset and size returns the slice of the
reference contents that it asks for, and nothing behind the end or before the start, and the size
never exceeds the capacity. -/
theorem tmpfs_file_refines {ops : List WriteOp} {fresh : Inode} {ref : List UInt8}
    (hd : fresh.data = none) (hs : fresh.size = 0) (hc : fresh.capacity = 0)
    (hrun : Run WriteStep (fresh, []) ops (node, ref)) :
    node.size = ref.length ∧ node.size ≤ node.capacity ∧
      ∀ (offset : ℤ) (size : ℕ), -2 ^ 63 ≤ offset → offset < 2 ^ 63 →
        node.tmpfsRead offset size =
          if 0 ≤ offset then
            (((min size (ref.length - offset.toNat) : ℕ) : ℤ), (ref.drop offset.toNat).take size)
          else (0, []) := by
  have h : Holds node ref :=
    hrun.invariant (I := fun c => Holds c.1 c.2) (fun _ _ _ h hs => hs.holds h) (Holds.fresh hd hs hc)
  exact ⟨h.size, h.size_le, h.read⟩

/-- Blocks that are zero behind the payload of `node`. -/
def zeroBlocks (node : Inode) : ℕ → Option Buf :=
  fun _ => some (fun i => match node.data with
    | some d => if i < node.capacity then d i else 0
    | none => 0)

/-- A write without memory, an append and an overwrite. -/
theorem tmpfs_file_refines_overwrite :
    ∃ node ref, Run WriteStep ({}, [])
        [⟨0, [5], fun _ => none⟩, ⟨0, [1, 2, 3], zeroBlocks {}⟩, ⟨1, [9], fun _ => none⟩] (node, ref) ∧
      ref = [1, 9, 3] ∧ node.tmpfsRead 1 5 = (2, [9, 3]) := by
  have hrun : Run WriteStep ({}, [])
      [⟨0, [5], fun _ => none⟩, ⟨0, [1, 2, 3], zeroBlocks {}⟩, ⟨1, [9], fun _ => none⟩] (_, _) :=
    .cons (.write (by decide) (by decide) (fun n d' hk => nomatch hk))
      (.cons (.write (by decide) (by decide) (fun n d' _ d hd => nomatch hd))
        (.cons (.write (by decide +kernel) (by decide) (fun n d' hk => nomatch hk)) (.nil _)))
  refine ⟨_, _, hrun, by decide +kernel, ?_⟩
  have hread := (tmpfs_file_refines rfl rfl rfl hrun).2.2 1 5 (by norm_num) (by norm_num)
  exact hread.trans (by decide +kernel)

/-! ### Writes behind the end -/

/-- `krealloc(inode->data, n)` on a heap that holds the bytes `heap` behind the old payload: nothing
clears them. -/
def heapBlock (node : Inode) (heap : Buf) (n : ℕ) : Option Buf :=
  if n = 0 then none
  else some (fun i => match node.data with
    | some d => if i < node.capacity then d i else heap i
    | none => heap i)

/-- The writes `ws` in turn; the `k`-th call of `krealloc` finds the bytes `heap k`. -/
def writeAll (heap : ℕ → Buf) (node : Inode) : List (ℕ × List UInt8) → Inode
  | [] => node
  | w :: ws => writeAll (fun k => heap (k + 1)) (node.tmpfsWrite (node.heapBlock (heap 0)) w.1 w.2).1 ws

/-- All of the writes succeed. -/
def AllSucceed (heap : ℕ → Buf) (node : Inode) : List (ℕ × List UInt8) → Prop
  | [] => True
  | w :: ws => 0 ≤ (node.tmpfsWrite (node.heapBlock (heap 0)) w.1 w.2).2 ∧
      AllSucceed (fun k => heap (k + 1)) (node.tmpfsWrite (node.heapBlock (heap 0)) w.1 w.2).1 ws

/-- Some write covers position `i`. -/
def Covered (ws : List (ℕ × List UInt8)) (i : ℕ) : Prop := ∃ w ∈ ws, w.1 ≤ i ∧ i < w.1 + w.2.length

/-- The end of the file after the writes. -/
def fileEnd (ws : List (ℕ × List UInt8)) : ℕ := ws.foldl (fun e w => max e (w.1 + w.2.length)) 0

/-- Later reads depend on the writes only: not on what the heap held, and with zeros where nothing
was written. -/
def ReadsIndependent (fresh : Inode) (ws : List (ℕ × List UInt8)) : Prop :=
  (∀ heap heap' (offset : ℤ) (size : ℕ),
    (writeAll heap fresh ws).tmpfsRead offset size = (writeAll heap' fresh ws).tmpfsRead offset size) ∧
  ∀ heap d i, (writeAll heap fresh ws).data = some d → i < (writeAll heap fresh ws).size → ¬ Covered ws i → d i = 0

/-- The byte last written at each position, after one more write. -/
def record (f : ℕ → Option UInt8) (w : ℕ × List UInt8) : ℕ → Option UInt8 :=
  fun i => if w.1 ≤ i ∧ i < w.1 + w.2.length then some (w.2.getD (i - w.1) 0) else f i

/-- The buffer holds what was written, and bytes of the heap (which satisfy `Q`) elsewhere. -/
structure Wrote (Q : UInt8 → Prop) (node : Inode) (f : ℕ → Option UInt8) (e : ℕ) : Prop where
  size : node.size = e
  size_le : node.size ≤ node.capacity
  cap_le : node.capacity ≤ 2 ^ 64 - 512
  unallocated : node.data = none → node.capacity = 0
  bytes : ∀ d, node.data = some d → ∀ i < node.capacity,
    (∀ b, f i = some b → d i = b) ∧ (f i = none → Q (d i))
  outside : ∀ i, node.capacity ≤ i → f i = none

theorem alignUp_block_zero {n : ℕ} (h : 2 ^ 64 - 512 < n) (hn : n < 2 ^ 64) : alignUp n 512 = 0 :=
  alignUp_two_pow_wrap (k := 9) (by norm_num) hn (by omega)

theorem length_lt_of_succeeds {k : ℕ → Option Buf} {offset : ℤ} (hlen : buf.length < 2 ^ 64)
    (h : 0 ≤ (node.tmpfsWrite k offset buf).2) : buf.length < 2 ^ 63 := by
  by_contra hge
  have hneg : toS64 buf.length < 0 := by
    unfold toS64
    rw [if_neg hge]
    omega
  unfold tmpfsWrite at h
  dsimp only at h
  split at h
  · split at h
    · norm_num at h
    · omega
  · omega

variable {Q : UInt8 → Prop} {f : ℕ → Option UInt8} {e : ℕ} {heap : Buf}

theorem Wrote.grown {newEnd : ℕ} (h : Wrote Q node f e)
    (hheap : ∀ i, Q (heap i)) (hend : newEnd < 2 ^ 64) (hg : Grown node (node.heapBlock heap) newEnd node') :
    Wrote Q node' f e ∧ newEnd ≤ node'.capacity := by
  obtain ⟨hle, rfl⟩ | ⟨hlt, d', hk, rfl⟩ := hg
  · exact ⟨h, hle⟩
  · unfold heapBlock at hk
    split at hk
    · cases hk
    · rename_i hne
      have hbound : newEnd ≤ 2 ^ 64 - 512 := by
        by_contra hgt
        exact hne (alignUp_block_zero (not_le.mp hgt) hend)
      obtain ⟨hcap, _⟩ := alignUp_block (n := newEnd) (by omega)
      have hround : alignUp newEnd 512 ≤ 2 ^ 64 - 512 := by
        have e : alignUp newEnd (2 ^ 9) = (newEnd + 2 ^ 9 - 1) / 2 ^ 9 * 2 ^ 9 :=
          alignUp_two_pow (by norm_num) (by omega)
        norm_num at e
        rw [e]
        omega
      have hsize := h.size_le
      refine ⟨⟨h.size, hsize.trans (hlt.le.trans hcap), hround, fun h => absurd h (Option.some_ne_none _), ?_,
        fun i hi => h.outside i (hlt.le.trans (hcap.trans hi))⟩, hcap⟩
      intro d'' hd'' i _
      obtain rfl := Option.some.inj hd''
      obtain rfl := Option.some.inj hk
      dsimp only
      cases hd : node.data with
      | none =>
          have hnone : f i = none := h.outside i (by rw [h.unallocated hd]; exact Nat.zero_le _)
          rw [hnone]
          exact ⟨by simp, fun _ => hheap i⟩
      | some d =>
          dsimp only
          split
          · rename_i hi
            exact h.bytes d hd i hi
          · rename_i hi
            rw [h.outside i (not_lt.mp hi)]
            exact ⟨by simp, fun _ => hheap i⟩

theorem Wrote.store (h : Wrote Q node f e) (hend : off + buf.length < 2 ^ 64)
    (hcap : off + buf.length ≤ node.capacity) :
    Wrote Q (node.store off buf (off + buf.length)) (record f (off, buf)) (max e (off + buf.length)) := by
  have hsize := h.size
  have hle := h.size_le
  have hcle := h.cap_le
  refine ⟨?_, ?_, hcle, ?_, ?_, ?_⟩
  · unfold Inode.store
    dsimp only
    split <;> omega
  · unfold Inode.store
    dsimp only
    split <;> omega
  · intro hd
    exact h.unallocated (Option.map_eq_none_iff.mp hd)
  · intro d' hd' i hi
    have hi : i < node.capacity := hi
    obtain ⟨d, hd, rfl⟩ := Option.map_eq_some_iff.mp hd'
    rw [toU64_natCast (by omega), memcpyTo_apply d (by omega) (by omega) (by omega), record]
    dsimp only
    split
    · exact ⟨fun b hb => Option.some.inj hb, fun hn => by cases hn⟩
    · exact h.bytes d hd i hi
  · intro i hi
    have hi : node.capacity ≤ i := hi
    unfold record
    rw [if_neg (by dsimp only; omega)]
    exact h.outside i hi

/-- One successful write. -/
theorem Wrote.write (h : Wrote Q node f e) (hheap : ∀ i, Q (heap i)) (hoff : off < 2 ^ 63)
    (hlen : buf.length < 2 ^ 64) (hs : 0 ≤ (node.tmpfsWrite (node.heapBlock heap) off buf).2) :
    Wrote Q (node.tmpfsWrite (node.heapBlock heap) off buf).1 (record f (off, buf)) (max e (off + buf.length)) := by
  have hlen := length_lt_of_succeeds hlen hs
  obtain ⟨_, _, hw⟩ | ⟨node₁, hg, hw⟩ := tmpfsWrite_cases node (node.heapBlock heap) off buf
    (by omega)
  · rw [hw] at hs
    norm_num at hs
  · obtain ⟨h1, hcap⟩ := h.grown hheap (by omega) hg
    rw [hw]
    exact h1.store (by omega) hcap

/-- All of the writes. -/
theorem Wrote.writeAll {heap : ℕ → Buf} {ws : List (ℕ × List UInt8)} (h : Wrote Q node f e)
    (hheap : ∀ k i, Q (heap k i)) (hws : ∀ w ∈ ws, w.1 < 2 ^ 63 ∧ w.2.length < 2 ^ 64)
    (hs : AllSucceed heap node ws) :
    Wrote Q (writeAll heap node ws) (ws.foldl record f) (ws.foldl (fun e w => max e (w.1 + w.2.length)) e) := by
  induction ws generalizing heap node f e with
  | nil => exact h
  | cons w ws ih =>
      obtain ⟨hoff, hlen⟩ := hws w List.mem_cons_self
      have h1 := h.write (hheap 0) hoff hlen hs.1
      exact ih h1 (fun k => hheap (k + 1)) (fun w hw => hws w (List.mem_cons_of_mem _ hw)) hs.2

/-- Nothing is recorded exactly where no write has been. -/
theorem foldl_record_eq_none {ws : List (ℕ × List UInt8)} {i : ℕ} :
    ws.foldl record f i = none ↔ f i = none ∧ ¬ Covered ws i := by
  induction ws generalizing f with
  | nil => simp [Covered]
  | cons w ws ih =>
      rw [List.foldl_cons, ih]
      unfold record
      by_cases hw : w.1 ≤ i ∧ i < w.1 + w.2.length
      · simp [hw, Covered]
      · simp [hw, Covered]

/-- A read depends on the size and on the bytes below it. -/
theorem tmpfsRead_congr {node' : Inode} (hsize : node'.size = node.size)
    (hnone : node.data = none → node.size = 0) (hnone' : node'.data = none → node'.size = 0)
    (hbytes : ∀ d d', node.data = some d → node'.data = some d' → ∀ i < node.size, d i = d' i)
    (offset : ℤ) (size : ℕ) : node.tmpfsRead offset size = node'.tmpfsRead offset size := by
  have hempty : ∀ n : Inode, n.size = 0 → n.tmpfsRead offset size = (0, []) := by
    intro n h0
    unfold tmpfsRead
    split
    · rfl
    · rw [if_pos (by rw [h0]; exact Nat.zero_le _)]
  by_cases h0 : node.size = 0
  · rw [hempty node h0, hempty node' (hsize.trans h0)]
  · cases hd : node.data with
    | none => exact absurd (hnone hd) h0
    | some d =>
        cases hd' : node'.data with
        | none => exact absurd (hsize.symm.trans (hnone' hd')) h0
        | some d' =>
            unfold tmpfsRead
            rw [hd, hd']
            dsimp only
            rw [hsize]
            split
            · rfl
            · refine Prod.ext rfl (List.map_congr_left fun i hi => ?_)
              rw [List.mem_range] at hi
              exact hbytes d d' hd hd' _ (by omega)

theorem Wrote.fresh (hd : node.data = none) (hs : node.size = 0) (hc : node.capacity = 0) :
    Wrote Q node (fun _ => none) 0 := by
  refine ⟨hs, by omega, by omega, fun _ => hc, fun d h => ?_, fun _ _ => rfl⟩
  rw [hd] at h
  cases h

theorem Wrote.data_none (h : Wrote Q node f e) (hd : node.data = none) : node.size = 0 := by
  have hcap := h.unallocated hd
  have hle := h.size_le
  omega

/-- A byte of the file that nobody wrote is read as the heap held it. -/
theorem Wrote.read_unwritten {c : UInt8} {i : ℕ} (hw : Wrote (fun b => b = c) node f e) (hi : i < e)
    (hnone : f i = none) : (node.tmpfsRead i 1).2 = [c] := by
  have hsize := hw.size
  have hle := hw.size_le
  have hcle := hw.cap_le
  cases hd : node.data with
  | none =>
      have := hw.data_none hd
      omega
  | some d =>
      have hdi := (hw.bytes d hd i (by omega)).2 hnone
      unfold tmpfsRead
      rw [hd]
      dsimp only
      rw [toU64_natCast (by omega), if_neg (by omega)]
      have hmin : min 1 (node.size - i) = 1 := by omega
      rw [hmin]
      simp [hdi]

/-- **When reads depend on the writes only.**  After a sequence of successful writes to a fresh
inode with non-negative offsets, later reads return the same bytes whatever the heap held before,
with zeros where nothing was written, exactly when every byte of the file has been written. -/
theorem reads_independent_iff {fresh : Inode} {ws : List (ℕ × List UInt8)} (hd : fresh.data = none)
    (hsize : fresh.size = 0) (hc : fresh.capacity = 0) (hws : ∀ w ∈ ws, w.1 < 2 ^ 63 ∧ w.2.length < 2 ^ 64)
    (hs : ∀ heap, AllSucceed heap fresh ws) :
    ReadsIndependent fresh ws ↔ ∀ i < fileEnd ws, Covered ws i := by
  have hall : ∀ (Q : UInt8 → Prop) (heap : ℕ → Buf), (∀ k i, Q (heap k i)) →
      Wrote Q (Inode.writeAll heap fresh ws) (ws.foldl record fun _ => none) (fileEnd ws) :=
    fun _ _ hheap => (Wrote.fresh hd hsize hc).writeAll hheap hws (hs _)
  have hcov : ∀ {i}, (ws.foldl record (fun _ => none) i = none) ↔ ¬ Covered ws i := by
    intro i
    rw [foldl_record_eq_none]
    simp
  constructor
  · rintro ⟨hsame, _⟩ i hi
    by_contra hnot
    have hnone := hcov.mpr hnot
    -- two heaps, one of zeros and one of ones, show through at position `i`
    have hbyte : ∀ c : UInt8, ((Inode.writeAll (fun _ _ => c) fresh ws).tmpfsRead i 1).2 = [c] :=
      fun c => (hall (fun b => b = c) (fun _ _ => c) (fun _ _ => rfl)).read_unwritten hi hnone
    have h01 := hsame (fun _ _ => 0) (fun _ _ => 1) i 1
    have := (hbyte 0).symm.trans ((congrArg Prod.snd h01).trans (hbyte 1))
    simp at this
  · intro hcovered
    constructor
    · intro heap heap' offset size
      have hw := hall (fun _ => True) heap (fun _ _ => trivial)
      have hw' := hall (fun _ => True) heap' (fun _ _ => trivial)
      refine tmpfsRead_congr (hw'.size.trans hw.size.symm) hw.data_none hw'.data_none ?_ offset size
      intro d d' hd hd' i hi
      have hne : ws.foldl record (fun _ => none) i ≠ none := by
        rw [Ne, hcov, not_not]
        exact hcovered i (hw.size ▸ hi)
      obtain ⟨b, hb⟩ := Option.ne_none_iff_exists'.mp hne
      have hle := hw.size_le
      have hle' := hw'.size_le
      have hsize := hw.size
      have hsize' := hw'.size
      rw [(hw.bytes d hd i (by omega)).1 b hb, (hw'.bytes d' hd' i (by omega)).1 b hb]
    · intro heap d i _ hi hnot
      have hw := hall (fun _ => True) heap (fun _ _ => trivial)
      exact absurd (hcovered i (hw.size ▸ hi)) hnot

/-- Two writes, the second of which fills the gap that the first leaves. -/
theorem reads_independent_filled : ReadsIndependent {} [(2, [7, 8]), (0, [5, 6])] := by
  refine (reads_independent_iff rfl rfl rfl (by decide) ?_).mpr ?_
  · intro heap
    exact ⟨Int.natCast_nonneg 2, Int.natCast_nonneg 2, trivial⟩
  · intro i hi
    have hi : i < 4 := hi
    by_cases h : i < 2
    · exact ⟨(0, [5, 6]), by simp, Nat.zero_le i, h⟩
    · exact ⟨(2, [7, 8]), by simp, not_lt.mp h, hi⟩

/-- One byte written at offset 1 of a fresh inode: byte 0 is whatever the heap held. -/
theorem reads_depend_on_heap : ¬ ReadsIndependent {} [(1, [7])] := by
  rintro ⟨hsame, _⟩
  have h := congrArg Prod.snd (hsame (fun _ _ => 0) (fun _ _ => 1) 0 1)
  exact absurd h (by decide +kernel)

end HeroOS.Inode
