import HeroOS.PrintkFormat
import HeroOS.TmpfsFile
import HeroOS.TmpfsFiles

/-! # `cat`

`builtin_cat` of the shell reads a file in pieces of 511 bytes into a buffer of 512, ends each piece with a
terminator and prints it as a string.

* `vfsRead_chunk`: a read inside the file returns the piece of the contents that it asks for;
* `cstr_chunk`: the string in the buffer is that piece, unless the piece has a NUL byte;
* `catLoop_eq`: from the offset `k` on the loop prints what is left of the contents behind `k`, and takes one step
  for each piece;
* `builtin_cat_outputs`: `cat` prints the contents of the file. -/

namespace HeroOS

open CString Word

/-- `printk` with a pointer to the string `s` as its argument; the pointer is not `NULL`. -/
def printk (fmt s : List UInt8) : Except Halt (List UInt8) := do
  let (_, st) ← vprintk (boundedString fmt) ⟨fun _ => 1, fun _ => s⟩ (fmt.length + 1) 0 .start
  .ok st.out

namespace Files

/-- The loop of `builtin_cat` from the offset `off` on, with the bytes of `buf` and what has been printed. -/
def catLoop (s : Files) (f : Option ℕ) : ℕ → ℤ → Buf → List UInt8 → Except Halt (List UInt8)
  | 0, _, _, _ => .error .outOfFuel
  | fuel + 1, off, buf, out => do
      let (n, bytes) ← s.vfsRead f off (512 - 1)
      if n > 0 then
        let buf := Function.update (memcpyTo buf 0 bytes) n.toNat 0
        let str ← cstr buf 512
        let text ← printk (ascii ['%', 's']) str
        catLoop s f fuel (toS64 (toU64 (off + n))) buf (out ++ text)
      else .ok out

/-- `builtin_cat`: the file system, what is printed, and the returned value.  `stale` and `buf` are the bytes that the
buffers of `vfs_resolve_path` and `builtin_cat` held before. -/
def builtinCat (s : Files) (fuel : ℕ) (stale buf : Buf) : List (List UInt8) → Except Halt (Files × List UInt8 × ℤ)
  | _ :: path :: _ => do
      match ← s.fs.vfsOpen stale path with
      | (fs, none) =>
          let text ← printk (ascii "cat: %s: No such file or directory\n".toList) path
          .ok ({ s with fs := fs }, text, 1)
      | (fs, some f) =>
          let out ← catLoop { s with fs := fs } (some f) fuel 0 buf []
          .ok ({ s with fs := (fs.vfsClose (some f)).1 }, out, 0)
  | _ => do
      let text ← printk (ascii "cat: missing file argument\n".toList) []
      .ok (s, text, 1)

/-- The file holds the bytes `c`, in an allocated block. -/
structure FileHolds (s : Files) (node : ℕ) (c : List UInt8) : Prop where
  length_lt : c.length < 2 ^ 64
  unallocated : (s.fs.inodes node).data = none → c = []
  bytes : ∀ d, (s.fs.inodes node).data = some d → c = (List.range (s.fs.inodes node).size).map d
  block : c ≠ [] → s.block node = true

end Files

variable {s : Files} {node fuel k n : ℕ} {c pre post t out : List UInt8} {buf : Buf}

/-! ### Printing a string -/

/-- A format with one `%s`. -/
theorem printk_string (hpre : ∀ b ∈ pre, b ≠ 0 ∧ b ≠ '%'.toUInt8) (hpost : ∀ b ∈ post, b ≠ 0 ∧ b ≠ '%'.toUInt8) :
    printk (pre ++ (ascii ['%', 's'] ++ post)) t = .ok (pre ++ t ++ post) := by
  have hpercent : NoNul (ascii ['%', 's']) := by decide +kernel
  have hnul : NoNul (pre ++ (ascii ['%', 's'] ++ post)) := by
    intro b hb
    rw [List.mem_append, List.mem_append] at hb
    obtain hb | hb | hb := hb
    · exact (hpre b hb).1
    · exact hpercent b hb
    · exact (hpost b hb).1
  have hconv : ascii ['%', 's'] ++ post = Piece.bytes (.conv false false [] .none .s) ++ post := by
    congr 1
  have hend : ∀ ap st, format ap post st = .ok (st.write post) := by
    intro ap st
    have h := @format_ordinaries [] post ap st (fun b hb => (hpost b hb).2)
    rw [List.append_nil, format] at h
    exact h
  unfold printk
  rw [vprintk_boundedString hnul (Nat.lt_succ_self _), format_ordinaries (fun b hb => (hpre b hb).2), hconv, format_piece, hend]
  rfl

/-- A string that is printed as it is. -/
theorem printk_percent_s (t : List UInt8) : printk (ascii ['%', 's']) t = .ok t := by
  have h := @printk_string [] [] t nofun nofun
  rwa [List.append_nil, List.nil_append, List.nil_append, List.append_nil] at h

/-- The string in a buffer into which a piece without a NUL byte has been copied. -/
theorem cstr_chunk (buf : Buf) (ht : NoNul t) (hlen : t.length < 512) :
    cstr (Function.update (memcpyTo buf 0 t) t.length 0) 512 = .ok t := by
  refine cstr_eq_ok_iff.mpr ⟨hlen, ht, fun j hj => ?_⟩
  by_cases hend : j = t.length
  · rw [hend, Function.update_self, List.getD_eq_default _ _ le_rfl]
  · rw [Function.update_of_ne hend, Inode.memcpyTo_apply buf (by omega) (by omega) (by omega),
      if_pos ⟨Nat.zero_le j, by omega⟩, Nat.sub_zero]

/-! ### Reading the pieces -/

namespace Files

/-- **`vfs_read`** from an offset that is not behind the end. -/
theorem vfsRead_chunk (h : s.FileHolds node c) (hk : k ≤ c.length) (hn : n < 2 ^ 63) :
    s.vfsRead (some node) (toS64 k) n = .ok (((min n (c.length - k) : ℕ) : ℤ), (c.drop k).take n) := by
  have hlt := h.length_lt
  have hread : (s.fs.inodes node).tmpfsRead (toS64 k) n = (((min n (c.length - k) : ℕ) : ℤ), (c.drop k).take n) := by
    unfold Inode.tmpfsRead
    cases hd : (s.fs.inodes node).data with
    | none =>
        rw [h.unallocated hd]
        simp
    | some d =>
        have hc := h.bytes d hd
        have hsize : c.length = (s.fs.inodes node).size := by
          rw [hc, List.length_map, List.length_range]
        dsimp only
        rw [toU64_toS64 (by omega), ← hsize]
        split
        · rw [List.drop_eq_nil_of_le (by omega), show c.length - k = 0 by omega, Nat.min_zero, List.take_nil]
          rfl
        · rw [toS64_of_lt (by omega)]
          refine Prod.ext rfl (List.ext_getElem? fun i => ?_)
          by_cases hi : i < min n (c.length - k)
          · rw [List.getElem?_map, List.getElem?_range hi, List.getElem?_take, if_pos (by omega), List.getElem?_drop]
            conv_rhs => rw [hc, List.getElem?_map, List.getElem?_range (by omega)]
            rfl
          · rw [List.getElem?_eq_none (by rw [List.length_map, List.length_range]; omega),
              List.getElem?_eq_none (by rw [List.length_take, List.length_drop]; omega)]
  unfold vfsRead
  dsimp only
  rw [hread]
  refine if_neg ?_
  rintro ⟨hne, _, hfreed⟩
  have hc : c ≠ [] := by
    rintro rfl
    rw [List.drop_nil, List.take_nil] at hne
    exact hne rfl
  rw [h.block hc] at hfreed
  cases hfreed

/-- The loop from the offset `k` on, with enough steps for the pieces that are left. -/
theorem catLoop_eq (h : s.FileHolds node c) (hnul : NoNul c) (hk : k ≤ c.length) (hn : c.length ≤ k + 511 * n) :
    s.catLoop (some node) (n + 1) (toS64 k) buf out = .ok (out ++ c.drop k) := by
  have hlt := h.length_lt
  induction n generalizing k buf out with
  | zero =>
      rw [catLoop, vfsRead_chunk h hk (by norm_num), show c.length - k = 0 by omega, Nat.min_zero,
        List.drop_eq_nil_of_le (by omega), List.append_nil]
      rfl
  | succ n ih =>
      obtain ⟨t, ht⟩ : ∃ t, t = (c.drop k).take 511 := ⟨_, rfl⟩
      have hlen : t.length = min 511 (c.length - k) := by
        rw [ht, List.length_take, List.length_drop]
      rw [catLoop, vfsRead_chunk h hk (by norm_num), ← ht, ← hlen]
      dsimp only [bind, Except.bind]
      by_cases hend : k = c.length
      · rw [if_neg (by omega), hend, List.drop_length, List.append_nil]
      · have hstring : cstr (Function.update (memcpyTo buf 0 t) t.length 0) 512 = .ok t := by
          refine cstr_chunk buf ?_ (by omega)
          rw [ht]
          exact (hnul.drop k).take 511
        have hoff : toS64 (toU64 (toS64 k + (t.length : ℤ))) = toS64 (k + t.length) := by
          unfold toU64 toS64
          split <;> split <;> omega
        rw [if_pos (by omega), Int.toNat_natCast, hstring]
        dsimp only
        rw [printk_percent_s]
        dsimp only
        have hsplit : t ++ c.drop (k + t.length) = c.drop k := by
          have htake : t = (c.drop k).take t.length := by
            rw [hlen, ← List.length_drop, ← List.take_eq_take_min, ht]
          rw [← List.drop_drop]
          conv_lhs =>
            enter [1]
            rw [htake]
          exact List.take_append_drop _ _
        rw [hoff, ih (by omega) (by omega), List.append_assoc, hsplit]

theorem FileHolds.setRefCount (h : s.FileHolds node c) (d n : ℕ) : FileHolds { s with fs := s.fs.setRefCount d n } node c := by
  have hinode : ((s.fs.setRefCount d n).inodes node).data = (s.fs.inodes node).data ∧
      ((s.fs.setRefCount d n).inodes node).size = (s.fs.inodes node).size := by
    unfold Tmpfs.setRefCount
    dsimp only
    by_cases hd : node = d
    · rw [hd, Function.update_self]
      exact ⟨rfl, rfl⟩
    · rw [Function.update_of_ne hd]
      exact ⟨rfl, rfl⟩
  refine ⟨h.length_lt, fun hd => ?_, fun d' hd => ?_, h.block⟩
  · exact h.unallocated (hinode.1.symm.trans hd)
  · rw [hinode.2]
    exact h.bytes d' (hinode.1.symm.trans hd)

/-- `cat` of a path that does not exist. -/
theorem builtinCat_not_found {stale : Buf} {name path : List UInt8} {rest : List (List UInt8)}
    (hpath : s.fs.resolve stale path = .ok none) : s.builtinCat fuel stale buf (name :: path :: rest) =
      .ok (s, ascii "cat: ".toList ++ path ++ ascii ": No such file or directory\n".toList, 1) := by
  have hopen : s.fs.vfsOpen stale path = .ok (s.fs, none) := by
    unfold Tmpfs.vfsOpen
    rw [hpath]
    rfl
  have hfmt : ascii "cat: %s: No such file or directory\n".toList =
      ascii "cat: ".toList ++ (ascii ['%', 's'] ++ ascii ": No such file or directory\n".toList) := by
    decide +kernel
  have htext := @printk_string (ascii "cat: ".toList) (ascii ": No such file or directory\n".toList) path
    (by decide +kernel) (by decide +kernel)
  unfold builtinCat
  dsimp only
  rw [hopen, hfmt]
  dsimp only [bind, Except.bind]
  rw [htext]

/-- `cat` prints the contents of the file, each byte once and in order, whatever its length. -/
theorem builtin_cat_outputs {stale : Buf} {name path : List UInt8} {rest : List (List UInt8)}
    (hpath : s.fs.resolve stale path = .ok (some node)) (hc : s.FileHolds node c) (hnul : NoNul c)
    (hfuel : c.length / 511 + 2 ≤ fuel) :
    ∃ s', s.builtinCat fuel stale buf (name :: path :: rest) = .ok (s', c, 0) := by
  obtain ⟨n, rfl⟩ : ∃ k, fuel = k + 1 := ⟨fuel - 1, by omega⟩
  have hopen : s.fs.vfsOpen stale path =
      .ok (s.fs.setRefCount node (((s.fs.inodes node).refCount + 1) % 2 ^ 32), some node) := by
    unfold Tmpfs.vfsOpen
    rw [hpath]
    rfl
  have hheld := hc.setRefCount node (((s.fs.inodes node).refCount + 1) % 2 ^ 32)
  have hloop := @catLoop_eq _ node 0 n c [] buf hheld hnul (Nat.zero_le _) (by omega)
  rw [show toS64 0 = 0 from rfl, List.drop_zero, List.nil_append] at hloop
  unfold builtinCat
  dsimp only
  rw [hopen]
  dsimp only [bind, Except.bind]
  rw [hloop]
  exact ⟨_, rfl⟩

/-- Letters that change where the second piece begins. -/
def letters : Buf := fun i => if i < 511 then 0x41 else 0x42

/-- A tmpfs with the file `/a` of 600 bytes. -/
def longFile : Files :=
  ⟨⟨Function.update (fun _ => { name := [0x61], size := 600, data := some letters, capacity := 1024 })
      1 { type := VFS_DIRECTORY, children := fun _ => 2, childCount := 1 }, fun _ => true, 3, 1⟩, fun _ => true, fun _ => 0⟩

theorem builtin_cat_two_pieces :
    ∃ s', longFile.builtinCat 3 (fun _ => 0) (fun _ => 0) [ascii ['c', 'a', 't'], ascii ['/', 'a']] =
      .ok (s', (List.range 600).map letters, 0) := by
  have hpath : longFile.fs.resolve (fun _ => 0) (ascii ['/', 'a']) = .ok (some 2) := by decide +kernel
  have hlen : ((List.range 600).map letters).length = 600 := by rw [List.length_map, List.length_range]
  have hholds : longFile.FileHolds 2 ((List.range 600).map letters) := by
    refine ⟨by rw [hlen]; norm_num, nofun, fun d hd => ?_, fun _ => rfl⟩
    obtain rfl : letters = d := Option.some.inj hd
    rfl
  have hnul : NoNul ((List.range 600).map letters) := by
    intro b hb
    obtain ⟨i, _, rfl⟩ := List.mem_map.mp hb
    unfold letters
    split <;> decide
  exact builtin_cat_outputs hpath hholds hnul (by rw [hlen])

end Files
end HeroOS
