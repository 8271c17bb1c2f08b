import HeroOS.Outcome

/-! # C strings

A C string is a list of non-zero bytes.  A buffer is a function from offsets to bytes, of which the
code may use the first few; it starts out with whatever the memory held.  `strncpy` fills a prefix
of a buffer and need not terminate it; `cstr` reads a string back and fails when there is no
terminator before the end of the buffer.

`strcmp` reads no further than the shorter string, so a string compares equal to a buffer exactly
when the buffer starts with its bytes and a terminator (`strcmpEq_iff`).

`strn` is what a bounded copy reads of a buffer: it stops at the terminator or at the bound.  Where
the buffer behind the bound holds a zero already, the copy is terminated (`cstr_strncpy`). -/

namespace HeroOS

/-- The bytes at an address, as far as anybody reads them. -/
abbrev Buf := ℕ → UInt8

namespace CString

/-- The bytes of a string and its terminator. -/
def ofList (s : List UInt8) : Buf := fun i => s.getD i 0

/-- `strncpy(dst, src, n)`: the string, cut at `n` bytes or padded with zeros to `n` bytes. -/
def strncpy (dst : Buf) (src : List UInt8) (n : ℕ) : Buf := fun i => if i < n then src.getD i 0 else dst i

/-- The string at offset `i` of a buffer that has `n` more bytes. -/
def cstrFrom (buf : Buf) : ℕ → ℕ → Except Halt (List UInt8)
  | 0, _ => .error .overrun
  | n + 1, i =>
      if buf i = 0 then .ok []
      else do
        let s ← cstrFrom buf n (i + 1)
        .ok (buf i :: s)

/-- The string in a buffer of `size` bytes. -/
def cstr (buf : Buf) (size : ℕ) : Except Halt (List UInt8) := cstrFrom buf size 0

/-- `strlen`, in a buffer of `size` bytes. -/
def strlen (buf : Buf) (size : ℕ) : Except Halt ℕ := do
  let s ← cstr buf size
  .ok s.length

/-- The string at offset `i` of a buffer, cut at `n` bytes. -/
def strnFrom (buf : Buf) : ℕ → ℕ → List UInt8
  | 0, _ => []
  | n + 1, i => if buf i = 0 then [] else buf i :: strnFrom buf n (i + 1)

/-- The string in a buffer, cut at `n` bytes: what `strncpy` reads of its source. -/
def strn (buf : Buf) (n : ℕ) : List UInt8 := strnFrom buf n 0

/-- `strncpy(dst, src, n)` from a buffer. -/
def strncpyBuf (dst src : Buf) (n : ℕ) : Buf := strncpy dst (strn src n) n

/-- `strcmp(a, b + i) == 0` -/
def strcmpEqFrom (b : Buf) : List UInt8 → ℕ → Bool
  | [], i => b i == 0
  | x :: xs, i => b i == x && strcmpEqFrom b xs (i + 1)

/-- `strcmp(a, b) == 0` -/
def strcmpEq (a : List UInt8) (b : Buf) : Bool := strcmpEqFrom b a 0

/-- The offset of the last `c` in a string: `strrchr`. -/
def strrchr (c : UInt8) : List UInt8 → Option ℕ
  | [] => none
  | x :: xs =>
      match strrchr c xs with
      | some i => some (i + 1)
      | none => if x = c then some 0 else none

/-- No byte of the string is the terminator. -/
def NoNul (s : List UInt8) : Prop := ∀ x ∈ s, x ≠ 0

instance (s : List UInt8) : Decidable (NoNul s) := inferInstanceAs (Decidable (∀ x ∈ s, x ≠ 0))

variable {a s : List UInt8} {b : Buf}

theorem NoNul.take (h : NoNul s) (n : ℕ) : NoNul (s.take n) := fun x hx => h x (List.mem_of_mem_take hx)

theorem NoNul.drop (h : NoNul s) (n : ℕ) : NoNul (s.drop n) := fun x hx => h x (List.mem_of_mem_drop hx)

theorem NoNul.nil : NoNul [] := by
  intro x hx
  cases hx

theorem NoNul.append_singleton (h : NoNul s) {c : UInt8} (hc : c ≠ 0) : NoNul (s ++ [c]) := by
  intro x hx
  rcases List.mem_append.mp hx with hx | hx
  · exact h x hx
  · rw [List.mem_singleton.mp hx]
    exact hc

theorem noNul_strnFrom (buf : Buf) (n i : ℕ) : NoNul (strnFrom buf n i) := by
  induction n generalizing i with
  | zero => exact .nil
  | succ n ih =>
      rw [strnFrom]
      split
      · exact .nil
      · rename_i hne
        intro x hx
        rcases List.mem_cons.mp hx with rfl | hx
        · exact hne
        · exact ih (i + 1) x hx

theorem length_strnFrom_le (buf : Buf) (n i : ℕ) : (strnFrom buf n i).length ≤ n := by
  induction n generalizing i with
  | zero => exact le_refl _
  | succ n ih =>
      rw [strnFrom]
      split
      · exact Nat.zero_le _
      · exact Nat.succ_le_succ (ih (i + 1))

theorem noNul_strn (buf : Buf) (n : ℕ) : NoNul (strn buf n) := noNul_strnFrom buf n 0

theorem length_strn_le (buf : Buf) (n : ℕ) : (strn buf n).length ≤ n := length_strnFrom_le buf n 0

theorem cstrFrom_eq_ok_iff {n i : ℕ} : cstrFrom b n i = .ok s ↔
    s.length < n ∧ NoNul s ∧ ∀ j ≤ s.length, b (i + j) = s.getD j 0 := by
  induction n generalizing i s with
  | zero => simp [cstrFrom]
  | succ n ih =>
      rw [cstrFrom]
      split
      · rename_i h0
        constructor
        · intro h
          cases h
          refine ⟨Nat.succ_pos n, .nil, fun j hj => ?_⟩
          have hj0 : j = 0 := Nat.le_zero.mp hj
          rw [hj0]
          exact h0
        · rintro ⟨_, hs, hb⟩
          cases s with
          | nil => rfl
          | cons x xs => exact absurd ((hb 0 (Nat.zero_le _)).symm.trans h0) (hs x List.mem_cons_self)
      · rename_i hne
        rw [bind_eq_ok]
        constructor
        · rintro ⟨xs, hxs, h⟩
          cases h
          obtain ⟨hlen, hn, hb⟩ := ih.mp hxs
          refine ⟨Nat.succ_lt_succ hlen, fun x hx => ?_, fun j hj => ?_⟩
          · rcases List.mem_cons.mp hx with rfl | hx
            · exact hne
            · exact hn x hx
          · cases j with
            | zero => rfl
            | succ j =>
                rw [List.getD_cons_succ, ← hb j (Nat.le_of_succ_le_succ hj)]
                exact congrArg b (by omega)
        · rintro ⟨hlen, hn, hb⟩
          cases s with
          | nil => exact absurd (hb 0 (le_refl _)) hne
          | cons x xs =>
              refine ⟨xs, ih.mpr ⟨Nat.lt_of_succ_lt_succ hlen, fun y hy => hn y (List.mem_cons_of_mem _ hy),
                fun j hj => ?_⟩, ?_⟩
              · have hj' := hb (j + 1) (Nat.succ_le_succ hj)
                rw [List.getD_cons_succ] at hj'
                rw [← hj']
                exact congrArg b (by omega)
              · have h0 : b i = x := hb 0 (Nat.zero_le _)
                rw [h0]

/-- A string depends on the bytes that may be read. -/
theorem cstrFrom_congr {b' : Buf} {n i : ℕ} (h : ∀ j, i ≤ j → j < i + n → b' j = b j) :
    cstrFrom b' n i = cstrFrom b n i := by
  induction n generalizing i with
  | zero => rfl
  | succ n ih =>
      have h0 : b' i = b i := h i (le_refl i) (by omega)
      have hrest : cstrFrom b' n (i + 1) = cstrFrom b n (i + 1) := ih fun j hj hlt => h j (by omega) (by omega)
      rw [cstrFrom, cstrFrom, h0, hrest]

/-- A buffer holds a string when its first bytes are those of the string and its terminator. -/
theorem cstr_eq_ok_iff {size : ℕ} : cstr b size = .ok s ↔
    s.length < size ∧ NoNul s ∧ ∀ j ≤ s.length, b j = s.getD j 0 := by
  rw [cstr, cstrFrom_eq_ok_iff]
  simp only [Nat.zero_add]

theorem strnFrom_of_cstrFrom {m n i : ℕ} (h : cstrFrom b m i = .ok s) (hn : s.length ≤ n) :
    strnFrom b n i = s := by
  induction m generalizing n i s with
  | zero => cases h
  | succ m ih =>
      rw [cstrFrom] at h
      split at h
      · rename_i h0
        cases h
        cases n with
        | zero => rfl
        | succ n => rw [strnFrom, if_pos h0]
      · rename_i hne
        obtain ⟨xs, hxs, h⟩ := bind_eq_ok.mp h
        cases h
        cases n with
        | zero => exact absurd hn (by simp)
        | succ n => rw [strnFrom, if_neg hne, ih hxs (Nat.le_of_succ_le_succ hn)]

/-- A bounded copy of a string that fits reads all of it. -/
theorem strn_of_cstr {size n : ℕ} (h : cstr b size = .ok s) (hn : s.length ≤ n) : strn b n = s :=
  strnFrom_of_cstrFrom h hn

/-- A bounded copy leaves the byte behind the bound alone. -/
theorem strncpyBuf_end (dst src : Buf) (n : ℕ) : strncpyBuf dst src n n = dst n := if_neg (lt_irrefl n)

/-- A bounded copy with a terminator behind it reads as the bounded string. -/
theorem cstr_strncpyBuf (dst src : Buf) {n size : ℕ} (hn : n < size) :
    cstr (Function.update (strncpyBuf dst src n) n 0) size = .ok (strn src n) := by
  have hlen := length_strn_le src n
  refine cstr_eq_ok_iff.mpr ⟨by omega, noNul_strn src n, fun j hj => ?_⟩
  by_cases hjn : j = n
  · subst hjn
    rw [Function.update_self, List.getD_eq_default _ _ hlen]
  · have hlt : j < n := by omega
    rw [Function.update_of_ne hjn, strncpyBuf, strncpy, if_pos hlt]

theorem strnFrom_ofList (hs : NoNul s) (n i : ℕ) : strnFrom (ofList s) n i = (s.drop i).take n := by
  induction n generalizing i with
  | zero => rfl
  | succ n ih =>
      rw [strnFrom, ih]
      by_cases hi : i < s.length
      · have hbyte : ofList s i = s[i] := List.getD_eq_getElem _ _ hi
        rw [hbyte, if_neg (hs _ (List.getElem_mem hi)), List.drop_eq_getElem_cons hi, List.take_succ_cons]
      · have hle : s.length ≤ i := not_lt.mp hi
        have hzero : ofList s i = 0 := List.getD_eq_default _ _ hle
        rw [if_pos hzero, List.drop_eq_nil_of_le hle, List.take_nil]

/-- What a bounded copy reads of a string. -/
theorem strn_ofList (hs : NoNul s) (n : ℕ) : strn (ofList s) n = s.take n := strnFrom_ofList hs n 0

/-- A bounded copy is terminated when the byte behind it is zero. -/
theorem cstr_strncpy {dst : Buf} {n size : ℕ} (hs : NoNul s) (hlen : s.length ≤ n) (hn : n < size)
    (h0 : dst n = 0) : cstr (strncpy dst s n) size = .ok s := by
  refine cstr_eq_ok_iff.mpr ⟨by omega, hs, fun j hj => ?_⟩
  unfold strncpy
  split
  · rfl
  · have hj : j = n := by omega
    have hle : s.length ≤ n := hlen
    rw [hj, h0, List.getD_eq_default _ _ hle]

/-- A character behind the last one. -/
theorem cstr_push {size : ℕ} (h : cstr b size = .ok s) {c : UInt8} (hc : c ≠ 0) (hlt : s.length + 1 < size) :
    cstr (Function.update (Function.update b s.length c) (s.length + 1) 0) size = .ok (s ++ [c]) := by
  obtain ⟨_, hs, hb⟩ := cstr_eq_ok_iff.mp h
  refine cstr_eq_ok_iff.mpr ⟨by simpa using hlt, hs.append_singleton hc, fun j hj => ?_⟩
  rw [List.length_append, List.length_singleton] at hj
  rcases Nat.lt_trichotomy j s.length with hlt | rfl | hgt
  · have h1 : j ≠ s.length + 1 := by omega
    have h2 : j ≠ s.length := by omega
    rw [Function.update_of_ne h1, Function.update_of_ne h2, hb j hlt.le, List.getD_append _ _ _ _ hlt]
  · have h1 : s.length ≠ s.length + 1 := by omega
    rw [Function.update_of_ne h1, Function.update_self, List.getD_append_right _ _ _ _ (le_refl _), Nat.sub_self]
    rfl
  · have hj : j = s.length + 1 := by omega
    rw [hj, Function.update_self, List.getD_eq_default]
    rw [List.length_append, List.length_singleton]

/-- A zero in a string cuts it. -/
theorem cstr_cut {size n : ℕ} (h : cstr b size = .ok s) (hn : n ≤ s.length) :
    cstr (Function.update b n 0) size = .ok (s.take n) := by
  obtain ⟨hlt, hs, hb⟩ := cstr_eq_ok_iff.mp h
  have hlen : (s.take n).length = n := List.length_take_of_le hn
  refine cstr_eq_ok_iff.mpr ⟨by omega, hs.take n, fun j hj => ?_⟩
  rw [hlen] at hj
  rcases Nat.lt_or_eq_of_le hj with hj | rfl
  · have hjs : j < s.length := by omega
    have hjt : j < (s.take n).length := by omega
    rw [Function.update_of_ne hj.ne, hb j hjs.le, List.getD_eq_getElem _ _ hjs, List.getD_eq_getElem _ _ hjt,
      List.getElem_take]
  · have hle : (s.take j).length ≤ j := by omega
    rw [Function.update_self, List.getD_eq_default _ _ hle]

theorem strcmpEqFrom_ofList (ha : NoNul a) (hs : NoNul s) (i : ℕ) :
    strcmpEqFrom (ofList s) a i = true ↔ a = s.drop i := by
  induction a generalizing i with
  | nil =>
      simp only [strcmpEqFrom, ofList, beq_iff_eq]
      constructor
      · intro h
        by_contra hne
        have hlt : i < s.length := by
          by_contra hge
          exact hne (List.drop_eq_nil_of_le (not_lt.mp hge)).symm
        rw [List.getD_eq_getElem _ _ hlt] at h
        exact hs _ (List.getElem_mem hlt) h
      · intro h
        have hle : s.length ≤ i := List.drop_eq_nil_iff.mp h.symm
        exact List.getD_eq_default _ _ hle
  | cons x xs ih =>
      have hx : x ≠ 0 := ha x List.mem_cons_self
      have hxs : NoNul xs := fun y hy => ha y (List.mem_cons_of_mem _ hy)
      rw [strcmpEqFrom, Bool.and_eq_true, ih hxs, beq_iff_eq]
      by_cases hlt : i < s.length
      · rw [List.drop_eq_getElem_cons hlt, List.cons.injEq]
        refine and_congr_left fun _ => ?_
        rw [ofList, List.getD_eq_getElem _ _ hlt]
        exact eq_comm
      · have hle : s.length ≤ i := not_lt.mp hlt
        rw [List.drop_eq_nil_of_le hle, ofList, List.getD_eq_default _ _ hle]
        simp [hx.symm]

/-- Two strings compare equal exactly when they are equal. -/
theorem strcmpEq_iff (ha : NoNul a) (hs : NoNul s) : strcmpEq a (ofList s) = true ↔ a = s :=
  strcmpEqFrom_ofList ha hs 0

theorem strcmpEqFrom_strncpy (dst : Buf) (pre a : List UInt8) {n : ℕ} (h : pre.length + a.length < n) :
    strcmpEqFrom (strncpy dst (pre ++ a) n) a pre.length = true := by
  induction a generalizing pre with
  | nil =>
      rw [List.length_nil, Nat.add_zero] at h
      simp [strcmpEqFrom, strncpy, h]
  | cons x xs ih =>
      rw [List.length_cons] at h
      have hrest := ih (pre ++ [x]) (by rw [List.length_append, List.length_singleton]; omega)
      rw [List.append_assoc, List.singleton_append, List.length_append, List.length_singleton] at hrest
      rw [strcmpEqFrom, hrest, Bool.and_true]
      simp [strncpy, show pre.length < n by omega]

/-- A string that was copied with room for its terminator compares equal to its copy. -/
theorem strcmpEq_strncpy (dst : Buf) {n : ℕ} (h : a.length < n) : strcmpEq a (strncpy dst a n) = true :=
  strcmpEqFrom_strncpy dst [] a (by rwa [List.length_nil, Nat.zero_add])

end CString
end HeroOS
