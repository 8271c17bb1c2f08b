import HeroOS.CString
import HeroOS.KheapWrap
import HeroOS.Memmove

/-! # The string functions on memory

The loops of `lib/string.c` over two pointers, which wrap, and which may lead into the same bytes.

* `memcpy_eq_memmove_iff`: the ranges that `memcpy` copies as `memmove` does;
* `strcpy_ends_iff`, `strcat_ends_iff`: a copy overwrites the terminator that it runs towards, and never ends, exactly
  when it starts behind the beginning of its source and not behind its terminator;
* `strcmp_order`, `strncmp_order`, `memcmp_order`: the sign of a comparison is the lexicographic order of bytes. -/

namespace HeroOS.StringLoops

open CString Word

/-! ### The functions -/

/-- `memcpy`: the first loop of `memmove`. -/
def memcpy (m : Mem) (dst src n : ℕ) : Mem := Memmove.forwardLoop m dst src n

/-- `memset` -/
def memset (m : Mem) (dst : ℕ) (c : ℤ) : ℕ → Mem
  | 0 => m
  | n + 1 => memset (m.write8 dst (UInt8.ofInt c)) (wadd dst 1) c n

/-- `while (*s++) n++;` -/
def strlenLoop (m : Mem) : ℕ → ℕ → ℕ → Except Halt ℕ
  | 0, _, _ => .error .outOfFuel
  | fuel + 1, s, n => if m s = 0 then .ok n else strlenLoop m fuel (wadd s 1) (wadd n 1)

/-- `strlen` -/
def strlen (fuel : ℕ) (m : Mem) (s : ℕ) : Except Halt ℕ := strlenLoop m fuel s 0

/-- `while (n < max && s[n]) n++;`, with `left` more bytes up to `max`. -/
def strnlenLoop (m : Mem) (s : ℕ) : ℕ → ℕ → ℕ
  | 0, n => n
  | left + 1, n => if m (wadd s n) = 0 then n else strnlenLoop m s left (n + 1)

/-- `strnlen` -/
def strnlen (m : Mem) (s max : ℕ) : ℕ := strnlenLoop m s max 0

/-- `while ((*d++ = *src++));` -/
def copyLoop : ℕ → Mem → ℕ → ℕ → Except Halt Mem
  | 0, _, _, _ => .error .outOfFuel
  | fuel + 1, m, d, s =>
      if m s = 0 then .ok (m.write8 d (m s)) else copyLoop fuel (m.write8 d (m s)) (wadd d 1) (wadd s 1)

/-- `strcpy` -/
def strcpy (fuel : ℕ) (m : Mem) (dst src : ℕ) : Except Halt Mem := copyLoop fuel m dst src

/-- `for (i = 0; i < n && src[i]; i++) dst[i] = src[i];`, with `left` more bytes up to `n`. -/
def strncpyLoop (dst src : ℕ) : ℕ → Mem → ℕ → Mem × ℕ
  | 0, m, i => (m, i)
  | left + 1, m, i =>
      if m (wadd src i) = 0 then (m, i) else strncpyLoop dst src left (m.write8 (wadd dst i) (m (wadd src i))) (i + 1)

/-- `for (; i < n; i++) dst[i] = '\0';`, with `left` more bytes up to `n`. -/
def padLoop (dst : ℕ) : ℕ → Mem → ℕ → Mem
  | 0, m, _ => m
  | left + 1, m, i => padLoop dst left (m.write8 (wadd dst i) 0) (i + 1)

/-- `strncpy` -/
def strncpy (m : Mem) (dst src n : ℕ) : Mem :=
  let r := strncpyLoop dst src n m 0
  padLoop dst (n - r.2) r.1 r.2

/-- `strcat` -/
def strcat (fuel : ℕ) (m : Mem) (dst src : ℕ) : Except Halt Mem := do
  let n ← strlen fuel m dst
  copyLoop fuel m (wadd dst n) src

/-- `while (n-- && *src) *d++ = *src++;` and the terminator behind it. -/
def strncatLoop : ℕ → Mem → ℕ → ℕ → Mem
  | 0, m, d, _ => m.write8 d 0
  | n + 1, m, d, s => if m s = 0 then m.write8 d 0 else strncatLoop n (m.write8 d (m s)) (wadd d 1) (wadd s 1)

/-- `strncat` -/
def strncat (fuel : ℕ) (m : Mem) (dst src n : ℕ) : Except Halt Mem := do
  let len ← strlen fuel m dst
  .ok (strncatLoop n m (wadd dst len) src)

/-- `strcmp` -/
def strcmp (m : Mem) : ℕ → ℕ → ℕ → Except Halt ℤ
  | 0, _, _ => .error .outOfFuel
  | fuel + 1, a, b =>
      if m a ≠ 0 ∧ m a = m b then strcmp m fuel (wadd a 1) (wadd b 1) else .ok ((m a).toNat - (m b).toNat)

/-- `strncmp` -/
def strncmp (m : Mem) (a b : ℕ) : ℕ → ℤ
  | 0 => 0
  | n + 1 =>
      if m a ≠ 0 ∧ m a = m b then strncmp m (wadd a 1) (wadd b 1) n else (m a).toNat - (m b).toNat

/-- `memcmp` -/
def memcmp (m : Mem) (p q : ℕ) : ℕ → ℤ
  | 0 => 0
  | n + 1 => if m p ≠ m q then (m p).toNat - (m q).toNat else memcmp m (wadd p 1) (wadd q 1) n

/-- `strdup` -/
def strdup (fuel : ℕ) (h : Heap) (s : ℕ) : Except Halt (Heap × ℕ) := do
  let len ← strlen fuel h.mem s
  let (h, copy) ← h.kmalloc fuel (wadd len 1)
  if copy ≠ 0 then .ok ({ h with mem := memcpy h.mem copy s (wadd len 1) }, copy) else .ok (h, copy)

/-! ### Strings in memory -/

/-- The string `s` lies at `a`, with its terminator. -/
structure CStrAt (m : Mem) (a : ℕ) (s : List UInt8) : Prop where
  noNul : NoNul s
  bytes : ∀ i ≤ s.length, m (a + i) = s.getD i 0
  fits : a + s.length < 2 ^ 64

variable {m m' : Mem} {a b d dst src n k fuel : ℕ} {s t : List UInt8} {x : UInt8}

theorem CStrAt.nil (h : CStrAt m a []) : m a = 0 := h.bytes 0 le_rfl

theorem CStrAt.head (h : CStrAt m a (x :: s)) : m a = x ∧ x ≠ 0 := ⟨h.bytes 0 (Nat.zero_le _), h.noNul x List.mem_cons_self⟩

theorem CStrAt.tail (h : CStrAt m a (x :: s)) : CStrAt m (a + 1) s := by
  refine ⟨fun y hy => h.noNul y (List.mem_cons_of_mem _ hy), fun i hi => ?_, ?_⟩
  · have hbyte := h.bytes (i + 1) (Nat.succ_le_succ hi)
    rw [Nat.add_assoc, Nat.add_comm 1 i, hbyte, List.getD_cons_succ]
  · have hfits := h.fits
    rw [List.length_cons] at hfits
    omega

/-- The pointer behind the first byte. -/
theorem CStrAt.next (h : CStrAt m a (x :: s)) : wadd a 1 = a + 1 := by
  have hfits := h.fits
  rw [List.length_cons] at hfits
  exact wadd_of_lt (by omega)

/-- A string is where its bytes are kept. -/
theorem CStrAt.congr (h : CStrAt m a s) (hm : ∀ y, a ≤ y → y ≤ a + s.length → m' y = m y) : CStrAt m' a s :=
  ⟨h.noNul, fun i hi => (hm (a + i) (Nat.le_add_right a i) (Nat.add_le_add_left hi a)).trans (h.bytes i hi), h.fits⟩

theorem CStrAt.write8 (h : CStrAt m a s) {y : ℕ} (hy : y < a ∨ a + s.length < y) (c : UInt8) : CStrAt (m.write8 y c) a s :=
  h.congr fun z h1 h2 => Mem.write8_of_ne (by omega)

/-- The bytes of two strings that end at the same terminator. -/
theorem CStrAt.end_unique (ha : CStrAt m a s) (hb : CStrAt m b t) (h1 : a ≤ b + t.length) (h2 : b + t.length ≤ a + s.length) :
    b + t.length = a + s.length := by
  by_contra hne
  obtain ⟨i, hi⟩ : ∃ i, b + t.length = a + i := ⟨b + t.length - a, by omega⟩
  have hlt : i < s.length := by omega
  have hzero : m (b + t.length) = 0 := (hb.bytes t.length le_rfl).trans (List.getD_eq_default t 0 le_rfl)
  have hbyte := ha.bytes i hlt.le
  rw [← hi, hzero, List.getD_eq_getElem s 0 hlt] at hbyte
  exact ha.noNul _ (List.getElem_mem hlt) hbyte.symm

/-- **`strlen`** ends at the terminator. -/
theorem strlen_eq (h : CStrAt m a s) : strlen fuel m a = if s.length < fuel then .ok s.length else .error .outOfFuel := by
  have hloop : ∀ fuel n, n + s.length < 2 ^ 64 →
      strlenLoop m fuel a n = if s.length < fuel then .ok (n + s.length) else .error .outOfFuel := by
    induction s generalizing a with
    | nil =>
        intro fuel n _
        cases fuel with
        | zero => rfl
        | succ fuel =>
            rw [strlenLoop, if_pos h.nil]
            simp
    | cons x s ih =>
        intro fuel n hn
        cases fuel with
        | zero => rfl
        | succ fuel =>
            rw [List.length_cons] at hn ⊢
            rw [strlenLoop, if_neg (h.head.1 ▸ h.head.2), h.next, wadd_of_lt (by omega : n + 1 < 2 ^ 64),
              ih h.tail fuel (n + 1) (by omega), Nat.add_assoc, Nat.add_comm 1 s.length]
            simp
  have hfits := h.fits
  have hzero := hloop fuel 0 (by omega)
  rwa [Nat.zero_add] at hzero

/-! ### Copying without end -/

/-- The `n` bytes from `s` on are not zero; addresses wrap. -/
def Window (m : Mem) (s n : ℕ) : Prop := ∀ i < n, m (wadd s i) ≠ 0

theorem wadd_wadd (a i j : ℕ) : wadd (wadd a i) j = wadd a (i + j) := by
  unfold wadd
  rw [Nat.mod_add_mod, Nat.add_assoc]

/-- The byte that is copied to the end of the window is not zero either. -/
theorem Window.step (h : Window m (wadd a 0) n) (h0 : 0 < n) (hn : n < 2 ^ 64) :
    Window (m.write8 (wadd a n) (m (wadd a 0))) (wadd a 1) n := by
  intro i hi
  rw [wadd_wadd, Nat.add_comm 1 i]
  by_cases hend : i + 1 = n
  · rw [hend, Mem.write8_same]
    have hfirst := h 0 h0
    rwa [wadd_wadd] at hfirst
  · have hne : wadd a (i + 1) ≠ wadd a n := by
      unfold wadd
      omega
    have hin := h (i + 1) (by omega)
    rw [wadd_wadd, Nat.zero_add] at hin
    rwa [Mem.write8_of_ne hne]

/-- **A copy into what it reads next never ends**: it runs behind a window without a zero. -/
theorem copyLoop_endless (h : Window m (wadd a 0) n) (h0 : 0 < n) (hn : n < 2 ^ 64) :
    copyLoop fuel m (wadd a n) (wadd a 0) = .error .outOfFuel := by
  induction fuel generalizing m a with
  | zero => rfl
  | succ fuel ih =>
      have hfirst : m (wadd a 0) ≠ 0 := by
        have hin := h 0 h0
        rwa [wadd_wadd] at hin
      have hstep := ih (a := wadd a 1) (m := m.write8 (wadd a n) (m (wadd a 0))) (by
        rw [wadd_wadd]
        exact h.step h0 hn)
      rw [wadd_wadd, wadd_wadd, Nat.add_comm 1 n] at hstep
      rw [copyLoop, if_neg hfirst, wadd_wadd, wadd_wadd]
      exact hstep

/-! ### Copying a string -/

/-- The memory with a string and its terminator at `d`. -/
def placed (m : Mem) (d : ℕ) (s : List UInt8) : Mem := fun y => if d ≤ y ∧ y ≤ d + s.length then s.getD (y - d) 0 else m y

theorem placed_of_outside {y : ℕ} (h : y < d ∨ d + s.length < y) : placed m d s y = m y := if_neg (by omega)

theorem placed_apply {i : ℕ} (h : i ≤ s.length) : placed m d s (d + i) = s.getD i 0 := by
  unfold placed
  rw [if_pos ⟨Nat.le_add_right d i, Nat.add_le_add_left h d⟩, Nat.add_sub_cancel_left]

theorem placed_nil (m : Mem) (d : ℕ) : placed m d [] = m.write8 d 0 := by
  funext y
  unfold placed Mem.write8
  by_cases h : y = d
  · simp [h]
  · rw [if_neg (by simp only [List.length_nil]; omega), if_neg h]

theorem placed_cons (m : Mem) (d : ℕ) (x : UInt8) (s : List UInt8) : placed m d (x :: s) = placed (m.write8 d x) (d + 1) s := by
  funext y
  unfold placed Mem.write8
  rw [List.length_cons]
  by_cases h : y = d
  · rw [if_pos (by omega), if_neg (by omega), if_pos h, h, Nat.sub_self]
    rfl
  · by_cases hin : d ≤ y ∧ y ≤ d + (s.length + 1)
    · rw [if_pos hin, if_pos (by omega), show y - d = y - (d + 1) + 1 by omega, List.getD_cons_succ]
    · rw [if_neg hin, if_neg (by omega), if_neg h]

/-- A string that has been placed. -/
theorem cstrAt_placed (hs : NoNul s) (hd : d + s.length < 2 ^ 64) : CStrAt (placed m d s) d s :=
  ⟨hs, fun _ hi => placed_apply hi, hd⟩

/-- A copy that does not start within the string that it reads. -/
theorem copyLoop_eq (h : CStrAt m src s) (hd : d + s.length < 2 ^ 64) (hapart : ¬ (src < d ∧ d ≤ src + s.length)) :
    copyLoop fuel m d src = if s.length < fuel then .ok (placed m d s) else .error .outOfFuel := by
  induction s generalizing m d src fuel with
  | nil =>
      cases fuel with
      | zero => rfl
      | succ fuel =>
          rw [copyLoop, if_pos h.nil, h.nil, placed_nil]
          simp
  | cons x s ih =>
      cases fuel with
      | zero => rfl
      | succ fuel =>
          obtain ⟨hx, hx0⟩ := h.head
          rw [List.length_cons] at hd hapart ⊢
          have htail : CStrAt (m.write8 d x) (src + 1) s := h.tail.write8 (by omega) x
          rw [copyLoop, hx, if_neg hx0, h.next, wadd_of_lt (by omega), ih htail (by omega) (by omega), placed_cons]
          simp

/-- The bytes of a string before a place within it are a window. -/
theorem CStrAt.window (h : CStrAt m src s) (hd : d ≤ s.length) : Window m (wadd src 0) d := by
  have hfits := h.fits
  intro i hi
  have hlt : i < s.length := by omega
  rw [wadd_wadd, Nat.zero_add, wadd_of_lt (by omega), h.bytes i hlt.le, List.getD_eq_getElem s 0 hlt]
  exact h.noNul _ (List.getElem_mem hlt)

/-- The copy of a string, for every place of its destination. -/
theorem copyLoop_cases (h : CStrAt m src s) (hd : d + s.length < 2 ^ 64) :
    copyLoop fuel m d src =
      if ¬ (src < d ∧ d ≤ src + s.length) ∧ s.length < fuel then .ok (placed m d s) else .error .outOfFuel := by
  by_cases hin : src < d ∧ d ≤ src + s.length
  · rw [if_neg fun hn => hn.1 hin]
    have hfits := h.fits
    have hsrc : wadd src 0 = src := wadd_of_lt (by omega)
    have hdst : wadd src (d - src) = d := by
      rw [wadd_of_lt (by omega)]
      omega
    have hloop : copyLoop fuel m (wadd src (d - src)) (wadd src 0) = .error .outOfFuel :=
      copyLoop_endless (h.window (by omega)) (by omega) (by omega)
    rwa [hdst, hsrc] at hloop
  · rw [copyLoop_eq h hd hin]
    simp [hin]

/-- **`strcpy`** ends exactly when the destination does not lie behind the beginning of the source, up to its
terminator.  Then the string lies at the destination, and nothing else has changed. -/
theorem strcpy_ends_iff (h : CStrAt m src s) (hd : dst + s.length < 2 ^ 64) :
    ((∃ fuel m', strcpy fuel m dst src = .ok m') ↔ ¬ (src < dst ∧ dst ≤ src + s.length)) ∧
      ∀ fuel m', strcpy fuel m dst src = .ok m' →
        CStrAt m' dst s ∧ ∀ y, y ∉ Set.Icc dst (dst + s.length) → m' y = m y := by
  unfold strcpy
  constructor
  · constructor
    · rintro ⟨fuel, m', hm'⟩ hin
      rw [copyLoop_cases h hd, if_neg fun hn => hn.1 hin] at hm'
      cases hm'
    · intro hout
      exact ⟨s.length + 1, placed m dst s, (copyLoop_cases h hd).trans (if_pos ⟨hout, Nat.lt_succ_self _⟩)⟩
  · intro fuel m' hm'
    rw [copyLoop_cases h hd] at hm'
    split at hm'
    · cases hm'
      refine ⟨cstrAt_placed h.noNul hd, fun y hy => placed_of_outside ?_⟩
      rw [Set.mem_Icc] at hy
      omega
    · cases hm'

/-- The string `ab` at 100. -/
def abAt100 : Mem := placed (fun _ => 0) 100 [0x61, 0x62]

theorem cstrAt_abAt100 : CStrAt abAt100 100 [0x61, 0x62] := cstrAt_placed (by simp [NoNul]) (by norm_num)

/-- It cannot be moved up by one. -/
theorem strcpy_ends_iff_overlap : ¬ ∃ fuel m', strcpy fuel abAt100 101 100 = .ok m' :=
  fun h => (strcpy_ends_iff cstrAt_abAt100 (by norm_num)).1.mp h (by simp)

/-- A string that starts at the end of another one or before it, and reaches behind it, shares its terminator. -/
theorem shared_iff (ha : CStrAt m dst s) (hb : CStrAt m src t) :
    src < dst + s.length ∧ dst + s.length ≤ src + t.length ↔ ¬ (t = [] ∨ src + t.length ≠ dst + s.length) := by
  have hempty : t = [] ↔ t.length = 0 := List.length_eq_zero_iff.symm
  rw [hempty, not_or, not_not]
  constructor
  · rintro ⟨h1, h2⟩
    have hend := hb.end_unique ha h1.le h2
    omega
  · intro h
    omega

/-- A string placed behind another one. -/
theorem cstrAt_append (ha : CStrAt m dst s) (ht : NoNul t) (hd : dst + s.length + t.length < 2 ^ 64) :
    CStrAt (placed m (dst + s.length) t) dst (s ++ t) := by
  refine ⟨fun x hx => (List.mem_append.mp hx).elim (ha.noNul x) (ht x), fun i hi => ?_, ?_⟩
  · rw [List.length_append] at hi
    by_cases hlt : i < s.length
    · rw [placed_of_outside (by omega), ha.bytes i hlt.le, List.getD_append _ _ _ _ hlt]
    · rw [List.getD_append_right _ _ _ _ (by omega), ← placed_apply (m := m) (d := dst + s.length) (by omega)]
      congr 1
      omega
  · rw [List.length_append]
    omega

/-- **`strcat`** ends exactly when it appends the empty string, or the two strings do not end at the same terminator.
Then the destination holds both, and nothing else has changed. -/
theorem strcat_ends_iff (ha : CStrAt m dst s) (hb : CStrAt m src t) (hd : dst + s.length + t.length < 2 ^ 64) :
    ((∃ fuel m', strcat fuel m dst src = .ok m') ↔ t = [] ∨ src + t.length ≠ dst + s.length) ∧
      ∀ fuel m', strcat fuel m dst src = .ok m' →
        CStrAt m' dst (s ++ t) ∧ ∀ y, y ∉ Set.Icc (dst + s.length) (dst + s.length + t.length) → m' y = m y := by
  have hstrcat : ∀ fuel, strcat fuel m dst src = if s.length < fuel then copyLoop fuel m (dst + s.length) src else .error .outOfFuel := by
    intro fuel
    unfold strcat
    rw [strlen_eq ha]
    split
    · rw [← wadd_of_lt ha.fits]
      rfl
    · rfl
  have hcopy : ∀ fuel, copyLoop fuel m (dst + s.length) src =
      if (t = [] ∨ src + t.length ≠ dst + s.length) ∧ t.length < fuel then .ok (placed m (dst + s.length) t) else .error .outOfFuel := by
    intro fuel
    rw [copyLoop_cases hb hd]
    simp only [shared_iff ha hb, not_not]
  constructor
  · constructor
    · rintro ⟨fuel, m', hm'⟩
      rw [hstrcat, hcopy] at hm'
      split_ifs at hm' with _ hends
      exact hends.1
    · intro hends
      refine ⟨s.length + t.length + 1, placed m (dst + s.length) t, ?_⟩
      rw [hstrcat, if_pos (by omega), hcopy, if_pos ⟨hends, by omega⟩]
  · intro fuel m' hm'
    rw [hstrcat, hcopy] at hm'
    split_ifs at hm' with _ hends
    cases hm'
    refine ⟨cstrAt_append ha hb.noNul hd, fun y hy => placed_of_outside ?_⟩
    rw [Set.mem_Icc] at hy
    omega

/-- A string is never appended to itself. -/
theorem strcat_ends_iff_self : ¬ ∃ fuel m', strcat fuel abAt100 100 100 = .ok m' := by
  intro h
  rcases (strcat_ends_iff cstrAt_abAt100 cstrAt_abAt100 (by decide)).1.mp h with h | h
  · cases h
  · exact h rfl

/-! ### Copying a number of bytes -/

theorem succ_mod (i : ℕ) {k : ℕ} (hk : 0 < k) : (i + 1) % k = if i % k + 1 = k then 0 else i % k + 1 := by
  have hlt := Nat.mod_lt i hk
  have hsplit : (i + 1) % k = (i % k + 1) % k := (Nat.mod_add_mod i k 1).symm
  rw [hsplit]
  split
  · rename_i h
    rw [h, Nat.mod_self]
  · exact Nat.mod_eq_of_lt (by omega)

/-- A copy to a place behind its source repeats the bytes between the two places. -/
theorem memcpy_repeats {m : Mem} {d s : ℕ} (hlt : s < d) (hd : d + n ≤ 2 ^ 64) (y : ℕ) :
    memcpy m d s n y = if d ≤ y ∧ y < d + n then m (s + (y - d) % (d - s)) else m y := by
  unfold memcpy
  induction n generalizing m d s with
  | zero =>
      rw [if_neg (by omega)]
      rfl
  | succ n ih =>
      have hfirst : m.write8 d (m s) y = if y = d then m s else m y := rfl
      rcases Nat.eq_zero_or_pos n with rfl | hn
      · rw [Memmove.forwardLoop, Memmove.forwardLoop, hfirst]
        by_cases hy : y = d
        · rw [if_pos hy, if_pos (by omega), hy, Nat.sub_self, Nat.zero_mod, Nat.add_zero]
        · rw [if_neg hy, if_neg (by omega)]
      · rw [Memmove.forwardLoop, wadd_of_lt (by omega), wadd_of_lt (by omega), ih (by omega) (by omega), Nat.add_sub_add_right]
        by_cases hy : d + 1 ≤ y ∧ y < d + 1 + n
        · obtain ⟨i, rfl⟩ : ∃ i, y = d + 1 + i := ⟨y - (d + 1), by omega⟩
          have hmod : i % (d - s) < d - s := Nat.mod_lt i (by omega)
          have hnext : m.write8 d (m s) (s + 1 + i % (d - s)) = if s + 1 + i % (d - s) = d then m s else m (s + 1 + i % (d - s)) := rfl
          rw [if_pos hy, if_pos (by omega), Nat.add_sub_cancel_left, show d + 1 + i - d = i + 1 by omega, succ_mod i (by omega),
            hnext]
          by_cases hwrap : i % (d - s) + 1 = d - s
          · rw [if_pos (by omega), if_pos hwrap, Nat.add_zero]
          · rw [if_neg (by omega), if_neg hwrap, Nat.add_assoc, Nat.add_comm 1]
        · rw [if_neg hy, hfirst]
          by_cases hyd : y = d
          · rw [if_pos hyd, if_pos (by omega), hyd, Nat.sub_self, Nat.zero_mod, Nat.add_zero]
          · rw [if_neg hyd, if_neg (by omega)]

/-- A copy onto itself. -/
theorem memcpy_self (m : Mem) (d n : ℕ) : memcpy m d d n = m := by
  unfold memcpy
  induction n generalizing m d with
  | zero => rfl
  | succ n ih =>
      have hwrite : m.write8 d (m d) = m := by
        rw [Mem.write8_eq_update, Function.update_eq_self]
      rw [Memmove.forwardLoop, hwrite, ih]

/-- A copy that does not run into what it reads. -/
theorem memcpy_apart (m : Mem) (hd : dst + n ≤ 2 ^ 64) (hs : src + n ≤ 2 ^ 64) (h : dst ≤ src ∨ src + n ≤ dst) :
    memcpy m dst src n = m.memmove dst src n := by
  rcases lt_trichotomy dst src with hlt | rfl | hlt
  · rw [← Memmove.memmove_eq hd hs]
    unfold memcpy Memmove.memmove
    rw [if_pos hlt]
  · rw [← Memmove.memmove_eq hd hs]
    unfold Memmove.memmove
    rw [memcpy_self, if_neg (lt_irrefl _), if_neg (lt_irrefl _)]
  · funext y
    rw [memcpy_repeats hlt hd, Mem.memmove_apply]
    by_cases hy : y ∈ Set.Ico dst (dst + n)
    · rw [if_pos hy, if_pos (by simpa using hy), Nat.mod_eq_of_lt (by rw [Set.mem_Ico] at hy; omega)]
    · rw [if_neg hy, if_neg (by simpa using hy)]

/-- **`memcpy` and `memmove`.**  They do the same exactly when the destination does not lie behind the source, or the
source repeats itself with the distance of the two as its period; for ranges that do not overlap it always does. -/
theorem memcpy_eq_memmove_iff (m : Mem) (hd : dst + n ≤ 2 ^ 64) (hs : src + n ≤ 2 ^ 64) :
    memcpy m dst src n = Memmove.memmove m dst src n ↔
      dst ≤ src ∨ ∀ i < n, m (src + i) = m (src + i % (dst - src)) := by
  by_cases hlt : dst ≤ src
  · refine iff_of_true ?_ (.inl hlt)
    rw [memcpy_apart m hd hs (.inl hlt), Memmove.memmove_eq hd hs]
  · rw [or_iff_right hlt, Memmove.memmove_eq hd hs]
    rw [not_le] at hlt
    have hcopied : ∀ i < n, memcpy m dst src n (dst + i) = m (src + i % (dst - src)) := by
      intro i hi
      rw [memcpy_repeats hlt hd, if_pos (by omega), Nat.add_sub_cancel_left]
    have hmoved : ∀ i < n, m.memmove dst src n (dst + i) = m (src + i) := by
      intro i hi
      rw [Mem.memmove_apply, if_pos (Set.mem_Ico.mpr ⟨by omega, by omega⟩), Nat.add_sub_cancel_left]
    constructor
    · intro h i hi
      rw [← hmoved i hi, ← hcopied i hi, h]
    · intro h
      funext y
      by_cases hy : y ∈ Set.Ico dst (dst + n)
      · rw [Set.mem_Ico] at hy
        obtain ⟨i, rfl⟩ : ∃ i, y = dst + i := ⟨y - dst, by omega⟩
        rw [hcopied i (by omega), hmoved i (by omega), h i (by omega)]
      · rw [memcpy_repeats hlt hd, if_neg (by simpa using hy), Mem.memmove_apply, if_neg hy]

/-- Three bytes moved up by one: the first of them is repeated. -/
theorem memcpy_eq_memmove_iff_overlap : memcpy UInt8.ofNat 11 10 3 ≠ Memmove.memmove UInt8.ofNat 11 10 3 := by
  intro h
  rcases (memcpy_eq_memmove_iff UInt8.ofNat (by norm_num) (by norm_num)).mp h with h | h
  · exact absurd h (by decide)
  · exact absurd (h 1 (by decide)) (by decide)

/-! ### Filling and padding -/

/-- **`memset`** is the fill that the models of the memory use. -/
theorem memset_eq (m : Mem) (c : ℤ) (hd : dst + n ≤ 2 ^ 64) : memset m dst c n = m.fill dst n (UInt8.ofInt c) := by
  induction n generalizing m dst with
  | zero =>
      funext y
      exact (if_neg (by omega)).symm
  | succ n ih =>
      rcases Nat.eq_zero_or_pos n with rfl | hn
      · funext y
        unfold memset memset Mem.fill Mem.write8
        by_cases hy : y = dst
        · rw [if_pos hy, if_pos (by omega)]
        · rw [if_neg hy, if_neg (by omega)]
      · rw [memset, wadd_of_lt (by omega), ih _ (by omega)]
        funext y
        unfold Mem.fill Mem.write8
        by_cases hin : dst + 1 ≤ y ∧ y < dst + 1 + n
        · rw [if_pos hin, if_pos (by omega)]
        · rw [if_neg hin]
          by_cases hy : y = dst
          · rw [if_pos hy, if_pos (by omega)]
          · rw [if_neg hy, if_neg (by omega)]

/-- **`strnlen`** is the length, up to a bound. -/
theorem strnlen_eq (h : CStrAt m a s) (n : ℕ) : strnlen m a n = min n s.length := by
  have hfits := h.fits
  have hloop : ∀ left i, i ≤ s.length → strnlenLoop m a left i = min (i + left) s.length := by
    intro left
    induction left with
    | zero =>
        intro i hi
        unfold strnlenLoop
        omega
    | succ left ih =>
        intro i hi
        rw [strnlenLoop, wadd_of_lt (by omega), h.bytes i hi]
        by_cases hend : i = s.length
        · rw [if_pos (by rw [hend, List.getD_eq_default _ _ le_rfl])]
          omega
        · rw [if_neg, ih (i + 1) (by omega)]
          · omega
          · rw [List.getD_eq_getElem s 0 (by omega)]
            exact h.noNul _ (List.getElem_mem _)
  have hzero := hloop n 0 (Nat.zero_le _)
  rwa [Nat.zero_add] at hzero

theorem padLoop_eq (m : Mem) (hd : dst + k + n ≤ 2 ^ 64) : padLoop dst n m k = m.fill (dst + k) n 0 := by
  have hloop : ∀ (n : ℕ) (m : Mem) (k : ℕ), padLoop dst n m k = memset m (wadd dst k) 0 n := by
    intro n
    induction n with
    | zero => exact fun _ _ => rfl
    | succ n ih =>
        intro m k
        rw [padLoop, ih, memset, wadd_wadd]
        rfl
  rcases Nat.eq_zero_or_pos n with rfl | hn
  · funext y
    exact (if_neg (by omega)).symm
  · rw [hloop, wadd_of_lt (by omega), memset_eq m 0 hd]
    rfl

/-- The memory with the first `k` bytes of a string at `d`. -/
def begun (m : Mem) (d : ℕ) (s : List UInt8) (k : ℕ) : Mem := fun y => if d ≤ y ∧ y < d + k then s.getD (y - d) 0 else m y

theorem begun_apply (m : Mem) (d : ℕ) (s : List UInt8) (k y : ℕ) :
    begun m d s k y = if d ≤ y ∧ y < d + k then s.getD (y - d) 0 else m y := rfl

theorem begun_zero (m : Mem) (d : ℕ) (s : List UInt8) : begun m d s 0 = m := by
  funext y
  exact if_neg (by omega)

theorem begun_succ (m : Mem) (d : ℕ) (s : List UInt8) (k : ℕ) :
    (begun m d s k).write8 (d + k) (s.getD k 0) = begun m d s (k + 1) := by
  funext y
  unfold Mem.write8
  rw [begun_apply, begun_apply]
  by_cases hy : y = d + k
  · rw [if_pos hy, if_pos (by omega), hy, Nat.add_sub_cancel_left]
  · rw [if_neg hy]
    by_cases hin : d ≤ y ∧ y < d + k
    · rw [if_pos hin, if_pos (by omega)]
    · rw [if_neg hin, if_neg (by omega)]

/-- The first loop of `strncpy`, behind `k` bytes. -/
theorem strncpyLoop_eq (h : CStrAt m src s) (hd : dst + n ≤ 2 ^ 64) (hapart : dst + n ≤ src ∨ src + s.length < dst)
    (hk : k ≤ s.length) (hkn : k ≤ n) :
    strncpyLoop dst src (n - k) (begun m dst s k) k = (begun m dst s (min n s.length), min n s.length) := by
  have hfits := h.fits
  obtain ⟨left, hleft⟩ : ∃ left, left = n - k := ⟨_, rfl⟩
  rw [← hleft]
  induction left generalizing k with
  | zero =>
      rw [show min n s.length = k by omega]
      rfl
  | succ left ih =>
      have hbyte : begun m dst s k (src + k) = s.getD k 0 := by
        rw [begun_apply, if_neg (by omega), h.bytes k hk]
      rw [strncpyLoop, wadd_of_lt (by omega : src + k < 2 ^ 64), hbyte]
      by_cases hend : k = s.length
      · rw [if_pos (by rw [hend, List.getD_eq_default _ _ le_rfl]), show min n s.length = k by omega]
      · have hne : s.getD k 0 ≠ 0 := by
          rw [List.getD_eq_getElem s 0 (by omega)]
          exact h.noNul _ (List.getElem_mem _)
        rw [if_neg hne, wadd_of_lt (by omega), begun_succ, ih (by omega) (by omega) (by omega)]

/-- **`strncpy`** is the copy to a buffer that the models of named objects use. -/
theorem strncpy_eq (h : CStrAt m src s) (hd : dst + n ≤ 2 ^ 64) (hapart : dst + n ≤ src ∨ src + s.length < dst) :
    (∀ i < n, strncpy m dst src n (dst + i) = CString.strncpy (fun i => m (dst + i)) s n i) ∧
      ∀ y, y ∉ Set.Ico dst (dst + n) → strncpy m dst src n y = m y := by
  have hloop := strncpyLoop_eq (k := 0) h hd hapart (Nat.zero_le _) (Nat.zero_le _)
  rw [begun_zero, Nat.sub_zero] at hloop
  unfold strncpy
  rw [hloop]
  dsimp only
  rw [padLoop_eq _ (by omega)]
  unfold Mem.fill CString.strncpy
  constructor
  · intro i hi
    rw [if_pos hi]
    by_cases hlt : i < min n s.length
    · rw [if_neg (by omega), begun_apply, if_pos (by omega), Nat.add_sub_cancel_left]
    · rw [if_pos (by omega), List.getD_eq_default _ _ (by omega)]
  · intro y hy
    rw [Set.mem_Ico] at hy
    rw [if_neg (by omega), begun_apply, if_neg (by omega)]

/-! ### Appending a number of bytes -/

/-- An appended string is cut. -/
theorem strncatLoop_eq (h : CStrAt m src s) (hd : d + s.length < 2 ^ 64) (hapart : ¬ (src < d ∧ d ≤ src + s.length)) :
    strncatLoop n m d src = placed m d (s.take n) := by
  induction n generalizing m d src s with
  | zero => exact (placed_nil m d).symm
  | succ n ih =>
      cases s with
      | nil =>
          rw [strncatLoop, if_pos h.nil, List.take_nil, placed_nil]
      | cons x s =>
          obtain ⟨hx, hx0⟩ := h.head
          rw [List.length_cons] at hd hapart
          have htail : CStrAt (m.write8 d x) (src + 1) s := h.tail.write8 (by omega) x
          rw [List.take_succ_cons, strncatLoop, hx, if_neg hx0, h.next, placed_cons, wadd_of_lt (by omega),
            ih htail (by omega) (by omega)]

/-- **`strncat`** appends at most `n` bytes, and a terminator. -/
theorem strncat_eq (ha : CStrAt m dst s) (hb : CStrAt m src t) (hd : dst + s.length + t.length < 2 ^ 64)
    (hapart : t = [] ∨ src + t.length ≠ dst + s.length) (hfuel : s.length < fuel) :
    ∃ m', strncat fuel m dst src n = .ok m' ∧ CStrAt m' dst (s ++ t.take n) := by
  refine ⟨placed m (dst + s.length) (t.take n), ?_, ?_⟩
  · unfold strncat
    rw [strlen_eq ha, if_pos hfuel, ← strncatLoop_eq hb hd, ← wadd_of_lt ha.fits]
    · rfl
    · rw [shared_iff ha hb]
      exact not_not.mpr hapart
  · exact cstrAt_append ha (hb.noNul.take n) (by rw [List.length_take]; omega)

/-! ### Copies on the heap -/

/-- **`strdup`** copies a string that lies in a used block to a new one.  The other used blocks, among them the one of the
string, are kept; and when there is no memory, `NULL` is returned and nothing else has happened. -/
theorem strdup_copies {pmm₀ : Pmm} {w : HeapWorld} {bs : List Block} {b₀ : Block} {h' : Heap} {copy : ℕ} (hi : WorldInv pmm₀ w bs)
    (hb₀ : b₀ ∈ bs) (hused : b₀.free = false) (hs : CStrAt w.heap.mem src s) (hin : Set.Icc src (src + s.length) ⊆ b₀.payload)
    (hdup : strdup fuel w.heap src = .ok (h', copy)) :
    ∃ bs', WorldInv pmm₀ ⟨h', if copy = 0 then w.live else insert copy w.live, w.foreign⟩ bs' ∧
      Keeps bs w.heap.mem bs' h'.mem Set.univ ∧
      (copy ≠ 0 → CStrAt h'.mem copy s ∧ ∃ b ∈ bs', b.free = false ∧ b.addr + 40 = copy ∧ s.length + 1 ≤ b.size ∧
        ∀ d ∈ bs, d.free = false → d.addr ≠ b.addr) := by
  have hsrc : src ∈ b₀.payload := hin ⟨le_rfl, Nat.le_add_right _ _⟩
  have hend : src + s.length ∈ b₀.payload := hin ⟨Nat.le_add_right _ _, le_rfl⟩
  unfold Block.payload at hsrc hend
  rw [Set.mem_Ico] at hsrc hend
  have hsize := hi.inv.size_lt hb₀
  have hlen : wadd s.length 1 = s.length + 1 := wadd_of_lt (by omega)
  obtain ⟨len, hstrlen, hdup⟩ := bind_eq_ok.mp hdup
  rw [strlen_eq hs] at hstrlen
  split at hstrlen
  · cases hstrlen
    rw [hlen] at hdup
    obtain ⟨⟨h₁, ptr⟩, hmalloc, hdup⟩ := bind_eq_ok.mp hdup
    obtain ⟨bs', hi₁, _, hkeeps, hnew⟩ := hi.malloc (by unfold NoWrap; omega) hmalloc
    dsimp only at hdup
    split at hdup
    · rename_i hne
      cases hdup
      obtain ⟨b, hb, hbfree, hbaddr, hble, hother⟩ := hnew hne
      have hstop := hi₁.inv.list.bound b hb
      unfold Block.stop at hstop
      -- a used block from before shares no byte with the new one
      have hapart : ∀ d ∈ bs, d.free = false → ∀ y ∈ d.payload, y < copy ∨ copy + (s.length + 1) ≤ y := by
        intro d hd hdu y hy
        have hdb : d ≠ b := fun heq => hother d hd hdu (by rw [heq])
        have hap := hi₁.inv.list.apart.forall (hkeeps d hd hdu (Set.mem_univ _)).1 hb hdb
        unfold Block.payload at hy
        rw [Set.mem_Ico] at hy
        unfold Block.Apart Block.stop at hap
        omega
      have hcopy : memcpy h₁.mem copy src (s.length + 1) = h₁.mem.memmove copy src (s.length + 1) := by
        have hfits := hs.fits
        refine memcpy_apart _ (by omega) (by omega) ?_
        by_contra hcross
        have hinside := hapart b₀ hb₀ hused copy (hin ⟨by omega, by omega⟩)
        omega
      have hmem : ∀ y, memcpy h₁.mem copy src (s.length + 1) y =
          if y ∈ Set.Ico copy (copy + (s.length + 1)) then h₁.mem (src + (y - copy)) else h₁.mem y := by
        intro y
        rw [hcopy, Mem.memmove_apply]
      refine ⟨bs', ?_, fun d hd hdu hdlive => ?_, fun _ => ⟨⟨hs.noNul, fun i hi => ?_, by omega⟩, b, hb, hbfree, hbaddr, hble, hother⟩⟩
      · refine hi₁.write fun d hd y hy => ?_
        rw [hmem, if_neg]
        intro hyin
        have hpayload : y ∈ b.payload := by
          unfold Block.payload
          rw [Set.mem_Ico] at hyin ⊢
          omega
        exact hi₁.inv.list.payload_untagged hb hpayload d hd hy
      · obtain ⟨hd', hpay⟩ := hkeeps d hd hdu hdlive
        refine ⟨hd', fun y hy => ?_⟩
        have hout := hapart d hd hdu y hy
        show memcpy h₁.mem copy src (s.length + 1) y = _
        rw [hmem, if_neg (by rw [Set.mem_Ico]; omega), hpay y hy]
      · show memcpy h₁.mem copy src (s.length + 1) (copy + i) = _
        rw [hmem, if_pos (Set.mem_Ico.mpr ⟨by omega, by omega⟩), Nat.add_sub_cancel_left,
          (hkeeps b₀ hb₀ hused (Set.mem_univ _)).2 _ (hin ⟨by omega, by omega⟩), hs.bytes i hi]
    · rename_i hnull
      rw [not_not] at hnull
      cases hdup
      exact ⟨bs', hi₁, hkeeps, fun h => absurd hnull h⟩
  · cases hstrlen

/-- A string of one byte in a block of 16. -/
theorem strdup_copies_one : ∃ w h' copy, strdup 4 w 4194344 = .ok (h', copy) ∧ copy ≠ 0 ∧ CStrAt h'.mem copy [0x61] := by
  obtain ⟨s, w, hs, hrun, hlive, hsize, h0, h1, hdup⟩ := worldAfter_run
    (fun w op => if MergesAdjacent 4 w op then w.exec 4 op else none)
    (fun w op w' => ∃ fuel, MergesAdjacent fuel w op ∧ HeapStep fuel w op w')
    [.malloc 16, .store 4194344 0 0x61]
    (fun w => 4194344 ∈ w.live ∧ w.heap.mem.hdrSize 4194304 = 16 ∧ w.heap.mem 4194344 = 0x61 ∧ w.heap.mem 4194345 = 0 ∧
      (strdup 4 w.heap 4194344).toOption.any (fun r => decide (r.2 ≠ 0)) = true)
    (fun w op w' h => by
      split_ifs at h with ha
      exact ⟨4, ha, HeapWorld.exec_step h⟩)
    (by decide +kernel)
  obtain ⟨⟨h', copy⟩, hr, hne⟩ := (Option.any_eq_true _ _).mp hdup
  have hr := toOption_eq_some.mp hr
  have hne : copy ≠ 0 := of_decide_eq_true hne
  obtain ⟨bs, hi⟩ := worldInv_of_run freshHeap_beforeInit hs hrun
  obtain ⟨b, hb, hused, haddr⟩ := hi.live _ hlive
  have haddr : b.addr = 4194304 := by omega
  have hbsize : b.size = 16 := by
    rw [← (hi.inv.list.blocks b hb).size, haddr]
    exact hsize
  have hstr : CStrAt w.heap.mem 4194344 [0x61] := by
    refine ⟨by simp [NoNul], fun i hi => ?_, by norm_num⟩
    obtain rfl | rfl : i = 0 ∨ i = 1 := by
      simp only [List.length_singleton] at hi
      omega
    · exact h0
    · exact h1
  have hin : Set.Icc 4194344 (4194344 + [(0x61 : UInt8)].length) ⊆ b.payload := by
    intro y hy
    unfold Block.payload
    rw [List.length_singleton, Set.mem_Icc] at hy
    rw [Set.mem_Ico, haddr, hbsize]
    omega
  obtain ⟨_, _, _, hcopy⟩ := strdup_copies hi hb hused hstr hin hr
  exact ⟨w.heap, h', copy, hr, hne, (hcopy hne).1⟩

/-! ### Comparing -/

/-- The sign of `r` is the order of two strings. -/
structure Orders (r : ℤ) (s t : List UInt8) : Prop where
  less : r < 0 ↔ s < t
  equal : r = 0 ↔ s = t
  greater : 0 < r ↔ t < s

theorem Orders.nil : Orders 0 [] [] := ⟨by simp, by simp, by simp⟩

/-- The difference of the first bytes that differ. -/
theorem Orders.differ {x y : UInt8} (h : x ≠ y) (s t : List UInt8) : Orders ((x.toNat : ℤ) - y.toNat) (x :: s) (y :: t) := by
  have hne : x.toNat ≠ y.toNat := fun heq => h (UInt8.toNat_inj.mp heq)
  refine ⟨?_, ?_, ?_⟩
  · rw [List.cons_lt_cons_iff, UInt8.lt_iff_toNat_lt]
    simp only [h, false_and, or_false]
    omega
  · simp only [List.cons.injEq, h, false_and, iff_false]
    omega
  · rw [List.cons_lt_cons_iff, UInt8.lt_iff_toNat_lt]
    simp only [h.symm, false_and, or_false]
    omega

/-- Behind a common byte. -/
theorem Orders.cons {r : ℤ} (h : Orders r s t) (x : UInt8) : Orders r (x :: s) (x :: t) := by
  refine ⟨h.less.trans ?_, h.equal.trans ?_, h.greater.trans ?_⟩ <;> simp

/-- A terminator against a byte. -/
theorem Orders.shorter {x : UInt8} (h : x ≠ 0) (t : List UInt8) : Orders ((0 : UInt8).toNat - x.toNat : ℤ) [] (x :: t) := by
  have hpos : x.toNat ≠ 0 := fun heq => h (UInt8.toNat_inj.mp heq)
  refine ⟨?_, ?_, ?_⟩ <;> simp <;> omega

theorem Orders.longer {x : UInt8} (h : x ≠ 0) (s : List UInt8) : Orders (x.toNat - (0 : UInt8).toNat : ℤ) (x :: s) [] := by
  have hpos : x.toNat ≠ 0 := fun heq => h (UInt8.toNat_inj.mp heq)
  refine ⟨?_, ?_, ?_⟩ <;> simp <;> omega

/-- **`strcmp`** ends within the shorter string, and orders strings as lists of bytes. -/
theorem strcmp_order (ha : CStrAt m a s) (hb : CStrAt m b t) :
    ∃ r, (∀ fuel, min s.length t.length < fuel → strcmp m fuel a b = .ok r) ∧ Orders r s t := by
  induction s generalizing a b t with
  | nil =>
      cases t with
      | nil =>
          refine ⟨0, fun fuel hfuel => ?_, .nil⟩
          obtain ⟨fuel, rfl⟩ : ∃ f, fuel = f + 1 := ⟨fuel - 1, by omega⟩
          rw [strcmp, ha.nil, hb.nil]
          rfl
      | cons y t =>
          refine ⟨_, fun fuel hfuel => ?_, .shorter hb.head.2 t⟩
          obtain ⟨fuel, rfl⟩ : ∃ f, fuel = f + 1 := ⟨fuel - 1, by omega⟩
          rw [strcmp, ha.nil, hb.head.1, if_neg (by simp)]
  | cons x s ih =>
      obtain ⟨hx, hx0⟩ := ha.head
      cases t with
      | nil =>
          refine ⟨_, fun fuel hfuel => ?_, .longer hx0 s⟩
          obtain ⟨fuel, rfl⟩ : ∃ f, fuel = f + 1 := ⟨fuel - 1, by omega⟩
          rw [strcmp, hx, hb.nil, if_neg (by simp [hx0])]
      | cons y t =>
          obtain ⟨hy, hy0⟩ := hb.head
          by_cases hxy : x = y
          · subst hxy
            obtain ⟨r, hr, horder⟩ := ih ha.tail hb.tail
            refine ⟨r, fun fuel hfuel => ?_, horder.cons x⟩
            rw [List.length_cons, List.length_cons] at hfuel
            obtain ⟨fuel, rfl⟩ : ∃ f, fuel = f + 1 := ⟨fuel - 1, by omega⟩
            rw [strcmp, hx, hy, if_pos ⟨hx0, rfl⟩, ha.next, hb.next, hr fuel (by omega)]
          · refine ⟨_, fun fuel hfuel => ?_, .differ hxy s t⟩
            obtain ⟨fuel, rfl⟩ : ∃ f, fuel = f + 1 := ⟨fuel - 1, by omega⟩
            rw [strcmp, hx, hy, if_neg fun h => hxy h.2]

/-- `ab` and `b`, one byte further. -/
theorem strcmp_order_ab : ∃ r, strcmp abAt100 2 100 101 = .ok r ∧ r < 0 := by
  obtain ⟨r, hr, horder⟩ := strcmp_order cstrAt_abAt100 cstrAt_abAt100.tail
  exact ⟨r, hr 2 (by decide), horder.less.mpr (by decide)⟩

/-- **`strncmp`** orders the first `n` bytes of strings. -/
theorem strncmp_order (ha : CStrAt m a s) (hb : CStrAt m b t) : Orders (strncmp m a b n) (s.take n) (t.take n) := by
  induction n generalizing a b s t with
  | zero => exact .nil
  | succ n ih =>
      rw [strncmp]
      cases s with
      | nil =>
          rw [ha.nil, if_neg (by simp)]
          cases t with
          | nil =>
              rw [hb.nil]
              exact .nil
          | cons y t =>
              rw [hb.head.1]
              exact .shorter hb.head.2 _
      | cons x s =>
          obtain ⟨hx, hx0⟩ := ha.head
          rw [hx]
          cases t with
          | nil =>
              rw [hb.nil, if_neg (by simp [hx0])]
              exact .longer hx0 _
          | cons y t =>
              rw [hb.head.1]
              by_cases hxy : x = y
              · subst hxy
                rw [if_pos ⟨hx0, rfl⟩, ha.next, hb.next]
                exact (ih ha.tail hb.tail).cons x
              · rw [if_neg fun h => hxy h.2]
                exact .differ hxy _ _

/-- The `n` bytes from `p` on; addresses wrap. -/
def bytesAt (m : Mem) (p : ℕ) : ℕ → List UInt8
  | 0 => []
  | n + 1 => m p :: bytesAt m (wadd p 1) n

/-- **`memcmp`** orders ranges of the same length. -/
theorem memcmp_order (m : Mem) (p q n : ℕ) : Orders (memcmp m p q n) (bytesAt m p n) (bytesAt m q n) := by
  induction n generalizing p q with
  | zero => exact .nil
  | succ n ih =>
      unfold memcmp bytesAt
      split
      · rename_i hne
        exact .differ hne _ _
      · rename_i heq
        rw [not_not.mp heq]
        exact (ih (wadd p 1) (wadd q 1)).cons _

end HeroOS.StringLoops
