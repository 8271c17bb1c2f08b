import HeroOS.CString

/-! # `strstr`

The search for a string inside another one, with a bounded comparison at every position.

Every byte is read with its place: a read behind the end of a buffer has no result.  So the buffers of the theorems
end with the terminators of their strings.

* `strncmp_eq`: the comparison returns, and is 0 exactly where the strings agree as far as it goes;
* `strstrLoop_eq`: the search returns the leftmost occurrence (`leftmost`);
* `strstr_leftmost`: the result in terms of the two strings alone. -/

namespace HeroOS

/-! ### Leftmost occurrences -/

section Occurrences

variable {α : Type} [DecidableEq α] {needle l : List α} {x : α} {i : ℕ}

/-- The position of the leftmost occurrence of a list in another one. -/
def leftmost (needle l : List α) : Option ℕ := l.tails.findIdx? fun t => needle.isPrefixOf t

theorem leftmost_nil (h : needle ≠ []) : leftmost needle [] = none := by
  unfold leftmost
  rw [List.tails, List.findIdx?_cons, if_neg (by simpa using h), List.findIdx?_nil]
  rfl

theorem leftmost_cons : leftmost needle (x :: l) = if needle <+: x :: l then some 0 else (leftmost needle l).map (· + 1) := by
  unfold leftmost
  rw [List.tails_cons, List.findIdx?_cons]
  simp only [List.isPrefixOf_iff_prefix]

theorem leftmost_eq_some : leftmost needle l = some i ↔ IsLeast {i | needle <+: l.drop i} i := by
  unfold leftmost
  rw [List.findIdx?_eq_some_iff_getElem]
  simp only [List.getElem_tails, List.isPrefixOf_iff_prefix, List.length_tails]
  constructor
  · rintro ⟨_, hi, hmin⟩
    exact ⟨hi, fun j hj => not_lt.mp fun hlt => hmin j hlt hj⟩
  · rintro ⟨hi, hmin⟩
    refine ⟨?_, hi, fun j hlt hj => absurd (hmin hj) (not_le.mpr hlt)⟩
    -- behind the list only the empty one occurs, and this occurs at 0 as well
    by_contra hlt
    have hi : needle <+: l.drop i := hi
    rw [List.drop_eq_nil_of_le (by omega), List.prefix_nil] at hi
    have h0 : i ≤ 0 := hmin (show needle <+: l.drop 0 from hi ▸ List.nil_prefix)
    omega

/-- The empty list occurs at the beginning. -/
theorem leftmost_empty (l : List α) : leftmost [] l = some 0 :=
  leftmost_eq_some.mpr ⟨List.nil_prefix, fun i _ => Nat.zero_le i⟩

theorem leftmost_eq_none : leftmost needle l = none ↔ ¬ needle <:+: l := by
  unfold leftmost
  rw [List.findIdx?_eq_none_iff, List.infix_iff_prefix_suffix]
  simp only [List.mem_tails, ← Bool.not_eq_true, List.isPrefixOf_iff_prefix]
  constructor
  · rintro h ⟨t, hp, hs⟩
    exact h t hs hp
  · intro h t hs hp
    exact h ⟨t, hp, hs⟩

end Occurrences

namespace CString

/-! ### The functions -/

/-- The byte at offset `i` of a buffer of `size` bytes. -/
def byteAt (buf : Buf) (size i : ℕ) : Except Halt UInt8 := if i < size then .ok (buf i) else .error .overrun

/-- `strncmp(a + i, b + j, n)`; unless `n` is 0, each round reads a byte of both strings. -/
def strncmp (a b : Buf) (asize bsize : ℕ) : ℕ → ℕ → ℕ → Except Halt ℤ
  | 0, _, _ => .ok 0
  | n + 1, i, j => do
      let x ← byteAt a asize i
      let y ← byteAt b bsize j
      if x ≠ 0 ∧ x = y then strncmp a b asize bsize n (i + 1) (j + 1)
      else .ok ((x.toNat : ℤ) - y.toNat)

/-- The loop of `strstr` from `haystack + i` on; the haystack has `left` more bytes. -/
def strstrLoop (haystack needle : Buf) (hsize nsize nlen : ℕ) : ℕ → ℕ → Except Halt (Option ℕ)
  | 0, _ => .error .overrun
  | left + 1, i =>
      if haystack i = 0 then .ok none
      else do
        let c ← strncmp haystack needle hsize nsize nlen i 0
        if c = 0 then .ok (some i)
        else strstrLoop haystack needle hsize nsize nlen left (i + 1)

/-- `strstr`: an offset into the haystack, or `NULL`. -/
def strstr (haystack needle : Buf) (hsize nsize : ℕ) : Except Halt (Option ℕ) := do
  let c ← byteAt needle nsize 0
  if c = 0 then .ok (some 0)
  else do
    let nlen ← strlen needle nsize
    strstrLoop haystack needle hsize nsize nlen hsize 0

variable {a b haystack needle : Buf} {s t h nd : List UInt8} {x : UInt8} {asize bsize hsize nsize size left n i j : ℕ}

/-! ### Strings in buffers -/

theorem cstrFrom_nil (hs : cstrFrom b n i = .ok []) : 0 < n ∧ b i = 0 := by
  obtain ⟨hlen, _, hb⟩ := cstrFrom_eq_ok_iff.mp hs
  exact ⟨hlen, hb 0 (Nat.zero_le _)⟩

theorem cstrFrom_cons (hs : cstrFrom b n i = .ok (x :: s)) : 0 < n ∧ b i = x ∧ x ≠ 0 ∧ cstrFrom b (n - 1) (i + 1) = .ok s := by
  cases n with
  | zero => cases hs
  | succ n =>
      rw [cstrFrom] at hs
      split at hs
      · cases hs
      · rename_i h0
        obtain ⟨s', hs', h⟩ := bind_eq_ok.mp hs
        cases h
        exact ⟨Nat.succ_pos n, rfl, h0, hs'⟩

/-- The byte that a string in a buffer begins with, or its terminator. -/
theorem byteAt_cstrFrom (hs : cstrFrom b (size - i) i = .ok s) : byteAt b size i = .ok (s.headD 0) := by
  unfold byteAt
  cases s with
  | nil =>
      obtain ⟨hlt, h0⟩ := cstrFrom_nil hs
      rw [if_pos (by omega), h0]
      rfl
  | cons x s =>
      obtain ⟨hlt, hx, _⟩ := cstrFrom_cons hs
      rw [if_pos (by omega), hx]
      rfl

/-! ### The comparison -/

theorem byte_sub_eq_zero {x y : UInt8} : (x.toNat : ℤ) - y.toNat = 0 ↔ x = y := by
  rw [sub_eq_zero, Nat.cast_inj, UInt8.toNat_inj]

/-- **`strncmp`** returns on strings, and is 0 where their first `n` bytes agree. -/
theorem strncmp_eq (hs : cstrFrom a (asize - i) i = .ok s) (ht : cstrFrom b (bsize - j) j = .ok t) :
    ∃ c, strncmp a b asize bsize n i j = .ok c ∧ (c = 0 ↔ s.take n = t.take n) := by
  induction n generalizing s t i j with
  | zero => exact ⟨0, rfl, by simp⟩
  | succ n ih =>
      rw [strncmp, byteAt_cstrFrom hs, byteAt_cstrFrom ht]
      simp only [bind, Except.bind]
      cases s with
      | nil =>
          rw [if_neg (by simp)]
          refine ⟨_, rfl, byte_sub_eq_zero.trans ?_⟩
          cases t with
          | nil => simp
          | cons y t =>
              obtain ⟨_, _, hy, _⟩ := cstrFrom_cons ht
              simpa using hy.symm
      | cons x s =>
          obtain ⟨_, _, hx, hs'⟩ := cstrFrom_cons hs
          cases t with
          | nil =>
              rw [if_neg (by simp [hx])]
              exact ⟨_, rfl, byte_sub_eq_zero.trans (by simp [hx])⟩
          | cons y t =>
              obtain ⟨_, _, _, ht'⟩ := cstrFrom_cons ht
              rw [List.take_succ_cons, List.take_succ_cons, List.cons.injEq]
              by_cases hxy : x = y
              · rw [if_pos ⟨hx, hxy⟩, and_iff_right hxy]
                exact @ih _ _ (i + 1) (j + 1) hs' ht'
              · rw [if_neg (fun h => hxy h.2)]
                exact ⟨_, rfl, byte_sub_eq_zero.trans ⟨fun h => absurd h hxy, fun h => h.1⟩⟩

/-! ### The search -/

theorem strstrLoop_eq (ht : cstrFrom haystack (hsize - i) i = .ok t) (hn : cstr needle nsize = .ok nd) (hne : nd ≠ []) :
    strstrLoop haystack needle hsize nsize nd.length (hsize - i) i = .ok ((leftmost nd t).map (i + ·)) := by
  induction t generalizing i with
  | nil =>
      obtain ⟨hlt, h0⟩ := cstrFrom_nil ht
      obtain ⟨left, hleft⟩ := Nat.exists_eq_add_one_of_ne_zero hlt.ne'
      rw [hleft, strstrLoop, if_pos h0, leftmost_nil hne]
      rfl
  | cons x t ih =>
      obtain ⟨hlt, hx, hx0, ht'⟩ := cstrFrom_cons ht
      obtain ⟨left, hleft⟩ := Nat.exists_eq_add_one_of_ne_zero hlt.ne'
      obtain ⟨c, hc, hc0⟩ := @strncmp_eq haystack needle _ _ hsize nsize nd.length i 0 ht hn
      rw [List.take_length, eq_comm (b := nd), ← List.prefix_iff_eq_take] at hc0
      rw [hleft, strstrLoop, hx, if_neg hx0, hc, leftmost_cons]
      simp only [bind, Except.bind, hc0]
      split
      · rfl
      · have hrest : left = hsize - (i + 1) := by omega
        rw [hrest, ih ht', Option.map_map]
        congr 2
        funext k
        exact Nat.add_right_comm i 1 k |>.trans (Nat.add_assoc i k 1)

/-- **`strstr`.**  For strings whose buffers end with their terminators: the search returns without a read behind a
terminator, the position of the leftmost occurrence, or `NULL` exactly when there is none. -/
theorem strstr_leftmost (hh : cstr haystack (h.length + 1) = .ok h) (hn : cstr needle (nd.length + 1) = .ok nd) :
    ∃ r, strstr haystack needle (h.length + 1) (nd.length + 1) = .ok r ∧
      (∀ i, r = some i ↔ IsLeast {i | nd <+: h.drop i} i) ∧ (nd = [] → r = some 0) ∧ (r = none ↔ ¬ nd <:+: h) := by
  refine ⟨leftmost nd h, ?_, fun i => leftmost_eq_some, ?_, leftmost_eq_none⟩
  · have hbyte : byteAt needle (nd.length + 1) 0 = .ok (nd.headD 0) := byteAt_cstrFrom hn
    have hlen : strlen needle (nd.length + 1) = .ok nd.length := by
      unfold strlen
      rw [hn]
      rfl
    unfold strstr
    rw [hbyte, hlen]
    simp only [bind, Except.bind]
    cases nd with
    | nil =>
        rw [leftmost_empty]
        rfl
    | cons y nd =>
        obtain ⟨_, _, hy, _⟩ := cstrFrom_cons hn
        have hloop := @strstrLoop_eq haystack needle h (y :: nd) (h.length + 1) _ 0 hh hn (List.cons_ne_nil y nd)
        rw [if_neg (show (y :: nd).headD 0 ≠ 0 from hy)]
        simpa using hloop
  · rintro rfl
    exact leftmost_empty h

/-- `ab` in `aab`. -/
theorem strstr_leftmost_ab : strstr (ofList [0x61, 0x61, 0x62]) (ofList [0x61, 0x62]) 4 3 = .ok (some 1) := by
  obtain ⟨r, hr, hsome, _⟩ := @strstr_leftmost (ofList [0x61, 0x61, 0x62]) (ofList [0x61, 0x62]) [0x61, 0x61, 0x62]
    [0x61, 0x62] (by decide +kernel) (by decide +kernel)
  have h1 : IsLeast {i | [0x61, 0x62] <+: ([0x61, 0x61, 0x62] : List UInt8).drop i} 1 := by
    refine ⟨by decide, fun i hi => Nat.one_le_iff_ne_zero.mpr ?_⟩
    rintro rfl
    exact absurd hi (by decide)
  rw [← (hsome 1).mpr h1]
  exact hr

end CString
end HeroOS
