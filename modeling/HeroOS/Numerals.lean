import HeroOS.Positional
import HeroOS.Printk
import HeroOS.Word

/-! # Numbers as text

`utoa` and `itoa` of `lib/string.c`, next to `print_uint` and `print_int` of `lib/printk.c`.  All of them take the digits
of a number from the last one on into a buffer of 65 bytes and copy them out in the opposite order.

* `utoa_eq`, `printUint_eq`: both write the numeral of the number;
* `numerals_agree`: for all 64-bit numbers and the bases from 2 to 16, and what `itoa` writes is read back as the number,
  also where negating it wraps;
* `print_int_iff`: in a field, `print_int` puts the sign before the padding, also where the padding is spaces. -/

namespace HeroOS

open CString Positional

/-! ### Conversions -/

/-- `digits` -/
def digits : List UInt8 := ascii
  ['0', '1', '2', '3', '4', '5', '6', '7', '8', '9', 'a', 'b', 'c', 'd', 'e', 'f']

/-- `while (val > 0) { tmp[i++] = digits[val % base]; val /= base; }`, with room for so many characters. -/
def utoaLoop (base : ℕ) : ℕ → Buf → ℕ → ℕ → Except Halt (Buf × ℕ)
  | 0, tmp, i, val => if val = 0 then .ok (tmp, i) else .error .overrun
  | room + 1, tmp, i, val =>
      if val = 0 then .ok (tmp, i)
      else utoaLoop base room (Function.update tmp i (digits.getD (val % base) 0)) (i + 1) (val / base)

/-- `while (i--) buf[j++] = tmp[i];` -/
def reverseLoop (tmp : Buf) : ℕ → Buf → ℕ → Buf × ℕ
  | 0, buf, j => (buf, j)
  | i + 1, buf, j => reverseLoop tmp i (Function.update buf j (tmp i)) (j + 1)

/-- `utoa(val, buf + p, base)`; `tmp` are the bytes that the buffer on the stack held before. -/
def utoa (tmp : Buf) (val : ℕ) (buf : Buf) (p base : ℕ) : Except Halt Buf :=
  if base < 2 ∨ base > 16 then .ok (Function.update buf p 0)
  else if val = 0 then .ok (Function.update (Function.update buf p '0'.toUInt8) (p + 1) 0)
  else do
    let (tmp, i) ← utoaLoop base 65 tmp 0 val
    let (buf, j) := reverseLoop tmp i buf p
    .ok (Function.update buf j 0)

/-- `-val`, which wraps for the least number. -/
def wneg (val : ℤ) : ℤ := (-val).bmod (2 ^ 64)

/-- `itoa(val, buf + p, base)` -/
def itoa (tmp : Buf) (val : ℤ) (buf : Buf) (p base : ℕ) : Except Halt Buf :=
  if base = 10 ∧ val < 0 then utoa tmp (toU64 (wneg val)) (Function.update buf p '-'.toUInt8) (p + 1) base
  else utoa tmp (toU64 val) buf p base

/-! ### What is written -/

/-- The string `s` and its terminator have been written at offset `p`, and nothing else. -/
structure WrittenAt (buf : Buf) (p : ℕ) (s : List UInt8) (out : Buf) : Prop where
  bytes : ∀ k ≤ s.length, out (p + k) = s.getD k 0
  outside : ∀ k, k < p ∨ p + s.length < k → out k = buf k

/-- The value of a decimal digit. -/
def digitValue (c : UInt8) : ℕ := c.toNat - 48

/-- The number that a decimal numeral with its sign spells. -/
def readInt : List UInt8 → ℤ
  | [] => 0
  | c :: s => if c = '-'.toUInt8 then -(positional digitValue 10 s) else positional digitValue 10 (c :: s)

variable {base val n i j p : ℕ} {tmp buf out : Buf} {s : List UInt8} {pad : UInt8} {width v : ℤ}

theorem WrittenAt.cstr (h : WrittenAt buf p s out) (hs : NoNul s) : cstrFrom out (s.length + 1) p = .ok s :=
  cstrFrom_eq_ok_iff.mpr ⟨Nat.lt_succ_self _, hs, h.bytes⟩

/-! ### Digits -/

theorem digits_getD (d : ℕ) (h : d < 16) : digits.getD d 0 = hexDigit false d := by
  revert d
  decide

theorem hexDigit_ne_zero (d : ℕ) (h : d < 16) : hexDigit false d ≠ 0 := by
  revert d
  decide

theorem digitValue_hexDigit (d : ℕ) (h : d < 10) : digitValue (hexDigit false d) = d := by
  revert d
  decide

theorem hexDigit_ne_minus (d : ℕ) (h : d < 16) : hexDigit false d ≠ '-'.toUInt8 := by
  revert d
  decide

/-- A numeral is made of digits. -/
theorem mem_numeral (hb : 2 ≤ base) (hb' : base ≤ 16) {c : UInt8} (hc : c ∈ numeral (hexDigit false) base val) :
    ∃ d < 16, c = hexDigit false d := by
  obtain ⟨ds, hds, hlt, _⟩ : IsNumeral (hexDigit false) base val _ := isNumeral_numeral (show 1 < base by omega) val
  rw [hds, List.mem_map] at hc
  obtain ⟨d, hd, rfl⟩ := hc
  have hd16 := hlt d hd
  exact ⟨d, by omega, rfl⟩

theorem noNul_numeral (hb : 2 ≤ base) (hb' : base ≤ 16) (val : ℕ) : NoNul (numeral (hexDigit false) base val) := by
  intro c hc
  obtain ⟨d, hd, rfl⟩ := mem_numeral hb hb' hc
  exact hexDigit_ne_zero d hd

/-! ### The loops -/

/-- The digits are stored from the last one on. -/
theorem utoaLoop_spec {room : ℕ} (hb : 2 ≤ base) (hb' : base ≤ 16) (hv : val < base ^ room) :
    ∃ tmp', utoaLoop base room tmp i val = .ok (tmp', i + (Nat.digits base val).length) ∧
      (∀ j < i, tmp' j = tmp j) ∧
      ∀ j < (Nat.digits base val).length, tmp' (i + j) = hexDigit false ((Nat.digits base val).getD j 0) := by
  induction room generalizing tmp i val with
  | zero =>
      obtain rfl : val = 0 := by
        rw [pow_zero] at hv
        omega
      exact ⟨tmp, by simp [utoaLoop], fun _ _ => rfl, by simp⟩
  | succ room ih =>
      rw [utoaLoop]
      by_cases h0 : val = 0
      · subst h0
        exact ⟨tmp, by simp, fun _ _ => rfl, by simp⟩
      · have hdiv : val / base < base ^ room := Nat.div_lt_of_lt_mul (by rwa [← pow_succ'])
        have hmod : val % base < 16 := (Nat.mod_lt val (by omega)).trans_le hb'
        have hdigits : Nat.digits base val = val % base :: Nat.digits base (val / base) :=
          Nat.digits_def' (by omega) (Nat.pos_of_ne_zero h0)
        obtain ⟨tmp', hloop, hkeep, hstore⟩ := @ih (val / base) (i + 1) (Function.update tmp i (digits.getD (val % base) 0)) hdiv
        rw [if_neg h0, hloop, hdigits, List.length_cons]
        refine ⟨tmp', congrArg Except.ok (Prod.ext rfl (by dsimp only; omega)), fun j hj => ?_, fun j hj => ?_⟩
        · rw [hkeep j (by omega), Function.update_of_ne (by omega)]
        · cases j with
          | zero => rw [Nat.add_zero, hkeep i (by omega), Function.update_self, digits_getD _ hmod, List.getD_cons_zero]
          | succ j =>
              have hrest := hstore j (by omega)
              rw [List.getD_cons_succ, ← hrest]
              exact congrArg tmp' (by omega)

/-- The stored characters are copied out in the opposite order. -/
theorem reverseLoop_spec (tmp : Buf) (i : ℕ) (buf : Buf) (j : ℕ) : (reverseLoop tmp i buf j).2 = j + i ∧
    ∀ k, (reverseLoop tmp i buf j).1 k = if j ≤ k ∧ k < j + i then tmp (i - 1 - (k - j)) else buf k := by
  induction i generalizing buf j with
  | zero => exact ⟨rfl, fun k => by rw [if_neg (by omega)]; rfl⟩
  | succ i ih =>
      obtain ⟨hj, hbytes⟩ := ih (Function.update buf j (tmp i)) (j + 1)
      rw [reverseLoop]
      refine ⟨by omega, fun k => ?_⟩
      rw [hbytes k]
      by_cases hk : k = j
      · subst hk
        rw [if_neg (by omega), if_pos (by omega), Function.update_self]
        exact congrArg tmp (by omega)
      · rw [Function.update_of_ne hk]
        by_cases hin : j + 1 ≤ k ∧ k < j + 1 + i
        · rw [if_pos hin, if_pos (by omega)]
          exact congrArg tmp (by omega)
        · rw [if_neg hin, if_neg (by omega)]

/-- **`utoa`** writes the numeral. -/
theorem utoa_eq (hb : 2 ≤ base) (hb' : base ≤ 16) (hv : val < 2 ^ 64) (tmp buf : Buf) (p : ℕ) :
    ∃ out, utoa tmp val buf p base = .ok out ∧ WrittenAt buf p (numeral (hexDigit false) base val) out := by
  unfold utoa
  rw [if_neg (by omega)]
  split
  · rename_i h0
    subst h0
    refine ⟨_, rfl, ?_, ?_⟩
    · intro k hk
      rw [numeral_zero, List.length_singleton] at hk
      rw [numeral_zero]
      interval_cases k
      · rw [Function.update_of_ne (by omega)]
        exact Function.update_self _ _ _
      · rw [Function.update_self]
        rfl
    · intro k hk
      rw [numeral_zero, List.length_singleton] at hk
      rw [Function.update_of_ne (by omega), Function.update_of_ne (by omega)]
  · rename_i h0
    have hroom : val < base ^ 65 := by
      have hpow := Nat.pow_le_pow_left hb 65
      omega
    obtain ⟨tmp', hloop, _, hstore⟩ := @utoaLoop_spec base val 0 tmp 65 hb hb' hroom
    obtain ⟨hj, hbytes⟩ := reverseLoop_spec tmp' (0 + (Nat.digits base val).length) buf p
    rw [hloop]
    refine ⟨_, rfl, ?_, ?_⟩
    · intro k hk
      rw [length_numeral h0] at hk
      rw [Nat.zero_add] at hj hbytes
      rw [Nat.zero_add, hj]
      by_cases hlast : k = (Nat.digits base val).length
      · subst hlast
        rw [Function.update_self, List.getD_eq_default _ _ (length_numeral h0).le]
      · have hlt : (Nat.digits base val).length - 1 - k < (Nat.digits base val).length := by omega
        rw [Function.update_of_ne (by omega), hbytes, if_pos (by omega), Nat.add_sub_cancel_left,
          ← Nat.zero_add ((Nat.digits base val).length - 1 - k), hstore _ hlt, numeral_of_ne_zero h0,
          List.getD_eq_getElem _ _ hlt, List.getD_eq_getElem _ _ (by simp; omega), List.getElem_reverse, List.getElem_map]
        simp
    · intro k hk
      rw [length_numeral h0] at hk
      rw [hj, Function.update_of_ne (by omega), hbytes, if_neg (by omega)]

/-- **`print_uint`** writes the numeral behind the padding. -/
theorem printUint_eq (hb : 2 ≤ base) (hb' : base ≤ 16) (hv : val < 2 ^ 64) (width : ℤ) (pad : UInt8) :
    printUint val base width pad false =
      List.replicate (width - (numeral (hexDigit false) base val).length).toNat pad ++ numeral (hexDigit false) base val := by
  by_cases h0 : val = 0
  · subst h0
    unfold printUint
    rw [if_neg (by omega), numeral_zero]
    rfl
  · rw [printUint_digits hb hb' hv h0, length_numeral h0, numeral_of_ne_zero h0]

/-! ### Signed numbers -/

/-- The decimal numeral of a number with its sign. -/
def signedNumeral (v : ℤ) : List UInt8 :=
  if v < 0 then '-'.toUInt8 :: numeral (hexDigit false) 10 v.natAbs else numeral (hexDigit false) 10 v.natAbs

/-- Negating wraps for the least number only, and the conversion to `uint64_t` undoes that. -/
theorem toU64_wneg (hneg : v < 0) (hmin : -2 ^ 63 ≤ v) : toU64 (wneg v) = v.natAbs := by
  unfold toU64 wneg
  rw [show (2 : ℤ) ^ 64 = ((2 ^ 64 : ℕ) : ℤ) by norm_num, Int.bmod_emod]
  omega

theorem toU64_of_nonneg (h0 : 0 ≤ v) (hmax : v < 2 ^ 63) : toU64 v = v.natAbs := by
  unfold toU64
  omega

/-- A sign before the string. -/
theorem WrittenAt.sign (h : WrittenAt (Function.update buf p '-'.toUInt8) (p + 1) s out) :
    WrittenAt buf p ('-'.toUInt8 :: s) out := by
  constructor
  · intro k hk
    cases k with
    | zero =>
        rw [Nat.add_zero, h.outside p (by omega), Function.update_self]
        rfl
    | succ k =>
        rw [List.length_cons] at hk
        have hb := h.bytes k (by omega)
        rw [List.getD_cons_succ, ← hb]
        exact congrArg out (by omega)
  · intro k hk
    rw [List.length_cons] at hk
    rw [h.outside k (by omega), Function.update_of_ne (by omega)]

theorem noNul_signedNumeral (v : ℤ) : NoNul (signedNumeral v) := by
  have hs := noNul_numeral (show 2 ≤ 10 by omega) (by omega) v.natAbs
  unfold signedNumeral
  split
  · intro c hc
    obtain rfl | hc := List.mem_cons.mp hc
    · decide
    · exact hs c hc
  · exact hs

/-- **`itoa`** writes the numeral with its sign. -/
theorem itoa_eq (hmin : -2 ^ 63 ≤ v) (hmax : v < 2 ^ 63) (tmp buf : Buf) (p : ℕ) :
    ∃ out, itoa tmp v buf p 10 = .ok out ∧ WrittenAt buf p (signedNumeral v) out := by
  have hv : v.natAbs < 2 ^ 64 := by omega
  unfold itoa signedNumeral
  by_cases h0 : v < 0
  · obtain ⟨out, hout, hw⟩ := utoa_eq (show 2 ≤ 10 by omega) (by omega) hv tmp (Function.update buf p '-'.toUInt8) (p + 1)
    rw [if_pos ⟨rfl, h0⟩, if_pos h0, toU64_wneg h0 hmin]
    exact ⟨out, hout, hw.sign⟩
  · rw [if_neg (fun h => h0 h.2), if_neg h0, toU64_of_nonneg (not_lt.mp h0) hmax]
    exact utoa_eq (by omega) (by omega) hv tmp buf p

theorem readInt_numeral (n : ℕ) : readInt (numeral (hexDigit false) 10 n) = n := by
  have hread := positional_numeral (show 1 < 10 by omega) digitValue_hexDigit n
  cases hs : numeral (hexDigit false) 10 n with
  | nil =>
      rw [hs] at hread
      exact congrArg Nat.cast hread
  | cons c s =>
      -- the first character is a digit, and no sign
      have hmem : c ∈ numeral (hexDigit false) 10 n := by
        rw [hs]
        exact List.mem_cons_self
      obtain ⟨d, hd, rfl⟩ := mem_numeral (by omega) (by omega) hmem
      rw [readInt, if_neg (hexDigit_ne_minus d hd), ← hs, hread]

/-- What `itoa` writes is read back as the number. -/
theorem readInt_signedNumeral (v : ℤ) : readInt (signedNumeral v) = v := by
  have hread := positional_numeral (show 1 < 10 by omega) digitValue_hexDigit v.natAbs
  unfold signedNumeral
  split
  · rw [readInt, if_pos rfl, hread]
    omega
  · rw [readInt_numeral]
    omega

/-- `utoa` and `print_uint` write the numeral of `val`. -/
structure WritesNumeral (val base : ℕ) (s : List UInt8) : Prop where
  canonical : IsNumeral (hexDigit false) base val s
  length_le : s.length ≤ 64
  string : ∀ tmp buf p, ∃ out, utoa tmp val buf p base = .ok out ∧ WrittenAt buf p s out ∧
    cstrFrom out (s.length + 1) p = .ok s
  printed : ∀ pad, printUint val base 0 pad false = s
  field : ∀ (width : ℤ) pad, printUint val base width pad false = List.replicate (width - s.length).toNat pad ++ s ∧
    ((printUint val base width pad false).length : ℤ) = max width s.length

/-- **Numbers and their text.**  For every 64-bit number and every base from 2 to 16, `utoa` writes the numeral without
leading zeros, of at most 64 digits and terminated, and nothing else; `print_uint` emits the same characters, and in a
field the padding before them.  For every signed 64-bit number, what `itoa` writes in base 10 is read back as it. -/
theorem numerals_agree :
    (∀ val base, val < 2 ^ 64 → 2 ≤ base → base ≤ 16 → ∃ s, WritesNumeral val base s) ∧
    ∀ v : ℤ, -2 ^ 63 ≤ v → v < 2 ^ 63 → ∀ tmp buf p, ∃ out s, itoa tmp v buf p 10 = .ok out ∧ WrittenAt buf p s out ∧
      cstrFrom out (s.length + 1) p = .ok s ∧ readInt s = v := by
  constructor
  · intro val base hv hb hb'
    have hpow : 2 ^ 64 ≤ base ^ 64 := Nat.pow_le_pow_left hb 64
    refine ⟨_, (isNumeral_iff (by omega)).mpr rfl, length_numeral_le (by omega) (by omega) (by omega), ?_, ?_, ?_⟩
    · intro tmp buf p
      obtain ⟨out, hout, hw⟩ := utoa_eq hb hb' hv tmp buf p
      exact ⟨out, hout, hw, hw.cstr (noNul_numeral hb hb' val)⟩
    · intro pad
      rw [printUint_eq hb hb' hv, Int.toNat_of_nonpos (by omega)]
      rfl
    · intro width pad
      refine ⟨printUint_eq hb hb' hv width pad, ?_⟩
      rw [printUint_eq hb hb' hv, List.length_append, List.length_replicate]
      omega
  · intro v hmin hmax tmp buf p
    obtain ⟨out, hout, hw⟩ := itoa_eq hmin hmax tmp buf p
    exact ⟨out, _, hout, hw, hw.cstr (noNul_signedNumeral v), readInt_signedNumeral v⟩

/-- The longest numeral, and the number that cannot be negated. -/
theorem numerals_agree_extremes : (∃ s, WritesNumeral (2 ^ 64 - 1) 2 s) ∧
    ∃ out s, itoa (fun _ => 7) (-2 ^ 63) (fun _ => 7) 0 10 = .ok out ∧ WrittenAt (fun _ => 7) 0 s out ∧
      cstrFrom out (s.length + 1) 0 = .ok s ∧ readInt s = -2 ^ 63 :=
  ⟨numerals_agree.1 _ 2 (by decide) (by decide) (by decide),
    numerals_agree.2 (-2 ^ 63) (by decide) (by decide) (fun _ => 7) (fun _ => 7) 0⟩

/-! ### Fields -/

/-- With spaces, the padding stands before the sign; with zeros, behind it. -/
structure FieldRight (v : ℤ) (width : ℕ) : Prop where
  spaces : printInt v width ' '.toUInt8 =
    List.replicate (width - (signedNumeral v).length) ' '.toUInt8 ++ signedNumeral v
  zeros : printInt v width '0'.toUInt8 = (if v < 0 then ['-'.toUInt8] else []) ++
    List.replicate (width - (signedNumeral v).length) '0'.toUInt8 ++ numeral (hexDigit false) 10 v.natAbs

/-- What `print_int` writes: the sign, the padding and the digits, in this order. -/
theorem printInt_eq (hmin : -2 ^ 63 ≤ v) (hmax : v < 2 ^ 63) (w : ℕ) (pad : UInt8) : printInt v w pad =
    (if v < 0 then ['-'.toUInt8] else []) ++ List.replicate (w - (signedNumeral v).length) pad ++
      numeral (hexDigit false) 10 v.natAbs := by
  have hv : v.natAbs < 2 ^ 64 := by omega
  unfold printInt signedNumeral
  by_cases h0 : v < 0
  · have habs : (-v).toNat = v.natAbs := by omega
    rw [if_pos h0, if_pos h0, if_pos h0, habs, printUint_eq (by omega) (by omega) hv, List.length_cons]
    generalize numeral (hexDigit false) 10 v.natAbs = s
    have hpad : ((if (w : ℤ) > 0 then (w : ℤ) - 1 else w) - s.length).toNat = w - (s.length + 1) := by
      split <;> omega
    rw [hpad]
    rfl
  · have habs : v.toNat = v.natAbs := by omega
    rw [if_neg h0, if_neg h0, if_neg h0, habs, printUint_eq (by omega) (by omega) hv]
    generalize numeral (hexDigit false) 10 v.natAbs = s
    have hpad : ((w : ℤ) - s.length).toNat = w - s.length := by omega
    rw [hpad]
    rfl

/-- **When a field is right**: the number is not negative, or its numeral fills the field. -/
theorem print_int_iff (hmin : -2 ^ 63 ≤ v) (hmax : v < 2 ^ 63) (w : ℕ) :
    FieldRight v w ↔ 0 ≤ v ∨ w ≤ (signedNumeral v).length := by
  have hspaces := printInt_eq hmin hmax w ' '.toUInt8
  have hzeros := printInt_eq hmin hmax w '0'.toUInt8
  constructor
  · intro h
    by_contra hnot
    rw [not_or, not_le, not_le] at hnot
    -- the first character is the sign, where a space should stand
    have hfirst := h.spaces
    obtain ⟨n, hn⟩ : ∃ n, w - (signedNumeral v).length = n + 1 := ⟨w - (signedNumeral v).length - 1, by omega⟩
    rw [hspaces, if_pos hnot.1, hn, List.replicate_succ] at hfirst
    exact absurd (List.cons.inj hfirst).1 (by decide)
  · rintro (h0 | hfull)
    · refine ⟨?_, hzeros⟩
      rw [hspaces, if_neg (not_lt.mpr h0)]
      unfold signedNumeral
      rw [if_neg (not_lt.mpr h0)]
      rfl
    · refine ⟨?_, hzeros⟩
      rw [hspaces, Nat.sub_eq_zero_of_le hfull]
      unfold signedNumeral
      split <;> rfl

/-- A negative number that fills its field. -/
theorem print_int_full : FieldRight (-42) 3 :=
  (print_int_iff (by decide) (by decide) 3).mpr (.inr (by decide +kernel))

/-- `-5` in a field of four characters: the sign stands before the spaces. -/
theorem print_int_sign_before_spaces : ¬ ∀ (v : ℤ) (w : ℕ), -2 ^ 63 ≤ v → v < 2 ^ 63 → FieldRight v w := by
  intro hall
  have h := (hall (-5) 4 (by decide) (by decide)).spaces
  have hwrong : printInt (-5) (4 : ℕ) ' '.toUInt8 ≠
      List.replicate (4 - (signedNumeral (-5)).length) ' '.toUInt8 ++ signedNumeral (-5) := by decide +kernel
  exact hwrong h

end HeroOS
