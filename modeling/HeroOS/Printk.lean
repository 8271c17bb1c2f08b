import HeroOS.CString

/-! # Formatted output

`lib/printk.c`: `vprintk` walks over the format string with one pointer, which is advanced behind a `%`, a flag, each
digit of a width, a length modifier, and once more in the head of the loop.  The string is read through a
function that may stop the program, so that the same code runs on raw memory (`rawString`) and on a string whose
end may not be passed (`boundedString`).

The pointer is the suffix of the string that is left to read: `format` is the walk on suffixes, and on a bounded
string `vprintk` does the same (`vprintk_format`).  A conversion that the end of the string cuts off leads past the
terminator, and nothing else does: `vprintk_in_bounds_iff`. -/

namespace HeroOS

open CString

/-! ### Numbers and strings -/

/-- The bytes of a string of ASCII characters. -/
def ascii (cs : List Char) : List UInt8 := cs.map Char.toUInt8

/-- The result of 32-bit signed arithmetic. -/
def wrap32 (x : ℤ) : ℤ := x.bmod (2 ^ 32)

/-- The character of a digit: `hex_up` or `hex_lo`. -/
def hexDigit (upper : Bool) (d : ℕ) : UInt8 :=
  if d < 10 then UInt8.ofNat (48 + d) else UInt8.ofNat ((if upper then 55 else 87) + d)

/-- `while (val) { tmp[i++] = hex[val % base]; val /= base; }`, with room for `n` characters. -/
def storeDigits (upper : Bool) (base : ℕ) : ℕ → ℕ → List UInt8
  | 0, _ => []
  | n + 1, val => if val = 0 then [] else hexDigit upper (val % base) :: storeDigits upper base n (val / base)

/-- `print_uint`: the characters that are written. -/
def printUint (val base : ℕ) (width : ℤ) (pad : UInt8) (upper : Bool) : List UInt8 :=
  if base < 2 ∨ 16 < base then ['?'.toUInt8]
  else
    let tmp := if val = 0 then ['0'.toUInt8] else storeDigits upper base 65 val
    List.replicate (width - tmp.length).toNat pad ++ tmp.reverse

/-- `print_int` -/
def printInt (val : ℤ) (width : ℤ) (pad : UInt8) : List UInt8 :=
  if val < 0 then '-'.toUInt8 :: printUint (-val).toNat 10 (if width > 0 then width - 1 else width) pad false
  else printUint val.toNat 10 width pad false

/-- The loop stores the digits, as long as there is room for them. -/
theorem storeDigits_eq {upper : Bool} {base n val : ℕ} (hb : 1 < base) (hv : val < base ^ n) :
    storeDigits upper base n val = (Nat.digits base val).map (hexDigit upper) := by
  induction n generalizing val with
  | zero =>
      obtain rfl : val = 0 := by
        rw [pow_zero] at hv
        omega
      rw [Nat.digits_zero]
      rfl
  | succ n ih =>
      rw [storeDigits]
      split
      · rename_i h0
        rw [h0, Nat.digits_zero]
        rfl
      · rename_i h0
        have hdiv : val / base < base ^ n := Nat.div_lt_of_lt_mul (by rwa [← pow_succ'])
        rw [ih hdiv, Nat.digits_def' hb (Nat.pos_of_ne_zero h0), List.map_cons]

/-- `print_uint` writes the digits of a 64-bit number behind the fill characters: `tmp` has room for all of them. -/
theorem printUint_digits {val base : ℕ} (hb : 2 ≤ base) (hb' : base ≤ 16) (hv : val < 2 ^ 64) (h0 : val ≠ 0) (width : ℤ)
    (pad : UInt8) (upper : Bool) : printUint val base width pad upper =
      List.replicate (width - (Nat.digits base val).length).toNat pad ++ ((Nat.digits base val).map (hexDigit upper)).reverse := by
  have hroom : val < base ^ 65 := by
    have hpow := Nat.pow_le_pow_left hb 65
    omega
  unfold printUint
  rw [if_neg (by omega), if_neg h0, storeDigits_eq hb hroom]
  dsimp only
  rw [List.length_map]

/-! ### Arguments -/

/-- The variadic arguments, each in a slot of 8 bytes, and the strings in memory. -/
structure VaList where
  word : ℕ → UInt64
  strAt : UInt64 → List UInt8

/-- `print_str` -/
def printStr (ap : VaList) (s : UInt64) : List UInt8 := if s = 0 then ascii ['(', 'n', 'u', 'l', 'l', ')'] else ap.strAt s

/-- The length modifiers: none, `l` or `z`, and `ll`. -/
inductive Length where
  | int
  | long
  | longlong
deriving DecidableEq, Repr

/-- A signed argument: `int` is the lower half of its slot. -/
def Length.signed (len : Length) (w : UInt64) : ℤ :=
  match len with
  | .int => wrap32 w.toNat
  | .long | .longlong => (w.toNat : ℤ).bmod (2 ^ 64)

/-- An unsigned argument. -/
def Length.unsigned (len : Length) (w : UInt64) : ℕ :=
  match len with
  | .int => w.toNat % 2 ^ 32
  | .long | .longlong => w.toNat

/-- The conversions that take an argument. -/
inductive Conv where
  | d | i | u | x | X | o | b | p | c | s
deriving DecidableEq, Repr

namespace Conv

/-- The character of the conversion. -/
def char : Conv → UInt8
  | d => 'd'.toUInt8
  | i => 'i'.toUInt8
  | u => 'u'.toUInt8
  | x => 'x'.toUInt8
  | X => 'X'.toUInt8
  | o => 'o'.toUInt8
  | b => 'b'.toUInt8
  | p => 'p'.toUInt8
  | c => 'c'.toUInt8
  | s => 's'.toUInt8

/-- The labels of the `switch`. -/
def all : List Conv := [d, i, u, x, X, o, b, p, c, s]

/-- The case that the `switch` selects. -/
def ofChar (ch : UInt8) : Option Conv := all.find? (fun k => k.char == ch)

/-- What a case of the `switch` writes for its argument `w`. -/
def print (ap : VaList) (pad : UInt8) (width : ℤ) (len : Length) (w : UInt64) : Conv → List UInt8
  | d | i => printInt (len.signed w) width pad
  | u => printUint (len.unsigned w) 10 width pad false
  | x => printUint (len.unsigned w) 16 width pad false
  | X => printUint (len.unsigned w) 16 width pad true
  | o => printUint (Length.int.unsigned w) 8 width pad false
  | b => printUint (Length.int.unsigned w) 2 width pad false
  | p => ['0'.toUInt8, 'x'.toUInt8] ++ printUint w.toNat 16 16 '0'.toUInt8 false
  | c => [UInt8.ofNat w.toNat]
  | s => printStr ap w

end Conv

/-! ### `vprintk` -/

/-- What `vprintk` has done: the characters written and the number of arguments taken. -/
structure Printk where
  out : List UInt8
  taken : ℕ
  /-- Ghost: the conversions that took an argument, each with the position of that argument. -/
  log : List (Conv × ℕ)
deriving DecidableEq, Repr

namespace Printk

/-- `serial_write_char`, for each of the characters. -/
def write (st : Printk) (cs : List UInt8) : Printk := { st with out := st.out ++ cs }

/-- `__builtin_va_arg`: the next argument is taken, and printed as the conversion `k`. -/
def take (st : Printk) (ap : VaList) (pad : UInt8) (width : ℤ) (len : Length) (k : Conv) : Printk :=
  { st with
    out := st.out ++ k.print ap pad width len (ap.word st.taken)
    taken := st.taken + 1
    log := st.log ++ [(k, st.taken)] }

/-- The `switch` of `vprintk`. -/
def convert (st : Printk) (ap : VaList) (pad : UInt8) (width : ℤ) (len : Length) (ch : UInt8) : Printk :=
  match Conv.ofChar ch with
  | some k => st.take ap pad width len k
  | none => if ch = '%'.toUInt8 then st.write ['%'.toUInt8] else st.write ['%'.toUInt8, ch]

end Printk

/-- `c >= '0' && c <= '9'` -/
def isDigit (c : UInt8) : Bool := '0'.toUInt8 ≤ c && c ≤ '9'.toUInt8

/-- `width * 10 + (*fmt - '0')` -/
def nextWidth (width : ℤ) (c : UInt8) : ℤ := wrap32 (width * 10 + (c.toNat - 48))

/-- The flag, and the position behind it. -/
def parseFlag (fmt : ℕ → Except Halt UInt8) (i : ℕ) : Except Halt (UInt8 × ℕ) := do
  let c ← fmt i
  if c = '0'.toUInt8 then .ok ('0'.toUInt8, i + 1) else .ok (' '.toUInt8, i)

/-- The width, and the position behind it. -/
def parseWidth (fmt : ℕ → Except Halt UInt8) : ℕ → ℤ → ℕ → Except Halt (ℤ × ℕ)
  | 0, _, _ => .error .outOfFuel
  | fuel + 1, width, i => do
      let c ← fmt i
      if isDigit c then parseWidth fmt fuel (nextWidth width c) (i + 1) else .ok (width, i)

/-- The length modifier, and the position behind it. -/
def parseLength (fmt : ℕ → Except Halt UInt8) (i : ℕ) : Except Halt (Length × ℕ) := do
  let c ← fmt i
  if c = 'l'.toUInt8 then
    let c ← fmt (i + 1)
    if c = 'l'.toUInt8 then .ok (.longlong, i + 2) else .ok (.long, i + 1)
  else if c = 'z'.toUInt8 then .ok (.long, i + 1)
  else .ok (.int, i)

/-- `vprintk` from the position `i` of the format string on: the position where it ends, and what it has done. -/
def vprintk (fmt : ℕ → Except Halt UInt8) (ap : VaList) : ℕ → ℕ → Printk → Except Halt (ℕ × Printk)
  | 0, _, _ => .error .outOfFuel
  | fuel + 1, i, st => do
      let c ← fmt i
      if c = 0 then .ok (i, st)
      else if c ≠ '%'.toUInt8 then vprintk fmt ap fuel (i + 1) (st.write [c])
      else do
        let (pad, i) ← parseFlag fmt (i + 1)
        let (width, i) ← parseWidth fmt fuel 0 i
        let (len, i) ← parseLength fmt i
        let c ← fmt i
        vprintk fmt ap fuel (i + 1) (st.convert ap pad width len c)

/-- A string in memory: whatever follows it may be read. -/
def rawString (buf : Buf) (i : ℕ) : Except Halt UInt8 := .ok (buf i)

/-- The string `s` and its terminator: a read behind it stops the program. -/
def boundedString (s : List UInt8) (i : ℕ) : Except Halt UInt8 := if i ≤ s.length then .ok (ofList s i) else .error .overrun

variable {s t r : List UInt8} {c k : UInt8} {ap : VaList} {st st' : Printk} {fuel i : ℕ} {width : ℤ}

/-! ### The walk on suffixes -/

/-- `parseFlag` on what is left of the string. -/
def scanFlag : List UInt8 → UInt8 × List UInt8
  | [] => (' '.toUInt8, [])
  | c :: t => if c = '0'.toUInt8 then ('0'.toUInt8, t) else (' '.toUInt8, c :: t)

/-- `parseWidth` -/
def scanWidth : ℤ → List UInt8 → ℤ × List UInt8
  | width, [] => (width, [])
  | width, c :: t => if isDigit c then scanWidth (nextWidth width c) t else (width, c :: t)

/-- The second `l` of a length modifier. -/
def scanLong : List UInt8 → Length × List UInt8
  | [] => (.long, [])
  | c :: t => if c = 'l'.toUInt8 then (.longlong, t) else (.long, c :: t)

/-- `parseLength` -/
def scanLength : List UInt8 → Length × List UInt8
  | [] => (.int, [])
  | c :: t =>
      if c = 'l'.toUInt8 then scanLong t
      else if c = 'z'.toUInt8 then (.long, t)
      else (.int, c :: t)

/-- What stands between a `%` and the character of its conversion. -/
structure Spec where
  pad : UInt8
  width : ℤ
  len : Length
deriving DecidableEq, Repr

/-- Flag, width and length modifier, and what is left behind them. -/
def scanSpec (t : List UInt8) : Spec × List UInt8 :=
  let flag := scanFlag t
  let width := scanWidth 0 flag.2
  let len := scanLength width.2
  (⟨flag.1, width.1, len.1⟩, len.2)

theorem scanFlag_suffix (t : List UInt8) : (scanFlag t).2 <:+ t := by
  cases t with
  | nil => exact List.suffix_refl _
  | cons c t =>
      rw [scanFlag]
      split
      · exact List.suffix_cons c t
      · exact List.suffix_refl _

theorem scanWidth_suffix (width : ℤ) (t : List UInt8) : (scanWidth width t).2 <:+ t := by
  induction t generalizing width with
  | nil => exact List.suffix_refl _
  | cons c t ih =>
      rw [scanWidth]
      split
      · exact (ih _).trans (List.suffix_cons c t)
      · exact List.suffix_refl _

theorem scanLong_suffix (t : List UInt8) : (scanLong t).2 <:+ t := by
  cases t with
  | nil => exact List.suffix_refl _
  | cons c t =>
      rw [scanLong]
      split
      · exact List.suffix_cons c t
      · exact List.suffix_refl _

theorem scanLength_suffix (t : List UInt8) : (scanLength t).2 <:+ t := by
  cases t with
  | nil => exact List.suffix_refl _
  | cons c t =>
      rw [scanLength]
      split
      · exact (scanLong_suffix t).trans (List.suffix_cons c t)
      · split
        · exact List.suffix_cons c t
        · exact List.suffix_refl _

theorem scanSpec_suffix (t : List UInt8) : (scanSpec t).2 <:+ t :=
  (scanLength_suffix _).trans ((scanWidth_suffix 0 _).trans (scanFlag_suffix t))

/-- `vprintk` on what is left of the string: a conversion that is cut off has no result. -/
def format (ap : VaList) : List UInt8 → Printk → Except Halt Printk
  | [], st => .ok st
  | c :: t, st =>
      if c ≠ '%'.toUInt8 then format ap t (st.write [c])
      else
        match _h : (scanSpec t).2 with
        | [] => .error .overrun
        | k :: t' => format ap t' (st.convert ap (scanSpec t).1.pad (scanSpec t).1.width (scanSpec t).1.len k)
termination_by t => t.length
decreasing_by
  · simp
  · have hle := (scanSpec_suffix t).length_le
    rw [_h, List.length_cons] at hle
    rw [List.length_cons]
    omega

theorem format_ordinary (hc : c ≠ '%'.toUInt8) : format ap (c :: t) st = format ap t (st.write [c]) := by
  rw [format, if_pos hc]

theorem format_conv (h : (scanSpec t).2 = k :: r) : format ap ('%'.toUInt8 :: t) st =
    format ap r (st.convert ap (scanSpec t).1.pad (scanSpec t).1.width (scanSpec t).1.len k) := by
  rw [format, if_neg (not_not.mpr rfl)]
  split
  · rename_i hnil
    rw [h] at hnil
    cases hnil
  · rename_i k' t' hcons
    obtain ⟨rfl, rfl⟩ := List.cons.inj (h.symm.trans hcons)
    rfl

theorem format_cut (h : (scanSpec t).2 = []) : format ap ('%'.toUInt8 :: t) st = .error .overrun := by
  rw [format, if_neg (not_not.mpr rfl)]
  split
  · rfl
  · rename_i k' t' hcons
    rw [h] at hcons
    cases hcons

/-! ### The walk in memory -/

/-- The position of a suffix. -/
def offset (s t : List UInt8) : ℕ := s.length - t.length

theorem offset_succ (h : c :: t <:+ s) : offset s (c :: t) + 1 = offset s t := by
  have hle := h.length_le
  unfold offset
  rw [List.length_cons] at *
  omega

theorem boundedString_offset (h : t <:+ s) : boundedString s (offset s t) = .ok (t.headD 0) := by
  obtain ⟨pre, rfl⟩ := h
  have hpos : offset (pre ++ t) t = pre.length := by
    unfold offset
    rw [List.length_append]
    omega
  unfold boundedString ofList
  rw [hpos, if_pos (by rw [List.length_append]; omega)]
  congr 1
  rw [List.getD_append_right _ _ _ _ le_rfl, Nat.sub_self]
  cases t with
  | nil => rfl
  | cons c t => rfl

theorem parseFlag_bounded (h : t <:+ s) :
    parseFlag (boundedString s) (offset s t) = .ok ((scanFlag t).1, offset s (scanFlag t).2) := by
  unfold parseFlag
  rw [boundedString_offset h]
  cases t with
  | nil => rfl
  | cons c t =>
      show (if c = '0'.toUInt8 then _ else _) = _
      rw [scanFlag, offset_succ h]
      split
      · rfl
      · rfl

theorem parseWidth_bounded (h : t <:+ s) (hf : t.length < fuel) : parseWidth (boundedString s) fuel width (offset s t) =
    .ok ((scanWidth width t).1, offset s (scanWidth width t).2) := by
  induction t generalizing fuel width with
  | nil =>
      obtain ⟨fuel, rfl⟩ := Nat.exists_eq_succ_of_ne_zero (Nat.ne_zero_of_lt hf)
      rw [parseWidth, boundedString_offset h]
      rfl
  | cons c t ih =>
      obtain ⟨fuel, rfl⟩ := Nat.exists_eq_succ_of_ne_zero (Nat.ne_zero_of_lt hf)
      rw [parseWidth, boundedString_offset h, scanWidth, offset_succ h]
      show (if isDigit c = true then _ else _) = _
      split
      · exact ih ((List.suffix_cons c t).trans h) (Nat.lt_of_succ_lt_succ hf)
      · rfl

theorem parseLength_bounded (h : t <:+ s) :
    parseLength (boundedString s) (offset s t) = .ok ((scanLength t).1, offset s (scanLength t).2) := by
  unfold parseLength
  rw [boundedString_offset h]
  cases t with
  | nil => rfl
  | cons c t =>
      have ht : t <:+ s := (List.suffix_cons c t).trans h
      show (if c = 'l'.toUInt8 then _ else if c = 'z'.toUInt8 then _ else _) = _
      rw [scanLength, offset_succ h]
      split
      · rw [boundedString_offset ht]
        cases t with
        | nil => rfl
        | cons c' t =>
            have htwo : offset s (c :: c' :: t) + 2 = offset s t := by rw [← offset_succ ht, ← offset_succ h]
            show (if c' = 'l'.toUInt8 then _ else _) = _
            rw [scanLong, htwo]
            split
            · rfl
            · rfl
      · split
        · rfl
        · rfl

/-- What is read of a conversion, up to its character. -/
theorem parse_bounded {β : Type} (h : t <:+ s) (hf : t.length < fuel) (next : UInt8 → ℤ → Length → UInt8 → ℕ → Except Halt β) :
    (do
      let (pad, i) ← parseFlag (boundedString s) (offset s t)
      let (width, i) ← parseWidth (boundedString s) fuel 0 i
      let (len, i) ← parseLength (boundedString s) i
      let c ← boundedString s i
      next pad width len c (i + 1)) =
    next (scanSpec t).1.pad (scanSpec t).1.width (scanSpec t).1.len ((scanSpec t).2.headD 0) (offset s (scanSpec t).2 + 1) := by
  have hflag := scanFlag_suffix t
  have hwidth := scanWidth_suffix 0 (scanFlag t).2
  have hlength := scanLength_suffix (scanWidth 0 (scanFlag t).2).2
  have hflag' := hflag.trans h
  have hwidth' := hwidth.trans hflag'
  rw [parseFlag_bounded h]
  show (parseWidth (boundedString s) fuel 0 (offset s (scanFlag t).2) >>= _) = _
  rw [parseWidth_bounded hflag' (hflag.length_le.trans_lt hf)]
  show (parseLength (boundedString s) (offset s (scanWidth 0 (scanFlag t).2).2) >>= _) = _
  rw [parseLength_bounded hwidth']
  show (boundedString s (offset s (scanLength (scanWidth 0 (scanFlag t).2).2).2) >>= _) = _
  rw [boundedString_offset (hlength.trans hwidth')]
  rfl

/-- **On a string that is not left**, `vprintk` is the walk on suffixes. -/
theorem vprintk_format (hs : NoNul s) (h : t <:+ s) (hf : t.length < fuel) :
    vprintk (boundedString s) ap fuel (offset s t) st = (format ap t st).map (fun st' => (s.length, st')) := by
  induction fuel generalizing t st with
  | zero => exact absurd hf (Nat.not_lt_zero _)
  | succ fuel ih =>
      rw [vprintk, boundedString_offset h]
      cases t with
      | nil =>
          rw [format]
          rfl
      | cons c t =>
          have ht : t <:+ s := (List.suffix_cons c t).trans h
          have hc : c ≠ 0 := hs c (h.mem List.mem_cons_self)
          have hlen : t.length < fuel := Nat.lt_of_succ_lt_succ hf
          show (if c = 0 then _ else if c ≠ '%'.toUInt8 then _ else _) = _
          rw [if_neg hc, offset_succ h]
          by_cases hpc : c = '%'.toUInt8
          · rw [if_neg (not_not.mpr hpc), hpc]
            have hsuf : (scanSpec t).2 <:+ s := (scanSpec_suffix t).trans ht
            refine (parse_bounded ht hlen fun pad width len k i =>
              vprintk (boundedString s) ap fuel i (st.convert ap pad width len k)).trans ?_
            cases hr : (scanSpec t).2 with
            | nil =>
                -- the terminator is taken for a conversion, and the next read lies behind it
                obtain ⟨fuel, rfl⟩ := Nat.exists_eq_succ_of_ne_zero (Nat.ne_zero_of_lt hlen)
                have hover : boundedString s (offset s [] + 1) = .error .overrun := if_neg (by unfold offset; simp)
                rw [format_cut hr, vprintk, hover]
                rfl
            | cons k r =>
                rw [hr] at hsuf
                have hlt : r.length < fuel := by
                  have hle := (scanSpec_suffix t).length_le
                  rw [hr, List.length_cons] at hle
                  omega
                rw [format_conv hr, offset_succ hsuf]
                exact ih ((List.suffix_cons k r).trans hsuf) hlt
          · rw [if_pos hpc, format_ordinary hpc]
            exact ih ht hlen

/-! ### Fuel and memory -/

variable {fmt fmt' : ℕ → Except Halt UInt8}

theorem parseWidth_mono {n : ℕ} (hn : fuel ≤ n) : Approx (parseWidth fmt fuel width i) (parseWidth fmt n width i) := by
  induction fuel generalizing n width i with
  | zero => exact .inl rfl
  | succ fuel ih =>
      obtain ⟨n, rfl⟩ := Nat.exists_eq_succ_of_ne_zero (show n ≠ 0 by omega)
      rw [parseWidth, parseWidth]
      refine (Approx.refl _).bind fun c => ?_
      split
      · exact ih (Nat.le_of_succ_le_succ hn)
      · exact .refl _

/-- More fuel changes nothing but a lack of it. -/
theorem vprintk_mono {n : ℕ} (hn : fuel ≤ n) : Approx (vprintk fmt ap fuel i st) (vprintk fmt ap n i st) := by
  induction fuel generalizing n i st with
  | zero => exact .inl rfl
  | succ fuel ih =>
      obtain ⟨n, rfl⟩ := Nat.exists_eq_succ_of_ne_zero (show n ≠ 0 by omega)
      have hn' : fuel ≤ n := Nat.le_of_succ_le_succ hn
      rw [vprintk, vprintk]
      refine (Approx.refl _).bind fun c => ?_
      split
      · exact .refl _
      · split
        · exact ih hn'
        · refine (Approx.refl _).bind fun flag => (parseWidth_mono hn').bind fun wd => ?_
          exact (Approx.refl _).bind fun len => (Approx.refl _).bind fun k => ih hn'

/-- A call that returns reads what it would read in any larger memory. -/
theorem parseWidth_of_reads {res : ℤ × ℕ} (h : ∀ i c, fmt i = .ok c → fmt' i = .ok c)
    (hr : parseWidth fmt fuel width i = .ok res) : parseWidth fmt' fuel width i = .ok res := by
  induction fuel generalizing width i with
  | zero => cases hr
  | succ fuel ih =>
      obtain ⟨c, hc, hr⟩ := bind_eq_ok.mp hr
      refine bind_eq_ok.mpr ⟨c, h i c hc, ?_⟩
      split at hr
      · rename_i hd
        rw [if_pos hd]
        exact ih hr
      · rename_i hd
        rw [if_neg hd]
        exact hr

theorem parseFlag_of_reads {res : UInt8 × ℕ} (h : ∀ i c, fmt i = .ok c → fmt' i = .ok c)
    (hr : parseFlag fmt i = .ok res) : parseFlag fmt' i = .ok res := by
  obtain ⟨c, hc, hr⟩ := bind_eq_ok.mp hr
  exact bind_eq_ok.mpr ⟨c, h i c hc, hr⟩

theorem parseLength_of_reads {res : Length × ℕ} (h : ∀ i c, fmt i = .ok c → fmt' i = .ok c)
    (hr : parseLength fmt i = .ok res) : parseLength fmt' i = .ok res := by
  obtain ⟨c, hc, hr⟩ := bind_eq_ok.mp hr
  refine bind_eq_ok.mpr ⟨c, h i c hc, ?_⟩
  split at hr
  · rename_i hl
    obtain ⟨c', hc', hr⟩ := bind_eq_ok.mp hr
    rw [if_pos hl]
    exact bind_eq_ok.mpr ⟨c', h _ c' hc', hr⟩
  · rename_i hl
    rw [if_neg hl]
    exact hr

theorem vprintk_of_reads {res : ℕ × Printk} (h : ∀ i c, fmt i = .ok c → fmt' i = .ok c)
    (hr : vprintk fmt ap fuel i st = .ok res) : vprintk fmt' ap fuel i st = .ok res := by
  induction fuel generalizing i st with
  | zero => cases hr
  | succ fuel ih =>
      obtain ⟨c, hc, hr⟩ := bind_eq_ok.mp hr
      refine bind_eq_ok.mpr ⟨c, h i c hc, ?_⟩
      split at hr
      · rename_i h0
        rw [if_pos h0]
        exact hr
      · rename_i h0
        rw [if_neg h0]
        split at hr
        · rename_i hpc
          rw [if_pos hpc]
          exact ih hr
        · rename_i hpc
          rw [if_neg hpc]
          obtain ⟨flag, hflag, hr⟩ := bind_eq_ok.mp hr
          obtain ⟨wd, hwd, hr⟩ := bind_eq_ok.mp hr
          obtain ⟨len, hlen, hr⟩ := bind_eq_ok.mp hr
          obtain ⟨k, hk, hr⟩ := bind_eq_ok.mp hr
          refine bind_eq_ok.mpr ⟨flag, parseFlag_of_reads h hflag, bind_eq_ok.mpr ⟨wd, parseWidth_of_reads h hwd, ?_⟩⟩
          exact bind_eq_ok.mpr ⟨len, parseLength_of_reads h hlen, bind_eq_ok.mpr ⟨k, h _ k hk, ih hr⟩⟩

/-! ### Conversions that are cut off -/

/-- Where the walk stands: in the text, behind a `%` and its digits, behind one `l`, or where only the character of
the conversion can follow. -/
inductive Scan where
  | text
  | spec
  | long
  | last
deriving DecidableEq, Repr

/-- One character further. -/
def Scan.next : Scan → UInt8 → Scan
  | .text, c => if c = '%'.toUInt8 then .spec else .text
  | .spec, c => if isDigit c then .spec else if c = 'l'.toUInt8 then .long else if c = 'z'.toUInt8 then .last else .text
  | .long, c => if c = 'l'.toUInt8 then .last else .text
  | .last, _ => .text

/-- No conversion is cut off by the end of the string. -/
def Complete (s : List UInt8) : Prop := s.foldl Scan.next .text = .text

instance (s : List UInt8) : Decidable (Complete s) := inferInstanceAs (Decidable (_ = _))

theorem scanFlag_next (t : List UInt8) : (scanFlag t).2.foldl Scan.next .spec = t.foldl Scan.next .spec := by
  cases t with
  | nil => rfl
  | cons c t =>
      rw [scanFlag]
      split
      · rename_i hc
        rw [hc]
        rfl
      · rfl

theorem scanWidth_next (width : ℤ) (t : List UInt8) :
    (scanWidth width t).2.foldl Scan.next .spec = t.foldl Scan.next .spec ∧ ∀ c ∈ (scanWidth width t).2.head?, isDigit c = false := by
  induction t generalizing width with
  | nil => exact ⟨rfl, (fun c hc => nomatch hc)⟩
  | cons c t ih =>
      rw [scanWidth]
      split
      · rename_i hc
        rw [List.foldl_cons, show Scan.next .spec c = .spec from if_pos hc]
        exact ih _
      · rename_i hc
        refine ⟨rfl, fun d hd => ?_⟩
        obtain rfl := Option.some.inj hd
        exact Bool.eq_false_iff.mpr hc

/-- What is left behind the length modifier begins with the character of the conversion, where there is one. -/
theorem scanLength_next (t : List UInt8) (ht : ∀ c ∈ t.head?, isDigit c = false) :
    ((scanLength t).2 = [] → t.foldl Scan.next .spec ≠ .text) ∧
      ∀ k r, (scanLength t).2 = k :: r → t.foldl Scan.next .spec = r.foldl Scan.next .text := by
  have hlast : ∀ t : List UInt8, (t = [] → t.foldl Scan.next .last ≠ .text) ∧
      ∀ k r, t = k :: r → t.foldl Scan.next .last = r.foldl Scan.next .text := by
    intro t
    refine ⟨?_, ?_⟩
    · rintro rfl
      exact fun h => nomatch h
    · rintro k r rfl
      rfl
  cases t with
  | nil => exact ⟨(fun _ h => nomatch h), (fun k r h => nomatch h)⟩
  | cons c t =>
      have hdigit : ¬ isDigit c = true := Bool.eq_false_iff.mp (ht c rfl)
      rw [scanLength, List.foldl_cons, Scan.next, if_neg hdigit]
      split
      · cases t with
        | nil => exact ⟨(fun _ h => nomatch h), (fun k r h => nomatch h)⟩
        | cons c' t =>
            rw [scanLong, List.foldl_cons, Scan.next]
            split
            · exact hlast t
            · refine ⟨(fun h => nomatch h), fun k r h => ?_⟩
              obtain ⟨_, rfl⟩ := List.cons.inj h
              rfl
      · split
        · exact hlast t
        · refine ⟨(fun h => nomatch h), fun k r h => ?_⟩
          obtain ⟨_, rfl⟩ := List.cons.inj h
          rfl

theorem scanSpec_next (t : List UInt8) : ((scanSpec t).2 = [] → t.foldl Scan.next .spec ≠ .text) ∧
    ∀ k r, (scanSpec t).2 = k :: r → t.foldl Scan.next .spec = r.foldl Scan.next .text := by
  obtain ⟨hwidth, hdigit⟩ := scanWidth_next 0 (scanFlag t).2
  have hlength := scanLength_next _ hdigit
  rw [hwidth, scanFlag_next] at hlength
  exact hlength

/-- The walk on suffixes has a result exactly on complete strings. -/
theorem format_cases (ap : VaList) (t : List UInt8) (st : Printk) :
    (Complete t → ∃ st', format ap t st = .ok st') ∧ (¬ Complete t → format ap t st = .error .overrun) := by
  induction hn : t.length using Nat.strongRecOn generalizing t st with
  | ind n ih =>
      cases t with
      | nil =>
          refine ⟨fun _ => ⟨st, by rw [format]⟩, fun h => absurd rfl h⟩
      | cons c t =>
          rw [List.length_cons] at hn
          unfold Complete
          rw [List.foldl_cons]
          by_cases hc : c = '%'.toUInt8
          · rw [hc, show Scan.next .text '%'.toUInt8 = .spec from rfl]
            obtain ⟨hnil, hcons⟩ := scanSpec_next t
            cases hr : (scanSpec t).2 with
            | nil => exact ⟨fun h => absurd h (hnil hr), fun _ => format_cut hr⟩
            | cons k r =>
                have hle := (scanSpec_suffix t).length_le
                rw [hr, List.length_cons] at hle
                rw [hcons k r hr, format_conv hr]
                exact ih r.length (by omega) r _ rfl
          · rw [show Scan.next .text c = .text from if_neg hc, format_ordinary hc]
            exact ih t.length (by omega) t _ rfl

/-- The whole string. -/
theorem vprintk_boundedString (hs : NoNul s) (hf : s.length < fuel) :
    vprintk (boundedString s) ap fuel 0 st = (format ap s st).map (fun st' => (s.length, st')) := by
  have h := @vprintk_format s s ap st fuel hs (List.suffix_refl s) hf
  rwa [show offset s s = 0 from Nat.sub_self _] at h

/-- **When `vprintk` stays inside its format string.**  For every string and all arguments: the walk never reads
behind the terminator, and ends at the terminator after at most as many steps as the string has characters, if
and only if no conversion is cut off by the end of the string.  It then does the same in every memory that holds the
string. -/
theorem vprintk_in_bounds_iff (ap : VaList) (st : Printk) (hs : NoNul s) :
    (((∀ fuel, vprintk (boundedString s) ap fuel 0 st ≠ .error .overrun) ∧
      ∃ st', vprintk (boundedString s) ap (s.length + 1) 0 st = .ok (s.length, st')) ↔ Complete s) ∧
    ∀ buf : Buf, (∀ i ≤ s.length, buf i = ofList s i) → Complete s →
      vprintk (rawString buf) ap (s.length + 1) 0 st = vprintk (boundedString s) ap (s.length + 1) 0 st := by
  obtain ⟨hok, hcut⟩ := format_cases ap s st
  have hend : Complete s → ∃ st', vprintk (boundedString s) ap (s.length + 1) 0 st = .ok (s.length, st') := by
    intro hc
    obtain ⟨st', hst'⟩ := hok hc
    refine ⟨st', ?_⟩
    rw [vprintk_boundedString hs (Nat.lt_succ_self _), hst']
    rfl
  refine ⟨⟨?_, fun hc => ⟨fun fuel hover => ?_, hend hc⟩⟩, fun buf hbuf hc => ?_⟩
  · rintro ⟨hno, _⟩
    by_contra hc
    apply hno (s.length + 1)
    rw [vprintk_boundedString hs (Nat.lt_succ_self _), hcut hc]
    rfl
  · -- with more fuel the call returns
    obtain ⟨st', hst'⟩ := hend hc
    have hmono := @vprintk_mono ap st (s.length + 1) 0 (boundedString s) _ (le_max_right fuel (s.length + 1))
    have hmono' := @vprintk_mono ap st fuel 0 (boundedString s) _ (le_max_left fuel (s.length + 1))
    obtain hfuel | hsame := hmono
    · rw [hst'] at hfuel
      cases hfuel
    · obtain hfuel | hsame' := hmono'
      · rw [hover] at hfuel
        cases hfuel
      · rw [hover, ← hsame, hst'] at hsame'
        cases hsame'
  · obtain ⟨st', hst'⟩ := hend hc
    rw [hst']
    refine vprintk_of_reads (fun i c hi => ?_) hst'
    unfold boundedString at hi
    split at hi
    · rename_i hle
      unfold rawString
      rw [hbuf i hle]
      exact hi
    · cases hi

/-- Nothing written yet. -/
def Printk.start : Printk := ⟨[], 0, []⟩

/-- Arguments that are all 0. -/
def VaList.zeros : VaList := ⟨fun _ => 0, fun _ => []⟩

theorem vprintk_in_bounds_percent : ∃ st',
    vprintk (boundedString (ascii ['%', '0', '5', 'l', 'u', '%', '%'])) .zeros 8 0 .start = .ok (7, st') := by
  have hs : NoNul (ascii ['%', '0', '5', 'l', 'u', '%', '%']) := by decide +kernel
  exact ((vprintk_in_bounds_iff .zeros .start hs).1.mpr (by decide +kernel)).2

/-- A format that ends with a single `%`. -/
theorem vprintk_reads_past : NoNul (ascii ['1', '0', '0', '%']) ∧
    vprintk (boundedString (ascii ['1', '0', '0', '%'])) .zeros 5 0 .start = .error .overrun := by
  exact ⟨by decide +kernel, rfl⟩

end HeroOS
