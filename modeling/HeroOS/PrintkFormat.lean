import HeroOS.Printk

/-! # Formats and their arguments

A format as the kernel's callers write it is a list of pieces: ordinary characters, `%%`, and conversions with the
flags `-` and `0`, a width and a length modifier.  `fmtBytes` is the string that they spell.

`vprintk` walks over the string piece by piece (`format_pieces`).  It knows no flag `-`: of such a conversion it
writes all characters and takes no argument, and every later conversion prints the argument of an earlier one.
`vprintk_args_iff` says that this is the only way in which conversions and arguments come apart. -/

namespace HeroOS

open CString

/-! ### Pieces -/

/-- The length modifiers, as they are written. -/
inductive LenMod where
  | none
  | l
  | ll
  | z
deriving DecidableEq, Repr

def LenMod.bytes : LenMod → List UInt8
  | .none => []
  | .l => ['l'.toUInt8]
  | .ll => ['l'.toUInt8, 'l'.toUInt8]
  | .z => ['z'.toUInt8]

def LenMod.length : LenMod → Length
  | .none => .int
  | .l | .z => .long
  | .ll => .longlong

/-- A piece of a format. -/
inductive Piece where
  | ordinary (c : UInt8) (h : c ≠ 0 ∧ c ≠ '%'.toUInt8)
  | percent
  | conv (minus zero : Bool) (width : List (Fin 10)) (len : LenMod) (k : Conv)

/-- The character of a digit. -/
def digitByte (d : Fin 10) : UInt8 := UInt8.ofNat (48 + d.val)

namespace Piece

/-- What follows the `%` and the flag `-` of a conversion. -/
def body (zero : Bool) (width : List (Fin 10)) (len : LenMod) (k : Conv) : List UInt8 :=
  (if zero then ['0'.toUInt8] else []) ++ (width.map digitByte ++ (len.bytes ++ [k.char]))

/-- The characters of a piece. -/
def bytes : Piece → List UInt8
  | ordinary c _ => [c]
  | percent => ['%'.toUInt8, '%'.toUInt8]
  | conv minus zero width len k => '%'.toUInt8 :: ((if minus then ['-'.toUInt8] else []) ++ body zero width len k)

/-- The conversion of a piece, where it is one that takes an argument. -/
def conv? : Piece → Option Conv
  | ordinary _ _ | percent => .none
  | conv _ _ _ _ k => some k

/-- The piece has the flag `-`. -/
def minus : Piece → Bool
  | ordinary _ _ | percent => false
  | conv m _ _ _ _ => m

/-- The fill character: a width that begins with 0 is the flag `0`. -/
def pad (zero : Bool) (width : List (Fin 10)) : UInt8 := if zero = true ∨ width.head? = some 0 then '0'.toUInt8 else ' '.toUInt8

/-- The width, computed in 32 bits. -/
def widthOf (width : List (Fin 10)) : ℤ := width.foldl (fun w d => wrap32 (w * 10 + (d.val : ℤ))) 0

/-- What `vprintk` does at a piece. -/
def run (ap : VaList) (st : Printk) : Piece → Printk
  | ordinary c _ => st.write [c]
  | percent => st.write ['%'.toUInt8]
  | conv false zero width len k => st.take ap (pad zero width) (widthOf width) len.length k
  | conv true zero width len k => st.write (['%'.toUInt8, '-'.toUInt8] ++ body zero width len k)

/-- What a piece prints, the next argument being the `n`-th. -/
def print (ap : VaList) (n : ℕ) : Piece → List UInt8
  | ordinary c _ => [c]
  | percent => ['%'.toUInt8]
  | conv _ zero width len k => k.print ap (pad zero width) (widthOf width) len.length (ap.word n)

end Piece

/-- The string that the pieces spell. -/
def fmtBytes (ps : List Piece) : List UInt8 := ps.flatMap Piece.bytes

/-- The conversions of a format, in order. -/
def convs (ps : List Piece) : List Conv := ps.filterMap Piece.conv?

/-- What a format prints, from the `n`-th argument on. -/
def render (ap : VaList) : List Piece → ℕ → List UInt8
  | [], _ => []
  | p :: ps, n => p.print ap n ++ render ap ps (n + (convs [p]).length)

variable {t cs : List UInt8} {ap : VaList} {st : Printk} {ps : List Piece} {w : ℤ} {k : Conv}

/-! ### Reading a conversion -/

theorem isDigit_digitByte (d : Fin 10) : isDigit (digitByte d) = true := by
  revert d
  decide +kernel

theorem toNat_digitByte (d : Fin 10) : (digitByte d).toNat = 48 + d.val := by
  revert d
  decide +kernel

theorem digitByte_eq_zero (d : Fin 10) : digitByte d = '0'.toUInt8 ↔ d = 0 := by
  revert d
  decide +kernel

theorem nextWidth_digitByte (w : ℤ) (d : Fin 10) : nextWidth w (digitByte d) = wrap32 (w * 10 + (d.val : ℤ)) := by
  unfold nextWidth
  rw [toNat_digitByte]
  congr 1
  omega

theorem scanWidth_digits (ds : List (Fin 10)) : scanWidth w (ds.map digitByte ++ t) =
    scanWidth (ds.foldl (fun w d => wrap32 (w * 10 + (d.val : ℤ))) w) t := by
  induction ds generalizing w with
  | nil => rfl
  | cons d ds ih =>
      rw [List.map_cons, List.cons_append, scanWidth, if_pos (isDigit_digitByte d), nextWidth_digitByte, ih, List.foldl_cons]

theorem scanWidth_end (h : ∀ c ∈ t.head?, isDigit c = false) : scanWidth w t = (w, t) := by
  cases t with
  | nil => rfl
  | cons c t =>
      have hc := h c rfl
      rw [scanWidth, hc]
      rfl

/-- No character of a conversion, and none of a length modifier, is a digit. -/
theorem head_len_not_digit (len : LenMod) (k : Conv) (t : List UInt8) :
    ∀ c ∈ (len.bytes ++ k.char :: t).head?, isDigit c = false ∧ c ≠ '0'.toUInt8 := by
  intro c hc
  have hk : isDigit k.char = false ∧ k.char ≠ '0'.toUInt8 := by
    cases k
    all_goals decide +kernel
  cases len
  case none =>
    obtain rfl := Option.some.inj hc
    exact hk
  all_goals
    obtain rfl := Option.some.inj hc
    decide +kernel

theorem scanLength_len (len : LenMod) (k : Conv) (t : List UInt8) :
    scanLength (len.bytes ++ k.char :: t) = (len.length, k.char :: t) := by
  have hl : k.char ≠ 'l'.toUInt8 := by
    cases k
    all_goals decide +kernel
  have hz : k.char ≠ 'z'.toUInt8 := by
    cases k
    all_goals decide +kernel
  cases len with
  | none =>
      show scanLength (k.char :: t) = _
      rw [scanLength, if_neg hl, if_neg hz]
      rfl
  | l =>
      show scanLong (k.char :: t) = _
      rw [scanLong, if_neg hl]
      rfl
  | ll => rfl
  | z => rfl

/-- Width, length modifier and character, behind the flag. -/
theorem scanSpec_tail (width : List (Fin 10)) (len : LenMod) (k : Conv) (t : List UInt8) :
    scanWidth 0 (width.map digitByte ++ (len.bytes ++ k.char :: t)) = (Piece.widthOf width, len.bytes ++ k.char :: t) := by
  rw [scanWidth_digits, scanWidth_end fun c hc => (head_len_not_digit len k t c hc).1]
  rfl

theorem scanFlag_zero (t : List UInt8) : scanFlag ('0'.toUInt8 :: t) = ('0'.toUInt8, t) := by
  rw [scanFlag, if_pos rfl]

theorem scanFlag_none (h : ∀ c ∈ t.head?, c ≠ '0'.toUInt8) : scanFlag t = (' '.toUInt8, t) := by
  cases t with
  | nil => rfl
  | cons c t => exact if_neg (h c rfl)

theorem widthOf_zero (ds : List (Fin 10)) : Piece.widthOf (0 :: ds) = Piece.widthOf ds := by
  have hzero : wrap32 (0 * 10 + ((0 : Fin 10).val : ℤ)) = 0 := by decide
  unfold Piece.widthOf
  rw [List.foldl_cons, hzero]

theorem scanSpec_body (zero : Bool) (width : List (Fin 10)) (len : LenMod) (k : Conv) (t : List UInt8) :
    scanSpec (Piece.body zero width len k ++ t) = (⟨Piece.pad zero width, Piece.widthOf width, len.length⟩, k.char :: t) := by
  have hbody : Piece.body zero width len k ++ t =
      (if zero then ['0'.toUInt8] else []) ++ (width.map digitByte ++ (len.bytes ++ k.char :: t)) := by
    unfold Piece.body
    simp
  -- the flag is the one that is written, or the first digit of the width
  have hflag : ∃ width', scanFlag (Piece.body zero width len k ++ t) =
      (Piece.pad zero width, width'.map digitByte ++ (len.bytes ++ k.char :: t)) ∧ Piece.widthOf width' = Piece.widthOf width := by
    rw [hbody]
    cases zero with
    | true => exact ⟨width, scanFlag_zero _, rfl⟩
    | false =>
        cases width with
        | nil =>
            refine ⟨[], scanFlag_none fun c hc => (head_len_not_digit len k t c hc).2, rfl⟩
        | cons d ds =>
            by_cases hd : d = 0
            · subst hd
              have hchar : digitByte 0 = '0'.toUInt8 := (digitByte_eq_zero 0).mpr rfl
              refine ⟨ds, ?_, (widthOf_zero ds).symm⟩
              show scanFlag (digitByte 0 :: (ds.map digitByte ++ (len.bytes ++ k.char :: t))) = _
              rw [hchar, scanFlag_zero, Piece.pad, if_pos (.inr rfl)]
            · refine ⟨d :: ds, ?_, rfl⟩
              have hpad : Piece.pad false (d :: ds) = ' '.toUInt8 := if_neg (by simp [hd])
              rw [hpad]
              apply scanFlag_none
              intro c hc
              obtain rfl := Option.some.inj hc
              exact fun h => hd ((digitByte_eq_zero d).mp h)
  obtain ⟨width', hflag, hwidth⟩ := hflag
  unfold scanSpec
  dsimp only
  rw [hflag]
  dsimp only
  rw [scanSpec_tail]
  dsimp only
  rw [scanLength_len, hwidth]

/-! ### Piece by piece -/

theorem ofChar_char (k : Conv) : Conv.ofChar k.char = some k := by
  cases k
  all_goals decide +kernel

theorem Printk.write_append (st : Printk) (cs ds : List UInt8) : (st.write cs).write ds = st.write (cs ++ ds) := by
  unfold Printk.write
  rw [List.append_assoc]

theorem format_ordinaries (h : ∀ c ∈ cs, c ≠ '%'.toUInt8) : format ap (cs ++ t) st = format ap t (st.write cs) := by
  induction cs generalizing st with
  | nil =>
      unfold Printk.write
      rw [List.append_nil]
      rfl
  | cons c cs ih =>
      rw [List.cons_append, format_ordinary (h c List.mem_cons_self), ih fun d hd => h d (List.mem_cons_of_mem _ hd),
        Printk.write_append]
      rfl

/-- A conversion without its `%` is text. -/
theorem body_ordinary (zero : Bool) (width : List (Fin 10)) (len : LenMod) (k : Conv) :
    ∀ c ∈ Piece.body zero width len k, c ≠ '%'.toUInt8 := by
  have hdigit : ∀ d : Fin 10, digitByte d ≠ '%'.toUInt8 := by decide +kernel
  have hk : k.char ≠ '%'.toUInt8 := by
    cases k
    all_goals decide +kernel
  have hlen : ∀ c ∈ len.bytes, c ≠ '%'.toUInt8 := by
    cases len
    all_goals decide +kernel
  have hzero : ∀ c ∈ (if zero then ['0'.toUInt8] else []), c ≠ '%'.toUInt8 := by
    cases zero
    all_goals decide +kernel
  intro c hc
  unfold Piece.body at hc
  obtain hc | hc := List.mem_append.mp hc
  · exact hzero c hc
  · obtain hc | hc := List.mem_append.mp hc
    · obtain ⟨d, _, rfl⟩ := List.mem_map.mp hc
      exact hdigit d
    · obtain hc | hc := List.mem_append.mp hc
      · exact hlen c hc
      · rw [List.mem_singleton.mp hc]
        exact hk

/-- A character that can only be that of a conversion. -/
theorem scanSpec_plain {c : UInt8} (h0 : c ≠ '0'.toUInt8) (hd : isDigit c = false) (hl : c ≠ 'l'.toUInt8) (hz : c ≠ 'z'.toUInt8)
    (t : List UInt8) : scanSpec (c :: t) = (⟨' '.toUInt8, 0, .int⟩, c :: t) := by
  have hflag : scanFlag (c :: t) = (' '.toUInt8, c :: t) := if_neg h0
  have hwidth : scanWidth 0 (c :: t) = (0, c :: t) := scanWidth_end fun d hd' => by
    obtain rfl := Option.some.inj hd'
    exact hd
  have hlength : scanLength (c :: t) = (.int, c :: t) := by
    rw [scanLength, if_neg hl, if_neg hz]
  unfold scanSpec
  dsimp only
  rw [hflag]
  dsimp only
  rw [hwidth]
  dsimp only
  rw [hlength]

/-- The flag `-` is taken for a conversion of its own. -/
theorem format_minus : format ap ('%'.toUInt8 :: '-'.toUInt8 :: t) st = format ap t (st.write ['%'.toUInt8, '-'.toUInt8]) := by
  have hspec := @scanSpec_plain '-'.toUInt8 (by decide +kernel) (by decide +kernel) (by decide +kernel) (by decide +kernel) t
  have hrest : (scanSpec ('-'.toUInt8 :: t)).2 = '-'.toUInt8 :: t := by rw [hspec]
  have hno : Conv.ofChar '-'.toUInt8 = none := by decide +kernel
  rw [format_conv hrest]
  unfold Printk.convert
  rw [hno]
  rfl

theorem format_percent : format ap ('%'.toUInt8 :: '%'.toUInt8 :: t) st = format ap t (st.write ['%'.toUInt8]) := by
  have hspec := @scanSpec_plain '%'.toUInt8 (by decide +kernel) (by decide +kernel) (by decide +kernel) (by decide +kernel) t
  have hrest : (scanSpec ('%'.toUInt8 :: t)).2 = '%'.toUInt8 :: t := by rw [hspec]
  have hno : Conv.ofChar '%'.toUInt8 = none := by decide +kernel
  rw [format_conv hrest]
  unfold Printk.convert
  rw [hno]
  rfl

/-- One piece. -/
theorem format_piece (p : Piece) : format ap (p.bytes ++ t) st = format ap t (p.run ap st) := by
  cases p with
  | ordinary c h => exact format_ordinary h.2
  | percent => exact format_percent
  | conv minus zero width len k =>
      cases minus with
      | true =>
          show format ap ('%'.toUInt8 :: '-'.toUInt8 :: (Piece.body zero width len k ++ t)) st = _
          rw [format_minus, format_ordinaries (body_ordinary zero width len k), Printk.write_append]
          rfl
      | false =>
          have hspec := scanSpec_body zero width len k t
          have hrest : (scanSpec (Piece.body zero width len k ++ t)).2 = k.char :: t := by rw [hspec]
          show format ap ('%'.toUInt8 :: (Piece.body zero width len k ++ t)) st = _
          rw [format_conv hrest, hspec]
          unfold Printk.convert
          rw [ofChar_char]
          rfl

/-- All pieces. -/
theorem format_pieces (ps : List Piece) (st : Printk) : format ap (fmtBytes ps) st = .ok (ps.foldl (Piece.run ap) st) := by
  induction ps generalizing st with
  | nil =>
      show format ap [] st = _
      rw [format]
      rfl
  | cons p ps ih =>
      show format ap (p.bytes ++ fmtBytes ps) st = _
      rw [format_piece, ih]
      rfl

theorem noNul_fmtBytes (ps : List Piece) : NoNul (fmtBytes ps) := by
  have hdigit : ∀ d : Fin 10, digitByte d ≠ 0 := by decide +kernel
  have hchar : ∀ k : Conv, k.char ≠ 0 := by
    intro k
    cases k
    all_goals decide +kernel
  have hlen : ∀ len : LenMod, ∀ c ∈ len.bytes, c ≠ 0 := by
    intro len
    cases len
    all_goals decide +kernel
  have hflags : ∀ (c : UInt8) (f : Bool), c ≠ 0 → ∀ d ∈ (if f then [c] else []), d ≠ 0 := by
    intro c f hc d hd
    cases f
    · cases hd
    · rw [List.mem_singleton.mp hd]
      exact hc
  intro c hc
  obtain ⟨p, _, hc⟩ := List.mem_flatMap.mp hc
  cases p with
  | ordinary d h =>
      rw [List.mem_singleton.mp hc]
      exact h.1
  | percent =>
      have hall : ∀ d ∈ Piece.percent.bytes, d ≠ 0 := by decide +kernel
      exact hall c hc
  | conv minus zero width len k =>
      obtain rfl | hc := List.mem_cons.mp hc
      · decide +kernel
      · obtain hc | hc := List.mem_append.mp hc
        · exact hflags _ _ (by decide +kernel) c hc
        · obtain hc | hc := List.mem_append.mp hc
          · exact hflags _ _ (by decide +kernel) c hc
          · obtain hc | hc := List.mem_append.mp hc
            · obtain ⟨d, _, rfl⟩ := List.mem_map.mp hc
              exact hdigit d
            · obtain hc | hc := List.mem_append.mp hc
              · exact hlen len c hc
              · rw [List.mem_singleton.mp hc]
                exact hchar k

/-! ### Conversions and arguments -/

theorem convs_cons (p : Piece) (ps : List Piece) : convs (p :: ps) = convs [p] ++ convs ps :=
  List.filterMap_append (l := [p])

/-- A conversion with the flag `-` takes no argument. -/
theorem Piece.run_taken (ap : VaList) (p : Piece) (st : Printk) :
    (p.run ap st).taken + (if p.minus then 1 else 0) = st.taken + (convs [p]).length := by
  cases p with
  | ordinary c h => rfl
  | percent => rfl
  | conv minus zero width len k =>
      cases minus
      · rfl
      · rfl

theorem taken_run (ap : VaList) (ps : List Piece) (st : Printk) :
    (ps.foldl (Piece.run ap) st).taken + ps.countP Piece.minus = st.taken + (convs ps).length := by
  induction ps generalizing st with
  | nil => rfl
  | cons p ps ih =>
      have hp := p.run_taken ap st
      have hps := ih (p.run ap st)
      rw [List.foldl_cons, List.countP_cons, convs_cons, List.length_append]
      omega

/-- All others take the next one, and print it. -/
theorem Piece.run_plain (ap : VaList) (p : Piece) (st : Printk) (hp : p.minus = false) :
    (p.run ap st).log = st.log ++ (convs [p]).zipIdx st.taken ∧ (p.run ap st).out = st.out ++ p.print ap st.taken ∧
      (p.run ap st).taken = st.taken + (convs [p]).length := by
  cases p with
  | ordinary c h => exact ⟨(List.append_nil _).symm, rfl, rfl⟩
  | percent => exact ⟨(List.append_nil _).symm, rfl, rfl⟩
  | conv minus zero width len k =>
      obtain rfl : minus = false := hp
      exact ⟨rfl, rfl, rfl⟩

theorem run_plain (ap : VaList) (ps : List Piece) (st : Printk) (hps : ∀ p ∈ ps, p.minus = false) :
    (ps.foldl (Piece.run ap) st).log = st.log ++ (convs ps).zipIdx st.taken ∧
      (ps.foldl (Piece.run ap) st).out = st.out ++ render ap ps st.taken ∧
      (ps.foldl (Piece.run ap) st).taken = st.taken + (convs ps).length := by
  induction ps generalizing st with
  | nil => exact ⟨(List.append_nil _).symm, (List.append_nil _).symm, rfl⟩
  | cons p ps ih =>
      obtain ⟨hlog, hout, htaken⟩ := p.run_plain ap st (hps p List.mem_cons_self)
      obtain ⟨hlogs, houts, htakens⟩ := ih (p.run ap st) fun q hq => hps q (List.mem_cons_of_mem _ hq)
      rw [List.foldl_cons, hlogs, houts, htakens, hlog, hout, htaken, convs_cons p ps, render]
      refine ⟨?_, ?_, ?_⟩
      · rw [List.zipIdx_append, List.append_assoc]
      · rw [List.append_assoc]
      · rw [List.length_append, Nat.add_assoc]

/-- **Which formats keep conversions and arguments together.**  For every format of ordinary characters, `%%`
and conversions, and for all arguments: `vprintk` takes exactly one argument for each conversion other than `%%`, and
prints the `k`-th argument as the `k`-th conversion, if and only if no conversion has the flag `-`.  It then writes
what the pieces print, one after the other. -/
theorem vprintk_args_iff (ap : VaList) (ps : List Piece) :
    ((∃ st, vprintk (boundedString (fmtBytes ps)) ap ((fmtBytes ps).length + 1) 0 .start = .ok ((fmtBytes ps).length, st) ∧
      st.taken = (convs ps).length ∧ st.log = (convs ps).zipIdx) ↔ ∀ p ∈ ps, p.minus = false) ∧
    ((∀ p ∈ ps, p.minus = false) → ∃ st,
      vprintk (boundedString (fmtBytes ps)) ap ((fmtBytes ps).length + 1) 0 .start = .ok ((fmtBytes ps).length, st) ∧
        st.out = render ap ps 0) := by
  have hrun : vprintk (boundedString (fmtBytes ps)) ap ((fmtBytes ps).length + 1) 0 .start =
      .ok ((fmtBytes ps).length, ps.foldl (Piece.run ap) .start) := by
    rw [vprintk_boundedString (noNul_fmtBytes ps) (Nat.lt_succ_self _), format_pieces]
    rfl
  rw [hrun]
  refine ⟨⟨?_, fun hps => ?_⟩, fun hps => ?_⟩
  · rintro ⟨st, hst, htaken, _⟩
    obtain ⟨_, rfl⟩ := Prod.mk.inj (Except.ok.inj hst)
    have hcount := taken_run ap ps .start
    have hnone : ps.countP Piece.minus = 0 := by
      rw [htaken, show Printk.start.taken = 0 from rfl] at hcount
      omega
    intro p hp
    exact Bool.eq_false_iff.mpr (List.countP_eq_zero.mp hnone p hp)
  · obtain ⟨hlog, _, htaken⟩ := run_plain ap ps .start hps
    exact ⟨_, rfl, htaken.trans (Nat.zero_add _), hlog⟩
  · obtain ⟨_, hout, _⟩ := run_plain ap ps .start hps
    exact ⟨_, rfl, hout⟩

/-- The columns of `proc_dump_all`: `%-4u %-10s`. -/
def tableRow : List Piece :=
  [.conv true false [4] .none .u, .ordinary ' '.toUInt8 (by decide +kernel), .conv true false [1, 0] .none .s]

/-- No argument is taken for its two conversions. -/
theorem vprintk_table_row : ∃ st, vprintk (boundedString (fmtBytes tableRow)) .zeros 11 0 .start = .ok (10, st) ∧
    st.taken = 0 ∧ (convs tableRow).length = 2 ∧ st.out = fmtBytes tableRow :=
  ⟨_, rfl, rfl, rfl, rfl⟩

end HeroOS
