import HeroOS.Shell
import HeroOS.Words

/-! # Cutting a command line into words

`tokenize` of `userspace/heroshell/heroshell.c` as the C code has it: the line and the array `argv` are changed in place,
a store outside either of them has no result, and the outer loop is left at the end of the line, behind trailing blanks, or
when `argv` is full but for its last entry.

* `tokenizeLoop_eq`: it cuts the line as `tokenizeFrom` does, and `argv` holds where the words start;
* `tokenizeFrom_words`: these are the words of the line, each with its terminator;
* `tokenize_line`: for every line, and every length of `argv`. -/

namespace HeroOS

open CString Words

/-- `argv[i] = arg;` in an array of `maxArgs` entries; a pointer into the line is an offset, and `NULL` is `none`. -/
def storeArg (maxArgs : ℕ) (argv : ℕ → Option ℕ) (i : ℕ) (arg : Option ℕ) : Except Halt (ℕ → Option ℕ) :=
  if i < maxArgs then .ok (Function.update argv i arg) else .error .overrun

/-- The outer loop of `tokenize`. -/
def tokenizeLoop (size maxArgs : ℕ) :
    ℕ → Buf → (ℕ → Option ℕ) → ℕ → ℕ → Except Halt (Buf × (ℕ → Option ℕ) × ℕ)
  | 0, _, _, _, _ => .error .outOfFuel
  | fuel + 1, line, argv, argc, p =>
      if p ≥ size then .error .overrun
      else if line p = 0 ∨ ¬ argc < maxArgs - 1 then .ok (line, argv, argc)
      else do
        let word ← scanWhile isBlank line (size - p) p
        if line word = 0 then .ok (line, argv, argc)
        else do
          let argv ← storeArg maxArgs argv argc (some word)
          let behind ← scanWhile inWord line (size - word) word
          if line behind ≠ 0 then
            tokenizeLoop size maxArgs fuel (Function.update line behind 0) argv (argc + 1) (behind + 1)
          else tokenizeLoop size maxArgs fuel line argv (argc + 1) behind

/-- `tokenize(line, argv, max_args)` on a line of `size` bytes: the line, the array and the result. -/
def tokenizeArgv (fuel : ℕ) (line : Buf) (size : ℕ) (argv : ℕ → Option ℕ) (maxArgs : ℕ) :
    Except Halt (Buf × (ℕ → Option ℕ) × ℕ) := do
  let (line, argv, argc) ← tokenizeLoop size maxArgs fuel line argv 0 0
  let argv ← storeArg maxArgs argv argc none
  .ok (line, argv, argc)

variable {line line' buf : Buf} {s : List UInt8} {n p size args maxArgs argc fuel : ℕ} {ws : List ℕ}

/-! ### Scanning -/

/-- What is left of a string behind its first part. -/
theorem cstrFrom_suffix {a b : List UInt8} (h : cstrFrom buf n p = .ok (a ++ b)) :
    cstrFrom buf (n - a.length) (p + a.length) = .ok b := by
  obtain ⟨hlen, hs, hb⟩ := cstrFrom_eq_ok_iff.mp h
  rw [List.length_append] at hlen hb
  refine cstrFrom_eq_ok_iff.mpr ⟨by omega, fun c hc => hs c (List.mem_append_right _ hc), fun j hj => ?_⟩
  have hbyte := hb (a.length + j) (by omega)
  rw [← Nat.add_assoc, List.getD_append_right _ _ _ _ (Nat.le_add_right _ _), Nat.add_sub_cancel_left] at hbyte
  exact hbyte

/-- A scan splits the string in front of the first character that fails the test, or takes all of it. -/
theorem scanWhile_split {test : UInt8 → Bool} (h0 : test 0 = false) (h : cstrFrom buf n p = .ok s) :
    ∃ a b, s = a ++ b ∧ (∀ c ∈ a, test c = true) ∧ (∀ c ∈ b.head?, test c = false) ∧
      scanWhile test buf n p = .ok (p + a.length) := by
  induction n generalizing p s with
  | zero => cases h
  | succ n ih =>
      rw [cstrFrom] at h
      rw [scanWhile]
      split at h
      · rename_i hz
        cases h
        rw [hz, h0]
        exact ⟨[], [], rfl, by simp, by simp, rfl⟩
      · obtain ⟨t, ht, h⟩ := bind_eq_ok.mp h
        cases h
        by_cases htest : test (buf p) = true
        · obtain ⟨a, b, rfl, ha, hb, hscan⟩ := ih ht
          refine ⟨buf p :: a, b, rfl, ?_, hb, ?_⟩
          · intro c hc
            obtain rfl | hc := List.mem_cons.mp hc
            · exact htest
            · exact ha c hc
          · rw [if_pos htest, hscan, List.length_cons]
            exact congrArg Except.ok (by omega)
        · refine ⟨[], buf p :: t, rfl, by simp, ?_, if_neg htest⟩
          intro c hc
          obtain rfl := Option.some.inj hc
          exact Bool.not_eq_true _ ▸ htest

theorem inWord_iff (c : UInt8) : inWord c = true ↔ c ≠ 0 ∧ isBlank c = false := by
  unfold inWord
  rw [Bool.and_eq_true, decide_eq_true_iff, Bool.not_eq_true']

theorem isBlank_of_not_inWord {c : UInt8} (h0 : c ≠ 0) (h : inWord c = false) : isBlank c = true := by
  by_contra hb
  rw [Bool.not_eq_true] at hb
  rw [(inWord_iff c).mpr ⟨h0, hb⟩] at h
  cases h

/-- The byte at the start of a string is its first character or the terminator. -/
theorem cstrFrom_head (h : cstrFrom buf n p = .ok s) : buf p = s.getD 0 0 := (cstrFrom_eq_ok_iff.mp h).2.2 0 (Nat.zero_le _)

/-! ### The words of the line -/

/-- The line has been cut: at every offset of `ws` stands the word of its place, and nothing outside the text at `p` has
been written. -/
structure Cut (size p : ℕ) (s : List UInt8) (args : ℕ) (line line' : Buf) (ws : List ℕ) : Prop where
  found : List.Forall₂ (fun word text => p ≤ word ∧ cstrFrom line' (size - word) word = .ok text) ws
    ((Words.words isBlank s).take args)
  outside : ∀ i, i < p ∨ p + s.length ≤ i → line' i = line i

theorem Cut.of_none (h : (Words.words isBlank s).take args = []) : Cut size p s args line line [] := by
  refine ⟨?_, fun _ _ => rfl⟩
  rw [h]
  exact .nil

/-- The words of a text that starts with a word. -/
theorem words_front {w r : List UInt8} (hw0 : w ≠ []) (hw : ∀ d ∈ w, isBlank d = false)
    (hr : ∀ d ∈ r.head?, isBlank d = true) : Words.words isBlank (w ++ r) = w :: Words.words isBlank r.tail := by
  cases r with
  | nil =>
      rw [List.append_nil]
      exact words_last hw0 hw
  | cons d r => exact words_word hw0 hw (hr d rfl) r

/-- One more word in front, where the line has been cut behind it before the others were found. -/
theorem Cut.cons {line₁ : Buf} {blanks w r : List UInt8} (h : cstrFrom line (size - p) p = .ok (blanks ++ (w ++ r)))
    (hblank : ∀ d ∈ blanks, isBlank d = true) (hw0 : w ≠ []) (hw : ∀ d ∈ w, isBlank d = false)
    (hr : ∀ d ∈ r.head?, isBlank d = true) (hkeep : ∀ i, i ≠ p + blanks.length + w.length → line₁ i = line i)
    (hcut : line₁ (p + blanks.length + w.length) = 0)
    (hout : ∀ i, i ≤ p + blanks.length + w.length ∨ p + blanks.length + w.length + r.length ≤ i → line' i = line₁ i)
    (hrest : List.Forall₂ (fun word text => p ≤ word ∧ cstrFrom line' (size - word) word = .ok text) ws
      ((Words.words isBlank r.tail).take args)) :
    Cut size p (blanks ++ (w ++ r)) (args + 1) line line' ((p + blanks.length) :: ws) := by
  obtain ⟨hlen, hnul, hb⟩ := cstrFrom_eq_ok_iff.mp h
  rw [List.length_append, List.length_append] at hlen hb
  refine ⟨?_, fun i hi => ?_⟩
  · rw [words_skip hblank, words_front hw0 hw hr, List.take_succ_cons]
    refine .cons ⟨Nat.le_add_right _ _, ?_⟩ hrest
    refine cstrFrom_eq_ok_iff.mpr ⟨by omega, fun d hd => hnul d (by simp [hd]), fun j hj => ?_⟩
    rw [hout _ (by omega)]
    by_cases hjw : j = w.length
    · subst hjw
      rw [hcut, List.getD_eq_default _ _ (le_refl _)]
    · have hlt : j < w.length := by omega
      have hbyte := hb (blanks.length + j) (by omega)
      rw [List.getD_append_right _ _ _ _ (Nat.le_add_right _ _), Nat.add_sub_cancel_left,
        List.getD_append _ _ _ _ hlt] at hbyte
      rw [hkeep _ (by omega), Nat.add_assoc, hbyte]
  · rw [List.length_append, List.length_append] at hi
    have hpos := List.length_pos_of_ne_nil hw0
    rw [hout i (by omega)]
    by_cases hi' : i = p + blanks.length + w.length
    · -- the terminator of the line itself, where no character follows the word
      obtain rfl : r = [] := List.eq_nil_of_length_eq_zero (by omega)
      have hend := hb (blanks.length + w.length) (by omega)
      rw [List.append_nil, List.getD_eq_default _ _ (by rw [List.length_append]), ← Nat.add_assoc] at hend
      rw [hi', hcut, hend]
    · exact hkeep i hi'

/-- The rest of a line at its terminator. -/
theorem eq_nil_of_terminator (h : cstrFrom line n p = .ok s) (h0 : line p = 0) : s = [] := by
  cases s with
  | nil => rfl
  | cons c s => exact absurd ((cstrFrom_head h).symm.trans h0) ((cstrFrom_eq_ok_iff.mp h).2.1 c List.mem_cons_self)

/-- **The words.** -/
theorem tokenizeFrom_words (h : cstrFrom line (size - p) p = .ok s) :
    ∃ line' ws, tokenizeFrom size args line p = .ok (line', ws) ∧ Cut size p s args line line' ws := by
  induction args generalizing line p s with
  | zero =>
      have hlen := (cstrFrom_eq_ok_iff.mp h).1
      refine ⟨line, [], ?_, .of_none List.take_zero⟩
      rw [tokenizeFrom, if_neg (by omega)]
      split <;> rfl
  | succ args ih =>
      obtain ⟨hlen, hnul, _⟩ := cstrFrom_eq_ok_iff.mp h
      rw [tokenizeFrom, if_neg (by omega)]
      by_cases hend : line p = 0
      · -- the end of the line
        obtain rfl : s = [] := eq_nil_of_terminator h hend
        rw [if_pos hend]
        exact ⟨line, [], rfl, .of_none List.take_nil⟩
      · rw [if_neg hend]
        obtain ⟨blanks, t, rfl, hblank, hword, hscan⟩ := scanWhile_split (show isBlank 0 = false from rfl) h
        have ht := cstrFrom_suffix h
        rw [Nat.sub_sub] at ht
        dsimp only
        rw [hscan]
        change ∃ line' ws, (if line (p + blanks.length) = 0 then _ else _) = _ ∧ _
        by_cases hz : line (p + blanks.length) = 0
        · -- nothing but blanks is left
          obtain rfl : t = [] := eq_nil_of_terminator ht hz
          refine ⟨line, [], if_pos hz, .of_none ?_⟩
          rw [List.append_nil, words_sep hblank, List.take_nil]
        · rw [if_neg hz]
          obtain ⟨w, r, rfl, hin, hbehind, hscan'⟩ := scanWhile_split (show inWord 0 = false from rfl) ht
          have hr := cstrFrom_suffix ht
          rw [Nat.sub_sub] at hr
          have hwb : ∀ d ∈ w, isBlank d = false := fun d hd => (inWord_iff d).mp (hin d hd) |>.2
          have hrb : ∀ d ∈ r.head?, isBlank d = true := by
            intro d hd
            have hd0 : d ≠ 0 := hnul d (by simp [List.mem_of_mem_head? hd])
            exact isBlank_of_not_inWord hd0 (hbehind d hd)
          have hw0 : w ≠ [] := by
            rintro rfl
            cases r with
            | nil => exact hz (cstrFrom_head ht)
            | cons d r =>
                exact Bool.false_ne_true ((hword d rfl).symm.trans (hrb d rfl))
          rw [hscan']
          change ∃ line' ws, (if line (p + blanks.length + w.length) ≠ 0 then _ else _) = _ ∧ _
          by_cases hzb : line (p + blanks.length + w.length) = 0
          · -- the word is the last one
            obtain rfl : r = [] := eq_nil_of_terminator hr hzb
            obtain ⟨line', ws, hrest, hcut⟩ := ih hr
            rw [if_neg (not_not.mpr hzb), hrest]
            refine ⟨line', _, rfl, Cut.cons h hblank hw0 hwb hrb (fun _ _ => rfl) hzb (fun i _ => ?_) ?_⟩
            · exact hcut.outside i (by rw [List.length_nil]; omega)
            · exact hcut.found.imp fun word text hword => ⟨by omega, hword.2⟩
          · obtain ⟨d, r, rfl⟩ : ∃ d r', r = d :: r' := by
              cases r with
              | nil => exact absurd (cstrFrom_head hr) hzb
              | cons d r => exact ⟨d, r, rfl⟩
            have hnext : cstrFrom (Function.update line (p + blanks.length + w.length) 0)
                (size - (p + blanks.length + w.length + 1)) (p + blanks.length + w.length + 1) = .ok r := by
              rw [cstrFrom_congr fun j hj _ => Function.update_of_ne (by omega) _ _, ← Nat.sub_sub]
              exact cstrFrom_suffix (a := [d]) hr
            obtain ⟨line', ws, hrest, hcut⟩ := ih hnext
            rw [if_pos hzb, hrest]
            refine ⟨line', _, rfl, Cut.cons h hblank hw0 hwb hrb (fun i hi => Function.update_of_ne hi _ _)
              (Function.update_self _ _ _) (fun i hi => ?_) ?_⟩
            · rw [List.length_cons] at hi
              exact hcut.outside i (by omega)
            · exact hcut.found.imp fun word text hword => ⟨by omega, hword.2⟩

/-! ### The array -/

/-- The array with the offsets `ws` from the entry `argc` on. -/
def argvWith (argv : ℕ → Option ℕ) (argc : ℕ) (ws : List ℕ) : ℕ → Option ℕ := fun i =>
  if argc ≤ i ∧ i < argc + ws.length then ws[i - argc]? else argv i

theorem argvWith_nil (argv : ℕ → Option ℕ) (argc : ℕ) : argvWith argv argc [] = argv := by
  funext i
  exact if_neg (by rw [List.length_nil]; omega)

theorem argvWith_cons (argv : ℕ → Option ℕ) (argc word : ℕ) (ws : List ℕ) :
    argvWith (Function.update argv argc (some word)) (argc + 1) ws = argvWith argv argc (word :: ws) := by
  funext i
  unfold argvWith
  rw [List.length_cons]
  by_cases hi : i = argc
  · subst hi
    rw [if_neg (by omega), if_pos (by omega), Function.update_self, Nat.sub_self]
    rfl
  · rw [Function.update_of_ne hi]
    by_cases hin : argc + 1 ≤ i ∧ i < argc + 1 + ws.length
    · obtain ⟨j, rfl⟩ : ∃ j, i = argc + 1 + j := ⟨i - (argc + 1), by omega⟩
      have hj : argc + 1 + j - argc = j + 1 := by omega
      rw [if_pos hin, if_pos (by omega), Nat.add_sub_cancel_left, hj, List.getElem?_cons_succ]
    · rw [if_neg hin, if_neg (by omega)]

/-- **The loop** cuts the line as `tokenizeFrom` does, and stores where the words start. -/
theorem tokenizeLoop_eq {argv : ℕ → Option ℕ} (h : tokenizeFrom size args line p = .ok (line', ws))
    (hargs : argc + args = maxArgs - 1) (hmax : 1 ≤ maxArgs) (hfuel : args < fuel) :
    tokenizeLoop size maxArgs fuel line argv argc p = .ok (line', argvWith argv argc ws, argc + ws.length) := by
  induction args generalizing fuel line p argc argv ws with
  | zero =>
      obtain ⟨fuel, rfl⟩ : ∃ k, fuel = k + 1 := ⟨fuel - 1, by omega⟩
      rw [tokenizeFrom] at h
      rw [tokenizeLoop]
      split at h
      · cases h
      · rename_i hp
        rw [if_neg hp, if_pos (.inr (by omega))]
        split at h
        · cases h
          rw [argvWith_nil]
          rfl
        · cases h
          rw [argvWith_nil]
          rfl
  | succ args ih =>
      obtain ⟨fuel, rfl⟩ : ∃ k, fuel = k + 1 := ⟨fuel - 1, by omega⟩
      rw [tokenizeFrom] at h
      rw [tokenizeLoop]
      split at h
      · cases h
      · rename_i hp
        rw [if_neg hp]
        split at h
        · rename_i hz
          cases h
          rw [if_pos (.inl hz), argvWith_nil]
          rfl
        · rename_i hz
          have hroom : ¬ (line p = 0 ∨ ¬ argc < maxArgs - 1) := by
            rintro (h0 | hfull)
            · exact hz h0
            · omega
          obtain ⟨word, hword, h⟩ := bind_eq_ok.mp h
          rw [if_neg hroom, hword]
          change (if line word = 0 then _ else _) = _
          split at h
          · rename_i hz'
            cases h
            rw [if_pos hz', argvWith_nil]
            rfl
          · rename_i hz'
            obtain ⟨behind, hbehind, h⟩ := bind_eq_ok.mp h
            rw [if_neg hz', storeArg, if_pos (by omega), hbehind]
            change (if line behind ≠ 0 then _ else _) = _
            split at h
            all_goals
              rename_i hcut
              obtain ⟨⟨line₂, ws₂⟩, hrest, h⟩ := bind_eq_ok.mp h
              cases h
            · rw [if_pos hcut, ih hrest (by omega) (by omega), argvWith_cons, List.length_cons]
              exact congrArg Except.ok (Prod.ext rfl (Prod.ext rfl (by dsimp only; omega)))
            · rw [if_neg hcut, ih hrest (by omega) (by omega), argvWith_cons, List.length_cons]
              exact congrArg Except.ok (Prod.ext rfl (Prod.ext rfl (by dsimp only; omega)))

/-- What `tokenize` leaves of a line with the text `s`, and in the array. -/
structure Tokenized (line : Buf) (size : ℕ) (s : List UInt8) (argv : ℕ → Option ℕ) (maxArgs : ℕ) (line' : Buf)
    (argv' : ℕ → Option ℕ) (argc : ℕ) : Prop where
  argc_eq : argc = min (Words.words isBlank s).length (maxArgs - 1)
  arg : ∀ i text, i < argc → (Words.words isBlank s)[i]? = some text →
    ∃ arg, argv' i = some arg ∧ cstrFrom line' (size - arg) arg = .ok text
  last : argv' argc = none
  line_kept : ∀ i, s.length ≤ i → line' i = line i
  argv_kept : ∀ i, argc < i → argv' i = argv i

/-- **`tokenize`** returns for every terminated line and every array of at least one entry, without a store outside of
either: `argc` is the number of words, or the number of entries but one where that is smaller; the entries before it point
to the words, each terminated; the entry behind them is `NULL`; and the terminator of the line, what follows it, and the
entries that are left are not written. -/
theorem tokenize_line (h : cstr line size = .ok s) (hmax : 1 ≤ maxArgs) (argv : ℕ → Option ℕ) :
    ∃ line' argv' argc, (∀ fuel, maxArgs ≤ fuel → tokenizeArgv fuel line size argv maxArgs = .ok (line', argv', argc)) ∧
      Tokenized line size s argv maxArgs line' argv' argc := by
  obtain ⟨line', ws, hfrom, hcut⟩ : ∃ line' ws, tokenizeFrom size (maxArgs - 1) line 0 = .ok (line', ws) ∧
    Cut size 0 s (maxArgs - 1) line line' ws := tokenizeFrom_words h
  have hlen : ws.length = min (Words.words isBlank s).length (maxArgs - 1) := by
    rw [hcut.found.length_eq, List.length_take, Nat.min_comm]
  refine ⟨line', Function.update (argvWith argv 0 ws) ws.length none, ws.length, fun fuel hfuel => ?_, hlen, ?_, ?_, ?_, ?_⟩
  · rw [tokenizeArgv, tokenizeLoop_eq hfrom (Nat.zero_add _) hmax (by omega), Nat.zero_add]
    change (storeArg maxArgs _ ws.length none >>= _) = _
    rw [storeArg, if_pos (by omega)]
    rfl
  · intro i text hi htext
    obtain ⟨_, hstr⟩ := (List.forall₂_iff_get.mp hcut.found).2 i hi (by rw [List.length_take]; omega)
    rw [List.get_eq_getElem, List.get_eq_getElem, List.getElem_take] at hstr
    refine ⟨ws[i], ?_, ?_⟩
    · rw [Function.update_of_ne (by omega), argvWith, if_pos (by omega), Nat.sub_zero, List.getElem?_eq_getElem hi]
    · rw [hstr]
      exact congrArg Except.ok (List.getElem?_eq_some_iff.mp htext).2
  · exact Function.update_self _ _ _
  · exact fun i hi => hcut.outside i (.inr (by omega))
  · intro i hi
    rw [Function.update_of_ne (by omega), argvWith, if_neg (by omega)]

/-- A line with blanks on both sides, and an array of three entries. -/
theorem tokenize_line_three :
    let line := ofList (chars "  ls\t/a b ")
    ∃ line' argv' argc, (∀ fuel, 3 ≤ fuel → tokenizeArgv fuel line 16 (fun _ => some 9) 3 = .ok (line', argv', argc)) ∧
      Tokenized line 16 (chars "  ls\t/a b ") (fun _ => some 9) 3 line' argv' argc := by
  intro line
  have h : cstr line 16 = .ok (chars "  ls\t/a b ") := by decide +kernel
  exact tokenize_line h (by decide) _

end HeroOS
