import HeroOS.CString
import HeroOS.Keyboard

/-! # The line editor of the shell

`userspace/heroshell/heroshell.c`: `shell_run` reads key events into a line of 1024 bytes.  Arrow keys
walk through the history; the text typed so far is kept in a second buffer of the same size on the
first step up and copied back on the last step down.  A store outside a buffer, a read through a null
pointer and a string without terminator have no result (`Halt.overrun`).

* `EditorOk`: the cursor stands on the terminator of the line, and the place in the history exists;
* `shell_line_editor`: no stream of key events and no history breaks it, and as many steps down as up
  give the typed text back. -/

namespace HeroOS

open CString

/-- `SHELL_LINE_MAX` -/
def SHELL_LINE_MAX : ℕ := 1024
/-- `SHELL_HIST_SIZE` -/
def SHELL_HIST_SIZE : ℕ := 256
/-- `SHELL_MAX_ARGS` -/
def SHELL_MAX_ARGS : ℕ := 64
/-- `KEY_ARROW_UP` -/
def KEY_ARROW_UP : UInt8 := 0x48
/-- `KEY_ARROW_DOWN` -/
def KEY_ARROW_DOWN : UInt8 := 0x50

/-! ### Command lines -/

/-- The functions of the built-in commands. -/
inductive Builtin where
  | help
  | exit
  | echo
  | cd
  | ls
  | cat
  | pwd
  | clear
  | hero
deriving DecidableEq, Repr

/-- The name of a built-in command. -/
def Builtin.name : Builtin → List UInt8
  | .help => chars "help"
  | .exit => chars "exit"
  | .echo => chars "echo"
  | .cd => chars "cd"
  | .ls => chars "ls"
  | .cat => chars "cat"
  | .pwd => chars "pwd"
  | .clear => chars "clear"
  | .hero => chars "hero"

/-- `builtins` -/
def builtins : List Builtin := [.help, .exit, .echo, .cd, .ls, .cat, .pwd, .clear, .hero]

/-- A space or a tab. -/
def isBlank (c : UInt8) : Bool := c = 0x20 || c = 0x09

/-- A byte that neither ends the line nor separates words. -/
def inWord (c : UInt8) : Bool := c ≠ 0 && !isBlank c

/-- `while (test(*p)) p++;` at offset `p` of a buffer that has `n` more bytes. -/
def scanWhile (test : UInt8 → Bool) (buf : Buf) : ℕ → ℕ → Except Halt ℕ
  | 0, _ => .error .overrun
  | n + 1, p => if test (buf p) then scanWhile test buf n (p + 1) else .ok p

/-- The loop of `tokenize` with room for so many more words: the line, cut into words, and where they
start. -/
def tokenizeFrom (size : ℕ) : ℕ → Buf → ℕ → Except Halt (Buf × List ℕ)
  | args, line, p =>
      if p ≥ size then .error .overrun
      else if line p = 0 then .ok (line, [])
      else match args with
        | 0 => .ok (line, [])
        | args + 1 => do
            let word ← scanWhile isBlank line (size - p) p
            if line word = 0 then .ok (line, [])
            else do
              let behind ← scanWhile inWord line (size - word) word
              let rest ←
                if line behind ≠ 0 then tokenizeFrom size args (Function.update line behind 0) (behind + 1)
                else tokenizeFrom size args line behind
              .ok (rest.1, word :: rest.2)

/-- `tokenize`, on a line of `size` bytes. -/
def tokenize (line : Buf) (size maxArgs : ℕ) : Except Halt (Buf × List ℕ) := tokenizeFrom size (maxArgs - 1) line 0

/-- The built-in command that `shell_exec_line` runs for a line, if any.  Every byte of its copy of the
line is written, so that it does not matter what the stack held before. -/
def shellExecLine (line : Buf) : Except Halt (Option Builtin) :=
  if line 0 = 0 then .ok none
  else do
    let buf := Function.update (strncpyBuf line line (SHELL_LINE_MAX - 1)) (SHELL_LINE_MAX - 1) 0
    let (buf, argv) ← tokenize buf SHELL_LINE_MAX SHELL_MAX_ARGS
    match argv with
    | [] => .ok none
    | arg :: _ => .ok (builtins.find? fun builtin => strcmpEqFrom buf builtin.name arg)

/-! ### The editor -/

/-- The static variables of the shell and the variables of `shell_run`. -/
structure Shell where
  /-- `hist_buf` -/
  histBuf : ℕ → Buf
  /-- `hist_count` -/
  histCount : ℕ
  /-- `hist_head` -/
  histHead : ℕ
  /-- `shell_should_exit` -/
  shouldExit : Bool
  line : Buf
  /-- `saved_line` -/
  savedLine : Buf
  pos : ℤ
  /-- `hist_nav` -/
  histNav : ℤ
  /-- `shell_run` has not returned. -/
  running : Bool

namespace Shell

/-- `line[i] = c;` -/
def putLine (s : Shell) (i : ℤ) (c : UInt8) : Except Halt Shell :=
  if 0 ≤ i ∧ i < SHELL_LINE_MAX then .ok { s with line := Function.update s.line i.toNat c } else .error .overrun

/-- `hist_add` -/
def histAdd (s : Shell) (line : Buf) : Shell :=
  let idx := (s.histHead + s.histCount) % SHELL_HIST_SIZE
  let row := Function.update (strncpyBuf (s.histBuf idx) line (SHELL_LINE_MAX - 1)) (SHELL_LINE_MAX - 1) 0
  let s := { s with histBuf := Function.update s.histBuf idx row }
  if s.histCount < SHELL_HIST_SIZE then { s with histCount := s.histCount + 1 }
  else { s with histHead := (s.histHead + 1) % SHELL_HIST_SIZE }

/-- `hist_get` -/
def histGet (s : Shell) (offset : ℤ) : Option Buf :=
  if offset < 0 ∨ offset ≥ s.histCount then none
  else some (s.histBuf ((s.histHead + s.histCount - 1 - offset.toNat) % SHELL_HIST_SIZE))

/-- The start of the outer loop of `shell_run`. -/
def startLine (s : Shell) : Shell :=
  { s with pos := 0, histNav := -1, line := fun _ => 0, savedLine := fun _ => 0 }

/-- `strncpy(line, src, SHELL_LINE_MAX - 1);` -/
def copyToLine (s : Shell) (src : Buf) : Shell := { s with line := strncpyBuf s.line src (SHELL_LINE_MAX - 1) }

/-- `pos = (int)strlen(line);` -/
def posToEnd (s : Shell) : Except Halt Shell := do
  let len ← strlen s.line SHELL_LINE_MAX
  .ok { s with pos := len }

/-- `KEY_ARROW_UP` -/
def arrowUp (s : Shell) : Except Halt Shell :=
  let next := s.histNav + 1
  match s.histGet next with
  | none => .ok s
  | some entry => do
      let s :=
        if s.histNav < 0 then { s with savedLine := strncpyBuf s.savedLine s.line (SHELL_LINE_MAX - 1) } else s
      let s ← ({ s with histNav := next }.copyToLine entry).putLine (SHELL_LINE_MAX - 1) 0
      s.posToEnd

/-- `KEY_ARROW_DOWN` -/
def arrowDown (s : Shell) : Except Halt Shell :=
  if s.histNav < 0 then .ok s
  else if s.histNav > 0 then
    let s := { s with histNav := s.histNav - 1 }
    match s.histGet s.histNav with
    | none => .error .overrun
    | some entry => do
        let s ← (s.copyToLine entry).putLine (SHELL_LINE_MAX - 1) 0
        s.posToEnd
  else ({ s with histNav := -1 }.copyToLine s.savedLine).posToEnd

/-- What `shell_run` does with a completed line: it goes to the history and is executed. -/
def execLine (s : Shell) : Except Halt Shell :=
  if s.pos > 0 then do
    let builtin ← shellExecLine s.line
    .ok { s.histAdd s.line with shouldExit := s.shouldExit || builtin == some .exit }
  else .ok s

/-- The end of the outer loop of `shell_run`. -/
def nextLine (s : Shell) : Shell := if s.shouldExit then { s with running := false } else s.startLine

/-- The end of a line, up to the next one. -/
def enter (s : Shell) : Except Halt Shell := do
  let s ← s.putLine s.pos 0
  let s ← s.execLine
  .ok s.nextLine

/-- `'\b'` -/
def backspace (s : Shell) : Except Halt Shell :=
  if s.pos > 0 then { s with pos := s.pos - 1 }.putLine (s.pos - 1) 0 else .ok s

/-- `0x1B` -/
def escape (s : Shell) : Except Halt Shell := { s with pos := 0, histNav := -1 }.putLine 0 0

/-- A character of the line. -/
def insert (s : Shell) (c : UInt8) : Except Halt Shell :=
  if s.pos < SHELL_LINE_MAX - 1 then do
    let s ← s.putLine s.pos c
    { s with pos := s.pos + 1 }.putLine (s.pos + 1) 0
  else .ok s

/-- The body of the inner loop of `shell_run`, for the event that `keyboard_poll` returns.  No event is
read once `shell_run` has returned. -/
def key (s : Shell) (ev : KeyEvent) : Except Halt Shell :=
  if s.running = false then .ok s
  else if ev.pressed = false then .ok s
  else if ev.extended then
    if ev.scancode = KEY_ARROW_UP then s.arrowUp
    else if ev.scancode = KEY_ARROW_DOWN then s.arrowDown
    else .ok s
  else
    let c := ev.ascii
    if c = 0 then .ok s
    else if c = 0x0D ∨ c = 0x0A then s.enter
    else if c = 0x08 then s.backspace
    else if c = 0x1B then s.escape
    else s.insert c

/-- The events in their order. -/
def keys : List KeyEvent → Shell → Except Halt Shell
  | [], s => .ok s
  | ev :: evs, s => do
      let s ← s.key ev
      keys evs s

/-- `shell_run` as far as the events go. -/
def shellRun (s : Shell) (evs : List KeyEvent) : Except Halt Shell := keys evs { s with running := true }.startLine

end Shell

/-! ### Command lines end -/

theorem scanWhile_ok {test : UInt8 → Bool} {buf : Buf} {n p last : ℕ} (h : test (buf last) = false)
    (hp : p ≤ last) (hn : last < p + n) : ∃ q, scanWhile test buf n p = .ok q ∧ p ≤ q ∧ q ≤ last := by
  induction n generalizing p with
  | zero => omega
  | succ n ih =>
      rw [scanWhile]
      by_cases ht : test (buf p) = true
      · have hne : p ≠ last := by
          rintro rfl
          rw [h] at ht
          cases ht
        obtain ⟨q, hq, hle, hlast⟩ := ih (p := p + 1) (by omega) (by omega)
        exact ⟨q, by rw [if_pos ht, hq], by omega, hlast⟩
      · exact ⟨p, by rw [if_neg ht], le_refl p, hp⟩

theorem tokenizeFrom_ok {size args p last : ℕ} {line : Buf} (hl : last < size) (h0 : line last = 0) (hp : p ≤ last) :
    ∃ r, tokenizeFrom size args line p = .ok r := by
  induction args generalizing line p with
  | zero =>
      rw [tokenizeFrom, if_neg (by omega)]
      split <;> exact ⟨_, rfl⟩
  | succ args ih =>
      rw [tokenizeFrom, if_neg (by omega)]
      split
      · exact ⟨_, rfl⟩
      · have hblank : isBlank (line last) = false := by rw [h0]; rfl
        have hword : inWord (line last) = false := by rw [h0]; rfl
        obtain ⟨word, hw, _, hwl⟩ := scanWhile_ok (n := size - p) hblank hp (by omega)
        obtain ⟨behind, hb, _, hbl⟩ := scanWhile_ok (n := size - word) hword hwl (by omega)
        dsimp only
        rw [hw]
        change ∃ r, (if line word = 0 then _ else _) = _
        split
        · exact ⟨_, rfl⟩
        · rw [hb]
          by_cases hz : line behind = 0
          · obtain ⟨r, hr⟩ := ih h0 hbl
            exact ⟨(r.1, word :: r.2), by simp [hz, hr, bind, Except.bind]⟩
          · have hne : last ≠ behind := by
              rintro rfl
              exact hz h0
            have hcut : Function.update line behind 0 last = 0 := by rw [Function.update_of_ne hne, h0]
            have hnext : behind + 1 ≤ last := by omega
            obtain ⟨r, hr⟩ := ih hcut hnext
            exact ⟨(r.1, word :: r.2), by simp [hz, hr, bind, Except.bind]⟩

/-- Every line is executed: its copy is terminated. -/
theorem shellExecLine_ok (line : Buf) : ∃ builtin, shellExecLine line = .ok builtin := by
  unfold shellExecLine
  split
  · exact ⟨_, rfl⟩
  · have hlast : SHELL_LINE_MAX - 1 < SHELL_LINE_MAX := by decide
    have hend : Function.update (strncpyBuf line line (SHELL_LINE_MAX - 1)) (SHELL_LINE_MAX - 1) 0
        (SHELL_LINE_MAX - 1) = 0 := Function.update_self _ _ _
    have htok : ∃ r, tokenize (Function.update (strncpyBuf line line (SHELL_LINE_MAX - 1)) (SHELL_LINE_MAX - 1) 0)
        SHELL_LINE_MAX SHELL_MAX_ARGS = .ok r := tokenizeFrom_ok hlast hend (Nat.zero_le _)
    obtain ⟨⟨buf, argv⟩, h⟩ := htok
    dsimp only
    rw [h]
    cases argv <;> exact ⟨_, rfl⟩

namespace Shell

variable {s s' : Shell} {text : List UInt8}

/-! ### What the editor keeps -/

/-- The invariant of the loops of `shell_run`. -/
structure EditorOk (s : Shell) : Prop where
  pos_nonneg : 0 ≤ s.pos
  pos_le : s.pos ≤ SHELL_LINE_MAX - 1
  terminated : s.line s.pos.toNat = 0
  strlen_eq : strlen s.line SHELL_LINE_MAX = .ok s.pos.toNat
  nav : s.histNav = -1 ∨ 0 ≤ s.histNav ∧ s.histNav < s.histCount
  line_last : s.line (SHELL_LINE_MAX - 1) = 0
  saved_last : s.savedLine (SHELL_LINE_MAX - 1) = 0

/-- The text on the line, with the cursor behind it. -/
structure Editing (s : Shell) (text : List UInt8) : Prop where
  line : cstr s.line SHELL_LINE_MAX = .ok text
  pos : s.pos = text.length

theorem EditorOk.editing (h : EditorOk s) : ∃ text, Editing s text := by
  obtain ⟨text, hc, hlen⟩ := bind_eq_ok.mp h.strlen_eq
  have hlen : text.length = s.pos.toNat := Except.ok.inj hlen
  refine ⟨text, hc, ?_⟩
  rw [hlen, Int.toNat_of_nonneg h.pos_nonneg]

theorem Editing.length_lt (h : Editing s text) : text.length < SHELL_LINE_MAX := (cstr_eq_ok_iff.mp h.line).1

theorem Editing.editorOk (h : Editing s text) (hnav : s.histNav = -1 ∨ 0 ≤ s.histNav ∧ s.histNav < s.histCount)
    (hline : s.line (SHELL_LINE_MAX - 1) = 0) (hsaved : s.savedLine (SHELL_LINE_MAX - 1) = 0) : EditorOk s := by
  obtain ⟨hlt, _, hb⟩ := cstr_eq_ok_iff.mp h.line
  have hpos : s.pos.toNat = text.length := by rw [h.pos, Int.toNat_natCast]
  refine ⟨?_, ?_, ?_, ?_, hnav, hline, hsaved⟩
  · rw [h.pos]
    exact Int.natCast_nonneg _
  · rw [h.pos]
    unfold SHELL_LINE_MAX at *
    omega
  · rw [hpos, hb _ (le_refl _), List.getD_eq_default _ _ (le_refl _)]
  · rw [hpos, strlen, h.line]
    rfl

theorem putLine_natCast {i : ℕ} (hi : i < SHELL_LINE_MAX) (c : UInt8) :
    s.putLine i c = .ok { s with line := Function.update s.line i c } := by
  have h : 0 ≤ (i : ℤ) ∧ (i : ℤ) < SHELL_LINE_MAX := ⟨Int.natCast_nonneg i, Int.ofNat_lt.mpr hi⟩
  rw [putLine, if_pos h, Int.toNat_natCast]

theorem update_zero {buf : Buf} {i n : ℕ} (h : buf i = 0) : Function.update buf n 0 i = 0 := by
  by_cases hi : i = n
  · rw [hi, Function.update_self]
  · rw [Function.update_of_ne hi, h]

theorem posToEnd_eq (h : cstr s.line SHELL_LINE_MAX = .ok text) : s.posToEnd = .ok { s with pos := text.length } := by
  rw [posToEnd, strlen, h]
  rfl

theorem histGet_isSome (offset : ℤ) (h0 : 0 ≤ offset) (h : offset < s.histCount) :
    ∃ entry, s.histGet offset = some entry := by
  have hnot : ¬ (offset < 0 ∨ offset ≥ s.histCount) := by omega
  rw [histGet, if_neg hnot]
  exact ⟨_, rfl⟩

/-- An entry of the history, whatever it holds, becomes the line. -/
theorem loadEntry (s : Shell) (entry : Buf) :
    ∃ s', ((s.copyToLine entry).putLine (SHELL_LINE_MAX - 1) 0 >>= posToEnd) = .ok s' ∧
      Editing s' (strn entry (SHELL_LINE_MAX - 1)) ∧ s'.line (SHELL_LINE_MAX - 1) = 0 ∧
      s' = { s with line := s'.line, pos := s'.pos } := by
  have hlast : SHELL_LINE_MAX - 1 < SHELL_LINE_MAX := by decide
  have hput := putLine_natCast (s := s.copyToLine entry) hlast 0
  have hcopy : cstr (Function.update (s.copyToLine entry).line (SHELL_LINE_MAX - 1) 0) SHELL_LINE_MAX =
      .ok (strn entry (SHELL_LINE_MAX - 1)) := cstr_strncpyBuf s.line entry hlast
  refine ⟨{ s with
    line := Function.update (s.copyToLine entry).line (SHELL_LINE_MAX - 1) 0
    pos := (strn entry (SHELL_LINE_MAX - 1)).length }, ?_, ⟨hcopy, rfl⟩, ?_, rfl⟩
  · have hcast : (SHELL_LINE_MAX : ℤ) - 1 = (SHELL_LINE_MAX - 1 : ℕ) := by norm_num [SHELL_LINE_MAX]
    rw [hcast, hput]
    exact posToEnd_eq hcopy
  · dsimp only
    exact Function.update_self _ _ _

/-! ### One event -/

/-- The buffer with the text typed last: the line, or its copy during a walk through the history. -/
def typed (s : Shell) : Buf := if s.histNav < 0 then s.line else s.savedLine

/-- A step through the history to the place `nav`. -/
structure Walked (s s' : Shell) (nav : ℤ) : Prop where
  ok : EditorOk s'
  nav : s'.histNav = nav
  histCount : s'.histCount = s.histCount
  running : s'.running = s.running
  typed : ∀ text, cstr s.typed SHELL_LINE_MAX = .ok text → cstr s'.typed SHELL_LINE_MAX = .ok text

theorem EditorOk.stay (h : EditorOk s) : Walked s s s.histNav := ⟨h, rfl, rfl, rfl, fun _ ht => ht⟩

/-- The copy of the line holds its text. -/
theorem EditorOk.cstr_saved (h : EditorOk s) (hc : cstr s.line SHELL_LINE_MAX = .ok text) :
    cstr (strncpyBuf s.savedLine s.line (SHELL_LINE_MAX - 1)) SHELL_LINE_MAX = .ok text := by
  obtain ⟨hlt, hs, _⟩ := cstr_eq_ok_iff.mp hc
  have hlen : text.length ≤ SHELL_LINE_MAX - 1 := Nat.le_pred_of_lt hlt
  rw [strncpyBuf, strn_of_cstr hc hlen]
  exact cstr_strncpy hs hlen (by decide) h.saved_last

theorem EditorOk.arrowUp (h : EditorOk s) :
    ∃ s', s.arrowUp = .ok s' ∧ Walked s s' (min (s.histNav + 1) (s.histCount - 1)) := by
  have hnav := h.nav
  by_cases hend : s.histNav + 1 < s.histCount
  · obtain ⟨entry, hentry⟩ := histGet_isSome (s := s) (s.histNav + 1) (by omega) hend
    unfold Shell.arrowUp
    dsimp only
    rw [hentry]
    dsimp only
    have hmin : min (s.histNav + 1) ((s.histCount : ℤ) - 1) = s.histNav + 1 := by omega
    rw [hmin]
    by_cases hneg : s.histNav < 0
    · rw [if_pos hneg]
      obtain ⟨s', hs', hed, hl, heq⟩ := loadEntry { s with
        savedLine := strncpyBuf s.savedLine s.line (SHELL_LINE_MAX - 1), histNav := s.histNav + 1 } entry
      have hnav' : s'.histNav = s.histNav + 1 := by rw [heq]
      have hcount : s'.histCount = s.histCount := by rw [heq]
      have hsaved : s'.savedLine = strncpyBuf s.savedLine s.line (SHELL_LINE_MAX - 1) := by rw [heq]
      have hzero : s'.savedLine (SHELL_LINE_MAX - 1) = 0 := by
        rw [hsaved, strncpyBuf_end, h.saved_last]
      refine ⟨s', hs', hed.editorOk (by omega) hl hzero, hnav', hcount, by rw [heq], fun text ht => ?_⟩
      rw [Shell.typed, if_pos hneg] at ht
      rw [Shell.typed, if_neg (by omega), hsaved]
      exact h.cstr_saved ht
    · rw [if_neg hneg]
      obtain ⟨s', hs', hed, hl, heq⟩ := loadEntry { s with histNav := s.histNav + 1 } entry
      have hnav' : s'.histNav = s.histNav + 1 := by rw [heq]
      have hcount : s'.histCount = s.histCount := by rw [heq]
      have hsaved : s'.savedLine = s.savedLine := by rw [heq]
      refine ⟨s', hs', hed.editorOk (by omega) hl (by rw [hsaved, h.saved_last]), hnav', hcount, by rw [heq],
        fun text ht => ?_⟩
      rw [Shell.typed, if_neg hneg] at ht
      rwa [Shell.typed, if_neg (by omega), hsaved]
  · have hnone : s.histGet (s.histNav + 1) = none := by
      rw [histGet, if_pos (Or.inr (by omega))]
    have hmin : min (s.histNav + 1) ((s.histCount : ℤ) - 1) = s.histNav := by omega
    rw [hmin]
    refine ⟨s, ?_, h.stay⟩
    unfold Shell.arrowUp
    dsimp only
    rw [hnone]

theorem EditorOk.arrowDown (h : EditorOk s) :
    ∃ s', s.arrowDown = .ok s' ∧ Walked s s' (max (s.histNav - 1) (-1)) := by
  have hnav := h.nav
  unfold Shell.arrowDown
  by_cases hneg : s.histNav < 0
  · have hmax : max (s.histNav - 1) (-1) = s.histNav := by omega
    rw [if_pos hneg, hmax]
    exact ⟨s, rfl, h.stay⟩
  · have hmax : max (s.histNav - 1) (-1) = s.histNav - 1 := by omega
    rw [if_neg hneg, hmax]
    have ht' : s.typed = s.savedLine := if_neg hneg
    by_cases hpos : s.histNav > 0
    · obtain ⟨entry, hentry⟩ := histGet_isSome (s := { s with histNav := s.histNav - 1 })
        (s.histNav - 1) (by omega) (by dsimp only; omega)
      obtain ⟨s', hs', hed, hl, heq⟩ := loadEntry { s with histNav := s.histNav - 1 } entry
      have hnav' : s'.histNav = s.histNav - 1 := by rw [heq]
      have hcount : s'.histCount = s.histCount := by rw [heq]
      have hsaved : s'.savedLine = s.savedLine := by rw [heq]
      rw [if_pos hpos]
      dsimp only
      rw [hentry]
      refine ⟨s', hs', hed.editorOk (by omega) hl (by rw [hsaved, h.saved_last]), hnav', hcount, by rw [heq],
        fun text ht => ?_⟩
      rw [Shell.typed, if_neg (by omega), hsaved, ← ht']
      exact ht
    · have h0 : s.histNav - 1 = -1 := by omega
      rw [if_neg hpos, h0]
      have hcopy : cstr ({ s with histNav := -1 }.copyToLine s.savedLine).line SHELL_LINE_MAX =
          .ok (strn s.savedLine (SHELL_LINE_MAX - 1)) :=
        cstr_strncpy (noNul_strn _ _) (length_strn_le _ _) (by decide) h.line_last
      have hl : ({ s with histNav := -1 }.copyToLine s.savedLine).line (SHELL_LINE_MAX - 1) = 0 := by
        exact (strncpyBuf_end s.line s.savedLine _).trans h.line_last
      refine ⟨_, posToEnd_eq hcopy, Editing.editorOk ⟨hcopy, rfl⟩ (Or.inl rfl) hl h.saved_last, rfl, rfl, rfl,
        fun text ht => ?_⟩
      rw [ht'] at ht
      have hlen : text.length ≤ SHELL_LINE_MAX - 1 := Nat.le_pred_of_lt (cstr_eq_ok_iff.mp ht).1
      rw [strn_of_cstr ht hlen] at hcopy
      exact hcopy

theorem EditorOk.backspace (h : EditorOk s) : ∃ s', s.backspace = .ok s' ∧ EditorOk s' := by
  obtain ⟨text, hed⟩ := h.editing
  unfold Shell.backspace
  split
  · rename_i hpos
    have hlt := hed.length_lt
    have hcast : s.pos - 1 = (text.length - 1 : ℕ) := by
      have := hed.pos
      omega
    rw [hcast, putLine_natCast (by omega)]
    have hcut := cstr_cut hed.line (Nat.sub_le text.length 1)
    have hlen : (text.take (text.length - 1)).length = text.length - 1 := List.length_take_of_le (Nat.sub_le _ _)
    refine ⟨_, rfl, Editing.editorOk ⟨hcut, by rw [hlen]⟩ h.nav ?_ h.saved_last⟩
    exact update_zero h.line_last
  · exact ⟨s, rfl, h⟩

theorem EditorOk.escape (h : EditorOk s) : ∃ s', s.escape = .ok s' ∧ EditorOk s' := by
  obtain ⟨text, hed⟩ := h.editing
  have hcut := cstr_cut hed.line (Nat.zero_le text.length)
  have hput : s.escape = .ok { s with line := Function.update s.line 0 0, pos := 0, histNav := -1 } :=
    putLine_natCast (s := { s with pos := 0, histNav := -1 }) (i := 0) (by decide) 0
  have hlast : Function.update s.line 0 0 (SHELL_LINE_MAX - 1) = 0 := update_zero h.line_last
  rw [hput]
  exact ⟨_, rfl, Editing.editorOk ⟨hcut, by simp⟩ (Or.inl rfl) hlast h.saved_last⟩

theorem EditorOk.insert (h : EditorOk s) {c : UInt8} (hc : c ≠ 0) : ∃ s', s.insert c = .ok s' ∧ EditorOk s' := by
  obtain ⟨text, hed⟩ := h.editing
  unfold Shell.insert
  split
  · rename_i hpos
    have hcast := hed.pos
    have hlt : text.length + 1 < SHELL_LINE_MAX := by omega
    have hcast' : s.pos + 1 = (text.length + 1 : ℕ) := by omega
    have hpush := cstr_push hed.line hc hlt
    have hne : SHELL_LINE_MAX - 1 ≠ text.length := by omega
    have hlast : Function.update s.line text.length c (SHELL_LINE_MAX - 1) = 0 := by
      rw [Function.update_of_ne hne, h.line_last]
    rw [hcast, putLine_natCast (by omega)]
    change ∃ s', putLine { s with line := Function.update s.line text.length c, pos := s.pos + 1 } (s.pos + 1) 0 = .ok s' ∧ _
    rw [hcast', putLine_natCast hlt]
    exact ⟨_, rfl, Editing.editorOk ⟨hpush, by simp⟩ h.nav (update_zero hlast) h.saved_last⟩
  · exact ⟨s, rfl, h⟩

theorem histAdd_editor (s : Shell) (line : Buf) : (s.histAdd line).line = s.line ∧ (s.histAdd line).pos = s.pos ∧
    (s.histAdd line).savedLine = s.savedLine ∧ (s.histAdd line).histNav = s.histNav ∧
    s.histCount ≤ (s.histAdd line).histCount := by
  unfold histAdd
  dsimp only
  split
  · exact ⟨rfl, rfl, rfl, rfl, Nat.le_succ _⟩
  · exact ⟨rfl, rfl, rfl, rfl, le_refl _⟩

theorem startLine_ok (s : Shell) : EditorOk s.startLine := by
  have hempty : cstr s.startLine.line SHELL_LINE_MAX = .ok [] :=
    cstr_eq_ok_iff.mpr ⟨by decide, .nil, fun j _ => by rw [List.getD_nil]; rfl⟩
  exact Editing.editorOk ⟨hempty, rfl⟩ (Or.inl rfl) rfl rfl

theorem EditorOk.nextLine (h : EditorOk s) : EditorOk s.nextLine := by
  unfold Shell.nextLine
  split
  · exact ⟨h.pos_nonneg, h.pos_le, h.terminated, h.strlen_eq, h.nav, h.line_last, h.saved_last⟩
  · exact startLine_ok s

theorem EditorOk.execLine (h : EditorOk s) : ∃ s', s.execLine = .ok s' ∧ EditorOk s' := by
  unfold Shell.execLine
  split
  · obtain ⟨builtin, hb⟩ := shellExecLine_ok s.line
    obtain ⟨hl, hp, hsv, hn, hcount⟩ := histAdd_editor s s.line
    have hnav := h.nav
    rw [hb]
    refine ⟨_, rfl, ?_, ?_, ?_, ?_, ?_, ?_, ?_⟩
    · rw [hp]
      exact h.pos_nonneg
    · rw [hp]
      exact h.pos_le
    · rw [hl, hp]
      exact h.terminated
    · rw [hl, hp]
      exact h.strlen_eq
    · dsimp only
      rw [hn]
      omega
    · rw [hl]
      exact h.line_last
    · rw [hsv]
      exact h.saved_last
  · exact ⟨s, rfl, h⟩

theorem EditorOk.enter (h : EditorOk s) : ∃ s', s.enter = .ok s' ∧ EditorOk s' := by
  obtain ⟨text, hed⟩ := h.editing
  have hcut := cstr_cut hed.line (le_refl text.length)
  rw [List.take_length] at hcut
  have hput : s.putLine s.pos 0 = .ok { s with line := Function.update s.line text.length 0 } := by
    conv_lhs => rw [hed.pos]
    exact putLine_natCast hed.length_lt 0
  have hline : EditorOk { s with line := Function.update s.line text.length 0 } :=
    Editing.editorOk ⟨hcut, hed.pos⟩ h.nav (update_zero h.line_last) h.saved_last
  obtain ⟨s', hs', h'⟩ := hline.execLine
  refine ⟨s'.nextLine, ?_, h'.nextLine⟩
  rw [Shell.enter, hput]
  change (Shell.execLine _ >>= fun s => .ok s.nextLine) = _
  rw [hs']
  rfl

/-- **One event** never stops the editor and keeps the invariant. -/
theorem EditorOk.key (h : EditorOk s) (ev : KeyEvent) : ∃ s', s.key ev = .ok s' ∧ EditorOk s' := by
  unfold Shell.key
  split
  · exact ⟨s, rfl, h⟩
  · split
    · exact ⟨s, rfl, h⟩
    · split
      · split
        · obtain ⟨s', hs', hw⟩ := h.arrowUp
          exact ⟨s', hs', hw.ok⟩
        · split
          · obtain ⟨s', hs', hw⟩ := h.arrowDown
            exact ⟨s', hs', hw.ok⟩
          · exact ⟨s, rfl, h⟩
      · dsimp only
        split
        · exact ⟨s, rfl, h⟩
        · rename_i hc
          split
          · exact h.enter
          · split
            · exact h.backspace
            · split
              · exact h.escape
              · exact h.insert hc

/-! ### Runs of events -/

theorem EditorOk.keys (h : EditorOk s) (evs : List KeyEvent) : ∃ s', Shell.keys evs s = .ok s' ∧ EditorOk s' := by
  induction evs generalizing s with
  | nil => exact ⟨s, rfl, h⟩
  | cons ev evs ih =>
      obtain ⟨s₁, hs₁, h₁⟩ := h.key ev
      obtain ⟨s', hs', h'⟩ := ih h₁
      exact ⟨s', by rw [Shell.keys, hs₁]; exact hs', h'⟩

theorem keys_append (evs evs' : List KeyEvent) (s : Shell) :
    keys (evs ++ evs') s = keys evs s >>= keys evs' := by
  induction evs generalizing s with
  | nil => rfl
  | cons ev evs ih =>
      rw [List.cons_append, keys, keys, bind_assoc]
      exact bind_congr fun s => ih s

/-- The event of an arrow key. -/
def IsArrow (code : UInt8) (ev : KeyEvent) : Prop := ev.pressed = true ∧ ev.extended = true ∧ ev.scancode = code

theorem Walked.trans {s s₁ s₂ : Shell} {n₁ n₂ : ℤ} (h₁ : Walked s s₁ n₁) (h₂ : Walked s₁ s₂ n₂) : Walked s s₂ n₂ :=
  ⟨h₂.ok, h₂.nav, h₂.histCount.trans h₁.histCount, h₂.running.trans h₁.running, fun text ht => h₂.typed text (h₁.typed text ht)⟩

theorem EditorOk.ups (h : EditorOk s) (hr : s.running = true) {evs : List KeyEvent}
    (hevs : ∀ ev ∈ evs, IsArrow KEY_ARROW_UP ev) :
    ∃ s', Shell.keys evs s = .ok s' ∧ Walked s s' (min (s.histNav + evs.length) (s.histCount - 1)) := by
  induction evs generalizing s with
  | nil =>
      have hnav := h.nav
      have hmin : min (s.histNav + ([] : List KeyEvent).length) ((s.histCount : ℤ) - 1) = s.histNav := by
        rw [List.length_nil]
        omega
      rw [hmin]
      exact ⟨s, rfl, h.stay⟩
  | cons ev evs ih =>
      obtain ⟨hp, hx, hcode⟩ := hevs ev List.mem_cons_self
      obtain ⟨s₁, hs₁, hw₁⟩ := h.arrowUp
      have hkey : s.key ev = .ok s₁ := by
        rw [← hs₁]
        simp [Shell.key, hr, hp, hx, hcode]
      obtain ⟨s', hs', hw'⟩ := ih hw₁.ok (hw₁.running.trans hr) fun ev hev => hevs ev (List.mem_cons_of_mem _ hev)
      have hmin : min (s₁.histNav + evs.length) ((s₁.histCount : ℤ) - 1) =
          min (s.histNav + (ev :: evs).length) (s.histCount - 1) := by
        rw [hw₁.nav, hw₁.histCount, List.length_cons]
        push_cast
        omega
      rw [hmin] at hw'
      exact ⟨s', by rw [Shell.keys, hkey]; exact hs', hw₁.trans hw'⟩

theorem EditorOk.downs (h : EditorOk s) (hr : s.running = true) {evs : List KeyEvent}
    (hevs : ∀ ev ∈ evs, IsArrow KEY_ARROW_DOWN ev) :
    ∃ s', Shell.keys evs s = .ok s' ∧ Walked s s' (max (s.histNav - evs.length) (-1)) := by
  induction evs generalizing s with
  | nil =>
      have hnav := h.nav
      have hmax : max (s.histNav - ([] : List KeyEvent).length) (-1) = s.histNav := by
        rw [List.length_nil]
        omega
      rw [hmax]
      exact ⟨s, rfl, h.stay⟩
  | cons ev evs ih =>
      obtain ⟨hp, hx, hcode⟩ := hevs ev List.mem_cons_self
      obtain ⟨s₁, hs₁, hw₁⟩ := h.arrowDown
      have hkey : s.key ev = .ok s₁ := by
        rw [← hs₁]
        simp [Shell.key, hr, hp, hx, hcode, KEY_ARROW_UP, KEY_ARROW_DOWN]
      obtain ⟨s', hs', hw'⟩ := ih hw₁.ok (hw₁.running.trans hr) fun ev hev => hevs ev (List.mem_cons_of_mem _ hev)
      have hmax : max (s₁.histNav - evs.length) (-1) = max (s.histNav - (ev :: evs).length) (-1) := by
        rw [hw₁.nav, List.length_cons]
        push_cast
        omega
      rw [hmax] at hw'
      exact ⟨s', by rw [Shell.keys, hkey]; exact hs', hw₁.trans hw'⟩

end Shell

/-- **The line editor.**  Over any history, whatever it holds, no stream of key events stops `shell_run`
with an access outside its buffers, and in every state the cursor stands on the terminator of the line, at
its length, and the place in the history is none or exists, so that the entry below it exists as well.
From every such state with the text `text` on the line and no place in the history, any number of steps
up and as many steps down bring the text, the cursor and the place back. -/
theorem shell_line_editor (s : Shell) :
    (∀ evs, ∃ s', s.shellRun evs = .ok s' ∧ s'.EditorOk) ∧
      (∀ s' : Shell, s'.EditorOk → 0 < s'.histNav → ∃ entry, s'.histGet (s'.histNav - 1) = some entry) ∧
      ∀ (s' : Shell) (text : List UInt8) (ups downs : List KeyEvent), s'.EditorOk → s'.running = true →
        s'.histNav = -1 → cstr s'.line SHELL_LINE_MAX = .ok text → ups.length = downs.length →
        (∀ ev ∈ ups, Shell.IsArrow KEY_ARROW_UP ev) → (∀ ev ∈ downs, Shell.IsArrow KEY_ARROW_DOWN ev) →
        ∃ s'', Shell.keys (ups ++ downs) s' = .ok s'' ∧ s''.EditorOk ∧ cstr s''.line SHELL_LINE_MAX = .ok text ∧
          s''.pos = text.length ∧ s''.histNav = -1 := by
  refine ⟨fun evs => (Shell.startLine_ok _).keys evs, fun s' h hpos => ?_, ?_⟩
  · have hnav := h.nav
    exact Shell.histGet_isSome _ (by omega) (by omega)
  · intro s' text ups downs h hr hnav hline hlen hups hdowns
    have htyped : s'.typed = s'.line := if_pos (by omega)
    obtain ⟨s₁, hs₁, hw₁⟩ := h.ups hr hups
    obtain ⟨s₂, hs₂, hw₂⟩ := hw₁.ok.downs (hw₁.running.trans hr) hdowns
    have hw := hw₁.trans hw₂
    have hback : s₂.histNav = -1 := by
      rw [hw.nav, hw₁.nav, hnav, hlen]
      omega
    have htext : cstr s₂.line SHELL_LINE_MAX = .ok text := by
      have ht := hw.typed text (by rw [htyped, hline])
      rwa [Shell.typed, if_pos (by omega)] at ht
    obtain ⟨text', hed⟩ := hw.ok.editing
    have heq : text' = text := Except.ok.inj (hed.line.symm.trans htext)
    refine ⟨s₂, ?_, hw.ok, htext, by rw [hed.pos, heq], hback⟩
    rw [Shell.keys_append, hs₁]
    exact hs₂

/-- The shell before its first line: the static variables are zero, the stack holds anything. -/
def bootShell (stack : Buf) : Shell := ⟨fun _ _ => 0, 0, 0, false, stack, stack, 7, 3, false⟩

/-- The key of a character. -/
def charKey (c : UInt8) : KeyEvent := ⟨0, c, true, false, false, false, false⟩

/-- An arrow key. -/
def arrowKey (code : UInt8) : KeyEvent := ⟨code, 0, true, false, false, false, true⟩

/-- The line `ls` is executed; then `hi` is typed, and two steps up a history of one line and two steps
down give it back. -/
theorem shell_line_editor_one_entry : ∃ s', (bootShell fun _ => 0xAA).shellRun
      ((chars "ls\nhi").map charKey ++ ([arrowKey 0x48, arrowKey 0x48] ++ [arrowKey 0x50, arrowKey 0x50])) = .ok s' ∧
    cstr s'.line SHELL_LINE_MAX = .ok (chars "hi") ∧ s'.pos = 2 ∧ s'.histNav = -1 := by
  have h := shell_line_editor (bootShell fun _ => 0xAA)
  obtain ⟨s₁, hs₁, hok⟩ := h.1 ((chars "ls\nhi").map charKey)
  have hrun : ((bootShell fun _ => 0xAA).shellRun ((chars "ls\nhi").map charKey)).toOption.any (fun s =>
      s.running ∧ s.histNav = -1 ∧ s.histCount = 1 ∧ s.pos = 2 ∧ s.line 0 = 0x68 ∧ s.line 1 = 0x69 ∧ s.line 2 = 0) = true := by
    decide +kernel
  rw [hs₁] at hrun
  simp only [Except.toOption, Option.any_some, decide_eq_true_eq] at hrun
  obtain ⟨hr, hnav, _, _, h0, h1, h2⟩ := hrun
  have htext : cstr s₁.line SHELL_LINE_MAX = .ok (chars "hi") := by
    have hchars : ∀ x ∈ chars "hi", x ≠ 0 := by decide +kernel
    refine cstr_eq_ok_iff.mpr ⟨by decide, hchars, fun j hj => ?_⟩
    have hj : j ≤ 2 := hj
    interval_cases j
    · exact h0
    · exact h1
    · exact h2
  obtain ⟨s₂, hs₂, _, hline, hpos, hnav₂⟩ := h.2.2 s₁ (chars "hi") [arrowKey 0x48, arrowKey 0x48]
    [arrowKey 0x50, arrowKey 0x50] hok hr hnav htext rfl (by simp [Shell.IsArrow, arrowKey, KEY_ARROW_UP])
    (by simp [Shell.IsArrow, arrowKey, KEY_ARROW_DOWN])
  refine ⟨s₂, ?_, hline, hpos, hnav₂⟩
  rw [Shell.shellRun, Shell.keys_append]
  rw [Shell.shellRun] at hs₁
  rw [hs₁]
  exact hs₂

end HeroOS
