import HeroOS.ShellExec
import HeroOS.ShellHistory

/-! # The shell as an editor of lines

What `shell_run` is for, without its buffers: an `Editor` has a text, the text put aside while the arrow keys walk through
the history, the place of that walk, and the lines entered so far.  Its steps are functions on lists.

* `Represents s e`: the buffers, the ring of the history and the variables of `shell_run` hold the editor `e`;
* `Represents.key`: one event does to the buffers what it does to the editor;
* `shell_refines_editor`: so do all events, from the first prompt on, and `shell_run` returns with the first line whose
  first word is `exit`. -/

namespace HeroOS

open CString

/-! ### The editor -/

/-- A line editor with a history. -/
structure Editor where
  text : List UInt8
  /-- What was typed before the walk through the history. -/
  saved : List UInt8
  /-- The place in the history, counted back from the latest line. -/
  nav : Option ℕ
  /-- The lines that were entered, the oldest first. -/
  lines : List (List UInt8)
  running : Bool
deriving DecidableEq, Repr

namespace Editor

/-- An empty line behind some others. -/
def prompt (lines : List (List UInt8)) : Editor := ⟨[], [], none, lines, true⟩

/-- The history, as far back as it goes. -/
def entry (e : Editor) (k : ℕ) : Option (List UInt8) := if k < SHELL_HIST_SIZE then e.lines.reverse[k]? else none

/-- The place one line further back. -/
def further : Option ℕ → ℕ
  | none => 0
  | some k => k + 1

/-- Arrow up. -/
def up (e : Editor) : Editor :=
  match e.entry (further e.nav) with
  | none => e
  | some line => { e with text := line, saved := if e.nav = none then e.text else e.saved, nav := some (further e.nav) }

/-- Arrow down. -/
def down (e : Editor) : Editor :=
  match e.nav with
  | none => e
  | some 0 => { e with text := e.saved, nav := none }
  | some (k + 1) => { e with text := (e.entry k).getD [], nav := some k }

/-- The command of a line. -/
def command (text : List UInt8) : Option Builtin := (wordsOf text).head?.bind commandOf

/-- The end of a line. -/
def enter (e : Editor) : Editor :=
  let lines := if e.text = [] then e.lines else e.lines ++ [e.text]
  if command e.text = some .exit then { e with lines := lines, running := false } else prompt lines

/-- A key event. -/
def key (e : Editor) (ev : KeyEvent) : Editor :=
  if e.running = false then e
  else if ev.pressed = false then e
  else if ev.extended then
    if ev.scancode = KEY_ARROW_UP then e.up
    else if ev.scancode = KEY_ARROW_DOWN then e.down
    else e
  else if ev.ascii = 0 then e
  else if ev.ascii = 0x0D ∨ ev.ascii = 0x0A then e.enter
  else if ev.ascii = 0x08 then { e with text := e.text.dropLast }
  else if ev.ascii = 0x1B then { e with text := [], nav := none }
  else if e.text.length < SHELL_LINE_MAX - 1 then { e with text := e.text ++ [ev.ascii] }
  else e

/-- Key events in their order. -/
def keys (e : Editor) (evs : List KeyEvent) : Editor := evs.foldl key e

end Editor

namespace Shell

variable {s s' : Shell} {e : Editor} {text line : List UInt8} {lines : List (List UInt8)}

/-! ### Representation -/

/-- `hist_nav` -/
def navPos : Option ℕ → ℤ
  | none => -1
  | some k => k

/-- The variables of the inner loop hold the line of the editor. -/
structure OnLine (s : Shell) (e : Editor) : Prop where
  exit : s.shouldExit = false
  line : Editing s e.text
  nav : s.histNav = navPos e.nav
  saved : e.nav ≠ none → cstr s.savedLine SHELL_LINE_MAX = .ok e.saved

/-- The shell is where the editor is. -/
structure Represents (s : Shell) (e : Editor) : Prop where
  running : s.running = e.running
  history : HistoryOf s e.lines
  strings : ∀ line ∈ e.lines, NoNul line ∧ line.length ≤ SHELL_LINE_MAX - 1
  line : e.running = true → OnLine s e

theorem HistoryOf.congr (h : HistoryOf s lines) (hbuf : s'.histBuf = s.histBuf) (hhead : s'.histHead = s.histHead)
    (hcount : s'.histCount = s.histCount) : HistoryOf s' lines := by
  refine ⟨by rw [hhead]; exact h.head_lt, by rw [hcount]; exact h.count, ?_⟩
  have hrow : s'.histRow = s.histRow := by
    unfold histRow
    rw [hbuf]
  unfold histRows
  rw [hrow, hhead, hcount]
  exact h.rows

/-- Looking up the history. -/
theorem Represents.entry (h : Represents s e) (k : ℕ) :
    (s.histGet k).map (fun row => cstr row SHELL_LINE_MAX) = (e.entry k).map .ok := by
  rw [h.history.get k, Int.toNat_natCast]
  unfold Editor.entry
  by_cases hk : k < SHELL_HIST_SIZE
  · rw [if_pos hk]
    cases hline : e.lines.reverse[k]? with
    | none =>
        have hlen := List.getElem?_eq_none_iff.mp hline
        rw [List.length_reverse] at hlen
        rw [if_neg (by omega)]
        rfl
    | some line =>
        have hlt := (List.getElem?_eq_some_iff.mp hline).1
        rw [List.length_reverse] at hlt
        have hmem : line ∈ e.lines := List.mem_reverse.mp (List.mem_of_getElem? hline)
        rw [if_pos (by omega), Option.map_some, Option.map_some, keptLine, List.take_of_length_le (h.strings line hmem).2]
  · rw [if_neg hk, if_neg (by omega)]
    rfl

theorem Represents.get_none (h : Represents s e) {k : ℕ} (hk : e.entry k = none) : s.histGet k = none := by
  have hget := h.entry k
  rw [hk] at hget
  exact Option.map_eq_none_iff.mp hget

theorem Represents.get_some (h : Represents s e) {k : ℕ} (hk : e.entry k = some line) :
    ∃ row, s.histGet k = some row ∧ strn row (SHELL_LINE_MAX - 1) = line := by
  have hget := h.entry k
  rw [hk] at hget
  obtain ⟨row, hrow, hcstr⟩ := Option.map_eq_some_iff.mp hget
  exact ⟨row, hrow, strn_of_cstr hcstr (Nat.le_pred_of_lt (cstr_eq_ok_iff.mp hcstr).1)⟩

theorem navPos_further (nav : Option ℕ) : navPos nav + 1 = (Editor.further nav : ℕ) := by
  cases nav with
  | none => rfl
  | some k => exact (Nat.cast_succ k).symm

/-! ### The keys -/

/-- **Arrow up.** -/
theorem Represents.arrowUp (h : Represents s e) (hok : EditorOk s) (hr : e.running = true) :
    ∃ s', s.arrowUp = .ok s' ∧ Represents s' e.up := by
  have hline := h.line hr
  have hnext : s.histNav + 1 = (Editor.further e.nav : ℕ) := by rw [hline.nav, navPos_further]
  unfold Shell.arrowUp Editor.up
  dsimp only
  rw [hnext]
  cases hentry : e.entry (Editor.further e.nav) with
  | none =>
      rw [h.get_none hentry]
      exact ⟨s, rfl, h⟩
  | some line =>
      obtain ⟨row, hrow, hstr⟩ := h.get_some hentry
      rw [hrow]
      dsimp only
      cases hnav : e.nav with
      | none =>
          have hneg : s.histNav < 0 := by
            rw [hline.nav, hnav]
            decide
          rw [if_pos hneg, if_pos rfl]
          obtain ⟨s', hs', hed, _, heq⟩ := loadEntry { s with
            savedLine := strncpyBuf s.savedLine s.line (SHELL_LINE_MAX - 1), histNav := (Editor.further none : ℕ) } row
          rw [hstr] at hed
          have hsaved : cstr s'.savedLine SHELL_LINE_MAX = .ok e.text := by
            rw [heq]
            exact hok.cstr_saved hline.line.line
          refine ⟨s', hs', by rw [heq]; exact h.running, h.history.congr (by rw [heq]) (by rw [heq]) (by rw [heq]), h.strings,
            fun _ => ⟨by rw [heq]; exact hline.exit, hed, by rw [heq]; rfl, fun _ => hsaved⟩⟩
      | some k =>
          have hneg : ¬ s.histNav < 0 := by
            rw [hline.nav, hnav]
            exact not_lt.mpr (Int.natCast_nonneg k)
          rw [if_neg hneg, if_neg (by simp)]
          obtain ⟨s', hs', hed, _, heq⟩ := loadEntry { s with histNav := (Editor.further (some k) : ℕ) } row
          rw [hstr] at hed
          have hsaved : cstr s'.savedLine SHELL_LINE_MAX = .ok e.saved := by
            rw [heq]
            exact hline.saved (by rw [hnav]; simp)
          refine ⟨s', hs', by rw [heq]; exact h.running, h.history.congr (by rw [heq]) (by rw [heq]) (by rw [heq]), h.strings,
            fun _ => ⟨by rw [heq]; exact hline.exit, hed, by rw [heq]; rfl, fun _ => hsaved⟩⟩

/-- **Arrow down.**  The entry below a place in the history exists. -/
theorem Represents.arrowDown (h : Represents s e) (hok : EditorOk s) (hr : e.running = true) :
    ∃ s', s.arrowDown = .ok s' ∧ Represents s' e.down := by
  have hline := h.line hr
  unfold Shell.arrowDown Editor.down
  cases hnav : e.nav with
  | none =>
      have hneg : s.histNav < 0 := by
        rw [hline.nav, hnav]
        decide
      rw [if_pos hneg]
      exact ⟨s, rfl, h⟩
  | some k =>
      have hpos : s.histNav = k := by rw [hline.nav, hnav, navPos]
      have hsaved := hline.saved (by rw [hnav]; simp)
      rw [if_neg (by omega)]
      cases k with
      | zero =>
          have hlen : e.saved.length ≤ SHELL_LINE_MAX - 1 := Nat.le_pred_of_lt (cstr_eq_ok_iff.mp hsaved).1
          have hcopy : cstr ({ s with histNav := -1 }.copyToLine s.savedLine).line SHELL_LINE_MAX = .ok e.saved := by
            rw [← strn_of_cstr hsaved hlen]
            exact cstr_strncpy (noNul_strn _ _) (length_strn_le _ _) (by decide) hok.line_last
          rw [if_neg (by omega)]
          exact ⟨_, posToEnd_eq hcopy, h.running, h.history.congr rfl rfl rfl, h.strings,
            fun _ => ⟨hline.exit, ⟨hcopy, rfl⟩, rfl, fun hne => absurd rfl hne⟩⟩
      | succ k =>
          have hnext : s.histNav - 1 = (k : ℕ) := by omega
          have hlt := hok.nav
          have hcount := h.history.count
          obtain ⟨line, hentry⟩ : ∃ line, e.entry k = some line := by
            unfold Editor.entry
            rw [if_pos (by omega), List.getElem?_eq_getElem (by rw [List.length_reverse]; omega)]
            exact ⟨_, rfl⟩
          obtain ⟨row, hrow, hstr⟩ := h.get_some hentry
          rw [if_pos (by omega), hnext]
          dsimp only
          have hrow' : histGet { s with histNav := (k : ℤ) } k = some row := hrow
          rw [hrow']
          dsimp only
          obtain ⟨s', hs', hed, _, heq⟩ := loadEntry { s with histNav := (k : ℤ) } row
          rw [hstr] at hed
          rw [hentry, Option.getD_some]
          refine ⟨s', hs', by rw [heq]; exact h.running, h.history.congr (by rw [heq]) (by rw [heq]) (by rw [heq]), h.strings,
            fun _ => ⟨by rw [heq]; exact hline.exit, hed, by rw [heq]; rfl, fun _ => by rw [heq]; exact hsaved⟩⟩

/-- **Backspace.** -/
theorem Represents.backspace (h : Represents s e) (hr : e.running = true) :
    ∃ s', s.backspace = .ok s' ∧ Represents s' { e with text := e.text.dropLast } := by
  have hline := h.line hr
  have hpos := hline.line.pos
  unfold Shell.backspace
  split
  · have hlt := hline.line.length_lt
    have hcast : s.pos - 1 = (e.text.length - 1 : ℕ) := by omega
    have hcut := cstr_cut hline.line.line (Nat.sub_le e.text.length 1)
    rw [← List.dropLast_eq_take] at hcut
    rw [hcast, putLine_natCast (by omega)]
    exact ⟨_, rfl, h.running, h.history.congr rfl rfl rfl, h.strings,
      fun _ => ⟨hline.exit, ⟨hcut, by rw [List.length_dropLast]⟩, hline.nav, hline.saved⟩⟩
  · have hnil : e.text = [] := List.length_eq_zero_iff.mp (by omega)
    have hsame : { e with text := e.text.dropLast } = e := by
      rw [hnil, List.dropLast_nil, ← hnil]
    rw [hsame]
    exact ⟨s, rfl, h⟩

/-- **Escape.** -/
theorem Represents.escape (h : Represents s e) (hr : e.running = true) :
    ∃ s', s.escape = .ok s' ∧ Represents s' { e with text := [], nav := none } := by
  have hline := h.line hr
  have hcut := cstr_cut hline.line.line (Nat.zero_le e.text.length)
  have hput : s.escape = .ok { s with line := Function.update s.line 0 0, pos := 0, histNav := -1 } :=
    putLine_natCast (s := { s with pos := 0, histNav := -1 }) (i := 0) (by decide) 0
  exact ⟨_, hput, h.running, h.history.congr rfl rfl rfl, h.strings,
    fun _ => ⟨hline.exit, ⟨hcut, rfl⟩, rfl, fun hne => absurd rfl hne⟩⟩

/-- **A character**, if there is room for it. -/
theorem Represents.insert (h : Represents s e) (hr : e.running = true) {c : UInt8} (hc : c ≠ 0) :
    ∃ s', s.insert c = .ok s' ∧
      Represents s' (if e.text.length < SHELL_LINE_MAX - 1 then { e with text := e.text ++ [c] } else e) := by
  have hline := h.line hr
  have hpos := hline.line.pos
  have hlt := hline.line.length_lt
  unfold Shell.insert
  by_cases hroom : e.text.length < SHELL_LINE_MAX - 1
  · have hpush := cstr_push hline.line.line hc (by omega)
    have hcast : s.pos + 1 = (e.text.length + 1 : ℕ) := by omega
    have hput : s.putLine s.pos c = .ok { s with line := Function.update s.line e.text.length c } := by
      conv_lhs => rw [hpos]
      exact putLine_natCast hlt c
    rw [if_pos (by omega), if_pos hroom, hput]
    change ∃ s', putLine { s with line := Function.update s.line e.text.length c, pos := s.pos + 1 } (s.pos + 1) 0 = .ok s' ∧ _
    rw [hcast, putLine_natCast (by omega)]
    exact ⟨_, rfl, h.running, h.history.congr rfl rfl rfl, h.strings,
      fun _ => ⟨hline.exit, ⟨hpush, by simp⟩, hline.nav, hline.saved⟩⟩
  · rw [if_neg (by omega), if_neg hroom]
    exact ⟨s, rfl, h⟩

/-! ### The end of a line -/

theorem histAdd_congr (s : Shell) {line line' : Buf} (h : strn line (SHELL_LINE_MAX - 1) = strn line' (SHELL_LINE_MAX - 1)) :
    s.histAdd line = s.histAdd line' := by
  unfold histAdd strncpyBuf
  rw [h]

/-- A new line. -/
theorem Represents.startLine (hr : s.running = true) (hexit : s.shouldExit = false) (hhist : HistoryOf s lines)
    (hstr : ∀ line ∈ lines, NoNul line ∧ line.length ≤ SHELL_LINE_MAX - 1) :
    Represents s.startLine (Editor.prompt lines) := by
  have hempty : cstr s.startLine.line SHELL_LINE_MAX = .ok [] :=
    cstr_eq_ok_iff.mpr ⟨by decide, .nil, fun j _ => by rw [List.getD_nil]; rfl⟩
  exact ⟨hr, hhist.congr rfl rfl rfl, hstr, fun _ => ⟨hexit, ⟨hempty, rfl⟩, rfl, fun hne => absurd rfl hne⟩⟩

/-- **The end of a line**: a line that is not empty goes to the history and is executed; `exit` ends the shell. -/
theorem Represents.enter (h : Represents s e) (hr : e.running = true) :
    ∃ s', s.enter = .ok s' ∧ Represents s' e.enter := by
  have hline := h.line hr
  have hpos := hline.line.pos
  have hcut := cstr_cut hline.line.line (le_refl e.text.length)
  rw [List.take_length] at hcut
  obtain ⟨hlen, hnul, _⟩ := cstr_eq_ok_iff.mp hcut
  -- the state with the terminated line
  obtain ⟨s₁, hs₁⟩ : ∃ s₁ : Shell, s₁ = { s with line := Function.update s.line e.text.length 0 } := ⟨_, rfl⟩
  have hput : s.putLine s.pos 0 = .ok s₁ := by
    rw [hs₁]
    conv_lhs => rw [hpos]
    exact putLine_natCast hline.line.length_lt 0
  have hpos₁ : s₁.pos = e.text.length := by rw [hs₁, hpos]
  have hrun₁ : s₁.running = true := by
    rw [hs₁]
    exact h.running.trans hr
  have hexit₁ : s₁.shouldExit = false := by
    rw [hs₁]
    exact hline.exit
  have hhist₁ : HistoryOf s₁ e.lines := h.history.congr (by rw [hs₁]) (by rw [hs₁]) (by rw [hs₁])
  have hline₁ : cstr s₁.line SHELL_LINE_MAX = .ok e.text := by rw [hs₁, hcut]
  unfold Shell.enter Editor.enter
  rw [hput]
  change ∃ s', (s₁.execLine >>= fun s => .ok s.nextLine) = .ok s' ∧ _
  unfold Shell.execLine
  rw [hpos₁]
  by_cases hnil : e.text = []
  · have hcmd : Editor.command e.text = none := by rw [hnil]; rfl
    rw [if_neg (by rw [hnil]; decide), if_pos hnil, if_neg (by rw [hcmd]; simp)]
    refine ⟨_, rfl, ?_⟩
    unfold Shell.nextLine
    rw [if_neg (by rw [hexit₁]; simp)]
    exact .startLine hrun₁ hexit₁ hhist₁ h.strings
  · have hle : e.text.length ≤ SHELL_LINE_MAX - 1 := Nat.le_pred_of_lt hlen
    have hadd : s₁.histAdd s₁.line = s₁.histAdd (ofList e.text) :=
      histAdd_congr s₁ (by rw [strn_of_cstr hline₁ hle, strn_ofList hnul, List.take_of_length_le hle])
    have hhist : HistoryOf (s₁.histAdd s₁.line) (e.lines ++ [e.text]) := by
      rw [hadd]
      exact hhist₁.add hnul
    have hstr : ∀ line ∈ e.lines ++ [e.text], NoNul line ∧ line.length ≤ SHELL_LINE_MAX - 1 := by
      intro line hmem
      rcases List.mem_append.mp hmem with hmem | hmem
      · exact h.strings line hmem
      · rw [List.mem_singleton.mp hmem]
        exact ⟨hnul, hle⟩
    have hrun : (s₁.histAdd s₁.line).running = true := by
      unfold histAdd
      dsimp only
      split <;> exact hrun₁
    rw [if_pos (Int.natCast_pos.mpr (List.length_pos_of_ne_nil hnil)), if_neg hnil, shellExecLine_eq hline₁]
    refine ⟨_, rfl, ?_⟩
    dsimp only
    have hcommand : (wordsOf e.text).head?.bind commandOf = Editor.command e.text := rfl
    unfold Shell.nextLine
    rw [hexit₁, Bool.false_or, hcommand]
    by_cases hcmd : Editor.command e.text = some .exit
    · rw [if_pos (by rw [hcmd]; rfl), if_pos hcmd]
      exact ⟨rfl, hhist.congr rfl rfl rfl, hstr, fun hf => nomatch hf⟩
    · have hne : (Editor.command e.text == some .exit) = false := by simpa using hcmd
      rw [if_neg (by rw [hne]; simp), if_neg hcmd]
      exact .startLine hrun hne (hhist.congr rfl rfl rfl) hstr

/-! ### Events -/

/-- **One event.** -/
theorem Represents.key (h : Represents s e) (hok : EditorOk s) (ev : KeyEvent) :
    ∃ s', s.key ev = .ok s' ∧ EditorOk s' ∧ Represents s' (e.key ev) := by
  obtain ⟨s', hs', hok'⟩ := hok.key ev
  suffices hrep : ∃ s', s.key ev = .ok s' ∧ Represents s' (e.key ev) by
    obtain ⟨s'', hs'', hr⟩ := hrep
    obtain rfl := Except.ok.inj (hs'.symm.trans hs'')
    exact ⟨s', hs', hok', hr⟩
  unfold Shell.key Editor.key
  rw [h.running]
  by_cases hr : e.running = true
  · have hn : ¬ e.running = false := by
      rw [hr]
      simp
    rw [if_neg hn, if_neg hn]
    split
    · exact ⟨s, rfl, h⟩
    · split
      · split
        · exact h.arrowUp hok hr
        · split
          · exact h.arrowDown hok hr
          · exact ⟨s, rfl, h⟩
      · dsimp only
        split
        · exact ⟨s, rfl, h⟩
        · rename_i hc
          split
          · exact h.enter hr
          · split
            · exact h.backspace hr
            · split
              · exact h.escape hr
              · exact h.insert hr hc
  · have hf := Bool.not_eq_true _ ▸ hr
    rw [if_pos hf, if_pos hf]
    exact ⟨s, rfl, h⟩

theorem Represents.keys (h : Represents s e) (hok : EditorOk s) (evs : List KeyEvent) :
    ∃ s', Shell.keys evs s = .ok s' ∧ EditorOk s' ∧ Represents s' (e.keys evs) := by
  induction evs generalizing s e with
  | nil => exact ⟨s, rfl, hok, h⟩
  | cons ev evs ih =>
      obtain ⟨s₁, hs₁, hok₁, h₁⟩ := h.key hok ev
      obtain ⟨s', hs', hok', h'⟩ := ih h₁ hok₁
      exact ⟨s', by rw [Shell.keys, hs₁]; exact hs', hok', h'⟩

/-- The first prompt. -/
theorem Represents.start (hhead : s.histHead = 0) (hcount : s.histCount = 0) (hexit : s.shouldExit = false) :
    Represents ({ s with running := true }.startLine) (Editor.prompt []) :=
  .startLine rfl hexit ((HistoryOf.empty hhead hcount).congr rfl rfl rfl) (List.forall_mem_nil _)

end Shell

/-! ### `exit` -/

namespace Editor

/-- The editor runs as long as no line was `exit`, and has stopped at the first one that was. -/
structure StopsAtExit (e : Editor) : Prop where
  running : e.running = true → ∀ line ∈ e.lines, command line ≠ some .exit
  stopped : e.running = false → ∃ lines last, e.lines = lines ++ [last] ∧ command last = some .exit ∧
    ∀ line ∈ lines, command line ≠ some .exit

variable {e e' : Editor}

theorem StopsAtExit.congr (h : StopsAtExit e) (hlines : e'.lines = e.lines) (hr : e'.running = e.running) : StopsAtExit e' :=
  ⟨hlines ▸ hr ▸ h.running, hlines ▸ hr ▸ h.stopped⟩

theorem StopsAtExit.enter (h : StopsAtExit e) (hr : e.running = true) : StopsAtExit e.enter := by
  have hlines := h.running hr
  unfold Editor.enter
  by_cases hcmd : command e.text = some .exit
  · have hne : e.text ≠ [] := by
      intro hnil
      rw [hnil] at hcmd
      cases hcmd
    rw [if_pos hcmd, if_neg hne]
    exact ⟨fun hf => absurd hf Bool.false_ne_true, fun _ => ⟨e.lines, e.text, rfl, hcmd, hlines⟩⟩
  · rw [if_neg hcmd]
    refine ⟨fun _ line hmem => ?_, fun hf => nomatch hf⟩
    unfold prompt at hmem
    dsimp only at hmem
    split at hmem
    · exact hlines line hmem
    · rcases List.mem_append.mp hmem with hmem | hmem
      · exact hlines line hmem
      · rwa [List.mem_singleton.mp hmem]

/-- Arrow keys change neither the lines nor whether the shell runs. -/
theorem up_frame (e : Editor) : e.up.lines = e.lines ∧ e.up.running = e.running := by
  unfold up
  split <;> exact ⟨rfl, rfl⟩

theorem down_frame (e : Editor) : e.down.lines = e.lines ∧ e.down.running = e.running := by
  unfold down
  split <;> exact ⟨rfl, rfl⟩

theorem StopsAtExit.key (h : StopsAtExit e) (ev : KeyEvent) : StopsAtExit (e.key ev) := by
  unfold Editor.key
  by_cases hr : e.running = true
  · have hn : ¬ e.running = false := by
      rw [hr]
      simp
    rw [if_neg hn]
    split
    · exact h
    · split
      · split
        · exact h.congr e.up_frame.1 e.up_frame.2
        · split
          · exact h.congr e.down_frame.1 e.down_frame.2
          · exact h
      · split
        · exact h
        · split
          · exact h.enter hr
          · split
            · exact h.congr rfl rfl
            · split
              · exact h.congr rfl rfl
              · split
                · exact h.congr rfl rfl
                · exact h
  · rw [if_pos (Bool.not_eq_true _ ▸ hr)]
    exact h

theorem StopsAtExit.keys (h : StopsAtExit e) (evs : List KeyEvent) : StopsAtExit (e.keys evs) := by
  induction evs generalizing e with
  | nil => exact h
  | cons ev evs ih => exact ih (h.key ev)

end Editor

end HeroOS
