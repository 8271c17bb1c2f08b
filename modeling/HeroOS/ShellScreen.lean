import HeroOS.FbTerminal
import HeroOS.ShellEditor

/-! # What the terminal shows while a line is edited

`shell_run` prints each character that it takes into the line, erases with `"\b \b"`, and prints a line from the history
over the erased one.  A terminal that puts characters into cells (`Grid`, as the terminal of `framebuffer.c` does) then shows
the line behind the prompt.

* `Shell.keyOut`: what `shell_run` prints for an event;
* `Grid.shown g text`: the screen `g` with the text from the cursor on and blank cells behind it;
* `Editor.screen_key`: one event changes what is shown as it changes the text;
* `shell_screen_shows_line`: so do all events up to the end of the line, as long as the line fits into the row. -/

namespace HeroOS

open CString

/-- `SHELL_PROMPT` -/
def SHELL_PROMPT : String := "hero$ "

/-- `term_erase` -/
def termErase : ℕ → Except Halt (List UInt8)
  | 0 => .ok []
  | n + 1 => do
      let out ← printk (literal "\x08 \x08") []
      let more ← termErase n
      .ok (out ++ more)

namespace Shell

/-- `KEY_ARROW_UP`: what is printed. -/
def arrowUpOut (s : Shell) : Except Halt (List UInt8) :=
  match s.histGet (s.histNav + 1) with
  | none => .ok []
  | some _ => do
      let erased ← termErase s.pos.toNat
      let s ← s.arrowUp
      let text ← cstr s.line SHELL_LINE_MAX
      let out ← printk (literal "%s") text
      .ok (erased ++ out)

/-- `KEY_ARROW_DOWN`: what is printed. -/
def arrowDownOut (s : Shell) : Except Halt (List UInt8) :=
  if s.histNav < 0 then .ok []
  else do
    let erased ← termErase s.pos.toNat
    let s ← s.arrowDown
    let text ← cstr s.line SHELL_LINE_MAX
    let out ← printk (literal "%s") text
    .ok (erased ++ out)

/-- The end of a line: what is printed, up to the next prompt or the end of the shell. -/
def enterOut (s : Shell) (fs : FsCommands) : Except Halt (List UInt8) := do
  let nl ← printk (literal "\n") []
  let s ← s.putLine s.pos 0
  let (out, _) ← if s.pos > 0 then shellExecLineIo fs s.line else .ok ([], 0)
  let s ← s.execLine
  let last ← printk (literal (if s.shouldExit then "Goodbye!\n" else SHELL_PROMPT)) []
  .ok (nl ++ out ++ last)

/-- What the body of the inner loop of `shell_run` prints for an event. -/
def keyOut (s : Shell) (fs : FsCommands) (ev : KeyEvent) : Except Halt (List UInt8) :=
  if s.running = false then .ok []
  else if ev.pressed = false then .ok []
  else if ev.extended then
    if ev.scancode = KEY_ARROW_UP then s.arrowUpOut
    else if ev.scancode = KEY_ARROW_DOWN then s.arrowDownOut
    else .ok []
  else
    let c := ev.ascii
    if c = 0 then .ok []
    else if c = 0x0D ∨ c = 0x0A then s.enterOut fs
    else if c = 0x08 then if s.pos > 0 then termErase 1 else .ok []
    else if c = 0x1B then termErase s.pos.toNat
    else if s.pos < SHELL_LINE_MAX - 1 then printkWord (literal "%c") (.ofNat c.toNat)
    else .ok []

/-- The events in their order, with what is printed. -/
def keysIo (fs : FsCommands) : List KeyEvent → Shell → Except Halt (Shell × List UInt8)
  | [], s => .ok (s, [])
  | ev :: evs, s => do
      let out ← s.keyOut fs ev
      let s ← s.key ev
      let (s, more) ← keysIo fs evs s
      .ok (s, out ++ more)

end Shell

/-- The event ends a line. -/
def EndsLine (ev : KeyEvent) : Prop := ev.pressed = true ∧ ev.extended = false ∧ (ev.ascii = 0x0D ∨ ev.ascii = 0x0A)

/-! ### A text on the screen -/

/-- A character that fills a cell. -/
def IsCell (c : UInt8) : Prop := c ≠ NEWLINE ∧ c ≠ RETURN ∧ c ≠ BACKSPACE

namespace Grid

variable {g : Grid} {rows cols : ℕ} {text t : List UInt8} {c : UInt8}

/-- The screen with a text from the cursor on, and blank cells behind it. -/
def shown (g : Grid) (text : List UInt8) : Grid :=
  { g with
    col := g.col + text.length
    cells := fun r k => if r = g.row ∧ g.col ≤ k then text.getD (k - g.col) SPACE else g.cells r k }

theorem shown_nil (h : ∀ k, g.col ≤ k → g.cells g.row k = SPACE) : g.shown [] = g := by
  unfold shown
  have hcells : (fun r k => if r = g.row ∧ g.col ≤ k then ([] : List UInt8).getD (k - g.col) SPACE else g.cells r k) = g.cells := by
    funext r k
    split
    · rename_i hin
      rw [List.getD_nil, hin.1, h k hin.2]
    · rfl
  rw [hcells, List.length_nil, Nat.add_zero]

/-- The character behind a text. -/
theorem getD_push (text : List UInt8) (c : UInt8) (j : ℕ) :
    (text ++ [c]).getD j SPACE = if j = text.length then c else text.getD j SPACE := by
  rcases Nat.lt_trichotomy j text.length with hlt | rfl | hgt
  · rw [if_neg hlt.ne, List.getD_append _ _ _ _ hlt]
  · rw [if_pos rfl, List.getD_append_right _ _ _ _ (le_refl _), Nat.sub_self]
    rfl
  · rw [if_neg hgt.ne', List.getD_eq_default, List.getD_eq_default _ _ hgt.le]
    rw [List.length_append, List.length_singleton]
    exact hgt

/-- Changing the cell behind a text. -/
theorem shown_set (g : Grid) (text : List UInt8) (c : UInt8) :
    (g.shown text).set g.row (g.col + text.length) c = { g.shown (text ++ [c]) with col := g.col + text.length } := by
  unfold shown set
  congr 1
  funext r k
  dsimp only
  by_cases hin : r = g.row ∧ g.col ≤ k
  · rw [if_pos hin, if_pos hin, getD_push]
    by_cases hk : k = g.col + text.length
    · rw [if_pos ⟨hin.1, hk⟩, if_pos (by omega)]
    · rw [if_neg (fun h => hk h.2), if_neg (by omega)]
  · rw [if_neg hin, if_neg hin, if_neg (fun h => hin ⟨h.1, by omega⟩)]

/-- **A character** that arrives is appended to the text. -/
theorem putc_shown (hc : IsCell c) (hfit : g.col + text.length + 1 < cols) :
    putc rows cols (g.shown text) c = g.shown (text ++ [c]) := by
  unfold putc
  rw [if_neg hc.1, if_neg hc.2.1, if_neg hc.2.2]
  have hset : (g.shown text).set (g.shown text).row (g.shown text).col c =
      { g.shown (text ++ [c]) with col := g.col + text.length } := shown_set g text c
  rw [hset]
  dsimp only
  rw [if_pos hfit]
  unfold shown
  rw [List.length_append, List.length_singleton]
  rfl

theorem putc_shown_all (ht : ∀ c ∈ t, IsCell c) (hfit : g.col + text.length + t.length < cols) :
    t.foldl (putc rows cols) (g.shown text) = g.shown (text ++ t) := by
  induction t generalizing text with
  | nil => rw [List.foldl_nil, List.append_nil]
  | cons c t ih =>
      rw [List.length_cons] at hfit
      rw [List.foldl_cons, putc_shown (ht c List.mem_cons_self) (by omega),
        ih (fun d hd => ht d (List.mem_cons_of_mem _ hd)) (by rw [List.length_append, List.length_singleton]; omega),
        List.append_assoc, List.singleton_append]

/-- A backspace blanks the last character. -/
theorem putc_backspace : putc rows cols (g.shown (text ++ [c])) BACKSPACE = g.shown text := by
  have hlen : (text ++ [c]).length = text.length + 1 := by rw [List.length_append, List.length_singleton]
  have hcol : (g.shown (text ++ [c])).col = g.col + text.length + 1 := by
    unfold shown
    dsimp only
    rw [hlen, Nat.add_assoc]
  unfold putc
  rw [if_neg (by decide), if_neg (by decide), if_pos rfl, if_neg (by omega), hcol, Nat.add_sub_cancel]
  unfold shown set
  congr 1
  funext r k
  dsimp only
  by_cases hin : r = g.row ∧ g.col ≤ k
  · rw [if_pos hin, if_pos hin, getD_push]
    by_cases hk : k = g.col + text.length
    · rw [if_pos ⟨hin.1, hk⟩, List.getD_eq_default _ _ (by omega)]
    · rw [if_neg (fun h => hk h.2), if_neg (by omega)]
  · rw [if_neg hin, if_neg hin, if_neg (fun h => hin ⟨h.1, by omega⟩)]

/-- What `term_erase(n)` prints. -/
def eraseBytes (n : ℕ) : List UInt8 := (List.replicate n [BACKSPACE, SPACE, BACKSPACE]).flatten

theorem eraseBytes_succ (n : ℕ) : eraseBytes (n + 1) = [BACKSPACE, SPACE, BACKSPACE] ++ eraseBytes n := by
  unfold eraseBytes
  rw [List.replicate_succ, List.flatten_cons]

/-- Erasing one character. -/
theorem erase_last (hfit : g.col + text.length + 1 < cols) :
    [BACKSPACE, SPACE, BACKSPACE].foldl (putc rows cols) (g.shown (text ++ [c])) = g.shown text := by
  have hspace : IsCell SPACE := by
    unfold IsCell
    decide
  simp only [List.foldl_cons, List.foldl_nil]
  rw [putc_backspace, putc_shown hspace hfit, putc_backspace]

/-- **Erasing the text.** -/
theorem erase_all (hfit : g.col + text.length < cols) :
    (eraseBytes text.length).foldl (putc rows cols) (g.shown text) = g.shown [] := by
  induction text using List.reverseRecOn with
  | nil => rfl
  | append_singleton text c ih =>
      rw [List.length_append, List.length_singleton] at hfit ⊢
      rw [eraseBytes_succ, List.foldl_append, erase_last (by omega)]
      exact ih (by omega)

end Grid

/-! ### What the editor prints -/

namespace Editor

variable {e : Editor} {ev : KeyEvent} {g : Grid} {rows cols : ℕ}

/-- What is printed for an event that does not end the line: the change of the text. -/
def keyOut (e : Editor) (ev : KeyEvent) : List UInt8 :=
  if e.running = false then []
  else if ev.pressed = false then []
  else if ev.extended then
    if ev.scancode = KEY_ARROW_UP then
      if e.entry (further e.nav) = none then [] else Grid.eraseBytes e.text.length ++ e.up.text
    else if ev.scancode = KEY_ARROW_DOWN then
      if e.nav = none then [] else Grid.eraseBytes e.text.length ++ e.down.text
    else []
  else if ev.ascii = 0 then []
  else if ev.ascii = 0x08 then if e.text = [] then [] else Grid.eraseBytes 1
  else if ev.ascii = 0x1B then Grid.eraseBytes e.text.length
  else if e.text.length < SHELL_LINE_MAX - 1 then [ev.ascii]
  else []

/-- All texts consist of characters that fill cells. -/
structure Cells (e : Editor) : Prop where
  text : ∀ c ∈ e.text, IsCell c
  saved : ∀ c ∈ e.saved, IsCell c
  lines : ∀ line ∈ e.lines, ∀ c ∈ line, IsCell c

theorem Cells.entry {k : ℕ} {line : List UInt8} (h : Cells e) (hk : e.entry k = some line) : ∀ c ∈ line, IsCell c := by
  unfold Editor.entry at hk
  split at hk
  · exact h.lines line (List.mem_reverse.mp (List.mem_of_getElem? hk))
  · cases hk

theorem Cells.up (h : Cells e) : Cells e.up := by
  unfold Editor.up
  split
  · exact h
  · rename_i line hline
    refine ⟨h.entry hline, ?_, h.lines⟩
    dsimp only
    split
    · exact h.text
    · exact h.saved

theorem Cells.down (h : Cells e) : Cells e.down := by
  unfold Editor.down
  split
  · exact h
  · exact ⟨h.saved, h.saved, h.lines⟩
  · rename_i k _
    refine ⟨?_, h.saved, h.lines⟩
    cases hk : e.entry k with
    | none => exact List.forall_mem_nil _
    | some line => exact h.entry hk

theorem Cells.enter (h : Cells e) : Cells e.enter := by
  have hlines : ∀ line ∈ (if e.text = [] then e.lines else e.lines ++ [e.text]), ∀ c ∈ line, IsCell c := by
    intro line hmem
    split at hmem
    · exact h.lines line hmem
    · rcases List.mem_append.mp hmem with hmem | hmem
      · exact h.lines line hmem
      · rw [List.mem_singleton.mp hmem]
        exact h.text
  unfold Editor.enter
  by_cases hcmd : command e.text = some .exit
  · rw [if_pos hcmd]
    exact ⟨h.text, h.saved, hlines⟩
  · rw [if_neg hcmd]
    exact ⟨List.forall_mem_nil _, List.forall_mem_nil _, hlines⟩

/-- Only characters that fill cells are typed into a line. -/
theorem Cells.key (h : Cells e) (ev : KeyEvent) : Cells (e.key ev) := by
  unfold Editor.key
  split
  · exact h
  · split
    · exact h
    · split
      · split
        · exact h.up
        · split
          · exact h.down
          · exact h
      · split
        · exact h
        · split
          · exact h.enter
          · rename_i hend
            split
            · exact ⟨fun c hc => h.text c (List.mem_of_mem_dropLast hc), h.saved, h.lines⟩
            · rename_i hback
              split
              · exact ⟨List.forall_mem_nil _, h.saved, h.lines⟩
              · split
                · refine ⟨fun c hc => ?_, h.saved, h.lines⟩
                  rcases List.mem_append.mp hc with hc | hc
                  · exact h.text c hc
                  · rw [List.mem_singleton.mp hc]
                    exact ⟨fun hn => hend (.inr hn), fun hr => hend (.inl hr), hback⟩
                · exact h

/-- An event that does not end the line leaves the shell running. -/
theorem running_key (hr : e.running = true) (hend : ¬ EndsLine ev) : (e.key ev).running = true := by
  unfold Editor.key
  split
  · exact hr
  · split
    · exact hr
    · rename_i hp
      split
      · split
        · exact e.up_frame.2.trans hr
        · split
          · exact e.down_frame.2.trans hr
          · exact hr
      · rename_i hx
        split
        · exact hr
        · split
          · rename_i hc
            exact absurd ⟨Bool.not_eq_false _ ▸ hp, Bool.not_eq_true _ ▸ hx, hc⟩ hend
          · split
            · exact hr
            · split
              · exact hr
              · split <;> exact hr

theorem running_keys {evs : List KeyEvent} (hr : e.running = true) (hend : ∀ ev ∈ evs, ¬ EndsLine ev) :
    (e.keys evs).running = true := by
  induction evs generalizing e with
  | nil => exact hr
  | cons ev evs ih =>
      exact ih (running_key hr (hend ev List.mem_cons_self)) fun ev hmem => hend ev (List.mem_cons_of_mem _ hmem)

theorem Cells.keys (h : Cells e) (evs : List KeyEvent) : Cells (e.keys evs) := by
  induction evs generalizing e with
  | nil => exact h
  | cons ev evs ih => exact ih (h.key ev)

/-- Printing a text over the erased one. -/
theorem screen_replace {t : List UInt8} (ht : ∀ c ∈ t, IsCell c) (hfit : g.col + e.text.length < cols)
    (hfit' : g.col + t.length < cols) :
    (Grid.eraseBytes e.text.length ++ t).foldl (Grid.putc rows cols) (g.shown e.text) = g.shown t := by
  rw [List.foldl_append, Grid.erase_all hfit, Grid.putc_shown_all ht (by rw [List.length_nil]; omega), List.nil_append]

/-- **One event**: the terminal shows the new text. -/
theorem screen_key (h : Cells e) (hend : ¬ EndsLine ev) (hfit : g.col + e.text.length < cols)
    (hfit' : g.col + (e.key ev).text.length < cols) :
    (e.keyOut ev).foldl (Grid.putc rows cols) (g.shown e.text) = g.shown (e.key ev).text := by
  have hkey := h.key ev
  unfold Editor.key at hkey hfit' ⊢
  unfold keyOut
  by_cases hr : e.running = false
  · rw [if_pos hr, if_pos hr]
    rfl
  rw [if_neg hr] at hkey hfit' ⊢
  rw [if_neg hr]
  by_cases hp : ev.pressed = false
  · rw [if_pos hp, if_pos hp]
    rfl
  rw [if_neg hp] at hkey hfit' ⊢
  rw [if_neg hp]
  by_cases hx : ev.extended = true
  · rw [if_pos hx] at hkey hfit' ⊢
    rw [if_pos hx]
    by_cases hup : ev.scancode = KEY_ARROW_UP
    · rw [if_pos hup] at hkey hfit' ⊢
      rw [if_pos hup]
      split
      · rename_i hnone
        unfold Editor.up
        rw [hnone]
        rfl
      · exact screen_replace hkey.text hfit hfit'
    · rw [if_neg hup] at hkey hfit' ⊢
      rw [if_neg hup]
      by_cases hdown : ev.scancode = KEY_ARROW_DOWN
      · rw [if_pos hdown] at hkey hfit' ⊢
        rw [if_pos hdown]
        split
        · rename_i hnone
          unfold Editor.down
          rw [hnone]
          rfl
        · exact screen_replace hkey.text hfit hfit'
      · rw [if_neg hdown, if_neg hdown]
        rfl
  rw [if_neg hx] at hkey hfit' ⊢
  rw [if_neg hx]
  by_cases h0 : ev.ascii = 0
  · rw [if_pos h0, if_pos h0]
    rfl
  have hline : ¬ (ev.ascii = 0x0D ∨ ev.ascii = 0x0A) := fun hc =>
    hend ⟨Bool.not_eq_false _ ▸ hp, Bool.not_eq_true _ ▸ hx, hc⟩
  rw [if_neg h0, if_neg hline] at hkey hfit' ⊢
  rw [if_neg h0]
  by_cases hback : ev.ascii = 0x08
  · rw [if_pos hback, if_pos hback]
    rcases List.eq_nil_or_concat e.text with hnil | ⟨text, c, htext⟩
    · rw [if_pos hnil, hnil]
      rfl
    · rw [List.concat_eq_append] at htext
      rw [if_neg (by rw [htext]; simp)]
      dsimp only
      rw [htext, List.dropLast_concat]
      rw [htext, List.length_append, List.length_singleton] at hfit
      exact Grid.erase_last (by omega)
  · rw [if_neg hback] at hkey hfit' ⊢
    rw [if_neg hback]
    by_cases hesc : ev.ascii = 0x1B
    · rw [if_pos hesc, if_pos hesc]
      exact Grid.erase_all hfit
    · rw [if_neg hesc] at hkey hfit' ⊢
      rw [if_neg hesc]
      by_cases hroom : e.text.length < SHELL_LINE_MAX - 1
      · rw [if_pos hroom] at hkey hfit' ⊢
        rw [if_pos hroom]
        have hcell : IsCell ev.ascii := hkey.text _ (List.mem_append_right _ (List.mem_singleton_self _))
        exact Grid.putc_shown hcell (by simpa [Nat.add_assoc] using hfit')
      · rw [if_neg hroom, if_neg hroom]
        rfl

end Editor

/-! ### What the shell prints -/

theorem printk_percent_s_literal (t : List UInt8) : printk (literal "%s") t = .ok t := by
  have hs : literal "%s" = ascii ['%', 's'] := by decide +kernel
  rw [hs, printk_percent_s]

theorem termErase_eq (n : ℕ) : termErase n = .ok (Grid.eraseBytes n) := by
  have herase : printk (literal "\x08 \x08") [] = .ok (literal "\x08 \x08") := printk_plain _ (by decide +kernel)
  have hbytes : literal "\x08 \x08" = [BACKSPACE, SPACE, BACKSPACE] := by decide +kernel
  induction n with
  | zero => rfl
  | succ n ih =>
      rw [termErase, herase, ih, hbytes, Grid.eraseBytes_succ]
      rfl

/-- The line `%c`. -/
theorem printkWord_char (c : UInt8) : printkWord (literal "%c") (.ofNat c.toNat) = .ok [c] := by
  have hnul : NoNul (literal "%c") := by decide +kernel
  have hfmt : literal "%c" = Piece.bytes (.conv false false [] .none .c) ++ [] := by decide +kernel
  unfold printkWord
  rw [vprintk_boundedString hnul (Nat.lt_succ_self _), hfmt, format_piece, format]
  have hc : UInt8.ofNat (UInt64.ofNat c.toNat).toNat = c := by
    rw [UInt64.toNat_ofNat', Nat.mod_eq_of_lt (by have := c.toNat_lt; omega)]
    exact UInt8.ofNat_toNat
  exact congrArg (fun x => Except.ok [x]) hc

namespace Shell

variable {s : Shell} {e : Editor} {fs : FsCommands} {ev : KeyEvent}

/-- **What is printed** for an event is the change of the text. -/
theorem Represents.keyOut (h : Represents s e) (hok : EditorOk s) (hend : ¬ EndsLine ev) :
    s.keyOut fs ev = .ok (e.keyOut ev) := by
  unfold Shell.keyOut Editor.keyOut
  rw [h.running]
  by_cases hr : e.running = false
  · rw [if_pos hr, if_pos hr]
  have hrun : e.running = true := Bool.not_eq_false _ ▸ hr
  have hline := h.line hrun
  have hpos : s.pos.toNat = e.text.length := by rw [hline.line.pos, Int.toNat_natCast]
  rw [if_neg hr, if_neg hr]
  by_cases hp : ev.pressed = false
  · rw [if_pos hp, if_pos hp]
  rw [if_neg hp, if_neg hp]
  by_cases hx : ev.extended = true
  · rw [if_pos hx, if_pos hx]
    by_cases hup : ev.scancode = KEY_ARROW_UP
    · rw [if_pos hup, if_pos hup]
      unfold arrowUpOut
      have hnext : s.histNav + 1 = (Editor.further e.nav : ℕ) := by rw [hline.nav, navPos_further]
      rw [hnext]
      cases hentry : e.entry (Editor.further e.nav) with
      | none =>
          rw [h.get_none hentry, if_pos rfl]
      | some line =>
          obtain ⟨row, hrow, _⟩ := h.get_some hentry
          obtain ⟨s', hs', hrep⟩ := h.arrowUp hok hrun
          have hrun' : e.up.running = true := e.up_frame.2.trans hrun
          rw [hrow, if_neg (by simp)]
          dsimp only
          rw [hpos, termErase_eq, hs']
          simp only [bind, Except.bind]
          rw [(hrep.line hrun').line.line]
          dsimp only
          rw [printk_percent_s_literal]
    · rw [if_neg hup, if_neg hup]
      by_cases hdown : ev.scancode = KEY_ARROW_DOWN
      · rw [if_pos hdown, if_pos hdown]
        unfold arrowDownOut
        cases hnav : e.nav with
        | none =>
            have hneg : s.histNav < 0 := by
              rw [hline.nav, hnav]
              decide
            rw [if_pos hneg, if_pos rfl]
        | some k =>
            have hneg : ¬ s.histNav < 0 := by
              rw [hline.nav, hnav]
              exact not_lt.mpr (Int.natCast_nonneg k)
            obtain ⟨s', hs', hrep⟩ := h.arrowDown hok hrun
            have hrun' : e.down.running = true := e.down_frame.2.trans hrun
            rw [if_neg hneg, if_neg (by simp), hpos, termErase_eq, hs']
            simp only [bind, Except.bind]
            rw [(hrep.line hrun').line.line]
            dsimp only
            rw [printk_percent_s_literal]
      · rw [if_neg hdown, if_neg hdown]
  rw [if_neg hx, if_neg hx]
  dsimp only
  by_cases h0 : ev.ascii = 0
  · rw [if_pos h0, if_pos h0]
  have hnot : ¬ (ev.ascii = 0x0D ∨ ev.ascii = 0x0A) := fun hc => hend ⟨Bool.not_eq_false _ ▸ hp, Bool.not_eq_true _ ▸ hx, hc⟩
  rw [if_neg h0, if_neg h0, if_neg hnot]
  by_cases hback : ev.ascii = 0x08
  · rw [if_pos hback, if_pos hback, hline.line.pos]
    by_cases hnil : e.text = []
    · rw [if_pos hnil, if_neg (by rw [hnil]; decide)]
    · rw [if_neg hnil, if_pos (Int.natCast_pos.mpr (List.length_pos_of_ne_nil hnil)), termErase_eq]
  rw [if_neg hback, if_neg hback]
  by_cases hesc : ev.ascii = 0x1B
  · rw [if_pos hesc, if_pos hesc, hpos, termErase_eq]
  rw [if_neg hesc, if_neg hesc, hline.line.pos]
  by_cases hroom : e.text.length < SHELL_LINE_MAX - 1
  · rw [if_pos hroom, if_pos (by omega), printkWord_char]
  · rw [if_neg hroom, if_neg (by omega)]

/-- Events up to the end of the line, as long as the line fits. -/
theorem Represents.keysIo {g : Grid} {rows cols : ℕ} {evs : List KeyEvent} (h : Represents s e) (hok : EditorOk s)
    (hcells : e.Cells) (hend : ∀ ev ∈ evs, ¬ EndsLine ev)
    (hfit : ∀ pre, pre <+: evs → g.col + (e.keys pre).text.length < cols) :
    ∃ s' out, Shell.keysIo fs evs s = .ok (s', out) ∧ Shell.keys evs s = .ok s' ∧ Represents s' (e.keys evs) ∧
      out.foldl (Grid.putc rows cols) (g.shown e.text) = g.shown (e.keys evs).text := by
  induction evs generalizing s e with
  | nil => exact ⟨s, [], rfl, rfl, h, rfl⟩
  | cons ev evs ih =>
      have hev := hend ev List.mem_cons_self
      have hout : s.keyOut fs ev = .ok (e.keyOut ev) := h.keyOut hok hev
      obtain ⟨s₁, hs₁, hok₁, h₁⟩ := h.key hok ev
      have hfit₁ : ∀ pre, pre <+: evs → g.col + ((e.key ev).keys pre).text.length < cols := by
        intro pre hpre
        exact hfit (ev :: pre) (List.cons_prefix_cons.mpr ⟨rfl, hpre⟩)
      obtain ⟨s', out, hio, hkeys, h', hscreen⟩ :=
        ih h₁ hok₁ (hcells.key ev) (fun ev hmem => hend ev (List.mem_cons_of_mem _ hmem)) hfit₁
      refine ⟨s', e.keyOut ev ++ out, ?_, ?_, h', ?_⟩
      · rw [Shell.keysIo, hout, hs₁]
        simp only [bind, Except.bind]
        rw [hio]
      · rw [Shell.keys, hs₁]
        exact hkeys
      · have hstep : (e.keyOut ev).foldl (Grid.putc rows cols) (g.shown e.text) = g.shown (e.key ev).text :=
          Editor.screen_key hcells hev (hfit [] List.nil_prefix) (hfit₁ [] List.nil_prefix)
        rw [List.foldl_append, hstep]
        exact hscreen

end Shell

/-- **The terminal shows the line.**  After any session that has come to an empty line, with blank cells from the cursor of
the terminal on: as long as the line fits into the row, every stream of events up to the end of the line leaves on the
terminal the text of the line behind the prompt, blank cells behind it and the cursor at its end, and changes no other
cell. -/
theorem shell_screen_shows_line {s s₁ : Shell} {session evs : List KeyEvent} (fs : FsCommands) (rows cols : ℕ) (g : Grid)
    (hhead : s.histHead = 0) (hcount : s.histCount = 0) (hexit : s.shouldExit = false)
    (hsession : s.shellRun session = .ok s₁) (hrun : s₁.running = true) (hempty : cstr s₁.line SHELL_LINE_MAX = .ok [])
    (hblank : ∀ k, g.col ≤ k → g.cells g.row k = SPACE) (hend : ∀ ev ∈ evs, ¬ EndsLine ev)
    (hfit : ∀ pre s', pre <+: evs → Shell.keys pre s₁ = .ok s' → g.col + s'.pos < cols) :
    ∃ s₂ out text, Shell.keysIo fs evs s₁ = .ok (s₂, out) ∧ Shell.keys evs s₁ = .ok s₂ ∧
      cstr s₂.line SHELL_LINE_MAX = .ok text ∧ out.foldl (Grid.putc rows cols) g = g.shown text := by
  obtain ⟨s', hs', hok, hrep⟩ := (Shell.Represents.start hhead hcount hexit).keys (Shell.startLine_ok _) session
  obtain rfl := Except.ok.inj (hsession.symm.trans hs')
  obtain ⟨e, he⟩ : ∃ e, e = (Editor.prompt []).keys session := ⟨_, rfl⟩
  have hcells : e.Cells := by
    rw [he]
    exact Editor.Cells.keys ⟨List.forall_mem_nil _, List.forall_mem_nil _, List.forall_mem_nil _⟩ session
  rw [← he] at hrep
  have hrun' : e.running = true := hrep.running.symm.trans hrun
  have htext : e.text = [] := Except.ok.inj ((hrep.line hrun').line.line.symm.trans hempty)
  -- no event that does not end the line stops the shell
  have hrunning : ∀ pre, pre <+: evs → (e.keys pre).running = true := by
    intro pre hpre
    exact Editor.running_keys hrun' fun ev hmem => hend ev (hpre.subset hmem)
  have hfit' : ∀ pre, pre <+: evs → g.col + (e.keys pre).text.length < cols := by
    intro pre hpre
    obtain ⟨s', hs', _, hrep'⟩ := hrep.keys hok pre
    have hlt := hfit pre s' hpre hs'
    rw [(hrep'.line (hrunning pre hpre)).line.pos] at hlt
    omega
  obtain ⟨s₂, out, hio, hkeys, hrep₂, hscreen⟩ := hrep.keysIo hok hcells hend hfit'
  rw [htext, Grid.shown_nil hblank] at hscreen
  exact ⟨s₂, out, _, hio, hkeys, (hrep₂.line (hrunning evs List.prefix_rfl)).line.line, hscreen⟩

/-- Two lines are executed; then a letter is typed, and two steps up show the first line again. -/
theorem shell_screen_shows_line_history : ∃ s₁ s₂ out, (bootShell fun _ => 0xAA).shellRun ((chars "pwd\ncd\n").map charKey) = .ok s₁ ∧
    Shell.keysIo noFiles [charKey 0x78, arrowKey 0x48, arrowKey 0x48] s₁ = .ok (s₂, out) ∧
      out.foldl (Grid.putc 25 80) { Grid.blank with col := 6 } = { Grid.blank with col := 6 }.shown (chars "pwd") := by
  obtain ⟨s₁, hs₁, hok, hrep⟩ := (Shell.Represents.start (s := bootShell fun _ => 0xAA) rfl rfl rfl).keys (Shell.startLine_ok _)
    ((chars "pwd\ncd\n").map charKey)
  have hprompt : (Editor.prompt []).keys ((chars "pwd\ncd\n").map charKey) = Editor.prompt [chars "pwd", chars "cd"] := by
    decide +kernel
  rw [hprompt] at hrep
  have hrun : s₁.running = true := hrep.running
  have hempty : cstr s₁.line SHELL_LINE_MAX = .ok [] := (hrep.line rfl).line.line
  have hfit : ∀ pre s', pre <+: [charKey 0x78, arrowKey 0x48, arrowKey 0x48] → Shell.keys pre s₁ = .ok s' →
      ((6 : ℕ) : ℤ) + s'.pos < (80 : ℕ) := by
    intro pre s' hpre hs'
    have hall : ∀ pre ∈ [charKey 0x78, arrowKey 0x48, arrowKey 0x48].inits,
        ((Editor.prompt [chars "pwd", chars "cd"]).keys pre).running = true ∧
          ((Editor.prompt [chars "pwd", chars "cd"]).keys pre).text.length < 74 := by decide +kernel
    obtain ⟨hr, hlen⟩ := hall pre (List.mem_inits pre _ |>.mpr hpre)
    obtain ⟨s'', hs'', _, hrep'⟩ := hrep.keys hok pre
    obtain rfl := Except.ok.inj (hs'.symm.trans hs'')
    rw [(hrep'.line hr).line.pos]
    omega
  have hend : ∀ ev ∈ [charKey 0x78, arrowKey 0x48, arrowKey 0x48], ¬ EndsLine ev := by
    simp [EndsLine, charKey, arrowKey]
  obtain ⟨s₂, out, text, hio, hkeys, htext, hscreen⟩ := shell_screen_shows_line noFiles 25 80 { Grid.blank with col := 6 }
    rfl rfl rfl hs₁ hrun hempty (fun _ _ => rfl) hend hfit
  obtain ⟨s', hs', _, hrep'⟩ := hrep.keys hok [charKey 0x78, arrowKey 0x48, arrowKey 0x48]
  obtain rfl := Except.ok.inj (hkeys.symm.trans hs')
  have hlast : (Editor.prompt [chars "pwd", chars "cd"]).keys [charKey 0x78, arrowKey 0x48, arrowKey 0x48] =
      ⟨chars "pwd", [0x78], some 1, [chars "pwd", chars "cd"], true⟩ := by decide +kernel
  rw [hlast] at hrep'
  obtain rfl : text = chars "pwd" := Except.ok.inj (htext.symm.trans (hrep'.line rfl).line.line)
  exact ⟨s₁, s₂, out, hs₁, hio, hscreen⟩

end HeroOS
