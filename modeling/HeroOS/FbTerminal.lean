import HeroOS.Framebuffer

/-! # The framebuffer terminal

`fb_term_putc` against a terminal that is a grid of characters.  `Shows s g` says that the screen and the
cursor of `s` are those of the grid `g`: every pixel of a text cell is that of the glyph of its character,
and every row of pixels below the last line of text is background.

* `Shows.draw`: drawing a character puts it into its cell;
* `Shows.scroll`: moving the pixels up by one line moves the cells up;
* `Shows.putc`: every character keeps the two in step;
* `fb_term_shows_grid`: so they are after any output, whatever the screen measures. -/

namespace HeroOS

open Display

/-- `' '` -/
def SPACE : UInt8 := 32
/-- `'\n'` -/
def NEWLINE : UInt8 := 10
/-- `'\r'` -/
def RETURN : UInt8 := 13
/-- `'\b'` -/
def BACKSPACE : UInt8 := 8

/-! ### The driver -/

/-- The static variables of the driver and the memory. -/
structure FbTerm where
  display : Display
  mem : Mem
  /-- `term_col` -/
  termCol : ℕ
  /-- `term_row` -/
  termRow : ℕ
  /-- `term_fg` -/
  termFg : ℕ
  /-- `term_bg` -/
  termBg : ℕ

namespace FbTerm

/-- `fb_init` -/
def fbInit (s : FbTerm) (info : FbInfo) : FbTerm :=
  let display : Display := ⟨info, info.addr⟩
  { s with display := display, mem := display.fbClear s.mem COLOR_BG }

/-- `fb_term_init` -/
def fbTermInit (s : FbTerm) : FbTerm :=
  { s with termCol := 0, termRow := 0, termFg := COLOR_TEXT, termBg := COLOR_BG }

/-- `fb_draw_char` at the cursor. -/
def drawAtCursor (s : FbTerm) (c : UInt8) : FbTerm :=
  let x := s.termCol * FONT_W % 2 ^ 32
  let y := s.termRow * FONT_H % 2 ^ 32
  { s with mem := s.display.fbDrawChar s.mem x y c s.termFg s.termBg }

/-- `fb_term_putc` up to the check for the bottom of the screen. -/
def feed (s : FbTerm) (c : UInt8) : FbTerm :=
  let cols := s.display.fb.width / FONT_W
  if c = NEWLINE then { s with termCol := 0, termRow := (s.termRow + 1) % 2 ^ 32 }
  else if c = RETURN then { s with termCol := 0 }
  else if c = BACKSPACE then
    if s.termCol > 0 then ({ s with termCol := s.termCol - 1 } : FbTerm).drawAtCursor SPACE else s
  else
    let s := s.drawAtCursor c
    let s := { s with termCol := (s.termCol + 1) % 2 ^ 32 }
    if s.termCol ≥ cols then { s with termCol := 0, termRow := (s.termRow + 1) % 2 ^ 32 } else s

/-- The check for the bottom of the screen. -/
def bottom (s : FbTerm) : FbTerm :=
  let rows := s.display.fb.height / FONT_H
  if s.termRow ≥ rows then
    { s with mem := s.display.fbScrollUp s.mem 1 s.termBg, termRow := (rows + 2 ^ 32 - 1) % 2 ^ 32 }
  else s

/-- `fb_term_putc` -/
def fbTermPutc (s : FbTerm) (c : UInt8) : FbTerm := if s.display.fbMem = 0 then s else (s.feed c).bottom

end FbTerm

/-! ### The grid -/

/-- A terminal: a cursor, and a character for every line and column. -/
structure Grid where
  col : ℕ
  row : ℕ
  cells : ℕ → ℕ → UInt8

namespace Grid

/-- An empty terminal. -/
def blank : Grid := ⟨0, 0, fun _ _ => SPACE⟩

/-- Put a character into a cell. -/
def set (g : Grid) (row col : ℕ) (c : UInt8) : Grid :=
  { g with cells := fun r k => if r = row ∧ k = col then c else g.cells r k }

/-- All lines move up, and the last of `rows` lines is empty. -/
def scroll (g : Grid) (rows : ℕ) : Grid :=
  { g with cells := fun r k => if r + 1 < rows then g.cells (r + 1) k else SPACE }

/-- The cursor goes to the beginning of the next line. -/
def nextLine (g : Grid) (rows : ℕ) : Grid :=
  let g := { g with col := 0 }
  if g.row + 1 < rows then { g with row := g.row + 1 } else g.scroll rows

/-- A character arrives. -/
def putc (rows cols : ℕ) (g : Grid) (c : UInt8) : Grid :=
  if c = NEWLINE then g.nextLine rows
  else if c = RETURN then { g with col := 0 }
  else if c = BACKSPACE then
    if g.col = 0 then g else { g with col := g.col - 1 }.set g.row (g.col - 1) SPACE
  else
    let g := g.set g.row g.col c
    if g.col + 1 < cols then { g with col := g.col + 1 } else g.nextLine rows

/-- The colour of a pixel: glyphs in the cells of `rows` lines, background below. -/
def colorAt (g : Grid) (rows x y : ℕ) : ℕ :=
  if y / FONT_H < rows ∧ glyphBit (g.cells (y / FONT_H) (x / FONT_W)) (y % FONT_H) (x % FONT_W) then COLOR_TEXT
  else COLOR_BG

end Grid

variable {s : FbTerm} {g : Grid} {info : FbInfo} {c : UInt8} {x y rows cols : ℕ}

/-- The screens that the terminal is made for: at least one character fits. -/
structure Screen (info : FbInfo) : Prop where
  geometry : Display.Geometry ⟨info, info.addr⟩
  width : FONT_W ≤ info.width
  height : FONT_H ≤ info.height

/-- The memory `m` shows the cells of the grid. -/
def Drawn (info : FbInfo) (m : Mem) (g : Grid) : Prop :=
  ∀ x < info.width / FONT_W * FONT_W, ∀ y < info.height,
    Display.pixel ⟨info, info.addr⟩ m x y = g.colorAt (info.height / FONT_H) x y

/-- The driver shows the grid, but for the line of the cursor. -/
structure ShowsCells (info : FbInfo) (s : FbTerm) (g : Grid) : Prop where
  display : s.display = ⟨info, info.addr⟩
  fg : s.termFg = COLOR_TEXT
  bg : s.termBg = COLOR_BG
  col : s.termCol = g.col
  col_lt : g.col < info.width / FONT_W
  drawn : Drawn info s.mem g

/-- The driver shows the grid. -/
structure Shows (info : FbInfo) (s : FbTerm) (g : Grid) : Prop extends ShowsCells info s g where
  row : s.termRow = g.row
  row_lt : g.row < info.height / FONT_H

/-- The glyph of a space is empty. -/
theorem glyphBit_space {row col : ℕ} (hr : row < FONT_H) (hc : col < FONT_W) : glyphBit SPACE row col = false := by
  have h : ∀ row < FONT_H, ∀ col < FONT_W, glyphBit SPACE row col = false := by decide +kernel
  exact h row hr col hc

theorem color_lt : COLOR_TEXT < 2 ^ 32 ∧ COLOR_BG < 2 ^ 32 := by decide

/-! ### Cells on the screen -/

/-- Setting a cell changes the pixels of this cell. -/
theorem colorAt_set {row col : ℕ} (hrow : row < rows) : (g.set row col c).colorAt rows x y =
    if (col * FONT_W ≤ x ∧ x < col * FONT_W + FONT_W) ∧ row * FONT_H ≤ y ∧ y < row * FONT_H + FONT_H then
      glyphColor c (col * FONT_W) (row * FONT_H) COLOR_TEXT COLOR_BG x y
    else g.colorAt rows x y := by
  have hcell : ((col * FONT_W ≤ x ∧ x < col * FONT_W + FONT_W) ∧ row * FONT_H ≤ y ∧ y < row * FONT_H + FONT_H) ↔
      y / FONT_H = row ∧ x / FONT_W = col := by
    unfold FONT_W FONT_H
    omega
  simp only [hcell]
  unfold Grid.colorAt Grid.set glyphColor
  dsimp only
  split
  · rename_i h
    have hy : y - row * FONT_H = y % FONT_H := by
      rw [← h.1]
      unfold FONT_H
      omega
    have hx : x - col * FONT_W = x % FONT_W := by
      rw [← h.2]
      unfold FONT_W
      omega
    simp [h, hrow, hx, hy]
  · rfl

/-- The sizes of the screen fit into `uint32_t`. -/
theorem Screen.lt (hs : Screen info) : info.width < 2 ^ 32 ∧ info.height < 2 ^ 32 := by
  have hsize : info.pitch * info.height < 2 ^ 32 := hs.geometry.size
  have hrow : 4 * info.width ≤ info.pitch := hs.geometry.row
  have hw := hs.width
  have hh := hs.height
  unfold FONT_W FONT_H at *
  have hheight : 1 * info.height ≤ info.pitch * info.height := Nat.mul_le_mul_right _ (by omega)
  have hpitch : info.pitch * 1 ≤ info.pitch * info.height := Nat.mul_le_mul_left _ (by omega)
  omega

/-- **Drawing a character** into a cell of the screen. -/
theorem Drawn.draw {m : Mem} {row col : ℕ} (hs : Screen info) (h : Drawn info m g) (hrow : row < info.height / FONT_H)
    (hcol : col < info.width / FONT_W) : Drawn info (Display.fbDrawChar ⟨info, info.addr⟩ m
      (col * FONT_W % 2 ^ 32) (row * FONT_H % 2 ^ 32) c COLOR_TEXT COLOR_BG) (g.set row col c) := by
  intro x hx y hy
  have hlt := hs.lt
  have hg := hs.geometry
  have hwidth : info.width ≤ Display.stride ⟨info, info.addr⟩ := hg.width_le
  have hfitx : col * FONT_W + FONT_W ≤ info.width := by
    unfold FONT_W at *
    omega
  have hfity : row * FONT_H + FONT_H ≤ info.height := by
    unfold FONT_H at *
    omega
  have hpaint := drawChar_paints (m := m) (c := c) hg hfitx hfity color_lt.1 color_lt.2
  rw [Nat.mod_eq_of_lt (by omega), Nat.mod_eq_of_lt (by omega), colorAt_set hrow]
  have hxs : x < Display.stride ⟨info, info.addr⟩ := by
    unfold FONT_W at hx
    omega
  split
  · rename_i hin
    exact hpaint.inside x y hxs hin
  · rename_i hout
    rw [hpaint.outside x y hxs hout]
    exact h x hx y hy

/-- A row of pixels after the lines have moved up is the row one line below, or background. -/
theorem colorAt_scroll {height : ℕ} (hy : y < height) :
    (g.scroll (height / FONT_H)).colorAt (height / FONT_H) x y =
      if y + FONT_H < height then g.colorAt (height / FONT_H) x (y + FONT_H) else COLOR_BG := by
  have hdiv : (y + FONT_H) / FONT_H = y / FONT_H + 1 := by
    unfold FONT_H
    omega
  have hmod : (y + FONT_H) % FONT_H = y % FONT_H := by
    unfold FONT_H
    omega
  have hspace : glyphBit SPACE (y % FONT_H) (x % FONT_W) = false :=
    glyphBit_space (Nat.mod_lt _ (by decide)) (Nat.mod_lt _ (by decide))
  unfold Grid.colorAt Grid.scroll
  rw [hdiv, hmod]
  dsimp only
  by_cases hline : y / FONT_H + 1 < height / FONT_H
  · have hin : y + FONT_H < height := by
      unfold FONT_H at *
      omega
    have hcur : y / FONT_H < height / FONT_H := by omega
    simp [hline, hin, hcur]
  · simp [hline, hspace]

/-- **Scrolling** moves the lines up. -/
theorem Drawn.scroll {m : Mem} (hs : Screen info) (h : Drawn info m g) :
    Drawn info (Display.fbScrollUp ⟨info, info.addr⟩ m 1 COLOR_BG) (g.scroll (info.height / FONT_H)) := by
  intro x hx y hy
  have hxw : x < info.width := by
    unfold FONT_W at hx
    omega
  have hline : 1 * FONT_H ≤ info.height := by
    rw [Nat.one_mul]
    exact hs.height
  rw [pixel_scrollUp hs.geometry hline color_lt.2 hxw hy, colorAt_scroll hy, Nat.one_mul]
  split
  · rename_i hin
    exact h x hx _ hin
  · rfl

/-! ### The cursor -/

/-- The cursor stays in its line. -/
theorem ShowsCells.stay (h : ShowsCells info s g) (hrow : s.termRow = g.row) (hlt : g.row < info.height / FONT_H) :
    Shows info s.bottom g := by
  have hd := h.display
  unfold FbTerm.bottom
  rw [hd]
  dsimp only
  rw [if_neg (by rw [hrow]; exact not_le.mpr hlt)]
  exact ⟨h, hrow, hlt⟩

/-- The cursor goes to the next line. -/
theorem ShowsCells.next (hs : Screen info) (h : ShowsCells info s { g with col := 0 }) (hrow : s.termRow = g.row + 1)
    (hlt : g.row < info.height / FONT_H) : Shows info s.bottom (g.nextLine (info.height / FONT_H)) := by
  have hd := h.display
  unfold FbTerm.bottom Grid.nextLine
  dsimp only
  by_cases hline : g.row + 1 < info.height / FONT_H
  · rw [if_pos hline, if_neg (by rw [hd, hrow]; exact not_le.mpr hline)]
    exact ⟨⟨h.display, h.fg, h.bg, h.col, h.col_lt, h.drawn⟩, hrow, hline⟩
  · rw [if_neg hline, if_pos (by rw [hd, hrow]; exact not_lt.mp hline)]
    have hheight := hs.lt.2
    have hlast : (s.display.fb.height / FONT_H + 2 ^ 32 - 1) % 2 ^ 32 = g.row := by
      rw [hd]
      dsimp only
      unfold FONT_H at *
      omega
    refine ⟨⟨h.display, h.fg, h.bg, h.col, h.col_lt, ?_⟩, hlast, hlt⟩
    dsimp only
    rw [hd, h.bg]
    exact h.drawn.scroll hs

/-- A character drawn at the cursor. -/
theorem Shows.drawAtCursor {k : ℕ} (hs : Screen info) (h : Shows info s g) (hk : k < info.width / FONT_W) :
    Drawn info (({ s with termCol := k } : FbTerm).drawAtCursor c).mem (g.set g.row k c) := by
  unfold FbTerm.drawAtCursor
  dsimp only
  rw [h.display, h.fg, h.bg, h.row]
  exact h.drawn.draw hs h.row_lt hk

/-- **One character.** -/
theorem Shows.putc (hs : Screen info) (h : Shows info s g) (c : UInt8) :
    Shows info (s.fbTermPutc c) (g.putc (info.height / FONT_H) (info.width / FONT_W) c) := by
  have hd := h.display
  have hlt := hs.lt
  have hmapped : s.display.fbMem ≠ 0 := by
    rw [hd]
    exact hs.geometry.mapped
  have hcol := h.col_lt
  have hrow := h.row_lt
  have hrow' : (s.termRow + 1) % 2 ^ 32 = g.row + 1 := by
    rw [h.row]
    unfold FONT_H at hrow
    omega
  unfold FbTerm.fbTermPutc
  rw [if_neg hmapped]
  unfold FbTerm.feed Grid.putc
  by_cases hnl : c = NEWLINE
  · rw [if_pos hnl, if_pos hnl]
    exact ShowsCells.next hs ⟨hd, h.fg, h.bg, rfl, Nat.zero_lt_of_lt hcol, h.drawn⟩ hrow' hrow
  · rw [if_neg hnl, if_neg hnl]
    by_cases hcr : c = RETURN
    · rw [if_pos hcr, if_pos hcr]
      exact ShowsCells.stay ⟨hd, h.fg, h.bg, rfl, Nat.zero_lt_of_lt hcol, h.drawn⟩ h.row hrow
    · rw [if_neg hcr, if_neg hcr]
      by_cases hbs : c = BACKSPACE
      · rw [if_pos hbs, if_pos hbs]
        by_cases h0 : g.col = 0
        · rw [if_pos h0, if_neg (by rw [h.col, h0]; exact lt_irrefl 0)]
          exact h.toShowsCells.stay h.row hrow
        · rw [if_neg h0, if_pos (by rw [h.col]; exact Nat.pos_of_ne_zero h0), h.col]
          have hback : g.col - 1 < info.width / FONT_W := by omega
          have hdraw := h.drawAtCursor (c := SPACE) hs hback
          exact ShowsCells.stay ⟨hd, h.fg, h.bg, rfl, hback, fun x hx y hy => hdraw x hx y hy⟩ h.row hrow
      · rw [if_neg hbs, if_neg hbs]
        have hdraw : Drawn info (s.drawAtCursor c).mem (g.set g.row g.col c) := by
          have hcur := h.drawAtCursor (c := c) hs hcol
          rw [← h.col] at hcur
          rwa [← h.col]
        have hcol' : ((s.drawAtCursor c).termCol + 1) % 2 ^ 32 = g.col + 1 := by
          have htc : (s.drawAtCursor c).termCol = g.col := h.col
          rw [htc]
          unfold FONT_W at hcol
          omega
        dsimp only
        rw [hcol']
        by_cases hend : g.col + 1 < info.width / FONT_W
        · rw [if_pos (show (g.set g.row g.col c).col + 1 < _ from hend),
            if_neg (by rw [hd]; exact not_le.mpr hend)]
          exact ShowsCells.stay ⟨hd, h.fg, h.bg, rfl, hend, hdraw⟩ h.row hrow
        · rw [if_neg (show ¬ (g.set g.row g.col c).col + 1 < _ from hend),
            if_pos (by rw [hd]; exact not_lt.mp hend)]
          exact ShowsCells.next hs ⟨hd, h.fg, h.bg, rfl, Nat.zero_lt_of_lt hcol, hdraw⟩ hrow' hrow

/-! ### Whole outputs -/

/-- The state after `fb_init` and `fb_term_init`. -/
theorem Shows.init (hs : Screen info) (s : FbTerm) : Shows info (s.fbInit info).fbTermInit Grid.blank := by
  have hw := hs.width
  have hh := hs.height
  have hpos : 0 < info.width / FONT_W ∧ 0 < info.height / FONT_H := by
    unfold FONT_W FONT_H at *
    omega
  refine ⟨⟨rfl, rfl, rfl, rfl, hpos.1, fun x hx y hy => ?_⟩, rfl, hpos.2⟩
  have hspace : glyphBit SPACE (y % FONT_H) (x % FONT_W) = false :=
    glyphBit_space (Nat.mod_lt _ (by decide)) (Nat.mod_lt _ (by decide))
  have hxs : x < Display.stride ⟨info, info.addr⟩ := by
    have hwidth : info.width ≤ Display.stride ⟨info, info.addr⟩ := hs.geometry.width_le
    unfold FONT_W at hx
    omega
  have hclear := (clear_paints (m := s.mem) hs.geometry color_lt.2).inside x y hxs hy
  have hblank : Grid.blank.colorAt (info.height / FONT_H) x y = COLOR_BG := by
    unfold Grid.colorAt Grid.blank
    dsimp only
    rw [if_neg (by simp [hspace])]
  rw [hblank]
  exact hclear

/-- **The terminal is a grid of characters.**  On every screen on which a character fits, after
`fb_init`, `fb_term_init` and any output: the cursor is on the screen, where the grid has it, and every pixel of
every text cell is that of the glyph of the character in this cell of the grid. -/
theorem fb_term_shows_grid (hs : Screen info) (s : FbTerm) (cs : List UInt8) :
    let t := cs.foldl FbTerm.fbTermPutc (s.fbInit info).fbTermInit
    let g := cs.foldl (Grid.putc (info.height / FONT_H) (info.width / FONT_W)) Grid.blank
    (t.termCol < info.width / FONT_W ∧ t.termRow < info.height / FONT_H) ∧ (t.termCol = g.col ∧ t.termRow = g.row) ∧
      ∀ row < info.height / FONT_H, ∀ col < info.width / FONT_W, ∀ i < FONT_H, ∀ j < FONT_W,
        t.display.pixel t.mem (col * FONT_W + j) (row * FONT_H + i) =
          if glyphBit (g.cells row col) i j then COLOR_TEXT else COLOR_BG := by
  have hrun : ∀ (cs : List UInt8) (t : FbTerm) (g : Grid), Shows info t g → Shows info (cs.foldl FbTerm.fbTermPutc t)
      (cs.foldl (Grid.putc (info.height / FONT_H) (info.width / FONT_W)) g) := by
    intro cs
    induction cs with
    | nil => exact fun t g h => h
    | cons c cs ih => exact fun t g h => ih _ _ (h.putc hs c)
  obtain h := hrun cs _ _ (Shows.init hs s)
  dsimp only
  generalize cs.foldl FbTerm.fbTermPutc (s.fbInit info).fbTermInit = t at *
  generalize cs.foldl (Grid.putc (info.height / FONT_H) (info.width / FONT_W)) Grid.blank = g at *
  refine ⟨⟨h.col.trans_lt h.col_lt, h.row.trans_lt h.row_lt⟩, ⟨h.col, h.row⟩, fun row hrow col hcol i hi j hj => ?_⟩
  have hx : col * FONT_W + j < info.width / FONT_W * FONT_W := by
    unfold FONT_W at *
    omega
  have hy : row * FONT_H + i < info.height := by
    unfold FONT_H at *
    omega
  rw [h.display, h.drawn _ hx _ hy]
  have hcell : (row * FONT_H + i) / FONT_H = row ∧ (row * FONT_H + i) % FONT_H = i ∧
      (col * FONT_W + j) / FONT_W = col ∧ (col * FONT_W + j) % FONT_W = j := by
    unfold FONT_W FONT_H at *
    omega
  unfold Grid.colorAt
  rw [hcell.1, hcell.2.1, hcell.2.2.1, hcell.2.2.2]
  simp [hrow]

/-- Two lines of two characters with a padded pitch and a rest below: a wrap at the right edge, a backspace
at column 0, and a newline that scrolls. -/
theorem fb_term_shows_grid_padded :
    let info : FbInfo := ⟨0xFD000000, 96, 20, 40⟩
    let s : FbTerm := ⟨⟨⟨0, 0, 0, 0⟩, 0⟩, fun _ => 0, 0, 0, 0, 0⟩
    let t := [65, 66, BACKSPACE, 67, NEWLINE, 68].foldl FbTerm.fbTermPutc (s.fbInit info).fbTermInit
    (t.termCol = 1 ∧ t.termRow = 1) ∧ ∀ i < FONT_H, ∀ j < FONT_W,
      t.display.pixel t.mem j i = (if glyphBit 67 i j then COLOR_TEXT else COLOR_BG) ∧
      t.display.pixel t.mem j (FONT_H + i) = if glyphBit 68 i j then COLOR_TEXT else COLOR_BG := by
  intro info s t
  have hs : Screen info := ⟨⟨by decide, by decide, by decide, by decide⟩, by decide, by decide⟩
  obtain ⟨-, ⟨hcol, hrow⟩, hcells⟩ := fb_term_shows_grid hs s [65, 66, BACKSPACE, 67, NEWLINE, 68]
  have hgrid : ([65, 66, BACKSPACE, 67, NEWLINE, 68].foldl (Grid.putc (info.height / FONT_H) (info.width / FONT_W))
      Grid.blank).cells 0 0 = 67 ∧ ([65, 66, BACKSPACE, 67, NEWLINE, 68].foldl
        (Grid.putc (info.height / FONT_H) (info.width / FONT_W)) Grid.blank).cells 1 0 = 68 := by decide
  refine ⟨⟨hcol.trans (by decide), hrow.trans (by decide)⟩, fun i hi j hj => ⟨?_, ?_⟩⟩
  · have hcell := hcells 0 (by decide) 0 (by decide) i hi j hj
    rw [hgrid.1, Nat.zero_mul, Nat.zero_mul, Nat.zero_add, Nat.zero_add] at hcell
    exact hcell
  · have hcell := hcells 1 (by decide) 0 (by decide) i hi j hj
    rw [hgrid.2, Nat.zero_mul, Nat.zero_add, Nat.one_mul] at hcell
    exact hcell

end HeroOS
