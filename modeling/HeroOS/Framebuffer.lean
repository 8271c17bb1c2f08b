import HeroOS.Font8x16
import HeroOS.Memory

/-! # The framebuffer

The drawing functions of `drivers/framebuffer/framebuffer.c` on byte memory, with the index arithmetic in
`uint32_t`.  A loop over consecutive rows, columns or words is a fold over the list of them.

`Paints d R f m m'` says what a piece of drawing does to the pixels: those in `R` get the colours `f`, and
all others on the stride of the screen are kept.  Such pieces compose (`Paints.seq`, `Paints.foldl`), so
that every function has one lemma of this form, and `fb_scroll_up` one that moves the pixels up
(`pixel_scrollUp`). -/

namespace HeroOS

/-- `RGB` -/
def RGB (r g b : ℕ) : ℕ := r <<< 16 ||| g <<< 8 ||| b

/-- `COLOR_BG` -/
def COLOR_BG : ℕ := RGB 0x12 0x12 0x1F
/-- `COLOR_TEXT` -/
def COLOR_TEXT : ℕ := RGB 0xCB 0xD5 0xE1

/-- `FONT_W` -/
def FONT_W : ℕ := 8
/-- `FONT_H` -/
def FONT_H : ℕ := 16

/-- `fb_info_t`; the depth and the type are not used for drawing. -/
structure FbInfo where
  addr : ℕ
  pitch : ℕ
  width : ℕ
  height : ℕ
deriving DecidableEq, Repr

/-- `g_fb` and `g_fb_mem` -/
structure Display where
  fb : FbInfo
  fbMem : ℕ
deriving DecidableEq, Repr

/-! ### Glyphs -/

/-- The index of a character in the font. -/
def glyphIndex (c : UInt8) : ℕ :=
  let idx := if c.toNat < 32 then 63 - 32 else c.toNat - 32
  if idx ≥ 96 then 0 else idx

/-- A pixel of a glyph is set. -/
def glyphBit (c : UInt8) (row col : ℕ) : Bool :=
  (font8x16.getD (glyphIndex c * FONT_H + row) 0 >>> (7 - col)) &&& 1 != 0

namespace Display

variable (d : Display) (m : Mem)

/-- The words of a row: `g_fb.pitch / 4` -/
def stride : ℕ := d.fb.pitch / 4

/-! ### Drawing -/

/-- `fb_set_pixel` -/
def fbSetPixel (x y color : ℕ) : Mem :=
  if d.fbMem = 0 ∨ x ≥ d.fb.width ∨ y ≥ d.fb.height then m
  else m.write32 (d.fbMem + 4 * ((y * d.stride + x) % 2 ^ 32)) color

/-- The inner loop of `fb_fill_rect`. -/
def fillLine (line x w color : ℕ) : Mem :=
  (List.range' x (min ((x + w) % 2 ^ 32) d.fb.width - x)).foldl (fun m col => m.write32 (line + 4 * col) color) m

/-- `fb_fill_rect` -/
def fbFillRect (x y w h color : ℕ) : Mem :=
  (List.range' y (min ((y + h) % 2 ^ 32) d.fb.height - y)).foldl
    (fun m row => d.fillLine m (d.fbMem + 4 * (row * d.stride % 2 ^ 32)) x w color) m

/-- `fb_clear` -/
def fbClear (color : ℕ) : Mem :=
  if d.fbMem = 0 then m
  else (List.range (d.stride * d.fb.height % 2 ^ 32)).foldl (fun m i => m.write32 (d.fbMem + 4 * i) color) m

/-- A row of `fb_draw_char`. -/
def drawGlyphRow (x y : ℕ) (c : UInt8) (fg bg row : ℕ) : Mem :=
  (List.range FONT_W).foldl (fun m col =>
    d.fbSetPixel m ((x + col) % 2 ^ 32) ((y + row) % 2 ^ 32) (if glyphBit c row col then fg else bg)) m

/-- `fb_draw_char` -/
def fbDrawChar (x y : ℕ) (c : UInt8) (fg bg : ℕ) : Mem :=
  if d.fbMem = 0 then m
  else (List.range FONT_H).foldl (fun m row => d.drawGlyphRow m x y c fg bg row) m

/-- `fb_scroll_up`; `bg` is the background colour of the terminal. -/
def fbScrollUp (lines bg : ℕ) : Mem :=
  let scrollPixels := lines * FONT_H % 2 ^ 32
  let keepBytes := (d.fb.height + 2 ^ 32 - scrollPixels) % 2 ^ 32 * d.fb.pitch % 2 ^ 32
  let m := m.memmove d.fbMem (d.fbMem + scrollPixels * d.fb.pitch % 2 ^ 32) keepBytes
  d.fbFillRect m 0 ((d.fb.height + 2 ^ 32 - scrollPixels) % 2 ^ 32) d.fb.width scrollPixels bg

/-! ### Pixels -/

/-- The colour of a pixel. -/
def pixel (x y : ℕ) : ℕ := m.read32 (d.fbMem + 4 * (y * d.stride + x))

/-- A mapped framebuffer whose rows fit into the pitch and whose words have 32-bit indices. -/
structure Geometry : Prop where
  mapped : d.fbMem ≠ 0
  pitch : d.fb.pitch % 4 = 0
  row : 4 * d.fb.width ≤ d.fb.pitch
  size : d.fb.pitch * d.fb.height < 2 ^ 32

/-- A mapped framebuffer, where the end of a row need not be a whole word. -/
structure Screen : Prop where
  mapped : d.fbMem ≠ 0
  row : 4 * d.fb.width ≤ d.fb.pitch
  size : d.fb.pitch * d.fb.height < 2 ^ 32

/-- The pixels in `R` get the colours `f`; the others are kept. -/
structure Paints (R : ℕ → ℕ → Prop) (f : ℕ → ℕ → ℕ) (m m' : Mem) : Prop where
  inside : ∀ x y, x < d.stride → R x y → d.pixel m' x y = f x y
  outside : ∀ x y, x < d.stride → ¬ R x y → d.pixel m' x y = d.pixel m x y

variable {d m} {m' m'' : Mem} {R R' : ℕ → ℕ → Prop} {f : ℕ → ℕ → ℕ} {x y w h color : ℕ}

theorem Geometry.screen (hg : d.Geometry) : d.Screen := ⟨hg.mapped, hg.row, hg.size⟩

theorem Screen.width_le (hs : d.Screen) : d.fb.width ≤ d.stride := by
  have hrow := hs.row
  unfold stride
  omega

/-- The words of the screen. -/
theorem offset_lt (hx : x < d.stride) (hy : y < d.fb.height) :
    4 * (y * d.stride + x) + 4 ≤ d.fb.pitch * d.fb.height := by
  have hrows : (y + 1) * d.stride ≤ d.fb.height * d.stride := Nat.mul_le_mul_right _ hy
  have hsucc : (y + 1) * d.stride = y * d.stride + d.stride := Nat.succ_mul y _
  have hpitch : d.fb.height * (4 * d.stride) ≤ d.fb.height * d.fb.pitch :=
    Nat.mul_le_mul_left _ (Nat.mul_div_le d.fb.pitch 4)
  have hsize : d.fb.height * (4 * d.stride) = 4 * (d.fb.height * d.stride) := by ring
  rw [Nat.mul_comm d.fb.pitch]
  omega

theorem Geometry.width_le (hg : d.Geometry) : d.fb.width ≤ d.stride := hg.screen.width_le

theorem Geometry.pitch_eq (hg : d.Geometry) : d.fb.pitch = 4 * d.stride := by
  have hp := hg.pitch
  unfold stride
  omega

/-- The numbers of a screen that is not empty. -/
theorem Geometry.lt_two_pow (hg : d.Geometry) (hw : 0 < d.fb.width) (hh : 0 < d.fb.height) :
    d.fb.pitch < 2 ^ 32 ∧ d.fb.height < 2 ^ 32 := by
  have hrow := hg.row
  exact ⟨(Nat.le_mul_of_pos_right _ hh).trans_lt hg.size, (Nat.le_mul_of_pos_left _ (by omega)).trans_lt hg.size⟩

theorem offset_inj {s x y x' y' : ℕ} (hx : x < s) (hx' : x' < s) (h : y * s + x = y' * s + x') : x = x' ∧ y = y' := by
  have hmod := congrArg (· % s) h
  simp only [Nat.mul_comm y, Nat.mul_comm y', Nat.mul_add_mod, Nat.mod_eq_of_lt hx,
    Nat.mod_eq_of_lt hx'] at hmod
  subst hmod
  exact ⟨rfl, Nat.eq_of_mul_eq_mul_right (by omega) (by omega : y * s = y' * s)⟩

namespace Paints

theorem refl (hR : ∀ x y, x < d.stride → ¬ R x y) : d.Paints R f m m :=
  ⟨fun x y hx h => absurd h (hR x y hx), fun _ _ _ _ => rfl⟩

theorem congr (h : d.Paints R f m m') (hR : ∀ x y, x < d.stride → (R x y ↔ R' x y)) : d.Paints R' f m m' :=
  ⟨fun x y hx hr => h.inside x y hx ((hR x y hx).mpr hr), fun x y hx hr => h.outside x y hx (fun h => hr ((hR x y hx).mp h))⟩

/-- One piece after the other. -/
theorem seq (h : d.Paints R f m m') (h' : d.Paints R' f m' m'') : d.Paints (fun x y => R x y ∨ R' x y) f m m'' := by
  constructor
  · intro x y hx hr
    by_cases hr' : R' x y
    · exact h'.inside x y hx hr'
    · rw [h'.outside x y hx hr']
      exact h.inside x y hx (hr.resolve_right hr')
  · intro x y hx hr
    rw [not_or] at hr
    rw [h'.outside x y hx hr.2]
    exact h.outside x y hx hr.1

/-- A loop. -/
theorem foldl {ι : Type} {l : List ι} {step : Mem → ι → Mem} {S : ι → ℕ → ℕ → Prop}
    (h : ∀ m, ∀ i ∈ l, d.Paints (S i) f m (step m i)) (m : Mem) :
    d.Paints (fun x y => ∃ i ∈ l, S i x y) f m (l.foldl step m) := by
  induction l generalizing m with
  | nil => exact refl (by simp)
  | cons i l ih =>
      have hrest := ih (fun m j hj => h m j (List.mem_cons_of_mem _ hj)) (step m i)
      refine ((h m i List.mem_cons_self).seq hrest).congr fun x y _ => ?_
      simp

/-- One word. -/
theorem write (hx : x < d.stride) (hf : f x y < 2 ^ 32) :
    d.Paints (fun x' y' => x' = x ∧ y' = y) f m (m.write32 (d.fbMem + 4 * (y * d.stride + x)) (f x y)) := by
  constructor
  · rintro x' y' _ ⟨rfl, rfl⟩
    exact Mem.read32_write32_same m _ hf
  · intro x' y' hx' hne
    have hoff : y' * d.stride + x' ≠ y * d.stride + x := fun heq => hne (offset_inj hx' hx heq)
    exact Mem.read32_write32_of_disjoint (by omega)

end Paints

/-- **`fb_set_pixel`** on the screen. -/
theorem fbSetPixel_eq (hs : d.Screen) (hx : x < d.fb.width) (hy : y < d.fb.height) :
    d.fbSetPixel m x y color = m.write32 (d.fbMem + 4 * (y * d.stride + x)) color := by
  have hoff := offset_lt (hx.trans_le hs.width_le) hy
  have hsize := hs.size
  unfold fbSetPixel
  rw [if_neg (by have := hs.mapped; omega), Nat.mod_eq_of_lt (by omega)]

/-- **`fb_set_pixel`** off the screen. -/
theorem fbSetPixel_outside (h : d.fb.width ≤ x ∨ d.fb.height ≤ y) : d.fbSetPixel m x y color = m := if_pos (Or.inr h)

theorem setPixel_paints (hs : d.Screen) (hx : x < d.fb.width) (hy : y < d.fb.height) (hf : f x y < 2 ^ 32) :
    d.Paints (fun x' y' => x' = x ∧ y' = y) f m (d.fbSetPixel m x y (f x y)) := by
  rw [fbSetPixel_eq hs hx hy]
  exact Paints.write (hx.trans_le hs.width_le) hf

/-- **`fb_fill_rect`**, its corners in `uint32_t`. -/
theorem fillRect_paints_wrapped (hs : d.Screen) (hc : color < 2 ^ 32) :
    d.Paints (fun x' y' => (x ≤ x' ∧ x' < (x + w) % 2 ^ 32 ∧ x' < d.fb.width) ∧
        y ≤ y' ∧ y' < (y + h) % 2 ^ 32 ∧ y' < d.fb.height)
      (fun _ _ => color) m (d.fbFillRect m x y w h color) := by
  have hsize := hs.size
  have hwidth := hs.width_le
  unfold fbFillRect
  refine (Paints.foldl (S := fun row x' y' => (x ≤ x' ∧ x' < (x + w) % 2 ^ 32 ∧ x' < d.fb.width) ∧ y' = row) ?_ m).congr ?_
  · intro m row hrow
    rw [List.mem_range'_1] at hrow
    unfold fillLine
    refine (Paints.foldl (S := fun col x' y' => x' = col ∧ y' = row) ?_ m).congr ?_
    · intro m col hcol
      rw [List.mem_range'_1] at hcol
      have hoff := offset_lt (show col < d.stride by omega) (show row < d.fb.height by omega)
      rw [Nat.mod_eq_of_lt (by omega), Nat.add_assoc, ← Nat.mul_add]
      exact Paints.write (by omega) hc
    · intro x' y' _
      simp only [List.mem_range'_1]
      constructor
      · rintro ⟨col, hcol, rfl, rfl⟩
        exact ⟨by omega, rfl⟩
      · rintro ⟨hx, rfl⟩
        exact ⟨x', by omega, rfl, rfl⟩
  · intro x' y' _
    simp only [List.mem_range'_1]
    constructor
    · rintro ⟨row, hrow, hx, rfl⟩
      exact ⟨hx, by omega⟩
    · rintro ⟨hx, hy⟩
      exact ⟨y', by omega, hx, rfl⟩

/-- **`fb_fill_rect`**, where the corners do not wrap. -/
theorem fillRect_paints (hs : d.Screen) (hw : x + w < 2 ^ 32) (hh : y + h < 2 ^ 32) (hc : color < 2 ^ 32) :
    d.Paints (fun x' y' => (x ≤ x' ∧ x' < x + w ∧ x' < d.fb.width) ∧ y ≤ y' ∧ y' < y + h ∧ y' < d.fb.height)
      (fun _ _ => color) m (d.fbFillRect m x y w h color) := by
  have hpaints := fillRect_paints_wrapped (m := m) (x := x) (y := y) (w := w) (h := h) hs hc
  rwa [Nat.mod_eq_of_lt hw, Nat.mod_eq_of_lt hh] at hpaints

/-- **`fb_clear`** -/
theorem clear_paints (hg : d.Geometry) (hc : color < 2 ^ 32) :
    d.Paints (fun _ y' => y' < d.fb.height) (fun _ _ => color) m (d.fbClear m color) := by
  have hsize := hg.size
  have hwords : d.fb.pitch * d.fb.height = 4 * (d.stride * d.fb.height) := by
    rw [hg.pitch_eq]
    ring
  unfold fbClear
  rw [if_neg hg.mapped, Nat.mod_eq_of_lt (by omega)]
  refine (Paints.foldl (S := fun i x' y' => x' = i % d.stride ∧ y' = i / d.stride) ?_ m).congr ?_
  · intro m i hi
    rw [List.mem_range] at hi
    have hpos : 0 < d.stride := Nat.pos_of_mul_pos_right (Nat.zero_lt_of_lt hi)
    have hi' : i / d.stride * d.stride + i % d.stride = i := Nat.div_add_mod' i d.stride
    have hwrite := Paints.write (m := m) (y := i / d.stride) (f := fun _ _ => color) (Nat.mod_lt i hpos) hc
    rwa [hi'] at hwrite
  · intro x' y' hx'
    simp only [List.mem_range]
    constructor
    · rintro ⟨i, hi, rfl, rfl⟩
      exact Nat.div_lt_of_lt_mul hi
    · intro hy
      refine ⟨y' * d.stride + x', ?_, ?_, ?_⟩
      · have hoff := offset_lt hx' hy
        omega
      · rw [Nat.mul_comm, Nat.mul_add_mod, Nat.mod_eq_of_lt hx']
      · rw [Nat.mul_comm, Nat.mul_add_div (by omega), Nat.div_eq_of_lt hx', Nat.add_zero]

/-- The colour that `fb_draw_char` gives a pixel of the character at `(x, y)`. -/
def glyphColor (c : UInt8) (x y fg bg : ℕ) : ℕ → ℕ → ℕ := fun x' y' => if glyphBit c (y' - y) (x' - x) then fg else bg

/-- **`fb_draw_char`** -/
theorem drawChar_paints {c : UInt8} {fg bg : ℕ} (hg : d.Geometry) (hx : x + FONT_W ≤ d.fb.width)
    (hy : y + FONT_H ≤ d.fb.height) (hfg : fg < 2 ^ 32) (hbg : bg < 2 ^ 32) :
    d.Paints (fun x' y' => (x ≤ x' ∧ x' < x + FONT_W) ∧ y ≤ y' ∧ y' < y + FONT_H) (glyphColor c x y fg bg) m
      (d.fbDrawChar m x y c fg bg) := by
  have hsize := hg.size
  have hwidth := hg.width_le
  have hstride := hg.pitch_eq
  unfold FONT_W at hx
  have hlast := offset_lt (show x + 7 < d.stride by omega) (show y + 15 < d.fb.height by unfold FONT_H at hy; omega)
  have hheight : d.fb.height < 2 ^ 32 := by
    have hle : 1 * d.fb.height ≤ d.fb.pitch * d.fb.height := Nat.mul_le_mul_right _ (by omega)
    omega
  have hcolor : ∀ row col, row < FONT_H → col < FONT_W → (if glyphBit c row col then fg else bg) < 2 ^ 32 := by
    intro row col _ _
    split
    · exact hfg
    · exact hbg
  unfold fbDrawChar
  rw [if_neg hg.mapped]
  refine (Paints.foldl (S := fun row x' y' => (x ≤ x' ∧ x' < x + FONT_W) ∧ y' = y + row) ?_ m).congr ?_
  · intro m row hrow
    rw [List.mem_range] at hrow
    unfold FONT_H at hrow hy
    unfold drawGlyphRow
    refine (Paints.foldl (S := fun col x' y' => x' = x + col ∧ y' = y + row) ?_ m).congr ?_
    · intro m col hcol
      rw [List.mem_range] at hcol
      have hc := hcolor row col hrow hcol
      unfold FONT_W at hcol
      have hf : glyphColor c x y fg bg (x + col) (y + row) = if glyphBit c row col then fg else bg := by
        unfold glyphColor
        rw [Nat.add_sub_cancel_left, Nat.add_sub_cancel_left]
      rw [Nat.mod_eq_of_lt (by omega), Nat.mod_eq_of_lt (by omega), ← hf]
      exact setPixel_paints hg.screen (by omega) (by omega) (by rwa [hf])
    · intro x' y' _
      simp only [List.mem_range]
      constructor
      · rintro ⟨col, hcol, rfl, rfl⟩
        exact ⟨by omega, rfl⟩
      · rintro ⟨hx, rfl⟩
        exact ⟨x' - x, by omega, by omega, rfl⟩
  · intro x' y' _
    simp only [List.mem_range]
    constructor
    · rintro ⟨row, hrow, hx, rfl⟩
      exact ⟨hx, by omega⟩
    · rintro ⟨hx, hy⟩
      exact ⟨y' - y, by omega, hx, by omega⟩

/-- Moving the rows of the screen up by `k`. -/
theorem pixel_memmove {k : ℕ} (hg : d.Geometry) (hx : x < d.stride) (hy : y + k < d.fb.height) :
    d.pixel (m.memmove d.fbMem (d.fbMem + k * d.fb.pitch) ((d.fb.height - k) * d.fb.pitch)) x y = d.pixel m x (y + k) := by
  have hpitch := hg.pitch_eq
  have hrows : (y + 1) * d.stride ≤ (d.fb.height - k) * d.stride := Nat.mul_le_mul_right _ (by omega)
  have hsucc : (y + 1) * d.stride = y * d.stride + d.stride := Nat.succ_mul y _
  have hkeep : (d.fb.height - k) * d.fb.pitch = 4 * ((d.fb.height - k) * d.stride) := by
    rw [hpitch]
    ring
  have hskip : k * d.fb.pitch = 4 * (k * d.stride) := by
    rw [hpitch]
    ring
  unfold pixel Mem.read32
  apply Mem.readLE_moved
  intro j hj
  rw [Mem.memmove_apply, if_pos ⟨by omega, by omega⟩, Nat.add_mul]
  congr 1
  omega

/-- `fb_scroll_up` by no more than the screen, in numbers that do not wrap. -/
theorem fbScrollUp_eq {lines bg : ℕ} (hg : d.Geometry) (hw : 0 < d.fb.width) (hh : 0 < d.fb.height)
    (hlines : lines * FONT_H ≤ d.fb.height) :
    d.fbScrollUp m lines bg =
      d.fbFillRect (m.memmove d.fbMem (d.fbMem + lines * FONT_H * d.fb.pitch) ((d.fb.height - lines * FONT_H) * d.fb.pitch))
        0 (d.fb.height - lines * FONT_H) d.fb.width (lines * FONT_H) bg := by
  have hsize := hg.size
  obtain ⟨_, hheight⟩ := hg.lt_two_pow hw hh
  obtain ⟨k, hk⟩ : ∃ k, k = lines * FONT_H := ⟨_, rfl⟩
  have hskip : k * d.fb.pitch ≤ d.fb.pitch * d.fb.height := by
    rw [Nat.mul_comm k]
    exact Nat.mul_le_mul_left _ (by omega)
  have hkeep : (d.fb.height - k) * d.fb.pitch ≤ d.fb.pitch * d.fb.height := by
    rw [Nat.mul_comm]
    exact Nat.mul_le_mul_left _ (by omega)
  unfold fbScrollUp
  rw [← hk]
  dsimp only
  rw [Nat.mod_eq_of_lt (show k < 2 ^ 32 by omega), show (d.fb.height + 2 ^ 32 - k) % 2 ^ 32 = d.fb.height - k by omega,
    Nat.mod_eq_of_lt (hskip.trans_lt hsize), Nat.mod_eq_of_lt (hkeep.trans_lt hsize)]

/-- **`fb_scroll_up`** by less than the screen: every visible row gets the pixels of the row so many lines
below, and the rows that are left get the background. -/
theorem pixel_scrollUp {lines bg : ℕ} (hg : d.Geometry) (hlines : lines * FONT_H ≤ d.fb.height) (hbg : bg < 2 ^ 32)
    (hx : x < d.fb.width) (hy : y < d.fb.height) :
    d.pixel (d.fbScrollUp m lines bg) x y =
      if y + lines * FONT_H < d.fb.height then d.pixel m x (y + lines * FONT_H) else bg := by
  have hwidth := hg.width_le
  have hpitch := hg.pitch_eq
  obtain ⟨hpitch32, hheight32⟩ := hg.lt_two_pow (by omega) (by omega)
  have hfill := fillRect_paints
    (m := m.memmove d.fbMem (d.fbMem + lines * FONT_H * d.fb.pitch) ((d.fb.height - lines * FONT_H) * d.fb.pitch))
    hg.screen (x := 0) (w := d.fb.width) (y := d.fb.height - lines * FONT_H) (h := lines * FONT_H) (by omega) (by omega) hbg
  rw [fbScrollUp_eq hg (by omega) (by omega) hlines]
  split
  · rename_i hin
    rw [hfill.outside x y (by omega) (by omega)]
    exact pixel_memmove hg (by omega) hin
  · rename_i hout
    exact hfill.inside x y (by omega) (by omega)

end Display
end HeroOS
