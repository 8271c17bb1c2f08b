import HeroOS.Framebuffer

/-! # Rectangles

`fb_fill_rect` and `fb_draw_rect_outline` at every corner and with every extent that a `uint32_t` holds.
`Exactly R color draw` says that the drawing gives the colour to the pixels in `R` and to no others,
whatever was there before; the region is then determined (`Exactly.iff`).

* `fb_fill_rect` is `fb_set_pixel` on every pixel of the rectangle, unless the sum `x + w` or `y + h`
  reaches `2 ^ 32`: the loop then ends before it begins (`fbFillRect_of_wrap`).
* `fb_draw_rect_outline` draws four lines (`outline_paints`).  Without a width the last line is the column
  to the left of the rectangle, and without a height the second one is the row above it. -/

namespace HeroOS
namespace Display

variable (d : Display) (m : Mem)

/-- `fb_draw_hline` -/
def fbDrawHline (x y len color : ℕ) : Mem := d.fbFillRect m x y len 1 color

/-- `fb_draw_vline` -/
def fbDrawVline (x y len color : ℕ) : Mem :=
  (List.range len).foldl (fun m i => d.fbSetPixel m x ((y + i) % 2 ^ 32) color) m

/-- `fb_draw_rect_outline` -/
def fbDrawRectOutline (x y w h color : ℕ) : Mem :=
  let m := d.fbDrawHline m x y w color
  let m := d.fbDrawHline m x ((y + h + 2 ^ 32 - 1) % 2 ^ 32) w color
  let m := d.fbDrawVline m x y h color
  d.fbDrawVline m ((x + w + 2 ^ 32 - 1) % 2 ^ 32) y h color

/-- `fb_set_pixel` on every pixel of a rectangle. -/
def setPixels (x y w h color : ℕ) : Mem :=
  (List.range' y h).foldl (fun m row => (List.range' x w).foldl (fun m col => d.fbSetPixel m col row color) m) m

/-- The drawing gives the colour to the pixels in `R` and to no others. -/
def Exactly (R : ℕ → ℕ → Prop) (color : ℕ) (draw : Mem → Mem) : Prop :=
  ∀ m, d.Paints R (fun _ _ => color) m (draw m)

/-- The pixels of a rectangle that are on the screen. -/
def Rect (x y w h x' y' : ℕ) : Prop :=
  (x ≤ x' ∧ x' < x + w ∧ x' < d.fb.width) ∧ y ≤ y' ∧ y' < y + h ∧ y' < d.fb.height

/-- The pixels of its border that are on the screen. -/
def Border (x y w h x' y' : ℕ) : Prop :=
  d.Rect x y w h x' y' ∧ (x' = x ∨ x' + 1 = x + w ∨ y' = y ∨ y' + 1 = y + h)

variable {d m} {R S : ℕ → ℕ → Prop} {draw : Mem → Mem} {x y w h color : ℕ}

/-! ### Regions -/

theorem exists_pixel_ne (d : Display) (x y color : ℕ) : ∃ m, d.pixel m x y ≠ color := by
  refine ⟨Mem.write32 (fun _ => 0) (d.fbMem + 4 * (y * d.stride + x)) ((color + 1) % 2 ^ 32), ?_⟩
  unfold pixel
  rw [Mem.read32_write32_same _ _ (Nat.mod_lt _ (by omega))]
  omega

/-- The region of a drawing is determined. -/
theorem Exactly.iff (hdraw : d.Exactly R color draw) :
    d.Exactly S color draw ↔ ∀ x y, x < d.stride → (R x y ↔ S x y) := by
  constructor
  · intro hdraw' x y hx
    obtain ⟨m, hm⟩ := exists_pixel_ne d x y color
    constructor
    · intro hR
      by_contra hS
      have hpixel := (hdraw m).inside x y hx hR
      rw [(hdraw' m).outside x y hx hS] at hpixel
      exact hm hpixel
    · intro hS
      by_contra hR
      have hpixel := (hdraw' m).inside x y hx hS
      rw [(hdraw m).outside x y hx hR] at hpixel
      exact hm hpixel
  · intro hR m
    exact (hdraw m).congr hR

/-- A loop does nothing from `b` on. -/
theorem foldl_range'_clip {α : Type} (step : α → ℕ → α) {b : ℕ} (hstep : ∀ a i, b ≤ i → step a i = a) (a : α) (x w : ℕ) :
    (List.range' x w).foldl step a = (List.range' x (min (x + w) b - x)).foldl step a := by
  have hlen : w = min (x + w) b - x + (w - (min (x + w) b - x)) := by omega
  have hsplit := @List.range'_append_1 x (min (x + w) b - x) (w - (min (x + w) b - x))
  rw [← hlen] at hsplit
  have hrest : ∀ a', (List.range' (x + (min (x + w) b - x)) (w - (min (x + w) b - x))).foldl step a' = a' := by
    intro a'
    rw [List.foldl_ext step (fun a _ => a) a' (fun a i hi => hstep a i (by
      rw [List.mem_range'_1] at hi
      omega))]
    exact List.foldl_fixed _
  rw [← hsplit, List.foldl_append, hrest]

/-! ### Filled rectangles -/

/-- **`fb_fill_rect`** is `fb_set_pixel` on every pixel that its two loops reach. -/
theorem fbFillRect_eq (hs : d.Screen) :
    d.fbFillRect m x y w h color =
      (List.range' y (min ((y + h) % 2 ^ 32) d.fb.height - y)).foldl (fun m row =>
        (List.range' x (min ((x + w) % 2 ^ 32) d.fb.width - x)).foldl (fun m col => d.fbSetPixel m col row color) m) m := by
  have hsize := hs.size
  have hwidth := hs.width_le
  unfold fbFillRect
  refine List.foldl_ext _ _ m fun m row hrow => ?_
  unfold fillLine
  refine List.foldl_ext _ _ m fun m col hcol => ?_
  rw [List.mem_range'_1] at hrow hcol
  have hoff := offset_lt (show col < d.stride by omega) (show row < d.fb.height by omega)
  rw [fbSetPixel_eq hs (by omega) (by omega), Nat.mod_eq_of_lt (by omega), Nat.add_assoc, ← Nat.mul_add]

/-- The pixels off the screen can be left out. -/
theorem setPixels_eq :
    d.setPixels m x y w h color =
      (List.range' y (min (y + h) d.fb.height - y)).foldl (fun m row =>
        (List.range' x (min (x + w) d.fb.width - x)).foldl (fun m col => d.fbSetPixel m col row color) m) m := by
  have hrows : ∀ (m : Mem) (row : ℕ), d.fb.height ≤ row →
      (List.range' x w).foldl (fun m col => d.fbSetPixel m col row color) m = m :=
    fun m row hrow => List.foldl_fixed' (fun _ => fbSetPixel_outside (Or.inr hrow)) _
  unfold setPixels
  rw [foldl_range'_clip _ hrows]
  refine List.foldl_ext _ _ m fun m row _ => ?_
  exact foldl_range'_clip _ (fun m col hcol => fbSetPixel_outside (Or.inl hcol)) m x w

/-- A rectangle that reaches `2 ^ 32` is not drawn at all. -/
theorem fbFillRect_of_wrap (hw : w < 2 ^ 32) (hwrap : 2 ^ 32 ≤ x + w) : d.fbFillRect m x y w h color = m := by
  unfold fbFillRect fillLine
  rw [show min ((x + w) % 2 ^ 32) d.fb.width - x = 0 by omega]
  exact List.foldl_fixed' (fun _ => rfl) _

/-- Filling a rectangle colours exactly its pixels on the screen, as `fb_set_pixel` on each of them, if and only
if neither far corner wraps or nothing of the rectangle is on the screen. -/
theorem fb_fill_rect_iff (hs : d.Screen) (hx : x < 2 ^ 32) (hy : y < 2 ^ 32) (hw : w < 2 ^ 32) (hh : h < 2 ^ 32)
    (hc : color < 2 ^ 32) :
    (d.Exactly (d.Rect x y w h) color (fun m => d.fbFillRect m x y w h color) ∧
        ∀ m, d.fbFillRect m x y w h color = d.setPixels m x y w h color) ↔
      x + w < 2 ^ 32 ∧ y + h < 2 ^ 32 ∨ w = 0 ∨ h = 0 ∨ d.fb.width ≤ x ∨ d.fb.height ≤ y := by
  have hdrawn := Exactly.iff (S := d.Rect x y w h) (fun m => fillRect_paints_wrapped (m := m) (x := x) (y := y)
    (w := w) (h := h) hs hc)
  have hwidth := hs.width_le
  rw [hdrawn]
  constructor
  · rintro ⟨hregion, _⟩
    -- the corner of the rectangle
    have hcorner := hregion x y
    unfold Rect at hcorner
    omega
  · intro hcond
    refine ⟨?_, fun m => ?_⟩
    · intro x' y' _
      unfold Rect
      omega
    · rw [fbFillRect_eq hs, setPixels_eq]
      rcases hcond with ⟨hxw, hyh⟩ | hempty
      · rw [Nat.mod_eq_of_lt hxw, Nat.mod_eq_of_lt hyh]
      · by_cases hcols : w = 0 ∨ d.fb.width ≤ x
        · rw [show min ((x + w) % 2 ^ 32) d.fb.width - x = 0 by omega, show min (x + w) d.fb.width - x = 0 by omega]
          exact (List.foldl_fixed' (fun _ => rfl) _).trans (List.foldl_fixed' (fun _ => rfl) _).symm
        · rw [show min ((y + h) % 2 ^ 32) d.fb.height - y = 0 by omega, show min (y + h) d.fb.height - y = 0 by omega]
          rfl

/-- A screen of 1024 × 768 pixels. -/
def screen1024 : Display := ⟨⟨0xFD000000, 4096, 1024, 768⟩, 0xFD000000⟩

theorem screen1024_screen : screen1024.Screen := ⟨by decide, by decide, by decide⟩

theorem fb_fill_rect_inside :
    screen1024.Exactly (screen1024.Rect 1000 8 64 16) COLOR_TEXT (fun m => screen1024.fbFillRect m 1000 8 64 16 COLOR_TEXT) ∧
      ∀ m, screen1024.fbFillRect m 1000 8 64 16 COLOR_TEXT = screen1024.setPixels m 1000 8 64 16 COLOR_TEXT :=
  (fb_fill_rect_iff screen1024_screen (by decide) (by decide) (by decide) (by decide) (by decide)).mpr
    (Or.inl ⟨by decide, by decide⟩)

/-- All columns but the first one: nothing is drawn. -/
theorem fb_fill_rect_vanishes :
    ¬ ∀ (d : Display) (x y w h color : ℕ), d.Screen → x < 2 ^ 32 → y < 2 ^ 32 → w < 2 ^ 32 → h < 2 ^ 32 →
      color < 2 ^ 32 →
      d.Exactly (d.Rect x y w h) color (fun m => d.fbFillRect m x y w h color) ∧
        ∀ m, d.fbFillRect m x y w h color = d.setPixels m x y w h color := by
  intro hall
  have hfilled := (hall screen1024 1 0 (2 ^ 32 - 1) 1 COLOR_TEXT screen1024_screen (by decide) (by decide) (by decide)
    (by decide) (by decide)).1 (fun _ => 0)
  have hpixel : screen1024.pixel (screen1024.fbFillRect (fun _ => 0) 1 0 (2 ^ 32 - 1) 1 COLOR_TEXT) 1 0 = COLOR_TEXT :=
    hfilled.inside 1 0 (by decide) ⟨⟨by decide, by decide, by decide⟩, by decide, by decide, by decide⟩
  rw [fbFillRect_of_wrap (by decide) (by decide)] at hpixel
  exact absurd hpixel (by decide)

/-! ### Outlines -/

/-- **`fb_set_pixel`** anywhere. -/
theorem setPixel_paints_clipped (hs : d.Screen) (hc : color < 2 ^ 32) :
    d.Paints (fun x' y' => (x' = x ∧ x < d.fb.width) ∧ y' = y ∧ y < d.fb.height) (fun _ _ => color) m
      (d.fbSetPixel m x y color) := by
  by_cases hin : x < d.fb.width ∧ y < d.fb.height
  · refine (setPixel_paints (f := fun _ _ => color) hs hin.1 hin.2 hc).congr fun x' y' _ => ?_
    simp only [hin.1, hin.2, and_true]
  · rw [fbSetPixel_outside (by omega)]
    exact Paints.refl (fun x' y' _ => by omega)

theorem Screen.height_lt (hs : d.Screen) (hw : 0 < d.fb.width) : d.fb.height < 2 ^ 30 := by
  have hrow := hs.row
  have hsize := hs.size
  have hle : 4 * d.fb.height ≤ d.fb.pitch * d.fb.height := Nat.mul_le_mul_right _ (by omega)
  omega

/-- **`fb_draw_hline`** -/
theorem drawHline_paints (hs : d.Screen) (hw : x + w < 2 ^ 32) (hy : y < 2 ^ 32) (hc : color < 2 ^ 32) :
    d.Paints (fun x' y' => (x ≤ x' ∧ x' < x + w ∧ x' < d.fb.width) ∧ y' = y ∧ y < d.fb.height) (fun _ _ => color) m
      (d.fbDrawHline m x y w color) := by
  refine (fillRect_paints_wrapped hs hc).congr fun x' y' _ => ?_
  have hheight := hs.height_lt
  omega

/-- **`fb_draw_vline`** -/
theorem drawVline_paints (hs : d.Screen) (hh : y + h < 2 ^ 32) (hc : color < 2 ^ 32) :
    d.Paints (fun x' y' => (x' = x ∧ x < d.fb.width) ∧ y ≤ y' ∧ y' < y + h ∧ y' < d.fb.height) (fun _ _ => color) m
      (d.fbDrawVline m x y h color) := by
  unfold fbDrawVline
  refine (Paints.foldl (S := fun i x' y' => (x' = x ∧ x < d.fb.width) ∧ y' = y + i ∧ y + i < d.fb.height) ?_ m).congr ?_
  · intro m i hi
    rw [List.mem_range] at hi
    rw [Nat.mod_eq_of_lt (by omega)]
    exact setPixel_paints_clipped hs hc
  · intro x' y' _
    simp only [List.mem_range]
    constructor
    · rintro ⟨i, hi, hx, rfl, hy⟩
      exact ⟨hx, by omega, by omega, hy⟩
    · rintro ⟨hx, hy⟩
      exact ⟨y' - y, by omega, hx, by omega⟩

/-- **`fb_draw_rect_outline`**: the four lines. -/
theorem drawRectOutline_paints (hs : d.Screen) (hw : x + w < 2 ^ 32) (hh : y + h < 2 ^ 32) (hc : color < 2 ^ 32) :
    d.Paints (fun x' y' =>
        (x ≤ x' ∧ x' < x + w ∧ x' < d.fb.width) ∧
            (y' = y ∨ y' = (y + h + 2 ^ 32 - 1) % 2 ^ 32) ∧ y' < d.fb.height ∨
          (y ≤ y' ∧ y' < y + h ∧ y' < d.fb.height) ∧
            (x' = x ∨ x' = (x + w + 2 ^ 32 - 1) % 2 ^ 32) ∧ x' < d.fb.width)
      (fun _ _ => color) m (d.fbDrawRectOutline m x y w h color) := by
  have htop := drawHline_paints (m := m) (y := y) hs hw (by omega) hc
  have hbottom := htop.seq (drawHline_paints (y := (y + h + 2 ^ 32 - 1) % 2 ^ 32) hs hw (Nat.mod_lt _ (by omega)) hc)
  have hleft := hbottom.seq (drawVline_paints (x := x) hs hh hc)
  have hright := hleft.seq (drawVline_paints (x := (x + w + 2 ^ 32 - 1) % 2 ^ 32) hs hh hc)
  refine hright.congr fun x' y' _ => ?_
  omega

/-- The outline is exactly the border, and nothing without a width or a height, if and only if the lines beside
a rectangle without a width or a height are off the screen. -/
theorem fb_draw_rect_outline_iff (hs : d.Screen) (hw : x + w < 2 ^ 32) (hh : y + h < 2 ^ 32) (hc : color < 2 ^ 32) :
    (d.Exactly (d.Border x y w h) color (fun m => d.fbDrawRectOutline m x y w h color) ∧
        (w = 0 ∨ h = 0 → ∀ m x' y', x' < d.stride → d.pixel (d.fbDrawRectOutline m x y w h color) x' y' = d.pixel m x' y')) ↔
      (0 < w ∨ h = 0 ∨ d.fb.width = 0 ∨ d.fb.width < x ∨ d.fb.height ≤ y) ∧
        (0 < h ∨ w = 0 ∨ d.fb.height = 0 ∨ d.fb.height < y ∨ d.fb.width ≤ x) := by
  have hlines := Exactly.iff (S := d.Border x y w h) (fun m => drawRectOutline_paints (m := m) hs hw hh hc)
  have hwidth := hs.width_le
  have hheight := hs.height_lt
  constructor
  · rintro ⟨hborder, _⟩
    have hregion := hlines.mp hborder
    -- the corner, and the pixels to the left of it and above it
    have hcorner := hregion x y
    have hbeside := hregion (x - 1) y
    have habove := hregion x (y - 1)
    unfold Border Rect at hcorner hbeside habove
    omega
  · intro hcond
    have hborder : d.Exactly (d.Border x y w h) color (fun m => d.fbDrawRectOutline m x y w h color) := by
      refine hlines.mpr fun x' y' _ => ?_
      unfold Border Rect
      omega
    refine ⟨hborder, fun hempty m x' y' hx' => (hborder m).outside x' y' hx' ?_⟩
    unfold Border Rect
    omega

theorem fb_draw_rect_outline_window :
    screen1024.Exactly (screen1024.Border 1000 8 64 16) COLOR_TEXT
        (fun m => screen1024.fbDrawRectOutline m 1000 8 64 16 COLOR_TEXT) ∧
      ((64 = 0 ∨ 16 = 0) → ∀ m x' y', x' < screen1024.stride →
        screen1024.pixel (screen1024.fbDrawRectOutline m 1000 8 64 16 COLOR_TEXT) x' y' = screen1024.pixel m x' y') :=
  (fb_draw_rect_outline_iff screen1024_screen (by decide) (by decide) (by decide)).mpr
    ⟨Or.inl (by decide), Or.inl (by decide)⟩

/-- A rectangle without a width: two columns are drawn. -/
theorem fb_draw_rect_outline_no_width :
    ¬ ∀ (d : Display) (x y w h color : ℕ), d.Screen → x + w < 2 ^ 32 → y + h < 2 ^ 32 → color < 2 ^ 32 →
      d.Exactly (d.Border x y w h) color (fun m => d.fbDrawRectOutline m x y w h color) ∧
        (w = 0 ∨ h = 0 → ∀ m x' y', x' < d.stride → d.pixel (d.fbDrawRectOutline m x y w h color) x' y' = d.pixel m x' y') := by
  intro hall
  have hkept := (hall screen1024 5 5 0 3 COLOR_TEXT screen1024_screen (by decide) (by decide) (by decide)).2
    (Or.inl rfl) (fun _ => 0) 4 5 (by decide)
  have hdrawn : screen1024.pixel (screen1024.fbDrawRectOutline (fun _ => 0) 5 5 0 3 COLOR_TEXT) 4 5 = COLOR_TEXT :=
    (drawRectOutline_paints screen1024_screen (by decide) (by decide) (by decide)).inside 4 5 (by decide)
      (Or.inr ⟨⟨by decide, by decide, by decide⟩, Or.inr (by decide), by decide⟩)
  rw [hdrawn] at hkept
  exact absurd hkept (by decide)

end Display
end HeroOS
