import Medlar64.Flanterm.Framebuffer

/-!
# Flanterm: the pixels of a character

`plot_char` paints the glyph of one cell pixel by pixel, each at an index it
computes from the pitch. Its three loops amount to a list of writes, and the
cells of the screen are disjoint sets of pixels.

* `InCell` — the pixels of a cell; no pixel belongs to two cells.
* `Shown` — a cell shows a character.
* `plotChar_shown` — a character is plotted inside the framebuffer, in its cell
  and nowhere else.
-/

namespace Flanterm

variable (g : FbConfig)

/-- The pixel at `gx`, `gy` of the cell in column `x` and line `y`. -/
def pixel (x y gx gy : ℕ) : ℕ :=
  g.offsetX + x * g.glyphWidth + (g.offsetY + y * g.glyphHeight + gy) * (g.pitch / 4) + gx

/-- The colour of a pixel of a character. -/
def pixelColour (c : FbChar) (gx gy : ℕ) : BitVec 32 :=
  if g.fontBool (fontIndex g c.c (gx / g.fontScaleX) (gy / g.fontScaleY)) then inkColour g c.fg
  else inkColour g c.bg

def InCell (x y p : ℕ) : Prop := ∃ gx < g.glyphWidth, ∃ gy < g.glyphHeight, p = pixel g x y gx gy

/-- The cell shows the character. -/
def Shown (fb : ℕ → BitVec 32) (c : FbChar) (x y : ℕ) : Prop :=
  ∀ gx < g.glyphWidth, ∀ gy < g.glyphHeight, fb (pixel g x y gx gy) = pixelColour g c gx gy

variable {g} {x y x' y' gx gy gx' gy' p : ℕ}

-- ---------------------------------------------------------------------------
-- The pixels of a cell
-- ---------------------------------------------------------------------------

/-- The glyph columns of all cells of a line fit beside each other. -/
theorem column_lt (hx : x < g.cols) (hgx : gx < g.glyphWidth) :
    g.offsetX + x * g.glyphWidth + gx < g.width := by
  have hstep : (x + 1) * g.glyphWidth ≤ g.cols * g.glyphWidth := Nat.mul_le_mul_right _ hx
  have hfits := g.width_fits
  rw [Nat.succ_mul] at hstep
  omega

/-- And the glyph lines of all rows below each other. -/
theorem line_lt (hy : y < g.rows) (hgy : gy < g.glyphHeight) :
    g.offsetY + y * g.glyphHeight + gy < g.height := by
  have hstep : (y + 1) * g.glyphHeight ≤ g.rows * g.glyphHeight := Nat.mul_le_mul_right _ hy
  have hfits := g.height_fits
  rw [Nat.succ_mul] at hstep
  omega

/-- The index of a pixel is its line times the words of a line, and its
column. -/
theorem pixel_eq (x y gx gy : ℕ) : pixel g x y gx gy =
    (g.offsetY + y * g.glyphHeight + gy) * (g.pitch / 4) + (g.offsetX + x * g.glyphWidth + gx) := by
  rw [pixel]
  omega

/-- So it lies in the framebuffer. -/
theorem pixel_lt (hx : x < g.cols) (hy : y < g.rows) (hgx : gx < g.glyphWidth)
    (hgy : gy < g.glyphHeight) : pixel g x y gx gy < g.words := by
  rw [pixel_eq]
  exact g.inside _ (column_lt hx hgx) _ (line_lt hy hgy)

/-- Different places on the screen are different pixels. -/
theorem pixel_inj (hx : x < g.cols) (hx' : x' < g.cols) (hgx : gx < g.glyphWidth)
    (hgx' : gx' < g.glyphWidth) (hgy : gy < g.glyphHeight) (hgy' : gy' < g.glyphHeight)
    (h : pixel g x y gx gy = pixel g x' y' gx' gy') : x = x' ∧ y = y' ∧ gx = gx' ∧ gy = gy' := by
  have hpitch := g.width_le
  have hcol := column_lt hx hgx
  have hcol' := column_lt hx' hgx'
  rw [pixel_eq, pixel_eq] at h
  obtain ⟨hline, hcolumn⟩ := index_inj (by omega) (by omega) h
  have hxs : x * g.glyphWidth + gx = x' * g.glyphWidth + gx' := by omega
  have hys : y * g.glyphHeight + gy = y' * g.glyphHeight + gy' := by omega
  obtain ⟨rfl, rfl⟩ := index_inj hgx hgx' hxs
  obtain ⟨rfl, rfl⟩ := index_inj hgy hgy' hys
  exact ⟨rfl, rfl, rfl, rfl⟩

/-- A pixel belongs to one cell of the screen at most. -/
theorem InCell.unique (hx : x < g.cols) (hx' : x' < g.cols) (h : InCell g x y p)
    (h' : InCell g x' y' p) : x = x' ∧ y = y' := by
  obtain ⟨gx, hgx, gy, hgy, rfl⟩ := h
  obtain ⟨gx', hgx', gy', hgy', heq⟩ := h'
  obtain ⟨hxx, hyy, -⟩ := pixel_inj hx hx' hgx hgx' hgy hgy' heq
  exact ⟨hxx, hyy⟩

/-- What a cell shows depends on its pixels only. -/
theorem Shown.frame {fb fb' : ℕ → BitVec 32} {c : FbChar} (h : Shown g fb c x y)
    (hsame : ∀ p, InCell g x y p → fb' p = fb p) : Shown g fb' c x y := by
  intro gx hgx gy hgy
  rw [hsame _ ⟨gx, hgx, gy, hgy, rfl⟩]
  exact h gx hgx gy hgy

-- ---------------------------------------------------------------------------
-- Plotting
-- ---------------------------------------------------------------------------

/-- The writes for one line of a glyph. -/
def lineWrites (g : FbConfig) (c : FbChar) (x y gy : ℕ) : List (ℕ × BitVec 32) :=
  (upTo 0 g.fontWidth).flatMap fun fx => (upTo 0 g.fontScaleX).flatMap fun i =>
    [(pixel g x y (g.fontScaleX * fx + i) gy, pixelColour g c (g.fontScaleX * fx + i) gy)]

/-- A column of the font, scaled, is one of the glyph. -/
theorem glyph_column_lt {fx i : ℕ} (hfx : fx < g.fontWidth) (hi : i < g.fontScaleX) :
    g.fontScaleX * fx + i < g.glyphWidth := by
  have hstep : g.fontScaleX * (fx + 1) ≤ g.fontScaleX * g.fontWidth := Nat.mul_le_mul_left _ hfx
  rw [g.glyphWidth_eq, Nat.mul_comm g.fontWidth]
  rw [Nat.mul_succ] at hstep
  omega

theorem glyph_line_lt (hgy : gy < g.glyphHeight) : gy / g.fontScaleY < g.fontHeight := by
  rw [g.glyphHeight_eq] at hgy
  exact Nat.div_lt_of_lt_mul (by rwa [Nat.mul_comm])

/-- The dot of any character is one of the array that `flanterm_fb_init` fills,
which has room for 256 glyphs. -/
theorem fontIndex_lt (c : BitVec 8) {fx fy : ℕ} (hfx : fx < g.fontWidth) (hfy : fy < g.fontHeight) :
    fontIndex g c fx fy < 256 * g.fontHeight * g.fontWidth := by
  have hdot : fy * g.fontWidth + fx < g.fontHeight * g.fontWidth := index_lt hfx hfy
  have hglyph := index_lt hdot c.isLt
  rw [fontIndex, Nat.mul_assoc, Nat.mul_assoc]
  exact hglyph

/-- One line of the glyph: neither the font nor the framebuffer is left, so the
two inner loops amount to their writes. The line number is a byte in the
source; the fonts are low enough for that. -/
theorem plotLine_eq (c : FbChar) (hx : x < g.cols) (hy : y < g.rows) (hgy : gy < g.glyphHeight)
    (fb : ℕ → BitVec 32) :
    plotLine g c (g.offsetX + x * g.glyphWidth) (g.offsetY + y * g.glyphHeight) gy fb =
      some (writeAll fb (lineWrites g c x y gy)) := by
  have hfy := glyph_line_lt hgy
  have hbyte : gy / g.fontScaleY % 256 = gy / g.fontScaleY :=
    Nat.mod_eq_of_lt (lt_of_lt_of_le hfy g.fontHeight_le)
  refine foldlM_writes ?_ fb
  intro fx hfx fb
  have hfx' := (mem_upTo.mp hfx).2
  simp only [hbyte, if_pos (fontIndex_lt c.c hfx' hfy)]
  refine foldlM_writes ?_ fb
  intro i hi fb
  have hi' := (mem_upTo.mp hi).2
  have hgx := glyph_column_lt hfx' hi'
  have hcolumn : (g.fontScaleX * fx + i) / g.fontScaleX = fx := by
    rw [Nat.mul_add_div (by omega), Nat.div_eq_of_lt hi', Nat.add_zero]
  have hlt : g.offsetX + x * g.glyphWidth + (g.offsetY + y * g.glyphHeight + gy) * (g.pitch / 4) +
      (g.fontScaleX * fx + i) < g.words := pixel_lt hx hy hgx hgy
  rw [storePixel, if_pos hlt, pixelColour, hcolumn]
  rfl

/-- The writes for a character. -/
def charWrites (g : FbConfig) (c : FbChar) (x y : ℕ) : List (ℕ × BitVec 32) :=
  (upTo 0 g.glyphHeight).flatMap (lineWrites g c x y)

theorem plotChar_eq (c : FbChar) (hx : x < g.cols) (hy : y < g.rows) (fb : ℕ → BitVec 32) :
    plotChar g c x y fb = some (writeAll fb (charWrites g c x y)) := by
  rw [plotChar, if_neg (by omega)]
  exact foldlM_writes (fun gy hgy fb => plotLine_eq c hx hy (mem_upTo.mp hgy).2 fb) fb

/-- What is written are the pixels of the cell, each with the colour it should
have. -/
theorem mem_charWrites {c : FbChar} {w : ℕ × BitVec 32} : w ∈ charWrites g c x y ↔
    ∃ gx < g.glyphWidth, ∃ gy < g.glyphHeight, w = (pixel g x y gx gy, pixelColour g c gx gy) := by
  simp only [charWrites, lineWrites, List.mem_flatMap, mem_upTo, List.mem_singleton, Nat.zero_le,
    true_and]
  constructor
  · rintro ⟨gy, hgy, fx, hfx, i, hi, rfl⟩
    exact ⟨_, glyph_column_lt hfx hi, gy, hgy, rfl⟩
  · rintro ⟨gx, hgx, gy, hgy, rfl⟩
    rw [g.glyphWidth_eq] at hgx
    have hscale : 0 < g.fontScaleX := Nat.pos_of_ne_zero fun h0 => by simp [h0] at hgx
    refine ⟨gy, hgy, gx / g.fontScaleX, ?_, gx % g.fontScaleX, Nat.mod_lt _ hscale, ?_⟩
    · exact Nat.div_lt_of_lt_mul (by rwa [Nat.mul_comm])
    · rw [Nat.div_add_mod]

/-- **Plotting.** A character is plotted without leaving the framebuffer or the
font; its cell shows it and no other pixel changes. -/
theorem plotChar_shown (c : FbChar) (hx : x < g.cols) (hy : y < g.rows) (fb : ℕ → BitVec 32) :
    ∃ fb', plotChar g c x y fb = some fb' ∧ Shown g fb' c x y ∧
      ∀ p, ¬InCell g x y p → fb' p = fb p := by
  refine ⟨_, plotChar_eq c hx hy fb, ?_, ?_⟩
  · intro gx hgx gy hgy
    refine writeAll_of_mem (mem_charWrites.mpr ⟨gx, hgx, gy, hgy, rfl⟩) ?_ fb
    intro w hw heq
    obtain ⟨gx', hgx', gy', hgy', rfl⟩ := mem_charWrites.mp hw
    obtain ⟨-, -, rfl, rfl⟩ := pixel_inj hx hx hgx' hgx hgy' hgy heq
    rfl
  · intro p hp
    refine writeAll_of_notMem (fun w hw heq => hp ?_) fb
    obtain ⟨gx, hgx, gy, hgy, rfl⟩ := mem_charWrites.mp hw
    exact ⟨gx, hgx, gy, hgy, heq.symm⟩

end Flanterm
