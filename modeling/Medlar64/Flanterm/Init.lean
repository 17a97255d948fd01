import Medlar64.Flanterm.Context

/-!
# Flanterm: what `flanterm_fb_init` settles

The arguments of `flanterm_fb_init` of `backends/fb.c` as the kernel passes them:
`_malloc`, `_free`, `canvas` and `font` are `NULL` and `margin` is 0.

* `FbArgs.Fits` — the framebuffers with room for a glyph; `FbArgs.Usable` — those
  among them for which there will be a terminal.
* `fbConfig` — the configuration of the terminal, with what must hold of it.
-/

namespace Flanterm

/-- The arguments of `flanterm_fb_init`. -/
structure FbArgs where
  width : ℕ
  height : ℕ
  pitch : ℕ
  redMaskSize : ℕ
  redMaskShift : ℕ
  greenMaskSize : ℕ
  greenMaskShift : ℕ
  blueMaskSize : ℕ
  blueMaskShift : ℕ
  ansiColours : Option (ℕ → BitVec 32)
  ansiBrightColours : Option (ℕ → BitVec 32)
  defaultBg : Option (BitVec 32)
  defaultFg : Option (BitVec 32)
  defaultBgBright : Option (BitVec 32)
  defaultFgBright : Option (BitVec 32)
  fontScaleX : ℕ
  fontScaleY : ℕ

def fontGlyphs : ℕ := 256

/-- The width of a glyph with its spacing. -/
def fontWidth : ℕ := 8 + 1

def fontHeight : ℕ := 16

def widthLimit : ℕ := 1920

def heightLimit : ℕ := 1200

/-- `FLANTERM_FB_BUMP_ALLOC_POOL_SIZE` -/
def poolSize : ℕ := 873000

namespace FbArgs

variable (a : FbArgs)

-- ---------------------------------------------------------------------------
-- The picture
-- ---------------------------------------------------------------------------

/-- The factors of a glyph; 0 stands for a choice by the size of the framebuffer. -/
def scale : ℕ × ℕ :=
  if a.fontScaleX = 0 ∨ a.fontScaleY = 0 then
    if 3840 + 3840 / 3 ≤ a.width ∧ 2160 + 2160 / 3 ≤ a.height then (4, 4)
    else if 1920 + 1920 / 3 ≤ a.width ∧ 1080 + 1080 / 3 ≤ a.height then (2, 2)
    else (1, 1)
  else (a.fontScaleX, a.fontScaleY)

def pictureWidth : ℕ := if widthLimit < a.width then widthLimit else a.width

def pictureHeight : ℕ := if heightLimit < a.height then heightLimit else a.height

/-- Where the picture begins in the framebuffer. -/
def pictureX : ℕ := a.width / 2 - a.pictureWidth / 2

def pictureY : ℕ := a.height / 2 - a.pictureHeight / 2

/-- The same as a number of bytes. -/
def pictureOffset : ℕ :=
  if widthLimit < a.width ∨ heightLimit < a.height then a.pictureY * a.pitch + a.pictureX * 4 else 0

def glyphWidth : ℕ := fontWidth * a.scale.1

def glyphHeight : ℕ := fontHeight * a.scale.2

def cols : ℕ := a.pictureWidth / a.glyphWidth

def rows : ℕ := a.pictureHeight / a.glyphHeight

/-- The framebuffer has its lines side by side in memory, and room for a glyph. -/
structure Fits : Prop where
  pitch : a.width * 4 ≤ a.pitch
  memory : a.pitch * a.height < 2 ^ 64
  width : a.glyphWidth ≤ a.pictureWidth
  height : a.glyphHeight ≤ a.pictureHeight

/-- A pixel of the font is at least one pixel of the screen in each direction,
since scale zero is the one the function replaces. -/
theorem scale_pos : 0 < a.scale.1 ∧ 0 < a.scale.2 := by
  rw [scale]
  split
  case isTrue =>
    split
    · exact ⟨by decide, by decide⟩
    · split
      · exact ⟨by decide, by decide⟩
      · exact ⟨by decide, by decide⟩
  case isFalse hgiven =>
    rw [not_or] at hgiven
    exact ⟨Nat.pos_of_ne_zero hgiven.1, Nat.pos_of_ne_zero hgiven.2⟩

/-- The picture is as wide as the framebuffer, up to the limit. -/
theorem pictureWidth_le : a.pictureWidth ≤ a.width ∧ a.pictureWidth ≤ widthLimit := by
  rw [pictureWidth]
  split <;> omega

/-- And as high, up to its own. -/
theorem pictureHeight_le : a.pictureHeight ≤ a.height ∧ a.pictureHeight ≤ heightLimit := by
  rw [pictureHeight]
  split <;> omega

theorem pictureX_add_le : a.pictureX + a.pictureWidth ≤ a.width := by
  have hle := a.pictureWidth_le
  rw [pictureX]
  omega

/-- A picture lower than the framebuffer is centred, and ends inside it. -/
theorem pictureY_add_le : a.pictureY + a.pictureHeight ≤ a.height := by
  have hle := a.pictureHeight_le
  rw [pictureY]
  omega

/-- The offset of the first pixel. Where the framebuffer is within the limits
both coordinates are zero, so the two branches of the source agree. -/
theorem pictureOffset_eq : a.pictureOffset = a.pictureY * a.pitch + a.pictureX * 4 := by
  rw [pictureOffset]
  split
  case isTrue => rfl
  case isFalse hsmall =>
    rw [not_or] at hsmall
    rw [pictureY, pictureX, pictureHeight, pictureWidth, if_neg hsmall.1, if_neg hsmall.2,
      Nat.sub_self, Nat.sub_self, Nat.zero_mul, Nat.zero_mul]

-- ---------------------------------------------------------------------------
-- The colours
-- ---------------------------------------------------------------------------

/-- The part of a mask above eight bits is shifted away. -/
def maskShift (size shift : ℕ) : ℕ := (shift + (size - 8)) % 2 ^ 8

/-- The masks are of one size, eight bits or more. -/
def MasksOk : Prop :=
  8 ≤ a.redMaskSize ∧ a.redMaskSize = a.greenMaskSize ∧ a.redMaskSize = a.blueMaskSize

instance : Decidable a.MasksOk := inferInstanceAs (Decidable (_ ∧ _))

/-- The shifts of `convert_colour` are within a pixel. -/
structure ShiftsOk : Prop where
  red : maskShift a.redMaskSize a.redMaskShift < 32
  green : maskShift a.greenMaskSize a.greenMaskShift < 32
  blue : maskShift a.blueMaskSize a.blueMaskShift < 32

instance : Decidable a.ShiftsOk :=
  decidable_of_iff (maskShift a.redMaskSize a.redMaskShift < 32 ∧
      maskShift a.greenMaskSize a.greenMaskShift < 32 ∧
      maskShift a.blueMaskSize a.blueMaskShift < 32)
    ⟨fun h => ⟨h.1, h.2.1, h.2.2⟩, fun h => ⟨h.red, h.green, h.blue⟩⟩

variable {a} in
/-- `convert_colour` with the masks of the framebuffer. -/
def ShiftsOk.colour (h : a.ShiftsOk) (c : BitVec 32) : BitVec 32 :=
  mixColour ⟨_, h.red⟩ ⟨_, h.green⟩ ⟨_, h.blue⟩ c

/-- `flanterm_fb_init` accepts the masks, and the kernel does not halt in it: at a
shift, at the first pixel of the picture or at a table that is not aligned. -/
structure Usable : Prop extends a.Fits where
  masks : a.MasksOk
  shifts : a.ShiftsOk
  picture_aligned : a.pictureOffset % 4 = 0
  cells_even : a.rows * a.cols % 2 = 0

def defaultAnsi (i : ℕ) : BitVec 32 :=
  [0x00000000, 0x00aa0000, 0x0000aa00, 0x00aa5500, 0x000000aa, 0x00aa00aa, 0x0000aaaa,
    0x00aaaaaa].getD i 0

def defaultAnsiBright (i : ℕ) : BitVec 32 :=
  [0x00555555, 0x00ff5555, 0x0055ff55, 0x00ffff55, 0x005555ff, 0x00ff55ff, 0x0055ffff,
    0x00ffffff].getD i 0

end FbArgs

-- ---------------------------------------------------------------------------
-- The font
-- ---------------------------------------------------------------------------

/-- The index of a dot of a glyph. -/
def dotIndex (i y x : ℕ) : ℕ := i * fontHeight * fontWidth + y * fontWidth + x

/-- The loops that turn the bytes of a font into dots; the characters 0xC0 to 0xDF
go on in the ninth column. -/
def fontWrites (font : ℕ → BitVec 8) : List (ℕ × Bool) :=
  (upTo 0 fontGlyphs).flatMap fun i => (upTo 0 fontHeight).flatMap fun y =>
    ((upTo 0 8).map fun x => (dotIndex i y x, font (i * fontHeight + y) &&& (0x80 >>> x) != 0)) ++
      (upTo 8 fontWidth).map fun x => (dotIndex i y x,
        if 0xc0 ≤ i ∧ i ≤ 0xdf then font (i * fontHeight + y) &&& 1 != 0 else false)

def fontBool (font : ℕ → BitVec 8) : ℕ → Bool := writeAll (fun _ => false) (fontWrites font)

-- ---------------------------------------------------------------------------
-- The configuration
-- ---------------------------------------------------------------------------

/-- The word of every pixel of the picture lies in the framebuffer, counted
from the first pixel on: the last line of the framebuffer may end before its
`pitch` does, but the picture ends with it at the latest. -/
theorem FbArgs.Fits.inside {a : FbArgs} (h : a.Fits) {x y : ℕ} (hx : x < a.pictureWidth)
    (hy : y < a.pictureHeight) :
    y * (a.pitch / 4) + x < (a.pitch * a.height - a.pictureOffset) / 4 := by
  have hright := a.pictureX_add_le
  have hbottom := a.pictureY_add_le
  have hpitch := h.pitch
  have hlines : (a.pictureY + y + 1) * a.pitch ≤ a.height * a.pitch :=
    Nat.mul_le_mul_right _ (by omega)
  have hwords : y * (a.pitch / 4) * 4 ≤ y * a.pitch := by
    rw [Nat.mul_assoc]
    exact Nat.mul_le_mul_left _ (Nat.div_mul_le_self _ _)
  rw [Nat.add_mul, Nat.add_mul, Nat.one_mul] at hlines
  rw [a.pictureOffset_eq, Nat.mul_comm a.pitch, Nat.lt_iff_add_one_le,
    Nat.le_div_iff_mul_le (by decide)]
  omega

/-- What `flanterm_fb_init` settles. -/
def fbConfig (a : FbArgs) (font : ℕ → BitVec 8) (h : a.Usable) : FbConfig where
  cols := a.cols
  rows := a.rows
  fontWidth := fontWidth
  fontHeight := fontHeight
  fontScaleX := a.scale.1
  fontScaleY := a.scale.2
  glyphWidth := a.glyphWidth
  glyphHeight := a.glyphHeight
  offsetX := a.pictureWidth % a.glyphWidth / 2
  offsetY := a.pictureHeight % a.glyphHeight / 2
  pitch := a.pitch
  width := a.pictureWidth
  height := a.pictureHeight
  words := (a.pitch * a.height - a.pictureOffset) / 4
  fontBool := fontBool font
  redMaskShift := ⟨_, h.shifts.red⟩
  greenMaskShift := ⟨_, h.shifts.green⟩
  blueMaskShift := ⟨_, h.shifts.blue⟩
  ansiColours := fun i => h.shifts.colour ((a.ansiColours.getD FbArgs.defaultAnsi) i)
  ansiBrightColours := fun i =>
    h.shifts.colour ((a.ansiBrightColours.getD FbArgs.defaultAnsiBright) i)
  defaultFg := h.shifts.colour (a.defaultFg.getD 0x00aaaaaa)
  defaultBg := (a.defaultBg.map h.shifts.colour).getD 0x00000000
  defaultFgBright := h.shifts.colour (a.defaultFgBright.getD 0x00ffffff)
  defaultBgBright := h.shifts.colour (a.defaultBgBright.getD 0x00555555)
  cols_pos := Nat.div_pos h.width (Nat.mul_pos (by decide) a.scale_pos.1)
  rows_pos := Nat.div_pos h.height (Nat.mul_pos (by decide) a.scale_pos.2)
  -- the limits keep the numbers of columns and rows far below overflow
  cols_lt := by
    have hle := Nat.div_le_self a.pictureWidth a.glyphWidth
    have hlimit := a.pictureWidth_le.2
    rw [FbArgs.cols]
    rw [widthLimit] at hlimit
    omega
  rows_lt := by
    have hle := Nat.div_le_self a.pictureHeight a.glyphHeight
    have hlimit := a.pictureHeight_le.2
    rw [FbArgs.rows]
    rw [heightLimit] at hlimit
    omega
  cells_even := h.cells_even
  fontHeight_le := by decide
  scale_pos := a.scale_pos.2
  glyphWidth_eq := rfl
  glyphHeight_eq := rfl
  -- the cells with the margin in front of them are within the picture
  width_fits := by
    have hdiv := Nat.div_add_mod a.pictureWidth a.glyphWidth
    rw [FbArgs.cols, Nat.mul_comm (a.pictureWidth / a.glyphWidth)]
    omega
  height_fits := by
    have hdiv := Nat.div_add_mod a.pictureHeight a.glyphHeight
    rw [FbArgs.rows, Nat.mul_comm (a.pictureHeight / a.glyphHeight)]
    omega
  width_le := by
    have hle := a.pictureWidth_le.1
    have hpitch := h.pitch
    omega
  inside := fun _ hx _ hy => h.toFits.inside hx hy

/-- A framebuffer of 1024 × 768 pixels. -/
def xga : FbArgs where
  width := 1024
  height := 768
  pitch := 4096
  redMaskSize := 8
  redMaskShift := 16
  greenMaskSize := 8
  greenMaskShift := 8
  blueMaskSize := 8
  blueMaskShift := 0
  ansiColours := none
  ansiBrightColours := none
  defaultBg := none
  defaultFg := some 0xffffff
  defaultBgBright := none
  defaultFgBright := none
  fontScaleX := 0
  fontScaleY := 0

/-- The framebuffer of 1024 × 768 pixels that most boot loaders offer. -/
theorem xga_usable : xga.Usable where
  pitch := by decide
  memory := by decide
  width := by decide
  height := by decide
  masks := by decide
  shifts := by decide
  picture_aligned := by decide
  cells_even := by decide

/-- Its terminal, with a font of empty glyphs. -/
def xgaConfig : FbConfig := fbConfig xga (fun _ => 0) xga_usable

end Flanterm
