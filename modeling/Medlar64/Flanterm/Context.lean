import Mathlib.Algebra.Group.Nat.Defs
import Medlar64.Flanterm.Charset
import Medlar64.Lib.ArrayProg

/-!
# Flanterm: the terminal and its screen

The data of `flanterm.h` and `backends/fb.h`, and the functions of
`backends/fb.c` that the terminal calls.

* `FbConfig` — what `flanterm_fb_init` settles: the text grid, the glyphs, the
  colours and where the grid lies in the framebuffer.
* `Context` — what the terminal changes, apart from the characters on the screen.
* `Screen` — a computation on the characters. The callback and the canvas are
  `NULL` in this kernel.
-/

namespace Flanterm

/-- `struct flanterm_fb_char`. Only bytes are ever put on the screen. -/
structure FbChar where
  c : BitVec 8
  fg : BitVec 32
  bg : BitVec 32
  deriving DecidableEq, Repr

/-- The part of `struct flanterm_fb_context` that never changes, with what makes
`flanterm_fb_init` come back with a terminal. A shift of a mask is less than the
width of a pixel, and the number of cells is even: the queue and the table lie
behind the grid in the pool, and behind an odd number of cells of 12 bytes they
would not be aligned to the pointers in them. -/
structure FbConfig where
  cols : ℕ
  rows : ℕ
  fontWidth : ℕ
  fontHeight : ℕ
  fontScaleX : ℕ
  fontScaleY : ℕ
  glyphWidth : ℕ
  glyphHeight : ℕ
  offsetX : ℕ
  offsetY : ℕ
  pitch : ℕ
  width : ℕ
  height : ℕ
  /-- The pixels of the framebuffer in memory. -/
  words : ℕ
  fontBool : ℕ → Bool
  redMaskShift : Fin 32
  greenMaskShift : Fin 32
  blueMaskShift : Fin 32
  ansiColours : ℕ → BitVec 32
  ansiBrightColours : ℕ → BitVec 32
  defaultFg : BitVec 32
  defaultBg : BitVec 32
  defaultFgBright : BitVec 32
  defaultBgBright : BitVec 32
  cols_pos : 0 < cols
  rows_pos : 0 < rows
  cols_lt : cols < 2 ^ 31
  rows_lt : rows < 2 ^ 31
  cells_even : rows * cols % 2 = 0
  fontHeight_le : fontHeight ≤ 256
  scale_pos : 0 < fontScaleY
  glyphWidth_eq : glyphWidth = fontWidth * fontScaleX
  glyphHeight_eq : glyphHeight = fontHeight * fontScaleY
  width_fits : offsetX + cols * glyphWidth ≤ width
  height_fits : offsetY + rows * glyphHeight ≤ height
  width_le : width ≤ pitch / 4
  inside : ∀ x < width, ∀ y < height, y * (pitch / 4) + x < words

/-- The number of cells. -/
def FbConfig.cells (g : FbConfig) : ℕ := g.rows * g.cols

/-- A cell of the grid, in the order of the rows, lies in it. -/
theorem index_lt {rows cols x y : ℕ} (hx : x < cols) (hy : y < rows) :
    y * cols + x < rows * cols := by
  calc y * cols + x < y * cols + cols := Nat.add_lt_add_left hx _
    _ = (y + 1) * cols := (Nat.succ_mul y cols).symm
    _ ≤ rows * cols := Nat.mul_le_mul_right cols hy

/-- The column of a cell from its index, -/
theorem index_mod {cols x : ℕ} (y : ℕ) (hx : x < cols) : (y * cols + x) % cols = x := by
  rw [Nat.mul_comm, Nat.mul_add_mod, Nat.mod_eq_of_lt hx]

/-- and its row. -/
theorem index_div {cols x : ℕ} (y : ℕ) (hx : x < cols) : (y * cols + x) / cols = y := by
  rw [Nat.mul_comm, Nat.mul_add_div (by omega), Nat.div_eq_of_lt hx, Nat.add_zero]

/-- An index below the number of cells is that of a cell. -/
theorem FbConfig.cell_of_lt (g : FbConfig) {i : ℕ} (h : i < g.cells) :
    i % g.cols < g.cols ∧ i / g.cols < g.rows ∧ i / g.cols * g.cols + i % g.cols = i := by
  refine ⟨Nat.mod_lt _ g.cols_pos, Nat.div_lt_of_lt_mul (by rwa [Nat.mul_comm]), ?_⟩
  rw [Nat.mul_comm]
  exact Nat.div_add_mod _ _

/-- Different cells have different indices. -/
theorem index_inj {cols x y x' y' : ℕ} (hx : x < cols) (hx' : x' < cols)
    (h : y * cols + x = y' * cols + x') : y = y' ∧ x = x' := by
  have hdiv := index_div y hx
  have hmod := index_mod y hx
  rw [h] at hdiv hmod
  exact ⟨hdiv.symm.trans (index_div y' hx'), hmod.symm.trans (index_mod y' hx')⟩

/-- The fields of `struct flanterm_context` and `struct flanterm_fb_context`
that change. `none` stands for the colour number `(size_t)-1`. -/
structure Context where
  tabSize : ℕ
  autoflush : Bool
  cursorEnabled : Bool
  scrollEnabled : Bool
  controlSequence : Bool
  escape : Bool
  osc : Bool
  oscEscape : Bool
  rrr : Bool
  discardNext : Bool
  bold : Bool
  bgBold : Bool
  reverseVideo : Bool
  decPrivate : Bool
  insertMode : Bool
  codePoint : BitVec 64
  unicodeRemaining : ℕ
  gSelect : ℕ
  charsets : ℕ → ℕ
  currentCharset : ℕ
  escapeOffset : ℕ
  escValuesI : ℕ
  savedCursorX : ℕ
  savedCursorY : ℕ
  currentPrimary : Option ℕ
  currentBg : Option ℕ
  scrollTopMargin : ℕ
  scrollBottomMargin : ℕ
  escValues : ℕ → BitVec 32
  oobOutput : BitVec 64
  savedStateBold : Bool
  savedStateBgBold : Bool
  savedStateReverseVideo : Bool
  savedStateCurrentCharset : ℕ
  savedStateCurrentPrimary : Option ℕ
  savedStateCurrentBg : Option ℕ
  textFg : BitVec 32
  textBg : BitVec 32
  cursorX : ℕ
  cursorY : ℕ
  savedStateTextFg : BitVec 32
  savedStateTextBg : BitVec 32
  savedStateCursorX : ℕ
  savedStateCursorY : ℕ

/-- A computation on the characters of the screen. -/
abbrev Screen := ArrayProg FbChar

/-- The difference of two `size_t` values. -/
def sub64 (a b : ℕ) : ℕ := (a + 2 ^ 64 - b) % 2 ^ 64

open ArrayProg

variable (g : FbConfig)

-- ---------------------------------------------------------------------------
-- The cursor
-- ---------------------------------------------------------------------------

/-- The cursor is somewhere else. -/
def Context.at (ctx : Context) (x y : ℕ) : Context := { ctx with cursorX := x, cursorY := y }

/-- One coordinate of `flanterm_fb_set_cursor_pos`: beyond the limit, a value
that is negative as an `int` is taken as 0. -/
def clampPos (x limit : ℕ) : ℕ :=
  if limit ≤ x then (if x.testBit 31 then 0 else limit - 1) else x

def setCursorPos (x y : ℕ) (ctx : Context) : Context :=
  ctx.at (clampPos x g.cols) (clampPos y g.rows)

/-- The two results of `flanterm_fb_get_cursor_pos`. -/
def cursorPosX (ctx : Context) : ℕ := if g.cols ≤ ctx.cursorX then g.cols - 1 else ctx.cursorX

def cursorPosY (ctx : Context) : ℕ := if g.rows ≤ ctx.cursorY then g.rows - 1 else ctx.cursorY

/-- Another top margin. -/
def Context.withTop (ctx : Context) (top : ℕ) : Context := { ctx with scrollTopMargin := top }

-- ---------------------------------------------------------------------------
-- The colours
-- ---------------------------------------------------------------------------

/-- The three parts of a colour at their places in a pixel; a shift by the width of
a pixel or more would halt the kernel. -/
def mixColour (redShift greenShift blueShift : Fin 32) (colour : BitVec 32) : BitVec 32 :=
  let red := colour >>> 16 &&& 0xff
  let green := colour >>> 8 &&& 0xff
  let blue := colour &&& 0xff
  (red <<< redShift.val) ||| (green <<< greenShift.val) ||| (blue <<< blueShift.val)

def convertColour (colour : BitVec 32) : BitVec 32 :=
  mixColour g.redMaskShift g.greenMaskShift g.blueMaskShift colour

def swapPalette (ctx : Context) : Context := { ctx with textBg := ctx.textFg, textFg := ctx.textBg }

/-- A colour of one of the tables of eight. -/
def paletteColour (palette : ℕ → BitVec 32) (n : ℕ) : Screen (BitVec 32) := do
  check (n < 8)
  pure (palette n)

def setTextFg (n : ℕ) (ctx : Context) : Screen Context := do
  let colour ← paletteColour g.ansiColours n
  pure { ctx with textFg := colour }

def setTextBg (n : ℕ) (ctx : Context) : Screen Context := do
  let colour ← paletteColour g.ansiColours n
  pure { ctx with textBg := colour }

def setTextFgBright (n : ℕ) (ctx : Context) : Screen Context := do
  let colour ← paletteColour g.ansiBrightColours n
  pure { ctx with textFg := colour }

def setTextBgBright (n : ℕ) (ctx : Context) : Screen Context := do
  let colour ← paletteColour g.ansiBrightColours n
  pure { ctx with textBg := colour }

def setTextFgRgb (rgb : BitVec 32) (ctx : Context) : Context :=
  { ctx with textFg := convertColour g rgb }

def setTextBgRgb (rgb : BitVec 32) (ctx : Context) : Context :=
  { ctx with textBg := convertColour g rgb }

def setTextFgDefault (ctx : Context) : Context := { ctx with textFg := g.defaultFg }

def setTextBgDefault (ctx : Context) : Context := { ctx with textBg := 0xffffffff }

def setTextFgDefaultBright (ctx : Context) : Context := { ctx with textFg := g.defaultFgBright }

def setTextBgDefaultBright (ctx : Context) : Context := { ctx with textBg := g.defaultBgBright }

/-- `flanterm_fb_save_state` -/
def fbSaveState (ctx : Context) : Context :=
  { ctx with
    savedStateTextFg := ctx.textFg
    savedStateTextBg := ctx.textBg
    savedStateCursorX := ctx.cursorX
    savedStateCursorY := ctx.cursorY }

/-- `flanterm_fb_restore_state` -/
def fbRestoreState (ctx : Context) : Context :=
  { ctx with
    textFg := ctx.savedStateTextFg
    textBg := ctx.savedStateTextBg
    cursorX := ctx.savedStateCursorX
    cursorY := ctx.savedStateCursorY }

-- ---------------------------------------------------------------------------
-- The characters
-- ---------------------------------------------------------------------------

/-- A blank in the colours of the text. -/
def empty (ctx : Context) : FbChar := ⟨byte ' ', ctx.textFg, ctx.textBg⟩

def pushToQueue (c : FbChar) (x y : ℕ) : Screen Unit :=
  if g.cols ≤ x ∨ g.rows ≤ y then pure () else write (y * g.cols + x) c

def revscroll (ctx : Context) : Screen Unit := do
  (downFrom ((ctx.scrollBottomMargin - 1) * g.cols) (ctx.scrollTopMargin * g.cols)).forM fun i => do
    let c ← read i
    pushToQueue g c ((i + g.cols) % g.cols) ((i + g.cols) / g.cols)
  (upTo 0 g.cols).forM fun i => pushToQueue g (empty ctx) i ctx.scrollTopMargin

def scroll (ctx : Context) : Screen Unit := do
  (upTo ((ctx.scrollTopMargin + 1) * g.cols) (ctx.scrollBottomMargin * g.cols)).forM fun i => do
    let c ← read i
    pushToQueue g c ((i - g.cols) % g.cols) ((i - g.cols) / g.cols)
  (upTo 0 g.cols).forM fun i => pushToQueue g (empty ctx) i (ctx.scrollBottomMargin - 1)

def clear (move : Bool) (ctx : Context) : Screen Context := do
  (upTo 0 (g.rows * g.cols)).forM fun i => pushToQueue g (empty ctx) (i % g.cols) (i / g.cols)
  pure (if move then ctx.at 0 0 else ctx)

def moveCharacter (newX newY oldX oldY : ℕ) : Screen Unit :=
  if g.cols ≤ oldX ∨ g.rows ≤ oldY ∨ g.cols ≤ newX ∨ g.rows ≤ newY then pure ()
  else do
    let c ← read (oldX + oldY * g.cols)
    pushToQueue g c newX newY

/-- On the line behind the bottom margin the screen scrolls. -/
def scrollAtMargin (ctx : Context) : Screen Context :=
  if ctx.cursorY = ctx.scrollBottomMargin then do
    let ctx := ctx.at ctx.cursorX (ctx.cursorY - 1)
    scroll g ctx
    pure ctx
  else pure ctx

/-- The first half of `flanterm_fb_raw_putchar`: the cursor behind the last
column goes to the next line. -/
def wrapCursor (ctx : Context) : Screen Context :=
  if g.cols ≤ ctx.cursorX ∧
      (ctx.cursorY < ctx.scrollBottomMargin - 1 ∨ ctx.scrollEnabled = true) then do
    let ctx ← scrollAtMargin g (ctx.at 0 (ctx.cursorY + 1))
    pure (if g.cols ≤ ctx.cursorY then ctx.at ctx.cursorX (g.cols - 1) else ctx)
  else pure ctx

def rawPutchar (c : BitVec 8) (ctx : Context) : Screen Context := do
  let ctx ← wrapCursor g ctx
  pushToQueue g ⟨c, ctx.textFg, ctx.textBg⟩ ctx.cursorX ctx.cursorY
  pure (ctx.at (ctx.cursorX + 1) ctx.cursorY)

end Flanterm
