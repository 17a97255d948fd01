import Medlar64.Flanterm.Terminal
import Medlar64.Lib.Rounds

/-!
# Flanterm: the framebuffer

`plot_char`, `draw_cursor`, `flanterm_fb_double_buffer_flush` and
`flanterm_fb_full_refresh` of `backends/fb.c`, and `flanterm_write`. Every
access to an array is checked: `none` where it would leave the array.

* `Fb` — the grid with the queue of changes, the pixels and the place of the
  cursor that was drawn last. An entry of the queue keeps its cell as the index
  `y * cols + x`.
* `Machine` — the terminal with its screen; `flantermWrite` is its step.
-/

namespace Flanterm

/-- The rest of `struct flanterm_fb_context`. -/
structure Fb where
  buffer : WriteBuffer FbChar
  framebuffer : ℕ → BitVec 32
  oldCursorX : ℕ
  oldCursorY : ℕ

variable (g : FbConfig)

-- ---------------------------------------------------------------------------
-- Characters
-- ---------------------------------------------------------------------------

def storePixel (i : ℕ) (colour : BitVec 32) (fb : ℕ → BitVec 32) : Option (ℕ → BitVec 32) :=
  if i < g.words then some (Function.update fb i colour) else none

/-- 0xffffffff stands for the default background. -/
def inkColour (colour : BitVec 32) : BitVec 32 :=
  if colour = 0xffffffff then g.defaultBg else colour

/-- The index in `font_bool` of a dot of a glyph. -/
def fontIndex (c : BitVec 8) (fx fy : ℕ) : ℕ :=
  c.toNat * g.fontHeight * g.fontWidth + (fy * g.fontWidth + fx)

/-- A line of the glyph, `px` and `py` being the corner of the cell. -/
def plotLine (c : FbChar) (px py gy : ℕ) (fb : ℕ → BitVec 32) : Option (ℕ → BitVec 32) :=
  (upTo 0 g.fontWidth).foldlM (fun fb fx =>
    let dot := fontIndex g c.c fx (gy / g.fontScaleY % 256)
    if dot < 256 * g.fontHeight * g.fontWidth then
      (upTo 0 g.fontScaleX).foldlM (fun fb i =>
        storePixel g (px + (py + gy) * (g.pitch / 4) + (g.fontScaleX * fx + i))
          (if g.fontBool dot then inkColour g c.fg else inkColour g c.bg) fb) fb
    else none) fb

def plotChar (c : FbChar) (x y : ℕ) (fb : ℕ → BitVec 32) : Option (ℕ → BitVec 32) :=
  if g.cols ≤ x ∨ g.rows ≤ y then some fb
  else
    (upTo 0 g.glyphHeight).foldlM (fun fb gy =>
      plotLine g c (g.offsetX + x * g.glyphWidth) (g.offsetY + y * g.glyphHeight) gy fb) fb

-- ---------------------------------------------------------------------------
-- The cursor and the queue
-- ---------------------------------------------------------------------------

/-- Text and background change places. -/
def FbChar.invert (c : FbChar) : FbChar := { c with fg := c.bg, bg := c.fg }

def drawCursor (ctx : Context) (s : Fb) : Option Fb :=
  if g.cols ≤ ctx.cursorX ∨ g.rows ≤ ctx.cursorY then some s
  else
    let i := ctx.cursorX + ctx.cursorY * g.cols
    if i < g.cells then do
      let fb ← plotChar g (s.buffer.view i).invert ctx.cursorX ctx.cursorY s.framebuffer
      some { s with framebuffer := fb, buffer := s.buffer.commit i }
    else none

/-- The cursor is drawn when it is enabled. -/
def drawEnabledCursor (ctx : Context) (s : Fb) : Option Fb :=
  if ctx.cursorEnabled = true then drawCursor g ctx s else some s

/-- An entry of the queue is carried out, unless its cell has been drawn. -/
def flushEntry (s : Fb) (k : ℕ) : Option Fb :=
  let offset := s.buffer.key k
  if k < g.cells ∧ offset < g.cells then
    match s.buffer.index offset with
    -- `map` is empty where `draw_cursor` was
    | none => some s
    | some _ => do
      let fb ← plotChar g (s.buffer.val k) (offset % g.cols) (offset / g.cols) s.framebuffer
      some { s with framebuffer := fb, buffer := s.buffer.settle offset (s.buffer.val k) }
  else none

/-- The cursor that was drawn last is taken away. -/
def restoreCell (ctx : Context) (s : Fb) : Option Fb :=
  if (s.oldCursorX ≠ ctx.cursorX ∨ s.oldCursorY ≠ ctx.cursorY) ∨ ctx.cursorEnabled = false then
    if s.oldCursorX < g.cols ∧ s.oldCursorY < g.rows then
      let i := s.oldCursorX + s.oldCursorY * g.cols
      if i < g.cells then do
        let fb ← plotChar g (s.buffer.base i) s.oldCursorX s.oldCursorY s.framebuffer
        some { s with framebuffer := fb }
      else none
    else some s
  else some s

/-- `flanterm_fb_double_buffer_flush` -/
def doubleBufferFlush (ctx : Context) (s : Fb) : Option Fb := do
  -- the cursor comes first, as an entry that is already carried out
  let s ← drawEnabledCursor g ctx s
  let s ← (upTo 0 s.buffer.count).foldlM (flushEntry g) s
  let s ← restoreCell g ctx s
  some { s with
    oldCursorX := ctx.cursorX
    oldCursorY := ctx.cursorY
    buffer := { s.buffer with count := 0 } }

/-- The background of the whole framebuffer. -/
def fillBackground (fb : ℕ → BitVec 32) : Option (ℕ → BitVec 32) :=
  (upTo 0 g.height).foldlM (fun fb y =>
    (upTo 0 g.width).foldlM (fun fb x => storePixel g (y * (g.pitch / 4) + x) g.defaultBg fb) fb) fb

/-- Every character of the grid is plotted. -/
def plotGrid (grid : ℕ → FbChar) (fb : ℕ → BitVec 32) : Option (ℕ → BitVec 32) :=
  (upTo 0 (g.rows * g.cols)).foldlM (fun fb i =>
    plotChar g (grid i) (i % g.cols) (i / g.cols) fb) fb

/-- `flanterm_fb_full_refresh` -/
def fullRefresh (ctx : Context) (s : Fb) : Option Fb := do
  let fb ← fillBackground g s.framebuffer
  let fb ← plotGrid g s.buffer.base fb
  drawEnabledCursor g ctx { s with framebuffer := fb }

-- ---------------------------------------------------------------------------
-- The machine
-- ---------------------------------------------------------------------------

/-- The terminal with its screen. -/
structure Machine where
  ctx : Context
  fb : Fb

/-- The end of `flanterm_write` -/
def autoFlush (ctx : Context) (fb : Fb) : Option Machine :=
  if ctx.autoflush = true then (doubleBufferFlush g ctx fb).map fun fb => ⟨ctx, fb⟩
  else some ⟨ctx, fb⟩

def flantermWrite (s : Machine) (bytes : List (BitVec 8)) : Option Machine := do
  let written ← (putBytes g bytes s.ctx).runBuffer g.cells s.fb.buffer
  autoFlush g written.1 { s.fb with buffer := written.2 }

/-- The blank that fills the grid. -/
def FbConfig.blank : FbChar := ⟨byte ' ', g.defaultFg, 0xffffffff⟩

/-- The end of `flanterm_fb_init`: the grid, the queue and the table are filled
and everything is drawn for the first time. -/
def startMachine (framebuffer : ℕ → BitVec 32) : Option Machine := do
  let buffer : WriteBuffer FbChar :=
    ⟨fun _ => g.blank, fun _ => 0, fun _ => g.blank, 0, fun _ => none⟩
  let fb ← fullRefresh g (startContext g) ⟨buffer, framebuffer, 0, 0⟩
  some ⟨startContext g, fb⟩

end Flanterm
