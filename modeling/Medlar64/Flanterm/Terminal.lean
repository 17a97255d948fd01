import Medlar64.Flanterm.Context
import Medlar64.Flanterm.Width

/-!
# Flanterm: the terminal

`flanterm.c`: the bytes that are written, the escape and control sequences in
them, and what they do to the screen. The callback is `NULL`, so the branches
that only call it do nothing.

* `putchar` — one byte, `putBytes` — a string of them.
* `controlSequence` — a control sequence with all its parameters.
-/

namespace Flanterm

open ArrayProg

variable (g : FbConfig)

def maxEscValues : ℕ := 16

/-- `flanterm_context_reinit` -/
def contextReinit (ctx : Context) : Context :=
  { ctx with
    tabSize := 8
    autoflush := true
    cursorEnabled := true
    scrollEnabled := true
    controlSequence := false
    escape := false
    osc := false
    oscEscape := false
    rrr := false
    discardNext := false
    bold := false
    bgBold := false
    reverseVideo := false
    decPrivate := false
    insertMode := false
    unicodeRemaining := 0
    gSelect := 0
    charsets := fun i => if i = 0 then 0 else 1
    currentCharset := 0
    escapeOffset := 0
    escValuesI := 0
    savedCursorX := 0
    savedCursorY := 0
    currentPrimary := none
    currentBg := none
    scrollTopMargin := 0
    scrollBottomMargin := g.rows
    oobOutput := 0x10 }

/-- The fields after `memset`, with the colours of the text. -/
def zeroContext : Context where
  tabSize := 0
  autoflush := false
  cursorEnabled := false
  scrollEnabled := false
  controlSequence := false
  escape := false
  osc := false
  oscEscape := false
  rrr := false
  discardNext := false
  bold := false
  bgBold := false
  reverseVideo := false
  decPrivate := false
  insertMode := false
  codePoint := 0
  unicodeRemaining := 0
  gSelect := 0
  charsets := fun _ => 0
  currentCharset := 0
  escapeOffset := 0
  escValuesI := 0
  savedCursorX := 0
  savedCursorY := 0
  currentPrimary := some 0
  currentBg := some 0
  scrollTopMargin := 0
  scrollBottomMargin := 0
  escValues := fun _ => 0
  oobOutput := 0
  savedStateBold := false
  savedStateBgBold := false
  savedStateReverseVideo := false
  savedStateCurrentCharset := 0
  savedStateCurrentPrimary := some 0
  savedStateCurrentBg := some 0
  textFg := g.defaultFg
  textBg := 0xffffffff
  cursorX := 0
  cursorY := 0
  savedStateTextFg := 0
  savedStateTextBg := 0
  savedStateCursorX := 0
  savedStateCursorY := 0

/-- The terminal after `flanterm_fb_init`. -/
def startContext : Context := contextReinit g (zeroContext g)

-- ---------------------------------------------------------------------------
-- Select graphic rendition
-- ---------------------------------------------------------------------------

/-- The branch at the label `def`. -/
def sgrReset (ctx : Context) : Context :=
  let ctx := if ctx.reverseVideo then swapPalette { ctx with reverseVideo := false } else ctx
  let ctx := { ctx with bold := false, bgBold := false, currentPrimary := none, currentBg := none }
  setTextFgDefault g (setTextBgDefault ctx)

/-- In reverse video text and background change places. -/
def sgrSide (ctx : Context) (normal reversed : Context → Screen Context) : Screen Context :=
  if !ctx.reverseVideo then normal ctx else reversed ctx

/-- The labels `set_fg`, `set_bg`, `set_fg_bright` and `set_bg_bright`. -/
def sgrSetFg (n : ℕ) (ctx : Context) : Screen Context :=
  if (ctx.bold && !ctx.reverseVideo) || (ctx.bgBold && ctx.reverseVideo) then
    setTextFgBright g n ctx
  else setTextFg g n ctx

def sgrSetBg (n : ℕ) (ctx : Context) : Screen Context :=
  if (ctx.bold && ctx.reverseVideo) || (ctx.bgBold && !ctx.reverseVideo) then
    setTextBgBright g n ctx
  else setTextBg g n ctx

/-- The palette as it is without reverse video, and back. -/
def swapReversed (ctx : Context) : Context := if ctx.reverseVideo then swapPalette ctx else ctx

/-- One parameter other than 38 and 48. -/
def sgrValue (v : ℕ) (ctx : Context) : Screen Context :=
  if v = 0 then pure (sgrReset g ctx)
  -- bold: the bright colours of what is chosen
  else if v = 1 then
    let ctx := { ctx with bold := true }
    match ctx.currentPrimary with
    | some n => sgrSide ctx (setTextFgBright g n) (setTextBgBright g n)
    | none =>
      sgrSide ctx (fun c => pure (setTextFgDefaultBright g c))
        (fun c => pure (setTextBgDefaultBright g c))
  else if v = 5 then
    let ctx := { ctx with bgBold := true }
    match ctx.currentBg with
    | some n => sgrSide ctx (setTextBgBright g n) (setTextFgBright g n)
    | none =>
      sgrSide ctx (fun c => pure (setTextBgDefaultBright g c))
        (fun c => pure (setTextFgDefaultBright g c))
  -- bold off: back to the normal ones, brightness of the background apart
  else if v = 22 then
    let ctx := { ctx with bold := false }
    match ctx.currentPrimary with
    | some n => sgrSide ctx (setTextFg g n) (setTextBg g n)
    | none =>
      sgrSide ctx (fun c => pure (setTextFgDefault g c)) (fun c => pure (setTextBgDefault c))
  else if v = 25 then
    let ctx := { ctx with bgBold := false }
    match ctx.currentBg with
    | some n => sgrSide ctx (setTextBg g n) (setTextFg g n)
    | none =>
      sgrSide ctx (fun c => pure (setTextBgDefault c)) (fun c => pure (setTextFgDefault g c))
  -- colours by number, the bright ones from 90 and 100 on
  else if 30 ≤ v ∧ v ≤ 37 then
    sgrSide { ctx with currentPrimary := some (v - 30) } (sgrSetFg g (v - 30)) (sgrSetBg g (v - 30))
  else if 40 ≤ v ∧ v ≤ 47 then
    sgrSide { ctx with currentBg := some (v - 40) } (sgrSetBg g (v - 40)) (sgrSetFg g (v - 40))
  else if 90 ≤ v ∧ v ≤ 97 then
    sgrSide { ctx with currentPrimary := some (v - 90) } (setTextFgBright g (v - 90))
      (setTextBgBright g (v - 90))
  else if 100 ≤ v ∧ v ≤ 107 then
    sgrSide { ctx with currentBg := some (v - 100) } (setTextBgBright g (v - 100))
      (setTextFgBright g (v - 100))
  -- default colours: the palette is turned back while they are set
  else if v = 39 then
    let ctx := swapReversed { ctx with currentPrimary := none }
    pure (swapReversed
      (if !ctx.bold then setTextFgDefault g ctx else setTextFgDefaultBright g ctx))
  else if v = 49 then
    let ctx := swapReversed { ctx with currentBg := none }
    pure (swapReversed (if !ctx.bgBold then setTextBgDefault ctx else setTextBgDefaultBright g ctx))
  -- reverse video, which swaps once however often it is asked for
  else if v = 7 then
    pure (if !ctx.reverseVideo then swapPalette { ctx with reverseVideo := true } else ctx)
  else if v = 27 then
    pure (if ctx.reverseVideo then swapPalette { ctx with reverseVideo := false } else ctx)
  else pure ctx

/-- `38;2;r;g;b` and `48;2;r;g;b` -/
def sgrRgb (fg : Bool) (rgb : BitVec 32) (ctx : Context) : Context :=
  if fg then setTextFgRgb g rgb ctx else setTextBgRgb g rgb ctx

/-- `38;5;col` and `48;5;col` -/
def sgr256 (fg : Bool) (col : ℕ) (ctx : Context) : Screen Context :=
  if col < 8 then (if fg then setTextFg g col ctx else setTextBg g col ctx)
  else if col < 16 then
    (if fg then setTextFgBright g (col - 8) ctx else setTextBgBright g (col - 8) ctx)
  else if col < 256 then
    match col256[col - 16]? with
    | some rgb => pure (sgrRgb g fg rgb ctx)
    | none => .stuck
  else pure ctx

/-- The loop of `sgr` over the parameters that are left. -/
def sgrLoop : List (BitVec 32) → Context → Screen Context
  | [], ctx => pure ctx
  | v :: vs, ctx =>
    if v.toNat = 38 ∨ v.toNat = 48 then
      let fg := v.toNat == 38
      match vs with
      | [] => pure ctx
      | mode :: rest =>
        if mode.toNat = 2 then
          match rest with
          | r :: gr :: b :: rest' => sgrLoop rest' (sgrRgb g fg (r <<< 16 ||| gr <<< 8 ||| b) ctx)
          | _ => pure ctx
        -- a colour of the table
        else if mode.toNat = 5 then
          match rest with
          | col :: rest' => do
            let ctx ← sgr256 g fg col.toNat ctx
            sgrLoop rest' ctx
          | _ => pure ctx
        -- neither 2 nor 5: both parameters are skipped
        else sgrLoop rest ctx
    else do
      let ctx ← sgrValue g v.toNat ctx
      sgrLoop vs ctx

/-- The parameters of the sequence. -/
def params (ctx : Context) : List (BitVec 32) := (List.range ctx.escValuesI).map ctx.escValues

def sgr (ctx : Context) : Screen Context :=
  if ctx.escValuesI = 0 then pure (sgrReset g ctx) else sgrLoop g (params ctx) ctx

-- ---------------------------------------------------------------------------
-- Control sequences
-- ---------------------------------------------------------------------------

def decPrivateParse (c : BitVec 8) (ctx : Context) : Context :=
  let ctx := { ctx with decPrivate := false }
  if ctx.escValuesI = 0 then ctx
  else if c = byte 'h' ∨ c = byte 'l' then
    if ctx.escValues 0 = 25 then { ctx with cursorEnabled := c == byte 'h' } else ctx
  else ctx

def modeToggle (c : BitVec 8) (ctx : Context) : Context :=
  if ctx.escValuesI = 0 then ctx
  else if c = byte 'h' ∨ c = byte 'l' then
    if ctx.escValues 0 = 4 then { ctx with insertMode := c == byte 'h' } else ctx
  else ctx

/-- A parameter is changed. -/
def setEscValue (i : ℕ) (v : ℕ) (ctx : Context) : Context :=
  { ctx with escValues := Function.update ctx.escValues i (BitVec.ofNat 32 v) }

/-- `n` blanks, one after another. -/
def putBlanks (n : ℕ) (ctx : Context) : Screen Context :=
  (upTo 0 n).foldlM (fun ctx _ => rawPutchar g (byte ' ') ctx) ctx

/-- The cursor moves up, at most to the margin it crosses (`F`, `A`). -/
def cursorUp (x y : ℕ) (ctx : Context) : Context :=
  let ctx := if y < (ctx.escValues 0).toNat then setEscValue 0 y ctx else ctx
  let destY := y - (ctx.escValues 0).toNat
  let inRegion := (destY ≤ ctx.scrollTopMargin ∧ ctx.scrollTopMargin ≤ y) ∨
    (destY ≤ ctx.scrollBottomMargin ∧ ctx.scrollBottomMargin ≤ y)
  let destY := if inRegion ∧ destY < ctx.scrollTopMargin then ctx.scrollTopMargin else destY
  setCursorPos g x destY ctx

/-- The cursor moves down (`E`, `e`, `B`). -/
def cursorDown (x y : ℕ) (ctx : Context) : Context :=
  let ctx :=
    if g.rows - 1 < y + (ctx.escValues 0).toNat then setEscValue 0 (g.rows - 1 - y) ctx else ctx
  let destY := y + (ctx.escValues 0).toNat
  let inRegion := (y ≤ ctx.scrollTopMargin ∧ ctx.scrollTopMargin ≤ destY) ∨
    (y ≤ ctx.scrollBottomMargin ∧ ctx.scrollBottomMargin ≤ destY)
  let destY :=
    if inRegion ∧ ctx.scrollBottomMargin ≤ destY then ctx.scrollBottomMargin - 1 else destY
  setCursorPos g x destY ctx

/-- The loops of `J` with parameter 1 over the cells that are left: blanks up to
the cell of the cursor. -/
def eraseTo (x y : ℕ) : List (ℕ × ℕ) → Context → Screen Context
  | [], ctx => pure ctx
  | (xc, yc) :: rest, ctx => do
    let ctx ← rawPutchar g (byte ' ') ctx
    if xc = x ∧ yc = y then pure (setCursorPos g x y ctx) else eraseTo x y rest ctx

/-- The cells in the order of two nested loops over rows and columns. -/
def rowMajor : List (ℕ × ℕ) :=
  (upTo 0 g.rows).flatMap fun yc => (upTo 0 g.cols).map fun xc => (xc, yc)

def eraseDisplay (x y : ℕ) (ctx : Context) : Screen Context :=
  if ctx.escValues 0 = 0 then do
    let ctx ← putBlanks g ((g.rows - (y + 1)) * g.cols + (g.cols - (x + 1)) + 1) ctx
    pure (setCursorPos g x y ctx)
  else if ctx.escValues 0 = 1 then eraseTo g x y (rowMajor g) (setCursorPos g 0 0 ctx)
  else if ctx.escValues 0 = 2 ∨ ctx.escValues 0 = 3 then clear g false ctx
  else pure ctx

def eraseLine (x y : ℕ) (ctx : Context) : Screen Context :=
  if ctx.escValues 0 = 0 then do
    let ctx ← putBlanks g (g.cols - x) ctx
    pure (setCursorPos g x y ctx)
  else if ctx.escValues 0 = 1 then putBlanks g x (setCursorPos g 0 y ctx)
  else if ctx.escValues 0 = 2 then do
    let ctx ← putBlanks g g.cols (setCursorPos g 0 y ctx)
    pure (setCursorPos g x y ctx)
  else pure ctx

def insertBlanks (x y : ℕ) (ctx : Context) : Screen Context := do
  let ctx ← (downFrom g.cols x).foldlM (fun ctx i => do
    moveCharacter g (i + (ctx.escValues 0).toNat) y i y
    rawPutchar g (byte ' ') (setCursorPos g i y ctx)) ctx
  pure (setCursorPos g x y ctx)

def eraseChars (x y : ℕ) (ctx : Context) : Screen Context := do
  let ctx ← putBlanks g (min (ctx.escValues 0).toNat g.cols) ctx
  pure (setCursorPos g x y ctx)

/-- `P`, which goes on with `X`. -/
def deleteChars (x y : ℕ) (ctx : Context) : Screen Context := do
  let n := (ctx.escValues 0).toNat
  (upTo (x + n) g.cols).forM fun i => moveCharacter g (i - n) y i y
  eraseChars g x y (setCursorPos g (sub64 g.cols n) y ctx)

/-- 0 in a parameter stands for 1. -/
def oneForZero (i : ℕ) (ctx : Context) : Context :=
  if ctx.escValues i = 0 then setEscValue i 1 ctx else ctx

/-- Margins that leave no region of two lines are those of the screen. -/
def acceptMargins (top bottom : ℕ) (ctx : Context) : Context :=
  if g.rows ≤ top ∨ g.rows < bottom ∨ bottom - 1 ≤ top then
    { ctx with scrollTopMargin := 0, scrollBottomMargin := g.rows }
  else { ctx with scrollTopMargin := top, scrollBottomMargin := bottom }

def setMargins (ctx : Context) : Context :=
  let ctx := oneForZero 1 (oneForZero 0 ctx)
  let top := if 0 < ctx.escValuesI then (ctx.escValues 0).toNat - 1 else 0
  let bottom := if 1 < ctx.escValuesI then (ctx.escValues 1).toNat else g.rows
  setCursorPos g 0 0 (acceptMargins g top bottom ctx)

/-- One coordinate of a cursor address, counted from 1 and kept below the
limit (`d`, `G`, backquote). -/
def addressValue (i limit : ℕ) (ctx : Context) : Context :=
  let ctx := { ctx with escValues := Function.update ctx.escValues i (ctx.escValues i - 1) }
  if limit ≤ (ctx.escValues i).toNat then setEscValue i (limit - 1) ctx else ctx

/-- The same with 0 for 1 (`H`, `f`). -/
def homeValue (i limit : ℕ) (ctx : Context) : Context :=
  let ctx := if ctx.escValues i ≠ 0 then
      { ctx with escValues := Function.update ctx.escValues i (ctx.escValues i - 1) }
    else ctx
  if limit ≤ (ctx.escValues i).toNat then setEscValue i (limit - 1) ctx else ctx

/-- The `switch` of `control_sequence_parse`. -/
def controlSequence (c : BitVec 8) (ctx : Context) : Screen Context :=
  let x := cursorPosX g ctx
  let y := cursorPosY g ctx
  -- cursor movement, relative and absolute
  if c = byte 'F' then pure (cursorUp g 0 y ctx)
  else if c = byte 'A' then pure (cursorUp g x y ctx)
  else if c = byte 'E' then pure (cursorDown g 0 y ctx)
  else if c = byte 'e' ∨ c = byte 'B' then pure (cursorDown g x y ctx)
  else if c = byte 'a' ∨ c = byte 'C' then
    let ctx :=
      if g.cols - 1 < x + (ctx.escValues 0).toNat then setEscValue 0 (g.cols - 1 - x) ctx else ctx
    pure (setCursorPos g (x + (ctx.escValues 0).toNat) y ctx)
  else if c = byte 'D' then
    let ctx := if x < (ctx.escValues 0).toNat then setEscValue 0 x ctx else ctx
    pure (setCursorPos g (x - (ctx.escValues 0).toNat) y ctx)
  else if c = byte 'd' then
    let ctx := addressValue 0 g.rows ctx
    pure (setCursorPos g x (ctx.escValues 0).toNat ctx)
  else if c = byte 'G' ∨ c = 0x60#8 then
    let ctx := addressValue 0 g.cols ctx
    pure (setCursorPos g (ctx.escValues 0).toNat y ctx)
  else if c = byte 'H' ∨ c = byte 'f' then
    let ctx := homeValue 0 g.rows (homeValue 1 g.cols ctx)
    pure (setCursorPos g (ctx.escValues 1).toNat (ctx.escValues 0).toNat ctx)
  -- lines: `M` scrolls the whole region, `L` the part below the cursor
  else if c = byte 'M' then do
    (upTo 0 (min (ctx.escValues 0).toNat g.rows)).forM fun _ => scroll g ctx
    pure ctx
  else if c = byte 'L' then do
    (upTo 0 (min (ctx.escValues 0).toNat g.rows)).forM fun _ => revscroll g (ctx.withTop y)
    pure ctx
  -- characters
  else if c = byte 'J' then eraseDisplay g x y ctx
  else if c = byte '@' then insertBlanks g x y ctx
  else if c = byte 'P' then deleteChars g x y ctx
  else if c = byte 'X' then eraseChars g x y ctx
  else if c = byte 'm' then sgr g ctx
  else if c = byte 's' then pure { ctx with savedCursorX := x, savedCursorY := y }
  else if c = byte 'u' then pure (setCursorPos g ctx.savedCursorX ctx.savedCursorY ctx)
  else if c = byte 'K' then eraseLine g x y ctx
  else if c = byte 'r' then pure (setMargins g ctx)
  else if c = byte 'l' ∨ c = byte 'h' then pure (modeToggle c ctx)
  -- `c`, `n`, `q` and `]` call `callback`, which is NULL
  else pure ctx

/-- The default of the parameters that are not given. -/
def escDefault (c : BitVec 8) : BitVec 32 :=
  if c = byte 'J' ∨ c = byte 'K' ∨ c = byte 'q' then 0 else 1

/-- The sequence is carried out, without scrolling. -/
def runSequence (c : BitVec 8) (ctx : Context) : Screen Context :=
  if ctx.decPrivate = true then pure (decPrivateParse c ctx)
  else do
    let ctx' ← controlSequence g c { ctx with scrollEnabled := false }
    pure { ctx' with scrollEnabled := ctx.scrollEnabled }

/-- The end of `control_sequence_parse`, for a byte that is neither a digit nor
a semicolon. -/
def controlSequenceEnd (c : BitVec 8) (ctx : Context) : Screen Context := do
  let ctx ← runSequence g c { ctx with
    escValues := fun i =>
      if ctx.escValuesI ≤ i ∧ i < maxEscValues then escDefault c else ctx.escValues i }
  pure { ctx with controlSequence := false, escape := false }

/-- The end of a parameter with a value of its own, and an empty one. -/
def controlSequenceValue (c : BitVec 8) (ctx : Context) : Screen Context :=
  if ctx.rrr = true then
    let ctx := { ctx with escValuesI := ctx.escValuesI + 1, rrr := false }
    if c = byte ';' then pure ctx else controlSequenceEnd g c ctx
  else if c = byte ';' then
    if ctx.escValuesI = maxEscValues then pure ctx
    else do
      check (ctx.escValuesI < maxEscValues)
      let ctx := setEscValue ctx.escValuesI 0 ctx
      pure { ctx with escValuesI := ctx.escValuesI + 1 }
  else controlSequenceEnd g c ctx

def isDigit (c : BitVec 8) : Bool := '0'.toNat ≤ c.toNat ∧ c.toNat ≤ '9'.toNat

def controlSequenceParse (c : BitVec 8) (ctx : Context) : Screen Context :=
  -- right behind `ESC [`
  if ctx.escapeOffset = 2 ∧ c = byte '[' then
    pure { ctx with discardNext := true, controlSequence := false, escape := false }
  else if ctx.escapeOffset = 2 ∧ c = byte '?' then pure { ctx with decPrivate := true }
  -- a `uint32_t`, however many digits there are; a 17th parameter is dropped
  else if isDigit c then
    if ctx.escValuesI = maxEscValues then pure ctx
    else do
      check (ctx.escValuesI < maxEscValues)
      let v := ctx.escValues ctx.escValuesI * 10 + BitVec.ofNat 32 (c.toNat - '0'.toNat)
      pure { ctx with rrr := true, escValues := Function.update ctx.escValues ctx.escValuesI v }
  else controlSequenceValue g c ctx

-- ---------------------------------------------------------------------------
-- Escape sequences
-- ---------------------------------------------------------------------------

def oscParse (c : BitVec 8) (ctx : Context) : Context :=
  if ctx.oscEscape ∧ c = 0x5c#8 then
    { ctx with oscEscape := false, osc := false, escape := false }
  -- the bell ends the sequence as well, anything else is skipped
  else if c = 0x1b#8 then { ctx with oscEscape := true }
  else if c = 0x07#8 then { ctx with oscEscape := false, osc := false, escape := false }
  else { ctx with oscEscape := false }

def restoreState (ctx : Context) : Context :=
  fbRestoreState { ctx with
    bold := ctx.savedStateBold
    bgBold := ctx.savedStateBgBold
    reverseVideo := ctx.savedStateReverseVideo
    currentCharset := ctx.savedStateCurrentCharset
    currentPrimary := ctx.savedStateCurrentPrimary
    currentBg := ctx.savedStateCurrentBg }

def saveState (ctx : Context) : Context :=
  let ctx := fbSaveState ctx
  { ctx with
    savedStateBold := ctx.bold
    savedStateBgBold := ctx.bgBold
    savedStateReverseVideo := ctx.reverseVideo
    savedStateCurrentCharset := ctx.currentCharset
    savedStateCurrentPrimary := ctx.currentPrimary
    savedStateCurrentBg := ctx.currentBg }

/-- A new line: at the bottom margin the screen scrolls. -/
def lineFeed (x y : ℕ) (ctx : Context) : Screen Context :=
  if y = ctx.scrollBottomMargin - 1 then do
    scroll g ctx
    pure (setCursorPos g x y ctx)
  else pure (setCursorPos g x (y + 1) ctx)

/-- The `switch` of `escape_parse`, but for `]` and `[`. -/
def escapeCode (c : BitVec 8) (ctx : Context) : Screen Context :=
  let x := cursorPosX g ctx
  let y := cursorPosY g ctx
  if c = byte '7' then pure (saveState ctx)
  else if c = byte '8' then pure (restoreState ctx)
  else if c = byte 'c' then clear g true (contextReinit g ctx)
  else if c = byte 'D' then lineFeed g x y ctx
  else if c = byte 'E' then lineFeed g 0 y ctx
  else if c = byte 'M' then
    if y = ctx.scrollTopMargin then do
      revscroll g ctx
      pure (setCursorPos g 0 y ctx)
    else pure (setCursorPos g 0 (sub64 y 1) ctx)
  else if c = byte '(' ∨ c = byte ')' then pure { ctx with gSelect := c.toNat - 0x27 }
  else pure ctx

/-- One byte more of an escape sequence. -/
def countEscape (ctx : Context) : Context :=
  { ctx with escapeOffset := (ctx.escapeOffset + 1) % 2 ^ 64 }

/-- `escape_parse` behind the count. -/
def escapeByte (c : BitVec 8) (ctx : Context) : Screen Context :=
  if ctx.osc = true then pure (oscParse c ctx)
  else if ctx.controlSequence = true then controlSequenceParse g c ctx
  else if c = byte ']' then pure { ctx with oscEscape := false, osc := true }
  else if c = byte '[' then
    -- `dec_private` stays as it is
    pure { ctx with
      escValues := fun i => if i < maxEscValues then 0 else ctx.escValues i
      escValuesI := 0
      rrr := false
      controlSequence := true }
  else do
    let ctx ← escapeCode g c ctx
    pure { ctx with escape := false }

def escapeParse (c : BitVec 8) (ctx : Context) : Screen Context := escapeByte g c (countEscape ctx)

-- ---------------------------------------------------------------------------
-- Bytes
-- ---------------------------------------------------------------------------

/-- A character that is not in the code page. -/
def putReplacement (width : ℕ) (ctx : Context) : Screen Context :=
  if 0 < width then do
    let ctx ← rawPutchar g 0xfe ctx
    putBlanks g (width - 1) ctx
  else pure ctx

/-- The last byte of a character of several bytes. -/
def putCodePoint (ctx : Context) : Screen Context :=
  match unicodeToCp437 ctx.codePoint.toNat with
  | some c => rawPutchar g c ctx
  | none =>
    match mkWcwidth (ctx.codePoint.toNat % 2 ^ 32) with
    | none => .stuck
    | some replacementWidth => putReplacement g replacementWidth ctx

/-- With `insert_mode` the rest of the line makes room. -/
def insertRoom (ctx : Context) : Screen Unit :=
  if ctx.insertMode = true then
    (downFrom g.cols (cursorPosX g ctx)).forM fun i =>
      moveCharacter g (i + 1) (cursorPosY g ctx) i (cursorPosY g ctx)
  else pure ()

/-- A byte in the chosen character set. -/
def translate (c : BitVec 8) (ctx : Context) : BitVec 8 :=
  match (if ctx.charsets ctx.currentCharset = 1 then decSpecialChar c else none) with
  | some special => special
  | none => if 0x20 ≤ c.toNat ∧ c.toNat ≤ 0x7e then c else 0xfe

def putPrintable (c : BitVec 8) (ctx : Context) : Screen Context := do
  insertRoom g ctx
  check (ctx.currentCharset < 2)
  rawPutchar g (translate c ctx) ctx

/-- The `switch` at the end of `flanterm_putchar`. -/
def putControl (c : BitVec 8) (ctx : Context) : Screen Context :=
  let x := cursorPosX g ctx
  let y := cursorPosY g ctx
  if c = 0x00#8 ∨ c = 0x7f#8 then pure ctx
  else if c = 0x1b#8 then pure { ctx with escapeOffset := 0, escape := true }
  else if c = 0x09#8 then do
    check (ctx.tabSize ≠ 0)
    if g.cols ≤ x / ctx.tabSize + 1 then pure (setCursorPos g (g.cols - 1) y ctx)
    else pure (setCursorPos g ((x / ctx.tabSize + 1) * ctx.tabSize) y ctx)
  else if c = 0x0b#8 ∨ c = 0x0c#8 ∨ c = 0x0a#8 then
    lineFeed g (if ctx.oobOutput &&& 0x10 ≠ 0 then 0 else x) y ctx
  else if c = 0x08#8 then pure (setCursorPos g (sub64 x 1) y ctx)
  else if c = 0x0d#8 then pure (setCursorPos g 0 y ctx)
  else if c = 0x07#8 then pure ctx
  else if c = 14#8 then pure { ctx with currentCharset := 1 }
  else if c = 15#8 then pure { ctx with currentCharset := 0 }
  else putPrintable g c ctx

/-- The byte after `ESC (` or `ESC )`. -/
def selectCharset (c : BitVec 8) (ctx : Context) : Screen Context := do
  let i := ctx.gSelect - 1
  check (i < 2)
  let ctx :=
    if c = byte 'B' then { ctx with charsets := Function.update ctx.charsets i 0 }
    else if c = byte '0' then { ctx with charsets := Function.update ctx.charsets i 1 }
    else ctx
  pure { ctx with gSelect := 0 }

/-- `flanterm_putchar` from the label `unicode_error` on. -/
def putcharStart (c : BitVec 8) (ctx : Context) : Screen Context :=
  if 0xc0 ≤ c.toNat ∧ c.toNat ≤ 0xf7 then
    if c.toNat ≤ 0xdf then
      pure { ctx with unicodeRemaining := 1, codePoint := (c &&& 0x1f).setWidth 64 <<< 6 }
    else if c.toNat ≤ 0xef then
      pure { ctx with unicodeRemaining := 2, codePoint := (c &&& 0x0f).setWidth 64 <<< 12 }
    else pure { ctx with unicodeRemaining := 3, codePoint := (c &&& 0x07).setWidth 64 <<< 18 }
  else if ctx.escape = true then escapeParse g c ctx
  else if ctx.gSelect ≠ 0 then selectCharset c ctx
  else putControl g c ctx

/-- `flanterm_putchar` -/
def putchar (c : BitVec 8) (ctx : Context) : Screen Context :=
  -- CAN and SUB end whatever was begun
  if ctx.discardNext = true ∨ c = 0x18#8 ∨ c = 0x1a#8 then
    pure { ctx with
      discardNext := false
      escape := false
      controlSequence := false
      unicodeRemaining := 0
      osc := false
      oscEscape := false
      gSelect := 0 }
  else if ctx.unicodeRemaining ≠ 0 then
    -- no continuation: the character is given up, and the byte is a new start
    if c &&& 0xc0 ≠ 0x80 then putcharStart g c { ctx with unicodeRemaining := 0 }
    else
      let remaining := ctx.unicodeRemaining - 1
      let ctx := { ctx with
        unicodeRemaining := remaining
        codePoint := ctx.codePoint ||| (c &&& 0x3f).setWidth 64 <<< (6 * remaining) }
      if remaining ≠ 0 then pure ctx else putCodePoint g ctx
  else putcharStart g c ctx

/-- The bytes of a buffer. -/
def putBytes (bytes : List (BitVec 8)) (ctx : Context) : Screen Context :=
  bytes.foldlM (fun ctx c => putchar g c ctx) ctx

end Flanterm
