import Medlar64.Flanterm.Lines
import Medlar64.Flanterm.Screen
import Medlar64.Flanterm.Utf8
import Medlar64.Lib.Paper

/-!
# Flanterm: plain text

What characters and line feeds do, compared with a sheet of paper: the screen
is a window on its last lines.

* `OnPaper` — the screen shows the window, and the cursor is at the end of the
  text.
* `rawPutchar_run`, `lineFeed_run` — one character, one line feed.
* `char_run` — one character on the plain terminal, in its bytes.
* `typewriter` — every text, however its bytes are cut into calls.

All of this is about screens with at least as many columns as rows: when a line
wraps, `flanterm_fb_raw_putchar` compares the row with `cols`, which on a
taller screen puts the cursor into the wrong row.
-/

namespace Flanterm

open ArrayProg

-- ---------------------------------------------------------------------------
-- The screen as a window
-- ---------------------------------------------------------------------------

variable {g : FbConfig}

/-- Nothing but text is expected, and the whole screen scrolls. -/
structure TextMode (g : FbConfig) (ctx : Context) : Prop where
  discardNext : ctx.discardNext = false
  unicodeRemaining : ctx.unicodeRemaining = 0
  escape : ctx.escape = false
  gSelect : ctx.gSelect = 0
  insertMode : ctx.insertMode = false
  charset_lt : ctx.currentCharset < 2
  charset : ctx.charsets ctx.currentCharset = 0
  scrolls : ctx.scrollEnabled = true
  onlcr : ctx.oobOutput &&& 0x10 ≠ 0
  top : ctx.scrollTopMargin = 0
  bottom : ctx.scrollBottomMargin = g.rows
  osc : ctx.osc = false
  controlSequence : ctx.controlSequence = false
  decPrivate : ctx.decPrivate = false

theorem TextMode.at {ctx : Context} (h : TextMode g ctx) (x y : ℕ) : TextMode g (ctx.at x y) :=
  { h with }

/-- The screen is the window at the end of the paper, the cursor behind the
current line. -/
structure OnPaper (g : FbConfig) (ctx : Context) (p : Paper (BitVec 8))
    (m : ℕ → FbChar) : Prop where
  cursorX : ctx.cursorX = p.cur.length
  cursorY : ctx.cursorY = p.row g.rows
  width : p.cur.length ≤ g.cols
  cell : ∀ x < g.cols, ∀ y < g.rows,
    m (y * g.cols + x) = ⟨(p.window g.rows y).getD x (byte ' '), ctx.textFg, ctx.textBg⟩

/-- The window moves on to a new line. As long as the text fits the screen
nothing moves; from then on every row shows the line that was one row below it,
and the last row is blank. -/
theorem OnPaper.newline {ctx : Context} {p : Paper (BitVec 8)} {m : ℕ → FbChar}
    (h : OnPaper g ctx p m) :
    OnPaper g (ctx.at 0 (p.newline.row g.rows)) p.newline
      (if g.rows ≤ p.lines.length then lineUp g 0 g.rows (empty ctx) m else m) := by
  refine ⟨rfl, rfl, Nat.zero_le _, ?_⟩
  intro x hx y hy
  rw [Paper.window_newline]
  split
  case isTrue hfull =>
    rw [lineUp, index_div y hx]
    split
    case isTrue hlast =>
      -- the line that comes into the window is empty
      have hnone : p.window g.rows (y + 1) = [] := by
        rw [Paper.window, List.getD_eq_getElem?_getD, List.getElem?_eq_none (by omega)]
        rfl
      rw [hnone]
      rfl
    case isFalse hlast =>
      have hnext : y * g.cols + x + g.cols = (y + 1) * g.cols + x := by
        rw [Nat.succ_mul]
        omega
      rw [if_pos ⟨Nat.zero_le _, by omega⟩, hnext, h.cell x hx (y + 1) (by omega)]
      rfl
  case isFalse => exact h.cell x hx y hy

/-- In text mode the margins are those of the screen, so scrolling moves all of
it. -/
theorem TextMode.scroll_run {ctx : Context} (hmode : TextMode g ctx) (m : ℕ → FbChar) :
    (scroll g ctx).run g.cells m = some ((), lineUp g 0 g.rows (empty ctx) m) := by
  have htop : ctx.scrollTopMargin < ctx.scrollBottomMargin := by
    rw [hmode.top, hmode.bottom]
    exact g.rows_pos
  have hrun := Flanterm.scroll_run ctx htop hmode.bottom.le m
  rwa [hmode.top, hmode.bottom] at hrun

/-- **A line feed begins a new line of the paper**. In the last row the screen
scrolls and the cursor stays in it, in any other the cursor goes down. -/
theorem lineFeed_run {ctx : Context} {p : Paper (BitVec 8)} {m : ℕ → FbChar}
    (hmode : TextMode g ctx) (h : OnPaper g ctx p m) :
    ∃ m', (lineFeed g 0 (cursorPosY g ctx) ctx).run g.cells m =
      some (ctx.at 0 (p.newline.row g.rows), m') ∧
      OnPaper g (ctx.at 0 (p.newline.row g.rows)) p.newline m' := by
  have hrows := g.rows_pos
  have hy : cursorPosY g ctx = p.row g.rows := by
    have hlt : p.row g.rows < g.rows := by
      rw [Paper.row]
      omega
    rw [cursorPosY, h.cursorY, if_neg (by omega)]
  refine ⟨_, ?_, h.newline⟩
  rw [lineFeed, hy, hmode.bottom, p.row_newline hrows]
  -- at the bottom the screen scrolls and the cursor stays in its row
  by_cases hfull : g.rows ≤ p.lines.length
  · have hlast : p.row g.rows = g.rows - 1 := by
      rw [Paper.lines_length] at hfull
      rw [Paper.row]
      omega
    rw [if_pos hlast, if_pos hfull, if_pos hfull, run_bind, hmode.scroll_run]
    show some (setCursorPos g 0 (p.row g.rows) ctx, _) = _
    rw [setCursorPos_eq, clampPos_of_lt g.cols_pos, clampPos_of_lt (by omega)]
  · have hnext : p.row g.rows + 1 < g.rows := by
      rw [Paper.lines_length] at hfull
      rw [Paper.row]
      omega
    rw [if_neg (by omega), if_neg hfull, if_neg hfull, run_pure, setCursorPos_eq,
      clampPos_of_lt g.cols_pos, clampPos_of_lt hnext]

/-- The cursor goes from the end of a full line to a new one. The source first
moves it down and scrolls if that took it below the screen; the row is then
compared with `cols`, which is where `hwide` is used. -/
theorem wrapCursor_run {ctx : Context} {p : Paper (BitVec 8)} {m : ℕ → FbChar}
    (hmode : TextMode g ctx) (hwide : g.rows ≤ g.cols) (h : OnPaper g ctx p m)
    (hfullLine : p.cur.length = g.cols) :
    ∃ m', (wrapCursor g ctx).run g.cells m = some (ctx.at 0 (p.newline.row g.rows), m') ∧
      OnPaper g (ctx.at 0 (p.newline.row g.rows)) p.newline m' := by
  have hrows := g.rows_pos
  refine ⟨_, ?_, h.newline⟩
  have hcond : g.cols ≤ ctx.cursorX ∧
      (ctx.cursorY < ctx.scrollBottomMargin - 1 ∨ ctx.scrollEnabled = true) :=
    ⟨by rw [h.cursorX, hfullLine], .inr hmode.scrolls⟩
  rw [wrapCursor, if_pos hcond, run_bind, p.row_newline hrows, h.cursorY]
  by_cases hfull : g.rows ≤ p.lines.length
  · -- on the last line of the screen the text moves up
    have hlast : p.row g.rows + 1 = g.rows := by
      rw [Paper.lines_length] at hfull
      rw [Paper.row]
      omega
    have hmargin : (scrollAtMargin g (ctx.at 0 (p.row g.rows + 1))).run g.cells m =
        some (ctx.at 0 (p.row g.rows), lineUp g 0 g.rows (empty ctx) m) := by
      have hcond : (ctx.at 0 (p.row g.rows + 1)).cursorY =
          (ctx.at 0 (p.row g.rows + 1)).scrollBottomMargin := hlast.trans hmode.bottom.symm
      rw [scrollAtMargin, if_pos hcond]
      show (scroll g (ctx.at 0 (p.row g.rows)) >>= fun _ => pure _).run g.cells m = _
      rw [run_bind, (hmode.at 0 _).scroll_run]
      rfl
    rw [hmargin, if_pos hfull, if_pos hfull]
    -- the test of the row against `cols` never holds on a wide screen
    show some (if g.cols ≤ p.row g.rows then _ else _, _) = _
    rw [if_neg (by omega)]
  · have hnext : p.row g.rows + 1 < g.rows := by
      rw [Paper.lines_length] at hfull
      rw [Paper.row]
      omega
    have hmargin : (scrollAtMargin g (ctx.at 0 (p.row g.rows + 1))).run g.cells m =
        some (ctx.at 0 (p.row g.rows + 1), m) := by
      have hcond : ¬(ctx.at 0 (p.row g.rows + 1)).cursorY =
          (ctx.at 0 (p.row g.rows + 1)).scrollBottomMargin := by
        show ¬p.row g.rows + 1 = ctx.scrollBottomMargin
        rw [hmode.bottom]
        omega
      rw [scrollAtMargin, if_neg hcond]
      rfl
    rw [hmargin, if_neg hfull, if_neg hfull]
    show some (if g.cols ≤ p.row g.rows + 1 then _ else _, _) = _
    rw [if_neg (by omega)]

/-- A character within the row: the cell under the cursor changes, and the text
grows by one. -/
theorem pushChar_run {ctx : Context} {p : Paper (BitVec 8)} {m : ℕ → FbChar} (h : OnPaper g ctx p m)
    (hroom : p.cur.length < g.cols) (c : BitVec 8) :
    ∃ m', (pushToQueue g ⟨c, ctx.textFg, ctx.textBg⟩ ctx.cursorX ctx.cursorY).run g.cells m =
      some ((), m') ∧
      OnPaper g (ctx.at (ctx.cursorX + 1) ctx.cursorY) ⟨p.done, p.cur ++ [c]⟩ m' := by
  have hrows := g.rows_pos
  have hrow : p.row g.rows < g.rows := by
    rw [Paper.row]
    omega
  rw [h.cursorX, h.cursorY]
  refine ⟨_, run_pushToQueue _ hroom hrow m, ?_, rfl, ?_, ?_⟩
  · show p.cur.length + 1 = (p.cur ++ [c]).length
    rw [List.length_append, List.length_singleton]
  · rw [List.length_append, List.length_singleton]
    exact hroom
  · intro x hx y hy
    rw [p.window_put c hy]
    -- the line of the cursor: its new cell, or one that was there
    by_cases hline : y = p.row g.rows
    · subst hline
      rw [if_pos rfl, List.getD_eq_getElem?_getD]
      by_cases hxc : x = p.cur.length
      · subst hxc
        rw [Function.update_self, List.getElem?_concat_length]
        rfl
      · have hne : p.row g.rows * g.cols + x ≠ p.row g.rows * g.cols + p.cur.length := by omega
        rw [Function.update_of_ne hne, h.cell x hx _ hrow, p.window_row hrows,
          List.getD_eq_getElem?_getD, List.getElem?_append]
        split
        · rfl
        · rw [List.getElem?_eq_none (by omega : p.cur.length ≤ x),
            List.getElem?_eq_none (by simp; omega)]
          rfl
    · have hne : y * g.cols + x ≠ p.row g.rows * g.cols + p.cur.length := by
        intro heq
        exact hline (index_inj hx hroom heq).1
      rw [if_neg hline, Function.update_of_ne hne]
      exact h.cell x hx y hy

/--
**One printable character.** In a row with room it is put at the cursor. Behind
the last column the row is full, and the character begins a new one; that is
when the wrap happens, not when the row fills.
-/
theorem rawPutchar_run {ctx : Context} {p : Paper (BitVec 8)} {m : ℕ → FbChar}
    (hmode : TextMode g ctx) (hwide : g.rows ≤ g.cols) (h : OnPaper g ctx p m) (c : BitVec 8) :
    ∃ x y m', (rawPutchar g c ctx).run g.cells m = some (ctx.at x y, m') ∧
      OnPaper g (ctx.at x y) (p.print g.cols c) m' := by
  rw [rawPutchar, run_bind, Paper.print]
  by_cases hroom : p.cur.length < g.cols
  · -- the cursor is within the row, nothing wraps
    have hstay : wrapCursor g ctx = pure ctx := by
      rw [wrapCursor, if_neg]
      rw [h.cursorX]
      omega
    obtain ⟨m', hpush, hpaper⟩ := pushChar_run h hroom c
    rw [if_pos hroom, hstay]
    refine ⟨_, _, m', ?_, hpaper⟩
    show (pushToQueue g _ _ _ >>= fun _ => pure _ : Screen Context).run g.cells m = _
    rw [run_bind, hpush]
    rfl
  · -- the row is full: the character goes to a new one
    have hfull : p.cur.length = g.cols := Nat.le_antisymm h.width (by omega)
    obtain ⟨m₁, hwrap, hnew⟩ := wrapCursor_run hmode hwide h hfull
    obtain ⟨m', hpush, hpaper⟩ := pushChar_run hnew g.cols_pos c
    rw [if_neg hroom, hwrap]
    refine ⟨_, _, m', ?_, hpaper⟩
    show (pushToQueue g _ _ _ >>= fun _ => pure _ : Screen Context).run g.cells m₁ = _
    rw [run_bind, hpush]
    rfl

-- ---------------------------------------------------------------------------
-- Bytes
-- ---------------------------------------------------------------------------

/-- A byte that is printed as it is. -/
def Printable (c : BitVec 8) : Prop := 0x20 ≤ c.toNat ∧ c.toNat ≤ 0x7e

instance (c : BitVec 8) : Decidable (Printable c) := inferInstanceAs (Decidable (_ ∧ _))

/-- A printable byte in text mode goes through all the tests of
`flanterm_putchar` and ends in `raw_putchar` with itself. -/
theorem putchar_printable {ctx : Context} {c : BitVec 8} (hmode : TextMode g ctx)
    (hc : Printable c) : putchar g c ctx = rawPutchar g c ctx := by
  obtain ⟨hlow, hhigh⟩ := hc
  -- no control character is in the printable range
  have hne : ∀ k : BitVec 8, k.toNat < 0x20 ∨ 0x7e < k.toNat → c ≠ k := by
    rintro k hk rfl
    omega
  have htranslate : translate c ctx = c := by
    rw [translate, hmode.charset, if_neg (Nat.zero_ne_one)]
    exact if_pos ⟨hlow, hhigh⟩
  -- neither charset nor insert mode changes it
  have hprint : putPrintable g c ctx = rawPutchar g c ctx := by
    have hroom : insertRoom g ctx = pure () := by
      rw [insertRoom, hmode.insertMode]
      exact if_neg Bool.false_ne_true
    rw [putPrintable, hroom, htranslate, check, if_pos hmode.charset_lt]
    rfl
  have hcontrol : putControl g c ctx = putPrintable g c ctx := by
    simp only [putControl, hne 0x00#8 (by simp), hne 0x7f#8 (by simp), hne 0x1b#8 (by simp),
      hne 0x09#8 (by simp), hne 0x0b#8 (by simp), hne 0x0c#8 (by simp), hne 0x0a#8 (by simp),
      hne 0x08#8 (by simp), hne 0x0d#8 (by simp), hne 0x07#8 (by simp), hne 14#8 (by simp),
      hne 15#8 (by simp), or_self, if_false]
  rw [putchar, if_neg (by simp [hmode.discardNext, hne 0x18#8, hne 0x1a#8]),
    if_neg (by simp [hmode.unicodeRemaining]), putcharStart, if_neg (by omega),
    if_neg (by simp [hmode.escape]), if_neg (by simp [hmode.gSelect]), hcontrol, hprint]

/-- So does a line feed, which goes to column 0 as well, since the context
begins with `FLANTERM_OOB_OUTPUT_ONLCR`. -/
theorem putchar_newline {ctx : Context} (hmode : TextMode g ctx) :
    putchar g 0x0a#8 ctx = lineFeed g 0 (cursorPosY g ctx) ctx := by
  rw [putchar, if_neg (by simp [hmode.discardNext]), if_neg (by simp [hmode.unicodeRemaining]),
    putcharStart, if_neg (by simp), if_neg (by simp [hmode.escape]),
    if_neg (by simp [hmode.gSelect])]
  show lineFeed g (if ctx.oobOutput &&& 0x10 ≠ 0 then 0 else cursorPosX g ctx) _ ctx = _
  rw [if_pos hmode.onlcr]

-- ---------------------------------------------------------------------------
-- Characters
-- ---------------------------------------------------------------------------

/-- A character that is typed. -/
def Typeable (c : Char) : Prop := c = '\n' ∨ Printable (byte c) ∧ c.toNat < 0x80 ∨ 0x80 ≤ c.toNat

instance (c : Char) : Decidable (Typeable c) := inferInstanceAs (Decidable (_ ∨ _ ∨ _))

/-- What a character looks like: as in the code page, or as squares in as many
columns as it has. -/
def look (c : Char) : List (BitVec 8) :=
  if c.toNat < 0x80 then [byte c]
  else
    match unicodeToCp437 c.toNat with
    | some b => [b]
    | none =>
      if InTable c.toNat combining then [] else if wide c.toNat then [0xfe, byte ' '] else [0xfe]

/-- The same on paper. -/
def strokes (c : Char) : List (Option (BitVec 8)) :=
  if c = '\n' then [none] else (look c).map some

/-- The context is fit for the next character, and the colours are the same. -/
structure Onward (g : FbConfig) (ctx ctx' : Context) : Prop where
  mode : TextMode g ctx'
  textFg : ctx'.textFg = ctx.textFg
  textBg : ctx'.textBg = ctx.textBg

/-- Another place of the cursor is one step onward, -/
theorem TextMode.onward_at {ctx : Context} (h : TextMode g ctx) (x y : ℕ) :
    Onward g ctx (ctx.at x y) := ⟨h.at x y, rfl, rfl⟩

/-- and steps follow one another. -/
theorem Onward.trans {ctx ctx' ctx'' : Context} (h : Onward g ctx ctx') (h' : Onward g ctx' ctx'') :
    Onward g ctx ctx'' := ⟨h'.mode, h'.textFg.trans h.textFg, h'.textBg.trans h.textBg⟩

/-- A character that the code page does not have: nothing for a combining one,
the square for any other, and a blank behind it for one that is two columns
wide. -/
theorem putReplacement_run {ctx : Context} {p : Paper (BitVec 8)} {m : ℕ → FbChar}
    (hmode : TextMode g ctx) (hwide : g.rows ≤ g.cols) (h : OnPaper g ctx p m) {c : Char}
    (hc : unicodeToCp437 c.toNat = none) (hmany : 0x80 ≤ c.toNat) :
    ∃ ctx' m', (putReplacement g (if c.toNat = 0 ∨ InTable c.toNat combining then 0
        else if wide c.toNat then 2 else 1) ctx).run g.cells m = some (ctx', m') ∧
      Onward g ctx ctx' ∧ OnPaper g ctx' ((strokes c).foldl (Paper.type g.cols) p) m' := by
  have hline : c ≠ '\n' := by
    rintro rfl
    exact absurd hmany (by decide)
  have hzero : c.toNat ≠ 0 := by omega
  have hlook : look c = if InTable c.toNat combining then [] else
      if wide c.toNat then [0xfe, byte ' '] else [0xfe] := by
    rw [look, if_neg (by omega), hc]
  rw [strokes, if_neg hline, hlook]
  by_cases hcombining : InTable c.toNat combining
  · rw [if_pos (.inr hcombining), if_pos hcombining]
    exact ⟨ctx, m, rfl, hmode.onward_at _ _, h⟩
  · rw [if_neg (by simp [hzero, hcombining]), if_neg hcombining]
    obtain ⟨x, y, m₁, hrun, hpaper⟩ := rawPutchar_run hmode hwide h 0xfe
    -- a wide character leaves a blank behind the replacement
    by_cases hdouble : wide c.toNat = true
    · obtain ⟨x', y', m₂, hblank, hpaper'⟩ :=
        rawPutchar_run (hmode.at x y) hwide hpaper (byte ' ')
      rw [if_pos hdouble, if_pos hdouble]
      refine ⟨_, m₂, ?_, hmode.onward_at x' y', hpaper'⟩
      show (rawPutchar g 0xfe ctx >>= fun ctx => rawPutchar g (byte ' ') ctx >>= pure).run _ _ = _
      rw [run_bind, hrun]
      show (rawPutchar g (byte ' ') (ctx.at x y) >>= pure).run _ _ = _
      rw [bind_pure, hblank]
      rfl
    · rw [if_neg hdouble, if_neg hdouble]
      refine ⟨_, m₁, ?_, hmode.onward_at x y, hpaper⟩
      show (rawPutchar g 0xfe ctx >>= pure).run _ _ = _
      rw [bind_pure, hrun]

/--
**Step.** One character of a text, in all its bytes. A line feed, a printable
byte or an encoded character from 0x80 on: each leaves the terminal in text
mode and the screen on the paper with the strokes of the character typed.
-/
theorem char_run {ctx : Context} {p : Paper (BitVec 8)} {m : ℕ → FbChar} (hmode : TextMode g ctx)
    (hwide : g.rows ≤ g.cols) (h : OnPaper g ctx p m) {c : Char} (hc : Typeable c) :
    ∃ ctx' m', (putBytes g (utf8Bytes c) ctx).run g.cells m = some (ctx', m') ∧
      Onward g ctx ctx' ∧ OnPaper g ctx' ((strokes c).foldl (Paper.type g.cols) p) m' := by
  -- a line feed, a byte of its own, or several bytes
  obtain rfl | ⟨hprintable, hascii⟩ | hmany := hc
  · obtain ⟨m', hrun, hpaper⟩ := lineFeed_run hmode h
    refine ⟨_, m', ?_, hmode.onward_at _ _, hpaper⟩
    show (putchar g 0x0a#8 ctx >>= pure).run _ _ = _
    rw [bind_pure, putchar_newline hmode]
    exact hrun
  · obtain ⟨x, y, m', hrun, hpaper⟩ := rawPutchar_run hmode hwide h (byte c)
    have hbytes : utf8Bytes c = [byte c] := by
      rw [utf8Bytes, String.utf8EncodeChar,
        if_pos (show c.val.toNat ≤ 0x7f from Nat.le_of_lt_succ hascii)]
      rfl
    have hline : c ≠ '\n' := by
      rintro rfl
      exact absurd hprintable (by decide)
    rw [hbytes, strokes, if_neg hline, look, if_pos hascii]
    refine ⟨_, m', ?_, hmode.onward_at x y, hpaper⟩
    show (putchar g (byte c) ctx >>= pure).run _ _ = _
    rw [bind_pure, putchar_printable hmode hprintable, hrun]
  · rw [utf8_run hmode.discardNext hmode.unicodeRemaining hmany]
    have hlt : c.toNat < 2 ^ 32 := c.val.toBitVec.isLt
    have honward : Onward g ctx (ctx.decodes 0 (BitVec.ofNat 64 c.toNat)) :=
      ⟨{ hmode with unicodeRemaining := rfl }, rfl, rfl⟩
    have hpaper : OnPaper g (ctx.decodes 0 (BitVec.ofNat 64 c.toNat)) p m := { h with }
    have hcode : (ctx.decodes 0 (BitVec.ofNat 64 c.toNat)).codePoint.toNat = c.toNat := by
      show (BitVec.ofNat 64 c.toNat).toNat = c.toNat
      rw [BitVec.toNat_ofNat, Nat.mod_eq_of_lt (by omega)]
    show ∃ ctx' m', (putCodePoint g (ctx.decodes 0 (BitVec.ofNat 64 c.toNat))).run g.cells m = _ ∧ _
    rw [putCodePoint, hcode, Nat.mod_eq_of_lt hlt, mkWcwidth_eq]
    cases hpage : unicodeToCp437 c.toNat with
    | some b =>
      obtain ⟨x, y, m', hrun, hpaper'⟩ := rawPutchar_run honward.mode hwide hpaper b
      have hstrokes : strokes c = [some b] := by
        have hline : c ≠ '\n' := by
          rintro rfl
          exact absurd hmany (by decide)
        rw [strokes, if_neg hline, look, if_neg (by omega), hpage]
        rfl
      rw [hstrokes]
      exact ⟨_, m', hrun, honward.trans (honward.mode.onward_at x y), hpaper'⟩
    | none =>
      obtain ⟨ctx', m', hrun, honward', hpaper'⟩ :=
        putReplacement_run honward.mode hwide hpaper hpage hmany
      exact ⟨ctx', m', hrun, honward.trans honward', hpaper'⟩

/-- **Run.** A whole text, by induction on its characters: each leaves the
terminal in text mode, with the rows of the sheet on its screen. -/
theorem text_run {ctx : Context} {p : Paper (BitVec 8)} {m : ℕ → FbChar} (hmode : TextMode g ctx)
    (hwide : g.rows ≤ g.cols) (h : OnPaper g ctx p m) {text : List Char}
    (htext : ∀ c ∈ text, Typeable c) :
    ∃ ctx' m', (putBytes g (text.flatMap utf8Bytes) ctx).run g.cells m = some (ctx', m') ∧
      Onward g ctx ctx' ∧
      OnPaper g ctx' ((text.flatMap strokes).foldl (Paper.type g.cols) p) m' := by
  induction text generalizing ctx p m with
  | nil => exact ⟨ctx, m, rfl, hmode.onward_at _ _, h⟩
  | cons c text ih =>
    obtain ⟨ctx₁, m₁, hrun, honward, hpaper⟩ := char_run hmode hwide h (htext c List.mem_cons_self)
    obtain ⟨ctx', m', hrun', honward', hpaper'⟩ :=
      ih honward.mode hpaper fun c' hc' => htext c' (List.mem_cons_of_mem c hc')
    rw [List.flatMap_cons, List.flatMap_cons, List.foldl_append, putBytes_append]
    refine ⟨ctx', m', ?_, honward.trans honward', hpaper'⟩
    rw [run_bind, hrun]
    exact hrun'

-- ---------------------------------------------------------------------------
-- From the start
-- ---------------------------------------------------------------------------

/-- The terminal begins in text mode. -/
theorem startContext_text (g : FbConfig) : TextMode g (startContext g) where
  discardNext := rfl
  unicodeRemaining := rfl
  escape := rfl
  gSelect := rfl
  insertMode := rfl
  charset_lt := Nat.zero_lt_two
  charset := rfl
  scrolls := rfl
  onlcr := by
    show (0x10#64 &&& 0x10#64) ≠ 0
    decide
  top := rfl
  bottom := rfl
  osc := rfl
  controlSequence := rfl
  decPrivate := rfl

/-- The screen that shows the end of the paper. -/
def paperScreen (g : FbConfig) (p : Paper (BitVec 8)) (i : ℕ) : FbChar :=
  ⟨(p.window g.rows (i / g.cols)).getD (i % g.cols) (byte ' '), g.defaultFg, 0xffffffff⟩

/-- A sheet without a line. -/
theorem OnPaper.blank {ctx : Context} {m : ℕ → FbChar} (hx : ctx.cursorX = 0)
    (hy : ctx.cursorY = 0) (hcell : ∀ i < g.cells, m i = ⟨byte ' ', ctx.textFg, ctx.textBg⟩) :
    OnPaper g ctx ⟨[], []⟩ m := by
  refine ⟨hx, hy.trans (Nat.zero_min _).symm, Nat.zero_le _, ?_⟩
  intro x hxc y hyr
  -- every line of the window is empty, the one line of the sheet and those above it
  have hwindow : (⟨[], []⟩ : Paper (BitVec 8)).window g.rows y = [] := by
    show ([[]] : List (List (BitVec 8))).getD (1 - g.rows + y) [] = []
    cases 1 - g.rows + y <;> rfl
  rw [hcell _ (index_lt hxc hyr), hwindow]
  rfl

/-- And with a blank sheet. -/
theorem startContext_onPaper (g : FbConfig) :
    OnPaper g (startContext g) ⟨[], []⟩ fun _ => g.blank :=
  OnPaper.blank rfl rfl fun _ _ => rfl

/-- The terminal after its initialisation, as a sheet. -/
theorem startMachine_paper (g : FbConfig) (framebuffer : ℕ → BitVec 32) :
    ∃ s, startMachine g framebuffer = some s ∧ MachineOk g s ∧ TextMode g s.ctx ∧
      OnPaper g s.ctx ⟨[], []⟩ s.screen := by
  obtain ⟨s, hstart, hok, hctx, hscreen, -⟩ := startMachine_ok g framebuffer
  refine ⟨s, hstart, hok, ?_, ?_⟩
  · rw [hctx]
    exact startContext_text g
  · rw [hctx, hscreen]
    exact startContext_onPaper g

/-- What is displayed are the cells of the screen, and no others. -/
theorem Displays.congr {fb : ℕ → BitVec 32} {ctx : Context} {m m' : ℕ → FbChar}
    (h : Displays g fb ctx m)
    (heq : ∀ x < g.cols, ∀ y < g.rows, m (y * g.cols + x) = m' (y * g.cols + x)) :
    Displays g fb ctx m' := by
  intro x hx y hy
  rw [← heq x hx y hy]
  exact h x hx y hy

/--
**The terminal is a typewriter.** On a screen at least as wide as it is high,
any text whose characters are printable leaves the picture of the last rows of
a sheet on which it was typed: no character is lost or doubled
(`Paper.flatten_lines`), no line is longer than the screen is wide, and the
cursor stands behind the last character. The bytes may be cut into calls of
`flanterm_write` anywhere, also in the middle of a character.
-/
theorem typewriter (hwide : g.rows ≤ g.cols) (framebuffer : ℕ → BitVec 32) {text : List Char}
    (htext : ∀ c ∈ text, Typeable c) {writes : List (List (BitVec 8))}
    (hwrites : writes.flatten = text.flatMap utf8Bytes) :
    ∃ s p, runMachine g framebuffer writes = some s ∧
      p = Paper.typed g.cols (text.flatMap strokes) ∧
      p.lines.flatten = (text.flatMap strokes).flatMap Option.toList ∧
      (∀ l ∈ p.lines, l.length ≤ g.cols) ∧
      s.ctx.cursorX = p.cur.length ∧ s.ctx.cursorY = p.row g.rows ∧
      Displays g s.fb.framebuffer s.ctx (paperScreen g p) := by
  obtain ⟨s, hrun, hok, hplain, -⟩ := runMachine_ok g framebuffer writes
  obtain ⟨ctx, m, htyped, honward, hpaper⟩ :=
    text_run (startContext_text g) hwide (startContext_onPaper g) htext
  rw [plainWrite, hwrites, htyped] at hplain
  obtain ⟨hctx, hscreen⟩ := Prod.mk.inj (Option.some.inj hplain)
  refine ⟨s, _, hrun, rfl, Paper.flatten_lines _ _, Paper.length_le g.cols_pos _, ?_, ?_,
    hok.displays.congr ?_⟩
  · rw [← hctx]
    exact hpaper.cursorX
  · rw [← hctx]
    exact hpaper.cursorY
  · intro x hx y hy
    rw [← hscreen, hpaper.cell x hx y hy, paperScreen, index_div y hx, index_mod y hx,
      honward.textFg, honward.textBg]
    rfl

/-- Two lines, a call ending in the middle of a character: the two bytes of `é`
come in two calls and make one cell. -/
theorem typewriter_lines :
    ∃ s, runMachine xgaConfig (fun _ => 0) [[byte 'a', 0xc3], [0xa9, 0x0a], [byte 'c']] = some s ∧
      s.ctx.cursorX = 1 ∧ s.ctx.cursorY = 1 := by
  have hwide : xgaConfig.rows ≤ xgaConfig.cols := by decide
  have htext : ∀ c ∈ ['a', 'é', '\n', 'c'], Typeable c := by
    intro c hc
    simp only [List.mem_cons, List.not_mem_nil, or_false] at hc
    obtain rfl | rfl | rfl | rfl := hc <;> decide
  obtain ⟨s, p, hrun, rfl, -, -, hx, hy, -⟩ := typewriter hwide (fun _ => 0) htext
    (show [[byte 'a', 0xc3], [0xa9, 0x0a], [byte 'c']].flatten = _ by decide)
  exact ⟨s, hrun, hx.trans (by decide), hy.trans (by decide)⟩

end Flanterm
