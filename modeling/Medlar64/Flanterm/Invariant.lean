import Medlar64.Flanterm.Terminal

/-!
# Flanterm: the invariant of the terminal

Every byte keeps the data of the terminal in order and stays on the screen,
whatever characters the screen holds. That is the memory safety of
`flanterm_putchar`: it indexes its arrays by counters, colour numbers and
character set numbers that earlier bytes have left behind, and none of these
leaves its range.

* `TermOk` — counters, colour numbers, character sets and margins are in range.
* `Good` — also the cursor: at most one column behind the last one.
* `Ready` — between two bytes, with `scroll_enabled` on.
* `Ready.putchar` — one byte keeps the invariant, `Ready.putBytes` — a string.

Each function of the source has one lemma under its own name. A function that
needs no cursor on the screen assumes `TermOk`, one that leaves the cursor
there gives `Good` back, and what runs between two bytes keeps `Ready`.
-/

namespace Flanterm

open ArrayProg

/-- The data of the terminal but for the cursor and `scroll_enabled`: the count
of parsed values fits their array, the numbers that index the palettes and the
character sets are below their lengths, and the margins lie inside the screen
in their order. -/
structure TermOk (g : FbConfig) (ctx : Context) : Prop where
  escValuesI_le : ctx.escValuesI ≤ maxEscValues
  rrr_lt : ctx.rrr = true → ctx.escValuesI < maxEscValues
  gSelect_le : ctx.gSelect ≤ 2
  charset_lt : ctx.currentCharset < 2
  savedCharset_lt : ctx.savedStateCurrentCharset < 2
  primary_lt : ∀ n ∈ ctx.currentPrimary, n < 8
  bg_lt : ∀ n ∈ ctx.currentBg, n < 8
  savedPrimary_lt : ∀ n ∈ ctx.savedStateCurrentPrimary, n < 8
  savedBg_lt : ∀ n ∈ ctx.savedStateCurrentBg, n < 8
  top_lt : ctx.scrollTopMargin < ctx.scrollBottomMargin
  bottom_le : ctx.scrollBottomMargin ≤ g.rows
  tabSize_eq : ctx.tabSize = 8
  autoflush_eq : ctx.autoflush = true
  savedX_le : ctx.savedStateCursorX ≤ g.cols
  savedY_lt : ctx.savedStateCursorY < max g.rows g.cols

/-- The cursor is on the screen, or behind its line. The line can exceed
`rows` where there are more columns than rows. -/
structure CursorIn (g : FbConfig) (x y : ℕ) : Prop where
  x_le : x ≤ g.cols
  y_lt : y < max g.rows g.cols

/-- The terminal with its cursor in range. Control sequences keep this much
even while they have `scroll_enabled` off. -/
structure Good (g : FbConfig) (ctx : Context) : Prop extends TermOk g ctx where
  cursor : CursorIn g ctx.cursorX ctx.cursorY

/-- Between two bytes: `scroll_enabled` is on, which only a control sequence
turns off, for as long as it runs. -/
structure Ready (g : FbConfig) (ctx : Context) : Prop extends Good g ctx where
  scrolls : ctx.scrollEnabled = true

variable {g : FbConfig} {ctx : Context}

/-- Where the cursor is does not bear on the rest of the terminal. -/
theorem TermOk.at (h : TermOk g ctx) (x y : ℕ) : TermOk g (ctx.at x y) := { h with }

-- ---------------------------------------------------------------------------
-- The cursor
-- ---------------------------------------------------------------------------

/-- `set_cursor_pos` brings either coordinate back below its bound. -/
theorem clampPos_lt {x limit : ℕ} (h : 0 < limit) : clampPos x limit < limit := by
  rw [clampPos]
  split_ifs <;> omega

theorem clampPos_of_lt {x limit : ℕ} (h : x < limit) : clampPos x limit = x :=
  if_neg (Nat.not_le.mpr h)

/-- `get_cursor_pos` answers with a column of the screen, wherever the cursor
is. -/
theorem cursorPosX_lt (g : FbConfig) (ctx : Context) : cursorPosX g ctx < g.cols := by
  have := g.cols_pos
  rw [cursorPosX]
  split_ifs <;> omega

/-- And with a row of it. -/
theorem cursorPosY_lt (g : FbConfig) (ctx : Context) : cursorPosY g ctx < g.rows := by
  have := g.rows_pos
  rw [cursorPosY]
  split_ifs <;> omega

/-- `set_cursor_pos` writes the two clamped coordinates and nothing else. -/
theorem setCursorPos_eq (g : FbConfig) (x y : ℕ) (ctx : Context) :
    setCursorPos g x y ctx = ctx.at (clampPos x g.cols) (clampPos y g.rows) := rfl

theorem CursorIn.of_lt {x y : ℕ} (hx : x < g.cols) (hy : y < g.rows) : CursorIn g x y :=
  ⟨hx.le, lt_of_lt_of_le hy (le_max_left _ _)⟩

/-- The cursor can be set anywhere: the clamp makes `Good` of `TermOk`, so the
sequences that end with `set_cursor_pos` need not know where the cursor was. -/
theorem TermOk.setCursorPos (h : TermOk g ctx) (x y : ℕ) : Good g (setCursorPos g x y ctx) :=
  { h with cursor := .of_lt (clampPos_lt g.cols_pos) (clampPos_lt g.rows_pos) }

-- ---------------------------------------------------------------------------
-- The screen
-- ---------------------------------------------------------------------------

/-- A cell outside the screen is refused before its index is used. -/
theorem pushToQueue_safe (c : FbChar) (x y : ℕ) :
    (pushToQueue g c x y).Safe g.cells fun _ => True := by
  rw [pushToQueue]
  split
  case isTrue => exact trivial
  case isFalse h =>
    obtain ⟨hx, hy⟩ := not_or.mp h
    exact .write (index_lt (by omega) (by omega))

/-- A loop that moves characters reads its own index, which its bounds keep
inside the screen, and writes through the queue, which checks. -/
theorem moveLoop_safe {l : List ℕ} (hl : ∀ i ∈ l, i < g.cells) (x y : ℕ → ℕ) :
    (l.forM fun i => do
      let c ← read i
      pushToQueue g c (x i) (y i) : Screen PUnit).Safe g.cells fun _ => True :=
  .forM fun i hi => (Safe.read (hl i hi) fun _ => trivial).bind fun c _ => pushToQueue_safe c _ _

/-- Scrolling down reads up to the line before the bottom margin. -/
theorem revscroll_safe (h : ctx.scrollBottomMargin ≤ g.rows) :
    (revscroll g ctx).Safe g.cells fun _ => True := by
  refine (moveLoop_safe ?_ _ _).bind fun _ _ =>
    .forM fun i _ => pushToQueue_safe _ _ _
  intro i hi
  have hle : (ctx.scrollBottomMargin - 1) * g.cols ≤ g.rows * g.cols :=
    Nat.mul_le_mul_right _ (by omega)
  exact lt_of_lt_of_le (mem_downFrom.mp hi).2 hle

/-- Scrolling up reads up to the bottom margin. The cells it writes are one
line further up, and the queue refuses what that takes off the screen. -/
theorem scroll_safe (h : ctx.scrollBottomMargin ≤ g.rows) :
    (scroll g ctx).Safe g.cells fun _ => True := by
  refine (moveLoop_safe ?_ _ _).bind fun _ _ =>
    .forM fun i _ => pushToQueue_safe _ _ _
  intro i hi
  exact lt_of_lt_of_le (mem_upTo.mp hi).2 (Nat.mul_le_mul_right _ h)

/-- Clearing writes every cell and moves the cursor home when it is told to. -/
theorem clear_safe (move : Bool) (ctx : Context) :
    (clear g move ctx).Safe g.cells fun ctx' => ctx' = if move then ctx.at 0 0 else ctx :=
  Safe.bind (Safe.forM fun _ _ => pushToQueue_safe _ _ _) fun _ _ => .pure rfl

/-- `move_character` checks both cells, so any four coordinates are safe. -/
theorem moveCharacter_safe (newX newY oldX oldY : ℕ) :
    (moveCharacter g newX newY oldX oldY).Safe g.cells fun _ => True := by
  rw [moveCharacter]
  split
  case isTrue => exact trivial
  case isFalse h =>
    have hlt : oldY * g.cols + oldX < g.cells := index_lt (by omega) (by omega)
    rw [Nat.add_comm] at hlt
    exact (Safe.read hlt fun _ => trivial).bind fun c _ => pushToQueue_safe c _ _

/-- Where a character is put, and where the cursor is after it: in the column
the cursor was in, if that was one of the screen, and in any case on the screen
while the terminal scrolls. -/
structure Put (g : FbConfig) (ctx : Context) (x y : ℕ) : Prop where
  inside : ctx.cursorX < g.cols → x = ctx.cursorX ∧ y = ctx.cursorY
  scrolls : ctx.scrollEnabled = true → CursorIn g ctx.cursorX ctx.cursorY →
    x < g.cols ∧ y < max g.rows g.cols

/-- At the bottom margin the screen moves instead of the cursor; only the line
of the cursor can change. -/
theorem scrollAtMargin_safe (ctx : Context) (h : ctx.scrollBottomMargin ≤ g.rows) :
    (scrollAtMargin g ctx).Safe g.cells fun ctx' => ∃ y, ctx' = ctx.at ctx.cursorX y := by
  rw [scrollAtMargin]
  split
  case isTrue => exact (scroll_safe h).bind fun _ _ => .pure ⟨ctx.cursorY - 1, rfl⟩
  case isFalse => exact .pure ⟨ctx.cursorY, rfl⟩

/-- The wrap before a character gives it a place on the screen. A cursor beyond
the last column goes to the next line, and at the bottom margin the screen
scrolls. Without scrolling it may stay beyond the last column, where nothing is
put. -/
theorem wrapCursor_safe (h : ctx.scrollBottomMargin ≤ g.rows) :
    (wrapCursor g ctx).Safe g.cells fun ctx' => ∃ x y, ctx' = ctx.at x y ∧ Put g ctx x y := by
  have hcols := g.cols_pos
  rw [wrapCursor]
  split
  case isFalse hstay =>
    -- while the terminal scrolls, only a cursor in its line stays
    refine .pure ⟨ctx.cursorX, ctx.cursorY, rfl, fun _ => ⟨rfl, rfl⟩, ?_⟩
    intro hscroll hin
    rw [not_and_or, not_or] at hstay
    refine ⟨?_, hin.y_lt⟩
    obtain hlt | ⟨-, hno⟩ := hstay
    · exact Nat.not_le.mp hlt
    · exact absurd hscroll hno
  case isTrue hwrap =>
    refine (scrollAtMargin_safe (ctx.at 0 (ctx.cursorY + 1)) h).bind ?_
    rintro ctx' ⟨y, rfl⟩
    refine .pure ⟨0, if g.cols ≤ y then g.cols - 1 else y, ?_, fun hlt => by omega, fun _ hin => ?_⟩
    · show (if g.cols ≤ y then _ else _) = _
      split_ifs <;> rfl
    · refine ⟨hcols, ?_⟩
      have hmax := le_max_right g.rows g.cols
      split_ifs
      · omega
      · omega

/-- One character is put and the cursor steps one column past it, possibly
behind the last column of the line. -/
theorem rawPutchar_safe (c : BitVec 8) (h : ctx.scrollBottomMargin ≤ g.rows) :
    (rawPutchar g c ctx).Safe g.cells fun ctx' =>
      ∃ x y, ctx' = ctx.at (x + 1) y ∧ Put g ctx x y := by
  refine (wrapCursor_safe h).bind ?_
  rintro ctx' ⟨x, y, rfl, hput⟩
  exact (pushToQueue_safe _ _ _).bind fun _ _ => .pure ⟨x, y, rfl, hput⟩

/-- A character leaves the data other than the cursor alone. -/
theorem TermOk.rawPutchar (h : TermOk g ctx) (c : BitVec 8) :
    (rawPutchar g c ctx).Safe g.cells (TermOk g) := by
  refine (rawPutchar_safe c h.bottom_le).mono ?_
  rintro ctx' ⟨x, y, rfl, -⟩
  exact h.at _ _

/-- Between two bytes it also keeps the cursor in range, since the terminal
scrolls. -/
theorem Ready.rawPutchar (h : Ready g ctx) (c : BitVec 8) :
    (rawPutchar g c ctx).Safe g.cells (Ready g) := by
  refine (rawPutchar_safe c h.bottom_le).mono ?_
  rintro ctx' ⟨x, y, rfl, hput⟩
  obtain ⟨hx, hy⟩ := hput.scrolls h.scrolls h.cursor
  exact { h with cursor := ⟨hx, hy⟩ }

/-- So do any number of blanks, without a cursor in range. -/
theorem TermOk.putBlanks (h : TermOk g ctx) (n : ℕ) :
    (putBlanks g n ctx).Safe g.cells (TermOk g) :=
  .foldlM (fun _ _ _ hctx => hctx.rawPutchar _) h

/-- And with one. -/
theorem Ready.putBlanks (h : Ready g ctx) (n : ℕ) : (putBlanks g n ctx).Safe g.cells (Ready g) :=
  .foldlM (fun _ _ _ hctx => hctx.rawPutchar _) h

-- ---------------------------------------------------------------------------
-- Colours
-- ---------------------------------------------------------------------------

/-- The look-up in a palette of eight, for a number below eight. -/
theorem paletteColour_safe (palette : ℕ → BitVec 32) {n : ℕ} (hn : n < 8) :
    (paletteColour palette n).Safe g.cells fun _ => True :=
  (Safe.check hn).bind fun _ _ => .pure trivial

theorem Good.recolour (h : Good g ctx) (fg bg : BitVec 32) :
    Good g { ctx with textFg := fg, textBg := bg } := { h with }

/-- `set_text_fg` looks one colour up and keeps everything else. -/
theorem Good.setTextFg (h : Good g ctx) {n : ℕ} (hn : n < 8) :
    (setTextFg g n ctx).Safe g.cells (Good g) :=
  (paletteColour_safe _ hn).bind fun _ _ => .pure (h.recolour _ _)

theorem Good.setTextBg (h : Good g ctx) {n : ℕ} (hn : n < 8) :
    (setTextBg g n ctx).Safe g.cells (Good g) :=
  (paletteColour_safe _ hn).bind fun _ _ => .pure (h.recolour _ _)

/-- The bright palette has eight colours as well. -/
theorem Good.setTextFgBright (h : Good g ctx) {n : ℕ} (hn : n < 8) :
    (setTextFgBright g n ctx).Safe g.cells (Good g) :=
  (paletteColour_safe _ hn).bind fun _ _ => .pure (h.recolour _ _)

/-- For the background too. -/
theorem Good.setTextBgBright (h : Good g ctx) {n : ℕ} (hn : n < 8) :
    (setTextBgBright g n ctx).Safe g.cells (Good g) :=
  (paletteColour_safe _ hn).bind fun _ _ => .pure (h.recolour _ _)

/-- The two colours change places. -/
theorem Good.swapPalette (h : Good g ctx) : Good g (swapPalette ctx) := h.recolour _ _

/-- And only while reverse video is on. -/
theorem Good.swapReversed (h : Good g ctx) : Good g (swapReversed ctx) := by
  rw [Flanterm.swapReversed]
  split
  · exact h.swapPalette
  · exact h

/-- `CSI 0 m` takes the bold flags, the colour numbers and the colours back. -/
theorem Good.sgrReset (h : Good g ctx) : Good g (sgrReset g ctx) := by
  have hplain : Good g { ctx with
      bold := false, bgBold := false, currentPrimary := none, currentBg := none } :=
    { h with primary_lt := by simp, bg_lt := by simp }
  rw [Flanterm.sgrReset]
  split
  · exact { hplain with }
  · exact { hplain with }

/-- A colour is set on one side or the other, according to reverse video; both
ways keep the terminal in order. -/
theorem sgrSide_safe {normal reversed : Context → Screen Context}
    (hnormal : (normal ctx).Safe g.cells (Good g))
    (hreversed : (reversed ctx).Safe g.cells (Good g)) :
    (sgrSide ctx normal reversed).Safe g.cells (Good g) := by
  rw [sgrSide]
  split
  · exact hnormal
  · exact hreversed

/-- A foreground number goes to the bright palette while bold is on. -/
theorem Good.sgrSetFg (h : Good g ctx) {n : ℕ} (hn : n < 8) :
    (sgrSetFg g n ctx).Safe g.cells (Good g) := by
  rw [Flanterm.sgrSetFg]
  split
  · exact h.setTextFgBright hn
  · exact h.setTextFg hn

/-- A background number likewise. -/
theorem Good.sgrSetBg (h : Good g ctx) {n : ℕ} (hn : n < 8) :
    (sgrSetBg g n ctx).Safe g.cells (Good g) := by
  rw [Flanterm.sgrSetBg]
  split
  · exact h.setTextBgBright hn
  · exact h.setTextBg hn

/-- A colour number of the text, or the default colour. -/
theorem sgrCurrent_safe {current : Option ℕ} (hlt : ∀ n ∈ current, n < 8)
    {known : ℕ → Screen Context} {default : Screen Context}
    (hknown : ∀ n < 8, (known n).Safe g.cells (Good g)) (hdefault : default.Safe g.cells (Good g)) :
    (match current with
      | some n => known n
      | none => default).Safe g.cells (Good g) := by
  cases current with
  | some n => exact hknown n (hlt n rfl)
  | none => exact hdefault

/-- **One value of `CSI … m`**. The colours by number subtract the first number
of their range, so every one of them is below eight when it reaches a palette,
and is remembered as such. -/
theorem Good.sgrValue (h : Good g ctx) (v : ℕ) : (sgrValue g v ctx).Safe g.cells (Good g) := by
  rw [Flanterm.sgrValue]
  -- -- reset and the two kinds of bold: the current number is below eight by `h`
  refine .ite (fun _ => .pure h.sgrReset) fun _ => ?_
  refine .ite (fun _ => ?bold) fun _ => .ite (fun _ => ?bgBold) fun _ => ?_
  case bold =>
    have hctx : Good g { ctx with bold := true } := { h with }
    exact sgrCurrent_safe h.primary_lt
      (fun n hn => sgrSide_safe (hctx.setTextFgBright hn) (hctx.setTextBgBright hn))
      (sgrSide_safe (.pure (hctx.recolour _ _)) (.pure (hctx.recolour _ _)))
  case bgBold =>
    have hctx : Good g { ctx with bgBold := true } := { h with }
    exact sgrCurrent_safe h.bg_lt
      (fun n hn => sgrSide_safe (hctx.setTextBgBright hn) (hctx.setTextFgBright hn))
      (sgrSide_safe (.pure (hctx.recolour _ _)) (.pure (hctx.recolour _ _)))
  refine .ite (fun _ => ?normal) fun _ => .ite (fun _ => ?bgNormal) fun _ => ?_
  case normal =>
    have hctx : Good g { ctx with bold := false } := { h with }
    exact sgrCurrent_safe h.primary_lt
      (fun n hn => sgrSide_safe (hctx.setTextFg hn) (hctx.setTextBg hn))
      (sgrSide_safe (.pure (hctx.recolour _ _)) (.pure (hctx.recolour _ _)))
  case bgNormal =>
    have hctx : Good g { ctx with bgBold := false } := { h with }
    exact sgrCurrent_safe h.bg_lt
      (fun n hn => sgrSide_safe (hctx.setTextBg hn) (hctx.setTextFg hn))
      (sgrSide_safe (.pure (hctx.recolour _ _)) (.pure (hctx.recolour _ _)))
  -- the colours by number
  refine .ite (fun hv => ?fg) fun _ => .ite (fun hv => ?bg) fun _ => ?_
  case fg =>
    have hn : v - 30 < 8 := by omega
    have hctx : Good g { ctx with currentPrimary := some (v - 30) } :=
      { h with primary_lt := by simpa using hn }
    exact sgrSide_safe (hctx.sgrSetFg hn) (hctx.sgrSetBg hn)
  case bg =>
    have hn : v - 40 < 8 := by omega
    have hctx : Good g { ctx with currentBg := some (v - 40) } :=
      { h with bg_lt := by simpa using hn }
    exact sgrSide_safe (hctx.sgrSetBg hn) (hctx.sgrSetFg hn)
  refine .ite (fun hv => ?fgBright) fun _ => .ite (fun hv => ?bgBright) fun _ => ?_
  case fgBright =>
    have hn : v - 90 < 8 := by omega
    have hctx : Good g { ctx with currentPrimary := some (v - 90) } :=
      { h with primary_lt := by simpa using hn }
    exact sgrSide_safe (hctx.setTextFgBright hn) (hctx.setTextBgBright hn)
  case bgBright =>
    have hn : v - 100 < 8 := by omega
    have hctx : Good g { ctx with currentBg := some (v - 100) } :=
      { h with bg_lt := by simpa using hn }
    exact sgrSide_safe (hctx.setTextBgBright hn) (hctx.setTextFgBright hn)
  -- the default colours and reverse video
  refine .ite (fun _ => .pure ?_) fun _ => .ite (fun _ => .pure ?_) fun _ => ?_
  · have hctx : Good g { ctx with currentPrimary := none } := { h with primary_lt := by simp }
    refine Good.swapReversed ?_
    split_ifs
    · exact hctx.swapReversed.recolour _ _
    · exact hctx.swapReversed.recolour _ _
  · have hctx : Good g { ctx with currentBg := none } := { h with bg_lt := by simp }
    refine Good.swapReversed ?_
    split_ifs
    · exact hctx.swapReversed.recolour _ _
    · exact hctx.swapReversed.recolour _ _
  refine .ite (fun _ => .pure ?_) fun _ => .ite (fun _ => .pure ?_) fun _ => .pure h
  · split_ifs
    · exact { h with }
    · exact h
  · split_ifs
    · exact { h with }
    · exact h

/-- A colour given by its three components needs no palette. -/
theorem Good.sgrRgb (h : Good g ctx) (fg : Bool) (rgb : BitVec 32) :
    Good g (sgrRgb g fg rgb ctx) := by
  cases fg
  · exact h.recolour _ _
  · exact h.recolour _ _

/-- Of the 256 colours the first sixteen come from the two palettes, the others
from the table that has one entry for each. -/
theorem Good.sgr256 (h : Good g ctx) (fg : Bool) (col : ℕ) :
    (sgr256 g fg col ctx).Safe g.cells (Good g) := by
  rw [Flanterm.sgr256]
  refine .ite (fun hcol => .ite (fun _ => h.setTextFg hcol) fun _ => h.setTextBg hcol) fun _ => ?_
  refine .ite (fun hcol => ?_) fun _ => ?_
  · have hn : col - 8 < 8 := by omega
    exact .ite (fun _ => h.setTextFgBright hn) fun _ => h.setTextBgBright hn
  refine .ite ?_ fun _ => .pure h
  intro hcol
  have hlt : col - 16 < col256.length := by
    rw [col256_length]
    omega
  rw [List.getElem?_eq_getElem hlt]
  exact .pure (h.sgrRgb _ _)

/-- The loop over the values, on the length of what is left of them: `38` and
`48` take two or four more values along. -/
theorem Good.sgrLoop (h : Good g ctx) (vs : List (BitVec 32)) :
    (sgrLoop g vs ctx).Safe g.cells (Good g) := by
  fun_induction Flanterm.sgrLoop g vs ctx with
  | case1 ctx => exact .pure h
  | case2 ctx v hv => exact .pure h
  | case3 ctx v hv fg mode hmode r gr b rest ih => exact ih (h.sgrRgb _ _)
  | case4 ctx v hv mode rest hmode hshort => exact .pure h
  | case5 ctx v hv fg mode hmode hmode' col rest ih =>
    exact (h.sgr256 _ _).bind fun ctx' h' => ih ctx' h'
  | case6 ctx v hv mode rest hmode hmode' hshort => exact .pure h
  | case7 ctx v hv mode rest hmode hmode' ih => exact ih h
  | case8 ctx v vs hv ih => exact (h.sgrValue _).bind fun ctx' h' => ih ctx' h'

theorem Good.sgr (h : Good g ctx) : (sgr g ctx).Safe g.cells (Good g) :=
  .ite (fun _ => .pure h.sgrReset) fun _ => h.sgrLoop _

-- ---------------------------------------------------------------------------
-- Control sequences
-- ---------------------------------------------------------------------------

theorem TermOk.setEscValue (h : TermOk g ctx) (i v : ℕ) : TermOk g (setEscValue i v ctx) :=
  { h with }

/-- Either branch of a test in order makes the outcome in order. -/
theorem TermOk.ite {c : Prop} [Decidable c] {ctx' : Context} (h : TermOk g ctx)
    (h' : TermOk g ctx') : TermOk g (if c then ctx else ctx') := by
  split_ifs
  · exact h
  · exact h'

/-- `CSI A` and `CSI F` change the first value and set the cursor. -/
theorem TermOk.cursorUp (h : TermOk g ctx) (x y : ℕ) : Good g (cursorUp g x y ctx) :=
  TermOk.setCursorPos (.ite (h.setEscValue _ _) h) _ _

theorem TermOk.cursorDown (h : TermOk g ctx) (x y : ℕ) : Good g (cursorDown g x y ctx) :=
  TermOk.setCursorPos (.ite (h.setEscValue _ _) h) _ _

/-- `CSI d` and `CSI G` take one from their value, around zero where it is
zero. -/
theorem TermOk.addressValue (h : TermOk g ctx) (i limit : ℕ) :
    TermOk g (addressValue i limit ctx) := by
  have hdec : TermOk g { ctx with
      escValues := Function.update ctx.escValues i (ctx.escValues i - 1) } := { h with }
  exact .ite (hdec.setEscValue _ _) hdec

/-- The two values of `CSI H` are taken down only above zero. -/
theorem TermOk.homeValue (h : TermOk g ctx) (i limit : ℕ) : TermOk g (homeValue i limit ctx) := by
  have hdec : TermOk g { ctx with
      escValues := Function.update ctx.escValues i (ctx.escValues i - 1) } := { h with }
  exact .ite ((TermOk.ite hdec h).setEscValue _ _) (.ite hdec h)

/-- Blanks that fit into the line only move the cursor along it: none of them
wraps, so nothing scrolls even where `scroll_enabled` is off. -/
theorem putBlanks_inside (n : ℕ) (h : TermOk g ctx) (hn : ctx.cursorX + n ≤ g.cols) :
    (putBlanks g n ctx).Safe g.cells fun ctx' =>
      ctx' = ctx.at (ctx.cursorX + n) ctx.cursorY := by
  -- on the list of the loop, for every cursor that leaves room for it
  have hrun : ∀ (l : List ℕ) (ctx : Context), TermOk g ctx → ctx.cursorX + l.length ≤ g.cols →
      (l.foldlM (fun ctx _ => Flanterm.rawPutchar g (byte ' ') ctx) ctx).Safe g.cells fun ctx' =>
        ctx' = ctx.at (ctx.cursorX + l.length) ctx.cursorY := by
    intro l
    induction l with
    | nil => exact fun ctx _ _ => .pure rfl
    | cons i l ih =>
      intro ctx h hl
      rw [List.length_cons] at hl
      rw [List.foldlM_cons]
      refine (rawPutchar_safe _ h.bottom_le).bind ?_
      rintro ctx' ⟨x, y, rfl, hput⟩
      obtain ⟨rfl, rfl⟩ := hput.inside (by omega)
      refine (ih _ (h.at _ _) (show ctx.cursorX + 1 + l.length ≤ g.cols by omega)).mono ?_
      rintro ctx'' rfl
      show ctx.at (ctx.cursorX + 1 + l.length) ctx.cursorY = _
      rw [List.length_cons, Nat.add_assoc, Nat.add_comm 1]
  have hlen : (upTo 0 n).length = n := by simp [upTo]
  have := hrun (upTo 0 n) ctx h (by rwa [hlen])
  rwa [hlen] at this

/-- The loops meet the cell of the cursor. -/
theorem TermOk.eraseTo (h : TermOk g ctx) {x y : ℕ} {cells : List (ℕ × ℕ)}
    (hmem : (x, y) ∈ cells) : (eraseTo g x y cells ctx).Safe g.cells (Good g) := by
  induction cells generalizing ctx with
  | nil => simp at hmem
  | cons cell cells ih =>
    obtain ⟨xc, yc⟩ := cell
    refine (h.rawPutchar _).bind fun ctx' h' => .ite (fun _ => .pure (h'.setCursorPos _ _)) ?_
    intro hne
    refine ih h' ((List.mem_cons.mp hmem).resolve_left fun heq => hne ?_)
    obtain ⟨rfl, rfl⟩ := Prod.mk.inj heq
    exact ⟨rfl, rfl⟩

/-- The loop over the whole screen meets every cell of it. -/
theorem mem_rowMajor {x y : ℕ} (hx : x < g.cols) (hy : y < g.rows) : (x, y) ∈ rowMajor g := by
  refine List.mem_flatMap.mpr ⟨y, mem_upTo.mpr ⟨Nat.zero_le _, hy⟩, ?_⟩
  exact List.mem_map.mpr ⟨x, mem_upTo.mpr ⟨Nat.zero_le _, hx⟩, rfl⟩

/-- `CSI J` writes blanks in the order of the rows and sets the cursor back. -/
theorem Good.eraseDisplay (h : Good g ctx) {x y : ℕ} (hx : x < g.cols) (hy : y < g.rows) :
    (eraseDisplay g x y ctx).Safe g.cells (Good g) := by
  have hterm := h.toTermOk
  refine .ite (fun _ => ?_) fun _ => .ite (fun _ => ?_) fun _ => .ite (fun _ => ?_) fun _ => .pure h
  · exact (hterm.putBlanks _).bind fun ctx' h' => .pure (h'.setCursorPos _ _)
  · exact (hterm.setCursorPos 0 0).eraseTo (mem_rowMajor hx hy)
  · refine (clear_safe _ _).mono ?_
    rintro ctx' rfl
    exact h

/-- `CSI K` writes a part of one line, for which there is room. -/
theorem Good.eraseLine (h : Good g ctx) {x y : ℕ} (hx : x < g.cols) (hy : y < g.rows) :
    (eraseLine g x y ctx).Safe g.cells (Good g) := by
  have hterm := h.toTermOk
  refine .ite (fun _ => ?_) fun _ => .ite (fun _ => ?_) fun _ => .ite (fun _ => ?_) fun _ => .pure h
  · exact (hterm.putBlanks _).bind fun _ h' => .pure (h'.setCursorPos _ _)
  · have hstart := hterm.setCursorPos 0 y
    have hzero : (setCursorPos g 0 y ctx).cursorX = 0 := clampPos_of_lt g.cols_pos
    have hline : (setCursorPos g 0 y ctx).cursorY = y := clampPos_of_lt hy
    refine (putBlanks_inside x hstart.toTermOk (by omega)).mono ?_
    rintro ctx' rfl
    refine { hstart.toTermOk.at _ _ with cursor := ?_ }
    rw [hzero, hline]
    exact .of_lt (show 0 + x < g.cols by omega) hy
  · exact ((hterm.setCursorPos 0 y).putBlanks _).bind fun _ h' => .pure (h'.setCursorPos _ _)

/-- `CSI X` writes blanks from the cursor on and returns to it. -/
theorem TermOk.eraseChars (h : TermOk g ctx) (x y : ℕ) :
    (eraseChars g x y ctx).Safe g.cells (Good g) :=
  (h.putBlanks _).bind fun _ h' => .pure (h'.setCursorPos _ _)

/-- `CSI P` moves the rest of the line to the left and blanks its end. -/
theorem TermOk.deleteChars (h : TermOk g ctx) (x y : ℕ) :
    (deleteChars g x y ctx).Safe g.cells (Good g) :=
  Safe.bind (.forM fun _ _ => moveCharacter_safe _ _ _ _) fun _ _ =>
    (h.setCursorPos _ y).toTermOk.eraseChars x y

/-- `CSI @` moves the rest of the line to the right, one character at a time. -/
theorem TermOk.insertBlanks (h : TermOk g ctx) (x y : ℕ) :
    (insertBlanks g x y ctx).Safe g.cells (Good g) := by
  refine Safe.bind (Q := TermOk g) (.foldlM ?_ h) fun ctx' h' =>
    .pure (h'.setCursorPos _ _)
  intro i _ ctx' h'
  exact (moveCharacter_safe _ _ _ _).bind fun _ _ => (h'.setCursorPos i y).toTermOk.rawPutchar _

theorem TermOk.oneForZero (h : TermOk g ctx) (i : ℕ) : TermOk g (oneForZero i ctx) :=
  .ite (h.setEscValue _ _) h

/-- `CSI r` takes new margins only in their order and inside the screen, so
`top_lt` and `bottom_le` hold before and after it. -/
theorem TermOk.acceptMargins (h : TermOk g ctx) (top bottom : ℕ) :
    TermOk g (acceptMargins g top bottom ctx) := by
  rw [Flanterm.acceptMargins]
  split
  case isTrue => exact { h with top_lt := g.rows_pos, bottom_le := le_refl _ }
  case isFalse hok =>
    exact { h with
      top_lt := show top < bottom by omega
      bottom_le := show bottom ≤ g.rows by omega }

theorem TermOk.setMargins (h : TermOk g ctx) : Good g (setMargins g ctx) :=
  (((h.oneForZero 0).oneForZero 1).acceptMargins _ _).setCursorPos 0 0

/-- `CSI 4 h` and `CSI 4 l` touch the insert mode alone. -/
theorem Good.modeToggle (h : Good g ctx) (c : BitVec 8) : Good g (modeToggle c ctx) := by
  rw [Flanterm.modeToggle]
  split_ifs
  · exact h
  · exact { h with }
  · exact h
  · exact h

/-- **A control sequence keeps the terminal in order**, whichever letter ends
it: one line for each case of the `switch`. -/
theorem Good.controlSequence (h : Good g ctx) (c : BitVec 8) :
    (controlSequence g c ctx).Safe g.cells (Good g) := by
  have hx := cursorPosX_lt g ctx
  have hy := cursorPosY_lt g ctx
  have hterm := h.toTermOk
  rw [Flanterm.controlSequence]
  -- the cursor keys
  refine .ite (fun _ => .pure (hterm.cursorUp _ _)) fun _ => ?_
  refine .ite (fun _ => .pure (hterm.cursorUp _ _)) fun _ => ?_
  refine .ite (fun _ => .pure (hterm.cursorDown _ _)) fun _ => ?_
  refine .ite (fun _ => .pure (hterm.cursorDown _ _)) fun _ => ?_
  refine .ite (fun _ => .pure (TermOk.setCursorPos (.ite (hterm.setEscValue _ _) hterm) _ _))
    fun _ => ?_
  refine .ite (fun _ => .pure (TermOk.setCursorPos (.ite (hterm.setEscValue _ _) hterm) _ _))
    fun _ => ?_
  refine .ite (fun _ => .pure ((hterm.addressValue _ _).setCursorPos _ _)) fun _ => ?_
  refine .ite (fun _ => .pure ((hterm.addressValue _ _).setCursorPos _ _)) fun _ => ?_
  refine .ite (fun _ => .pure (((hterm.homeValue _ _).homeValue _ _).setCursorPos _ _)) fun _ => ?_
  -- lines and characters
  refine .ite (fun _ => Safe.bind (.forM fun _ _ => scroll_safe h.bottom_le) fun _ _ => .pure h)
    fun _ => ?_
  refine .ite (fun _ => Safe.bind (.forM fun _ _ => revscroll_safe h.bottom_le) fun _ _ => .pure h)
    fun _ => ?_
  refine .ite (fun _ => h.eraseDisplay hx hy) fun _ => ?_
  refine .ite (fun _ => hterm.insertBlanks _ _) fun _ => ?_
  refine .ite (fun _ => hterm.deleteChars _ _) fun _ => ?_
  refine .ite (fun _ => hterm.eraseChars _ _) fun _ => ?_
  -- -- colours, the saved cursor, margins and modes
  refine .ite (fun _ => h.sgr) fun _ => ?_
  refine .ite (fun _ => .pure { h with }) fun _ => ?_
  refine .ite (fun _ => .pure (hterm.setCursorPos _ _)) fun _ => ?_
  refine .ite (fun _ => h.eraseLine hx hy) fun _ => ?_
  refine .ite (fun _ => .pure hterm.setMargins) fun _ => ?_
  exact .ite (fun _ => .pure (h.modeToggle c)) fun _ => .pure h

/-- The one private mode shows the cursor or hides it. -/
theorem Ready.decPrivateParse (h : Ready g ctx) (c : BitVec 8) :
    Ready g (decPrivateParse c ctx) := by
  have hprivate : Ready g { ctx with decPrivate := false } := { h with }
  rw [Flanterm.decPrivateParse]
  split_ifs
  · exact hprivate
  · exact { hprivate with }
  · exact hprivate
  · exact hprivate

/-- The sequence runs with `scroll_enabled` off and gives it back as it was. -/
theorem Ready.runSequence (h : Ready g ctx) (c : BitVec 8) :
    (runSequence g c ctx).Safe g.cells (Ready g) := by
  refine .ite (fun _ => .pure (h.decPrivateParse c)) fun _ => ?_
  have hquiet : Good g { ctx with scrollEnabled := false } := { h with }
  exact (hquiet.controlSequence c).bind fun ctx' h' => .pure { h' with scrolls := h.scrolls }

/-- The last byte of a sequence fills in the values that were left out and runs
it. -/
theorem Ready.controlSequenceEnd (h : Ready g ctx) (c : BitVec 8) :
    (controlSequenceEnd g c ctx).Safe g.cells (Ready g) := by
  have hdefaults : Ready g { ctx with
      escValues := fun i =>
        if ctx.escValuesI ≤ i ∧ i < maxEscValues then escDefault c else ctx.escValues i } :=
    { h with }
  exact (hdefaults.runSequence c).bind fun ctx' h' => .pure { h' with }

/-- A digit begins a value or extends it; the check of the count against the
length of the array comes before the first. -/
theorem Ready.controlSequenceValue (h : Ready g ctx) (c : BitVec 8) :
    (controlSequenceValue g c ctx).Safe g.cells (Ready g) := by
  refine .ite (fun hrrr => ?_) fun hrrr => .ite (fun _ => ?_) fun _ => h.controlSequenceEnd c
  · have hnext : Ready g { ctx with escValuesI := ctx.escValuesI + 1, rrr := false } :=
      { h with
        escValuesI_le := h.rrr_lt hrrr
        rrr_lt := by simp }
    exact .ite (fun _ => .pure hnext) fun _ => hnext.controlSequenceEnd c
  · refine .ite (fun _ => .pure h) fun hfull => ?_
    have hlt : ctx.escValuesI < maxEscValues := lt_of_le_of_ne h.escValuesI_le hfull
    exact (Safe.check hlt).bind fun _ _ => .pure
      { h with
        escValuesI_le := hlt
        rrr_lt := fun h' => absurd h' hrrr }

/-- A further byte behind `ESC [`. At a `;` with the array full the terminal
only waits for the end of the sequence, so `rrr` is never set with a full
array. -/
theorem Ready.controlSequenceParse (h : Ready g ctx) (c : BitVec 8) :
    (controlSequenceParse g c ctx).Safe g.cells (Ready g) := by
  refine .ite (fun _ => .pure { h with }) fun _ => .ite (fun _ => .pure { h with }) fun _ => ?_
  refine .ite (fun _ => .ite (fun _ => .pure h) fun hfull => ?_) fun _ => h.controlSequenceValue c
  have hlt : ctx.escValuesI < maxEscValues := lt_of_le_of_ne h.escValuesI_le hfull
  exact (Safe.check hlt).bind fun _ _ => .pure { h with rrr_lt := fun _ => hlt }

-- ---------------------------------------------------------------------------
-- Escape sequences and bytes
-- ---------------------------------------------------------------------------

/-- The cursor can be set anywhere between two bytes as well. -/
theorem Ready.setCursorPos (h : Ready g ctx) (x y : ℕ) : Ready g (setCursorPos g x y ctx) :=
  { h.toTermOk.setCursorPos x y with scrolls := h.scrolls }

/-- An operating system command is skipped up to its terminator. -/
theorem Ready.oscParse (h : Ready g ctx) (c : BitVec 8) : Ready g (oscParse c ctx) := by
  rw [Flanterm.oscParse]
  split_ifs
  · exact { h with }
  · exact { h with }
  · exact { h with }
  · exact { h with }

/-- What is saved is in range because the terminal is. -/
theorem Ready.saveState (h : Ready g ctx) : Ready g (saveState ctx) :=
  { h with
    savedCharset_lt := h.charset_lt
    savedPrimary_lt := h.primary_lt
    savedBg_lt := h.bg_lt
    savedX_le := h.cursor.x_le
    savedY_lt := h.cursor.y_lt }

/-- And what is restored is in range because it was saved so; `TermOk` speaks
of the saved fields for this. -/
theorem Ready.restoreState (h : Ready g ctx) : Ready g (restoreState ctx) :=
  { h with
    charset_lt := h.savedCharset_lt
    primary_lt := h.savedPrimary_lt
    bg_lt := h.savedBg_lt
    cursor := ⟨h.savedX_le, h.savedY_lt⟩ }

/-- `ESC c` starts over; the cursor and what was saved are left alone. -/
theorem Ready.contextReinit (h : Ready g ctx) : Ready g (contextReinit g ctx) :=
  { h with
    escValuesI_le := Nat.zero_le _
    rrr_lt := by simp [Flanterm.contextReinit]
    gSelect_le := Nat.zero_le _
    charset_lt := Nat.zero_lt_two
    primary_lt := by simp [Flanterm.contextReinit]
    bg_lt := by simp [Flanterm.contextReinit]
    top_lt := g.rows_pos
    bottom_le := le_refl _
    tabSize_eq := rfl
    autoflush_eq := rfl
    scrolls := rfl }

/-- A line feed scrolls at the bottom margin and moves the cursor elsewhere. -/
theorem Ready.lineFeed (h : Ready g ctx) (x y : ℕ) :
    (lineFeed g x y ctx).Safe g.cells (Ready g) :=
  .ite (fun _ => (scroll_safe h.bottom_le).bind fun _ _ => .pure (h.setCursorPos _ _))
    fun _ => .pure (h.setCursorPos _ _)

/-- The sequences of two bytes. -/
theorem Ready.escapeCode (h : Ready g ctx) (c : BitVec 8) :
    (escapeCode g c ctx).Safe g.cells (Ready g) := by
  refine .ite (fun _ => .pure h.saveState) fun _ => .ite (fun _ => .pure h.restoreState) fun _ => ?_
  refine .ite (fun _ => (clear_safe _ _).mono ?_) fun _ => ?_
  · rintro ctx' rfl
    exact { h.contextReinit with cursor := .of_lt g.cols_pos g.rows_pos }
  refine .ite (fun _ => h.lineFeed _ _) fun _ => .ite (fun _ => h.lineFeed _ _) fun _ => ?_
  refine .ite (fun _ => .ite (fun _ => ?_) fun _ => .pure (h.setCursorPos _ _)) fun _ => ?_
  · exact (revscroll_safe h.bottom_le).bind fun _ _ => .pure (h.setCursorPos _ _)
  refine .ite ?_ fun _ => .pure h
  intro hc
  have hle : c.toNat - 0x27 ≤ 2 := by
    obtain rfl | rfl := hc
    · simp [byte]
    · simp [byte]
  exact .pure { h with gSelect_le := hle }

/-- One byte while an escape sequence is under way. -/
theorem Ready.escapeByte (h : Ready g ctx) (c : BitVec 8) :
    (escapeByte g c ctx).Safe g.cells (Ready g) := by
  refine .ite (fun _ => .pure (h.oscParse c)) fun _ => ?_
  refine .ite (fun _ => h.controlSequenceParse c) fun _ => ?_
  refine .ite (fun _ => .pure { h with }) fun _ => .ite (fun _ => .pure ?_) fun _ => ?_
  · exact { h with escValuesI_le := Nat.zero_le _, rrr_lt := by simp }
  · exact (h.escapeCode c).bind fun ctx' h' => .pure { h' with }

theorem Ready.escapeParse (h : Ready g ctx) (c : BitVec 8) :
    (escapeParse g c ctx).Safe g.cells (Ready g) :=
  have hcount : Ready g (countEscape ctx) := { h with }
  hcount.escapeByte c

/-- Insert mode moves the rest of the line, through the checks of
`move_character`. -/
theorem insertRoom_safe (ctx : Context) : (insertRoom g ctx).Safe g.cells fun _ => True :=
  .ite (fun _ => .forM fun _ _ => moveCharacter_safe _ _ _ _) fun _ => .pure trivial

/-- A printable byte is looked up in one of two character sets. -/
theorem Ready.putPrintable (h : Ready g ctx) (c : BitVec 8) :
    (putPrintable g c ctx).Safe g.cells (Ready g) :=
  (insertRoom_safe ctx).bind fun _ _ => (Safe.check h.charset_lt).bind fun _ _ => h.rawPutchar _

/-- The control characters: tabs, line feeds, the choice of a character set. -/
theorem Ready.putControl (h : Ready g ctx) (c : BitVec 8) :
    (putControl g c ctx).Safe g.cells (Ready g) := by
  refine .ite (fun _ => .pure h) fun _ => .ite (fun _ => .pure { h with }) fun _ => ?_
  refine .ite (fun _ => (Safe.check ?_).bind fun _ _ => ?_) fun _ => ?_
  · rw [h.tabSize_eq]
    omega
  · exact .ite (fun _ => .pure (h.setCursorPos _ _)) fun _ => .pure (h.setCursorPos _ _)
  refine .ite (fun _ => h.lineFeed _ _) fun _ => ?_
  refine .ite (fun _ => .pure (h.setCursorPos _ _)) fun _ => ?_
  refine .ite (fun _ => .pure (h.setCursorPos _ _)) fun _ => .ite (fun _ => .pure h) fun _ => ?_
  refine .ite (fun _ => .pure { h with charset_lt := by simp }) fun _ => ?_
  exact .ite (fun _ => .pure { h with charset_lt := by simp }) fun _ => h.putPrintable c

/-- The byte behind `ESC (` or `ESC )` fills one of the two slots. -/
theorem Ready.selectCharset (h : Ready g ctx) (c : BitVec 8) :
    (selectCharset c ctx).Safe g.cells (Ready g) := by
  have hlt : ctx.gSelect - 1 < 2 := by
    have := h.gSelect_le
    omega
  refine (Safe.check hlt).bind fun _ _ => .pure ?_
  split_ifs
  · exact { h with gSelect_le := Nat.zero_le _ }
  · exact { h with gSelect_le := Nat.zero_le _ }
  · exact { h with gSelect_le := Nat.zero_le _ }

/-- Where the decoder is in a character is of no importance. -/
theorem Ready.decode (h : Ready g ctx) (remaining : ℕ) (codePoint : BitVec 64) :
    Ready g { ctx with unicodeRemaining := remaining, codePoint := codePoint } := { h with }

/-- A byte outside any sequence. -/
theorem Ready.putcharStart (h : Ready g ctx) (c : BitVec 8) :
    (putcharStart g c ctx).Safe g.cells (Ready g) := by
  refine .ite ?_ ?_
  · intro _
    exact .ite (fun _ => .pure (h.decode _ _)) fun _ =>
      .ite (fun _ => .pure (h.decode _ _)) fun _ => .pure (h.decode _ _)
  · intro _
    exact .ite (fun _ => h.escapeParse c) fun _ =>
      .ite (fun _ => h.selectCharset c) fun _ => h.putControl c

/-- A code point without a character is replaced by as many cells as it is
wide. -/
theorem Ready.putReplacement (h : Ready g ctx) (width : ℕ) :
    (putReplacement g width ctx).Safe g.cells (Ready g) :=
  .ite (fun _ => (h.rawPutchar _).bind fun _ h' => h'.putBlanks _) fun _ => .pure h

/-- The last byte of an encoded character puts it, or its replacement. -/
theorem Ready.putCodePoint (h : Ready g ctx) : (putCodePoint g ctx).Safe g.cells (Ready g) := by
  rw [Flanterm.putCodePoint]
  cases unicodeToCp437 ctx.codePoint.toNat with
  | some c => exact h.rawPutchar c
  | none =>
    rw [mkWcwidth_eq]
    exact h.putReplacement _

-- ---------------------------------------------------------------------------
-- Runs
-- ---------------------------------------------------------------------------

/-- The context that `flanterm_fb_init` leaves behind is in order. -/
theorem startContext_ready (g : FbConfig) : Ready g (startContext g) where
  escValuesI_le := Nat.zero_le _
  rrr_lt := by simp [startContext, contextReinit]
  gSelect_le := Nat.zero_le _
  charset_lt := Nat.zero_lt_two
  savedCharset_lt := Nat.zero_lt_two
  primary_lt := by simp [startContext, contextReinit]
  bg_lt := by simp [startContext, contextReinit]
  -- -- the context was zeroed before, and `none` is no number
  savedPrimary_lt := by simp [startContext, contextReinit, zeroContext]
  savedBg_lt := by simp [startContext, contextReinit, zeroContext]
  top_lt := g.rows_pos
  bottom_le := le_refl _
  tabSize_eq := rfl
  autoflush_eq := rfl
  savedX_le := Nat.zero_le _
  savedY_lt := lt_of_lt_of_le g.rows_pos (le_max_left _ _)
  cursor := .of_lt g.cols_pos g.rows_pos
  scrolls := rfl

/-- **Step.** A byte keeps the invariant, whatever it is and whatever the bytes
before it began: the three tests in front of `flanterm_putchar` only decide
whether it belongs to a character of several bytes. -/
theorem Ready.putchar (h : Ready g ctx) (c : BitVec 8) :
    (putchar g c ctx).Safe g.cells (Ready g) := by
  have hreset : Ready g { ctx with unicodeRemaining := 0 } := h.decode 0 _
  refine .ite (fun _ => .pure { h with gSelect_le := Nat.zero_le _ }) fun _ => ?_
  refine .ite (fun _ => .ite (fun _ => hreset.putcharStart c) fun _ => ?_) fun _ =>
    h.putcharStart c
  exact .ite (fun _ => .pure (h.decode _ _)) fun _ => (h.decode _ _).putCodePoint

/-- A string is its first byte and the rest. -/
theorem putBytes_cons (g : FbConfig) (c : BitVec 8) (bytes : List (BitVec 8)) (ctx : Context) :
    putBytes g (c :: bytes) ctx = putchar g c ctx >>= putBytes g bytes := rfl

/-- And two strings run one after the other, which is why `write` may be
split. -/
theorem putBytes_append (g : FbConfig) (bytes bytes' : List (BitVec 8)) (ctx : Context) :
    putBytes g (bytes ++ bytes') ctx = putBytes g bytes ctx >>= putBytes g bytes' :=
  List.foldlM_append

/-- **Run.** So does every string of bytes, by the induction of `foldlM`.
Together with `startContext_ready` this covers every context that the kernel's
console can reach. -/
theorem Ready.putBytes (h : Ready g ctx) (bytes : List (BitVec 8)) :
    (putBytes g bytes ctx).Safe g.cells (Ready g) :=
  .foldlM (fun c _ _ h' => h'.putchar c) h

end Flanterm
