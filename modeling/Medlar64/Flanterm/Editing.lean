import Medlar64.Flanterm.Parameters
import Medlar64.Flanterm.Typewriter

/-!
# Flanterm: a line that is edited

The bytes with which a line is edited, on paper and on the terminal: characters,
the end of the line, the erasure of the last character as
backspace, blank, backspace, and `ESC [2J ESC [H` for a new sheet.

* `Stroke.run` — one of them.
* `strokes_run` — any of them, one after the other.
-/

namespace Flanterm

open ArrayProg

inductive Stroke
  | char (c : BitVec 8)
  | newline
  | rubout
  | clear

def Stroke.bytes : Stroke → List (BitVec 8)
  | .char c => [c]
  | .newline => [0x0a#8]
  | .rubout => [0x08#8, 0x20#8, 0x08#8]
  | .clear => sequence false [[byte '2']] (byte 'J') ++ sequence false [] (byte 'H')

/-- The same on paper. -/
def Stroke.apply (cols : ℕ) (p : Paper (BitVec 8)) : Stroke → Paper (BitVec 8)
  | .char c => p.print cols c
  | .newline => p.newline
  | .rubout => ⟨p.done, p.cur.dropLast⟩
  | .clear => ⟨[], []⟩

/-- Where backspace goes back by one column: the line is not empty, and it is not
full, since the cursor behind a full line is taken for the one on its last
column. -/
def Stroke.Fits (cols : ℕ) (p : Paper (BitVec 8)) : Stroke → Prop
  | .char c => Printable c
  | .rubout => p.cur ≠ [] ∧ p.cur.length < cols
  | _ => True

variable {g : FbConfig} {ctx : Context} {p : Paper (BitVec 8)} {m : ℕ → FbChar}

-- ---------------------------------------------------------------------------
-- Erasure
-- ---------------------------------------------------------------------------

/-- Backspace moves the cursor one column to the left. In column 0 it wraps to
2^64 - 1, which is negative as an `int` and so clamped to column 0. -/
theorem putchar_backspace (hmode : TextMode g ctx) :
    putchar g 0x08#8 ctx =
      pure (setCursorPos g (sub64 (cursorPosX g ctx) 1) (cursorPosY g ctx) ctx) := by
  rw [putchar, if_neg (by simp [hmode.discardNext]), if_neg (by simp [hmode.unicodeRemaining]),
    putcharStart, if_neg (by simp), if_neg (by simp [hmode.escape]),
    if_neg (by simp [hmode.gSelect])]
  rfl

/-- Backspace from a column of the screen other than the first. -/
theorem backspace_at (hmode : TextMode g ctx) {k y : ℕ} (hk : k + 1 < g.cols) (hy : y < g.rows)
    (hctx : ctx.cursorX = k + 1 ∧ ctx.cursorY = y) :
    putchar g 0x08#8 ctx = pure (ctx.at k y) := by
  obtain ⟨hx, hy'⟩ := hctx
  have hcols := g.cols_lt
  have hcolumn : cursorPosX g ctx = k + 1 := by
    rw [cursorPosX, hx, if_neg (by omega)]
  have hrow : cursorPosY g ctx = y := by
    rw [cursorPosY, hy', if_neg (by omega)]
  have hleft : sub64 (k + 1) 1 = k := by
    rw [sub64]
    omega
  rw [putchar_backspace hmode, hcolumn, hrow, hleft, setCursorPos_eq,
    clampPos_of_lt (by omega), clampPos_of_lt hy]

/-- Paper without the last character: the screen that shows a blank in its
place. -/
theorem OnPaper.rubout {done : List (List (BitVec 8))} {line : List (BitVec 8)} {c : BitVec 8}
    (h : OnPaper g ctx ⟨done, line ++ [c]⟩ m) :
    OnPaper g (ctx.at line.length (Paper.row ⟨done, line⟩ g.rows)) ⟨done, line⟩
      (Function.update m (Paper.row ⟨done, line⟩ g.rows * g.cols + line.length) (empty ctx)) := by
  have hwidth : line.length < g.cols := by
    have hle := h.width
    rw [List.length_append, List.length_singleton] at hle
    exact hle
  have hrows := g.rows_pos
  refine ⟨rfl, rfl, hwidth.le, ?_⟩
  intro x hx y hy
  have hput := Paper.window_put ⟨done, line⟩ c hy
  have hcell := h.cell x hx y hy
  rw [hput] at hcell
  -- only the cell of the last character changes, and it becomes blank
  by_cases hline : y = Paper.row ⟨done, line⟩ g.rows
  · rw [if_pos hline] at hcell
    have hwindow : Paper.window ⟨done, line⟩ g.rows y = line := by
      rw [hline]
      exact Paper.window_row _ hrows
    rw [hwindow]
    by_cases hlast : x = line.length
    · subst hlast
      rw [hline, Function.update_self, List.getD_eq_default _ _ (Nat.le_refl _)]
      rfl
    · rw [hline, Function.update_of_ne (by omega), ← hline, hcell, List.getD_eq_getElem?_getD,
        List.getD_eq_getElem?_getD, List.getElem?_append]
      split
      · rfl
      · have hbeyond : line.length ≤ x := by simpa using ‹¬x < _›
        rw [List.getElem?_eq_none (by simp; omega), List.getElem?_eq_none hbeyond]
        rfl
  · rw [if_neg hline] at hcell
    have hne : y * g.cols + x ≠ Paper.row ⟨done, line⟩ g.rows * g.cols + line.length :=
      fun heq => hline (index_inj hx hwidth heq).1
    rw [Function.update_of_ne hne]
    exact hcell

/-- Backspace, blank, backspace takes the last character of the line back. The
line must not be full: behind the last column the cursor counts as being in it,
and the first backspace would go one column too far. -/
theorem rubout_run (hmode : TextMode g ctx) (h : OnPaper g ctx p m) (hne : p.cur ≠ [])
    (hroom : p.cur.length < g.cols) :
    ∃ ctx' m', (putBytes g [0x08#8, 0x20#8, 0x08#8] ctx).run g.cells m = some (ctx', m') ∧
      Onward g ctx ctx' ∧ OnPaper g ctx' ⟨p.done, p.cur.dropLast⟩ m' := by
  obtain ⟨done, cur⟩ := p
  obtain ⟨line, c, rfl⟩ : ∃ line c, cur = line ++ [c] :=
    ⟨_, _, (List.dropLast_append_getLast hne).symm⟩
  have hrow : Paper.row ⟨done, line⟩ g.rows < g.rows := by
    have hrows := g.rows_pos
    rw [Paper.row]
    omega
  have hk : line.length + 1 < g.cols := by
    rw [List.length_append, List.length_singleton] at hroom
    exact hroom
  have hx : ctx.cursorX = line.length + 1 := by
    rw [h.cursorX, List.length_append, List.length_singleton]
  have hy : ctx.cursorY = Paper.row ⟨done, line⟩ g.rows := h.cursorY
  obtain ⟨y, hy'⟩ : ∃ y, y = Paper.row ⟨done, line⟩ g.rows := ⟨_, rfl⟩
  rw [← hy'] at hy hrow
  have hleft := backspace_at hmode hk hrow ⟨hx, hy⟩
  -- the blank is written over the last character
  have hblank : (rawPutchar g 0x20#8 (ctx.at line.length y)).run g.cells m =
      some (ctx.at (line.length + 1) y,
        Function.update m (y * g.cols + line.length) (empty ctx)) := by
    have hstay : wrapCursor g (ctx.at line.length y) = pure (ctx.at line.length y) := by
      rw [wrapCursor, if_neg]
      show ¬(g.cols ≤ line.length ∧ _)
      omega
    rw [rawPutchar, hstay, pure_bind]
    show (pushToQueue g (empty ctx) line.length y >>= fun _ => pure _ : Screen Context).run _ _ = _
    rw [run_bind, run_pushToQueue _ (by omega) hrow]
    rfl
  have hback := backspace_at (hmode.at (line.length + 1) y) hk hrow ⟨rfl, rfl⟩
  refine ⟨ctx.at line.length y, Function.update m (y * g.cols + line.length) (empty ctx), ?_,
    hmode.onward_at line.length y, ?_⟩
  · rw [putBytes_cons, hleft, pure_bind, putBytes_cons,
      putchar_printable (hmode.at line.length y) (by decide), run_bind, hblank]
    show (putBytes g [0x08#8] (ctx.at (line.length + 1) y)).run _ _ = _
    rw [putBytes_singleton, hback]
    rfl
  · show OnPaper g _ ⟨done, (line ++ [c]).dropLast⟩ _
    rw [hy', List.dropLast_concat]
    exact h.rubout

-- ---------------------------------------------------------------------------
-- A new sheet
-- ---------------------------------------------------------------------------

/-- Clearing blanks every cell of the screen. The cells are written one by one,
in the colours of the text. -/
theorem clear_run (move : Bool) (ctx : Context) (m : ℕ → FbChar) :
    (clear g move ctx).run g.cells m =
      some (if move then ctx.at 0 0 else ctx, fun i => if i < g.cells then empty ctx else m i) := by
  have hfill : ∀ i < g.rows * g.cols, ∀ m : ℕ → FbChar,
      (pushToQueue g (empty ctx) (i % g.cols) (i / g.cols)).run g.cells m =
        some (⟨⟩, Function.update m (0 + i) (empty ctx)) := by
    intro i hi m
    obtain ⟨hx, hy, heq⟩ := g.cell_of_lt hi
    rw [run_pushToQueue _ hx hy, heq, Nat.zero_add]
  rw [clear, run_bind, run_forM_fill hfill]
  show some (_, fun p => if 0 ≤ p ∧ p < 0 + g.rows * g.cols then empty ctx else m p) = _
  congr 2
  funext i
  rw [Nat.zero_add]
  exact if_congr (by rw [and_iff_right (Nat.zero_le i)]; rfl) rfl rfl

/-- The branch `J` of `control_sequence_parse` with the parameter 2. -/
theorem eraseScreen_eq (h : ctx.escValues 0 = 2) :
    controlSequence g (byte 'J') ctx = clear g false ctx := by
  show eraseDisplay g _ _ ctx = _
  rw [eraseDisplay, h, if_neg (by decide), if_neg (by decide), if_pos (Or.inl rfl)]

/-- Whether the screen scrolls. -/
def Context.scrolling (ctx : Context) (enabled : Bool) : Context :=
  { ctx with scrollEnabled := enabled }

/-- `CSI 2 J` clears the screen and leaves the cursor where it is. -/
theorem eraseSequence_run (htwo : ctx.escValues 0 = 2) (hprivate : ctx.decPrivate = false)
    (m : ℕ → FbChar) :
    (runSequence g (byte 'J') ctx).run g.cells m =
      some (ctx, fun i => if i < g.cells then empty ctx else m i) := by
  have herase : controlSequence g (byte 'J') (ctx.scrolling false) =
      clear g false (ctx.scrolling false) := eraseScreen_eq htwo
  rw [runSequence, if_neg (by simp [hprivate])]
  show (controlSequence g (byte 'J') (ctx.scrolling false) >>= fun ctx' =>
    (pure (ctx'.scrolling ctx.scrollEnabled) : Screen Context)).run _ _ = _
  rw [herase, run_bind, clear_run]
  rfl

/-- The same for the bytes of the sequence, read from an idle terminal: `ESC`,
`[`, `2` and `J` leave every cell of the screen empty, and the parser as it is
behind any sequence. -/
theorem eraseScreen_run (h : Idle ctx) (hprivate : ctx.decPrivate = false) (m : ℕ → FbChar) :
    ∃ e k vs, (putBytes g (sequence false [[byte '2']] (byte 'J')) ctx).run g.cells m =
      some (ctx.parsed e k vs, fun i => if i < g.cells then empty ctx else m i) := by
  have hending : Ending (byte 'J') :=
    ⟨⟨by decide, by decide, by decide⟩, by decide, by decide, by decide⟩
  have hdigits : ∀ p ∈ [[byte '2']], ∀ c ∈ p, isDigit c = true := by decide
  obtain ⟨e, hrun⟩ := sequence_parsed (g := g) h false hdigits hending (by decide)
  obtain ⟨vs, hvs⟩ : ∃ vs : ℕ → BitVec 32, vs = fun i => if i < maxEscValues then
    (values [[byte '2']]).getD i (escDefault (byte 'J')) else ctx.escValues i := ⟨_, rfl⟩
  have htwo : vs 0 = 2 := by
    rw [hvs]
    rfl
  -- the terminal at the last byte of the sequence
  obtain ⟨c, hc⟩ : ∃ c : Context, c = { ctx with decPrivate := ctx.decPrivate || false }.inSequence
    e (values [[byte '2']]).length false vs := ⟨_, rfl⟩
  have hleave : c.leave = ctx.parsed e (values [[byte '2']]).length vs := by
    rw [hc, Bool.or_false]
    exact congrArg (fun c : Context => c.parsed e (values [[byte '2']]).length vs) h.leave_eq
  have hprivate' : c.decPrivate = false := by
    rw [hc]
    show (ctx.decPrivate || false) = false
    rw [hprivate]
    rfl
  have hempty : empty c = empty ctx := by
    rw [hc]
    rfl
  refine ⟨e, (values [[byte '2']]).length, vs, ?_⟩
  rw [← hvs, ← hc] at hrun
  rw [hrun, run_bind, eraseSequence_run (by rw [hc]; exact htwo) hprivate', ← hleave,
    hempty]
  rfl

/-- In text mode the parser is idle, -/
theorem TextMode.idle (h : TextMode g ctx) : Idle ctx :=
  ⟨h.discardNext, h.unicodeRemaining, h.gSelect, h.escape, h.osc, h.controlSequence⟩

/-- and a sequence that has been read leaves it in text mode. -/
theorem TextMode.parsed (h : TextMode g ctx) (e k : ℕ) (vs : ℕ → BitVec 32) :
    TextMode g (ctx.parsed e k vs) := { h with }

/-- What the shell sends for `clear`: the screen is blanked and the cursor goes
home, which is a new sheet. -/
theorem newSheet_run (hmode : TextMode g ctx) (m : ℕ → FbChar) :
    ∃ ctx' m', (putBytes g Stroke.clear.bytes ctx).run g.cells m = some (ctx', m') ∧
      Onward g ctx ctx' ∧ OnPaper g ctx' ⟨[], []⟩ m' := by
  obtain ⟨e, k, vs, herase⟩ := eraseScreen_run (g := g) hmode.idle hmode.decPrivate m
  have hmode' := hmode.parsed e k vs
  have hnone : ∀ p ∈ ([] : List (List (BitVec 8))), ∀ c ∈ p, isDigit c = true :=
    fun p hp => absurd hp List.not_mem_nil
  obtain ⟨e', k', vs', hhome⟩ :=
    cursorAddress (g := g) hmode'.idle hmode'.decPrivate hnone (.inl rfl)
  have horigin : min (((values []).getD 1 1).toNat - 1) (g.cols - 1) = 0 ∧
      min (((values []).getD 0 1).toNat - 1) (g.rows - 1) = 0 :=
    ⟨Nat.zero_min _, Nat.zero_min _⟩
  rw [horigin.1, horigin.2] at hhome
  refine ⟨((ctx.parsed e k vs).parsed e' k' vs').at 0 0,
    fun i => if i < g.cells then empty ctx else m i, ?_,
    ⟨(hmode'.parsed e' k' vs').at 0 0, rfl, rfl⟩, .blank rfl rfl fun i hi => if_pos hi⟩
  rw [Stroke.bytes, putBytes_append, run_bind, herase]
  show (putBytes g (sequence false [] (byte 'H')) (ctx.parsed e k vs)).run _ _ = _
  rw [hhome]
  rfl

-- ---------------------------------------------------------------------------
-- Strokes
-- ---------------------------------------------------------------------------

/-- **Step.** A character, a backspace within the row, or a cleared screen: the
terminal does to its screen what the stroke does to the sheet, and is in text
mode again. -/
theorem Stroke.run (s : Stroke) (hmode : TextMode g ctx) (hwide : g.rows ≤ g.cols)
    (h : OnPaper g ctx p m) (hfits : s.Fits g.cols p) :
    ∃ ctx' m', (putBytes g s.bytes ctx).run g.cells m = some (ctx', m') ∧
      Onward g ctx ctx' ∧ OnPaper g ctx' (s.apply g.cols p) m' := by
  cases s with
  | char c =>
    obtain ⟨x, y, m', hrun, hpaper⟩ := rawPutchar_run hmode hwide h c
    refine ⟨ctx.at x y, m', ?_, hmode.onward_at x y, hpaper⟩
    rw [Stroke.bytes, putBytes_singleton, putchar_printable hmode hfits, hrun]
  | newline =>
    obtain ⟨m', hrun, hpaper⟩ := lineFeed_run hmode h
    refine ⟨_, m', ?_, hmode.onward_at _ _, hpaper⟩
    rw [Stroke.bytes, putBytes_singleton, putchar_newline hmode, hrun]
  | rubout => exact rubout_run hmode h hfits.1 hfits.2
  | clear => exact newSheet_run hmode m

/-- Every stroke fits where it is made. -/
def FitAll (cols : ℕ) : Paper (BitVec 8) → List Stroke → Prop
  | _, [] => True
  | p, s :: ss => s.Fits cols p ∧ FitAll cols (s.apply cols p) ss

theorem fitAll_append {cols : ℕ} {p : Paper (BitVec 8)} {ss ts : List Stroke}
    (hss : FitAll cols p ss) (hts : FitAll cols (ss.foldl (Stroke.apply cols) p) ts) :
    FitAll cols p (ss ++ ts) := by
  induction ss generalizing p with
  | nil => exact hts
  | cons s ss ih => exact ⟨hss.1, ih hss.2 hts⟩

/-- **Run.** -/
theorem strokes_run (ss : List Stroke) (hmode : TextMode g ctx) (hwide : g.rows ≤ g.cols)
    (h : OnPaper g ctx p m) (hfits : FitAll g.cols p ss) :
    ∃ ctx' m', (putBytes g (ss.flatMap Stroke.bytes) ctx).run g.cells m = some (ctx', m') ∧
      Onward g ctx ctx' ∧ OnPaper g ctx' (ss.foldl (Stroke.apply g.cols) p) m' := by
  induction ss generalizing ctx p m with
  | nil => exact ⟨ctx, m, rfl, hmode.onward_at _ _, h⟩
  | cons s ss ih =>
    obtain ⟨ctx₁, m₁, hrun, honward, hpaper⟩ := s.run hmode hwide h hfits.1
    obtain ⟨ctx', m', hrun', honward', hpaper'⟩ := ih honward.mode hpaper hfits.2
    refine ⟨ctx', m', ?_, honward.trans honward', hpaper'⟩
    rw [List.flatMap_cons, putBytes_append, run_bind, hrun]
    exact hrun'

end Flanterm
