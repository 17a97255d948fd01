import Medlar64.Flanterm.Init
import Medlar64.Flanterm.Invariant

/-!
# Flanterm: lines of the screen

What the loops of `flanterm_fb_scroll` and `flanterm_fb_revscroll` do to the
lines between the margins. Each loop copies cells of the grid onto cells of the
same grid, one line further, in an order in which nothing is overwritten before
it has been read.

* `scroll_run`, `revscroll_run` — one line up, one line down.
* `scrolls_run`, `revscrolls_run` — any number of lines.
* `insertLines_deleteLines` — the control sequences `L` and `M` with their
  counts.
-/

namespace Flanterm

open ArrayProg

variable {g : FbConfig} {ctx : Context} {x y : ℕ}

-- ---------------------------------------------------------------------------
-- Characters
-- ---------------------------------------------------------------------------

theorem run_pushToQueue (c : FbChar) (hx : x < g.cols) (hy : y < g.rows) (m : ℕ → FbChar) :
    (pushToQueue g c x y).run g.cells m = some ((), Function.update m (y * g.cols + x) c) := by
  rw [pushToQueue, if_neg (by omega)]
  exact run_write (index_lt hx hy) c m

/-- A character is copied to the place with index `j`. -/
theorem run_copy {i j : ℕ} (hi : i < g.cells) (hj : j < g.cells) (m : ℕ → FbChar) :
    (do
      let c ← read i
      pushToQueue g c (j % g.cols) (j / g.cols) : Screen Unit).run g.cells m =
      some ((), Function.update m j (m i)) := by
  obtain ⟨hx, hy, hcell⟩ := g.cell_of_lt hj
  rw [run_bind, run_read hi]
  show (pushToQueue g (m i) (j % g.cols) (j / g.cols)).run g.cells m = _
  rw [run_pushToQueue _ hx hy, hcell]

/-- A line is filled. -/
theorem run_fillLine (c : FbChar) (hy : y < g.rows) (m : ℕ → FbChar) :
    ((upTo 0 g.cols).forM fun i => pushToQueue g c i y : Screen PUnit).run g.cells m =
      some (⟨⟩, fun p => if p / g.cols = y then c else m p) := by
  rw [run_forM_fill (a := y * g.cols) (k := g.cols) (x := c)
    (fun i hi m => run_pushToQueue c hi hy m) m]
  congr 2
  funext p
  have hiff : (y * g.cols ≤ p ∧ p < y * g.cols + g.cols) ↔ p / g.cols = y := by
    rw [← Nat.le_div_iff_mul_le g.cols_pos, ← Nat.succ_mul, ← Nat.div_lt_iff_lt_mul g.cols_pos]
    omega
  simp only [hiff]

-- ---------------------------------------------------------------------------
-- One line
-- ---------------------------------------------------------------------------

/-- The lines between the margins go up by one. -/
def lineUp (g : FbConfig) (top bottom : ℕ) (blank : FbChar) (m : ℕ → FbChar) (p : ℕ) : FbChar :=
  if p / g.cols + 1 = bottom then blank
  else if top ≤ p / g.cols ∧ p / g.cols + 1 < bottom then m (p + g.cols)
  else m p

/-- The lines between the margins go down by one. -/
def lineDown (g : FbConfig) (top bottom : ℕ) (blank : FbChar) (m : ℕ → FbChar) (p : ℕ) : FbChar :=
  if p / g.cols = top then blank
  else if top < p / g.cols ∧ p / g.cols < bottom then m (p - g.cols)
  else m p

/--
**One line up.** Between the margins every line takes the place of the one
above it and the last one is cleared; the lines outside stay. The loop goes
upwards, so the cell one line further is still the old one.
-/
theorem scroll_run (ctx : Context) (htop : ctx.scrollTopMargin < ctx.scrollBottomMargin)
    (hbottom : ctx.scrollBottomMargin ≤ g.rows) (m : ℕ → FbChar) :
    (scroll g ctx).run g.cells m = some ((),
      lineUp g ctx.scrollTopMargin ctx.scrollBottomMargin (empty ctx) m) := by
  have hcols := g.cols_pos
  have hle : (ctx.scrollTopMargin + 1) * g.cols ≤ ctx.scrollBottomMargin * g.cols :=
    Nat.mul_le_mul_right _ htop
  have hcells : ctx.scrollBottomMargin * g.cols ≤ g.cells := Nat.mul_le_mul_right _ hbottom
  have hone : g.cols ≤ (ctx.scrollTopMargin + 1) * g.cols := by
    rw [Nat.succ_mul]
    omega
  have hmove := run_forM_moveDown (n := g.cells) hle hcols hone
    (fun i hai hib m => run_copy (g := g) (i := i) (j := i - g.cols) (by omega) (by omega) m) m
  rw [scroll, run_bind, hmove]
  refine (run_fillLine (empty ctx) (by omega) _).trans ?_
  congr 2
  funext p
  -- the bounds of the loop in lines
  have hlow : (ctx.scrollTopMargin + 1) * g.cols ≤ p + g.cols ↔
      ctx.scrollTopMargin ≤ p / g.cols := by
    rw [Nat.succ_mul, Nat.add_le_add_iff_right, Nat.le_div_iff_mul_le hcols]
  have hhigh : p + g.cols < ctx.scrollBottomMargin * g.cols ↔
      p / g.cols + 1 < ctx.scrollBottomMargin := by
    rw [← Nat.div_lt_iff_lt_mul hcols, Nat.add_div_right p hcols]
  have hlast : p / g.cols = ctx.scrollBottomMargin - 1 ↔
      p / g.cols + 1 = ctx.scrollBottomMargin := by omega
  simp only [lineUp, hlow, hhigh, hlast]

/--
**One line down.** The loop goes downwards. Where the top margin is not above
the bottom one, which happens with the cursor below the region, the loop does
not run at all and the line at the top margin is cleared nevertheless.
-/
theorem revscroll_run (ctx : Context) (htop : ctx.scrollTopMargin < g.rows)
    (hpos : 0 < ctx.scrollBottomMargin) (hbottom : ctx.scrollBottomMargin ≤ g.rows)
    (m : ℕ → FbChar) :
    (revscroll g ctx).run g.cells m = some ((),
      lineDown g ctx.scrollTopMargin ctx.scrollBottomMargin (empty ctx) m) := by
  have hcols := g.cols_pos
  have hlast : (ctx.scrollBottomMargin - 1) * g.cols + g.cols =
      ctx.scrollBottomMargin * g.cols := by
    rw [← Nat.succ_mul, Nat.succ_eq_add_one, Nat.sub_add_cancel hpos]
  have hcells : ctx.scrollBottomMargin * g.cols ≤ g.cells := Nat.mul_le_mul_right _ hbottom
  rw [revscroll, run_bind]
  by_cases hregion : ctx.scrollTopMargin < ctx.scrollBottomMargin
  · have hle : ctx.scrollTopMargin * g.cols ≤ (ctx.scrollBottomMargin - 1) * g.cols :=
      Nat.mul_le_mul_right _ (by omega)
    have hmove := run_forM_moveUp (n := g.cells) hle hcols
      (fun i hai hib m => run_copy (g := g) (i := i) (j := i + g.cols) (by omega) (by omega) m) m
    rw [hmove]
    refine (run_fillLine (empty ctx) htop _).trans ?_
    congr 2
    funext p
    have hlow : ctx.scrollTopMargin * g.cols + g.cols ≤ p ↔ ctx.scrollTopMargin < p / g.cols := by
      rw [← Nat.succ_mul, ← Nat.le_div_iff_mul_le hcols, Nat.succ_le_iff]
    have hhigh : p < (ctx.scrollBottomMargin - 1) * g.cols + g.cols ↔
        p / g.cols < ctx.scrollBottomMargin := by
      rw [hlast, ← Nat.div_lt_iff_lt_mul hcols]
    simp only [lineDown, hlow, hhigh]
  · -- the cursor is below the region: only its line is cleared
    have hempty : downFrom ((ctx.scrollBottomMargin - 1) * g.cols) (ctx.scrollTopMargin * g.cols)
        = [] := by
      have hge : (ctx.scrollBottomMargin - 1) * g.cols ≤ ctx.scrollTopMargin * g.cols :=
        Nat.mul_le_mul_right _ (by omega)
      rw [downFrom, upTo, Nat.sub_eq_zero_of_le hge]
      rfl
    rw [hempty]
    refine (run_fillLine (empty ctx) htop _).trans ?_
    congr 2
    funext p
    have hno : ¬(ctx.scrollTopMargin < p / g.cols ∧ p / g.cols < ctx.scrollBottomMargin) := by
      omega
    simp only [lineDown, if_neg hno]

-- ---------------------------------------------------------------------------
-- Several lines
-- ---------------------------------------------------------------------------

/-- The lines between the margins go up by `n`. -/
def linesUp (g : FbConfig) (top bottom n : ℕ) (blank : FbChar) (m : ℕ → FbChar) (p : ℕ) : FbChar :=
  if top ≤ p / g.cols ∧ p / g.cols < bottom then
    if p / g.cols + n < bottom then m (p + n * g.cols) else blank
  else m p

/-- The lines between the margins go down by `n`. -/
def linesDown (g : FbConfig) (top bottom n : ℕ) (blank : FbChar) (m : ℕ → FbChar) (p : ℕ) :
    FbChar :=
  if n = 0 then m p
  else if p / g.cols = top then blank
  else if top < p / g.cols ∧ p / g.cols < bottom then
    if p / g.cols < top + n then blank else m (p - n * g.cols)
  else m p

/-- One line more is one line after `n` lines. -/
theorem lineUp_linesUp {top bottom : ℕ} (h : top < bottom) (n : ℕ) (blank : FbChar)
    (m : ℕ → FbChar) :
    lineUp g top bottom blank (linesUp g top bottom n blank m) =
      linesUp g top bottom (n + 1) blank m := by
  funext p
  have hdiv : (p + g.cols) / g.cols = p / g.cols + 1 := Nat.add_div_right p g.cols_pos
  have hmul : p + g.cols + n * g.cols = p + (n + 1) * g.cols := by
    rw [Nat.succ_mul]
    omega
  simp only [lineUp, linesUp, hdiv, hmul]
  split_ifs <;> first | rfl | omega

theorem linesDown_zero (top bottom : ℕ) (blank : FbChar) (m : ℕ → FbChar) :
    linesDown g top bottom 0 blank m = m := by
  funext p
  exact if_pos rfl

/-- One line more, downwards. The line of the top margin is blank after the
first one already, and that is what moves on. -/
theorem lineDown_linesDown (top bottom n : ℕ) (blank : FbChar) (m : ℕ → FbChar) :
    lineDown g top bottom blank (linesDown g top bottom n blank m) =
      linesDown g top bottom (n + 1) blank m := by
  funext p
  have hdiv : (p - g.cols) / g.cols = p / g.cols - 1 := by
    have := Nat.sub_mul_div p g.cols 1
    rwa [Nat.mul_one] at this
  have hmul : p - (n + 1) * g.cols = p - g.cols - n * g.cols := by
    rw [Nat.succ_mul]
    omega
  have hright : linesDown g top bottom (n + 1) blank m p =
      if p / g.cols = top then blank
      else if top < p / g.cols ∧ p / g.cols < bottom then
        if p / g.cols < top + (n + 1) then blank else m (p - g.cols - n * g.cols)
      else m p := by
    rw [linesDown, if_neg (Nat.succ_ne_zero n), hmul]
  rw [hright, lineDown]
  -- what comes from the line above is a line moved by `n`, or a blank
  cases n with
  | zero =>
    rw [linesDown_zero, Nat.zero_mul, Nat.sub_zero]
    split_ifs <;> first | rfl | omega
  | succ n =>
    have hleft : ∀ q, linesDown g top bottom (n + 1) blank m q =
        if q / g.cols = top then blank
        else if top < q / g.cols ∧ q / g.cols < bottom then
          if q / g.cols < top + (n + 1) then blank else m (q - (n + 1) * g.cols)
        else m q := fun q => if_neg (Nat.succ_ne_zero n)
    rw [hleft, hleft, hdiv]
    split_ifs <;> first | rfl | omega

/-- `n` times `scroll`. After `i` rounds the region is `i` lines further up;
that is the invariant of the loop, and `linesUp` adds up. -/
theorem scrolls_run (ctx : Context) (htop : ctx.scrollTopMargin < ctx.scrollBottomMargin)
    (hbottom : ctx.scrollBottomMargin ≤ g.rows) (n : ℕ) (m : ℕ → FbChar) :
    ((upTo 0 n).forM fun _ => scroll g ctx : Screen PUnit).run g.cells m = some (⟨⟩,
      linesUp g ctx.scrollTopMargin ctx.scrollBottomMargin n (empty ctx) m) := by
  have hstart : linesUp g ctx.scrollTopMargin ctx.scrollBottomMargin 0 (empty ctx) m = m := by
    funext p
    simp only [linesUp, Nat.add_zero, Nat.zero_mul]
    split_ifs <;> first | rfl | omega
  conv_lhs => rw [← hstart]
  refine run_forM_upTo
    (fun i => linesUp g ctx.scrollTopMargin ctx.scrollBottomMargin i (empty ctx) m)
    (Nat.zero_le n) fun i _ _ => ?_
  rw [scroll_run ctx htop hbottom, lineUp_linesUp htop]

/-- `n` times `revscroll`. -/
theorem revscrolls_run (ctx : Context) (htop : ctx.scrollTopMargin < g.rows)
    (hpos : 0 < ctx.scrollBottomMargin) (hbottom : ctx.scrollBottomMargin ≤ g.rows) (n : ℕ)
    (m : ℕ → FbChar) :
    ((upTo 0 n).forM fun _ => revscroll g ctx : Screen PUnit).run g.cells m = some (⟨⟩,
      linesDown g ctx.scrollTopMargin ctx.scrollBottomMargin n (empty ctx) m) := by
  have hstart := linesDown_zero (g := g) ctx.scrollTopMargin ctx.scrollBottomMargin (empty ctx) m
  conv_lhs => rw [← hstart]
  refine run_forM_upTo
    (fun i => linesDown g ctx.scrollTopMargin ctx.scrollBottomMargin i (empty ctx) m)
    (Nat.zero_le n) fun i _ _ => ?_
  rw [revscroll_run ctx htop hpos hbottom, lineDown_linesDown]

/--
**`CSI n L` and `CSI n M`.** Inserting scrolls the lines from the cursor to the
bottom margin down by `n`, deleting scrolls the whole region up by `n`; both
bring blank lines in and do not move the cursor. A count above the number of
rows is cut to it, which changes nothing that can be seen.

With the cursor below the bottom margin, inserting clears the line of the
cursor and does nothing else: that is the case in `linesDown` where a line is
the top one without being inside the region.
-/
theorem insertLines_deleteLines (h : Good g ctx) (m : ℕ → FbChar) :
    (controlSequence g (byte 'L') ctx).run g.cells m = some (ctx,
      linesDown g (cursorPosY g ctx) ctx.scrollBottomMargin
        (min (ctx.escValues 0).toNat g.rows) (empty ctx) m) ∧
    (controlSequence g (byte 'M') ctx).run g.cells m = some (ctx,
      linesUp g ctx.scrollTopMargin ctx.scrollBottomMargin
        (min (ctx.escValues 0).toNat g.rows) (empty ctx) m) := by
  have hpos : 0 < ctx.scrollBottomMargin := Nat.zero_lt_of_lt h.top_lt
  constructor
  · show (do
        (upTo 0 (min (ctx.escValues 0).toNat g.rows)).forM fun _ =>
          revscroll g (ctx.withTop (cursorPosY g ctx))
        pure ctx : Screen Context).run g.cells m = _
    -- `CSI L` scrolls with the cursor as top margin
    have hrun := revscrolls_run (ctx.withTop (cursorPosY g ctx)) (cursorPosY_lt g ctx) hpos
      h.bottom_le (min (ctx.escValues 0).toNat g.rows) m
    rw [run_bind, hrun]
    rfl
  · show (do
        (upTo 0 (min (ctx.escValues 0).toNat g.rows)).forM fun _ => scroll g ctx
        pure ctx : Screen Context).run g.cells m = _
    -- -- `CSI M` keeps the margins it has
    rw [run_bind, scrolls_run ctx h.top_lt h.bottom_le]
    rfl

/-- One line is deleted on the first screen, whose rows have different
characters: each row has the one of the next, and the last is blank. -/
theorem insertLines_deleteLines_start :
    (controlSequence xgaConfig (byte 'M') (setEscValue 0 1 (startContext xgaConfig))).run
      xgaConfig.cells (fun p => ⟨BitVec.ofNat 8 (p / xgaConfig.cols), 0, 0⟩) =
    some (setEscValue 0 1 (startContext xgaConfig),
      linesUp xgaConfig 0 xgaConfig.rows 1 (empty (startContext xgaConfig))
        fun p => ⟨BitVec.ofNat 8 (p / xgaConfig.cols), 0, 0⟩) :=
  have hgood : Good xgaConfig (setEscValue 0 1 (startContext xgaConfig)) :=
    { (startContext_ready xgaConfig).toGood with }
  (insertLines_deleteLines hgood _).2

end Flanterm
