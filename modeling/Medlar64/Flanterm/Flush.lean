import Medlar64.Flanterm.Plot

/-!
# Flanterm: what a flush shows

`flanterm_fb_double_buffer_flush` brings to the framebuffer what has been
queued since the last one. The queue is a `WriteBuffer` over the grid; beside
it the flush keeps the picture in step with the grid.

* `FbOk` — between two flushes every cell shows its character of the grid, but
  for the cell with the cursor that was drawn last.
* `Flushing` — the same in the midst of the loop over the queue.
* `doubleBufferFlush_shown` — a flush stays inside its arrays, and after it
  every cell shows its newest character, inverted under the cursor.
* `fillBackground_spec`, `plotGrid_spec` — the two loops of the first picture.
-/

namespace Flanterm

variable {g : FbConfig} {ctx : Context} {s : Fb} {x y : ℕ}

/-- The cursor is drawn in this cell. -/
def CursorCell (ctx : Context) (x y : ℕ) : Prop :=
  ctx.cursorEnabled = true ∧ x = ctx.cursorX ∧ y = ctx.cursorY

instance (ctx : Context) (x y : ℕ) : Decidable (CursorCell ctx x y) :=
  inferInstanceAs (Decidable (_ ∧ _))

/-- The framebuffer shows the characters `m`, inverted under the cursor. -/
def Displays (g : FbConfig) (fb : ℕ → BitVec 32) (ctx : Context) (m : ℕ → FbChar) : Prop :=
  ∀ x < g.cols, ∀ y < g.rows,
    Shown g fb (if CursorCell ctx x y then (m (y * g.cols + x)).invert else m (y * g.cols + x)) x y

/-- Only pixels of cells differ. -/
def SameMargins (g : FbConfig) (fb fb' : ℕ → BitVec 32) : Prop :=
  ∀ p, (∀ x < g.cols, ∀ y < g.rows, ¬InCell g x y p) → fb' p = fb p

/-- Nothing was changed, -/
theorem SameMargins.refl (fb : ℕ → BitVec 32) : SameMargins g fb fb := fun _ _ => rfl

/-- and one change after another leaves alone what both do. -/
theorem SameMargins.trans {fb fb' fb'' : ℕ → BitVec 32} (h : SameMargins g fb fb')
    (h' : SameMargins g fb' fb'') : SameMargins g fb fb'' :=
  fun p hp => (h' p hp).trans (h p hp)

/-- Only pixels of the picture differ. -/
def SameOutside (g : FbConfig) (fb fb' : ℕ → BitVec 32) : Prop :=
  ∀ p, (∀ x < g.width, ∀ y < g.height, p ≠ y * (g.pitch / 4) + x) → fb' p = fb p

/-- The same for what lies outside the whole picture. -/
theorem SameOutside.trans {fb fb' fb'' : ℕ → BitVec 32} (h : SameOutside g fb fb')
    (h' : SameOutside g fb' fb'') : SameOutside g fb fb'' :=
  fun p hp => (h' p hp).trans (h p hp)

/-- The cells are part of the picture. -/
theorem SameMargins.outside {fb fb' : ℕ → BitVec 32} (h : SameMargins g fb fb') :
    SameOutside g fb fb' := by
  refine fun p hp => h p fun x hx y hy hin => ?_
  obtain ⟨gx, hgx, gy, hgy, rfl⟩ := hin
  exact hp _ (column_lt hx hgx) _ (line_lt hy hgy) (pixel_eq x y gx gy)

/-- The state between two flushes. -/
structure FbOk (g : FbConfig) (s : Fb) : Prop where
  ok : s.buffer.Ok g.cells
  shown : ∀ x < g.cols, ∀ y < g.rows, ¬(x = s.oldCursorX ∧ y = s.oldCursorY) →
    Shown g s.framebuffer (s.buffer.base (y * g.cols + x)) x y

/-- A character is plotted in its cell; the others show what they did. -/
theorem plotChar_other (c : FbChar) (hx : x < g.cols) (hy : y < g.rows) (fb : ℕ → BitVec 32) :
    ∃ fb', plotChar g c x y fb = some fb' ∧ Shown g fb' c x y ∧
      (∀ x' < g.cols, ∀ y' c', ¬(x' = x ∧ y' = y) → Shown g fb c' x' y' → Shown g fb' c' x' y') ∧
      SameMargins g fb fb' := by
  obtain ⟨fb', hplot, hshown, hframe⟩ := plotChar_shown c hx hy fb
  refine ⟨fb', hplot, hshown, fun x' hx' y' c' hne h => h.frame fun p hp => hframe p fun hin => ?_,
    fun p hp => hframe p (hp x hx y hy)⟩
  exact hne (hp.unique hx' hx hin)

-- ---------------------------------------------------------------------------
-- The queue is emptied
-- ---------------------------------------------------------------------------

/-- In the middle of a flush of the screen `v`, `m` entries being done. -/
structure Flushing (g : FbConfig) (ctx : Context) (v : ℕ → FbChar) (old : Fb) (m : ℕ) (s : Fb) :
    Prop where
  drained : s.buffer.Drained g.cells m
  view_eq : s.buffer.view = v
  count_eq : s.buffer.count = old.buffer.count
  oldX_eq : s.oldCursorX = old.oldCursorX
  oldY_eq : s.oldCursorY = old.oldCursorY
  cursor : ∀ x < g.cols, ∀ y < g.rows, CursorCell ctx x y →
    s.buffer.index (y * g.cols + x) = none ∧ Shown g s.framebuffer (v (y * g.cols + x)).invert x y
  shown : ∀ x < g.cols, ∀ y < g.rows, ¬CursorCell ctx x y →
    ¬(x = old.oldCursorX ∧ y = old.oldCursorY) → s.buffer.index (y * g.cols + x) = none →
    Shown g s.framebuffer (v (y * g.cols + x)) x y
  margins : SameMargins g old.framebuffer s.framebuffer

/-- Without an entry the grid has the character of the screen. -/
theorem FbOk.shown_view (h : FbOk g s) (hx : x < g.cols) (hy : y < g.rows)
    (hold : ¬(x = s.oldCursorX ∧ y = s.oldCursorY))
    (hnone : s.buffer.index (y * g.cols + x) = none) :
    Shown g s.framebuffer (s.buffer.view (y * g.cols + x)) x y := by
  rw [WriteBuffer.view_of_none hnone]
  exact h.shown x hx y hy hold

/-- The cursor is drawn first, over the newest character of its cell, and takes
that character out of the queue. Without a cursor, or with one behind the last
column, nothing happens; in all three cases the loop can begin. -/
theorem FbOk.drawEnabledCursor (h : FbOk g s) (ctx : Context) :
    ∃ s', drawEnabledCursor g ctx s = some s' ∧ Flushing g ctx s.buffer.view s 0 s' := by
  have hstay : (∀ x < g.cols, ∀ y < g.rows, ¬CursorCell ctx x y) →
      Flushing g ctx s.buffer.view s 0 s := fun hno =>
    { drained := h.ok.pending.drained_zero
      view_eq := rfl
      count_eq := rfl
      oldX_eq := rfl
      oldY_eq := rfl
      cursor := fun x hx y hy hcur => absurd hcur (hno x hx y hy)
      shown := fun x hx y hy _ hold hnone => h.shown_view hx hy hold hnone
      margins := .refl _ }
  rw [Flanterm.drawEnabledCursor]
  split
  -- no cursor is drawn when it is off, or behind the last column
  case isFalse hoff => exact ⟨s, rfl, hstay fun x _ y _ hcur => hoff hcur.1⟩
  case isTrue hon =>
    rw [drawCursor]
    split
    case isTrue hout =>
      refine ⟨s, rfl, hstay ?_⟩
      intro x hx y hy hcur
      obtain ⟨-, rfl, rfl⟩ := hcur
      omega
    case isFalse hin =>
      have hx : ctx.cursorX < g.cols := by omega
      have hy : ctx.cursorY < g.rows := by omega
      have hi : ctx.cursorX + ctx.cursorY * g.cols = ctx.cursorY * g.cols + ctx.cursorX :=
        Nat.add_comm _ _
      obtain ⟨fb, hplot, hshown, hother, hmargins⟩ :=
        plotChar_other (s.buffer.view (ctx.cursorY * g.cols + ctx.cursorX)).invert hx hy
          s.framebuffer
      rw [hi]
      refine ⟨{ s with
        framebuffer := fb
        buffer := s.buffer.commit (ctx.cursorY * g.cols + ctx.cursorX) }, ?_, ?_⟩
      · show (if _ < g.rows * g.cols then _ else _) = _
        rw [if_pos (index_lt hx hy), hplot]
        rfl
      · refine
          { drained := (h.ok.pending.commit _).drained_zero
            view_eq := WriteBuffer.view_commit _ _
            count_eq := WriteBuffer.commit_count _ _
            oldX_eq := rfl
            oldY_eq := rfl
            cursor := ?_
            shown := ?_
            margins := hmargins }
        · rintro x hx' y hy' ⟨-, rfl, rfl⟩
          exact ⟨s.buffer.commit_index_self _, hshown⟩
        · -- another cell has its entry still, and its pixels
          intro x hx' y hy' hcur hold hnone
          have hne : ¬(x = ctx.cursorX ∧ y = ctx.cursorY) := fun heq => hcur ⟨hon, heq⟩
          have hindex : y * g.cols + x ≠ ctx.cursorY * g.cols + ctx.cursorX := by
            intro heq
            obtain ⟨hyy, hxx⟩ := index_inj hx' hx heq
            exact hne ⟨hxx, hyy⟩
          change (s.buffer.commit _).index _ = none at hnone
          rw [s.buffer.commit_index_ne hindex] at hnone
          exact hother x hx' y _ hne (h.shown_view hx' hy' hold hnone)

/--
**Step.** One entry of the queue. An entry whose cell was committed meanwhile,
as that under the cursor was, is skipped; any other is plotted, leaves the
queue and becomes the character of its cell. The other cells keep their pixels,
because no pixel belongs to two cells.
-/
theorem Flushing.flushEntry {v : ℕ → FbChar} {old : Fb} {m : ℕ} (h : Flushing g ctx v old m s)
    (hm : m < old.buffer.count) (hle : old.buffer.count ≤ g.cells) :
    ∃ s', flushEntry g s m = some s' ∧ Flushing g ctx v old (m + 1) s' := by
  have hmcount : m < s.buffer.count := by rw [h.count_eq]; exact hm
  have hkey := (h.drained.entry m hmcount).1
  rw [Flanterm.flushEntry]
  show ∃ s', (if m < g.cells ∧ s.buffer.key m < g.cells then _ else _) = some s' ∧ _
  rw [if_pos ⟨by omega, hkey⟩]
  have hcommit := h.drained.commit
  cases hindex : s.buffer.index (s.buffer.key m) with
  | none =>
    rw [WriteBuffer.commit_of_none hindex] at hcommit
    exact ⟨s, rfl, { h with drained := hcommit }⟩
  | some k =>
    -- the entry is the one of its cell
    have hkm : k = m := by
      have hentry := (h.drained.entry m hmcount).2
      rw [hindex] at hentry
      simpa using hentry
    subst hkm
    have hsettle := h.drained.toPending.settle_eq hmcount (by rw [hindex]; simp)
    have hval : s.buffer.val k = v (s.buffer.key k) := by
      rw [← h.view_eq, WriteBuffer.view_of_some hindex]
    obtain ⟨hx, hy, hcell⟩ := g.cell_of_lt hkey
    obtain ⟨fb, hplot, hshown, hother, hmargins⟩ :=
      plotChar_other (s.buffer.val k) hx hy s.framebuffer
    refine ⟨{ s with
      framebuffer := fb, buffer := s.buffer.settle (s.buffer.key k) (s.buffer.val k) }, ?_, ?_⟩
    · show (plotChar g (s.buffer.val k) _ _ s.framebuffer).bind _ = _
      rw [hplot]
      rfl
    rw [hsettle]
    refine
      { drained := hcommit
        view_eq := (WriteBuffer.view_commit _ _).trans h.view_eq
        count_eq := (WriteBuffer.commit_count _ _).trans h.count_eq
        oldX_eq := h.oldX_eq
        oldY_eq := h.oldY_eq
        cursor := fun x hx' y hy' hcur => ?_
        shown := fun x hx' y hy' hcur hold hnone => ?_
        margins := h.margins.trans hmargins }
    · obtain ⟨hnone, hinv⟩ := h.cursor x hx' y hy' hcur
      have hne : ¬(x = s.buffer.key k % g.cols ∧ y = s.buffer.key k / g.cols) := by
        rintro ⟨rfl, rfl⟩
        rw [hcell, hindex] at hnone
        contradiction
      refine ⟨?_, hother x hx' y _ hne hinv⟩
      show (s.buffer.commit _).index _ = none
      by_cases heq : y * g.cols + x = s.buffer.key k
      · rw [heq, s.buffer.commit_index_self]
      · rw [s.buffer.commit_index_ne heq, hnone]
    · by_cases heq : x = s.buffer.key k % g.cols ∧ y = s.buffer.key k / g.cols
      · obtain ⟨rfl, rfl⟩ := heq
        rw [hcell, ← hval]
        exact hshown
      · have hindex' : y * g.cols + x ≠ s.buffer.key k := by
          intro hi
          rw [← hi, index_mod y hx', index_div y hx'] at heq
          exact heq ⟨rfl, rfl⟩
        change (s.buffer.commit _).index _ = none at hnone
        rw [s.buffer.commit_index_ne hindex'] at hnone
        exact hother x hx' y _ heq (h.shown x hx' y hy' hcur hold hnone)

/--
The cell that the cursor has left is plotted once more from the grid, unless
the cursor is still there. After that the picture is complete: this was the one
cell that did not show its character.
-/
theorem Flushing.restoreCell {v : ℕ → FbChar} {old : Fb}
    (h : Flushing g ctx v old s.buffer.count s) :
    ∃ s', restoreCell g ctx s = some s' ∧ s'.buffer = s.buffer ∧
      Displays g s'.framebuffer ctx v ∧ SameMargins g old.framebuffer s'.framebuffer := by
  have hnone := h.drained.index_none
  have hbase : s.buffer.base = v := h.drained.base_eq.trans h.view_eq
  -- what is left to show is the cell of the old cursor
  have hrest : ∀ fb, (∀ x < g.cols, ∀ y < g.rows, ∀ c,
      ¬(x = old.oldCursorX ∧ y = old.oldCursorY) → Shown g s.framebuffer c x y → Shown g fb c x y) →
      (∀ x < g.cols, ∀ y < g.rows, x = old.oldCursorX → y = old.oldCursorY →
        Shown g fb (if CursorCell ctx x y then (v (y * g.cols + x)).invert
          else v (y * g.cols + x)) x y) →
      Displays g fb ctx v := by
    intro fb hkeep hold x hx y hy
    by_cases hxy : x = old.oldCursorX ∧ y = old.oldCursorY
    · exact hold x hx y hy hxy.1 hxy.2
    · refine hkeep x hx y hy _ hxy ?_
      split
      case isTrue hcur => exact (h.cursor x hx y hy hcur).2
      case isFalse hcur => exact h.shown x hx y hy hcur hxy (hnone _)
  rw [Flanterm.restoreCell, h.oldX_eq, h.oldY_eq]
  split
  case isFalse hsame =>
    -- the cursor is where it was, and was drawn again
    refine ⟨s, rfl, rfl, hrest _ (fun _ _ _ _ _ _ hshown => hshown) ?_, h.margins⟩
    rintro x hx y hy rfl rfl
    have hcur : CursorCell ctx old.oldCursorX old.oldCursorY := by
      simp only [ne_eq, not_or, not_not, Bool.not_eq_false] at hsame
      exact ⟨hsame.2, hsame.1.1, hsame.1.2⟩
    rw [if_pos hcur]
    exact (h.cursor _ hx _ hy hcur).2
  case isTrue hmoved =>
    split
    case isFalse hout =>
      refine ⟨s, rfl, rfl, hrest _ (fun _ _ _ _ _ _ hshown => hshown) ?_, h.margins⟩
      rintro x hx y hy rfl rfl
      exact absurd ⟨hx, hy⟩ hout
    case isTrue hin =>
      obtain ⟨fb, hplot, hshown, hother, hmargins⟩ :=
        plotChar_other (s.buffer.base (old.oldCursorY * g.cols + old.oldCursorX)) hin.1 hin.2
          s.framebuffer
      refine ⟨⟨s.buffer, fb, old.oldCursorX, old.oldCursorY⟩, ?_, rfl, hrest _ ?_ ?_,
        h.margins.trans hmargins⟩
      · rw [Nat.add_comm old.oldCursorX]
        show (if _ < g.rows * g.cols then _ else _) = _
        rw [if_pos (index_lt hin.1 hin.2), hplot]
        rfl
      · exact fun x hx y hy c hne hold => hother x hx y c hne hold
      · rintro x hx y hy rfl rfl
        have hcur : ¬CursorCell ctx old.oldCursorX old.oldCursorY := by
          rintro ⟨hon, hcx, hcy⟩
          simp [hcx, hcy, hon] at hmoved
        rw [if_neg hcur, ← hbase]
        exact hshown

/--
**A flush.** From any state in which grid and picture agree, with anything in
the queue, the flush ends without leaving an array; afterwards every cell of
the screen shows its newest character, the cell of the cursor inverted, and no
pixel outside the cells has changed. Grid and picture agree again, so flushes
can follow one another.
-/
theorem doubleBufferFlush_shown (h : FbOk g s) (ctx : Context) :
    ∃ s', doubleBufferFlush g ctx s = some s' ∧ FbOk g s' ∧ s'.buffer.view = s.buffer.view ∧
      Displays g s'.framebuffer ctx s.buffer.view ∧ SameMargins g s.framebuffer s'.framebuffer := by
  -- the three stages: the cursor, the queue, the cell the cursor has left
  obtain ⟨s₁, hdraw, hstart⟩ := h.drawEnabledCursor ctx
  obtain ⟨s₂, hloop, hend⟩ := foldlM_upTo (Flushing g ctx s.buffer.view s)
    (fun m hm t ht => ht.flushEntry hm h.ok.count_le) hstart
  have hcount : s₁.buffer.count = s.buffer.count := hstart.count_eq
  rw [← hend.count_eq] at hend
  obtain ⟨s₃, hrestore, hbuffer, hdisplay, hmargins⟩ := hend.restoreCell
  refine ⟨{ s₃ with
    oldCursorX := ctx.cursorX
    oldCursorY := ctx.cursorY
    buffer := { s₃.buffer with count := 0 } }, ?_, ?_, ?_, hdisplay, hmargins⟩
  · rw [doubleBufferFlush, hdraw]
    show Option.bind ((upTo 0 s₁.buffer.count).foldlM _ s₁) _ = _
    rw [hcount, hloop]
    show (Flanterm.restoreCell g ctx s₂).bind _ = _
    rw [hrestore]
    rfl
  · have hbase : s₂.buffer.base = s.buffer.view := hend.drained.base_eq.trans hend.view_eq
    -- where the cursor is not, cell and picture agree again
    constructor
    · rw [hbuffer]
      exact hend.drained.ok
    · intro x hx y hy hne
      have hcur : ¬CursorCell ctx x y := fun hcur => hne hcur.2
      have hshown := hdisplay x hx y hy
      rw [if_neg hcur, ← hbase] at hshown
      rw [hbuffer]
      exact hshown
  · rw [hbuffer]
    exact hend.view_eq

-- ---------------------------------------------------------------------------
-- The first picture
-- ---------------------------------------------------------------------------

/-- The background is painted over every pixel of the picture, and over nothing
else. -/
theorem fillBackground_spec (g : FbConfig) (fb : ℕ → BitVec 32) :
    ∃ fb', fillBackground g fb = some fb' ∧
      (∀ x < g.width, ∀ y < g.height, fb' (y * (g.pitch / 4) + x) = g.defaultBg) ∧
      SameOutside g fb fb' := by
  have hloop : fillBackground g fb = some (writeAll fb ((upTo 0 g.height).flatMap fun y =>
      (upTo 0 g.width).flatMap fun x => [(y * (g.pitch / 4) + x, g.defaultBg)])) := by
    refine foldlM_writes (fun y hy m => foldlM_writes (fun x hx m => ?_) m) fb
    rw [storePixel, if_pos (g.inside x (mem_upTo.mp hx).2 y (mem_upTo.mp hy).2)]
    rfl
  refine ⟨_, hloop, fun x hx y hy => writeAll_of_mem ?_ (fun w hw _ => ?_) fb,
    fun p hp => writeAll_of_notMem (fun w hw => ?_) fb⟩
  · simp only [List.mem_flatMap, mem_upTo, List.mem_singleton]
    exact ⟨y, ⟨Nat.zero_le _, hy⟩, x, ⟨Nat.zero_le _, hx⟩, rfl⟩
  · simp only [List.mem_flatMap, List.mem_singleton] at hw
    obtain ⟨_, _, _, _, rfl⟩ := hw
    rfl
  · simp only [List.mem_flatMap, mem_upTo, List.mem_singleton] at hw
    obtain ⟨y, ⟨-, hy⟩, x, ⟨-, hx⟩, rfl⟩ := hw
    exact (hp x hx y hy).symm

/-- The loop of `flanterm_fb_full_refresh` over the grid plots every cell, each
inside itself. -/
theorem plotGrid_spec (grid : ℕ → FbChar) (fb : ℕ → BitVec 32) :
    ∃ fb', plotGrid g grid fb = some fb' ∧
      (∀ x < g.cols, ∀ y < g.rows, Shown g fb' (grid (y * g.cols + x)) x y) ∧
      SameMargins g fb fb' := by
  have hstep : ∀ i < g.cells, ∀ fb₁, ((∀ x < g.cols, ∀ y < g.rows, y * g.cols + x < i →
      Shown g fb₁ (grid (y * g.cols + x)) x y) ∧ SameMargins g fb fb₁) →
      ∃ fb₂, plotChar g (grid i) (i % g.cols) (i / g.cols) fb₁ = some fb₂ ∧
        (∀ x < g.cols, ∀ y < g.rows, y * g.cols + x < i + 1 →
          Shown g fb₂ (grid (y * g.cols + x)) x y) ∧ SameMargins g fb fb₂ := by
    intro i hi fb₁ hinv
    obtain ⟨hx, hy, hcell⟩ := g.cell_of_lt hi
    obtain ⟨fb₂, hplot, hshown, hother, hmargins⟩ := plotChar_other (grid i) hx hy fb₁
    refine ⟨fb₂, hplot, ?_, hinv.2.trans hmargins⟩
    intro x hx' y hy' hlt
    -- the cell just plotted, or one before it
    by_cases heq : x = i % g.cols ∧ y = i / g.cols
    · obtain ⟨rfl, rfl⟩ := heq
      rw [hcell]
      exact hshown
    · refine hother x hx' y _ heq (hinv.1 x hx' y hy' ?_)
      have hne : y * g.cols + x ≠ i := by
        intro hi'
        rw [← hi', index_mod y hx', index_div y hx'] at heq
        exact heq ⟨rfl, rfl⟩
      omega
  obtain ⟨fb', hloop, hall, hmargins⟩ := foldlM_upTo _ hstep
    ⟨fun x _ y _ h => absurd h (Nat.not_lt_zero _), SameMargins.refl fb⟩
  exact ⟨fb', hloop, fun x hx y hy => hall x hx y hy (index_lt hx hy), hmargins⟩

end Flanterm
