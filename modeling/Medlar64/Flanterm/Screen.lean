import Medlar64.Flanterm.Flush
import Medlar64.Flanterm.Invariant

/-!
# Flanterm: the double-buffered terminal

`flanterm_write` collects what a string changes in a queue and draws it with
one flush. Measured against a terminal without a queue, which is the same
computation on a plain array of characters:

* `flantermWrite_step` — a call has a result, changes the screen like the plain
  terminal and shows it.
* `terminal_shows` — so do all calls from the start, however the bytes are cut
  into calls.
* `writes_split` — two ways to cut the same bytes end with the same picture.
-/

namespace Flanterm

open ArrayProg

variable {g : FbConfig}

/-- The characters on the screen, drawn or still in the queue. -/
def Machine.screen (s : Machine) : ℕ → FbChar := s.fb.buffer.view

/-- A machine between two calls. -/
structure MachineOk (g : FbConfig) (s : Machine) : Prop where
  ready : Ready g s.ctx
  fb : FbOk g s.fb
  displays : Displays g s.fb.framebuffer s.ctx s.screen

/-- The plain terminal: the bytes on an array of characters. -/
def plainWrite (g : FbConfig) (t : Context × (ℕ → FbChar)) (bytes : List (BitVec 8)) :
    Option (Context × (ℕ → FbChar)) :=
  (putBytes g bytes t.1).run g.cells t.2

/-- **Step.** A call of `flanterm_write` has a result and does to the screen what
the plain terminal does; the framebuffer shows the screen, and no pixel outside
the cells changes. -/
theorem flantermWrite_step {s : Machine} (h : MachineOk g s) (bytes : List (BitVec 8)) :
    ∃ s', flantermWrite g s bytes = some s' ∧ MachineOk g s' ∧
      plainWrite g (s.ctx, s.screen) bytes = some (s'.ctx, s'.screen) ∧
      SameMargins g s.fb.framebuffer s'.fb.framebuffer := by
  obtain ⟨ctx, buffer, hbuffer, hplain, hok, hbase, hready⟩ :=
    (h.ready.putBytes bytes).runBuffer h.fb.ok
  -- the queue has grown, the grid and the pixels are as they were
  have hfb : FbOk g { s.fb with buffer := buffer } := by
    refine ⟨hok, ?_⟩
    intro x hx y hy hne
    rw [show ({ s.fb with buffer := buffer } : Fb).buffer.base = s.fb.buffer.base from hbase]
    exact h.fb.shown x hx y hy hne
  obtain ⟨fb, hflush, hfb', hview, hdisplays, hmargins⟩ := doubleBufferFlush_shown hfb ctx
  refine ⟨⟨ctx, fb⟩, ?_, ⟨hready, hfb', ?_⟩, ?_, hmargins⟩
  · rw [flantermWrite, hbuffer]
    show autoFlush g ctx _ = _
    rw [autoFlush, if_pos hready.autoflush_eq, hflush]
    rfl
  · show Displays g fb.framebuffer ctx fb.buffer.view
    rw [hview]
    exact hdisplays
  · show (putBytes g bytes s.ctx).run g.cells s.fb.buffer.view = some (ctx, fb.buffer.view)
    rw [hview]
    exact hplain

-- ---------------------------------------------------------------------------
-- The start
-- ---------------------------------------------------------------------------

/-- The queue and the table at the start. -/
def startBuffer (g : FbConfig) : WriteBuffer FbChar :=
  ⟨fun _ => g.blank, fun _ => 0, fun _ => g.blank, 0, fun _ => none⟩

theorem startBuffer_ok (g : FbConfig) : (startBuffer g).Ok g.cells where
  entry k hk := absurd hk (Nat.not_lt_zero k)
  slot i k hi := by simp [startBuffer] at hi

/-- The pixels beside the text are background. -/
def BackgroundMargins (g : FbConfig) (fb : ℕ → BitVec 32) : Prop :=
  ∀ x < g.width, ∀ y < g.height,
    (∀ x' < g.cols, ∀ y' < g.rows, ¬InCell g x' y' (y * (g.pitch / 4) + x)) →
    fb (y * (g.pitch / 4) + x) = g.defaultBg

/-- The pixels outside the cells keep the background as long as nobody paints
there. -/
theorem BackgroundMargins.of_same {fb fb' : ℕ → BitVec 32} (h : BackgroundMargins g fb)
    (hsame : SameMargins g fb fb') : BackgroundMargins g fb' :=
  fun x hx y hy hout => (hsame _ hout).trans (h x hx y hy hout)

/-- The first picture is a blank screen with the cursor, on the background. It
is drawn in three steps, the background, the cells and the cursor, and each
leaves alone what the one before it has drawn elsewhere. -/
theorem startMachine_ok (g : FbConfig) (framebuffer : ℕ → BitVec 32) :
    ∃ s, startMachine g framebuffer = some s ∧ MachineOk g s ∧ s.ctx = startContext g ∧
      s.screen = (fun _ => g.blank) ∧ BackgroundMargins g s.fb.framebuffer ∧
      SameOutside g framebuffer s.fb.framebuffer := by
  obtain ⟨fb₁, hfill, hbackground, houtside⟩ := fillBackground_spec g framebuffer
  obtain ⟨fb₂, hgrid, hshown, hsame⟩ := plotGrid_spec (fun _ => g.blank) fb₁
  have hfb : FbOk g ⟨startBuffer g, fb₂, 0, 0⟩ :=
    ⟨startBuffer_ok g, fun x hx y hy _ => hshown x hx y hy⟩
  obtain ⟨fb, hdraw, hflush⟩ := hfb.drawEnabledCursor (startContext g)
  have hcount : fb.buffer.count = 0 := hflush.count_eq
  have hdrained : fb.buffer.Drained g.cells fb.buffer.count := by
    rw [hcount]
    exact hflush.drained
  have hview : fb.buffer.view = fun _ => g.blank := hflush.view_eq
  have hdisplays : Displays g fb.framebuffer (startContext g) fb.buffer.view := by
    intro x hx y hy
    rw [hview]
    split
    case isTrue hcur => exact (hflush.cursor x hx y hy hcur).2
    case isFalse hcur =>
      -- the cursor is where the table of the last cursor begins
      have hne : ¬(x = 0 ∧ y = 0) := fun heq => hcur ⟨rfl, heq.1, heq.2⟩
      exact hflush.shown x hx y hy hcur hne (hdrained.index_none _)
  refine ⟨⟨startContext g, fb⟩, ?_, ⟨startContext_ready g, ⟨?_, ?_⟩, hdisplays⟩, rfl, hview, ?_,
    (houtside.trans hsame.outside).trans hflush.margins.outside⟩
  · -- the first picture is drawn without a flush
    rw [startMachine]
    show (fullRefresh g (startContext g) ⟨startBuffer g, framebuffer, 0, 0⟩).bind _ = _
    rw [fullRefresh, hfill]
    show ((plotGrid g (fun _ => g.blank) fb₁).bind _).bind _ = _
    rw [hgrid]
    show (drawEnabledCursor g (startContext g) ⟨startBuffer g, fb₂, 0, 0⟩).bind _ = _
    rw [hdraw]
    rfl
  · have hok := hdrained.ok
    rw [← hcount] at hok
    exact hok
  · intro x hx y hy hne
    have hcur : ¬CursorCell (startContext g) x y := by
      rintro ⟨-, hcx, hcy⟩
      refine hne ⟨hcx.trans ?_, hcy.trans ?_⟩
      · rw [hflush.oldX_eq]
        rfl
      · rw [hflush.oldY_eq]
        rfl
    have hcell := hdisplays x hx y hy
    rw [if_neg hcur, ← hdrained.base_eq] at hcell
    exact hcell
  · refine BackgroundMargins.of_same ?_ hflush.margins
    intro x hx y hy hout
    exact (hsame _ hout).trans (hbackground x hx y hy)

-- ---------------------------------------------------------------------------
-- Whole runs
-- ---------------------------------------------------------------------------

/-- **Run.** All calls together do what the plain terminal does with the bytes
in one piece. -/
theorem flantermWrite_run (writes : List (List (BitVec 8))) {s : Machine} (h : MachineOk g s) :
    ∃ s', writes.foldlM (flantermWrite g) s = some s' ∧ MachineOk g s' ∧
      plainWrite g (s.ctx, s.screen) writes.flatten = some (s'.ctx, s'.screen) ∧
      SameMargins g s.fb.framebuffer s'.fb.framebuffer := by
  induction writes generalizing s with
  | nil => exact ⟨s, rfl, h, rfl, .refl _⟩
  | cons bytes writes ih =>
    obtain ⟨s₁, hstep, hok, hplain, hmargins⟩ := flantermWrite_step h bytes
    obtain ⟨s', hrun, hok', hplain', hmargins'⟩ := ih hok
    refine ⟨s', ?_, hok', ?_, hmargins.trans hmargins'⟩
    · rw [List.foldlM_cons, hstep]
      exact hrun
    · rw [plainWrite, List.flatten_cons, putBytes_append, run_bind]
      rw [plainWrite] at hplain
      rw [hplain]
      exact hplain'

/-- The machine after the given calls. -/
def runMachine (g : FbConfig) (framebuffer : ℕ → BitVec 32) (writes : List (List (BitVec 8))) :
    Option Machine := do
  let s ← startMachine g framebuffer
  writes.foldlM (flantermWrite g) s

/-- **The run of a terminal**, whatever is written: it has a result, its screen
is that of a plain terminal that read the same bytes in one piece, the picture
shows that screen, and outside the picture the framebuffer is untouched. -/
theorem runMachine_ok (g : FbConfig) (framebuffer : ℕ → BitVec 32)
    (writes : List (List (BitVec 8))) :
    ∃ s, runMachine g framebuffer writes = some s ∧ MachineOk g s ∧
      plainWrite g (startContext g, fun _ => g.blank) writes.flatten = some (s.ctx, s.screen) ∧
      BackgroundMargins g s.fb.framebuffer ∧ SameOutside g framebuffer s.fb.framebuffer := by
  obtain ⟨s₀, hstart, hok, hctx, hscreen, hmargins, houtside⟩ := startMachine_ok g framebuffer
  obtain ⟨s, hrun, hok', hplain, hsame⟩ := flantermWrite_run writes hok
  rw [hctx, hscreen] at hplain
  refine ⟨s, ?_, hok', hplain, hmargins.of_same hsame, houtside.trans hsame.outside⟩
  rw [runMachine, hstart]
  exact hrun

/-- **The double-buffered terminal is the plain one.** For every sequence of
calls of `flanterm_write` after `flanterm_fb_init` no access leaves its array
and the framebuffer shows, cell by cell, what a terminal without queue has on its
screen after the same bytes, inverted under the cursor; beside the text there
is the background, and no pixel outside the picture changes. -/
theorem terminal_shows (g : FbConfig) (framebuffer : ℕ → BitVec 32)
    (writes : List (List (BitVec 8))) :
    ∃ s ctx m, runMachine g framebuffer writes = some s ∧
      plainWrite g (startContext g, fun _ => g.blank) writes.flatten = some (ctx, m) ∧
      s.ctx = ctx ∧ Displays g s.fb.framebuffer ctx m ∧
      BackgroundMargins g s.fb.framebuffer ∧ SameOutside g framebuffer s.fb.framebuffer := by
  obtain ⟨s, hrun, hok, hplain, hmargins, houtside⟩ := runMachine_ok g framebuffer writes
  exact ⟨s, s.ctx, s.screen, hrun, hplain, rfl, hok.displays, hmargins, houtside⟩

/-- The data of the terminal is in order after any calls: the count of values,
the numbers that index palettes and character sets, and the margins are in
range, which is what the accesses of the parser rely on. -/
theorem terminal_ready (g : FbConfig) (framebuffer : ℕ → BitVec 32)
    (writes : List (List (BitVec 8))) :
    ∃ s, runMachine g framebuffer writes = some s ∧ Ready g s.ctx := by
  obtain ⟨s, hrun, hok, -⟩ := runMachine_ok g framebuffer writes
  exact ⟨s, hrun, hok.ready⟩

/-- The screen and the cursor decide the pixels. -/
theorem Displays.pixel_eq {fb fb' : ℕ → BitVec 32} {ctx : Context} {m : ℕ → FbChar} {x y p : ℕ}
    (h : Displays g fb ctx m) (h' : Displays g fb' ctx m) (hx : x < g.cols) (hy : y < g.rows)
    (hp : InCell g x y p) : fb p = fb' p := by
  obtain ⟨gx, hgx, gy, hgy, rfl⟩ := hp
  rw [h x hx y hy gx hgx gy hgy, h' x hx y hy gx hgx gy hgy]

/-- Two machines with the same screen show the same picture: cell by cell it
is what the screen and the cursor make of it, and the margins show the
background. -/
theorem MachineOk.pixels_eq {s s' : Machine} (h : MachineOk g s) (h' : MachineOk g s')
    (hmargins : BackgroundMargins g s.fb.framebuffer)
    (hmargins' : BackgroundMargins g s'.fb.framebuffer) (hctx : s.ctx = s'.ctx)
    (hscreen : s.screen = s'.screen) :
    ∀ x < g.width, ∀ y < g.height,
      s.fb.framebuffer (y * (g.pitch / 4) + x) = s'.fb.framebuffer (y * (g.pitch / 4) + x) := by
  intro x hx y hy
  have hdisplays' := h'.displays
  rw [← hctx, ← hscreen] at hdisplays'
  by_cases hin : ∃ x' < g.cols, ∃ y' < g.rows, InCell g x' y' (y * (g.pitch / 4) + x)
  · obtain ⟨x', hx', y', hy', hp⟩ := hin
    exact h.displays.pixel_eq hdisplays' hx' hy' hp
  · have hout : ∀ x' < g.cols, ∀ y' < g.rows, ¬InCell g x' y' (y * (g.pitch / 4) + x) :=
      fun x' hx' y' hy' hp => hin ⟨x', hx', y', hy', hp⟩
    rw [hmargins x hx y hy hout, hmargins' x hx y hy hout]

/-- **Flushes leave no trace.** However the bytes are cut into calls of
`flanterm_write`, the picture is the one after a single call. -/
theorem writes_split (g : FbConfig) (framebuffer : ℕ → BitVec 32)
    (writes : List (List (BitVec 8))) :
    ∃ s s', runMachine g framebuffer writes = some s ∧
      runMachine g framebuffer [writes.flatten] = some s' ∧ s.ctx = s'.ctx ∧
      ∀ x < g.width, ∀ y < g.height,
        s.fb.framebuffer (y * (g.pitch / 4) + x) = s'.fb.framebuffer (y * (g.pitch / 4) + x) := by
  obtain ⟨s, hrun, hok, hplain, hmargins, -⟩ := runMachine_ok g framebuffer writes
  obtain ⟨s', hrun', hok', hplain', hmargins', -⟩ := runMachine_ok g framebuffer [writes.flatten]
  rw [List.flatten_singleton, hplain] at hplain'
  obtain ⟨hctx, hscreen⟩ := Prod.mk.inj (Option.some.inj hplain')
  exact ⟨s, s', hrun, hrun', hctx, hok.pixels_eq hok' hmargins hmargins' hctx hscreen⟩

end Flanterm
