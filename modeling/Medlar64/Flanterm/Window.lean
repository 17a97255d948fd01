import Medlar64.Flanterm.Pool

/-!
# Flanterm: the terminal in the framebuffer

The picture of the terminal is at most 1920 × 1200 pixels; on a larger
framebuffer it is in the middle. `mem` are the words of the framebuffer.

* `window_kept` — no pixel around the picture changes.
* `terminal_window` — the picture shows what was written, and nothing else changes.
-/

namespace Flanterm

variable {a : FbArgs}

/-- The framebuffer with another picture. -/
def withPicture (a : FbArgs) (mem picture : ℕ → BitVec 32) (q : ℕ) : BitVec 32 :=
  if q < a.pictureOffset / 4 then mem q else picture (q - a.pictureOffset / 4)

/-- The pixel of the framebuffer at `x`, `y`. -/
def screenPixel (a : FbArgs) (x y : ℕ) : ℕ := y * (a.pitch / 4) + x

/-- The picture is where it should be. -/
theorem pictureOffset_div (a : FbArgs) (hpitch : a.pitch % 4 = 0) :
    a.pictureOffset / 4 = screenPixel a a.pictureX a.pictureY := by
  have hwords : a.pitch = a.pitch / 4 * 4 := by omega
  rw [a.pictureOffset_eq, screenPixel, hwords, ← Nat.mul_assoc, ← Nat.add_mul,
    Nat.mul_div_cancel _ (by decide), Nat.mul_div_cancel _ (by decide)]

/-- A pixel of the picture in the framebuffer. -/
theorem withPicture_inside (hpitch : a.pitch % 4 = 0) (mem picture : ℕ → BitVec 32) (x y : ℕ) :
    withPicture a mem picture (screenPixel a (a.pictureX + x) (a.pictureY + y)) =
      picture (y * (a.pitch / 4) + x) := by
  have hpixel : screenPixel a (a.pictureX + x) (a.pictureY + y) =
      a.pictureOffset / 4 + (y * (a.pitch / 4) + x) := by
    rw [pictureOffset_div a hpitch, screenPixel, screenPixel, Nat.add_mul]
    omega
  rw [withPicture, if_neg (by omega), hpixel, Nat.add_sub_cancel_left]

/-- Around the picture nothing changes. A pixel of the framebuffer has one
column and one line, so that one outside the rectangle of the picture is none
of its pixels, also where a line of the framebuffer is longer than the picture
is wide. -/
theorem window_kept (h : a.Usable) (hpitch : a.pitch % 4 = 0) (font : ℕ → BitVec 8)
    {mem picture : ℕ → BitVec 32}
    (hsame : SameOutside (fbConfig a font h) (pictureOf a mem) picture)
    {x y : ℕ} (hx : x < a.width)
    (hout : ¬((a.pictureX ≤ x ∧ x < a.pictureX + a.pictureWidth) ∧
      (a.pictureY ≤ y ∧ y < a.pictureY + a.pictureHeight))) :
    withPicture a mem picture (screenPixel a x y) = mem (screenPixel a x y) := by
  rw [withPicture]
  split
  · rfl
  · rename_i hge
    refine (hsame _ fun x' hx' y' hy' heq => hout ?_).trans ?_
    · -- a pixel of the picture has one place in the framebuffer
      have hwide := a.pictureX_add_le
      have hlines := h.pitch
      change x' < a.pictureWidth at hx'
      change y' < a.pictureHeight at hy'
      change _ = y' * (a.pitch / 4) + x' at heq
      have hpixel : screenPixel a x y = screenPixel a (a.pictureX + x') (a.pictureY + y') := by
        rw [Nat.sub_eq_iff_eq_add (Nat.not_lt.mp hge), pictureOffset_div a hpitch] at heq
        rw [heq, screenPixel, screenPixel, Nat.add_mul]
        omega
      obtain ⟨rfl, rfl⟩ := index_inj (by omega) (by omega) hpixel
      omega
    · rw [pictureOf, Nat.add_sub_cancel' (Nat.not_lt.mp hge)]

/--
**The terminal stays in its window.** For every usable framebuffer whose lines are
a whole number of pixels apart `flanterm_fb_init` returns a terminal, and after all
calls of `flanterm_write` on it the pixels around the picture have their values, and
the picture shows, cell by cell, what the bytes put on the plain terminal.
-/
theorem terminal_window (h : a.Usable) (hpitch : a.pitch % 4 = 0) (font : ℕ → BitVec 8)
    (mem : ℕ → BitVec 32) {p : Pool} (hfree : p.taken = false) (writes : List (List (BitVec 8))) :
    ∃ t p', fbInit a h.toFits font mem p = some (some t, p') ∧
      ∃ s ctx m, writes.foldlM (flantermWrite t.config) t.machine = some s ∧
        plainWrite t.config (startContext t.config, fun _ => t.config.blank) writes.flatten =
          some (ctx, m) ∧
        (∀ x < a.width, ∀ y, ¬((a.pictureX ≤ x ∧ x < a.pictureX + a.pictureWidth) ∧
            (a.pictureY ≤ y ∧ y < a.pictureY + a.pictureHeight)) →
          withPicture a mem s.fb.framebuffer (screenPixel a x y) = mem (screenPixel a x y)) ∧
        Displays t.config s.fb.framebuffer ctx m ∧
        ∀ x < a.pictureWidth, ∀ y < a.pictureHeight,
          withPicture a mem s.fb.framebuffer (screenPixel a (a.pictureX + x) (a.pictureY + y)) =
            s.fb.framebuffer (y * (a.pitch / 4) + x) := by
  obtain ⟨s₀, p', hstart, hinit, -⟩ := fbInit_usable h.toFits h font mem hfree
  refine ⟨_, p', hinit, ?_⟩
  obtain ⟨s, hrun, hok, hplain, -, houtside⟩ :=
    runMachine_ok (fbConfig a font h) (pictureOf a mem) writes
  rw [runMachine, hstart] at hrun
  exact ⟨s, s.ctx, s.screen, hrun, hplain,
    fun x hx y hout => window_kept h hpitch font houtside hx hout, hok.displays,
    fun x _ y _ => withPicture_inside hpitch mem _ x y⟩

/-- One character on a screen of 1024 × 768 pixels: the picture begins at its
first pixel, as there is no margin. -/
theorem terminal_window_xga : ∃ t p' s,
    fbInit xga xga_usable.toFits (fun _ => 0) (fun _ => 0) Pool.start = some (some t, p') ∧
      flantermWrite t.config t.machine [byte 'A'] = some s ∧
      withPicture xga (fun _ => 0) s.fb.framebuffer (screenPixel xga 0 0) =
        s.fb.framebuffer 0 := by
  obtain ⟨t, p', hinit, s, _, _, hrun, -, -, -, hinside⟩ :=
    terminal_window xga_usable rfl (fun _ => 0) (fun _ => 0) (p := Pool.start) rfl [[byte 'A']]
  refine ⟨t, p', s, hinit, ?_, hinside 0 (by decide) 0 (by decide)⟩
  rw [List.foldlM_cons] at hrun
  obtain ⟨s', hs', hend⟩ := Option.bind_eq_some_iff.mp hrun
  rw [hs', ← Option.some.inj hend]

end Flanterm
