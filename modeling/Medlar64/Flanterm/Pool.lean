import Medlar64.Flanterm.Init
import Medlar64.Flanterm.Screen
import Medlar64.Lib.Bump

/-!
# Flanterm: the terminal and its memory

`flanterm_fb_init` and `flanterm_fb_deinit` of `backends/fb.c`, as the kernel calls
them: without an allocator, so that the memory of the terminal is cut from a static
pool. The pool serves one terminal at a time; `bump_allocated_instance` says whether
it does.

A call of `flanterm_fb_init` has three ends. It returns a terminal, it returns
`NULL` for masks it does not accept or while another terminal is there, or the
sanitizer halts the kernel in it: for a mask shift of 32 or more in
`convert_colour`, for a picture that does not begin at a pixel, and for an odd
number of cells, behind which the table of the queue is not aligned.

* `fbInit_null`, `fbInit_usable`, `fbInit_halts` — the three ends of one call, by
  the pool and the arguments.
* `fbInit_history` — the same after any calls; a terminal is the one of `fbConfig`,
  and its blocks lie side by side in the pool.
-/

namespace Flanterm

open Bump

-- ---------------------------------------------------------------------------
-- The source functions
-- ---------------------------------------------------------------------------

/-- `bump_alloc_ptr` and `bump_allocated_instance`. Without a terminal nothing of the
pool is taken: an init that fails and a deinit give everything back. -/
structure Pool where
  ptr : ℕ
  taken : Bool
  empty : taken = false → ptr = 0

/-- The pool when the kernel starts. -/
def Pool.start : Pool := ⟨0, false, fun _ => rfl⟩

/-- What is left of the pool where `flanterm_fb_init` goes to `fail`. -/
def Pool.emptied (p : Pool) : Pool := ⟨0, p.taken, fun _ => rfl⟩

/-- `sizeof(struct flanterm_fb_context)` -/
def contextSize : ℕ := 792

namespace FbArgs

variable (a : FbArgs)

/-- The sizes of `font_bits`, `font_bool`, `grid`, `queue` and `map`. -/
def arraySizes : List ℕ :=
  [fontGlyphs * fontHeight, fontGlyphs * fontHeight * fontWidth, a.rows * a.cols * 12,
    a.rows * a.cols * 32, a.rows * a.cols * 8]

/-- All blocks, that of `struct flanterm_fb_context` in front. -/
def blockSizes : List ℕ := contextSize :: a.arraySizes

/-- Where `map` begins, when the first block begins at `ptr`. -/
def mapStart (ptr : ℕ) : ℕ := ptr + total (a.blockSizes.take 5)

/-- The table is aligned in an empty pool if and only if the number of cells is
even: the cells in front of it are 12 and 32 bytes long. -/
theorem mapStart_aligned : a.mapStart 0 % 8 = 0 ↔ a.rows * a.cols % 2 = 0 := by
  show (0 + total [792, 256 * 16, 256 * 16 * 9, a.rows * a.cols * 12, a.rows * a.cols * 32]) % 8 =
    0 ↔ _
  simp only [total]
  omega

variable {a}

/-- What the tests of `flanterm_fb_init` and its traps amount to. -/
theorem Fits.usable (h : a.Fits) (hmasks : ¬(a.redMaskSize < 8 ∨ a.redMaskSize ≠ a.greenMaskSize ∨
    a.redMaskSize ≠ a.blueMaskSize)) (hshifts : a.ShiftsOk) {ptr : ℕ} (hptr : ptr = 0)
    (haligned : a.pictureOffset % 4 = 0 ∧ a.mapStart ptr % 8 = 0) : a.Usable where
  toFits := h
  masks := by
    rw [MasksOk]
    omega
  shifts := hshifts
  picture_aligned := haligned.1
  cells_even := by
    subst hptr
    exact a.mapStart_aligned.mp haligned.2

end FbArgs

/-- The words from the first pixel of the picture on. -/
def pictureOf (a : FbArgs) (mem : ℕ → BitVec 32) (i : ℕ) : BitVec 32 :=
  mem (a.pictureOffset / 4 + i)

/-- What `flanterm_fb_init` returns: the blocks of a terminal, what it has settled and
the terminal with its first picture. -/
structure Terminal where
  blocks : List Block
  config : FbConfig
  machine : Machine

/-- `flanterm_fb_init` on a framebuffer whose words are `mem`. The outer `none` is a
halt of the kernel, the inner one is `NULL`. -/
def fbInit (a : FbArgs) (h : a.Fits) (font : ℕ → BitVec 8) (mem : ℕ → BitVec 32) (p : Pool) :
    Option (Option Terminal × Pool) :=
  if hmasks : a.redMaskSize < 8 ∨ a.redMaskSize ≠ a.greenMaskSize ∨
      a.redMaskSize ≠ a.blueMaskSize then
    some (none, p)
  else if htaken : p.taken = true then some (none, p)
  else
    match alloc poolSize contextSize p.ptr with
    | none => some (none, p.emptied)
    | some (block, ptr) =>
      -- `convert_colour` shifts by all three
      if hshifts : a.ShiftsOk then
        match allocAll poolSize a.arraySizes ptr with
        | none => some (none, p.emptied)
        | some (blocks, ptr) =>
          -- `flanterm_fb_full_refresh` stores pixels and reads `map` for the cursor
          if haligned : a.pictureOffset % 4 = 0 ∧ a.mapStart p.ptr % 8 = 0 then
            let g := fbConfig a font
              (h.usable hmasks hshifts (p.empty (Bool.eq_false_of_not_eq_true htaken)) haligned)
            (startMachine g (pictureOf a mem)).map fun s =>
              (some ⟨block :: blocks, g, s⟩, ⟨ptr, true, nofun⟩)
          else none
      else none

/-- `flanterm_fb_deinit` without `_free` -/
def fbDeinit (p : Pool) : Pool := if p.taken = true then Pool.start else p

-- ---------------------------------------------------------------------------
-- One call
-- ---------------------------------------------------------------------------

section Call

variable {a : FbArgs}

/-- The pool is large enough for every framebuffer. -/
theorem FbArgs.blockSizes_le (a : FbArgs) : total a.blockSizes ≤ poolSize := by
  have hcols : a.cols ≤ 213 := by
    refine (Nat.div_le_div a.pictureWidth_le.2 ?_ (by decide)).trans (by decide : 1920 / 9 ≤ 213)
    exact Nat.le_mul_of_pos_right _ a.scale_pos.1
  have hrows : a.rows ≤ 75 := by
    refine (Nat.div_le_div a.pictureHeight_le.2 ?_ (by decide)).trans (by decide : 1200 / 16 ≤ 75)
    exact Nat.le_mul_of_pos_right _ a.scale_pos.2
  have hcells : a.rows * a.cols ≤ 75 * 213 := Nat.mul_le_mul hrows hcols
  simp only [FbArgs.blockSizes, FbArgs.arraySizes, contextSize, total, fontGlyphs, fontHeight,
    fontWidth, poolSize]
  omega

/-- The test of the masks at the top of the function. -/
theorem FbArgs.masksOk_iff (a : FbArgs) :
    (a.redMaskSize < 8 ∨ a.redMaskSize ≠ a.greenMaskSize ∨ a.redMaskSize ≠ a.blueMaskSize) ↔
      ¬a.MasksOk := by
  rw [FbArgs.MasksOk]
  omega

/-- A usable framebuffer passes the tests, and nothing halts. -/
theorem FbArgs.Usable.aligned (h : a.Usable) {ptr : ℕ} (hptr : ptr = 0) :
    a.pictureOffset % 4 = 0 ∧ a.mapStart ptr % 8 = 0 := by
  subst hptr
  exact ⟨h.picture_aligned, a.mapStart_aligned.mpr h.cells_even⟩

/-- An init whose masks are not accepted, or that finds a terminal, changes nothing. -/
theorem fbInit_null (h : a.Fits) (font : ℕ → BitVec 8) (mem : ℕ → BitVec 32) {p : Pool}
    (hnull : ¬a.MasksOk ∨ p.taken = true) : fbInit a h font mem p = some (none, p) := by
  rw [fbInit]
  split
  case isTrue => rfl
  case isFalse hmasks =>
    have hok : a.MasksOk := by
      by_contra hbad
      exact hmasks (a.masksOk_iff.mpr hbad)
    rw [dif_pos (hnull.resolve_left (not_not_intro hok))]

/-- The blocks of an empty pool. -/
theorem allocs_eq (a : FbArgs) :
    alloc poolSize contextSize 0 = some (⟨0, contextSize⟩, contextSize) ∧
      allocAll poolSize a.arraySizes contextSize =
        some (blocks a.arraySizes contextSize, total a.blockSizes) := by
  refine ⟨rfl, ?_⟩
  have hle := a.blockSizes_le
  rw [FbArgs.blockSizes, total] at hle ⊢
  rw [allocAll_eq _ _ (by decide), if_pos hle]

/-- **A usable framebuffer** has its terminal, if the pool is free: the six
blocks fit, all of them are aligned, and the first picture is drawn. -/
theorem fbInit_usable (h : a.Fits) (hu : a.Usable) (font : ℕ → BitVec 8) (mem : ℕ → BitVec 32)
    {p : Pool} (hfree : p.taken = false) :
    ∃ s p', startMachine (fbConfig a font hu) (pictureOf a mem) = some s ∧
      fbInit a h font mem p = some (some ⟨blocks a.blockSizes 0, fbConfig a font hu, s⟩, p') ∧
      p'.taken = true := by
  have hptr := p.empty hfree
  obtain ⟨s, hs, -⟩ := startMachine_ok (fbConfig a font hu) (pictureOf a mem)
  obtain ⟨hone, hall⟩ := allocs_eq a
  refine ⟨s, ⟨total a.blockSizes, true, nofun⟩, hs, ?_, rfl⟩
  rw [fbInit, dif_neg (fun hbad => a.masksOk_iff.mp hbad hu.masks), dif_neg (by simp [hfree])]
  simp only [hptr, hone]
  rw [dif_pos hu.shifts]
  simp only [hall]
  rw [dif_pos (hu.aligned rfl), hs]
  rfl

/-- **Any other** with masks in order halts the kernel, if the pool is free. -/
theorem fbInit_halts (h : a.Fits) (hmasks : a.MasksOk) (hu : ¬a.Usable) (font : ℕ → BitVec 8)
    (mem : ℕ → BitVec 32) {p : Pool} (hfree : p.taken = false) : fbInit a h font mem p = none := by
  have hptr := p.empty hfree
  have hbad := fun hbad => a.masksOk_iff.mp hbad hmasks
  obtain ⟨hone, hall⟩ := allocs_eq a
  rw [fbInit, dif_neg hbad, dif_neg (by simp [hfree])]
  simp only [hptr, hone]
  by_cases hshifts : a.ShiftsOk
  · rw [dif_pos hshifts]
    simp only [hall]
    rw [dif_neg fun haligned => hu (h.usable hbad hshifts rfl haligned)]
  · rw [dif_neg hshifts]

/-- **One call** has one of these three ends. -/
theorem fbInit_cases (h : a.Fits) (font : ℕ → BitVec 8) (mem : ℕ → BitVec 32) (p : Pool) :
    ((¬a.MasksOk ∨ p.taken = true) ∧ fbInit a h font mem p = some (none, p)) ∨
    (p.taken = false ∧ ∃ (hu : a.Usable) (s : Machine) (p' : Pool),
      startMachine (fbConfig a font hu) (pictureOf a mem) = some s ∧
      fbInit a h font mem p = some (some ⟨blocks a.blockSizes 0, fbConfig a font hu, s⟩, p') ∧
      p'.taken = true) ∨
    (a.MasksOk ∧ p.taken = false ∧ ¬a.Usable ∧ fbInit a h font mem p = none) := by
  by_cases hnull : ¬a.MasksOk ∨ p.taken = true
  · exact .inl ⟨hnull, fbInit_null h font mem hnull⟩
  · rw [not_or, not_not, Bool.not_eq_true] at hnull
    obtain ⟨hmasks, hfree⟩ := hnull
    by_cases hu : a.Usable
    · exact .inr (.inl ⟨hfree, hu, fbInit_usable h hu font mem hfree⟩)
    · exact .inr (.inr ⟨hmasks, hfree, hu, fbInit_halts h hmasks hu font mem hfree⟩)

/-- The blocks of a terminal have the sizes asked for, follow one another and end
inside the pool. -/
theorem FbArgs.blocks_ok (a : FbArgs) :
    (blocks a.blockSizes 0).map Block.size = a.blockSizes ∧
      (blocks a.blockSizes 0).Pairwise (fun b b' => b.stop ≤ b'.start) ∧
      ∀ b ∈ blocks a.blockSizes 0, b.stop ≤ poolSize := by
  refine ⟨map_size_blocks _ _, blocks_pairwise _ _, ?_⟩
  intro b hb
  have hstop := (mem_blocks hb).2
  rw [Nat.zero_add] at hstop
  exact hstop.trans a.blockSizes_le

end Call

-- ---------------------------------------------------------------------------
-- Calls one after the other
-- ---------------------------------------------------------------------------

inductive PoolCall where
  | init (a : FbArgs) (h : a.Fits) (font : ℕ → BitVec 8) (mem : ℕ → BitVec 32)
  | deinit

/-- The pool behind a call; `none` if the kernel halts in it. -/
def Pool.call (p : Pool) : PoolCall → Option Pool
  | .init a h font mem => (fbInit a h font mem p).map Prod.snd
  | .deinit => some (fbDeinit p)

/-- The pool behind calls from the start of the kernel on. -/
def runPool (calls : List PoolCall) : Option Pool := calls.foldlM Pool.call Pool.start

/-- Whether a terminal is there that has not been given up. -/
def liveAfter (l : Bool) : PoolCall → Bool
  | .init a _ _ _ => l || decide a.MasksOk
  | .deinit => false

def live (calls : List PoolCall) : Bool := calls.foldl liveAfter false

/-- **Step.** A call that comes back leaves the pool taken exactly if a terminal is
there. -/
theorem Pool.call_taken {p p' : Pool} {c : PoolCall} (h : p.call c = some p') :
    p'.taken = liveAfter p.taken c := by
  cases c with
  | deinit =>
    obtain rfl := Option.some.inj h
    show (fbDeinit p).taken = false
    rw [fbDeinit]
    split
    case isTrue => rfl
    case isFalse hfree => exact Bool.eq_false_of_not_eq_true hfree
  | init a hfits font mem =>
    show p'.taken = (p.taken || decide a.MasksOk)
    rw [Pool.call] at h
    obtain ⟨hnull, hinit⟩ | ⟨-, hu, s, q, -, hinit, htaken⟩ | ⟨-, -, -, hinit⟩ :=
      fbInit_cases hfits font mem p
    · -- nothing has changed
      rw [hinit] at h
      obtain rfl := Option.some.inj h
      rcases hnull with hbad | htaken
      · rw [decide_eq_false hbad, Bool.or_false]
      · rw [htaken, Bool.true_or]
    · rw [hinit] at h
      obtain rfl := Option.some.inj h
      rw [decide_eq_true hu.masks, Bool.or_true]
      exact htaken
    · rw [hinit] at h
      cases h

/-- **Run.** -/
theorem runPool_taken {calls : List PoolCall} {p : Pool} (h : runPool calls = some p) :
    p.taken = live calls := by
  induction calls using List.reverseRecOn generalizing p with
  | nil =>
    obtain rfl := Option.some.inj h
    rfl
  | append_singleton calls c ih =>
    rw [runPool, List.foldlM_append] at h
    obtain ⟨q, hq, hc⟩ := Option.bind_eq_some_iff.mp h
    obtain ⟨p', hp', hlast⟩ := Option.bind_eq_some_iff.mp hc
    obtain rfl := Option.some.inj hlast
    rw [Pool.call_taken hp', ih hq, live, live, List.foldl_append, List.foldl_cons, List.foldl_nil]

/--
**The pool serves one terminal at a time.** After any calls that came back,
`flanterm_fb_init` returns a terminal if and only if the framebuffer is usable and
no terminal is there, and it halts the kernel if and only if the masks are accepted,
no terminal is there and the framebuffer is not usable. In all other cases it
returns `NULL` and changes nothing. The terminal it returns has the configuration
and the first picture of `fbConfig`, and its six blocks, which have room for all
cells of the picture, follow one another inside the pool.
-/
theorem fbInit_history {calls : List PoolCall} {p : Pool} (hrun : runPool calls = some p)
    {a : FbArgs} (h : a.Fits) (font : ℕ → BitVec 8) (mem : ℕ → BitVec 32) :
    ((∃ t p', fbInit a h font mem p = some (some t, p')) ↔ a.Usable ∧ live calls = false) ∧
    (fbInit a h font mem p = none ↔ a.MasksOk ∧ live calls = false ∧ ¬a.Usable) ∧
    (fbInit a h font mem p = some (none, p) ↔ ¬a.MasksOk ∨ live calls = true) ∧
    ∀ t p', fbInit a h font mem p = some (some t, p') →
      (∃ hu : a.Usable, t.config = fbConfig a font hu) ∧
      startMachine t.config (pictureOf a mem) = some t.machine ∧
      t.blocks.map Block.size = a.blockSizes ∧
      t.blocks.Pairwise (fun b b' => b.stop ≤ b'.start) ∧ ∀ b ∈ t.blocks, b.stop ≤ poolSize := by
  rw [← runPool_taken hrun]
  obtain ⟨hnull, hinit⟩ | ⟨hfree, hu, s, q, hstart, hinit, -⟩ | ⟨hmasks, hfree, hu, hinit⟩ :=
    fbInit_cases h font mem p
  · -- `NULL`
    have hnot : ¬(a.MasksOk ∧ p.taken = false) := by
      rintro ⟨hmasks, hfree⟩
      exact hnull.elim (fun hbad => hbad hmasks) (by simp [hfree])
    rw [hinit]
    refine ⟨iff_of_false ?_ fun hand => hnot ⟨hand.1.masks, hand.2⟩,
      iff_of_false nofun fun hand => hnot ⟨hand.1, hand.2.1⟩, iff_of_true rfl hnull, ?_⟩
    · rintro ⟨t, p', hret⟩
      cases (Prod.mk.inj (Option.some.inj hret)).1
    · intro t p' hret
      cases (Prod.mk.inj (Option.some.inj hret)).1
  · -- a terminal
    rw [hinit]
    refine ⟨iff_of_true ⟨_, q, rfl⟩ ⟨hu, hfree⟩, iff_of_false nofun fun hand => hand.2.2 hu,
      iff_of_false ?_ ?_, ?_⟩
    · intro hret
      cases (Prod.mk.inj (Option.some.inj hret)).1
    · exact not_or.mpr ⟨not_not_intro hu.masks, by simp [hfree]⟩
    · intro t p' hret
      obtain rfl := Option.some.inj (Prod.mk.inj (Option.some.inj hret)).1
      exact ⟨⟨hu, rfl⟩, hstart, a.blocks_ok⟩
  · -- a halt
    rw [hinit]
    refine ⟨iff_of_false ?_ fun hand => hu hand.1, iff_of_true rfl ⟨hmasks, hfree, hu⟩,
      iff_of_false nofun (not_or.mpr ⟨not_not_intro hmasks, by simp [hfree]⟩), ?_⟩
    · rintro ⟨t, p', hret⟩
      cases hret
    · intro t p' hret
      cases hret

/-- A terminal that is given up, and the next one: its six blocks lie where
those of the first one lay, each at a multiple of eight. -/
theorem fbInit_history_xga :
    ∃ p t p', runPool [.init xga xga_usable.toFits (fun _ => 0) fun _ => 0, .deinit] = some p ∧
      fbInit xga xga_usable.toFits (fun _ => 0) (fun _ => 0) p = some (some t, p') ∧
      t.blocks.map Block.start = [0, 792, 4888, 41752, 106840, 280408] := by
  obtain ⟨s, q, hstart, hinit, htaken⟩ :=
    fbInit_usable xga_usable.toFits xga_usable (fun _ => 0) (fun _ => 0) (p := Pool.start) rfl
  have hrun : runPool [.init xga xga_usable.toFits (fun _ => 0) fun _ => 0, .deinit] =
      some (fbDeinit q) := by
    have hcall :
        Pool.start.call (.init xga xga_usable.toFits (fun _ => 0) fun _ => 0) = some q := by
      rw [Pool.call, hinit]
      rfl
    rw [runPool, List.foldlM_cons, hcall]
    rfl
  obtain ⟨hterminal, -⟩ := fbInit_history hrun xga_usable.toFits (fun _ => 0) (fun _ => 0)
  obtain ⟨t, p', hret⟩ := hterminal.mpr ⟨xga_usable, rfl⟩
  refine ⟨_, t, p', hrun, hret, ?_⟩
  have hdeinit : (fbDeinit q).taken = false := by
    rw [fbDeinit, if_pos htaken]
    rfl
  obtain ⟨s', q', -, hinit', -⟩ :=
    fbInit_usable xga_usable.toFits xga_usable (fun _ => 0) (fun _ => 0) hdeinit
  rw [hinit'] at hret
  obtain rfl := Option.some.inj (Prod.mk.inj (Option.some.inj hret)).1
  show (blocks xga.blockSizes 0).map Block.start = _
  decide

end Flanterm
