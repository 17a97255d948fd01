import Medlar64.Lib.SetLog
import Medlar64.Mm.Bitmap

/-!
# Medlar64 — a byte bitmap is a set of pages

What any sequence of `bitmap_set` and `bitmap_clear` calls makes of a byte
array, wherever the array is and whatever it holds.

* `bitmapRun` — the calls, one after another.
* `bitmapPages` — the set of pages that the array stands for.
* `bitmapPages_run` — the calls update that set one page at a time.
* `bitmap_last_call_decides` — the last call that names a page decides its bit, and
  only bytes of named pages are written.
-/

namespace Medlar64

/-- One call: `bitmap_set` or `bitmap_clear` with the index that is named. -/
def bitmapCall (bitmap : Nat) (s : Machine) : SetUpdate Nat → Machine
  | .set bit => bitmapSet s bitmap bit
  | .clear bit => bitmapClear s bitmap bit

/-- The calls of the log, the first one first. -/
def bitmapRun (s : Machine) (bitmap : Nat) (log : List (SetUpdate Nat)) : Machine :=
  log.foldl (bitmapCall bitmap) s

/-- The pages whose bit is set. -/
def bitmapPages (s : Machine) (bitmap : Nat) : Set Nat :=
  {page | page < 2 ^ 64 ∧ bitmapGet s bitmap page = true}

-- ---------------------------------------------------------------------------
-- One call
-- ---------------------------------------------------------------------------

/-- A call writes a byte of memory. -/
theorem sameGlobals_bitmapCall (bitmap : Nat) (s : Machine) (op : SetUpdate Nat) :
    SameGlobals s (bitmapCall bitmap s op) := by
  cases op with
  | set bit => exact sameGlobals_bitmapSet s bitmap bit
  | clear bit => exact sameGlobals_bitmapClear s bitmap bit

/-- **One call is one update** of the set that the array stands for. What the
call does to its byte is `bitmapGet_set` and `bitmapGet_clear`; an index of 64
bits is below the range that these speak of. -/
theorem bitmapPages_call (bitmap : Nat) (s : Machine) {op : SetUpdate Nat}
    (h : op.item < 2 ^ 64) :
    bitmapPages (bitmapCall bitmap s op) bitmap = op.apply (bitmapPages s bitmap) := by
  -- page by page, for a page of the range and one beyond it
  ext page
  cases op with
  | set bit =>
    have hbit : bit < 2 ^ 64 := h
    constructor
    · rintro ⟨hpage, hget⟩
      rw [bitmapCall, bitmapGet_set s bitmap hbit hpage, Bool.or_eq_true,
        decide_eq_true_iff] at hget
      exact hget.imp id fun hget => ⟨hpage, hget⟩
    · rintro (rfl | ⟨hpage, hget⟩)
      · exact ⟨hbit, by rw [bitmapCall, bitmapGet_set s bitmap hbit hbit]; simp⟩
      · exact ⟨hpage, by rw [bitmapCall, bitmapGet_set s bitmap hbit hpage, hget, Bool.or_true]⟩
  | clear bit =>
    have hbit : bit < 2 ^ 64 := h
    constructor
    · rintro ⟨hpage, hget⟩
      rw [bitmapCall, bitmapGet_clear s bitmap hbit hpage, Bool.and_eq_true, Bool.not_eq_true',
        decide_eq_false_iff_not] at hget
      exact ⟨⟨hpage, hget.2⟩, hget.1⟩
    · rintro ⟨⟨hpage, hget⟩, hne⟩
      have hne : page ≠ bit := hne
      refine ⟨hpage, ?_⟩
      rw [bitmapCall, bitmapGet_clear s bitmap hbit hpage, hget, decide_eq_false hne]
      rfl

/-- It writes the byte of the index that it names. -/
theorem bitmapCall_other (bitmap : Nat) {s : Machine} {op : SetUpdate Nat} {x : Nat}
    (h : x ≠ s.physical (bitmap + op.item / 8)) : (bitmapCall bitmap s op).mem x = s.mem x := by
  cases op with
  | set bit => exact bitmapSet_other h
  | clear bit => exact bitmapClear_other h

-- ---------------------------------------------------------------------------
-- Any sequence of calls
-- ---------------------------------------------------------------------------

section Runs

variable {s : Machine} {bitmap : Nat} {log : List (SetUpdate Nat)}

/-- One call more at the end of the log. -/
theorem bitmapRun_snoc (s : Machine) (bitmap : Nat) (log : List (SetUpdate Nat))
    (op : SetUpdate Nat) :
    bitmapRun s bitmap (log ++ [op]) = bitmapCall bitmap (bitmapRun s bitmap log) op := by
  rw [bitmapRun, List.foldl_append]
  rfl

/-- The calls write to the bitmap and to no global, by induction on them. -/
theorem sameGlobals_bitmapRun (s : Machine) (bitmap : Nat) (log : List (SetUpdate Nat)) :
    SameGlobals s (bitmapRun s bitmap log) := by
  induction log using List.reverseRecOn with
  | nil => exact .refl s
  | append_singleton log op ih =>
    rw [bitmapRun_snoc]
    exact ih.trans (sameGlobals_bitmapCall bitmap _ op)

/-- **The bitmap refines the set.** After any calls the array stands for the
set that the updates make of the one it stood for. -/
theorem bitmapPages_run (h : ∀ op ∈ log, op.item < 2 ^ 64) :
    bitmapPages (bitmapRun s bitmap log) bitmap = SetUpdate.run (bitmapPages s bitmap) log :=
  foldl_refines (fun t => bitmapPages t bitmap) fun t op hop => bitmapPages_call bitmap t (h op hop)

/-- A bit after the calls, by the set. -/
theorem bitmapGet_run (h : ∀ op ∈ log, op.item < 2 ^ 64) {page : Nat} (hpage : page < 2 ^ 64) :
    bitmapGet (bitmapRun s bitmap log) bitmap page = true ↔
      page ∈ SetUpdate.run (bitmapPages s bitmap) log := by
  rw [← bitmapPages_run h]
  exact (and_iff_right hpage).symm

/-- No call writes a byte that holds none of the bits that are named. -/
theorem bitmapRun_other {x : Nat} (h : ∀ op ∈ log, x ≠ s.physical (bitmap + op.item / 8)) :
    (bitmapRun s bitmap log).mem x = s.mem x := by
  -- on the log, from its end; the array does not move
  induction log using List.reverseRecOn with
  | nil => rfl
  | append_singleton log op ih =>
    have hlast : x ≠ (bitmapRun s bitmap log).physical (bitmap + op.item / 8) := by
      rw [(sameGlobals_bitmapRun s bitmap log).physical]
      exact h op (List.mem_append_right log (List.mem_singleton_self op))
    rw [bitmapRun_snoc, bitmapCall_other bitmap hlast,
      ih fun op' hop' => h op' (List.mem_append_left [op] hop')]

end Runs

/--
**The last call decides.** After any calls on `u64` indices, a bit of the array
is set iff the last call that names it was `bitmap_set`, or no call names it
and it was set before; and a byte that holds no named bit is as it was.
-/
theorem bitmap_last_call_decides (s : Machine) (bitmap : Nat) (log : List (SetUpdate Nat))
    (hlog : ∀ op ∈ log, op.item < 2 ^ 64) :
    (∀ b < 2 ^ 64, bitmapGet (bitmapRun s bitmap log) bitmap b = true ↔
      SetUpdate.lastNaming log b = some (.set b) ∨
        SetUpdate.lastNaming log b = none ∧ bitmapGet s bitmap b = true) ∧
      ∀ x, (∀ op ∈ log, x ≠ s.physical (bitmap + op.item / 8)) →
        (bitmapRun s bitmap log).mem x = s.mem x := by
  refine ⟨?_, fun x => bitmapRun_other⟩
  intro b hb
  have hbefore : bitmapGet s bitmap b = true ↔ b ∈ bitmapPages s bitmap :=
    (and_iff_right hb).symm
  rw [bitmapGet_run hlog hb, hbefore]
  exact SetUpdate.mem_run _ log b

/-- Three pages of one byte that was 0x01: page 3 is set and cleared again,
page 5 set, page 0 not named. -/
theorem bitmap_last_call_decides_byte :
    let s := Machine.boot (fun _ => 0x01) usualHhdm
    let log : List (SetUpdate Nat) := [.set 3, .set 5, .clear 3]
    bitmapGet (bitmapRun s usualHhdm log) usualHhdm 0 = true ∧
      bitmapGet (bitmapRun s usualHhdm log) usualHhdm 5 = true ∧
      bitmapGet (bitmapRun s usualHhdm log) usualHhdm 3 ≠ true ∧
      (bitmapRun s usualHhdm log).mem 1 = 0x01 := by
  intro s log
  obtain ⟨hbits, hframe⟩ := bitmap_last_call_decides s usualHhdm log (by decide)
  have hfirst : bitmapGet s usualHhdm 0 = true := by
    simp [s, bitmapGet_eq, Machine.read8, Machine.boot]
  refine ⟨(hbits 0 (by decide)).mpr (.inr ⟨rfl, hfirst⟩),
    (hbits 5 (by decide)).mpr (.inl rfl), ?_, hframe 1 (by decide)⟩
  intro h
  obtain hset | ⟨hnone, -⟩ := (hbits 3 (by decide)).mp h
  · have hclear : SetUpdate.lastNaming log 3 = some (.clear 3) := rfl
    rw [hclear] at hset
    contradiction
  · contradiction

end Medlar64
