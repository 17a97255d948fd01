import Medlar64.Mm.Machine

/-!
# Medlar64 — the byte bitmap (`bitmap.h`)

One bit a page, eight pages a byte. The three functions are written with the
`int` promotion of the C source; `bitmapGet_set` and `bitmapGet_clear` say
what an update does to every bit of any array, `bitmapSet_other` and
`bitmapClear_other` that it touches the one byte that holds the bit. The rest is
about `pmm_bitmap`.
-/

namespace Medlar64

/-- `1 << (bit % 8)`, an `int`. -/
def bitMask (bit : Nat) : BitVec 32 := 1#32 <<< (bit % 8)

/-- `bitmap_set(bitmap, bit)` -/
def bitmapSet (s : Machine) (bitmap bit : Nat) : Machine :=
  s.write8 (bitmap + bit / 8)
    (((s.read8 (bitmap + bit / 8)).setWidth 32 ||| bitMask bit).setWidth 8)

/-- `bitmap_clear(bitmap, bit)` -/
def bitmapClear (s : Machine) (bitmap bit : Nat) : Machine :=
  s.write8 (bitmap + bit / 8)
    (((s.read8 (bitmap + bit / 8)).setWidth 32 &&& ~~~bitMask bit).setWidth 8)

/-- `bitmap_get(bitmap, bit)` -/
def bitmapGet (s : Machine) (bitmap bit : Nat) : Bool :=
  (s.read8 (bitmap + bit / 8)).setWidth 32 &&& bitMask bit != 0#32

-- ---------------------------------------------------------------------------
-- One byte
-- ---------------------------------------------------------------------------

theorem bitMask_eq (bit : Nat) : bitMask bit = BitVec.twoPow 32 (bit % 8) :=
  (BitVec.twoPow_eq 32 (bit % 8)).symm

/-- The test reads the bit, whatever the other seven are. -/
theorem byteTest (b : BitVec 8) (bit : Nat) :
    (b.setWidth 32 &&& bitMask bit != 0#32) = b.getLsbD (bit % 8) := by
  have hlt : bit % 8 < 8 := Nat.mod_lt _ (by decide)
  -- one bit of an `int` that is set is not zero
  have hne : BitVec.twoPow 32 (bit % 8) ≠ 0#32 := by
    intro h
    have := congrArg (fun v => v.getLsbD (bit % 8)) h
    simp [BitVec.getLsbD_twoPow] at this
    omega
  have hwidth : (b.setWidth 32).getLsbD (bit % 8) = b.getLsbD (bit % 8) := by
    rw [BitVec.getLsbD_setWidth, decide_eq_true (by omega), Bool.true_and]
  rw [bitMask_eq, BitVec.and_twoPow, hwidth]
  cases b.getLsbD (bit % 8) with
  | true => simpa using hne
  | false => simp

/-- The byte that `bitmap_set` writes: the bit is set and the other seven
stay. -/
theorem byteSet_getLsbD (b : BitVec 8) (bit : Nat) {k : Nat} (hk : k < 8) :
    ((b.setWidth 32 ||| bitMask bit).setWidth 8).getLsbD k =
      (decide (k = bit % 8) || b.getLsbD k) := by
  have hk32 : k < 32 := by omega
  simp [bitMask_eq, hk, hk32, Bool.or_comm]

/-- The byte that `bitmap_clear` writes. The complement has all upper bits of
the `int` set, which the cut to a byte takes away again. -/
theorem byteClear_getLsbD (b : BitVec 8) (bit : Nat) {k : Nat} (hk : k < 8) :
    ((b.setWidth 32 &&& ~~~bitMask bit).setWidth 8).getLsbD k =
      (!decide (k = bit % 8) && b.getLsbD k) := by
  have hk32 : k < 32 := by omega
  simp [bitMask_eq, hk, hk32, Bool.and_comm]

-- ---------------------------------------------------------------------------
-- Any array
-- ---------------------------------------------------------------------------

theorem bitmapGet_eq (s : Machine) (bitmap bit : Nat) :
    bitmapGet s bitmap bit = (s.read8 (bitmap + bit / 8)).getLsbD (bit % 8) :=
  byteTest _ bit

/-- The bits after the byte of `bit` is written: the eight that it holds, and
none of the others. -/
theorem bitmapGet_write8 (s : Machine) (bitmap : Nat) (b : BitVec 8) {bit page : Nat}
    (hbit : bit < 2 ^ 64) (hpage : page < 2 ^ 64) :
    bitmapGet (s.write8 (bitmap + bit / 8) b) bitmap page =
      if page / 8 = bit / 8 then b.getLsbD (page % 8) else bitmapGet s bitmap page := by
  rw [bitmapGet_eq, bitmapGet_eq, read8_write8]
  by_cases hbyte : page / 8 = bit / 8
  · rw [if_pos hbyte, hbyte, if_pos rfl]
  · -- another byte is at another address
    have hne : s.physical (bitmap + page / 8) ≠ s.physical (bitmap + bit / 8) := fun h =>
      hbyte (physical_add_inj s (by omega) (by omega) h)
    rw [if_neg hbyte, if_neg hne]

/--
**`bitmap_set` sets its bit and no other one**, whatever the array is and
wherever it lies.
-/
theorem bitmapGet_set (s : Machine) (bitmap : Nat) {bit page : Nat} (hbit : bit < 2 ^ 64)
    (hpage : page < 2 ^ 64) :
    bitmapGet (bitmapSet s bitmap bit) bitmap page =
      (decide (page = bit) || bitmapGet s bitmap page) := by
  rw [bitmapSet, bitmapGet_write8 s bitmap _ hbit hpage]
  by_cases hbyte : page / 8 = bit / 8
  · -- in one byte, the pages differ in the bit
    have hmod : (page % 8 = bit % 8) = (page = bit) := propext (by omega)
    rw [if_pos hbyte, byteSet_getLsbD _ _ (by omega), bitmapGet_eq, hbyte]
    simp only [hmod]
  · have hne : page ≠ bit := fun h => hbyte (h ▸ rfl)
    rw [if_neg hbyte, decide_eq_false hne, Bool.false_or]

/-- **`bitmap_clear` clears its bit and no other one.** -/
theorem bitmapGet_clear (s : Machine) (bitmap : Nat) {bit page : Nat} (hbit : bit < 2 ^ 64)
    (hpage : page < 2 ^ 64) :
    bitmapGet (bitmapClear s bitmap bit) bitmap page =
      (!decide (page = bit) && bitmapGet s bitmap page) := by
  rw [bitmapClear, bitmapGet_write8 s bitmap _ hbit hpage]
  by_cases hbyte : page / 8 = bit / 8
  · have hmod : (page % 8 = bit % 8) = (page = bit) := propext (by omega)
    rw [if_pos hbyte, byteClear_getLsbD _ _ (by omega), bitmapGet_eq, hbyte]
    simp only [hmod]
  · have hne : page ≠ bit := fun h => hbyte (h ▸ rfl)
    rw [if_neg hbyte, decide_eq_false hne, Bool.not_false, Bool.true_and]

/-- `bitmap_set` writes one byte, -/
theorem bitmapSet_other {s : Machine} {bitmap bit x : Nat}
    (h : x ≠ s.physical (bitmap + bit / 8)) : (bitmapSet s bitmap bit).mem x = s.mem x :=
  Function.update_of_ne h _ _

/-- and so does `bitmap_clear`. -/
theorem bitmapClear_other {s : Machine} {bitmap bit x : Nat}
    (h : x ≠ s.physical (bitmap + bit / 8)) : (bitmapClear s bitmap bit).mem x = s.mem x :=
  Function.update_of_ne h _ _

-- ---------------------------------------------------------------------------
-- The byte that holds a bit
-- ---------------------------------------------------------------------------

/-- Physical address of the byte of `bit`. -/
def bitmapByte (s : Machine) (bit : Nat) : Nat := s.physical (s.pmmBitmap + bit / 8)

theorem SameLayout.bitmapByte {s s' : Machine} (h : SameLayout s s') (bit : Nat) :
    bitmapByte s' bit = Medlar64.bitmapByte s bit := by
  rw [Medlar64.bitmapByte, h.physical, h.bitmap, Medlar64.bitmapByte]

-- ---------------------------------------------------------------------------
-- The bitmap of `pmm.c`
-- ---------------------------------------------------------------------------

/-- The bit of a page in `pmm_bitmap`: true for a page in use. -/
def Machine.used (s : Machine) (page : Nat) : Bool := bitmapGet s s.pmmBitmap page

theorem used_eq (s : Machine) (page : Nat) :
    s.used page = (s.mem (bitmapByte s page)).getLsbD (page % 8) :=
  byteTest _ page

/-- Memories that agree on the byte of a page agree on its bit. -/
theorem used_congr {s s' : Machine} {page : Nat} (h : SameLayout s s')
    (hmem : s'.mem (bitmapByte s page) = s.mem (bitmapByte s page)) :
    s'.used page = s.used page := by
  rw [used_eq, used_eq, h.bitmapByte, hmem]

/-- Setting a bit does not change globals, -/
theorem sameGlobals_bitmapSet (s : Machine) (bm bit : Nat) :
    SameGlobals s (bitmapSet s bm bit) := sameGlobals_write8 s _ _

/-- nor does clearing one. -/
theorem sameGlobals_bitmapClear (s : Machine) (bm bit : Nat) :
    SameGlobals s (bitmapClear s bm bit) := sameGlobals_write8 s _ _

theorem used_bitmapClear (s : Machine) {bit page : Nat} (hbit : bit < 2 ^ 64)
    (hpage : page < 2 ^ 64) :
    (bitmapClear s s.pmmBitmap bit).used page = (!decide (page = bit) && s.used page) :=
  bitmapGet_clear s s.pmmBitmap hbit hpage

/-- The page is free in the bitmap. -/
def Machine.free (s : Machine) (page : Nat) : Prop := s.used page = false

theorem not_free {s : Machine} {page : Nat} : ¬ s.free page ↔ s.used page = true := by
  rw [Machine.free, Bool.not_eq_false]

/-- The free pages after a bit has been cleared. -/
theorem free_bitmapClear (s : Machine) {bit page : Nat} (hbit : bit < 2 ^ 64)
    (hpage : page < 2 ^ 64) :
    (bitmapClear s s.pmmBitmap bit).free page ↔ page = bit ∨ s.free page := by
  rw [Machine.free, used_bitmapClear s hbit hpage, Bool.and_eq_false_iff,
    Bool.not_eq_false', decide_eq_true_iff, Machine.free]

/-- The page at `p` holds no byte of the bitmap: writing to it changes no
bit. -/
def OffBitmap (s : Machine) (p : Nat) : Prop :=
  ∀ bit, bit < s.pmmPageCount → bitmapByte s bit / 4096 ≠ p / 4096

/-- That depends on where the bitmap is, not on what it holds. -/
theorem SameLayout.offBitmap {s s' : Machine} (h : SameLayout s s') {p : Nat} :
    OffBitmap s' p ↔ OffBitmap s p := by
  unfold OffBitmap
  simp only [h.pageCount, h.bitmapByte]

end Medlar64
