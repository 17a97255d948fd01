import Medlar64.Lib.Fit
import Medlar64.Mm.BitmapRuns

/-!
# Medlar64 — the physical page allocator (`pmm.c`)

`pmm_find_pages` scans the bitmap from a persistent cursor, `pmm_alloc` retries
once from page 0, `pmm_free` clears the bits of a run.

The loop works on its locals and the cursor; the bitmap is written once a run
is complete. `setPages_eq_run` and `pmmFree_eq_run` make of both loops
sequences of bitmap calls; so `used_setPages` and `used_pmmFree` give every bit
after a run has been set or cleared, `setPages_mem` and `pmmFree_mem` the bytes
that stay.
-/

namespace Medlar64

-- ---------------------------------------------------------------------------
-- The source functions
-- ---------------------------------------------------------------------------

/-- `for (i = 0; i < n; i++) bitmap_set(pmm_bitmap, first + i)`. -/
def setPages (s : Machine) (first n : Nat) : Machine :=
  forUp (fun i s => bitmapSet s s.pmmBitmap (first + i)) n s

/-- `pmm_last_page = page`. -/
def Machine.setLastPage (s : Machine) (page : Nat) : Machine := { s with pmmLastPage := page }

/-- The loop of `pmm_find_pages`: its locals and `pmm_last_page`. -/
structure FindState where
  pages : Nat
  firstPage : Nat
  lastPage : Nat

/-- One round of the loop of `pmm_find_pages`; the result is the value
returned and the machine left behind. -/
def findBody (s : Machine) (n : Nat) (st : FindState) :
    FindState ⊕ Option (Nat × Machine) :=
  if st.pages < n then
    if st.lastPage = s.pmmPageCount then
      .inr (some (0, s.setLastPage st.lastPage))
    -- Bit 2^52 is 2^49 bytes past the bitmap, outside the canonical half that
    -- holds the direct map: the test faults. No sum below wraps before that.
    else if 2 ^ 52 ≤ st.lastPage + st.pages then
      .inr none
    else if !bitmapGet s s.pmmBitmap (st.lastPage + st.pages) then
      if st.pages + 1 = n then
        .inr (some (st.firstPage,
          (setPages s st.lastPage (st.pages + 1)).setLastPage (st.lastPage + (st.pages + 1))))
      else
        .inl { st with pages := st.pages + 1 }
    else
      let last := st.lastPage + if st.pages = 0 then 1 else st.pages
      .inl { pages := 0, firstPage := last, lastPage := last }
  else
    .inr (some (0, s.setLastPage st.lastPage))

/-- Rounds that suffice for every search: `pmmFindPages_visits` shows that the
loop is left before. -/
def findFuel : Nat := 2 ^ 53 + 1

/-- The locals before the first round. The search goes on where the last one
ended. -/
def findStart (s : Machine) : FindState :=
  { pages := 0, firstPage := s.pmmLastPage, lastPage := s.pmmLastPage }

/-- `pmm_find_pages(n)`; `none` when a test faults. -/
def pmmFindPages (s : Machine) (n : Nat) : Option (Nat × Machine) :=
  (whileRun (findBody s n) findFuel (findStart s)).join

/-- `pmm_alloc(n)`: a physical address, or 0 for `NULL`. A search from the
cursor that finds nothing is repeated from page 0. -/
def pmmAlloc (s : Machine) (n : Nat) : Option (Nat × Machine) :=
  match pmmFindPages s n with
  | none => none
  | some (pages, s) =>
    if pages = 0 then
      match pmmFindPages (s.setLastPage 0) n with
      | none => none
      | some (pages, s) =>
        if pages = 0 then some (0, s) else some (u64 (pages * pageSize), s)
    else some (u64 (pages * pageSize), s)

/-- `pmm_free(p, n)`. -/
def pmmFree (s : Machine) (p n : Nat) : Machine :=
  forUp (fun i s => bitmapClear s s.pmmBitmap (u64 (p / pageSize + i))) n s

/-- The cursor is no part of memory, -/
@[simp] theorem setLastPage_mem (s : Machine) (l : Nat) : (s.setLastPage l).mem = s.mem := rfl

/-- so that moving it changes no bit -/
@[simp] theorem setLastPage_used (s : Machine) (l page : Nat) :
    (s.setLastPage l).used page = s.used page := rfl

/-- and no byte of the bitmap. -/
@[simp] theorem setLastPage_byte (s : Machine) (l page : Nat) :
    bitmapByte (s.setLastPage l) page = bitmapByte s page := rfl

/-- Moving the cursor moves nothing else, -/
@[simp] theorem setLastPage_pageCount (s : Machine) (l : Nat) :
    (s.setLastPage l).pmmPageCount = s.pmmPageCount := rfl

/-- and the cursor is where it was put. -/
@[simp] theorem setLastPage_lastPage (s : Machine) (l : Nat) :
    (s.setLastPage l).pmmLastPage = l := rfl

/-- So the layout stays. -/
theorem sameLayout_setLastPage (s : Machine) (l : Nat) : SameLayout s (s.setLastPage l) :=
  ⟨rfl, rfl, rfl⟩

-- ---------------------------------------------------------------------------
-- Setting and clearing a run of bits
-- ---------------------------------------------------------------------------

/-- Setting bits leaves even the cursor alone, -/
theorem sameGlobals_setPages (s : Machine) (f n : Nat) : SameGlobals s (setPages s f n) :=
  sameGlobals_forUp n s fun _ t => sameGlobals_bitmapSet t _ _

/-- and so does `pmm_free`. -/
theorem sameGlobals_pmmFree (s : Machine) (p n : Nat) : SameGlobals s (pmmFree s p n) :=
  sameGlobals_forUp n s fun _ t => sameGlobals_bitmapClear t _ _

/-- Setting bits does not look at the cursor. -/
theorem setPages_setLastPage (s : Machine) (f n l : Nat) :
    setPages (s.setLastPage l) f n = (setPages s f n).setLastPage l := by
  -- on the bits set
  induction n with
  | zero => rfl
  | succ n ih =>
    rw [setPages, forUp, ← setPages, ih]
    rfl

/-- The loop of `pmm_find_pages` that takes a run is a sequence of `bitmap_set`
calls. -/
theorem setPages_eq_run (s : Machine) (first n : Nat) :
    setPages s first n = bitmapRun s s.pmmBitmap ((List.range' first n).map .set) := by
  induction n with
  | zero => rfl
  | succ n ih =>
    have hptr := (sameGlobals_setPages s first n).bitmap
    rw [setPages, forUp, ← setPages, hptr, List.range'_1_concat, List.map_append,
      List.map_singleton, bitmapRun_snoc, ← ih]
    rfl

/-- `pmm_free` is a sequence of `bitmap_clear` calls. -/
theorem pmmFree_eq_run (s : Machine) {p n : Nat} (h : p / pageSize + n ≤ 2 ^ 64) :
    pmmFree s p n = bitmapRun s s.pmmBitmap ((List.range' (p / pageSize) n).map .clear) := by
  induction n with
  | zero => rfl
  | succ n ih =>
    have hptr := (sameGlobals_pmmFree s p n).bitmap
    rw [pmmFree, forUp, ← pmmFree, hptr, u64_of_lt (by omega), List.range'_1_concat,
      List.map_append, List.map_singleton, bitmapRun_snoc, ← ih (by omega)]
    rfl

section Range

variable (call : Nat → SetUpdate Nat) (hitem : ∀ page, (call page).item = page)

include hitem

/-- Calls for consecutive pages name pages that exist. -/
theorem items_lt {first n : Nat} (h : first + n ≤ 2 ^ 64) :
    ∀ op ∈ (List.range' first n).map call, op.item < 2 ^ 64 := by
  intro op hop
  obtain ⟨page, hpage, rfl⟩ := List.mem_map.mp hop
  have hrange := List.mem_range'_1.mp hpage
  rw [hitem]
  omega

/-- They write no byte but those of their pages. -/
theorem bitmapRun_range_other {s : Machine} {first n x : Nat}
    (h : ∀ i, i < n → x ≠ bitmapByte s (first + i)) :
    (bitmapRun s s.pmmBitmap ((List.range' first n).map call)).mem x = s.mem x := by
  refine bitmapRun_other ?_
  intro op hop
  obtain ⟨page, hpage, rfl⟩ := List.mem_map.mp hop
  obtain ⟨i, hi, rfl⟩ := List.mem_range'.mp hpage
  rw [hitem, Nat.one_mul]
  exact h i hi

end Range

/-- A bit of `pmm_bitmap` after calls for pages that exist. -/
theorem used_run {s t : Machine} {log : List (SetUpdate Nat)}
    (hrun : t = bitmapRun s s.pmmBitmap log) (hlog : ∀ op ∈ log, op.item < 2 ^ 64) {page : Nat}
    (hpage : page < 2 ^ 64) :
    t.used page = true ↔ page ∈ SetUpdate.run (bitmapPages s s.pmmBitmap) log := by
  rw [hrun, Machine.used, (sameGlobals_bitmapRun s _ log).bitmap]
  exact bitmapGet_run hlog hpage

/-- After a run has been taken its pages are in use, and the others as
before. -/
theorem used_setPages (s : Machine) {f n page : Nat} (h : f + n ≤ 2 ^ 64)
    (hpage : page < 2 ^ 64) :
    (setPages s f n).used page = (decide (f ≤ page ∧ page < f + n) || s.used page) := by
  have hlog := items_lt SetUpdate.set (fun _ => rfl) h
  have hbefore : page ∈ bitmapPages s s.pmmBitmap ↔ s.used page = true := and_iff_right hpage
  rw [Bool.eq_iff_iff, used_run (setPages_eq_run s f n) hlog hpage, SetUpdate.mem_run_sets,
    List.mem_range'_1, hbefore, Bool.or_eq_true, decide_eq_true_iff]

/-- After a run has been given back its pages are free, and the others as
before. -/
theorem used_pmmFree (s : Machine) {p n page : Nat} (h : p / pageSize + n ≤ 2 ^ 64)
    (hpage : page < 2 ^ 64) :
    (pmmFree s p n).used page =
      (!decide (p / pageSize ≤ page ∧ page < p / pageSize + n) && s.used page) := by
  have hlog := items_lt SetUpdate.clear (fun _ => rfl) h
  have hbefore : page ∈ bitmapPages s s.pmmBitmap ↔ s.used page = true := and_iff_right hpage
  rw [Bool.eq_iff_iff, used_run (pmmFree_eq_run s h) hlog hpage, SetUpdate.mem_run_clears,
    List.mem_range'_1, hbefore, Bool.and_eq_true, Bool.not_eq_true', decide_eq_false_iff_not]

/-- The free pages after a run has been taken. -/
theorem free_setPages (s : Machine) {f n page : Nat} (h : f + n ≤ 2 ^ 64)
    (hpage : page < 2 ^ 64) :
    (setPages s f n).free page ↔ s.free page ∧ ¬ (f ≤ page ∧ page < f + n) := by
  rw [Machine.free, used_setPages s h hpage, Bool.or_eq_false_iff, decide_eq_false_iff_not,
    and_comm, Machine.free]

/-- The free pages after a run has been given back. -/
theorem free_pmmFree (s : Machine) {p n page : Nat} (h : p / pageSize + n ≤ 2 ^ 64)
    (hpage : page < 2 ^ 64) :
    (pmmFree s p n).free page ↔
      s.free page ∨ p / pageSize ≤ page ∧ page < p / pageSize + n := by
  rw [Machine.free, used_pmmFree s h hpage, Bool.and_eq_false_iff, Bool.not_eq_false',
    decide_eq_true_iff, or_comm, Machine.free]

theorem setPages_mem {s : Machine} {f n x : Nat}
    (h : ∀ i, i < n → x ≠ bitmapByte s (f + i)) : (setPages s f n).mem x = s.mem x := by
  rw [setPages_eq_run]
  exact bitmapRun_range_other SetUpdate.set (fun _ => rfl) h

/-- `pmm_free` writes bytes of the run's own bits, too. -/
theorem pmmFree_mem {s : Machine} {p n x : Nat} (hwrap : p / pageSize + n ≤ 2 ^ 64)
    (h : ∀ i, i < n → x ≠ bitmapByte s (p / pageSize + i)) :
    (pmmFree s p n).mem x = s.mem x := by
  rw [pmmFree_eq_run s hwrap]
  exact bitmapRun_range_other SetUpdate.clear (fun _ => rfl) h

end Medlar64
