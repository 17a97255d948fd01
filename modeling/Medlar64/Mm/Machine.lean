import Medlar64.Lib.Memory

/-!
# Medlar64 — the machine the memory manager runs on

Physical memory behind the direct map, and the globals of `pmm.c`. Every
pointer the memory manager follows comes from `HIGHER_HALF`, so a pointer is
a 64-bit virtual address and an access reaches the physical byte that
`PHYSICAL` names. `u64` values are natural numbers; `u64` wraps a sum or a
difference wherever the C expression can leave the 64-bit range.
-/

namespace Medlar64

/-- Reduction to the range of the C type `u64`. -/
def u64 (x : Nat) : Nat := x % 2 ^ 64

theorem u64_of_lt {x : Nat} (h : x < 2 ^ 64) : u64 x = x := Nat.mod_eq_of_lt h

theorem u64_lt (x : Nat) : u64 x < 2 ^ 64 := Nat.mod_lt _ (by decide)

/-- `PAGE_SIZE` -/
abbrev pageSize : Nat := 4096

/-- `DIV_CEILING(x, PAGE_SIZE)` on `u64` operands. -/
def divCeiling (x : Nat) : Nat := u64 (x + (pageSize - 1)) / pageSize

/-- `ALIGN_UP(x, PAGE_SIZE)` on `u64` operands. -/
def alignUp (x : Nat) : Nat := divCeiling x * pageSize

/-- Memory and the globals of `pmm.c`. `pmm_page_count` is an address divided
by the page size, hence its bound; `pmm_used_pages` is never read. -/
structure Machine where
  mem : Memory
  hhdmOffset : Nat
  pmmBitmap : Nat
  pmmLastPage : Nat
  pmmPageCount : Nat
  pageCount_lt : pmmPageCount < 2 ^ 52

/-- The machine before `pmm_init`: the globals are zero. -/
def Machine.boot (mem : Memory) (hhdmOffset : Nat) : Machine :=
  { mem, hhdmOffset, pmmBitmap := 0, pmmLastPage := 0, pmmPageCount := 0,
    pageCount_lt := by decide }

/-- Where the boot loader puts the direct map with four-level paging. -/
abbrev usualHhdm : Nat := 0xffff800000000000

-- ---------------------------------------------------------------------------
-- Addresses
-- ---------------------------------------------------------------------------

/-- `HIGHER_HALF(ptr)`. -/
def Machine.higherHalf (s : Machine) (ptr : Nat) : Nat := u64 (ptr + s.hhdmOffset)

/-- `PHYSICAL(ptr)`. -/
def Machine.physical (s : Machine) (ptr : Nat) : Nat :=
  u64 (ptr + (2 ^ 64 - s.hhdmOffset % 2 ^ 64))

/-- An offset from a direct-map pointer is the same offset from the physical
address. All other facts about pointers come from this one. -/
theorem physical_higherHalf_u64 (s : Machine) (p k : Nat) :
    s.physical (s.higherHalf p + k) = u64 (p + k) := by
  unfold Machine.physical Machine.higherHalf u64
  omega

theorem physical_higherHalf_add (s : Machine) {p k : Nat} (h : p + k < 2 ^ 64) :
    s.physical (s.higherHalf p + k) = p + k := by
  rw [physical_higherHalf_u64, u64_of_lt h]

theorem physical_higherHalf (s : Machine) {p : Nat} (h : p < 2 ^ 64) :
    s.physical (s.higherHalf p) = p :=
  physical_higherHalf_add s (k := 0) h

theorem higherHalf_lt (s : Machine) (p : Nat) : s.higherHalf p < 2 ^ 64 := u64_lt _

/-- Different physical addresses have different pointers. -/
theorem higherHalf_injOn (s : Machine) {p q : Nat} (hp : p < 2 ^ 64) (hq : q < 2 ^ 64)
    (h : s.higherHalf p = s.higherHalf q) : p = q := by
  rw [← physical_higherHalf s hp, ← physical_higherHalf s hq, h]

-- ---------------------------------------------------------------------------
-- Accesses through a pointer
-- ---------------------------------------------------------------------------

/-- The byte that a pointer reaches. -/
def Machine.read8 (s : Machine) (ptr : Nat) : BitVec 8 := s.mem (s.physical ptr)

/-- A new byte where a pointer reaches. -/
def Machine.write8 (s : Machine) (ptr : Nat) (b : BitVec 8) : Machine :=
  { s with mem := Function.update s.mem (s.physical ptr) b }

/-- The `k`-byte word at `ptr`. -/
def Machine.load (s : Machine) (ptr k : Nat) : Nat := loadLE s.mem (s.physical ptr) k

/-- The `k` low bytes of `v` at `ptr`, the lowest one first. -/
def Machine.store (s : Machine) (ptr k v : Nat) : Machine :=
  { s with mem := storeLE s.mem (s.physical ptr) k v }

theorem physical_add_inj (s : Machine) {a i j : Nat} (hi : i < 2 ^ 64) (hj : j < 2 ^ 64)
    (h : s.physical (a + i) = s.physical (a + j)) : i = j := by
  unfold Machine.physical u64 at h
  omega

/-- A byte that is written is read back through every pointer that reaches
it. -/
theorem read8_write8 (s : Machine) (a b : Nat) (v : BitVec 8) :
    (s.write8 a v).read8 b = if s.physical b = s.physical a then v else s.read8 b :=
  Function.update_apply ..

/-- Two machines with the same direct map and the same bitmap in it. -/
structure SameLayout (s s' : Machine) : Prop where
  hhdm : s'.hhdmOffset = s.hhdmOffset
  bitmap : s'.pmmBitmap = s.pmmBitmap
  pageCount : s'.pmmPageCount = s.pmmPageCount

/-- Two machines that differ in memory contents only. -/
structure SameGlobals (s s' : Machine) : Prop extends SameLayout s s' where
  lastPage : s'.pmmLastPage = s.pmmLastPage

/-- Nothing has moved, -/
theorem SameLayout.refl (s : Machine) : SameLayout s s := ⟨rfl, rfl, rfl⟩

/-- and twice nothing is nothing. -/
theorem SameLayout.trans {s t u : Machine} (h : SameLayout s t) (h' : SameLayout t u) :
    SameLayout s u :=
  ⟨h'.hhdm.trans h.hhdm, h'.bitmap.trans h.bitmap, h'.pageCount.trans h.pageCount⟩

/-- Then pointers reach what they reached, -/
theorem SameLayout.physical {s s' : Machine} (h : SameLayout s s') (p : Nat) :
    s'.physical p = s.physical p := by
  rw [Machine.physical, Machine.physical, h.hhdm]

/-- and physical addresses have the pointers they had. -/
theorem SameLayout.higherHalf {s s' : Machine} (h : SameLayout s s') (p : Nat) :
    s'.higherHalf p = s.higherHalf p := by
  rw [Machine.higherHalf, Machine.higherHalf, h.hhdm]

/-- The globals are what they are, -/
theorem SameGlobals.refl (s : Machine) : SameGlobals s s := ⟨.refl s, rfl⟩

/-- and stay so over two steps. -/
theorem SameGlobals.trans {s t u : Machine} (h : SameGlobals s t) (h' : SameGlobals t u) :
    SameGlobals s u :=
  ⟨h.toSameLayout.trans h'.toSameLayout, h'.lastPage.trans h.lastPage⟩

/-- Stores do not touch the globals: these lie in the kernel's own data,
outside the memory that the direct map is used for. -/
theorem sameGlobals_write8 (s : Machine) (p : Nat) (b : BitVec 8) :
    SameGlobals s (s.write8 p b) := ⟨⟨rfl, rfl, rfl⟩, rfl⟩

/-- A store changes memory, no globals; so do the functions that only store. -/
theorem sameGlobals_store (s : Machine) (p k v : Nat) : SameGlobals s (s.store p k v) :=
  ⟨⟨rfl, rfl, rfl⟩, rfl⟩

theorem sameGlobals_forUp {f : Nat → Machine → Machine} (n : Nat) (s : Machine)
    (h : ∀ i t, SameGlobals t (f i t)) : SameGlobals s (forUp f n s) :=
  forUp_inv (fun _ t => SameGlobals s t) (.refl s) fun i t _ ht => ht.trans (h i t)

-- ---------------------------------------------------------------------------
-- `libc.c`
-- ---------------------------------------------------------------------------

/-- `memset(ptr, c, n)`. -/
def memset (s : Machine) (ptr : Nat) (c : BitVec 8) (n : Nat) : Machine :=
  forUp (fun i s => s.write8 (ptr + i) c) n s

/-- `memcpy(dest, src, n)`: `rep movsb`, lowest byte first. -/
def memcpy (s : Machine) (dest src n : Nat) : Machine :=
  forUp (fun i s => s.write8 (dest + i) (s.read8 (src + i))) n s

/-- `memset` does not change globals, -/
theorem sameGlobals_memset (s : Machine) (p : Nat) (c : BitVec 8) (n : Nat) :
    SameGlobals s (memset s p c n) :=
  sameGlobals_forUp n s fun _ t => sameGlobals_write8 t _ _

/-- nor does `memcpy`. -/
theorem sameGlobals_memcpy (s : Machine) (d p n : Nat) : SameGlobals s (memcpy s d p n) :=
  sameGlobals_forUp n s fun _ t => sameGlobals_write8 t _ _

/-- `memset` through the direct map fills a physical range, and changes nothing
else. -/
theorem memset_mem (s : Machine) {p n : Nat} (c : BitVec 8) (h : p + n ≤ 2 ^ 64) (x : Nat) :
    (memset s (s.higherHalf p) c n).mem x = if p ≤ x ∧ x < p + n then c else s.mem x := by
  -- the loop on the machine is the loop on its memory
  have hloop : (memset s (s.higherHalf p) c n).mem =
      forUp (fun i m => Function.update m (p + i) c) n s.mem := by
    refine (forUp_map Machine.mem (SameGlobals s) (.refl s) ?_).2
    intro i t hi ht
    refine ⟨ht.trans (sameGlobals_write8 t _ _), ?_⟩
    have hphys : t.physical (s.higherHalf p + i) = p + i := by
      rw [ht.physical, physical_higherHalf_add s (by omega)]
    show Function.update t.mem (t.physical (s.higherHalf p + i)) c = _
    rw [hphys]
  rw [hloop, forUp_update]

/-- `memset` fills its range, wherever that is. -/
theorem memset_read8 (s : Machine) {p n : Nat} (c : BitVec 8) {i : Nat} (hi : i < n) :
    (memset s p c n).read8 (p + i) = c := by
  refine forUp_inv (fun k (t : Machine) => ∀ i, i < k → t.read8 (p + i) = c) nofun ?_ i hi
  intro k t _ hfilled i hi
  rw [read8_write8]
  by_cases hsame : t.physical (p + i) = t.physical (p + k)
  · rw [if_pos hsame]
  · rw [if_neg hsame]
    -- the byte written last is the only new one
    have hne : i ≠ k := fun h => hsame (h ▸ rfl)
    exact hfilled i (by omega)

/-- A loop of byte writes changes what its pointers reach and nothing else. -/
theorem forUp_write8_other (s : Machine) {ptr : Nat → Nat} {val : Nat → Machine → BitVec 8}
    {n x : Nat} (h : ∀ i, i < n → x ≠ s.physical (ptr i)) :
    (forUp (fun i t => t.write8 (ptr i) (val i t)) n s).mem x = s.mem x := by
  have hinv : SameGlobals s (forUp (fun i t => t.write8 (ptr i) (val i t)) n s) ∧
      (forUp (fun i t => t.write8 (ptr i) (val i t)) n s).mem x = s.mem x := by
    refine forUp_inv (fun _ t => SameGlobals s t ∧ t.mem x = s.mem x) ⟨.refl s, rfl⟩ ?_
    intro i t hi ⟨hglob, hmem⟩
    refine ⟨hglob.trans (sameGlobals_write8 t _ _), ?_⟩
    show Function.update t.mem (t.physical (ptr i)) _ x = s.mem x
    rw [Function.update_of_ne (by rw [hglob.physical]; exact h i hi), hmem]
  exact hinv.2

theorem memset_other (s : Machine) {p n x : Nat} (c : BitVec 8)
    (h : ∀ i, i < n → x ≠ s.physical (p + i)) : (memset s p c n).mem x = s.mem x :=
  forUp_write8_other s h

/-- `memcpy` writes its destination only, wherever that is. -/
theorem memcpy_other (s : Machine) {d p n x : Nat} (h : ∀ i, i < n → x ≠ s.physical (d + i)) :
    (memcpy s d p n).mem x = s.mem x :=
  forUp_write8_other s h

/-- `memcpy` through the direct map between ranges that do not overlap: each
byte of the destination is the one of the source at the same offset. -/
theorem memcpy_mem (s : Machine) {d p n : Nat} (hd : d + n ≤ 2 ^ 64) (hp : p + n ≤ 2 ^ 64)
    (hdisj : d + n ≤ p ∨ p + n ≤ d) (x : Nat) :
    (memcpy s (s.higherHalf d) (s.higherHalf p) n).mem x =
      if d ≤ x ∧ x < d + n then s.mem (p + (x - d)) else s.mem x := by
  have hloop : (memcpy s (s.higherHalf d) (s.higherHalf p) n).mem =
      forUp (fun i m => Function.update m (d + i) (m (p + i))) n s.mem := by
    refine (forUp_map Machine.mem (SameGlobals s) (.refl s) ?_).2
    intro i t hi ht
    refine ⟨ht.trans (sameGlobals_write8 t _ _), ?_⟩
    -- neither pointer moves while the loop writes
    have hdst := ht.physical (s.higherHalf d + i)
    have hsrc := ht.physical (s.higherHalf p + i)
    rw [physical_higherHalf_add s (by omega)] at hdst hsrc
    show Function.update t.mem (t.physical (s.higherHalf d + i))
      (t.mem (t.physical (s.higherHalf p + i))) = _
    rw [hdst, hsrc]
  rw [hloop, forUp_copy _ (by omega)]

end Medlar64
