import Mathlib.Logic.Relation
import Medlar64.Lib.Slots
import Medlar64.Mm.HeapList

/-!
# Medlar64 — runs of a heap

A heap from `heap_create` on, driven by any sequence of `heap_alloc`,
`heap_free` and `heap_realloc` of live pointers, and writes of its clients
inside their blocks.

* `HeapPages` — the pages of the heap and its blocks are accounted for in the
  page bitmap, as the owned runs of `Lib/Slots`.
* `HeapInv` — with the block list of `HeapList`; `HeapInv.alloc`,
  `HeapInv.free`, `HeapInv.realloc` and `HeapInv.write` keep it.
* `heap_run_ok` — heap representation and isolation over whole runs.
-/

namespace Medlar64

-- ---------------------------------------------------------------------------
-- The system
-- ---------------------------------------------------------------------------

/-- A run of free pages that `pmm_alloc(n)` may return at `p`: not `NULL`,
managed, and apart from the bitmap. -/
structure FreeRun (s : Machine) (p n : Nat) : Prop where
  nonNull : p ≠ 0
  managed : p / 4096 + n ≤ s.pmmPageCount
  offBitmap : ∀ page, SlotRun.has ⟨p / 4096, n⟩ page → OffBitmap s (4096 * page)

/-- `pmm_alloc(n)` returns such a run. -/
def AllocsFree (s : Machine) (n : Nat) : Prop :=
  ∃ p s', pmmAlloc s n = some (p, s') ∧ FreeRun s p n

/-- `heap_create()` returns `h`, both its pages being free ones. -/
structure HeapCreated (s₀ : Machine) (h : Nat) (s : Machine) : Prop where
  page : AllocsFree s₀ 1
  sentinel : ∀ p s', pmmAlloc s₀ 1 = some (p, s') → AllocsFree s' 1
  run : heapCreate s₀ = some (h, s)

/-- The machine and the live blocks, in the order of their allocation. -/
structure HeapSys where
  machine : Machine
  live : List HeapBlock

/-- One step of the heap `h` or of a client of it. -/
inductive HeapStep (h : Nat) : HeapSys → HeapSys → Prop
  | alloc {s s' : Machine} {live : List HeapBlock} {n ptr : Nat}
      (hn : sizeofBlock + n + 4095 ≤ 2 ^ 64 - 1) (hfree : AllocsFree s (blockPages n))
      (halloc : heapAlloc s h n = some (ptr, s')) :
      HeapStep h ⟨s, live⟩ ⟨s', live ++ [⟨ptr, n⟩]⟩
  | free {s : Machine} {l m : List HeapBlock} {b : HeapBlock} :
      HeapStep h ⟨s, l ++ b :: m⟩ ⟨heapFree s b.ptr, l ++ m⟩
  | realloc {s s' : Machine} {l m : List HeapBlock} {b : HeapBlock} {n ptr : Nat}
      (hn : sizeofBlock + n + 4095 ≤ 2 ^ 64 - 1) (hsize : b.size ≤ n)
      (hfree : AllocsFree s (blockPages n)) (hrealloc : heapRealloc s h b.ptr n = some (ptr, s')) :
      HeapStep h ⟨s, l ++ b :: m⟩ ⟨s', l ++ m ++ [⟨ptr, n⟩]⟩
  | write {s : Machine} {live : List HeapBlock} {b : HeapBlock} {k : Nat} {v : BitVec 8}
      (hb : b ∈ live) (hk : k < b.size) : HeapStep h ⟨s, live⟩ ⟨s.write8 (b.ptr + k) v, live⟩

def HeapRun (h : Nat) (s : Machine) (st : HeapSys) : Prop :=
  Relation.ReflTransGen (HeapStep h) ⟨s, []⟩ st

-- ---------------------------------------------------------------------------
-- The pages of a heap
-- ---------------------------------------------------------------------------

/-- As long as the addition does not wrap, a block gets the pages that its
header and its bytes need, -/
theorem blockPages_eq {n : Nat} (h : sizeofBlock + n + 4095 < 2 ^ 64) :
    blockPages n = (sizeofBlock + n + 4095) / 4096 := by
  unfold blockPages divCeiling
  rw [u64_of_lt (show sizeofBlock + n + (4096 - 1) < 2 ^ 64 by omega)]

/-- A block fits into its pages. -/
theorem le_blockPages {n : Nat} (h : sizeofBlock + n + 4095 < 2 ^ 64) :
    sizeofBlock + n ≤ 4096 * blockPages n := by
  rw [blockPages_eq h]
  omega

/-- which is one at least. -/
theorem blockPages_pos {n : Nat} (h : sizeofBlock + n + 4095 < 2 ^ 64) : 1 ≤ blockPages n := by
  rw [blockPages_eq h]
  unfold sizeofBlock at *
  omega

/-- The pages of a block. -/
def HeapBlock.run (t : Machine) (b : HeapBlock) : SlotRun := ⟨b.page t, blockPages b.size⟩

/-- The pages of a heap: its own, its sentinel's, and those of each block. -/
def heapRuns (t : Machine) (hp sp : Nat) (live : List HeapBlock) : List SlotRun :=
  ⟨hp, 1⟩ :: ⟨sp, 1⟩ :: live.map (HeapBlock.run t)

/-- The pages set in the bitmap since `t` are those of the heap. -/
structure HeapPages (t : Machine) (hp sp : Nat) (s : Machine) (live : List HeapBlock) : Prop where
  layout : SameLayout t s
  placed : ∀ b ∈ live, b.ptr = u64 (t.pagePtr (b.page t) + 32)
  noWrap : ∀ b ∈ live, sizeofBlock + b.size + 4095 < 2 ^ 64
  accounted : Accounted (fun page => page < t.pmmPageCount ∧ t.free page)
    (fun page => page < t.pmmPageCount ∧ s.free page) (heapRuns t hp sp live)
  offBitmap : ∀ r ∈ heapRuns t hp sp live, ∀ page, r.has page → OffBitmap t (4096 * page)

section HeapPages

variable {t s s' : Machine} {hp sp : Nat} {live l m : List HeapBlock} {b : HeapBlock}

/-- The pages with links are the first pages of the runs. -/
theorem linkPages_eq (t : Machine) (hp sp : Nat) (live : List HeapBlock) :
    linkPages t hp sp live = (heapRuns t hp sp live).map SlotRun.first := by
  unfold linkPages heapRuns
  rw [List.map_cons, List.map_cons, List.map_map]
  rfl

/-- The first page of a block has links, -/
theorem mem_linkPages (hp sp : Nat) (hb : b ∈ live) : b.page t ∈ linkPages t hp sp live :=
  List.mem_cons_of_mem _ (List.mem_cons_of_mem _ (List.mem_map_of_mem hb))

/-- and its run is one of the heap. -/
theorem mem_heapRuns (hp sp : Nat) (hb : b ∈ live) : b.run t ∈ heapRuns t hp sp live :=
  List.mem_cons_of_mem _ (List.mem_cons_of_mem _ (List.mem_map_of_mem hb))

theorem heapRuns_sublist (t : Machine) (hp sp : Nat) (l m : List HeapBlock) (b : HeapBlock) :
    (heapRuns t hp sp (l ++ m)).Sublist (heapRuns t hp sp (l ++ b :: m)) :=
  ((((List.sublist_cons_self b m).append_left l).map (HeapBlock.run t)).cons_cons _).cons_cons _

/-- No run of the heap is empty. -/
theorem HeapPages.count_pos (hpages : HeapPages t hp sp s live) :
    ∀ r ∈ heapRuns t hp sp live, 1 ≤ r.count := by
  intro r hr
  rcases List.mem_cons.mp hr with rfl | hr
  · exact Nat.le_refl 1
  · rcases List.mem_cons.mp hr with rfl | hr
    · exact Nat.le_refl 1
    · obtain ⟨b, hb, rfl⟩ := List.mem_map.mp hr
      exact blockPages_pos (hpages.noWrap b hb)

/-- A run of the heap lies in managed memory. -/
theorem HeapPages.run_le (hpages : HeapPages t hp sp s live) {r : SlotRun}
    (hr : r ∈ heapRuns t hp sp live) : r.first + r.count ≤ t.pmmPageCount := by
  have hpos := hpages.count_pos r hr
  have hlast : r.has (r.first + r.count - 1) := ⟨by omega, by omega⟩
  have := (hpages.accounted.owned r hr _ hlast).1
  omega

/-- The first page of a run. -/
theorem HeapPages.exists_run (hpages : HeapPages t hp sp s live) {P : Nat}
    (hP : P ∈ linkPages t hp sp live) :
    ∃ r ∈ heapRuns t hp sp live, r.first = P ∧ r.has P := by
  rw [linkPages_eq] at hP
  obtain ⟨r, hr, rfl⟩ := List.mem_map.mp hP
  have hpos := hpages.count_pos r hr
  exact ⟨r, hr, rfl, Nat.le_refl _, by omega⟩

/-- The pages with links are pages that `pmm_alloc` manages. -/
theorem HeapPages.lt (hpages : HeapPages t hp sp s live) :
    ∀ P ∈ linkPages t hp sp live, P < 2 ^ 52 := by
  intro P hP
  have hpc := t.pageCount_lt
  obtain ⟨r, hr, -, hhas⟩ := hpages.exists_run hP
  have := (hpages.accounted.owned r hr P hhas).1
  omega

/-- No two of them are the same, because the runs are apart. -/
theorem HeapPages.nodup (hpages : HeapPages t hp sp s live) :
    (linkPages t hp sp live).Nodup := by
  rw [linkPages_eq]
  exact firsts_nodup hpages.accounted.apart hpages.count_pos

/-- And none of them holds a byte of the bitmap. -/
theorem HeapPages.off (hpages : HeapPages t hp sp s live) {P : Nat}
    (hP : P ∈ linkPages t hp sp live) : OffBitmap t (4096 * P) := by
  obtain ⟨r, hr, -, hhas⟩ := hpages.exists_run hP
  exact hpages.offBitmap r hr P hhas

/-- A page that is free in the bitmap holds no link. -/
theorem HeapPages.fresh (hpages : HeapPages t hp sp s live) {P : Nat}
    (hfree : P < t.pmmPageCount ∧ s.free P) : P ∉ linkPages t hp sp live := by
  intro hP
  obtain ⟨r, hr, -, hhas⟩ := hpages.exists_run hP
  exact ((hpages.accounted.free_iff P).mp hfree).2 r hr hhas

/-- **The pages depend on the bitmap only.** -/
theorem HeapPages.congr (hpages : HeapPages t hp sp s live) (hlayout : SameLayout t s')
    (hmem : ∀ bit, bit < t.pmmPageCount → s'.mem (bitmapByte t bit) = s.mem (bitmapByte t bit)) :
    HeapPages t hp sp s' live := by
  refine ⟨hlayout, hpages.placed, hpages.noWrap,
    hpages.accounted.congrWithin ?_, hpages.offBitmap⟩
  intro page hpage
  have hbyte := hpages.layout.bitmapByte page
  rw [Machine.free, Machine.free, used_eq, used_eq, hbyte, hlayout.bitmapByte, hmem page hpage]

/--
**Pages for a new block.** Setting the bits of a free run adds this run to
those of the heap. What it takes is that the run was free, so that it is apart
from the others, and that no byte of the bitmap lies in it.
-/
theorem HeapPages.take (hpages : HeapPages t hp sp s live) {f n ptr : Nat}
    (hptr : ptr = u64 (t.pagePtr f + 32)) (hn : sizeofBlock + n + 4095 < 2 ^ 64)
    (hrun : FreeRun s (4096 * f) (blockPages n))
    (hfree : ∀ i, i < blockPages n → s.free (f + i)) :
    HeapPages t hp sp ((setPages s f (blockPages n)).setLastPage (f + blockPages n))
      (live ++ [⟨ptr, n⟩]) := by
  have hpc := t.pageCount_lt
  have hpos := blockPages_pos hn
  have hmanaged := hrun.managed
  rw [hpages.layout.pageCount, Nat.mul_div_cancel_left f (by decide)] at hmanaged
  have hpage : HeapBlock.page t ⟨ptr, n⟩ = f := page_ptr (by omega) hptr
  -- the runs of the heap with the new one last
  have hruns : heapRuns t hp sp (live ++ [⟨ptr, n⟩]) =
      heapRuns t hp sp live ++ [⟨f, blockPages n⟩] := by
    unfold heapRuns HeapBlock.run
    rw [List.map_append, List.map_singleton, hpage]
    rfl
  refine ⟨hpages.layout.trans ((sameGlobals_setPages _ _ _).toSameLayout.trans
    (sameLayout_setLastPage _ _)), ?_, ?_, ?_, ?_⟩
  · -- where the blocks are
    intro b hb
    rcases List.mem_append.mp hb with hb | hb
    · exact hpages.placed b hb
    · rw [List.mem_singleton.mp hb, hpage]
      exact hptr
  · intro b hb
    rcases List.mem_append.mp hb with hb | hb
    · exact hpages.noWrap b hb
    · rw [List.mem_singleton.mp hb]
      exact hn
  · -- the pages taken were free
    rw [hruns]
    refine hpages.accounted.takeWithin ?_ ?_
    · rintro page ⟨hlo, hhi⟩
      simp only at hlo hhi
      have := hfree (page - f) (by omega)
      rw [show f + (page - f) = page by omega] at this
      exact ⟨by omega, this⟩
    · intro page hlt
      exact free_setPages s (by omega) (by omega)
  · -- and hold no byte of the bitmap
    intro r hr page hhas
    rw [hruns] at hr
    rcases List.mem_append.mp hr with hr | hr
    · exact hpages.offBitmap r hr page hhas
    · rw [List.mem_singleton.mp hr] at hhas
      have hoff := hrun.offBitmap page
      rw [Nat.mul_div_cancel_left f (by decide)] at hoff
      exact hpages.layout.offBitmap.mp (hoff hhas)

/--
**Pages of a block released.** `pmm_free` clears the bits of its run and no
others, so the run leaves those of the heap.
-/
theorem HeapPages.give (hpages : HeapPages t hp sp s (l ++ b :: m)) :
    HeapPages t hp sp (pmmFree s (4096 * b.page t) (blockPages b.size)) (l ++ m) := by
  have hpc := t.pageCount_lt
  have hb : b ∈ l ++ b :: m := List.mem_append_right _ List.mem_cons_self
  have hsub : l ++ m ⊆ l ++ b :: m := ((List.sublist_cons_self b m).append_left l).subset
  -- the runs of the heap around that of the block
  have hruns : heapRuns t hp sp (l ++ b :: m) =
      (⟨hp, 1⟩ :: ⟨sp, 1⟩ :: l.map (HeapBlock.run t)) ++ b.run t :: m.map (HeapBlock.run t) := by
    unfold heapRuns
    rw [List.map_append, List.map_cons]
    rfl
  have hruns' : heapRuns t hp sp (l ++ m) =
      (⟨hp, 1⟩ :: ⟨sp, 1⟩ :: l.map (HeapBlock.run t)) ++ m.map (HeapBlock.run t) := by
    unfold heapRuns
    rw [List.map_append]
    rfl
  have hle : b.page t + blockPages b.size ≤ t.pmmPageCount :=
    hpages.run_le (mem_heapRuns hp sp hb)
  have haccounted := hpages.accounted
  rw [hruns] at haccounted
  have hpage : 4096 * b.page t / pageSize = b.page t := Nat.mul_div_cancel_left _ (by decide)
  refine ⟨hpages.layout.trans (sameGlobals_pmmFree _ _ _).toSameLayout,
    fun c hc => hpages.placed c (hsub hc), fun c hc => hpages.noWrap c (hsub hc), ?_,
    fun r hr => hpages.offBitmap r ((heapRuns_sublist t hp sp l m b).subset hr)⟩
  · -- `pmm_free` clears the bits of the block's run and no others
    rw [hruns']
    refine haccounted.giveWithin ?_ ?_
    · rintro page ⟨_, hhi⟩
      simp only [HeapBlock.run] at hhi
      omega
    · intro page hlt
      rw [free_pmmFree s (by rw [hpage]; omega) (by omega), hpage]
      rfl

end HeapPages

-- ---------------------------------------------------------------------------
-- The invariant
-- ---------------------------------------------------------------------------

/-- The pages and the list of the heap in page `hp` with sentinel `sp`, in a
system that started at `t`. -/
structure HeapInv (t : Machine) (hp sp : Nat) (s : Machine) (live : List HeapBlock) : Prop
    extends HeapPages t hp sp s live, HeapList t hp sp s live where
  zero : t.used 0 = true
  aligned : t.hhdmOffset % 4096 = 0

section HeapInv

variable {t s s' : Machine} {hp sp : Nat} {live l m : List HeapBlock} {b : HeapBlock}

/-- Page 0 stays in use. -/
theorem HeapInv.used_zero (hinv : HeapInv t hp sp s live) : s.used 0 = true := by
  rw [← not_free]
  intro hfree
  have hhp := hinv.run_le List.mem_cons_self
  have hpos : 0 < t.pmmPageCount := by
    simp only at hhp
    omega
  exact not_free.mpr hinv.zero (hinv.accounted.init_of_free ⟨hpos, hfree⟩).2

/-- **Writes outside the headers and the bitmap keep the heap.** -/
theorem HeapInv.congr (hinv : HeapInv t hp sp s live) (hglob : SameLayout s s')
    (hlinks : ∀ P ∈ linkPages t hp sp live, ∀ a, 4096 * P ≤ a → a < 4096 * P + 32 →
      s'.mem a = s.mem a)
    (hbits : ∀ bit, bit < t.pmmPageCount → s'.mem (bitmapByte t bit) = s.mem (bitmapByte t bit)) :
    HeapInv t hp sp s' live :=
  ⟨hinv.toHeapPages.congr (hinv.layout.trans hglob) hbits,
    hinv.toHeapList.congr hinv.layout (hinv.layout.trans hglob) hinv.lt hlinks,
    hinv.zero, hinv.aligned⟩

theorem HeapPages.bit_ne (hpages : HeapPages t hp sp s live) {bit : Nat}
    (hbit : bit < t.pmmPageCount) : bitmapByte t bit / 4096 ∉ linkPages t hp sp live := by
  intro hP
  exact hpages.off hP bit hbit (Nat.mul_div_cancel_left _ (by decide)).symm

/-- The pages from `f` on that `heap_alloc(h, n)` takes, and the machine `s₁`
on which it links the block in. -/
structure Taken (t : Machine) (hp sp : Nat) (s : Machine) (live : List HeapBlock)
    (n f : Nat) (s₁ : Machine) : Prop where
  alloc : pmmAlloc s (blockPages n) = some (4096 * f, s₁)
  run : FreeRun s (4096 * f) (blockPages n)
  managed : f + blockPages n ≤ t.pmmPageCount
  free : ∀ i, i < blockPages n → s.free (f + i)
  bits : s₁ = (setPages s f (blockPages n)).setLastPage (f + blockPages n)
  layout : SameLayout t s₁
  offBitmap : OffBitmap t (4096 * f)
  fresh : f ∉ linkPages t hp sp live
  list : HeapList t hp sp s₁ live
  mem : ∀ x, (∀ bit, bit < t.pmmPageCount → x ≠ bitmapByte t bit) → s₁.mem x = s.mem x

/--
**The pages for a block, before it is linked in.** The allocation succeeds, the
bits it sets touch no header, so the list is what it was; and `heap_alloc` goes
on to link this page in.
-/
theorem HeapInv.taken (hinv : HeapInv t hp sp s live) {n : Nat}
    (hn : sizeofBlock + n + 4095 < 2 ^ 64) (hfree : AllocsFree s (blockPages n)) :
    ∃ f s₁, Taken t hp sp s live n f s₁ ∧
      heapAlloc s (t.pagePtr hp) n = some (heapLink s₁ (t.pagePtr hp) n (4096 * f)) := by
  have hpc := t.pageCount_lt
  have hpos := blockPages_pos hn
  obtain ⟨p, s₁, halloc, hrun⟩ := hfree
  obtain ⟨f, rfl, -, -, -, hclear, rfl⟩ := pmmAlloc_run halloc hinv.used_zero hrun.nonNull
  have hmanaged := hrun.managed
  rw [hinv.layout.pageCount, Nat.mul_div_cancel_left f (by decide)] at hmanaged
  have hoff := hrun.offBitmap f
  rw [Nat.mul_div_cancel_left f (by decide)] at hoff
  have hoff := hinv.layout.offBitmap.mp (hoff ⟨Nat.le_refl _, by simp only; omega⟩)
  have hlay₁ : SameLayout t ((setPages s f (blockPages n)).setLastPage (f + blockPages n)) :=
    hinv.layout.trans (pmmAlloc_cases halloc).1
  -- only bits of managed pages are set
  have hmem : ∀ x, (∀ bit, bit < t.pmmPageCount → x ≠ bitmapByte t bit) →
      ((setPages s f (blockPages n)).setLastPage (f + blockPages n)).mem x = s.mem x := by
    intro x hx
    rw [setLastPage_mem]
    refine setPages_mem ?_
    intro i hi
    rw [hinv.layout.bitmapByte]
    exact hx (f + i) (by omega)
  -- which touches no header
  have hlist₁ := hinv.toHeapList.congr hinv.layout hlay₁ hinv.lt fun P hP a hlo hhi =>
    hmem a fun bit hbit heq => by
      refine hinv.bit_ne hbit ?_
      rw [← heq, show a / 4096 = P by omega]
      exact hP
  refine ⟨f, _, ⟨halloc, hrun, hmanaged, hclear, rfl, hlay₁, hoff,
    hinv.fresh ⟨show f < _ by omega, hclear 0 (by omega)⟩, hlist₁, hmem⟩, ?_⟩
  unfold heapAlloc
  rw [halloc]
  rfl

/--
**`heap_alloc` keeps the invariant** and puts the new block last. Its pages
were free; writing its header touches no byte of the bitmap, since neither its
page nor those of the neighbours hold one.
-/
theorem HeapInv.alloc (hinv : HeapInv t hp sp s live) {n ptr : Nat}
    (hn : sizeofBlock + n + 4095 < 2 ^ 64) (hfree : AllocsFree s (blockPages n))
    (h : heapAlloc s (t.pagePtr hp) n = some (ptr, s')) :
    HeapInv t hp sp s' (live ++ [⟨ptr, n⟩]) ∧
      ptr = u64 (t.pagePtr (t.physical ptr / 4096) + 32) := by
  have hpc := t.pageCount_lt
  have hpos := blockPages_pos hn
  obtain ⟨f, s₁, htaken, halloc⟩ := hinv.taken hn hfree
  have hf := htaken.managed
  rw [h] at halloc
  have hlink := (Option.some.inj halloc).symm
  obtain ⟨ptr', s'', hlink', hptr, hglob, hlist', hmem⟩ :=
    htaken.list.link htaken.layout hinv.lt hinv.nodup (P := f) (n := n) (by omega) htaken.fresh
      (by omega)
  rw [hlink'] at hlink
  obtain ⟨rfl, rfl⟩ := Prod.mk.inj hlink
  have hpage : HeapBlock.page t ⟨ptr', n⟩ = f := page_ptr (by omega) hptr
  refine ⟨⟨?_, hlist', hinv.zero, hinv.aligned⟩, ?_⟩
  · -- linking the block in touches no byte of the bitmap
    have htake := hinv.toHeapPages.take hptr hn htaken.run htaken.free
    rw [← htaken.bits] at htake
    refine htake.congr (htaken.layout.trans hglob.toSameLayout) fun bit hbit => hmem _ ?_
    rintro (_ | ⟨_, hP⟩)
    · exact htaken.offBitmap bit hbit (by omega)
    · exact hinv.bit_ne hbit hP
  · rw [show t.physical ptr' / 4096 = f from hpage]
    exact hptr

/-- The pages of a new block were free. -/
theorem HeapInv.alloc_free (hinv : HeapInv t hp sp s live) {n ptr : Nat}
    (hn : sizeofBlock + n + 4095 < 2 ^ 64) (hfree : AllocsFree s (blockPages n))
    (h : heapAlloc s (t.pagePtr hp) n = some (ptr, s')) {page : Nat}
    (hpage : (HeapBlock.run t ⟨ptr, n⟩).has page) : page < t.pmmPageCount ∧ s.free page := by
  have hpc := t.pageCount_lt
  have hpos := blockPages_pos hn
  obtain ⟨f, s₁, htaken, hlink⟩ := hinv.taken hn hfree
  have hf := htaken.managed
  rw [h] at hlink
  have hptr : ptr = u64 (t.pagePtr f + 32) := by
    rw [← htaken.layout.pagePtr]
    exact congrArg Prod.fst (Option.some.inj hlink)
  have hfirst : HeapBlock.page t ⟨ptr, n⟩ = f := page_ptr (by omega) hptr
  obtain ⟨hlo, hhi⟩ := hpage
  simp only [HeapBlock.run, hfirst] at hlo hhi
  have hclear := htaken.free (page - f) (by omega)
  rw [Nat.add_sub_cancel' hlo] at hclear
  exact ⟨by omega, hclear⟩

/-- So they are none of the heap's. -/
theorem HeapInv.alloc_apart (hinv : HeapInv t hp sp s live) {n ptr : Nat}
    (hn : sizeofBlock + n + 4095 < 2 ^ 64) (hfree : AllocsFree s (blockPages n))
    (h : heapAlloc s (t.pagePtr hp) n = some (ptr, s')) {r : SlotRun}
    (hr : r ∈ heapRuns t hp sp live) : r.Apart (HeapBlock.run t ⟨ptr, n⟩) := fun page hpage =>
  ((hinv.accounted.free_iff page).mp (hinv.alloc_free hn hfree h hpage.2)).2 r hr hpage.1

/-- `heap_free` of a live pointer unlinks the block and gives its pages back. -/
theorem HeapInv.heapFree_eq (hinv : HeapInv t hp sp s (l ++ b :: m)) :
    heapFree s b.ptr =
      pmmFree (heapUnlink s (t.pagePtr (b.page t))) (4096 * b.page t) (blockPages b.size) := by
  have hb : b ∈ l ++ b :: m := List.mem_append_right _ List.mem_cons_self
  have hP : b.page t ∈ sp :: (l ++ b :: m).map (HeapBlock.page t) :=
    List.mem_cons_of_mem _ (List.mem_map_of_mem hb)
  have hlt := hinv.lt _ (List.mem_cons_of_mem _ hP)
  have hheader := headerOf_ptr (hinv.placed b hb)
  have hphys : s.physical (t.pagePtr (b.page t)) = 4096 * b.page t :=
    physical_pagePtr_add hinv.layout hlt (k := 0) (by decide)
  obtain ⟨hglob, hsize, -, -⟩ := hinv.toHeapList.unlink hinv.layout hinv.lt hinv.nodup
  unfold heapFree
  simp only [hheader]
  rw [if_neg (not_not.mpr (hinv.magic _ hP)), hsize, hglob.physical, hphys]

/--
**`heap_free` of a live pointer keeps the invariant.** First the list: the
block is unlinked, which touches no byte of the bitmap. Then the pages: their
bits are cleared, which touches no header.
-/
theorem HeapInv.free (hinv : HeapInv t hp sp s (l ++ b :: m)) :
    HeapInv t hp sp (heapFree s b.ptr) (l ++ m) := by
  have hpc := t.pageCount_lt
  have hb : b ∈ l ++ b :: m := List.mem_append_right _ List.mem_cons_self
  have hrun := hinv.run_le (mem_heapRuns hp sp hb)
  obtain ⟨hglob, -, hlist, hmem⟩ := hinv.toHeapList.unlink hinv.layout hinv.lt hinv.nodup
  have hlinks := (linkPages_sublist t hp sp l m b).subset
  rw [hinv.heapFree_eq]
  generalize heapUnlink s (t.pagePtr (b.page t)) = s₁ at hglob hlist hmem ⊢
  have hlay₁ := hinv.layout.trans hglob.toSameLayout
  -- unlinking touches no byte of the bitmap
  have hpages₁ := hinv.toHeapPages.congr hlay₁ fun bit hbit =>
    hmem _ fun hQ => hinv.bit_ne hbit (hlinks hQ)
  have hlay₂ :=
    hlay₁.trans (sameGlobals_pmmFree s₁ (4096 * b.page t) (blockPages b.size)).toSameLayout
  have hpage : 4096 * b.page t / pageSize = b.page t := Nat.mul_div_cancel_left _ (by decide)
  refine ⟨hpages₁.give, hlist.congr hlay₁ hlay₂ (fun Q hQ => hinv.lt Q (hlinks hQ)) ?_,
    hinv.zero, hinv.aligned⟩
  -- clearing the bits touches no header
  intro Q hQ a hlo hhi
  simp only [HeapBlock.run] at hrun
  refine pmmFree_mem (by rw [hpage]; omega) ?_
  intro i hi heq
  rw [hpage, hlay₁.bitmapByte] at heq
  refine hinv.bit_ne (show b.page t + i < t.pmmPageCount by omega) ?_
  rw [← heq, show a / 4096 = Q by omega]
  exact hlinks hQ

/-- A byte of a block behind its header, up to the end of its last page. -/
theorem HeapInv.own_page (hinv : HeapInv t hp sp s live) (hb : b ∈ live) {k : Nat}
    (hk : sizeofBlock + k < 4096 * blockPages b.size) :
    t.physical (b.ptr + k) = 4096 * b.page t + 32 + k ∧
      (b.run t).has (t.physical (b.ptr + k) / 4096) := by
  have hpc := t.pageCount_lt
  have hrun := hinv.run_le (mem_heapRuns hp sp (t := t) hb)
  simp only [HeapBlock.run] at hrun
  unfold sizeofBlock at hk
  have hphys := physical_ptr (hinv.placed b hb) (k := k) (by omega)
  refine ⟨hphys, ?_⟩
  rw [hphys]
  constructor
  · show b.page t ≤ _
    omega
  · show _ < b.page t + blockPages b.size
    omega

/--
**A client's bytes are its own.** A byte of a block, header excluded, is in no
header of the heap and is no byte of the bitmap. So whatever clients write, the
heap does not notice.
-/
theorem HeapInv.own (hinv : HeapInv t hp sp s live) (hb : b ∈ live) {k : Nat}
    (hk : sizeofBlock + k < 4096 * blockPages b.size) :
    (∀ P ∈ linkPages t hp sp live, t.physical (b.ptr + k) < 4096 * P ∨
        4096 * P + 32 ≤ t.physical (b.ptr + k)) ∧
      ∀ bit, bit < t.pmmPageCount → bitmapByte t bit ≠ t.physical (b.ptr + k) := by
  have hr := mem_heapRuns hp sp (t := t) hb
  obtain ⟨hphys, hhas⟩ := hinv.own_page hb hk
  rw [hphys] at hhas ⊢
  refine ⟨?_, ?_⟩
  · -- another page with links belongs to another run
    intro P hP
    obtain ⟨r, hr', hfirst, hhas'⟩ := hinv.exists_run hP
    by_cases hrr : r = b.run t
    · have : P = b.page t := by rw [← hfirst, hrr, HeapBlock.run]
      omega
    · by_contra hin
      have hpage : (4096 * b.page t + 32 + k) / 4096 = P := by omega
      rw [hpage] at hhas
      exact apart_of_mem hinv.accounted.apart hr' hr hrr P ⟨hhas', hhas⟩
  · -- no page of the block holds a byte of the bitmap
    intro bit hbit heq
    have := hinv.offBitmap _ hr _ hhas bit hbit
    rw [heq] at this
    omega

/-- The bytes of a client are in neither a header nor the bitmap. -/
theorem HeapInv.payload (hinv : HeapInv t hp sp s live) (hb : b ∈ live) {k : Nat}
    (hk : k < b.size) :
    (∀ P ∈ linkPages t hp sp live, t.physical (b.ptr + k) < 4096 * P ∨
        4096 * P + 32 ≤ t.physical (b.ptr + k)) ∧
      ∀ bit, bit < t.pmmPageCount → bitmapByte t bit ≠ t.physical (b.ptr + k) := by
  have hfit := le_blockPages (hinv.noWrap b hb)
  exact hinv.own hb (by omega)

/-- A write behind the header of a block, in its own pages, keeps the
invariant. -/
theorem HeapInv.writeOwn (hinv : HeapInv t hp sp s live) (hb : b ∈ live) {k : Nat}
    (hk : sizeofBlock + k < 4096 * blockPages b.size) (v : BitVec 8) :
    HeapInv t hp sp (s.write8 (b.ptr + k) v) live := by
  obtain ⟨hlinks, hbits⟩ := hinv.own hb hk
  have hmem : ∀ a, a ≠ t.physical (b.ptr + k) → (s.write8 (b.ptr + k) v).mem a = s.mem a := by
    intro a ha
    refine Function.update_of_ne ?_ _ _
    rwa [hinv.layout.physical]
  refine hinv.congr (sameGlobals_write8 s _ v).toSameLayout (fun P hP a hlo hhi => hmem a ?_)
    fun bit hbit => hmem _ (hbits bit hbit)
  rintro rfl
  have := hlinks P hP
  omega

/-- **A client's write in its block keeps the invariant.** -/
theorem HeapInv.write (hinv : HeapInv t hp sp s live) (hb : b ∈ live) {k : Nat}
    (hk : k < b.size) (v : BitVec 8) : HeapInv t hp sp (s.write8 (b.ptr + k) v) live := by
  have hfit := le_blockPages (hinv.noWrap b hb)
  exact hinv.writeOwn hb (by omega) v

/-- Copying into the pages of a block is a sequence of such writes. -/
theorem HeapInv.copy (hinv : HeapInv t hp sp s live) (hb : b ∈ live) (src : Nat) {n : Nat}
    (hn : sizeofBlock + n ≤ 4096 * blockPages b.size) :
    HeapInv t hp sp (memcpy s b.ptr src n) live :=
  forUp_inv (fun _ s => HeapInv t hp sp s live) hinv fun i _ hi h => h.writeOwn hb (by omega) _

/-- The pointer to a block is never `NULL`: the direct map is page-aligned and
a header is not a whole page. -/
theorem blockPtr_ne_zero (haligned : t.hhdmOffset % 4096 = 0) (P : Nat) :
    u64 (t.pagePtr P + sizeofBlock) ≠ 0 := by
  unfold Machine.pagePtr Machine.higherHalf u64 sizeofBlock
  omega

/-- So `heap_alloc` never returns `NULL`, whatever `pmm_alloc` does. -/
theorem heapAlloc_ne_zero {s s' : Machine} {h n ptr : Nat} (haligned : s.hhdmOffset % 4096 = 0)
    (halloc : heapAlloc s h n = some (ptr, s')) : ptr ≠ 0 := by
  unfold heapAlloc at halloc
  cases hpmm : pmmAlloc s (blockPages n) with
  | none => simp [hpmm] at halloc
  | some r =>
    obtain ⟨p, s₁⟩ := r
    rw [hpmm] at halloc
    obtain ⟨f, rfl, -⟩ := pmmAlloc_searches hpmm
    have hptr : u64 (s₁.pagePtr f + sizeofBlock) = ptr :=
      congrArg Prod.fst (Option.some.inj halloc)
    rw [← hptr]
    refine blockPtr_ne_zero ?_ f
    rw [(pmmAlloc_cases hpmm).1.hhdm]
    exact haligned

/-- And `heap_realloc` returns `NULL` only where it finds no magic number. -/
theorem heapRealloc_ne_zero {s s' : Machine} {h ptr n newPtr : Nat}
    (haligned : s.hhdmOffset % 4096 = 0) (hmagic : s.get (headerOf ptr) .magic = heapMagic)
    (hrealloc : heapRealloc s h ptr n = some (newPtr, s')) : newPtr ≠ 0 := by
  unfold heapRealloc at hrealloc
  simp only at hrealloc
  rw [if_neg (not_not.mpr hmagic)] at hrealloc
  cases halloc : heapAlloc s h n with
  | none => simp [halloc] at hrealloc
  | some r =>
    obtain ⟨ptr', s₁⟩ := r
    have hnonNull := heapAlloc_ne_zero haligned halloc
    rw [halloc] at hrealloc
    simp only at hrealloc
    rw [if_neg hnonNull] at hrealloc
    obtain ⟨rfl, -⟩ := Prod.mk.inj (Option.some.inj hrealloc)
    exact hnonNull

/--
**The steps of `heap_realloc`** on a live pointer with pages to be had: the
test of the magic number passes, `heap_alloc` returns a block, the test for
`NULL` does not fire, the bytes are copied and the old block is freed. In
particular the call returns.
-/
theorem HeapInv.realloc_steps (hinv : HeapInv t hp sp s (l ++ b :: m)) {n : Nat}
    (hn : sizeofBlock + n + 4095 < 2 ^ 64) (hfree : AllocsFree s (blockPages n)) :
    ∃ ptr s₁, heapAlloc s (t.pagePtr hp) n = some (ptr, s₁) ∧
      HeapInv t hp sp s₁ (l ++ b :: m ++ [⟨ptr, n⟩]) ∧
      ptr = u64 (t.pagePtr (t.physical ptr / 4096) + 32) ∧
      heapRealloc s (t.pagePtr hp) b.ptr n =
        some (ptr, heapFree (memcpy s₁ ptr b.ptr b.size) b.ptr) := by
  have hb : b ∈ l ++ b :: m := List.mem_append_right _ List.mem_cons_self
  have hP : b.page t ∈ sp :: (l ++ b :: m).map (HeapBlock.page t) :=
    List.mem_cons_of_mem _ (List.mem_map_of_mem hb)
  have hheader := headerOf_ptr (hinv.placed b hb)
  obtain ⟨ptr, s₁, halloc⟩ : ∃ ptr s₁, heapAlloc s (t.pagePtr hp) n = some (ptr, s₁) := by
    obtain ⟨p, s', hpmm, -⟩ := hfree
    unfold heapAlloc
    rw [hpmm]
    exact ⟨_, _, rfl⟩
  obtain ⟨hinv₁, hptr⟩ := hinv.alloc hn hfree halloc
  have haligned : s.hhdmOffset % 4096 = 0 := by
    rw [hinv.layout.hhdm]
    exact hinv.aligned
  -- so the test `!new_ptr` does not fire
  have hnonNull := heapAlloc_ne_zero haligned halloc
  refine ⟨ptr, s₁, halloc, hinv₁, hptr, ?_⟩
  unfold heapRealloc
  simp only [hheader]
  rw [if_neg (not_not.mpr (hinv.magic _ hP)), halloc]
  simp only
  -- the copy has the length of the old block, read after the allocation
  rw [if_neg hnonNull, hinv₁.size b (List.mem_append_left _ hb)]

/-- **`heap_realloc` of a live pointer keeps the invariant** if the bytes of
the old block fit into the pages of the new one: the old block is gone and the
new one last. -/
theorem HeapInv.reallocFits (hinv : HeapInv t hp sp s (l ++ b :: m)) {n ptr : Nat}
    (hn : sizeofBlock + n + 4095 < 2 ^ 64) (hfit : sizeofBlock + b.size ≤ 4096 * blockPages n)
    (hfree : AllocsFree s (blockPages n))
    (h : heapRealloc s (t.pagePtr hp) b.ptr n = some (ptr, s')) :
    HeapInv t hp sp s' (l ++ m ++ [⟨ptr, n⟩]) := by
  obtain ⟨newPtr, s₁, -, hinv₁, -, hrun⟩ := hinv.realloc_steps hn hfree
  rw [hrun] at h
  obtain ⟨rfl, rfl⟩ := Prod.mk.inj (Option.some.inj h)
  -- the copy stays inside the new block's pages, and the old block is then freed
  have hcopy := hinv₁.copy (b := ⟨newPtr, n⟩)
    (List.mem_append_right _ (List.mem_singleton.mpr rfl)) b.ptr hfit
  rw [List.append_assoc, List.cons_append] at hcopy
  have hfreed := hcopy.free
  rw [← List.append_assoc] at hfreed
  exact hfreed

/-- **`heap_realloc` of a live pointer to a size not smaller keeps the
invariant**: the old block is gone and the new one last. -/
theorem HeapInv.realloc (hinv : HeapInv t hp sp s (l ++ b :: m)) {n ptr : Nat}
    (hn : sizeofBlock + n + 4095 < 2 ^ 64) (hsize : b.size ≤ n)
    (hfree : AllocsFree s (blockPages n))
    (h : heapRealloc s (t.pagePtr hp) b.ptr n = some (ptr, s')) :
    HeapInv t hp sp s' (l ++ m ++ [⟨ptr, n⟩]) := by
  have hfit := le_blockPages hn
  exact hinv.reallocFits hn (by omega) hfree h

end HeapInv

-- ---------------------------------------------------------------------------
-- `heap_create`
-- ---------------------------------------------------------------------------

/-- One page taken from an allocator with page 0 in use. -/
theorem alloc_one {s s' : Machine} {p : Nat} (h0 : s.used 0 = true)
    (halloc : pmmAlloc s 1 = some (p, s')) (hrun : FreeRun s p 1) :
    ∃ f, p = 4096 * f ∧ 1 ≤ f ∧ f < s.pmmPageCount ∧ s.free f ∧ OffBitmap s (4096 * f) ∧
      SameLayout s s' ∧ s'.used 0 = true ∧
      (∀ page, page < s.pmmPageCount → (s'.free page ↔ s.free page ∧ ¬ SlotRun.has ⟨f, 1⟩ page)) ∧
      ∀ a, (∀ bit, bit < s.pmmPageCount → a ≠ bitmapByte s bit) → s'.mem a = s.mem a := by
  have hpc := s.pageCount_lt
  obtain ⟨f, rfl, hf, -, -, hclear, rfl⟩ := pmmAlloc_run halloc h0 hrun.nonNull
  have hmanaged := hrun.managed
  have hoff := hrun.offBitmap f
  rw [Nat.mul_div_cancel_left f (by decide)] at hmanaged hoff
  refine ⟨f, rfl, hf, by omega, hclear 0 (by decide), hoff ⟨Nat.le_refl _, by simp⟩,
    (pmmAlloc_cases halloc).1, ?_, fun page hpage => ?_, fun a ha => ?_⟩
  · rw [setLastPage_used, used_setPages s (by omega) (by omega), h0, Bool.or_true]
  · unfold SlotRun.has
    rw [Machine.free, setLastPage_used, ← Machine.free]
    exact free_setPages s (by omega) (by omega)
  · rw [setLastPage_mem]
    exact setPages_mem fun i hi => ha (f + i) (by omega)

/-- The two pages of a new heap, taken one after the other: its own page and
that of the sentinel. The second was still free after the first was taken, so
they differ. -/
theorem accounted_two {t s₁ s₂ : Machine} {hp sp : Nat}
    (hhp : hp < t.pmmPageCount) (hfree₁ : t.free hp)
    (hbits₁ : ∀ page, page < t.pmmPageCount →
      (s₁.free page ↔ t.free page ∧ ¬ SlotRun.has ⟨hp, 1⟩ page))
    (hsp : sp < t.pmmPageCount) (hfree₂ : s₁.free sp)
    (hbits₂ : ∀ page, page < t.pmmPageCount →
      (s₂.free page ↔ s₁.free page ∧ ¬ SlotRun.has ⟨sp, 1⟩ page)) :
    Accounted (fun page => page < t.pmmPageCount ∧ t.free page)
      (fun page => page < t.pmmPageCount ∧ s₂.free page) (heapRuns t hp sp []) := by
  have hstart := Accounted.start fun page => page < t.pmmPageCount ∧ t.free page
  have hone : Accounted (fun page => page < t.pmmPageCount ∧ t.free page)
      (fun page => page < t.pmmPageCount ∧ s₁.free page) [⟨hp, 1⟩] := by
    refine hstart.takeWithin (r := ⟨hp, 1⟩) ?_ hbits₁
    intro page hhas
    obtain rfl := SlotRun.has_one.mp hhas
    exact ⟨hhp, hfree₁⟩
  refine hone.takeWithin (r := ⟨sp, 1⟩) ?_ hbits₂
  intro page hhas
  obtain rfl := SlotRun.has_one.mp hhas
  exact ⟨hsp, hfree₂⟩

/--
**A new heap is in order.** `heap_create` takes two pages, one for the heap and
one for the sentinel, which is linked to itself; the bitmap beyond these two is
the one it found.
-/
theorem HeapCreated.inv {s₀ s : Machine} {h : Nat} (h0 : s₀.used 0 = true)
    (haligned : s₀.hhdmOffset % 4096 = 0) (hcreate : HeapCreated s₀ h s) :
    ∃ hp sp, h = s₀.pagePtr hp ∧ HeapInv s₀ hp sp s [] ∧
      ∃ p s₁ q s₂, pmmAlloc s₀ 1 = some (p, s₁) ∧ pmmAlloc s₁ 1 = some (q, s₂) ∧
        SameGlobals s₂ s ∧
        ∀ bit, bit < s₀.pmmPageCount → s.mem (bitmapByte s₀ bit) = s₂.mem (bitmapByte s₀ bit) := by
  have hpc := s₀.pageCount_lt
  obtain ⟨p, s₁, halloc₁, hrun₁⟩ := hcreate.page
  obtain ⟨q, s₂, halloc₂, hrun₂⟩ := hcreate.sentinel p s₁ halloc₁
  obtain ⟨hp, rfl, -, hhp, hfree₁, hoff₁, hlay₁, h0₁, hbits₁, -⟩ := alloc_one h0 halloc₁ hrun₁
  obtain ⟨sp, rfl, -, hsp, hfree₂, hoff₂, hlay₂, -, hbits₂, -⟩ := alloc_one h0₁ halloc₂ hrun₂
  rw [hlay₁.pageCount] at hsp hbits₂
  rw [hlay₁.offBitmap] at hoff₂
  -- the second page was free after the first was taken
  have hne : hp ≠ sp := by
    rintro rfl
    exact ((hbits₁ hp hhp).mp hfree₂).2 (SlotRun.has_one.mpr rfl)
  have ht₂ := hlay₁.trans hlay₂
  have hptr₁ : s₁.higherHalf (4096 * hp) = s₀.pagePtr hp := hlay₁.higherHalf _
  have hptr₂ : s₂.higherHalf (4096 * sp) = s₀.pagePtr sp := ht₂.higherHalf _
  have hrun := hcreate.run
  rw [heapCreate_eq halloc₁ halloc₂, hptr₁, hptr₂] at hrun
  obtain ⟨rfl, rfl⟩ := Prod.mk.inj (Option.some.inj hrun)
  obtain ⟨hglob, hhead, hget, hframe⟩ :=
    heapSentinel_spec ht₂ (show hp < 2 ^ 52 by omega) (show sp < 2 ^ 52 by omega) hne
  generalize heapSentinel s₂ (s₀.pagePtr hp) (s₀.pagePtr sp) = s at hglob hhead hget hframe
  have hlay := ht₂.trans hglob.toSameLayout
  -- neither page holds a byte of the bitmap
  have hbits : ∀ bit, bit < s₀.pmmPageCount →
      s.mem (bitmapByte s₀ bit) = s₂.mem (bitmapByte s₀ bit) := by
    intro bit hbit
    refine hframe _ (fun h => hoff₁ bit hbit ?_) (fun h => hoff₂ bit hbit ?_) <;> omega
  have hpages : HeapPages s₀ hp sp s₂ [] := by
    refine ⟨ht₂, by simp, by simp, accounted_two hhp hfree₁ hbits₁ hsp hfree₂ hbits₂, ?_⟩
    intro r hr page hhas
    rcases List.mem_cons.mp hr with rfl | hr
    · rw [SlotRun.has_one.mp hhas]
      exact hoff₁
    · rw [List.mem_singleton.mp hr] at hhas
      rw [SlotRun.has_one.mp hhas]
      exact hoff₂
  -- the sentinel alone is a ring
  have hlist : HeapList s₀ hp sp s [] := by
    refine ⟨hhead, LinkedRing.single.mpr ⟨hget .next, hget .prev⟩, fun P hP => ?_, by simp,
      hget .size⟩
    rw [List.mem_singleton.mp hP]
    exact hget .magic
  exact ⟨hp, sp, rfl, ⟨hpages.congr hlay hbits, hlist, h0, haligned⟩,
    _, s₁, _, s₂, halloc₁, halloc₂, hglob, hbits⟩

-- ---------------------------------------------------------------------------
-- Runs
-- ---------------------------------------------------------------------------

section Runs

variable {t : Machine} {hp sp : Nat}

/-- **Step.** Whatever is done to the heap, the invariant stays. -/
theorem HeapInv.step {st st' : HeapSys} (hinv : HeapInv t hp sp st.machine st.live)
    (h : HeapStep (t.pagePtr hp) st st') : HeapInv t hp sp st'.machine st'.live := by
  cases h with
  | alloc hn hfree halloc => exact (hinv.alloc (by omega) hfree halloc).1
  | free => exact hinv.free
  | realloc hn hsize hfree hrealloc => exact hinv.realloc (by omega) hsize hfree hrealloc
  | write hb hk => exact hinv.write hb hk _

/-- **Run.** By induction on the steps. -/
theorem HeapInv.run {s : Machine} {st : HeapSys} (hinv : HeapInv t hp sp s [])
    (h : HeapRun (t.pagePtr hp) s st) : HeapInv t hp sp st.machine st.live := by
  induction h with
  | refl => exact hinv
  | tail _ hstep ih => exact ih.step hstep

end Runs

-- ---------------------------------------------------------------------------
-- What the heap is in every reachable state
-- ---------------------------------------------------------------------------

/-- The sentinel and the blocks, in the order of their allocation. -/
def HeapSys.nodes (st : HeapSys) (h : Nat) : List Nat :=
  st.machine.blockHead h :: st.live.map fun b => headerOf b.ptr

/-- The physical addresses of a block, header and payload. -/
def HeapBlock.bytes (s : Machine) (b : HeapBlock) (x : Nat) : Prop :=
  s.physical (headerOf b.ptr) ≤ x ∧ x < s.physical (headerOf b.ptr) + (sizeofBlock + b.size)

/-- The pages of the heap: the two of `heap_create`, and those of each
block. -/
def HeapSys.pages (st : HeapSys) (h : Nat) : List SlotRun :=
  ⟨st.machine.physical h / 4096, 1⟩ ::
    ⟨st.machine.physical (st.machine.blockHead h) / 4096, 1⟩ ::
    st.live.map fun b =>
      ⟨st.machine.physical (headerOf b.ptr) / 4096, (sizeofBlock + b.size + 4095) / 4096⟩

/-- The representation of the heap `h` and its isolation, in a system that
started at `s₀`. -/
structure HeapOk (s₀ : Machine) (h : Nat) (st : HeapSys) : Prop where
  /-- Following `next` from the sentinel visits the blocks in order. -/
  visits : ∀ i v, (st.nodes h)[i]? = some v →
    (fun v => st.machine.get v .next)^[i] (st.machine.blockHead h) = v
  closes : (fun v => st.machine.get v .next)^[(st.nodes h).length] (st.machine.blockHead h) =
    st.machine.blockHead h
  nodup : (st.nodes h).Nodup
  inverse : ∀ v ∈ st.nodes h, st.machine.get (st.machine.get v .next) .prev = v ∧
    st.machine.get (st.machine.get v .prev) .next = v
  magic : ∀ v ∈ st.nodes h, st.machine.get v .magic = heapMagic
  size : ∀ b ∈ st.live, st.machine.get (headerOf b.ptr) .size = b.size
  sentinel : st.machine.get (st.machine.blockHead h) .size = 0
  apart : st.live.Pairwise fun a b => ∀ x, ¬ (a.bytes st.machine x ∧ b.bytes st.machine x)
  pagesApart : (st.pages h).Pairwise SlotRun.Apart
  /-- The pages set in the bitmap since `s₀` are those of the heap. -/
  pages : ∀ page, page < s₀.pmmPageCount →
    ((st.machine.used page = true ∧ s₀.used page = false) ↔ ∃ r ∈ st.pages h, r.has page)
  managed : ∀ r ∈ st.pages h, ∀ page, r.has page → page < s₀.pmmPageCount
  kept : ∀ page, page < s₀.pmmPageCount → s₀.used page = true → st.machine.used page = true

section HeapOk

variable {t : Machine} {hp sp : Nat} {st : HeapSys}

/-- The nodes of the list, as the addresses of their pages. -/
theorem HeapInv.nodes (hinv : HeapInv t hp sp st.machine st.live) :
    st.nodes (t.pagePtr hp) = (sp :: st.live.map (HeapBlock.page t)).map t.pagePtr := by
  unfold HeapSys.nodes
  rw [hinv.head, List.map_cons, List.map_map]
  refine congrArg _ (List.map_congr_left ?_)
  intro b hb
  exact headerOf_ptr (hinv.placed b hb)

/-- Where a page of the heap lies in physical memory, -/
theorem HeapInv.physical (hinv : HeapInv t hp sp st.machine st.live) {P : Nat}
    (hP : P ∈ linkPages t hp sp st.live) : st.machine.physical (t.pagePtr P) = 4096 * P :=
  physical_pagePtr_add hinv.layout (hinv.lt P hP) (k := 0) (by decide)

/-- and the header of a block. -/
theorem HeapInv.header (hinv : HeapInv t hp sp st.machine st.live) {b : HeapBlock}
    (hb : b ∈ st.live) : st.machine.physical (headerOf b.ptr) = 4096 * b.page t := by
  rw [headerOf_ptr (hinv.placed b hb)]
  exact hinv.physical (mem_linkPages hp sp hb)

/-- The runs of the heap, as a reader of the machine computes them from
pointers and sizes. -/
theorem HeapInv.pages_eq (hinv : HeapInv t hp sp st.machine st.live) :
    st.pages (t.pagePtr hp) = heapRuns t hp sp st.live := by
  unfold HeapSys.pages heapRuns
  rw [hinv.head, hinv.physical List.mem_cons_self,
    hinv.physical (List.mem_cons_of_mem _ List.mem_cons_self),
    Nat.mul_div_cancel_left _ (by decide), Nat.mul_div_cancel_left _ (by decide)]
  refine congrArg _ (congrArg _ (List.map_congr_left ?_))
  intro b hb
  rw [hinv.header hb, Nat.mul_div_cancel_left _ (by decide), HeapBlock.run,
    blockPages_eq (hinv.noWrap b hb)]

/-- The bytes of two live blocks are disjoint, since their pages are. -/
theorem HeapInv.bytes_apart (hinv : HeapInv t hp sp st.machine st.live) :
    st.live.Pairwise fun a b => ∀ x, ¬ (a.bytes st.machine x ∧ b.bytes st.machine x) := by
  have hruns := hinv.accounted.apart
  unfold heapRuns at hruns
  have hlive := List.pairwise_map.mp
    (List.pairwise_cons.mp (List.pairwise_cons.mp hruns).2).2
  -- a byte of a block is in a page of its run
  have hin : ∀ b ∈ st.live, ∀ x, b.bytes st.machine x → (b.run t).has (x / 4096) := by
    intro b hb x ⟨hlo, hhi⟩
    have hfit := le_blockPages (hinv.noWrap b hb)
    rw [hinv.header hb] at hlo hhi
    constructor
    · show b.page t ≤ _
      omega
    · show _ < b.page t + blockPages b.size
      omega
  refine hlive.imp_of_mem ?_
  rintro a b ha hb hab x ⟨hxa, hxb⟩
  exact hab (x / 4096) ⟨hin _ ha x hxa, hin _ hb x hxb⟩

/-- **The invariant says all that is promised of a heap.** This is where the
pages and the list, kept apart until here, are put back into the words of the
source. -/
theorem HeapInv.ok (hinv : HeapInv t hp sp st.machine st.live) : HeapOk t (t.pagePtr hp) st := by
  have hpc := t.pageCount_lt
  have hnodes := hinv.nodes
  have hlen : (st.nodes (t.pagePtr hp)).length =
      ((st.live.map (HeapBlock.page t)).map t.pagePtr).length + 1 := by
    rw [hnodes]
    simp
  refine ⟨?_, ?_, ?_, ?_, ?_, ?_, ?_,
    hinv.bytes_apart, ?_, ?_, ?_, ?_⟩
  · -- following the links visits the nodes in order
    intro i v hv
    rw [hinv.head]
    rw [hnodes, List.map_cons] at hv
    refine hinv.ring.visits ?_
    rw [List.getElem?_append_left (List.getElem?_eq_some_iff.mp hv).1]
    exact hv
  · -- and comes back
    rw [hinv.head, hlen]
    exact hinv.ring.closes
  · -- no node comes twice
    rw [hnodes]
    exact nodup_pagePtr (List.nodup_cons.mp hinv.nodup).2
      fun P hP => hinv.lt P (List.mem_cons_of_mem _ hP)
  · -- `prev` is the inverse of `next`
    intro v hv
    rw [hnodes, List.map_cons] at hv
    exact hinv.ring.inverse hv
  · intro v hv
    rw [hnodes] at hv
    obtain ⟨P, hP, rfl⟩ := exists_page _ hv
    exact hinv.magic P hP
  · intro b hb
    rw [headerOf_ptr (hinv.placed b hb)]
    exact hinv.size b hb
  · rw [hinv.head]
    exact hinv.sentinel
  · rw [hinv.pages_eq]
    exact hinv.accounted.apart
  · -- the pages taken since the start are those of the heap
    intro page hlt
    rw [hinv.pages_eq]
    constructor
    · rintro ⟨hused, hinit⟩
      exact (hinv.accounted.taken_iff ⟨hlt, hinit⟩).mp fun h => not_free.mpr hused h.2
    · rintro ⟨r, hr, hhas⟩
      have hinit := hinv.accounted.owned r hr page hhas
      have htaken := (hinv.accounted.taken_iff hinit).mpr ⟨r, hr, hhas⟩
      exact ⟨not_free.mp fun h => htaken ⟨hlt, h⟩, hinit.2⟩
  · intro r hr page hhas
    rw [hinv.pages_eq] at hr
    exact (hinv.accounted.owned r hr page hhas).1
  · -- a page in use at the start still is
    intro page hlt hused
    rw [← not_free] at hused ⊢
    exact fun h => hused (hinv.accounted.init_of_free ⟨hlt, h⟩).2

end HeapOk

/-- Allocations and growing reallocations of live pointers return, where `pmm_alloc`
has free pages for them. -/
structure HeapServes (h : Nat) (st : HeapSys) : Prop where
  alloc : ∀ n, sizeofBlock + n + 4095 ≤ 2 ^ 64 - 1 → AllocsFree st.machine (blockPages n) →
    ∃ ptr s', heapAlloc st.machine h n = some (ptr, s')
  realloc : ∀ b ∈ st.live, ∀ n, sizeofBlock + n + 4095 ≤ 2 ^ 64 - 1 → b.size ≤ n →
    AllocsFree st.machine (blockPages n) →
      ∃ ptr s', heapRealloc st.machine h b.ptr n = some (ptr, s')

/-- In a heap that is in order, allocations and reallocations return, whenever
`pmm_alloc` has the pages. -/
theorem HeapInv.serves {t : Machine} {hp sp : Nat} {st : HeapSys}
    (hinv : HeapInv t hp sp st.machine st.live) : HeapServes (t.pagePtr hp) st where
  alloc n hn hfree := by
    obtain ⟨f, s₁, -, halloc⟩ := hinv.taken (by omega) hfree
    exact ⟨_, _, halloc⟩
  realloc b hb n hn hsize hfree := by
    obtain ⟨l, m, hlive⟩ := List.append_of_mem hb
    rw [hlive] at hinv
    obtain ⟨ptr, s₁, -, -, -, hrun⟩ := hinv.realloc_steps (by omega) hfree
    exact ⟨_, _, hrun⟩

/--
**Heap representation and isolation over whole runs.** From `heap_create` on, with
page 0 in use and the direct map page-aligned, in every state reached by allocations
that get free pages, frees and growing reallocations of live pointers, and writes of
clients inside their blocks: the list is the sentinel and the live blocks in order,
every header is intact, the blocks are disjoint, and the pages set in the bitmap are
those of the heap. In every such state the next call of this kind returns.
-/
theorem heap_run_ok {s₀ s : Machine} {h : Nat} {st : HeapSys} (h0 : s₀.used 0 = true)
    (haligned : s₀.hhdmOffset % 4096 = 0) (hcreate : HeapCreated s₀ h s)
    (hrun : HeapRun h s st) : HeapOk s₀ h st ∧ HeapServes h st := by
  obtain ⟨hp, sp, rfl, hinv, -⟩ := hcreate.inv h0 haligned
  exact ⟨(hinv.run hrun).ok, (hinv.run hrun).serves⟩

-- ---------------------------------------------------------------------------
-- An allocator that supplies the heap
-- ---------------------------------------------------------------------------

/-- Room at the cursor is a run of free pages. -/
theorem Roomy.allocsFree {s : Machine} {k n : Nat} (h : Roomy s (k + n)) (hn : 1 ≤ n) :
    AllocsFree s n := by
  have hroom := h.room
  have hcursor := h.bitmap 0 (by omega)
  have hpage : 4096 * s.pmmLastPage / 4096 = s.pmmLastPage :=
    Nat.mul_div_cancel_left _ (by decide)
  refine ⟨_, _, (h.alloc hn).1, by omega, by omega, fun page ⟨hlo, _⟩ bit hbit => ?_⟩
  have := h.bitmap bit hbit
  simp only [hpage] at hlo
  omega

section Roomy

variable {t s : Machine} {hp sp k n : Nat} {live : List HeapBlock}

/-- On a machine with room, an allocation finds its pages and leaves the
rest. -/
theorem HeapInv.roomy_alloc (hinv : HeapInv t hp sp s live)
    (hn : sizeofBlock + n + 4095 < 2 ^ 64) (hroom : Roomy s (k + blockPages n)) :
    ∃ ptr s', AllocsFree s (blockPages n) ∧ heapAlloc s (t.pagePtr hp) n = some (ptr, s') ∧
      HeapInv t hp sp s' (live ++ [⟨ptr, n⟩]) ∧ Roomy s' k := by
  have hpc := t.pageCount_lt
  have hpos := blockPages_pos hn
  have hfree := hroom.allocsFree hpos
  obtain ⟨halloc, hroom₁⟩ := hroom.alloc hpos
  obtain ⟨f, s₁, htaken, hlink⟩ := hinv.taken hn hfree
  have hf := htaken.managed
  have hsame := htaken.alloc
  rw [halloc] at hsame
  obtain ⟨-, rfl⟩ := Prod.mk.inj (Option.some.inj hsame)
  obtain ⟨ptr, s', hlink', -, hglob, -, hmem⟩ :=
    htaken.list.link htaken.layout hinv.lt hinv.nodup (P := f) (n := n) (by omega) htaken.fresh
      (by omega)
  rw [hlink'] at hlink
  refine ⟨ptr, s', hfree, hlink, (hinv.alloc hn hfree hlink).1, ?_⟩
  -- linking the block in touches no byte of the bitmap
  refine hroom₁.congr hglob ?_
  intro bit hbit
  rw [htaken.layout.pageCount] at hbit
  rw [htaken.layout.bitmapByte]
  refine hmem _ ?_
  rintro (_ | ⟨_, hP⟩)
  · exact htaken.offBitmap bit hbit (by omega)
  · exact hinv.bit_ne hbit hP

end Roomy

/-- There is a machine on which a heap can be created and used: one with
thirteen free pages in a row, two of which the heap takes. -/
theorem roomyHeap :
    ∃ hp sp s, HeapCreated roomyMachine (roomyMachine.pagePtr hp) s ∧
      HeapInv roomyMachine hp sp s [] ∧ Roomy s 11 := by
  have hroom₀ : Roomy roomyMachine (11 + 1 + 1) := roomyMachine_roomy
  obtain ⟨halloc₁, hroom₁⟩ := hroom₀.alloc (Nat.le_refl 1)
  obtain ⟨halloc₂, hroom₂⟩ := hroom₁.alloc (Nat.le_refl 1)
  obtain ⟨h, s, hrun⟩ : ∃ h s, heapCreate roomyMachine = some (h, s) :=
    ⟨_, _, heapCreate_eq halloc₁ halloc₂⟩
  have hcreate : HeapCreated roomyMachine h s := by
    refine ⟨hroom₀.allocsFree (Nat.le_refl 1), ?_, hrun⟩
    intro p s' halloc
    rw [halloc₁] at halloc
    obtain ⟨-, rfl⟩ := Prod.mk.inj (Option.some.inj halloc)
    exact hroom₁.allocsFree (Nat.le_refl 1)
  obtain ⟨hp, sp, hh, hinv, p, s₁, q, s₂, halloc₁', halloc₂', hglob, hbits⟩ :=
    hcreate.inv (by decide) (by decide)
  rw [hh] at hcreate
  rw [halloc₁] at halloc₁'
  obtain ⟨-, rfl⟩ := Prod.mk.inj (Option.some.inj halloc₁')
  rw [halloc₂] at halloc₂'
  obtain ⟨-, rfl⟩ := Prod.mk.inj (Option.some.inj halloc₂')
  have hlayout := (pmmAlloc_cases halloc₁).1.trans (pmmAlloc_cases halloc₂).1
  refine ⟨hp, sp, s, hcreate, hinv, hroom₂.congr hglob ?_⟩
  intro bit hbit
  rw [hlayout.pageCount] at hbit
  rw [hlayout.bitmapByte]
  exact hbits bit hbit

/-- Blocks of 100 and 200 bytes; the first is made one of 5000 bytes, the
second is freed. So the run has every kind of step but a write, and one block
is left, in two pages of its own. -/
theorem heap_run_ok_roomy :
    ∃ h s st b, HeapCreated roomyMachine h s ∧ HeapRun h s st ∧ st.live = [b] ∧ b.size = 5000 ∧
      HeapOk roomyMachine h st ∧ HeapServes h st := by
  obtain ⟨hp, sp, s, hcreate, hinv, hroom⟩ := roomyHeap
  -- two allocations
  have hroom : Roomy s (10 + blockPages 100) := hroom
  obtain ⟨p, s₁, hfree₁, halloc₁, hinv₁, hroom₁⟩ := hinv.roomy_alloc (n := 100) (by decide) hroom
  have hroom₁ : Roomy s₁ (9 + blockPages 200) := hroom₁
  obtain ⟨q, s₂, hfree₂, halloc₂, hinv₂, hroom₂⟩ := hinv₁.roomy_alloc (n := 200) (by decide) hroom₁
  -- the reallocation of the first block
  have hfree₃ : AllocsFree s₂ (blockPages 5000) :=
    (show Roomy s₂ (7 + blockPages 5000) from hroom₂).allocsFree (by decide)
  have hserves : HeapServes _ ⟨s₂, [⟨p, 100⟩, ⟨q, 200⟩]⟩ := HeapInv.serves hinv₂
  obtain ⟨r, s₃, hrealloc⟩ := hserves.realloc ⟨p, 100⟩ List.mem_cons_self 5000 (by decide)
    (show 100 ≤ 5000 by decide) hfree₃
  have hsteps : HeapRun (roomyMachine.pagePtr hp) s ⟨heapFree s₃ q, [⟨r, 5000⟩]⟩ :=
    (((Relation.ReflTransGen.single (.alloc (by decide) hfree₁ halloc₁)).tail
      (.alloc (by decide) hfree₂ halloc₂)).tail
        (.realloc (l := []) (m := [⟨q, 200⟩]) (by decide) (show 100 ≤ 5000 by decide) hfree₃
          hrealloc)).tail
          (.free (l := []) (b := ⟨q, 200⟩) (m := [⟨r, 5000⟩]))
  exact ⟨_, s, _, _, hcreate, hsteps, rfl, rfl, heap_run_ok (by decide) (by decide) hcreate hsteps⟩

end Medlar64
