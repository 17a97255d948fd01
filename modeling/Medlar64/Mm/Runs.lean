import Mathlib.Logic.Relation
import Medlar64.Lib.Slots
import Medlar64.Mm.Init

/-!
# Medlar64 — runs of the page allocator

The allocator after `pmm_init`, driven by any sequence of `pmm_alloc`, of
`pmm_free` of live allocations, and of writes by its clients outside the
bitmap.

* `AllocInv` — the machine implements the accounting of `Lib/Slots`: the clear
  bits are the pages left of the initial ones. `AllocInv.alloc`,
  `AllocInv.give` and `AllocInv.congr` are its three steps.
* `RunInv.run` — the accounting holds in every state of a run.
* `pmm_run_safe` — page allocator safety over whole runs.
-/

namespace Medlar64

-- ---------------------------------------------------------------------------
-- The system
-- ---------------------------------------------------------------------------

/-- A pointer that `pmm_alloc(pages)` returned. -/
structure Block where
  addr : Nat
  pages : Nat
deriving DecidableEq, Repr

/-- Its pages. The address that `pmm_alloc` returns is that of a page. -/
def Block.run (b : Block) : SlotRun := ⟨b.addr / 4096, b.pages⟩

/-- The machine and the allocations not yet freed. -/
structure PmmSys where
  machine : Machine
  live : List Block

/-- One step of the allocator or of a client; the bitmap takes `size` bytes. -/
inductive PmmStep (size : Nat) : PmmSys → PmmSys → Prop
  | alloc {s s' : Machine} {live : List Block} {n p : Nat} (h : pmmAlloc s n = some (p, s')) :
      PmmStep size ⟨s, live⟩ ⟨s', if p = 0 then live else live ++ [⟨p, n⟩]⟩
  | free {s : Machine} {l m : List Block} {b : Block} :
      PmmStep size ⟨s, l ++ b :: m⟩ ⟨pmmFree s b.addr b.pages, l ++ m⟩
  | write {s : Machine} {live : List Block} {ptr : Nat} {v : BitVec 8}
      (h : ∀ page, page < 8 * size → s.physical ptr ≠ bitmapByte s page) :
      PmmStep size ⟨s, live⟩ ⟨s.write8 ptr v, live⟩

/-- Reachable from the machine that `pmm_init` left, with nothing allocated. -/
def PmmRun (size : Nat) (s₀ : Machine) (st : PmmSys) : Prop :=
  Relation.ReflTransGen (PmmStep size) ⟨s₀, []⟩ st

-- ---------------------------------------------------------------------------
-- The accounting invariant
-- ---------------------------------------------------------------------------

/-- The pages of `init` are managed by a bitmap of `bits` bits whose barrier
below `limit` is not one of them. Page 0 is not one of them either, since its
address is `NULL`. -/
structure Managed (bits limit pageCount : Nat) (init : Nat → Prop) : Prop where
  top : limit = pageCount + 1 ∨ limit = pageCount
  limit_le : limit ≤ bits
  bits_lt : bits < 2 ^ 64
  below : ∀ page, init page → page < pageCount
  barrier : limit ≠ 0 → ¬ init (limit - 1)
  zero : ¬ init 0

/-- The machine accounts for the pages of `init`: its clear bits are those of
the pages that no live run holds. -/
structure AllocInv (bits : Nat) (init : Nat → Prop) (s : Machine) (live : List SlotRun) :
    Prop where
  cursor : s.pmmLastPage ≤ s.pmmPageCount
  nonempty : ∀ r ∈ live, 1 ≤ r.count
  accounted : Accounted init (fun page => page < bits ∧ s.free page) live

section AllocInv

variable {bits limit n p : Nat} {init : Nat → Prop} {s s' : Machine} {live l m : List SlotRun}
  {r : SlotRun}

/-- A page that was not there at the start is never free. -/
theorem AllocInv.used_of_not_init (hinv : AllocInv bits init s live) {page : Nat}
    (hpage : page < bits) (hinit : ¬ init page) : ¬ s.free page := fun hfree =>
  hinit (hinv.accounted.init_of_free ⟨hpage, hfree⟩)

/-- So the barrier stands in every state, and no search passes it. -/
theorem AllocInv.toBarrier (hm : Managed bits limit s.pmmPageCount init)
    (hinv : AllocInv bits init s live) : Barrier s limit := by
  -- the page below the limit is not an initial one, so its bit is set
  refine ⟨hm.top, fun hne => hinv.used_of_not_init ?_ (hm.barrier hne)⟩
  have := hm.limit_le
  omega

/-- Nor does any search find page 0. -/
theorem AllocInv.page_zero (hm : Managed bits limit s.pmmPageCount init)
    (hinv : AllocInv bits init s live) (hpc : 0 < s.pmmPageCount) : ¬ s.free 0 := by
  refine hinv.used_of_not_init ?_ hm.zero
  have := hm.limit_le
  rcases hm.top with h | h <;> omega

/-- A live run lies below the page count. -/
theorem AllocInv.run_le (hm : Managed bits limit s.pmmPageCount init)
    (hinv : AllocInv bits init s live) (hr : r ∈ live) : r.first + r.count ≤ s.pmmPageCount := by
  have hcount := hinv.nonempty r hr
  have hlast : r.has (r.first + r.count - 1) := ⟨by omega, by omega⟩
  have := hm.below _ (hinv.accounted.owned r hr _ hlast)
  omega

/-- The outcome of `pmm_alloc` for a machine that accounts for its pages: the
run of the next fit, all of its pages free before, or `NULL`. -/
theorem AllocInv.alloc_spec (hm : Managed bits limit s.pmmPageCount init)
    (hinv : AllocInv bits init s live) (hn : 1 ≤ n) :
    (∃ f, NextFit s.free s.pmmPageCount n s.pmmLastPage f ∧ 1 ≤ f ∧
        (∀ page, SlotRun.has ⟨f, n⟩ page → page < bits ∧ s.free page) ∧
        pmmAlloc s n = some (f * 4096, (setPages s f n).setLastPage (f + n))) ∨
      (∀ f, ¬ FitsAt s.free s.pmmPageCount n f) ∧
        pmmAlloc s n = some (0, s.setLastPage s.pmmPageCount) := by
  have hle := hm.limit_le
  rcases pmmAlloc_spec (hinv.toBarrier hm) (hinv.page_zero hm) hinv.cursor hn with
    ⟨f, hnext, hf, hlt, halloc⟩ | hnone
  · refine .inl ⟨f, hnext, hf, ?_, halloc⟩
    rintro page ⟨hlo, hhi⟩
    have hfree := hnext.fits.2 (page - f)
    rw [show f + (page - f) = page by simp only at hlo; omega] at hfree
    simp only at hlo hhi
    exact ⟨by omega, hfree (by omega)⟩
  · exact .inr hnone

/-- Setting the bits of a free run takes it: these pages, and no others, are
not free any more, and the cursor stays within the page count. -/
theorem AllocInv.take {f : Nat} (hm : Managed bits limit s.pmmPageCount init)
    (hinv : AllocInv bits init s live) (hn : 1 ≤ n) (hle : f + n ≤ s.pmmPageCount)
    (hfree : ∀ page, SlotRun.has ⟨f, n⟩ page → page < bits ∧ s.free page) :
    AllocInv bits init ((setPages s f n).setLastPage (f + n)) (live ++ [⟨f, n⟩]) := by
  have hpc := s.pageCount_lt
  have hbits := hm.bits_lt
  refine ⟨?_, ?_, hinv.accounted.takeWithin hfree ?_⟩
  · -- the cursor
    show f + n ≤ (setPages s f n).pmmPageCount
    rw [(sameGlobals_setPages s f n).pageCount]
    exact hle
  · -- no run is empty
    intro r hr
    rcases List.mem_append.mp hr with hr | hr
    · exact hinv.nonempty r hr
    · rw [List.mem_singleton.mp hr]
      exact hn
  · -- exactly the bits of the run were set
    intro page hpage
    exact free_setPages s (by omega) (by omega)

theorem AllocInv.moveCursor {c : Nat} (hinv : AllocInv bits init s live)
    (hc : c ≤ s.pmmPageCount) : AllocInv bits init (s.setLastPage c) live :=
  ⟨hc, hinv.nonempty, hinv.accounted⟩

/--
**`pmm_alloc` keeps the accounting**: it returns; a non-null result is a run of
pages that were free, now owned by the caller.
-/
theorem AllocInv.alloc (hm : Managed bits limit s.pmmPageCount init)
    (hinv : AllocInv bits init s live) (h : pmmAlloc s n = some (p, s')) :
    SameLayout s s' ∧
      AllocInv bits init s' (if p = 0 then live else live ++ [⟨p / 4096, n⟩]) := by
  refine ⟨(pmmAlloc_cases h).1, ?_⟩
  rcases Nat.eq_zero_or_pos n with rfl | hn
  · -- no page asked for: `NULL`
    rw [pmmAlloc_zero] at h
    obtain ⟨rfl, rfl⟩ := Prod.mk.inj (Option.some.inj h)
    rw [if_pos rfl]
    exact hinv.moveCursor (Nat.zero_le _)
  · rcases hinv.alloc_spec hm hn with ⟨f, hnext, hf, hfree, halloc⟩ | ⟨-, halloc⟩
    · -- a run of pages that were free
      rw [halloc] at h
      obtain ⟨rfl, rfl⟩ := Prod.mk.inj (Option.some.inj h)
      rw [if_neg (by omega), Nat.mul_div_cancel _ (by decide)]
      exact hinv.take hm hn hnext.fits.1 hfree
    · -- no run: `NULL`
      rw [halloc] at h
      obtain ⟨rfl, rfl⟩ := Prod.mk.inj (Option.some.inj h)
      rw [if_pos rfl]
      exact hinv.moveCursor (Nat.le_refl _)

/-- **`pmm_free` of a live run keeps the accounting.** The bits cleared are
those of the run, none of which belongs to another live run. -/
theorem AllocInv.give (hm : Managed bits limit s.pmmPageCount init)
    (hinv : AllocInv bits init s (l ++ r :: m)) (hp : p / 4096 = r.first) :
    AllocInv bits init (pmmFree s p r.count) (l ++ m) := by
  have hpc := s.pageCount_lt
  have hbits := hm.bits_lt
  have hglob := sameGlobals_pmmFree s p r.count
  have hr : r ∈ l ++ r :: m := List.mem_append_right _ List.mem_cons_self
  have hle := hinv.run_le hm hr
  have hsub : List.Sublist (l ++ m) (l ++ r :: m) :=
    (List.sublist_cons_self r m).append_left l
  refine ⟨?_, fun a ha => hinv.nonempty a (hsub.subset ha),
    hinv.accounted.giveWithin ?_ ?_⟩
  · -- freeing does not move the cursor
    rw [hglob.lastPage, hglob.pageCount]
    exact hinv.cursor
  · -- the pages of a live run have bits
    rintro page ⟨_, hhi⟩
    have := hm.limit_le
    rcases hm.top with h | h <;> omega
  · -- exactly the bits of the run are cleared
    intro page hpage
    have hfirst : p / pageSize = r.first := hp
    rw [free_pmmFree s (by rw [hfirst]; omega) (by omega), hfirst, SlotRun.has]

/-- Writes outside the bitmap keep the accounting. -/
theorem AllocInv.congr (hinv : AllocInv bits init s live) (hglob : SameGlobals s s')
    (hmem : ∀ page, page < bits → s'.mem (bitmapByte s page) = s.mem (bitmapByte s page)) :
    AllocInv bits init s' live := by
  refine ⟨?_, hinv.nonempty, hinv.accounted.congrWithin ?_⟩
  · rw [hglob.lastPage, hglob.pageCount]
    exact hinv.cursor
  · intro page hpage
    rw [Machine.free, Machine.free, used_congr hglob.toSameLayout (hmem page hpage)]

end AllocInv

-- ---------------------------------------------------------------------------
-- From `pmm_init` to the invariant
-- ---------------------------------------------------------------------------

section Boot

variable {mm : Memmap} {d : LimineMemmapEntry} {mem : Memory} {hhdm : Nat} {s₀ : Machine}

/-- What `pmm_init` leaves free is managed, when the bitmap holds a bit that is
never cleared. -/
theorem managed_freePage {limit : Nat} (h0 : ¬ FreePage mm d 0)
    (htop : limit = mm.pageCount + 1 ∨ limit = mm.pageCount)
    (hle : limit ≤ 8 * mm.bitmapSize) (hbar : limit ≠ 0 → ¬ FreePage mm d (limit - 1)) :
    Managed (8 * mm.bitmapSize) limit mm.pageCount (FreePage mm d) :=
  ⟨htop, hle, by have := mm.bitmapSize_lt; omega, fun _ h => h.lt, hbar, h0⟩

/-- After `pmm_init` all free pages are accounted for, and nothing is live. -/
theorem InitSpec.allocInv (hspec : InitSpec mm d (Machine.boot mem hhdm) s₀)
    (hcover : mm.pageCount ≤ 8 * mm.bitmapSize) :
    AllocInv (8 * mm.bitmapSize) (FreePage mm d) s₀ [] := by
  refine ⟨?_, fun _ h => absurd h List.not_mem_nil, (Accounted.start _).congr ?_⟩
  · rw [hspec.lastPage]
    exact Nat.zero_le _
  · intro page
    constructor
    · exact fun ⟨hpage, hfree⟩ => (hspec.free page hpage).mp hfree
    · intro h
      have hlt := h.lt
      exact ⟨by omega, (hspec.free page (by omega)).mpr h⟩

end Boot

-- ---------------------------------------------------------------------------
-- Runs
-- ---------------------------------------------------------------------------

/-- The invariant of a run: the live allocations are accounted for. -/
structure RunInv (bits : Nat) (init : Nat → Prop) (s₀ : Machine) (st : PmmSys) : Prop where
  layout : SameLayout s₀ st.machine
  inv : AllocInv bits init st.machine (st.live.map Block.run)

/-- **Step.** Each kind of step is one of the three operations on the
accounting. -/
theorem RunInv.step {size limit : Nat} {init : Nat → Prop} {s₀ : Machine} {st st' : PmmSys}
    (hm : Managed (8 * size) limit s₀.pmmPageCount init)
    (hinv : RunInv (8 * size) init s₀ st) (h : PmmStep size st st') :
    RunInv (8 * size) init s₀ st' := by
  have hm' : Managed (8 * size) limit st.machine.pmmPageCount init := by
    rw [hinv.layout.pageCount]
    exact hm
  -- one case for each kind of step
  cases h with
  | alloc h =>
    obtain ⟨hlayout, halloc⟩ := hinv.inv.alloc hm' h
    refine ⟨hinv.layout.trans hlayout, ?_⟩
    show AllocInv _ _ _ (List.map Block.run (if _ then _ else _))
    rw [apply_ite (List.map Block.run), List.map_append]
    exact halloc
  | @free s l m b =>
    have hlive := hinv.inv
    simp only [List.map_append, List.map_cons] at hlive
    refine ⟨hinv.layout.trans (sameGlobals_pmmFree _ _ _).toSameLayout, ?_⟩
    simp only [List.map_append]
    exact hlive.give hm' rfl
  | @write s live ptr v h =>
    refine ⟨hinv.layout.trans (sameGlobals_write8 _ _ _).toSameLayout,
      hinv.inv.congr (sameGlobals_write8 _ _ _) ?_⟩
    intro page hpage
    exact Function.update_of_ne (Ne.symm (h page hpage)) _ _

/-- **Run.** The accounting holds in every state that is reached. -/
theorem RunInv.run {size limit : Nat} {init : Nat → Prop} {s₀ : Machine} {st : PmmSys}
    (hm : Managed (8 * size) limit s₀.pmmPageCount init)
    (h0 : AllocInv (8 * size) init s₀ []) (h : PmmRun size s₀ st) :
    RunInv (8 * size) init s₀ st := by
  induction h with
  | refl => exact ⟨.refl s₀, h0⟩
  | tail _ hstep ih => exact ih.step hm hstep

/--
**Page allocator safety over whole runs.** On a memory map whose bitmap fits
into the first largest usable entry and has a bit to spare, page 0 not usable:
`pmm_init` returns, and in every state reached by allocations, frees of live
allocations and client writes outside the bitmap, the live allocations are
pairwise disjoint and lie below the page count, and the pages whose bit is
clear are the pages free after `pmm_init` that no live allocation holds.
-/
theorem pmm_run_safe (mm : Memmap) (mem : Memory) (hhdm : Nat) {i : Nat} {d : LimineMemmapEntry}
    (hd : FirstLargest mm.entries i d) (hfit : mm.bitmapSize ≤ d.length)
    (hspare : mm.pageCount < 8 * mm.bitmapSize)
    (h0 : ∀ e ∈ mm.entries, e.usable → ¬ e.contains 0) :
    ∃ s₀ entries, pmmInit (Machine.boot mem hhdm) mm.entries = some (s₀, entries) ∧
      s₀.pmmPageCount = mm.pageCount ∧
      ∀ st, PmmRun mm.bitmapSize s₀ st →
        (st.live.Pairwise fun a b => ∀ page, ¬ (a.run.has page ∧ b.run.has page)) ∧
        (∀ b ∈ st.live, ∀ page, b.run.has page → page < s₀.pmmPageCount) ∧
        ∀ page, page < s₀.pmmPageCount → (st.machine.used page = false ↔
          s₀.used page = false ∧ ∀ b ∈ st.live, ¬ b.run.has page) := by
  obtain ⟨s₀, entries, hrun, hspec⟩ := pmmInit_spec hd hfit (Machine.boot mem hhdm)
  refine ⟨s₀, entries, hrun, hspec.pageCount, ?_⟩
  intro st hst
  have hzero : ¬ FreePage mm d 0 := by
    rintro ⟨⟨e, he, hu, hx⟩, -⟩
    exact h0 e he hu hx
  -- the bit above the last page is in the bitmap and set: the barrier
  have hm : Managed (8 * mm.bitmapSize) (mm.pageCount + 1) s₀.pmmPageCount (FreePage mm d) := by
    rw [hspec.pageCount]
    refine managed_freePage hzero (.inl rfl) hspare ?_
    intro _ hfree
    have := hfree.lt
    omega
  have hacc := (RunInv.run hm (hspec.allocInv (by omega)) hst).inv.accounted
  refine ⟨?_, ?_, ?_⟩
  · -- no page handed out twice
    exact List.pairwise_map.mp hacc.apart
  · -- none outside managed memory
    intro b hb page hpage
    exact hm.below page (hacc.owned _ (List.mem_map_of_mem hb) page hpage)
  · -- none leaked
    intro page hpage
    rw [hspec.pageCount] at hpage
    have hlt : page < 8 * mm.bitmapSize := by omega
    have hfree := hacc.free_iff page
    rw [← Machine.free, ← Machine.free, hspec.free page hlt]
    constructor
    · intro h
      obtain ⟨hinit, hlive⟩ := hfree.mp ⟨hlt, h⟩
      exact ⟨hinit, fun b hb => hlive _ (List.mem_map_of_mem hb)⟩
    · rintro ⟨hinit, hlive⟩
      refine (hfree.mpr ⟨hinit, ?_⟩).2
      intro r hr
      obtain ⟨b, hb, rfl⟩ := List.mem_map.mp hr
      exact hlive b hb

section Single

variable {s₀ s : Machine} {n f : Nat}

/-- `pmm_alloc` of `n` pages, where a run of them fits: it returns a run that is
live from then on. -/
theorem AllocInv.alloc_step {size limit : Nat} {init : Nat → Prop} (live : List Block)
    (hm : Managed (8 * size) limit s.pmmPageCount init)
    (hinv : AllocInv (8 * size) init s (live.map Block.run)) (hn : 1 ≤ n)
    (hfit : FitsAt s.free s.pmmPageCount n f) :
    ∃ b s', b.pages = n ∧ pmmAlloc s n = some (b.addr, s') ∧ b.addr ≠ 0 ∧
      PmmStep size ⟨s, live⟩ ⟨s', live ++ [b]⟩ := by
  rcases hinv.alloc_spec hm hn with ⟨g, -, hg, -, halloc⟩ | ⟨hnone, -⟩
  · have hstep : PmmStep size ⟨s, live⟩
        ⟨_, if g * 4096 = 0 then live else live ++ [⟨g * 4096, n⟩]⟩ := .alloc halloc
    rw [if_neg (by omega)] at hstep
    exact ⟨⟨g * 4096, n⟩, _, rfl, halloc, by simp only; omega, hstep⟩
  · exact absurd hfit (hnone f)

/-- The pages of the machine with one entry of 32 usable pages. -/
theorem singleMap_managed (hspec : InitSpec (singleMap 32 (by decide)) (singleEntry 32)
    (Machine.boot (fun _ => 0) usualHhdm) s₀) :
    Managed (8 * (singleMap 32 (by decide)).bitmapSize) 34 s₀.pmmPageCount
      (FreePage (singleMap 32 (by decide)) (singleEntry 32)) := by
  rw [hspec.pageCount]
  refine managed_freePage ?_ (.inl rfl) (by decide) fun _ hfree => absurd hfree.lt (by decide)
  rintro ⟨⟨e, he, hu, hx⟩, -⟩
  exact singleMap_page_zero e he hu hx

/-- With nothing live, the pages behind that of the bitmap are free: from page
2 on, 31 of them. -/
theorem singleMap_fitsAt (hpc : s.pmmPageCount = 33) (hn : n ≤ 31)
    (hinv : AllocInv (8 * (singleMap 32 (by decide)).bitmapSize)
      (FreePage (singleMap 32 (by decide)) (singleEntry 32)) s []) :
    FitsAt s.free s.pmmPageCount n 2 := by
  refine ⟨by omega, ?_⟩
  intro i hi
  have hinit : FreePage (singleMap 32 (by decide)) (singleEntry 32) (2 + i) := by
    have hsize : (singleMap 32 (by decide)).bitmapSize = 4096 := by decide
    refine ⟨⟨singleEntry 32, List.mem_singleton.mpr rfl, rfl, ?_⟩, ?_⟩
    · simp only [LimineMemmapEntry.contains, singleEntry]
      omega
    · simp only [singleEntry, hsize]
      omega
  exact ((hinv.accounted.free_iff (2 + i)).mpr
    ⟨hinit, fun r hr => absurd hr List.not_mem_nil⟩).2

end Single

/-- On a machine with 32 usable pages: one page allocated and freed, and two
pages allocated then. The free gives every page back, and the second run lies
below the page count, all of it in use. -/
theorem pmm_run_safe_single :
    ∃ s₀ s₁ s₂ s₃, ∃ b c : Block, b.pages = 1 ∧ c.pages = 2 ∧ b.addr ≠ 0 ∧ c.addr ≠ 0 ∧
      pmmAlloc s₀ 1 = some (b.addr, s₁) ∧ pmmFree s₁ b.addr 1 = s₂ ∧
      pmmAlloc s₂ 2 = some (c.addr, s₃) ∧
      PmmRun (singleMap 32 (by decide)).bitmapSize s₀ ⟨s₃, [c]⟩ ∧
      (∀ page, page < 33 → (s₂.used page = false ↔ s₀.used page = false)) ∧
      ∀ page, c.run.has page → page < 33 ∧ s₃.used page = true := by
  have hfit : (singleMap 32 (by decide)).bitmapSize ≤ (singleEntry 32).length :=
    singleMap_fits (by decide)
  obtain ⟨s₀, entries, hinit, hpc, hsafe⟩ := pmm_run_safe (singleMap 32 (by decide)) (fun _ => 0)
    usualHhdm singleMap_firstLargest hfit (by decide) singleMap_page_zero
  obtain ⟨s₀', entries', hinit', hspec⟩ :=
    pmmInit_spec singleMap_firstLargest hfit (Machine.boot (fun _ => 0) usualHhdm)
  rw [hinit] at hinit'
  obtain ⟨rfl, -⟩ := Prod.mk.inj (Option.some.inj hinit')
  have hpc33 : s₀.pmmPageCount = 33 := hpc
  have hm := singleMap_managed hspec
  have hstart := hspec.allocInv (by decide)
  -- the first allocation and its free
  obtain ⟨b, s₁, hb, halloc, hbne, hstep⟩ := hstart.alloc_step [] (n := 1) hm
    (Nat.le_refl 1) (singleMap_fitsAt hpc33 (by decide) hstart)
  have hfree : PmmStep (singleMap 32 (by decide)).bitmapSize ⟨s₁, [b]⟩
      ⟨pmmFree s₁ b.addr b.pages, []⟩ := .free (l := []) (m := [])
  have hrun₂ := (Relation.ReflTransGen.single hstep).tail hfree
  -- the second allocation
  obtain ⟨hlayout, hinv₂⟩ := RunInv.run hm hstart hrun₂
  have hpc₂ := hlayout.pageCount
  simp only at hpc₂
  rw [← hpc₂] at hm
  obtain ⟨c, s₃, hc, halloc', hcne, hstep'⟩ := hinv₂.alloc_step [] (n := 2) hm
    (by decide) (singleMap_fitsAt (hpc₂.trans hpc33) (by decide) hinv₂)
  have hrun₃ := hrun₂.tail hstep'
  refine ⟨s₀, s₁, _, s₃, b, c, hb, hc, hbne, hcne, halloc, by rw [hb], halloc', hrun₃,
    fun page hpage => ?_, fun page hpage => ?_⟩
  · -- after the free, no live allocation holds a page
    have hclear := (hsafe _ hrun₂).2.2 page (by omega)
    exact hclear.trans ⟨fun h => h.1, fun h => ⟨h, fun b hb => absurd hb List.not_mem_nil⟩⟩
  · -- the run of `c` is in use
    have hlt := (hsafe _ hrun₃).2.1 c List.mem_cons_self page hpage
    refine ⟨by omega, ?_⟩
    rw [← Bool.not_eq_false]
    exact fun hused =>
      (((hsafe _ hrun₃).2.2 page hlt).mp hused).2 c List.mem_cons_self hpage

end Medlar64
