import Medlar64.Mm.Runs

/-!
# Medlar64 — the edge of the bitmap

`pmm_init` sizes the bitmap by a truncating division, and `pmm_find_pages`
compares only the cursor with the page count. Both matter when the page count
is a multiple of 32768 or up to seven more, the number of pages one page of
bitmap covers.

* `pageCount_lt_bits_iff`, `pageCount_eq_bits_iff` — when the bitmap has a bit
  to spare, and when it covers every page.
* `pmm_search_bounded_iff` — the search stays inside the bitmap in every run
  exactly when there is a bit to spare, or the bitmap ends at a last page
  that is never free.
* `bitmap_not_handed_out_iff` — no bit in use lies in memory that is handed
  out exactly when the bitmap covers every page.
-/

namespace Medlar64

-- ---------------------------------------------------------------------------
-- The size of the bitmap
-- ---------------------------------------------------------------------------

/-- There is a bit behind that of the last page when the truncation of the
division does not reach the next whole page of bitmap. -/
theorem Memmap.pageCount_lt_bits_iff (mm : Memmap) :
    mm.pageCount < 8 * mm.bitmapSize ↔ 8 ≤ mm.pageCount % 32768 := by
  unfold Memmap.bitmapSize
  omega

/-- The last page has the very last bit when nothing is truncated. -/
theorem Memmap.pageCount_eq_bits_iff (mm : Memmap) :
    mm.pageCount = 8 * mm.bitmapSize ↔ mm.pageCount % 32768 = 0 := by
  unfold Memmap.bitmapSize
  omega

-- ---------------------------------------------------------------------------
-- Which bits the search tests
-- ---------------------------------------------------------------------------

/-- `pmm_find_pages(n)` returns, with the cursor and any run it returns at or
below the page count, and every bit it tests or sets in the `size` bytes of
the bitmap. -/
structure SearchBounded (size : Nat) (s : Machine) (n : Nat) : Prop where
  returns : ∃ f s', pmmFindPages s n = some (f, s') ∧ s'.pmmLastPage ≤ s.pmmPageCount ∧
    (f ≠ 0 → f + n ≤ s.pmmPageCount) ∧
    ∀ page, page < 2 ^ 64 → s'.used page ≠ s.used page → page / 8 < size
  tested : ∀ st, Visits (findBody s n) (findStart s) st → st.pages < n →
    st.lastPage ≠ s.pmmPageCount → (st.lastPage + st.pages) / 8 < size

/-- With a barrier inside the bitmap every search is bounded. It tests no bit
beyond the barrier, and the run that it finds ends below the page count; a
search that fails changes no bit at all. -/
theorem searchBounded_of_barrier {s : Machine} {size limit n : Nat} (hbar : Barrier s limit)
    (hle : limit ≤ 8 * size) (hcur : s.pmmLastPage ≤ s.pmmPageCount) (hn : 1 ≤ n) :
    SearchBounded size s n := by
  have hpc := s.pageCount_lt
  have htop := hbar.le
  refine ⟨?_, ?_⟩
  · rcases pmmFindPages_spec hbar hcur hn with ⟨f, -, hlt, hfind⟩ | ⟨-, hfind⟩
    · refine ⟨f, _, hfind, ?_, fun _ => by omega, fun page hpage hne => ?_⟩
      · show f + n ≤ s.pmmPageCount
        omega
      · -- only bits of the run found change
        rw [setLastPage_used, used_setPages s (by omega) hpage] at hne
        by_cases hrun : f ≤ page ∧ page < f + n
        · omega
        · rw [decide_eq_false hrun, Bool.false_or] at hne
          exact absurd rfl hne
    · -- a failed search changes no bit
      exact ⟨0, _, hfind, Nat.le_refl _, fun h => absurd rfl h, fun _ _ hne => absurd rfl hne⟩
  · -- every bit tested is below the limit
    intro st hvis _ hlast
    have := (ScanInv.visits hbar hcur hvis).tested hbar hlast
    omega

/-- A search whose cursor has moved made its last move at a tested page in
use. -/
theorem visits_last_move {s : Machine} {n : Nat} {st : FindState}
    (h : Visits (findBody s n) (findStart s) st) (hmoved : st.lastPage ≠ s.pmmLastPage) :
    ∃ a, Visits (findBody s n) (findStart s) a ∧ a.pages < n ∧ a.lastPage ≠ s.pmmPageCount ∧
      ¬ s.free (a.lastPage + a.pages) ∧ st.lastPage = a.lastPage + max 1 a.pages := by
  -- on the rounds; only a tested page in use moves the cursor
  induction h with
  | refl => exact absurd rfl hmoved
  | @tail a b hvis hstep ih =>
    obtain ⟨hpc, -, hn, ⟨-, -, rfl⟩ | ⟨hused, rfl⟩⟩ := findBody_next hstep
    · exact ih hmoved
    · exact ⟨a, hvis, hn, hpc, hused, rfl⟩

/-- A search for more pages than there are runs up to the top, and the last
bit it tests is that of the last page, found in use, or the one above. -/
theorem search_reaches_top {s s' : Machine} {f : Nat}
    (hfind : pmmFindPages s (s.pmmPageCount + 1) = some (f, s'))
    (hlast : s'.pmmLastPage ≤ s.pmmPageCount) (hcur : s.pmmLastPage < s.pmmPageCount) :
    ∃ a, Visits (findBody s (s.pmmPageCount + 1)) (findStart s) a ∧
      a.pages < s.pmmPageCount + 1 ∧ a.lastPage ≠ s.pmmPageCount ∧
      (a.lastPage + a.pages + 1 = s.pmmPageCount ∧ ¬ s.free (s.pmmPageCount - 1) ∨
        a.lastPage + a.pages = s.pmmPageCount) := by
  obtain ⟨t, hvis, hinv, hdone⟩ := pmmFindPages_visits s (s.pmmPageCount + 1)
  rw [hfind] at hdone
  have hshort := hinv.short
  -- so many pages are never found: the search stops at the top
  have htop : t.lastPage = s.pmmPageCount := by
    rcases findBody_done hdone with ⟨hstop, -⟩ | ⟨-, -, hr⟩ | ⟨-, -, -, -, hr⟩
    · rcases hstop with h | h
      · omega
      · exact h
    · simp at hr
    · -- a run this long would move the cursor past the top
      obtain ⟨-, rfl⟩ := Prod.mk.inj (Option.some.inj hr)
      rw [setLastPage_lastPage] at hlast
      omega
  obtain ⟨a, ha, hn, hpc, hused, hmove⟩ := visits_last_move hvis (by omega)
  refine ⟨a, ha, hn, hpc, ?_⟩
  rcases Nat.eq_zero_or_pos a.pages with hzero | hpos
  · -- the last move was by one page
    refine .inl ⟨by omega, ?_⟩
    rw [show s.pmmPageCount - 1 = a.lastPage + a.pages by omega]
    exact hused
  · -- or by the length of a run that had reached the top
    exact .inr (by omega)

-- ---------------------------------------------------------------------------
-- The search over whole runs
-- ---------------------------------------------------------------------------

/-- On this memory map every search of every run is bounded. -/
def SearchesBounded (mm : Memmap) : Prop :=
  ∀ mem hhdm, ∃ s₀ entries, pmmInit (Machine.boot mem hhdm) mm.entries = some (s₀, entries) ∧
    ∀ st, PmmRun mm.bitmapSize s₀ st → ∀ n, 1 ≤ n → SearchBounded mm.bitmapSize st.machine n

section Bounds

variable {mm : Memmap} {i : Nat} {d : LimineMemmapEntry} (hd : FirstLargest mm.entries i d)
  (hfit : mm.bitmapSize ≤ d.length) (h0 : ¬ FreePage mm d 0)

theorem not_freePage_zero (h0 : ∀ e ∈ mm.entries, e.usable → ¬ e.contains 0) :
    ¬ FreePage mm d 0 := by
  rintro ⟨⟨e, he, hu, hx⟩, -⟩
  exact h0 e he hu hx

include hd hfit h0 in
/-- A bit inside the bitmap that is never cleared is a barrier in every state
of a run. -/
theorem searchesBounded_of_limit {limit : Nat}
    (htop : limit = mm.pageCount + 1 ∨ limit = mm.pageCount)
    (hle : limit ≤ 8 * mm.bitmapSize) (hbar : limit ≠ 0 → ¬ FreePage mm d (limit - 1)) :
    SearchesBounded mm := by
  intro mem hhdm
  obtain ⟨s₀, entries, hrun, hspec⟩ := pmmInit_spec hd hfit (Machine.boot mem hhdm)
  refine ⟨s₀, entries, hrun, ?_⟩
  intro st hst n hn
  have hm : Managed (8 * mm.bitmapSize) limit s₀.pmmPageCount (FreePage mm d) := by
    rw [hspec.pageCount]
    exact managed_freePage h0 htop hle hbar
  have hinv := RunInv.run hm (hspec.allocInv (by omega)) hst
  rw [← hinv.layout.pageCount] at hm
  exact searchBounded_of_barrier (hinv.inv.toBarrier hm) hle hinv.inv.cursor hn

include hd hfit h0 in
/-- Such a bit is the one behind the last page, or that of a last page in
use. -/
theorem searchesBounded_of_residue
    (h : 8 ≤ mm.pageCount % 32768 ∨
      mm.pageCount % 32768 = 0 ∧ ¬ FreePage mm d (mm.pageCount - 1)) : SearchesBounded mm := by
  rcases h with h | ⟨h, hlast⟩
  · -- a bit to spare: the barrier is the bit above the last page
    refine searchesBounded_of_limit hd hfit h0 (.inl rfl) (mm.pageCount_lt_bits_iff.mpr h) ?_
    intro _ hfree
    have := hfree.lt
    omega
  · -- no bit to spare, but the last page is the barrier
    exact searchesBounded_of_limit hd hfit h0 (.inr rfl)
      (Nat.le_of_eq (mm.pageCount_eq_bits_iff.mpr h)) fun _ => hlast

include hd hfit h0 in
/-- Otherwise the very first search can leave the bitmap: one for more pages
than there are tests its way to the top and beyond. -/
theorem not_searchesBounded
    (h : ¬ (8 ≤ mm.pageCount % 32768 ∨
      mm.pageCount % 32768 = 0 ∧ ¬ FreePage mm d (mm.pageCount - 1))) : ¬ SearchesBounded mm := by
  intro hall
  obtain ⟨s₀, entries, hrun, hsafe⟩ := hall (fun _ => 0) usualHhdm
  obtain ⟨s₁, entries₁, hrun₁, hspec⟩ := pmmInit_spec hd hfit (Machine.boot (fun _ => 0) usualHhdm)
  rw [hrun] at hrun₁
  obtain ⟨rfl, -⟩ := Prod.mk.inj (Option.some.inj hrun₁)
  have hpc := hspec.pageCount
  have hlast : s₀.pmmLastPage = 0 := hspec.lastPage
  have hpos : 0 < mm.pageCount := by
    rcases Nat.eq_zero_or_pos mm.pageCount with hzero | hpos
    · rw [hzero] at h
      exact absurd (.inr ⟨rfl, h0⟩) h
    · exact hpos
  have hbounded : SearchBounded mm.bitmapSize s₀ (s₀.pmmPageCount + 1) :=
    hsafe ⟨s₀, []⟩ .refl _ (by omega)
  -- a search that cannot succeed
  obtain ⟨f, s', hfind, hle, -, -⟩ := hbounded.returns
  obtain ⟨a, hvis, hn, hne, htop⟩ := search_reaches_top hfind hle (by omega)
  have htested := hbounded.tested a hvis hn hne
  have hlt := mm.pageCount_lt_bits_iff
  have heq := mm.pageCount_eq_bits_iff
  rcases htop with ⟨hbit, hused⟩ | hbit
  · -- the last page's bit is inside the bitmap only if it is its last bit
    have hresidue : mm.pageCount % 32768 = 0 := by omega
    have hbits := heq.mpr hresidue
    rw [hpc, hspec.free _ (by omega)] at hused
    exact h (.inr ⟨hresidue, hused⟩)
  · -- the bit above the last page is outside the bitmap
    omega

/--
**When the page search stays inside managed memory.** On a memory map whose
bitmap fits into its largest usable entry, page 0 not usable: every search of
every run is bounded exactly when the page count is not less than 8 modulo
32768, or is a multiple of 32768 whose last page is not free after `pmm_init`.
-/
theorem pmm_search_bounded_iff (mm : Memmap) {i : Nat} {d : LimineMemmapEntry}
    (hd : FirstLargest mm.entries i d) (hfit : mm.bitmapSize ≤ d.length)
    (h0 : ∀ e ∈ mm.entries, e.usable → ¬ e.contains 0) :
    SearchesBounded mm ↔ 8 ≤ mm.pageCount % 32768 ∨
      mm.pageCount % 32768 = 0 ∧ ¬ FreePage mm d (mm.pageCount - 1) := by
  have hzero : ¬ FreePage mm d 0 := not_freePage_zero h0
  constructor
  · intro hall
    by_contra h
    exact not_searchesBounded hd hfit hzero h hall
  · exact searchesBounded_of_residue hd hfit hzero

/-- With 32 usable pages behind page 0 there are 33, and 33 is not less than 8,
so that every search of every run stays inside the bitmap. -/
theorem pmm_search_bounded_iff_single :
    SearchesBounded (singleMap 32 (by decide)) ↔
      8 ≤ (singleMap 32 (by decide)).pageCount % 32768 ∨
        (singleMap 32 (by decide)).pageCount % 32768 = 0 ∧
          ¬ FreePage (singleMap 32 (by decide)) (singleEntry 32)
            ((singleMap 32 (by decide)).pageCount - 1) :=
  pmm_search_bounded_iff (singleMap 32 (by decide)) singleMap_firstLargest
    (singleMap_fits (by decide)) singleMap_page_zero

/-- With usable memory from page 1 up to 128 MiB there are 32768 pages, and the
bitmap of one page ends at the last one, which is free. A search that reaches
it goes on behind it, in the byte after the bitmap. -/
theorem pmm_search_not_bounded :
    ¬ ∀ (mm : Memmap) (i : Nat) (d : LimineMemmapEntry), FirstLargest mm.entries i d →
      mm.bitmapSize ≤ d.length → (∀ e ∈ mm.entries, e.usable → ¬ e.contains 0) →
      SearchesBounded mm := by
  intro hall
  refine not_searchesBounded singleMap_firstLargest (singleMap_fits (k := 32767) (by decide))
    (not_freePage_zero singleMap_page_zero) ?_
    (hall (singleMap 32767 (by decide)) 0 _ singleMap_firstLargest (singleMap_fits (by decide))
      singleMap_page_zero)
  -- the last page is usable and not one of the bitmap's
  rintro (h | ⟨-, h⟩)
  · exact absurd h (by decide)
  · refine h ⟨⟨singleEntry 32767, List.mem_singleton.mpr rfl, rfl, ?_⟩, ?_⟩
    · exact ⟨by decide, by decide⟩
    · decide

end Bounds

-- ---------------------------------------------------------------------------
-- Bits in use and memory handed out
-- ---------------------------------------------------------------------------

/-- What a run keeps even where the search passes the last page: a clear bit
below the page count is that of an initial page, and so is every page below
the page count of a live allocation. -/
structure TrackInv (pageCount : Nat) (init : Nat → Prop) (s₀ : Machine) (st : PmmSys) : Prop where
  layout : SameLayout s₀ st.machine
  clear : ∀ page, page < pageCount → st.machine.free page → init page
  live : ∀ b ∈ st.live, b.addr / 4096 + b.pages ≤ 2 ^ 52 ∧
    ∀ page, b.run.has page → page < pageCount → init page

/-- A run that `pmm_alloc` returns consists of pages whose bits were clear. -/
theorem TrackInv.alloc_run {pageCount n p : Nat} {init : Nat → Prop} {s₀ s' : Machine}
    {st : PmmSys} (hinv : TrackInv pageCount init s₀ st)
    (h : pmmAlloc st.machine n = some (p, s')) (hp : p ≠ 0) :
    p / 4096 + n ≤ 2 ^ 52 ∧
      ∀ page, SlotRun.has ⟨p / 4096, n⟩ page → page < pageCount → init page := by
  obtain ⟨f, rfl, -, -, hbit, hfree⟩ := (pmmAlloc_cases h).2.2 hp
  rw [Nat.mul_div_cancel _ (by decide)]
  refine ⟨hbit, fun page ⟨hlo, hhi⟩ hpage => hinv.clear page hpage ?_⟩
  simp only at hlo hhi
  have := (hfree (page - f) (by omega)).1
  rwa [show f + (page - f) = page by omega] at this

/-- No step takes that away: `pmm_alloc` only sets bits, and what `pmm_free`
clears is a run that was handed out. -/
theorem TrackInv.step {size pageCount : Nat} {init : Nat → Prop} {s₀ : Machine}
    {st st' : PmmSys} (hle : pageCount ≤ 8 * size) (hpc : pageCount < 2 ^ 52)
    (hinv : TrackInv pageCount init s₀ st) (h : PmmStep size st st') :
    TrackInv pageCount init s₀ st' := by
  -- one case for each kind of step
  cases h with
  | @alloc s s' live n p h =>
    have hcases := pmmAlloc_cases h
    refine ⟨hinv.layout.trans hcases.1, ?_, ?_⟩
    · -- the call only sets bits
      intro page hpage hfree
      refine hinv.clear page hpage ?_
      by_contra hused
      exact not_free.mpr (hcases.2.1 page (by omega) (not_free.mp hused)) hfree
    · intro b hb
      by_cases hp : p = 0
      · rw [if_pos hp] at hb
        exact hinv.live b hb
      · rw [if_neg hp] at hb
        rcases List.mem_append.mp hb with hb | hb
        · exact hinv.live b hb
        · rw [List.mem_singleton.mp hb]
          exact hinv.alloc_run h hp
  | @free s l m b =>
    have hb := hinv.live b (List.mem_append_right _ List.mem_cons_self)
    refine ⟨hinv.layout.trans (sameGlobals_pmmFree _ _ _).toSameLayout,
      fun page hpage hfree => ?_, fun a ha => hinv.live a ?_⟩
    · -- a bit cleared is that of a page of the block
      have hwrap : b.addr / pageSize + b.pages ≤ 2 ^ 64 := Nat.le_trans hb.1 (by decide)
      rcases (free_pmmFree s hwrap (by omega)).mp hfree with hfree | hrun
      · exact hinv.clear page hpage hfree
      · exact hb.2 page hrun hpage
    · rcases List.mem_append.mp ha with ha | ha
      · exact List.mem_append_left _ ha
      · exact List.mem_append_right _ (List.mem_cons_of_mem _ ha)
  | @write s live ptr v h =>
    refine ⟨hinv.layout.trans (sameGlobals_write8 _ _ _).toSameLayout,
      fun page hpage hfree => hinv.clear page hpage ?_, hinv.live⟩
    have hsame : (s.write8 ptr v).used page = s.used page := by
      refine used_congr (sameGlobals_write8 s ptr v).toSameLayout ?_
      exact Function.update_of_ne (Ne.symm (h page (by omega))) _ _
    rw [Machine.free, ← hsame]
    exact hfree

/-- So it holds in every state of a run. -/
theorem TrackInv.run {size pageCount : Nat} {init : Nat → Prop} {s₀ : Machine} {st : PmmSys}
    (hle : pageCount ≤ 8 * size) (hpc : pageCount < 2 ^ 52)
    (h0 : ∀ page, page < pageCount → s₀.free page → init page) (h : PmmRun size s₀ st) :
    TrackInv pageCount init s₀ st := by
  induction h with
  | refl => exact ⟨.refl s₀, h0, fun _ hb => absurd hb List.not_mem_nil⟩
  | tail _ hstep ih => exact ih.step hle hpc hstep

/-- On this memory map the bytes of the bitmap that are in use stay inside the
bytes cut off `d`, and share no page with memory that is free after
`pmm_init` or returned by any later `pmm_alloc`. -/
def BitmapKept (mm : Memmap) (d : LimineMemmapEntry) : Prop :=
  ∀ mem hhdm, ∃ s₀ entries, pmmInit (Machine.boot mem hhdm) mm.entries = some (s₀, entries) ∧
    (∀ page, page < mm.pageCount →
      d.base ≤ bitmapByte s₀ page ∧ bitmapByte s₀ page < d.base + mm.bitmapSize) ∧
    (∀ page, page < mm.pageCount → s₀.used page = false →
      ∀ bit, bit < mm.pageCount → bitmapByte s₀ bit / 4096 ≠ page) ∧
    ∀ st, PmmRun mm.bitmapSize s₀ st → ∀ n p s', pmmAlloc st.machine n = some (p, s') → p ≠ 0 →
      ∀ k, k < n → ∀ bit, bit < mm.pageCount → bitmapByte s₀ bit / 4096 ≠ p / 4096 + k

section Kept

variable {mm : Memmap} {i : Nat} {d : LimineMemmapEntry} (hd : FirstLargest mm.entries i d)
  (hfit : mm.bitmapSize ≤ d.length)

include hd hfit in
/-- A bitmap with a bit for every page lies in the bytes cut off for it, and
these are never free. -/
theorem bitmapKept_of_cover (hcover : mm.pageCount ≤ 8 * mm.bitmapSize) : BitmapKept mm d := by
  intro mem hhdm
  obtain ⟨s₀, entries, hrun, hspec⟩ := pmmInit_spec hd hfit (Machine.boot mem hhdm)
  have hrange := mm.inRange d (FirstLargest.mem hd) hd.usable
  have halign := mm.aligned d (FirstLargest.mem hd) hd.usable
  have htop : d.base + d.length ≤ highestAddress mm.entries :=
    le_highestAddress (FirstLargest.mem hd) hd.usable
  have hpc := mm.pageCount_lt
  have hbyte : ∀ bit, bit < mm.pageCount → bitmapByte s₀ bit = d.base + bit / 8 := by
    intro bit hbit
    rw [hspec.byte, u64_of_lt (by omega)]
  -- a free page is not one of the bitmap's
  have happart : ∀ page, FreePage mm d page → ∀ bit, bit < mm.pageCount →
      bitmapByte s₀ bit / 4096 ≠ page := by
    rintro page ⟨-, hfront⟩ bit hbit heq
    rw [hbyte bit hbit] at heq
    omega
  have hfree₀ : ∀ page, page < mm.pageCount → s₀.free page → FreePage mm d page :=
    fun page hpage => (hspec.free page (by omega)).mp
  refine ⟨s₀, entries, hrun, ?_, ?_, ?_⟩
  · -- the bits are inside the bytes cut off
    intro page hpage
    rw [hbyte page hpage]
    omega
  · -- free pages
    intro page hpage hfree
    exact happart page (hfree₀ page hpage hfree)
  · -- pages returned later
    intro st hst n p s' halloc hp k hk bit hbit
    have hinv := TrackInv.run hcover hpc hfree₀ hst
    rcases Nat.lt_or_ge (p / 4096 + k) mm.pageCount with hlt | hge
    · exact happart _ ((hinv.alloc_run halloc hp).2 _ ⟨by simp, by simpa using hk⟩ hlt) bit hbit
    · -- the bitmap lies below the highest usable address
      have hbelow : mm.pageCount = highestAddress mm.entries / 4096 := rfl
      rw [hbyte bit hbit]
      omega

include hd hfit in
/-- With fewer bits than pages the bit of the last page is behind those
bytes. -/
theorem not_bitmapKept (h : 8 * mm.bitmapSize < mm.pageCount) : ¬ BitmapKept mm d := by
  intro hall
  obtain ⟨s₀, entries, hrun, hinside, -⟩ := hall (fun _ => 0) usualHhdm
  obtain ⟨s₁, entries₁, hrun₁, hspec⟩ := pmmInit_spec hd hfit (Machine.boot (fun _ => 0) usualHhdm)
  rw [hrun] at hrun₁
  obtain ⟨rfl, -⟩ := Prod.mk.inj (Option.some.inj hrun₁)
  -- the bit of the last page is past the bytes cut off
  obtain ⟨hlo, hhi⟩ := hinside (mm.pageCount - 1) (by omega)
  have hpc := mm.pageCount_lt
  have hrange := mm.inRange d (FirstLargest.mem hd) hd.usable
  rw [hspec.byte] at hlo hhi
  unfold u64 at hlo hhi
  omega

/-- **When allocator metadata is never handed out.** On a memory map whose
bitmap fits into its largest usable entry this holds exactly when the page
count is a multiple of 32768 or at least 8 modulo 32768. -/
theorem bitmap_not_handed_out_iff (mm : Memmap) {i : Nat} {d : LimineMemmapEntry}
    (hd : FirstLargest mm.entries i d) (hfit : mm.bitmapSize ≤ d.length) :
    BitmapKept mm d ↔ mm.pageCount % 32768 = 0 ∨ 8 ≤ mm.pageCount % 32768 := by
  have hlt := mm.pageCount_lt_bits_iff
  have heq := mm.pageCount_eq_bits_iff
  constructor
  · intro hall
    by_contra h
    exact not_bitmapKept hd hfit (by omega) hall
  · exact fun h => bitmapKept_of_cover hd hfit (by omega)

/-- The 33 bits of that machine fit into one page of bitmap. -/
theorem bitmap_not_handed_out_iff_single :
    BitmapKept (singleMap 32 (by decide)) (singleEntry 32) ↔
      (singleMap 32 (by decide)).pageCount % 32768 = 0 ∨
        8 ≤ (singleMap 32 (by decide)).pageCount % 32768 :=
  bitmap_not_handed_out_iff (singleMap 32 (by decide)) singleMap_firstLargest
    (singleMap_fits (by decide))

/-- With one page more than 128 MiB, the bit of the last page lies past the
bytes reserved: 32769 bits are wanted and 32768 cleared, since
`pmm_page_count / 8` is rounded down. The byte there belongs to a page that is
handed out. -/
theorem bitmap_handed_out :
    ¬ ∀ (mm : Memmap) (i : Nat) (d : LimineMemmapEntry), FirstLargest mm.entries i d →
      mm.bitmapSize ≤ d.length → BitmapKept mm d := by
  intro hall
  have hfit : (singleMap 32768 (by decide)).bitmapSize ≤ (singleEntry 32768).length :=
    singleMap_fits (by decide)
  have hshort : 8 * (singleMap 32768 (by decide)).bitmapSize <
      (singleMap 32768 (by decide)).pageCount := by decide
  exact not_bitmapKept singleMap_firstLargest hfit hshort
    (hall (singleMap 32768 (by decide)) 0 _ singleMap_firstLargest hfit)

end Kept

end Medlar64
