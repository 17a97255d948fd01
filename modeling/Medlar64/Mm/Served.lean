import Mathlib.Data.List.Induction
import Medlar64.Mm.Rights

/-!
# Medlar64 — page tables while `pmm_alloc` does not fail

The tables that `vmm_map` makes are pages of their own because the allocator
keeps track of them: a page that `pmm_alloc(1)` returns was free, every table
is in use, and so is every page of the bitmap.

* `MapServed` — no `pmm_alloc(1)` of a call returns `NULL`.
* `PmmReady` — the allocator in order; `PmmReady.alloc` — what it returns.
* `ServedInv` — the allocator and the tables together; `ServedInv.map` is the
  step lemma, `ServedInv.run` the run lemma.
* `Supplied.served` — three pages a call are enough.
-/

namespace Medlar64

open Tables (node)

-- ---------------------------------------------------------------------------
-- Calls without a failure
-- ---------------------------------------------------------------------------

/-- If `vmm_get_next_lvl` has to make a table at this entry, its
`pmm_alloc(1)` returns a page. -/
def NextLvlServed (s : Machine) (lvl entry : Nat) : Prop :=
  s.load (lvl + 8 * entry) 8 &&& ptePresent = 0 → ∃ p s', pmmAlloc s 1 = some (p, s') ∧ p ≠ 0

/-- Every `pmm_alloc(1)` that `vmm_map` makes on the way returns a page. -/
def MapServed (s : Machine) (pm virt : Nat) : Prop := AtLevels NextLvlServed s pm virt

/-- No `pmm_alloc(1)` of the calls fails. -/
def CallsServed (pm : Nat) (s : Machine) (calls : List MapCall) : Prop :=
  ∀ before c after s', calls = before ++ c :: after → mapCalls pm s before = some s' →
    MapServed s' pm c.virt

section Calls

variable {s : Machine} {pm : Nat} {calls : List MapCall}

/-- The first of the calls are served if all are. -/
theorem CallsServed.left {more : List MapCall} (h : CallsServed pm s (calls ++ more)) :
    CallsServed pm s calls := by
  intro before c after s' heq hrun
  refine h before c (after ++ more) s' ?_ hrun
  rw [heq, List.append_assoc, List.cons_append]

end Calls

-- ---------------------------------------------------------------------------
-- The allocator
-- ---------------------------------------------------------------------------

/-- The allocator is in order: the cursor is not above the top, an entry can
hold the address of every page, and no page of the bitmap is free. -/
structure PmmReady (s : Machine) : Prop where
  cursor : s.pmmLastPage ≤ s.pmmPageCount
  small : s.pmmPageCount ≤ 2 ^ 40
  bitmap : ∀ page, page < s.pmmPageCount → s.free page → OffBitmap s (4096 * page)

/-- The search has not gone above the top. -/
def CursorInside (s : Machine) (st : FindState) : Prop := st.lastPage ≤ s.pmmPageCount

/-- A search for one page tests no bit above the top. Every round passes one
page, so the cursor stops at the page count and no run goes beyond it. -/
theorem pmmFindPages_top {s s' : Machine} {f : Nat} (h : pmmFindPages s 1 = some (f, s'))
    (hcursor : s.pmmLastPage ≤ s.pmmPageCount) :
    s'.pmmLastPage ≤ s.pmmPageCount ∧ (f ≠ 0 → f < s.pmmPageCount) := by
  obtain ⟨t, hvis, hinv, hdone⟩ := pmmFindPages_visits s 1
  -- a round that goes on has passed one page
  have htop : CursorInside s t := by
    refine hvis.inv ?_ ?_
    · exact hcursor
    · intro st st' hle hstep
      obtain ⟨hne, -, hlt, ⟨-, hmore, -⟩ | ⟨-, rfl⟩⟩ := findBody_next hstep
      · -- one page is enough: no round goes on with a longer run
        omega
      · show st.lastPage + max 1 st.pages ≤ s.pmmPageCount
        unfold CursorInside at hle
        omega
  unfold CursorInside at htop
  rw [h] at hdone
  rcases findBody_done hdone with ⟨-, hr⟩ | ⟨-, -, hr⟩ | ⟨hne, -, -, -, hr⟩
  · -- the loop was left at the top
    obtain ⟨rfl, rfl⟩ := Prod.mk.inj (Option.some.inj hr)
    exact ⟨htop, fun hf => absurd rfl hf⟩
  · simp at hr
  · -- the page found is the one at the cursor
    obtain ⟨rfl, rfl⟩ := Prod.mk.inj (Option.some.inj hr)
    have hfirst := hinv.first
    exact ⟨by rw [setLastPage_lastPage]; omega, fun _ => by omega⟩

section Ready

variable {s s' : Machine} {p : Nat}

/-- The cursor stays at or below the page count, and so does the page
returned. -/
theorem pmmAlloc_top (h : pmmAlloc s 1 = some (p, s')) (hcursor : s.pmmLastPage ≤ s.pmmPageCount) :
    s'.pmmLastPage ≤ s.pmmPageCount ∧ (p ≠ 0 → p / 4096 < s.pmmPageCount) := by
  obtain ⟨f, rfl, hsearches⟩ := pmmAlloc_searches h
  rw [Nat.mul_div_cancel_left f (by decide)]
  rcases hsearches with ⟨-, hfind⟩ | ⟨s₁, hfirst, hfind⟩
  · -- the first search starts at the cursor
    obtain ⟨htop, hlt⟩ := pmmFindPages_top hfind hcursor
    exact ⟨htop, fun hp => hlt (by omega)⟩
  · -- the second search starts at page 0
    obtain ⟨htop, hlt⟩ := pmmFindPages_top hfind (Nat.zero_le _)
    rw [setLastPage_pageCount, (sameLayout_search hfirst).pageCount] at htop hlt
    exact ⟨htop, fun hp => hlt (by omega)⟩

/--
**What `pmm_alloc(1)` returns** from an allocator in order: a page that was
free and is in use now, below the page count, off the bitmap. The allocator is
in order again, since pages only came into use.
-/
theorem PmmReady.alloc (h : PmmReady s) (halloc : pmmAlloc s 1 = some (p, s')) (hp : p ≠ 0) :
    PmmReady s' ∧ PhysPage p ∧ p / 4096 < s.pmmPageCount ∧ OffBitmap s p ∧
      s.free (p / 4096) ∧ s'.used (p / 4096) = true := by
  have hsmall := h.small
  obtain ⟨hlayout, hgrow, hrun⟩ := pmmAlloc_cases halloc
  obtain ⟨hcursor, hlt⟩ := pmmAlloc_top halloc h.cursor
  have hlt := hlt hp
  obtain ⟨f, rfl, -, -, -, hbits⟩ := hrun hp
  obtain ⟨hfree, hused⟩ := hbits 0 (by decide)
  rw [Nat.mul_div_cancel f (by decide)] at hlt ⊢
  refine ⟨⟨?_, ?_, fun page hpage hclear => ?_⟩, ⟨by omega, by omega⟩, hlt, ?_, hfree, hused⟩
  · rw [hlayout.pageCount]
    exact hcursor
  · rw [hlayout.pageCount]
    exact hsmall
  · -- a page that is free now was free before
    rw [hlayout.pageCount] at hpage
    refine hlayout.offBitmap.mpr (h.bitmap page hpage ?_)
    by_contra hset
    exact not_free.mpr (hgrow page (by omega) (not_free.mp hset)) hclear
  · -- it was free, so it holds no byte of the bitmap
    rw [Nat.mul_comm]
    exact h.bitmap f hlt hfree

/-- Writes outside the bitmap leave the allocator in order. -/
theorem PmmReady.congr (h : PmmReady s) (hglob : SameGlobals s s')
    (hmem : ∀ bit, bit < s.pmmPageCount → s'.mem (bitmapByte s bit) = s.mem (bitmapByte s bit)) :
    PmmReady s' := by
  refine ⟨?_, ?_, fun page hpage hfree => hglob.offBitmap.mpr ?_⟩
  · rw [hglob.lastPage, hglob.pageCount]
    exact h.cursor
  · rw [hglob.pageCount]
    exact h.small
  · rw [hglob.pageCount] at hpage
    refine h.bitmap page hpage ?_
    rwa [Machine.free, used_congr hglob.toSameLayout (hmem page hpage)] at hfree

end Ready

-- ---------------------------------------------------------------------------
-- The tables
-- ---------------------------------------------------------------------------

/-- The tables are managed pages in use. -/
def TablesHeld (s : Machine) (root : Nat) : Prop :=
  ∀ t, TableAt s root t → t / 4096 < s.pmmPageCount ∧ s.used (t / 4096) = true

/-- The tables after the calls, and the allocator that they are from. -/
structure ServedInv (calls : List MapCall) (root : Nat) (s : Machine) : Prop
    extends RightsInv calls root s where
  ready : PmmReady s
  held : TablesHeld s root

section Served

variable {s s' s₁ : Machine} {root t p n : Nat} {path : List (Fin 512)} {i : Fin 512}
  {calls : List MapCall} {c : MapCall}

/-- A page that is free is not a table. -/
theorem PmmReady.nextLvlFresh (h : PmmReady s) (hheld : TablesHeld s root) {lvl entry : Nat}
    (hserved : NextLvlServed s lvl entry) : NextLvlFresh s root lvl entry := by
  intro habsent
  obtain ⟨p, s', halloc, hp⟩ := hserved habsent
  obtain ⟨-, hpage, hlt, hoff, hfree, -⟩ := h.alloc halloc hp
  refine ⟨p, s', halloc, hp, hpage, hlt, hoff, ?_⟩
  intro ht
  obtain ⟨-, hused⟩ := hheld p ht
  exact not_free.mpr hused hfree

/--
**A table that is made is held.** Its page was allocated just now, those of the
other tables are in use as before, and writing the table touches no byte of the
bitmap.
-/
theorem Hung.served (hinv : TreeInv s root) (hready : PmmReady s) (hheld : TablesHeld s root)
    (h : Hung root path t i p s s₁ s') : PmmReady s' ∧ TablesHeld s' root := by
  have hsmall := hready.small
  obtain ⟨hlayout, hgrow, -⟩ := pmmAlloc_cases h.alloc
  obtain ⟨hready₁, -, hlt, -, -, hused⟩ := hready.alloc h.alloc h.fresh.nonNull
  obtain ⟨-, -, htables, -⟩ := h.tree hinv
  refine ⟨hready₁.congr h.globals fun _ hbit => h.bitmap hinv hbit, ?_⟩
  intro u hu
  -- the new table was allocated just now, the others are in use as before
  have hkept : u / 4096 < s₁.pmmPageCount ∧ s₁.used (u / 4096) = true := by
    rw [hlayout.pageCount]
    rcases htables u hu with rfl | hold
    · exact ⟨hlt, hused⟩
    · obtain ⟨hlt, hused⟩ := hheld u hold
      exact ⟨hlt, hgrow _ (by omega) hused⟩
  rw [h.globals.pageCount, used_congr h.globals.toSameLayout (h.bitmap hinv hkept.1)]
  exact hkept

/-- So are several. -/
theorem Hangs.served (hinv : TreeInv s root) (hready : PmmReady s) (hheld : TablesHeld s root)
    (h : Hangs root s n s') : PmmReady s' ∧ TablesHeld s' root := by
  -- table by table
  induction h with
  | none => exact ⟨hready, hheld⟩
  | hang hhangs hhung ih =>
    obtain ⟨-, hinv', -⟩ := hhangs.tree hinv
    obtain ⟨hready', hheld'⟩ := ih
    exact hhung.served hinv' hready' hheld'

/-- **One call** that is served returns, and the tables and the allocator are
as before, up to the page mapped. -/
theorem ServedInv.map (h : ServedInv calls root s) (hc : c.Flagged)
    (hserved : MapServed s (s.higherHalf root) c.virt) :
    ∃ s', vmmMap s (s.higherHalf root) c.virt c.phys c.flags = some s' ∧ SameLayout s s' ∧
      ServedInv (calls ++ [c]) root s' := by
  -- a page that the allocator returns is fresh at every level
  have hfresh : MapFresh s root (s.higherHalf root) c.virt := by
    refine h.mapFresh hserved ?_
    intro n s' lvl entry hhangs _ hnext
    obtain ⟨hready, hheld⟩ := hhangs.served h.toTreeInv h.ready h.held
    exact hready.nextLvlFresh hheld hnext
  obtain ⟨n, t, s₁, s₂, hhangs, -, hset, hmap⟩ :=
    h.mapWord hfresh (Nat.or_lt_two_pow hc.phys_lt hc.flags_lt)
  obtain ⟨hlayout, hrights⟩ := h.toRightsInv.map hc hfresh hmap
  -- the tables first, then the entry
  obtain ⟨hready₁, hheld₁⟩ := hhangs.served h.toTreeInv h.ready h.held
  refine ⟨s₂, hmap, hlayout, hrights, hready₁.congr hset.globals fun _ hbit => hset.bitmap hbit,
    ?_⟩
  intro u hu
  obtain ⟨hlt, hused⟩ := hheld₁ u (hset.tables u hu)
  rw [hset.globals.pageCount, used_congr hset.globals.toSameLayout (hset.bitmap hlt)]
  exact ⟨hlt, hused⟩

/-- **A run** of calls that are served: each of them returns, the tree records
it, and the layout of the machine stays. By induction on the calls. -/
theorem ServedInv.run (h : ServedInv [] root s) (hcalls : ∀ c ∈ calls, c.Flagged)
    (hserved : CallsServed (s.higherHalf root) s calls) :
    ∃ s', mapCalls (s.higherHalf root) s calls = some s' ∧ SameLayout s s' ∧
      ServedInv calls root s' := by
  -- on the calls; the last one is the one just made
  induction calls using List.reverseRecOn with
  | nil => exact ⟨s, rfl, .refl s, h⟩
  | append_singleton calls c ih =>
    obtain ⟨s₁, hrun, hlayout, hinv⟩ :=
      ih (fun d hd => hcalls d (List.mem_append_left _ hd)) hserved.left
    have hmap := hserved calls c [] s₁ rfl hrun
    rw [← hlayout.higherHalf] at hmap
    obtain ⟨s₂, hstep, hlayout', hinv'⟩ := hinv.map (hcalls c (by simp)) hmap
    rw [hlayout.higherHalf] at hstep
    exact ⟨s₂, mapCalls_snoc.mpr ⟨s₁, hrun, hstep⟩, hlayout.trans hlayout', hinv'⟩

/-- A page off the bitmap, cleared: the rest of memory is as it was. -/
theorem clearPage (hpage : PhysPage p) (hoff : OffBitmap s p) :
    SameGlobals s (memset s (s.higherHalf p) 0 pageSize) ∧
      (∀ x, p ≤ x → x < p + 4096 → (memset s (s.higherHalf p) 0 pageSize).mem x = 0) ∧
      ∀ bit, bit < s.pmmPageCount →
        (memset s (s.higherHalf p) 0 pageSize).mem (bitmapByte s bit) =
          s.mem (bitmapByte s bit) := by
  have haligned := hpage.aligned
  have hlt := hpage.lt
  have hmem : ∀ x, (memset s (s.higherHalf p) 0 pageSize).mem x =
      if p ≤ x ∧ x < p + 4096 then 0 else s.mem x :=
    memset_mem s 0 (show p + 4096 ≤ 2 ^ 64 by omega)
  refine ⟨sameGlobals_memset _ _ _ _, ?_, ?_⟩
  · intro x hlo hhi
    rw [hmem, if_pos ⟨hlo, hhi⟩]
  · intro bit hbit
    have hne := hoff bit hbit
    rw [hmem, if_neg (by omega)]

/-- The top-level table: a new page, cleared. The tree begins with it and maps
nothing. -/
theorem PmmReady.start (h : PmmReady s) (halloc : pmmAlloc s 1 = some (p, s₁)) (hp : p ≠ 0) :
    SameLayout s (memset s₁ (s₁.higherHalf p) 0 pageSize) ∧
      ServedInv [] p (memset s₁ (s₁.higherHalf p) 0 pageSize) := by
  obtain ⟨hready, hpage, hlt, hoff, -, hused⟩ := h.alloc halloc hp
  have hlayout := (pmmAlloc_cases halloc).1
  have hoff := hlayout.offBitmap.mpr hoff
  rw [← hlayout.pageCount] at hlt
  obtain ⟨hglob, hzero, hbyte⟩ := clearPage hpage hoff
  generalize memset s₁ (s₁.higherHalf p) 0 pageSize = s₂ at hglob hzero hbyte ⊢
  refine ⟨hlayout.trans hglob.toSameLayout, .start hpage (hglob.offBitmap.mpr hoff) hzero,
    hready.congr hglob hbyte, ?_⟩
  intro t ht
  -- the only table is the new one
  rw [tableAt_zeroed hzero ht, hglob.pageCount, used_congr hglob.toSameLayout (hbyte _ hlt)]
  exact ⟨hlt, hused⟩

end Served

-- ---------------------------------------------------------------------------
-- Enough pages
-- ---------------------------------------------------------------------------

section Supplied

variable {s s' : Machine} {root pm virt k : Nat} {calls : List MapCall} {c : MapCall}

/-- A page of its own is in particular not `NULL`, -/
theorem NextLvlFresh.served {lvl entry : Nat} (h : NextLvlFresh s root lvl entry) :
    NextLvlServed s lvl entry := by
  intro habsent
  obtain ⟨p, s', halloc, hp⟩ := h habsent
  exact ⟨p, s', halloc, hp.nonNull⟩

/-- at each of the three levels. -/
theorem MapFresh.served (h : MapFresh s root pm virt) : MapServed s pm virt := by
  obtain ⟨hfresh₄, hbelow⟩ := h
  refine ⟨hfresh₄.served, ?_⟩
  intro pml3 s₃ hrun₃
  obtain ⟨hfresh₃, hbelow⟩ := hbelow pml3 s₃ hrun₃
  exact ⟨hfresh₃.served, fun pml2 s₂ hrun₂ => (hbelow pml2 s₂ hrun₂).served⟩

/-- A call takes at most three of the pages. -/
theorem Supplied.map (hinv : TreeInv s root) (h : Supplied s root (k + 3)) (hc : c.Flagged)
    (hmap : vmmMap s (s.higherHalf root) c.virt c.phys c.flags = some s') :
    SameLayout s s' ∧ TreeInv s' root ∧ Supplied s' root k := by
  obtain ⟨s₁, hrun, hkept⟩ := h.call hinv _ _ _ (Nat.or_lt_two_pow hc.phys_lt hc.flags_lt)
  rw [hmap] at hrun
  obtain rfl := Option.some.inj hrun
  exact hkept

/-- Calls take at most three pages each and leave the rest. -/
theorem Supplied.mapCalls (hinv : TreeInv s root)
    (h : Supplied s root (k + 3 * calls.length)) (hcalls : ∀ c ∈ calls, c.Flagged)
    (hrun : mapCalls (s.higherHalf root) s calls = some s') :
    SameLayout s s' ∧ TreeInv s' root ∧ Supplied s' root k := by
  -- on the calls; those still to come need three pages each
  induction calls using List.reverseRecOn generalizing s' k with
  | nil =>
    obtain rfl := Option.some.inj hrun
    exact ⟨.refl s, hinv, h⟩
  | append_singleton calls c ih =>
    obtain ⟨s₁, hrun₁, hmap⟩ := mapCalls_snoc.mp hrun
    rw [List.length_append, List.length_singleton] at h
    obtain ⟨hlayout, hinv₁, h₁⟩ := ih (k := k + 3) (h.mono (by omega))
      (fun d hd => hcalls d (List.mem_append_left _ hd)) hrun₁
    rw [← hlayout.higherHalf] at hmap
    obtain ⟨hlayout', hinv', h'⟩ := h₁.map hinv₁ (hcalls c (by simp)) hmap
    exact ⟨hlayout.trans hlayout', hinv', h'⟩

/-- **Three pages a call are enough.** -/
theorem Supplied.served (hinv : TreeInv s root) (h : Supplied s root (3 * calls.length))
    (hcalls : ∀ c ∈ calls, c.Flagged) : CallsServed (s.higherHalf root) s calls := by
  intro before c after s' heq hrun
  rw [heq, List.length_append, List.length_cons] at h
  have hleft : Supplied s root (3 + 3 * before.length) := h.mono (by omega)
  obtain ⟨hlayout, hinv', h'⟩ := hleft.mapCalls hinv (fun d hd => hcalls d (by simp [heq, hd])) hrun
  rw [← hlayout.higherHalf]
  exact (h'.mapFresh hinv' c.virt).served

end Supplied

end Medlar64
