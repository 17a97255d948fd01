import Medlar64.Mm.AddressSpace
import Medlar64.Mm.HeapFrame

/-!
# Medlar64 — the memory of the running kernel

After `vmm_init` and `kheap_init` the page tables and the heap live in pages of
one allocator, and the kernel reaches both through the direct map. What the
heap does, with its clients writing inside their blocks, stays in pages that
were free when the tables were finished.

* `HeldByte` — a byte of a page in use before the heap; `HeapInv.step_held` and
  `HeapCreated.held` — it is not written.
* `RightsInv.congr` — the page map depends on the bytes of the tables.
* `InitServed.kernel` — what `vmm_init` leaves: the tables, held by the
  allocator.
* `kernel_memory` — the address space through every run of the heap.
-/

namespace Medlar64

open Tables (SameTree)

-- ---------------------------------------------------------------------------
-- Bytes that the heap does not own
-- ---------------------------------------------------------------------------

/-- The byte is in a page in use before there was a heap, apart from the
bitmap. -/
structure HeldByte (t : Machine) (x : Nat) : Prop where
  used : t.used (x / 4096) = true
  notInBitmap : ¬ t.inBitmap x

section Held

variable {t s s' : Machine} {hp sp : Nat} {live l m : List HeapBlock} {b : HeapBlock} {x : Nat}

/-- The pages of the heap were free when it took them, so a byte held before is
in none of its runs, -/
theorem HeldByte.not_own (h : HeldByte t x) (hinv : HeapInv t hp sp s live) {r : SlotRun}
    (hr : r ∈ heapRuns t hp sp live) : ¬ r.has (x / 4096) := by
  intro hhas
  exact not_free.mpr h.used (hinv.accounted.owned r hr _ hhas).2

/-- in none of its pages, -/
theorem HeldByte.page_ne (h : HeldByte t x) (hinv : HeapInv t hp sp s live) {P : Nat}
    (hP : P ∈ linkPages t hp sp live) : x / 4096 ≠ P := by
  rintro rfl
  obtain ⟨r, hr, -, hhas⟩ := hinv.exists_run hP
  exact h.not_own hinv hr hhas

/-- and in no header. -/
theorem HeldByte.not_links (h : HeldByte t x) (hinv : HeapInv t hp sp s live) {P : Nat}
    (hP : P ∈ linkPages t hp sp live) : ¬ s.links (t.pagePtr P) x :=
  not_links_page hinv.layout (hinv.lt P hP) (h.page_ne hinv hP)

/-- In particular an allocation does not write it, -/
theorem HeldByte.not_head (h : HeldByte t x) (hinv : HeapInv t hp sp s live) :
    ¬ s.links (t.pagePtr sp) x ∧ ¬ s.links (s.get (t.pagePtr sp) .prev) x := by
  obtain ⟨L, hL, heq⟩ :=
    exists_page (sp :: live.map (HeapBlock.page t)) hinv.ring.prev_base_mem
  rw [heq]
  exact ⟨h.not_links hinv (List.mem_cons_of_mem _ List.mem_cons_self),
    h.not_links hinv (List.mem_cons_of_mem _ hL)⟩

/-- nor does a release, -/
theorem HeldByte.not_sides (h : HeldByte t x) (hinv : HeapInv t hp sp s (l ++ b :: m)) :
    ¬ s.links (s.get (headerOf b.ptr) .prev) x ∧ ¬ s.links (s.get (headerOf b.ptr) .next) x := by
  have hrest := (nodes_sublist t sp l m b).subset
  have hb : b ∈ l ++ b :: m := List.mem_append_right _ List.mem_cons_self
  obtain ⟨⟨A, hA, hprev⟩, C, hC, hnext⟩ := hinv.neighbours
  rw [headerOf_ptr (hinv.placed b hb), hprev, hnext]
  exact ⟨h.not_links hinv (List.mem_cons_of_mem _ (hrest hA)),
    h.not_links hinv (List.mem_cons_of_mem _ (hrest hC))⟩

/-- nor a reallocation. -/
theorem HeldByte.realloc_mem {n ptr : Nat} (h : HeldByte t x)
    (hinv : HeapInv t hp sp s (l ++ b :: m)) (hn : sizeofBlock + n + 4095 < 2 ^ 64)
    (hfit : sizeofBlock + b.size ≤ 4096 * blockPages n) (hfree : AllocsFree s (blockPages n))
    (hrun : heapRealloc s (t.pagePtr hp) b.ptr n = some (ptr, s')) : s'.mem x = s.mem x := by
  have hinv' := hinv.reallocFits hn hfit hfree hrun
  have hc : (⟨ptr, n⟩ : HeapBlock) ∈ l ++ m ++ [⟨ptr, n⟩] :=
    List.mem_append_right _ (List.mem_singleton.mpr rfl)
  obtain ⟨hhead, hlast⟩ := h.not_head hinv
  obtain ⟨hprev, hnext⟩ := h.not_sides hinv
  exact hinv.realloc_mem hn hfit hfree hrun (h.not_own hinv' (mem_heapRuns hp sp hc)) hhead hlast
    hprev hnext h.notInBitmap

/--
**Step.** No step of the heap writes a byte that was held before it: every
write goes to a page of the heap or to the bitmap.
-/
theorem HeapInv.step_held {st st' : HeapSys} (hinv : HeapInv t hp sp st.machine st.live)
    (h : FitStep (t.pagePtr hp) st st') (hx : HeldByte t x) :
    st'.machine.mem x = st.machine.mem x := by
  have hinv' := hinv.fitStep h
  -- every write goes to a page of the heap or to the bitmap
  cases h with
  | realloc hn hfit hfree hrun => exact hx.realloc_mem hinv hn hfit hfree hrun
  | step hstep =>
    cases hstep with
    | @alloc s s' live n ptr hn hfree halloc =>
      have hc : (⟨ptr, n⟩ : HeapBlock) ∈ live ++ [⟨ptr, n⟩] :=
        List.mem_append_right _ (List.mem_singleton.mpr rfl)
      have hnew : x / 4096 ≠ HeapBlock.page t ⟨ptr, n⟩ :=
        hx.page_ne hinv' (mem_linkPages hp sp hc)
      obtain ⟨hhead, hlast⟩ := hx.not_head hinv
      exact hinv.alloc_mem (by omega) hfree halloc hnew hhead hlast hx.notInBitmap
    | @free s l m b =>
      obtain ⟨hprev, hnext⟩ := hx.not_sides hinv
      exact hinv.free_mem hprev hnext hx.notInBitmap
    | @realloc s s' l m b n ptr hn hsize hfree hrun =>
      have hfit := le_blockPages (n := n) (by omega)
      exact hx.realloc_mem hinv (by omega) (by omega) hfree hrun
    | @write s live b k v hb hk =>
      have hfit := le_blockPages (hinv.noWrap b hb)
      obtain ⟨-, hhas⟩ := hinv.own_page hb (k := k) (by omega)
      refine Function.update_of_ne ?_ _ _
      intro heq
      rw [hinv.layout.physical] at heq
      rw [← heq] at hhas
      exact hx.not_own hinv (mem_heapRuns hp sp hb) hhas

/-- **Run.** -/
theorem HeapInv.run_held {st : HeapSys} (hinv : HeapInv t hp sp s [])
    (h : FitRun (t.pagePtr hp) s st) (hx : HeldByte t x) : st.machine.mem x = s.mem x := by
  induction h with
  | refl => rfl
  | tail hsteps hstep ih => exact ((hinv.fitRun hsteps).step_held hstep hx).trans ih

/--
Nor does `heap_create`, whose two pages were free.
-/
theorem HeapCreated.held {h : Nat} (h0 : t.used 0 = true) (hcreate : HeapCreated t h s)
    (hx : HeldByte t x) : s.mem x = t.mem x := by
  have hpc := t.pageCount_lt
  obtain ⟨p, s₁, halloc₁, hrun₁⟩ := hcreate.page
  obtain ⟨q, s₂, halloc₂, hrun₂⟩ := hcreate.sentinel p s₁ halloc₁
  obtain ⟨hp, rfl, -, hhp, hfree₁, -, hlay₁, h0₁, hbits₁, hmem₁⟩ := alloc_one h0 halloc₁ hrun₁
  obtain ⟨sp, rfl, -, hsp, hfree₂, -, hlay₂, -, -, hmem₂⟩ := alloc_one h0₁ halloc₂ hrun₂
  rw [hlay₁.pageCount] at hsp hmem₂
  have hsp₁ := (hbits₁ sp hsp).mp hfree₂
  have hne : hp ≠ sp := by
    rintro rfl
    exact hsp₁.2 (SlotRun.has_one.mpr rfl)
  have hptr₁ : s₁.higherHalf (4096 * hp) = t.pagePtr hp := hlay₁.higherHalf _
  have hptr₂ : s₂.higherHalf (4096 * sp) = t.pagePtr sp := (hlay₁.trans hlay₂).higherHalf _
  have hrun := hcreate.run
  rw [heapCreate_eq halloc₁ halloc₂, hptr₁, hptr₂] at hrun
  obtain ⟨-, rfl⟩ := Prod.mk.inj (Option.some.inj hrun)
  obtain ⟨-, -, -, hframe⟩ :=
    heapSentinel_spec (hlay₁.trans hlay₂) (show hp < 2 ^ 52 by omega)
      (show sp < 2 ^ 52 by omega) hne
  -- the page of the byte was in use, so it is neither of the two
  have hpage : ∀ P, t.free P → x / 4096 ≠ P := by
    rintro P hP rfl
    exact not_free.mpr hx.used hP
  have hbyte := not_inBitmap hx.notInBitmap
  rw [hframe x (hpage hp hfree₁) (hpage sp hsp₁.1), hmem₂ x, hmem₁ x hbyte]
  intro bit hbit
  rw [hlay₁.bitmapByte]
  exact hbyte bit hbit

end Held

-- ---------------------------------------------------------------------------
-- The page map
-- ---------------------------------------------------------------------------

section Maps

variable {s s' : Machine} {root : Nat} {calls : List MapCall} {c : MapCall}

/-- The tables are found by the same paths as long as their words are the
same. -/
theorem tableAt_congr (h : SameTree nextTable 4 s.tables s'.tables root) {t : Nat}
    (ht : TableAt s' root t) : TableAt s root t := by
  obtain ⟨q, hq, hnode⟩ := ht
  rw [h.node hq.le] at hnode
  exact ⟨q, hq, hnode⟩

/-- **The page map depends on the tables only.** -/
theorem RightsInv.congr (h : RightsInv calls root s) (hlayout : SameLayout s s')
    (hsame : SameTree nextTable 4 s.tables s'.tables root) : RightsInv calls root s' := by
  refine ⟨⟨h.distinct.congr hsame, ?_, ?_⟩, h.inner.congr hsame,
    ?_⟩
  · intro t ht
    exact h.page t (tableAt_congr hsame ht)
  · intro t ht
    exact hlayout.offBitmap.mpr (h.offBitmap t (tableAt_congr hsame ht))
  · intro virt
    have hdepth : (slots virt).length ≤ 4 := Nat.le_refl 4
    rw [hsame.lookup hdepth]
    exact h.words virt

/-- The bytes of the tables are held by the allocator. -/
theorem ServedInv.heldByte (h : ServedInv calls root s) {t x : Nat} (ht : TableAt s root t)
    (hlo : t ≤ x) (hhi : x < t + 4096) : HeldByte s x := by
  have haligned := (h.page t ht).aligned
  have hpage : x / 4096 = t / 4096 := by omega
  refine ⟨?_, ?_⟩
  · rw [hpage]
    exact (h.held t ht).2
  · rintro ⟨bit, hbit, rfl⟩
    exact h.offBitmap t ht bit hbit hpage

-- ---------------------------------------------------------------------------
-- `vmm_init`
-- ---------------------------------------------------------------------------

/-- Making a table frees no page. -/
theorem Hangs.used {n : Nat} (hinv : TreeInv s root) (h : Hangs root s n s') {page : Nat}
    (hpage : page < s.pmmPageCount) (hused : s.used page = true) : s'.used page = true := by
  have hpc := s.pageCount_lt
  -- a table that is hung in sets the bit of its page, and no bit is cleared
  induction h with
  | none => exact hused
  | hang hhangs hhung ih =>
    obtain ⟨hlayout, hinv', -⟩ := hhangs.tree hinv
    obtain ⟨hlayout₁, hgrow, -⟩ := pmmAlloc_cases hhung.alloc
    have hpage₁ := hpage
    rw [← hlayout.pageCount, ← hlayout₁.pageCount] at hpage₁
    rw [used_congr hhung.globals.toSameLayout (hhung.bitmap hinv' hpage₁)]
    exact hgrow page (by omega) ih

/-- Nor does a call of `vmm_map`. -/
theorem ServedInv.map_used (h : ServedInv calls root s) (hc : c.Flagged)
    (hserved : MapServed s (s.higherHalf root) c.virt)
    (hmap : vmmMap s (s.higherHalf root) c.virt c.phys c.flags = some s') {page : Nat}
    (hpage : page < s.pmmPageCount) (hused : s.used page = true) : s'.used page = true := by
  have hfresh : MapFresh s root (s.higherHalf root) c.virt := by
    refine h.mapFresh hserved ?_
    intro n s' lvl entry hhangs _ hnext
    obtain ⟨hready, hheld⟩ := hhangs.served h.toTreeInv h.ready h.held
    exact hready.nextLvlFresh hheld hnext
  obtain ⟨n, t, s₁, s₂, hhangs, -, hset, hrun⟩ :=
    h.mapWord hfresh (Nat.or_lt_two_pow hc.phys_lt hc.flags_lt)
  rw [hmap] at hrun
  obtain rfl := Option.some.inj hrun
  obtain ⟨hlayout, -⟩ := hhangs.tree h.toTreeInv
  rw [← hlayout.pageCount] at hpage
  rw [used_congr hset.globals.toSameLayout (hset.bitmap hpage)]
  rw [hlayout.pageCount] at hpage
  exact hhangs.used h.toTreeInv hpage hused

/-- A page in use stays in use through any calls of `vmm_map`, by induction on
them. A call takes pages for tables and frees none. -/
theorem ServedInv.run_used (h : ServedInv [] root s) (hcalls : ∀ c ∈ calls, c.Flagged)
    (hserved : CallsServed (s.higherHalf root) s calls)
    (hrun : mapCalls (s.higherHalf root) s calls = some s') {page : Nat}
    (hpage : page < s.pmmPageCount) (hused : s.used page = true) : s'.used page = true := by
  -- on the calls; the last one is the one just made
  induction calls using List.reverseRecOn generalizing s' with
  | nil =>
    obtain rfl := Option.some.inj hrun
    exact hused
  | append_singleton calls c ih =>
    have hbefore : ∀ d ∈ calls, d.Flagged := fun d hd => hcalls d (List.mem_append_left _ hd)
    obtain ⟨s₁, hrun₁, hmap⟩ := mapCalls_snoc.mp hrun
    obtain ⟨s₁', hrun₁', hlayout, hinv⟩ := h.run hbefore hserved.left
    obtain rfl := Option.some.inj (hrun₁.symm.trans hrun₁')
    have hlast := hserved calls c [] s₁ rfl hrun₁
    rw [← hlayout.higherHalf] at hlast hmap
    rw [← hlayout.pageCount] at hpage
    exact hinv.map_used (hcalls c (by simp)) hlast hmap hpage (ih hbefore hserved.left hrun₁)

end Maps

/--
**What `vmm_init` leaves behind.** It returns; its tables stand for its calls;
every page in use before is still in use, and so is every table.
-/
theorem InitServed.kernel {s : Machine} {k : KernelImage} (hserved : InitServed s k)
    (hready : PmmReady s) (hk : k.LaidOut s.hhdmOffset) :
    ∃ pm s', vmmInit s k = some (pm, s') ∧ SameLayout s s' ∧
      ServedInv (initCalls k s.hhdmOffset) (s'.physical pm) s' ∧
      ∀ page, page < s.pmmPageCount → s.used page = true → s'.used page = true := by
  have hpc := s.pageCount_lt
  obtain ⟨p, s₁, halloc, hp, hcalls⟩ := hserved
  obtain ⟨hlayout, hgrow, -⟩ := pmmAlloc_cases halloc
  obtain ⟨-, hpage, -, hoff, -⟩ := hready.alloc halloc hp
  obtain ⟨hlayout₂, hstart⟩ := hready.start halloc hp
  obtain ⟨hglob, -, hbyte⟩ := clearPage hpage (hlayout.offBitmap.mpr hoff)
  rw [vmmInit_eq halloc]
  -- the top-level table is cleared before the first call
  generalize memset s₁ (s₁.higherHalf p) 0 pageSize = s₂ at hcalls hstart hglob hbyte hlayout₂ ⊢
  rw [← hglob.higherHalf p] at hcalls ⊢
  obtain ⟨s', hrun, hlayout', hinv⟩ := hstart.run (initCalls_flagged hk) hcalls
  have hlt := hpage.lt
  have hroot : s'.physical (s₂.higherHalf p) = p := by
    rw [← hlayout'.higherHalf, physical_higherHalf s' (by omega)]
  refine ⟨s₂.higherHalf p, s', ?_, hlayout₂.trans hlayout', ?_, ?_⟩
  · rw [hrun, Option.bind_some]
  · rw [hroot]
    exact hinv
  · -- the allocation sets bits, and clearing its page touches none
    intro page hpage hused
    have hused₂ : s₂.used page = true := by
      rw [← hlayout.pageCount] at hpage
      rw [used_congr hglob.toSameLayout (hbyte page hpage)]
      exact hgrow page (by rw [hlayout.pageCount] at hpage; omega) hused
    rw [← hlayout₂.pageCount] at hpage
    exact hstart.run_used (initCalls_flagged hk) hcalls hrun hpage hused₂

-- ---------------------------------------------------------------------------
-- The kernel
-- ---------------------------------------------------------------------------

/--
**The memory of the running kernel.** Once the page tables are made, every heap
created on what is left, and every run of it whose steps fit, leaves the
address space as it is meant to be, is itself in order, and keeps off the
tables.

The tables are in use when the heap is created, so their bytes are held; no
step writes them, and the page map depends on no others.
-/
theorem kernel_memory {s : Machine} {k : KernelImage} (hready : PmmReady s)
    (hzero : s.used 0 = true) (hk : k.LaidOut s.hhdmOffset) (hend : k.dataEnd ≤ 2 ^ 64 - 4096)
    (hserved : InitServed s k) :
    ∃ pm s', vmmInit s k = some (pm, s') ∧
      ∀ h created st, HeapCreated s' h created → FitRun h created st →
        AddressSpace k s.hhdmOffset st.machine (s'.physical pm) ∧ HeapOk s' h st ∧
          ∀ t, TableAt st.machine (s'.physical pm) t → ∀ r ∈ st.pages h, ¬ r.has (t / 4096) := by
  obtain ⟨pm, s', hrun, hlayout, hinv, hkept⟩ := hserved.kernel hready hk
  refine ⟨pm, s', hrun, ?_⟩
  intro h created st hcreate hsteps
  have h0 : s'.used 0 = true := by
    by_cases hpages : 0 < s.pmmPageCount
    · exact hkept 0 hpages hzero
    · -- the top-level table is a managed page
      obtain ⟨hlt, -⟩ := hinv.held _ ⟨[], by decide, rfl⟩
      rw [hlayout.pageCount] at hlt
      omega
  have haligned : s'.hhdmOffset % 4096 = 0 := by
    rw [hlayout.hhdm]
    exact hk.aligned
  obtain ⟨hp, sp, rfl, hheap, -⟩ := hcreate.inv h0 haligned
  have hend' := hheap.fitRun hsteps
  -- no byte of the tables is written
  have hsame : SameTree nextTable 4 s'.tables st.machine.tables (s'.physical pm) := by
    intro q t i hq hnode
    refine tables_congr ?_ i
    intro x hlo hhi
    have hx := hinv.heldByte ⟨q, hq, hnode⟩ hlo hhi
    rw [hheap.run_held hsteps hx, hcreate.held h0 hx]
  refine ⟨(hinv.toRightsInv.congr hend'.layout hsame).addressSpace hk hend, hend'.ok,
    ?_⟩
  intro t ht r hr hhas
  rw [hend'.pages_eq] at hr
  have hx := hinv.heldByte (tableAt_congr hsame ht) (Nat.le_refl t) (by omega)
  exact hx.not_own hend' hr hhas

-- ---------------------------------------------------------------------------
-- A kernel with a block on its heap
-- ---------------------------------------------------------------------------

/--
A machine with room for `vmm_init` and more has the rest left after it.
-/
theorem Roomy.afterInit {s s' : Machine} {k : KernelImage} {pm room : Nat} (hready : PmmReady s)
    (hk : k.LaidOut s.hhdmOffset)
    (hroomy : Roomy s (room + 3 * (initCalls k s.hhdmOffset).length + 1))
    (hrun : vmmInit s k = some (pm, s')) : Roomy s' room := by
  have hroom := hroomy.room
  have hcursor := hroomy.bitmap 0 (by omega)
  -- the first page becomes the root of the tree
  obtain ⟨halloc, hroomy₁⟩ := hroomy.alloc (Nat.le_refl 1)
  have hcursor₁ := setLastPage_lastPage (setPages s s.pmmLastPage 1) (s.pmmLastPage + 1)
  generalize (setPages s s.pmmLastPage 1).setLastPage (s.pmmLastPage + 1) = s₁
    at halloc hroomy₁ hcursor₁
  have hp : 4096 * s.pmmLastPage ≠ 0 := by omega
  generalize hroot : 4096 * s.pmmLastPage = p at halloc hp
  have hlayout := (pmmAlloc_cases halloc).1
  obtain ⟨-, hpage, -, hoff, -⟩ := hready.alloc halloc hp
  obtain ⟨-, hstart⟩ := hready.start halloc hp
  obtain ⟨hglob, hzero, hbyte⟩ := clearPage hpage (hlayout.offBitmap.mpr hoff)
  rw [vmmInit_eq halloc] at hrun
  generalize memset s₁ (s₁.higherHalf p) 0 pageSize = s₂ at hstart hglob hzero hbyte hrun
  rw [← hglob.higherHalf p] at hrun
  -- every call takes at most three pages
  have hsupplied : Supplied s₂ p (room + 3 * (initCalls k s.hhdmOffset).length) := by
    refine ⟨hroomy₁.congr hglob hbyte, ?_, ?_⟩
    · rw [hglob.pageCount, hlayout.pageCount]
      exact hready.small
    · intro t ht
      rw [tableAt_zeroed hzero ht, hglob.lastPage, hcursor₁]
      omega
  obtain ⟨s₃, hcalls, hdone⟩ := Option.bind_eq_some_iff.mp hrun
  obtain ⟨-, rfl⟩ := Prod.mk.inj (Option.some.inj hdone)
  exact (hsupplied.mapCalls hstart.toTreeInv (initCalls_flagged hk) hcalls).2.2.toRoomy

/--
A machine with two pages to spare can create a heap.
-/
theorem Roomy.heapCreated {s : Machine} {room : Nat} (hroomy : Roomy s (room + 1 + 1))
    (h0 : s.used 0 = true) (haligned : s.hhdmOffset % 4096 = 0) :
    ∃ hp sp created, HeapCreated s (s.pagePtr hp) created ∧ HeapInv s hp sp created [] ∧
      Roomy created room := by
  obtain ⟨halloc₁, hroom₁⟩ := hroomy.alloc (Nat.le_refl 1)
  obtain ⟨halloc₂, hroom₂⟩ := hroom₁.alloc (Nat.le_refl 1)
  obtain ⟨h, created, hrun⟩ : ∃ h created, heapCreate s = some (h, created) :=
    ⟨_, _, heapCreate_eq halloc₁ halloc₂⟩
  -- one page for the heap and one for its sentinel
  have hcreate : HeapCreated s h created := by
    refine ⟨hroomy.allocsFree (Nat.le_refl 1), ?_, hrun⟩
    intro p s' halloc
    rw [halloc₁] at halloc
    obtain ⟨-, rfl⟩ := Prod.mk.inj (Option.some.inj halloc)
    exact hroom₁.allocsFree (Nat.le_refl 1)
  obtain ⟨hp, sp, rfl, hinv, p, s₁, q, s₂, halloc₁', halloc₂', hglob, hbits⟩ :=
    hcreate.inv h0 haligned
  obtain ⟨-, rfl⟩ := Prod.mk.inj (Option.some.inj (halloc₁.symm.trans halloc₁'))
  obtain ⟨-, rfl⟩ := Prod.mk.inj (Option.some.inj (halloc₂.symm.trans halloc₂'))
  have hlayout := (pmmAlloc_cases halloc₁).1.trans (pmmAlloc_cases halloc₂).1
  refine ⟨hp, sp, created, hcreate, hinv, hroom₂.congr hglob ?_⟩
  intro bit hbit
  rw [hlayout.pageCount] at hbit
  rw [hlayout.bitmapByte]
  exact hbits bit hbit

/-- The kernel of the example with one block of 100 bytes allocated: `vmm_init`
takes the pages of its tables, the heap two more, and the block one. -/
theorem kernel_memory_large :
    ∃ pm s' h created st b, vmmInit largeMachine (imageTo 0xffffffff80005000) = some (pm, s') ∧
      HeapCreated s' h created ∧ FitRun h created st ∧ st.live = [b] ∧ b.size = 100 ∧
      AddressSpace (imageTo 0xffffffff80005000) largeMachine.hhdmOffset st.machine
        (s'.physical pm) := by
  have hlaid : (imageTo 0xffffffff80005000).LaidOut largeMachine.hhdmOffset :=
    imageTo_laidOut (by decide) (by decide)
  have hserved : InitServed largeMachine (imageTo 0xffffffff80005000) :=
    imageTo_served (by decide) (by decide) (by decide)
  have hzero : largeMachine.used 0 = true := by
    rw [largeMachine_used (by decide)]
    rfl
  have hend : (imageTo 0xffffffff80005000).dataEnd ≤ 2 ^ 64 - 4096 :=
    show 0xffffffff80005000 ≤ 2 ^ 64 - 4096 by decide
  obtain ⟨pm, s', hrun, hkernel⟩ := kernel_memory largeMachine_ready hzero hlaid hend hserved
  -- there is room for the heap and the block
  have hroom : Roomy s' (blockPages 100 + 1 + 1) := by
    refine Roomy.afterInit largeMachine_ready hlaid (largeMachine_roomy.mono ?_) hrun
    rw [length_initCalls]
    decide
  obtain ⟨pm', s'', hrun', hlayout, hinv, hkept⟩ := hserved.kernel largeMachine_ready hlaid
  obtain ⟨-, rfl⟩ := Prod.mk.inj (Option.some.inj (hrun.symm.trans hrun'))
  have h0 : s'.used 0 = true := hkept 0 (by decide) hzero
  have haligned : s'.hhdmOffset % 4096 = 0 := by
    rw [hlayout.hhdm]
    decide
  obtain ⟨hp, sp, created, hcreate, hheap, hroom'⟩ := hroom.heapCreated h0 haligned
  have hroom'' : Roomy created (0 + blockPages 100) := by
    rw [Nat.zero_add]
    exact hroom'
  obtain ⟨ptr, last, hfree, halloc, -, -⟩ := hheap.roomy_alloc (n := 100) (by decide) hroom''
  have hstep : HeapStep (s'.pagePtr hp) ⟨created, []⟩ ⟨last, [] ++ [⟨ptr, 100⟩]⟩ :=
    .alloc (by decide) hfree halloc
  have hsteps : FitRun (s'.pagePtr hp) created ⟨last, [] ++ [⟨ptr, 100⟩]⟩ :=
    Relation.ReflTransGen.single (.step hstep)
  exact ⟨pm, s', _, created, _, _, hrun, hcreate, hsteps, rfl, rfl,
    (hkernel _ _ _ hcreate hsteps).1⟩

end Medlar64
