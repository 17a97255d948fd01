import Medlar64.Mm.HeapRuns

/-!
# Medlar64 — what the heap leaves alone

Byte by byte, what each operation of the heap writes. Besides the pages of a
new block and the bitmap these are the links in the headers of the neighbours.

* `HeapInv.alloc_mem`, `HeapInv.free_mem`, `HeapInv.copy_mem` — the frame of
  `heap_alloc`, of `heap_free` of a live pointer, and of a copy into a block.
* `HeapReached` — the states a heap reaches by reallocations that fit as well.
* `HeapInv.step_mem` — a page that is free before and after a step is not
  written by it.
-/

namespace Medlar64

/-- The byte at `x` belongs to the two links of the header that `v` points
to. -/
def Machine.links (s : Machine) (v x : Nat) : Prop :=
  s.physical v ≤ x ∧ x < s.physical v + 16

/-- The byte at `x` belongs to the bitmap. -/
def Machine.inBitmap (s : Machine) (x : Nat) : Prop :=
  ∃ bit, bit < s.pmmPageCount ∧ x = bitmapByte s bit

section Frame

variable {t s s' : Machine} {hp sp : Nat} {live l m : List HeapBlock} {b : HeapBlock} {x : Nat}

theorem not_inBitmap (h : ¬ t.inBitmap x) : ∀ bit, bit < t.pmmPageCount → x ≠ bitmapByte t bit :=
  fun bit hbit heq => h ⟨bit, hbit, heq⟩

/-- The links of the header in a page are its first 16 bytes. -/
theorem not_links (ht : SameLayout t s) {P : Nat} (hP : P < 2 ^ 52)
    (h : ¬ s.links (t.pagePtr P) x) : x < 4096 * P ∨ 4096 * P + 16 ≤ x := by
  have hphys : s.physical (t.pagePtr P) = 4096 * P :=
    physical_pagePtr_add ht hP (k := 0) (by decide)
  unfold Machine.links at h
  rw [hphys] at h
  omega

/--
**What `heap_alloc` writes**: the first page of the new block, the links of the
sentinel and of the block that was last, and the bitmap. Any other byte keeps
its value.
-/
theorem HeapInv.alloc_mem (hinv : HeapInv t hp sp s live) {n ptr : Nat}
    (hn : sizeofBlock + n + 4095 < 2 ^ 64) (hfree : AllocsFree s (blockPages n))
    (h : heapAlloc s (t.pagePtr hp) n = some (ptr, s')) (hnew : x / 4096 ≠ t.physical ptr / 4096)
    (hhead : ¬ s.links (t.pagePtr sp) x) (hlast : ¬ s.links (s.get (t.pagePtr sp) .prev) x)
    (hbits : ¬ t.inBitmap x) : s'.mem x = s.mem x := by
  have hpc := t.pageCount_lt
  have hpos := blockPages_pos hn
  obtain ⟨f, s₁, htaken, halloc⟩ := hinv.taken hn hfree
  have hf := htaken.managed
  have hpp : s₁.pagePtr = t.pagePtr := funext fun Q => htaken.layout.pagePtr Q
  have hhp : hp ∈ linkPages t hp sp live := List.mem_cons_self
  have hsp : sp ∈ linkPages t hp sp live := List.mem_cons_of_mem _ List.mem_cons_self
  have hhpne := (List.nodup_cons.mp hinv.nodup).1
  -- the last block of the list, before and after the pages are taken
  obtain ⟨L, hL, hlastL⟩ : ∃ L ∈ sp :: live.map (HeapBlock.page t),
      s₁.get (t.pagePtr sp) .prev = t.pagePtr L :=
    exists_page (sp :: live.map (HeapBlock.page t)) htaken.list.ring.prev_base_mem
  have hLmem : L ∈ linkPages t hp sp live := List.mem_cons_of_mem _ hL
  have hsame : s₁.get (t.pagePtr sp) .prev = s.get (t.pagePtr sp) .prev := by
    refine get_congr hinv.layout htaken.layout (hinv.lt sp hsp) ?_ .prev
    intro a hlo hhi
    refine htaken.mem a fun bit hbit heq => hinv.bit_ne hbit ?_
    rw [← heq, show a / 4096 = sp by omega]
    exact hsp
  -- the new page differs from those of the list, and the list from the heap's page
  have htargets : LinkTargets hp sp L f :=
    ⟨hinv.lt hp hhp, hinv.lt sp hsp, hinv.lt L hLmem, by omega,
      fun heq => htaken.fresh (heq ▸ hhp), fun heq => htaken.fresh (heq ▸ hsp),
      fun heq => htaken.fresh (heq ▸ hLmem), fun heq => hhpne (heq ▸ List.mem_cons_self),
      fun heq => hhpne (heq ▸ hL)⟩
  have hheadL := htaken.list.head
  rw [← hpp] at hheadL hlastL
  -- what `heap_alloc` returned is the machine after these writes
  obtain ⟨hlink, -⟩ := heapLink_writes (n := n) htargets hheadL hlastL
  rw [hpp] at hlink
  rw [h, hlink] at halloc
  obtain ⟨rfl, rfl⟩ := Prod.mk.inj (Option.some.inj halloc)
  have hpage : t.physical (u64 (t.pagePtr f + sizeofBlock)) / 4096 = f :=
    page_ptr (n := n) (by omega) rfl
  rw [hpage] at hnew
  rw [← hsame, ← hpp, hlastL, hpp] at hlast
  have hnotHead := not_links hinv.layout (hinv.lt sp hsp) hhead
  have hnotLast := not_links hinv.layout (hinv.lt L hLmem) hlast
  rw [linkedMachine_mem htargets hnew (by omega) (by omega),
    htaken.mem x (not_inBitmap hbits)]

/--
**What `heap_free` writes**: the links of the two neighbours, and the bitmap.
The pages of the block are not touched.
-/
theorem HeapInv.free_mem (hinv : HeapInv t hp sp s (l ++ b :: m))
    (hprev : ¬ s.links (s.get (headerOf b.ptr) .prev) x)
    (hnext : ¬ s.links (s.get (headerOf b.ptr) .next) x) (hbits : ¬ t.inBitmap x) :
    (heapFree s b.ptr).mem x = s.mem x := by
  have hpc := t.pageCount_lt
  have hb : b ∈ l ++ b :: m := List.mem_append_right _ List.mem_cons_self
  have hrun := hinv.run_le (mem_heapRuns hp sp hb)
  simp only [HeapBlock.run] at hrun
  have hrest := (nodes_sublist t sp l m b).subset
  have hfresh := page_fresh (List.nodup_cons.mp hinv.nodup).2
  obtain ⟨⟨A, hA, hprevA⟩, C, hC, hnextC⟩ := hinv.neighbours
  have hlt : ∀ Q ∈ sp :: (l ++ m).map (HeapBlock.page t), Q < 2 ^ 52 := fun Q hQ =>
    hinv.lt Q (List.mem_cons_of_mem _ (hrest hQ))
  have hPlt := hinv.lt _ (mem_linkPages hp sp hb)
  have hAP : A ≠ b.page t := fun heq => hfresh (heq ▸ hA)
  rw [headerOf_ptr (hinv.placed b hb)] at hprev hnext
  rw [hprevA] at hprev
  rw [hnextC] at hnext
  have hnotPrev := not_links hinv.layout (hlt A hA) hprev
  have hnotNext := not_links hinv.layout (hlt C hC) hnext
  have hpage : 4096 * b.page t / pageSize = b.page t := Nat.mul_div_cancel_left _ (by decide)
  rw [hinv.heapFree_eq, heapUnlink_eq hinv.layout (hlt A hA) hPlt hprevA hnextC hAP]
  -- clearing the bits, then the two links
  rw [pmmFree_mem (by rw [hpage]; omega) fun i hi heq => ?_,
    unlinkedMachine_mem hinv.layout (hlt A hA) (hlt C hC) (by omega) (by omega)]
  refine not_inBitmap hbits (b.page t + i) (by omega) ?_
  have hlayout : SameLayout t (unlinkedMachine t s A C) :=
    hinv.layout.trans ((sameGlobals_set _ _ _ _).trans (sameGlobals_set _ _ _ _)).toSameLayout
  rw [hpage, hlayout.bitmapByte] at heq
  exact heq

/--
The pages that are free after `heap_free` are those that were free before and
those of the block.
-/
theorem HeapInv.free_bits (hinv : HeapInv t hp sp s (l ++ b :: m)) {page : Nat}
    (hpage : page < t.pmmPageCount) :
    (heapFree s b.ptr).free page ↔ s.free page ∨ (b.run t).has page := by
  have hpc := t.pageCount_lt
  have hb : b ∈ l ++ b :: m := List.mem_append_right _ List.mem_cons_self
  have hrun := hinv.run_le (mem_heapRuns hp sp hb)
  simp only [HeapBlock.run] at hrun
  have hlinks := (linkPages_sublist t hp sp l m b).subset
  obtain ⟨hglob, -, -, hmem⟩ := hinv.toHeapList.unlink hinv.layout hinv.lt hinv.nodup
  have hfirst : 4096 * b.page t / pageSize = b.page t := Nat.mul_div_cancel_left _ (by decide)
  -- unlinking the block touches no bit
  have hbit : (heapUnlink s (t.pagePtr (b.page t))).used page = s.used page := by
    refine used_congr hglob.toSameLayout ?_
    rw [hinv.layout.bitmapByte]
    exact hmem _ fun hQ => hinv.bit_ne hpage (hlinks hQ)
  rw [hinv.heapFree_eq, free_pmmFree _ (by rw [hfirst]; omega) (by omega), hfirst, Machine.free,
    hbit]
  rfl

/-- Which bytes the links of a header are depends on the layout only. -/
theorem links_congr (h : SameLayout s s') (v x : Nat) : s'.links v x ↔ s.links v x := by
  unfold Machine.links
  rw [h.physical]

/-- The links of the header in another page are other bytes. -/
theorem not_links_page (ht : SameLayout t s) {P : Nat} (hP : P < 2 ^ 52) (h : x / 4096 ≠ P) :
    ¬ s.links (t.pagePtr P) x := by
  have hphys : s.physical (t.pagePtr P) = 4096 * P :=
    physical_pagePtr_add ht hP (k := 0) (by decide)
  rintro ⟨hlo, hhi⟩
  rw [hphys] at hlo hhi
  omega

/-- The block before a block is determined by the list. -/
theorem HeapList.prev_eq {m' : List HeapBlock} (h : HeapList t hp sp s (l ++ b :: m))
    (h' : HeapList t hp sp s' (l ++ b :: m')) :
    s'.get (t.pagePtr (b.page t)) .prev = s.get (t.pagePtr (b.page t)) .prev := by
  have hring := h.ring
  have hring' := h'.ring
  rw [List.map_append, List.map_append, List.map_cons, List.map_cons] at hring hring'
  exact Option.some.inj (hring'.prev_eq.symm.trans hring.prev_eq)

/-- The block behind it changes when it was the last one and another block `c`
came behind it. -/
theorem HeapList.next_cases {c : HeapBlock} (h : HeapList t hp sp s (l ++ b :: m))
    (h' : HeapList t hp sp s' (l ++ b :: (m ++ [c]))) :
    s'.get (t.pagePtr (b.page t)) .next = s.get (t.pagePtr (b.page t)) .next ∨
      s'.get (t.pagePtr (b.page t)) .next = t.pagePtr (c.page t) := by
  have hring := h.ring
  have hring' := h'.ring
  rw [List.map_append, List.map_append, List.map_cons, List.map_cons] at hring hring'
  have hnext := hring.next_eq
  have hnext' := hring'.next_eq
  cases m with
  | nil => exact .inr (Option.some.inj hnext').symm
  | cons d m => exact .inl (Option.some.inj (hnext'.symm.trans hnext))

/-- **A copy into a block's own pages** writes nothing else. -/
theorem HeapInv.copy_mem (hinv : HeapInv t hp sp s live) (hb : b ∈ live) (src : Nat) {n : Nat}
    (hn : sizeofBlock + n ≤ 4096 * blockPages b.size) (hx : ¬ (b.run t).has (x / 4096)) :
    (memcpy s b.ptr src n).mem x = s.mem x := by
  refine memcpy_other s fun i hi heq => hx ?_
  obtain ⟨-, hhas⟩ := hinv.own_page hb (k := i) (by omega)
  rw [heq, hinv.layout.physical]
  exact hhas

/--
**What `heap_realloc` writes**, when the copy fits into the new block: what an
allocation, a copy and a release write. The neighbours of the old block are
those at the release, behind the last block comes the new one by then.
-/
theorem HeapInv.realloc_mem (hinv : HeapInv t hp sp s (l ++ b :: m)) {n ptr : Nat}
    (hn : sizeofBlock + n + 4095 < 2 ^ 64) (hfit : sizeofBlock + b.size ≤ 4096 * blockPages n)
    (hfree : AllocsFree s (blockPages n))
    (h : heapRealloc s (t.pagePtr hp) b.ptr n = some (ptr, s'))
    (hnew : ¬ (HeapBlock.run t ⟨ptr, n⟩).has (x / 4096)) (hhead : ¬ s.links (t.pagePtr sp) x)
    (hlast : ¬ s.links (s.get (t.pagePtr sp) .prev) x)
    (hprev : ¬ s.links (s.get (headerOf b.ptr) .prev) x)
    (hnext : ¬ s.links (s.get (headerOf b.ptr) .next) x) (hbits : ¬ t.inBitmap x) :
    s'.mem x = s.mem x := by
  obtain ⟨newPtr, s₁, halloc, hinv₁, -, hrun⟩ := hinv.realloc_steps hn hfree
  rw [hrun] at h
  obtain ⟨rfl, rfl⟩ := Prod.mk.inj (Option.some.inj h)
  have hc : ⟨newPtr, n⟩ ∈ l ++ b :: m ++ [⟨newPtr, n⟩] :=
    List.mem_append_right _ (List.mem_singleton.mpr rfl)
  have hb : b ∈ l ++ b :: m := List.mem_append_right _ List.mem_cons_self
  have hpos := blockPages_pos hn
  have hfirst : x / 4096 ≠ HeapBlock.page t ⟨newPtr, n⟩ := fun heq =>
    hnew ⟨Nat.le_of_eq heq.symm, by
      rw [heq]
      exact Nat.lt_add_of_pos_right hpos⟩
  -- the state between `memcpy` and `heap_free`, and that it is the heap's
  have hcopy := hinv₁.copy hc b.ptr hfit
  have hmem := hinv₁.copy_mem (x := x) hc b.ptr hfit hnew
  have hclt := hinv₁.lt _ (mem_linkPages hp sp hc)
  rw [List.append_assoc, List.cons_append] at hcopy
  generalize memcpy s₁ newPtr b.ptr b.size = s₂ at hcopy hmem ⊢
  have hlayout : SameLayout s s₂ := by
    refine ⟨?_, ?_, ?_⟩
    · rw [hcopy.layout.hhdm, hinv.layout.hhdm]
    · rw [hcopy.layout.bitmap, hinv.layout.bitmap]
    · rw [hcopy.layout.pageCount, hinv.layout.pageCount]
  have hheader := headerOf_ptr (hinv.placed b hb)
  -- the neighbours of the old block when it is freed
  have hprev₂ : ¬ s₂.links (s₂.get (headerOf b.ptr) .prev) x := by
    rw [links_congr hlayout, hheader, hinv.toHeapList.prev_eq hcopy.toHeapList, ← hheader]
    exact hprev
  have hnext₂ : ¬ s₂.links (s₂.get (headerOf b.ptr) .next) x := by
    rw [links_congr hlayout, hheader]
    -- behind the last block comes the new one now
    rcases hinv.toHeapList.next_cases hcopy.toHeapList with hsame | hmoved
    · rw [hsame, ← hheader]
      exact hnext
    · rw [hmoved]
      exact not_links_page hinv.layout hclt hfirst
  rw [hcopy.free_mem hprev₂ hnext₂ hbits, hmem,
    hinv.alloc_mem hn hfree halloc hfirst hhead hlast hbits]

end Frame

-- ---------------------------------------------------------------------------
-- Runs with reallocations to any size that fits
-- ---------------------------------------------------------------------------

/-- A step of the heap, or a `heap_realloc` to a size whose pages hold the old
bytes. -/
inductive FitStep (h : Nat) : HeapSys → HeapSys → Prop
  | step {st st' : HeapSys} (hstep : HeapStep h st st') : FitStep h st st'
  | realloc {s s' : Machine} {l m : List HeapBlock} {b : HeapBlock} {n ptr : Nat}
      (hn : sizeofBlock + n + 4095 < 2 ^ 64)
      (hfit : sizeofBlock + b.size ≤ 4096 * blockPages n)
      (hfree : AllocsFree s (blockPages n)) (hrealloc : heapRealloc s h b.ptr n = some (ptr, s')) :
      FitStep h ⟨s, l ++ b :: m⟩ ⟨s', l ++ m ++ [⟨ptr, n⟩]⟩

def FitRun (h : Nat) (s : Machine) (st : HeapSys) : Prop :=
  Relation.ReflTransGen (FitStep h) ⟨s, []⟩ st

section Steps

variable {t : Machine} {hp sp : Nat}

/-- **Step.** A step that fits keeps the invariant of the heap, -/
theorem HeapInv.fitStep {st st' : HeapSys} (hinv : HeapInv t hp sp st.machine st.live)
    (h : FitStep (t.pagePtr hp) st st') : HeapInv t hp sp st'.machine st'.live := by
  cases h with
  | step hstep => exact hinv.step hstep
  | realloc hn hfit hfree hrealloc => exact hinv.reallocFits hn hfit hfree hrealloc

/-- **Run.** and so does every run of them. -/
theorem HeapInv.fitRun {s : Machine} {st : HeapSys} (hinv : HeapInv t hp sp s [])
    (h : FitRun (t.pagePtr hp) s st) : HeapInv t hp sp st.machine st.live := by
  induction h with
  | refl => exact hinv
  | tail _ hstep ih => exact ih.fitStep hstep

/-- A state that the heap `h` reaches from `heap_create` on, in a system that
started at `s₀` with page 0 in use and the direct map page-aligned. -/
structure HeapReached (s₀ : Machine) (h : Nat) (st : HeapSys) : Prop where
  zero : s₀.used 0 = true
  aligned : s₀.hhdmOffset % 4096 = 0
  run : ∃ s, HeapCreated s₀ h s ∧ FitRun h s st

/-- A heap that was reached is in order: `heap_create` gave it a page and a
sentinel, and every step since kept the invariant. -/
theorem HeapReached.inv {s₀ : Machine} {h : Nat} {st : HeapSys} (hst : HeapReached s₀ h st) :
    ∃ hp sp, h = s₀.pagePtr hp ∧ HeapInv s₀ hp sp st.machine st.live := by
  obtain ⟨s, hcreate, hrun⟩ := hst.run
  obtain ⟨hp, sp, rfl, hstart, -⟩ := hcreate.inv hst.zero hst.aligned
  exact ⟨hp, sp, rfl, hstart.fitRun hrun⟩

/-- What is reached from a heap that was reached, was reached. -/
theorem HeapReached.steps {s₀ : Machine} {h : Nat} {st st' : HeapSys} (hst : HeapReached s₀ h st)
    (hsteps : Relation.ReflTransGen (FitStep h) st st') : HeapReached s₀ h st' := by
  obtain ⟨s, hcreate, hrun⟩ := hst.run
  exact ⟨hst.zero, hst.aligned, s, hcreate, Relation.ReflTransGen.trans hrun hsteps⟩

/-- The byte is in a free page apart from the bitmap. -/
structure FreeByte (t s : Machine) (x : Nat) : Prop where
  managed : x / 4096 < t.pmmPageCount
  free : s.free (x / 4096)
  offBitmap : OffBitmap t (4096 * (x / 4096))

section FreeByte

variable {s : Machine} {live l m : List HeapBlock} {b : HeapBlock} {x : Nat}

/-- A byte of a free page is not in the bitmap. -/
theorem FreeByte.not_inBitmap (h : FreeByte t s x) : ¬ t.inBitmap x := by
  rintro ⟨bit, hbit, heq⟩
  refine h.offBitmap bit hbit ?_
  rw [← heq]
  omega

/-- No link of the list is in a free page. -/
theorem FreeByte.not_links (h : FreeByte t s x) (hinv : HeapInv t hp sp s live) {Q : Nat}
    (hQ : Q ∈ linkPages t hp sp live) : ¬ s.links (t.pagePtr Q) x :=
  not_links_page hinv.layout (hinv.lt Q hQ) fun heq =>
    hinv.fresh ⟨h.managed, h.free⟩ (heq ▸ hQ)

/-- Nor is it among the links that an allocation writes, since the sentinel and
the blocks are on pages in use. -/
theorem FreeByte.not_head (h : FreeByte t s x) (hinv : HeapInv t hp sp s live) :
    ¬ s.links (t.pagePtr sp) x ∧ ¬ s.links (s.get (t.pagePtr sp) .prev) x := by
  obtain ⟨L, hL, heq⟩ :=
    exists_page (sp :: live.map (HeapBlock.page t)) hinv.ring.prev_base_mem
  rw [heq]
  exact ⟨h.not_links hinv (List.mem_cons_of_mem _ List.mem_cons_self),
    h.not_links hinv (List.mem_cons_of_mem _ hL)⟩

/-- Nor among those that a release writes. -/
theorem FreeByte.not_sides (h : FreeByte t s x) (hinv : HeapInv t hp sp s (l ++ b :: m)) :
    ¬ s.links (s.get (headerOf b.ptr) .prev) x ∧ ¬ s.links (s.get (headerOf b.ptr) .next) x := by
  have hrest := (nodes_sublist t sp l m b).subset
  have hb : b ∈ l ++ b :: m := List.mem_append_right _ List.mem_cons_self
  obtain ⟨⟨A, hA, hprev⟩, C, hC, hnext⟩ := hinv.neighbours
  rw [headerOf_ptr (hinv.placed b hb), hprev, hnext]
  exact ⟨h.not_links hinv (List.mem_cons_of_mem _ (hrest hA)),
    h.not_links hinv (List.mem_cons_of_mem _ (hrest hC))⟩

/-- A free page is no page of a block. -/
theorem FreeByte.not_own (h : FreeByte t s x) (hinv : HeapInv t hp sp s live) (hb : b ∈ live) :
    ¬ (b.run t).has (x / 4096) :=
  ((hinv.accounted.free_iff _).mp ⟨h.managed, h.free⟩).2 _ (mem_heapRuns hp sp hb)

/-- So a reallocation leaves it alone, if its page is free afterwards too. -/
theorem FreeByte.realloc_mem {s' : Machine} {n ptr : Nat} (h : FreeByte t s x)
    (h' : FreeByte t s' x) (hinv : HeapInv t hp sp s (l ++ b :: m))
    (hn : sizeofBlock + n + 4095 < 2 ^ 64) (hfit : sizeofBlock + b.size ≤ 4096 * blockPages n)
    (hfree : AllocsFree s (blockPages n))
    (hrun : heapRealloc s (t.pagePtr hp) b.ptr n = some (ptr, s')) : s'.mem x = s.mem x := by
  have hinv' := hinv.reallocFits hn hfit hfree hrun
  have hnew := h'.not_own hinv' (List.mem_append_right _ (List.mem_singleton.mpr rfl))
  obtain ⟨hhead, hlast⟩ := h.not_head hinv
  obtain ⟨hprev, hnext⟩ := h.not_sides hinv
  exact hinv.realloc_mem hn hfit hfree hrun hnew hhead hlast hprev hnext h.not_inBitmap

end FreeByte

/--
**A page that is free before and after a step is not written by it.** Case by
case over the steps; a client writes inside its own blocks, whose pages are in
use.
-/
theorem HeapInv.step_mem {st st' : HeapSys} {x : Nat}
    (hinv : HeapInv t hp sp st.machine st.live) (h : FitStep (t.pagePtr hp) st st')
    (hbefore : FreeByte t st.machine x) (hafter : FreeByte t st'.machine x) :
    st'.machine.mem x = st.machine.mem x := by
  have hinv' := hinv.fitStep h
  cases h with
  | realloc hn hfit hfree hrun => exact hbefore.realloc_mem hafter hinv hn hfit hfree hrun
  | step hstep =>
    cases hstep with
    | @alloc s s' live n ptr hn hfree halloc =>
      -- the page is not the one handed out
      have hc : ⟨ptr, n⟩ ∈ live ++ [⟨ptr, n⟩] :=
        List.mem_append_right _ (List.mem_singleton.mpr rfl)
      have hnew : x / 4096 ≠ t.physical ptr / 4096 := fun heq =>
        hinv'.fresh ⟨hafter.managed, hafter.free⟩ (heq ▸ mem_linkPages hp sp hc)
      obtain ⟨hhead, hlast⟩ := hbefore.not_head hinv
      exact hinv.alloc_mem (by omega) hfree halloc hnew hhead hlast hbefore.not_inBitmap
    | @free s l m b =>
      obtain ⟨hprev, hnext⟩ := hbefore.not_sides hinv
      exact hinv.free_mem hprev hnext hbefore.not_inBitmap
    | @realloc s s' l m b n ptr hn hsize hfree hrun =>
      have hfit := le_blockPages (n := n) (by omega)
      exact hbefore.realloc_mem hafter hinv (by omega) (by omega) hfree hrun
    | @write s live b k v hb hk =>
      -- a client writes its own pages only
      have hfit := le_blockPages (hinv.noWrap b hb)
      obtain ⟨-, hhas⟩ := hinv.own_page hb (k := k) (by omega)
      refine Function.update_of_ne ?_ _ _
      intro heq
      rw [hinv.layout.physical] at heq
      rw [← heq] at hhas
      exact hbefore.not_own hinv hb hhas

end Steps

end Medlar64
