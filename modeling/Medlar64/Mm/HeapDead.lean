import Medlar64.Mm.HeapRealloc

/-!
# Medlar64 — freeing a block twice

`heap_free` leaves the magic number and the links in the header of the block it
frees, so a second `heap_free` passes the check and links the neighbours of
that time with each other once more.

* `FreedBlock` — the block has been freed, and its page neither handed out nor
  written since; `FreedBlock.kept` — its header is still what it was.
* `FreeRejected`, `ReallocRejected` — what the two functions are meant to do
  with its pointer.
* `heap_free_dead_iff` — `heap_free` does so if and only if the neighbours of
  that time, where they are still in the list, are still next to each other
  and the pages of the block are still free; `heap_realloc` never does.
-/

namespace Medlar64

/-- A step of the heap that leaves a page free. -/
def LeavingStep (h page : Nat) (st st' : HeapSys) : Prop :=
  FitStep h st st' ∧ st'.machine.used page = false

theorem LeavingStep.of_free {h page : Nat} {st : HeapSys} {u : Machine} {live : List HeapBlock}
    (hstep : FitStep h st ⟨u, live⟩) (hfree : u.free page) : LeavingStep h page st ⟨u, live⟩ :=
  ⟨hstep, hfree⟩

/-- The block `b` of the heap `h` has been freed, and its page neither handed
out nor written since. -/
def FreedBlock (s₀ : Machine) (h : Nat) (b : HeapBlock) (st : HeapSys) : Prop :=
  ∃ s l m, HeapReached s₀ h ⟨s, l ++ b :: m⟩ ∧
    Relation.ReflTransGen (LeavingStep h (b.page s₀)) ⟨heapFree s b.ptr, l ++ m⟩ st

/-- `heap_free` of the block leaves the block list and the page bitmap as they
were. -/
structure FreeRejected (s₀ : Machine) (h : Nat) (b : HeapBlock) (st : HeapSys) : Prop where
  head : (heapFree st.machine b.ptr).blockHead h = st.machine.blockHead h
  list : ∀ v ∈ st.nodes h, ∀ f, (heapFree st.machine b.ptr).get v f = st.machine.get v f
  bitmap : ∀ page, page < s₀.pmmPageCount →
    (heapFree st.machine b.ptr).used page = st.machine.used page

/-- `heap_realloc` of the block returns `NULL` and changes nothing. -/
def ReallocRejected (h : Nat) (b : HeapBlock) (n : Nat) (st : HeapSys) : Prop :=
  heapRealloc st.machine h b.ptr n = some (0, st.machine)

/-- What the header of the block says is still so: its neighbours, where they
are in the list, are next to each other, and its pages are free. -/
structure HeaderUpToDate (h : Nat) (b : HeapBlock) (st : HeapSys) : Prop where
  prev : st.machine.get (headerOf b.ptr) .prev ∈ st.nodes h →
    st.machine.get (st.machine.get (headerOf b.ptr) .prev) .next =
      st.machine.get (headerOf b.ptr) .next
  next : st.machine.get (headerOf b.ptr) .next ∈ st.nodes h →
    st.machine.get (st.machine.get (headerOf b.ptr) .next) .prev =
      st.machine.get (headerOf b.ptr) .prev
  pages : ∀ page, (b.pages st.machine).has page → st.machine.used page = false

section Dead

variable {t s : Machine} {hp sp : Nat} {l m : List HeapBlock} {b : HeapBlock} {st st' : HeapSys}

/-- A freed block in a later state, with the state before it was freed: its
page is free and its header as it was then. -/
structure Kept (t : Machine) (hp sp : Nat) (s : Machine) (b : HeapBlock) (st : HeapSys) :
    Prop where
  inv : HeapInv t hp sp st.machine st.live
  free : st.machine.free (b.page t)
  header : ∀ x, x / 4096 = b.page t → st.machine.mem x = s.mem x

/--
**Just after `heap_free`** the page of the block is free, its header untouched:
what was written are the links of the neighbours, which are in other pages.
-/
theorem HeapInv.kept (hinv : HeapInv t hp sp s (l ++ b :: m)) :
    Kept t hp sp s b ⟨heapFree s b.ptr, l ++ m⟩ := by
  have hb : b ∈ l ++ b :: m := List.mem_append_right _ List.mem_cons_self
  have hlt := hinv.run_le (mem_heapRuns hp sp hb)
  have hpos := blockPages_pos (hinv.noWrap b hb)
  simp only [HeapBlock.run] at hlt
  have hfresh := page_fresh (List.nodup_cons.mp hinv.nodup).2
  have hrest := (nodes_sublist t sp l m b).subset
  obtain ⟨⟨A, hA, hprev⟩, C, hC, hnext⟩ := hinv.neighbours
  -- the neighbours are in other pages
  have hside : ∀ Q ∈ sp :: (l ++ m).map (HeapBlock.page t), ∀ x, x / 4096 = b.page t →
      ¬ s.links (t.pagePtr Q) x := by
    intro Q hQ x hx
    refine not_links_page hinv.layout (hinv.lt Q (List.mem_cons_of_mem _ (hrest hQ))) ?_
    rintro rfl
    rw [hx] at hQ
    exact hfresh hQ
  refine ⟨hinv.free, ?_, fun x hx => hinv.free_mem ?_ ?_ ?_⟩
  · exact (hinv.free_bits (by omega)).mpr (.inr ⟨Nat.le_refl _, Nat.lt_add_of_pos_right hpos⟩)
  · rw [headerOf_ptr (hinv.placed b hb), hprev]
    exact hside A hA x hx
  · rw [headerOf_ptr (hinv.placed b hb), hnext]
    exact hside C hC x hx
  · -- nor is a byte of the bitmap there
    rintro ⟨bit, hbit, heq⟩
    refine hinv.bit_ne hbit ?_
    rw [← heq, hx]
    exact mem_linkPages hp sp hb

/-- And nothing as long as the page is free. -/
theorem Kept.step (hkept : Kept t hp sp s b st) (hlt : b.page t < t.pmmPageCount)
    (hoff : OffBitmap t (4096 * b.page t)) (h : LeavingStep (t.pagePtr hp) (b.page t) st st') :
    Kept t hp sp s b st' := by
  obtain ⟨hstep, hfree⟩ := h
  have hbyte : ∀ {u : Machine} {x : Nat}, u.free (b.page t) → x / 4096 = b.page t →
      FreeByte t u x := by
    intro u x hu hx
    refine ⟨?_, ?_, ?_⟩ <;> rw [hx] <;> assumption
  refine ⟨hkept.inv.fitStep hstep, hfree, ?_⟩
  intro x hx
  rw [hkept.inv.step_mem hstep (hbyte hkept.free hx) (hbyte hfree hx), hkept.header x hx]

/-- A freed block with the heap before it was freed: the header and the pages
of the block are as they were then, by induction on the steps since. -/
theorem FreedBlock.kept {s₀ : Machine} {h : Nat} (hdead : FreedBlock s₀ h b st) :
    ∃ hp sp s l m, h = s₀.pagePtr hp ∧ HeapInv s₀ hp sp s (l ++ b :: m) ∧
      Kept s₀ hp sp s b st := by
  obtain ⟨s, l, m, hreached, hrun⟩ := hdead
  obtain ⟨hp, sp, rfl, hinv⟩ := hreached.inv
  have hb : b ∈ l ++ b :: m := List.mem_append_right _ List.mem_cons_self
  have hlt := hinv.run_le (mem_heapRuns hp sp hb)
  have hpos := blockPages_pos (hinv.noWrap b hb)
  simp only [HeapBlock.run] at hlt
  have hoff := hinv.off (mem_linkPages hp sp hb)
  refine ⟨hp, sp, s, l, m, rfl, hinv, ?_⟩
  -- on the steps since
  induction hrun with
  | refl => exact hinv.kept
  | tail _ hstep ih => exact ih.step (by omega) hoff hstep

-- ---------------------------------------------------------------------------
-- The second `heap_free`
-- ---------------------------------------------------------------------------

/-- The links that the second `heap_free` writes, from the first one's. -/
structure Stale (t : Machine) (hp sp : Nat) (b : HeapBlock) (st : HeapSys) (A C : Nat) :
    Prop where
  inv : HeapInv t hp sp st.machine st.live
  prev : st.machine.get (t.pagePtr (b.page t)) .prev = t.pagePtr A
  next : st.machine.get (t.pagePtr (b.page t)) .next = t.pagePtr C
  magic : st.machine.get (t.pagePtr (b.page t)) .magic = heapMagic
  size : st.machine.get (t.pagePtr (b.page t)) .size = b.size
  placed : b.ptr = u64 (t.pagePtr (b.page t) + 32)
  run_le : b.page t + blockPages b.size ≤ t.pmmPageCount
  pages : b.pages st.machine = b.run t
  sides : ∀ Q, Q = A ∨ Q = C → Q < 2 ^ 52 ∧ Q ≠ b.page t ∧ Q ≠ hp ∧ OffBitmap t (4096 * Q)

theorem Kept.get (hkept : Kept t hp sp s b st) (ht : SameLayout t s) (hlt : b.page t < 2 ^ 52)
    (f : BlockField) :
    st.machine.get (t.pagePtr (b.page t)) f = s.get (t.pagePtr (b.page t)) f :=
  get_congr ht hkept.inv.layout hlt (fun x hlo hhi => hkept.header x (by omega)) f

/--
**The header of a block that was freed.** As long as its page is neither handed
out nor written, it has its magic number, its size and the links to the
neighbours of that time; those were the sentinel or other blocks, in pages of
their own.
-/
theorem Kept.stale (hkept : Kept t hp sp s b st) (hinv : HeapInv t hp sp s (l ++ b :: m)) :
    ∃ A C, Stale t hp sp b st A C := by
  have hb : b ∈ l ++ b :: m := List.mem_append_right _ List.mem_cons_self
  have hPlink := mem_linkPages hp sp (t := t) hb
  have hPlt := hinv.lt _ hPlink
  have hP : b.page t ∈ sp :: (l ++ b :: m).map (HeapBlock.page t) :=
    List.mem_cons_of_mem _ (List.mem_map_of_mem hb)
  have hrest := (nodes_sublist t sp l m b).subset
  obtain ⟨hhp, hnodup⟩ := List.nodup_cons.mp hinv.nodup
  have hfresh := page_fresh hnodup
  obtain ⟨⟨A, hA, hprev⟩, C, hC, hnext⟩ := hinv.neighbours
  -- no step since has written into the header's page
  have hget := hkept.get hinv.layout hPlt
  have hlayout : s.hhdmOffset = st.machine.hhdmOffset := by
    rw [hinv.layout.hhdm, hkept.inv.layout.hhdm]
  refine ⟨A, C, hkept.inv, ?_, ?_, ?_, ?_, hinv.placed b hb, hinv.run_le (mem_heapRuns hp sp hb),
    ?_, ?_⟩
  · rw [hget, hprev]
  · rw [hget, hnext]
  · rw [hget, hinv.magic _ hP]
  · rw [hget, hinv.size b hb]
  · rw [← hinv.pages_run hb, HeapBlock.pages, HeapBlock.pages, Machine.physical, Machine.physical,
      hlayout]
  · -- the neighbours were the sentinel or other blocks
    have hside : ∀ Q ∈ sp :: (l ++ m).map (HeapBlock.page t),
        Q < 2 ^ 52 ∧ Q ≠ b.page t ∧ Q ≠ hp ∧ OffBitmap t (4096 * Q) := by
      intro Q hQ
      have hlink : Q ∈ linkPages t hp sp (l ++ b :: m) := List.mem_cons_of_mem _ (hrest hQ)
      exact ⟨hinv.lt Q hlink, fun heq => hfresh (heq ▸ hQ), fun heq => hhp (heq ▸ hrest hQ),
        hinv.off hlink⟩
    rintro Q (rfl | rfl)
    · exact hside _ hA
    · exact hside _ hC

variable {A C : Nat}

/-- The two links written by a free of a dead block: that of the old
predecessor and that of the old successor, as its header still names them. The
block itself need not be in the list. -/
theorem Stale.unlink (h : Stale t hp sp b st A C) :
    heapUnlink st.machine (t.pagePtr (b.page t)) = unlinkedMachine t st.machine A C ∧
      SameGlobals st.machine (unlinkedMachine t st.machine A C) ∧
      (unlinkedMachine t st.machine A C).blockHead (t.pagePtr hp) =
        st.machine.blockHead (t.pagePtr hp) ∧
      (∀ Q, Q < 2 ^ 52 → ∀ f, (unlinkedMachine t st.machine A C).get (t.pagePtr Q) f =
        if Q = A ∧ f = .next then t.pagePtr C
        else if Q = C ∧ f = .prev then t.pagePtr A
        else st.machine.get (t.pagePtr Q) f) ∧
      ∀ a, a / 4096 ≠ A → a / 4096 ≠ C →
        (unlinkedMachine t st.machine A C).mem a = st.machine.mem a := by
  have hpc := t.pageCount_lt
  have hle := h.run_le
  obtain ⟨hAlt, hAP, hAhp, -⟩ := h.sides A (.inl rfl)
  obtain ⟨hClt, -, hChp, -⟩ := h.sides C (.inr rfl)
  have hPlt : b.page t < 2 ^ 52 := by omega
  have hunlink := heapUnlink_eq h.inv.layout hAlt hPlt h.prev h.next hAP
  -- dead or live, the two links are written where the header says
  have hspec := heapUnlink_spec h.inv.layout (h.inv.lt hp List.mem_cons_self) hAlt hClt hPlt h.prev
    h.next hAP hAhp.symm hChp.symm
  rw [hunlink] at hspec
  exact ⟨hunlink, hspec⟩

/-- The second `heap_free` links the neighbours of that time and clears the
bits again. -/
theorem Stale.heapFree_eq (h : Stale t hp sp b st A C) :
    heapFree st.machine b.ptr =
      pmmFree (unlinkedMachine t st.machine A C) (4096 * b.page t) (blockPages b.size) := by
  have hpc := t.pageCount_lt
  have hle := h.run_le
  obtain ⟨-, hAP, -⟩ := h.sides A (.inl rfl)
  obtain ⟨-, hCP, -⟩ := h.sides C (.inr rfl)
  have hPlt : b.page t < 2 ^ 52 := by omega
  have hphys : st.machine.physical (t.pagePtr (b.page t)) = 4096 * b.page t :=
    physical_pagePtr_add h.inv.layout hPlt (k := 0) (by decide)
  obtain ⟨hunlink, hglob, -, hget, -⟩ := h.unlink
  -- the block's own size field is kept
  have hsize : (unlinkedMachine t st.machine A C).get (t.pagePtr (b.page t)) .size = b.size := by
    rw [hget _ hPlt, if_neg fun hQ => hAP hQ.1.symm, if_neg fun hQ => hCP hQ.1.symm, h.size]
  unfold heapFree
  simp only [headerOf_ptr h.placed]
  rw [if_neg (not_not.mpr h.magic), hunlink, hsize, hglob.physical, hphys]

/-- Clearing the bits writes no page of the list. -/
theorem Stale.clear_mem (h : Stale t hp sp b st A C) {x : Nat}
    (hx : x / 4096 ∈ linkPages t hp sp st.live) :
    (heapFree st.machine b.ptr).mem x = (unlinkedMachine t st.machine A C).mem x := by
  have hpc := t.pageCount_lt
  have hle := h.run_le
  have hpage : 4096 * b.page t / pageSize = b.page t := Nat.mul_div_cancel_left _ (by decide)
  obtain ⟨-, hglob, -⟩ := h.unlink
  have hlayout := h.inv.layout.trans hglob.toSameLayout
  rw [h.heapFree_eq]
  refine pmmFree_mem (by rw [hpage]; omega) ?_
  intro i hi heq
  rw [hpage, hlayout.bitmapByte] at heq
  refine h.inv.bit_ne (show b.page t + i < t.pmmPageCount by omega) ?_
  rwa [← heq]

/-- So the links of the list are those of the unlinking, -/
theorem Stale.get (h : Stale t hp sp b st A C) {Q : Nat} (hQ : Q ∈ linkPages t hp sp st.live)
    (f : BlockField) :
    (heapFree st.machine b.ptr).get (t.pagePtr Q) f =
      if Q = A ∧ f = .next then t.pagePtr C
      else if Q = C ∧ f = .prev then t.pagePtr A
      else st.machine.get (t.pagePtr Q) f := by
  obtain ⟨-, hglob, -, hget, -⟩ := h.unlink
  have hlayout := h.inv.layout.trans hglob.toSameLayout
  have hlayout' := h.inv.layout.trans (sameGlobals_heapFree st.machine b.ptr).toSameLayout
  rw [← hget Q (h.inv.lt Q hQ) f]
  refine get_congr hlayout hlayout' (h.inv.lt Q hQ) (fun x hlo hhi => h.clear_mem ?_) f
  rwa [show x / 4096 = Q by omega]

/-- the heap's pointer to it stays, -/
theorem Stale.head (h : Stale t hp sp b st A C) :
    (heapFree st.machine b.ptr).blockHead (t.pagePtr hp) =
      st.machine.blockHead (t.pagePtr hp) := by
  have hhp : hp ∈ linkPages t hp sp st.live := List.mem_cons_self
  obtain ⟨-, hglob, hhead, -⟩ := h.unlink
  have hlayout := h.inv.layout.trans hglob.toSameLayout
  have hlayout' := h.inv.layout.trans (sameGlobals_heapFree st.machine b.ptr).toSameLayout
  rw [← hhead]
  refine blockHead_congr hlayout hlayout' (h.inv.lt hp hhp) fun x hlo hhi => h.clear_mem ?_
  rwa [show x / 4096 = hp by omega]

/--
**The bits after a second `heap_free`**: the pages of the block are cleared
once more, whoever has them by then.
-/
theorem Stale.bits (h : Stale t hp sp b st A C) {page : Nat} (hpage : page < t.pmmPageCount) :
    (heapFree st.machine b.ptr).free page ↔ st.machine.free page ∨ (b.run t).has page := by
  have hpc := t.pageCount_lt
  have hle := h.run_le
  have hfirst : 4096 * b.page t / pageSize = b.page t := Nat.mul_div_cancel_left _ (by decide)
  obtain ⟨-, -, -, hAoff⟩ := h.sides A (.inl rfl)
  obtain ⟨-, -, -, hCoff⟩ := h.sides C (.inr rfl)
  obtain ⟨-, hglob, -, -, hmem⟩ := h.unlink
  -- the neighbours of that time hold no byte of the bitmap
  have hbit : (unlinkedMachine t st.machine A C).used page = st.machine.used page := by
    refine used_congr hglob.toSameLayout ?_
    rw [h.inv.layout.bitmapByte]
    refine hmem _ (fun heq => hAoff page hpage ?_) (fun heq => hCoff page hpage ?_)
    · omega
    · omega
  rw [h.heapFree_eq, free_pmmFree _ (by rw [hfirst]; omega) (by omega), hfirst, Machine.free, hbit]
  rfl

-- ---------------------------------------------------------------------------
-- When it changes nothing
-- ---------------------------------------------------------------------------

/-- The nodes of the list by pages. -/
theorem HeapInv.node_iff (hinv : HeapInv t hp sp st.machine st.live) {Q : Nat} (hQ : Q < 2 ^ 52) :
    t.pagePtr Q ∈ st.nodes (t.pagePtr hp) ↔ Q ∈ sp :: st.live.map (HeapBlock.page t) := by
  rw [hinv.nodes]
  constructor
  · intro hmem
    obtain ⟨P, hP, heq⟩ := exists_page (sp :: st.live.map (HeapBlock.page t)) hmem
    rwa [pagePtr_inj t hQ (hinv.lt P (List.mem_cons_of_mem _ hP)) heq]
  · exact List.mem_map_of_mem

/--
**When a second `heap_free` does no harm.** It writes one link into each of the
two neighbours of that time and clears the bits of the pages. Nothing of the
heap changes exactly when the links are there already, as far as the neighbours
are in the list, and the bits are clear.
-/
theorem Stale.rejected_iff (h : Stale t hp sp b st A C) :
    FreeRejected t (t.pagePtr hp) b st ↔ HeaderUpToDate (t.pagePtr hp) b st := by
  have hheader := headerOf_ptr h.placed
  have hrun := h.run_le
  obtain ⟨hAlt, -⟩ := h.sides A (.inl rfl)
  obtain ⟨hClt, -⟩ := h.sides C (.inr rfl)
  constructor
  · intro hrej
    refine ⟨?_, ?_, ?_⟩
    · -- the link written in `A` was there
      rw [hheader, h.prev, h.next]
      intro hA
      have hget := hrej.list _ hA .next
      have hA' := List.mem_cons_of_mem hp ((h.inv.node_iff hAlt).mp hA)
      rw [h.get hA', if_pos ⟨rfl, rfl⟩] at hget
      exact hget.symm
    · -- and the one written in `C`
      rw [hheader, h.prev, h.next]
      intro hC
      have hget := hrej.list _ hC .prev
      have hC' := List.mem_cons_of_mem hp ((h.inv.node_iff hClt).mp hC)
      rw [h.get hC', if_neg (by simp), if_pos ⟨rfl, rfl⟩] at hget
      exact hget.symm
    · -- a bit that is cleared was clear
      intro page hpage
      rw [h.pages] at hpage
      have hlt : page < t.pmmPageCount := by
        have := hpage.2
        simp only [HeapBlock.run] at this
        omega
      rw [← hrej.bitmap page hlt]
      exact (h.bits hlt).mpr (.inr hpage)
  · intro hup
    obtain ⟨hprev, hnext, hpages⟩ := hup
    rw [hheader, h.prev, h.next] at hprev hnext
    refine ⟨h.head, ?_, ?_⟩
    · -- no link of the list changes
      intro v hv f
      rw [h.inv.nodes] at hv
      obtain ⟨Q, hQ, rfl⟩ := exists_page (sp :: st.live.map (HeapBlock.page t)) hv
      have hQlt := h.inv.lt Q (List.mem_cons_of_mem _ hQ)
      have hnode := (h.inv.node_iff hQlt).mpr hQ
      rw [h.get (List.mem_cons_of_mem _ hQ)]
      split
      · rename_i hA
        obtain ⟨rfl, rfl⟩ := hA
        exact (hprev hnode).symm
      · split
        · rename_i hC
          obtain ⟨rfl, rfl⟩ := hC
          exact (hnext hnode).symm
        · rfl
    · -- and no bit
      intro page hpage
      have hbits := h.bits hpage
      rw [← h.pages] at hbits
      have hiff : (heapFree st.machine b.ptr).free page ↔ st.machine.free page :=
        hbits.trans ⟨fun hor => hor.elim id (hpages page), .inl⟩
      unfold Machine.free at hiff
      exact Bool.eq_iff_iff.mpr (by simpa using not_congr hiff)

end Dead

/-- **When a dead block is rejected.** For every run of the heap, and every
block that has been freed and whose page was neither handed out nor written
since, `heap_free` of its pointer leaves the block list and the bitmap as they
are if and only if what its header says is still so, and `heap_realloc` of it
never returns `NULL` without a change. -/
theorem heap_free_dead_iff {s₀ : Machine} {h : Nat} {b : HeapBlock} {st : HeapSys}
    (hdead : FreedBlock s₀ h b st) :
    (FreeRejected s₀ h b st ↔ HeaderUpToDate h b st) ∧ ∀ n, ¬ ReallocRejected h b n st := by
  obtain ⟨hp, sp, s, l, m, rfl, hinv, hkept⟩ := hdead.kept
  obtain ⟨A, C, hstale⟩ := hkept.stale hinv
  refine ⟨hstale.rejected_iff, ?_⟩
  intro n hrej
  -- the magic number is still there
  have haligned : st.machine.hhdmOffset % 4096 = 0 := by
    rw [hstale.inv.layout.hhdm]
    exact hstale.inv.aligned
  have hmagic := hstale.magic
  rw [← headerOf_ptr hstale.placed] at hmagic
  exact heapRealloc_ne_zero haligned hmagic hrej rfl

section Pair

variable {t s u : Machine} {hp sp : Nat} {a b : HeapBlock}

/-- Two blocks freed in the order of their allocation. The second free writes
no byte of the first block's page, so the header there is out of date
afterwards. -/
theorem HeapInv.free_pair (hinv : HeapInv t hp sp s ([] ++ a :: [b])) :
    LeavingStep (t.pagePtr hp) (a.page t) ⟨heapFree s a.ptr, [] ++ [b]⟩
      ⟨heapFree (heapFree s a.ptr) b.ptr, []⟩ ∧
    Kept t hp sp s a ⟨heapFree (heapFree s a.ptr) b.ptr, []⟩ := by
  have ha : a ∈ [] ++ a :: [b] := List.mem_cons_self
  have hle := hinv.run_le (mem_heapRuns hp sp ha)
  have hpos := blockPages_pos (hinv.noWrap a ha)
  simp only [HeapBlock.run] at hle
  have hkept := hinv.kept
  have hinv₁ : HeapInv t hp sp (heapFree s a.ptr) ([] ++ b :: []) := hkept.inv
  have hfree : (heapFree (heapFree s a.ptr) b.ptr).free (a.page t) :=
    (hinv₁.free_bits (by omega)).mpr (.inl hkept.free)
  have hfit : FitStep (t.pagePtr hp) ⟨heapFree s a.ptr, [] ++ b :: []⟩
      ⟨heapFree (heapFree s a.ptr) b.ptr, [] ++ []⟩ := .step .free
  have hstep := LeavingStep.of_free hfit hfree
  exact ⟨hstep, hkept.step (by omega) (hinv.off (mem_linkPages hp sp ha)) hstep⟩

/--
**Two blocks, the first freed, then the second**: freeing the first once more
links the sentinel to the second, which is not in the list any more.
-/
theorem Kept.out_of_date (hkept : Kept t hp sp s a ⟨u, []⟩)
    (hinv : HeapInv t hp sp s ([] ++ a :: [b])) : ¬ FreeRejected t (t.pagePtr hp) a ⟨u, []⟩ := by
  intro hrej
  have ha : a ∈ [] ++ a :: [b] := List.mem_cons_self
  have hb : b ∈ [] ++ a :: [b] := List.mem_cons_of_mem _ List.mem_cons_self
  have hsp : sp ∈ linkPages t hp sp ([] ++ a :: [b]) :=
    List.mem_cons_of_mem _ List.mem_cons_self
  have hsplt := hinv.lt sp hsp
  obtain ⟨A, C, hstale⟩ := hkept.stale hinv
  have hup := (hstale.rejected_iff.mp hrej).prev
  -- the links of the first block are those to the sentinel and the second one
  have hring := hinv.ring
  have hget := hkept.get hinv.layout (hinv.lt _ (mem_linkPages hp sp ha))
  have hprev : s.get (t.pagePtr (a.page t)) .prev = t.pagePtr sp :=
    (Option.some.inj (LinkedRing.prev_eq (l := []) hring)).symm
  have hnext : s.get (t.pagePtr (a.page t)) .next = t.pagePtr (b.page t) :=
    (Option.some.inj (LinkedRing.next_eq (l := []) hring)).symm
  rw [headerOf_ptr (hinv.placed a ha), hget, hget, hprev, hnext] at hup
  -- but the sentinel is alone in the list now
  have halone : u.get (t.pagePtr sp) .next = t.pagePtr sp :=
    (LinkedRing.single.mp hkept.inv.ring).1
  have hnode := (hkept.inv.node_iff hsplt).mpr List.mem_cons_self
  have hsame : t.pagePtr sp = t.pagePtr (b.page t) := halone.symm.trans (hup hnode)
  have heq := pagePtr_inj t hsplt (hinv.lt _ (mem_linkPages hp sp hb)) hsame
  refine (List.nodup_cons.mp (List.nodup_cons.mp hinv.nodup).2).1 ?_
  rw [heq]
  exact List.mem_map_of_mem hb

end Pair

/-- So the first block is not rejected. -/
theorem HeapReached.out_of_date {s₀ u : Machine} {h : Nat} {a b : HeapBlock}
    (hst : HeapReached s₀ h ⟨u, [] ++ a :: [b]⟩) :
    ∃ st, FreedBlock s₀ h a st ∧ ¬ FreeRejected s₀ h a st := by
  obtain ⟨hp, sp, rfl, hinv⟩ := hst.inv
  obtain ⟨hstep, hkept⟩ := hinv.free_pair
  exact ⟨_, ⟨u, [], [b], hst, Relation.ReflTransGen.single hstep⟩, hkept.out_of_date hinv⟩

/-- A heap with two blocks of 100 bytes. -/
theorem roomyPair : ∃ h u a b, HeapReached roomyMachine h ⟨u, [a, b]⟩ := by
  obtain ⟨hp, sp, s, hcreate, hinv, hroom⟩ := roomyHeap
  obtain ⟨ptr, u, hfree, halloc, hinv₁, hroom₁⟩ :=
    hinv.roomy_alloc (n := 100) (k := 1) (by decide) (hroom.mono (by decide))
  obtain ⟨ptr', u', hfree', halloc', -, -⟩ :=
    hinv₁.roomy_alloc (n := 100) (k := 0) (by decide) (hroom₁.mono (by decide))
  have hrun : FitRun (roomyMachine.pagePtr hp) s ⟨u', [] ++ [⟨ptr, 100⟩] ++ [⟨ptr', 100⟩]⟩ :=
    .tail (.single (.step (.alloc (by decide) hfree halloc)))
      (.step (.alloc (by decide) hfree' halloc'))
  exact ⟨_, u', ⟨ptr, 100⟩, ⟨ptr', 100⟩, by decide, by decide, s, hcreate, hrun⟩

/-- A heap of two blocks, with the first one freed: its header still names the
sentinel and the second block, which are neighbours now. -/
theorem heap_free_dead_iff_roomy :
    ∃ h b st, FreedBlock roomyMachine h b st ∧
      (FreeRejected roomyMachine h b st ↔ HeaderUpToDate h b st) ∧
        ∀ n, ¬ ReallocRejected h b n st := by
  obtain ⟨h, u, a, b, hst⟩ := roomyPair
  have hdead : FreedBlock roomyMachine h a ⟨heapFree u a.ptr, [] ++ [b]⟩ :=
    ⟨u, [], [b], hst, .refl⟩
  exact ⟨h, a, _, hdead, heap_free_dead_iff hdead⟩

/-- The first of two blocks freed twice: the sentinel ends up linked with the
second one, which is free. -/
theorem heap_free_dead_not_rejected :
    ¬ ∀ (s₀ : Machine) (h : Nat) (b : HeapBlock) (st : HeapSys), FreedBlock s₀ h b st →
      FreeRejected s₀ h b st ∧ ∀ n, ReallocRejected h b n st := by
  intro hall
  obtain ⟨h, u, a, b, hst⟩ := roomyPair
  obtain ⟨st, hdead, hnot⟩ := hst.out_of_date
  exact hnot (hall roomyMachine h a st hdead).1

end Medlar64
