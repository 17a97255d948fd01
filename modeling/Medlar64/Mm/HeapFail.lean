import Medlar64.Mm.HeapRealloc

/-!
# Medlar64 — the heap when memory is exhausted

`heap_alloc` does not look at what `pmm_alloc` returns: `NULL` goes through
`HIGHER_HALF` like any page, so physical page 0 becomes a block of the list and
the pointer returned is not `NULL`.

* `AllocFails`, `ReallocFails` — what the two functions are meant to do then.
* `HeapInv.alloc_null` — what `heap_alloc` does.
* `heap_fails_never` — neither ever fails so, in no heap and for no size.
-/

namespace Medlar64

/-- `heap_alloc(h, n)` returns `NULL` and leaves all memory, the block list in
it, as it was. -/
def AllocFails (s : Machine) (h n : Nat) : Prop :=
  ∃ s', heapAlloc s h n = some (0, s') ∧ s'.mem = s.mem

/-- `heap_realloc(h, ptr, n)` of the block `b` returns `NULL`; the block stays
in the list with its contents and its pages. -/
def ReallocFails (s₀ : Machine) (h : Nat) (st : HeapSys) (b : HeapBlock) (n : Nat) : Prop :=
  ∃ s', heapRealloc st.machine h b.ptr n = some (0, s') ∧ HeapOk s₀ h ⟨s', st.live⟩ ∧
    (∀ k, k < b.size → s'.read8 (b.ptr + k) = st.machine.read8 (b.ptr + k)) ∧
    ∀ page, (b.pages st.machine).has page → s'.used page = true

section Fail

variable {t s s₁ : Machine} {hp sp n : Nat} {live : List HeapBlock} {b : HeapBlock}

/-- Page 0 is in use, so no block of the list is there. -/
theorem HeapInv.zero_fresh (hinv : HeapInv t hp sp s live) : 0 ∉ linkPages t hp sp live := by
  intro hP
  obtain ⟨r, hr, -, hhas⟩ := hinv.exists_run hP
  -- the pages of the heap were free at the start
  exact not_free.mpr hinv.zero (hinv.accounted.owned r hr 0 hhas).2

/-- **`heap_alloc` without pages** makes a block of physical page 0, which it
does not own. -/
theorem HeapInv.alloc_null (hinv : HeapInv t hp sp s live) (hn : n < 2 ^ 64)
    (hnull : pmmAlloc s (blockPages n) = some (0, s₁)) :
    ∃ ptr s', heapAlloc s (t.pagePtr hp) n = some (ptr, s') ∧
      ptr = u64 (t.pagePtr 0 + sizeofBlock) ∧ SameLayout t s' ∧
      HeapList t hp sp s' (live ++ [⟨ptr, n⟩]) := by
  obtain ⟨l, rfl⟩ := pmmAlloc_null hnull hinv.used_zero
  have hlayout := hinv.layout.trans (sameLayout_setLastPage s l)
  -- the search has moved the cursor only
  have hlist : HeapList t hp sp (s.setLastPage l) live :=
    hinv.toHeapList.congr hinv.layout hlayout hinv.lt fun _ _ _ _ _ => rfl
  obtain ⟨ptr, s', hlink, hptr, hglob, hlist', -⟩ :=
    hlist.link hlayout hinv.lt hinv.nodup (P := 0) (by decide) hinv.zero_fresh hn
  refine ⟨ptr, s', ?_, hptr, hlayout.trans hglob.toSameLayout, hlist'⟩
  unfold heapAlloc
  rw [hnull, ← hlink]
  rfl

/-- The new last block is in the sentinel's link, where another one was. Page 0
is no page of the heap, so the word has changed. -/
theorem HeapInv.mem_ne_of_alloc_null {s' : Machine} {ptr : Nat} (hinv : HeapInv t hp sp s live)
    (hptr : ptr = u64 (t.pagePtr 0 + sizeofBlock)) (hlayout : SameLayout t s')
    (hlist : HeapList t hp sp s' (live ++ [⟨ptr, n⟩])) : s'.mem ≠ s.mem := by
  intro hmem
  have hsp := hinv.lt sp (List.mem_cons_of_mem _ List.mem_cons_self)
  obtain ⟨L, hL, hlast⟩ :=
    exists_page (sp :: live.map (HeapBlock.page t)) hinv.ring.prev_base_mem
  have hpage : HeapBlock.page t ⟨ptr, n⟩ = 0 := page_ptr (by decide) hptr
  -- the ring of `s'` ends in page 0
  have hring := hlist.ring
  rw [List.map_append, List.map_append, List.map_singleton, List.map_singleton, hpage] at hring
  have hnext : s'.get (t.pagePtr 0) .next = t.pagePtr sp := (Option.some.inj hring.next_eq).symm
  have hlast' : s'.get (s'.get (t.pagePtr 0) .next) .prev = t.pagePtr 0 :=
    (hring.inverse (List.mem_cons_of_mem _ (List.mem_append_right _ List.mem_cons_self))).1
  have hsame : s'.get (t.pagePtr sp) .prev = s.get (t.pagePtr sp) .prev := by
    rw [get_pagePtr hinv.layout hsp, get_pagePtr hlayout hsp, hmem]
  rw [hnext, hsame, hlast] at hlast'
  have hzero := pagePtr_inj t (hinv.lt L (List.mem_cons_of_mem _ hL)) (by decide) hlast'
  exact hinv.zero_fresh (hzero ▸ List.mem_cons_of_mem _ hL)

/-- **No heap fails cleanly.** In every state that a heap reaches and for every
size for which `pmm_alloc` returns `NULL`, `heap_alloc` returns another pointer
and changes the block list, and `heap_realloc` of a live block does not return
`NULL`. -/
theorem heap_fails_never {s₀ s₁ : Machine} {h n : Nat} {st : HeapSys}
    (hst : HeapReached s₀ h st) (hn : n < 2 ^ 64)
    (hnull : pmmAlloc st.machine (blockPages n) = some (0, s₁)) :
    (∃ ptr s', heapAlloc st.machine h n = some (ptr, s') ∧ ptr ≠ 0 ∧ s'.mem ≠ st.machine.mem) ∧
      ¬ AllocFails st.machine h n ∧ ∀ b ∈ st.live, ¬ ReallocFails s₀ h st b n := by
  obtain ⟨hp, sp, rfl, hinv⟩ := hst.inv
  have haligned : st.machine.hhdmOffset % 4096 = 0 := by
    rw [hinv.layout.hhdm]
    exact hinv.aligned
  obtain ⟨ptr, s', halloc, hptr, hlayout, hlist⟩ := hinv.alloc_null hn hnull
  have hmem := hinv.mem_ne_of_alloc_null hptr hlayout hlist
  refine ⟨⟨ptr, s', halloc, heapAlloc_ne_zero haligned halloc, hmem⟩, ?_, ?_⟩
  · -- `heap_alloc`
    rintro ⟨u, hfails, -⟩
    exact heapAlloc_ne_zero haligned hfails rfl
  · -- `heap_realloc`
    rintro b hb ⟨u, hfails, -⟩
    have hmagic := hinv.magic _ (List.mem_cons_of_mem sp (List.mem_map_of_mem hb))
    rw [← headerOf_ptr (hinv.placed b hb)] at hmagic
    exact heapRealloc_ne_zero haligned hmagic hfails rfl

end Fail

/-- A heap with one block of 100 bytes, and a request of 100000 bytes, for which
there are not as many pages as it needs. -/
theorem roomyNull : ∃ h u b s₁, HeapReached roomyMachine h ⟨u, [b]⟩ ∧ b.size = 100 ∧
    pmmAlloc u (blockPages 100000) = some (0, s₁) := by
  obtain ⟨hp, s, u, b, hcreate, hrun, hsize, hlayout, hroom⟩ :=
    roomyBlock 100 0 (by decide) (by decide)
  have hcount : u.pmmPageCount < blockPages 100000 := by
    rw [hlayout.pageCount, blockPages_eq (by decide)]
    decide
  exact ⟨_, u, b, _, ⟨by decide, by decide, s, hcreate, fitRun_of_heapRun hrun⟩, hsize,
    hroom.alloc_null hcount⟩

/-- In a heap that holds one block of 100 bytes, a request of 100000 bytes for
which `pmm_alloc` returns `NULL`: `heap_alloc` returns another pointer and writes
to memory, and `heap_realloc` of the block to that size does not return `NULL`. -/
theorem heap_fails_never_roomy :
    ∃ h u b s₁, HeapReached roomyMachine h ⟨u, [b]⟩ ∧ b.size = 100 ∧
      pmmAlloc u (blockPages 100000) = some (0, s₁) ∧
      (∃ ptr s', heapAlloc u h 100000 = some (ptr, s') ∧ ptr ≠ 0 ∧ s'.mem ≠ u.mem) ∧
      ¬ AllocFails u h 100000 ∧ ¬ ReallocFails roomyMachine h ⟨u, [b]⟩ b 100000 := by
  obtain ⟨h, u, b, s₁, hst, hsize, hnull⟩ := roomyNull
  obtain ⟨hreturns, halloc, hrealloc⟩ := heap_fails_never hst (by decide) hnull
  exact ⟨h, u, b, s₁, hst, hsize, hnull, hreturns, halloc, hrealloc b List.mem_cons_self⟩

/-- That request returns a pointer: 32 bytes behind the address that
`HIGHER_HALF` makes of `NULL`, in page 0. -/
theorem heap_not_fails :
    ¬ ∀ (s₀ s₁ : Machine) (h n : Nat) (st : HeapSys), HeapReached s₀ h st → n < 2 ^ 64 →
      pmmAlloc st.machine (blockPages n) = some (0, s₁) →
      AllocFails st.machine h n ∧ ∀ b ∈ st.live, ReallocFails s₀ h st b n := by
  intro hall
  obtain ⟨h, u, b, s₁, hst, -, hnull⟩ := roomyNull
  obtain ⟨hp, sp, -, hinv⟩ := hst.inv
  have haligned : u.hhdmOffset % 4096 = 0 := by
    rw [hinv.layout.hhdm]
    decide
  obtain ⟨⟨u', hfails, -⟩, -⟩ := hall _ _ _ _ _ hst (by decide) hnull
  exact heapAlloc_ne_zero haligned hfails rfl

end Medlar64
