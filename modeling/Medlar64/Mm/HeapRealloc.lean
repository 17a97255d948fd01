import Medlar64.Mm.HeapFrame

/-!
# Medlar64 — what `heap_realloc` copies

`heap_realloc` copies as many bytes as the old block has, whatever the size of
the new one.

* `ReallocOk` — the new block in place of the old one, with its data, and
  nothing else written.
* `HeapInv.copy_data` — the bytes that a copy inside the new pages carries
  over.
* `HeapInv.fit_of_copy` — a copy that stays inside the new pages shows that the
  old bytes fit.
* `heap_realloc_ok_iff` — `heap_realloc` does so if and only if the old bytes
  fit into the pages of the new block.
-/

namespace Medlar64

/-- The pages of a block. -/
def HeapBlock.pages (s : Machine) (b : HeapBlock) : SlotRun :=
  ⟨s.physical (headerOf b.ptr) / 4096, (sizeofBlock + b.size + 4095) / 4096⟩

/-- `heap_realloc` of the block `b` between `l` and `m` to `n` bytes has
returned `ptr` and led from `s` to `s'`, as it is meant to. -/
structure ReallocOk (s₀ : Machine) (h : Nat) (s : Machine) (l m : List HeapBlock) (b : HeapBlock)
    (n ptr : Nat) (s' : Machine) : Prop where
  /-- The old block is unlinked and the new one live. -/
  heap : HeapOk s₀ h ⟨s', l ++ m ++ [⟨ptr, n⟩]⟩
  data : ∀ k, k < b.size → k < n → s'.read8 (ptr + k) = s.read8 (b.ptr + k)
  freed : ∀ page, (b.pages s).has page → s'.used page = false
  /-- Nothing is written but the new block's pages, the bitmap and the links of
  the neighbours. -/
  frame : ∀ x, ¬ (HeapBlock.pages s' ⟨ptr, n⟩).has (x / 4096) → ¬ s.inBitmap x →
    (∀ v ∈ [s.blockHead h, s.get (s.blockHead h) .prev, s.get (headerOf b.ptr) .prev,
      s.get (headerOf b.ptr) .next], ¬ s.links v x) → s'.mem x = s.mem x
  /-- The copy stays inside the new block's pages. -/
  copy : ∀ k, k < b.size →
    (HeapBlock.pages s' ⟨ptr, n⟩).has (s.physical (ptr + k) / 4096)

section Realloc

variable {t s s' : Machine} {hp sp n ptr : Nat} {live l m : List HeapBlock} {b c : HeapBlock}

/-- The pages of a block as its header and size give them are its run. -/
theorem HeapInv.pages_run (hinv : HeapInv t hp sp s live) (hb : b ∈ live) :
    b.pages s = b.run t := by
  have hheader := headerOf_ptr (hinv.placed b hb)
  have hphys : s.physical (t.pagePtr (b.page t)) = 4096 * b.page t :=
    physical_pagePtr_add hinv.layout (hinv.lt _ (mem_linkPages hp sp hb)) (k := 0) (by decide)
  rw [HeapBlock.pages, hheader, hphys, Nat.mul_div_cancel_left _ (by decide), HeapBlock.run,
    blockPages_eq (hinv.noWrap b hb)]

theorem inBitmap_congr (h : SameLayout s s') {x : Nat} : s'.inBitmap x ↔ s.inBitmap x := by
  unfold Machine.inBitmap
  simp only [h.pageCount, h.bitmapByte]

/-- The bytes of a block start 32 bytes into its first page. -/
theorem ptr_eq (ht : SameLayout t s) {P : Nat} (h : ptr = u64 (t.pagePtr P + 32)) :
    ptr = s.higherHalf (4096 * P + 32) := by
  rw [h, ht.higherHalf]
  unfold Machine.pagePtr Machine.higherHalf u64
  omega

/--
**The copy carries the bytes over.** Source and target are blocks with disjoint
pages, and the copy stays inside those of the target; so the two ranges do not
overlap, and every byte arrives.
-/
theorem HeapInv.copy_data (hinv : HeapInv t hp sp s live) (hb : b ∈ live) (hc : c ∈ live)
    (hapart : (b.run t).Apart (c.run t)) (hfit : sizeofBlock + b.size ≤ 4096 * blockPages c.size)
    {k : Nat} (hk : k < b.size) :
    (memcpy s c.ptr b.ptr b.size).mem (t.physical (c.ptr + k)) =
      s.mem (t.physical (b.ptr + k)) := by
  have hpc := t.pageCount_lt
  have hfit' := le_blockPages (hinv.noWrap b hb)
  have hrunB := hinv.run_le (mem_heapRuns hp sp hb)
  have hrunC := hinv.run_le (mem_heapRuns hp sp hc)
  -- the two runs lie one behind the other, so source and target do not overlap
  have hle :=
    apart_le hapart (blockPages_pos (hinv.noWrap b hb)) (blockPages_pos (hinv.noWrap c hc))
  simp only [HeapBlock.run] at hrunB hrunC hle
  unfold sizeofBlock at hfit hfit'
  have hmem := memcpy_mem s (d := 4096 * c.page t + 32) (p := 4096 * b.page t + 32) (n := b.size)
    (by omega) (by omega) (by omega) (4096 * c.page t + 32 + k)
  rw [← ptr_eq hinv.layout (hinv.placed c hc), ← ptr_eq hinv.layout (hinv.placed b hb),
    if_pos ⟨by omega, by omega⟩, Nat.add_sub_cancel_left] at hmem
  rw [physical_ptr (hinv.placed c hc) (by omega), physical_ptr (hinv.placed b hb) (by omega)]
  exact hmem

/-- A byte of a client is in no link of the list. -/
theorem HeapInv.not_links (hinv : HeapInv t hp sp s live) (hb : b ∈ live) {k Q : Nat}
    (hk : k < b.size) (hQ : Q ∈ linkPages t hp sp live) :
    ¬ s.links (t.pagePtr Q) (t.physical (b.ptr + k)) := by
  have hphys : s.physical (t.pagePtr Q) = 4096 * Q :=
    physical_pagePtr_add hinv.layout (hinv.lt Q hQ) (k := 0) (by decide)
  have hout := (hinv.payload hb hk).1 Q hQ
  rintro ⟨hlo, hhi⟩
  rw [hphys] at hlo hhi
  omega

theorem HeapInv.not_bits (hinv : HeapInv t hp sp s live) (hb : b ∈ live) {k : Nat}
    (hk : k < b.size) : ¬ t.inBitmap (t.physical (b.ptr + k)) := by
  rintro ⟨bit, hbit, heq⟩
  exact (hinv.payload hb hk).2 bit hbit heq.symm

/-- A byte of a client in the list before and after a free. -/
theorem HeapInv.free_data (hinv : HeapInv t hp sp s (l ++ b :: m)) (hc : c ∈ l ++ b :: m)
    {k : Nat} (hk : k < c.size) :
    (heapFree s b.ptr).mem (t.physical (c.ptr + k)) = s.mem (t.physical (c.ptr + k)) := by
  have hrest := (nodes_sublist t sp l m b).subset
  have hb : b ∈ l ++ b :: m := List.mem_append_right _ List.mem_cons_self
  obtain ⟨⟨A, hA, hprev⟩, C, hC, hnext⟩ := hinv.neighbours
  refine hinv.free_mem ?_ ?_ (hinv.not_bits hc hk)
  · rw [headerOf_ptr (hinv.placed b hb), hprev]
    exact hinv.not_links hc hk (List.mem_cons_of_mem _ (hrest hA))
  · rw [headerOf_ptr (hinv.placed b hb), hnext]
    exact hinv.not_links hc hk (List.mem_cons_of_mem _ (hrest hC))

/-- And before and after an allocation, which writes the header of the new
block, two links and bits of the bitmap. -/
theorem HeapInv.alloc_data (hinv : HeapInv t hp sp s live)
    (hn : sizeofBlock + n + 4095 < 2 ^ 64) (hfree : AllocsFree s (blockPages n))
    (h : heapAlloc s (t.pagePtr hp) n = some (ptr, s'))
    (hb : b ∈ live) {k : Nat} (hk : k < b.size) :
    s'.mem (t.physical (b.ptr + k)) = s.mem (t.physical (b.ptr + k)) := by
  have hfit := le_blockPages (hinv.noWrap b hb)
  obtain ⟨L, hL, hlast⟩ :=
    exists_page (sp :: live.map (HeapBlock.page t)) hinv.ring.prev_base_mem
  refine hinv.alloc_mem hn hfree h ?_ ?_ ?_ (hinv.not_bits hb hk)
  · -- the new header is in a page that was free
    intro heq
    have hown := (hinv.own_page hb (k := k) (by omega)).2
    refine hinv.alloc_apart hn hfree h (mem_heapRuns hp sp hb) _ ⟨hown, ?_⟩
    rw [heq]
    exact ⟨Nat.le_refl _, Nat.lt_add_of_pos_right (blockPages_pos hn)⟩
  · exact hinv.not_links hb hk (List.mem_cons_of_mem _ List.mem_cons_self)
  · rw [hlast]
    exact hinv.not_links hb hk (List.mem_cons_of_mem _ hL)

/-- A copy leaves the other blocks alone, and the one it is made from: with
room for it in the new pages, `heap_realloc` copies the data, frees the old
pages and writes nowhere else. The new block is apart from the old one, as its
pages were free before. -/
theorem HeapInv.realloc_ok (hinv : HeapInv t hp sp s (l ++ b :: m))
    (hn : sizeofBlock + n + 4095 < 2 ^ 64) (hfit : sizeofBlock + b.size ≤ 4096 * blockPages n)
    (hfree : AllocsFree s (blockPages n)) :
    ∃ ptr s', heapRealloc s (t.pagePtr hp) b.ptr n = some (ptr, s') ∧
      ReallocOk t (t.pagePtr hp) s l m b n ptr s' := by
  obtain ⟨ptr, s₁, halloc, hinv₁, -, hrun⟩ := hinv.realloc_steps hn hfree
  have hinv' := hinv.reallocFits hn hfit hfree hrun
  have hb : b ∈ l ++ b :: m := List.mem_append_right _ List.mem_cons_self
  have hb₁ : b ∈ l ++ b :: m ++ [⟨ptr, n⟩] := List.mem_append_left _ hb
  have hc : ⟨ptr, n⟩ ∈ l ++ b :: m ++ [⟨ptr, n⟩] :=
    List.mem_append_right _ (List.mem_singleton.mpr rfl)
  have hc' : ⟨ptr, n⟩ ∈ l ++ m ++ [⟨ptr, n⟩] :=
    List.mem_append_right _ (List.mem_singleton.mpr rfl)
  have hapart := hinv.alloc_apart hn hfree halloc (mem_heapRuns hp sp hb)
  have hcopy := hinv₁.copy hc b.ptr hfit
  have hdata := fun {k : Nat} (hk : k < b.size) => hinv₁.copy_data hb₁ hc hapart hfit hk
  have hlive : l ++ b :: m ++ [⟨ptr, n⟩] = l ++ b :: (m ++ [⟨ptr, n⟩]) := by simp
  rw [hlive] at hcopy hc
  refine ⟨ptr, _, hrun, hinv'.ok, ?_, ?_, ?_, ?_⟩
  · -- the data: kept by the allocation, copied, and kept by the free
    intro k hkb hkn
    rw [Machine.read8, Machine.read8, hinv'.layout.physical, hinv.layout.physical,
      hcopy.free_data hc hkn, hdata hkb, hinv.alloc_data hn hfree halloc hb hkb]
  · -- the old pages
    intro page hpage
    rw [hinv.pages_run hb] at hpage
    have hmanaged := (hinv.accounted.owned _ (mem_heapRuns hp sp hb) page hpage).1
    exact (hcopy.free_bits hmanaged).mpr (.inr hpage)
  · -- the frame
    intro x hnew hbits hnot
    rw [hinv'.pages_run hc'] at hnew
    rw [inBitmap_congr hinv.layout] at hbits
    rw [hinv.head] at hnot
    exact hinv.realloc_mem hn hfit hfree hrun hnew (hnot _ (by simp)) (hnot _ (by simp))
      (hnot _ (by simp)) (hnot _ (by simp)) hbits
  · -- the target of the copy
    intro k hk
    rw [hinv'.pages_run hc', hinv.layout.physical]
    exact (hinv₁.own_page (List.mem_append_right _ (List.mem_singleton.mpr rfl)) (k := k)
      (by simp only; omega)).2

/-- Releasing a block writes memory, no globals. -/
theorem sameGlobals_heapFree (s : Machine) (ptr : Nat) : SameGlobals s (heapFree s ptr) := by
  unfold heapFree
  simp only
  split
  · exact .refl s
  · exact ((sameGlobals_set _ _ _ _).trans (sameGlobals_set _ _ _ _)).trans
      (sameGlobals_pmmFree _ _ _)

/--
**What the size condition is needed for.** If every byte that was copied landed
in the pages of the new block, the last one did, and so the old bytes fit.
-/
theorem HeapInv.fit_of_copy (hinv : HeapInv t hp sp s (l ++ b :: m))
    (hn : sizeofBlock + n + 4095 < 2 ^ 64) (hfree : AllocsFree s (blockPages n))
    (hrun : heapRealloc s (t.pagePtr hp) b.ptr n = some (ptr, s'))
    (hcopy : ∀ k, k < b.size → (HeapBlock.pages s' ⟨ptr, n⟩).has (s.physical (ptr + k) / 4096)) :
    sizeofBlock + b.size ≤ 4096 * blockPages n := by
  obtain ⟨ptr', s₁, -, hinv₁, hptr, hrun'⟩ := hinv.realloc_steps hn hfree
  rw [hrun] at hrun'
  obtain ⟨rfl, rfl⟩ := Prod.mk.inj (Option.some.inj hrun')
  have hlayout := hinv₁.layout.trans ((sameGlobals_memcpy s₁ ptr b.ptr b.size).trans
    (sameGlobals_heapFree _ b.ptr)).toSameLayout
  have hpos := blockPages_pos hn
  have hb : b ∈ l ++ b :: m := List.mem_append_right _ List.mem_cons_self
  have hc : ⟨ptr, n⟩ ∈ l ++ b :: m ++ [⟨ptr, n⟩] :=
    List.mem_append_right _ (List.mem_singleton.mpr rfl)
  have hnoWrap := hinv.noWrap b hb
  have hlt := hinv₁.lt _ (mem_linkPages hp sp hc)
  by_contra hover
  -- the last byte copied is behind the last page
  have hlast := hcopy (b.size - 1) (by unfold sizeofBlock at hover; omega)
  have hheader := headerOf_ptr hptr
  have hphys : (heapFree (memcpy s₁ ptr b.ptr b.size) b.ptr).physical
      (t.pagePtr (t.physical ptr / 4096)) = 4096 * (t.physical ptr / 4096) :=
    physical_pagePtr_add hlayout hlt (k := 0) (by decide)
  -- its physical address, counted from the page of the new block
  have hbyte : s.physical (ptr + (b.size - 1)) =
      u64 (4096 * (t.physical ptr / 4096) + (32 + (b.size - 1))) := by
    rw [← physical_higherHalf_u64 t, hinv.layout.physical]
    conv => lhs; rw [hptr]
    unfold Machine.pagePtr Machine.physical Machine.higherHalf u64
    omega
  rw [HeapBlock.pages, hheader, hphys, Nat.mul_div_cancel_left _ (by decide), hbyte,
    ← blockPages_eq hn] at hlast
  obtain ⟨hlo, hhi⟩ := hlast
  simp only at hlo hhi
  unfold u64 at hlo hhi
  unfold sizeofBlock at hover hnoWrap
  change t.physical ptr / 4096 < 2 ^ 52 at hlt
  omega

end Realloc

/-- A size that `pmm_alloc` has pages for does not wrap. -/
theorem noWrap_of_allocsFree {s : Machine} {n : Nat} (hn : sizeofBlock + n < 2 ^ 64)
    (hfree : AllocsFree s (blockPages n)) : sizeofBlock + n + 4095 < 2 ^ 64 := by
  by_contra hwrap
  have hzero : blockPages n = 0 := by
    unfold blockPages divCeiling u64
    unfold sizeofBlock at *
    show (32 + n + 4095) % 2 ^ 64 / 4096 = 0
    omega
  obtain ⟨p, s', halloc, hrun⟩ := hfree
  rw [hzero, pmmAlloc_zero] at halloc
  exact hrun.nonNull (Prod.mk.inj (Option.some.inj halloc)).1.symm

/-- **When `heap_realloc` keeps the data and touches nothing else.** In every
state that a heap reaches by such reallocations, allocations, frees and writes
of its clients, `heap_realloc` of a live block, `pmm_alloc` succeeding, is as
it is meant to be if and only if the bytes of the old block fit into the pages
of the new one. -/
theorem heap_realloc_ok_iff {s₀ s u : Machine} {h : Nat} {l m : List HeapBlock} {b : HeapBlock}
    {n : Nat} (h0 : s₀.used 0 = true) (haligned : s₀.hhdmOffset % 4096 = 0)
    (hcreate : HeapCreated s₀ h s) (hrun : FitRun h s ⟨u, l ++ b :: m⟩)
    (hn : sizeofBlock + n < 2 ^ 64) (hfree : AllocsFree u (blockPages n)) :
    (∃ ptr u', heapRealloc u h b.ptr n = some (ptr, u') ∧ ReallocOk s₀ h u l m b n ptr u') ↔
      sizeofBlock + b.size ≤ 4096 * blockPages n := by
  have hnoWrap := noWrap_of_allocsFree hn hfree
  obtain ⟨hp, sp, rfl, hstart, -⟩ := hcreate.inv h0 haligned
  have hinv : HeapInv s₀ hp sp u (l ++ b :: m) := hstart.fitRun hrun
  constructor
  · rintro ⟨ptr, u', hrealloc, hok⟩
    exact hinv.fit_of_copy hnoWrap hfree hrealloc hok.copy
  · exact fun hfit => hinv.realloc_ok hnoWrap hfit hfree

/-- A heap with one block, and room for `k` more pages. -/
theorem roomyBlock (size k : Nat) (hsize : sizeofBlock + size + 4095 ≤ 2 ^ 64 - 1)
    (hroom : blockPages size + k ≤ 11) :
    ∃ hp s u b, HeapCreated roomyMachine (roomyMachine.pagePtr hp) s ∧
      HeapRun (roomyMachine.pagePtr hp) s ⟨u, [b]⟩ ∧ b.size = size ∧
      SameLayout roomyMachine u ∧ Roomy u k := by
  obtain ⟨hp, sp, s, hcreate, hinv, hroomy⟩ := roomyHeap
  obtain ⟨ptr, u, hfree, halloc, hinv', hroom'⟩ :=
    hinv.roomy_alloc (n := size) (by omega) (hroomy.mono (show k + blockPages size ≤ 11 by omega))
  have hstep : HeapStep (roomyMachine.pagePtr hp) ⟨s, []⟩ ⟨u, [] ++ [⟨ptr, size⟩]⟩ :=
    .alloc hsize hfree halloc
  exact ⟨hp, s, u, ⟨ptr, size⟩, hcreate, Relation.ReflTransGen.single hstep, rfl, hinv'.layout,
    hroom'⟩

/-- A run without shrinking reallocations is a run whose steps fit. -/
theorem fitRun_of_heapRun {h : Nat} {s : Machine} {st : HeapSys} (hrun : HeapRun h s st) :
    FitRun h s st := by
  induction hrun with
  | refl => exact .refl
  | tail _ hstep ih => exact ih.tail (.step hstep)

/-- A block of 100 bytes made smaller: 50 bytes and a header still have a page
for themselves, which has room for all 100 bytes copied. -/
theorem heap_realloc_ok_iff_roomy :
    ∃ h u b ptr u', heapRealloc u h b.ptr 50 = some (ptr, u') ∧
      ReallocOk roomyMachine h u [] [] b 50 ptr u' := by
  obtain ⟨hp, s, u, b, hcreate, hrun, hsize, -, hroom⟩ :=
    roomyBlock 100 (0 + blockPages 50) (by decide) (by decide)
  have hfree := hroom.allocsFree (by decide)
  have hfit : sizeofBlock + b.size ≤ 4096 * blockPages 50 := by
    rw [hsize]
    decide
  obtain ⟨ptr, u', hrealloc, hok⟩ := (heap_realloc_ok_iff (l := []) (m := []) (by decide)
    (by decide) hcreate (fitRun_of_heapRun hrun) (by decide) hfree).mpr hfit
  exact ⟨_, u, b, ptr, u', hrealloc, hok⟩

/-- A block of 5000 bytes made smaller: 936 bytes are copied behind the page of
the new block. -/
theorem heap_realloc_not_ok :
    ¬ ∀ (s₀ s u : Machine) (h : Nat) (l m : List HeapBlock) (b : HeapBlock) (n : Nat),
      s₀.used 0 = true → s₀.hhdmOffset % 4096 = 0 → HeapCreated s₀ h s →
      HeapRun h s ⟨u, l ++ b :: m⟩ → sizeofBlock + n < 2 ^ 64 → AllocsFree u (blockPages n) →
      ∃ ptr u', heapRealloc u h b.ptr n = some (ptr, u') ∧ ReallocOk s₀ h u l m b n ptr u' := by
  intro hall
  obtain ⟨hp, s, u, b, hcreate, hrun, hsize, -, hroom⟩ :=
    roomyBlock 5000 (0 + blockPages 100) (by decide) (by decide)
  have hfree := hroom.allocsFree (by decide)
  obtain ⟨ptr, u', hrealloc, hok⟩ := hall roomyMachine s u _ [] [] b 100 (by decide) (by decide)
    hcreate hrun (by decide) hfree
  obtain ⟨hp', sp, heq, hstart, -⟩ := hcreate.inv (by decide) (by decide)
  rw [heq] at hrun hrealloc
  have hinv : HeapInv roomyMachine hp' sp u ([] ++ b :: []) := hstart.run hrun
  have hfit := hinv.fit_of_copy (by decide) hfree hrealloc hok.copy
  rw [hsize] at hfit
  exact absurd hfit (by decide)

end Medlar64
