import Medlar64.Mm.HeapFrame

/-!
# Medlar64 — how large a block is

`heap_alloc` adds the header and the rounding to the size asked for in 64 bits,
and `heap_free` does so again with the size it finds in the header.

* `LargeEnough` — the pages hold what was asked for, and `heap_free` gives
  exactly these back.
* `heap_alloc_large_enough_iff` — so it is if and only if header and size fit
  into 64 bits.
-/

namespace Medlar64

/-- `heap_alloc(h, n)` whose `pmm_alloc` has led from `s` to `s₁` and returned
`p`: the block is as large as asked. -/
structure LargeEnough (s : Machine) (h n p : Nat) (s₁ : Machine) : Prop where
  fits : sizeofBlock + n ≤ blockPages n * pageSize
  /-- The bytes handed out are in the pages that `pmm_alloc` returned. -/
  owned : ∀ ptr s', heapLink s₁ h n p = (ptr, s') → ∀ k, k < n →
    SlotRun.has ⟨p / 4096, blockPages n⟩ (s'.physical (ptr + k) / 4096)
  /-- In every later state of the heap, `heap_free` of the block clears the
  bits of these pages and no others. -/
  released : ∀ s₀ live, HeapReached s₀ h ⟨s, live⟩ → FreeRun s p (blockPages n) →
    ∀ ptr s', heapLink s₁ h n p = (ptr, s') → ∀ u l m,
      Relation.ReflTransGen (FitStep h) ⟨s', live ++ [⟨ptr, n⟩]⟩ ⟨u, l ++ ⟨ptr, n⟩ :: m⟩ →
        ∀ page, page < s₀.pmmPageCount →
          ((heapFree u ptr).free page ↔ u.free page ∨ SlotRun.has ⟨p / 4096, blockPages n⟩ page)

section Size

variable {s s₁ : Machine} {h n p : Nat}

/-- A run of pages is never that of a size whose rounding wraps. -/
theorem noWrap_of_alloc (halloc : pmmAlloc s (blockPages n) = some (p, s₁)) (hp : p ≠ 0)
    (hsize : sizeofBlock + n ≤ 2 ^ 64) : sizeofBlock + n + 4095 < 2 ^ 64 := by
  by_contra hwrap
  -- the sum wraps to less than a page
  have hzero : blockPages n = 0 := by
    unfold blockPages divCeiling u64
    unfold sizeofBlock at *
    show (32 + n + 4095) % 2 ^ 64 / 4096 = 0
    omega
  rw [hzero, pmmAlloc_zero] at halloc
  exact hp (Prod.mk.inj (Option.some.inj halloc)).1.symm

/-- `heap_alloc` writes headers only. -/
theorem sameGlobals_heapLink (s : Machine) (h n p : Nat) :
    SameGlobals s (heapLink s h n p).2 := by
  have hset := fun (u : Machine) (v x : Nat) (f : BlockField) => sameGlobals_set u v x f
  exact (((((((hset _ _ _ _).trans (hset _ _ _ _)).trans (hset _ _ _ _)).trans
    (hset _ _ _ _)).trans (hset _ _ _ _)).trans (hset _ _ _ _)).trans (hset _ _ _ _))

/-- The bytes behind the header lie in the pages returned. Page addresses are
below `2^52` pages, so that no byte of a block in them is at an address that
wraps. -/
theorem owned_of_alloc {ptr : Nat} {s' : Machine}
    (halloc : pmmAlloc s (blockPages n) = some (p, s₁)) (hp : p ≠ 0)
    (hfits : sizeofBlock + n ≤ 4096 * blockPages n) (hlink : heapLink s₁ h n p = (ptr, s'))
    {k : Nat} (hk : k < n) :
    SlotRun.has ⟨p / 4096, blockPages n⟩ (s'.physical (ptr + k) / 4096) := by
  obtain ⟨-, -, hrun⟩ := pmmAlloc_cases halloc
  obtain ⟨f, rfl, -, -, hle, -⟩ := hrun hp
  have hglob := sameGlobals_heapLink s₁ h n (f * 4096)
  rw [hlink] at hglob
  have hptr : ptr = u64 (s₁.higherHalf (f * 4096) + sizeofBlock) :=
    (congrArg Prod.fst hlink).symm
  unfold sizeofBlock at hfits hptr
  -- no byte of the block is at an address that wraps
  have hphys : s'.physical (ptr + k) = f * 4096 + 32 + k := by
    rw [hglob.physical, hptr]
    unfold Machine.physical Machine.higherHalf u64
    omega
  rw [hphys, Nat.mul_div_cancel f (by decide)]
  constructor
  · show f ≤ _
    omega
  · show _ < f + blockPages n
    omega

/-- `heap_free` gives back what `heap_alloc` took, whatever happened in
between: the block is still in the list, with the size it had, so that the
number of pages is computed from the same value. -/
theorem HeapReached.released {s₀ s' u : Machine} {ptr page : Nat} {live l m : List HeapBlock}
    (hst : HeapReached s₀ h ⟨s, live⟩) (hn : sizeofBlock + n + 4095 < 2 ^ 64)
    (halloc : pmmAlloc s (blockPages n) = some (p, s₁)) (hrun : FreeRun s p (blockPages n))
    (hlink : heapLink s₁ h n p = (ptr, s'))
    (hsteps : Relation.ReflTransGen (FitStep h) ⟨s', live ++ [⟨ptr, n⟩]⟩
      ⟨u, l ++ ⟨ptr, n⟩ :: m⟩) (hpage : page < s₀.pmmPageCount) :
    (heapFree u ptr).free page ↔ u.free page ∨ SlotRun.has ⟨p / 4096, blockPages n⟩ page := by
  have hpc := s₀.pageCount_lt
  have hfree : AllocsFree s (blockPages n) := ⟨p, s₁, halloc, hrun⟩
  -- the allocation is a step of the heap, so the later state is reached too
  have hrunAlloc : heapAlloc s h n = some (ptr, s') := by
    unfold heapAlloc
    rw [halloc, ← hlink]
    rfl
  have hstep : FitStep h ⟨s, live⟩ ⟨s', live ++ [⟨ptr, n⟩]⟩ :=
    .step (.alloc (by omega) hfree hrunAlloc)
  have hlater : HeapReached s₀ h ⟨u, l ++ ⟨ptr, n⟩ :: m⟩ := hst.steps (.head hstep hsteps)
  -- the block is still in the pages that `pmm_alloc` returned
  obtain ⟨hp', sp, rfl, hinv⟩ := hst.inv
  obtain ⟨f, s₂, htaken, hlink'⟩ := hinv.taken hn hfree
  have hf := htaken.managed
  have hpos := blockPages_pos hn
  have hsame := htaken.alloc
  rw [halloc] at hsame
  obtain ⟨rfl, rfl⟩ := Prod.mk.inj (Option.some.inj hsame)
  have hptr : ptr = u64 (s₀.pagePtr f + 32) := by
    rw [← htaken.layout.pagePtr]
    exact (congrArg Prod.fst hlink).symm
  have hfirst : HeapBlock.page s₀ ⟨ptr, n⟩ = f := page_ptr (by omega) hptr
  obtain ⟨hp₂, sp₂, -, hinv₂⟩ := hlater.inv
  rw [hinv₂.free_bits hpage, HeapBlock.run, hfirst, Nat.mul_div_cancel_left f (by decide)]

/-- **When a block is as large as asked.** For every size, in every state of
the allocator and for every heap: where `pmm_alloc` returns pages, they hold what was
asked for if and only if header and size fit into 64 bits. -/
theorem heap_alloc_large_enough_iff {s s₁ : Machine} {h n p : Nat}
    (halloc : pmmAlloc s (blockPages n) = some (p, s₁)) (hp : p ≠ 0) :
    LargeEnough s h n p s₁ ↔ sizeofBlock + n ≤ 2 ^ 64 := by
  constructor
  · intro hlarge
    have hfits := hlarge.fits
    -- a count of pages has at most 52 bits
    have hpages : blockPages n * pageSize ≤ 2 ^ 64 := by
      unfold blockPages divCeiling u64 pageSize
      omega
    exact Nat.le_trans hfits hpages
  · intro hsize
    have hnoWrap := noWrap_of_alloc halloc hp hsize
    have hfits := le_blockPages hnoWrap
    refine ⟨?_, ?_, ?_⟩
    · rw [Nat.mul_comm]
      exact hfits
    · intro ptr s' hlink k hk
      exact owned_of_alloc halloc hp hfits hlink hk
    · intro s₀ live hst hrun ptr s' hlink u l m hsteps page hpage
      exact hst.released hnoWrap halloc hrun hlink hsteps hpage

end Size

/-- A heap whose allocator has pages for a size. -/
theorem roomyReached {n : Nat} (hpos : 1 ≤ blockPages n) (hle : blockPages n ≤ 11) :
    ∃ h s p s₁, HeapReached roomyMachine h ⟨s, []⟩ ∧
      pmmAlloc s (blockPages n) = some (p, s₁) ∧ FreeRun s p (blockPages n) := by
  obtain ⟨hp, sp, s, hcreate, hinv, hroomy⟩ := roomyHeap
  obtain ⟨k, hk⟩ := Nat.le.dest hle
  have hroomy : Roomy s (k + blockPages n) := by
    rw [show k + blockPages n = 11 by omega]
    exact hroomy
  obtain ⟨p, s₁, halloc, hrun⟩ := hroomy.allocsFree hpos
  exact ⟨_, s, p, s₁, ⟨by decide, by decide, s, hcreate, .refl⟩, halloc, hrun⟩

/-- 10000 bytes: three pages, and room for the header in them. -/
theorem heap_alloc_large_enough_iff_roomy :
    ∃ h s p s₁, HeapReached roomyMachine h ⟨s, []⟩ ∧ LargeEnough s h 10000 p s₁ := by
  obtain ⟨h, s, p, s₁, hst, halloc, hrun⟩ :=
    roomyReached (n := 10000) (by decide) (by decide)
  exact ⟨h, s, p, s₁, hst,
    (heap_alloc_large_enough_iff halloc hrun.nonNull).mpr (by decide)⟩

/-- The largest 64-bit size: the sum of header and size wraps to 31, and one
page is taken for it. -/
theorem heap_alloc_not_large_enough :
    ¬ ∀ (s₀ s s₁ : Machine) (h n p : Nat), HeapReached s₀ h ⟨s, []⟩ → n < 2 ^ 64 →
      pmmAlloc s (blockPages n) = some (p, s₁) → p ≠ 0 → LargeEnough s h n p s₁ := by
  intro hall
  obtain ⟨h, s, p, s₁, hst, halloc, hrun⟩ :=
    roomyReached (n := 2 ^ 64 - 1) (by decide) (by decide)
  have hlarge := hall roomyMachine s s₁ h (2 ^ 64 - 1) p hst (by decide) halloc hrun.nonNull
  exact absurd hlarge.fits (by decide)

end Medlar64
