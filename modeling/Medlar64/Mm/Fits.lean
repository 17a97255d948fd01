import Medlar64.Mm.Init

/-!
# Medlar64 — memory maps whose bitmap fits

`pmm_init` computes the size of the bitmap from the highest usable address and
puts it into the longest usable entry, without comparing the two.

* `BitmapFits` — the bitmap is inside its entry, the entry is cut without a
  wrap, and the clearing loop visits pages of usable entries only.
* `Memmap.size_le_iff` — the size against the length, as a relation of the
  highest usable address to that length.
* `bitmap_fits_iff` — that relation decides whether `pmm_init` stays inside
  usable memory.
-/

namespace Medlar64

/-- `bitmap_size`, as `pmm_init` computes it. -/
def initBitmapSize (mm : Memmap) (s : Machine) (d : LimineMemmapEntry) : Nat :=
  alignUp ((placeBitmap s mm.entries d).pmmPageCount / 8)

/-- What `pmm_init` does with entry `i`, `d`, as `default_memmap` stays inside
usable memory. -/
structure BitmapFits (mm : Memmap) (s : Machine) (i : Nat) (d : LimineMemmapEntry) : Prop where
  size : initBitmapSize mm s d ≤ d.length
  /-- Every byte that `memset` fills is in the entry. -/
  fill : ∀ k, k < initBitmapSize mm s d → d.contains
    ((placeBitmap s mm.entries d).physical ((placeBitmap s mm.entries d).pmmBitmap + k))
  noWrap : (d.cut (initBitmapSize mm s d)).length + initBitmapSize mm s d = d.length
  /-- Every page whose bit the second loop clears is in a usable entry. -/
  clears : ∀ e ∈ mm.entries.set i (d.cut (initBitmapSize mm s d)), e.usable → ∀ t st,
    Visits (clearBody e) (0, t) st → st.1 < e.length →
      ∃ e' ∈ mm.entries, e'.usable ∧ e'.contains (4096 * (u64 (e.base + st.1) / 4096))

section Fits

variable {mm : Memmap} {s : Machine} {i : Nat} {d : LimineMemmapEntry}

/-- It is the size by the page count of the map. -/
theorem initBitmapSize_eq (mm : Memmap) (s : Machine) (d : LimineMemmapEntry) :
    initBitmapSize mm s d = mm.bitmapSize := by
  rw [initBitmapSize, placeBitmap_pageCount, alignUp_pageCount]

/-- The size of the bitmap against a number of whole pages. -/
theorem Memmap.size_le_iff (mm : Memmap) {length : Nat} (halign : length % 4096 = 0) :
    mm.bitmapSize ≤ length ↔ highestAddress mm.entries < 32768 * (length + 1) := by
  unfold Memmap.bitmapSize Memmap.pageCount
  omega

/-- The clearing loop stays inside its entry: every offset it comes to is at
most the length. -/
theorem clearBody_visits {e : LimineMemmapEntry} (halign : e.base % 4096 = 0 ∧ e.length % 4096 = 0)
    (hrange : e.base + e.length < 2 ^ 64) {t : Machine} {st : Nat × Machine}
    (h : Visits (clearBody e) (0, t) st) : ClearInv e t st := by
  have hstart : ClearInv e t (0, t) := by
    refine ⟨rfl, Nat.zero_le _, .refl t, fun page _ => ⟨.inr, ?_⟩⟩
    rintro (h | h)
    · simp only at h
      omega
    · exact h
  exact h.inv hstart fun _ _ ha hstep => (ha.next halign hrange hstep).1

/-- A bitmap that fits is cut off its entry, and the rest of usable memory is
cleared. -/
theorem bitmapFits_of_size (hd : FirstLargest mm.entries i d) (hfit : mm.bitmapSize ≤ d.length) :
    BitmapFits mm s i d := by
  have hrange := mm.inRange d (FirstLargest.mem hd) hd.usable
  have hset := set_cut_ok hd hfit
  refine ⟨?_, ?_, ?_, ?_⟩
  · rw [initBitmapSize_eq]
    exact hfit
  · -- the bitmap starts at the front of the entry
    intro k hk
    rw [initBitmapSize_eq] at hk
    have hphys : (placeBitmap s mm.entries d).physical
        ((placeBitmap s mm.entries d).pmmBitmap + k) = d.base + k :=
      physical_higherHalf_add s (by omega)
    rw [hphys]
    exact ⟨Nat.le_add_right _ _, by omega⟩
  · -- the length that is left does not wrap
    rw [initBitmapSize_eq, cut_eq hd hfit]
    exact Nat.sub_add_cancel hfit
  · -- an offset of the loop lies in the entry, cut or not
    intro e he hu t st hvis hlt
    rw [initBitmapSize_eq] at he
    obtain ⟨⟨hbase, hlength⟩, htop⟩ := hset e he hu
    have hinv := clearBody_visits ⟨hbase, hlength⟩ htop hvis
    have haligned := hinv.aligned
    rw [u64_of_lt (by omega), show 4096 * ((e.base + st.1) / 4096) = e.base + st.1 by omega]
    exact ((set_cut_contains hd hfit (e.base + st.1)).mp
      ⟨e, he, hu, Nat.le_add_right _ _, by omega⟩).1

end Fits

/-- **When the bitmap fits.** On every memory map, `pmm_init` has a
`default_memmap`, and putting the bitmap there stays inside usable memory if
and only if some usable entry is long enough for the highest usable address. -/
theorem bitmap_fits_iff (mm : Memmap) (s : Machine) :
    (∃ i d, (scanMemmap mm.entries).defaultMemmap = some (i, d) ∧ BitmapFits mm s i d) ↔
      ∃ e ∈ mm.entries, e.usable ∧ highestAddress mm.entries < 32768 * (e.length + 1) := by
  obtain ⟨i, d, hd⟩ := mm.exists_firstLargest
  have hscan := scanMemmap_default mm hd
  have hmem := FirstLargest.mem hd
  have haligned := (mm.aligned d hmem hd.usable).2
  constructor
  · rintro ⟨i', d', hscan', hfits⟩
    rw [hscan] at hscan'
    obtain ⟨rfl, rfl⟩ := Prod.mk.inj (Option.some.inj hscan')
    have hsize := hfits.size
    rw [initBitmapSize_eq, mm.size_le_iff haligned] at hsize
    exact ⟨d, hmem, hd.usable, hsize⟩
  · rintro ⟨e, he, hu, hlt⟩
    -- no usable entry is longer than the one chosen
    obtain ⟨j, hj⟩ := List.mem_iff_getElem?.mp he
    have hlargest := hd.largest j e hj hu
    refine ⟨i, d, hscan, bitmapFits_of_size hd ((mm.size_le_iff haligned).mpr ?_)⟩
    omega

/-- Two usable pages, the second one at 1 TiB. -/
def sparseMap : Memmap where
  entries := [⟨4096, 4096, limineMemmapUsable⟩, ⟨2 ^ 40, 4096, limineMemmapUsable⟩]
  aligned := by decide
  inRange := by decide
  disjoint := by
    refine List.pairwise_pair.mpr ?_
    intro _ _ x
    rintro ⟨⟨hlo, hhi⟩, hlo', -⟩
    simp only at hlo hhi hlo'
    omega
  someUsable := ⟨_, List.mem_cons_self, rfl⟩

/-- One page has no room for a bitmap up to 1 TiB: with two usable entries of a
page each, at page 1 and at 1 TiB, a bitmap of 32 MiB goes to the first. -/
theorem bitmap_not_fits :
    ¬ ∀ (mm : Memmap) (s : Machine),
      (∀ e ∈ mm.entries, e.usable → e.base + e.length < 2 ^ 52) →
      ∃ i d, (scanMemmap mm.entries).defaultMemmap = some (i, d) ∧ BitmapFits mm s i d := by
  intro h
  obtain ⟨i, d, hscan, hfits⟩ := h sparseMap (Machine.boot (fun _ => 0) usualHhdm) (by decide)
  have hscan' : (scanMemmap sparseMap.entries).defaultMemmap =
      some (0, ⟨4096, 4096, limineMemmapUsable⟩) := by decide
  rw [hscan'] at hscan
  obtain ⟨-, rfl⟩ := Prod.mk.inj (Option.some.inj hscan)
  have hsize := hfits.size
  rw [initBitmapSize_eq, sparseMap.size_le_iff (by decide)] at hsize
  exact absurd hsize (by decide)

end Medlar64
