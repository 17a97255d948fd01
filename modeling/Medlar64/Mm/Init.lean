import Mathlib.Data.List.Induction
import Medlar64.Mm.Search

/-!
# Medlar64 — `pmm_init`

The bitmap is sized by the highest usable address, put at the front of the
largest usable entry, filled with ones, and the pages of usable memory that
are left are cleared.

* `Memmap` — a Limine memory map: usable entries page-aligned, inside the
  address space, pairwise disjoint, at least one of them.
* `pmmInit_spec` — on such a map whose largest entry holds the bitmap,
  `pmm_init` returns, and the bits inside the bitmap are clear exactly for the
  pages of `FreePage`.
-/

namespace Medlar64

-- ---------------------------------------------------------------------------
-- The source functions
-- ---------------------------------------------------------------------------

/-- `struct limine_memmap_entry`. -/
structure LimineMemmapEntry where
  base : Nat
  length : Nat
  type : Nat
deriving DecidableEq, Repr

/-- `LIMINE_MEMMAP_USABLE` -/
def limineMemmapUsable : Nat := 0

/-- The entry is memory that may be used. -/
abbrev LimineMemmapEntry.usable (e : LimineMemmapEntry) : Prop := e.type = limineMemmapUsable

/-- `default_memmap`, as an index with the entry it points to, and
`higher_address`. -/
structure MemmapScan where
  defaultMemmap : Option (Nat × LimineMemmapEntry)
  higherAddress : Nat

/-- One round of the first loop. -/
def scanEntry (st : MemmapScan) (ei : LimineMemmapEntry × Nat) : MemmapScan :=
  if ei.1.usable then
    let topAddress := u64 (ei.1.base + ei.1.length)
    { defaultMemmap :=
        match st.defaultMemmap with
        | none => some (ei.2, ei.1)
        | some (j, d) => if d.length < ei.1.length then some (ei.2, ei.1) else some (j, d)
      higherAddress := if st.higherAddress < topAddress then topAddress else st.higherAddress }
  else st

/-- The first loop: the entries with their indices, the first one first. -/
def scanMemmap (entries : List LimineMemmapEntry) : MemmapScan :=
  entries.zipIdx.foldl scanEntry ⟨none, 0⟩

/-- One round of the clearing loop over an entry; the state is `o` and the
machine. -/
def clearBody (e : LimineMemmapEntry) (st : Nat × Machine) : (Nat × Machine) ⊕ Machine :=
  if st.1 < e.length then
    .inl (u64 (st.1 + pageSize),
      bitmapClear st.2 st.2.pmmBitmap (u64 (e.base + st.1) / pageSize))
  else .inr st.2

/-- The clearing loop; `o` is a `u64` that grows by a page, so more rounds
than `2^52` never end. -/
def clearEntry (s : Machine) (e : LimineMemmapEntry) : Option Machine :=
  if e.usable then whileRun (clearBody e) (2 ^ 52 + 1) (0, s) else some s

/-- The highest address is a `u64`, -/
theorem scanEntry_lt {st : MemmapScan} {ei : LimineMemmapEntry × Nat}
    (h : st.higherAddress < 2 ^ 64) : (scanEntry st ei).higherAddress < 2 ^ 64 := by
  unfold scanEntry
  split
  · show (if _ then _ else _) < 2 ^ 64
    split
    · exact u64_lt _
    · exact h
  · exact h

/-- so the page count is below `2 ^ 52`. -/
theorem scanMemmap_lt (entries : List LimineMemmapEntry) :
    (scanMemmap entries).higherAddress < 2 ^ 64 :=
  List.foldlRecOn entries.zipIdx scanEntry (by decide : (0 : Nat) < 2 ^ 64)
    (motive := fun st => st.higherAddress < 2 ^ 64) fun _ h _ _ => scanEntry_lt h

/-- The globals set before the bitmap is filled. -/
def placeBitmap (s : Machine) (entries : List LimineMemmapEntry) (d : LimineMemmapEntry) :
    Machine :=
  { s with
    pmmBitmap := s.higherHalf d.base
    pmmPageCount := (scanMemmap entries).higherAddress / pageSize
    pageCount_lt := by
      have := scanMemmap_lt entries
      show _ / 4096 < _
      omega }

/-- `default_memmap->base += bitmap_size; default_memmap->length -= bitmap_size`. -/
def LimineMemmapEntry.cut (d : LimineMemmapEntry) (bitmapSize : Nat) : LimineMemmapEntry :=
  { d with base := u64 (d.base + bitmapSize), length := u64 (d.length + 2 ^ 64 - bitmapSize) }

/-- `pmm_init()`: the machine and the memory map it leaves behind; `none` when
`default_memmap` is dereferenced while it is `NULL`, or a loop does not end. -/
def pmmInit (s : Machine) (entries : List LimineMemmapEntry) :
    Option (Machine × List LimineMemmapEntry) :=
  match (scanMemmap entries).defaultMemmap with
  | none => none
  | some (i, d) =>
    let s := placeBitmap s entries d
    -- the division truncates; a `u64` result, rounded up to whole pages
    let bitmapSize := alignUp (s.pmmPageCount / 8)
    let s := memset s s.pmmBitmap 0xFF bitmapSize
    -- the entry is changed in the map itself, so the second loop sees it cut
    let entries := entries.set i (d.cut bitmapSize)
    (entries.foldlM clearEntry s).map fun s => (s, entries)

-- ---------------------------------------------------------------------------
-- Memory maps
-- ---------------------------------------------------------------------------

/-- The entry covers the address. -/
def LimineMemmapEntry.contains (e : LimineMemmapEntry) (x : Nat) : Prop :=
  e.base ≤ x ∧ x < e.base + e.length

/-- A Limine memory map: what the boot protocol promises of the usable
entries. -/
structure Memmap where
  entries : List LimineMemmapEntry
  aligned : ∀ e ∈ entries, e.usable → e.base % 4096 = 0 ∧ e.length % 4096 = 0
  inRange : ∀ e ∈ entries, e.usable → e.base + e.length < 2 ^ 64
  disjoint : entries.Pairwise fun a b =>
    a.usable → b.usable → ∀ x, ¬ (a.contains x ∧ b.contains x)
  someUsable : ∃ e ∈ entries, e.usable

/-- The end of the highest usable entry. -/
def highestAddress (entries : List LimineMemmapEntry) : Nat :=
  entries.foldl (fun h e => if e.usable then max h (e.base + e.length) else h) 0

/-- Pages below the highest usable address. -/
def Memmap.pageCount (mm : Memmap) : Nat := highestAddress mm.entries / 4096

/-- Bytes that `pmm_init` reserves for the bitmap. -/
def Memmap.bitmapSize (mm : Memmap) : Nat := (mm.pageCount / 8 + 4095) / 4096 * 4096

/-- Entry `i` is `d`, the first of the longest usable entries: the one that the
first loop ends with, since a later entry replaces it only when it is longer. -/
structure FirstLargest (entries : List LimineMemmapEntry) (i : Nat) (d : LimineMemmapEntry) :
    Prop where
  entry : entries[i]? = some d
  usable : d.usable
  largest : ∀ (j : Nat) (e : LimineMemmapEntry), entries[j]? = some e → e.usable →
    e.length ≤ d.length
  first : ∀ (j : Nat) (e : LimineMemmapEntry), entries[j]? = some e → e.usable → j < i →
    e.length < d.length

/-- The page lies in usable memory and not in the part of `d` cut off for the
bitmap. -/
def FreePage (mm : Memmap) (d : LimineMemmapEntry) (page : Nat) : Prop :=
  (∃ e ∈ mm.entries, e.usable ∧ e.contains (4096 * page)) ∧
    ¬ (d.base ≤ 4096 * page ∧ 4096 * page < d.base + mm.bitmapSize)

-- ---------------------------------------------------------------------------
-- The first loop
-- ---------------------------------------------------------------------------

/-- There is only one such entry. -/
theorem FirstLargest.unique {entries : List LimineMemmapEntry} {i j : Nat}
    {d d' : LimineMemmapEntry} (h : FirstLargest entries i d) (h' : FirstLargest entries j d') :
    i = j ∧ d = d' := by
  have hij : i = j := by
    -- the earlier of the two would be strictly shorter than the later one
    rcases Nat.lt_trichotomy i j with hlt | heq | hgt
    · have h1 := h'.first i d h.entry h.usable hlt
      have h2 := h.largest j d' h'.entry h'.usable
      omega
    · exact heq
    · have h1 := h.first j d' h'.entry h'.usable hgt
      have h2 := h'.largest i d h.entry h.usable
      omega
  subst hij
  exact ⟨rfl, Option.some.inj (h.entry.symm.trans h'.entry)⟩

/-- An element of a list with one more is an old one or the new one. -/
private theorem getElem?_snoc {α : Type} {l : List α} {e x : α} {j : Nat}
    (h : (l ++ [e])[j]? = some x) : l[j]? = some x ∨ j = l.length ∧ x = e := by
  rcases Nat.lt_or_ge j l.length with hlt | hge
  · rw [List.getElem?_append_left hlt] at h
    exact .inl h
  · rw [List.getElem?_append_right hge] at h
    cases hk : j - l.length with
    | zero =>
      rw [hk] at h
      exact .inr ⟨by omega, by simpa using h.symm⟩
    | succ k =>
      rw [hk] at h
      simp at h

/-- The old elements stay where they are. -/
private theorem getElem?_snoc_left {α : Type} {l : List α} {e x : α} {j : Nat}
    (h : l[j]? = some x) : (l ++ [e])[j]? = some x := by
  rw [List.getElem?_append_left (List.getElem?_eq_some_iff.mp h).1, h]

/-- An entry that does not beat `d` leaves it the first largest: the test is
for a length that is really greater. -/
theorem FirstLargest.keep {l : List LimineMemmapEntry} {i : Nat} {d e : LimineMemmapEntry}
    (h : FirstLargest l i d) (he : e.usable → e.length ≤ d.length) :
    FirstLargest (l ++ [e]) i d := by
  have hi : i < l.length := (List.getElem?_eq_some_iff.mp h.entry).1
  refine ⟨getElem?_snoc_left h.entry, h.usable, fun j x hx hu => ?_, fun j x hx hu hj => ?_⟩
  · -- still the longest
    rcases getElem?_snoc hx with hx | ⟨-, rfl⟩
    · exact h.largest j x hx hu
    · exact he hu
  · -- the new entry stands behind it
    rcases getElem?_snoc hx with hx | ⟨hj', -⟩
    · exact h.first j x hx hu hj
    · omega

/-- A usable entry longer than all before it is the first largest. -/
theorem FirstLargest.take {l : List LimineMemmapEntry} {e : LimineMemmapEntry} (hu : e.usable)
    (h : ∀ (j : Nat) (x : LimineMemmapEntry), l[j]? = some x → x.usable → x.length < e.length) :
    FirstLargest (l ++ [e]) l.length e := by
  refine ⟨by simp, hu, ?_, ?_⟩
  · intro j x hx hxu
    rcases getElem?_snoc hx with hx | ⟨-, rfl⟩
    · exact Nat.le_of_lt (h j x hx hxu)
    · exact Nat.le_refl _
  · intro j x hx hxu hj
    rcases getElem?_snoc hx with hx | ⟨hj', -⟩
    · exact h j x hx hxu
    · omega

/-- What the first loop has found in the entries seen so far. -/
structure ScanSpec (entries : List LimineMemmapEntry) (st : MemmapScan) : Prop where
  higher : st.higherAddress = highestAddress entries
  none : st.defaultMemmap = none → ∀ e ∈ entries, ¬ e.usable
  some : ∀ i d, st.defaultMemmap = some (i, d) → FirstLargest entries i d

/-- The highest address after one entry more. -/
theorem highestAddress_snoc (l : List LimineMemmapEntry) (e : LimineMemmapEntry) :
    highestAddress (l ++ [e]) =
      if e.usable then max (highestAddress l) (e.base + e.length) else highestAddress l := by
  rw [highestAddress, List.foldl_append]
  rfl

/-- One round of the first loop. An entry that is not usable is passed over,
the first usable one is taken, and a later one is taken when it is longer. -/
theorem ScanSpec.step {l : List LimineMemmapEntry} {st : MemmapScan} {e : LimineMemmapEntry}
    (h : ScanSpec l st) (hrange : e.usable → e.base + e.length < 2 ^ 64) :
    ScanSpec (l ++ [e]) (scanEntry st (e, l.length)) := by
  unfold scanEntry
  split
  case isFalse hu =>
    -- not usable: skipped
    refine ⟨?_, ?_, fun i d hd => (h.some i d hd).keep fun h' => absurd h' hu⟩
    · rw [highestAddress_snoc, if_neg hu, h.higher]
    · intro hnone x hx
      rcases List.mem_append.mp hx with hx | hx
      · exact h.none hnone x hx
      · rw [List.mem_singleton.mp hx]
        exact hu
  case isTrue hu =>
    refine ⟨?_, ?_, ?_⟩
    · -- the running maximum
      have hmax : ∀ a b : Nat, (if a < b then b else a) = max a b := fun a b => by
        split <;> omega
      simp only
      rw [hmax, highestAddress_snoc, if_pos hu, h.higher, u64_of_lt (hrange hu)]
    · -- a usable entry leaves a candidate
      intro hnone
      simp only at hnone
      split at hnone
      · simp at hnone
      · split at hnone <;> simp at hnone
    · intro i d hd
      simp only at hd
      split at hd
      case h_1 hnone =>
        -- the first usable entry
        obtain ⟨rfl, rfl⟩ := Prod.mk.inj (Option.some.inj hd)
        refine FirstLargest.take hu ?_
        intro j x hx hxu
        exact absurd hxu (h.none hnone x (List.mem_of_getElem? hx))
      case h_2 j d₀ hsome =>
        have hfirst := h.some j d₀ hsome
        split at hd
        case isTrue hlt =>
          -- longer than the candidate, hence than every entry before
          obtain ⟨rfl, rfl⟩ := Prod.mk.inj (Option.some.inj hd)
          refine FirstLargest.take hu ?_
          intro k x hx hxu
          have := hfirst.largest k x hx hxu
          omega
        case isFalse hge =>
          obtain ⟨rfl, rfl⟩ := Prod.mk.inj (Option.some.inj hd)
          -- not longer: the earlier entry keeps its place
          exact hfirst.keep fun _ => Nat.le_of_not_lt hge

/-- The first loop as a whole, by induction on the list: the highest address,
and the first of the largest usable entries. -/
theorem scanMemmap_spec (entries : List LimineMemmapEntry)
    (hrange : ∀ e ∈ entries, e.usable → e.base + e.length < 2 ^ 64) :
    ScanSpec entries (scanMemmap entries) := by
  -- on the entries seen, the last one being the round just made
  induction entries using List.reverseRecOn with
  | nil =>
    refine ⟨rfl, fun _ e he => absurd he List.not_mem_nil, ?_⟩
    intro i d hd
    simp [scanMemmap] at hd
  | append_singleton l e ih =>
    have hl := ih fun x hx => hrange x (List.mem_append_left _ hx)
    have hstep : scanMemmap (l ++ [e]) = scanEntry (scanMemmap l) (e, l.length) := by
      rw [scanMemmap, List.zipIdx_append, List.foldl_append, scanMemmap]
      simp
    rw [hstep]
    exact hl.step (hrange e (by simp))

/-- The first loop picks the first largest usable entry. -/
theorem scanMemmap_default (mm : Memmap) {i : Nat} {d : LimineMemmapEntry}
    (hd : FirstLargest mm.entries i d) :
    (scanMemmap mm.entries).defaultMemmap = some (i, d) := by
  have hspec := scanMemmap_spec mm.entries mm.inRange
  cases hscan : (scanMemmap mm.entries).defaultMemmap with
  | none => exact absurd hd.usable (hspec.none hscan d (List.mem_of_getElem? hd.entry))
  | some id =>
    obtain ⟨rfl, rfl⟩ := (hspec.some id.1 id.2 hscan).unique hd
    rfl

/-- Every memory map has a first largest usable entry. -/
theorem Memmap.exists_firstLargest (mm : Memmap) : ∃ i d, FirstLargest mm.entries i d := by
  have hspec := scanMemmap_spec mm.entries mm.inRange
  cases hscan : (scanMemmap mm.entries).defaultMemmap with
  | none =>
    obtain ⟨e, he, hu⟩ := mm.someUsable
    exact absurd hu (hspec.none hscan e he)
  | some id => exact ⟨id.1, id.2, hspec.some id.1 id.2 hscan⟩

-- ---------------------------------------------------------------------------
-- The clearing loops
-- ---------------------------------------------------------------------------

/-- The clearing loop after the offsets below `o`. -/
structure ClearInv (e : LimineMemmapEntry) (s : Machine) (st : Nat × Machine) : Prop where
  aligned : st.1 % 4096 = 0
  le : st.1 ≤ e.length
  globals : SameGlobals s st.2
  free : ∀ page, page < 2 ^ 64 → (st.2.free page ↔
    e.base ≤ 4096 * page ∧ 4096 * page < e.base + st.1 ∨ s.free page)

/-- One round of the clearing loop frees one page; the pages left are its
measure. -/
theorem ClearInv.next {e : LimineMemmapEntry} {s : Machine} {st st' : Nat × Machine}
    (halign : e.base % 4096 = 0 ∧ e.length % 4096 = 0) (hrange : e.base + e.length < 2 ^ 64)
    (hinv : ClearInv e s st) (h : clearBody e st = .inl st') :
    ClearInv e s st' ∧ (e.length - st'.1) / 4096 < (e.length - st.1) / 4096 := by
  obtain ⟨o, t⟩ := st
  have haligned : o % 4096 = 0 := hinv.aligned
  unfold clearBody at h
  split at h
  case isFalse => simp at h
  case isTrue hlt =>
    simp only at hlt
    rw [← Sum.inl.inj h]
    -- no offset and no address of a usable entry wraps
    have ho : u64 (o + 4096) = o + 4096 := u64_of_lt (by omega)
    have hbit : u64 (e.base + o) / 4096 = (e.base + o) / 4096 := by rw [u64_of_lt (by omega)]
    refine ⟨⟨?_, ?_, ?_, ?_⟩, ?_⟩
    · show u64 (o + 4096) % 4096 = 0
      omega
    · show u64 (o + 4096) ≤ e.length
      omega
    · exact hinv.globals.trans (sameGlobals_bitmapClear t _ _)
    · intro page hpage
      show (bitmapClear t t.pmmBitmap (u64 (e.base + o) / 4096)).free page ↔
        e.base ≤ 4096 * page ∧ 4096 * page < e.base + u64 (o + 4096) ∨ s.free page
      rw [free_bitmapClear t (by omega) hpage, hinv.free page hpage, ho, hbit, ← or_assoc]
      -- the pages below offset o, and the one at offset o
      refine or_congr ?_ Iff.rfl
      show _ ∨ e.base ≤ 4096 * page ∧ 4096 * page < e.base + o ↔ _
      omega
    · show (e.length - u64 (o + 4096)) / 4096 < (e.length - o) / 4096
      omega

/-- Clearing a usable entry returns, with exactly its pages freed; any other
entry is left alone. -/
theorem clearEntry_spec {e : LimineMemmapEntry} (s : Machine)
    (halign : e.usable → e.base % 4096 = 0 ∧ e.length % 4096 = 0)
    (hrange : e.usable → e.base + e.length < 2 ^ 64) :
    ∃ s', clearEntry s e = some s' ∧ SameGlobals s s' ∧ ∀ page, page < 2 ^ 64 →
      (s'.free page ↔ e.usable ∧ e.contains (4096 * page) ∨ s.free page) := by
  unfold clearEntry
  by_cases hu : e.usable
  case neg => exact ⟨s, if_neg hu, .refl s, fun page _ => by simp [hu]⟩
  case pos =>
    have hlen := hrange hu
    have hstart : ClearInv e s (0, s) := by
      refine ⟨rfl, Nat.zero_le _, .refl s, ?_⟩
      intro page _
      simp only
      constructor
      · exact .inr
      · rintro (h | h)
        · omega
        · exact h
    -- the measure is the number of pages still to clear
    obtain ⟨s', ⟨o, t⟩, hrun, -, hinv, hdone⟩ :=
      whileRun_total (fun st => (e.length - st.1) / 4096) hstart
        (fun _ _ ha hstep => ha.next (halign hu) hlen hstep)
        (show (e.length - 0) / 4096 < 2 ^ 52 + 1 by omega)
    have hle : o ≤ e.length := hinv.le
    unfold clearBody at hdone
    split at hdone
    case isTrue => simp at hdone
    case isFalse hge =>
      simp only at hge
      obtain rfl : t = s' := Sum.inr.inj hdone
      -- the loop ends exactly at the end of the entry
      obtain rfl : o = e.length := by omega
      refine ⟨t, by rw [if_pos hu, hrun], hinv.globals, fun page hpage => ?_⟩
      rw [hinv.free page hpage]
      exact or_congr ⟨fun h => ⟨hu, h⟩, fun h => h.2⟩ Iff.rfl

/-- All entries: the pages freed are those of the usable ones. By induction on
the list; each entry adds its own pages to those free before it. -/
theorem clearAll_spec (es : List LimineMemmapEntry) (s : Machine)
    (halign : ∀ e ∈ es, e.usable → e.base % 4096 = 0 ∧ e.length % 4096 = 0)
    (hrange : ∀ e ∈ es, e.usable → e.base + e.length < 2 ^ 64) :
    ∃ s', es.foldlM clearEntry s = some s' ∧ SameGlobals s s' ∧ ∀ page, page < 2 ^ 64 →
      (s'.free page ↔ (∃ e ∈ es, e.usable ∧ e.contains (4096 * page)) ∨ s.free page) := by
  -- every entry adds its own pages to those free before it
  induction es generalizing s with
  | nil => exact ⟨s, rfl, .refl s, fun page _ => by simp⟩
  | cons e es ih =>
    obtain ⟨s₁, hrun₁, hglob₁, hfree₁⟩ := clearEntry_spec s
      (halign e List.mem_cons_self) (hrange e List.mem_cons_self)
    obtain ⟨s₂, hrun₂, hglob₂, hfree₂⟩ := ih s₁
      (fun x hx => halign x (List.mem_cons_of_mem _ hx))
      (fun x hx => hrange x (List.mem_cons_of_mem _ hx))
    refine ⟨s₂, ?_, hglob₁.trans hglob₂, ?_⟩
    · rw [List.foldlM_cons, hrun₁]
      exact hrun₂
    · intro page hpage
      rw [hfree₂ page hpage, hfree₁ page hpage]
      simp only [List.mem_cons, exists_eq_or_imp]
      rw [or_left_comm, or_assoc]

-- ---------------------------------------------------------------------------
-- The whole of `pmm_init`
-- ---------------------------------------------------------------------------

/-- Two usable entries of a memory map share no address. -/
theorem Memmap.disjoint_at (mm : Memmap) {j k x : Nat} {a b : LimineMemmapEntry}
    (hj : mm.entries[j]? = some a) (hk : mm.entries[k]? = some b) (hne : j ≠ k)
    (ha : a.usable) (hb : b.usable) : ¬ (a.contains x ∧ b.contains x) := by
  obtain ⟨hjlt, rfl⟩ := List.getElem?_eq_some_iff.mp hj
  obtain ⟨hklt, rfl⟩ := List.getElem?_eq_some_iff.mp hk
  have hpair := List.pairwise_iff_getElem.mp mm.disjoint
  rcases Nat.lt_or_gt_of_ne hne with hlt | hgt
  · exact hpair j k hjlt hklt hlt ha hb x
  · exact fun h => hpair k j hklt hjlt hgt hb ha x h.symm

/-- The page count that the source computes is that of the map: no end of a
usable entry wraps around. -/
theorem placeBitmap_pageCount (mm : Memmap) (s : Machine) (d : LimineMemmapEntry) :
    (placeBitmap s mm.entries d).pmmPageCount = mm.pageCount := by
  show (scanMemmap mm.entries).higherAddress / 4096 = _
  rw [(scanMemmap_spec mm.entries mm.inRange).higher, Memmap.pageCount]

/-- It is an address divided by the page size. -/
theorem Memmap.pageCount_lt (mm : Memmap) : mm.pageCount < 2 ^ 52 := by
  rw [← placeBitmap_pageCount mm (Machine.boot (fun _ => 0) 0) ⟨0, 0, 0⟩]
  exact Machine.pageCount_lt _

/-- The size that the source reserves. The division by 8 truncates, so the
pages of the last, unfinished byte are not counted. -/
theorem alignUp_pageCount (mm : Memmap) : alignUp (mm.pageCount / 8) = mm.bitmapSize := by
  have := mm.pageCount_lt
  show u64 (mm.pageCount / 8 + 4095) / 4096 * 4096 = _
  rw [u64_of_lt (by omega), Memmap.bitmapSize]

/-- The bits of the bitmap are far from any overflow. -/
theorem Memmap.bitmapSize_lt (mm : Memmap) : 8 * mm.bitmapSize < 2 ^ 53 := by
  have := mm.pageCount_lt
  unfold Memmap.bitmapSize
  omega

section Cut

variable {mm : Memmap} {i : Nat} {d : LimineMemmapEntry}
  (hd : FirstLargest mm.entries i d) (hfit : mm.bitmapSize ≤ d.length)

include hd in
/-- It is an entry of the map. -/
theorem FirstLargest.mem : d ∈ mm.entries := List.mem_of_getElem? hd.entry

include hd hfit in
/-- Nothing wraps when the bitmap is cut off an entry that holds it. -/
theorem cut_eq : d.cut mm.bitmapSize =
    { d with base := d.base + mm.bitmapSize, length := d.length - mm.bitmapSize } := by
  have hrange := mm.inRange d (FirstLargest.mem hd) hd.usable
  have hlen : u64 (d.length + 2 ^ 64 - mm.bitmapSize) = d.length - mm.bitmapSize := by
    unfold u64
    omega
  rw [LimineMemmapEntry.cut, u64_of_lt (by omega), hlen]

include hd hfit in
/-- What the memory map covers once the bitmap has been cut off `d`: all it
covered before, less the front of that entry. No other entry loses an address,
since usable entries do not overlap. -/
theorem set_cut_contains (x : Nat) :
    (∃ e ∈ mm.entries.set i (d.cut mm.bitmapSize), e.usable ∧ e.contains x) ↔
      (∃ e ∈ mm.entries, e.usable ∧ e.contains x) ∧
        ¬ (d.base ≤ x ∧ x < d.base + mm.bitmapSize) := by
  have hi : i < mm.entries.length := (List.getElem?_eq_some_iff.mp hd.entry).1
  rw [cut_eq hd hfit]
  constructor
  · rintro ⟨e, he, hu, hx⟩
    obtain ⟨j, hj⟩ := List.mem_iff_getElem?.mp he
    rw [List.getElem?_set] at hj
    -- an address of the cut entry is behind the bitmap, one of another entry not in `d`
    split at hj
    case isTrue hij =>
      obtain rfl := Option.some.inj hj
      have h1 : d.base + mm.bitmapSize ≤ x := hx.1
      have h2 : x < d.base + mm.bitmapSize + (d.length - mm.bitmapSize) := hx.2
      exact ⟨⟨d, FirstLargest.mem hd, hd.usable, by omega, by omega⟩, by omega⟩
    case isFalse hij =>
      refine ⟨⟨e, List.mem_of_getElem? hj, hu, hx⟩, ?_⟩
      intro hfront
      exact mm.disjoint_at hd.entry hj hij hd.usable hu ⟨⟨by omega, by omega⟩, hx⟩
  · rintro ⟨⟨e, he, hu, hx⟩, hfront⟩
    obtain ⟨j, hj⟩ := List.mem_iff_getElem?.mp he
    -- conversely an address in `d` that is not in its front is in the cut entry
    by_cases hij : i = j
    · subst hij
      obtain rfl := Option.some.inj (hj.symm.trans hd.entry)
      have h1 : e.base ≤ x := hx.1
      have h2 : x < e.base + e.length := hx.2
      refine ⟨{ e with base := e.base + mm.bitmapSize, length := e.length - mm.bitmapSize },
        List.mem_iff_getElem?.mpr ⟨i, List.getElem?_set_self hi⟩, hu, ?_, ?_⟩
      · show e.base + mm.bitmapSize ≤ x
        omega
      · show x < e.base + mm.bitmapSize + (e.length - mm.bitmapSize)
        omega
    · refine ⟨e, List.mem_iff_getElem?.mpr ⟨j, ?_⟩, hu, hx⟩
      rw [List.getElem?_set_ne hij, hj]

include hd hfit in
/-- The usable entries are still page-aligned and inside the address space. -/
theorem set_cut_ok : ∀ e ∈ mm.entries.set i (d.cut mm.bitmapSize), e.usable →
    (e.base % 4096 = 0 ∧ e.length % 4096 = 0) ∧ e.base + e.length < 2 ^ 64 := by
  have hrange := mm.inRange d (FirstLargest.mem hd) hd.usable
  have halign := mm.aligned d (FirstLargest.mem hd) hd.usable
  have hbs : mm.bitmapSize % 4096 = 0 := Nat.mul_mod_left _ _
  intro e he hu
  rcases List.mem_or_eq_of_mem_set he with hmem | rfl
  · exact ⟨mm.aligned e hmem hu, mm.inRange e hmem hu⟩
  · rw [cut_eq hd hfit]
    refine ⟨⟨?_, ?_⟩, ?_⟩
    · show (d.base + mm.bitmapSize) % 4096 = 0
      omega
    · show (d.length - mm.bitmapSize) % 4096 = 0
      omega
    · show d.base + mm.bitmapSize + (d.length - mm.bitmapSize) < 2 ^ 64
      omega

/-- The bytes of the bitmap are at the front of the entry. -/
theorem placeBitmap_byte (s : Machine) (entries : List LimineMemmapEntry) (d : LimineMemmapEntry)
    (page : Nat) : bitmapByte (placeBitmap s entries d) page = u64 (d.base + page / 8) :=
  physical_higherHalf_u64 s d.base (page / 8)

/-- A bitmap filled with ones has every page in use. -/
theorem fill_used (s : Machine) {n page : Nat} (hfit : d.base + n ≤ 2 ^ 64) (hpage : page < 8 * n) :
    (memset (placeBitmap s mm.entries d) (s.higherHalf d.base) 0xFF n).used page = true := by
  have hfill : (memset (placeBitmap s mm.entries d) (s.higherHalf d.base) 0xFF n).mem
      (d.base + page / 8) = 0xFF := by
    have := memset_mem (placeBitmap s mm.entries d) 0xFF hfit (d.base + page / 8)
    rw [if_pos (by omega)] at this
    exact this
  -- a byte of ones has each of its bits set
  have hones : ∀ k, k < 8 → (0xFF : BitVec 8).getLsbD k = true := by decide
  rw [used_eq, (sameGlobals_memset _ _ _ _).bitmapByte, placeBitmap_byte, u64_of_lt (by omega),
    hfill]
  exact hones _ (Nat.mod_lt _ (by decide))

/-- The machine `pmm_init` leaves behind. -/
structure InitSpec (mm : Memmap) (d : LimineMemmapEntry) (s s' : Machine) : Prop where
  hhdm : s'.hhdmOffset = s.hhdmOffset
  pageCount : s'.pmmPageCount = mm.pageCount
  lastPage : s'.pmmLastPage = s.pmmLastPage
  byte : ∀ page, bitmapByte s' page = u64 (d.base + page / 8)
  free : ∀ page, page < 8 * mm.bitmapSize → (s'.free page ↔ FreePage mm d page)

include hd hfit in
/--
**`pmm_init` as a whole**: it returns, and what it leaves behind is an
`InitSpec`. The bitmap is written before the entry is cut, so its fill does not
see the new bounds; the second loop does, and leaves the bitmap's own pages in
use.
-/
theorem pmmInit_spec (s : Machine) :
    ∃ s' entries, pmmInit s mm.entries = some (s', entries) ∧ InitSpec mm d s s' := by
  have hrange := mm.inRange d (FirstLargest.mem hd) hd.usable
  have hset := set_cut_ok hd hfit
  -- the bitmap is filled with ones
  let s₁ := placeBitmap s mm.entries d
  let s₂ := memset s₁ s₁.pmmBitmap 0xFF mm.bitmapSize
  have hglob₂ : SameGlobals s₁ s₂ := sameGlobals_memset _ _ _ _
  have hused₂ : ∀ page, page < 8 * mm.bitmapSize → ¬ s₂.free page := fun page hpage =>
    not_free.mpr (fill_used s (by omega) hpage)
  -- the pages left are cleared
  let entries := mm.entries.set i (d.cut mm.bitmapSize)
  -- the clearing loops run on the map whose first largest entry is cut
  obtain ⟨s₃, hrun, hglob₃, hfree₃⟩ := clearAll_spec entries s₂
    (fun e he hu => (hset e he hu).1) (fun e he hu => (hset e he hu).2)
  have hglob : SameGlobals s₁ s₃ := hglob₂.trans hglob₃
  refine ⟨s₃, entries, ?_, ?_⟩
  · -- the call, with its size computed
    have hsize : alignUp (s₁.pmmPageCount / 8) = mm.bitmapSize := by
      rw [placeBitmap_pageCount, alignUp_pageCount]
    rw [pmmInit, scanMemmap_default mm hd]
    show (List.foldlM clearEntry
        (memset s₁ s₁.pmmBitmap 0xFF (alignUp (s₁.pmmPageCount / 8)))
        (mm.entries.set i (d.cut (alignUp (s₁.pmmPageCount / 8))))).map _ = _
    rw [hsize]
    show (List.foldlM clearEntry s₂ entries).map _ = _
    rw [hrun]
    rfl
  · -- the machine left behind
    refine ⟨hglob.hhdm, ?_, hglob.lastPage, ?_, ?_⟩
    · rw [hglob.pageCount, placeBitmap_pageCount]
    · intro page
      rw [hglob.bitmapByte, placeBitmap_byte]
    · intro page hpage
      have := mm.bitmapSize_lt
      rw [hfree₃ page (by omega), FreePage, ← set_cut_contains hd hfit (4096 * page)]
      exact or_iff_left (hused₂ page hpage)

end Cut

-- ---------------------------------------------------------------------------
-- The bits above the page count
-- ---------------------------------------------------------------------------

/-- No usable entry ends above the highest address. -/
theorem le_highestAddress {entries : List LimineMemmapEntry} {e : LimineMemmapEntry}
    (he : e ∈ entries) (hu : e.usable) : e.base + e.length ≤ highestAddress entries := by
  -- the maximum only grows behind the entry
  induction entries using List.reverseRecOn with
  | nil => exact absurd he List.not_mem_nil
  | append_singleton l x ih =>
    rw [highestAddress_snoc]
    rcases List.mem_append.mp he with hl | hx
    · have := ih hl
      split <;> omega
    · obtain rfl := List.mem_singleton.mp hx
      rw [if_pos hu]
      omega

/-- A free page lies below the page count. -/
theorem FreePage.lt {mm : Memmap} {d : LimineMemmapEntry} {page : Nat}
    (h : FreePage mm d page) : page < mm.pageCount := by
  obtain ⟨⟨e, he, hu, hlo, hhi⟩, -⟩ := h
  have halign := mm.aligned e he hu
  have htop := le_highestAddress he hu
  unfold Memmap.pageCount
  omega

-- ---------------------------------------------------------------------------
-- Maps with one usable entry
-- ---------------------------------------------------------------------------

/-- `k` pages of usable memory from page 1 on. -/
def singleEntry (k : Nat) : LimineMemmapEntry := ⟨4096, 4096 * k, limineMemmapUsable⟩

/-- The memory map of one usable entry. -/
def singleMap (k : Nat) (hk : k < 2 ^ 51) : Memmap where
  entries := [singleEntry k]
  aligned := by
    intro e he _
    rw [List.mem_singleton.mp he]
    show 4096 % 4096 = 0 ∧ 4096 * k % 4096 = 0
    omega
  inRange := by
    intro e he _
    rw [List.mem_singleton.mp he]
    show 4096 + 4096 * k < 2 ^ 64
    omega
  disjoint := List.pairwise_singleton _ _
  someUsable := ⟨singleEntry k, List.mem_singleton.mpr rfl, rfl⟩

section Single

variable {k : Nat} {hk : k < 2 ^ 51}

/-- Its entry is the largest one, -/
theorem singleMap_firstLargest : FirstLargest (singleMap k hk).entries 0 (singleEntry k) := by
  have honly : ∀ (j : Nat) (e : LimineMemmapEntry), (singleMap k hk).entries[j]? = some e →
      j = 0 ∧ e = singleEntry k := by
    intro j e h
    obtain ⟨hlt, rfl⟩ := List.getElem?_eq_some_iff.mp h
    obtain rfl : j = 0 := Nat.lt_one_iff.mp hlt
    exact ⟨rfl, rfl⟩
  refine ⟨rfl, rfl, ?_, ?_⟩
  · intro j e h _
    exact Nat.le_of_eq (by rw [(honly j e h).2])
  · intro j e h _ hj
    exact absurd hj (by rw [(honly j e h).1]; exact Nat.lt_irrefl 0)

/-- there is a page more than the entry has, since page 0 is counted, -/
theorem singleMap_pageCount : (singleMap k hk).pageCount = k + 1 := by
  show max 0 (4096 + 4096 * k) / 4096 = k + 1
  omega

/-- and page 0 is not usable. -/
theorem singleMap_page_zero : ∀ e ∈ (singleMap k hk).entries, e.usable → ¬ e.contains 0 := by
  intro e he _ hx
  rw [List.mem_singleton.mp he] at hx
  have : 4096 ≤ 0 := hx.1
  omega

/-- The bitmap fits as soon as there is a page for it. -/
theorem singleMap_fits (h1 : 1 ≤ k) :
    (singleMap k hk).bitmapSize ≤ (singleEntry k).length := by
  show _ ≤ 4096 * k
  rw [Memmap.bitmapSize, singleMap_pageCount]
  omega

end Single

/-- **`pmm_init` marks exactly the usable memory free.** Whatever memory holds
before, when the bitmap fits into the first largest usable entry and has a bit
for every page, the call returns and a page below the page count has its bit
clear exactly when it lies in a usable entry and not in the front of that
entry where the bitmap is; every other bit of the bitmap is set. -/
theorem pmmInit_free_iff (mm : Memmap) (s : Machine) {i : Nat} {d : LimineMemmapEntry}
    (hd : FirstLargest mm.entries i d) (hfit : mm.bitmapSize ≤ d.length)
    (hcover : mm.pageCount ≤ 8 * mm.bitmapSize) :
    ∃ s' entries, pmmInit s mm.entries = some (s', entries) ∧
      s'.pmmPageCount = mm.pageCount ∧
      (∀ page, page < s'.pmmPageCount → (s'.used page = false ↔
        (∃ e ∈ mm.entries, e.usable ∧ e.contains (4096 * page)) ∧
          ¬ ∃ k, k < mm.bitmapSize / 4096 ∧ page = d.base / 4096 + k)) ∧
      ∀ page, s'.pmmPageCount ≤ page → page < 8 * mm.bitmapSize → s'.used page = true := by
  obtain ⟨s', entries, hrun, hspec⟩ := pmmInit_spec hd hfit s
  have halign := mm.aligned d (FirstLargest.mem hd) hd.usable
  have hbs : mm.bitmapSize % 4096 = 0 := Nat.mul_mod_left _ _
  refine ⟨s', entries, hrun, hspec.pageCount, ?_, ?_⟩
  · intro page hpage
    rw [hspec.pageCount] at hpage
    rw [← Machine.free, hspec.free page (by omega), FreePage]
    -- the front of `d` is a whole number of pages
    refine and_congr Iff.rfl (not_congr ⟨?_, ?_⟩)
    · intro h
      exact ⟨page - d.base / 4096, by omega, by omega⟩
    · rintro ⟨k, hk, rfl⟩
      omega
  · intro page hlo hhi
    rw [hspec.pageCount] at hlo
    rw [← not_free, hspec.free page hhi]
    intro h
    have := h.lt
    omega

/-- On the map with 32 usable pages from page 1 on: one page of bitmap is cut
off the front, and the 31 pages behind it are free. -/
theorem pmmInit_free_iff_single :
    ∃ s' entries,
      pmmInit (Machine.boot (fun _ => 0) usualHhdm) (singleMap 32 (by decide)).entries =
        some (s', entries) ∧
      s'.pmmPageCount = (singleMap 32 (by decide)).pageCount ∧
      (∀ page, page < s'.pmmPageCount → (s'.used page = false ↔
        (∃ e ∈ (singleMap 32 (by decide)).entries, e.usable ∧ e.contains (4096 * page)) ∧
          ¬ ∃ k, k < (singleMap 32 (by decide)).bitmapSize / 4096 ∧
            page = (singleEntry 32).base / 4096 + k)) ∧
      ∀ page, s'.pmmPageCount ≤ page → page < 8 * (singleMap 32 (by decide)).bitmapSize →
        s'.used page = true :=
  pmmInit_free_iff (singleMap 32 (by decide)) (Machine.boot (fun _ => 0) usualHhdm)
    singleMap_firstLargest (singleMap_fits (by decide)) (by decide)

end Medlar64
