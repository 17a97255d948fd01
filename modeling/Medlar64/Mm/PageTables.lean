import Medlar64.Mm.Vmm

/-!
# Medlar64 — page tables refine a map

The tables that `vmm_map` builds under one top-level table, over any sequence
of calls. `TreeInv` says that they form a tree of distinct pages apart from the
bitmap. Fetching the next level reuses a table or hangs in an empty one, and
changes no translation; the entry written last changes its own.

* `Hung`, `Hangs` — what making a table does, and making several; `EntrySet` —
  what writing an entry does; `TreeInv.mapWord` — `vmm_map` does both.
* `TreeInv.map` — the step lemma.
* `vmm_map_refines` — after any sequence of calls, the walk gives what the
  last call for that page asked for.
-/

namespace Medlar64

open Tables (node lookup)

-- ---------------------------------------------------------------------------
-- Pages in use
-- ---------------------------------------------------------------------------

/-- A table at `t` is reachable from the top-level table. -/
def TableAt (s : Machine) (root t : Nat) : Prop :=
  ∃ path, path.length < 4 ∧ node nextTable s.tables root path = some t

/-- `p` is the address of a page of managed memory that is not in use: it is
neither a table nor part of the bitmap. -/
structure FreshPage (s : Machine) (root p : Nat) : Prop where
  nonNull : p ≠ 0
  page : PhysPage p
  managed : p / 4096 < s.pmmPageCount
  offBitmap : OffBitmap s p
  notTable : ¬ TableAt s root p

/-- The tables are distinct pages apart from the bitmap. -/
structure TreeInv (s : Machine) (root : Nat) : Prop where
  distinct : Tables.Distinct nextTable 4 s.tables root
  page : ∀ t, TableAt s root t → PhysPage t
  offBitmap : ∀ t, TableAt s root t → OffBitmap s t

section Memory

variable {s s' : Machine} {root t p : Nat}

theorem tables_congr (h : ∀ x, t ≤ x → x < t + 4096 → s'.mem x = s.mem x) (i : Fin 512) :
    s'.tables t i = s.tables t i := by
  have hi := i.isLt
  exact loadLE_congr fun x hlo hhi => h x (by omega) (by omega)

/-- The word at an index, read through the direct map. -/
theorem load_entry (s : Machine) (hp : PhysPage t) (i : Fin 512) :
    s.load (s.higherHalf t + 8 * i) 8 = s.tables t i := by
  have hi := i.isLt
  have hlt := hp.lt
  rw [Machine.load, physical_higherHalf_add s (by omega)]
  rfl

/-- Storing an entry writes that entry. -/
theorem store_tables (s : Machine) (hp : PhysPage t) (i : Fin 512) {word : Nat}
    (hword : word < 2 ^ 64) : (s.store (s.higherHalf t + 8 * i) 8 word).tables t i = word := by
  have hi := i.isLt
  have hlt := hp.lt
  show loadLE (storeLE s.mem (s.physical (s.higherHalf t + 8 * i)) 8 word) (t + 8 * i) 8 = word
  rw [physical_higherHalf_add s (by omega), loadLE_storeLE]
  exact Nat.mod_eq_of_lt hword

/-- Storing an entry writes no other entry of any table. -/
theorem store_tables_other (s : Machine) (hp : PhysPage t) {u : Nat} (hu : PhysPage u)
    (i j : Fin 512) (word : Nat) (h : u ≠ t ∨ j ≠ i) :
    (s.store (s.higherHalf t + 8 * i) 8 word).tables u j = s.tables u j := by
  have hi := i.isLt
  have hj := j.isLt
  have hij : j ≠ i → (j : Nat) ≠ i := fun h heq => h (Fin.ext heq)
  obtain ⟨ht, hlt⟩ := hp
  obtain ⟨hu, -⟩ := hu
  show loadLE (storeLE s.mem (s.physical (s.higherHalf t + 8 * i)) 8 word) (u + 8 * j) 8 = _
  rw [physical_higherHalf_add s (by omega), loadLE_storeLE_disjoint]
  · rfl
  · -- another table is another page, another slot another word
    rcases h with h | h
    · omega
    · have := hij h
      omega

/-- `pmm_alloc(1)` leaves alone every page off the bitmap. -/
theorem tables_pmmAlloc (halloc : pmmAlloc s 1 = some (p, s')) (hp : p / 4096 < s.pmmPageCount)
    (ht : PhysPage t) (hoff : OffBitmap s t) (i : Fin 512) : s'.tables t i = s.tables t i := by
  have haligned := ht.aligned
  refine tables_congr (fun x hlo hhi => pmmAlloc_mem halloc ?_ ?_) i
  · rintro k hk rfl
    exact hoff k (by omega) (by omega)
  · rintro k hk rfl
    exact hoff (p / 4096 + k) (by omega) (by omega)

/-- Clearing one page leaves every other page alone and the page empty. The
page is cleared through the direct map, in which no page is mapped twice. -/
theorem tables_memset (s : Machine) (hp : PhysPage p) (ht : PhysPage t) (i : Fin 512) :
    (memset s (s.higherHalf p) 0 pageSize).tables t i = if t = p then 0 else s.tables t i := by
  show (memset s (s.higherHalf p) 0 4096).tables t i = _
  have hi := i.isLt
  obtain ⟨haligned, hlt⟩ := hp
  obtain ⟨htaligned, htlt⟩ := ht
  by_cases h : t = p
  · -- the page cleared
    subst h
    rw [if_pos rfl]
    have hzero : ∀ x, t + 8 * i ≤ x → x < t + 8 * i + 8 →
        (memset s (s.higherHalf t) 0 4096).mem x = (fun _ => 0) x := by
      intro x hlo hhi
      rw [memset_mem s 0 (by omega) x, if_pos (by omega)]
    exact (loadLE_congr hzero).trans (by simp [loadLE])
  · -- any other page
    rw [if_neg h]
    refine tables_congr ?_ i
    intro x hlo hhi
    rw [memset_mem s 0 (by omega) x, if_neg (by omega)]

end Memory

-- ---------------------------------------------------------------------------
-- Fetching the next level
-- ---------------------------------------------------------------------------

/-- If `vmm_get_next_lvl` has to make a table at this entry, its
`pmm_alloc(1)` returns a page that is not in use. -/
def NextLvlFresh (s : Machine) (root lvl entry : Nat) : Prop :=
  s.load (lvl + 8 * entry) 8 &&& ptePresent = 0 →
    ∃ p s', pmmAlloc s 1 = some (p, s') ∧ FreshPage s root p

theorem innerFlags_mask : (ptePresent ||| pteWritable) &&& pteAddrMask = 0 := by decide

theorem innerFlags_present : (ptePresent ||| pteWritable) &&& ptePresent ≠ 0 := by decide

/-- An entry made of a page and such flags leads to that page. -/
theorem nextTable_or {p flags : Nat} (hp : PhysPage p) (hmask : flags &&& pteAddrMask = 0)
    (hflags : flags &&& ptePresent ≠ 0) : nextTable (p ||| flags) = some p := by
  rw [nextTable, if_neg (present_or hflags), pteGetAddr_or hp hmask]

section Step

variable {s : Machine} {root t : Nat} {path : List (Fin 512)}

/--
**A new table.** Where the entry is absent, the page that `pmm_alloc` returns
is cleared and entered. The words of every page are as before but for the entry
and the new, empty page; memory outside the two pages is untouched.
-/
theorem getNextLvl_new {s₁ : Machine} {p : Nat} (hpage : PhysPage t) (i : Fin 512)
    (habsent : s.tables t i &&& ptePresent = 0) (halloc : pmmAlloc s 1 = some (p, s₁))
    (hp : PhysPage p) :
    ∃ s', vmmGetNextLvl s (s.higherHalf t) i (ptePresent ||| pteWritable) true =
        some (s.higherHalf p, s') ∧ SameGlobals s₁ s' ∧
      (∀ u, PhysPage u → ∀ j, s'.tables u j =
        if u = t ∧ j = i then p ||| (ptePresent ||| pteWritable)
        else if u = p then 0 else s₁.tables u j) ∧
      ∀ x, x / 4096 ≠ t / 4096 → x / 4096 ≠ p / 4096 → s'.mem x = s₁.mem x := by
  have hlayout := (pmmAlloc_cases halloc).1
  have hi := i.isLt
  have hlt := hp.lt
  have htlt := hpage.lt
  have haligned := hp.aligned
  have htaligned := hpage.aligned
  have hhalf : s.higherHalf = s₁.higherHalf := funext fun x => (hlayout.higherHalf x).symm
  have hglob := sameGlobals_memset s₁ (s₁.higherHalf p) 0 pageSize
  have hphys : (memset s₁ (s₁.higherHalf p) 0 pageSize).physical (s₁.higherHalf p) = p := by
    rw [hglob.physical, physical_higherHalf s₁ (by omega)]
  unfold vmmGetNextLvl
  rw [load_entry s hpage i, if_neg (not_not.mpr habsent), halloc]
  simp only [Bool.not_true, Bool.false_eq_true, if_false, hhalf, hphys]
  refine ⟨_, rfl, hglob.trans (sameGlobals_store _ _ _ _), ?_, ?_⟩
  · -- the words: the entry, the empty page, and the rest
    intro u hu j
    have hword : p ||| (ptePresent ||| pteWritable) < 2 ^ 64 :=
      Nat.or_lt_two_pow (by omega) (by decide)
    rw [← hglob.higherHalf t]
    by_cases h : u = t ∧ j = i
    · obtain ⟨rfl, rfl⟩ := h
      rw [if_pos ⟨rfl, rfl⟩, store_tables _ hpage j hword]
    · rw [if_neg h, store_tables_other _ hpage hu i j _ (not_and_or.mp h),
        tables_memset s₁ hp hu j]
  · -- memory outside the two pages
    intro x hxt hxp
    rw [← hglob.higherHalf t, Machine.store, physical_higherHalf_add _ (by omega)]
    show storeLE (memset s₁ (s₁.higherHalf p) 0 4096).mem _ _ _ x = _
    rw [storeLE_outside (by omega), memset_mem s₁ 0 (by omega) x, if_neg (by omega)]

/-- In the tree, making a table hangs the new page into the empty slot. The
page was free, hence no table of the tree, and what the allocation writes is in
the bitmap, which is off the tables. -/
theorem TreeInv.graft {s₁ s' : Machine} {p : Nat} (hinv : TreeInv s root)
    (hnode : node nextTable s.tables root path = some t) (hlen : path.length < 3) (i : Fin 512)
    (habsent : s.tables t i &&& ptePresent = 0) (halloc : pmmAlloc s 1 = some (p, s₁))
    (hp : FreshPage s root p)
    (hwords : ∀ u, PhysPage u → ∀ j, s'.tables u j =
      if u = t ∧ j = i then p ||| (ptePresent ||| pteWritable)
      else if u = p then 0 else s₁.tables u j) :
    Tables.Graft nextTable 4 s.tables s'.tables root path t i p := by
  have htable : TableAt s root t := ⟨path, by omega, hnode⟩
  have hpage := hinv.page t htable
  have hne : ∀ u, TableAt s root u → u ≠ p := by
    rintro u hu rfl
    exact hp.notTable hu
  refine ⟨hnode, by omega, fun q u j hq hu hdiff => ?_, if_pos habsent, ?_, fun j => ?_⟩
  · -- neither the allocation nor the two writes touch another slot of the tree
    have hu : TableAt s root u := ⟨q, hq, hu⟩
    rw [hwords u (hinv.page u hu) j, if_neg (not_and_or.mpr hdiff), if_neg (hne u hu),
      tables_pmmAlloc halloc hp.managed (hinv.page u hu) (hinv.offBitmap u hu) j]
  · -- the slot leads to the new page
    rw [hwords t hpage i, if_pos ⟨rfl, rfl⟩,
      nextTable_or hp.page innerFlags_mask innerFlags_present]
  · -- which is empty
    rw [hwords p hp.page j, if_neg fun h => hne t htable h.1.symm, if_pos rfl]
    rfl

/-- `vmm_get_next_lvl` has led from `s` to `s'` by making a table: slot `i` of
the table `t` at `path` leads to the page `p`, with which `pmm_alloc(1)` has
left `s₁`. -/
structure Hung (root : Nat) (path : List (Fin 512)) (t : Nat) (i : Fin 512) (p : Nat)
    (s s₁ s' : Machine) : Prop where
  alloc : pmmAlloc s 1 = some (p, s₁)
  fresh : FreshPage s root p
  graft : Tables.Graft nextTable 4 s.tables s'.tables root path t i p
  word : s'.tables t i = p ||| (ptePresent ||| pteWritable)
  globals : SameGlobals s₁ s'
  mem : ∀ x, x / 4096 ≠ t / 4096 → x / 4096 ≠ p / 4096 → s'.mem x = s₁.mem x

/-- The machine after making `n` tables. -/
inductive Hangs (root : Nat) (s : Machine) : Nat → Machine → Prop
  | none : Hangs root s 0 s
  | hang {n t p : Nat} {s' s₁ s'' : Machine} {path : List (Fin 512)} {i : Fin 512}
      (h : Hangs root s n s') (hhung : Hung root path t i p s' s₁ s'') : Hangs root s (n + 1) s''

/-- A table that is hung in leaves the layout of the machine alone. -/
theorem Hung.layout {s₁ s' : Machine} {i : Fin 512} {p : Nat}
    (h : Hung root path t i p s s₁ s') : SameLayout s s' :=
  (pmmAlloc_cases h.alloc).1.trans h.globals.toSameLayout

/-- No byte of the bitmap is written after the allocation. -/
theorem Hung.bitmap {s₁ s' : Machine} {p : Nat} {i : Fin 512} (hinv : TreeInv s root)
    (h : Hung root path t i p s s₁ s') {bit : Nat} (hbit : bit < s₁.pmmPageCount) :
    s'.mem (bitmapByte s₁ bit) = s₁.mem (bitmapByte s₁ bit) := by
  have hlayout := (pmmAlloc_cases h.alloc).1
  have hinner := h.graft.inner
  have htable : TableAt s root t := ⟨path, by omega, h.graft.node⟩
  rw [hlayout.pageCount] at hbit
  rw [hlayout.bitmapByte]
  -- neither page written holds one
  refine h.mem _ ?_ ?_
  · exact hinv.offBitmap t htable bit hbit
  · exact h.fresh.offBitmap bit hbit

/--
**Hanging an empty table in** grafts it onto the tree: the tables are the old
ones and the new one, still all different and off the bitmap, and no
translation changes, since an empty table translates nothing, just as the
absent entry did.
-/
theorem Hung.tree {s₁ s' : Machine} {p : Nat} {i : Fin 512} (hinv : TreeInv s root)
    (h : Hung root path t i p s s₁ s') :
    TreeInv s' root ∧ node nextTable s'.tables root (i :: path) = some p ∧
      (∀ u, TableAt s' root u → u = p ∨ TableAt s root u) ∧
      ∀ q, q.length = 4 → lookup nextTable s'.tables root q = lookup nextTable s.tables root q := by
  have hgraft := h.graft
  have hp := h.fresh
  have hinner := hgraft.inner
  -- a table of the new tree is an old one or the new one
  have htable : ∀ u, TableAt s' root u → u = p ∨ TableAt s root u := by
    rintro u ⟨q, hq, hu⟩
    rw [Tables.node_graft hinv.distinct hgraft hq] at hu
    by_cases hqm : q = i :: path
    · rw [if_pos hqm] at hu
      exact .inl (Option.some.inj hu).symm
    · rw [if_neg hqm] at hu
      exact .inr ⟨q, hq, hu⟩
  refine ⟨⟨?_, ?_, ?_⟩, ?_, htable, ?_⟩
  · exact hinv.distinct.graft hgraft fun q hq h => hp.notTable ⟨q, hq, h⟩
  · intro u hu
    rcases htable u hu with rfl | hu
    · exact hp.page
    · exact hinv.page u hu
  · -- the bitmap is where it was
    intro u hu
    rw [h.layout.offBitmap]
    rcases htable u hu with rfl | hu
    · exact hp.offBitmap
    · exact hinv.offBitmap u hu
  · rw [Tables.node_graft hinv.distinct hgraft (by simp only [List.length_cons]; omega),
      if_pos rfl]
  · intro q hq
    exact Tables.lookup_graft hinv.distinct hgraft hq

/-- So does hanging several, one after the other, -/
theorem Hangs.tree {s' : Machine} {n : Nat} (hinv : TreeInv s root) (h : Hangs root s n s') :
    SameLayout s s' ∧ TreeInv s' root ∧
      ∀ q, q.length = 4 → lookup nextTable s'.tables root q = lookup nextTable s.tables root q := by
  -- table by table
  induction h with
  | none => exact ⟨.refl s, hinv, fun _ _ => rfl⟩
  | hang _ hhung ih =>
    obtain ⟨hlayout, hinv', hsame⟩ := ih
    obtain ⟨hinv'', -, -, hsame'⟩ := hhung.tree hinv'
    exact ⟨hlayout.trans hhung.layout, hinv'', fun q hq => (hsame' q hq).trans (hsame q hq)⟩

/-- and more after those. -/
theorem Hangs.trans {s' s'' : Machine} {n m : Nat} (h : Hangs root s n s')
    (h' : Hangs root s' m s'') : Hangs root s (n + m) s'' := by
  induction h' with
  | none => exact h
  | hang _ hhung ih => exact .hang ih hhung

/-- **The next level**: the table at slot `i` of the table at `path`, which is
made if it is not there. -/
theorem TreeInv.getNextLvl (hinv : TreeInv s root)
    (hnode : node nextTable s.tables root path = some t) (hlen : path.length < 3) (i : Fin 512)
    (hfresh : NextLvlFresh s root (s.higherHalf t) i) :
    ∃ t' n s', vmmGetNextLvl s (s.higherHalf t) i (ptePresent ||| pteWritable) true =
        some (s.higherHalf t', s') ∧
      Hangs root s n s' ∧ n ≤ 1 ∧ node nextTable s'.tables root (i :: path) = some t' := by
  have hpage := hinv.page t ⟨path, by omega, hnode⟩
  by_cases habsent : s.tables t i &&& ptePresent = 0
  · -- a table is made
    unfold NextLvlFresh at hfresh
    rw [load_entry s hpage i] at hfresh
    obtain ⟨p, s₁, halloc, hp⟩ := hfresh habsent
    obtain ⟨s', hrun, hglob, hwords, hmem⟩ := getNextLvl_new hpage i habsent halloc hp.page
    have hword := hwords t hpage i
    rw [if_pos ⟨rfl, rfl⟩] at hword
    have hhung : Hung root path t i p s s₁ s' :=
      ⟨halloc, hp, hinv.graft hnode hlen i habsent halloc hp hwords, hword, hglob, hmem⟩
    obtain ⟨-, hnode', -⟩ := hhung.tree hinv
    exact ⟨p, 1, s', hrun, .hang .none hhung, Nat.le_refl 1, hnode'⟩
  · -- the table is there
    refine ⟨pteGetAddr (s.tables t i), 0, s, ?_, .none, Nat.zero_le 1, ?_⟩
    · unfold vmmGetNextLvl
      rw [load_entry s hpage i, if_pos habsent]
    · rw [Tables.node_cons hnode, nextTable, if_neg habsent]

end Step

-- ---------------------------------------------------------------------------
-- One call of `vmm_map`
-- ---------------------------------------------------------------------------

/-- Every `pmm_alloc(1)` that `vmm_map` makes on the way returns a page that
is not in use. -/
def MapFresh (s : Machine) (root pm virt : Nat) : Prop :=
  NextLvlFresh s root pm (pmlIndex virt 39) ∧
    ∀ pml3 s₃, vmmGetNextLvl s pm (pmlIndex virt 39) (ptePresent ||| pteWritable) true =
        some (pml3, s₃) →
      NextLvlFresh s₃ root pml3 (pmlIndex virt 30) ∧
        ∀ pml2 s₂, vmmGetNextLvl s₃ pml3 (pmlIndex virt 30) (ptePresent ||| pteWritable) true =
            some (pml2, s₂) →
          NextLvlFresh s₂ root pml2 (pmlIndex virt 21)

/-- `P` holds of every entry that `vmm_map` fetches a table from. -/
def AtLevels (P : Machine → Nat → Nat → Prop) (s : Machine) (pm virt : Nat) : Prop :=
  P s pm (pmlIndex virt 39) ∧
    ∀ pml3 s₃, vmmGetNextLvl s pm (pmlIndex virt 39) (ptePresent ||| pteWritable) true =
        some (pml3, s₃) →
      P s₃ pml3 (pmlIndex virt 30) ∧
        ∀ pml2 s₂, vmmGetNextLvl s₃ pml3 (pmlIndex virt 30) (ptePresent ||| pteWritable) true =
            some (pml2, s₂) →
          P s₂ pml2 (pmlIndex virt 21)

/-- Level by level: at most two tables have been made where an entry is
fetched. -/
theorem TreeInv.mapFresh {s : Machine} {root virt : Nat} {P : Machine → Nat → Nat → Prop}
    (hinv : TreeInv s root) (hP : AtLevels P s (s.higherHalf root) virt)
    (hnext : ∀ n s' lvl entry, Hangs root s n s' → n ≤ 2 → P s' lvl entry →
      NextLvlFresh s' root lvl entry) : MapFresh s root (s.higherHalf root) virt := by
  have hnode₄ : node nextTable s.tables root [] = some root := rfl
  obtain ⟨hP₄, hP₃⟩ := hP
  -- the top level: nothing was hung in before
  have hfresh₄ := hnext 0 s _ _ .none (by decide) hP₄
  refine ⟨hfresh₄, ?_⟩
  intro pml3 s₃ hrun₃
  obtain ⟨hP₃, hP₂⟩ := hP₃ pml3 s₃ hrun₃
  obtain ⟨t₃, n₃, s₃', hrun₃', hhangs₃, hle₃, hnode₃⟩ :=
    hinv.getNextLvl hnode₄ (by simp) (pmlSlot virt 39) hfresh₄
  obtain ⟨hlayout₃, hinv₃, -⟩ := hhangs₃.tree hinv
  obtain ⟨rfl, rfl⟩ := Prod.mk.inj (Option.some.inj (hrun₃.symm.trans hrun₃'))
  -- the next one, after at most one new table
  have hfresh₃ := hnext n₃ s₃ _ _ hhangs₃ (by omega) hP₃
  refine ⟨hfresh₃, ?_⟩
  intro pml2 s₂ hrun₂
  have hP₂ := hP₂ pml2 s₂ hrun₂
  rw [← hlayout₃.higherHalf t₃] at hfresh₃ hrun₂
  obtain ⟨t₂, n₂, s₂', hrun₂', hhangs₂, hle₂, -⟩ :=
    hinv₃.getNextLvl hnode₃ (by simp) (pmlSlot virt 30) hfresh₃
  obtain ⟨rfl, rfl⟩ := Prod.mk.inj (Option.some.inj (hrun₂.symm.trans hrun₂'))
  -- and the last, after at most two
  exact hnext (n₃ + n₂) s₂ _ _ (hhangs₃.trans hhangs₂) (by omega) hP₂

/-- A call of `vmm_map` with its arguments, the page map apart. -/
structure MapCall where
  virt : Nat
  phys : Nat
  flags : Nat

/-- The arguments fit into an entry and make it present. -/
structure MapCall.Valid (c : MapCall) : Prop where
  phys : PhysPage c.phys
  present : c.flags &&& ptePresent ≠ 0
  noAddr : c.flags &&& pteAddrMask = 0
  flags_lt : c.flags < 2 ^ 64

section Map

variable {s : Machine} {root : Nat} {c : MapCall}

/-- `s'` is `s` with a word in the entry for `virt`, in the table `t` of the
last level. -/
structure EntrySet (root virt word t : Nat) (s s' : Machine) : Prop where
  globals : SameGlobals s s'
  leaf : Tables.SetLeaf nextTable 4 s.tables s'.tables root
    [pmlSlot virt 21, pmlSlot virt 30, pmlSlot virt 39] t (pmlSlot virt 12)
  word : s'.tables t (pmlSlot virt 12) = word
  bitmap : ∀ {bit}, bit < s.pmmPageCount → s'.mem (bitmapByte s bit) = s.mem (bitmapByte s bit)
  tables : ∀ u, TableAt s' root u → TableAt s root u
  tree : TreeInv s' root

/--
**The last entry.** Storing a word in a table at the bottom changes that entry
of the tree and nothing else: no table comes or goes, because the words down
there lead to no table.
-/
theorem TreeInv.setWord {virt t word : Nat} (hinv : TreeInv s root) (hword : word < 2 ^ 64)
    (hnode : node nextTable s.tables root [pmlSlot virt 21, pmlSlot virt 30, pmlSlot virt 39] =
      some t) :
    EntrySet root virt word t s (s.store (s.higherHalf t + 8 * pmlSlot virt 12) 8 word) := by
  have htable : TableAt s root t := ⟨[_, _, _], Nat.lt_succ_self 3, hnode⟩
  have hpage := hinv.page t htable
  have hself := store_tables s hpage (pmlSlot virt 12) hword
  have hother := fun {u : Nat} (hu : PhysPage u) (j : Fin 512) =>
    store_tables_other s hpage hu (pmlSlot virt 12) j word
  have hglob := sameGlobals_store s (s.higherHalf t + 8 * pmlSlot virt 12) 8 word
  -- the store stays inside the table's page
  have hmem : ∀ x, x / 4096 ≠ t / 4096 →
      (s.store (s.higherHalf t + 8 * pmlSlot virt 12) 8 word).mem x = s.mem x := by
    intro x hx
    have hi := (pmlSlot virt 12).isLt
    have hlt := hpage.lt
    have haligned := hpage.aligned
    rw [Machine.store, physical_higherHalf_add s (by omega)]
    exact storeLE_outside (by omega)
  generalize s.store (s.higherHalf t + 8 * pmlSlot virt 12) 8 word = s'
    at hself hother hglob hmem ⊢
  have hleaf : Tables.SetLeaf nextTable 4 s.tables s'.tables root
      [pmlSlot virt 21, pmlSlot virt 30, pmlSlot virt 39] t (pmlSlot virt 12) :=
    ⟨hnode, rfl, fun q u j hq hu => hother (hinv.page u ⟨q, hq, hu⟩) j⟩
  -- no table comes or goes
  have htables : ∀ u, TableAt s' root u → TableAt s root u := fun u ⟨q, hq, hu⟩ =>
    ⟨q, hq, (Tables.node_setLeaf hinv.distinct hleaf hq).symm.trans hu⟩
  exact ⟨hglob, hleaf, hself, fun hbit => hmem _ (hinv.offBitmap t htable _ hbit), htables,
    hinv.distinct.setLeaf hleaf, fun u hu => hinv.page u (htables u hu),
    fun u hu => hglob.offBitmap.mpr (hinv.offBitmap u (htables u hu))⟩

/-- `vmm_map` from the three tables that it goes through. -/
theorem vmmMap_eq {s₃ s₂ s₁ : Machine} {pm pml3 pml2 pml1 virt : Nat}
    (h₃ : vmmGetNextLvl s pm (pmlSlot virt 39) (ptePresent ||| pteWritable) true = some (pml3, s₃))
    (h₂ : vmmGetNextLvl s₃ pml3 (pmlSlot virt 30) (ptePresent ||| pteWritable) true =
      some (pml2, s₂))
    (h₁ : vmmGetNextLvl s₂ pml2 (pmlSlot virt 21) (ptePresent ||| pteWritable) true =
      some (pml1, s₁)) (phys flags : Nat) :
    vmmMap s pm virt phys flags =
      some (s₁.store (pml1 + 8 * pmlSlot virt 12) 8 (phys ||| flags)) := by
  change vmmGetNextLvl s pm (pmlIndex virt 39) _ _ = _ at h₃
  change vmmGetNextLvl s₃ pml3 (pmlIndex virt 30) _ _ = _ at h₂
  change vmmGetNextLvl s₂ pml2 (pmlIndex virt 21) _ _ = _ at h₁
  -- in the order of the source
  unfold vmmMap
  rw [h₃]
  simp only [Option.bind_eq_bind, Option.bind_some, h₂, h₁]
  rfl

/--
**The steps of `vmm_map`.** Three times it fetches the next level, which makes
a table or finds one; then it stores the entry. At most three tables are made,
and the call returns.
-/
theorem TreeInv.mapSteps {virt : Nat} (hinv : TreeInv s root)
    (hfresh : MapFresh s root (s.higherHalf root) virt) :
    ∃ t n s', Hangs root s n s' ∧ n ≤ 3 ∧
      node nextTable s'.tables root [pmlSlot virt 21, pmlSlot virt 30, pmlSlot virt 39] =
        some t ∧
      ∀ phys flags, vmmMap s (s.higherHalf root) virt phys flags =
        some (s'.store (s'.higherHalf t + 8 * pmlSlot virt 12) 8 (phys ||| flags)) := by
  obtain ⟨hfresh₄, hfresh₃⟩ := hfresh
  have hnode₄ : node nextTable s.tables root [] = some root := rfl
  obtain ⟨t₃, n₃, s₃, hrun₃, hhangs₃, hle₃, hnode₃⟩ :=
    hinv.getNextLvl hnode₄ (by simp) (pmlSlot virt 39) hfresh₄
  obtain ⟨hlayout₃, hinv₃, -⟩ := hhangs₃.tree hinv
  obtain ⟨hfresh₃, hfresh₂⟩ := hfresh₃ _ _ hrun₃
  -- the pointer to a table is the same in every later state
  rw [← hlayout₃.higherHalf t₃] at hfresh₃ hfresh₂ hrun₃
  obtain ⟨t₂, n₂, s₂, hrun₂, hhangs₂, hle₂, hnode₂⟩ :=
    hinv₃.getNextLvl hnode₃ (by simp) (pmlSlot virt 30) hfresh₃
  obtain ⟨hlayout₂, hinv₂, -⟩ := hhangs₂.tree hinv₃
  have hfresh₂ := hfresh₂ _ _ hrun₂
  rw [← hlayout₂.higherHalf t₂] at hfresh₂ hrun₂
  obtain ⟨t₁, n₁, s₁, hrun₁, hhangs₁, hle₁, hnode₁⟩ :=
    hinv₂.getNextLvl hnode₂ (by simp) (pmlSlot virt 21) hfresh₂
  obtain ⟨hlayout₁, -⟩ := hhangs₁.tree hinv₂
  rw [← hlayout₁.higherHalf t₁] at hrun₁
  refine ⟨t₁, n₃ + n₂ + n₁, s₁, (hhangs₃.trans hhangs₂).trans hhangs₁, by omega, hnode₁,
    vmmMap_eq hrun₃ hrun₂ hrun₁⟩

/-- **What `vmm_map` does**: it makes tables, and enters the address and the
flags. -/
theorem TreeInv.mapWord {virt phys flags : Nat} (hinv : TreeInv s root)
    (hfresh : MapFresh s root (s.higherHalf root) virt) (hword : phys ||| flags < 2 ^ 64) :
    ∃ n t s₁ s', Hangs root s n s₁ ∧ n ≤ 3 ∧ EntrySet root virt (phys ||| flags) t s₁ s' ∧
      vmmMap s (s.higherHalf root) virt phys flags = some s' := by
  obtain ⟨t, n, s₁, hhangs, hle, hnode, hrun⟩ := hinv.mapSteps hfresh
  obtain ⟨-, hinv₁, -⟩ := hhangs.tree hinv
  exact ⟨n, t, s₁, _, hhangs, hle, hinv₁.setWord hword hnode, hrun phys flags⟩

/-- The word in the last level changes for the page of `virt`. -/
theorem EntrySet.lookup {virt word t : Nat} {s' : Machine} (h : EntrySet root virt word t s s')
    (hinv : TreeInv s root) (hpresent : nextTable word ≠ none) (v : Nat) :
    Tables.lookup nextTable s'.tables root (slots v) =
      if v / 4096 % 2 ^ 36 = virt / 4096 % 2 ^ 36 then some word
      else Tables.lookup nextTable s.tables root (slots v) := by
  rw [Tables.lookup_setLeaf hinv.distinct h.leaf (q := slots v) rfl, h.word,
    Tables.present_some hpresent]
  change (if slots v = slots virt then _ else _) = _
  -- an address takes the slots of the call exactly when it is on the same page
  by_cases hv : slots v = slots virt
  · rw [if_pos hv, if_pos ((slots_eq_iff v virt).mp hv)]
  · rw [if_neg hv, if_neg fun heq => hv ((slots_eq_iff v virt).mpr heq)]

/--
**Step.** A call of `vmm_map` keeps the tree in order; afterwards the page of
the call translates as it asked for, and every other page as before.
-/
theorem TreeInv.map (hinv : TreeInv s root) (hc : c.Valid)
    (hfresh : MapFresh s root (s.higherHalf root) c.virt) :
    ∃ s', vmmMap s (s.higherHalf root) c.virt c.phys c.flags = some s' ∧ SameLayout s s' ∧
      TreeInv s' root ∧
      ∀ v, vmmWalk s' root v =
        if v / 4096 % 2 ^ 36 = c.virt / 4096 % 2 ^ 36 then some (c.phys, c.flags)
        else vmmWalk s root v := by
  have hlt := hc.phys.lt
  have hword : c.phys ||| c.flags < 2 ^ 64 := Nat.or_lt_two_pow (by omega) hc.flags_lt
  have hpresent : nextTable (c.phys ||| c.flags) ≠ none := by
    rw [nextTable_or hc.phys hc.noAddr hc.present]
    exact Option.some_ne_none _
  obtain ⟨n, t, s₁, s', hhangs, -, hset, hrun⟩ := hinv.mapWord hfresh hword
  obtain ⟨hlayout, hinv₁, hsame⟩ := hhangs.tree hinv
  refine ⟨s', hrun, hlayout.trans hset.globals.toSameLayout, hset.tree, ?_⟩
  intro v
  rw [vmmWalk_eq_lookup, vmmWalk_eq_lookup, hset.lookup hinv₁ hpresent]
  by_cases hv : v / 4096 % 2 ^ 36 = c.virt / 4096 % 2 ^ 36
  · rw [if_pos hv, if_pos hv, Option.map_some, pteGetAddr_or hc.phys hc.noAddr,
      pteGetFlags_or hc.phys hc.noAddr hc.flags_lt]
  · -- making the tables changed no translation
    rw [if_neg hv, if_neg hv, hsame _ rfl]

end Map

-- ---------------------------------------------------------------------------
-- Sequences of calls
-- ---------------------------------------------------------------------------

/-- The calls, one after the other. -/
def mapCalls (pm : Nat) (s : Machine) (calls : List MapCall) : Option Machine :=
  calls.foldlM (fun s c => vmmMap s pm c.virt c.phys c.flags) s

section Calls

variable {s : Machine} {pm : Nat} {calls : List MapCall} {c : MapCall}

/-- A call and those behind it, -/
theorem mapCalls_cons (pm : Nat) (s : Machine) (c : MapCall) (calls : List MapCall) :
    mapCalls pm s (c :: calls) =
      (vmmMap s pm c.virt c.phys c.flags).bind fun s => mapCalls pm s calls :=
  List.foldlM_cons

/-- calls and more calls, -/
theorem mapCalls_append (pm : Nat) (s : Machine) (calls more : List MapCall) :
    mapCalls pm s (calls ++ more) = (mapCalls pm s calls).bind fun s => mapCalls pm s more :=
  List.foldlM_append ..

/-- and a call behind others. -/
theorem mapCalls_snoc {s' : Machine} :
    mapCalls pm s (calls ++ [c]) = some s' ↔
      ∃ s₁, mapCalls pm s calls = some s₁ ∧ vmmMap s₁ pm c.virt c.phys c.flags = some s' := by
  have hlast : ∀ s₁, mapCalls pm s₁ [c] = vmmMap s₁ pm c.virt c.phys c.flags := fun s₁ =>
    bind_pure (vmmMap s₁ pm c.virt c.phys c.flags)
  rw [mapCalls_append, Option.bind_eq_some_iff]
  simp only [hlast]

end Calls

/-- The machine after the calls, each of which has valid arguments and gets
pages that are not in use. -/
inductive MapRun (root pm : Nat) (s₀ : Machine) : List MapCall → Machine → Prop
  | start : MapRun root pm s₀ [] s₀
  | call {calls : List MapCall} {s s' : Machine} {c : MapCall} (h : MapRun root pm s₀ calls s)
      (hc : c.Valid) (hfresh : MapFresh s root pm c.virt)
      (hmap : vmmMap s pm c.virt c.phys c.flags = some s') : MapRun root pm s₀ (calls ++ [c]) s'

/-- The last call for the page of `virt`. -/
def lastCall (calls : List MapCall) (virt : Nat) : Option MapCall :=
  calls.reverse.find? fun c => virt / 4096 % 2 ^ 36 == c.virt / 4096 % 2 ^ 36

/-- The last call for a page is the newest, if it is for this page. -/
theorem lastCall_append (calls : List MapCall) (c : MapCall) (virt : Nat) :
    lastCall (calls ++ [c]) virt =
      if virt / 4096 % 2 ^ 36 = c.virt / 4096 % 2 ^ 36 then some c else lastCall calls virt := by
  unfold lastCall
  rw [find?_reverse_concat]
  simp only [beq_iff_eq]

theorem mem_of_lastCall {calls : List MapCall} {c : MapCall} {virt : Nat}
    (h : lastCall calls virt = some c) : c ∈ calls :=
  List.mem_reverse.mp (List.mem_of_find?_eq_some h)

/-- What the last call for the page of `virt` asked for. -/
def lastMapped (calls : List MapCall) (virt : Nat) : Option (Nat × Nat) :=
  (lastCall calls virt).map fun c => (c.phys, c.flags)

/-- The same for what was mapped. -/
theorem lastMapped_append (calls : List MapCall) (c : MapCall) (virt : Nat) :
    lastMapped (calls ++ [c]) virt =
      if virt / 4096 % 2 ^ 36 = c.virt / 4096 % 2 ^ 36 then some (c.phys, c.flags)
      else lastMapped calls virt := by
  rw [lastMapped, lastCall_append, apply_ite (Option.map _), Option.map_some]
  rfl

/-- A zeroed page has no entry. -/
theorem nextTable_zeroed {s : Machine} {root : Nat}
    (hzero : ∀ x, root ≤ x → x < root + 4096 → s.mem x = 0) (i : Fin 512) :
    nextTable (s.tables root i) = none := by
  have hi := i.isLt
  have hword : s.tables root i = loadLE (fun _ => 0) (root + 8 * i) 8 :=
    loadLE_congr fun x hlo hhi => hzero x (by omega) (by omega)
  rw [hword]
  exact if_pos (by simp [loadLE])

/-- Below a zeroed page there is no other table. -/
theorem tableAt_zeroed {s : Machine} {root t : Nat}
    (hzero : ∀ x, root ≤ x → x < root + 4096 → s.mem x = 0) (ht : TableAt s root t) :
    t = root := by
  obtain ⟨_ | ⟨k, path⟩, -, ht⟩ := ht
  · exact (Option.some.inj ht).symm
  · rw [Tables.node_empty (nextTable_zeroed hzero)] at ht
    contradiction

/-- A zeroed page off the bitmap is an empty tree. No word of it is present, so
a walk ends at the first level. -/
theorem TreeInv.start {s : Machine} {root : Nat} (hroot : PhysPage root)
    (hoff : OffBitmap s root) (hzero : ∀ x, root ≤ x → x < root + 4096 → s.mem x = 0) :
    TreeInv s root ∧ ∀ virt, vmmWalk s root virt = none := by
  have hempty := nextTable_zeroed hzero
  refine ⟨⟨.empty hempty 4, ?_, ?_⟩, ?_⟩
  · intro t ht
    rw [tableAt_zeroed hzero ht]
    exact hroot
  · intro t ht
    rw [tableAt_zeroed hzero ht]
    exact hoff
  · intro virt
    rw [vmmWalk_eq_lookup, Tables.lookup_empty hempty]
    rfl

/-- What a run keeps: the tree, and the walk as the record of the calls. By
induction on the run; a call hangs in the tables that are missing and sets one
leaf. -/
theorem MapRun.inv {root : Nat} {s₀ s : Machine} {calls : List MapCall}
    (hstart : TreeInv s₀ root) (hempty : ∀ virt, vmmWalk s₀ root virt = none)
    (hrun : MapRun root (s₀.higherHalf root) s₀ calls s) :
    SameLayout s₀ s ∧ TreeInv s root ∧ ∀ virt, vmmWalk s root virt = lastMapped calls virt := by
  -- on the calls; the last one is the one just made
  induction hrun with
  | start => exact ⟨.refl s₀, hstart, hempty⟩
  | @call calls s s' c _ hc hfresh hmap ih =>
    obtain ⟨hlayout, hinv, hwalk⟩ := ih
    rw [← hlayout.higherHalf] at hfresh hmap
    obtain ⟨s₁, hrun, hlayout₁, hinv₁, hwalk₁⟩ := hinv.map hc hfresh
    rw [hmap] at hrun
    obtain rfl := Option.some.inj hrun
    refine ⟨hlayout.trans hlayout₁, hinv₁, ?_⟩
    intro virt
    rw [hwalk₁, lastMapped_append, hwalk]

/--
**Page tables refine a map.** From a zeroed top-level table, after any sequence of
`vmm_map` calls whose arguments fit an entry and whose tables go to pages not in
use, the walk for an address gives the address and the flags of the last call for
the page, and nothing where there was no such call. Every further call of this kind
returns, so that a run never gets stuck.
-/
theorem vmm_map_refines (s₀ : Machine) (root : Nat) (hroot : PhysPage root)
    (hoff : OffBitmap s₀ root) (hzero : ∀ x, root ≤ x → x < root + 4096 → s₀.mem x = 0)
    {calls : List MapCall} {s : Machine} (hrun : MapRun root (s₀.higherHalf root) s₀ calls s) :
    (∀ virt, vmmWalk s root virt = lastMapped calls virt) ∧
      ∀ c : MapCall, c.Valid → MapFresh s root (s₀.higherHalf root) c.virt →
        ∃ s', vmmMap s (s₀.higherHalf root) c.virt c.phys c.flags = some s' ∧
          MapRun root (s₀.higherHalf root) s₀ (calls ++ [c]) s' := by
  have ⟨hstart, hempty⟩ := TreeInv.start hroot hoff hzero
  obtain ⟨hlayout, hinv, hwalk⟩ := hrun.inv hstart hempty
  refine ⟨hwalk, ?_⟩
  intro c hc hfresh
  have hown := hfresh
  rw [← hlayout.higherHalf] at hown
  obtain ⟨s', hmap, -⟩ := hinv.map hc hown
  rw [hlayout.higherHalf] at hmap
  exact ⟨s', hmap, hrun.call hc hfresh hmap⟩

-- ---------------------------------------------------------------------------
-- An allocator that supplies the tables
-- ---------------------------------------------------------------------------

/-- The allocator has `k` pages at its cursor, behind every table. -/
structure Supplied (s : Machine) (root k : Nat) : Prop extends Roomy s k where
  small : s.pmmPageCount ≤ 2 ^ 40
  tables : ∀ t, TableAt s root t → t / 4096 < s.pmmLastPage

section Supplied

variable {s : Machine} {root k t : Nat} {path : List (Fin 512)}

/-- The next page allocated is not in use. -/
theorem Supplied.fresh (h : Supplied s root (k + 1)) : FreshPage s root (4096 * s.pmmLastPage) := by
  have hroom := h.room
  have hsmall := h.small
  have hcursor := h.bitmap 0 (by omega)
  refine ⟨by omega, ⟨by omega, by omega⟩, by omega, fun bit hbit => ?_, fun ht => ?_⟩
  · have := h.bitmap bit hbit
    omega
  · have := h.tables _ ht
    omega

theorem Supplied.mono {j : Nat} (h : Supplied s root k) (hle : j ≤ k) : Supplied s root j :=
  ⟨h.toRoomy.mono hle, h.small, h.tables⟩

/-- With a page to spare, a table that is missing gets one of its own. -/
theorem Supplied.nextLvlFresh (h : Supplied s root (k + 1)) (lvl entry : Nat) :
    NextLvlFresh s root lvl entry := fun _ =>
  ⟨_, _, (h.toRoomy.alloc (Nat.le_refl 1)).1, h.fresh⟩

/--
A table made leaves one page less, and the new table is the page at the cursor.
-/
theorem Supplied.hung {s₁ s' : Machine} {i : Fin 512} {p : Nat} (h : Supplied s root (k + 1))
    (hinv : TreeInv s root) (hhung : Hung root path t i p s s₁ s') : Supplied s' root k := by
  obtain ⟨halloc, hroomy⟩ := h.toRoomy.alloc (Nat.le_refl 1)
  have hsame := hhung.alloc
  rw [halloc] at hsame
  obtain ⟨rfl, rfl⟩ := Prod.mk.inj (Option.some.inj hsame)
  obtain ⟨-, -, htables, -⟩ := hhung.tree hinv
  have hglob := hhung.globals
  refine ⟨hroomy.congr hglob fun _ hbit => hhung.bitmap hinv hbit, ?_, ?_⟩
  · rw [hhung.layout.pageCount]
    exact h.small
  · -- the new table is the page at the cursor, the others lie below it
    intro u hu
    have hcursor : s'.pmmLastPage = s.pmmLastPage + 1 := hglob.lastPage
    rw [hcursor]
    rcases htables u hu with rfl | hu
    · omega
    · have := h.tables u hu
      omega

/-- Several tables, several pages. -/
theorem Supplied.hangs {s' : Machine} {n : Nat} (h : Supplied s root (k + n))
    (hinv : TreeInv s root) (hhangs : Hangs root s n s') : Supplied s' root k := by
  -- table by table; those still to come need a page each
  suffices hgen : ∀ {n s'}, Hangs root s n s' → ∀ j, Supplied s root (j + n) →
      Supplied s' root j from hgen hhangs k h
  intro n s' hhangs
  induction hhangs with
  | none => exact fun j h => h
  | @hang n _ _ _ _ _ _ _ hhangs hhung ih =>
    intro j h
    obtain ⟨-, hinv', -⟩ := hhangs.tree hinv
    refine (ih (j + 1) ?_).hung hinv' hhung
    rw [Nat.add_assoc, Nat.add_comm 1]
    exact h

/-- Three pages are enough for a call of `vmm_map`. -/
theorem Supplied.mapFresh (hinv : TreeInv s root) (h : Supplied s root 3) (virt : Nat) :
    MapFresh s root (s.higherHalf root) virt := by
  -- nothing is asked of the entries
  refine hinv.mapFresh (P := fun _ _ _ => True) ?_ ?_
  · exact ⟨trivial, fun _ _ _ => ⟨trivial, fun _ _ _ => trivial⟩⟩
  · intro n s' lvl entry hhangs hle _
    have hleft : Supplied s' root 1 := (h.mono (show 1 + n ≤ 3 by omega)).hangs hinv hhangs
    exact hleft.nextLvlFresh lvl entry

/-- **One call with three pages to spare** returns, and takes no more of them:
there are three levels below the root at which a table may be missing. -/
theorem Supplied.call (hinv : TreeInv s root) (h : Supplied s root (k + 3))
    (virt phys flags : Nat) (hword : phys ||| flags < 2 ^ 64) :
    ∃ s', vmmMap s (s.higherHalf root) virt phys flags = some s' ∧ SameLayout s s' ∧
      TreeInv s' root ∧ Supplied s' root k := by
  have hfresh := (h.mono (Nat.le_add_left 3 k)).mapFresh hinv virt
  obtain ⟨n, t, s₁, s', hhangs, hle, hset, hrun⟩ := hinv.mapWord hfresh hword
  obtain ⟨hlayout, -⟩ := hhangs.tree hinv
  have h₁ : Supplied s₁ root k := (h.mono (show k + n ≤ k + 3 by omega)).hangs hinv hhangs
  refine ⟨s', hrun, hlayout.trans hset.globals.toSameLayout, hset.tree,
    h₁.toRoomy.congr hset.globals fun _ hbit => hset.bitmap hbit, ?_, ?_⟩
  · rw [hset.globals.pageCount]
    exact h₁.small
  · intro u hu
    rw [hset.globals.lastPage]
    exact h₁.tables u (hset.tables u hu)

end Supplied

/-- The page chosen for the top-level table is empty, -/
theorem roomyMachine_zero : ∀ x, 4096 ≤ x → x < 4096 + 4096 → roomyMachine.mem x = 0 := by
  intro x hlo _
  show (if x = 0 then (3 : BitVec 8) else if x = 1 then 0x80 else 0) = 0
  rw [if_neg (by omega), if_neg (by omega)]

/-- off the bitmap, -/
theorem roomyMachine_off : OffBitmap roomyMachine 4096 := by
  intro bit hbit
  rw [roomyMachine_byte hbit]
  decide

/-- and six tables can be made. -/
theorem roomyMachine_supplied : Supplied roomyMachine 4096 6 := by
  refine ⟨roomyMachine_roomy.mono (by decide), by decide, fun t ht => ?_⟩
  rw [tableAt_zeroed roomyMachine_zero ht]
  decide

/-- Two pages mapped through one table, and read at addresses in them; at a
third one nothing is mapped. The second call finds the tables of the first. -/
theorem vmm_map_refines_roomy :
    ∃ s, MapRun 4096 (roomyMachine.higherHalf 4096) roomyMachine
        [⟨0x400000, 0x5000, 3⟩, ⟨0x401000, 0x6000, 1⟩] s ∧
      vmmWalk s 4096 0x400abc = some (0x5000, 3) ∧ vmmWalk s 4096 0x401def = some (0x6000, 1) ∧
      vmmWalk s 4096 0x402000 = none := by
  have hroot : PhysPage 4096 := ⟨by decide, by decide⟩
  have hoff := roomyMachine_off
  have hc : MapCall.Valid ⟨0x400000, 0x5000, 3⟩ :=
    ⟨⟨by decide, by decide⟩, by decide, by decide, by decide⟩
  have hc' : MapCall.Valid ⟨0x401000, 0x6000, 1⟩ :=
    ⟨⟨by decide, by decide⟩, by decide, by decide, by decide⟩
  obtain ⟨hinv, -⟩ := TreeInv.start hroot hoff roomyMachine_zero
  have hfresh := (roomyMachine_supplied.mono (by decide)).mapFresh hinv 0x400000
  obtain ⟨s₁, hmap, hlayout, hinv₁, hleft⟩ :=
    roomyMachine_supplied.call hinv 0x400000 0x5000 3 (by decide)
  have hrun₁ : MapRun 4096 (roomyMachine.higherHalf 4096) roomyMachine [⟨0x400000, 0x5000, 3⟩] s₁ :=
    @MapRun.call _ _ _ [] _ _ _ .start hc hfresh hmap
  -- the tables are there for the second call
  have hfresh' := hleft.mapFresh hinv₁ 0x401000
  rw [hlayout.higherHalf] at hfresh'
  obtain ⟨-, hnext⟩ := vmm_map_refines roomyMachine 4096 hroot hoff roomyMachine_zero hrun₁
  obtain ⟨s, -, hrun⟩ := hnext ⟨0x401000, 0x6000, 1⟩ hc' hfresh'
  obtain ⟨hwalk, -⟩ := vmm_map_refines roomyMachine 4096 hroot hoff roomyMachine_zero hrun
  refine ⟨s, hrun, ?_, ?_, ?_⟩
  · rw [hwalk]
    decide
  · rw [hwalk]
    decide
  · rw [hwalk]
    decide

end Medlar64
