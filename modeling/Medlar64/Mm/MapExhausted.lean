import Medlar64.Mm.PageTables

/-!
# Medlar64 — mapping without free pages

`vmm_get_next_lvl` uses what `pmm_alloc(1)` returns without looking at it. A
`NULL` goes through `HIGHER_HALF` like any page: physical page 0 is cleared and
linked into the tree as a table.

* `NoDamage`, `MapHarmless` — what `vmm_map` is meant to leave alone.
* `Nulled` — the machine once page 0 has been linked in; every level below is
  page 0 again.
* `vmm_map_never_harmless` — wherever a table is missing, page 0 becomes one.
-/

namespace Medlar64

open Tables (node)

-- ---------------------------------------------------------------------------
-- What is meant
-- ---------------------------------------------------------------------------

/-- The tables are in order: a tree of pages that `pmm_alloc` has returned,
none of them page 0, which is in use. -/
structure TablesOk (s : Machine) (root : Nat) : Prop extends TreeInv s root where
  zeroUsed : s.used 0 = true
  zeroOff : OffBitmap s 0
  zeroNone : ¬ TableAt s root 0

/-- The calls have led from `s` to `s'` without damage. -/
structure NoDamage (s s' : Machine) (root : Nat) (calls : List MapCall) : Prop where
  /-- The pages that no call is for translate as before. -/
  others : ∀ v, (∀ c ∈ calls, v / 4096 % 2 ^ 36 ≠ c.virt / 4096 % 2 ^ 36) →
    vmmWalk s' root v = vmmWalk s root v
  /-- A table is an old one or a page that `pmm_alloc` has returned since. -/
  entries : ∀ t, TableAt s' root t →
    TableAt s root t ∨ s.used (t / 4096) = false ∧ s'.used (t / 4096) = true
  pageZero : ∀ x, x < 4096 → s'.mem x = s.mem x
  distinct : Tables.Distinct nextTable 4 s'.tables root

/-- `vmm_map` does no damage, also after further calls. -/
def MapHarmless (s : Machine) (root : Nat) (c : MapCall) : Prop :=
  ∀ more : List MapCall, ∃ s',
    mapCalls (s.higherHalf root) s (c :: more) = some s' ∧ NoDamage s s' root (c :: more)

-- ---------------------------------------------------------------------------
-- `NULL` for a table
-- ---------------------------------------------------------------------------

/-- `vmm_get_next_lvl` has to make a table at this entry, and its
`pmm_alloc(1)` returns `NULL`. -/
def NextLvlNull (s : Machine) (lvl entry : Nat) : Prop :=
  s.load (lvl + 8 * entry) 8 &&& ptePresent = 0 ∧ ∃ s', pmmAlloc s 1 = some (0, s')

/-- At some level that `vmm_map` has to make, `pmm_alloc(1)` returns `NULL`,
after pages not in use at the levels above. -/
def MapNull (s : Machine) (root pm virt : Nat) : Prop :=
  NextLvlNull s pm (pmlIndex virt 39) ∨
    NextLvlFresh s root pm (pmlIndex virt 39) ∧ ∃ pml3 s₃,
      vmmGetNextLvl s pm (pmlIndex virt 39) (ptePresent ||| pteWritable) true = some (pml3, s₃) ∧
      (NextLvlNull s₃ pml3 (pmlIndex virt 30) ∨
        NextLvlFresh s₃ root pml3 (pmlIndex virt 30) ∧ ∃ pml2 s₂,
          vmmGetNextLvl s₃ pml3 (pmlIndex virt 30) (ptePresent ||| pteWritable) true =
            some (pml2, s₂) ∧
          NextLvlNull s₂ pml2 (pmlIndex virt 21))

/-- The machine `u` after page 0 has been linked into the tables of `s`, at
slot `i` of the table `t`. -/
structure Nulled (t : Nat) (i : Fin 512) (s u : Machine) : Prop where
  layout : SameLayout s u
  exhausted : Exhausted u
  word : u.tables t i = ptePresent ||| pteWritable
  others : ∀ w, PhysPage w → w ≠ 0 → ∀ j, (w ≠ t ∨ j ≠ i) → u.tables w j = s.tables w j
  /-- Page 0 is empty, up to links to itself. -/
  zero : ∀ j, u.tables 0 j = 0 ∨ u.tables 0 j = ptePresent ||| pteWritable

section Null

variable {s s₁ s' u : Machine} {root t n p : Nat} {path : List (Fin 512)} {i : Fin 512}

theorem physPage_zero : PhysPage 0 := ⟨rfl, by decide⟩

theorem nextTable_null : nextTable (ptePresent ||| pteWritable) = some 0 := by
  decide

/--
**A table that is missing, with `NULL` from `pmm_alloc`.** Physical page 0 is
cleared and linked into the entry. No other entry of the tree changes, because
page 0 was not a table of it.
-/
theorem TablesOk.null (h : TablesOk s root) (ht : TableAt s root t) (i : Fin 512)
    (hnull : NextLvlNull s (s.higherHalf t) i) :
    ∃ u, vmmGetNextLvl s (s.higherHalf t) i (ptePresent ||| pteWritable) true =
      some (u.higherHalf 0, u) ∧ Nulled t i s u := by
  obtain ⟨habsent, s₁, halloc⟩ := hnull
  have hpage := h.page t ht
  have hne : (0 : Nat) ≠ t := fun heq => h.zeroNone (heq ▸ ht)
  rw [load_entry s hpage i] at habsent
  obtain ⟨u, hrun, hglob, hwords, hmem⟩ :=
    getNextLvl_new hpage i habsent halloc physPage_zero
  obtain ⟨l, rfl⟩ := pmmAlloc_null halloc h.zeroUsed
  have hlayout : SameLayout s u := (sameLayout_setLastPage s l).trans hglob.toSameLayout
  rw [Nat.zero_or] at hwords
  refine ⟨u, ?_, hlayout, ?_, ?_, ?_, ?_⟩
  · rw [hlayout.higherHalf]
    exact hrun
  · -- neither page holds a byte of the bitmap
    refine (exhausted_of_null halloc h.zeroUsed).congr hglob fun bit hbit => hmem _ ?_ ?_
    · exact h.offBitmap t ht bit hbit
    · exact h.zeroOff bit hbit
  · rw [hwords t hpage i, if_pos ⟨rfl, rfl⟩]
  · intro w hw hw0 j hdiff
    rw [hwords w hw j, if_neg (not_and_or.mpr hdiff), if_neg hw0]
    rfl
  · intro j
    rw [hwords 0 physPage_zero j, if_neg fun heq => hne heq.1, if_pos rfl]
    exact .inl rfl

/--
**The next level down is page 0 again**: its entries are zero or link page 0 to
itself, and either way the call goes on in page 0. This repeats down to the
last level.
-/
theorem Nulled.next (h : Nulled t i s u) (hzero : OffBitmap s 0) (hne : t ≠ 0)
    (ht : PhysPage t) (j : Fin 512) :
    ∃ v, vmmGetNextLvl u (u.higherHalf 0) j (ptePresent ||| pteWritable) true =
      some (v.higherHalf 0, v) ∧ Nulled t i s v := by
  rcases h.zero j with hempty | hlink
  · -- no table there: page 0 is cleared and linked with itself
    have habsent : u.tables 0 j &&& ptePresent = 0 := by
      rw [hempty]
      decide
    obtain ⟨v, hrun, hglob, hwords, hmem⟩ :=
      getNextLvl_new physPage_zero j habsent h.exhausted.alloc physPage_zero
    rw [Nat.zero_or] at hwords
    have hkept : ∀ w, PhysPage w → w ≠ 0 → ∀ k, v.tables w k = u.tables w k := by
      intro w hw hw0 k
      rw [hwords w hw k, if_neg fun heq => hw0 heq.1, if_neg hw0]
    refine ⟨v, ?_, h.layout.trans hglob.toSameLayout, ?_, ?_, ?_,
      ?_⟩
    · rw [hglob.higherHalf]
      exact hrun
    · refine h.exhausted.congr hglob ?_
      intro bit hbit
      rw [h.layout.pageCount] at hbit
      rw [h.layout.bitmapByte]
      exact hmem _ (hzero bit hbit) (hzero bit hbit)
    · rw [hkept t ht hne, h.word]
    · intro w hw hw0 k hdiff
      rw [hkept w hw hw0, h.others w hw hw0 k hdiff]
    · intro k
      rw [hwords 0 physPage_zero k]
      split
      · exact .inr rfl
      · exact .inl (if_pos rfl)
  · -- the table there is page 0
    refine ⟨u, ?_, h⟩
    unfold vmmGetNextLvl
    rw [load_entry u physPage_zero j, hlink, if_pos (by decide)]
    rfl

theorem TablesOk.link (h : TablesOk s root) (ht : TableAt s root t) : PhysPage t ∧ t ≠ 0 :=
  ⟨h.page t ht, fun heq => h.zeroNone (heq ▸ ht)⟩

/--
After the last write page 0 is still a table of the tree. The write goes into
page 0 itself and can destroy only what hangs below it.
-/
theorem Nulled.tableAt (hn : Nulled t i s u) (h : TablesOk s root)
    (hnode : node nextTable s.tables root path = some t) (hlen : path.length < 3) (j : Fin 512)
    (word : Nat) : TableAt (u.store (u.higherHalf 0 + 8 * j) 8 word) root 0 := by
  have ht : TableAt s root t := ⟨path, by omega, hnode⟩
  have hpage := h.page t ht
  have hne : t ≠ 0 := fun heq => h.zeroNone (heq ▸ ht)
  have hstore : ∀ w, PhysPage w → w ≠ 0 → ∀ k,
      (u.store (u.higherHalf 0 + 8 * j) 8 word).tables w k = u.tables w k := by
    intro w hw hw0 k
    exact store_tables_other u physPage_zero hw j k word (.inl hw0)
  generalize u.store (u.higherHalf 0 + 8 * j) 8 word = s' at hstore ⊢
  -- no other slot of the old tree has changed, so the path leads to `t` as before
  have hframe : Tables.SameElsewhere nextTable 4 s.tables s'.tables root t i := by
    intro q x k hq hx hdiff
    have hx : TableAt s root x := ⟨q, hq, hx⟩
    have hxpage := h.page x hx
    have hx0 : x ≠ 0 := fun heq => h.zeroNone (heq ▸ hx)
    rw [hstore x hxpage hx0, hn.others x hxpage hx0 k hdiff]
  have hnode' := hframe.node h.distinct hnode (by omega) (Nat.le_refl path.length)
  refine ⟨i :: path, by simp only [List.length_cons]; omega, ?_⟩
  rw [Tables.node_cons (hnode'.trans hnode), hstore t hpage hne, hn.word]
  exact nextTable_null

-- ---------------------------------------------------------------------------
-- Fresh tables before it
-- ---------------------------------------------------------------------------

/-- Making a table from a page not in use keeps the tables in order. Its own
words are 0, and the entry written leads to it. -/
theorem Hung.ok (h : TablesOk s root) (hhung : Hung root path t i p s s₁ s') :
    TablesOk s' root := by
  obtain ⟨hlayout, hgrow, -⟩ := pmmAlloc_cases hhung.alloc
  obtain ⟨hinv', -, htables, -⟩ := hhung.tree h.toTreeInv
  have hcount : 0 < s₁.pmmPageCount := by
    rw [hlayout.pageCount]
    exact Nat.zero_lt_of_lt hhung.fresh.managed
  refine ⟨hinv', ?_, ?_, ?_⟩
  · rw [used_congr hhung.globals.toSameLayout (hhung.bitmap h.toTreeInv hcount)]
    exact hgrow 0 (by decide) h.zeroUsed
  · exact hhung.layout.offBitmap.mpr h.zeroOff
  · -- page 0 is not the new table
    intro hzero
    rcases htables 0 hzero with hp | hold
    · exact hhung.fresh.nonNull hp.symm
    · exact h.zeroNone hold

/-- Tables made of pages that were free leave the tree in order. -/
theorem Hangs.ok (h : TablesOk s root) (hhangs : Hangs root s n s') : TablesOk s' root := by
  induction hhangs with
  | none => exact h
  | hang _ hhung ih => exact hhung.ok ih

/--
**`vmm_map` with `NULL` at one of its three levels** returns, with page 0 as a
table. The cases are the level at which the allocator first has no page; above
it the tables are made as they should be.
-/
theorem TablesOk.map_null {virt : Nat} (h : TablesOk s root)
    (hnull : MapNull s root (s.higherHalf root) virt) (phys flags : Nat) :
    ∃ s', vmmMap s (s.higherHalf root) virt phys flags = some s' ∧ TableAt s' root 0 := by
  have hnode₄ : node nextTable s.tables root [] = some root := rfl
  rcases hnull with hnull | ⟨hfresh₄, pml3, s₃, hrun₃, hbelow⟩
  · -- page 0 for the first of the three tables
    obtain ⟨u₃, hrun₃, hn₃⟩ := h.null ⟨[], by simp, hnode₄⟩ (pmlSlot virt 39) hnull
    obtain ⟨hpage, hne⟩ := h.link ⟨[], by simp, hnode₄⟩
    obtain ⟨u₂, hrun₂, hn₂⟩ := hn₃.next h.zeroOff hne hpage (pmlSlot virt 30)
    obtain ⟨u₁, hrun₁, hn₁⟩ := hn₂.next h.zeroOff hne hpage (pmlSlot virt 21)
    exact ⟨_, vmmMap_eq hrun₃ hrun₂ hrun₁ phys flags, hn₁.tableAt h hnode₄ (by simp) _ _⟩
  obtain ⟨t₃, n₃, s₃', hrun₃', hhangs₃, -, hnode₃⟩ :=
    h.getNextLvl hnode₄ (by simp) (pmlSlot virt 39) hfresh₄
  obtain ⟨rfl, rfl⟩ := Prod.mk.inj (Option.some.inj (hrun₃.symm.trans hrun₃'))
  have h₃ := hhangs₃.ok h
  obtain ⟨hlayout₃, -⟩ := hhangs₃.tree h.toTreeInv
  have ht₃ : TableAt s₃ root t₃ := ⟨_, by simp, hnode₃⟩
  rw [← hlayout₃.higherHalf t₃] at hrun₃' hbelow
  rcases hbelow with hnull | ⟨hfresh₃, pml2, s₂, hrun₂, hnull⟩
  · -- for the second
    obtain ⟨u₂, hrun₂, hn₂⟩ := h₃.null ht₃ (pmlSlot virt 30) hnull
    obtain ⟨hpage, hne⟩ := h₃.link ht₃
    obtain ⟨u₁, hrun₁, hn₁⟩ := hn₂.next h₃.zeroOff hne hpage (pmlSlot virt 21)
    exact ⟨_, vmmMap_eq hrun₃' hrun₂ hrun₁ phys flags, hn₁.tableAt h₃ hnode₃ (by simp) _ _⟩
  · -- for the last one
    obtain ⟨t₂, n₂, s₂', hrun₂', hhangs₂, -, hnode₂⟩ :=
      h₃.getNextLvl hnode₃ (by simp) (pmlSlot virt 30) hfresh₃
    obtain ⟨rfl, rfl⟩ := Prod.mk.inj (Option.some.inj (hrun₂.symm.trans hrun₂'))
    have h₂ := hhangs₂.ok h₃
    obtain ⟨hlayout₂, -⟩ := hhangs₂.tree h₃.toTreeInv
    have ht₂ : TableAt s₂ root t₂ := ⟨_, by simp, hnode₂⟩
    rw [← hlayout₂.higherHalf t₂] at hrun₂' hnull
    obtain ⟨u₁, hrun₁, hn₁⟩ := h₂.null ht₂ (pmlSlot virt 21) hnull
    exact ⟨_, vmmMap_eq hrun₃' hrun₂' hrun₁ phys flags, hn₁.tableAt h₂ hnode₂ (by simp) _ _⟩

/-- Page 0 is a table that `pmm_alloc` has not returned. -/
theorem TablesOk.damage {calls : List MapCall} (h : TablesOk s root)
    (hzero : TableAt s' root 0) : ¬ NoDamage s s' root calls := by
  intro hgood
  rcases hgood.entries 0 hzero with hold | ⟨hclear, -⟩
  · exact h.zeroNone hold
  · rw [show (0 : Nat) / 4096 = 0 from rfl, h.zeroUsed] at hclear
    exact absurd hclear (by decide)

/-- A table that `pmm_alloc` has not returned is damage. -/
theorem TablesOk.not_harmless {c : MapCall} (h : TablesOk s root)
    (hnull : MapNull s root (s.higherHalf root) c.virt) : ¬ MapHarmless s root c := by
  intro hharmless
  obtain ⟨s', hmap, hzero⟩ := h.map_null hnull c.phys c.flags
  -- no further call is needed
  obtain ⟨u, hrun, hgood⟩ := hharmless []
  rw [mapCalls_cons, hmap] at hrun
  obtain rfl := Option.some.inj hrun
  exact h.damage hzero hgood

end Null

/-- **No call is harmless without pages.** For tables in order, and wherever a
level is missing for which `pmm_alloc(1)` returns `NULL`, `vmm_map` returns
with page 0 linked in as a table. -/
theorem vmm_map_never_harmless {s : Machine} {root : Nat} {c : MapCall} (h : TablesOk s root)
    (hnull : MapNull s root (s.higherHalf root) c.virt) :
    (∃ s', vmmMap s (s.higherHalf root) c.virt c.phys c.flags = some s' ∧ TableAt s' root 0 ∧
      ¬ NoDamage s s' root [c]) ∧ ¬ MapHarmless s root c := by
  obtain ⟨s', hmap, hzero⟩ := h.map_null hnull c.phys c.flags
  exact ⟨⟨s', hmap, hzero, h.damage hzero⟩, h.not_harmless hnull⟩

/-- Three pages in use: an empty top-level table in page 1, and the bitmap in
page 2. -/
def fullMachine : Machine :=
  { mem := fun x => if x = 8192 then 0xff else 0
    hhdmOffset := usualHhdm, pmmBitmap := usualHhdm + 8192,
    pmmLastPage := 3, pmmPageCount := 3, pageCount_lt := by decide }

/-- The example has no free page, -/
theorem fullMachine_exhausted : Exhausted fullMachine := by
  have hfull : ∀ page : Fin 3, fullMachine.used page = true := by decide
  exact ⟨rfl, fun page hlt => not_free.mpr (hfull ⟨page, hlt⟩)⟩

/-- an empty top-level table, -/
theorem fullMachine_zero : ∀ x, 4096 ≤ x → x < 4096 + 4096 → fullMachine.mem x = 0 := by
  intro x _ hhi
  exact if_neg (by omega)

/-- and a tree in order. -/
theorem fullMachine_ok : TablesOk fullMachine 4096 := by
  have hbyte : ∀ bit : Fin 3, bitmapByte fullMachine bit / 4096 = 2 := by decide
  have hoff : ∀ p, p / 4096 ≠ 2 → OffBitmap fullMachine p := by
    intro p hp bit hbit heq
    rw [hbyte ⟨bit, hbit⟩] at heq
    exact hp heq.symm
  obtain ⟨hinv, -⟩ :=
    TreeInv.start ⟨by decide, by decide⟩ (hoff 4096 (by decide)) fullMachine_zero
  refine ⟨hinv, by decide, hoff 0 (by decide), fun h => ?_⟩
  exact absurd (tableAt_zeroed fullMachine_zero h) (by decide)

/-- No level is there, and no page for one. -/
theorem fullMachine_null (virt : Nat) :
    MapNull fullMachine 4096 (fullMachine.higherHalf 4096) virt := by
  refine .inl ⟨?_, fullMachine, fullMachine_exhausted.alloc⟩
  have hnext := nextTable_zeroed fullMachine_zero (pmlSlot virt 39)
  have hword : fullMachine.load (fullMachine.higherHalf 4096 + 8 * pmlIndex virt 39) 8 =
      fullMachine.tables 4096 (pmlSlot virt 39) :=
    load_entry fullMachine ⟨by decide, by decide⟩ (pmlSlot virt 39)
  rw [hword]
  by_contra hpresent
  rw [nextTable, if_neg hpresent] at hnext
  exact Option.some_ne_none _ hnext

/-- A page mapped on it: all three levels are missing, so page 0 becomes the
table of each of them. -/
theorem vmm_map_never_harmless_full :
    ¬ MapHarmless fullMachine 4096 ⟨0x400000, 0x5000, 3⟩ :=
  (vmm_map_never_harmless (c := ⟨0x400000, 0x5000, 3⟩) fullMachine_ok
    (fullMachine_null 0x400000)).2

/-- One call without a free page links page 0 in: `vmm_get_next_lvl` takes the
`NULL` of `pmm_alloc` for a page, clears it and writes an entry for it. -/
theorem vmm_map_not_harmless :
    ¬ ∀ (s : Machine) (root : Nat) (c : MapCall), TablesOk s root →
      MapNull s root (s.higherHalf root) c.virt → MapHarmless s root c := by
  intro hall
  have hnull := fullMachine_null 0x400000
  have hharmless := hall fullMachine 4096 ⟨0x400000, 0x5000, 3⟩ fullMachine_ok hnull
  exact fullMachine_ok.not_harmless (c := ⟨0x400000, 0x5000, 3⟩) hnull hharmless

end Medlar64
