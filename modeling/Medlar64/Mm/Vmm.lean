import Mathlib.Data.Nat.Bitwise
import Medlar64.Lib.Tables
import Medlar64.Mm.Search

/-!
# Medlar64 — page tables in memory (`vmm.c`)

`vmm_map` enters one page into a four-level table, making the tables on the
way that are missing with `pmm_alloc(1)`. A page table entry is a `u64` word
with an address in bits 12 to 51 and flags in the other bits.

* `vmmGetNextLvl`, `vmmMap` — the source functions, on the machine.
* `vmmWalk` — the walk that the processor makes for an address;
  `vmmWalk_eq_lookup` makes it a lookup in a tree of tables.
* `pteGetAddr_or`, `pteGetFlags_or` — an entry gives its two parts back.
* `slots_eq_iff` — two addresses take the same slots exactly when they lie on
  the same page.
-/

namespace Medlar64

-- ---------------------------------------------------------------------------
-- The source functions
-- ---------------------------------------------------------------------------

def ptePresent : Nat := 1

def pteWritable : Nat := 2

def pteAddrMask : Nat := 0x000ffffffffff000

/-- `~PTE_ADDR_MASK`, as a `u64`. -/
def pteFlagsMask : Nat := 2 ^ 64 - 1 - pteAddrMask

/-- `PTE_GET_ADDR(x)`. -/
def pteGetAddr (x : Nat) : Nat := x &&& pteAddrMask

/-- `PTE_GET_FLAGS(x)`. -/
def pteGetFlags (x : Nat) : Nat := x &&& pteFlagsMask

/-- `vmm_get_next_lvl(lvl, entry, flags, alloc)`: the next table, or 0 for
`NULL`. -/
def vmmGetNextLvl (s : Machine) (lvl entry flags : Nat) (alloc : Bool) :
    Option (Nat × Machine) :=
  if s.load (lvl + 8 * entry) 8 &&& ptePresent ≠ 0 then
    some (s.higherHalf (pteGetAddr (s.load (lvl + 8 * entry) 8)), s)
  else if !alloc then
    some (0, s)
  else
    -- the result of `pmm_alloc` is not looked at: `NULL` would be used as a page
    match pmmAlloc s 1 with
    | none => none
    | some (p, s) =>
      let pml := s.higherHalf p
      let s := memset s pml 0 pageSize
      some (pml, s.store (lvl + 8 * entry) 8 (s.physical pml ||| flags))

/-- `(virt >> shift) & 0x1ff`. -/
def pmlIndex (virt shift : Nat) : Nat := (virt >>> shift) &&& 0x1ff

/-- `vmm_map(pm, virt, phys, flags)`. -/
def vmmMap (s : Machine) (pm virt phys flags : Nat) : Option Machine := do
  let (pml3, s) ← vmmGetNextLvl s pm (pmlIndex virt 39) (ptePresent ||| pteWritable) true
  let (pml2, s) ← vmmGetNextLvl s pml3 (pmlIndex virt 30) (ptePresent ||| pteWritable) true
  let (pml1, s) ← vmmGetNextLvl s pml2 (pmlIndex virt 21) (ptePresent ||| pteWritable) true
  some (s.store (pml1 + 8 * pmlIndex virt 12) 8 (phys ||| flags))

-- ---------------------------------------------------------------------------
-- Entries
-- ---------------------------------------------------------------------------

/-- `p` is an address that an entry can hold. -/
structure PhysPage (p : Nat) : Prop where
  aligned : p % 4096 = 0
  lt : p < 2 ^ 52

/-- The address of a page below 2^52 is all that the mask lets through. -/
theorem PhysPage.and_mask {p : Nat} (h : PhysPage p) : p &&& pteAddrMask = p := by
  obtain ⟨haligned, hlt⟩ := h
  obtain ⟨q, rfl⟩ : ∃ q, p = q <<< 12 := ⟨p / 4096, by rw [Nat.shiftLeft_eq]; omega⟩
  have hq : q < 2 ^ 40 := by
    rw [Nat.shiftLeft_eq] at hlt
    omega
  -- the mask is 40 ones shifted by a page
  have hmask : pteAddrMask = (2 ^ 40 - 1) <<< 12 := by decide
  rw [hmask, ← Nat.shiftLeft_and_distrib, Nat.and_two_pow_sub_one_eq_mod, Nat.mod_eq_of_lt hq]

/-- An entry gives its address back, -/
theorem pteGetAddr_or {p flags : Nat} (hp : PhysPage p) (hflags : flags &&& pteAddrMask = 0) :
    pteGetAddr (p ||| flags) = p := by
  rw [pteGetAddr, Nat.and_or_distrib_right, hp.and_mask, hflags, Nat.or_zero]

/-- and its flags, as long as these keep out of the bits of the address. -/
theorem pteGetFlags_or {p flags : Nat} (hp : PhysPage p) (hflags : flags &&& pteAddrMask = 0)
    (hlt : flags < 2 ^ 64) : pteGetFlags (p ||| flags) = flags := by
  -- the address has no bit outside the mask, the flags none inside
  have hpage : p &&& pteFlagsMask = 0 := by
    rw [← hp.and_mask, Nat.and_assoc, show pteAddrMask &&& pteFlagsMask = 0 by decide,
      Nat.and_zero]
  have hrest : flags &&& pteFlagsMask = flags := by
    calc flags &&& pteFlagsMask
        = (flags &&& pteAddrMask) ||| (flags &&& pteFlagsMask) := by rw [hflags, Nat.zero_or]
      _ = flags &&& (2 ^ 64 - 1) := by
          rw [← Nat.and_or_distrib_left, show pteAddrMask ||| pteFlagsMask = 2 ^ 64 - 1 by decide]
      _ = flags := by rw [Nat.and_two_pow_sub_one_eq_mod, Nat.mod_eq_of_lt hlt]
  rw [pteGetFlags, Nat.and_or_distrib_right, hpage, hrest, Nat.zero_or]

/-- An entry with the present bit among its flags is present. -/
theorem present_or {p flags : Nat} (h : flags &&& ptePresent ≠ 0) :
    (p ||| flags) &&& ptePresent ≠ 0 := by
  rw [Nat.and_or_distrib_right]
  intro hzero
  exact h (Nat.or_eq_zero_iff.mp hzero).2

-- ---------------------------------------------------------------------------
-- The walk
-- ---------------------------------------------------------------------------

/-- The word at an index of the table at a physical address. -/
def Machine.entry (s : Machine) (table index : Nat) : Nat := loadLE s.mem (table + 8 * index) 8

/-- The table that an entry leads to. -/
def nextTable (word : Nat) : Option Nat :=
  if word &&& ptePresent = 0 then none else some (pteGetAddr word)

/-- The four-level walk from the table at `root`: the address and the flags of
the last entry, `none` at an entry that is not present. -/
def vmmWalk (s : Machine) (root virt : Nat) : Option (Nat × Nat) := do
  let pml3 ← nextTable (s.entry root (pmlIndex virt 39))
  let pml2 ← nextTable (s.entry pml3 (pmlIndex virt 30))
  let pml1 ← nextTable (s.entry pml2 (pmlIndex virt 21))
  let word := s.entry pml1 (pmlIndex virt 12)
  if word &&& ptePresent = 0 then none else some (pteGetAddr word, pteGetFlags word)

/-- The index of a level, as a quotient and a remainder. -/
theorem pmlIndex_eq (virt shift : Nat) : pmlIndex virt shift = virt / 2 ^ shift % 512 := by
  rw [pmlIndex, Nat.shiftRight_eq_div_pow, show 0x1ff = 2 ^ 9 - 1 by decide,
    Nat.and_two_pow_sub_one_eq_mod]

/-- It is one of the 512 of a table. -/
theorem pmlIndex_lt (virt shift : Nat) : pmlIndex virt shift < 512 := by
  rw [pmlIndex_eq]
  exact Nat.mod_lt _ (by decide)

def pmlSlot (virt shift : Nat) : Fin 512 := ⟨pmlIndex virt shift, pmlIndex_lt virt shift⟩

/-- The slots the walk passes, the last one first. -/
def slots (virt : Nat) : List (Fin 512) :=
  [pmlSlot virt 12, pmlSlot virt 21, pmlSlot virt 30, pmlSlot virt 39]

/-- The tables of a machine, as a store. -/
def Machine.tables (s : Machine) (table : Nat) (i : Fin 512) : Nat := s.entry table i

/--
**The walk of the processor is a lookup** in a tree of tables whose nodes are
pages: three levels that lead on and one that holds the entry. Everything the
library says about trees of tables is about page tables by this equation.
-/
theorem vmmWalk_eq_lookup (s : Machine) (root virt : Nat) :
    vmmWalk s root virt = (Tables.lookup nextTable s.tables root (slots virt)).map
      fun word => (pteGetAddr word, pteGetFlags word) := by
  unfold vmmWalk slots Tables.lookup
  simp only [Tables.node, Option.bind_some, Option.bind_eq_bind, Option.map_bind]
  rw [Option.bind_assoc, Option.bind_assoc]
  -- the three tables are the same, level by level
  refine congrArg (Option.bind _) (funext ?_)
  intro pml3
  refine congrArg (Option.bind _) (funext ?_)
  intro pml2
  refine congrArg (Option.bind _) (funext ?_)
  intro pml1
  show (if s.entry pml1 (pmlIndex virt 12) &&& ptePresent = 0 then none else some _) =
    Option.map _ (Tables.present nextTable (s.entry pml1 (pmlIndex virt 12)))
  unfold Tables.present nextTable
  by_cases h : s.entry pml1 (pmlIndex virt 12) &&& ptePresent = 0
  · simp [h]
  · simp [h]

/-- The walk distinguishes bits 12 to 47 of an address. -/
theorem slots_eq_iff (v w : Nat) :
    slots v = slots w ↔ v / 4096 % 2 ^ 36 = w / 4096 % 2 ^ 36 := by
  unfold slots pmlSlot
  simp only [List.cons.injEq, Fin.mk.injEq, pmlIndex_eq, and_true]
  omega

end Medlar64
