import Mathlib.Algebra.Group.Nat.Defs
import Mathlib.Tactic.Common

/-!
# Bump allocation

Blocks that are cut one after another from a pool. The pool is a number of
bytes and a pointer behind the bytes that are taken; nothing is ever given back
singly.

* `alloc` — one block, where the pool has room; `allocAll` — several of them.
* `allocAll_eq` — all blocks are there when their sizes fit together.
* `blocks_pairwise`, `mem_blocks` — they lie side by side, inside the pool.
-/

namespace Bump

/-- The bytes from `start` on. -/
structure Block where
  start : ℕ
  size : ℕ

/-- The first byte behind the block. -/
def Block.stop (b : Block) : ℕ := b.start + b.size

/-- A block from a pool of `limit` bytes, of which the first `ptr` are taken,
and the pointer behind it. -/
def alloc (limit s ptr : ℕ) : Option (Block × ℕ) :=
  if limit < ptr + s then none else some (⟨ptr, s⟩, ptr + s)

/-- Blocks of the given sizes one after the other; if one of them does not fit,
none is returned. -/
def allocAll (limit : ℕ) : List ℕ → ℕ → Option (List Block × ℕ)
  | [], ptr => some ([], ptr)
  | s :: sizes, ptr => do
    let (b, ptr) ← alloc limit s ptr
    let (bs, ptr) ← allocAll limit sizes ptr
    some (b :: bs, ptr)

def total : List ℕ → ℕ
  | [] => 0
  | s :: sizes => s + total sizes

/-- The blocks of the given sizes from `ptr` on. -/
def blocks : List ℕ → ℕ → List Block
  | [], _ => []
  | s :: sizes, ptr => ⟨ptr, s⟩ :: blocks sizes (ptr + s)

/-- The blocks have the sizes that were asked for. -/
@[simp] theorem map_size_blocks (sizes : List ℕ) (ptr : ℕ) :
    (blocks sizes ptr).map Block.size = sizes := by
  induction sizes generalizing ptr with
  | nil => rfl
  | cons s sizes ih => rw [blocks, List.map_cons, ih]

/-- Every block lies behind the pointer and within the total of the sizes. -/
theorem mem_blocks {sizes : List ℕ} {ptr : ℕ} {b : Block} (hb : b ∈ blocks sizes ptr) :
    ptr ≤ b.start ∧ b.stop ≤ ptr + total sizes := by
  induction sizes generalizing ptr with
  | nil => exact absurd hb List.not_mem_nil
  | cons s sizes ih =>
    rw [total]
    -- the first block, or one behind it
    obtain rfl | hb := List.mem_cons.mp hb
    · refine ⟨Nat.le_refl _, ?_⟩
      show ptr + s ≤ ptr + (s + total sizes)
      omega
    · obtain ⟨hstart, hstop⟩ := ih hb
      omega

/-- Every block ends before the next one begins. -/
theorem blocks_pairwise (sizes : List ℕ) (ptr : ℕ) :
    (blocks sizes ptr).Pairwise fun b b' => b.stop ≤ b'.start := by
  induction sizes generalizing ptr with
  | nil => exact .nil
  | cons s sizes ih => exact .cons (fun b hb => (mem_blocks hb).1) (ih _)

/-- **All or nothing.** The blocks are the ones cut off side by side if
their sizes fit into what is left of the pool together, and there are none
otherwise. -/
theorem allocAll_eq (limit : ℕ) (sizes : List ℕ) {ptr : ℕ} (hptr : ptr ≤ limit) :
    allocAll limit sizes ptr =
      if ptr + total sizes ≤ limit then some (blocks sizes ptr, ptr + total sizes) else none := by
  induction sizes generalizing ptr with
  | nil =>
    rw [total, Nat.add_zero, if_pos hptr]
    rfl
  | cons s sizes ih =>
    rw [allocAll, alloc, total, ← Nat.add_assoc]
    -- a block that does not fit alone does not fit with the others
    by_cases hs : limit < ptr + s
    · rw [if_pos hs, if_neg (by omega)]
      rfl
    · rw [if_neg hs]
      show (allocAll limit sizes (ptr + s)).bind _ = _
      -- the rest begins where this block ends
      rw [ih (by omega)]
      split
      · rfl
      · rfl

end Bump
