import Medlar64.Lib.LinkedRing
import Medlar64.Mm.Search

/-!
# Medlar64 — the kernel heap (`heap.c`)

A heap is a page with a pointer to a sentinel block, and the blocks are a
circular doubly linked list kept in the headers of the pages they manage.

* `heapCreate`, `heapAlloc`, `heapFree`, `heapRealloc` — the source functions.
* `get_set`, `blockHead_set`, `set_mem` — one header field written: what every
  field of every block, the heap's pointer and every byte of memory become.
* `HeaderWrites` — the same for a sequence of assignments.
* `heapSentinel_spec`, `heapLink_spec`, `heapUnlink_spec` — and for making the
  sentinel, linking a block in and unlinking one, given the pages that the
  pointers point to.
-/

namespace Medlar64

-- ---------------------------------------------------------------------------
-- The source functions
-- ---------------------------------------------------------------------------

/-- The fields of `heap_block`. -/
inductive BlockField
  | next | prev | used | magic | size
deriving DecidableEq, Repr

/-- Where the compiler puts the fields: the `bool` is padded to the `u32`
behind it, and this to the `u64`. -/
def BlockField.offset : BlockField → Nat
  | next => 0
  | prev => 8
  | used => 16
  | magic => 20
  | size => 24

/-- The bytes of a field: two pointers, a `bool`, a `u32` and a `u64`. -/
def BlockField.width : BlockField → Nat
  | next => 8
  | prev => 8
  | used => 1
  | magic => 4
  | size => 8

/-- `sizeof(heap_block)`. -/
abbrev sizeofBlock : Nat := 32

/-- `HEAP_MAGIC` -/
def heapMagic : Nat := 0xdeadcafe

/-- `block->field`. -/
def Machine.get (s : Machine) (block : Nat) (f : BlockField) : Nat :=
  s.load (block + f.offset) f.width

/-- `block->field = v`. -/
def Machine.set (s : Machine) (block : Nat) (f : BlockField) (v : Nat) : Machine :=
  s.store (block + f.offset) f.width v

/-- `h->block_head`. -/
def Machine.blockHead (s : Machine) (h : Nat) : Nat := s.load h 8

/-- `heap_create()`. -/
def heapCreate (s : Machine) : Option (Nat × Machine) := do
  let (p, s) ← pmmAlloc s 1
  let h := s.higherHalf p
  let (p, s) ← pmmAlloc s 1
  let s := s.store h 8 (s.higherHalf p)
  let s := s.set (s.blockHead h) .magic heapMagic
  -- the chained assignment works from the right
  let s := s.set (s.blockHead h) .prev (s.blockHead h)
  let s := s.set (s.blockHead h) .next (s.blockHead h)
  let s := s.set (s.blockHead h) .size 0
  let s := s.set (s.blockHead h) .used 1
  some (h, s)

/-- The pages of a block for `n` bytes. -/
def blockPages (n : Nat) : Nat := divCeiling (sizeofBlock + n)

/-- `heap_alloc(h, n)` from the machine that `pmm_alloc` left, with the page
it returned. -/
def heapLink (s : Machine) (h n p : Nat) : Nat × Machine :=
  let block := s.higherHalf p
  let s := s.set block .magic heapMagic
  let s := s.set block .size n
  let s := s.set block .used 1
  let s := s.set block .prev (s.get (s.blockHead h) .prev)
  let s := s.set block .next (s.blockHead h)
  let s := s.set (s.get (s.blockHead h) .prev) .next block
  let s := s.set (s.blockHead h) .prev block
  (u64 (block + sizeofBlock), s)

/-- `heap_alloc(h, n)`. -/
def heapAlloc (s : Machine) (h n : Nat) : Option (Nat × Machine) := do
  let (p, s) ← pmmAlloc s (blockPages n)
  some (heapLink s h n p)

/-- `ptr - sizeof(heap_block)`. -/
def headerOf (ptr : Nat) : Nat := u64 (ptr + (2 ^ 64 - sizeofBlock))

/-- `block->prev->next = block->next; block->next->prev = block->prev`. -/
def heapUnlink (s : Machine) (block : Nat) : Machine :=
  let s := s.set (s.get block .prev) .next (s.get block .next)
  s.set (s.get block .next) .prev (s.get block .prev)

/-- `heap_free(ptr)`. -/
def heapFree (s : Machine) (ptr : Nat) : Machine :=
  let block := headerOf ptr
  if s.get block .magic ≠ heapMagic then s
  else
    let s := heapUnlink s block
    let pages := blockPages (s.get block .size)
    pmmFree s (s.physical (headerOf ptr)) pages

/-- `heap_realloc(h, ptr, n)`. -/
def heapRealloc (s : Machine) (h ptr n : Nat) : Option (Nat × Machine) :=
  let block := headerOf ptr
  if s.get block .magic ≠ heapMagic then some (0, s)
  else
    match heapAlloc s h n with
    | none => none
    | some (newPtr, s) =>
      if newPtr = 0 then some (0, s)
      else
        let s := memcpy s newPtr ptr (s.get block .size)
        some (newPtr, heapFree s ptr)

-- ---------------------------------------------------------------------------
-- Headers in pages
-- ---------------------------------------------------------------------------

/-- The direct-map pointer to the front of a page. -/
def Machine.pagePtr (s : Machine) (page : Nat) : Nat := s.higherHalf (4096 * page)

theorem SameLayout.pagePtr {s s' : Machine} (h : SameLayout s s') (page : Nat) :
    s'.pagePtr page = s.pagePtr page := h.higherHalf _

theorem pagePtr_inj (s : Machine) {P Q : Nat} (hP : P < 2 ^ 52) (hQ : Q < 2 ^ 52)
    (h : s.pagePtr P = s.pagePtr Q) : P = Q := by
  have := higherHalf_injOn s (by omega) (by omega) h
  omega

theorem sameGlobals_set (s : Machine) (v x : Nat) (f : BlockField) :
    SameGlobals s (s.set v f x) := sameGlobals_store _ _ _ _

theorem BlockField.le (f : BlockField) : f.offset + f.width ≤ 32 := by
  cases f <;> decide

theorem BlockField.apart {f g : BlockField} (h : f ≠ g) :
    f.offset + f.width ≤ g.offset ∨ g.offset + g.width ≤ f.offset := by
  cases f <;> cases g <;> first | exact absurd rfl h | decide

section Fields

variable {t s : Machine} (ht : SameLayout t s) {P Q hp : Nat}

theorem physical_pagePtr_add (ht : SameLayout t s) {k : Nat} (hP : P < 2 ^ 52) (hk : k < 4096) :
    s.physical (t.pagePtr P + k) = 4096 * P + k := by
  rw [ht.physical, Machine.pagePtr, physical_higherHalf_add t (by omega)]

include ht in
/-- A field is a word of its page, -/
theorem get_pagePtr (hP : P < 2 ^ 52) (f : BlockField) :
    s.get (t.pagePtr P) f = loadLE s.mem (4096 * P + f.offset) f.width := by
  have := f.le
  rw [Machine.get, Machine.load, physical_pagePtr_add ht hP (by omega)]

include ht in
/-- and an assignment to it a store there. -/
theorem set_pagePtr_mem (hP : P < 2 ^ 52) (f : BlockField) (x : Nat) :
    (s.set (t.pagePtr P) f x).mem = storeLE s.mem (4096 * P + f.offset) f.width x := by
  have := f.le
  show storeLE s.mem (s.physical (t.pagePtr P + f.offset)) f.width x = _
  rw [physical_pagePtr_add ht hP (by omega)]

include ht in
/-- **A field written**: the fields of every block afterwards. This is what all
assignments to headers are reduced to. -/
theorem get_set (hP : P < 2 ^ 52) (hQ : Q < 2 ^ 52) (f g : BlockField) (x : Nat) :
    (s.set (t.pagePtr P) f x).get (t.pagePtr Q) g =
      if Q = P ∧ g = f then x % 256 ^ f.width else s.get (t.pagePtr Q) g := by
  have hf := f.le
  have hg := g.le
  rw [get_pagePtr (ht.trans (sameGlobals_set s _ x f).toSameLayout) hQ,
    set_pagePtr_mem ht hP, get_pagePtr ht hQ]
  by_cases h : Q = P ∧ g = f
  · obtain ⟨rfl, rfl⟩ := h
    rw [if_pos ⟨rfl, rfl⟩, loadLE_storeLE]
  · rw [if_neg h, loadLE_storeLE_disjoint]
    -- the words are in different pages, or are different fields
    by_cases hpage : Q = P
    · have := BlockField.apart (fun h' => h ⟨hpage, h'⟩)
      omega
    · omega

/-- The pointer of a heap is the first word of its page. -/
theorem blockHead_pagePtr (ht : SameLayout t s) (hhp : hp < 2 ^ 52) :
    s.blockHead (t.pagePtr hp) = loadLE s.mem (4096 * hp) 8 := by
  have hphys := physical_pagePtr_add ht hhp (k := 0) (by decide)
  rw [Machine.blockHead, Machine.load]
  exact congrArg (fun a => loadLE s.mem a 8) hphys

include ht in
/-- The heap's pointer to its sentinel is in a page of its own. -/
theorem blockHead_set (hP : P < 2 ^ 52) (hhp : hp < 2 ^ 52) (hne : hp ≠ P) (f : BlockField)
    (x : Nat) :
    (s.set (t.pagePtr P) f x).blockHead (t.pagePtr hp) = s.blockHead (t.pagePtr hp) := by
  have hf := f.le
  rw [blockHead_pagePtr (ht.trans (sameGlobals_set s _ x f).toSameLayout) hhp,
    set_pagePtr_mem ht hP, loadLE_storeLE_disjoint (by omega), blockHead_pagePtr ht hhp]

include ht in
theorem set_mem {a : Nat} (hP : P < 2 ^ 52) (f : BlockField) (x : Nat)
    (h : a < 4096 * P ∨ 4096 * P + 32 ≤ a) : (s.set (t.pagePtr P) f x).mem a = s.mem a := by
  have hf := f.le
  rw [set_pagePtr_mem ht hP, storeLE_outside (by omega)]

include ht in
theorem set_mem_field {a : Nat} (hP : P < 2 ^ 52) (f : BlockField) (x : Nat)
    (h : a < 4096 * P + f.offset ∨ 4096 * P + f.offset + f.width ≤ a) :
    (s.set (t.pagePtr P) f x).mem a = s.mem a := by
  rw [set_pagePtr_mem ht hP, storeLE_outside h]

end Fields

-- ---------------------------------------------------------------------------
-- Sequences of assignments
-- ---------------------------------------------------------------------------

/-- The fields of the headers by pages, with one field of page `P` written. -/
def setField (H : Nat → BlockField → Nat) (P : Nat) (f : BlockField) (x : Nat) (Q : Nat)
    (g : BlockField) : Nat :=
  if Q = P ∧ g = f then x % 256 ^ f.width else H Q g

/-- Assignments to header fields in `pages` have led from `u` to `s`, whose
headers are `H`; the heap in page `hp` keeps its pointer. -/
structure HeaderWrites (t : Machine) (hp : Nat) (pages : List Nat) (u : Machine)
    (H : Nat → BlockField → Nat) (s : Machine) : Prop where
  globals : SameGlobals u s
  head : s.blockHead (t.pagePtr hp) = u.blockHead (t.pagePtr hp)
  get : ∀ Q, Q < 2 ^ 52 → ∀ f, s.get (t.pagePtr Q) f = H Q f
  mem : ∀ a, a / 4096 ∉ pages → s.mem a = u.mem a

section HeaderWrites

variable {t u s : Machine} {hp P : Nat} {pages : List Nat} {H : Nat → BlockField → Nat}

theorem HeaderWrites.start (t : Machine) (hp : Nat) (pages : List Nat) (u : Machine) :
    HeaderWrites t hp pages u (fun Q f => u.get (t.pagePtr Q) f) u :=
  ⟨.refl u, rfl, fun _ _ _ => rfl, fun _ _ => rfl⟩

/-- One more assignment, to a header in one of the pages. -/
theorem HeaderWrites.set (h : HeaderWrites t hp pages u H s) (hu : SameLayout t u)
    (hhp : hp < 2 ^ 52) (hP : P < 2 ^ 52) (hne : hp ≠ P) (hmem : P ∈ pages) (f : BlockField)
    (x : Nat) : HeaderWrites t hp pages u (setField H P f x) (s.set (t.pagePtr P) f x) := by
  have hs := hu.trans h.globals.toSameLayout
  refine ⟨h.globals.trans (sameGlobals_set s _ x f), ?_, ?_, ?_⟩
  · rw [blockHead_set hs hP hhp hne, h.head]
  · intro Q hQ g
    rw [get_set hs hP hQ, h.get Q hQ, setField]
  · intro a ha
    have hpage : a / 4096 ≠ P := fun heq => ha (heq ▸ hmem)
    rw [set_mem hs hP f x (by omega), h.mem a ha]

end HeaderWrites

-- ---------------------------------------------------------------------------
-- Creating a heap
-- ---------------------------------------------------------------------------

/-- The fields that `heap_create` and `heap_alloc` give a new block. -/
def newHeader (next prev size : Nat) : BlockField → Nat
  | .next => next
  | .prev => prev
  | .used => 1
  | .magic => heapMagic
  | .size => size

/-- The assignments of `heap_create`, with the pointers to its two pages. -/
def heapSentinel (s : Machine) (h sentinel : Nat) : Machine :=
  let s := s.store h 8 sentinel
  let s := s.set (s.blockHead h) .magic heapMagic
  let s := s.set (s.blockHead h) .prev (s.blockHead h)
  let s := s.set (s.blockHead h) .next (s.blockHead h)
  let s := s.set (s.blockHead h) .size 0
  s.set (s.blockHead h) .used 1

/-- `heap_create` is two pages from `pmm_alloc`, and the assignments. -/
theorem heapCreate_eq {s s₁ s₂ : Machine} {p q : Nat} (h₁ : pmmAlloc s 1 = some (p, s₁))
    (h₂ : pmmAlloc s₁ 1 = some (q, s₂)) :
    heapCreate s =
      some (s₁.higherHalf p, heapSentinel s₂ (s₁.higherHalf p) (s₂.higherHalf q)) := by
  unfold heapCreate
  rw [h₁]
  simp only [Option.bind_eq_bind, Option.bind_some, h₂]
  rfl

/-- The heap's page gets the pointer to its sentinel. -/
theorem blockHead_store {t s : Machine} (ht : SameLayout t s) {hp : Nat} (hhp : hp < 2 ^ 52)
    (sp : Nat) :
    (s.store (t.pagePtr hp) 8 (t.pagePtr sp)).blockHead (t.pagePtr hp) = t.pagePtr sp := by
  have hphys : s.physical (t.pagePtr hp) = 4096 * hp :=
    physical_pagePtr_add ht hhp (k := 0) (by decide)
  rw [blockHead_pagePtr (ht.trans (sameGlobals_store s _ _ _).toSameLayout) hhp]
  show loadLE (storeLE s.mem (s.physical (t.pagePtr hp)) 8 (t.pagePtr sp)) (4096 * hp) 8 = _
  rw [hphys, loadLE_storeLE]
  exact Nat.mod_eq_of_lt (higherHalf_lt t _)

/-- The sentinel in page `sp` is a block of size 0 linked with itself. Each of
the assignments finds the sentinel through the pointer in the heap's own page,
which none of them changes; the fields do not overlap, so the last value
assigned to each of them stays. -/
theorem heapSentinel_spec {t s : Machine} (ht : SameLayout t s) {hp sp : Nat} (hhp : hp < 2 ^ 52)
    (hsp : sp < 2 ^ 52) (hne : hp ≠ sp) :
    SameGlobals s (heapSentinel s (t.pagePtr hp) (t.pagePtr sp)) ∧
      (heapSentinel s (t.pagePtr hp) (t.pagePtr sp)).blockHead (t.pagePtr hp) = t.pagePtr sp ∧
      (∀ f, (heapSentinel s (t.pagePtr hp) (t.pagePtr sp)).get (t.pagePtr sp) f =
        newHeader (t.pagePtr sp) (t.pagePtr sp) 0 f) ∧
      ∀ a, a / 4096 ≠ hp → a / 4096 ≠ sp →
        (heapSentinel s (t.pagePtr hp) (t.pagePtr sp)).mem a = s.mem a := by
  have hptr : t.pagePtr sp % 256 ^ 8 = t.pagePtr sp := Nat.mod_eq_of_lt (higherHalf_lt t _)
  have hmagic : heapMagic % 256 ^ 4 = heapMagic := by decide
  have hphys : s.physical (t.pagePtr hp) = 4096 * hp :=
    physical_pagePtr_add ht hhp (k := 0) (by decide)
  unfold heapSentinel
  simp only
  -- the pointer in the heap's own page
  have hglob₁ := sameGlobals_store s (t.pagePtr hp) 8 (t.pagePtr sp)
  have hhead₁ := blockHead_store ht hhp sp
  have hmem₁ : ∀ a, a / 4096 ≠ hp →
      (s.store (t.pagePtr hp) 8 (t.pagePtr sp)).mem a = s.mem a := by
    intro a ha
    show storeLE s.mem (s.physical (t.pagePtr hp)) 8 (t.pagePtr sp) a = _
    rw [hphys, storeLE_outside (by omega)]
  generalize s.store (t.pagePtr hp) 8 (t.pagePtr sp) = s₁ at hglob₁ hhead₁ hmem₁ ⊢
  have ht₁ := ht.trans hglob₁.toSameLayout
  -- then the header of the sentinel, in the order of the source
  have w₁ := HeaderWrites.start t hp [sp] s₁
  have hstep := fun {H : Nat → BlockField → Nat} {s : Machine}
      (w : HeaderWrites t hp [sp] s₁ H s) (f : BlockField) (x : Nat) =>
    w.set ht₁ hhp hsp hne (List.mem_singleton.mpr rfl) f x
  have w₂ := hstep w₁ .magic heapMagic
  have w₃ := hstep w₂ .prev (t.pagePtr sp)
  have w₄ := hstep w₃ .next (t.pagePtr sp)
  have w₅ := hstep w₄ .size 0
  have w₆ := hstep w₅ .used 1
  rw [hhead₁, w₂.head, hhead₁, w₃.head, hhead₁, w₄.head, hhead₁, w₅.head, hhead₁]
  refine ⟨hglob₁.trans w₆.globals, w₆.head.trans hhead₁, ?_, ?_⟩
  · intro f
    rw [w₆.get sp hsp]
    -- each field has the last value that was assigned to it
    cases f with
    | magic => simpa [setField, newHeader, BlockField.width] using hmagic
    | size | used => simp [setField, newHeader, BlockField.width]
    | prev | next => simpa [setField, newHeader, BlockField.width] using hptr
  · intro a hahp hasp
    rw [w₆.mem a (by simpa using hasp), hmem₁ a hahp]

-- ---------------------------------------------------------------------------
-- Linking a block in
-- ---------------------------------------------------------------------------

/-- The assignments of `heap_alloc` with the pointers they go to: page `P`
becomes a block behind the last one, `L`, of the list of sentinel `H`. -/
def linkedMachine (s : Machine) (H L P n : Nat) : Machine :=
  let s' := s.set (s.pagePtr P) .magic heapMagic
  let s' := s'.set (s.pagePtr P) .size n
  let s' := s'.set (s.pagePtr P) .used 1
  let s' := s'.set (s.pagePtr P) .prev (s.pagePtr L)
  let s' := s'.set (s.pagePtr P) .next (s.pagePtr H)
  let s' := s'.set (s.pagePtr L) .next (s.pagePtr P)
  s'.set (s.pagePtr H) .prev (s.pagePtr P)

section Link

variable {s : Machine} {hp H L P n : Nat}

/-- The new block is none of the pages linked so far, and the heap's page
holds no block. -/
structure LinkTargets (hp H L P : Nat) : Prop where
  hp_lt : hp < 2 ^ 52
  head_lt : H < 2 ^ 52
  last_lt : L < 2 ^ 52
  new_lt : P < 2 ^ 52
  new_hp : P ≠ hp
  new_head : P ≠ H
  new_last : P ≠ L
  hp_head : hp ≠ H
  hp_last : hp ≠ L

/--
`heap_alloc` after its `pmm_alloc` makes these assignments; the machine they
lead to, field by field. The order matters: the last block is found through the
sentinel, whose own `prev` is written last.
-/
theorem heapLink_writes (hpages : LinkTargets hp H L P)
    (hhead : s.blockHead (s.pagePtr hp) = s.pagePtr H)
    (hlast : s.get (s.pagePtr H) .prev = s.pagePtr L) :
    heapLink s (s.pagePtr hp) n (4096 * P) =
        (u64 (s.pagePtr P + sizeofBlock), linkedMachine s H L P n) ∧
      HeaderWrites s hp [P, L, H] s
        (setField (setField (setField (setField (setField (setField (setField
          (fun Q f => s.get (s.pagePtr Q) f)
          P .magic heapMagic) P .size n) P .used 1) P .prev (s.pagePtr L)) P .next (s.pagePtr H))
          L .next (s.pagePtr P)) H .prev (s.pagePtr P))
        (linkedMachine s H L P n) := by
  obtain ⟨hhp, hH, hL, hP, hPhp, hPH, hPL, hhpH, hhpL⟩ := hpages
  -- seven assignments, each in a page that is not the heap's own
  have hblock : s.higherHalf (4096 * P) = s.pagePtr P := rfl
  -- the assignments in the order of the source; the new block first
  have w₀ := HeaderWrites.start s hp [P, L, H] s
  have w₁ := w₀.set (.refl s) hhp hP hPhp.symm (by simp) .magic heapMagic
  have w₂ := w₁.set (.refl s) hhp hP hPhp.symm (by simp) .size n
  have w₃ := w₂.set (.refl s) hhp hP hPhp.symm (by simp) .used 1
  have w₄ := w₃.set (.refl s) hhp hP hPhp.symm (by simp) .prev (s.pagePtr L)
  have w₅ := w₄.set (.refl s) hhp hP hPhp.symm (by simp) .next (s.pagePtr H)
  -- then the two links around it
  have w₆ := w₅.set (.refl s) hhp hL hhpL (by simp) .next (s.pagePtr P)
  have w₇ := w₆.set (.refl s) hhp hH hhpH (by simp) .prev (s.pagePtr P)
  refine ⟨?_, w₇⟩
  -- the last block is read twice, before the new one and behind it
  have hlast₃ := w₃.get H hH .prev
  simp only [setField, hlast, reduceCtorEq, and_false, if_false] at hlast₃
  have hlast₅ := w₅.get H hH .prev
  simp only [setField, hlast, hPH.symm, reduceCtorEq, and_false, false_and, if_false] at hlast₅
  simp only [heapLink, hblock]
  rw [w₃.head, hhead, hlast₃, w₄.head, hhead, w₅.head, hhead, hlast₅, w₆.head, hhead]
  rfl

/--
**Linking in.** `heap_alloc` after its `pmm_alloc`: page `P` becomes a block
behind the last one, `L`, of the list of sentinel `H`.
-/
theorem heapLink_spec (s : Machine) {hp H L P n : Nat} (hhp : hp < 2 ^ 52) (hH : H < 2 ^ 52)
    (hL : L < 2 ^ 52) (hP : P < 2 ^ 52) (hn : n < 2 ^ 64)
    (hhead : s.blockHead (s.pagePtr hp) = s.pagePtr H)
    (hlast : s.get (s.pagePtr H) .prev = s.pagePtr L)
    (hPhp : P ≠ hp) (hPH : P ≠ H) (hPL : P ≠ L) (hhpH : hp ≠ H) (hhpL : hp ≠ L) :
    ∃ s', heapLink s (s.pagePtr hp) n (4096 * P) = (u64 (s.pagePtr P + sizeofBlock), s') ∧
      SameGlobals s s' ∧ s'.blockHead (s.pagePtr hp) = s.pagePtr H ∧
      (∀ Q, Q < 2 ^ 52 → ∀ f, s'.get (s.pagePtr Q) f =
        if Q = P then newHeader (s.pagePtr H) (s.pagePtr L) n f
        else if Q = L ∧ f = .next ∨ Q = H ∧ f = .prev then s.pagePtr P
        else s.get (s.pagePtr Q) f) ∧
      ∀ a, a / 4096 ≠ P → a / 4096 ≠ L → a / 4096 ≠ H → s'.mem a = s.mem a := by
  have hptr : ∀ Q, s.pagePtr Q % 256 ^ 8 = s.pagePtr Q := fun Q =>
    Nat.mod_eq_of_lt (higherHalf_lt s _)
  have hsize : n % 256 ^ 8 = n := Nat.mod_eq_of_lt hn
  have hmagic : heapMagic % 256 ^ 4 = heapMagic := by decide
  obtain ⟨hrun, w⟩ := heapLink_writes (n := n)
    ⟨hhp, hH, hL, hP, hPhp, hPH, hPL, hhpH, hhpL⟩ hhead hlast
  refine ⟨_, hrun, w.globals, w.head.trans hhead, ?_, ?_⟩
  · intro Q hQ f
    rw [w.get Q hQ]
    by_cases hQP : Q = P
    · -- the new block
      subst hQP
      rw [if_pos rfl]
      cases f with
      | magic => simpa [setField, newHeader, BlockField.width] using hmagic
      | size => simpa [setField, newHeader, BlockField.width] using hsize
      | used => simp [setField, newHeader, BlockField.width]
      | prev => simpa [setField, hPH, newHeader, BlockField.width] using hptr L
      | next => simpa [setField, hPL, newHeader, BlockField.width] using hptr H
    · rw [if_neg hQP]
      by_cases hQH : Q = H ∧ f = .prev
      · rw [setField, if_pos hQH, if_pos (.inr hQH)]
        exact hptr P
      · rw [setField, if_neg hQH]
        by_cases hQL : Q = L ∧ f = .next
        · rw [setField, if_pos hQL, if_pos (.inl hQL)]
          exact hptr P
        · -- every other field is as it was
          rw [setField, if_neg hQL, if_neg (not_or.mpr ⟨hQL, hQH⟩)]
          simp [setField, hQP]
  · intro a haP haL haH
    refine w.mem a ?_
    simp [haP, haL, haH]

/-- Byte by byte: outside the new page, `heap_alloc` writes the link to it in
the last block and the one in the sentinel. -/
theorem linkedMachine_mem (hpages : LinkTargets hp H L P) {a : Nat} (hPa : a / 4096 ≠ P)
    (hLa : a < 4096 * L ∨ 4096 * L + 8 ≤ a) (hHa : a < 4096 * H + 8 ∨ 4096 * H + 16 ≤ a) :
    (linkedMachine s H L P n).mem a = s.mem a := by
  -- seven assignments, the last one first
  unfold linkedMachine
  have hw := fun {u : Machine} (hu : SameLayout s u) (f : BlockField) (x : Nat) =>
    set_mem hu hpages.new_lt f x (a := a) (by omega)
  have hg := fun (u : Machine) (Q : Nat) (f : BlockField) (x : Nat) =>
    (sameGlobals_set u (s.pagePtr Q) x f).toSameLayout
  have h₁ := SameLayout.refl s
  have h₂ := h₁.trans (hg _ P .magic heapMagic)
  have h₃ := h₂.trans (hg _ P .size n)
  have h₄ := h₃.trans (hg _ P .used 1)
  have h₅ := h₄.trans (hg _ P .prev (s.pagePtr L))
  have h₆ := h₅.trans (hg _ P .next (s.pagePtr H))
  have h₇ := h₆.trans (hg _ L .next (s.pagePtr P))
  simp only
  rw [set_mem_field h₇ hpages.head_lt _ _ hHa, set_mem_field h₆ hpages.last_lt _ _ hLa,
    hw h₅, hw h₄, hw h₃, hw h₂, hw h₁]

end Link

-- ---------------------------------------------------------------------------
-- Unlinking a block
-- ---------------------------------------------------------------------------

/-- The assignments of `heap_free` with the pointers they go to: the
neighbours `A` and `C` are linked with each other. -/
def unlinkedMachine (t s : Machine) (A C : Nat) : Machine :=
  (s.set (t.pagePtr A) .next (t.pagePtr C)).set (t.pagePtr C) .prev (t.pagePtr A)

section Unlink

variable {t s : Machine} {hp A C P : Nat}

/-- `heap_free` before its `pmm_free` makes these assignments. The second one
reads the links of the block again, which the first one has not changed. -/
theorem heapUnlink_eq (ht : SameLayout t s) (hA : A < 2 ^ 52) (hP : P < 2 ^ 52)
    (hprev : s.get (t.pagePtr P) .prev = t.pagePtr A)
    (hnext : s.get (t.pagePtr P) .next = t.pagePtr C) (hAP : A ≠ P) :
    heapUnlink s (t.pagePtr P) = unlinkedMachine t s A C := by
  -- the second assignment reads the links of the block again
  have hnext₁ := get_set ht hA hP .next .next (t.pagePtr C)
  have hprev₁ := get_set ht hA hP .next .prev (t.pagePtr C)
  rw [if_neg fun h => hAP h.1.symm, hnext] at hnext₁
  rw [if_neg fun h => hAP h.1.symm, hprev] at hprev₁
  simp only [heapUnlink, hprev, hnext]
  rw [hnext₁, hprev₁]
  rfl

/-- Byte by byte: `heap_free` writes one link in each neighbour. -/
theorem unlinkedMachine_mem (ht : SameLayout t s) (hA : A < 2 ^ 52) (hC : C < 2 ^ 52) {a : Nat}
    (hAa : a < 4096 * A ∨ 4096 * A + 8 ≤ a) (hCa : a < 4096 * C + 8 ∨ 4096 * C + 16 ≤ a) :
    (unlinkedMachine t s A C).mem a = s.mem a := by
  have ht₁ := ht.trans (sameGlobals_set s (t.pagePtr A) (t.pagePtr C) .next).toSameLayout
  unfold unlinkedMachine
  rw [set_mem_field ht₁ hC _ _ hCa, set_mem_field ht hA _ _ hAa]

end Unlink

/--
**Unlinking.** `heap_free` before its `pmm_free`: the neighbours `A` and `C` of
block `P` are linked with each other, and no other field is written.
-/
theorem heapUnlink_spec {t s : Machine} (ht : SameLayout t s) {hp A C P : Nat} (hhp : hp < 2 ^ 52)
    (hA : A < 2 ^ 52) (hC : C < 2 ^ 52) (hP : P < 2 ^ 52)
    (hprev : s.get (t.pagePtr P) .prev = t.pagePtr A)
    (hnext : s.get (t.pagePtr P) .next = t.pagePtr C)
    (hAP : A ≠ P) (hhpA : hp ≠ A) (hhpC : hp ≠ C) :
    SameGlobals s (heapUnlink s (t.pagePtr P)) ∧
      (heapUnlink s (t.pagePtr P)).blockHead (t.pagePtr hp) = s.blockHead (t.pagePtr hp) ∧
      (∀ Q, Q < 2 ^ 52 → ∀ f, (heapUnlink s (t.pagePtr P)).get (t.pagePtr Q) f =
        if Q = A ∧ f = .next then t.pagePtr C
        else if Q = C ∧ f = .prev then t.pagePtr A
        else s.get (t.pagePtr Q) f) ∧
      ∀ a, a / 4096 ≠ A → a / 4096 ≠ C → (heapUnlink s (t.pagePtr P)).mem a = s.mem a := by
  have hptr : ∀ Q, t.pagePtr Q % 256 ^ 8 = t.pagePtr Q := fun Q =>
    Nat.mod_eq_of_lt (higherHalf_lt t _)
  rw [heapUnlink_eq ht hA hP hprev hnext hAP]
  -- `prev->next` is written first, then `next->prev`
  have w₁ := (HeaderWrites.start t hp [A, C] s).set ht hhp hA hhpA (by simp) .next (t.pagePtr C)
  have w₂ := w₁.set ht hhp hC hhpC (by simp) .prev (t.pagePtr A)
  unfold unlinkedMachine
  refine ⟨w₂.globals, w₂.head, ?_, ?_⟩
  · intro Q hQ f
    rw [w₂.get Q hQ]
    -- the second write leaves the first one alone: it is to another field
    by_cases hQA : Q = A ∧ f = .next
    · rw [setField, if_neg (by rw [hQA.2]; simp), setField, if_pos hQA, if_pos hQA]
      exact hptr C
    · rw [if_neg hQA]
      by_cases hQC : Q = C ∧ f = .prev
      · rw [setField, if_pos hQC, if_pos hQC]
        exact hptr A
      · rw [setField, if_neg hQC, setField, if_neg hQA, if_neg hQC]
  · intro a haA haC
    refine w₂.mem a ?_
    simp [haA, haC]

end Medlar64
