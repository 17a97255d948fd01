import Mathlib.Data.List.Nodup
import Medlar64.Mm.Heap

/-!
# Medlar64 — the block list of a heap

The list part of the heap: which pages hold the blocks, and that their headers
form the circular list. Everything is stated by pages, with the direct map of
a fixed machine `t`.

* `HeapList` — the list of the live blocks and what their headers say.
* `HeapList.congr` — it depends on the headers only.
* `HeapList.link`, `HeapList.unlink` — what `heap_alloc` and `heap_free` do
  to it.
-/

namespace Medlar64

/-- A live block: the pointer `heap_alloc` returned and the size asked for. -/
structure HeapBlock where
  ptr : Nat
  size : Nat
deriving DecidableEq, Repr

/-- The first page of a block. -/
def HeapBlock.page (t : Machine) (b : HeapBlock) : Nat := t.physical b.ptr / 4096

/-- The pages that hold the links of a heap: the heap's own, its sentinel's
and the first ones of the blocks. -/
def linkPages (t : Machine) (hp sp : Nat) (live : List HeapBlock) : List Nat :=
  hp :: sp :: live.map (HeapBlock.page t)

/-- The blocks of the heap in page `hp` with sentinel `sp`, in order. -/
structure HeapList (t : Machine) (hp sp : Nat) (s : Machine) (live : List HeapBlock) : Prop where
  head : s.blockHead (t.pagePtr hp) = t.pagePtr sp
  ring : LinkedRing (fun v => s.get v .next) (fun v => s.get v .prev) (t.pagePtr sp)
    ((live.map (HeapBlock.page t)).map t.pagePtr)
  magic : ∀ P ∈ sp :: live.map (HeapBlock.page t), s.get (t.pagePtr P) .magic = heapMagic
  size : ∀ b ∈ live, s.get (t.pagePtr (b.page t)) .size = b.size
  sentinel : s.get (t.pagePtr sp) .size = 0

section HeapList

variable {t s s' : Machine} {hp sp : Nat} {live l m : List HeapBlock} {b : HeapBlock}

-- ---------------------------------------------------------------------------
-- Pointers of a block
-- ---------------------------------------------------------------------------

/-- The header of a block begins its first page, 32 bytes before the pointer. -/
theorem headerOf_ptr {P ptr : Nat} (h : ptr = u64 (t.pagePtr P + 32)) :
    headerOf ptr = t.pagePtr P := by
  have hlt := higherHalf_lt t (4096 * P)
  rw [h, headerOf, Machine.pagePtr]
  unfold sizeofBlock u64
  omega

/-- The bytes of a block follow its pointer in physical memory too. -/
theorem physical_ptr {P ptr k : Nat} (h : ptr = u64 (t.pagePtr P + 32))
    (hlt : 4096 * P + 32 + k < 2 ^ 64) : t.physical (ptr + k) = 4096 * P + 32 + k := by
  rw [h, Machine.pagePtr]
  unfold Machine.physical Machine.higherHalf u64
  omega

/-- The pointer returned lies in the first page of the block. -/
theorem page_ptr {P ptr n : Nat} (hP : P < 2 ^ 52) (h : ptr = u64 (t.pagePtr P + 32)) :
    HeapBlock.page t ⟨ptr, n⟩ = P := by
  have hphys := physical_ptr (k := 0) h (by omega)
  show t.physical (ptr + 0) / 4096 = P
  rw [hphys]
  omega

-- ---------------------------------------------------------------------------
-- Reading and writing headers
-- ---------------------------------------------------------------------------

/-- A field of a header is read from the first 32 bytes of its page, -/
theorem get_congr (ht : SameLayout t s) (ht' : SameLayout t s') {P : Nat} (hP : P < 2 ^ 52)
    (hmem : ∀ a, 4096 * P ≤ a → a < 4096 * P + 32 → s'.mem a = s.mem a) (f : BlockField) :
    s'.get (t.pagePtr P) f = s.get (t.pagePtr P) f := by
  have hf := f.le
  rw [get_pagePtr ht hP, get_pagePtr ht' hP]
  exact loadLE_congr fun a hlo hhi => hmem a (by omega) (by omega)

/-- as is the pointer to the sentinel in the heap's own page. -/
theorem blockHead_congr (ht : SameLayout t s) (ht' : SameLayout t s') (hhp : hp < 2 ^ 52)
    (hmem : ∀ a, 4096 * hp ≤ a → a < 4096 * hp + 32 → s'.mem a = s.mem a) :
    s'.blockHead (t.pagePtr hp) = s.blockHead (t.pagePtr hp) := by
  rw [blockHead_pagePtr ht hhp, blockHead_pagePtr ht' hhp]
  exact loadLE_congr fun a hlo hhi => hmem a (by omega) (by omega)

theorem exists_page {v : Nat} (pages : List Nat) (h : v ∈ pages.map t.pagePtr) :
    ∃ P ∈ pages, v = t.pagePtr P := by
  obtain ⟨P, hP, rfl⟩ := List.mem_map.mp h
  exact ⟨P, hP, rfl⟩

/-- Different pages lie at different addresses of the direct map. -/
theorem nodup_pagePtr {pages : List Nat} (hnodup : pages.Nodup) (hlt : ∀ P ∈ pages, P < 2 ^ 52) :
    (pages.map t.pagePtr).Nodup :=
  List.Nodup.map_on (fun _ hP _ hQ h => pagePtr_inj t (hlt _ hP) (hlt _ hQ) h) hnodup

/-- **The list depends on the headers only.** Two machines with the same layout
that agree on the first 32 bytes of the pages with links have the same list,
whatever the rest of their memory holds. -/
theorem HeapList.congr (hlist : HeapList t hp sp s live) (ht : SameLayout t s)
    (ht' : SameLayout t s') (hlt : ∀ P ∈ linkPages t hp sp live, P < 2 ^ 52)
    (hmem : ∀ P ∈ linkPages t hp sp live, ∀ a, 4096 * P ≤ a → a < 4096 * P + 32 →
      s'.mem a = s.mem a) : HeapList t hp sp s' live := by
  have hget : ∀ P ∈ sp :: live.map (HeapBlock.page t), ∀ f,
      s'.get (t.pagePtr P) f = s.get (t.pagePtr P) f := fun P hP f =>
    have hP := List.mem_cons_of_mem hp hP
    get_congr ht ht' (hlt P hP) (hmem P hP) f
  have hhp : hp ∈ linkPages t hp sp live := List.mem_cons_self
  have hnodes : ∀ v ∈ t.pagePtr sp :: (live.map (HeapBlock.page t)).map t.pagePtr, ∀ f,
      s'.get v f = s.get v f := by
    intro v hv f
    obtain ⟨P, hP, rfl⟩ := exists_page (sp :: live.map (HeapBlock.page t)) hv
    exact hget P hP f
  refine ⟨?_, ?_, ?_, ?_, ?_⟩
  · -- the pointer to the sentinel
    rw [blockHead_congr ht ht' (hlt hp hhp) (hmem hp hhp), hlist.head]
  · -- the links of the ring
    refine linkedTo_congr hlist.ring (fun v hv => hnodes v hv _) (fun v hv => hnodes v ?_ _)
    rcases List.mem_append.mp (List.mem_of_mem_tail hv) with hv | hv
    · exact hv
    · rw [List.mem_singleton.mp hv]
      exact List.mem_cons_self
  · -- and the fields that are no links
    intro P hP
    rw [hget P hP, hlist.magic P hP]
  · intro b hb
    rw [hget _ (List.mem_cons_of_mem _ (List.mem_map_of_mem hb)), hlist.size b hb]
  · rw [hget sp List.mem_cons_self, hlist.sentinel]

-- ---------------------------------------------------------------------------
-- The two edits
-- ---------------------------------------------------------------------------

/-- The four links that `heap_alloc` writes put page `P` behind the last one.
Two of them are in the new header; of the old ones the `next` of the last block
and the `prev` of the sentinel change, and no other. -/
theorem HeapList.ring_link (hlist : HeapList t hp sp s live)
    (hnodup : (sp :: live.map (HeapBlock.page t)).Nodup)
    (hlt : ∀ Q ∈ sp :: live.map (HeapBlock.page t), Q < 2 ^ 52) {L P n : Nat}
    (hlast : s.get (t.pagePtr sp) .prev = t.pagePtr L)
    (hself : ∀ f, s'.get (t.pagePtr P) f = newHeader (t.pagePtr sp) (t.pagePtr L) n f)
    (hnext : s'.get (t.pagePtr L) .next = t.pagePtr P)
    (hprev : s'.get (t.pagePtr sp) .prev = t.pagePtr P)
    (hother : ∀ Q ∈ sp :: live.map (HeapBlock.page t), ∀ f,
      ¬ (Q = L ∧ f = .next ∨ Q = sp ∧ f = .prev) →
      s'.get (t.pagePtr Q) f = s.get (t.pagePtr Q) f) :
    LinkedRing (fun v => s'.get v .next) (fun v => s'.get v .prev) (t.pagePtr sp)
      ((live.map (HeapBlock.page t)).map t.pagePtr ++ [t.pagePtr P]) := by
  refine hlist.ring.insertTail (nodup_pagePtr hnodup hlt) ?_ ?_
    ?_ (hself .next) hprev ((hself .prev).trans hlast.symm)
  · -- the last block is the only one whose `next` is written
    intro v hv hvl
    obtain ⟨Q, hQ, rfl⟩ := exists_page (sp :: live.map (HeapBlock.page t)) hv
    refine hother Q hQ _ ?_
    rintro (⟨rfl, -⟩ | ⟨-, h⟩)
    · exact hvl hlast.symm
    · simp at h
  · -- and the sentinel the only one whose `prev` is
    intro v hv
    obtain ⟨Q, hQ, rfl⟩ := exists_page _ hv
    refine hother Q (List.mem_cons_of_mem _ hQ) _ ?_
    rintro (⟨-, h⟩ | ⟨rfl, -⟩)
    · simp at h
    · exact (List.nodup_cons.mp hnodup).1 hQ
  · rw [hlast]
    exact hnext

/-- **`heap_alloc`** puts its block behind the last one. The list has a new
node in the page that was allocated, whose header has the size asked for;
outside the pages with links, and this one, nothing is written. -/
theorem HeapList.link (hlist : HeapList t hp sp s live) (ht : SameLayout t s)
    (hlt : ∀ P ∈ linkPages t hp sp live, P < 2 ^ 52) (hnodup : (linkPages t hp sp live).Nodup)
    {P n : Nat} (hP : P < 2 ^ 52) (hfresh : P ∉ linkPages t hp sp live) (hn : n < 2 ^ 64) :
    ∃ ptr s', heapLink s (t.pagePtr hp) n (4096 * P) = (ptr, s') ∧
      ptr = u64 (t.pagePtr P + 32) ∧ SameGlobals s s' ∧
      HeapList t hp sp s' (live ++ [⟨ptr, n⟩]) ∧
      ∀ a, a / 4096 ∉ P :: linkPages t hp sp live → s'.mem a = s.mem a := by
  -- the direct map is that of the machine at the start
  have hpp : s.pagePtr = t.pagePtr := funext fun Q => ht.pagePtr Q
  have hhp : hp ∈ linkPages t hp sp live := List.mem_cons_self
  have hsp : sp ∈ linkPages t hp sp live := List.mem_cons_of_mem _ List.mem_cons_self
  have hnodes : ∀ Q ∈ sp :: live.map (HeapBlock.page t), Q ∈ linkPages t hp sp live := fun Q hQ =>
    List.mem_cons_of_mem _ hQ
  have hne : ∀ Q ∈ linkPages t hp sp live, P ≠ Q := fun Q hQ h => hfresh (h ▸ hQ)
  have hhpne : ∀ Q ∈ sp :: live.map (HeapBlock.page t), hp ≠ Q := fun Q hQ h =>
    (List.nodup_cons.mp hnodup).1 (h ▸ hQ)
  -- the last block of the list, or the sentinel
  obtain ⟨L, hL, hlast⟩ : ∃ L ∈ sp :: live.map (HeapBlock.page t),
      s.get (t.pagePtr sp) .prev = t.pagePtr L :=
    exists_page (sp :: live.map (HeapBlock.page t)) hlist.ring.prev_base_mem
  have hhead := hlist.head
  rw [← hpp] at hhead hlast
  obtain ⟨s', hrun, hglob, hhead', hget, hmem⟩ := heapLink_spec s (hlt hp hhp) (hlt sp hsp)
    (hlt L (hnodes L hL)) hP hn hhead hlast (hne hp hhp) (hne sp hsp) (hne L (hnodes L hL))
    (hhpne sp List.mem_cons_self) (hhpne L hL)
  rw [hpp] at hrun hhead' hget hlast
  refine ⟨_, s', hrun, rfl, hglob, ?_, ?_⟩
  · have hpage : HeapBlock.page t ⟨u64 (t.pagePtr P + sizeofBlock), n⟩ = P := page_ptr hP rfl
    -- the header of the new block, and the fields that are kept
    have hself : ∀ f, s'.get (t.pagePtr P) f =
        newHeader (t.pagePtr sp) (t.pagePtr L) n f := fun f => by
      rw [hget P hP f, if_pos rfl]
    have hother : ∀ Q ∈ sp :: live.map (HeapBlock.page t), ∀ f,
        ¬ (Q = L ∧ f = .next ∨ Q = sp ∧ f = .prev) →
        s'.get (t.pagePtr Q) f = s.get (t.pagePtr Q) f := fun Q hQ f hf => by
      rw [hget Q (hlt Q (hnodes Q hQ)) f, if_neg (hne Q (hnodes Q hQ)).symm, if_neg hf]
    refine ⟨hhead', ?_, ?_, ?_, ?_⟩
    · -- the ring
      rw [List.map_append, List.map_append, List.map_singleton, List.map_singleton, hpage]
      refine hlist.ring_link (List.nodup_cons.mp hnodup).2 (fun Q hQ => hlt Q (hnodes Q hQ))
        hlast hself ?_ ?_ hother
      · rw [hget L (hlt L (hnodes L hL)), if_neg (hne L (hnodes L hL)).symm,
          if_pos (.inl ⟨rfl, rfl⟩)]
      · rw [hget sp (hlt sp hsp), if_neg (hne sp hsp).symm, if_pos (.inr ⟨rfl, rfl⟩)]
    · -- the magic numbers
      intro Q hQ
      rw [List.map_append, List.map_singleton, hpage, ← List.cons_append] at hQ
      rcases List.mem_append.mp hQ with hQ | hQ
      · rw [hother Q hQ _ (by simp), hlist.magic Q hQ]
      · rw [List.mem_singleton.mp hQ]
        exact hself .magic
    · -- the sizes
      intro b hb
      rcases List.mem_append.mp hb with hb | hb
      · rw [hother _ (List.mem_cons_of_mem _ (List.mem_map_of_mem hb)) _ (by simp),
          hlist.size b hb]
      · rw [List.mem_singleton.mp hb, hpage]
        exact hself .size
    · rw [hother sp List.mem_cons_self _ (by simp), hlist.sentinel]
  · -- only the new page, the last block and the sentinel are written
    intro a ha
    refine hmem a (fun h => ha ?_) (fun h => ha ?_) (fun h => ha ?_)
    · rw [h]
      exact List.mem_cons_self
    · rw [h]
      exact List.mem_cons_of_mem _ (hnodes L hL)
    · rw [h]
      exact List.mem_cons_of_mem _ hsp

theorem nodes_sublist (t : Machine) (sp : Nat) (l m : List HeapBlock) (b : HeapBlock) :
    (sp :: (l ++ m).map (HeapBlock.page t)).Sublist
      (sp :: (l ++ b :: m).map (HeapBlock.page t)) :=
  (((List.sublist_cons_self b m).append_left l).map (HeapBlock.page t)).cons_cons sp

theorem linkPages_sublist (t : Machine) (hp sp : Nat) (l m : List HeapBlock) (b : HeapBlock) :
    (linkPages t hp sp (l ++ m)).Sublist (linkPages t hp sp (l ++ b :: m)) :=
  (nodes_sublist t sp l m b).cons_cons hp

/-- The page of the block that goes is none of those left. -/
theorem page_fresh (hnodup : (sp :: (l ++ b :: m).map (HeapBlock.page t)).Nodup) :
    b.page t ∉ sp :: (l ++ m).map (HeapBlock.page t) := by
  have hperm : (sp :: (l ++ b :: m).map (HeapBlock.page t)).Perm
      (b.page t :: sp :: (l ++ m).map (HeapBlock.page t)) :=
    ((List.perm_middle.map (HeapBlock.page t)).cons sp).trans (List.Perm.swap _ _ _)
  exact (List.nodup_cons.mp (hperm.nodup hnodup)).1

/-- The neighbours of a block are the sentinel or other blocks. -/
theorem HeapList.neighbours (hlist : HeapList t hp sp s (l ++ b :: m)) :
    (∃ A ∈ sp :: (l ++ m).map (HeapBlock.page t),
        s.get (t.pagePtr (b.page t)) .prev = t.pagePtr A) ∧
      ∃ C ∈ sp :: (l ++ m).map (HeapBlock.page t),
        s.get (t.pagePtr (b.page t)) .next = t.pagePtr C := by
  have hring := hlist.ring
  rw [List.map_append, List.map_append, List.map_cons, List.map_cons] at hring
  rw [List.map_append, ← List.cons_append]
  constructor
  · -- behind the sentinel or a block before it
    obtain ⟨A, hA, h⟩ := exists_page (sp :: l.map (HeapBlock.page t)) hring.prev_mem
    exact ⟨A, List.mem_append_left _ hA, h⟩
  · -- before a block behind it or the sentinel
    rcases List.mem_append.mp hring.next_mem with h | h
    · obtain ⟨C, hC, h⟩ := exists_page _ h
      exact ⟨C, List.mem_append_right _ hC, h⟩
    · exact ⟨sp, List.mem_cons_self, List.mem_singleton.mp h⟩

/--
**The ring without a block.** Only the two links that pointed to the block
change; the ring of the others closes over it. The two neighbours may be one
and the same page, namely the sentinel, when the block was the only one.
-/
theorem HeapList.ring_unlink (hlist : HeapList t hp sp s (l ++ b :: m))
    (hnodup : (sp :: (l ++ b :: m).map (HeapBlock.page t)).Nodup)
    (hlt : ∀ Q ∈ sp :: (l ++ b :: m).map (HeapBlock.page t), Q < 2 ^ 52) {A C : Nat}
    (hprev : s.get (t.pagePtr (b.page t)) .prev = t.pagePtr A)
    (hnext : s.get (t.pagePtr (b.page t)) .next = t.pagePtr C)
    (hget : ∀ Q ∈ A :: C :: sp :: (l ++ m).map (HeapBlock.page t), ∀ f,
      s'.get (t.pagePtr Q) f =
        if Q = A ∧ f = .next then t.pagePtr C
        else if Q = C ∧ f = .prev then t.pagePtr A
        else s.get (t.pagePtr Q) f) :
    LinkedRing (fun v => s'.get v .next) (fun v => s'.get v .prev) (t.pagePtr sp)
      (((l ++ m).map (HeapBlock.page t)).map t.pagePtr) := by
  have hring := hlist.ring
  have hdist := nodup_pagePtr (t := t) hnodup hlt
  rw [List.map_cons] at hdist
  rw [List.map_append, List.map_append, List.map_cons, List.map_cons] at hring hdist
  rw [List.map_append, List.map_append]
  -- a node of the ring is a page of the list without `b`
  have hnode : ∀ v ∈ t.pagePtr sp :: ((l.map (HeapBlock.page t)).map t.pagePtr ++
      (m.map (HeapBlock.page t)).map t.pagePtr), ∃ Q ∈ sp :: (l ++ m).map (HeapBlock.page t),
        v = t.pagePtr Q := by
    intro v hv
    rw [← List.map_append, ← List.map_append] at hv
    exact exists_page (sp :: (l ++ m).map (HeapBlock.page t)) hv
  -- only the links that pointed to the block change
  refine hring.unlink hdist ?_ ?_ ?_ ?_
  · intro v hv hva
    obtain ⟨Q, hQ, rfl⟩ := hnode v hv
    rw [hget Q (List.mem_cons_of_mem _ (List.mem_cons_of_mem _ hQ)), if_neg, if_neg (by simp)]
    rintro ⟨rfl, -⟩
    exact hva hprev.symm
  · intro v hv hvc
    obtain ⟨Q, hQ, rfl⟩ := hnode v hv
    rw [hget Q (List.mem_cons_of_mem _ (List.mem_cons_of_mem _ hQ)), if_neg (by simp), if_neg]
    rintro ⟨rfl, -⟩
    exact hvc hnext.symm
  · rw [hprev, hnext, hget A List.mem_cons_self, if_pos ⟨rfl, rfl⟩]
  · rw [hprev, hnext, hget C (List.mem_cons_of_mem _ List.mem_cons_self), if_neg (by simp),
      if_pos ⟨rfl, rfl⟩]

/--
**What `heap_free` does to the list.** The block leaves it, keeps its own size
field for the release of its pages, and nothing is written but the headers of
its neighbours.
-/
theorem HeapList.unlink (hlist : HeapList t hp sp s (l ++ b :: m)) (ht : SameLayout t s)
    (hlt : ∀ P ∈ linkPages t hp sp (l ++ b :: m), P < 2 ^ 52)
    (hnodup : (linkPages t hp sp (l ++ b :: m)).Nodup) :
    SameGlobals s (heapUnlink s (t.pagePtr (b.page t))) ∧
      (heapUnlink s (t.pagePtr (b.page t))).get (t.pagePtr (b.page t)) .size = b.size ∧
      HeapList t hp sp (heapUnlink s (t.pagePtr (b.page t))) (l ++ m) ∧
      ∀ a, a / 4096 ∉ linkPages t hp sp (l ++ m) →
        (heapUnlink s (t.pagePtr (b.page t))).mem a = s.mem a := by
  obtain ⟨hhpne, hnodup'⟩ := List.nodup_cons.mp hnodup
  have hrest := (nodes_sublist t sp l m b).subset
  have hfresh := page_fresh hnodup'
  have hbnode : b.page t ∈ sp :: (l ++ b :: m).map (HeapBlock.page t) := by simp
  have hb := hlt _ (List.mem_cons_of_mem _ hbnode)
  have hlt' : ∀ Q ∈ sp :: (l ++ m).map (HeapBlock.page t), Q < 2 ^ 52 := fun Q hQ =>
    hlt Q (List.mem_cons_of_mem _ (hrest hQ))
  have hhpne' : ∀ Q ∈ sp :: (l ++ m).map (HeapBlock.page t), hp ≠ Q := fun Q hQ h =>
    hhpne (h ▸ hrest hQ)
  have hne : ∀ Q ∈ sp :: (l ++ m).map (HeapBlock.page t), Q ≠ b.page t := fun Q hQ h =>
    hfresh (h ▸ hQ)
  obtain ⟨⟨A, hA, hprev⟩, C, hC, hnext⟩ := hlist.neighbours
  obtain ⟨hglob, hhead, hget, hmem⟩ := heapUnlink_spec ht (hlt hp List.mem_cons_self) (hlt' A hA)
    (hlt' C hC) hb hprev hnext (hne A hA) (hhpne' A hA) (hhpne' C hC)
  -- the fields that are no links stay
  have hother : ∀ Q ∈ sp :: (l ++ m).map (HeapBlock.page t), ∀ f, f ≠ .next → f ≠ .prev →
      (heapUnlink s (t.pagePtr (b.page t))).get (t.pagePtr Q) f = s.get (t.pagePtr Q) f :=
    fun Q hQ f h₁ h₂ => by
      rw [hget Q (hlt' Q hQ) f, if_neg fun h => h₁ h.2, if_neg fun h => h₂ h.2]
  refine ⟨hglob, ?_, ⟨?_, ?_, ?_, ?_, ?_⟩, ?_⟩
  · -- the block keeps its own size field
    rw [hget _ hb, if_neg (by simp), if_neg (by simp), hlist.size b (by simp)]
  · rw [hhead, hlist.head]
  · refine hlist.ring_unlink hnodup' (fun Q hQ => hlt Q (List.mem_cons_of_mem _ hQ)) hprev hnext
      fun Q hQ => hget Q ?_
    -- the two neighbours are sentinel or blocks as well
    rcases List.mem_cons.mp hQ with rfl | hQ
    · exact hlt' Q hA
    rcases List.mem_cons.mp hQ with rfl | hQ
    · exact hlt' Q hC
    exact hlt' Q hQ
  · -- the magic numbers and the sizes of those left
    intro Q hQ
    rw [hother Q hQ _ (by simp) (by simp)]
    exact hlist.magic Q (hrest hQ)
  · intro c hc
    have hc' := ((List.sublist_cons_self b m).append_left l).subset hc
    rw [hother _ (List.mem_cons_of_mem _ (List.mem_map_of_mem hc)) _ (by simp) (by simp),
      hlist.size c hc']
  · rw [hother sp List.mem_cons_self _ (by simp) (by simp), hlist.sentinel]
  · -- only the two neighbours are written
    intro a ha
    refine hmem a (fun h => ha ?_) (fun h => ha ?_)
    · rw [h]
      exact List.mem_cons_of_mem _ hA
    · rw [h]
      exact List.mem_cons_of_mem _ hC

end HeapList

end Medlar64
