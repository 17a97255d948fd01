import Medlar64.Mm.Pmm

/-!
# Medlar64 — the page search

What a round of the loop of `pmm_find_pages` can do (`findBody_next`,
`findBody_done`), and from it the whole search:

* `pmmFindPages_visits` — the loop is left before the rounds run out, from a
  visited state, for every search;
* `pmmFindPages_cases` — a search in *any* state either leaves the bitmap alone
  or sets a run of bits that were all clear;
* `pmmFindPages_spec` — with a barrier, a bit at the top that is set, the
  search returns the first fit from the cursor, or fails with the cursor at the
  top, and tests no bit above the barrier;
* `pmmAlloc_cases`, `pmmAlloc_nextFit` — the same for `pmm_alloc`;
* `Exhausted` — the states in which `pmm_alloc(1)` returns `NULL`.
-/

namespace Medlar64

-- ---------------------------------------------------------------------------
-- One round
-- ---------------------------------------------------------------------------

/-- **What a round that goes on can do.** It has tested one bit: the run grows
by a free page, or the cursor moves behind a page in use and the run starts
again. -/
theorem findBody_next {s : Machine} {n : Nat} {st st' : FindState}
    (h : findBody s n st = .inl st') :
    st.lastPage ≠ s.pmmPageCount ∧ st.lastPage + st.pages < 2 ^ 52 ∧ st.pages < n ∧
      (s.free (st.lastPage + st.pages) ∧ st.pages + 1 < n ∧
          st' = { st with pages := st.pages + 1 } ∨
        ¬ s.free (st.lastPage + st.pages) ∧
          st' = ⟨0, st.lastPage + max 1 st.pages, st.lastPage + max 1 st.pages⟩) := by
  unfold findBody at h
  split at h
  case isFalse => simp at h
  case isTrue hn =>
    split at h
    case isTrue => simp at h
    case isFalse hpc =>
      split at h
      case isTrue => simp at h
      case isFalse hbit =>
        refine ⟨hpc, by omega, hn, ?_⟩
        -- only a test that does not complete the run goes on
        split at h
        case isTrue hclear =>
          split at h
          case isTrue => simp at h
          case isFalse hmore =>
            refine .inl ⟨?_, by omega, (Sum.inl.inj h).symm⟩
            simpa [Machine.free, Machine.used] using hclear
        case isFalse hset =>
          refine .inr ⟨?_, ?_⟩
          · simpa [Machine.free, Machine.used] using hset
          · rw [← Sum.inl.inj h]
            -- the cursor moves by one, or by the length of the failed run
            have hmax : (if st.pages = 0 then 1 else st.pages) = max 1 st.pages := by
              split <;> omega
            rw [hmax]

/-- **What a round that leaves the loop can do**: give up at the top or because
nothing was asked for, fault at a bit that no bitmap has, or complete the run
and set it. -/
theorem findBody_done {s : Machine} {n : Nat} {st : FindState} {r : Option (Nat × Machine)}
    (h : findBody s n st = .inr r) :
    (n ≤ st.pages ∨ st.lastPage = s.pmmPageCount) ∧
        r = some (0, s.setLastPage st.lastPage) ∨
      st.lastPage ≠ s.pmmPageCount ∧ 2 ^ 52 ≤ st.lastPage + st.pages ∧ r = none ∨
      st.lastPage ≠ s.pmmPageCount ∧ st.lastPage + n ≤ 2 ^ 52 ∧ st.pages + 1 = n ∧
        s.free (st.lastPage + st.pages) ∧
        r = some (st.firstPage,
          (setPages s st.lastPage n).setLastPage (st.lastPage + n)) := by
  -- the cases of the loop, in the order of the source
  unfold findBody at h
  split at h
  -- the loop is over
  case isFalse hn => exact .inl ⟨.inl (by omega), (Sum.inr.inj h).symm⟩
  case isTrue hn =>
    split at h
    -- the cursor has come to the page count
    case isTrue hpc => exact .inl ⟨.inr hpc, (Sum.inr.inj h).symm⟩
    case isFalse hpc =>
      split at h
      -- the bit looked at is that of no page
      case isTrue hbit => exact .inr (.inl ⟨hpc, hbit, (Sum.inr.inj h).symm⟩)
      case isFalse hbit =>
        split at h
        case isFalse => simp at h
        case isTrue hclear =>
          split at h
          case isFalse => simp at h
          case isTrue heq =>
            -- the test that completes the run
            refine .inr (.inr ⟨hpc, by omega, heq, ?_, ?_⟩)
            · simpa [Machine.free, Machine.used] using hclear
            · rw [← Sum.inr.inj h, heq]

-- ---------------------------------------------------------------------------
-- Any search
-- ---------------------------------------------------------------------------

/-- What holds at the head of the loop, whatever the bitmap: the candidate run
starts at the cursor and its pages so far are free. -/
structure FindInv (s : Machine) (n : Nat) (st : FindState) : Prop where
  first : st.firstPage = st.lastPage
  short : st.pages = 0 ∨ st.pages < n
  clear : ∀ i, i < st.pages → s.free (st.lastPage + i)

theorem FindInv.start (s : Machine) (n : Nat) : FindInv s n (findStart s) :=
  ⟨rfl, .inl rfl, fun i hi => absurd hi (Nat.not_lt_zero i)⟩

/-- A page is added to the run when its bit was found clear. -/
theorem FindInv.next {s : Machine} {n : Nat} {st st' : FindState} (hinv : FindInv s n st)
    (h : findBody s n st = .inl st') : FindInv s n st' := by
  obtain ⟨-, -, -, ⟨hfree, hmore, rfl⟩ | ⟨-, rfl⟩⟩ := findBody_next h
  · -- one more page of the candidate run
    refine ⟨hinv.first, .inr hmore, ?_⟩
    intro i hi
    rcases Nat.lt_succ_iff_lt_or_eq.mp hi with hlt | rfl
    · exact hinv.clear i hlt
    · exact hfree
  · -- a new, empty candidate
    exact ⟨rfl, .inl rfl, fun i hi => absurd hi (Nat.not_lt_zero i)⟩

/-- Every round moves the cursor up or lengthens the candidate run. -/
def findMeasure (st : FindState) : Nat := 2 * (2 ^ 52 - st.lastPage) - st.pages

/-- So the loop ends: the cursor cannot pass the last bit that a test reaches,
and a run is shorter than the way that is left. -/
theorem findMeasure_next {s : Machine} {n : Nat} {st st' : FindState}
    (h : findBody s n st = .inl st') : findMeasure st' < findMeasure st := by
  unfold findMeasure
  obtain ⟨-, hbit, -, ⟨-, -, rfl⟩ | ⟨-, rfl⟩⟩ := findBody_next h
  · -- the run gets longer under the same cursor
    show 2 * (2 ^ 52 - st.lastPage) - (st.pages + 1) < _
    omega
  · -- the cursor moves by at least the length given up
    show 2 * (2 ^ 52 - (st.lastPage + max 1 st.pages)) - 0 < _
    omega

/-- The search leaves its loop, from a visited state. -/
theorem pmmFindPages_visits (s : Machine) (n : Nat) :
    ∃ t, Visits (findBody s n) (findStart s) t ∧ FindInv s n t ∧
      findBody s n t = .inr (pmmFindPages s n) := by
  have hfuel : findMeasure (findStart s) < findFuel := by
    unfold findMeasure findFuel
    omega
  obtain ⟨r, t, hrun, hvis, hinv, hdone⟩ :=
    whileRun_total findMeasure (FindInv.start s n)
      (fun a a' ha hstep => ⟨ha.next hstep, findMeasure_next hstep⟩) hfuel
  refine ⟨t, hvis, hinv, ?_⟩
  rw [hdone, pmmFindPages, hrun, Option.join_some]

/-- A search in any state: on 0 it may have left the bitmap alone, and
otherwise it sets a run of bits that were all clear. -/
theorem pmmFindPages_cases {s s' : Machine} {n f : Nat} (h : pmmFindPages s n = some (f, s')) :
    (f = 0 ∧ ∃ l, s' = s.setLastPage l) ∨
      (f + n ≤ 2 ^ 52 ∧ 1 ≤ n ∧ (∀ i, i < n → s.free (f + i)) ∧
        s' = (setPages s f n).setLastPage (f + n)) := by
  obtain ⟨t, -, hinv, hdone⟩ := pmmFindPages_visits s n
  rw [h] at hdone
  rcases findBody_done hdone with ⟨-, hr⟩ | ⟨-, -, hr⟩ | ⟨-, hbit, heq, hfree, hr⟩
  · -- the loop was left without a run
    obtain ⟨rfl, rfl⟩ := Prod.mk.inj (Option.some.inj hr)
    exact .inl ⟨rfl, _, rfl⟩
  · -- a fault returns nothing
    simp at hr
  · -- the candidate run and the page just tested
    obtain ⟨rfl, rfl⟩ := Prod.mk.inj (Option.some.inj hr)
    rw [hinv.first]
    refine .inr ⟨hbit, by omega, fun i hi => ?_, rfl⟩
    rcases Nat.lt_succ_iff_lt_or_eq.mp (heq ▸ hi : i < t.pages + 1) with hlt | rfl
    · exact hinv.clear i hlt
    · exact hfree

-- ---------------------------------------------------------------------------
-- A search below a barrier
-- ---------------------------------------------------------------------------

/-- A set bit that stops the scan: bits from `limit` on are never tested.
The barrier is the bit just above the last page, or the last page itself.
Without one a scan runs past the page count, since only the cursor is
compared with it. -/
structure Barrier (s : Machine) (limit : Nat) : Prop where
  top : limit = s.pmmPageCount + 1 ∨ limit = s.pmmPageCount
  isSet : limit ≠ 0 → ¬ s.free (limit - 1)

/-- The head of the loop under a barrier: everything before the cursor has
been ruled out as the start of a run. -/
structure ScanInv (s : Machine) (limit n : Nat) (st : FindState) : Prop extends
    FindInv s n st where
  le : s.pmmLastPage ≤ st.lastPage
  cursor : st.lastPage ≤ s.pmmPageCount
  below : 0 < st.pages → st.lastPage + st.pages < limit
  noFit : NoFitIn s.free s.pmmPageCount n s.pmmLastPage st.lastPage

/-- Nothing is ruled out before the first round, and nothing has to be. -/
theorem ScanInv.start {s : Machine} (limit n : Nat) (hcur : s.pmmLastPage ≤ s.pmmPageCount) :
    ScanInv s limit n (findStart s) :=
  ⟨FindInv.start s n, Nat.le_refl _, hcur, fun h => absurd h (Nat.lt_irrefl 0), NoFitIn.empty _⟩

/-- The bit a round tests lies below the barrier's limit. -/
theorem ScanInv.tested {s : Machine} {limit n : Nat} {st : FindState}
    (hbar : Barrier s limit) (hinv : ScanInv s limit n st)
    (hpc : st.lastPage ≠ s.pmmPageCount) : st.lastPage + st.pages < limit := by
  have hcur := hinv.cursor
  -- an empty run is tested at the cursor itself, which is below the top
  rcases Nat.eq_zero_or_pos st.pages with hzero | hpos
  · rcases hbar.top with rfl | rfl <;> omega
  · exact hinv.below hpos

/-- A free bit below the limit is not the barrier, so the next one is below
the limit as well. -/
theorem Barrier.succ_lt {s : Machine} {limit bit : Nat} (hbar : Barrier s limit)
    (hlt : bit < limit) (hfree : s.free bit) : bit + 1 < limit := by
  have hne : bit ≠ limit - 1 := by
    rintro rfl
    exact hbar.isSet (by omega) hfree
  omega

/-- The bit above the last page is the highest that is ever tested. -/
theorem Barrier.le {s : Machine} {limit : Nat} (hbar : Barrier s limit) :
    limit ≤ s.pmmPageCount + 1 := by
  rcases hbar.top with h | h <;> omega

/-- A round keeps this: a page in use rules out all starts of the failed run at
once, as each of these runs would cover it. -/
theorem ScanInv.next {s : Machine} {limit n : Nat} {st st' : FindState}
    (hbar : Barrier s limit) (hinv : ScanInv s limit n st)
    (h : findBody s n st = .inl st') : ScanInv s limit n st' := by
  have hfind := hinv.toFindInv.next h
  -- the run grows, or the cursor jumps behind a page in use
  obtain ⟨hpc, -, hn, hcase⟩ := findBody_next h
  have htest := hinv.tested hbar hpc
  have hle := hinv.le
  have hcur := hinv.cursor
  have htop := hbar.le
  rcases hcase with ⟨hfree, -, rfl⟩ | ⟨hused, rfl⟩
  · -- one more free page: the cursor stays
    exact ⟨hfind, hle, hcur, fun _ => hbar.succ_lt htest hfree, hinv.noFit⟩
  · -- a page in use: every start up to it is ruled out
    refine ⟨hfind, ?_, ?_, fun h0 => absurd h0 (Nat.lt_irrefl 0), ?_⟩
    · show s.pmmLastPage ≤ st.lastPage + max 1 st.pages
      omega
    · show st.lastPage + max 1 st.pages ≤ s.pmmPageCount
      omega
    · show NoFitIn s.free s.pmmPageCount n s.pmmLastPage (st.lastPage + max 1 st.pages)
      exact (hinv.noFit.skip hused hn).mono (by omega)

theorem ScanInv.visits {s : Machine} {limit n : Nat} {st : FindState} (hbar : Barrier s limit)
    (hcur : s.pmmLastPage ≤ s.pmmPageCount) (h : Visits (findBody s n) (findStart s) st) :
    ScanInv s limit n st :=
  h.inv (ScanInv.start limit n hcur) fun _ _ ha hstep => ha.next hbar hstep

/--
**The search under a barrier.** It returns the first fit from the cursor, sets
its bits and moves the cursor behind it; or there is none, and it stops at the
top with the bitmap as it was.
-/
theorem pmmFindPages_spec {s : Machine} {limit n : Nat} (hbar : Barrier s limit)
    (hcur : s.pmmLastPage ≤ s.pmmPageCount) (hn : 1 ≤ n) :
    (∃ f, FirstFit s.free s.pmmPageCount n s.pmmLastPage f ∧ f + n < limit ∧
        pmmFindPages s n = some (f, (setPages s f n).setLastPage (f + n))) ∨
      (∀ g, s.pmmLastPage ≤ g → ¬ FitsAt s.free s.pmmPageCount n g) ∧
        pmmFindPages s n = some (0, s.setLastPage s.pmmPageCount) := by
  obtain ⟨t, hvis, -, hdone⟩ := pmmFindPages_visits s n
  have hinv := ScanInv.visits hbar hcur hvis
  have htop := hbar.le
  have hshort := hinv.short
  -- the round that leaves the loop decides
  rcases findBody_done hdone with ⟨hstop, hr⟩ | ⟨hpc, hbit, -⟩ | ⟨hpc, -, heq, hfree, hr⟩
  · -- the cursor is at the top: every start below it is ruled out
    have hlast : t.lastPage = s.pmmPageCount := by
      rcases hstop with h | h
      · omega
      · exact h
    refine .inr ⟨?_, by rw [hr, hlast]⟩
    exact (hlast ▸ hinv.noFit : NoFitIn _ _ _ _ s.pmmPageCount).all hn
  · -- a test below the limit is far from the faulting range
    have := hinv.tested hbar hpc
    have := s.pageCount_lt
    omega
  · -- the run found is the first one from the cursor on
    have hlt := hbar.succ_lt (hinv.tested hbar hpc) hfree
    refine .inl ⟨t.lastPage, ⟨hinv.le, ⟨by omega, fun i hi => ?_⟩, hinv.noFit⟩, by omega, ?_⟩
    · rcases Nat.lt_succ_iff_lt_or_eq.mp (heq ▸ hi : i < t.pages + 1) with hlt | rfl
      · exact hinv.clear i hlt
      · exact hfree
    · rw [hr, hinv.first]

-- ---------------------------------------------------------------------------
-- `pmm_alloc`
-- ---------------------------------------------------------------------------

/-- A search does not move the bitmap. -/
theorem sameLayout_search {s s' : Machine} {n f : Nat} (h : pmmFindPages s n = some (f, s')) :
    SameLayout s s' := by
  rcases pmmFindPages_cases h with ⟨-, l, rfl⟩ | ⟨-, -, -, rfl⟩
  · exact sameLayout_setLastPage s l
  · exact (sameGlobals_setPages s f n).toSameLayout.trans (sameLayout_setLastPage _ _)

/-- A search in any state only turns clear bits into set ones. -/
theorem used_search {s s' : Machine} {n f page : Nat} (h : pmmFindPages s n = some (f, s'))
    (hpage : page < 2 ^ 64) (hused : s.used page = true) : s'.used page = true := by
  rcases pmmFindPages_cases h with ⟨-, l, rfl⟩ | ⟨hbit, -, -, rfl⟩
  · -- nothing was set
    exact hused
  · rw [setLastPage_used, used_setPages s (by omega) hpage, hused, Bool.or_true]

/-- A search writes no byte but those of the run it sets. -/
theorem mem_search {s s' : Machine} {n f x : Nat} (h : pmmFindPages s n = some (f, s'))
    (hx : ∀ i, i < n → x ≠ bitmapByte s (f + i)) : s'.mem x = s.mem x := by
  rcases pmmFindPages_cases h with ⟨-, l, rfl⟩ | ⟨-, -, -, rfl⟩
  · rfl
  · rw [setLastPage_mem, setPages_mem hx]

/-- A search returns a page below 2^52, whatever the state. -/
theorem search_lt {s s' : Machine} {n f : Nat} (h : pmmFindPages s n = some (f, s')) :
    f ≤ 2 ^ 52 - 1 := by
  rcases pmmFindPages_cases h with ⟨rfl, -⟩ | ⟨hbit, hn, -, -⟩ <;> omega

/-- The searches of `pmm_alloc`, in any state: one that finds a page other than
0, or a first one that does not and a second one from page 0, whose result
stands whatever it is. Page 0 counts as a failure in both, since it is what
`NULL` is made of. -/
theorem pmmAlloc_searches {s s' : Machine} {n p : Nat} (h : pmmAlloc s n = some (p, s')) :
    ∃ f, p = 4096 * f ∧
      (f ≠ 0 ∧ pmmFindPages s n = some (f, s') ∨
        ∃ s₁, pmmFindPages s n = some (0, s₁) ∧
          pmmFindPages (s₁.setLastPage 0) n = some (f, s')) := by
  have hpage : ∀ {f : Nat}, f ≤ 2 ^ 52 - 1 → u64 (f * 4096) = 4096 * f := by
    intro f hf
    rw [u64_of_lt (by omega), Nat.mul_comm]
  unfold pmmAlloc at h
  split at h
  case h_1 => simp at h
  case h_2 f₁ s₁ h₁ =>
    split at h
    case isFalse hf₁ =>
      obtain ⟨rfl, rfl⟩ := Prod.mk.inj (Option.some.inj h)
      -- a page other than 0 is the result
      exact ⟨f₁, hpage (search_lt h₁), .inl ⟨hf₁, h₁⟩⟩
    case isTrue hf₁ =>
      -- page 0 counts as a failure: the second search decides
      subst hf₁
      split at h
      case h_1 => simp at h
      case h_2 f₂ s₂ h₂ =>
        split at h
        case isTrue hf₂ =>
          subst hf₂
          obtain ⟨rfl, rfl⟩ := Prod.mk.inj (Option.some.inj h)
          exact ⟨0, rfl, .inr ⟨s₁, h₁, h₂⟩⟩
        case isFalse =>
          obtain ⟨rfl, rfl⟩ := Prod.mk.inj (Option.some.inj h)
          exact ⟨f₂, hpage (search_lt h₂), .inr ⟨s₁, h₁, h₂⟩⟩

/-- `pmm_alloc` writes the bytes of the run it returns; a first search that
finds a run at page 0, which counts as a failure, sets its bits too. -/
theorem pmmAlloc_mem {s s' : Machine} {n p x : Nat} (h : pmmAlloc s n = some (p, s'))
    (hzero : ∀ i, i < n → x ≠ bitmapByte s i)
    (hrun : ∀ i, i < n → x ≠ bitmapByte s (p / 4096 + i)) : s'.mem x = s.mem x := by
  obtain ⟨f, rfl, hsearches⟩ := pmmAlloc_searches h
  rw [Nat.mul_div_cancel_left f (by decide)] at hrun
  rcases hsearches with ⟨-, hfind⟩ | ⟨s₁, hfirst, hfind⟩
  · exact mem_search hfind hrun
  · -- the first search may have set the bits of a run at page 0
    have hlayout : SameLayout s (s₁.setLastPage 0) :=
      (sameLayout_search hfirst).trans (sameLayout_setLastPage s₁ 0)
    have hmid : s₁.mem x = s.mem x := by
      refine mem_search hfirst ?_
      intro i hi
      rw [Nat.zero_add]
      exact hzero i hi
    rw [← hmid, ← setLastPage_mem s₁ 0]
    refine mem_search hfind ?_
    intro i hi
    rw [hlayout.bitmapByte]
    exact hrun i hi

/-- A non-null result with page 0 in use: a run of clear bits, now set, and the
cursor behind it. -/
theorem pmmAlloc_run {s s' : Machine} {n p : Nat} (h : pmmAlloc s n = some (p, s'))
    (h0 : s.used 0 = true) (hp : p ≠ 0) :
    ∃ f, p = 4096 * f ∧ 1 ≤ f ∧ 1 ≤ n ∧ f + n ≤ 2 ^ 52 ∧ (∀ i, i < n → s.free (f + i)) ∧
      s' = (setPages s f n).setLastPage (f + n) := by
  obtain ⟨f, rfl, hsearches⟩ := pmmAlloc_searches h
  obtain ⟨l, hfind⟩ : ∃ l, pmmFindPages (s.setLastPage l) n = some (f, s') := by
    rcases hsearches with ⟨-, hfind⟩ | ⟨s₁, hfirst, hfind⟩
    · exact ⟨s.pmmLastPage, hfind⟩
    · -- the first search changed nothing but the cursor: page 0 is no run
      rcases pmmFindPages_cases hfirst with ⟨-, l, rfl⟩ | ⟨-, hn, hfree, -⟩
      · exact ⟨0, hfind⟩
      · exact absurd (hfree 0 (by omega)) (not_free.mpr h0)
  rcases pmmFindPages_cases hfind with ⟨rfl, -⟩ | ⟨hbit, hn, hfree, rfl⟩
  · exact absurd rfl hp
  · refine ⟨f, rfl, by omega, hn, hbit, hfree, ?_⟩
    rw [setPages_setLastPage]
    rfl

/-- `pmm_alloc` in any state keeps the bits that are set, and a non-null
result is a run of clear bits that are set now. -/
theorem pmmAlloc_cases {s s' : Machine} {n p : Nat} (h : pmmAlloc s n = some (p, s')) :
    SameLayout s s' ∧ (∀ page, page < 2 ^ 64 → s.used page = true → s'.used page = true) ∧
      (p ≠ 0 → ∃ f, p = f * 4096 ∧ 1 ≤ f ∧ 1 ≤ n ∧ f + n ≤ 2 ^ 52 ∧
        ∀ i, i < n → s.free (f + i) ∧ s'.used (f + i) = true) := by
  obtain ⟨f, rfl, hsearches⟩ := pmmAlloc_searches h
  -- the state before the search that counts has no bit cleared
  obtain ⟨t, ht, hgrow, hfind⟩ : ∃ t, SameLayout s t ∧
      (∀ page, page < 2 ^ 64 → s.used page = true → t.used page = true) ∧
      pmmFindPages t n = some (f, s') := by
    rcases hsearches with ⟨-, hfind⟩ | ⟨s₁, hfirst, hfind⟩
    · exact ⟨s, .refl s, fun _ _ hused => hused, hfind⟩
    · refine ⟨s₁.setLastPage 0, ?_, ?_, hfind⟩
      · exact (sameLayout_search hfirst).trans (sameLayout_setLastPage s₁ 0)
      · intro page hpage hused
        have hmid : s₁.used page = true := used_search hfirst hpage hused
        exact hmid
  refine ⟨ht.trans (sameLayout_search hfind), ?_, ?_⟩
  · intro page hpage hused
    exact used_search hfind hpage (hgrow page hpage hused)
  · intro hp
    rcases pmmFindPages_cases hfind with ⟨rfl, -⟩ | ⟨hbit, hn, hfree, rfl⟩
    · exact absurd rfl hp
    · refine ⟨f, Nat.mul_comm 4096 f, by omega, hn, hbit, fun i hi => ⟨?_, ?_⟩⟩
      · -- a bit set before the search that counts is no bit of its run
        by_contra hused
        have hset := hgrow (f + i) (by omega) (not_free.mp hused)
        exact absurd (hfree i hi) (not_free.mpr hset)
      · rw [setLastPage_used, used_setPages t (by omega) (by omega), decide_eq_true (by omega),
          Bool.true_or]

/-- `pmm_alloc` under a barrier, page 0 in use: the run of the next fit with
its bits set and the cursor behind it, or `NULL` with the bitmap as it was. -/
theorem pmmAlloc_spec {s : Machine} {limit n : Nat} (hbar : Barrier s limit)
    (h0 : 0 < s.pmmPageCount → ¬ s.free 0) (hcur : s.pmmLastPage ≤ s.pmmPageCount)
    (hn : 1 ≤ n) :
    (∃ f, NextFit s.free s.pmmPageCount n s.pmmLastPage f ∧ 1 ≤ f ∧ f + n < limit ∧
        pmmAlloc s n = some (f * 4096, (setPages s f n).setLastPage (f + n))) ∨
      (∀ f, ¬ FitsAt s.free s.pmmPageCount n f) ∧
        pmmAlloc s n = some (0, s.setLastPage s.pmmPageCount) := by
  have hpc := s.pageCount_lt
  -- no run covers page 0, so index 0 means failure only
  have hpos : ∀ {f}, FitsAt s.free s.pmmPageCount n f → 1 ≤ f := by
    intro f hfit
    by_contra hlt
    have hle := hfit.1
    have := hfit.2 0 (by omega)
    rw [show f + 0 = 0 by omega] at this
    exact h0 (by omega) this
  -- the address of a managed page fits a pointer
  have hmul : ∀ {f}, FitsAt s.free s.pmmPageCount n f →
      u64 (f * 4096) = f * 4096 := fun hfit =>
    u64_of_lt (by have := hfit.1; omega)
  -- the search from the cursor
  rcases pmmFindPages_spec hbar hcur hn with ⟨f, hfirst, hlt, hfind⟩ | ⟨hnone, hfind⟩
  · -- found from the cursor
    refine .inl ⟨f, .inl hfirst, hpos hfirst.2.1, hlt, ?_⟩
    have hf := hpos hfirst.2.1
    rw [pmmAlloc, hfind]
    simp only [if_neg (show ¬ f = 0 by omega), hmul hfirst.2.1]
  · -- the second search starts at page 0
    have hbar' : Barrier ((s.setLastPage s.pmmPageCount).setLastPage 0) limit :=
      ⟨hbar.top, hbar.isSet⟩
    rcases pmmFindPages_spec hbar' (Nat.zero_le _) hn with
      ⟨f, hfirst, hlt, hfind'⟩ | ⟨hnone', hfind'⟩
    · -- found below the cursor
      refine .inl ⟨f, .inr ⟨hnone, hfirst⟩, hpos hfirst.2.1, hlt, ?_⟩
      have hf := hpos hfirst.2.1
      rw [pmmAlloc, hfind]
      simp only [if_true, hfind', if_neg (show ¬ f = 0 by omega), hmul hfirst.2.1]
      rw [setPages_setLastPage, setPages_setLastPage]
      rfl
    · -- found nowhere
      refine .inr ⟨fun f => hnone' f (Nat.zero_le f), ?_⟩
      rw [pmmAlloc, hfind]
      simp only [if_true, hfind']
      rfl

/-- `NULL` with page 0 in use leaves everything but the cursor as it was. Page
0 cannot be what was found, so no bits were set. -/
theorem pmmAlloc_null {s s' : Machine} {n : Nat} (h : pmmAlloc s n = some (0, s'))
    (h0 : s.used 0 = true) : ∃ l, s' = s.setLastPage l := by
  -- a search that returns 0 has not found a run there
  have hzero : ∀ {t t' : Machine}, t.used 0 = true → pmmFindPages t n = some (0, t') →
      ∃ l, t' = t.setLastPage l := by
    intro t t' hused hfind
    rcases pmmFindPages_cases hfind with ⟨-, hl⟩ | ⟨-, hn, hfree, -⟩
    · exact hl
    · exact absurd (hfree 0 (by omega)) (not_free.mpr hused)
  obtain ⟨f, hf, hsearches⟩ := pmmAlloc_searches h
  obtain rfl : f = 0 := by omega
  rcases hsearches with ⟨hne, -⟩ | ⟨s₁, hfirst, hfind⟩
  · exact absurd rfl hne
  · obtain ⟨l₁, rfl⟩ := hzero h0 hfirst
    obtain ⟨l₂, rfl⟩ := hzero (t := (s.setLastPage l₁).setLastPage 0) h0 hfind
    exact ⟨l₂, rfl⟩

-- ---------------------------------------------------------------------------
-- An allocator without a free page
-- ---------------------------------------------------------------------------

/-- No page is free, and the search has come to the top. -/
structure Exhausted (s : Machine) : Prop where
  cursor : s.pmmLastPage = s.pmmPageCount
  full : ∀ page, page < s.pmmPageCount → ¬ s.free page

/-- The pages from the cursor on that the search has passed are in use. -/
def Passed (s : Machine) (st : FindState) : Prop :=
  ∀ page, s.pmmLastPage ≤ page → page < st.lastPage → ¬ s.free page

/-- A search for one page that leaves the bitmap alone has passed every page
from the cursor on. -/
theorem pmmFindPages_one {s : Machine} {l : Nat}
    (h : pmmFindPages s 1 = some (0, s.setLastPage l)) (h0 : s.used 0 = true) :
    l = s.pmmPageCount ∧ ∀ page, s.pmmLastPage ≤ page → page < s.pmmPageCount → ¬ s.free page := by
  obtain ⟨t, hvis, hinv, hdone⟩ := pmmFindPages_visits s 1
  -- a round either passes a page in use or ends the search
  have hpassed : Passed s t := by
    refine hvis.inv ?_ ?_
    · intro page hlo hhi
      exact absurd hhi (Nat.not_lt_of_le hlo)
    · intro st st' hpass hstep page hlo hhi
      obtain ⟨-, -, hlt, ⟨-, hmore, -⟩ | ⟨hused, rfl⟩⟩ := findBody_next hstep
      · omega
      · simp only at hhi
        by_cases hpage : page < st.lastPage
        · exact hpass page hlo hpage
        · rwa [show page = st.lastPage + st.pages by omega]
  rw [h] at hdone
  rcases findBody_done hdone with ⟨hstop, hr⟩ | ⟨-, -, hr⟩ | ⟨-, -, -, hfree, hr⟩
  · have hl : l = t.lastPage := congrArg Machine.pmmLastPage (Prod.mk.inj (Option.some.inj hr)).2
    have hshort := hinv.short
    have htop : t.lastPage = s.pmmPageCount := by
      rcases hstop with hstop | hstop
      · omega
      · exact hstop
    rw [hl, htop]
    refine ⟨rfl, fun page hlo hhi => hpassed page hlo ?_⟩
    rwa [htop]
  · simp at hr
  · -- a run at page 0 is none
    have hfirst : (0 : Nat) = t.firstPage := (Prod.mk.inj (Option.some.inj hr)).1
    have hzero := hinv.first
    have hshort := hinv.short
    rw [show t.lastPage + t.pages = 0 by omega] at hfree
    exact absurd hfree (not_free.mpr h0)

/-- After a `NULL` for one page there is no free page. The second search
started at page 0 and passed them all. -/
theorem exhausted_of_null {s s' : Machine} (h : pmmAlloc s 1 = some (0, s'))
    (h0 : s.used 0 = true) : Exhausted s' := by
  obtain ⟨l, rfl⟩ := pmmAlloc_null h h0
  obtain ⟨f, hf, hsearches⟩ := pmmAlloc_searches h
  obtain rfl : f = 0 := by omega
  rcases hsearches with ⟨hne, -⟩ | ⟨s₁, hfirst, hfind⟩
  · exact absurd rfl hne
  · -- the second search starts at page 0
    have hmid : ∃ l₁, s₁ = s.setLastPage l₁ := by
      rcases pmmFindPages_cases hfirst with ⟨-, hl⟩ | ⟨-, -, hfree, -⟩
      · exact hl
      · exact absurd (hfree 0 (by decide)) (not_free.mpr h0)
    obtain ⟨l₁, rfl⟩ := hmid
    obtain ⟨hl, hfull⟩ := pmmFindPages_one (s := (s.setLastPage l₁).setLastPage 0) hfind h0
    exact ⟨hl, fun page hlt => hfull page (Nat.zero_le _) hlt⟩

/-- Then `pmm_alloc(1)` returns `NULL` and changes nothing. -/
theorem Exhausted.alloc {s : Machine} (h : Exhausted s) : pmmAlloc s 1 = some (0, s) := by
  have hcursor := h.cursor
  have hbar : Barrier s s.pmmPageCount := ⟨.inr rfl, fun hne => h.full _ (by omega)⟩
  rcases pmmAlloc_spec hbar (h.full 0) (Nat.le_of_eq hcursor) (Nat.le_refl 1) with
    ⟨f, hnext, -⟩ | ⟨-, halloc⟩
  · obtain ⟨hle, hfree⟩ := hnext.fits
    exact absurd (hfree 0 (by decide)) (h.full _ (by omega))
  · rw [halloc, ← hcursor]
    rfl

/-- Writes outside the bitmap leave it so. -/
theorem Exhausted.congr {s s' : Machine} (h : Exhausted s) (hglob : SameGlobals s s')
    (hmem : ∀ bit, bit < s.pmmPageCount → s'.mem (bitmapByte s bit) = s.mem (bitmapByte s bit)) :
    Exhausted s' := by
  refine ⟨?_, ?_⟩
  · rw [hglob.lastPage, hglob.pageCount]
    exact h.cursor
  · intro page hlt
    rw [hglob.pageCount] at hlt
    rw [Machine.free, used_congr hglob.toSameLayout (hmem page hlt)]
    exact h.full page hlt

/-- Asking for no page returns `NULL` and rewinds the cursor. -/
theorem pmmAlloc_zero (s : Machine) : pmmAlloc s 0 = some (0, s.setLastPage 0) := by
  have hfind : ∀ t : Machine, pmmFindPages t 0 = some (0, t) := by
    intro t
    have hbody : findBody t 0 (findStart t) = .inr (some (0, t)) := rfl
    rw [pmmFindPages, findFuel, whileRun_done hbody, Option.join_some]
  rw [pmmAlloc, hfind]
  simp only [if_true, hfind]

/-- **Next fit with wrap-around, complete and atomic.** With bit 0 and the bit
above the last page set, `pmm_alloc(n)` returns. A non-null result is the next
fit from the old cursor: exactly its bits go from clear to set, no other byte
of memory than theirs is written, and the cursor moves behind it. The result
is null exactly when no run of `n` free pages exists, and then memory is as it
was. -/
theorem pmmAlloc_nextFit (s : Machine) (n : Nat) (h0 : s.used 0 = true)
    (htop : s.used s.pmmPageCount = true) (hcur : s.pmmLastPage ≤ s.pmmPageCount)
    (hn : 1 ≤ n) :
    ∃ p s', pmmAlloc s n = some (p, s') ∧
      (p ≠ 0 → ∃ f, NextFit s.free s.pmmPageCount n s.pmmLastPage f ∧ p = 4096 * f ∧
        s'.pmmLastPage = f + n ∧
        (∀ page, page < 2 ^ 64 →
          s'.used page = (decide (f ≤ page ∧ page < f + n) || s.used page)) ∧
        ∀ x, (∀ i, i < n → x ≠ bitmapByte s (f + i)) → s'.mem x = s.mem x) ∧
      (p = 0 ↔ ∀ f, ¬ FitsAt s.free s.pmmPageCount n f) ∧
      (p = 0 → s'.mem = s.mem) := by
  have hbar : Barrier s (s.pmmPageCount + 1) := ⟨.inl rfl, fun _ => not_free.mpr htop⟩
  have hpc := s.pageCount_lt
  rcases pmmAlloc_spec hbar (fun _ => not_free.mpr h0) hcur hn with
    ⟨f, hnext, hf, hlt, halloc⟩ | ⟨hnone, halloc⟩
  · -- a run
    refine ⟨_, _, halloc, fun _ => ⟨f, hnext, Nat.mul_comm f 4096, rfl, ?_, ?_⟩, ?_, ?_⟩
    · intro page hpage
      rw [setLastPage_used, used_setPages s (by omega) hpage]
    · intro x hx
      rw [setLastPage_mem, setPages_mem hx]
    · exact ⟨fun hp => absurd hp (by omega), fun hall => absurd hnext.fits (hall f)⟩
    · exact fun hp => absurd hp (by omega)
  · -- `NULL`
    exact ⟨_, _, halloc, fun hp => absurd rfl hp, ⟨fun _ => hnone, fun _ => rfl⟩, fun _ => rfl⟩

/-- Sixteen pages, the bitmap in page 0, which is in use, the cursor at page 5. -/
def sixteenPages : Machine :=
  { mem := fun x => if x = 0 ∨ x = 2 then 1 else 0
    hhdmOffset := usualHhdm, pmmBitmap := usualHhdm,
    pmmLastPage := 5, pmmPageCount := 16, pageCount_lt := by decide }

/-- Pages 0 and 16 are in use, the others free: three pages from the cursor
on. -/
theorem pmmAlloc_nextFit_sixteen :
    ∃ p s', pmmAlloc sixteenPages 3 = some (p, s') ∧
      (p ≠ 0 → ∃ f, NextFit sixteenPages.free 16 3 5 f ∧ p = 4096 * f ∧
        s'.pmmLastPage = f + 3 ∧
        (∀ page, page < 2 ^ 64 →
          s'.used page = (decide (f ≤ page ∧ page < f + 3) || sixteenPages.used page)) ∧
        ∀ x, (∀ i, i < 3 → x ≠ bitmapByte sixteenPages (f + i)) →
          s'.mem x = sixteenPages.mem x) ∧
      (p = 0 ↔ ∀ f, ¬ FitsAt sixteenPages.free 16 3 f) ∧
      (p = 0 → s'.mem = sixteenPages.mem) :=
  pmmAlloc_nextFit sixteenPages 3 (by decide) (by decide) (by decide) (by decide)

-- ---------------------------------------------------------------------------
-- Room at the cursor
-- ---------------------------------------------------------------------------

/-- The cursor stands at `k` free pages, behind the bitmap; page 0 and the last
page are in use. In such a state the result of `pmm_alloc` is known without a
search, which is what the examples below are made from. -/
structure Roomy (s : Machine) (k : Nat) : Prop where
  room : s.pmmLastPage + k < s.pmmPageCount
  free : ∀ i, i < k → s.free (s.pmmLastPage + i)
  zero : ¬ s.free 0
  last : ¬ s.free (s.pmmPageCount - 1)
  bitmap : ∀ bit, bit < s.pmmPageCount → bitmapByte s bit / 4096 < s.pmmLastPage

section Roomy

variable {s s' : Machine} {k n : Nat}

theorem Roomy.mono {j : Nat} (h : Roomy s k) (hle : j ≤ k) : Roomy s j :=
  ⟨by have := h.room; omega, fun i hi => h.free i (by omega), h.zero, h.last, h.bitmap⟩

/-- Writes outside the bitmap leave the room. -/
theorem Roomy.congr (h : Roomy s k) (hglob : SameGlobals s s')
    (hmem : ∀ bit, bit < s.pmmPageCount → s'.mem (bitmapByte s bit) = s.mem (bitmapByte s bit)) :
    Roomy s' k := by
  have hroom := h.room
  have hfree : ∀ page, page < s.pmmPageCount → (s'.free page ↔ s.free page) := by
    intro page hpage
    rw [Machine.free, Machine.free, used_congr hglob.toSameLayout (hmem page hpage)]
  refine ⟨?_, ?_, ?_, ?_, ?_⟩
  · rw [hglob.lastPage, hglob.pageCount]
    exact hroom
  · intro i hi
    rw [hglob.lastPage, hfree _ (by omega)]
    exact h.free i hi
  · rw [hfree 0 (by omega)]
    exact h.zero
  · rw [hglob.pageCount, hfree _ (by omega)]
    exact h.last
  · intro bit hbit
    rw [hglob.pageCount] at hbit
    rw [hglob.bitmapByte, hglob.lastPage]
    exact h.bitmap bit hbit

/-- Where there is room at the cursor, that is what `pmm_alloc` returns. The
first fit from the cursor starts at the cursor itself, and behind the run is
what is left of the room. -/
theorem Roomy.alloc (h : Roomy s (k + n)) (hn : 1 ≤ n) :
    pmmAlloc s n = some (4096 * s.pmmLastPage,
        (setPages s s.pmmLastPage n).setLastPage (s.pmmLastPage + n)) ∧
      Roomy ((setPages s s.pmmLastPage n).setLastPage (s.pmmLastPage + n)) k := by
  have hroom := h.room
  have hpc := s.pageCount_lt
  have hbar : Barrier s s.pmmPageCount := ⟨.inr rfl, fun _ => h.last⟩
  have hfit : FitsAt s.free s.pmmPageCount n s.pmmLastPage :=
    ⟨by omega, fun i hi => h.free i (by omega)⟩
  have hglob := sameGlobals_setPages s s.pmmLastPage n
  have hfree : ∀ page, page < s.pmmPageCount →
      (((setPages s s.pmmLastPage n).setLastPage (s.pmmLastPage + n)).free page ↔
        s.free page ∧ ¬ (s.pmmLastPage ≤ page ∧ page < s.pmmLastPage + n)) :=
    fun page hpage => free_setPages s (by omega) (by omega)
  constructor
  · -- the first fit from the cursor starts at the cursor
    rcases pmmAlloc_spec hbar (fun _ => h.zero) (by omega) hn with
      ⟨f, hnext, -, -, halloc⟩ | ⟨hnone, -⟩
    · rcases hnext with hfirst | ⟨hnone, -⟩
      · have hf : f = s.pmmLastPage :=
          hfirst.unique ⟨Nat.le_refl _, hfit, NoFitIn.empty _⟩
        rw [halloc, hf, Nat.mul_comm]
      · exact absurd hfit (hnone _ (Nat.le_refl _))
    · exact absurd hfit (hnone _)
  · -- the room behind the run
    refine ⟨?_, ?_, ?_, ?_, ?_⟩
    · rw [setLastPage_lastPage, setLastPage_pageCount, hglob.pageCount]
      omega
    · intro i hi
      rw [setLastPage_lastPage, hfree _ (by omega)]
      refine ⟨?_, by omega⟩
      rw [Nat.add_assoc]
      exact h.free _ (by omega)
    · rw [hfree 0 (by omega)]
      exact fun hz => h.zero hz.1
    · rw [setLastPage_pageCount, hglob.pageCount, hfree _ (by omega)]
      exact fun hl => h.last hl.1
    · intro bit hbit
      rw [setLastPage_pageCount, hglob.pageCount] at hbit
      rw [setLastPage_byte, hglob.bitmapByte, setLastPage_lastPage]
      have := h.bitmap bit hbit
      omega

/-- More pages than there are: `NULL`. -/
theorem Roomy.alloc_null (h : Roomy s k) (hn : s.pmmPageCount < n) :
    pmmAlloc s n = some (0, s.setLastPage s.pmmPageCount) := by
  have hroom := h.room
  have hbar : Barrier s s.pmmPageCount := ⟨.inr rfl, fun _ => h.last⟩
  rcases pmmAlloc_spec hbar (fun _ => h.zero) (by omega) (show 1 ≤ n by omega) with
    ⟨f, hnext, -, -, -⟩ | ⟨-, halloc⟩
  · have := hnext.fits.1
    omega
  · exact halloc

end Roomy

/-- Sixteen pages: the bitmap in page 0, pages 1 and 15 in use, the cursor at
page 2. -/
def roomyMachine : Machine :=
  { mem := fun x => if x = 0 then 3 else if x = 1 then 0x80 else 0
    hhdmOffset := usualHhdm, pmmBitmap := usualHhdm,
    pmmLastPage := 2, pmmPageCount := 16, pageCount_lt := by decide }

/-- Its bitmap lies in page 0. -/
theorem roomyMachine_byte {bit : Nat} (h : bit < 16) :
    bitmapByte roomyMachine bit / 4096 = 0 := by
  show u64 (usualHhdm + bit / 8 + (2 ^ 64 - usualHhdm % 2 ^ 64)) / 4096 = 0
  unfold u64 usualHhdm
  omega

/-- Thirteen pages from the cursor on are free. -/
theorem roomyMachine_roomy : Roomy roomyMachine 13 := by
  have hfree : ∀ i : Fin 13, roomyMachine.used (2 + i) = false := by decide
  refine ⟨by decide, fun i hi => hfree ⟨i, hi⟩, ?_, ?_, ?_⟩
  · rw [not_free]
    decide
  · rw [not_free]
    decide
  · intro bit hbit
    rw [roomyMachine_byte hbit]
    decide

end Medlar64
