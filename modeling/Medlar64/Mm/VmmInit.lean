import Medlar64.Mm.Served

/-!
# Medlar64 — the calls of `vmm_init`

`vmm_init` makes the kernel's page map: the three sections of the kernel image,
and the first 4 GiB twice, at their own addresses and at the direct map. It
does nothing but call `vmm_map`, so it is described by the list of these calls,
and that list by what it enters for a page.

* `vmmInit` — the source function.
* `initCalls` — its `vmm_map` calls in order; `vmmInit_eq` — it makes these.
* `initEntry` — what it enters for a page; `mem_initCalls` — with the ranges of
  the loops apart, the calls are those for the entries.
-/

namespace Medlar64

-- ---------------------------------------------------------------------------
-- The source functions
-- ---------------------------------------------------------------------------

/-- `ALIGN_DOWN(x, PAGE_SIZE)`. -/
def alignDown (x : Nat) : Nat := x / pageSize * pageSize

/-- The bounds of the sections from the linker script, and the bases from
`kernel_address_request`. -/
structure KernelImage where
  textStart : Nat
  textEnd : Nat
  rodataStart : Nat
  rodataEnd : Nat
  dataStart : Nat
  dataEnd : Nat
  virtualBase : Nat
  physicalBase : Nat

/-- `virt - virt_base + phys_base`. -/
def KernelImage.phys (k : KernelImage) (virt : Nat) : Nat :=
  u64 (virt + (2 ^ 64 - k.virtualBase % 2 ^ 64) + k.physicalBase)

/-- One round of `for (uptr x = start; x < stop; x += PAGE_SIZE)`; the state is
`x` and the machine. -/
def forPagesBody (f : Nat → Machine → Option Machine) (stop : Nat) (st : Nat × Machine) :
    (Nat × Machine) ⊕ Option Machine :=
  if st.1 < stop then
    match f st.1 st.2 with
    | none => .inr none
    | some s => .inl (u64 (st.1 + pageSize), s)
  else .inr (some st.2)

/-- Rounds that suffice: `x` is a `u64` that grows by a page. -/
def forPagesFuel : Nat := 2 ^ 52 + 1

def forPages (f : Nat → Machine → Option Machine) (start stop : Nat) (s : Machine) :
    Option Machine :=
  (whileRun (forPagesBody f stop) forPagesFuel (start, s)).join

/-- The loop over a section. -/
def mapSection (k : KernelImage) (pm flags start stop : Nat) (s : Machine) : Option Machine :=
  forPages (fun virt s => vmmMap s pm virt (k.phys virt) flags) start stop s

/-- One round of the last loop. -/
def mapDirect (pm addr : Nat) (s : Machine) : Option Machine := do
  let s ← vmmMap s pm addr addr (ptePresent ||| pteWritable)
  vmmMap s pm (s.higherHalf addr) addr (ptePresent ||| pteWritable)

/-- `vmm_init()`: the value of `vmm_kernel_pm`, and the machine left behind. -/
def vmmInit (s : Machine) (k : KernelImage) : Option (Nat × Machine) := do
  let (p, s) ← pmmAlloc s 1
  let pm := s.higherHalf p
  let s := memset s pm 0 pageSize
  let textStart := alignDown k.textStart
  let textEnd := alignUp k.textEnd
  let rodataStart := alignDown k.rodataStart
  let rodataEnd := alignUp k.rodataEnd
  let dataStart := alignDown k.dataStart
  let dataEnd := alignUp k.dataEnd
  let s ← mapSection k pm ptePresent textStart textEnd s
  let s ← mapSection k pm (ptePresent ||| pteNx) rodataStart rodataEnd s
  let s ← mapSection k pm (ptePresent ||| pteWritable ||| pteNx) dataStart dataEnd s
  -- the first 4 GiB
  let s ← forPages (mapDirect pm) 0 0x100000000 s
  some (pm, s)

-- ---------------------------------------------------------------------------
-- The loops
-- ---------------------------------------------------------------------------

/-- The pages from `start` up to `stop`. -/
def pagesFrom (start stop : Nat) : List Nat := List.range' start ((stop - start) / 4096) 4096

/-- The addresses of a loop over pages are the page addresses of its range. -/
theorem mem_pagesFrom {start stop x : Nat} (hstart : start % 4096 = 0) (hstop : stop % 4096 = 0) :
    x ∈ pagesFrom start stop ↔ x % 4096 = 0 ∧ start ≤ x ∧ x < stop := by
  rw [pagesFrom, List.mem_range']
  constructor
  · rintro ⟨i, hi, rfl⟩
    omega
  · rintro ⟨hx, hlo, hhi⟩
    exact ⟨(x - start) / 4096, by omega, by omega⟩

/-- At its end there are none left, -/
theorem pagesFrom_done {start stop : Nat} (h : stop ≤ start) : pagesFrom start stop = [] := by
  rw [pagesFrom, Nat.sub_eq_zero_of_le h]
  rfl

/-- before it there is one, and the rest starts a page further. -/
theorem pagesFrom_next {start stop : Nat} (hstart : start % 4096 = 0) (hstop : stop % 4096 = 0)
    (h : start < stop) : pagesFrom start stop = start :: pagesFrom (start + 4096) stop := by
  have hcount : (stop - start) / 4096 = (stop - (start + 4096)) / 4096 + 1 := by omega
  rw [pagesFrom, hcount, List.range'_succ, pagesFrom]

/-- The rounds from a page on, with fuel for them. By induction on the fuel: a
round takes the first page off the range and leaves the next one, which is
still below the end and hence a `u64`. -/
theorem forPages_rounds (f : Nat → Machine → Option Machine) {start stop n fuel : Nat} (s : Machine)
    (hstart : start % 4096 = 0) (hstop : stop % 4096 = 0) (hlt : stop < 2 ^ 64)
    (hle : stop ≤ start + 4096 * n) (hfuel : n < fuel) :
    (whileRun (forPagesBody f stop) fuel (start, s)).join =
      (pagesFrom start stop).foldlM (fun s x => f x s) s := by
  -- on the fuel; a round takes one page off the range
  induction fuel generalizing n start s with
  | zero => omega
  | succ fuel ih =>
    by_cases hmore : start < stop
    · rw [pagesFrom_next hstart hstop hmore, List.foldlM_cons]
      cases hstep : f start s with
      | none =>
        -- the body ends the loop
        have hbody : forPagesBody f stop (start, s) = .inr none := by
          rw [forPagesBody, if_pos hmore, hstep]
        rw [whileRun_done hbody]
        rfl
      | some s' =>
        -- the next page is still a `u64`
        have hbody : forPagesBody f stop (start, s) = .inl (start + 4096, s') := by
          rw [forPagesBody, if_pos hmore, hstep, u64_of_lt (show start + 4096 < 2 ^ 64 by omega)]
        rw [whileRun_next hbody, Option.bind_eq_bind, Option.bind_some]
        exact ih (n := n - 1) s' (by omega) (by omega) (by omega)
    · have hbody : forPagesBody f stop (start, s) = .inr (some s) := if_neg hmore
      rw [whileRun_done hbody, pagesFrom_done (Nat.not_lt.mp hmore)]
      rfl

/-- The loop goes through the pages. -/
theorem forPages_eq (f : Nat → Machine → Option Machine) {start stop : Nat} (s : Machine)
    (hstart : start % 4096 = 0) (hstop : stop % 4096 = 0) (hlt : stop < 2 ^ 64) :
    forPages f start stop s = (pagesFrom start stop).foldlM (fun s x => f x s) s := by
  have hfuel : 2 ^ 52 < forPagesFuel := Nat.lt_succ_self _
  exact forPages_rounds f s hstart hstop hlt (by omega) hfuel

-- ---------------------------------------------------------------------------
-- The calls
-- ---------------------------------------------------------------------------

def sectionCalls (k : KernelImage) (flags start stop : Nat) : List MapCall :=
  (pagesFrom start stop).map fun virt => ⟨virt, k.phys virt, flags⟩

def directPair (hhdm addr : Nat) : List MapCall :=
  [⟨addr, addr, ptePresent ||| pteWritable⟩, ⟨u64 (addr + hhdm), addr, ptePresent ||| pteWritable⟩]

def directCalls (hhdm : Nat) : List MapCall :=
  (pagesFrom 0 0x100000000).flatMap (directPair hhdm)

/-- The `vmm_map` calls of `vmm_init`, in order. -/
def initCalls (k : KernelImage) (hhdm : Nat) : List MapCall :=
  sectionCalls k ptePresent (alignDown k.textStart) (alignUp k.textEnd) ++
    sectionCalls k (ptePresent ||| pteNx) (alignDown k.rodataStart) (alignUp k.rodataEnd) ++
    sectionCalls k (ptePresent ||| pteWritable ||| pteNx) (alignDown k.dataStart)
      (alignUp k.dataEnd) ++
    directCalls hhdm

section Calls

variable {s s' : Machine} {k : KernelImage} {pm virt phys flags : Nat} {calls : List MapCall}

/-- `ALIGN_DOWN` by division, -/
theorem alignDown_eq (x : Nat) : alignDown x = x / 4096 * 4096 := rfl

/-- and `ALIGN_UP`, whose addition wraps in 64 bits. -/
theorem alignUp_eq (x : Nat) : alignUp x = (x + 4095) % 2 ^ 64 / 4096 * 4096 := rfl

/-- Both give page addresses. -/
theorem alignDown_mod (x : Nat) : alignDown x % 4096 = 0 := Nat.mul_mod_left _ _

/-- Both give page addresses, also where the addition wraps. -/
theorem alignUp_mod (x : Nat) : alignUp x % 4096 = 0 := Nat.mul_mod_left _ _

theorem alignUp_lt (x : Nat) : alignUp x < 2 ^ 64 := by
  have := u64_lt (x + 4095)
  show u64 (x + 4095) / 4096 * 4096 < 2 ^ 64
  omega

/-- A step down the tables may take a page, and so may a whole call of
`vmm_map`; the layout of the machine stays. -/
theorem getNextLvl_layout {lvl entry p : Nat} {alloc : Bool}
    (h : vmmGetNextLvl s lvl entry flags alloc = some (p, s')) : SameLayout s s' := by
  unfold vmmGetNextLvl at h
  split at h
  · -- the table is there
    obtain ⟨-, rfl⟩ := Prod.mk.inj (Option.some.inj h)
    exact .refl s
  · split at h
    · -- none is to be made
      obtain ⟨-, rfl⟩ := Prod.mk.inj (Option.some.inj h)
      exact .refl s
    · split at h
      case h_1 => simp at h
      case h_2 halloc =>
        -- an allocation and two writes
        obtain ⟨-, rfl⟩ := Prod.mk.inj (Option.some.inj h)
        exact (pmmAlloc_cases halloc).1.trans
          ((sameGlobals_memset _ _ _ _).trans (sameGlobals_store _ _ _ _)).toSameLayout

/-- `vmm_map` moves neither the direct map nor the bitmap. -/
theorem vmmMap_layout (h : vmmMap s pm virt phys flags = some s') : SameLayout s s' := by
  unfold vmmMap at h
  simp only [Option.bind_eq_bind, Option.bind_eq_some_iff, Prod.exists] at h
  obtain ⟨pml3, s₃, h₃, pml2, s₂, h₂, pml1, s₁, h₁, h⟩ := h
  obtain rfl := Option.some.inj h
  exact (((getNextLvl_layout h₃).trans (getNextLvl_layout h₂)).trans (getNextLvl_layout h₁)).trans
    (sameGlobals_store _ _ _ _).toSameLayout

/-- The layout stays over any number of calls. -/
theorem mapCalls_layout (h : mapCalls pm s calls = some s') : SameLayout s s' := by
  induction calls generalizing s with
  | nil =>
    obtain rfl := Option.some.inj h
    exact .refl s
  | cons c calls ih =>
    rw [mapCalls, List.foldlM_cons] at h
    obtain ⟨s₁, hstep, hrest⟩ := Option.bind_eq_some_iff.mp h
    exact (vmmMap_layout hstep).trans (ih hrest)

/-- The loop over a section makes the calls of the section. -/
theorem mapSection_eq (k : KernelImage) (pm flags a b : Nat) (s : Machine) :
    mapSection k pm flags (alignDown a) (alignUp b) s =
      mapCalls pm s (sectionCalls k flags (alignDown a) (alignUp b)) := by
  rw [mapSection, forPages_eq _ _ (alignDown_mod a) (alignUp_mod b) (alignUp_lt b), mapCalls,
    sectionCalls, List.foldlM_map]

/-- Two calls for each page; the direct map stays where it is. -/
theorem mapDirect_pages (pm hhdm : Nat) (addrs : List Nat) (hs : s.hhdmOffset = hhdm) :
    addrs.foldlM (fun s addr => mapDirect pm addr s) s =
      mapCalls pm s (addrs.flatMap (directPair hhdm)) := by
  induction addrs generalizing s with
  | nil => rfl
  | cons addr addrs ih =>
    have hpair : mapDirect pm addr s = mapCalls pm s (directPair hhdm addr) := by
      unfold mapDirect directPair
      rw [mapCalls_cons]
      refine Option.bind_congr ?_
      intro s₁ hlow
      rw [mapCalls_cons, (vmmMap_layout hlow).higherHalf, Machine.higherHalf, hs]
      exact (bind_pure _).symm
    rw [List.foldlM_cons, List.flatMap_cons, mapCalls_append, hpair]
    exact Option.bind_congr fun s' hrun => ih ((mapCalls_layout hrun).hhdm.trans hs)

theorem direct_eq (pm : Nat) (s : Machine) :
    forPages (mapDirect pm) 0 0x100000000 s = mapCalls pm s (directCalls s.hhdmOffset) := by
  rw [forPages_eq _ _ (by decide) (by decide) (by decide), mapDirect_pages pm _ _ rfl, directCalls]

/--
**`vmm_init` makes its calls and no others.** With a page for the top table, it
is the run of `initCalls` on the cleared page. The direct map is read anew in
the last loop; the calls before it have not moved it.
-/
theorem vmmInit_eq {p : Nat} {s₁ : Machine} (halloc : pmmAlloc s 1 = some (p, s₁)) :
    vmmInit s k =
      (mapCalls (s₁.higherHalf p) (memset s₁ (s₁.higherHalf p) 0 pageSize)
        (initCalls k s.hhdmOffset)).bind fun s' => some (s₁.higherHalf p, s') := by
  have hlayout : SameLayout s (memset s₁ (s₁.higherHalf p) 0 pageSize) :=
    (pmmAlloc_cases halloc).1.trans (sameGlobals_memset _ _ _ _).toSameLayout
  unfold vmmInit initCalls
  simp only [halloc, Option.bind_eq_bind, Option.bind_some, mapSection_eq]
  rw [mapCalls_append, mapCalls_append, mapCalls_append, Option.bind_assoc, Option.bind_assoc,
    Option.bind_assoc]
  -- the last loop reads the offset after the sections
  refine Option.bind_congr ?_
  intro t₁ h₁
  refine Option.bind_congr ?_
  intro t₂ h₂
  refine Option.bind_congr ?_
  intro t₃ h₃
  have hlayout₃ := ((hlayout.trans (mapCalls_layout h₁)).trans (mapCalls_layout h₂)).trans
    (mapCalls_layout h₃)
  rw [direct_eq, hlayout₃.hhdm]

end Calls

-- ---------------------------------------------------------------------------
-- What is entered
-- ---------------------------------------------------------------------------

/-- `v` is in the range that the loop over a section goes through. -/
def InSection (a b v : Nat) : Prop := alignDown a ≤ v ∧ v < alignUp b

instance (a b v : Nat) : Decidable (InSection a b v) := inferInstanceAs (Decidable (_ ∧ _))

/-- The address and the flags that `vmm_init` enters for the page at `v`. -/
def initEntry (k : KernelImage) (hhdm v : Nat) : Option (Nat × Nat) :=
  if InSection k.textStart k.textEnd v then some (k.phys v, ptePresent)
  else if InSection k.rodataStart k.rodataEnd v then some (k.phys v, ptePresent ||| pteNx)
  else if InSection k.dataStart k.dataEnd v then
    some (k.phys v, ptePresent ||| pteWritable ||| pteNx)
  else if v < 2 ^ 32 then some (v, ptePresent ||| pteWritable)
  else if hhdm ≤ v ∧ v < hhdm + 2 ^ 32 then some (v - hhdm, ptePresent ||| pteWritable)
  else none

/-- The ranges of the loops, one behind the other, and the two others outside
them. -/
structure KernelImage.Ordered (k : KernelImage) (hhdm : Nat) : Prop where
  low : 2 ^ 32 ≤ alignDown k.textStart
  text : alignDown k.textStart ≤ alignUp k.textEnd
  textGap : alignUp k.textEnd ≤ alignDown k.rodataStart
  rodata : alignDown k.rodataStart ≤ alignUp k.rodataEnd
  rodataGap : alignUp k.rodataEnd ≤ alignDown k.dataStart
  lowDirect : 2 ^ 32 ≤ hhdm
  direct : hhdm + 2 ^ 32 ≤ 2 ^ 64
  directImage : hhdm + 2 ^ 32 ≤ alignDown k.textStart ∨
    alignUp k.rodataEnd ≤ hhdm ∧ alignUp k.dataEnd ≤ hhdm
  aligned : hhdm % 4096 = 0

section Entries

variable {k : KernelImage} {hhdm v a b : Nat}

theorem initEntry_text (h : InSection k.textStart k.textEnd v) :
    initEntry k hhdm v = some (k.phys v, ptePresent) := if_pos h

/-- A page of the constants is not executable either, -/
theorem initEntry_rodata (ho : k.Ordered hhdm) (h : InSection k.rodataStart k.rodataEnd v) :
    initEntry k hhdm v = some (k.phys v, ptePresent ||| pteNx) := by
  have hgap := ho.textGap
  have htext : ¬ InSection k.textStart k.textEnd v := by
    unfold InSection at h ⊢
    omega
  rw [initEntry, if_neg htext, if_pos h]

/-- one of the data is writable instead. Each time the sections before do not
reach the page. -/
theorem initEntry_data (ho : k.Ordered hhdm) (h : InSection k.dataStart k.dataEnd v) :
    initEntry k hhdm v = some (k.phys v, ptePresent ||| pteWritable ||| pteNx) := by
  obtain ⟨-, -, htextGap, hrodata, hrodataGap, -⟩ := ho
  have htext : ¬ InSection k.textStart k.textEnd v := by
    unfold InSection at h ⊢
    omega
  have hrodata : ¬ InSection k.rodataStart k.rodataEnd v := by
    unfold InSection at h ⊢
    omega
  rw [initEntry, if_neg htext, if_neg hrodata, if_pos h]

/-- Before the sections and behind them there are the other ranges, the first
of which is asked first; they do not overlap. -/
theorem initEntry_outside (ho : k.Ordered hhdm)
    (h : v < alignDown k.textStart ∨ alignUp k.rodataEnd ≤ v ∧ alignUp k.dataEnd ≤ v) :
    initEntry k hhdm v =
      if v < 2 ^ 32 then some (v, ptePresent ||| pteWritable)
      else if hhdm ≤ v ∧ v < hhdm + 2 ^ 32 then some (v - hhdm, ptePresent ||| pteWritable)
      else none := by
  obtain ⟨-, htext, htextGap, hrodata, hrodataGap, -⟩ := ho
  have htext : ¬ InSection k.textStart k.textEnd v := by
    unfold InSection
    omega
  have hrodata : ¬ InSection k.rodataStart k.rodataEnd v := by
    unfold InSection
    omega
  have hdata : ¬ InSection k.dataStart k.dataEnd v := by
    unfold InSection
    omega
  rw [initEntry, if_neg htext, if_neg hrodata, if_neg hdata]

/-- A page of the first 4 GiB is entered at its own address, -/
theorem initEntry_low (ho : k.Ordered hhdm) (h : v < 2 ^ 32) :
    initEntry k hhdm v = some (v, ptePresent ||| pteWritable) := by
  have hlow := ho.low
  rw [initEntry_outside ho (.inl (by omega)), if_pos h]

/-- and once more in the direct map. -/
theorem initEntry_direct (ho : k.Ordered hhdm) (h : v < 2 ^ 32) :
    initEntry k hhdm (hhdm + v) = some (v, ptePresent ||| pteWritable) := by
  have hlow := ho.lowDirect
  have himage := ho.directImage
  rw [initEntry_outside ho (by omega), if_neg (by omega), if_pos (by omega),
    Nat.add_sub_cancel_left]

/-- Every entry is one of these five: a page of the text, of the read-only data
or of the data, with the rights of its section, or a page of one of the two
maps of the first 4 GiB. -/
theorem initEntry_cases {e : Nat × Nat} (h : initEntry k hhdm v = some e) :
    (InSection k.textStart k.textEnd v ∧ e = (k.phys v, ptePresent)) ∨
      (InSection k.rodataStart k.rodataEnd v ∧ e = (k.phys v, ptePresent ||| pteNx)) ∨
      (InSection k.dataStart k.dataEnd v ∧
        e = (k.phys v, ptePresent ||| pteWritable ||| pteNx)) ∨
      (v < 2 ^ 32 ∧ e = (v, ptePresent ||| pteWritable)) ∨
      (hhdm ≤ v ∧ v < hhdm + 2 ^ 32) ∧ e = (v - hhdm, ptePresent ||| pteWritable) := by
  unfold initEntry at h
  split at h
  case isTrue hin => exact .inl ⟨hin, (Option.some.inj h).symm⟩
  case isFalse =>
    split at h
    case isTrue hin => exact .inr (.inl ⟨hin, (Option.some.inj h).symm⟩)
    case isFalse =>
      split at h
      case isTrue hin => exact .inr (.inr (.inl ⟨hin, (Option.some.inj h).symm⟩))
      case isFalse =>
        split at h
        case isTrue hin => exact .inr (.inr (.inr (.inl ⟨hin, (Option.some.inj h).symm⟩)))
        case isFalse =>
          split at h
          case isTrue hin => exact .inr (.inr (.inr (.inr ⟨hin, (Option.some.inj h).symm⟩)))
          case isFalse => simp at h

/-- The calls for a section, page by page. -/
theorem mem_sectionCalls {flags : Nat} {c : MapCall} :
    c ∈ sectionCalls k flags (alignDown a) (alignUp b) ↔
      c.virt % 4096 = 0 ∧ InSection a b c.virt ∧ c.phys = k.phys c.virt ∧ c.flags = flags := by
  obtain ⟨virt, phys, f⟩ := c
  unfold sectionCalls
  rw [List.mem_map]
  simp only [mem_pagesFrom (alignDown_mod a) (alignUp_mod b), MapCall.mk.injEq, InSection]
  constructor
  · rintro ⟨x, ⟨hx, hin⟩, rfl, rfl, rfl⟩
    exact ⟨hx, hin, rfl, rfl⟩
  · rintro ⟨hx, hin, rfl, rfl⟩
    exact ⟨virt, ⟨hx, hin⟩, rfl, rfl, rfl⟩

/-- The two calls for a page of the first 4 GiB, -/
theorem mem_directPair {c : MapCall} :
    c ∈ directPair hhdm v ↔ (c.virt = v ∨ c.virt = u64 (v + hhdm)) ∧ c.phys = v ∧
      c.flags = ptePresent ||| pteWritable := by
  obtain ⟨virt, phys, flags⟩ := c
  unfold directPair
  rw [List.mem_cons, List.mem_singleton, MapCall.mk.injEq, MapCall.mk.injEq, ← or_and_right]

/-- for each of them. -/
theorem mem_directCalls {c : MapCall} :
    c ∈ directCalls hhdm ↔ ∃ v, v % 4096 = 0 ∧ v < 2 ^ 32 ∧ c ∈ directPair hhdm v := by
  unfold directCalls
  rw [List.mem_flatMap]
  simp only [mem_pagesFrom (show 0 % 4096 = 0 by decide) (show 0x100000000 % 4096 = 0 by decide)]
  constructor
  · rintro ⟨v, ⟨hv, -, hlt⟩, hc⟩
    exact ⟨v, hv, hlt, hc⟩
  · rintro ⟨v, hv, hlt, hc⟩
    exact ⟨v, ⟨hv, Nat.zero_le v, hlt⟩, hc⟩

/--
**The calls are those for the entries.** When the five ranges are apart, a call
is made exactly for the page addresses that have an entry, with the physical
address and the flags of that entry. So no page is entered twice with different
contents, and the order of the loops does not matter.
-/
theorem mem_initCalls (ho : k.Ordered hhdm) {c : MapCall} :
    c ∈ initCalls k hhdm ↔
      c.virt % 4096 = 0 ∧ initEntry k hhdm c.virt = some (c.phys, c.flags) := by
  unfold initCalls
  rw [List.mem_append, List.mem_append, List.mem_append, mem_sectionCalls, mem_sectionCalls,
    mem_sectionCalls, mem_directCalls]
  have haligned := ho.aligned
  have htop := ho.direct
  constructor
  · rintro (((⟨hv, hin, hphys, hflags⟩ | ⟨hv, hin, hphys, hflags⟩) | ⟨hv, hin, hphys, hflags⟩) |
      ⟨v, hv, hlt, hc⟩)
    · exact ⟨hv, by rw [initEntry_text hin, hphys, hflags]⟩
    · exact ⟨hv, by rw [initEntry_rodata ho hin, hphys, hflags]⟩
    · exact ⟨hv, by rw [initEntry_data ho hin, hphys, hflags]⟩
    · -- one of the two calls for a page of the first 4 GiB
      obtain ⟨hvirt, hphys, hflags⟩ := mem_directPair.mp hc
      rw [u64_of_lt (show v + hhdm < 2 ^ 64 by omega), Nat.add_comm] at hvirt
      rcases hvirt with hvirt | hvirt <;> rw [hvirt, hphys, hflags]
      · exact ⟨hv, initEntry_low ho hlt⟩
      · exact ⟨by omega, initEntry_direct ho hlt⟩
  · -- range by range, the call for the entry
    rintro ⟨hv, hentry⟩
    rcases initEntry_cases hentry with ⟨hin, he⟩ | ⟨hin, he⟩ | ⟨hin, he⟩ | ⟨hlt, he⟩ |
      ⟨⟨hlo, hhi⟩, he⟩ <;> obtain ⟨hphys, hflags⟩ := Prod.mk.inj he
    · exact .inl (.inl (.inl ⟨hv, hin, hphys, hflags⟩))
    · exact .inl (.inl (.inr ⟨hv, hin, hphys, hflags⟩))
    · exact .inl (.inr ⟨hv, hin, hphys, hflags⟩)
    · exact .inr ⟨c.virt, hv, hlt, mem_directPair.mpr ⟨.inl rfl, hphys, hflags⟩⟩
    · have hvirt : c.virt = u64 (c.virt - hhdm + hhdm) := by
        rw [u64_of_lt (by omega), Nat.sub_add_cancel hlo]
      exact .inr ⟨c.virt - hhdm, by omega, by omega,
        mem_directPair.mpr ⟨.inr hvirt, hphys, hflags⟩⟩

end Entries

end Medlar64
