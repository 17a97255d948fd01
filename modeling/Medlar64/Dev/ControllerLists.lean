import Medlar64.Acpi.MadtSafety
import Medlar64.Dev.Ioapic

/-!
# Medlar64 — the bounds of the controller lists

`madt_ioapic_list` and `madt_iso_list` have 64 slots. `madt_init` stores into
them at `madt_ioapics` and `madt_isos` without a check, and the loops of
`ioapic.c` run up to these counts.

* `ListsBounded` — every store and every access is at an index below 64, and
  the loops end.
* `controller_loops` — a list within its slots is all that the loops need.
* `lists_bounded_iff` — the lists stay within their slots if and only if the
  entries of the table, with the headers met behind it, are at most 64 of each
  type.
-/

namespace Medlar64

-- ---------------------------------------------------------------------------
-- The lists as `ioapic.c` reads them
-- ---------------------------------------------------------------------------

/-- The `madt_ioapic` at a pointer. -/
def readIoapic (s : Machine) (ptr : Nat) : MadtIoapic :=
  { id := BitVec.ofNat 8 (s.load (ptr + 2) 1)
    address := BitVec.ofNat 32 (s.load (ptr + 4) 4)
    gsiBase := BitVec.ofNat 32 (s.load (ptr + 8) 4) }

/-- The `madt_iso` at a pointer. -/
def readIso (s : Machine) (ptr : Nat) : MadtIso :=
  { irqSource := BitVec.ofNat 8 (s.load (ptr + 3) 1)
    gsi := BitVec.ofNat 32 (s.load (ptr + 4) 4)
    flags := BitVec.ofNat 16 (s.load (ptr + 8) 2) }

def MadtLists.read (s : Machine) (m : MadtLists) : IoapicLists :=
  { ioapicList := fun i => readIoapic s (m.ioapicList i)
    ioapics := m.ioapics
    isoList := fun i => readIso s (m.isoList i)
    isos := m.isos }

-- ---------------------------------------------------------------------------
-- Staying within the slots
-- ---------------------------------------------------------------------------

/-- Every store of `madt_init` is at an index below 64. -/
def StoresBounded (s : Machine) (madt : Nat) : Prop :=
  ∀ st, Visits (madtBody s madt) ⟨0, .empty⟩ st → st.i ≤ madtBound s madt →
    (madtType s madt st.i = 1 → st.lists.ioapics < 64) ∧
      (madtType s madt st.i = 2 → st.lists.isos < 64)

/-- The loop of `ioapic_get_gsi` ends, and looks at slots below 64 only. -/
def GetGsiBounded (m : IoapicLists) : Prop :=
  ∀ (hw : Ioapics) (gsi : BitVec 32),
    (∃ fuel result, whileRun (getGsiBody m gsi) fuel (0, hw) = some result) ∧
      ∀ st, Visits (getGsiBody m gsi) (0, hw) st → st.1 < m.ioapics → st.1 < 64

/-- The same for the loop of `ioapic_redirect_irq`. -/
def RedirectIrqBounded (m : IoapicLists) : Prop :=
  ∀ (hw : Ioapics) (lapicId : BitVec 32) (vector irq : BitVec 8) (mask : Bool),
    (∃ fuel result, ioapicRedirectIrq m hw lapicId vector irq mask fuel = some result) ∧
      ∀ index, Visits (redirectIrqBody m hw lapicId vector irq mask) 0 index →
        index.toNat < m.isos → index.toNat < 64

/-- The lists of `madt_init`, and the loops over them afterwards. -/
structure ListsBounded (s : Machine) (a : Acpi) (madt : Nat) : Prop where
  stores : StoresBounded s madt
  getGsi : ∀ fuel lists, madtInit s a .empty fuel = some (some lists) →
    GetGsiBounded (lists.read s)
  redirectIrq : ∀ fuel lists, madtInit s a .empty fuel = some (some lists) →
    RedirectIrqBounded (lists.read s)

/-- The entries of the type, with the headers met from the end of the table on
as long as they are at most 36 bytes behind it, are at most 64. -/
def RoomFor (s : Machine) (madt : Nat) (rs : List MadtRecord) (type : Nat) : Prop :=
  ∀ n, (∀ k, k < n → madtOffset s madt (encode rs).length k ≤ (encode rs).length + 36) →
    (rs.filter fun r => r.type.toNat = type).length +
      headersMet s madt (encode rs).length type n ≤ 64

-- ---------------------------------------------------------------------------
-- The loops over the lists
-- ---------------------------------------------------------------------------

/-- The loop of `ioapic_redirect_irq` goes on to the next slot; its `u8` index
does not wrap below 64. -/
theorem redirectIrqBody_next {m : IoapicLists} {hw : Ioapics} {lapicId : BitVec 32}
    {vector irq index index' : BitVec 8} {mask : Bool} (hisos : m.isos ≤ 64)
    (h : redirectIrqBody m hw lapicId vector irq mask index = .inl index') :
    index.toNat < m.isos ∧ index'.toNat = index.toNat + 1 := by
  unfold redirectIrqBody at h
  split at h
  case isTrue hlt =>
    simp only at h
    split at h
    -- the override was found
    case isTrue => simp at h
    -- the next slot, in a `u8`
    case isFalse =>
      rw [← Sum.inl.inj h, BitVec.toNat_add]
      refine ⟨hlt, ?_⟩
      show (index.toNat + 1) % 2 ^ 8 = index.toNat + 1
      exact Nat.mod_eq_of_lt (by omega)
  case isFalse => simp at h

/--
**A list within its slots is all that the loops need.** Both loops run up to
the count, and so end below 64; the counter of `ioapic_redirect_irq` has eight
bits, which is enough for 64 overrides.
-/
theorem controller_loops {m : IoapicLists} (hioapics : m.ioapics ≤ 64) (hisos : m.isos ≤ 64) :
    GetGsiBounded m ∧ RedirectIrqBounded m := by
  refine ⟨fun hw gsi => ⟨⟨_, _, getGsi_returns m hw gsi⟩, ?_⟩, ?_⟩
  · intro st _ hlt
    omega
  · intro hw lapicId vector irq mask
    refine ⟨?_, ?_⟩
    · -- the slots still to come are the measure
      have hround : ∀ index index' : BitVec 8, True →
          redirectIrqBody m hw lapicId vector irq mask index = .inl index' →
          True ∧ m.isos - index'.toNat < m.isos - index.toNat := by
        intro index index' _ hstep
        obtain ⟨hlt, hnext⟩ := redirectIrqBody_next hisos hstep
        exact ⟨trivial, by omega⟩
      obtain ⟨result, -, hrun, -⟩ := whileRun_total
        (fun index : BitVec 8 => m.isos - index.toNat) (s := 0) trivial hround
        (Nat.lt_succ_self _)
      exact ⟨_, result, hrun⟩
    · intro index _ hlt
      omega

-- ---------------------------------------------------------------------------
-- The stores
-- ---------------------------------------------------------------------------

section Stores

variable {s : Machine} {a : Acpi} {madt n : Nat} {rs pre suf : List MadtRecord}

/--
**The stores of the walk.** Every store has a slot if and only if, of any
number of headers met one after the other within the bound, at most 64 are of
either type. Forwards by induction on the headers: the last of them was stored,
so its count is below 64 before it.
-/
theorem storesBounded_iff :
    StoresBounded s madt ↔
      ∀ n, (∀ k, k < n → madtOffset s madt 0 k ≤ madtBound s madt) → HeadersFit s madt n := by
  constructor
  · intro hstores n
    -- on the headers met; the last one is stored below 64
    induction n with
    | zero =>
      intro hrange
      exact ⟨hrange, Nat.zero_le _, Nat.zero_le _⟩
    | succ n ih =>
      intro hrange
      have hfit := ih fun k hk => hrange k (Nat.lt_succ_of_lt hk)
      obtain ⟨st, hvis, hnoted⟩ := visits_of_fit hfit
      have hin := hrange n (Nat.lt_succ_self n)
      rw [← hnoted.offset] at hin
      obtain ⟨hone, htwo⟩ := hstores st hvis hin
      rw [hnoted.offset, hnoted.ioapics] at hone
      rw [hnoted.offset, hnoted.isos] at htwo
      have hioapics := hfit.ioapics
      have hisos := hfit.isos
      refine ⟨hrange, ?_, ?_⟩
      · rw [headersMet]
        split
        case isTrue htype => exact hone htype
        case isFalse => exact hioapics
      · rw [headersMet]
        split
        case isTrue htype => exact htwo htype
        case isFalse => exact hisos
  · -- a store is made at the last of the headers met
    intro hfit st hvis hin
    obtain ⟨n, hfit', hnoted⟩ := fit_of_visits hvis
    have hnext : HeadersFit s madt (n + 1) := by
      refine hfit (n + 1) ?_
      intro k hk
      rcases Nat.lt_succ_iff_lt_or_eq.mp hk with hk | rfl
      · exact hfit'.inRange k hk
      · rw [← hnoted.offset]
        exact hin
    have hone := hnext.ioapics
    have htwo := hnext.isos
    rw [headersMet, ← hnoted.offset, ← hnoted.ioapics] at hone
    rw [headersMet, ← hnoted.offset, ← hnoted.isos] at htwo
    refine ⟨?_, ?_⟩
    · intro htype
      rw [if_pos htype] at hone
      exact hone
    · intro htype
      rw [if_pos htype] at htwo
      exact htwo

/-- The headers of the entries: as many of a type as there are entries of it.
By induction on the number of headers, each of which is that of the entry with
the same index. -/
theorem MadtTable.headersMet (h : MadtTable s madt rs) (type : Nat) :
    headersMet s madt 0 type rs.length = (rs.filter fun r => r.type.toNat = type).length := by
  suffices hgen : ∀ k, k ≤ rs.length → Medlar64.headersMet s madt 0 type k =
      ((rs.take k).filter fun r => r.type.toNat = type).length by
    rw [hgen rs.length (Nat.le_refl _), List.take_length]
  intro k
  induction k with
  | zero => exact fun _ => rfl
  | succ k ih =>
    intro hk
    -- header `k` is that of entry `k`
    have hsplit : rs = rs.take k ++ rs[k] :: rs.drop (k + 1) := by
      rw [← List.drop_eq_getElem_cons hk, List.take_append_drop]
    have htable := h
    rw [hsplit] at htable
    obtain ⟨htype, -⟩ := htable.header
    rw [Medlar64.headersMet, ih (Nat.le_of_succ_le hk), h.offset k (Nat.le_of_succ_le hk), htype,
      ← List.take_append_getElem hk, List.filter_append, List.length_append]
    congr 1
    by_cases hr : rs[k].type.toNat = type
    · simp [hr]
    · simp [hr]

/--
**The headers of a well-formed table** come in two parts, the entries of the
table and what the walk takes for headers in the 36 bytes behind it. The
condition is stated for both together, counted by type.
-/
theorem MadtTable.fit_iff (h : MadtTable s madt rs) :
    (∀ n, (∀ k, k < n → madtOffset s madt 0 k ≤ madtBound s madt) → HeadersFit s madt n) ↔
      RoomFor s madt rs 1 ∧ RoomFor s madt rs 2 := by
  have hend := h.offset rs.length (Nat.le_refl _)
  rw [List.take_length] at hend
  have hoffset : ∀ k, madtOffset s madt 0 (rs.length + k) =
      madtOffset s madt (encode rs).length k := by
    intro k
    rw [madtOffset_shift, hend]
  have hmet : ∀ type k, Medlar64.headersMet s madt 0 type (rs.length + k) =
      (rs.filter fun r => r.type.toNat = type).length +
        Medlar64.headersMet s madt (encode rs).length type k := by
    intro type k
    rw [headersMet_shift, h.headersMet, hend]
  constructor
  · intro hfit
    have hall : ∀ n, (∀ k, k < n → madtOffset s madt (encode rs).length k ≤
        (encode rs).length + 36) → HeadersFit s madt (rs.length + n) := by
      intro n hrange
      refine hfit _ ?_
      intro k hk
      rw [h.bound]
      rcases Nat.lt_or_ge k rs.length with hlt | hge
      · -- an entry of the table
        exact Nat.le_trans (h.offset_le (Nat.le_of_lt hlt)) (Nat.le_add_right _ 36)
      · -- a header behind it
        obtain ⟨j, rfl⟩ := Nat.le.dest hge
        rw [hoffset]
        exact hrange j (by omega)
    refine ⟨?_, ?_⟩
    · intro n hrange
      rw [← hmet]
      exact (hall n hrange).ioapics
    · intro n hrange
      rw [← hmet]
      exact (hall n hrange).isos
  · rintro ⟨hone, htwo⟩ n hrange
    -- the first headers are those of entries, the others come behind the table
    have hsome : ∀ m, (∀ k, k < rs.length + m → madtOffset s madt 0 k ≤ madtBound s madt) →
        HeadersFit s madt (rs.length + m) := by
      intro m hrange
      have htail : ∀ k, k < m → madtOffset s madt (encode rs).length k ≤
          (encode rs).length + 36 := by
        intro k hk
        rw [← hoffset, ← h.bound]
        exact hrange _ (by omega)
      refine ⟨hrange, ?_, ?_⟩
      · rw [hmet]
        exact hone m htail
      · rw [hmet]
        exact htwo m htail
    rcases Nat.lt_or_ge n rs.length with hlt | hge
    · have hentries : ∀ k, k < rs.length + 0 → madtOffset s madt 0 k ≤ madtBound s madt := by
        intro k hk
        rw [h.bound]
        exact Nat.le_trans (h.offset_le (Nat.le_of_lt hk)) (Nat.le_add_right _ 36)
      exact (hsome 0 hentries).mono (Nat.le_of_lt hlt)
    · obtain ⟨m, rfl⟩ := Nat.le.dest hge
      exact hsome m hrange

/-- What `madt_init` returns is within the slots. -/
theorem madtInit_le {fuel : Nat} {lists : MadtLists}
    (hfind : acpiFindTable s a apicSignature = some madt) (hne : madt ≠ 0)
    (h : madtInit s a .empty fuel = some (some lists)) : lists.ioapics ≤ 64 ∧ lists.isos ≤ 64 := by
  rw [madtInit_eq hfind hne] at h
  obtain ⟨st, hvis, hdone⟩ := whileRun_visits h
  obtain ⟨n, hfit, hnoted⟩ := fit_of_visits hvis
  have hlists : st.lists = lists := by
    unfold madtBody at hdone
    split at hdone
    case isTrue => split at hdone <;> simp at hdone
    case isFalse => exact Option.some.inj (Sum.inr.inj hdone)
  rw [← hlists, hnoted.ioapics, hnoted.isos]
  exact ⟨hfit.ioapics, hfit.isos⟩

end Stores

/-- **When the controller lists stay within their slots.** For a table that
its entries fill, every store of `madt_init` and every later access of the
loops in `ioapic.c` is below 64, and these loops end, if and only if the table
has, together with the headers that the walk meets behind it, at most 64 I/O
APICs and at most 64 overrides. -/
theorem lists_bounded_iff (s : Machine) (a : Acpi) (madt : Nat) (rs : List MadtRecord)
    (hfind : acpiFindTable s a apicSignature = some madt) (hne : madt ≠ 0)
    (htable : MadtTable s madt rs) :
    ListsBounded s a madt ↔ RoomFor s madt rs 1 ∧ RoomFor s madt rs 2 := by
  rw [← htable.fit_iff, ← storesBounded_iff]
  constructor
  · exact fun h => h.stores
  · intro hstores
    -- the counts that `madt_init` leaves behind bound the loops
    refine ⟨hstores, ?_, ?_⟩
    · intro fuel lists hrun
      have ⟨hioapics, hisos⟩ := madtInit_le hfind hne hrun
      exact (controller_loops (m := lists.read s) hioapics hisos).1
    · intro fuel lists hrun
      have ⟨hioapics, hisos⟩ := madtInit_le hfind hne hrun
      exact (controller_loops (m := lists.read s) hioapics hisos).2

-- ---------------------------------------------------------------------------
-- Two tables
-- ---------------------------------------------------------------------------

/-- The bytes behind the header of the MADT. -/
theorem firmware_bytes (table : List (BitVec 8)) {k : Nat} (hk : k < 2 ^ 32) :
    (firmware table).read8 (madtAddr + 44 + k) = (table[k]?).getD 0 := by
  have hphys : (firmware table).physical (madtAddr + 44 + k) = 4180 + k := by
    show u64 (usualHhdm + 4136 + 44 + k + (2 ^ 64 - usualHhdm % 2 ^ 64)) = 4180 + k
    unfold u64 usualHhdm
    omega
  have hheader : (firmwareHeader table.length).length = 84 := rfl
  rw [Machine.read8, hphys]
  show (if 4180 + k < 4096 then 0 else
    ((firmwareHeader table.length ++ table)[4180 + k - 4096]?).getD 0) = _
  rw [if_neg (by omega), List.getElem?_append_right (by omega), hheader,
    show 4180 + k - 4096 - 84 = k by omega]

/-- Sixty-five I/O APICs. -/
def crowdedRecords : List MadtRecord := List.replicate 65 madtIoapic

/-- A well-formed table with 65 I/O APICs. -/
theorem crowded_table : MadtTable (firmware (encode crowdedRecords)) madtAddr crowdedRecords := by
  refine ⟨by decide +kernel, ?_⟩
  intro k b hb
  have hlen : (encode crowdedRecords).length = 780 := by decide +kernel
  have hk := (List.getElem?_eq_some_iff.mp hb).1
  rw [firmware_bytes _ (by omega), hb]
  rfl

/-- One I/O APIC, and a header of type 0 behind the table, which takes no slot
and whose length ends the walk. -/
theorem lists_bounded_iff_quiet : ListsBounded (madtMachine 0) madtAcpi madtAddr := by
  have htable := madtMachine_table 0 (.inl rfl)
  have hroom : ∀ type, type = 1 ∨ type = 2 →
      RoomFor (madtMachine 0) madtAddr [madtIoapic] type := by
    intro type htype n hrange
    -- the walk behind the table is over after one header
    have hn : n ≤ 1 := by
      by_contra hgt
      exact absurd (hrange 1 (by omega)) (by decide +kernel)
    have hone : ([madtIoapic].filter fun r => r.type.toNat = type).length ≤ 1 :=
      List.length_filter_le _ _
    have hmet : headersMet (madtMachine 0) madtAddr (encode [madtIoapic]).length type 1 ≤ 1 := by
      rw [headersMet, headersMet]
      split <;> omega
    have hmono : headersMet (madtMachine 0) madtAddr (encode [madtIoapic]).length type n ≤
        headersMet (madtMachine 0) madtAddr (encode [madtIoapic]).length type 1 :=
      headersMet_mono hn
    omega
  exact (lists_bounded_iff (madtMachine 0) madtAcpi madtAddr [madtIoapic]
    (madtMachine_find 0 (.inl rfl)) (by decide) htable).mpr
      ⟨hroom 1 (.inl rfl), hroom 2 (.inr rfl)⟩

/-- The sixty-fifth I/O APIC is stored behind the list. The table is in order
and its entries fill it; nothing in `madt_init` looks at the count. -/
theorem lists_not_bounded :
    ¬ ∀ (s : Machine) (a : Acpi) (madt : Nat) (rs : List MadtRecord),
      acpiFindTable s a apicSignature = some madt → madt ≠ 0 → MadtTable s madt rs →
      ListsBounded s a madt := by
  intro h
  have hbounded := h (firmware (encode crowdedRecords)) madtAcpi madtAddr crowdedRecords
    (by decide +kernel) (by decide) crowded_table
  have hfit := storesBounded_iff.mp hbounded.stores
  have hroom := (crowded_table.fit_iff.mp hfit).1 0 fun k hk => absurd hk (Nat.not_lt_zero k)
  exact absurd hroom (by decide +kernel)

end Medlar64
