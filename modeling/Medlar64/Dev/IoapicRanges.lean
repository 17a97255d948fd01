import Medlar64.Dev.Ioapic

/-!
# Medlar64 — the interrupt inputs of the I/O APICs

The version register of an I/O APIC holds the index of its last redirection
entry. `ioapic_init` programs the entries up to this index, `ioapic_get_gsi`
takes it for the number of entries.

* `Owns`, `Finds` — the inputs that a controller has, and those that
  `ioapic_get_gsi` looks for on it.
* `ioapicGetGsi_spec` — the search returns the first controller that `Finds`.
* `gsi_routed_iff` — with disjoint ranges an input is routed right if and only
  if it is not the last one of a controller.
-/

namespace Medlar64

-- ---------------------------------------------------------------------------
-- Ranges
-- ---------------------------------------------------------------------------

/-- Bits 16 to 23 of `IOAPIC_VER`: the index of the last redirection entry. -/
def maxEntry (hw : Ioapics) (ioapic : MadtIoapic) : ℕ :=
  (((hw ioapic.address).reg ioapicVer >>> 16) &&& 0xff).toNat

/-- The inputs whose entries exist; `ioapic_init` programs all of them. -/
def Owns (hw : Ioapics) (ioapic : MadtIoapic) (gsi : BitVec 32) : Prop :=
  ioapic.gsiBase.toNat ≤ gsi.toNat ∧ gsi.toNat ≤ ioapic.gsiBase.toNat + maxEntry hw ioapic

/-- The test of `ioapic_get_gsi`. -/
def Finds (hw : Ioapics) (ioapic : MadtIoapic) (gsi : BitVec 32) : Prop :=
  ioapic.gsiBase.toNat ≤ gsi.toNat ∧ gsi.toNat < ioapic.gsiBase.toNat + maxEntry hw ioapic

/-- An input that is looked for on a controller is one of its own. -/
theorem Finds.owns {hw : Ioapics} {ioapic : MadtIoapic} {gsi : BitVec 32}
    (h : Finds hw ioapic gsi) : Owns hw ioapic gsi :=
  ⟨h.1, Nat.le_of_lt h.2⟩

/-- An input that exists is found unless it is the last one. -/
theorem finds_iff {hw : Ioapics} {ioapic : MadtIoapic} {gsi : BitVec 32} :
    Finds hw ioapic gsi ↔
      Owns hw ioapic gsi ∧ gsi.toNat ≠ ioapic.gsiBase.toNat + maxEntry hw ioapic := by
  unfold Finds Owns
  omega

/-- The registers behind the windows are the same. -/
def SameRegs (hw hw' : Ioapics) : Prop := ∀ address, (hw' address).reg = (hw address).reg

/-- Nothing has been written, -/
theorem SameRegs.refl (hw : Ioapics) : SameRegs hw hw := fun _ => rfl

/-- and twice nothing is nothing. -/
theorem SameRegs.trans {hw hw' hw'' : Ioapics} (h : SameRegs hw hw') (h' : SameRegs hw' hw'') :
    SameRegs hw hw'' := fun address => (h' address).trans (h address)

/-- The version register is among the registers that stay. -/
theorem SameRegs.maxEntry {hw hw' : Ioapics} (h : SameRegs hw hw') (ioapic : MadtIoapic) :
    maxEntry hw' ioapic = maxEntry hw ioapic := by
  rw [Medlar64.maxEntry, Medlar64.maxEntry, h]

/-- So a controller is found after the reads of others if and only if it was
before. -/
theorem SameRegs.finds {hw hw' : Ioapics} (h : SameRegs hw hw') {ioapic : MadtIoapic}
    {gsi : BitVec 32} : Finds hw' ioapic gsi ↔ Finds hw ioapic gsi := by
  rw [Finds, Finds, h.maxEntry]

-- ---------------------------------------------------------------------------
-- The search
-- ---------------------------------------------------------------------------

/-- Selecting a register changes none. -/
theorem sameRegs_select (hw : Ioapics) (address : BitVec 32) (reg : BitVec 8) :
    SameRegs hw (Function.update hw address ((hw address).select reg)) := by
  intro address'
  by_cases haddress : address' = address
  · rw [haddress, Function.update_self]
    rfl
  · rw [Function.update_of_ne haddress]

theorem sameRegs_ioapicRead (hw : Ioapics) (ioapic : MadtIoapic) (reg : BitVec 8) :
    SameRegs hw (ioapicRead hw ioapic reg).1 :=
  sameRegs_select hw ioapic.address reg

/-- `ioapic_gsi_count` reads the version register and returns the index of the
last entry in it, which is one less than the number of entries. -/
theorem ioapicGsiCount_eq (hw : Ioapics) (ioapic : MadtIoapic) :
    ioapicGsiCount hw ioapic = ((ioapicRead hw ioapic ioapicVer).1, maxEntry hw ioapic) := rfl

section Search

variable {m : IoapicLists} {hw : Ioapics} {gsi : BitVec 32}

/-- One round of the loop, by the test on the controller looked at: it goes on
to the next one, it returns this one, or there is none left. Each time only the
selector of a register window may have moved. -/
theorem getGsiBody_cases (m : IoapicLists) (gsi : BitVec 32) (i : ℕ) (hw : Ioapics) :
    (∃ hw', SameRegs hw hw' ∧ i < m.ioapics ∧ ¬ Finds hw (m.ioapicList i) gsi ∧
        getGsiBody m gsi (i, hw) = .inl (i + 1, hw')) ∨
      (∃ hw', SameRegs hw hw' ∧ i < m.ioapics ∧ Finds hw (m.ioapicList i) gsi ∧
        getGsiBody m gsi (i, hw) = .inr (hw', some (m.ioapicList i))) ∨
      m.ioapics ≤ i ∧ getGsiBody m gsi (i, hw) = .inr (hw, none) := by
  unfold getGsiBody
  simp only [ioapicGsiCount_eq]
  have hread := sameRegs_ioapicRead hw (m.ioapicList i) ioapicVer
  by_cases hlt : i < m.ioapics
  · rw [if_pos hlt]
    by_cases hbase : (m.ioapicList i).gsiBase ≤ gsi
    · rw [if_pos hbase]
      by_cases hin : (m.ioapicList i).gsiBase.toNat + maxEntry hw (m.ioapicList i) > gsi.toNat
      · exact .inr (.inl ⟨_, hread, hlt, ⟨hbase, hin⟩, if_pos hin⟩)
      · exact .inl ⟨_, hread, hlt, fun hfinds => hin hfinds.2, if_neg hin⟩
    · -- the first operand of `&&` fails, no register is read
      exact .inl ⟨hw, .refl hw, hlt, fun hfinds => hbase hfinds.1, if_neg hbase⟩
  · exact .inr (.inr ⟨Nat.le_of_not_lt hlt, if_neg hlt⟩)

/--
**The search for the controller of an input.** It ends with the first
controller whose first input is not above the one looked for and whose last is
above it; if there is none, with `NULL`. Nothing is written on the way: reading
the version of a controller selects a register and no more.
-/
theorem ioapicGetGsi_spec (m : IoapicLists) (hw : Ioapics) (gsi : BitVec 32) :
    SameRegs hw (ioapicGetGsi m hw gsi).1 ∧
      ((∃ i < m.ioapics, (ioapicGetGsi m hw gsi).2 = some (m.ioapicList i) ∧
          Finds hw (m.ioapicList i) gsi ∧ ∀ j < i, ¬ Finds hw (m.ioapicList j) gsi) ∨
        (ioapicGetGsi m hw gsi).2 = none ∧ ∀ i < m.ioapics, ¬ Finds hw (m.ioapicList i) gsi) := by
  obtain ⟨⟨i, hw₁⟩, hvis, hdone⟩ := whileRun_visits (getGsi_returns m hw gsi)
  -- the controllers passed do not have the input
  have hround : ∀ st st' : ℕ × Ioapics,
      (SameRegs hw st.2 ∧ ∀ j < st.1, ¬ Finds hw (m.ioapicList j) gsi) →
      getGsiBody m gsi st = .inl st' →
      SameRegs hw st'.2 ∧ ∀ j < st'.1, ¬ Finds hw (m.ioapicList j) gsi := by
    rintro ⟨k, hw₂⟩ next ⟨hsame, hpassed⟩ hnext
    rcases getGsiBody_cases m gsi k hw₂ with ⟨hw₃, hread, -, hnot, hbody⟩ | ⟨_, _, _, _, hbody⟩ |
      ⟨_, hbody⟩
    · rw [hbody] at hnext
      obtain rfl := Sum.inl.inj hnext
      refine ⟨hsame.trans hread, ?_⟩
      intro j hj
      rcases Nat.lt_succ_iff_lt_or_eq.mp hj with hlt | rfl
      · exact hpassed j hlt
      · exact fun hfinds => hnot (hsame.finds.mpr hfinds)
    · rw [hbody] at hnext
      contradiction
    · rw [hbody] at hnext
      contradiction
  obtain ⟨hsame, hpassed⟩ := hvis.inv ⟨.refl hw, fun j hj => absurd hj (Nat.not_lt_zero j)⟩ hround
  rcases getGsiBody_cases m gsi i hw₁ with ⟨_, _, _, _, hbody⟩ | ⟨hw₂, hread, hlt, hfinds, hbody⟩ |
    ⟨hge, hbody⟩
  · rw [hbody] at hdone
    contradiction
  · rw [hbody] at hdone
    rw [← Sum.inr.inj hdone]
    exact ⟨hsame.trans hread, .inl ⟨i, hlt, rfl, hsame.finds.mp hfinds, hpassed⟩⟩
  · rw [hbody] at hdone
    rw [← Sum.inr.inj hdone]
    exact ⟨hsame, .inr ⟨rfl, fun j hj => hpassed j (Nat.lt_of_lt_of_le hj hge)⟩⟩

/-- `ioapic_redirect_gsi` uses the pointer it gets without a test, so it goes
through `NULL` exactly where the search ends with that. -/
theorem ioapicRedirectGsi_eq_none {lapicId : BitVec 32} {vector : BitVec 8} {flags : BitVec 16}
    {mask : Bool} : ioapicRedirectGsi m hw lapicId vector gsi flags mask = none ↔
      (ioapicGetGsi m hw gsi).2 = none := by
  unfold ioapicRedirectGsi
  generalize ioapicGetGsi m hw gsi = found
  obtain ⟨hw', _ | ioapic⟩ := found
  · simp
  · simp

end Search

-- ---------------------------------------------------------------------------
-- Routing
-- ---------------------------------------------------------------------------

/-- The inputs of two controllers of the list are different. -/
def RangesDisjoint (m : IoapicLists) (hw : Ioapics) : Prop :=
  ∀ i < m.ioapics, ∀ j < m.ioapics, ∀ gsi, Owns hw (m.ioapicList i) gsi →
    Owns hw (m.ioapicList j) gsi → i = j

/-- `ioapic_get_gsi` returns the controller that owns the input, and `NULL` if
there is none; no `NULL` is dereferenced for an input that is owned. -/
structure GsiRouted (m : IoapicLists) (hw : Ioapics) (gsi : BitVec 32) : Prop where
  found : ∀ i < m.ioapics, Owns hw (m.ioapicList i) gsi →
    (ioapicGetGsi m hw gsi).2 = some (m.ioapicList i)
  null : (∀ i < m.ioapics, ¬ Owns hw (m.ioapicList i) gsi) → (ioapicGetGsi m hw gsi).2 = none
  redirected : (∃ i < m.ioapics, Owns hw (m.ioapicList i) gsi) →
    ∀ lapicId vector flags mask, ioapicRedirectGsi m hw lapicId vector gsi flags mask ≠ none

/-- **Which inputs are routed.** For every list of I/O APICs with disjoint
ranges and every input: `ioapic_get_gsi` routes it to its owner if and only if
it is not the last input of a controller. -/
theorem gsi_routed_iff (m : IoapicLists) (hw : Ioapics) (gsi : BitVec 32)
    (hdisjoint : RangesDisjoint m hw) :
    GsiRouted m hw gsi ↔ ∀ i < m.ioapics,
      gsi.toNat ≠ (m.ioapicList i).gsiBase.toNat + maxEntry hw (m.ioapicList i) := by
  obtain ⟨-, hcases⟩ := ioapicGetGsi_spec m hw gsi
  constructor
  · intro hrouted i hi hlast
    have howns : Owns hw (m.ioapicList i) gsi := ⟨by omega, Nat.le_of_eq hlast⟩
    have hfound := hrouted.found i hi howns
    -- the one found owns the input as well, so it is this controller
    rcases hcases with ⟨j, hj, -, hfinds, -⟩ | ⟨hnone, -⟩
    · obtain rfl := hdisjoint i hi j hj gsi howns hfinds.owns
      exact (finds_iff.mp hfinds).2 hlast
    · rw [hnone] at hfound
      contradiction
  · intro hinner
    have hfinds : ∀ i < m.ioapics, Owns hw (m.ioapicList i) gsi →
        (ioapicGetGsi m hw gsi).2 = some (m.ioapicList i) := by
      intro i hi howns
      have hi' : Finds hw (m.ioapicList i) gsi := finds_iff.mpr ⟨howns, hinner i hi⟩
      rcases hcases with ⟨j, hj, hfound, hfinds, -⟩ | ⟨-, hnot⟩
      · obtain rfl := hdisjoint i hi j hj gsi howns hfinds.owns
        exact hfound
      · exact absurd hi' (hnot i hi)
    refine ⟨hfinds, ?_, ?_⟩
    · intro hnobody
      rcases hcases with ⟨j, hj, -, hfinds, -⟩ | ⟨hnone, -⟩
      · exact absurd hfinds.owns (hnobody j hj)
      · exact hnone
    · rintro ⟨i, hi, howns⟩ lapicId vector flags mask hnull
      rw [ioapicRedirectGsi_eq_none, hfinds i hi howns] at hnull
      contradiction

-- ---------------------------------------------------------------------------
-- Boards
-- ---------------------------------------------------------------------------

/-- One I/O APIC with 24 entries, and no overrides. -/
def oneIoapic : IoapicLists :=
  { ioapicList := fun _ => { id := 0, address := 0xfec00000, gsiBase := 0 }, ioapics := 1
    isoList := fun _ => { irqSource := 0, gsi := 0, flags := 0 }, isos := 0 }

/-- Its registers as `ioapic_init` leaves them: every entry masked. -/
def maskedRegs : Ioapics := fun _ =>
  { sel := 0, reg := fun reg => if reg = ioapicVer then 0x170020 else 0x10000 }

theorem maskedRegs_maxEntry (ioapic : MadtIoapic) : maxEntry maskedRegs ioapic = 23 := by
  unfold maxEntry maskedRegs
  rfl

/-- Two I/O APICs with 24 entries each, the second one behind the first. -/
def twoIoapics : IoapicLists :=
  { ioapicList := fun i =>
      if i = 0 then { id := 0, address := 0xfec00000, gsiBase := 0 }
      else { id := 1, address := 0xfec01000, gsiBase := 24 }
    ioapics := 2
    isoList := fun _ => { irqSource := 0, gsi := 0, flags := 0 }, isos := 0 }

/-- The first has the inputs from 0 to 23, the second those from 24 to 47. -/
theorem twoIoapics_disjoint : RangesDisjoint twoIoapics maskedRegs := by
  have hbase : ∀ i < 2, (twoIoapics.ioapicList i).gsiBase.toNat = 24 * i := by decide
  intro i hi j hj gsi howns howns'
  unfold Owns at howns howns'
  rw [maskedRegs_maxEntry, hbase i hi] at howns
  rw [maskedRegs_maxEntry, hbase j hj] at howns'
  omega

theorem gsi_routed_iff_two : GsiRouted twoIoapics maskedRegs 24 ↔ ∀ i < twoIoapics.ioapics,
    (24#32).toNat ≠ (twoIoapics.ioapicList i).gsiBase.toNat +
      maxEntry maskedRegs (twoIoapics.ioapicList i) :=
  gsi_routed_iff twoIoapics maskedRegs 24 twoIoapics_disjoint

/-- The last input of the first controller is not found: input 23 of the one
with inputs from 0 to 23, where the loop tests for less than the highest
entry. -/
theorem gsi_not_routed :
    ¬ ∀ (m : IoapicLists) (hw : Ioapics), RangesDisjoint m hw → ∀ gsi, GsiRouted m hw gsi := by
  intro h
  have hfound := (h twoIoapics maskedRegs twoIoapics_disjoint 23).found 0 (by decide)
    (by unfold Owns; decide)
  have hnull : (ioapicGetGsi twoIoapics maskedRegs 23).2 = none := rfl
  rw [hnull] at hfound
  contradiction

end Medlar64
