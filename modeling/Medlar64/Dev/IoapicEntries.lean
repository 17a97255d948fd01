import Medlar64.Dev.IoapicRanges

/-!
# Medlar64 — redirection entries of the I/O APICs

Entry `line` of a controller is the register pair `16 + 2 * line` (low) and
`17 + 2 * line` (high). `ioapic_redirect_irq` looks for an override of the
interrupt, finds the controller and writes the two halves.

* `redirection_getLsbD` — the bits of the entry that is assembled.
* `entry_write_low`, `entry_write_high` — what one register write does to every
  entry of every controller.
* `firstIso`, `isoSearch_returns` — the first override that matches.
* `redirect_irq_entry` — the entry of the interrupt is programmed as asked, and
  every other entry is kept.
* `ioapicInit_entry` — `ioapic_init` masks every entry of its controller.
-/

namespace Medlar64

-- ---------------------------------------------------------------------------
-- The bits of an entry
-- ---------------------------------------------------------------------------

/-- The test of one bit of the flags of an override. -/
theorem flag_set {flags : BitVec 16} {k : ℕ} (hk : k < 16) :
    flags &&& 1#16 <<< k ≠ 0 ↔ flags.getLsbD k = true := by
  rw [← BitVec.twoPow_eq, BitVec.and_twoPow]
  have hpow : BitVec.twoPow 16 k ≠ 0#16 := by
    intro hzero
    have hbit := congrArg (fun bits => bits.getLsbD k) hzero
    simp [hk] at hbit
  cases flags.getLsbD k <;> simp [hpow]

/-- A one shifted left has one bit. -/
theorem getLsbD_one_shiftLeft {k : ℕ} (hk : k < 64) (i : ℕ) :
    (1#64 <<< k).getLsbD i = decide (i = k) := by
  rw [← BitVec.twoPow_eq, BitVec.getLsbD_twoPow]
  by_cases h : k = i
  · simp [h, h ▸ hk]
  · simp [h, Ne.symm h]

/-- `if (c) x |= 1 << k`. -/
theorem getLsbD_setBit (x : BitVec 64) (c : Bool) {k : ℕ} (hk : k < 64) (i : ℕ) :
    (if c then x ||| 1#64 <<< k else x).getLsbD i = (x.getLsbD i || decide (i = k) && c) := by
  cases c
  · simp
  · simp [getLsbD_one_shiftLeft hk]

/-- `if (c) x |= 1 << k; else x &= ~(1 << k)`, where the bit is clear. -/
theorem getLsbD_assignBit {x : BitVec 64} (c : Bool) {k : ℕ} (hk : k < 64)
    (hclear : x.getLsbD k = false) (i : ℕ) :
    (if c then x ||| 1#64 <<< k else x &&& ~~~(1#64 <<< k)).getLsbD i =
      (x.getLsbD i || decide (i = k) && c) := by
  cases c
  · by_cases h : i = k
    · simp [h, hclear]
    · have hlt : x.getLsbD i = true → i < 64 := BitVec.lt_of_getLsbD
      simp [h, getLsbD_one_shiftLeft hk]
      exact hlt
  · simp [getLsbD_one_shiftLeft hk]

/-- The entry that `ioapic_redirect_gsi` assembles, bit by bit: the vector, the
two bits of the override for polarity and trigger mode, the mask, and the local
APIC in the top byte. No two of them share a bit. -/
theorem redirection_getLsbD (lapicId : BitVec 32) (vector : BitVec 8) (flags : BitVec 16)
    (mask : Bool) {i : ℕ} (hi : i < 64) :
    (redirection lapicId vector flags mask).getLsbD i =
      (vector.getLsbD i || decide (i = 13) && flags.getLsbD 1 ||
        decide (i = 15) && flags.getLsbD 3 || decide (i = 16) && mask ||
        decide (56 ≤ i) && lapicId.getLsbD (i - 56)) := by
  have hshift : (lapicId.setWidth 64 <<< 56).getLsbD i =
      (decide (56 ≤ i) && lapicId.getLsbD (i - 56)) := by
    rw [BitVec.getLsbD_shiftLeft, BitVec.getLsbD_setWidth]
    by_cases h : i < 56
    · simp [h, Nat.not_le_of_lt h]
    · have hsub : i - 56 < 64 := by omega
      simp [h, hi, Nat.le_of_not_lt h, hsub]
  have hwide : (vector.setWidth 64).getLsbD i = vector.getLsbD i := by
    rw [BitVec.getLsbD_setWidth]
    simp [hi]
  unfold redirection
  simp only [flag_set (show 1 < 16 by omega), flag_set (show 3 < 16 by omega)]
  -- the mask bit is clear before it is assigned
  rw [BitVec.getLsbD_or, hshift, getLsbD_assignBit mask (by omega), getLsbD_setBit _ _ (by omega),
    getLsbD_setBit _ _ (by omega), hwide]
  rw [getLsbD_setBit _ _ (by omega), getLsbD_setBit _ _ (by omega)]
  simp

/-- An entry with this vector, fixed delivery, polarity, trigger, mask and
destination, and nothing else. -/
structure EntryFor (lapicId : BitVec 32) (vector : BitVec 8) (flags : BitVec 16) (mask : Bool)
    (e : BitVec 64) : Prop where
  vector : e.setWidth 8 = vector
  delivery : e.extractLsb' 8 3 = 0
  polarity : e.getLsbD 13 = flags.getLsbD 1
  trigger : e.getLsbD 15 = flags.getLsbD 3
  mask : e.getLsbD 16 = mask
  destination : (e >>> 56).toNat = lapicId.toNat
  rest : ∀ i, 8 ≤ i → i < 56 → i ≠ 13 → i ≠ 15 → i ≠ 16 → e.getLsbD i = false

/-- The entry that is assembled is the one that was asked for: each field lies
where the controller looks for it, and the bits between them are clear. The
identifier of the local APIC must fit the byte of the destination. -/
theorem redirection_entryFor {lapicId : BitVec 32} (hlapic : lapicId.toNat < 256)
    (vector : BitVec 8) (flags : BitVec 16) (mask : Bool) :
    EntryFor lapicId vector flags mask (redirection lapicId vector flags mask) := by
  have hbit := fun {i} (hi : i < 64) => redirection_getLsbD lapicId vector flags mask hi
  have hvector : ∀ i, 8 ≤ i → vector.getLsbD i = false := fun i hi => BitVec.getLsbD_of_ge _ _ hi
  refine ⟨?_, ?_, ?_, ?_, ?_, ?_, ?_⟩
  · refine BitVec.eq_of_getLsbD_eq ?_
    intro i hi
    rw [BitVec.getLsbD_setWidth, hbit (by omega)]
    have h56 : ¬ 56 ≤ i := by omega
    simp [hi, h56, show i ≠ 13 by omega, show i ≠ 15 by omega, show i ≠ 16 by omega]
  · refine BitVec.eq_of_getLsbD_eq ?_
    intro i hi
    rw [BitVec.getLsbD_extractLsb', hbit (by omega), hvector _ (by omega)]
    have h56 : ¬ 56 ≤ 8 + i := by omega
    simp [h56, show 8 + i ≠ 13 by omega, show 8 + i ≠ 15 by omega, show 8 + i ≠ 16 by omega]
  · rw [hbit (by omega), hvector _ (by omega)]
    simp
  · rw [hbit (by omega), hvector _ (by omega)]
    simp
  · rw [hbit (by omega), hvector _ (by omega)]
    simp
  · -- the bits of the identifier that are shifted out are zero
    have hdest : redirection lapicId vector flags mask >>> 56 = lapicId.setWidth 64 := by
      refine BitVec.eq_of_getLsbD_eq ?_
      intro i hi
      rw [BitVec.getLsbD_ushiftRight, BitVec.getLsbD_setWidth]
      by_cases hlt : 56 + i < 64
      · rw [hbit hlt, hvector _ (by omega), Nat.add_sub_cancel_left]
        simp [hi, show 56 + i ≠ 13 by omega, show 56 + i ≠ 15 by omega,
          show 56 + i ≠ 16 by omega]
      · rw [BitVec.getLsbD_of_ge _ _ (Nat.le_of_not_lt hlt)]
        have hhigh : lapicId.getLsbD i = false := by
          refine Nat.testBit_lt_two_pow (Nat.lt_of_lt_of_le hlapic ?_)
          exact Nat.pow_le_pow_right (Nat.succ_pos 1) (show 8 ≤ i by omega)
        simp [hhigh]
    rw [hdest, BitVec.toNat_setWidth]
    omega
  · intro i hlo hhi h13 h15 h16
    rw [hbit (by omega), hvector i hlo]
    simp [h13, h15, h16, Nat.not_le_of_lt hhi]

-- ---------------------------------------------------------------------------
-- Entries and register writes
-- ---------------------------------------------------------------------------

/-- Redirection entry `line` of the controller at the address. -/
def Ioapics.entry (hw : Ioapics) (address : BitVec 32) (line : ℕ) : BitVec 64 :=
  (hw address).reg (BitVec.ofNat 8 (17 + 2 * line)) ++
    (hw address).reg (BitVec.ofNat 8 (16 + 2 * line))

/-- Reading a register moves the selector only, so all entries stay. -/
theorem SameRegs.entry {hw hw' : Ioapics} (h : SameRegs hw hw') (address : BitVec 32) (line : ℕ) :
    hw'.entry address line = hw.entry address line := by
  rw [Ioapics.entry, Ioapics.entry, h]

/-- A write goes to the one register of the one controller. -/
theorem ioapicWrite_reg (hw : Ioapics) (ioapic : MadtIoapic) (reg : BitVec 8) (value : BitVec 32)
    (address : BitVec 32) (reg' : BitVec 8) :
    (ioapicWrite hw ioapic reg value address).reg reg' =
      if address = ioapic.address ∧ reg' = reg then value else (hw address).reg reg' := by
  unfold ioapicWrite
  by_cases haddress : address = ioapic.address
  · rw [haddress, Function.update_self]
    show Function.update (hw ioapic.address).reg reg value reg' = _
    rw [Function.update_apply]
    simp
  · rw [Function.update_of_ne haddress, if_neg fun h => haddress h.1]

section Writes

variable {hw : Ioapics} {ioapic : MadtIoapic} {value : BitVec 32} {address : BitVec 32}
  {line line' : ℕ}

/-- The same for two registers given by their numbers; the one written to is
cut to a `u8`. -/
theorem ioapicWrite_ofNat {a b : ℕ} (ha : a < 256) :
    (ioapicWrite hw ioapic (BitVec.ofNat 8 b) value address).reg (BitVec.ofNat 8 a) =
      if address = ioapic.address ∧ a = b % 256 then value
      else (hw address).reg (BitVec.ofNat 8 a) := by
  have hreg : BitVec.ofNat 8 a = BitVec.ofNat 8 b ↔ a = b % 256 := by
    rw [← BitVec.toNat_inj, BitVec.toNat_ofNat, BitVec.toNat_ofNat]
    omega
  rw [ioapicWrite_reg]
  exact if_congr (and_congr Iff.rfl hreg) rfl rfl

/-- A write to the low half of an entry. From 120 on the register number wraps
to a register that belongs to no entry. -/
theorem entry_write_low (hline : line < 120) (hline' : line' < 128) :
    (ioapicWrite hw ioapic (BitVec.ofNat 8 (16 + 2 * line')) value).entry address line =
      if address = ioapic.address ∧ line = line' then
        (hw address).reg (BitVec.ofNat 8 (17 + 2 * line)) ++ value
      else hw.entry address line := by
  unfold Ioapics.entry
  rw [ioapicWrite_ofNat (by omega), ioapicWrite_ofNat (by omega), if_neg (by omega)]
  by_cases hsame : address = ioapic.address ∧ line = line'
  · rw [if_pos hsame, if_pos ⟨hsame.1, by omega⟩]
  · rw [if_neg hsame, if_neg fun h => hsame ⟨h.1, by omega⟩]

/-- A write to the high half of an entry. -/
theorem entry_write_high (hline : line < 120) (hline' : line' < 128) :
    (ioapicWrite hw ioapic (BitVec.ofNat 8 (17 + 2 * line')) value).entry address line =
      if address = ioapic.address ∧ line = line' then
        value ++ (hw address).reg (BitVec.ofNat 8 (16 + 2 * line))
      else hw.entry address line := by
  unfold Ioapics.entry
  rw [ioapicWrite_ofNat (by omega), ioapicWrite_ofNat (by omega),
    if_neg (show ¬ (_ ∧ 16 + 2 * line = _) by omega)]
  by_cases hsame : address = ioapic.address ∧ line = line'
  · rw [if_pos hsame, if_pos ⟨hsame.1, by omega⟩]
  · rw [if_neg hsame, if_neg fun h => hsame ⟨h.1, by omega⟩]

end Writes

/-- The two halves put together. -/
theorem halves_append (e : BitVec 64) : (e >>> 32).setWidth 32 ++ e.setWidth 32 = e := by
  refine BitVec.eq_of_getLsbD_eq ?_
  intro i hi
  rw [BitVec.getLsbD_append]
  by_cases hlow : i < 32
  · simp [hlow]
  · simp [hlow, show i - 32 < 32 by omega, show 32 + (i - 32) = i by omega]

-- ---------------------------------------------------------------------------
-- `ioapic_redirect_gsi`
-- ---------------------------------------------------------------------------

section RedirectGsi

variable {m : IoapicLists} {hw : Ioapics} {gsi : BitVec 32} {ioapic : MadtIoapic}

/-- The entry whose registers `ioapic_redirect_gsi` selects; the register
number is a `u8`. -/
def redirectLine (ioapic : MadtIoapic) (gsi : BitVec 32) : ℕ := (gsi - ioapic.gsiBase).toNat % 128

/-- The line is the offset of the input from the first one of the controller,
in seven bits, since the register number is a byte and an entry takes two. -/
theorem redirectLine_lt (ioapic : MadtIoapic) (gsi : BitVec 32) : redirectLine ioapic gsi < 128 :=
  Nat.mod_lt _ (Nat.succ_pos 127)

/-- The source computes the register of the low half in 32 bits and passes it
in eight; that is the register of the line. -/
theorem redirectTable_low (ioapic : MadtIoapic) (gsi : BitVec 32) :
    ((gsi - ioapic.gsiBase) * 2 + 16 : BitVec 32).setWidth 8 =
      BitVec.ofNat 8 (16 + 2 * redirectLine ioapic gsi) := by
  unfold redirectLine
  generalize gsi - ioapic.gsiBase = k
  rw [← BitVec.toNat_inj, BitVec.toNat_setWidth, BitVec.toNat_add, BitVec.toNat_mul,
    BitVec.toNat_ofNat]
  show (k.toNat * 2 % 2 ^ 32 + 16) % 2 ^ 32 % 2 ^ 8 = _
  omega

/-- The same for the high half, one register further. -/
theorem redirectTable_high (ioapic : MadtIoapic) (gsi : BitVec 32) :
    ((gsi - ioapic.gsiBase) * 2 + 16 + 1 : BitVec 32).setWidth 8 =
      BitVec.ofNat 8 (17 + 2 * redirectLine ioapic gsi) := by
  unfold redirectLine
  generalize gsi - ioapic.gsiBase = k
  rw [← BitVec.toNat_inj, BitVec.toNat_setWidth, BitVec.toNat_add, BitVec.toNat_add,
    BitVec.toNat_mul, BitVec.toNat_ofNat]
  show ((k.toNat * 2 % 2 ^ 32 + 16) % 2 ^ 32 + 1) % 2 ^ 32 % 2 ^ 8 = _
  omega

/-- The two writes of `ioapic_redirect_gsi`. -/
theorem ioapicRedirectGsi_eq (lapicId : BitVec 32) (vector : BitVec 8) (flags : BitVec 16)
    (mask : Bool) (hfound : (ioapicGetGsi m hw gsi).2 = some ioapic) :
    ioapicRedirectGsi m hw lapicId vector gsi flags mask = some (
      ioapicWrite (ioapicWrite (ioapicGetGsi m hw gsi).1 ioapic
        (BitVec.ofNat 8 (16 + 2 * redirectLine ioapic gsi))
        ((redirection lapicId vector flags mask).setWidth 32)) ioapic
        (BitVec.ofNat 8 (17 + 2 * redirectLine ioapic gsi))
        ((redirection lapicId vector flags mask >>> 32).setWidth 32)) := by
  unfold ioapicRedirectGsi
  generalize ioapicGetGsi m hw gsi = found at hfound ⊢
  obtain ⟨hw', result⟩ := found
  obtain rfl : result = some ioapic := hfound
  simp only [redirectTable_low, redirectTable_high]

/-- **`ioapic_redirect_gsi`** programs one entry and keeps the others. It
writes the low half and then the high half, each into a register of its own. -/
theorem ioapicRedirectGsi_entry {lapicId : BitVec 32} {vector : BitVec 8} {flags : BitVec 16}
    {mask : Bool} {hw' : Ioapics} {address : BitVec 32} {line : ℕ}
    (hfound : (ioapicGetGsi m hw gsi).2 = some ioapic)
    (h : ioapicRedirectGsi m hw lapicId vector gsi flags mask = some hw') (hline : line < 120) :
    hw'.entry address line =
      if address = ioapic.address ∧ line = redirectLine ioapic gsi then
        redirection lapicId vector flags mask
      else hw.entry address line := by
  rw [ioapicRedirectGsi_eq _ _ _ _ hfound] at h
  have hreg := redirectLine_lt ioapic gsi
  rw [← Option.some.inj h, entry_write_high hline hreg, entry_write_low hline hreg,
    (ioapicGetGsi_spec m hw gsi).1.entry]
  by_cases hsame : address = ioapic.address ∧ line = redirectLine ioapic gsi
  · -- the low half is the one written just before
    rw [if_pos hsame, if_pos hsame, ioapicWrite_reg, if_pos ⟨hsame.1, by rw [hsame.2]⟩]
    exact halves_append _
  · rw [if_neg hsame, if_neg hsame, if_neg hsame]

end RedirectGsi

-- ---------------------------------------------------------------------------
-- The override
-- ---------------------------------------------------------------------------

/-- The input and the flags of an interrupt: those of the first override for
it, or its own number and no flags. -/
def firstIso (m : IoapicLists) (irq : BitVec 8) : BitVec 32 × BitVec 16 :=
  match ((List.range m.isos).map m.isoList).find? fun iso => iso.irqSource = irq with
  | some iso => (iso.gsi, iso.flags)
  | none => (irq.setWidth 32, 0)

/-- The loop of `ioapic_redirect_irq` up to its call of `ioapic_redirect_gsi`. -/
def isoBody (m : IoapicLists) (irq index : BitVec 8) : BitVec 8 ⊕ (BitVec 32 × BitVec 16) :=
  if index.toNat < m.isos then
    let iso := m.isoList index.toNat
    if iso.irqSource = irq then .inr (iso.gsi, iso.flags) else .inl (index + 1)
  else .inr (irq.setWidth 32, 0)

section Iso

variable {m : IoapicLists} {hw : Ioapics} {lapicId : BitVec 32} {vector irq index : BitVec 8}
  {mask : Bool} {fuel : ℕ}

/-- One round of the loop of `ioapic_redirect_irq`: the search for an override,
with the call of `ioapic_redirect_gsi` at its end. -/
theorem redirectIrqBody_eq : redirectIrqBody m hw lapicId vector irq mask index =
    (isoBody m irq index).map id
      (fun g => ioapicRedirectGsi m hw lapicId vector g.1 g.2 mask) := by
  unfold redirectIrqBody isoBody
  split
  · simp only
    split <;> rfl
  · rfl

/-- `ioapic_redirect_irq` is the search for an override, and then
`ioapic_redirect_gsi`. -/
theorem ioapicRedirectIrq_eq : ioapicRedirectIrq m hw lapicId vector irq mask fuel =
    (whileRun (isoBody m irq) fuel 0).map fun g =>
      ioapicRedirectGsi m hw lapicId vector g.1 g.2 mask := by
  unfold ioapicRedirectIrq
  generalize (0 : BitVec 8) = index
  -- on the rounds
  induction fuel generalizing index with
  | zero => rfl
  | succ fuel ih =>
    cases hbody : isoBody m irq index with
    | inl next =>
      rw [whileRun_next hbody, whileRun_next (by rw [redirectIrqBody_eq, hbody]; rfl), ih]
      rfl
    | inr g =>
      rw [whileRun_done hbody, whileRun_done (by rw [redirectIrqBody_eq, hbody]; rfl)]
      rfl

/-- A round passes an override for another interrupt; the `u8` index does not
wrap below 256. -/
theorem isoBody_next {index' : BitVec 8} (hisos : m.isos < 256)
    (h : isoBody m irq index = .inl index') :
    index.toNat < m.isos ∧ (m.isoList index.toNat).irqSource ≠ irq ∧
      index'.toNat = index.toNat + 1 := by
  unfold isoBody at h
  split at h
  case isFalse => simp at h
  case isTrue hlt =>
    simp only at h
    split at h
    case isTrue => simp at h
    case isFalse hne =>
      refine ⟨hlt, hne, ?_⟩
      rw [← Sum.inl.inj h, BitVec.toNat_add]
      exact Nat.mod_eq_of_lt (show index.toNat + 1 < 2 ^ 8 by omega)

/-- The first override that matches is the one the search stops at, -/
theorem firstIso_of_find {i : ℕ} (hlt : i < m.isos) (hmatch : (m.isoList i).irqSource = irq)
    (hpassed : ∀ j < i, (m.isoList j).irqSource ≠ irq) :
    firstIso m irq = ((m.isoList i).gsi, (m.isoList i).flags) := by
  have hfind : ((List.range m.isos).map m.isoList).find? (fun iso => iso.irqSource = irq) =
      some (m.isoList i) := by
    rw [List.find?_map, Option.map_eq_some_iff]
    refine ⟨i, ?_, rfl⟩
    rw [List.find?_range_eq_some]
    refine ⟨by simpa using hmatch, List.mem_range.mpr hlt, ?_⟩
    intro j hj
    simpa using hpassed j hj
  rw [firstIso, hfind]

/-- and without one the interrupt is its own input, with no flags. -/
theorem firstIso_of_none (hnone : ∀ i < m.isos, (m.isoList i).irqSource ≠ irq) :
    firstIso m irq = (irq.setWidth 32, 0) := by
  have hfind : ((List.range m.isos).map m.isoList).find? (fun iso => iso.irqSource = irq) =
      none := by
    rw [List.find?_eq_none]
    intro iso hiso
    obtain ⟨i, hi, rfl⟩ := List.mem_map.mp hiso
    simpa using hnone i (List.mem_range.mp hi)
  rw [firstIso, hfind]

/--
**The search for an override.** It ends, also with its counter of eight bits,
as long as there are fewer than 256 overrides; the 64 slots of the list are
less. It finds the first override for the interrupt, and the interrupt itself
if there is none.
-/
theorem isoSearch_returns (hisos : m.isos < 256) (irq : BitVec 8) :
    ∃ fuel, whileRun (isoBody m irq) fuel 0 = some (firstIso m irq) := by
  -- the overrides passed are for other interrupts; those to come are the measure
  have hround : ∀ index index' : BitVec 8,
      (index.toNat ≤ m.isos ∧ ∀ j < index.toNat, (m.isoList j).irqSource ≠ irq) →
      isoBody m irq index = .inl index' →
      (index'.toNat ≤ m.isos ∧ ∀ j < index'.toNat, (m.isoList j).irqSource ≠ irq) ∧
        m.isos - index'.toNat < m.isos - index.toNat := by
    rintro index index' ⟨_, hpassed⟩ hstep
    obtain ⟨hlt, hne, hnext⟩ := isoBody_next hisos hstep
    refine ⟨⟨by omega, fun j hj => ?_⟩, by omega⟩
    rcases Nat.lt_succ_iff_lt_or_eq.mp (hnext ▸ hj : j < index.toNat + 1) with hj | rfl
    · exact hpassed j hj
    · exact hne
  obtain ⟨g, index, hrun, -, ⟨-, hpassed⟩, hdone⟩ :=
    whileRun_total (fun index : BitVec 8 => m.isos - index.toNat) (s := 0)
      ⟨Nat.zero_le _, fun j hj => absurd hj (Nat.not_lt_zero j)⟩ hround (Nat.lt_succ_self _)
  refine ⟨_, hrun.trans (congrArg some ?_)⟩
  unfold isoBody at hdone
  split at hdone
  case isTrue hlt =>
    simp only at hdone
    split at hdone
    case isTrue hmatch => rw [firstIso_of_find hlt hmatch hpassed, ← Sum.inr.inj hdone]
    case isFalse => simp at hdone
  case isFalse hge =>
    rw [firstIso_of_none fun i hi => hpassed i (by omega), ← Sum.inr.inj hdone]

end Iso

-- ---------------------------------------------------------------------------
-- `ioapic_redirect_irq`
-- ---------------------------------------------------------------------------

/-- Every controller of the list has at most 120 entries, as many as a `u8`
register number reaches. -/
def EntriesReachable (m : IoapicLists) (hw : Ioapics) : Prop :=
  ∀ i < m.ioapics, maxEntry hw (m.ioapicList i) < 120

/-- An input that is found lies in the range of its controller, so that the
difference to the base is the number of the entry and fits into eight bits. -/
theorem redirectLine_eq {m : IoapicLists} {hw : Ioapics} {gsi : BitVec 32} {ioapic : MadtIoapic}
    (hreach : EntriesReachable m hw) (hfound : (ioapicGetGsi m hw gsi).2 = some ioapic) :
    redirectLine ioapic gsi = gsi.toNat - ioapic.gsiBase.toNat ∧
      gsi.toNat - ioapic.gsiBase.toNat < 120 := by
  obtain ⟨-, ⟨i, hi, hsome, hfinds, -⟩ | ⟨hnone, -⟩⟩ := ioapicGetGsi_spec m hw gsi
  · rw [hfound] at hsome
    obtain rfl := Option.some.inj hsome
    have hmax := hreach i hi
    obtain ⟨hlo, hhi⟩ := hfinds
    have hlt := gsi.isLt
    unfold redirectLine
    rw [BitVec.toNat_sub]
    omega
  · rw [hfound] at hnone
    contradiction

/-- **Rerouting an interrupt** programs its entry and no other. For every list
of overrides and of I/O APICs, every register contents and every call for which
a controller is found: the entry of the interrupt is as asked, and every other
entry of every controller is unchanged. -/
theorem redirect_irq_entry (m : IoapicLists) (hw : Ioapics) (lapicId : BitVec 32)
    (vector irq : BitVec 8) (mask : Bool) (ioapic : MadtIoapic) (hisos : m.isos ≤ 64)
    (hreach : EntriesReachable m hw) (hlapic : lapicId.toNat < 256)
    (hfound : (ioapicGetGsi m hw (firstIso m irq).1).2 = some ioapic) :
    ∃ hw', (∃ fuel, ioapicRedirectIrq m hw lapicId vector irq mask fuel = some (some hw')) ∧
      EntryFor lapicId vector (firstIso m irq).2 mask
        (hw'.entry ioapic.address ((firstIso m irq).1.toNat - ioapic.gsiBase.toNat)) ∧
      ∀ address line, line < 120 →
        (address, line) ≠ (ioapic.address, (firstIso m irq).1.toNat - ioapic.gsiBase.toNat) →
        hw'.entry address line = hw.entry address line := by
  obtain ⟨hline, hlt⟩ := redirectLine_eq hreach hfound
  obtain ⟨fuel, hsearch⟩ := isoSearch_returns (Nat.lt_of_le_of_lt hisos (by omega)) irq
  have hrun := ioapicRedirectGsi_eq lapicId vector (firstIso m irq).2 mask hfound
  refine ⟨_, ⟨fuel, by rw [ioapicRedirectIrq_eq, hsearch, Option.map_some, hrun]⟩, ?_, ?_⟩
  · rw [ioapicRedirectGsi_entry hfound hrun hlt, if_pos ⟨rfl, hline.symm⟩]
    exact redirection_entryFor hlapic vector _ mask
  · intro address line hlt' hother
    rw [ioapicRedirectGsi_entry hfound hrun hlt', if_neg]
    rintro ⟨rfl, rfl⟩
    exact hother (by rw [hline])

/-- The keyboard's interrupt on a board without overrides: input 1 of its
controller gets vector 33, unmasked, and nothing else changes. -/
theorem redirect_irq_entry_keyboard :
    ∃ hw', (∃ fuel, ioapicRedirectIrq oneIoapic maskedRegs 0 33 1 false fuel = some (some hw')) ∧
      EntryFor 0 33 (firstIso oneIoapic 1).2 false
        (hw'.entry (oneIoapic.ioapicList 0).address
          ((firstIso oneIoapic 1).1.toNat - (oneIoapic.ioapicList 0).gsiBase.toNat)) ∧
      ∀ address line, line < 120 →
        (address, line) ≠ ((oneIoapic.ioapicList 0).address,
          (firstIso oneIoapic 1).1.toNat - (oneIoapic.ioapicList 0).gsiBase.toNat) →
        hw'.entry address line = maskedRegs.entry address line :=
  redirect_irq_entry oneIoapic maskedRegs 0 33 1 false (oneIoapic.ioapicList 0) (by decide)
    (fun i _ => by rw [maskedRegs_maxEntry]; decide) (by decide) rfl

-- ---------------------------------------------------------------------------
-- `ioapic_init`
-- ---------------------------------------------------------------------------

/-- `IOAPIC_ID`. -/
def ioapicIdReg : BitVec 8 := 0x0

/-- One round of the loop of `ioapic_init`. -/
def ioapicMask (ioapic : MadtIoapic) (i : ℕ) (hw : Ioapics) : Ioapics :=
  let hw := ioapicWrite hw ioapic (BitVec.ofNat 8 (16 + 2 * i))
    (BitVec.ofNat 32 (0x10000 ||| (i + 32)))
  ioapicWrite hw ioapic (BitVec.ofNat 8 (17 + 2 * i)) 0

/-- `ioapic_init()`: entries `0` to `count`, the last one included. -/
def ioapicInit (m : IoapicLists) (hw : Ioapics) : Ioapics :=
  let ioapic := m.ioapicList 0
  let (hw, id) := ioapicRead hw ioapic ioapicIdReg
  let (hw, count) := ioapicGsiCount hw ioapic
  if id >>> 24 ≠ ioapic.id.setWidth 32 then hw
  else forUp (ioapicMask ioapic) (count + 1) hw

/-- Masking entry `i` writes both its halves and no other entry. -/
theorem ioapicMask_entry {hw : Ioapics} {ioapic : MadtIoapic} {address : BitVec 32} {line i : ℕ}
    (hline : line < 120) (hi : i < 120) :
    (ioapicMask ioapic i hw).entry address line =
      if address = ioapic.address ∧ line = i then BitVec.ofNat 64 (0x10000 ||| (i + 32))
      else hw.entry address line := by
  unfold ioapicMask
  rw [entry_write_high hline (by omega), entry_write_low hline (by omega)]
  by_cases hsame : address = ioapic.address ∧ line = i
  · rw [if_pos hsame, if_pos hsame, ioapicWrite_reg, if_pos ⟨hsame.1, by rw [hsame.2]⟩]
    refine BitVec.eq_of_toNat_eq ?_
    have hlt : 0x10000 ||| (i + 32) < 2 ^ 32 :=
      Nat.or_lt_two_pow (by omega) (by omega)
    rw [BitVec.toNat_append, BitVec.toNat_ofNat, BitVec.toNat_ofNat, Nat.mod_eq_of_lt hlt,
      Nat.mod_eq_of_lt (Nat.lt_trans hlt (by omega))]
    simp
  · rw [if_neg hsame, if_neg hsame, if_neg hsame]

/-- **`ioapic_init`** masks every entry of the first controller, the last one
included, and gives entry `i` the vector `i + 32` and the destination 0. -/
theorem ioapicInit_entry {m : IoapicLists} {hw : Ioapics} {address : BitVec 32} {line : ℕ}
    (hid : ((hw (m.ioapicList 0).address).reg ioapicIdReg) >>> 24 = (m.ioapicList 0).id.setWidth 32)
    (hmax : maxEntry hw (m.ioapicList 0) < 120) (hline : line < 120) :
    (ioapicInit m hw).entry address line =
      if address = (m.ioapicList 0).address ∧ line ≤ maxEntry hw (m.ioapicList 0) then
        BitVec.ofNat 64 (0x10000 ||| (line + 32))
      else hw.entry address line := by
  have hread := sameRegs_ioapicRead hw (m.ioapicList 0) ioapicIdReg
  have hread' := hread.trans (sameRegs_ioapicRead _ (m.ioapicList 0) ioapicVer)
  unfold ioapicInit
  simp only [ioapicGsiCount_eq]
  have hsame : ¬ (ioapicRead hw (m.ioapicList 0) ioapicIdReg).2 >>> 24 ≠
      (m.ioapicList 0).id.setWidth 32 := not_not.mpr hid
  rw [if_neg hsame, hread.maxEntry]
  -- the entries up to `i` are masked, the others are as before
  have hinv := forUp_inv (f := ioapicMask (m.ioapicList 0)) (fun n hw' => ∀ line, line < 120 →
      hw'.entry address line = if address = (m.ioapicList 0).address ∧ line < n then
        BitVec.ofNat 64 (0x10000 ||| (line + 32)) else hw.entry address line)
    (n := maxEntry hw (m.ioapicList 0) + 1)
    (fun line _ => by rw [if_neg (by omega), hread'.entry]) ?_
  · rw [hinv line hline]
    exact if_congr (and_congr Iff.rfl Nat.lt_succ_iff) rfl rfl
  · intro i hw' hi ih line hline
    rw [ioapicMask_entry hline (by omega), ih line hline]
    by_cases hsame : address = (m.ioapicList 0).address ∧ line = i
    · rw [if_pos hsame, if_pos ⟨hsame.1, by omega⟩, hsame.2]
    · rw [if_neg hsame]
      refine if_congr ⟨fun h => ⟨h.1, Nat.lt_succ_of_lt h.2⟩, fun h => ⟨h.1, ?_⟩⟩ rfl rfl
      exact Nat.lt_of_le_of_ne (Nat.le_of_lt_succ h.2) fun heq => hsame ⟨h.1, heq⟩

end Medlar64
