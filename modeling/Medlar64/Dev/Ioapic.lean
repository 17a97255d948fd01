import Mathlib.Logic.Function.Basic
import Medlar64.Lib.Loop

/-!
# Medlar64 — the I/O APICs (`ioapic.c`)

An I/O APIC is a file of 32-bit registers behind two words of memory: word 0
selects a register and word 4 is the register selected. Entry `k` of its
redirection table is the registers `16 + 2k` (vector, mode and mask) and
`17 + 2k` (destination).

* `ioapicGetGsi` — `ioapic_get_gsi`, its loop included.
* `ioapicRedirectGsi`, `ioapicRedirectIrq` — the source functions; a `NULL`
  controller is dereferenced, which is the `none` of their result.
* `Raises` — the entries through which an interrupt can arrive.
-/

namespace Medlar64

-- ---------------------------------------------------------------------------
-- The tables of the firmware
-- ---------------------------------------------------------------------------

/-- `madt_ioapic`. -/
structure MadtIoapic where
  id : BitVec 8
  address : BitVec 32
  gsiBase : BitVec 32

/-- `madt_iso`. -/
structure MadtIso where
  irqSource : BitVec 8
  gsi : BitVec 32
  flags : BitVec 16

/-- The lists of `madt.c` as `ioapic.c` reads them. -/
structure IoapicLists where
  ioapicList : ℕ → MadtIoapic
  ioapics : ℕ
  isoList : ℕ → MadtIso
  isos : ℕ

-- ---------------------------------------------------------------------------
-- The registers
-- ---------------------------------------------------------------------------

structure IoapicRegs where
  sel : BitVec 8
  reg : BitVec 8 → BitVec 32

/-- The I/O APICs by their addresses. -/
abbrev Ioapics := BitVec 32 → IoapicRegs

/-- `ioapic_addr[0] = reg`. -/
def IoapicRegs.select (r : IoapicRegs) (reg : BitVec 8) : IoapicRegs := { r with sel := reg }

/-- `ioapic_addr[4]`. -/
def IoapicRegs.window (r : IoapicRegs) : BitVec 32 := r.reg r.sel

/-- `ioapic_addr[4] = value`. -/
def IoapicRegs.setWindow (r : IoapicRegs) (value : BitVec 32) : IoapicRegs :=
  { r with reg := Function.update r.reg r.sel value }

/-- `ioapic_read(ioapic, reg)`. -/
def ioapicRead (hw : Ioapics) (ioapic : MadtIoapic) (reg : BitVec 8) : Ioapics × BitVec 32 :=
  let regs := (hw ioapic.address).select reg
  (Function.update hw ioapic.address regs, regs.window)

/-- `ioapic_write(ioapic, reg, value)`. -/
def ioapicWrite (hw : Ioapics) (ioapic : MadtIoapic) (reg : BitVec 8) (value : BitVec 32) :
    Ioapics :=
  Function.update hw ioapic.address (((hw ioapic.address).select reg).setWindow value)

/-- `IOAPIC_VER`. -/
def ioapicVer : BitVec 8 := 0x1

/-- `ioapic_gsi_count(ioapic)`. -/
def ioapicGsiCount (hw : Ioapics) (ioapic : MadtIoapic) : Ioapics × ℕ :=
  let (hw, ver) := ioapicRead hw ioapic ioapicVer
  (hw, ((ver >>> 16) &&& 0xff).toNat)

-- ---------------------------------------------------------------------------
-- Finding a controller
-- ---------------------------------------------------------------------------

/-- The loop of `ioapic_get_gsi`. The sum is a `u64` and does not wrap. -/
def getGsiBody (m : IoapicLists) (gsi : BitVec 32) (st : ℕ × Ioapics) :
    (ℕ × Ioapics) ⊕ (Ioapics × Option MadtIoapic) :=
  let (i, hw) := st
  if i < m.ioapics then
    let ioapic := m.ioapicList i
    -- the second operand of `&&` reads a register, the first does not
    if ioapic.gsiBase ≤ gsi then
      let (hw, count) := ioapicGsiCount hw ioapic
      if ioapic.gsiBase.toNat + count > gsi.toNat then .inr (hw, some ioapic)
      else .inl (i + 1, hw)
    else .inl (i + 1, hw)
  else .inr (hw, none)

/-- `ioapic_get_gsi(gsi)`; `none` for `NULL`. -/
def ioapicGetGsi (m : IoapicLists) (hw : Ioapics) (gsi : BitVec 32) :
    Ioapics × Option MadtIoapic :=
  (whileRun (getGsiBody m gsi) (m.ioapics + 1) (0, hw)).getD (hw, none)

/-- Every round goes on to the next controller. -/
theorem getGsiBody_next {m : IoapicLists} {gsi : BitVec 32} {st st' : ℕ × Ioapics}
    (h : getGsiBody m gsi st = .inl st') : st.1 < m.ioapics ∧ st'.1 = st.1 + 1 := by
  obtain ⟨i, hw⟩ := st
  unfold getGsiBody at h
  simp only at h
  split_ifs at h with hlt _ _
  all_goals
    rw [← Sum.inl.inj h]
    exact ⟨hlt, rfl⟩

/-- The loop of `ioapic_get_gsi` ends within the rounds it is given: every
round but the last goes on to the next controller, of which there are finitely
many. -/
theorem getGsi_returns (m : IoapicLists) (hw : Ioapics) (gsi : BitVec 32) :
    whileRun (getGsiBody m gsi) (m.ioapics + 1) (0, hw) = some (ioapicGetGsi m hw gsi) := by
  have hround : ∀ st st' : ℕ × Ioapics, st.1 ≤ m.ioapics → getGsiBody m gsi st = .inl st' →
      st'.1 ≤ m.ioapics ∧ m.ioapics - st'.1 < m.ioapics - st.1 := by
    intro st st' _ hstep
    obtain ⟨hlt, hnext⟩ := getGsiBody_next hstep
    omega
  have hfuel : m.ioapics - ((0, hw) : ℕ × Ioapics).1 < m.ioapics + 1 := by
    show m.ioapics - 0 < m.ioapics + 1
    omega
  obtain ⟨result, -, hrun, -⟩ := whileRun_total (fun st : ℕ × Ioapics => m.ioapics - st.1)
    (Nat.zero_le m.ioapics) hround hfuel
  unfold ioapicGetGsi
  rw [hrun]
  rfl

-- ---------------------------------------------------------------------------
-- Redirection
-- ---------------------------------------------------------------------------

/-- The redirection entry that `ioapic_redirect_gsi` assembles. -/
def redirection (lapicId : BitVec 32) (vector : BitVec 8) (flags : BitVec 16) (mask : Bool) :
    BitVec 64 :=
  let redirect : BitVec 64 := vector.setWidth 64
  let redirect := if flags &&& 1#16 <<< 1 ≠ 0 then redirect ||| 1#64 <<< 13 else redirect
  let redirect := if flags &&& 1#16 <<< 3 ≠ 0 then redirect ||| 1#64 <<< 15 else redirect
  let redirect := if mask then redirect ||| 1#64 <<< 16 else redirect &&& ~~~(1#64 <<< 16)
  redirect ||| (lapicId.setWidth 64 <<< 56)

/-- `ioapic_redirect_gsi(lapic_id, vector, gsi, flags, mask)`. -/
def ioapicRedirectGsi (m : IoapicLists) (hw : Ioapics) (lapicId : BitVec 32) (vector : BitVec 8)
    (gsi : BitVec 32) (flags : BitVec 16) (mask : Bool) : Option Ioapics :=
  match ioapicGetGsi m hw gsi with
  | (_, none) => none
  | (hw, some ioapic) =>
    let redirect := redirection lapicId vector flags mask
    let redirectTable : BitVec 32 := (gsi - ioapic.gsiBase) * 2 + 16
    let hw := ioapicWrite hw ioapic (redirectTable.setWidth 8) (redirect.setWidth 32)
    some (ioapicWrite hw ioapic ((redirectTable + 1).setWidth 8) ((redirect >>> 32).setWidth 32))

/-- The loop of `ioapic_redirect_irq`, with its `u8` index. -/
def redirectIrqBody (m : IoapicLists) (hw : Ioapics) (lapicId : BitVec 32) (vector irq : BitVec 8)
    (mask : Bool) (index : BitVec 8) : BitVec 8 ⊕ Option Ioapics :=
  if index.toNat < m.isos then
    let iso := m.isoList index.toNat
    if iso.irqSource = irq then
      .inr (ioapicRedirectGsi m hw lapicId vector iso.gsi iso.flags mask)
    else .inl (index + 1)
  else .inr (ioapicRedirectGsi m hw lapicId vector (irq.setWidth 32) 0 mask)

/-- `ioapic_redirect_irq(lapic_id, vector, irq, mask)`, for at most `fuel`
rounds of its loop. -/
def ioapicRedirectIrq (m : IoapicLists) (hw : Ioapics) (lapicId : BitVec 32)
    (vector irq : BitVec 8) (mask : Bool) (fuel : ℕ) : Option (Option Ioapics) :=
  whileRun (redirectIrqBody m hw lapicId vector irq mask) fuel 0

-- ---------------------------------------------------------------------------
-- Interrupts
-- ---------------------------------------------------------------------------

/-- Entry `line` of the controller is not masked and programmed to the vector. -/
structure Raises (hw : Ioapics) (ioapic : MadtIoapic) (line : ℕ) (vector : BitVec 8) : Prop where
  unmasked : ((hw ioapic.address).reg (BitVec.ofNat 8 (16 + 2 * line))).getLsbD 16 = false
  vector : ((hw ioapic.address).reg (BitVec.ofNat 8 (16 + 2 * line))).setWidth 8 = vector

end Medlar64
