import Mathlib.Algebra.Group.Nat.Defs
import Mathlib.Tactic.Common

/-!
# Medlar64 — the devices behind the interrupt handlers (`lapic.c`, `pit.c`)

What the interrupt handlers read and write: the byte at the keyboard's port,
the globals of `kb.c` and `pit.c`, and the local APIC.

* `lapicEoi`, `Lapic.eois` — `lapic_eoi` and how often it was called.
* `pitHandler` — `pit_handler`.
-/

namespace Medlar64

-- ---------------------------------------------------------------------------
-- The local APIC
-- ---------------------------------------------------------------------------

/-- `LAPIC_EOI`. -/
def lapicEoiReg : BitVec 32 := 0xb0

/-- The local APIC, by the writes to its registers. -/
structure Lapic where
  writes : List (BitVec 32 × BitVec 32)

/-- `lapic_write(reg, value)`. -/
def lapicWrite (l : Lapic) (reg value : BitVec 32) : Lapic :=
  { writes := l.writes ++ [(reg, value)] }

/-- `lapic_eoi()`; the cast of the register to `u8` changes nothing. -/
def lapicEoi (l : Lapic) : Lapic := lapicWrite l (lapicEoiReg.setWidth 8 |>.setWidth 32) 0

/-- How many interrupts were acknowledged. -/
def Lapic.eois (l : Lapic) : ℕ := (l.writes.filter fun w => w.1 = lapicEoiReg).length

/-- A call of `lapic_eoi` is one write to the EOI register, whose number the
call casts to eight bits without changing it. -/
theorem eois_lapicEoi (l : Lapic) : (lapicEoi l).eois = l.eois + 1 := by
  unfold Lapic.eois lapicEoi lapicWrite
  rw [List.filter_append, List.length_append]
  rfl

-- ---------------------------------------------------------------------------
-- The globals of the handlers
-- ---------------------------------------------------------------------------

/-- The globals of `kb.c`. -/
structure Kb where
  keyPressed : Bool
  char : BitVec 8
  caps : Bool
  ctrl : Bool
  shift : Bool

/-- The globals of `kb.c` as they are initialised. -/
def Kb.init : Kb :=
  { keyPressed := false, char := 0, caps := false, ctrl := false, shift := false }

/-- What the handlers touch; `port60` is what `inb(0x60)` reads. -/
structure Devices where
  port60 : BitVec 8
  kb : Kb
  pitTicks : BitVec 64
  lapic : Lapic

-- ---------------------------------------------------------------------------
-- The timer
-- ---------------------------------------------------------------------------

/-- `pit_handler(r)`. -/
def pitHandler (d : Devices) : Option Devices :=
  some { d with pitTicks := d.pitTicks + 1, lapic := lapicEoi d.lapic }

theorem pitHandler_eoi {d d' : Devices} (h : pitHandler d = some d') :
    d'.lapic.eois = d.lapic.eois + 1 := by
  obtain rfl := Option.some.inj h
  exact eois_lapicEoi d.lapic

end Medlar64
