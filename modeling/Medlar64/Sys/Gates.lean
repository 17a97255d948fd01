import Mathlib.Logic.Function.Iterate
import Medlar64.Lib.Loop
import Medlar64.Sys.Stubs

/-!
# Medlar64 — the interrupt descriptor table (`idt_init` in `idt.c`)

`idt_init` writes a gate for every vector. The processor reads the gate of an
interrupt from memory and goes on at the stub that it names.

* `idtSetEntry`, `idtInit` — the source functions.
* `readDescriptor`, `Cpu.interrupt` — what the processor does with the table.
* `readDescriptor_idtInit` — the gate of each vector.
* `Cpu.run_interrupt` — one interrupt, with all the memory that it writes.
* `interrupts_erased` — code of the kernel does not see the interrupts that fall
  between its steps.
-/

namespace Medlar64

-- ---------------------------------------------------------------------------
-- The table
-- ---------------------------------------------------------------------------

/-- `idt_set_entry(vector, isr, flags)`, with `idt_entries` at `idt`. -/
def idtSetEntry (m : Memory) (idt : ℕ) (vector : BitVec 8) (isr : BitVec 64) (flags : BitVec 8) :
    Memory :=
  let entry := idt + 16 * vector.toNat
  let m := storeLE m entry 2 (isr &&& 0xffff).toNat
  let m := storeLE m (entry + 2) 2 0x28
  let m := storeLE m (entry + 4) 1 0
  let m := storeLE m (entry + 5) 1 flags.toNat
  let m := storeLE m (entry + 6) 2 (isr >>> 16 &&& 0xffff).toNat
  let m := storeLE m (entry + 8) 4 (isr >>> 32 &&& 0xffffffff).toNat
  storeLE m (entry + 12) 4 0

/-- `idt_int_table[i]` -/
def intTable (m : Memory) (table i : ℕ) : BitVec 64 := BitVec.ofNat 64 (loadLE m (table + 8 * i) 8)

/-- The second argument of `idt_set_entry` in the loop. -/
def gateFlags (i : ℕ) : BitVec 8 := if i = 0x80 then 0xee else 0x8e

/-- The loop of `idt_init`. -/
def idtInit (m : Memory) (idt table : ℕ) : Memory :=
  forUp (fun i m => idtSetEntry m idt (BitVec.ofNat 8 i) (intTable m table i) (gateFlags i)) 256 m

/-- `idtr` -/
structure Idtr where
  size : ℕ
  offset : ℕ

/-- `idt_descriptor` -/
def idtDescriptor (idt : ℕ) : Idtr := ⟨16 * 256 - 1, idt⟩

-- ---------------------------------------------------------------------------
-- The processor
-- ---------------------------------------------------------------------------

/-- A gate as the processor reads it. -/
structure Descriptor where
  offset : BitVec 64
  segment : BitVec 16
  ist : ℕ
  /-- 14 is an interrupt gate. -/
  kind : ℕ
  dpl : ℕ
  present : Bool

def readDescriptor (m : Memory) (entry : ℕ) : Descriptor where
  offset := BitVec.ofNat 64 (loadLE m entry 2 + 2 ^ 16 * loadLE m (entry + 6) 2 +
    2 ^ 32 * loadLE m (entry + 8) 4)
  segment := BitVec.ofNat 16 (loadLE m (entry + 2) 2)
  ist := loadLE m (entry + 4) 1 % 8
  kind := loadLE m (entry + 5) 1 % 32
  dpl := loadLE m (entry + 5) 1 / 32 % 4
  present := loadLE m (entry + 5) 1 / 128 == 1

/-- An interrupt of a device, whether or not IF is set, or of the instruction
`int`. -/
structure Interrupt where
  vector : BitVec 8
  error : BitVec 64

/-- The privilege of the code that runs. -/
def Cpu.cpl (c : Cpu) : ℕ := c.cs.toNat % 4

/-- The gate of an interrupt; `none` is a fault. The stack is the one in use: the
other privileges need a stack from a task state, and `gdt` describes none. -/
def Cpu.gate (c : Cpu) (r : Idtr) (i : Interrupt) : Option Gate :=
  if r.size < 16 * i.vector.toNat + 15 then none
  else
    let d := readDescriptor c.mem (r.offset + 16 * i.vector.toNat)
    if d.present = true ∧ d.kind = 14 ∧ d.segment = 0x28 ∧ d.ist = 0 ∧ c.cpl = 0 then
      some ⟨d.offset, c.rsp, c.ss⟩
    else none

/-- An interrupt until it returns, `text` being the code by its address and `h`
the handlers. -/
def Cpu.interrupt (text : BitVec 64 → Option (List Instr)) (r : Idtr) (c : Cpu) (i : Interrupt)
    (h : Callee → Cpu → Cpu) : Option Cpu := do
  let g ← c.gate r i
  let code ← text g.isr
  some (run h code (c.deliver g i.vector i.error))

-- ---------------------------------------------------------------------------
-- The gates
-- ---------------------------------------------------------------------------

section Table

variable {m : Memory} {idt table : ℕ}

/-- A gate that is written occupies its 16 bytes. -/
theorem idtSetEntry_outside {vector : BitVec 8} {isr : BitVec 64} {flags : BitVec 8} {x : ℕ}
    (h : x < idt + 16 * vector.toNat ∨ idt + 16 * vector.toNat + 16 ≤ x) :
    idtSetEntry m idt vector isr flags x = m x := by
  rw [idtSetEntry]
  repeat rw [storeLE_outside (by omega)]

/-- The parts of an address, put together. -/
theorem offset_parts (isr : BitVec 64) :
    BitVec.ofNat 64 ((isr &&& 0xffff).toNat % 256 ^ 2 +
      2 ^ 16 * ((isr >>> 16 &&& 0xffff).toNat % 256 ^ 2) +
      2 ^ 32 * ((isr >>> 32 &&& 0xffffffff).toNat % 256 ^ 4)) = isr := by
  have hlt := isr.isLt
  have hlow : ∀ w : BitVec 64, (w &&& 0xffff).toNat = w.toNat % 2 ^ 16 := by
    intro w
    rw [BitVec.toNat_and]
    exact Nat.and_two_pow_sub_one_eq_mod w.toNat 16
  have hhigh : (isr >>> 32 &&& 0xffffffff).toNat = (isr >>> 32).toNat % 2 ^ 32 := by
    rw [BitVec.toNat_and]
    exact Nat.and_two_pow_sub_one_eq_mod _ 32
  rw [hlow, hlow, hhigh, BitVec.toNat_ushiftRight, BitVec.toNat_ushiftRight,
    Nat.shiftRight_eq_div_pow, Nat.shiftRight_eq_div_pow]
  apply BitVec.eq_of_toNat_eq
  rw [BitVec.toNat_ofNat]
  omega

/-- What `idt_set_entry` writes, read back. -/
theorem readDescriptor_idtSetEntry (m : Memory) (idt : ℕ) (vector : BitVec 8) (isr : BitVec 64)
    (flags : BitVec 8) :
    readDescriptor (idtSetEntry m idt vector isr flags) (idt + 16 * vector.toNat) =
      ⟨isr, 0x28, 0, flags.toNat % 32, flags.toNat / 32 % 4, flags.toNat / 128 == 1⟩ := by
  have hflags : flags.toNat % 256 ^ 1 = flags.toNat := Nat.mod_eq_of_lt flags.isLt
  rw [idtSetEntry, readDescriptor]
  -- each field is read from its own store, the others are apart from it
  simp (disch := omega) only [loadLE_storeLE_disjoint, loadLE_storeLE, hflags]
  rw [offset_parts]
  rfl

/-- The stub of a vector. -/
def stubAddress (m : Memory) (table : ℕ) (n : BitVec 8) : BitVec 64 := intTable m table n.toNat

/-- The gate of a vector: a kernel interrupt gate to its stub, which a program
may use itself for the vector 0x80 only. -/
def vectorGate (m : Memory) (table : ℕ) (n : BitVec 8) : Descriptor :=
  ⟨stubAddress m table n, 0x28, 0, 14, if n = 0x80 then 3 else 0, true⟩

/-- The flags of `idt_init` say an interrupt gate that is present; only vector
`0x80` may be called from user mode. -/
theorem gateFlags_fields (n : BitVec 8) :
    (gateFlags n.toNat).toNat % 32 = 14 ∧
      (gateFlags n.toNat).toNat / 32 % 4 = (if n = 0x80 then 3 else 0) ∧
      ((gateFlags n.toNat).toNat / 128 == 1) = true := by
  revert n
  decide +kernel

/-- The gate of a vector is read from its 16 bytes alone. -/
theorem readDescriptor_congr {m m' : Memory} {entry : ℕ}
    (h : ∀ x, entry ≤ x → x < entry + 16 → m x = m' x) :
    readDescriptor m entry = readDescriptor m' entry := by
  have hload : ∀ d k, d + k ≤ 16 → loadLE m (entry + d) k = loadLE m' (entry + d) k := by
    intro d k hd
    exact loadLE_congr fun x hlo hhi => h x (by omega) (by omega)
  have hlow : loadLE m entry 2 = loadLE m' entry 2 := hload 0 2 (by omega)
  rw [readDescriptor, readDescriptor, hlow, hload 2 2 (by omega), hload 4 1 (by omega),
    hload 5 1 (by omega), hload 6 2 (by omega), hload 8 4 (by omega)]

/-- What the loop has done after `k` rounds. -/
structure GatesUpTo (m : Memory) (idt table k : ℕ) (t : Memory) : Prop where
  gates : ∀ n : BitVec 8, n.toNat < k →
    readDescriptor t (idt + 16 * n.toNat) = vectorGate m table n
  outside : ∀ x, x < idt ∨ idt + 16 * k ≤ x → t x = m x

/-- **The gate of each vector**, when the table of the stubs is apart. By the
invariant of the loop: after `i` rounds the first `i` gates are right and
nothing outside the table of gates has been written, so the addresses of the
stubs are still there. -/
theorem readDescriptor_idtInit (hapart : table + 2048 ≤ idt ∨ idt + 4096 ≤ table) (n : BitVec 8) :
    readDescriptor (idtInit m idt table) (idt + 16 * n.toNat) = vectorGate m table n := by
  have hrun : GatesUpTo m idt table 256 (idtInit m idt table) := by
    refine forUp_inv (GatesUpTo m idt table) ⟨fun n hn => absurd hn (Nat.not_lt_zero _),
      fun _ _ => rfl⟩ ?_
    intro i t hi h
    have hvector : (BitVec.ofNat 8 i).toNat = i := by
      rw [BitVec.toNat_ofNat, Nat.mod_eq_of_lt hi]
    -- the address of the stub is not overwritten
    have hstub : intTable t table i = intTable m table i := by
      rw [intTable, intTable, loadLE_congr fun x hlo hhi => h.outside x (by omega)]
    constructor
    · intro n hn
      by_cases hlast : n = BitVec.ofNat 8 i
      · obtain ⟨hkind, hdpl, hpresent⟩ := gateFlags_fields (BitVec.ofNat 8 i)
        rw [hvector] at hkind hdpl hpresent
        rw [hlast, readDescriptor_idtSetEntry, hkind, hdpl, hpresent, hstub, vectorGate,
          stubAddress, hvector]
      · have hne : n.toNat ≠ i := by
          intro heq
          exact hlast (BitVec.eq_of_toNat_eq (heq.trans hvector.symm))
        rw [← h.gates n (by omega)]
        refine readDescriptor_congr fun x hlo hhi => idtSetEntry_outside ?_
        rw [hvector]
        omega
    · intro x hx
      rw [idtSetEntry_outside (by rw [hvector]; omega)]
      exact h.outside x (by omega)
  exact hrun.gates n n.isLt

/-- The table is in memory as `idt_init` has left it. -/
def TableKept (idt : ℕ) (t m : Memory) : Prop := ∀ x, idt ≤ x → x < idt + 4096 → m x = t x

/-- Where an interrupt of the kernel goes: to the stub of its vector, on the
stack in use, as long as the table is as `idt_init` left it and the code runs
in ring 0. -/
theorem gate_eq (hapart : table + 2048 ≤ idt ∨ idt + 4096 ≤ table) {c : Cpu}
    (hkept : TableKept idt (idtInit m idt table) c.mem) (hcpl : c.cpl = 0) (i : Interrupt) :
    c.gate (idtDescriptor idt) i = some ⟨stubAddress m table i.vector, c.rsp, c.ss⟩ := by
  have hlt := i.vector.isLt
  have hread : readDescriptor c.mem ((idtDescriptor idt).offset + 16 * i.vector.toNat) =
      vectorGate m table i.vector := by
    show readDescriptor c.mem (idt + 16 * i.vector.toNat) = _
    rw [← readDescriptor_idtInit hapart]
    exact readDescriptor_congr fun x hlo hhi => hkept x (by omega) (by omega)
  have hsize : ¬(idtDescriptor idt).size < 16 * i.vector.toNat + 15 := by
    show ¬16 * 256 - 1 < 16 * i.vector.toNat + 15
    omega
  unfold Cpu.gate
  rw [if_neg hsize]
  simp only [hread]
  exact if_pos ⟨rfl, rfl, rfl, rfl, hcpl⟩

end Table

-- ---------------------------------------------------------------------------
-- The memory of an interrupt
-- ---------------------------------------------------------------------------

/-- `k` bytes have been pushed below `base`, and no others are written. -/
structure Pushed (m : Memory) (base k : ℕ) (c : Cpu) : Prop where
  rsp : c.rsp.toNat + k = base
  kept : ∀ x, x + k < base ∨ base ≤ x → c.mem x = m x

section Pushed

variable {m : Memory} {base k : ℕ} {c : Cpu} {h : Callee → Cpu → Cpu}

/-- Instructions that leave memory and stack pointer alone push nothing. -/
theorem Pushed.congr {c' : Cpu} (hc : Pushed m base k c) (hmem : c'.mem = c.mem)
    (hrsp : c'.rsp = c.rsp) : Pushed m base k c' := by
  constructor
  · rw [hrsp]
    exact hc.rsp
  · rw [hmem]
    exact hc.kept

/-- One more word on the stack; memory changes below it only. -/
theorem Pushed.push (hc : Pushed m base k c) (hroom : k + 8 ≤ base) (w : BitVec 64) :
    Pushed m base (k + 8) (c.push w) := by
  have hrsp := hc.rsp
  have hlt := c.rsp.isLt
  have hbelow : (c.rsp - 8).toNat + 8 = c.rsp.toNat := by
    rw [below_toNat]
    omega
  constructor
  · show (c.rsp - 8).toNat + (k + 8) = base
    omega
  · intro x hx
    show storeLE c.mem (c.rsp - 8).toNat 8 w.toNat x = m x
    rw [storeLE_outside (by omega)]
    exact hc.kept x (by omega)

/-- The same for a list of registers. -/
theorem Pushed.pushes (rs : List Reg) (hc : Pushed m base k c)
    (hroom : k + 8 * rs.length ≤ base) :
    Pushed m base (k + 8 * rs.length) (run h (rs.map .push) c) := by
  induction rs generalizing c k with
  | nil => exact hc
  | cons r rs ih =>
    rw [List.length_cons] at hroom ⊢
    rw [List.map_cons, run_cons, show k + 8 * (rs.length + 1) = k + 8 + 8 * rs.length by omega]
    exact ih (hc.push (by omega) (c.gpr r)) (by omega)

/-- The processor pushes the five words of the interrupt frame. -/
theorem frame_pushed (c : Cpu) (g : Gate) (hroom : 40 ≤ g.base) :
    Pushed c.mem g.base 40 (c.frame g) := by
  have hempty : Pushed c.mem g.base 0 { c with rsp := g.stack &&& ~~~15 } :=
    ⟨rfl, fun _ _ => rfl⟩
  exact ((((hempty.push (by omega) _).push (by omega) _).push (by omega) _).push (by omega) _).push
    (by omega) _

/-- And the error code behind them, for the vectors that have one. -/
theorem deliver_pushed (c : Cpu) (g : Gate) (n : BitVec 8) (error : BitVec 64)
    (hroom : 48 ≤ g.base) :
    Pushed c.mem g.base (if HasError n then 48 else 40) (c.deliver g n error) := by
  have hframe := frame_pushed c g (by omega)
  unfold Cpu.deliver
  split_ifs with herror
  · exact (hframe.push (by omega) error).congr rfl rfl
  · exact hframe.congr rfl rfl

/-- Up to the call, an interrupt writes the 176 bytes of its frame: five words
of the processor, two for error code and vector, and fifteen registers. -/
theorem atCall_pushed (c : Cpu) (g : Gate) (n : BitVec 8) (error : BitVec 64)
    (hroom : 176 ≤ g.base) : Pushed c.mem g.base 176 (atCall n (c.deliver g n error)) := by
  rw [atCall_eq n fun _ c => c, run_append, run_append]
  -- the vector and the error code, from the processor or from the stub
  have hpushes : Pushed c.mem g.base 56
      (run (fun _ c => c) (errorPushes n) (c.deliver g n error)) := by
    have hdeliver := deliver_pushed c g n error (by omega)
    unfold errorPushes
    split_ifs at hdeliver ⊢ with herror
    · exact hdeliver.push (by omega) _
    · exact (hdeliver.push (by omega) _).push (by omega) _
  have hregs := Pushed.pushes (h := fun _ c => c) pushOrder hpushes
    (show 56 + 8 * 15 ≤ g.base from hroom)
  rw [← irqPusha_eq] at hregs
  generalize run (fun _ c => c) irqPusha
    (run (fun _ c => c) (errorPushes n) (c.deliver g n error)) = c' at hregs ⊢
  -- `mov rdi, rsp` leaves the stack alone
  exact hregs.congr rfl rfl

theorem run_return_mem (c : Cpu) : (run h (irqPopa ++ [.addRsp 16, .iretq]) c).mem = c.mem := rfl

end Pushed

-- ---------------------------------------------------------------------------
-- One interrupt
-- ---------------------------------------------------------------------------

/-- Where the frame of an interrupt begins. -/
def Cpu.frameBase (c : Cpu) : ℕ := (c.rsp &&& ~~~15).toNat

/-- The kernel is interrupted where its stack has room for the frame, which does
not reach into the table. -/
structure Interruptible (idt : ℕ) (c : Cpu) : Prop where
  kernel : c.cpl = 0
  room : 176 ≤ c.frameBase
  apart : c.frameBase ≤ idt ∨ idt + 4096 + 176 ≤ c.frameBase

/-- The handler returns, and writes neither the table nor `own`. -/
structure Handled (idt : ℕ) (own : ℕ → Prop) (d d' : Cpu) : Prop where
  returns : Returns d d'
  table : TableKept idt d.mem d'.mem
  own : ∀ x, own x → d'.mem x = d.mem x

section Interrupt

variable {m : Memory} {idt table : ℕ} {text : BitVec 64 → Option (List Instr)}

/-- **One interrupt**, through the table in memory: it returns to the state that
it found, with the table, and with memory `own` that its frame does not reach. -/
theorem Cpu.run_interrupt (hapart : table + 2048 ≤ idt ∨ idt + 4096 ≤ table)
    {i : Interrupt} (htext : text (stubAddress m table i.vector) = some (intStub i.vector))
    (hvector : 32 ≤ i.vector.toNat) {c : Cpu} {h : Callee → Cpu → Cpu} {own : ℕ → Prop}
    (hready : Interruptible idt c) (hkept : TableKept idt (idtInit m idt table) c.mem)
    (hown : ∀ x, own x → x + 176 < c.frameBase ∨ c.frameBase ≤ x)
    (hhandled : ∀ d : Cpu, d.rsp.toNat + 176 = c.frameBase →
      Handled idt own d (h .irqHandler d)) :
    ∃ mem, c.interrupt text (idtDescriptor idt) i h = some { c with mem } ∧
      TableKept idt (idtInit m idt table) mem ∧ ∀ x, own x → mem x = c.mem x := by
  have hgate := gate_eq hapart hkept hready.kernel i
  generalize hg : (⟨stubAddress m table i.vector, c.rsp, c.ss⟩ : Gate) = g at hgate
  have hbase : g.base = c.frameBase := by rw [← hg, Gate.base, Cpu.frameBase]
  have hisr : text g.isr = some (intStub i.vector) := by rw [← hg, htext]
  have hpushed := atCall_pushed c g i.vector i.error (by rw [hbase]; exact hready.room)
  have hholds := (atCall_holds c g i.vector i.error).1
  have hcallee : stubCallee i.vector = .irqHandler := if_neg (by omega)
  have hrun := run_intStub i.vector h (c.deliver g i.vector i.error)
  rw [hcallee] at hrun
  rw [hbase] at hpushed
  generalize atCall i.vector (c.deliver g i.vector i.error) = d at hpushed hholds hrun
  obtain ⟨hreturns, htable, hmemory⟩ := hhandled d hpushed.rsp
  obtain ⟨mem, hback⟩ := run_return (h := h) (hreturns.holds hholds rfl)
  -- `run_return` does not say which memory; it is the one of the handler
  have hmem : mem = (h .irqHandler d).mem := by
    have hsame := run_return_mem (h := h) (h .irqHandler d)
    rw [hback] at hsame
    exact hsame
  refine ⟨mem, ?_, ?_, ?_⟩
  · unfold Cpu.interrupt
    rw [hgate]
    simp only [Option.bind_eq_bind, Option.bind_some, hisr, hrun, hback]
  · intro x hlo hhi
    have hapart := hready.apart
    rw [hmem, htable x hlo hhi, hpushed.kept x (by omega)]
    exact hkept x hlo hhi
  · intro x hx
    rw [hmem, hmemory x hx, hpushed.kept x (hown x hx)]

end Interrupt

-- ---------------------------------------------------------------------------
-- Interrupted code
-- ---------------------------------------------------------------------------

/-- The same registers, and the same memory where `own` holds. -/
structure SameView (own : ℕ → Prop) (c c' : Cpu) : Prop where
  registers : c' = { c with mem := c'.mem }
  memory : ∀ x, own x → c'.mem x = c.mem x

/-- Code of the kernel by its steps, from states that satisfy `ok`. With a given
stack pointer it sees the memory `own` and no other. -/
structure Code (idt : ℕ) where
  step : Cpu → Cpu
  ok : Cpu → Prop
  own : BitVec 64 → ℕ → Prop
  ready : ∀ c, ok c → Interruptible idt c
  /-- The memory is apart from the frame of an interrupt. -/
  frame : ∀ c, ok c → ∀ x, own c.rsp x → x + 176 < c.frameBase ∨ c.frameBase ≤ x
  ok_step : ∀ c, ok c → ok (step c)
  ok_view : ∀ c c', ok c → SameView (own c.rsp) c c' → ok c'
  step_view : ∀ c c', ok c → SameView (own c.rsp) c c' →
    SameView (own (step c).rsp) (step c) (step c')
  step_table : ∀ c, ok c → TableKept idt c.mem (step c).mem

inductive Event
  | step
  | interrupt (i : Interrupt) (h : Callee → Cpu → Cpu)

def Event.isStep : Event → Bool
  | step => true
  | interrupt _ _ => false

section Code

variable {m : Memory} {idt table : ℕ} {text : BitVec 64 → Option (List Instr)} (code : Code idt)

def Code.event (text : BitVec 64 → Option (List Instr)) (r : Idtr) (c : Cpu) :
    Event → Option Cpu
  | .step => some (code.step c)
  | .interrupt i h => c.interrupt text r i h

def Code.run (text : BitVec 64 → Option (List Instr)) (r : Idtr) (es : List Event) (c : Cpu) :
    Option Cpu :=
  es.foldlM (code.event text r) c

/-- The events that may happen: steps, and interrupts with a handler that leaves
the memory of the code alone. -/
def Code.Serves : Event → Prop
  | .step => True
  | .interrupt i h => 32 ≤ i.vector.toNat ∧ ∀ c d : Cpu, code.ok c →
      d.rsp.toNat + 176 = c.frameBase → Handled idt (code.own c.rsp) d (h .irqHandler d)

/-- What the interrupted run `c'` has in common with the run `c` of the code
alone. -/
structure Code.Follows (t : Memory) (c c' : Cpu) : Prop where
  ok : code.ok c
  view : SameView (code.own c.rsp) c c'
  table : TableKept idt t c'.mem

variable {code}

/-- A step of the interrupted code keeps the two processors together, and the
table where it is. -/
theorem Code.Follows.step {t : Memory} {c c' : Cpu} (hf : code.Follows t c c') :
    code.Follows t (code.step c) (code.step c') where
  ok := code.ok_step c hf.ok
  view := code.step_view c c' hf.ok hf.view
  table := by
    intro x hlo hhi
    rw [code.step_table c' (code.ok_view c c' hf.ok hf.view) x hlo hhi]
    exact hf.table x hlo hhi

/-- An interrupt changes nothing that the code sees: it is below the stack
pointer that the stub writes, and the handler keeps off what the code owns and
off the table. -/
theorem Code.Follows.interrupt (hapart : table + 2048 ≤ idt ∨ idt + 4096 ≤ table)
    (htext : ∀ n, text (stubAddress m table n) = some (intStub n)) {c c' : Cpu}
    (hf : code.Follows (idtInit m idt table) c c') {i : Interrupt} {h : Callee → Cpu → Cpu}
    (hserves : code.Serves (.interrupt i h)) :
    ∃ d', c'.interrupt text (idtDescriptor idt) i h = some d' ∧
      code.Follows (idtInit m idt table) c d' := by
  obtain ⟨hvector, hhandled⟩ := hserves
  have hok := code.ok_view c c' hf.ok hf.view
  have hrsp : c'.rsp = c.rsp := by rw [hf.view.registers]
  obtain ⟨mem, hrun, htable, hmemory⟩ := Cpu.run_interrupt hapart (htext i.vector) hvector
    (code.ready c' hok) hf.table (code.frame c' hok) fun d hd => hhandled c' d hok hd
  refine ⟨_, hrun, hf.ok, ⟨?_, ?_⟩, htable⟩
  · rw [hf.view.registers]
  · intro x hx
    rw [← hf.view.memory x hx]
    exact hmemory x (by rw [hrsp]; exact hx)

/-- **Interrupts are invisible to the code.** However they fall between its steps,
every one is served through the table of `idt_init`, and the code goes through
the states that it goes through alone. -/
theorem interrupts_erased (hapart : table + 2048 ≤ idt ∨ idt + 4096 ≤ table)
    (htext : ∀ n, text (stubAddress m table n) = some (intStub n)) (es : List Event)
    (hserves : ∀ e ∈ es, code.Serves e) {c c' : Cpu}
    (hf : code.Follows (idtInit m idt table) c c') :
    ∃ d', code.run text (idtDescriptor idt) es c' = some d' ∧
      code.Follows (idtInit m idt table) (code.step^[es.countP Event.isStep] c) d' := by
  -- on the events; only a step moves the run of the code alone
  induction es generalizing c c' with
  | nil => exact ⟨c', rfl, hf⟩
  | cons e es ih =>
    have hrest : ∀ e ∈ es, code.Serves e := fun e' he' => hserves e' (List.mem_cons_of_mem e he')
    cases e with
    | step =>
      obtain ⟨d', hrun, hd'⟩ := ih hrest hf.step
      refine ⟨d', hrun, ?_⟩
      rw [List.countP_cons_of_pos (by simp [Event.isStep]), Function.iterate_succ_apply]
      exact hd'
    | interrupt i h =>
      obtain ⟨b', hserved, hb'⟩ :=
        hf.interrupt hapart htext (hserves (.interrupt i h) List.mem_cons_self)
      obtain ⟨d', hrun, hd'⟩ := ih hrest hb'
      refine ⟨d', ?_, ?_⟩
      · show (c'.interrupt text (idtDescriptor idt) i h).bind _ = some d'
        rw [hserved]
        exact hrun
      · rw [List.countP_cons_of_neg (by simp [Event.isStep])]
        exact hd'

end Code

/-- A loop that counts in `rax`, with the stack above its pointer. -/
def tally : Code 0 where
  step c := { c with gpr := Function.update c.gpr .rax (c.gpr .rax + 1) }
  ok c := c.cs = 0x28 ∧ c.rsp = interrupted.rsp
  own rsp x := rsp.toNat ≤ x
  ready := by
    rintro c ⟨hcs, hrsp⟩
    have hbase : c.frameBase = 0xffff800000010ff0 := by
      rw [Cpu.frameBase, hrsp]
      decide
    refine ⟨?_, by omega, by omega⟩
    rw [Cpu.cpl, hcs]
    rfl
  frame := by
    rintro c ⟨-, hrsp⟩ x hx
    have hbase : c.frameBase ≤ c.rsp.toNat := by
      rw [Cpu.frameBase, hrsp]
      decide
    exact Or.inr (Nat.le_trans hbase hx)
  ok_step := fun _ hok => hok
  ok_view := by
    rintro c c' ⟨hcs, hrsp⟩ hview
    rw [hview.registers]
    exact ⟨hcs, hrsp⟩
  step_view := by
    intro c c' _ hview
    refine ⟨?_, hview.memory⟩
    rw [hview.registers]
  step_table := fun _ _ _ _ _ => rfl

/-- The stub of the vector `n` at the address `n`, in a table at 8192. -/
def stubTable : Memory := fun x => if x % 8 = 0 then BitVec.ofNat 8 ((x - 8192) / 8) else 0

theorem stubTable_address : ∀ n, stubAddress stubTable 8192 n = n.setWidth 64 := by
  decide +kernel

/-- A handler that leaves nothing in the registers. -/
def forgetful (_ : Callee) (c : Cpu) : Cpu := { c with gpr := fun _ => 0, rflags := 0 }

/-- The code of the stubs in this table. -/
def stubText (a : BitVec 64) : Option (List Instr) := some (intStub (a.setWidth 8))

/-- The keyboard and `int 0x80` between two steps of the loop: it counts to
two as if there had been no interrupt, although the handler clears every
register. -/
theorem interrupts_erased_tally :
    ∃ d, tally.run stubText (idtDescriptor 0)
        [.step, .interrupt ⟨33, 0⟩ forgetful, .interrupt ⟨128, 0⟩ forgetful, .step]
        { interrupted with mem := idtInit stubTable 0 8192 } = some d ∧ d.gpr .rax = 2 := by
  have htext : ∀ n, stubText (stubAddress stubTable 8192 n) = some (intStub n) := by
    intro n
    rw [stubTable_address]
    simp [stubText]
  have hstart : tally.Follows (idtInit stubTable 0 8192)
      { interrupted with mem := idtInit stubTable 0 8192 }
      { interrupted with mem := idtInit stubTable 0 8192 } :=
    ⟨⟨rfl, rfl⟩, ⟨rfl, fun _ _ => rfl⟩, fun _ _ _ => rfl⟩
  have hinterrupt : ∀ i : Interrupt, 32 ≤ i.vector.toNat →
      tally.Serves (.interrupt i forgetful) := fun i hi =>
    ⟨hi, fun _ _ _ _ => ⟨⟨rfl, fun _ _ => rfl⟩, fun _ _ _ => rfl, fun _ _ => rfl⟩⟩
  have hserves : ∀ e ∈ [.step, .interrupt ⟨33, 0⟩ forgetful, .interrupt ⟨128, 0⟩ forgetful, .step],
      tally.Serves e := by
    simp only [List.forall_mem_cons, List.not_mem_nil, false_implies, implies_true, and_true]
    exact ⟨trivial, hinterrupt ⟨33, 0⟩ (by decide), hinterrupt ⟨128, 0⟩ (by decide), trivial⟩
  obtain ⟨d, hrun, hd⟩ := interrupts_erased (Or.inr (by omega)) htext _ hserves hstart
  refine ⟨d, hrun, ?_⟩
  rw [hd.view.registers]
  rfl

end Medlar64
