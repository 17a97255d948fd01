import Medlar64.Lib.Stack

/-!
# Medlar64 — the interrupt stubs (`idt.asm`)

The processor pushes the interrupted state, a stub pushes the vector and the
general registers and passes the stack pointer to the handler. A stub for a
vector without an error code pushes 0 in its place; the C structure `regs` has
no field for that word.

* `Cpu.deliver`, `intStub` — the interrupt and the stub of a vector.
* `atCall_holds` — the stack at the call of the handler.
* `regs_match_iff` — `regs` shows the interrupted state if and only if the
  words that it shows one slot off happen to be equal.
* `irq_invisible` — after the stub everything is as the interrupt found it.
-/

namespace Medlar64

-- ---------------------------------------------------------------------------
-- The machine
-- ---------------------------------------------------------------------------

/-- The general registers that the stubs save. -/
inductive Reg
  | rax | rcx | rdx | rbx | rbp | rsi | rdi | r8 | r9 | r10 | r11 | r12 | r13 | r14 | r15
  deriving DecidableEq

/-- A processor and the memory its stack is in. Within a stub `rip` is not
tracked. -/
structure Cpu where
  gpr : Reg → BitVec 64
  rsp : BitVec 64
  rip : BitVec 64
  cs : BitVec 16
  ss : BitVec 16
  rflags : BitVec 64
  mem : Memory

/-- The C functions that the stubs call. -/
inductive Callee
  | isrHandler | irqHandler
  deriving DecidableEq

inductive Instr
  | push (r : Reg)
  | pushImm (v : BitVec 64)
  | pop (r : Reg)
  /-- `mov rdi, rsp`. -/
  | movRdiRsp
  | call (f : Callee)
  /-- `add rsp, n`. -/
  | addRsp (n : BitVec 64)
  | iretq
  deriving DecidableEq

def Cpu.push (c : Cpu) (w : BitVec 64) : Cpu :=
  { c with mem := pushWord c.mem c.rsp w, rsp := c.rsp - 8 }

/-- One instruction; `h` says what a call of a C function does until it
returns. The flags that `add` sets are not read before `iretq` loads them. -/
def exec (h : Callee → Cpu → Cpu) (c : Cpu) : Instr → Cpu
  | .push r => c.push (c.gpr r)
  | .pushImm v => c.push v
  | .pop r =>
    { c with gpr := Function.update c.gpr r (wordAt c.mem c.rsp 0), rsp := c.rsp + 8 }
  | .movRdiRsp => { c with gpr := Function.update c.gpr .rdi c.rsp }
  | .call f => h f c
  | .addRsp n => { c with rsp := c.rsp + n }
  | .iretq =>
    { c with
      rip := wordAt c.mem c.rsp 0
      cs := (wordAt c.mem c.rsp 1).setWidth 16
      rflags := wordAt c.mem c.rsp 2
      rsp := wordAt c.mem c.rsp 3
      ss := (wordAt c.mem c.rsp 4).setWidth 16 }

def run (h : Callee → Cpu → Cpu) (is : List Instr) (c : Cpu) : Cpu := is.foldl (exec h) c

-- ---------------------------------------------------------------------------
-- The stubs
-- ---------------------------------------------------------------------------

/-- `irq_pusha`. -/
def irqPusha : List Instr :=
  [.push .rax, .push .rcx, .push .rdx, .push .rbx, .push .rbp, .push .rsi, .push .rdi,
    .push .r8, .push .r9, .push .r10, .push .r11, .push .r12, .push .r13, .push .r14, .push .r15]

/-- `irq_popa`. -/
def irqPopa : List Instr :=
  [.pop .r15, .pop .r14, .pop .r13, .pop .r12, .pop .r11, .pop .r10, .pop .r9, .pop .r8,
    .pop .rdi, .pop .rsi, .pop .rbp, .pop .rbx, .pop .rdx, .pop .rcx, .pop .rax]

/-- `isr_no_err_stub`. -/
def isrNoErrStub (n : BitVec 8) : List Instr :=
  [.pushImm 0, .pushImm (n.setWidth 64)] ++ irqPusha ++ [.movRdiRsp, .call .isrHandler] ++
    irqPopa ++ [.addRsp 16, .iretq]

/-- `isr_err_stub`. -/
def isrErrStub (n : BitVec 8) : List Instr :=
  [.pushImm (n.setWidth 64)] ++ irqPusha ++ [.movRdiRsp, .call .isrHandler] ++
    irqPopa ++ [.addRsp 16, .iretq]

/-- `irq_stub`. -/
def irqStub (n : BitVec 8) : List Instr :=
  [.pushImm 0, .pushImm (n.setWidth 64)] ++ irqPusha ++ [.movRdiRsp, .call .irqHandler] ++
    irqPopa ++ [.addRsp 16, .iretq]

/-- The vectors declared with `isr_err_stub`. -/
def HasError (n : BitVec 8) : Prop := n ∈ [8, 10, 11, 12, 13, 14, 17, 30]

instance (n : BitVec 8) : Decidable (HasError n) := inferInstanceAs (Decidable (_ ∈ _))

/-- `idt_int_table[n]`. -/
def intStub (n : BitVec 8) : List Instr :=
  if HasError n then isrErrStub n else if n.toNat < 32 then isrNoErrStub n else irqStub n

-- ---------------------------------------------------------------------------
-- The interrupt
-- ---------------------------------------------------------------------------

/-- Where the processor goes on: the offset of the gate, the stack, which is
another one than before from user mode, and its segment. -/
structure Gate where
  isr : BitVec 64
  stack : BitVec 64
  ss : BitVec 16

/-- The word for the error code: the code that the processor pushes, or the 0
of the stub. -/
def errorWord (n : BitVec 8) (error : BitVec 64) : BitVec 64 := if HasError n then error else 0

/-- The frame that the processor pushes, on a stack aligned to 16 bytes. -/
def Cpu.frame (c : Cpu) (g : Gate) : Cpu :=
  ((((({ c with rsp := g.stack &&& ~~~15 } : Cpu).push (c.ss.setWidth 64)).push c.rsp).push
    c.rflags).push (c.cs.setWidth 64)).push c.rip

/-- The interrupt `n`: an error code for some vectors, and the segment of
`idt_set_entry`. The gate clears the flags TF, IF, NT, RF and VM. -/
def Cpu.deliver (c : Cpu) (g : Gate) (n : BitVec 8) (error : BitVec 64) : Cpu :=
  { (if HasError n then (c.frame g).push error else c.frame g) with
    rip := g.isr
    cs := 0x28
    ss := g.ss
    rflags := c.rflags &&& ~~~0x34300 }

def Instr.isCall : Instr → Bool
  | call _ => true
  | _ => false

/-- The state at the call of the handler. -/
def atCall (n : BitVec 8) (c : Cpu) : Cpu :=
  run (fun _ c => c) ((intStub n).takeWhile fun i => !i.isCall) c

-- ---------------------------------------------------------------------------
-- The frame at the call
-- ---------------------------------------------------------------------------

/-- The words `ws` on a stack that begins at a multiple of 16. -/
structure Cpu.Holds (c : Cpu) (base : ℕ) (ws : List (BitVec 64)) : Prop where
  aligned : base % 16 = 0
  depth : (c.rsp.toNat + 8 * ws.length) % 2 ^ 64 = base
  words : StackHolds c.mem c.rsp ws

section Frame

variable {h : Callee → Cpu → Cpu} {c : Cpu} {base : ℕ} {ws : List (BitVec 64)}

/-- The stack pointer stays a multiple of eight below an aligned stack. -/
theorem Cpu.Holds.rsp_aligned (hc : c.Holds base ws) : c.rsp.toNat % 8 = 0 := by
  have haligned := hc.aligned
  have hdepth := hc.depth
  omega

/-- A push puts one word in front of those on the stack. -/
theorem Cpu.Holds.push (hc : c.Holds base ws) (hlen : ws.length < 2 ^ 61) (w : BitVec 64) :
    (c.push w).Holds base (w :: ws) where
  aligned := hc.aligned
  depth := by
    have hdepth := hc.depth
    show ((c.rsp - 8).toNat + 8 * (ws.length + 1)) % 2 ^ 64 = base
    rw [below_toNat]
    omega
  words := hc.words.push hc.rsp_aligned hlen w

/-- A register loaded from the top. -/
theorem Cpu.Holds.pop {w : BitVec 64} (hc : c.Holds base (w :: ws)) (gpr : Reg → BitVec 64) :
    ({ c with gpr, rsp := c.rsp + 8 } : Cpu).Holds base ws where
  aligned := hc.aligned
  depth := by
    have hdepth := hc.depth
    rw [List.length_cons] at hdepth
    show ((c.rsp + 8).toNat + 8 * ws.length) % 2 ^ 64 = base
    rw [BitVec.toNat_add, show (8 : BitVec 64).toNat = 8 from rfl]
    omega
  words := hc.words.pop

theorem run_append (is js : List Instr) (c : Cpu) : run h (is ++ js) c = run h js (run h is c) :=
  List.foldl_append

theorem run_cons (i : Instr) (is : List Instr) (c : Cpu) :
    run h (i :: is) c = run h is (exec h c i) := rfl

/-- Pushes of registers put them on the stack, the last on top. -/
theorem run_pushes (hc : c.Holds base ws) (rs : List Reg) (hlen : rs.length + ws.length < 2 ^ 61) :
    (run h (rs.map .push) c).Holds base ((rs.map c.gpr).reverse ++ ws) ∧
      (run h (rs.map .push) c).gpr = c.gpr := by
  induction rs generalizing c ws with
  | nil => exact ⟨hc, rfl⟩
  | cons r rs ih =>
    rw [List.length_cons] at hlen
    obtain ⟨hholds, hgpr⟩ := ih (hc.push (by omega) (c.gpr r)) (by rw [List.length_cons]; omega)
    have hgpr' : (c.push (c.gpr r)).gpr = c.gpr := rfl
    rw [hgpr'] at hholds hgpr
    refine ⟨?_, hgpr⟩
    have hwords : ((r :: rs).map c.gpr).reverse ++ ws =
        (rs.map c.gpr).reverse ++ c.gpr r :: ws := by
      simp
    rw [hwords]
    exact hholds

/-- Pops in the opposite order load what was pushed, by induction on the
registers. The pops are of the same words, so the ones below stay where they
are. -/
theorem run_pops {f : Reg → BitVec 64} (rs : List Reg) (hc : c.Holds base (rs.map f ++ ws)) :
    (run h (rs.map .pop) c).Holds base ws ∧
      ∀ r, (run h (rs.map .pop) c).gpr r = if r ∈ rs then f r else c.gpr r := by
  induction rs generalizing c with
  | nil => exact ⟨hc, fun r => by simp [run]⟩
  | cons r rs ih =>
    have hstep : run h ((r :: rs).map .pop) c = run h (rs.map .pop)
        { c with gpr := Function.update c.gpr r (wordAt c.mem c.rsp 0), rsp := c.rsp + 8 } := rfl
    have htop : wordAt c.mem c.rsp 0 = f r := hc.words.top
    obtain ⟨hholds, hgpr⟩ := ih (hc.pop _)
    rw [hstep]
    refine ⟨hholds, ?_⟩
    intro r'
    rw [hgpr r', htop]
    by_cases hmem : r' ∈ rs
    · simp [hmem]
    · by_cases heq : r' = r
      · simp [heq]
      · simp [hmem, heq]

end Frame

-- ---------------------------------------------------------------------------
-- The stub up to the call
-- ---------------------------------------------------------------------------

/-- The registers in the order of `irq_pusha`. -/
def pushOrder : List Reg :=
  [.rax, .rcx, .rdx, .rbx, .rbp, .rsi, .rdi, .r8, .r9, .r10, .r11, .r12, .r13, .r14, .r15]

/-- `irq_pusha` pushes the registers in the order of `pushOrder`. -/
theorem irqPusha_eq : irqPusha = pushOrder.map .push := rfl

/-- `irq_popa` is the mirror image of `irq_pusha`. -/
theorem irqPopa_eq : irqPopa = pushOrder.reverse.map .pop := rfl

/-- It leaves out none of the fifteen. -/
theorem mem_pushOrder (r : Reg) : r ∈ pushOrder := by
  cases r <;> simp [pushOrder]

/-- The words that `iretq` loads. -/
def Cpu.iretFrame (c : Cpu) : List (BitVec 64) :=
  [c.rip, c.cs.setWidth 64, c.rflags, c.rsp, c.ss.setWidth 64]

theorem iretFrame_length (c : Cpu) : c.iretFrame.length = 5 := rfl

/-- The words on the stack at the call. -/
def Cpu.callFrame (c : Cpu) (n : BitVec 8) (error : BitVec 64) : List (BitVec 64) :=
  pushOrder.reverse.map c.gpr ++ n.setWidth 64 :: errorWord n error :: c.iretFrame

section Stub

variable (c : Cpu) (g : Gate) (n : BitVec 8) (error : BitVec 64)

/-- Where the frame begins. -/
def Gate.base (g : Gate) : ℕ := (g.stack &&& ~~~15).toNat

/-- The processor aligns the stack to 16 bytes before it pushes. -/
theorem Gate.base_aligned (g : Gate) : g.base % 16 = 0 := by
  have hlow : g.stack &&& ~~~15 &&& 15 = 0 := by
    rw [BitVec.and_assoc, show (~~~15 : BitVec 64) &&& 15 = 0 by decide]
    exact BitVec.and_zero
  have hmod := congrArg BitVec.toNat hlow
  rw [BitVec.toNat_and] at hmod
  exact (Nat.and_two_pow_sub_one_eq_mod g.base 4).symm.trans hmod

/-- The stack after the interrupt frame was pushed. -/
theorem frame_holds : (c.frame g).Holds g.base c.iretFrame := by
  have hempty : ({ c with rsp := g.stack &&& ~~~15 } : Cpu).Holds g.base [] := by
    refine ⟨g.base_aligned, ?_, stackHolds_nil _ _⟩
    show (g.base + 8 * 0) % 2 ^ 64 = g.base
    have hlt : g.base < 2 ^ 64 := BitVec.isLt _
    omega
  exact ((((hempty.push (by simp) _).push (by simp) _).push (by simp) _).push (by simp) _).push
    (by simp) _

/-- Instructions that leave memory and stack pointer alone keep the stack. -/
theorem Cpu.Holds.congr {c c' : Cpu} {base : ℕ} {ws : List (BitVec 64)} (hc : c.Holds base ws)
    (hmem : c'.mem = c.mem) (hrsp : c'.rsp = c.rsp) : c'.Holds base ws := by
  refine ⟨hc.aligned, ?_, ?_⟩
  · rw [hrsp]
    exact hc.depth
  · rw [hmem, hrsp]
    exact hc.words

/-- What the processor leaves on the stack. -/
theorem deliver_holds : (c.deliver g n error).Holds g.base
    (if HasError n then error :: c.iretFrame else c.iretFrame) := by
  have hframe := frame_holds c g
  unfold Cpu.deliver
  split_ifs with herror
  · exact (hframe.push (by simp [iretFrame_length]) error).congr rfl rfl
  · exact hframe.congr rfl rfl

/-- The processor delivers an interrupt without a change to the registers. -/
theorem deliver_gpr : (c.deliver g n error).gpr = c.gpr := by
  unfold Cpu.deliver
  split_ifs <;> rfl

/-- The words for the error code and the vector. -/
def errorPushes (n : BitVec 8) : List Instr :=
  if HasError n then [.pushImm (n.setWidth 64)] else [.pushImm 0, .pushImm (n.setWidth 64)]

/-- The handler of a vector. -/
def stubCallee (n : BitVec 8) : Callee := if n.toNat < 32 then .isrHandler else .irqHandler

/-- The stubs differ in how the error code comes onto the stack, and in the
handler. -/
theorem intStub_eq : intStub n = (errorPushes n ++ irqPusha ++ [.movRdiRsp]) ++
    .call (stubCallee n) :: (irqPopa ++ [.addRsp 16, .iretq]) := by
  have hlt : HasError n → n.toNat < 32 := by
    unfold HasError
    simp only [List.mem_cons, List.not_mem_nil, or_false]
    rintro (rfl | rfl | rfl | rfl | rfl | rfl | rfl | rfl) <;> decide
  unfold intStub errorPushes stubCallee
  by_cases herror : HasError n
  · rw [if_pos herror, if_pos herror, if_pos (hlt herror)]
    simp [isrErrStub]
  · rw [if_neg herror, if_neg herror]
    by_cases hn : n.toNat < 32
    · rw [if_pos hn, if_pos hn]
      simp [isrNoErrStub]
    · rw [if_neg hn, if_neg hn]
      simp [irqStub]

/-- The instructions before the call do not call. -/
theorem run_noCall (h h' : Callee → Cpu → Cpu) {is : List Instr}
    (hnone : ∀ i ∈ is, (!i.isCall) = true) (c : Cpu) : run h is c = run h' is c := by
  induction is generalizing c with
  | nil => rfl
  | cons i is ih =>
    have hstep : exec h c i = exec h' c i := by
      cases i with
      | call f => exact absurd (hnone (.call f) List.mem_cons_self) (by simp [Instr.isCall])
      | _ => rfl
    show run h is (exec h c i) = run h' is (exec h' c i)
    rw [hstep]
    exact ih (fun j hj => hnone j (List.mem_cons_of_mem i hj)) _

theorem beforeCall_noCall :
    ∀ i ∈ errorPushes n ++ irqPusha ++ [.movRdiRsp], (!i.isCall) = true := by
  unfold errorPushes
  split_ifs <;> simp [irqPusha, Instr.isCall]

/-- The state at the `call` of a stub does not depend on the handler. -/
theorem atCall_eq (h : Callee → Cpu → Cpu) (c : Cpu) : atCall n c =
    run h (errorPushes n ++ irqPusha ++ [.movRdiRsp]) c := by
  unfold atCall
  rw [intStub_eq, List.takeWhile_append_of_pos (beforeCall_noCall n),
    List.takeWhile_cons_of_neg (by simp [Instr.isCall]), List.append_nil]
  exact run_noCall _ h (beforeCall_noCall n) c

/-- **The stub**: up to the call, the handler, and back. -/
theorem run_intStub (h : Callee → Cpu → Cpu) (c : Cpu) : run h (intStub n) c =
    run h (irqPopa ++ [.addRsp 16, .iretq]) (h (stubCallee n) (atCall n c)) := by
  rw [intStub_eq, run_append, ← atCall_eq, run_cons]
  rfl

/-- **The stack at the call**, the general registers, and `rdi`. From the top:
the registers in reverse order of their pushes, the vector, the error code or
what stands for it, and the frame of the processor. -/
theorem atCall_holds :
    (atCall n (c.deliver g n error)).Holds g.base (c.callFrame n error) ∧
      (atCall n (c.deliver g n error)).gpr .rdi = (atCall n (c.deliver g n error)).rsp := by
  rw [atCall_eq n fun _ c => c, run_append, run_append]
  refine ⟨?_, by simp [run, exec]⟩
  -- the vector and the error code, from the processor or from the stub
  have hpushes : (run (fun _ c => c) (errorPushes n) (c.deliver g n error)).Holds g.base
      (n.setWidth 64 :: errorWord n error :: c.iretFrame) ∧
      (run (fun _ c => c) (errorPushes n) (c.deliver g n error)).gpr = c.gpr := by
    have hdeliver := deliver_holds c g n error
    rw [← deliver_gpr c g n error]
    unfold errorPushes errorWord
    split_ifs at hdeliver ⊢ with herror
    · exact ⟨hdeliver.push (by simp [iretFrame_length]) _, rfl⟩
    · exact ⟨(hdeliver.push (by simp [iretFrame_length]) _).push
        (by simp [iretFrame_length]) _, rfl⟩
  have hregs := (run_pushes (h := fun _ c => c) hpushes.1 pushOrder
    (show 15 + 7 < 2 ^ 61 by omega)).1
  rw [hpushes.2, ← irqPusha_eq, ← List.map_reverse] at hregs
  generalize run (fun _ c => c) irqPusha
    (run (fun _ c => c) (errorPushes n) (c.deliver g n error)) = c' at hregs ⊢
  -- `mov rdi, rsp` leaves the stack alone
  exact hregs.congr rfl rfl

end Stub

-- ---------------------------------------------------------------------------
-- The C view of the frame
-- ---------------------------------------------------------------------------

/-- `regs`. -/
structure Regs where
  r15 : BitVec 64
  r14 : BitVec 64
  r13 : BitVec 64
  r12 : BitVec 64
  r11 : BitVec 64
  r10 : BitVec 64
  r9 : BitVec 64
  r8 : BitVec 64
  rdi : BitVec 64
  rsi : BitVec 64
  rbp : BitVec 64
  rbx : BitVec 64
  rdx : BitVec 64
  rcx : BitVec 64
  rax : BitVec 64
  intNo : BitVec 64
  rip : BitVec 64
  cs : BitVec 64
  rflags : BitVec 64
  rsp : BitVec 64
  ss : BitVec 64

/-- The fields of the packed structure at `p`. -/
def readRegs (m : Memory) (p : BitVec 64) : Regs :=
  { r15 := wordAt m p 0, r14 := wordAt m p 1, r13 := wordAt m p 2, r12 := wordAt m p 3
    r11 := wordAt m p 4, r10 := wordAt m p 5, r9 := wordAt m p 6, r8 := wordAt m p 7
    rdi := wordAt m p 8, rsi := wordAt m p 9, rbp := wordAt m p 10, rbx := wordAt m p 11
    rdx := wordAt m p 12, rcx := wordAt m p 13, rax := wordAt m p 14, intNo := wordAt m p 15
    rip := wordAt m p 16, cs := wordAt m p 17, rflags := wordAt m p 18, rsp := wordAt m p 19
    ss := wordAt m p 20 }

/-- The fields as the interrupt `n` should show them. -/
def Cpu.regs (c : Cpu) (n : BitVec 8) : Regs :=
  { r15 := c.gpr .r15, r14 := c.gpr .r14, r13 := c.gpr .r13, r12 := c.gpr .r12
    r11 := c.gpr .r11, r10 := c.gpr .r10, r9 := c.gpr .r9, r8 := c.gpr .r8
    rdi := c.gpr .rdi, rsi := c.gpr .rsi, rbp := c.gpr .rbp, rbx := c.gpr .rbx
    rdx := c.gpr .rdx, rcx := c.gpr .rcx, rax := c.gpr .rax, intNo := n.setWidth 64
    rip := c.rip, cs := c.cs.setWidth 64, rflags := c.rflags, rsp := c.rsp
    ss := c.ss.setWidth 64 }

/-- The words at the call, in the order of their addresses. -/
theorem callFrame_eq (c : Cpu) (n : BitVec 8) (error : BitVec 64) :
    c.callFrame n error = [c.gpr .r15, c.gpr .r14, c.gpr .r13, c.gpr .r12, c.gpr .r11, c.gpr .r10,
      c.gpr .r9, c.gpr .r8, c.gpr .rdi, c.gpr .rsi, c.gpr .rbp, c.gpr .rbx, c.gpr .rdx, c.gpr .rcx,
      c.gpr .rax, n.setWidth 64, errorWord n error, c.rip, c.cs.setWidth 64, c.rflags, c.rsp,
      c.ss.setWidth 64] := rfl

/-- What the handler sees: the general registers and the vector, and behind
them everything one word late. -/
theorem readRegs_atCall (c : Cpu) (g : Gate) (n : BitVec 8) (error : BitVec 64) :
    readRegs (atCall n (c.deliver g n error)).mem ((atCall n (c.deliver g n error)).gpr .rdi) =
      { c.regs n with
        rip := errorWord n error
        cs := c.rip
        rflags := c.cs.setWidth 64
        rsp := c.rflags
        ss := c.rsp } := by
  obtain ⟨hholds, hrdi⟩ := atCall_holds c g n error
  have hword := hholds.words
  rw [callFrame_eq] at hword
  rw [hrdi]
  unfold readRegs Cpu.regs
  rw [Regs.mk.injEq]
  exact ⟨hword 0 _ rfl, hword 1 _ rfl, hword 2 _ rfl, hword 3 _ rfl, hword 4 _ rfl, hword 5 _ rfl,
    hword 6 _ rfl, hword 7 _ rfl, hword 8 _ rfl, hword 9 _ rfl, hword 10 _ rfl, hword 11 _ rfl,
    hword 12 _ rfl, hword 13 _ rfl, hword 14 _ rfl, hword 15 _ rfl, hword 16 _ rfl,
    hword 17 _ rfl, hword 18 _ rfl, hword 19 _ rfl, hword 20 _ rfl⟩

/-- **The C view.** Every field of `regs` is right if and only if the error
code, `rip`, `cs`, `rflags`, `rsp` and `ss` are the same word. -/
theorem regs_match_iff (c : Cpu) (g : Gate) (n : BitVec 8) (error : BitVec 64) :
    readRegs (atCall n (c.deliver g n error)).mem ((atCall n (c.deliver g n error)).gpr .rdi) =
        c.regs n ↔
      errorWord n error = c.rip ∧ c.rip = c.cs.setWidth 64 ∧ c.cs.setWidth 64 = c.rflags ∧
        c.rflags = c.rsp ∧ c.rsp = c.ss.setWidth 64 := by
  rw [readRegs_atCall]
  simp [Cpu.regs]

/-- A kernel thread, interrupted. -/
def interrupted : Cpu :=
  { gpr := fun _ => 0, rsp := 0xffff800000010ff8, rip := 0xffffffff80001000, cs := 0x28, ss := 0x30
    rflags := 0x202, mem := fun _ => 0 }

def keyboardGate : Gate := { isr := 0xffffffff80002000, stack := interrupted.rsp, ss := 0x30 }

/-- The handler of the keyboard finds the 0 of the stub in `rip`. The stub
pushes a word for the error code, for which `regs` has no field, so every field
behind it is one word off. -/
theorem regs_do_not_match :
    ¬ ∀ (c : Cpu) (g : Gate) (n : BitVec 8) (error : BitVec 64),
      readRegs (atCall n (c.deliver g n error)).mem ((atCall n (c.deliver g n error)).gpr .rdi) =
        c.regs n := by
  intro h
  have hregs := h interrupted keyboardGate 33 0
  rw [readRegs_atCall] at hregs
  have hrip : errorWord 33 0 = interrupted.rip := congrArg Regs.rip hregs
  exact absurd hrip (by decide)

-- ---------------------------------------------------------------------------
-- The way back
-- ---------------------------------------------------------------------------

/-- A call of `c` that returns as `c'`: the stack pointer is restored and the
176 bytes of the frame are as they were. -/
structure Returns (c c' : Cpu) : Prop where
  rsp : c'.rsp = c.rsp
  frame : ∀ k < 176,
    c'.mem (c.rsp + BitVec.ofNat 64 k).toNat = c.mem (c.rsp + BitVec.ofNat 64 k).toNat

/-- A handler that returns leaves the saved words on the stack. -/
theorem Returns.holds {c c' : Cpu} {base : ℕ} {ws : List (BitVec 64)} (h : Returns c c')
    (hc : c.Holds base ws) (hlen : ws.length = 22) : c'.Holds base ws where
  aligned := hc.aligned
  depth := by
    rw [h.rsp]
    exact hc.depth
  words := by
    rw [h.rsp]
    exact hc.words.congr hc.rsp_aligned fun k hk => h.frame k (by omega)

/-- What the stub does behind the call, with the frame on the stack. The pops
come in the reverse order of the pushes, two words are dropped, and `iretq`
takes the five words of the frame; only memory may differ afterwards. -/
theorem run_return {h : Callee → Cpu → Cpu} {c c' : Cpu} {base : ℕ} {n : BitVec 8}
    {error : BitVec 64} (hc : c'.Holds base (c.callFrame n error)) :
    ∃ mem, run h (irqPopa ++ [.addRsp 16, .iretq]) c' = { c with mem } := by
  obtain ⟨hpopped, hgpr⟩ := run_pops (h := h) pushOrder.reverse hc
  rw [← irqPopa_eq] at hpopped hgpr
  rw [run_append]
  generalize run h irqPopa c' = c'' at hpopped hgpr
  have hsaved : c''.gpr = c.gpr := by
    funext r
    rw [hgpr r, if_pos (List.mem_reverse.mpr (mem_pushOrder r))]
  -- the vector and the error code are dropped
  have hdropped : StackHolds c''.mem c''.rsp
      ([n.setWidth 64, errorWord n error] ++ c.iretFrame) := hpopped.words
  have hwords : StackHolds c''.mem (c''.rsp + 16) c.iretFrame := hdropped.pops
  refine ⟨c''.mem, ?_⟩
  have hcs : (c.cs.setWidth 64).setWidth 16 = c.cs := by simp
  have hss : (c.ss.setWidth 64).setWidth 16 = c.ss := by simp
  rw [run_cons, run_cons]
  simp only [run, List.foldl_nil, exec, hwords 0 _ rfl, hwords 1 _ rfl, hwords 2 _ rfl,
    hwords 3 _ rfl, hwords 4 _ rfl, hsaved, hcs, hss]

/-- **An interrupt is invisible.** After the stub of a vector from 32 on, all
registers are as the interrupt found them, and the stack is aligned to 16 bytes
at the call. -/
theorem irq_invisible (c : Cpu) (g : Gate) (n : BitVec 8) (error : BitVec 64)
    (h : Callee → Cpu → Cpu) (hn : 32 ≤ n.toNat)
    (hreturns : Returns (atCall n (c.deliver g n error))
      (h .irqHandler (atCall n (c.deliver g n error)))) :
    (run h (intStub n) (c.deliver g n error)).gpr = c.gpr ∧
      (run h (intStub n) (c.deliver g n error)).rip = c.rip ∧
      (run h (intStub n) (c.deliver g n error)).cs = c.cs ∧
      (run h (intStub n) (c.deliver g n error)).rflags = c.rflags ∧
      (run h (intStub n) (c.deliver g n error)).rsp = c.rsp ∧
      (run h (intStub n) (c.deliver g n error)).ss = c.ss ∧
      (atCall n (c.deliver g n error)).rsp.toNat % 16 = 0 := by
  have hholds := (atCall_holds c g n error).1
  have hcallee : stubCallee n = .irqHandler := if_neg (by omega)
  obtain ⟨mem, hrun⟩ := run_return (h := h) (hreturns.holds hholds rfl)
  rw [run_intStub, hcallee, hrun]
  refine ⟨rfl, rfl, rfl, rfl, rfl, rfl, ?_⟩
  -- 22 words below a multiple of 16
  have haligned := hholds.aligned
  have hdepth := hholds.depth
  rw [callFrame_eq] at hdepth
  simp only [List.length_cons, List.length_nil] at hdepth
  omega

/-- A handler that leaves nothing in the registers: it clears all fifteen and
the flags, and the code that was interrupted finds them as they were. -/
theorem irq_invisible_clobbered :
    (run (fun _ c => { c with gpr := fun _ => 0, rflags := 0 }) (intStub 33)
        (interrupted.deliver keyboardGate 33 0)).gpr = interrupted.gpr ∧
      (run (fun _ c => { c with gpr := fun _ => 0, rflags := 0 }) (intStub 33)
        (interrupted.deliver keyboardGate 33 0)).rip = interrupted.rip :=
  have hall := irq_invisible interrupted keyboardGate 33 0
    (fun _ c => { c with gpr := fun _ => 0, rflags := 0 }) (by decide) ⟨rfl, fun _ _ => rfl⟩
  ⟨hall.1, hall.2.1⟩

end Medlar64
