import Medlar64.Dev.IoapicRanges
import Medlar64.Dev.Kb
import Medlar64.Lib.Transitions

/-!
# Medlar64 — hardware interrupts and their handlers (`idt.c`)

`irq_register` unmasks a line and then stores its handler, `irq_unregister`
removes a handler and leaves the line unmasked, and `irq_handler` runs the
handler it finds. The acknowledgement is left to the handlers.

* `IrqStep` — registrations, unregistrations and interrupts, interleaved.
* `Registered` — the last store or removal of a handler was a store.
* `handlers_registered` — the table of handlers follows the history.
* `irq_acked_iff` — in every run, every interrupt is acknowledged exactly once
  if and only if its handler is `Registered` whenever one arrives.
-/

namespace Medlar64

-- ---------------------------------------------------------------------------
-- Handlers
-- ---------------------------------------------------------------------------

/-- A handler that acknowledges its interrupt exactly once, if it returns. -/
structure Handler where
  run : Devices → Option Devices
  eoi : ∀ {d d' : Devices}, run d = some d' → d'.lapic.eois = d.lapic.eois + 1

def kbIrq : Handler := { run := kbHandler, eoi := kbHandler_eoi }

def pitIrq : Handler := { run := pitHandler, eoi := pitHandler_eoi }

-- ---------------------------------------------------------------------------
-- The source functions
-- ---------------------------------------------------------------------------

/-- `irq_handlers` with `none` for `NULL`, the I/O APICs, the devices, and the
calls of `irq_register` that have unmasked their line and not yet stored their
handler. -/
structure IrqState where
  irqHandlers : ℕ → Option Handler
  ioapics : Ioapics
  dev : Devices
  calls : List (BitVec 8 × Handler)

/-- `irq_handlers[vector] = handler`. -/
def IrqState.setHandler (s : IrqState) (vector : BitVec 8) (handler : Option Handler) : IrqState :=
  { s with irqHandlers := Function.update s.irqHandlers vector.toNat handler }

/-- The first step of `irq_register(vector, handler)`, for a vector up to 15. -/
def irqUnmask (m : IoapicLists) (s : IrqState) (vector : BitVec 8) (handler : Handler)
    (fuel : ℕ) : Option (Option IrqState) :=
  (ioapicRedirectIrq m s.ioapics 0 (vector + 32) vector false fuel).map fun result =>
    result.map fun ioapics => { s with ioapics, calls := s.calls ++ [(vector, handler)] }

/-- The second step of the `i`-th call of `irq_register` in progress. -/
def irqStore (s : IrqState) (i : ℕ) (vector : BitVec 8) (handler : Handler) : IrqState :=
  { s.setHandler vector (some handler) with calls := s.calls.eraseIdx i }

/-- `irq_unregister(vector)`. -/
def irqUnregister (s : IrqState) (vector : BitVec 8) : IrqState := s.setHandler vector none

/-- `irq_handler(r)`; `none` when the handler does not return. -/
def irqHandler (s : IrqState) (intNo : ℕ) : Option IrqState :=
  match s.irqHandlers (intNo - 32) with
  | some handler => (handler.run s.dev).map fun dev => { s with dev }
  | none => some s

-- ---------------------------------------------------------------------------
-- The interleaving
-- ---------------------------------------------------------------------------

inductive IrqEvent
  /-- The first step of `irq_register`. -/
  | unmask (vector : BitVec 8) (handler : Handler)
  /-- The second step of `irq_register`. -/
  | store (i : ℕ) (vector : BitVec 8) (handler : Handler)
  | unregister (vector : BitVec 8)
  /-- An interrupt on a line of an I/O APIC, with the vector programmed. -/
  | interrupt (ioapic line : ℕ) (intNo : BitVec 8)

inductive IrqStep (m : IoapicLists) : IrqState → IrqEvent → IrqState → Prop
  | unmask {s s' : IrqState} {vector : BitVec 8} {handler : Handler} {fuel : ℕ}
      (hle : vector ≤ 15) (hrun : irqUnmask m s vector handler fuel = some (some s')) :
    IrqStep m s (.unmask vector handler) s'
  | store {s : IrqState} {i : ℕ} {vector : BitVec 8} {handler : Handler}
      (hcall : s.calls[i]? = some (vector, handler)) :
    IrqStep m s (.store i vector handler) (irqStore s i vector handler)
  | unregister {s : IrqState} {vector : BitVec 8} :
    IrqStep m s (.unregister vector) (irqUnregister s vector)
  | interrupt {s s' : IrqState} {ioapic line : ℕ} {intNo : BitVec 8} (hlt : ioapic < m.ioapics)
      (hraises : Raises s.ioapics (m.ioapicList ioapic) line intNo)
      (hrange : 32 ≤ intNo.toNat ∧ intNo.toNat ≤ 47)
      (hrun : irqHandler s intNo.toNat = some s') :
    IrqStep m s (.interrupt ioapic line intNo) s'

-- ---------------------------------------------------------------------------
-- What one step does
-- ---------------------------------------------------------------------------

section Step

variable {m : IoapicLists} {s s' : IrqState} {e : IrqEvent} {es : List IrqEvent} {v : ℕ}

/-- `irq_handler` leaves the table of handlers alone, and acknowledges once if
it finds one and never otherwise. -/
theorem irqHandler_spec {intNo : ℕ} (h : irqHandler s intNo = some s') :
    s'.irqHandlers = s.irqHandlers ∧ s'.dev.lapic.eois =
      s.dev.lapic.eois + if (s.irqHandlers (intNo - 32)).isSome then 1 else 0 := by
  unfold irqHandler at h
  cases hfind : s.irqHandlers (intNo - 32) with
  | none =>
    rw [hfind] at h
    obtain rfl := Option.some.inj h
    exact ⟨rfl, rfl⟩
  | some handler =>
    rw [hfind] at h
    obtain ⟨dev, hrun, rfl⟩ := Option.map_eq_some_iff.mp h
    exact ⟨rfl, handler.eoi hrun⟩

/-- The event stores a handler for `v`. -/
def IrqEvent.Stores (v : ℕ) : IrqEvent → Prop
  | .store _ vector _ => vector.toNat = v
  | _ => False

/-- The event removes the handler for `v`. -/
def IrqEvent.Removes (v : ℕ) : IrqEvent → Prop
  | .unregister vector => vector.toNat = v
  | _ => False

/-- A handler for `v` was stored, and none was removed since. -/
def Registered (es : List IrqEvent) (v : ℕ) : Prop :=
  ∃ pre e post, es = pre ++ e :: post ∧ e.Stores v ∧ ∀ e' ∈ post, ¬ e'.Removes v

theorem not_registered_nil : ¬ Registered [] v := by
  rintro ⟨pre, e, post, h, -⟩
  simp at h

/-- An event that removes no handler adds the one it stores. What was
registered before it stays so. -/
theorem registered_append (h : ¬ e.Removes v) :
    Registered (es ++ [e]) v ↔ e.Stores v ∨ Registered es v := by
  constructor
  · -- the store that counts is the last event or one before it
    rintro ⟨pre, e', post, heq, hstores, hkeep⟩
    rcases List.eq_nil_or_concat post with rfl | ⟨post, last, rfl⟩
    · obtain ⟨-, heq⟩ := List.append_inj' heq rfl
      obtain rfl := List.singleton_inj.mp heq
      exact .inl hstores
    · refine .inr ⟨pre, e', post, ?_, hstores, fun e'' he => hkeep e'' ?_⟩
      · rw [List.concat_eq_append, ← List.cons_append, ← List.append_assoc] at heq
        exact (List.append_inj' heq rfl).1
      · rw [List.concat_eq_append]
        exact List.mem_append_left _ he
  · rintro (hstores | ⟨pre, e', post, rfl, hstores, hkeep⟩)
    · exact ⟨es, e, [], rfl, hstores, fun _ he => nomatch he⟩
    · refine ⟨pre, e', post ++ [e], by simp, hstores, fun e'' he => ?_⟩
      rcases List.mem_append.mp he with hold | hnew
      · exact hkeep e'' hold
      · rw [List.mem_singleton.mp hnew]
        exact h

/-- An event that removes a handler leaves none, unless it stores one. -/
theorem not_registered_append (h : e.Removes v) (hstores : ¬ e.Stores v) :
    ¬ Registered (es ++ [e]) v := by
  rintro ⟨pre, e', post, heq, hstores', hkeep⟩
  rcases List.eq_nil_or_concat post with rfl | ⟨post, last, rfl⟩
  · obtain ⟨-, heq⟩ := List.append_inj' heq rfl
    obtain rfl := List.singleton_inj.mp heq
    exact hstores hstores'
  · rw [List.concat_eq_append, ← List.cons_append, ← List.append_assoc] at heq
    obtain ⟨-, heq⟩ := List.append_inj' heq rfl
    obtain rfl := List.singleton_inj.mp heq
    exact hkeep e (by simp) h

/-- The table of handlers after a step: a handler is there if the step stores
one, or if it was there and the step does not remove it. Only two kinds of
steps write to the table. -/
theorem IrqStep.handlers (h : IrqStep m s e s') (v : ℕ) :
    (s'.irqHandlers v).isSome ↔ ¬ e.Removes v ∧ (e.Stores v ∨ (s.irqHandlers v).isSome) := by
  -- one case for each kind of step; only two of them write to the table
  cases h with
  | unmask hle hrun =>
    obtain ⟨result, -, hresult⟩ := Option.map_eq_some_iff.mp hrun
    obtain ⟨ioapics, -, rfl⟩ := Option.map_eq_some_iff.mp hresult
    simp [IrqEvent.Removes, IrqEvent.Stores]
  | @store i vector handler hcall =>
    simp only [IrqEvent.Removes, IrqEvent.Stores, not_false_eq_true, true_and]
    show (Function.update s.irqHandlers vector.toNat (some handler) v).isSome ↔ _
    rw [Function.update_apply]
    by_cases hv : v = vector.toNat
    · simp [hv]
    · simp [hv, Ne.symm hv]
  | @unregister vector =>
    simp only [IrqEvent.Removes, IrqEvent.Stores, false_or]
    show (Function.update s.irqHandlers vector.toNat none v).isSome ↔ _
    rw [Function.update_apply]
    by_cases hv : v = vector.toNat
    · simp [hv]
    · simp [hv, Ne.symm hv]
  | interrupt hlt hraises hrange hrun =>
    rw [(irqHandler_spec hrun).1]
    simp [IrqEvent.Removes, IrqEvent.Stores]

/-- The table of handlers follows the history, one step: a handler is there if
and only if the events so far have registered one. -/
theorem IrqStep.registered (h : IrqStep m s e s')
    (hinv : ∀ v, (s.irqHandlers v).isSome ↔ Registered es v) (v : ℕ) :
    (s'.irqHandlers v).isSome ↔ Registered (es ++ [e]) v := by
  rw [h.handlers v]
  -- an event that removes the handler does not store one
  by_cases hremoves : e.Removes v
  · have hstores : ¬ e.Stores v := by
      cases e with
      | unregister => exact not_false
      | unmask | store | interrupt => exact absurd hremoves not_false
    simp [hremoves, not_registered_append hremoves hstores]
  · rw [registered_append hremoves, hinv v]
    simp [hremoves]

end Step

-- ---------------------------------------------------------------------------
-- Runs
-- ---------------------------------------------------------------------------

section Runs

variable {m : IoapicLists} {n : ℕ} (r : Trace (IrqStep m) n)

/-- **The table of handlers follows the history.** -/
theorem handlers_registered (h0 : ∀ v, (r.st 0).irqHandlers v = none) {t : ℕ} (ht : t ≤ n)
    (v : ℕ) : ((r.st t).irqHandlers v).isSome ↔ Registered (r.history t) v := by
  have hstart : ∀ v, ((r.st 0).irqHandlers v).isSome ↔ Registered [] v := by
    intro v
    simp [h0 v, not_registered_nil]
  exact r.inv (fun es s => ∀ v, (s.irqHandlers v).isSome ↔ Registered es v) hstart
    (fun es s e s' hinv hstep => hstep.registered hinv) ht v

/-- The step at `t` is an interrupt that `irq_handler` acknowledges once. -/
def AckedOnce (t : ℕ) : Prop :=
  (r.st (t + 1)).dev.lapic.eois = (r.st t).dev.lapic.eois + 1

/-- An interrupt is acknowledged once if and only if the events before it have
registered a handler for its line. -/
theorem ackedOnce_iff (h0 : ∀ v, (r.st 0).irqHandlers v = none) {t ioapic line : ℕ}
    {intNo : BitVec 8} (ht : t < n) (he : r.ev t = .interrupt ioapic line intNo) :
    AckedOnce r t ↔ Registered (r.history t) (intNo.toNat - 32) := by
  have hstep := r.next t ht
  rw [he] at hstep
  rw [← handlers_registered r h0 (Nat.le_of_lt ht)]
  cases hstep with
  | interrupt hlt hraises hrange hrun =>
    unfold AckedOnce
    rw [(irqHandler_spec hrun).2]
    cases ((r.st t).irqHandlers (intNo.toNat - 32)).isSome <;> simp

end Runs

/-- **When every interrupt is acknowledged.** From boot, in every run of
registrations, unregistrations and interrupts, each interrupt is acknowledged
exactly once if and only if, whenever one arrives, a handler for its line has
been stored and not been removed since. -/
theorem irq_acked_iff (m : IoapicLists) (n : ℕ) (r : Trace (IrqStep m) n)
    (h0 : ∀ v, (r.st 0).irqHandlers v = none) :
    (∀ t < n, ∀ ioapic line intNo, r.ev t = .interrupt ioapic line intNo → AckedOnce r t) ↔
      ∀ t < n, ∀ ioapic line intNo, r.ev t = .interrupt ioapic line intNo →
        Registered (r.history t) (intNo.toNat - 32) := by
  refine forall_congr' fun t => forall_congr' fun ht => ?_
  refine forall_congr' fun ioapic => forall_congr' fun line => forall_congr' fun intNo => ?_
  exact forall_congr' fun he => ackedOnce_iff r h0 ht he

-- ---------------------------------------------------------------------------
-- An interrupt before its handler
-- ---------------------------------------------------------------------------

def irqBoot : IrqState :=
  { irqHandlers := fun _ => none, ioapics := maskedRegs
    dev := { port60 := 0, kb := .init, pitTicks := 0, lapic := ⟨[]⟩ }, calls := [] }

/-- `kb_init` has unmasked its line and not yet stored its handler. -/
def irqUnmasked : IrqState :=
  ((irqUnmask oneIoapic irqBoot 1 kbIrq 1).bind id).getD irqBoot

theorem irqUnmasked_eq : irqUnmask oneIoapic irqBoot 1 kbIrq 1 = some (some irqUnmasked) := rfl

/-- The keyboard line is unmasked, and a key is pressed. -/
def earlyKey : Trace (IrqStep oneIoapic) 2 where
  st t := if t = 0 then irqBoot else irqUnmasked
  ev t := if t = 0 then .unmask 1 kbIrq else .interrupt 0 1 33
  next t ht := by
    rcases Nat.lt_succ_iff_lt_or_eq.mp ht with hlt | rfl
    · obtain rfl : t = 0 := by omega
      exact .unmask (by decide) irqUnmasked_eq
    · exact .interrupt (by decide) ⟨by decide, by decide⟩ (by decide) rfl

/-- `irq_register` has stored the handler of the keyboard. -/
def irqStored : IrqState := irqStore irqUnmasked 0 1 kbIrq

/-- The keyboard interrupt has run its handler. -/
def irqHandled : IrqState := (irqHandler irqStored 33).getD irqStored

/-- And the one behind the interrupt of the keyboard. -/
theorem irqHandled_eq : irqHandler irqStored 33 = some irqHandled := rfl

/-- The keyboard line is unmasked, its handler is stored, and a key is pressed. -/
def storedKey : Trace (IrqStep oneIoapic) 3 where
  st t := if t = 0 then irqBoot else if t = 1 then irqUnmasked
    else if t = 2 then irqStored else irqHandled
  ev t := if t = 0 then .unmask 1 kbIrq else if t = 1 then .store 0 1 kbIrq
    else .interrupt 0 1 33
  next t ht := by
    obtain rfl | rfl | rfl : t = 0 ∨ t = 1 ∨ t = 2 := by omega
    · exact .unmask (by decide) irqUnmasked_eq
    · exact .store rfl
    · exact .interrupt (by decide) ⟨by decide, by decide⟩ (by decide) irqHandled_eq

/-- In that run the handler is stored when the interrupt arrives, and the
interrupt is acknowledged once. -/
theorem irq_acked_iff_stored :
    storedKey.ev 2 = .interrupt 0 1 33 ∧ Registered (storedKey.history 2) 1 ∧
      ∀ t < 3, ∀ ioapic line intNo, storedKey.ev t = .interrupt ioapic line intNo →
        AckedOnce storedKey t := by
  have hregistered : Registered (storedKey.history 2) 1 :=
    ⟨[.unmask 1 kbIrq], .store 0 1 kbIrq, [], rfl, rfl, fun _ h => nomatch h⟩
  refine ⟨rfl, hregistered, (irq_acked_iff oneIoapic 3 storedKey fun _ => rfl).mpr ?_⟩
  intro t ht ioapic line intNo he
  -- only the last event is an interrupt
  obtain rfl | rfl | rfl : t = 0 ∨ t = 1 ∨ t = 2 := by omega
  · exact nomatch he
  · exact nomatch he
  · obtain ⟨-, -, rfl⟩ := IrqEvent.interrupt.inj he
    exact hregistered

/-- The interrupt finds no handler and is not acknowledged: `irq_register` has
unmasked the line of the keyboard, a key is pressed, and the handler is stored
only then. -/
theorem irq_not_acked :
    ¬ ∀ (m : IoapicLists) (n : ℕ) (r : Trace (IrqStep m) n),
      (∀ v, (r.st 0).irqHandlers v = none) →
        ∀ t < n, ∀ ioapic line intNo, r.ev t = .interrupt ioapic line intNo → AckedOnce r t := by
  intro h
  have hacked : irqUnmasked.dev.lapic.eois = irqUnmasked.dev.lapic.eois + 1 :=
    h oneIoapic 2 earlyKey (fun _ => rfl) 1 (by decide) 0 1 33 rfl
  omega

end Medlar64
