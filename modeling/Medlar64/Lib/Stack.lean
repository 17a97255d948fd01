import Mathlib.Data.List.Basic
import Medlar64.Lib.Memory

/-!
# Stacks of 64-bit words

A stack that grows downwards in a byte memory, its pointer a multiple of 8 that
may wrap around the address space.

* `wordAt m sp i` — the `i`-th word from the top.
* `StackHolds m sp ws` — the words from the top are `ws`.
* `StackHolds.push`, `StackHolds.pops` — what a push adds and pops uncover.
* `StackHolds.congr` — they depend on their own bytes only.
-/

/-- The `i`-th word from the top. Its address wraps around, as that of the
processor does. -/
def wordAt (m : Memory) (sp : BitVec 64) (i : ℕ) : BitVec 64 :=
  BitVec.ofNat 64 (loadLE m (sp + 8 * BitVec.ofNat 64 i).toNat 8)

/-- The memory after a push; the pointer goes down by 8. -/
def pushWord (m : Memory) (sp w : BitVec 64) : Memory := storeLE m (sp - 8).toNat 8 w.toNat

/-- The words from the top of the stack. What is below the top is not spoken
of: an interrupt may write there at any time. -/
def StackHolds (m : Memory) (sp : BitVec 64) (ws : List (BitVec 64)) : Prop :=
  ∀ i w, ws[i]? = some w → wordAt m sp i = w

section Stack

variable {m m' : Memory} {sp : BitVec 64} {ws : List (BitVec 64)}

theorem slot_toNat (sp : BitVec 64) (i : ℕ) :
    (sp + 8 * BitVec.ofNat 64 i).toNat = (sp.toNat + 8 * i) % 2 ^ 64 := by
  rw [BitVec.toNat_add, BitVec.toNat_mul, BitVec.toNat_ofNat]
  simp [Nat.add_mod, Nat.mul_mod]

theorem below_toNat (sp : BitVec 64) : (sp - 8).toNat = (2 ^ 64 - 8 + sp.toNat) % 2 ^ 64 := by
  rw [BitVec.toNat_sub, show (8 : BitVec 64).toNat = 8 from rfl]

theorem stackHolds_nil (m : Memory) (sp : BitVec 64) : StackHolds m sp [] := nofun

/-- A push puts its word on the top. -/
theorem wordAt_pushWord_zero (m : Memory) (sp w : BitVec 64) :
    wordAt (pushWord m sp w) (sp - 8) 0 = w := by
  have haddr : sp - 8 + 8 * BitVec.ofNat 64 0 = sp - 8 := by simp
  unfold wordAt pushWord
  rw [haddr, loadLE_storeLE]
  have hlt := w.isLt
  apply BitVec.eq_of_toNat_eq
  rw [BitVec.toNat_ofNat]
  omega

/-- A push leaves the words above it alone, unless they fill the memory. -/
theorem wordAt_pushWord_succ (hsp : sp.toNat % 8 = 0) (w : BitVec 64) {i : ℕ}
    (hi : i + 1 < 2 ^ 61) : wordAt (pushWord m sp w) (sp - 8) (i + 1) = wordAt m sp i := by
  have haddr : sp - 8 + 8 * BitVec.ofNat 64 (i + 1) = sp + 8 * BitVec.ofNat 64 i := by
    apply BitVec.eq_of_toNat_eq
    rw [slot_toNat, slot_toNat, below_toNat]
    omega
  unfold wordAt pushWord
  rw [haddr, loadLE_storeLE_disjoint]
  rw [slot_toNat, below_toNat]
  have hlt := sp.isLt
  omega

/-- A push onto a stack of known words adds its word to them. -/
theorem StackHolds.push (h : StackHolds m sp ws) (hsp : sp.toNat % 8 = 0)
    (hlen : ws.length < 2 ^ 61) (w : BitVec 64) :
    StackHolds (pushWord m sp w) (sp - 8) (w :: ws) := by
  rintro (_ | i) v hv
  · obtain rfl := Option.some.inj hv
    exact wordAt_pushWord_zero m sp w
  · rw [List.getElem?_cons_succ] at hv
    have hi := (List.getElem?_eq_some_iff.mp hv).1
    rw [wordAt_pushWord_succ hsp w (by omega)]
    exact h i v hv

theorem StackHolds.top {w : BitVec 64} (h : StackHolds m sp (w :: ws)) : wordAt m sp 0 = w :=
  h 0 w rfl

/-- Pops uncover the words below the top. -/
theorem StackHolds.pops {us : List (BitVec 64)} (h : StackHolds m sp (us ++ ws)) :
    StackHolds m (sp + 8 * BitVec.ofNat 64 us.length) ws := by
  intro i w hw
  -- the word is further down by the number of pops
  have hslot := h (us.length + i) w (by
    rw [List.getElem?_append_right (by omega), Nat.add_sub_cancel_left, hw])
  have haddr : sp + 8 * BitVec.ofNat 64 us.length + 8 * BitVec.ofNat 64 i =
      sp + 8 * BitVec.ofNat 64 (us.length + i) := by
    apply BitVec.eq_of_toNat_eq
    rw [slot_toNat, slot_toNat, slot_toNat]
    omega
  unfold wordAt at hslot ⊢
  rw [haddr, hslot]

/-- One pop, after which the words below the top are left. -/
theorem StackHolds.pop {w : BitVec 64} (h : StackHolds m sp (w :: ws)) :
    StackHolds m (sp + 8) ws := by
  have happend : StackHolds m sp ([w] ++ ws) := h
  exact happend.pops

/-- The words depend on the bytes they lie in, and on no others. -/
theorem StackHolds.congr (h : StackHolds m sp ws) (hsp : sp.toNat % 8 = 0)
    (hsame : ∀ k < 8 * ws.length,
      m' (sp + BitVec.ofNat 64 k).toNat = m (sp + BitVec.ofNat 64 k).toNat) :
    StackHolds m' sp ws := by
  intro i w hw
  have hi := (List.getElem?_eq_some_iff.mp hw).1
  rw [← h i w hw]
  unfold wordAt
  refine congrArg (BitVec.ofNat 64) (loadLE_congr ?_)
  intro x hx hxk
  rw [slot_toNat] at hx hxk
  -- an aligned word does not wrap around
  have hlt := sp.isLt
  have haddr : (sp + BitVec.ofNat 64 (8 * i + (x - (sp.toNat + 8 * i) % 2 ^ 64))).toNat = x := by
    rw [BitVec.toNat_add, BitVec.toNat_ofNat]
    omega
  have hbyte := hsame (8 * i + (x - (sp.toNat + 8 * i) % 2 ^ 64)) (by omega)
  rwa [haddr] at hbyte

end Stack
