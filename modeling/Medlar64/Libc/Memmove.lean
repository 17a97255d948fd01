import Medlar64.Mm.Machine

/-!
# Medlar64 — copying between ranges that overlap (`memmove` in `libc.c`)

`memmove` copies upwards to a lower and downwards to a higher destination, so
that it reads every byte before it writes over it.

* `memmove` — the source function.
* `Machine.bytes` — memory by virtual address.
* `memmove_bytes` — what `memmove` makes of it.
* `memmove_copies` — the destination gets the bytes of the source, and nothing
  else changes.
-/

namespace Medlar64

/-- `memmove(dest, src, n)`. -/
def memmove (s : Machine) (dest src n : Nat) : Machine :=
  if src > dest then forUp (fun i s => s.write8 (dest + i) (s.read8 (src + i))) n s
  else if src < dest then forDown (fun i s => s.write8 (dest + i) (s.read8 (src + i))) n s
  else s

-- ---------------------------------------------------------------------------
-- Memory by virtual address
-- ---------------------------------------------------------------------------

/-- The bytes of the address space, and 0 behind it. -/
def Machine.bytes (s : Machine) : Memory := fun a => if a < 2 ^ 64 then s.read8 a else 0

theorem bytes_of_lt (s : Machine) {a : Nat} (h : a < 2 ^ 64) : s.bytes a = s.read8 a := if_pos h

/-- A store changes the byte at its address. Other addresses are other bytes,
since the direct map takes no two of them to one. -/
theorem bytes_write8 (s : Machine) {p : Nat} (b : BitVec 8) (hp : p < 2 ^ 64) :
    (s.write8 p b).bytes = Function.update s.bytes p b := by
  funext a
  rw [Function.update_apply]
  by_cases ha : a < 2 ^ 64
  · rw [bytes_of_lt _ ha, bytes_of_lt _ ha, read8_write8]
    refine if_congr ⟨?_, fun h => h ▸ rfl⟩ rfl rfl
    intro h
    have hsame : s.physical (0 + a) = s.physical (0 + p) := by rwa [Nat.zero_add, Nat.zero_add]
    exact physical_add_inj s ha hp hsame
  · rw [if_neg (by omega)]
    unfold Machine.bytes
    rw [if_neg ha, if_neg ha]

-- ---------------------------------------------------------------------------
-- The copy
-- ---------------------------------------------------------------------------

section Copy

variable (s : Machine) {dest src n : Nat}

theorem bytes_copy (t : Machine) {i : Nat} (hd : dest + n ≤ 2 ^ 64) (hs : src + n ≤ 2 ^ 64)
    (hi : i < n) : (t.write8 (dest + i) (t.read8 (src + i))).bytes =
      Function.update t.bytes (dest + i) (t.bytes (src + i)) := by
  rw [bytes_write8 t _ (by omega), bytes_of_lt t (show src + i < 2 ^ 64 by omega)]

/-- What `memmove` makes of the memory, byte by byte: the range at `dest` holds
what was in the range at `src`, however the two overlap. -/
theorem memmove_bytes (hd : dest + n ≤ 2 ^ 64) (hs : src + n ≤ 2 ^ 64) (x : Nat) :
    (memmove s dest src n).bytes x =
      if dest ≤ x ∧ x < dest + n then s.bytes (src + (x - dest)) else s.bytes x := by
  unfold memmove
  rcases Nat.lt_trichotomy dest src with hlt | rfl | hgt
  -- to a lower address: upwards, and what is still to be read lies ahead
  · have hloop : (forUp (fun i t => t.write8 (dest + i) (t.read8 (src + i))) n s).bytes =
        forUp (fun i m => Function.update m (dest + i) (m (src + i))) n s.bytes :=
      (forUp_map Machine.bytes (fun _ => True) trivial
        fun i t hi _ => ⟨trivial, bytes_copy t hd hs hi⟩).2
    rw [if_pos hlt, hloop]
    exact forUp_copy s.bytes (.inl (Nat.le_of_lt hlt)) x
  · -- both ranges are one, and nothing is copied
    rw [if_neg (Nat.lt_irrefl _), if_neg (Nat.lt_irrefl _)]
    by_cases hx : dest ≤ x ∧ x < dest + n
    · rw [if_pos hx, Nat.add_sub_cancel' hx.1]
    · rw [if_neg hx]
  -- to a higher address: downwards
  · have hloop : (forDown (fun i t => t.write8 (dest + i) (t.read8 (src + i))) n s).bytes =
        forDown (fun i m => Function.update m (dest + i) (m (src + i))) n s.bytes :=
      (forDown_map Machine.bytes (fun _ => True) trivial
        fun i t hi _ => ⟨trivial, bytes_copy t hd hs hi⟩).2
    rw [if_neg (by omega), if_pos hgt, hloop]
    exact forDown_copy s.bytes (.inl (Nat.le_of_lt hgt)) x

/--
**Every overlap.** Where neither range wraps around the address space, the `n`
bytes at `dest` are those that were at `src`, and every other byte is as it
was. Each of the two loops is needed for one side: read in the other order, a
byte would be read after it has been written.
-/
theorem memmove_copies (hd : dest + n ≤ 2 ^ 64) (hs : src + n ≤ 2 ^ 64) :
    (∀ i < n, (memmove s dest src n).read8 (dest + i) = s.read8 (src + i)) ∧
      ∀ a < 2 ^ 64, a < dest ∨ dest + n ≤ a → (memmove s dest src n).read8 a = s.read8 a := by
  constructor
  · intro i hi
    rw [← bytes_of_lt _ (show dest + i < 2 ^ 64 by omega), memmove_bytes s hd hs,
      if_pos (by omega), Nat.add_sub_cancel_left, bytes_of_lt s (by omega)]
  · intro a ha hout
    rw [← bytes_of_lt _ ha, memmove_bytes s hd hs, if_neg (by omega), bytes_of_lt s ha]

end Copy

/-- Memory that counts upwards. -/
def counting : Machine := Machine.boot (fun x => BitVec.ofNat 8 x) usualHhdm

/--
Four bytes moved up by one: the source and the destination share three, and the
loop runs downwards.
-/
theorem memmove_copies_up :
    (∀ i < 4, (memmove counting (usualHhdm + 101) (usualHhdm + 100) 4).read8
        (usualHhdm + 101 + i) = counting.read8 (usualHhdm + 100 + i)) ∧
      ∀ a < 2 ^ 64, a < usualHhdm + 101 ∨ usualHhdm + 101 + 4 ≤ a →
        (memmove counting (usualHhdm + 101) (usualHhdm + 100) 4).read8 a = counting.read8 a :=
  memmove_copies counting (by decide) (by decide)

end Medlar64
