import Medlar64.Mm.Machine

/-!
# Medlar64 — finding a system description table (`acpi.c`)

The root table, an RSDT with 32-bit or an XSDT with 64-bit entries, lists the
physical addresses of the other tables. Only the alignment check is switched off
for `acpi_find_table`: an access through a null pointer, and a pointer that runs
over the end of the address space, still halt the kernel. `none` is a halt.

* `memcmp` — the comparison of `libc.c`.
* `acpiFindTable` — `acpi_find_table`, with both root formats.
-/

namespace Medlar64

/-- The loop of `memcmp(s1, s2, n)` from index `i` on, with `n` rounds left. The
operands are given by what a read at an index gives. -/
def memcmpFrom (p1 p2 : Nat → Option (BitVec 8)) : Nat → Nat → Option Int
  | 0, _ => some 0
  | n + 1, i => do
    let b1 ← p1 i
    let b2 ← p2 i
    if b1 ≠ b2 then some (if b1 < b2 then -1 else 1) else memcmpFrom p1 p2 n (i + 1)

/-- `memcmp(s1, s2, n)`. -/
def memcmp (p1 p2 : Nat → Option (BitVec 8)) (n : Nat) : Option Int := memcmpFrom p1 p2 n 0

/-- The globals of `acpi.c`. -/
structure Acpi where
  useXsdt : Bool
  rootSdt : Nat

/-- `sizeof(acpi_sdt)`. -/
abbrev sizeofSdt : Nat := 36

/-- The read of `p[i]`, for a pointer to bytes. -/
def Machine.readAt (s : Machine) (p i : Nat) : Option (BitVec 8) :=
  if p + i < 2 ^ 64 then some (s.read8 (p + i)) else none

/-- `!memcmp(sdt->signature, signature, 4)`; taking a member of a null pointer
halts. -/
def hasSignature (s : Machine) (signature : Nat → BitVec 8) (sdt : Nat) : Option Bool :=
  if sdt = 0 then none
  else (memcmp (s.readAt sdt) (fun k => some (signature k)) 4).map fun r => r == 0

/-- `*((u32*)rsdt->table + i)`, or with `u64`. -/
def rootEntry (s : Machine) (root width i : Nat) : Option Nat :=
  if root + sizeofSdt + width * i < 2 ^ 64 then some (s.load (root + sizeofSdt + width * i) width)
  else none

/-- `rsdt->sdt.length`, four bytes into the root table. -/
def rootLength (s : Machine) (root : Nat) : Option Nat :=
  if root = 0 ∨ 2 ^ 64 ≤ root + 4 then none else some (s.load (root + 4) 4)

/-- `(rsdt->sdt.length - sizeof(rsdt->sdt)) / width`, stored in a `u32`. -/
def rootEntries (length width : Nat) : Nat :=
  u64 (length + (2 ^ 64 - sizeofSdt)) / width % 2 ^ 32

/-- The loop over the entries of the root table from index `i` on, with `n` of
them left; 0 for `NULL`. -/
def acpiScan (s : Machine) (root width : Nat) (signature : Nat → BitVec 8) :
    Nat → Nat → Option Nat
  | 0, _ => some 0
  | n + 1, i => do
    let entry ← rootEntry s root width i
    let sdt := s.higherHalf entry
    let found ← hasSignature s signature sdt
    if found then some sdt else acpiScan s root width signature n (i + 1)

/-- `acpi_find_table(signature)`; `some 0` is `NULL`. -/
def acpiFindTable (s : Machine) (a : Acpi) (signature : Nat → BitVec 8) : Option Nat := do
  let length ← rootLength s a.rootSdt
  if !a.useXsdt then acpiScan s a.rootSdt 4 signature (rootEntries length 4) 0
  else acpiScan s a.rootSdt 8 signature (rootEntries length 8) 0

/-- The four characters of `"APIC"`. -/
def apicSignature (k : Nat) : BitVec 8 :=
  match k with
  | 0 => 0x41
  | 1 => 0x50
  | 2 => 0x49
  | 3 => 0x43
  | _ => 0

end Medlar64
