import Mathlib.Data.List.Induction
import Mathlib.Logic.Function.Basic
import Medlar64.Acpi.Acpi

/-!
# Medlar64 — the MADT walk (`madt.c`)

`madt_init` walks the interrupt controller entries of the MADT and notes the
I/O APICs, the interrupt source overrides and the local APIC address it meets.
Its loop runs while the offset is at most `madt->length - sizeof(madt)`, where
`madt` is a pointer: 8 bytes are taken off for a header of 44, so that the walk
goes on for up to 36 bytes behind the table.

* `madtInit` — the source function.
* `encode`, `decoded` — a list of entries as the bytes of a table, and what
  `madt_init` is to make of it.
* `madt_visits_end` — from the front of the table the walk reaches its end
  with exactly the entries noted.
* `madt_decode_iff` — `madt_init` ends with exactly that if and only if the
  walk behind the table is `Quiet`.
-/

namespace Medlar64

-- ---------------------------------------------------------------------------
-- The source function
-- ---------------------------------------------------------------------------

/-- The globals of `madt.c`; `none` is a `NULL` pointer. -/
structure MadtLists where
  ioapicList : Nat → Nat
  ioapics : Nat
  isoList : Nat → Nat
  isos : Nat
  lapicAddr : Option Nat

def MadtLists.empty : MadtLists :=
  { ioapicList := fun _ => 0, ioapics := 0, isoList := fun _ => 0, isos := 0, lapicAddr := none }

/-- The `switch` on the type of an entry. A store past the 64 slots of a list
is caught by the sanitizer, which halts. -/
def MadtLists.note (m : MadtLists) (type entry : Nat) : Option MadtLists :=
  match type with
  | 1 =>
    if m.ioapics < 64 then
      some { m with ioapicList := Function.update m.ioapicList m.ioapics entry
                    ioapics := m.ioapics + 1 }
    else none
  | 2 =>
    if m.isos < 64 then
      some { m with isoList := Function.update m.isoList m.isos entry, isos := m.isos + 1 }
    else none
  | 5 => some { m with lapicAddr := some entry }
  | _ => some m

/-- `madt->table + i`. -/
def madtEntry (madt i : Nat) : Nat := u64 (madt + 44 + i)

/-- `entry->type`. -/
def madtType (s : Machine) (madt i : Nat) : Nat := (s.read8 (madt + 44 + i)).toNat

/-- `entry->length`. -/
def madtLength (s : Machine) (madt i : Nat) : Nat := (s.read8 (madt + 44 + i + 1)).toNat

/-- `madt->length - sizeof(madt)`: the size of a pointer. -/
def madtBound (s : Machine) (madt : Nat) : Nat := u64 (s.load (madt + 4) 4 + (2 ^ 64 - 8))

/-- `i + entry->length`, a `u32`. -/
def madtNext (s : Machine) (madt i : Nat) : Nat := (i + madtLength s madt i) % 2 ^ 32

/-- The loop of `madt_init`: its offset and the globals. -/
structure MadtLoop where
  i : Nat
  lists : MadtLists

def madtBody (s : Machine) (madt : Nat) (st : MadtLoop) : MadtLoop ⊕ Option MadtLists :=
  if st.i ≤ madtBound s madt then
    match st.lists.note (madtType s madt st.i) (madtEntry madt st.i) with
    | none => .inr none
    | some lists => .inl { i := madtNext s madt st.i, lists }
  else
    .inr (some st.lists)

/-- `madt_init()`, for at most `fuel` rounds; the inner `none` is a halt. The search
for the table may halt, and a `NULL` table halts at its first access. -/
def madtInit (s : Machine) (a : Acpi) (lists : MadtLists) (fuel : Nat) :
    Option (Option MadtLists) :=
  match acpiFindTable s a apicSignature with
  | none => some none
  | some madt =>
    if madt = 0 then some none else whileRun (madtBody s madt) fuel { i := 0, lists }

-- ---------------------------------------------------------------------------
-- Tables in memory
-- ---------------------------------------------------------------------------

/-- An interrupt controller entry: its length byte covers the two bytes of its
header and its body. -/
structure MadtRecord where
  type : BitVec 8
  body : List (BitVec 8)
  fits : body.length ≤ 253

def MadtRecord.length (r : MadtRecord) : Nat := 2 + r.body.length

def MadtRecord.bytes (r : MadtRecord) : List (BitVec 8) :=
  r.type :: BitVec.ofNat 8 r.length :: r.body

/-- The entries back to back. -/
def encode (rs : List MadtRecord) : List (BitVec 8) := rs.flatMap MadtRecord.bytes

/-- The entries lie behind the header at `madt`, and the length field covers
the header and them. -/
structure MadtTable (s : Machine) (madt : Nat) (rs : List MadtRecord) : Prop where
  length : s.load (madt + 4) 4 = 44 + (encode rs).length
  bytes : ∀ k b, (encode rs)[k]? = some b → s.read8 (madt + 44 + k) = b

/-- The entries from offset `i` on, each with its offset. -/
def placed : Nat → List MadtRecord → List (Nat × MadtRecord)
  | _, [] => []
  | i, r :: rs => (i, r) :: placed (i + r.length) rs

/-- Pointers to the entries of a type, in order. -/
def entriesOf (type madt : Nat) (rs : List MadtRecord) : List Nat :=
  ((placed 0 rs).filter fun p => p.2.type.toNat = type).map fun p => madtEntry madt p.1

/-- What decoding the entries is to give: the I/O APICs and the overrides in
order, and the last local APIC address. -/
def decoded (madt : Nat) (rs : List MadtRecord) : MadtLists :=
  { ioapicList := fun k => ((entriesOf 1 madt rs)[k]?).getD 0
    ioapics := (entriesOf 1 madt rs).length
    isoList := fun k => ((entriesOf 2 madt rs)[k]?).getD 0
    isos := (entriesOf 2 madt rs).length
    lapicAddr := (entriesOf 5 madt rs).getLast? }

/-- The walk from offset `i` on meets no header of a type that `madt_init`
notes, and leaves the range up to `last`. -/
inductive Quiet (s : Machine) (madt last : Nat) : Nat → Prop
  | stop {i : Nat} (h : last < i) : Quiet s madt last i
  | skip {i : Nat} (h : i ≤ last) (h1 : madtType s madt i ≠ 1) (h2 : madtType s madt i ≠ 2)
      (h5 : madtType s madt i ≠ 5) (hnext : Quiet s madt last (madtNext s madt i)) :
      Quiet s madt last i

-- ---------------------------------------------------------------------------
-- Encodings
-- ---------------------------------------------------------------------------

/-- A record takes as many bytes as its length byte says. -/
theorem MadtRecord.bytes_length (r : MadtRecord) : r.bytes.length = r.length := by
  show r.body.length + 1 + 1 = 2 + r.body.length
  omega

/-- One record more makes the table longer by its length, -/
theorem encode_append (rs : List MadtRecord) (r : MadtRecord) :
    (encode (rs ++ [r])).length = (encode rs).length + r.length := by
  unfold encode
  rw [List.flatMap_append, List.length_append, List.flatMap_singleton, r.bytes_length]

/-- Entries come before the end of every table that begins with them. -/
theorem encode_length_le (pre suf : List MadtRecord) :
    (encode pre).length ≤ (encode (pre ++ suf)).length := by
  unfold encode
  rw [List.flatMap_append, List.length_append]
  exact Nat.le_add_right _ _

/-- lies behind those before it, -/
theorem placed_append (i : Nat) (rs : List MadtRecord) (r : MadtRecord) :
    placed i (rs ++ [r]) = placed i rs ++ [(i + (encode rs).length, r)] := by
  induction rs generalizing i with
  | nil => rfl
  | cons r' rs ih =>
    have hsize : (encode (r' :: rs)).length = r'.length + (encode rs).length := by
      unfold encode
      rw [List.flatMap_cons, List.length_append, r'.bytes_length]
    rw [List.cons_append, placed, placed, ih, List.cons_append, hsize, Nat.add_assoc]

/-- and is an entry of its type. -/
theorem entriesOf_append (type madt : Nat) (rs : List MadtRecord) (r : MadtRecord) :
    entriesOf type madt (rs ++ [r]) = entriesOf type madt rs ++
      if r.type.toNat = type then [madtEntry madt (encode rs).length] else [] := by
  unfold entriesOf
  rw [placed_append, List.filter_append, List.map_append, Nat.zero_add]
  congr 1
  by_cases h : r.type.toNat = type
  · rw [if_pos h, List.filter_cons_of_pos (by simpa using h)]
    rfl
  · rw [if_neg h, List.filter_cons_of_neg (by simpa using h)]
    rfl

/-- The entries of a type are as many as the records of that type. -/
theorem entriesOf_length (type madt : Nat) (rs : List MadtRecord) :
    (entriesOf type madt rs).length = (rs.filter fun r => r.type.toNat = type).length := by
  induction rs using List.reverseRecOn with
  | nil => rfl
  | append_singleton rs r ih =>
    rw [entriesOf_append, List.length_append, ih, List.filter_append, List.length_append]
    by_cases h : r.type.toNat = type
    · rw [if_pos h, List.filter_cons_of_pos (by simpa using h)]
      rfl
    · rw [if_neg h, List.filter_cons_of_neg (by simpa using h)]
      rfl

/-- A list written into an array, with one more element. -/
theorem getD_append (l : List Nat) (x : Nat) :
    Function.update (fun k => (l[k]?).getD 0) l.length x = fun k => ((l ++ [x])[k]?).getD 0 := by
  funext k
  rw [Function.update_apply]
  by_cases hk : k = l.length
  · subst hk
    rw [if_pos rfl, List.getElem?_append_right (Nat.le_refl _)]
    simp
  · rw [if_neg hk]
    rcases Nat.lt_or_ge k l.length with hlt | hge
    · rw [List.getElem?_append_left hlt]
    · rw [List.getElem?_append_right hge, List.getElem?_eq_none (by omega),
        List.getElem?_eq_none (by simp; omega)]

/--
**One entry.** What `madt_init` notes at an entry is what it is to make of the
records up to and with that one, provided the lists have room. The cases are
those of its `switch`.
-/
theorem decoded_append (madt : Nat) (rs : List MadtRecord) (r : MadtRecord)
    (h1 : (entriesOf 1 madt (rs ++ [r])).length ≤ 64)
    (h2 : (entriesOf 2 madt (rs ++ [r])).length ≤ 64) :
    (decoded madt rs).note r.type.toNat (madtEntry madt (encode rs).length) =
      some (decoded madt (rs ++ [r])) := by
  have happ := fun type => entriesOf_append type madt rs r
  rw [happ 1, List.length_append] at h1
  rw [happ 2, List.length_append] at h2
  unfold decoded
  rw [happ 1, happ 2, happ 5]
  generalize r.type.toNat = type at h1 h2 ⊢
  unfold MadtLists.note
  split
  -- the `switch` of the source: an I/O APIC, an override, a local APIC address, or neither
  case h_1 =>
    rw [if_pos rfl, List.length_singleton] at h1
    rw [if_pos (Nat.lt_of_succ_le h1)]
    simp [getD_append]
  case h_2 =>
    rw [if_pos rfl, List.length_singleton] at h2
    rw [if_pos (Nat.lt_of_succ_le h2)]
    simp [getD_append]
  case h_3 => simp
  case h_4 hne1 hne2 hne5 =>
    rw [if_neg hne1, if_neg hne2, if_neg hne5, List.append_nil, List.append_nil, List.append_nil]

-- ---------------------------------------------------------------------------
-- The walk through the entries
-- ---------------------------------------------------------------------------

section Walk

variable {s : Machine} {madt : Nat} {rs pre suf : List MadtRecord} {r : MadtRecord}

theorem MadtTable.size_lt (h : MadtTable s madt rs) : 44 + (encode rs).length < 2 ^ 32 := by
  rw [← h.length]
  exact loadLE_lt s.mem _ 4

/-- The bound of the loop: 8 bytes are taken off where the header has 44, so it
lies 36 bytes behind the last entry. -/
theorem MadtTable.bound (h : MadtTable s madt rs) :
    madtBound s madt = (encode rs).length + 36 := by
  have hlt := h.size_lt
  unfold madtBound u64
  rw [h.length]
  omega

/-- An entry of the table, and the end of it, are in the range of the walk. -/
theorem MadtTable.inRange (h : MadtTable s madt (pre ++ suf)) :
    (encode pre).length ≤ madtBound s madt := by
  rw [h.bound]
  exact Nat.le_trans (encode_length_le pre suf) (Nat.le_add_right _ 36)

/--
**The header of an entry.** Between the entries before it and those behind it,
the walk reads the type of the record, and the length byte takes it to the end
of the record. Nothing wraps, since the table is shorter than 2^32.
-/
theorem MadtTable.header (h : MadtTable s madt (pre ++ r :: suf)) :
    madtType s madt (encode pre).length = r.type.toNat ∧
      madtNext s madt (encode pre).length = (encode (pre ++ [r])).length := by
  have hfits := r.fits
  have hlt := h.size_lt
  have hbytes : encode (pre ++ r :: suf) =
      encode pre ++ (r.type :: BitVec.ofNat 8 r.length :: (r.body ++ encode suf)) := by
    unfold encode
    rw [List.flatMap_append, List.flatMap_cons]
    rfl
  -- the two bytes of the header, at the end of the entries before
  have htype := h.bytes (encode pre).length r.type (by
    rw [hbytes, List.getElem?_append_right (Nat.le_refl _), Nat.sub_self]
    rfl)
  have hlength := h.bytes ((encode pre).length + 1) (BitVec.ofNat 8 r.length) (by
    rw [hbytes, List.getElem?_append_right (by omega), Nat.add_sub_cancel_left]
    rfl)
  rw [encode_append]
  refine ⟨by rw [madtType, htype], ?_⟩
  have hsize : (encode pre).length + r.length ≤ (encode (pre ++ r :: suf)).length := by
    rw [hbytes, List.length_append, MadtRecord.length]
    simp
    omega
  -- a record is short enough for its length byte
  have hbyte : (BitVec.ofNat 8 r.length).toNat = r.length := by
    rw [BitVec.toNat_ofNat]
    exact Nat.mod_eq_of_lt (by unfold MadtRecord.length; omega)
  unfold madtNext madtLength
  rw [Nat.add_assoc (madt + 44), hlength, hbyte]
  exact Nat.mod_eq_of_lt (by omega)

/--
**The walk through the table.** From its front the loop reaches the end of the
entries with exactly the entries noted. By induction on the entries passed,
from the front: a round of the loop is one entry more.
-/
theorem madt_visits_end (h : MadtTable s madt rs) (h1 : (entriesOf 1 madt rs).length ≤ 64)
    (h2 : (entriesOf 2 madt rs).length ≤ 64) :
    Visits (madtBody s madt) ⟨0, .empty⟩ ⟨(encode rs).length, decoded madt rs⟩ := by
  suffices hgen : ∀ pre suf, rs = pre ++ suf →
      Visits (madtBody s madt) ⟨0, .empty⟩ ⟨(encode pre).length, decoded madt pre⟩ from
    hgen rs [] (List.append_nil rs).symm
  -- on the entries passed; a round is one entry more
  intro pre
  induction pre using List.reverseRecOn with
  | nil => exact fun _ _ => .refl
  | append_singleton pre r ih =>
    rintro suf rfl
    have hlist : pre ++ [r] ++ suf = pre ++ r :: suf := by simp
    refine (ih (r :: suf) hlist).tail ?_
    rw [hlist] at h h1 h2
    obtain ⟨htype, hnext⟩ := h.header
    have hin := h.inRange
    -- the lists have room for the entries still to come
    have hcount : ∀ type, (entriesOf type madt (pre ++ [r])).length ≤
        (entriesOf type madt (pre ++ r :: suf)).length := by
      intro type
      rw [entriesOf_length, entriesOf_length, ← hlist, List.filter_append _ suf,
        List.length_append]
      omega
    rw [madtBody, if_pos hin, htype,
      decoded_append madt pre r (Nat.le_trans (hcount 1) h1) (Nat.le_trans (hcount 2) h2), hnext]

end Walk

end Medlar64
