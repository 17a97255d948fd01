import Medlar64.Acpi.Madt

/-!
# Medlar64 — when the MADT walk decodes its table

What the walk does behind the table. Its offsets do not depend on the lists
(`offsetBody`), so a walk that comes back to an entry of the table goes through
the table again and never ends; a walk that ends has noted something more, or
was `Quiet`.
-/

namespace Medlar64

/-- The offsets of the walk, without the lists. -/
def offsetBody (s : Machine) (madt i : Nat) : Nat ⊕ Unit :=
  if i ≤ madtBound s madt then .inl (madtNext s madt i) else .inr ()

section Tail

variable {s : Machine} {madt i j fuel : Nat} {lists lists' : MadtLists} {st st' : MadtLoop}
  {rs pre suf : List MadtRecord}

-- ---------------------------------------------------------------------------
-- One round
-- ---------------------------------------------------------------------------

/-- A round that goes on was within the bound, went on by the length byte and
noted the entry. -/
theorem madtBody_next (h : madtBody s madt st = .inl st') :
    st.i ≤ madtBound s madt ∧ st'.i = madtNext s madt st.i ∧
      st.lists.note (madtType s madt st.i) (madtEntry madt st.i) = some st'.lists := by
  unfold madtBody at h
  split at h
  case isFalse => simp at h
  case isTrue hle =>
    split at h
    case h_1 => simp at h
    case h_2 lists hnote =>
      have hst := Sum.inl.inj h
      rw [← hst]
      exact ⟨hle, rfl, hnote⟩

/-- Behind the bound the walk is over. -/
theorem madtBody_stop (lists : MadtLists) (h : madtBound s madt < i) :
    madtBody s madt ⟨i, lists⟩ = .inr (some lists) := by
  unfold madtBody
  generalize madtBound s madt = last at h ⊢
  exact if_neg (Nat.not_le_of_lt h)

/--
**What noting an entry can do.** An I/O APIC or an override takes a slot, which
must be there; a local APIC address is replaced; an entry of another type
changes nothing. Every result about the lists goes through these four cases.
-/
theorem MadtLists.note_cases {type entry : Nat} (h : lists.note type entry = some lists') :
    (type = 1 ∧ lists.ioapics < 64) ∧ lists'.ioapics = lists.ioapics + 1 ∧
        lists'.isos = lists.isos ∨
      (type = 2 ∧ lists.isos < 64) ∧ lists'.ioapics = lists.ioapics ∧
        lists'.isos = lists.isos + 1 ∨
      type = 5 ∧ lists' = { lists with lapicAddr := some entry } ∨
      (type ≠ 1 ∧ type ≠ 2 ∧ type ≠ 5) ∧ lists' = lists := by
  unfold MadtLists.note at h
  split at h
  case h_1 =>
    -- a store behind the last slot leaves no lists
    split at h
    case isTrue hlt =>
      obtain rfl := Option.some.inj h
      exact .inl ⟨⟨rfl, hlt⟩, rfl, rfl⟩
    case isFalse => simp at h
  case h_2 =>
    split at h
    case isTrue hlt =>
      obtain rfl := Option.some.inj h
      exact .inr (.inl ⟨⟨rfl, hlt⟩, rfl, rfl⟩)
    case isFalse => simp at h
  case h_3 =>
    obtain rfl := Option.some.inj h
    exact .inr (.inr (.inl ⟨rfl, rfl⟩))
  case h_4 hne1 hne2 hne5 =>
    obtain rfl := Option.some.inj h
    exact .inr (.inr (.inr ⟨⟨hne1, hne2, hne5⟩, rfl⟩))

/-- A header of any other type is passed over. -/
theorem MadtLists.note_other {type entry : Nat} (h1 : type ≠ 1) (h2 : type ≠ 2) (h5 : type ≠ 5) :
    lists.note type entry = some lists := by
  unfold MadtLists.note
  split
  · exact absurd rfl h1
  · exact absurd rfl h2
  · exact absurd rfl h5
  · rfl

/-- A walk that ends: the headers noted on the way take `lists` to `lists'`. -/
inductive MadtWalk (s : Machine) (madt : Nat) : Nat → MadtLists → MadtLists → Prop
  | stop {i : Nat} {lists : MadtLists} (h : madtBound s madt < i) : MadtWalk s madt i lists lists
  | note {i : Nat} {lists lists₁ lists' : MadtLists} (hle : i ≤ madtBound s madt)
      (hnote : lists.note (madtType s madt i) (madtEntry madt i) = some lists₁)
      (hrest : MadtWalk s madt (madtNext s madt i) lists₁ lists') : MadtWalk s madt i lists lists'

/-- A run of the loop that ends is a finite walk; by induction on its rounds.
The last round is the one whose offset is beyond the bound, every other notes
the entry it looks at. -/
theorem walk_of_run (h : whileRun (madtBody s madt) fuel ⟨i, lists⟩ = some (some lists')) :
    MadtWalk s madt i lists lists' := by
  -- on the rounds
  induction fuel generalizing i lists with
  | zero => simp [whileRun] at h
  | succ fuel ih =>
    cases hbody : madtBody s madt ⟨i, lists⟩ with
    | inr result =>
      rw [whileRun_done hbody] at h
      obtain rfl := Option.some.inj h
      unfold madtBody at hbody
      split at hbody
      case isTrue =>
        split at hbody <;> simp at hbody
      case isFalse hstop =>
        obtain rfl := Option.some.inj (Sum.inr.inj hbody)
        exact .stop (Nat.lt_of_not_le hstop)
    | inl st =>
      obtain ⟨hle, hnext, hnote⟩ := madtBody_next hbody
      obtain ⟨i', lists₁⟩ := st
      simp only at hle hnext hnote
      subst hnext
      rw [whileRun_next hbody] at h
      exact .note hle hnote (ih h)

-- ---------------------------------------------------------------------------
-- The offsets
-- ---------------------------------------------------------------------------

theorem offsetBody_next (h : i ≤ madtBound s madt) :
    offsetBody s madt i = .inl (madtNext s madt i) := if_pos h

/-- Offsets are of 32 bits, like the variable of the source. -/
theorem offset_lt (h : Visits (offsetBody s madt) i j) (hi : i < 2 ^ 32) : j < 2 ^ 32 := by
  have hround : ∀ a b, a < 2 ^ 32 → offsetBody s madt a = .inl b → b < 2 ^ 32 := by
    intro a b _ hstep
    unfold offsetBody at hstep
    split at hstep
    case isTrue =>
      rw [← Sum.inl.inj hstep]
      exact Nat.mod_lt _ (by decide)
    case isFalse => simp at hstep
  exact h.inv hi hround

/-- From an entry of the table the offsets reach the end of the table, by
induction on the entries behind it. -/
theorem offset_visits_end (h : MadtTable s madt (pre ++ suf)) :
    Visits (offsetBody s madt) (encode pre).length (encode (pre ++ suf)).length := by
  -- on the entries still to come
  induction suf generalizing pre with
  | nil =>
    rw [List.append_nil]
    exact .refl
  | cons r suf ih =>
    obtain ⟨-, hnext⟩ := h.header
    have hlist : pre ++ r :: suf = pre ++ [r] ++ suf := by simp
    have hstep := offsetBody_next h.inRange
    rw [hnext] at hstep
    rw [hlist] at h ⊢
    exact (ih h).head hstep

/-- The local APIC address decoded is that of an entry, the last one of type
5. -/
theorem exists_lapic_entry {p : Nat} (h : (decoded madt rs).lapicAddr = some p) :
    ∃ pre r suf, rs = pre ++ r :: suf ∧ p = madtEntry madt (encode pre).length := by
  unfold decoded at h
  simp only at h
  -- on the entries; the last one of type 5 decides
  induction rs using List.reverseRecOn with
  | nil => simp [entriesOf, placed] at h
  | append_singleton rs r ih =>
    rw [entriesOf_append] at h
    by_cases htype : r.type.toNat = 5
    · rw [if_pos htype, List.getLast?_concat] at h
      exact ⟨rs, r, [], rfl, (Option.some.inj h).symm⟩
    · rw [if_neg htype, List.append_nil] at h
      obtain ⟨pre, r', suf, rfl, hp⟩ := ih h
      exact ⟨pre, r', suf ++ [r], by simp, hp⟩

-- ---------------------------------------------------------------------------
-- Behind the table
-- ---------------------------------------------------------------------------

/-- A quiet walk ends with the lists it began with. -/
theorem Quiet.run (h : Quiet s madt (madtBound s madt) i) (lists : MadtLists) :
    ∃ fuel, whileRun (madtBody s madt) fuel ⟨i, lists⟩ = some (some lists) := by
  induction h with
  | stop hstop => exact ⟨1, whileRun_done (madtBody_stop lists hstop)⟩
  | @skip i hle h1 h2 h5 _ ih =>
    obtain ⟨fuel, hfuel⟩ := ih
    have hbody : madtBody s madt ⟨i, lists⟩ = .inl ⟨madtNext s madt i, lists⟩ := by
      unfold madtBody
      rw [if_pos hle, MadtLists.note_other h1 h2 h5]
    exact ⟨fuel + 1, (whileRun_next hbody).trans hfuel⟩

/-- The offsets of a walk that ends leave the range. -/
theorem MadtWalk.offsets (h : MadtWalk s madt i lists lists') :
    ∃ k, whileRun (offsetBody s madt) k i = some () := by
  induction h with
  | stop hstop => exact ⟨1, whileRun_done (if_neg (Nat.not_le_of_lt hstop))⟩
  | note hle _ _ ih =>
    obtain ⟨k, hk⟩ := ih
    exact ⟨k + 1, (whileRun_next (offsetBody_next hle)).trans hk⟩

/-- A walk takes nothing out of a list. -/
theorem MadtWalk.mono (h : MadtWalk s madt i lists lists') :
    lists.ioapics ≤ lists'.ioapics ∧ lists.isos ≤ lists'.isos := by
  induction h with
  | stop => exact ⟨Nat.le_refl _, Nat.le_refl _⟩
  | note _ hnote _ ih =>
    rcases MadtLists.note_cases hnote with ⟨-, h1, h2⟩ | ⟨-, h1, h2⟩ | ⟨-, rfl⟩ | ⟨-, rfl⟩
    · omega
    · omega
    · exact ih
    · exact ih

/-- A walk was quiet, or it has added to a list, or the local APIC address it
ends with is that of a header it met. -/
theorem MadtWalk.cases (h : MadtWalk s madt i lists lists') :
    Quiet s madt (madtBound s madt) i ∧ lists' = lists ∨ lists.ioapics < lists'.ioapics ∨
      lists.isos < lists'.isos ∨
      ∃ j, Visits (offsetBody s madt) i j ∧ j ≤ madtBound s madt ∧
        lists'.lapicAddr = some (madtEntry madt j) := by
  induction h with
  | stop hstop => exact .inl ⟨.stop hstop, rfl⟩
  | @note i lists lists₁ lists' hle hnote hrest ih =>
    obtain ⟨hmono1, hmono2⟩ := hrest.mono
    rcases MadtLists.note_cases hnote with ⟨-, h1, -⟩ | ⟨-, -, h2⟩ | ⟨-, rfl⟩ | ⟨hne, rfl⟩
    · -- a header noted in a list stays there
      exact .inr (.inl (by omega))
    · exact .inr (.inr (.inl (by omega)))
    · -- the address noted here stays, unless a later header is noted
      rcases ih with ⟨-, rfl⟩ | hlt | hlt | ⟨j, hvis, hj⟩
      · exact .inr (.inr (.inr ⟨i, .refl, hle, rfl⟩))
      · exact .inr (.inl hlt)
      · exact .inr (.inr (.inl hlt))
      · exact .inr (.inr (.inr ⟨j, hvis.head (offsetBody_next hle), hj⟩))
    · -- a header passed over changes nothing
      rcases ih with ⟨hquiet, rfl⟩ | hlt | hlt | ⟨j, hvis, hj⟩
      · exact .inl ⟨.skip hle hne.1 hne.2.1 hne.2.2 hquiet, rfl⟩
      · exact .inr (.inl hlt)
      · exact .inr (.inr (.inl hlt))
      · exact .inr (.inr (.inr ⟨j, hvis.head (offsetBody_next hle), hj⟩))

/--
**A walk that adds nothing behind the table was quiet.** It met no I/O APIC and
no override there, since each would have made a list longer. A local APIC
address could only leave the same address behind if the walk were back at the
entry the address came from; but then it would go through the table again and
never end.
-/
theorem quiet_of_run (h : MadtTable s madt rs)
    (hrun : whileRun (madtBody s madt) fuel ⟨(encode rs).length, decoded madt rs⟩ =
      some (some (decoded madt rs))) :
    Quiet s madt (madtBound s madt) (encode rs).length := by
  have hsize := h.size_lt
  have hwalk := walk_of_run hrun
  obtain ⟨k, hk⟩ := hwalk.offsets
  rcases hwalk.cases with ⟨hquiet, -⟩ | hlt | hlt | ⟨j, hvis, hj, hlapic⟩
  · exact hquiet
  · exact absurd hlt (Nat.lt_irrefl _)
  · exact absurd hlt (Nat.lt_irrefl _)
  · -- the header met is an entry of the table, so the offsets run in a circle
    obtain ⟨pre, r, suf, rfl, hentry⟩ := exists_lapic_entry hlapic
    have hpre := encode_length_le pre (r :: suf)
    have hjlt := offset_lt hvis (Nat.lt_of_le_of_lt (Nat.le_add_left _ 44) hsize)
    -- the pointers are equal, and neither offset wraps
    have hsame : j = (encode pre).length := by
      unfold madtEntry u64 at hentry
      omega
    obtain ⟨-, hnext⟩ := h.header
    have hlist : pre ++ r :: suf = pre ++ [r] ++ suf := by simp
    have hstep := offsetBody_next hj
    rw [hsame, hnext] at hstep
    rw [hsame] at hvis
    have hend : Visits (offsetBody s madt) (encode (pre ++ [r])).length
        (encode (pre ++ r :: suf)).length := by
      rw [hlist] at h ⊢
      exact offset_visits_end h
    -- the walk comes back to an offset it has left, so it does not end
    obtain ⟨k', -, hk'⟩ := hvis.rest hk
    rw [whileRun_cycle hstep (hend.trans hvis)] at hk'
    simp at hk'

/-- The walk decodes its table exactly when it is quiet behind it. Inside of
the table it notes the entries; what it notes behind the end is one entry too
many. -/
theorem run_decoded_iff (h : MadtTable s madt rs) (h1 : (entriesOf 1 madt rs).length ≤ 64)
    (h2 : (entriesOf 2 madt rs).length ≤ 64) :
    (∃ fuel, whileRun (madtBody s madt) fuel ⟨0, .empty⟩ = some (some (decoded madt rs))) ↔
      Quiet s madt ((encode rs).length + 36) (encode rs).length := by
  have hvis := madt_visits_end h h1 h2
  rw [← h.bound]
  constructor
  · rintro ⟨fuel, hrun⟩
    obtain ⟨k, -, hk⟩ := hvis.rest hrun
    exact quiet_of_run h hk
  · intro hquiet
    obtain ⟨fuel, hrun⟩ := hquiet.run (decoded madt rs)
    exact hvis.run hrun

end Tail

-- ---------------------------------------------------------------------------
-- `madt_init`
-- ---------------------------------------------------------------------------

/-- `madt_init`, from empty lists, ends with what the table encodes. -/
def MadtDecodes (s : Machine) (a : Acpi) (madt : Nat) (rs : List MadtRecord) : Prop :=
  ∃ fuel, madtInit s a .empty fuel = some (some (decoded madt rs))

/-- With the table found, `madt_init` is its loop. -/
theorem madtInit_eq {s : Machine} {a : Acpi} {madt : Nat}
    (hfind : acpiFindTable s a apicSignature = some madt) (hne : madt ≠ 0) (lists : MadtLists)
    (fuel : Nat) :
    madtInit s a lists fuel = whileRun (madtBody s madt) fuel { i := 0, lists } := by
  unfold madtInit
  rw [hfind]
  exact if_neg hne

/-- **When `madt_init` inverts the encoding of its table.** With at most 64 I/O
APICs and 64 overrides, it ends with exactly the entries of the table if and
only if the walk on from the end of the table, for as long as the offset is at
most 36 behind it, meets no header of a type that is noted, and ends. -/
theorem madt_decode_iff (s : Machine) (a : Acpi) (madt : Nat) (rs : List MadtRecord)
    (hfind : acpiFindTable s a apicSignature = some madt) (hne : madt ≠ 0)
    (htable : MadtTable s madt rs)
    (h1 : (rs.filter fun r => r.type.toNat = 1).length ≤ 64)
    (h2 : (rs.filter fun r => r.type.toNat = 2).length ≤ 64) :
    MadtDecodes s a madt rs ↔ Quiet s madt ((encode rs).length + 36) (encode rs).length := by
  rw [← entriesOf_length 1 madt] at h1
  rw [← entriesOf_length 2 madt] at h2
  unfold MadtDecodes
  simp only [madtInit_eq hfind hne]
  exact run_decoded_iff htable h1 h2

/-- An RSDT with one entry, a MADT with one I/O APIC, and behind it a header
of the given type and 37 bytes. The RSDT is at physical address 4096, the MADT
at 4136. -/
def madtBytes (type : BitVec 8) : List (BitVec 8) :=
  List.replicate 4 0 ++ [40, 0, 0, 0] ++ List.replicate 28 0 ++ [0x28, 0x10, 0, 0] ++
    [0x41, 0x50, 0x49, 0x43, 56, 0, 0, 0] ++ List.replicate 36 0 ++
    [1, 12, 0, 0, 0, 0, 0, 0, 0, 0, 0, 0] ++ [type, 37]

def madtMachine (type : BitVec 8) : Machine :=
  Machine.boot (fun x => if x < 4096 then 0 else ((madtBytes type)[x - 4096]?).getD 0) usualHhdm

/-- The pointers to the two tables. -/
def madtAcpi : Acpi := ⟨false, usualHhdm + 4096⟩

def madtAddr : Nat := usualHhdm + 4136

def madtIoapic : MadtRecord := ⟨1, List.replicate 10 0, by decide⟩

/-- The firmware of the examples has a table with the signature of the MADT, -/
theorem madtMachine_find (type : BitVec 8) (h : type = 0 ∨ type = 1) :
    acpiFindTable (madtMachine type) madtAcpi apicSignature = some madtAddr := by
  rcases h with rfl | rfl <;> decide +kernel

/-- whose one entry is an I/O APIC. -/
theorem madtMachine_table (type : BitVec 8) (h : type = 0 ∨ type = 1) :
    MadtTable (madtMachine type) madtAddr [madtIoapic] where
  length := by rcases h with rfl | rfl <;> decide +kernel
  bytes k b hb := by
    have hk : k < 12 := (List.getElem?_eq_some_iff.mp hb).1
    have hread : ∀ k < 12, (encode [madtIoapic])[k]? =
        some ((madtMachine type).read8 (madtAddr + 44 + k)) := by
      rcases h with rfl | rfl <;> decide +kernel
    exact Option.some.inj ((hread k hk).symm.trans hb)

/-- A header of type 0 behind the table: the walk passes over it and ends, with
the one I/O APIC of the table. -/
theorem madt_decode_iff_quiet :
    MadtDecodes (madtMachine 0) madtAcpi madtAddr [madtIoapic] ↔
      Quiet (madtMachine 0) madtAddr ((encode [madtIoapic]).length + 36)
        (encode [madtIoapic]).length :=
  madt_decode_iff (madtMachine 0) madtAcpi madtAddr [madtIoapic] (madtMachine_find 0 (.inl rfl))
    (by decide) (madtMachine_table 0 (.inl rfl)) (by decide) (by decide)

/-- A header of type 1 behind the table is noted as a second I/O APIC. The
entry takes 12 of the table's 56 bytes, and the walk goes on up to offset 48:
`sizeof(madt)` is the 8 bytes of a pointer, where the header has 44. -/
theorem madt_not_decoded :
    ¬ ∀ (s : Machine) (a : Acpi) (madt : Nat) (rs : List MadtRecord),
      acpiFindTable s a apicSignature = some madt → madt ≠ 0 → MadtTable s madt rs →
      (rs.filter fun r => r.type.toNat = 1).length ≤ 64 →
      (rs.filter fun r => r.type.toNat = 2).length ≤ 64 → MadtDecodes s a madt rs := by
  intro h
  have hdec := h (madtMachine 1) madtAcpi madtAddr [madtIoapic] (madtMachine_find 1 (.inr rfl))
    (by decide) (madtMachine_table 1 (.inr rfl)) (by decide) (by decide)
  unfold MadtDecodes at hdec
  simp only [madtInit_eq (madtMachine_find 1 (.inr rfl)) (by decide)] at hdec
  rw [run_decoded_iff (madtMachine_table 1 (.inr rfl)) (by decide) (by decide)] at hdec
  cases hdec with
  | stop hlt => exact absurd hlt (by decide)
  | skip _ h1 => exact h1 rfl

end Medlar64
