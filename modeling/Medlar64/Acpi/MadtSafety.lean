import Medlar64.Acpi.MadtDecode

/-!
# Medlar64 — which tables the MADT walk survives

`madt_init` on any table, well formed or not. Its first round is taken whatever
the length field says, a length byte of 0 keeps it where it is, and it stops 36
bytes too late, so that it leaves almost every table before it ends.

* `madtOffset`, `headersMet` — where the headers of the walk lie, and how many
  of a type are among the first of them.
* `fit_of_visits`, `visits_of_fit` — the states of the loop in these terms.
* `madt_survives_iff` — `madt_init` ends and looks at nothing outside its table
  if and only if the last header inside the table takes it more than 36 bytes
  behind the end.
* `MadtTable.not_survives` — no table filled by its entries is survived.
-/

namespace Medlar64

/-- The offset of the `k`-th header that the walk meets from offset `start`. -/
def madtOffset (s : Machine) (madt start : Nat) : Nat → Nat
  | 0 => start
  | k + 1 => madtNext s madt (madtOffset s madt start k)

/-- How many of the first `n` headers from `start` have the type. -/
def headersMet (s : Machine) (madt start type : Nat) : Nat → Nat
  | 0 => 0
  | n + 1 =>
    headersMet s madt start type n +
      if madtType s madt (madtOffset s madt start n) = type then 1 else 0

/-- `madt_init` ends, and every header it looks at lies inside the bytes that
the length field of its table covers. -/
structure MadtSurvives (s : Machine) (a : Acpi) (madt : Nat) : Prop where
  ends : ∃ fuel lists, madtInit s a .empty fuel = some (some lists)
  inside : ∀ st, Visits (madtBody s madt) ⟨0, .empty⟩ st → st.i ≤ madtBound s madt →
    44 + st.i + 2 ≤ s.load (madt + 4) 4

section Headers

variable {s : Machine} {madt start type k m n : Nat} {lists : MadtLists} {st : MadtLoop}

-- ---------------------------------------------------------------------------
-- Offsets and headers
-- ---------------------------------------------------------------------------

/-- The offsets from the `n`-th header on are those of a walk that starts
there, -/
theorem madtOffset_shift (s : Machine) (madt start n k : Nat) :
    madtOffset s madt start (n + k) = madtOffset s madt (madtOffset s madt start n) k := by
  induction k with
  | zero => rfl
  | succ k ih =>
    rw [← Nat.add_assoc, madtOffset, ih]
    rfl

/-- and so are the counts. -/
theorem headersMet_shift (s : Machine) (madt start type n k : Nat) :
    headersMet s madt start type (n + k) =
      headersMet s madt start type n + headersMet s madt (madtOffset s madt start n) type k := by
  induction k with
  | zero => rfl
  | succ k ih => rw [← Nat.add_assoc, headersMet, ih, headersMet, madtOffset_shift, Nat.add_assoc]

/-- More headers, no fewer of a type. -/
theorem headersMet_mono (h : m ≤ n) :
    headersMet s madt start type m ≤ headersMet s madt start type n := by
  obtain ⟨k, rfl⟩ := Nat.le.dest h
  rw [headersMet_shift]
  exact Nat.le_add_right _ _

-- ---------------------------------------------------------------------------
-- The states of the loop
-- ---------------------------------------------------------------------------

/-- The walk has met `n` headers, and the lists hold those of their types. -/
structure HeadersNoted (s : Machine) (madt n : Nat) (st : MadtLoop) : Prop where
  offset : st.i = madtOffset s madt 0 n
  ioapics : st.lists.ioapics = headersMet s madt 0 1 n
  isos : st.lists.isos = headersMet s madt 0 2 n

/-- A header noted is one header more. The counts of the two lists follow the
types of the headers met. -/
theorem HeadersNoted.next {st' : MadtLoop} (h : HeadersNoted s madt n st)
    (hstep : madtBody s madt st = .inl st') : HeadersNoted s madt (n + 1) st' := by
  obtain ⟨-, hnext, hnote⟩ := madtBody_next hstep
  rw [h.offset] at hnext hnote
  have hone := h.ioapics
  have htwo := h.isos
  refine ⟨hnext, ?_, ?_⟩
  -- the four cases of the `switch`
  all_goals
    rw [headersMet]
    rcases MadtLists.note_cases hnote with ⟨⟨htype, -⟩, h1, h2⟩ | ⟨⟨htype, -⟩, h1, h2⟩ |
      ⟨htype, heq⟩ | ⟨⟨hne1, hne2, -⟩, heq⟩
    · simp [htype, h1, h2, hone, htwo]
    · simp [htype, h1, h2, hone, htwo]
    · simp [htype, heq, hone, htwo]
    · simp [hne1, hne2, heq, hone, htwo]

/-- The lists have room for the headers met so far, all of them in range. -/
structure HeadersFit (s : Machine) (madt n : Nat) : Prop where
  inRange : ∀ k, k < n → madtOffset s madt 0 k ≤ madtBound s madt
  ioapics : headersMet s madt 0 1 n ≤ 64
  isos : headersMet s madt 0 2 n ≤ 64

theorem HeadersFit.mono (h : HeadersFit s madt n) (hle : m ≤ n) : HeadersFit s madt m :=
  ⟨fun k hk => h.inRange k (Nat.lt_of_lt_of_le hk hle),
    Nat.le_trans (headersMet_mono hle) h.ioapics, Nat.le_trans (headersMet_mono hle) h.isos⟩

/-- Where the next header fits there is a next round. The store cannot go
wrong: the entries noted so far are counted, and one more of the type is still
at most 64. -/
theorem HeadersNoted.step (h : HeadersNoted s madt n st) (hfit : HeadersFit s madt (n + 1)) :
    ∃ st', madtBody s madt st = .inl st' := by
  have hin := hfit.inRange n (Nat.lt_succ_self n)
  have hone := hfit.ioapics
  have htwo := hfit.isos
  rw [headersMet] at hone htwo
  rw [← h.offset] at hin hone htwo
  rw [← h.ioapics] at hone
  rw [← h.isos] at htwo
  have hnote : ∃ lists, st.lists.note (madtType s madt st.i) (madtEntry madt st.i) =
      some lists := by
    unfold MadtLists.note
    split
    case h_1 htype =>
      -- an I/O APIC, and a slot for it
      rw [htype, if_pos rfl] at hone
      rw [if_pos (by omega)]
      exact ⟨_, rfl⟩
    -- an override, likewise
    case h_2 htype =>
      rw [htype, if_pos rfl] at htwo
      rw [if_pos (by omega)]
      exact ⟨_, rfl⟩
    -- the other entries take no slot
    case h_3 => exact ⟨_, rfl⟩
    case h_4 => exact ⟨_, rfl⟩
  obtain ⟨lists, hnote⟩ := hnote
  unfold madtBody
  rw [if_pos hin, hnote]
  exact ⟨_, rfl⟩

/-- The walk gets as far as the lists have room. -/
theorem visits_of_fit (hfit : HeadersFit s madt n) :
    ∃ st, Visits (madtBody s madt) ⟨0, .empty⟩ st ∧ HeadersNoted s madt n st := by
  -- on the headers met
  induction n with
  | zero => exact ⟨_, .refl, rfl, rfl, rfl⟩
  | succ n ih =>
    obtain ⟨st, hvis, hnoted⟩ := ih (hfit.mono (Nat.le_succ n))
    obtain ⟨st', hstep⟩ := hnoted.step hfit
    exact ⟨st', hvis.tail hstep, hnoted.next hstep⟩

/-- Counting never exceeds the lists, since a store behind them halts. -/
theorem note_le {type entry : Nat} {lists' : MadtLists} (h : lists.note type entry = some lists')
    (h1 : lists.ioapics ≤ 64) (h2 : lists.isos ≤ 64) : lists'.ioapics ≤ 64 ∧ lists'.isos ≤ 64 := by
  rcases MadtLists.note_cases h with ⟨⟨-, hlt⟩, hone, htwo⟩ | ⟨⟨-, hlt⟩, hone, htwo⟩ |
    ⟨-, rfl⟩ | ⟨-, rfl⟩
  · exact ⟨by omega, by omega⟩
  · exact ⟨by omega, by omega⟩
  · exact ⟨h1, h2⟩
  · exact ⟨h1, h2⟩

/--
**Every state of the loop** is that after some number of headers, all of them
within the bound, with as many slots taken as there were entries of the type.
By induction on the rounds.
-/
theorem fit_of_visits (h : Visits (madtBody s madt) ⟨0, .empty⟩ st) :
    ∃ n, HeadersFit s madt n ∧ HeadersNoted s madt n st := by
  -- on the rounds
  induction h with
  | refl => exact ⟨0, ⟨fun k hk => absurd hk (Nat.not_lt_zero k), Nat.zero_le _, Nat.zero_le _⟩,
      rfl, rfl, rfl⟩
  | @tail st st' _ hstep ih =>
    obtain ⟨n, hfit, hnoted⟩ := ih
    have hnext := hnoted.next hstep
    obtain ⟨hle, -, hnote⟩ := madtBody_next hstep
    have hroom := note_le hnote (hnoted.ioapics ▸ hfit.ioapics) (hnoted.isos ▸ hfit.isos)
    refine ⟨n + 1, ⟨?_, ?_, ?_⟩, hnext⟩
    · intro k hk
      rcases Nat.lt_succ_iff_lt_or_eq.mp hk with hk | rfl
      · exact hfit.inRange k hk
      · rw [← hnoted.offset]
        exact hle
    · rw [← hnext.ioapics]
      exact hroom.1
    · rw [← hnext.isos]
      exact hroom.2

end Headers

/-- Where the entries of a table lie: behind the bytes of those before them. By
induction on the number of entries. -/
theorem MadtTable.offset {s : Machine} {madt : Nat} {rs : List MadtRecord}
    (h : MadtTable s madt rs) :
    ∀ k, k ≤ rs.length → madtOffset s madt 0 k = (encode (rs.take k)).length := by
  intro k
  induction k with
  | zero => exact fun _ => rfl
  | succ k ih =>
    intro hk
    have hsplit : rs = rs.take k ++ rs[k] :: rs.drop (k + 1) := by
      rw [← List.drop_eq_getElem_cons hk, List.take_append_drop]
    have htable := h
    rw [hsplit] at htable
    obtain ⟨-, hnext⟩ := htable.header
    rw [madtOffset, ih (Nat.le_of_succ_le hk), hnext, List.take_append_getElem hk]

/-- None of them lies behind its end. -/
theorem MadtTable.offset_le {s : Machine} {madt k : Nat} {rs : List MadtRecord}
    (h : MadtTable s madt rs) (hk : k ≤ rs.length) :
    madtOffset s madt 0 k ≤ (encode rs).length := by
  have hle := encode_length_le (rs.take k) (rs.drop k)
  rw [List.take_append_drop] at hle
  rw [h.offset k hk]
  exact hle

-- ---------------------------------------------------------------------------
-- Surviving a table
-- ---------------------------------------------------------------------------

/-- The first `n + 1` headers lie inside the table, and the last of them takes
the walk more than 36 bytes behind its end; the lists have room for them. -/
structure LeapsOut (s : Machine) (madt n : Nat) : Prop where
  inside : ∀ k, k ≤ n → 46 + madtOffset s madt 0 k ≤ s.load (madt + 4) 4
  leap : s.load (madt + 4) 4 + 36 < 44 + madtOffset s madt 0 (n + 1)
  ioapics : headersMet s madt 0 1 (n + 1) ≤ 64
  isos : headersMet s madt 0 2 (n + 1) ≤ 64

section Survives

variable {s : Machine} {a : Acpi} {madt n : Nat}

/-- The length field is subtracted from without a wrap once it covers the two
words before it. -/
theorem madtBound_eq (h : 8 ≤ s.load (madt + 4) 4) :
    madtBound s madt = s.load (madt + 4) 4 - 8 := by
  have hlt : s.load (madt + 4) 4 < 256 ^ 4 := loadLE_lt s.mem _ 4
  unfold madtBound u64
  omega

/-- The length field is at least 46, so the subtraction in the bound does not
wrap. -/
theorem LeapsOut.bound (h : LeapsOut s madt n) : madtBound s madt = s.load (madt + 4) 4 - 8 := by
  have hfirst := h.inside 0 (Nat.zero_le n)
  exact madtBound_eq (by omega)

/-- All headers up to the leap are within the bound. -/
theorem LeapsOut.fit (h : LeapsOut s madt n) : HeadersFit s madt (n + 1) := by
  refine ⟨?_, h.ioapics, h.isos⟩
  intro k hk
  have hin := h.inside k (Nat.le_of_lt_succ hk)
  rw [h.bound]
  omega

/--
**A walk that survives leaps.** It ends, so some header takes it behind the
bound, 36 bytes behind the table; but every header that it looked at was
inside. So it is the last header inside that leaps over the 36 bytes.
-/
theorem MadtSurvives.leapsOut (hfind : acpiFindTable s a apicSignature = some madt) (hne : madt ≠ 0)
    (h : MadtSurvives s a madt) : ∃ n, LeapsOut s madt n := by
  obtain ⟨⟨fuel, lists, hrun⟩, hinside⟩ := h
  rw [madtInit_eq hfind hne] at hrun
  obtain ⟨st, hvis, hdone⟩ := whileRun_visits hrun
  obtain ⟨m, hfit, hnoted⟩ := fit_of_visits hvis
  -- the loop is left behind the bound, so not at its first offset
  have hout : madtBound s madt < madtOffset s madt 0 m := by
    rw [← hnoted.offset]
    unfold madtBody at hdone
    split at hdone
    case isTrue => split at hdone <;> simp at hdone
    case isFalse hgt => exact Nat.lt_of_not_le hgt
  cases m with
  | zero => exact absurd hout (Nat.not_lt_zero _)
  | succ n =>
    have hin : ∀ k, k ≤ n → 46 + madtOffset s madt 0 k ≤ s.load (madt + 4) 4 := by
      intro k hk
      obtain ⟨st', hvis', hnoted'⟩ := visits_of_fit (hfit.mono (Nat.le_succ_of_le hk))
      have hrange := hfit.inRange k (Nat.lt_succ_of_le hk)
      rw [← hnoted'.offset] at hrange ⊢
      have := hinside st' hvis' hrange
      omega
    have hfirst := hin 0 (Nat.zero_le n)
    rw [madtBound_eq (by omega)] at hout
    exact ⟨n, hin, by omega, hfit.ioapics, hfit.isos⟩

/--
**A walk that leaps survives.** Behind the bound the loop is over, and a header
that it looked at before is one of those inside.
-/
theorem LeapsOut.survives (hfind : acpiFindTable s a apicSignature = some madt) (hne : madt ≠ 0)
    (hleap : LeapsOut s madt n) : MadtSurvives s a madt := by
  have hbound := hleap.bound
  have hfirst := hleap.inside 0 (Nat.zero_le n)
  have hout := hleap.leap
  refine ⟨?_, ?_⟩
  · -- the walk gets behind the bound, where it ends
    obtain ⟨⟨i, lists⟩, hvis, hnoted⟩ := visits_of_fit hleap.fit
    have hstop : madtBound s madt < i := by
      have hoffset : i = madtOffset s madt 0 (n + 1) := hnoted.offset
      omega
    have hone : whileRun (madtBody s madt) (0 + 1) ⟨i, lists⟩ = some (some lists) :=
      whileRun_done (madtBody_stop lists hstop)
    obtain ⟨fuel, hrun⟩ := hvis.run hone
    refine ⟨fuel, lists, ?_⟩
    rw [madtInit_eq hfind hne]
    exact hrun
  · -- a header looked at is one of the first
    intro st hvis hle
    obtain ⟨m, hfit, hnoted⟩ := fit_of_visits hvis
    rw [hnoted.offset] at hle ⊢
    have hm : m ≤ n := by
      by_contra hgt
      rcases Nat.lt_or_ge (n + 1) m with hlt | hge
      · have := hfit.inRange (n + 1) hlt
        omega
      · obtain rfl : m = n + 1 := by omega
        omega
    have := hleap.inside m hm
    omega

/-- **No table that its entries fill is survived**: the walk comes to the end
of the table and looks for a header there. -/
theorem MadtTable.not_survives {rs : List MadtRecord}
    (hfind : acpiFindTable s a apicSignature = some madt) (hne : madt ≠ 0)
    (htable : MadtTable s madt rs) : ¬ MadtSurvives s a madt := by
  intro hsurvives
  obtain ⟨n, hleap⟩ := hsurvives.leapsOut hfind hne
  have hlength := htable.length
  have hout := hleap.leap
  rw [hlength] at hout
  rcases Nat.lt_or_ge n rs.length with hlt | hge
  · -- the leap would be made from an entry to the next one
    have hnext : madtOffset s madt 0 (n + 1) ≤ (encode rs).length := htable.offset_le hlt
    omega
  · -- or from behind the end of the table
    have hend := htable.offset rs.length (Nat.le_refl _)
    have hin := hleap.inside rs.length hge
    rw [hend, List.take_length, hlength] at hin
    omega

/--
**Which tables `madt_init` survives.** It ends and looks at no header that is not
wholly inside the table if and only if, of the headers met one after the other from
the front, the first ones lie inside the table and the last of these takes the walk
more than 36 bytes behind the end, at most 64 of them being I/O APICs and at most
64 overrides. A table that its entries fill is never survived.
-/
theorem madt_survives_iff (s : Machine) (a : Acpi) (madt : Nat)
    (hfind : acpiFindTable s a apicSignature = some madt) (hne : madt ≠ 0) :
    (MadtSurvives s a madt ↔ ∃ n, LeapsOut s madt n) ∧
      ∀ rs, MadtTable s madt rs → ¬ MadtSurvives s a madt :=
  ⟨⟨fun h => h.leapsOut hfind hne, fun ⟨_, hleap⟩ => hleap.survives hfind hne⟩,
    fun _ htable => htable.not_survives hfind hne⟩

end Survives

-- ---------------------------------------------------------------------------
-- Two tables
-- ---------------------------------------------------------------------------

/-- An RSDT with one entry, and the header of a MADT with a table of `n`
bytes. -/
def firmwareHeader (n : Nat) : List (BitVec 8) :=
  List.replicate 4 0 ++ [40, 0, 0, 0] ++ List.replicate 28 0 ++ [0x28, 0x10, 0, 0] ++
    [0x41, 0x50, 0x49, 0x43] ++
    [BitVec.ofNat 8 (44 + n), BitVec.ofNat 8 ((44 + n) / 256), 0, 0] ++ List.replicate 36 0

/-- The RSDT at physical address 4096, and at 4136 the MADT with the given
bytes behind its header. -/
def firmware (table : List (BitVec 8)) : Machine :=
  Machine.boot (fun x => if x < 4096 then 0 else
    ((firmwareHeader table.length ++ table)[x - 4096]?).getD 0) usualHhdm

/-- An entry whose length byte is 0. -/
def stuckTable : List (BitVec 8) := [0, 0]

/-- One header, which leaps over everything that `madt_init` would still look
at. -/
def leapingTable : List (BitVec 8) := [0, 60]

/-- A length byte of zero keeps the walk where it is. -/
theorem stuckTable_offset (k : Nat) : madtOffset (firmware stuckTable) madtAddr 0 k = 0 := by
  induction k with
  | zero => rfl
  | succ k ih =>
    rw [madtOffset, ih]
    decide +kernel

/-- A table whose only header leaps far enough: its length takes the walk more
than 36 bytes behind the end, where no header is looked at any more. -/
theorem madt_survives_iff_leaping : MadtSurvives (firmware leapingTable) madtAcpi madtAddr := by
  have hfind : acpiFindTable (firmware leapingTable) madtAcpi apicSignature = some madtAddr := by
    decide +kernel
  have hleap : LeapsOut (firmware leapingTable) madtAddr 0 := by
    refine ⟨fun k hk => ?_, by decide +kernel, by decide +kernel, by decide +kernel⟩
    obtain rfl : k = 0 := Nat.le_zero.mp hk
    decide +kernel
  exact (madt_survives_iff (firmware leapingTable) madtAcpi madtAddr hfind (by decide)).1.mpr
    ⟨0, hleap⟩

/-- A header of length 0 keeps the walk at the front of the table for ever: the
offset is moved by the length, and so it is the same in every round. -/
theorem madt_not_survives :
    ¬ ∀ (s : Machine) (a : Acpi) (madt : Nat), acpiFindTable s a apicSignature = some madt →
      madt ≠ 0 → MadtSurvives s a madt := by
  intro h
  have hfind : acpiFindTable (firmware stuckTable) madtAcpi apicSignature = some madtAddr := by
    decide +kernel
  have hsurvives := h (firmware stuckTable) madtAcpi madtAddr hfind (by decide)
  -- the walk would have to leave the range, but it stays at offset 0
  obtain ⟨fuel, lists, hrun⟩ := hsurvives.ends
  rw [madtInit_eq hfind (by decide)] at hrun
  obtain ⟨st, hvis, hdone⟩ := whileRun_visits hrun
  obtain ⟨n, -, hnoted⟩ := fit_of_visits hvis
  have hzero := hnoted.offset
  rw [stuckTable_offset] at hzero
  unfold madtBody at hdone
  rw [hzero, if_pos (Nat.zero_le _)] at hdone
  split at hdone <;> simp at hdone

end Medlar64
