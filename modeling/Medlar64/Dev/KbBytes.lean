import Medlar64.Dev.Kb
import Medlar64.Lib.Transitions

/-!
# Medlar64 — streams of bytes from the keyboard

`kb_handler` called once for every byte at port 0x60. It skips the prefix bytes
and looks up whatever press code follows, in tables that end at 0x59.

* `kbBytes` — the handler over a stream of bytes.
* `kbByte_isSome` — the handler halts at a press code without an entry, and at
  no other byte.
* `kb_bytes_safe_iff` — a stream stays within the tables if and only if no byte
  of it is a press code from 0x5a on.
-/

namespace Medlar64

/-- The keyboard interrupt for the byte `b`. -/
def kbByte (d : Devices) (b : BitVec 8) : Option Devices := kbHandler { d with port60 := b }

/-- The keyboard interrupt for one byte after another; `none` when one halts. -/
def kbBytes (d : Devices) (bs : List (BitVec 8)) : Option Devices := bs.foldlM kbByte d

/-- An index that `kb_handler` uses for the byte is within the table. -/
def InBounds (k : Kb) (key : BitVec 8) : Prop :=
  key &&& 0x80 = 0 → ¬ IsModifier key → key.toNat < k.table.length

/-- A character of one of the tables, or 0. -/
def FromTables (c : BitVec 8) : Prop :=
  c = 0 ∨ c ∈ kbMapKeys ∨ c ∈ kbMapKeysShift ∨ c ∈ kbMapKeysCaps

/-- A release, or a press that has an entry in every table. -/
def HasEntry (key : BitVec 8) : Prop := key.toNat < 0x5a ∨ 0x80 ≤ key.toNat

instance (key : BitVec 8) : Decidable (HasEntry key) := inferInstanceAs (Decidable (_ ∨ _))

-- ---------------------------------------------------------------------------
-- One byte
-- ---------------------------------------------------------------------------

theorem Kb.table_length (k : Kb) : k.table.length = 0x5a := by
  unfold Kb.table
  split_ifs <;> rfl

theorem Kb.fromTables_table {k : Kb} {c : BitVec 8} (h : c ∈ k.table) : FromTables c := by
  unfold Kb.table at h
  split_ifs at h
  exacts [.inr (.inr (.inl h)), .inr (.inr (.inr h)), .inr (.inl h)]

theorem press_iff (key : BitVec 8) : key &&& 0x80 = 0 ↔ key.toNat < 0x80 := by
  revert key
  decide

/-- The modifiers lie within the tables, although they are not looked up
there. -/
theorem IsModifier.lt {key : BitVec 8} (h : IsModifier key) : key.toNat < 0x5a := by
  rcases h with rfl | rfl | rfl | rfl <;> decide

/-- Whether the access is within the table does not depend on the modifiers. -/
theorem inBounds_iff (k : Kb) (key : BitVec 8) : InBounds k key ↔ HasEntry key := by
  unfold InBounds HasEntry
  rw [k.table_length, press_iff]
  constructor
  · intro h
    by_cases hmod : IsModifier key
    · exact .inl hmod.lt
    · rcases Nat.lt_or_ge key.toNat 0x80 with hpress | hrelease
      · exact .inl (h hpress hmod)
      · exact .inr hrelease
  · intro h hpress _
    omega

/-- A press halts the kernel only where the table has no entry. -/
theorem Kb.press_isSome (k : Kb) (key : BitVec 8) :
    (k.press key).isSome ↔ IsModifier key ∨ key.toNat < k.table.length := by
  by_cases hmod : IsModifier key
  · refine iff_of_true ?_ (.inl hmod)
    rcases hmod with rfl | rfl | rfl | rfl <;> rfl
  · simp [Kb.press_lookup hmod, hmod]

/-- Where the handler is left, its index was in bounds. -/
theorem kbByte_isSome (d : Devices) (b : BitVec 8) : (kbByte d b).isSome ↔ HasEntry b := by
  rw [← inBounds_iff d.kb]
  unfold kbByte kbHandler InBounds
  simp only [Option.isSome_map]
  by_cases hpress : b &&& 0x80 = 0
  · rw [if_pos hpress, Kb.press_isSome]
    constructor
    · rintro (hmod | hlt) _ hne
      exacts [absurd hmod hne, hlt]
    · intro h
      by_cases hmod : IsModifier b
      exacts [.inl hmod, .inr (h hpress hmod)]
  · rw [if_neg hpress]
    exact iff_of_true rfl fun h => absurd h hpress

/-- One byte leaves a character of the tables in `kb_char` if there was one. -/
theorem kbByte_fromTables {d d' : Devices} {b : BitVec 8} (h : kbByte d b = some d')
    (hchar : FromTables d.kb.char) : FromTables d'.kb.char := by
  rw [kbHandler_char h]
  unfold Kb.stores
  simp only
  split_ifs
  · cases hentry : d.kb.table[b.toNat]? with
    | none => exact hchar
    | some c => exact Kb.fromTables_table (List.mem_of_getElem? hentry)
  · exact hchar

-- ---------------------------------------------------------------------------
-- The stream
-- ---------------------------------------------------------------------------

/-- Before each byte of the stream the kernel runs and the index that the byte
gives is in bounds; after each, `kb_char` is 0 or from the tables. -/
structure KbBytesSafe (d : Devices) (bs : List (BitVec 8)) : Prop where
  indexes : ∀ p b, p ++ [b] <+: bs → ∃ d', kbBytes d p = some d' ∧ InBounds d'.kb b
  chars : ∀ p, p <+: bs → ∃ d', kbBytes d p = some d' ∧ FromTables d'.kb.char

/--
**Streams of bytes.** From any state whose character comes from the tables,
every access that a stream of bytes makes is within its table, and every
character it leaves behind comes from one, if and only if no byte of it is a
press code from 0x5a on. Those exist: behind the prefix 0xe0 the left Windows
key sends 0x5b.
-/
theorem kb_bytes_safe_iff (d : Devices) (bs : List (BitVec 8)) (hchar : FromTables d.kb.char) :
    KbBytesSafe d bs ↔ ∀ b ∈ bs, b.toNat < 0x5a ∨ 0x80 ≤ b.toNat := by
  have hruns := @prefixes_iff _ _ kbByte (fun _ d => FromTables d.kb.char)
    (fun _ b => HasEntry b) d hchar ?_ bs
  · rw [show (∀ b ∈ bs, b.toNat < 0x5a ∨ 0x80 ≤ b.toNat) ↔ ∀ p b, p ++ [b] <+: bs → HasEntry b from
      forall_mem_iff_prefix]
    constructor
    · exact fun h => hruns.mp h.chars
    · intro h
      have hchars := hruns.mpr h
      refine ⟨?_, hchars⟩
      intro p b hpre
      obtain ⟨d', hd', -⟩ := hchars p ((List.prefix_append p [b]).trans hpre)
      exact ⟨d', hd', (inBounds_iff d'.kb b).mpr (h p b hpre)⟩
  · -- one byte
    intro _ d b hgood
    rw [← kbByte_isSome d b, Option.isSome_iff_exists]
    constructor
    · rintro ⟨d', hd', -⟩
      exact ⟨d', hd'⟩
    · rintro ⟨d', hd'⟩
      exact ⟨d', hd', kbByte_fromTables hd' hgood⟩

/-- No keyboard interrupt so far. -/
def bootDevices : Devices :=
  { port60 := 0, kb := .init, pitTicks := 0, lapic := { writes := [] } }

/-- Shift, A and an arrow key, which sends the code of the keypad behind 0xe0. -/
theorem kb_bytes_safe_arrow : KbBytesSafe bootDevices [0x2a, 0x1e, 0x9e, 0xaa, 0xe0, 0x48] :=
  (kb_bytes_safe_iff bootDevices _ (.inl rfl)).mpr (by decide)

/-- The left GUI key sends 0xe0, 0x5b. -/
theorem kb_bytes_unsafe_gui : ¬ KbBytesSafe bootDevices [0xe0, 0x5b] := by
  intro h
  obtain ⟨d', hd', hin⟩ := h.indexes [0xe0] 0x5b (by simp)
  have hentry : HasEntry 0x5b := (inBounds_iff d'.kb 0x5b).mp hin
  exact absurd hentry (by decide)

end Medlar64
