import Mathlib.Data.List.Basic
import Mathlib.Tactic.Common

/-!
# Flanterm: the width of a character

`bisearch` and `mk_wcwidth` of `flanterm.c`. The search keeps `min` and `max`
in signed integers and reads the middle of them, so it has to be shown that the
middle is an index of the table at each step and that the interval shrinks.

* `bisearch_mem` — in a table of intervals in ascending order the search ends
  without leaving the table and finds exactly the members.
* `mkWcwidth_eq` — the width of every character: none for a combining one, two
  columns for a wide one, one for any other.
-/

namespace Flanterm

structure Interval where
  first : Nat
  last : Nat
  le : first ≤ last

/-- The entry of a table at an `int` index, if there is one. -/
def entryAt (table : List Interval) (i : Int) : Option Interval :=
  if 0 ≤ i then table[i.toNat]? else none

/-- The middle lies between the ends, also where C rounds towards zero. -/
theorem mid_mem {min max : Int} (h : min ≤ max) :
    min ≤ (min + max).tdiv 2 ∧ (min + max).tdiv 2 ≤ max := by
  have hsign : Int.sign 2 = 1 := rfl
  rw [Int.tdiv_eq_ediv]
  split <;> omega

/-- The loop of `bisearch`; `none` where it leaves the table. -/
def bisearchLoop (ucs : Nat) (table : List Interval) (min max : Int) : Option Bool :=
  if min ≤ max then
    let mid := (min + max).tdiv 2
    match entryAt table mid with
    | none => none
    | some t =>
      if t.last < ucs then bisearchLoop ucs table (mid + 1) max
      else if ucs < t.first then bisearchLoop ucs table min (mid - 1)
      else some true
  else some false
termination_by (max + 1 - min).toNat
decreasing_by
  all_goals
    have hmid := mid_mem (by assumption)
    omega

def bisearch (ucs : Nat) (table : List Interval) (max : Int) : Option Bool :=
  match entryAt table 0, entryAt table max with
  | some s, some t =>
    if ucs < s.first ∨ t.last < ucs then some false else bisearchLoop ucs table 0 max
  | _, _ => none

-- ---------------------------------------------------------------------------
-- The search
-- ---------------------------------------------------------------------------

/-- Each interval lies below the ones behind it. -/
def Ascending (table : List Interval) : Prop := table.Pairwise fun s t => s.last < t.first

/-- The character lies in one of the intervals. -/
def InTable (ucs : Nat) (table : List Interval) : Prop :=
  ∃ t ∈ table, t.first ≤ ucs ∧ ucs ≤ t.last

instance (ucs : Nat) (table : List Interval) : Decidable (InTable ucs table) :=
  inferInstanceAs (Decidable (∃ t ∈ table, t.first ≤ ucs ∧ ucs ≤ t.last))

theorem entryAt_natCast (table : List Interval) (k : Nat) : entryAt table k = table[k]? := by
  rw [entryAt, if_pos (Int.natCast_nonneg k), Int.toNat_natCast]

/-- In an ascending table all of an earlier interval is below all of a later
one. -/
theorem Ascending.lt {table : List Interval} (h : Ascending table) {j k : Nat} {s t : Interval}
    (hj : table[j]? = some s) (hk : table[k]? = some t) (hjk : j < k) : s.last < t.first := by
  obtain ⟨hjl, rfl⟩ := List.getElem?_eq_some_iff.mp hj
  obtain ⟨hkl, rfl⟩ := List.getElem?_eq_some_iff.mp hk
  exact List.pairwise_iff_getElem.mp h j k hjl hkl hjk

/--
**The loop of the binary search.** Begun between two indices of an ascending
table, it ends, reads only entries of the table, and answers whether one of the
entries from `min` to `max` holds the character.

By the induction of the loop itself: an entry that ends below the character
rules out all entries before it, one that begins above it all entries behind
it.
-/
theorem bisearchLoop_mem (ucs : Nat) {table : List Interval} (hsorted : Ascending table)
    {min max : Int} (hmin : 0 ≤ min) (hmax : max < table.length) :
    ∃ b, bisearchLoop ucs table min max = some b ∧
      (b = true ↔ ∃ (k : Nat) (t : Interval), min ≤ k ∧ (k : Int) ≤ max ∧ table[k]? = some t ∧
        t.first ≤ ucs ∧ ucs ≤ t.last) := by
  fun_induction bisearchLoop ucs table min max with
  | case1 min max h mid hentry =>
    -- the middle lies in the table
    have hmid : min ≤ mid ∧ mid ≤ max := mid_mem h
    lift mid to ℕ using by omega with m
    rw [entryAt_natCast, List.getElem?_eq_none_iff] at hentry
    omega
  | case2 min max h mid t hentry hlast ih =>
    have hmid : min ≤ mid ∧ mid ≤ max := mid_mem h
    obtain ⟨b, hb, hiff⟩ := ih (by omega) hmax
    refine ⟨b, hb, hiff.trans ⟨?_, ?_⟩⟩
    · rintro ⟨k, u, hk, hrest⟩
      exact ⟨k, u, by omega, hrest⟩
    · rintro ⟨k, u, hk, hkm, hu, hfirst, hle⟩
      refine ⟨k, u, ?_, hkm, hu, hfirst, hle⟩
      -- the entries up to the middle end below the character
      by_contra hlow
      lift mid to ℕ using by omega with m
      rw [entryAt_natCast] at hentry
      obtain hkm | rfl := Nat.lt_or_eq_of_le (show k ≤ m by omega)
      · have hbelow := hsorted.lt hu hentry hkm
        have hmle := t.le
        omega
      · obtain rfl := Option.some.inj (hu.symm.trans hentry)
        omega
  | case3 min max h mid t hentry hlast hfirst ih =>
    have hmid : min ≤ mid ∧ mid ≤ max := mid_mem h
    obtain ⟨b, hb, hiff⟩ := ih hmin (by omega)
    refine ⟨b, hb, hiff.trans ⟨?_, ?_⟩⟩
    · rintro ⟨k, u, hk, hkm, hrest⟩
      exact ⟨k, u, hk, by omega, hrest⟩
    · rintro ⟨k, u, hk, hkm, hu, hufirst, hle⟩
      refine ⟨k, u, hk, ?_, hu, hufirst, hle⟩
      -- the entries from the middle on begin above it
      by_contra hhigh
      lift mid to ℕ using by omega with m
      rw [entryAt_natCast] at hentry
      obtain hmk | rfl := Nat.lt_or_eq_of_le (show m ≤ k by omega)
      · have habove := hsorted.lt hentry hu hmk
        have htle := t.le
        omega
      · obtain rfl := Option.some.inj (hu.symm.trans hentry)
        omega
  | case4 min max h mid t hentry hlast hfirst =>
    have hmid : min ≤ mid ∧ mid ≤ max := mid_mem h
    refine ⟨true, rfl, iff_of_true rfl ?_⟩
    lift mid to ℕ using by omega with m
    rw [entryAt_natCast] at hentry
    exact ⟨m, t, hmid.1, hmid.2, hentry, by omega, by omega⟩
  | case5 min max h =>
    refine ⟨false, rfl, iff_of_false (by simp) ?_⟩
    rintro ⟨k, u, hk, hkm, hrest⟩
    omega

/--
**`bisearch` decides membership.** Called as `mk_wcwidth` calls it, with the
last index of an ascending table that is not empty, it answers for every
character whether the table has it. The test before the loop only saves time:
outside the span from the first entry to the last there is no member.
-/
theorem bisearch_mem (ucs : Nat) {table : List Interval} (hne : table ≠ [])
    (hsorted : Ascending table) :
    bisearch ucs table (table.length - 1) = some (decide (InTable ucs table)) := by
  have hpos : 0 < table.length := List.length_pos_iff.mpr hne
  have hlastIndex : (table.length : Int) - 1 = (table.length - 1 : ℕ) := by omega
  obtain ⟨s, hs⟩ : ∃ s, table[0]? = some s := ⟨_, List.getElem?_eq_getElem hpos⟩
  obtain ⟨t, ht⟩ : ∃ t, table[table.length - 1]? = some t :=
    ⟨_, List.getElem?_eq_getElem (by omega)⟩
  have hs' : entryAt table 0 = some s := (entryAt_natCast table 0).trans hs
  have ht' : entryAt table (table.length - 1) = some t := by
    rw [hlastIndex, entryAt_natCast, ht]
  have hindex : InTable ucs table ↔ ∃ (k : Nat) (u : Interval), table[k]? = some u ∧
      u.first ≤ ucs ∧ ucs ≤ u.last := by
    constructor
    · rintro ⟨u, hu, hin⟩
      obtain ⟨k, hk⟩ := List.mem_iff_getElem?.mp hu
      exact ⟨k, u, hk, hin⟩
    · rintro ⟨k, u, hk, hin⟩
      exact ⟨u, List.mem_of_getElem? hk, hin⟩
  rw [bisearch, hs', ht']
  show (if ucs < s.first ∨ t.last < ucs then some false else bisearchLoop ucs table 0 _) = _
  split
  case isTrue hout =>
    -- outside the span of the table
    have hnot : ¬InTable ucs table := by
      rw [hindex]
      rintro ⟨k, u, hk, hfirst, hlast⟩
      have hkl := (List.getElem?_eq_some_iff.mp hk).1
      have hsu : s.first ≤ u.first := by
        obtain rfl | hk0 := Nat.eq_zero_or_pos k
        · exact Nat.le_of_eq (congrArg Interval.first (Option.some.inj (hs.symm.trans hk)))
        · exact Nat.le_trans s.le (Nat.le_of_lt (hsorted.lt hs hk hk0))
      have hut : u.last ≤ t.last := by
        obtain hklast | rfl := Nat.lt_or_eq_of_le (show k ≤ table.length - 1 by omega)
        · exact Nat.le_trans (Nat.le_of_lt (hsorted.lt hk ht hklast)) t.le
        · exact Nat.le_of_eq (congrArg Interval.last (Option.some.inj (hk.symm.trans ht)))
      omega
    rw [decide_eq_false hnot]
  case isFalse =>
    obtain ⟨b, hb, hiff⟩ :=
      bisearchLoop_mem ucs hsorted (Int.le_refl 0)
        (show (table.length : Int) - 1 < table.length by omega)
    rw [hb]
    have hbIn : b = true ↔ InTable ucs table := by
      rw [hiff, hindex]
      constructor
      · rintro ⟨k, u, _, _, hrest⟩
        exact ⟨k, u, hrest⟩
      · rintro ⟨k, u, hk, hrest⟩
        have hkl := (List.getElem?_eq_some_iff.mp hk).1
        exact ⟨k, u, by omega, by omega, hk, hrest⟩
    congr 1
    rw [Bool.eq_iff_iff, hbIn, decide_eq_true_iff]

-- ---------------------------------------------------------------------------
-- The width
-- ---------------------------------------------------------------------------

/-- The non-spacing characters. -/
def combining : List Interval := [
  ⟨0x0300, 0x036F, by simp⟩, ⟨0x0483, 0x0486, by simp⟩, ⟨0x0488, 0x0489, by simp⟩,
  ⟨0x0591, 0x05BD, by simp⟩, ⟨0x05BF, 0x05BF, by simp⟩, ⟨0x05C1, 0x05C2, by simp⟩,
  ⟨0x05C4, 0x05C5, by simp⟩, ⟨0x05C7, 0x05C7, by simp⟩, ⟨0x0600, 0x0603, by simp⟩,
  ⟨0x0610, 0x0615, by simp⟩, ⟨0x064B, 0x065E, by simp⟩, ⟨0x0670, 0x0670, by simp⟩,
  ⟨0x06D6, 0x06E4, by simp⟩, ⟨0x06E7, 0x06E8, by simp⟩, ⟨0x06EA, 0x06ED, by simp⟩,
  ⟨0x070F, 0x070F, by simp⟩, ⟨0x0711, 0x0711, by simp⟩, ⟨0x0730, 0x074A, by simp⟩,
  ⟨0x07A6, 0x07B0, by simp⟩, ⟨0x07EB, 0x07F3, by simp⟩, ⟨0x0901, 0x0902, by simp⟩,
  ⟨0x093C, 0x093C, by simp⟩, ⟨0x0941, 0x0948, by simp⟩, ⟨0x094D, 0x094D, by simp⟩,
  ⟨0x0951, 0x0954, by simp⟩, ⟨0x0962, 0x0963, by simp⟩, ⟨0x0981, 0x0981, by simp⟩,
  ⟨0x09BC, 0x09BC, by simp⟩, ⟨0x09C1, 0x09C4, by simp⟩, ⟨0x09CD, 0x09CD, by simp⟩,
  ⟨0x09E2, 0x09E3, by simp⟩, ⟨0x0A01, 0x0A02, by simp⟩, ⟨0x0A3C, 0x0A3C, by simp⟩,
  ⟨0x0A41, 0x0A42, by simp⟩, ⟨0x0A47, 0x0A48, by simp⟩, ⟨0x0A4B, 0x0A4D, by simp⟩,
  ⟨0x0A70, 0x0A71, by simp⟩, ⟨0x0A81, 0x0A82, by simp⟩, ⟨0x0ABC, 0x0ABC, by simp⟩,
  ⟨0x0AC1, 0x0AC5, by simp⟩, ⟨0x0AC7, 0x0AC8, by simp⟩, ⟨0x0ACD, 0x0ACD, by simp⟩,
  ⟨0x0AE2, 0x0AE3, by simp⟩, ⟨0x0B01, 0x0B01, by simp⟩, ⟨0x0B3C, 0x0B3C, by simp⟩,
  ⟨0x0B3F, 0x0B3F, by simp⟩, ⟨0x0B41, 0x0B43, by simp⟩, ⟨0x0B4D, 0x0B4D, by simp⟩,
  ⟨0x0B56, 0x0B56, by simp⟩, ⟨0x0B82, 0x0B82, by simp⟩, ⟨0x0BC0, 0x0BC0, by simp⟩,
  ⟨0x0BCD, 0x0BCD, by simp⟩, ⟨0x0C3E, 0x0C40, by simp⟩, ⟨0x0C46, 0x0C48, by simp⟩,
  ⟨0x0C4A, 0x0C4D, by simp⟩, ⟨0x0C55, 0x0C56, by simp⟩, ⟨0x0CBC, 0x0CBC, by simp⟩,
  ⟨0x0CBF, 0x0CBF, by simp⟩, ⟨0x0CC6, 0x0CC6, by simp⟩, ⟨0x0CCC, 0x0CCD, by simp⟩,
  ⟨0x0CE2, 0x0CE3, by simp⟩, ⟨0x0D41, 0x0D43, by simp⟩, ⟨0x0D4D, 0x0D4D, by simp⟩,
  ⟨0x0DCA, 0x0DCA, by simp⟩, ⟨0x0DD2, 0x0DD4, by simp⟩, ⟨0x0DD6, 0x0DD6, by simp⟩,
  ⟨0x0E31, 0x0E31, by simp⟩, ⟨0x0E34, 0x0E3A, by simp⟩, ⟨0x0E47, 0x0E4E, by simp⟩,
  ⟨0x0EB1, 0x0EB1, by simp⟩, ⟨0x0EB4, 0x0EB9, by simp⟩, ⟨0x0EBB, 0x0EBC, by simp⟩,
  ⟨0x0EC8, 0x0ECD, by simp⟩, ⟨0x0F18, 0x0F19, by simp⟩, ⟨0x0F35, 0x0F35, by simp⟩,
  ⟨0x0F37, 0x0F37, by simp⟩, ⟨0x0F39, 0x0F39, by simp⟩, ⟨0x0F71, 0x0F7E, by simp⟩,
  ⟨0x0F80, 0x0F84, by simp⟩, ⟨0x0F86, 0x0F87, by simp⟩, ⟨0x0F90, 0x0F97, by simp⟩,
  ⟨0x0F99, 0x0FBC, by simp⟩, ⟨0x0FC6, 0x0FC6, by simp⟩, ⟨0x102D, 0x1030, by simp⟩,
  ⟨0x1032, 0x1032, by simp⟩, ⟨0x1036, 0x1037, by simp⟩, ⟨0x1039, 0x1039, by simp⟩,
  ⟨0x1058, 0x1059, by simp⟩, ⟨0x1160, 0x11FF, by simp⟩, ⟨0x135F, 0x135F, by simp⟩,
  ⟨0x1712, 0x1714, by simp⟩, ⟨0x1732, 0x1734, by simp⟩, ⟨0x1752, 0x1753, by simp⟩,
  ⟨0x1772, 0x1773, by simp⟩, ⟨0x17B4, 0x17B5, by simp⟩, ⟨0x17B7, 0x17BD, by simp⟩,
  ⟨0x17C6, 0x17C6, by simp⟩, ⟨0x17C9, 0x17D3, by simp⟩, ⟨0x17DD, 0x17DD, by simp⟩,
  ⟨0x180B, 0x180D, by simp⟩, ⟨0x18A9, 0x18A9, by simp⟩, ⟨0x1920, 0x1922, by simp⟩,
  ⟨0x1927, 0x1928, by simp⟩, ⟨0x1932, 0x1932, by simp⟩, ⟨0x1939, 0x193B, by simp⟩,
  ⟨0x1A17, 0x1A18, by simp⟩, ⟨0x1B00, 0x1B03, by simp⟩, ⟨0x1B34, 0x1B34, by simp⟩,
  ⟨0x1B36, 0x1B3A, by simp⟩, ⟨0x1B3C, 0x1B3C, by simp⟩, ⟨0x1B42, 0x1B42, by simp⟩,
  ⟨0x1B6B, 0x1B73, by simp⟩, ⟨0x1DC0, 0x1DCA, by simp⟩, ⟨0x1DFE, 0x1DFF, by simp⟩,
  ⟨0x200B, 0x200F, by simp⟩, ⟨0x202A, 0x202E, by simp⟩, ⟨0x2060, 0x2063, by simp⟩,
  ⟨0x206A, 0x206F, by simp⟩, ⟨0x20D0, 0x20EF, by simp⟩, ⟨0x302A, 0x302F, by simp⟩,
  ⟨0x3099, 0x309A, by simp⟩, ⟨0xA806, 0xA806, by simp⟩, ⟨0xA80B, 0xA80B, by simp⟩,
  ⟨0xA825, 0xA826, by simp⟩, ⟨0xFB1E, 0xFB1E, by simp⟩, ⟨0xFE00, 0xFE0F, by simp⟩,
  ⟨0xFE20, 0xFE23, by simp⟩, ⟨0xFEFF, 0xFEFF, by simp⟩, ⟨0xFFF9, 0xFFFB, by simp⟩,
  ⟨0x10A01, 0x10A03, by simp⟩, ⟨0x10A05, 0x10A06, by simp⟩, ⟨0x10A0C, 0x10A0F, by simp⟩,
  ⟨0x10A38, 0x10A3A, by simp⟩, ⟨0x10A3F, 0x10A3F, by simp⟩, ⟨0x1D167, 0x1D169, by simp⟩,
  ⟨0x1D173, 0x1D182, by simp⟩, ⟨0x1D185, 0x1D18B, by simp⟩, ⟨0x1D1AA, 0x1D1AD, by simp⟩,
  ⟨0x1D242, 0x1D244, by simp⟩, ⟨0xE0001, 0xE0001, by simp⟩, ⟨0xE0020, 0xE007F, by simp⟩,
  ⟨0xE0100, 0xE01EF, by simp⟩]

/-- The characters of two columns. -/
def wide (ucs : Nat) : Bool :=
  ucs ≥ 0x1100 ∧
    (ucs ≤ 0x115f ∨
      ucs = 0x2329 ∨ ucs = 0x232a ∨
      (ucs ≥ 0x2e80 ∧ ucs ≤ 0xa4cf ∧ ucs ≠ 0x303f) ∨
      (ucs ≥ 0xac00 ∧ ucs ≤ 0xd7a3) ∨
      (ucs ≥ 0xf900 ∧ ucs ≤ 0xfaff) ∨
      (ucs ≥ 0xfe10 ∧ ucs ≤ 0xfe19) ∨
      (ucs ≥ 0xfe30 ∧ ucs ≤ 0xfe6f) ∨
      (ucs ≥ 0xff00 ∧ ucs ≤ 0xff60) ∨
      (ucs ≥ 0xffe0 ∧ ucs ≤ 0xffe6) ∨
      (ucs ≥ 0x20000 ∧ ucs ≤ 0x2fffd) ∨
      (ucs ≥ 0x30000 ∧ ucs ≤ 0x3fffd))

/-- `mk_wcwidth`. -/
def mkWcwidth (ucs : Nat) : Option Nat :=
  if ucs = 0 then some 0
  else if ucs < 32 ∨ 0x7f ≤ ucs ∧ ucs < 0xa0 then some 1
  else
    match bisearch ucs combining (combining.length - 1) with
    | none => none
    | some true => some 0
    | some false => some (1 + (wide ucs).toNat)

/-- The table of `mk_wcwidth` is ascending. Neighbours are compared, the rest
follows by transitivity. -/
theorem combining_ascending : Ascending combining := by
  have hchain : combining.IsChain fun s t => s.last < t.first := by
    simp [combining]
  have htrans : IsTrans Interval fun s t => s.last < t.first :=
    ⟨fun _ t _ hst htu => Nat.lt_of_lt_of_le hst (Nat.le_trans t.le (Nat.le_of_lt htu))⟩
  exact List.isChain_iff_pairwise.mp hchain

/--
**The width of every character.** The function returns for each of them: NUL
and the combining characters take no column, the characters of the wide ranges
two, any other one. The control characters need no case of their own, since
they lie below the first combining and the first wide one.
-/
theorem mkWcwidth_eq (ucs : Nat) :
    mkWcwidth ucs = some (if ucs = 0 ∨ InTable ucs combining then 0
      else if wide ucs then 2 else 1) := by
  have hlow : InTable ucs combining → 0x300 ≤ ucs := by
    rintro ⟨t, ht, hfirst, -⟩
    have hall : ∀ t ∈ combining, 0x300 ≤ t.first := by
      simp [combining]
    exact Nat.le_trans (hall t ht) hfirst
  have hwide : wide ucs = true → 0x1100 ≤ ucs := by
    intro h
    simp only [wide, decide_eq_true_eq] at h
    exact h.1
  rw [mkWcwidth]
  split
  case isTrue h0 => rw [if_pos (.inl h0)]
  case isFalse h0 =>
    split
    case isTrue hcontrol =>
      -- the control characters are below the table
      have hnot : ¬(ucs = 0 ∨ InTable ucs combining) := by
        rintro (h | h)
        · exact h0 h
        · have := hlow h
          omega
      have hnarrow : ¬wide ucs = true := by
        intro h
        have := hwide h
        omega
      rw [if_neg hnot, if_neg hnarrow]
    case isFalse hcontrol =>
      rw [bisearch_mem ucs (by simp [combining]) combining_ascending]
      by_cases hin : InTable ucs combining
      · rw [decide_eq_true hin, if_pos (.inr hin)]
      · have hnot : ¬(ucs = 0 ∨ InTable ucs combining) := not_or.mpr ⟨h0, hin⟩
        rw [decide_eq_false hin, if_neg hnot]
        cases wide ucs with
        | true => rfl
        | false => rfl

end Flanterm
