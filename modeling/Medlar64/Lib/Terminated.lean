import Mathlib.Data.List.GetD
import Mathlib.Tactic.Common

/-!
# Sequences with a terminator

A finite sequence stored in an array that marks its end with an item that it
does not contain.

* `Terminated z` — items none of which is `z`.
* `Terminated.At str m p` — the array holds the sequence and its terminator
  from `p` on.
* `Terminated.At.ne_iff` — the terminator is the first `z` from `p` on.
* `Terminated.At.eq_iff` — two sequences are equal iff the array agrees on them
  up to and including the terminator of either.
-/

universe u

/-- Items in front of a terminator `z`. -/
@[ext]
structure Terminated {α : Type u} (z : α) where
  items : List α
  ne : ∀ a ∈ items, a ≠ z

namespace Terminated

variable {α : Type u} {z : α}

/-- The number of items in front of the terminator. -/
def length (str : Terminated z) : ℕ := str.items.length

/-- The item at `i`, the terminator behind the last. -/
def get (str : Terminated z) (i : ℕ) : α := str.items.getD i z

/-- The sequence and its terminator start at `p`. -/
def At (str : Terminated z) (m : ℕ → α) (p : ℕ) : Prop :=
  ∀ i ≤ str.length, m (p + i) = str.get i

theorem get_length (str : Terminated z) : str.get str.length = z :=
  List.getD_eq_default _ _ (Nat.le_refl _)

/-- In front of it stand the items. -/
theorem get_eq_getElem (str : Terminated z) {i : ℕ} (h : i < str.items.length) :
    str.get i = str.items[i] :=
  List.getD_eq_getElem _ _ h

/-- And none of them is the terminator. -/
theorem get_ne (str : Terminated z) {i : ℕ} (h : i < str.length) : str.get i ≠ z := by
  rw [get_eq_getElem str h]
  exact str.ne _ (List.getElem_mem h)

section At

variable {m : ℕ → α} {p q i : ℕ} {str str' : Terminated z}

/-- **The terminator is the first `z`** from `p` on: a scan for it stops there,
and not before. -/
theorem At.ne_iff (h : str.At m p) (hi : i ≤ str.length) : m (p + i) ≠ z ↔ i < str.length := by
  rw [h i hi]
  refine ⟨fun hne => Nat.lt_of_le_of_ne hi ?_, get_ne str⟩
  rintro rfl
  exact hne (get_length str)

/-- Two sequences are equal when their lengths and their items are. -/
theorem At.eq_iff_length (h : str.At m p) (h' : str'.At m q) :
    str = str' ↔ str.length = str'.length ∧ ∀ i < str.length, m (p + i) = m (q + i) := by
  constructor
  · rintro rfl
    exact ⟨rfl, fun i hi => (h i (Nat.le_of_lt hi)).trans (h' i (Nat.le_of_lt hi)).symm⟩
  · rintro ⟨hlen, hitems⟩
    refine Terminated.ext (List.ext_getElem hlen ?_)
    intro i hi hi'
    have hsame := hitems i hi
    rwa [h i (Nat.le_of_lt hi), h' i (Nat.le_of_lt hi'), get_eq_getElem str hi,
      get_eq_getElem str' hi'] at hsame

/-- Two sequences are equal iff the array agrees on them up to and including
the terminator of either. The lengths need not be compared first. -/
theorem At.eq_iff (h : str.At m p) (h' : str'.At m q) :
    str = str' ↔ ∀ i ≤ str.length, m (p + i) = m (q + i) := by
  constructor
  · rintro rfl
    exact fun i hi => (h i hi).trans (h' i hi).symm
  · intro hsame
    refine (h.eq_iff_length h').mpr ⟨?_, fun i hi => hsame i (Nat.le_of_lt hi)⟩
    -- the terminator of the shorter one would be an item of the other
    rcases Nat.lt_trichotomy str.length str'.length with hlt | heq | hgt
    · have hitem := (h'.ne_iff (Nat.le_of_lt hlt)).mpr hlt
      rw [← hsame _ (Nat.le_refl _)] at hitem
      exact absurd ((h.ne_iff (Nat.le_refl _)).mp hitem) (Nat.lt_irrefl _)
    · exact heq
    · have hitem := (h.ne_iff (Nat.le_of_lt hgt)).mpr hgt
      rw [hsame _ (Nat.le_of_lt hgt)] at hitem
      exact absurd ((h'.ne_iff (Nat.le_refl _)).mp hitem) (Nat.lt_irrefl _)

end At

end Terminated
