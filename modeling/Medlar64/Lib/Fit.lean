import Mathlib.Algebra.Group.Nat.Defs
import Mathlib.Tactic.Common

/-!
# First fit and next fit

Searching a row of slots for `n` free ones in a row. `FitsAt free limit n f`
says that the run `f, …, f + n - 1` is free and ends at or below `limit`;
`FirstFit … lo f` that `f` is the lowest such start from `lo` on;
`NextFit … cursor f` that it is the first fit from the cursor, or the first
fit of all when there is none from the cursor.

`NoFitIn.skip` is the fact a scan rests on: a slot in use rules out every run
that would cover it, so a failed candidate is skipped in one jump.
-/

/-- The `n` slots from `f` are free and lie below `limit`. -/
def FitsAt (free : Nat → Prop) (limit n f : Nat) : Prop :=
  f + n ≤ limit ∧ ∀ i, i < n → free (f + i)

/-- No run starts in `[lo, hi)`. -/
def NoFitIn (free : Nat → Prop) (limit n lo hi : Nat) : Prop :=
  ∀ f, lo ≤ f → f < hi → ¬ FitsAt free limit n f

/-- `f` is the lowest start of a run from `lo` on. -/
def FirstFit (free : Nat → Prop) (limit n lo f : Nat) : Prop :=
  lo ≤ f ∧ FitsAt free limit n f ∧ NoFitIn free limit n lo f

/-- The first fit from the cursor, else the first fit of all. -/
def NextFit (free : Nat → Prop) (limit n cursor f : Nat) : Prop :=
  FirstFit free limit n cursor f ∨
    (∀ g, cursor ≤ g → ¬ FitsAt free limit n g) ∧ FirstFit free limit n 0 f

section Fit

variable {free : Nat → Prop} {limit n lo : Nat}

/-- Nothing starts in an empty interval: where every search begins. -/
theorem NoFitIn.empty (lo : Nat) : NoFitIn free limit n lo lo :=
  fun _ hlo hhi => absurd hhi (by omega)

theorem NoFitIn.mono {hi hi' : Nat} (h : NoFitIn free limit n lo hi) (hle : hi' ≤ hi) :
    NoFitIn free limit n lo hi' :=
  fun f hlo hhi => h f hlo (by omega)

/-- A slot in use at `c + k`, closer to `c` than a whole run, rules out every
start from `c` up to it. So a scan that meets a slot in use goes on behind it,
and the starts in between need not be tried. -/
theorem NoFitIn.skip {c k : Nat} (h : NoFitIn free limit n lo c)
    (hused : ¬ free (c + k)) (hk : k < n) : NoFitIn free limit n lo (c + k + 1) := by
  intro f hlo hhi hfit
  -- a start below `c` is excluded already; a run from one above covers the slot
  by_cases hc : f < c
  · exact h f hlo hc hfit
  · have hcover := hfit.2 (c + k - f) (by omega)
    rw [show f + (c + k - f) = c + k by omega] at hcover
    exact hused hcover

/-- A nonempty run cannot start at the limit, so ruling out every start below
it rules out all of them. -/
theorem NoFitIn.all (h : NoFitIn free limit n lo limit) (hn : 1 ≤ n) :
    ∀ g, lo ≤ g → ¬ FitsAt free limit n g := by
  intro g hlo hfit
  have := hfit.1
  exact h g hlo (by omega) hfit

/-- There is one first fit at most: a lower one would have been excluded. -/
theorem FirstFit.unique {f g : Nat} (hf : FirstFit free limit n lo f)
    (hg : FirstFit free limit n lo g) : f = g := by
  rcases Nat.lt_trichotomy f g with hlt | heq | hgt
  · exact absurd hf.2.1 (hg.2.2 f hf.1 hlt)
  · exact heq
  · exact absurd hg.2.1 (hf.2.2 g hg.1 hgt)

theorem NextFit.fits {cursor f : Nat} (h : NextFit free limit n cursor f) :
    FitsAt free limit n f :=
  h.elim (fun h => h.2.1) fun h => h.2.2.1

end Fit
