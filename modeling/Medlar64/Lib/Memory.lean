import Mathlib.Logic.Function.Basic
import Mathlib.Tactic.Common
import Medlar64.Lib.Loop

/-!
# Byte memory

A flat memory of bytes and little-endian words of any width in it.

* `loadLE m a k` / `storeLE m a k v` — the `k`-byte word at `a`.
* `loadLE_storeLE` reads back what was stored, `storeLE_outside` and
  `loadLE_storeLE_disjoint` are the frame facts, `loadLE_congr` says that a
  word depends on its own bytes only.
* `forUp_update`, `forUp_copy` and `forDown_copy` evaluate the byte loops of a C
  library: the one that fills a range, and the two that copy one, each between
  ranges that overlap on one side only.
-/

/-- Bytes by address. -/
abbrev Memory := Nat → BitVec 8

/-- The `k`-byte little-endian word at `a`: the byte at `a` counts least. -/
def loadLE (m : Memory) (a : Nat) : Nat → Nat
  | 0 => 0
  | k + 1 => (m a).toNat + 256 * loadLE m (a + 1) k

/-- Store the low `k` bytes of `v` at `a`, least significant first. -/
def storeLE (m : Memory) (a : Nat) : Nat → Nat → Memory
  | 0, _ => m
  | k + 1, v => storeLE (Function.update m a (BitVec.ofNat 8 v)) (a + 1) k (v / 256)

-- ---------------------------------------------------------------------------
-- Words
-- ---------------------------------------------------------------------------

/-- A word depends on its own bytes only. -/
theorem loadLE_congr {m m' : Memory} {a k : Nat}
    (h : ∀ x, a ≤ x → x < a + k → m x = m' x) : loadLE m a k = loadLE m' a k := by
  induction k generalizing a with
  | zero => rfl
  | succ k ih =>
    rw [loadLE, loadLE, h a (by omega) (by omega),
      ih fun x hx hxk => h x (by omega) (by omega)]

/-- A word of `k` bytes is a number below `256 ^ k`. -/
theorem loadLE_lt (m : Memory) (a k : Nat) : loadLE m a k < 256 ^ k := by
  induction k generalizing a with
  | zero => simp [loadLE]
  | succ k ih =>
    have hb := (m a).isLt
    have hr := ih (a + 1)
    rw [loadLE, Nat.pow_succ]
    omega

/-- Bytes outside the stored word keep their value. -/
theorem storeLE_outside {m : Memory} {a k v x : Nat} (h : x < a ∨ a + k ≤ x) :
    storeLE m a k v x = m x := by
  induction k generalizing m a v with
  | zero => rfl
  | succ k ih =>
    rw [storeLE, ih (by omega), Function.update_of_ne (by omega)]

/-- What was stored is read back, reduced to the width of the word. -/
theorem loadLE_storeLE (m : Memory) (a k v : Nat) :
    loadLE (storeLE m a k v) a k = v % 256 ^ k := by
  induction k generalizing m a v with
  | zero => simp [loadLE, Nat.mod_one]
  | succ k ih =>
    have hpow : 256 ^ (k + 1) = 256 * 256 ^ k := Nat.pow_succ'
    rw [loadLE, storeLE, storeLE_outside (by omega), Function.update_self, ih,
      BitVec.toNat_ofNat, hpow, Nat.mod_mul]

theorem loadLE_storeLE_disjoint {m : Memory} {a k v b j : Nat}
    (h : b + j ≤ a ∨ a + k ≤ b) : loadLE (storeLE m a k v) b j = loadLE m b j :=
  loadLE_congr fun _ _ _ => storeLE_outside (by omega)

-- ---------------------------------------------------------------------------
-- Byte loops
-- ---------------------------------------------------------------------------

/-- A loop that fills the addresses `a, …, a + n - 1`. -/
theorem forUp_update (m : Memory) (a n : Nat) (b : BitVec 8) (x : Nat) :
    forUp (fun i m => Function.update m (a + i) b) n m x =
      if a ≤ x ∧ x < a + n then b else m x := by
  induction n with
  | zero => rw [forUp, if_neg (by omega)]
  | succ n ih =>
    rw [forUp, Function.update_apply, ih]
    by_cases hx : x = a + n
    · rw [if_pos hx, if_pos (by omega)]
    · rw [if_neg hx]
      exact if_congr (by omega) rfl rfl

/-- A byte copy, first to last, to a range that does not begin within the
source. A range that ends within it is no obstacle: the bytes there have been
read before they are written. -/
theorem forUp_copy (m : Memory) {d s n : Nat} (h : d ≤ s ∨ s + n ≤ d) (x : Nat) :
    forUp (fun i m => Function.update m (d + i) (m (s + i))) n m x =
      if d ≤ x ∧ x < d + n then m (s + (x - d)) else m x := by
  -- on the rounds that are done, for every byte of the memory
  suffices hgen : ∀ k, k ≤ n → ∀ x,
      forUp (fun i m => Function.update m (d + i) (m (s + i))) k m x =
        if d ≤ x ∧ x < d + k then m (s + (x - d)) else m x from hgen n (Nat.le_refl n) x
  intro k
  induction k with
  | zero => intro _ x; rw [forUp, if_neg (by omega)]
  | succ k ih =>
    intro hk x
    rw [forUp, Function.update_apply, ih (by omega), ih (by omega)]
    by_cases hx : x = d + k
    · -- the source byte is outside the part already written
      rw [if_pos hx, if_neg (by omega), if_pos (by omega)]
      congr 1
      omega
    · rw [if_neg hx]
      exact if_congr (by omega) rfl rfl

/-- A byte copy, last to first, to a range that does not end within the
source. -/
theorem forDown_copy (m : Memory) {d s n : Nat} (h : s ≤ d ∨ d + n ≤ s) (x : Nat) :
    forDown (fun i m => Function.update m (d + i) (m (s + i))) n m x =
      if d ≤ x ∧ x < d + n then m (s + (x - d)) else m x := by
  -- on the length: the first round writes the last byte
  induction n generalizing m with
  | zero => rw [forDown, if_neg (by omega)]
  | succ n ih =>
    rw [forDown, ih _ (by omega)]
    by_cases hx : d ≤ x ∧ x < d + n
    · -- the source byte is below the one written first
      rw [if_pos hx, if_pos (by omega), Function.update_of_ne (by omega)]
    · rw [if_neg hx, Function.update_apply]
      by_cases hlast : x = d + n
      · rw [if_pos hlast, if_pos (by omega)]
        congr 1
        omega
      · rw [if_neg hlast, if_neg (by omega)]
