import Mathlib.Data.List.Induction
import Mathlib.Logic.Function.Basic
import Mathlib.Tactic.Common

/-!
# Counted loops

Loops over a range of numbers whose rounds can fail.

* `upTo`, `downFrom` — the rounds; `foldlM_upTo` — the rule for an invariant
  that counts them.
* `writeAll m ws` — the writes of a list, one after another;
  `writeAll_of_mem`, `writeAll_of_notMem` — what an item is afterwards.
* `foldlM_writes` — a loop whose rounds are writes is the list of its writes.
-/

universe u v

/-- The rounds of `for (i = a; i < b; i++)`. -/
def upTo (a b : ℕ) : List ℕ := List.range' a (b - a)

/-- The rounds of a loop from `b - 1` down to `a`. -/
def downFrom (b a : ℕ) : List ℕ := (upTo a b).reverse

/-- The rounds by their bounds. -/
@[simp] theorem mem_upTo {a b i : ℕ} : i ∈ upTo a b ↔ a ≤ i ∧ i < b := by
  rw [upTo, List.mem_range'_1]
  omega

/-- The rounds downwards are the same rounds. -/
@[simp] theorem mem_downFrom {a b i : ℕ} : i ∈ downFrom b a ↔ a ≤ i ∧ i < b := by
  rw [downFrom, List.mem_reverse, mem_upTo]

theorem upTo_self (a : ℕ) : upTo a a = [] := by
  rw [upTo, Nat.sub_self]
  rfl

theorem upTo_cons {a b : ℕ} (h : a < b) : upTo a b = a :: upTo (a + 1) b := by
  obtain ⟨k, rfl⟩ : ∃ k, b = a + 1 + k := ⟨b - (a + 1), by omega⟩
  rw [upTo, upTo, show a + 1 + k - a = k + 1 by omega, Nat.add_sub_cancel_left, List.range'_succ]

/-- The last round behind the others: the form for induction on the upper
bound. -/
theorem upTo_succ {a b : ℕ} (h : a ≤ b) : upTo a (b + 1) = upTo a b ++ [b] := by
  rw [upTo, upTo, Nat.succ_sub h, List.range'_concat, Nat.one_mul, Nat.add_sub_cancel' h]

theorem downFrom_self (a : ℕ) : downFrom a a = [] := by
  rw [downFrom, upTo_self]
  rfl

/-- A loop that counts down begins with its highest round. -/
theorem downFrom_succ {a b : ℕ} (h : a ≤ b) : downFrom (b + 1) a = b :: downFrom b a := by
  rw [downFrom, upTo_succ h, List.reverse_append]
  rfl

/--
**Loop rule.** When each round has a result and keeps the invariant, the loop
has a result that satisfies it. The invariant speaks of the number of the next
round, so that it can say how far the loop has come.
-/
theorem foldlM_upTo {σ : Type u} {f : σ → ℕ → Option σ} (Inv : ℕ → σ → Prop) {n : ℕ}
    (hstep : ∀ i < n, ∀ s, Inv i s → ∃ s', f s i = some s' ∧ Inv (i + 1) s') {s : σ}
    (h : Inv 0 s) : ∃ s', (upTo 0 n).foldlM f s = some s' ∧ Inv n s' := by
  induction n with
  | zero => exact ⟨s, rfl, h⟩
  | succ n ih =>
    -- the rounds before the last one, then the last one
    obtain ⟨t, ht, hinv⟩ := ih fun i hi => hstep i (by omega)
    obtain ⟨s', hs', hinv'⟩ := hstep n (by omega) t hinv
    refine ⟨s', ?_, hinv'⟩
    rw [upTo_succ (Nat.zero_le n), List.foldlM_append, ht]
    show [n].foldlM f t = some s'
    rw [List.foldlM_cons, hs']
    rfl

-- ---------------------------------------------------------------------------
-- Writes
-- ---------------------------------------------------------------------------

section Writes

variable {α : Type u} {ι : Type v}

/-- The writes `(index, value)` of a list, the first one first. -/
def writeAll (m : ℕ → α) (ws : List (ℕ × α)) : ℕ → α :=
  ws.foldl (fun m w => Function.update m w.1 w.2) m

theorem writeAll_append (m : ℕ → α) (ws ws' : List (ℕ × α)) :
    writeAll m (ws ++ ws') = writeAll (writeAll m ws) ws' :=
  List.foldl_append

/-- An item that is not written keeps its value. -/
theorem writeAll_of_notMem {ws : List (ℕ × α)} {p : ℕ} (h : ∀ w ∈ ws, w.1 ≠ p) (m : ℕ → α) :
    writeAll m ws p = m p := by
  induction ws generalizing m with
  | nil => rfl
  | cons w ws ih =>
    have hne : p ≠ w.1 := (h w List.mem_cons_self).symm
    rw [writeAll, List.foldl_cons, ← writeAll,
      ih fun w' hw' => h w' (List.mem_cons_of_mem w hw'), Function.update_of_ne hne]

/-- An item to which one value is written has it. It may be written more than
once, as long as the value is the same each time. -/
theorem writeAll_of_mem {ws : List (ℕ × α)} {p : ℕ} {v : α} (hmem : (p, v) ∈ ws)
    (hsame : ∀ w ∈ ws, w.1 = p → w.2 = v) (m : ℕ → α) : writeAll m ws p = v := by
  -- the last write decides
  induction ws using List.reverseRecOn with
  | nil => simp at hmem
  | append_singleton ws w ih =>
    rw [writeAll_append]
    show Function.update (writeAll m ws) w.1 w.2 p = v
    by_cases hw : p = w.1
    · rw [hw, Function.update_self]
      exact hsame w (List.mem_append_right ws (List.mem_singleton_self w)) hw.symm
    · rw [Function.update_of_ne hw]
      refine ih ?_ fun w' hw' => hsame w' (List.mem_append_left [w] hw')
      obtain h | h := List.mem_append.mp hmem
      · exact h
      · exact absurd (congrArg Prod.fst (List.mem_singleton.mp h)) hw

/-- A loop whose rounds are writes is the list of all its writes. -/
theorem foldlM_writes {l : List ι} {body : (ℕ → α) → ι → Option (ℕ → α)}
    {ws : ι → List (ℕ × α)} (h : ∀ i ∈ l, ∀ m, body m i = some (writeAll m (ws i))) (m : ℕ → α) :
    l.foldlM body m = some (writeAll m (l.flatMap ws)) := by
  induction l generalizing m with
  | nil => rfl
  | cons i l ih =>
    rw [List.foldlM_cons, h i List.mem_cons_self, List.flatMap_cons, writeAll_append]
    exact ih (fun j hj => h j (List.mem_cons_of_mem i hj)) _

end Writes
