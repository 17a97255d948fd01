import Mathlib.Logic.Function.Basic
import Mathlib.Tactic.Common
import Medlar64.Lib.Rounds
import Medlar64.Lib.WriteBuffer

/-!
# Programs over an array

Computations that read and write the items of one array, apart from the array
they run on.

* `ArrayProg` — the computations, a monad; `stuck` where the program that is
  modelled leaves its data.
* `Safe n Q p` — whatever it reads, `p` keeps to the first `n` items and ends
  with a result in `Q`; `Safe.bind`, `Safe.ite`, `Safe.foldlM` and `Safe.forM` are
  the rules.
* `run` — on an array, `runBuffer` — on an array with a queue of writes;
  `run_forM_moveDown`, `run_forM_moveUp` and `run_forM_fill` are loops on an array.
* `Safe.runBuffer` — the queue makes no difference to what a computation reads
  and returns, and it never overflows.
-/

universe u v w

/-- A computation over an array of `ν`. -/
inductive ArrayProg (ν : Type u) (α : Type v) : Type (max u v)
  | ret (a : α)
  | stuck
  | get (i : ℕ) (k : ν → ArrayProg ν α)
  | put (i : ℕ) (x : ν) (k : ArrayProg ν α)

namespace ArrayProg

variable {ν : Type u} {α β γ : Type v}

/-- The sequence of two computations: the second one goes on with the result of
the first, and nothing goes on behind `stuck`. -/
def bind (p : ArrayProg ν α) (f : α → ArrayProg ν β) : ArrayProg ν β :=
  match p with
  | ret a => f a
  | stuck => stuck
  | get i k => get i fun x => (k x).bind f
  | put i x k => put i x (k.bind f)

instance : Monad (ArrayProg ν) where
  pure := ret
  bind := bind

/-- An item of the array. -/
def read (i : ℕ) : ArrayProg ν ν := get i ret

/-- A new value for an item. -/
def write (i : ℕ) (x : ν) : ArrayProg ν PUnit := put i x (ret ⟨⟩)

/-- The computation goes on only when the condition holds. This is where the
program that is modelled would leave its data otherwise. -/
def check (c : Prop) [Decidable c] : ArrayProg ν PUnit := if c then ret ⟨⟩ else stuck

/-- Nothing is added by a computation that only returns. -/
theorem bind_ret (p : ArrayProg ν α) : p.bind ret = p := by
  induction p with
  | ret a => rfl
  | stuck => rfl
  | get i k ih => exact congrArg (get i) (funext ih)
  | put i x k ih => exact congrArg (put i x) ih

/-- Sequences may be regrouped. With `bind_ret` these are the laws of a monad,
so that `do` blocks can be rewritten. -/
theorem bind_assoc (p : ArrayProg ν α) (f : α → ArrayProg ν β) (g : β → ArrayProg ν γ) :
    (p.bind f).bind g = p.bind fun a => (f a).bind g := by
  induction p with
  | ret a => rfl
  | stuck => rfl
  | get i k ih => exact congrArg (get i) (funext ih)
  | put i x k ih => exact congrArg (put i x) ih

instance : LawfulMonad (ArrayProg ν) :=
  LawfulMonad.mk' (ArrayProg ν) bind_ret (fun _ _ => rfl) bind_assoc

-- ---------------------------------------------------------------------------
-- What a computation keeps to
-- ---------------------------------------------------------------------------

/-- Whatever the array holds, the computation stays in its first `n` items and
its result satisfies `Q`. The items it reads may be any: what is safe in this
sense is safe in every state of the array. -/
def Safe (n : ℕ) (Q : α → Prop) : ArrayProg ν α → Prop
  | ret a => Q a
  | stuck => False
  | get i k => i < n ∧ ∀ x, (k x).Safe n Q
  | put i _ k => i < n ∧ k.Safe n Q

section Safe

variable {n : ℕ} {p : ArrayProg ν α} {Q Q' : α → Prop} {R : β → Prop}

theorem Safe.pure {a : α} (h : Q a) : Safe (ν := ν) n Q (Pure.pure a) := h

/-- A weaker condition on the result. -/
theorem Safe.mono (h : p.Safe n Q) (himp : ∀ a, Q a → Q' a) : p.Safe n Q' := by
  induction p with
  | ret a => exact himp a h
  | stuck => exact h
  | get i k ih => exact ⟨h.1, fun x => ih x (h.2 x)⟩
  | put i x k ih => exact ⟨h.1, ih h.2⟩

/-- **Sequence rule.** What the first computation promises of its result is
what the second one may rely on. -/
theorem Safe.bind {f : α → ArrayProg ν β} (h : p.Safe n Q) (hnext : ∀ a, Q a → (f a).Safe n R) :
    (p >>= f).Safe n R := by
  induction p with
  | ret a => exact hnext a h
  | stuck => exact h
  | get i k ih => exact ⟨h.1, fun x => ih x (h.2 x)⟩
  | put i x k ih => exact ⟨h.1, ih h.2⟩

/-- A read inside the array. Nothing is known of what is there, so the
condition has to hold of every value. -/
theorem Safe.read {Q : ν → Prop} {i : ℕ} (hi : i < n) (h : ∀ x, Q x) :
    (read i : ArrayProg ν ν).Safe n Q := ⟨hi, h⟩

theorem Safe.write {i : ℕ} {x : ν} (hi : i < n) :
    (write i x : ArrayProg ν PUnit).Safe n fun _ => True := ⟨hi, trivial⟩

theorem Safe.check {c : Prop} [Decidable c] (h : c) :
    (check c : ArrayProg ν PUnit).Safe n fun _ => True := by
  rw [ArrayProg.check, if_pos h]
  exact trivial

/-- **Conditional rule.** Each branch is safe where its condition holds. -/
theorem Safe.ite {c : Prop} [Decidable c] {q : ArrayProg ν α} (hp : c → p.Safe n Q)
    (hq : ¬c → q.Safe n Q) : (if c then p else q).Safe n Q := by
  by_cases hc : c
  · rw [if_pos hc]
    exact hp hc
  · rw [if_neg hc]
    exact hq hc

/-- **Loop rule.** What every round keeps, the loop keeps: `Q` is the invariant
of the state that goes from round to round. -/
theorem Safe.foldlM {ι : Type w} {l : List ι} {f : α → ι → ArrayProg ν α}
    (hstep : ∀ i ∈ l, ∀ a, Q a → (f a i).Safe n Q) {a : α} (h : Q a) :
    (l.foldlM f a).Safe n Q := by
  induction l generalizing a with
  | nil => exact h
  | cons i l ih =>
    rw [List.foldlM_cons]
    exact (hstep i List.mem_cons_self a h).bind fun a' h' =>
      ih (fun j hj => hstep j (List.mem_cons_of_mem i hj)) h'

/-- The loop rule where no state goes from round to round. -/
theorem Safe.forM {ι : Type w} {l : List ι} {f : ι → ArrayProg ν PUnit}
    (hstep : ∀ i ∈ l, (f i).Safe n fun _ => True) :
    (l.forM f).Safe n fun _ => True := by
  induction l with
  | nil => exact trivial
  | cons i l ih =>
    exact (hstep i List.mem_cons_self).bind fun _ _ =>
      ih fun j hj => hstep j (List.mem_cons_of_mem i hj)

end Safe

-- ---------------------------------------------------------------------------
-- Runs
-- ---------------------------------------------------------------------------

/-- The computation on an array of `n` items. -/
def run (n : ℕ) : ArrayProg ν α → (ℕ → ν) → Option (α × (ℕ → ν))
  | ret a, m => some (a, m)
  | stuck, _ => none
  | get i k, m => if i < n then (k (m i)).run n m else none
  | put i x k, m => if i < n then k.run n (Function.update m i x) else none

/-- The computation on an array of `n` items whose writes are collected in a
queue of `n` entries. A read sees the queue, and a write that would need one
entry more than there are ends the computation. -/
def runBuffer [DecidableEq ν] (n : ℕ) :
    ArrayProg ν α → WriteBuffer ν → Option (α × WriteBuffer ν)
  | ret a, b => some (a, b)
  | stuck, _ => none
  | get i k, b => if i < n then (k (b.view i)).runBuffer n b else none
  | put i x k, b =>
    if i < n ∧ (b.put i x).count ≤ n then k.runBuffer n (b.put i x) else none

variable {n : ℕ}

/-- It runs without a step. -/
@[simp] theorem run_pure (a : α) (m : ℕ → ν) :
    (Pure.pure a : ArrayProg ν α).run n m = some (a, m) := rfl

/-- A sequence runs as its first computation and then, on the array that it
leaves, as its second one. -/
@[simp] theorem run_bind (p : ArrayProg ν α) (f : α → ArrayProg ν β) (m : ℕ → ν) :
    (p >>= f).run n m = (p.run n m).bind fun r => (f r.1).run n r.2 := by
  induction p generalizing m with
  | ret a => rfl
  | stuck => rfl
  | get i k ih =>
    show (if i < n then _ else none) = Option.bind (if i < n then _ else none) _
    by_cases hi : i < n
    · rw [if_pos hi, if_pos hi]
      exact ih (m i) m
    · rw [if_neg hi, if_neg hi]
      rfl
  | put i x k ih =>
    show (if i < n then _ else none) = Option.bind (if i < n then _ else none) _
    by_cases hi : i < n
    · rw [if_pos hi, if_pos hi]
      exact ih _
    · rw [if_neg hi, if_neg hi]
      rfl

/-- A read returns the item and leaves the array as it is. -/
theorem run_read {i : ℕ} (hi : i < n) (m : ℕ → ν) :
    (read i : ArrayProg ν ν).run n m = some (m i, m) := if_pos hi

theorem run_write {i : ℕ} (hi : i < n) (x : ν) (m : ℕ → ν) :
    (write i x : ArrayProg ν PUnit).run n m = some (⟨⟩, Function.update m i x) := if_pos hi

-- ---------------------------------------------------------------------------
-- Loops on an array
-- ---------------------------------------------------------------------------

/-- An ascending loop whose round `i` takes the array `M i` to `M (i + 1)`. The
arrays `M` describe in closed form how far the loop has come; the results about
loops that move or fill items are cases of this one. -/
theorem run_forM_upTo {f : ℕ → ArrayProg ν PUnit} (M : ℕ → ℕ → ν) {a b : ℕ} (hab : a ≤ b)
    (hstep : ∀ i, a ≤ i → i < b → (f i).run n (M i) = some (⟨⟩, M (i + 1))) :
    ((upTo a b).forM f).run n (M a) = some (⟨⟩, M b) := by
  -- the induction is on the rounds left
  induction hk : b - a generalizing a with
  | zero =>
    obtain rfl : a = b := by omega
    rw [upTo_self]
    rfl
  | succ k ih =>
    have hlt : a < b := by omega
    rw [upTo_cons hlt]
    show (f a >>= fun _ => (upTo (a + 1) b).forM f).run n (M a) = _
    rw [run_bind, hstep a (le_refl a) hlt]
    exact ih hlt (fun i hi => hstep i (by omega)) (by omega)

/-- A descending loop whose round `i` takes the array `M (i + 1)` to `M i`. -/
theorem run_forM_downFrom {f : ℕ → ArrayProg ν PUnit} (M : ℕ → ℕ → ν) {a b : ℕ} (hab : a ≤ b)
    (hstep : ∀ i, a ≤ i → i < b → (f i).run n (M (i + 1)) = some (⟨⟩, M i)) :
    ((downFrom b a).forM f).run n (M b) = some (⟨⟩, M a) := by
  induction b, hab using Nat.le_induction with
  | base =>
    rw [downFrom_self]
    rfl
  | succ b hab ih =>
    rw [downFrom_succ hab]
    show (f b >>= fun _ => (downFrom b a).forM f).run n (M (b + 1)) = _
    rw [run_bind, hstep b hab (Nat.lt_succ_self b)]
    exact ih fun i hai hib => hstep i hai (by omega)

/-- A loop that moves the items from `a` to `b - 1` down by `d` places, the
first one first. No item is read after it has been written, so each place gets
what stood `d` places above it before the loop. -/
theorem run_forM_moveDown {f : ℕ → ArrayProg ν PUnit} {a b d : ℕ} (hab : a ≤ b) (hd : 0 < d)
    (hda : d ≤ a) (hf : ∀ i, a ≤ i → i < b → ∀ m : ℕ → ν,
      (f i).run n m = some (⟨⟩, Function.update m (i - d) (m i))) (m : ℕ → ν) :
    ((upTo a b).forM f).run n m =
      some (⟨⟩, fun p => if a ≤ p + d ∧ p + d < b then m (p + d) else m p) := by
  have hstart : (fun p => if a ≤ p + d ∧ p + d < a then m (p + d) else m p) = m := by
    funext p
    exact if_neg (by omega)
  conv_lhs => rw [← hstart]
  refine run_forM_upTo (fun i p => if a ≤ p + d ∧ p + d < i then m (p + d) else m p) hab ?_
  intro i hai hib
  -- round `i` writes the item `i - d`
  rw [hf i hai hib]
  congr 2
  funext p
  -- the item has not been written yet
  rw [if_neg (by omega : ¬(a ≤ i + d ∧ i + d < i))]
  by_cases hp : p = i - d
  · subst hp
    rw [Function.update_self, Nat.sub_add_cancel (by omega), if_pos (by omega)]
  · rw [Function.update_of_ne hp]
    have hiff : (a ≤ p + d ∧ p + d < i) ↔ a ≤ p + d ∧ p + d < i + 1 := by omega
    simp only [hiff]

/-- A loop that moves the items from `a` to `b - 1` up by `d` places, the last
one first, so that here too every item is read before it is written. -/
theorem run_forM_moveUp {f : ℕ → ArrayProg ν PUnit} {a b d : ℕ} (hab : a ≤ b) (hd : 0 < d)
    (hf : ∀ i, a ≤ i → i < b → ∀ m : ℕ → ν,
      (f i).run n m = some (⟨⟩, Function.update m (i + d) (m i))) (m : ℕ → ν) :
    ((downFrom b a).forM f).run n m =
      some (⟨⟩, fun p => if a + d ≤ p ∧ p < b + d then m (p - d) else m p) := by
  have hstart : (fun p => if b + d ≤ p ∧ p < b + d then m (p - d) else m p) = m := by
    funext p
    exact if_neg (by omega)
  conv_lhs => rw [← hstart]
  -- from `i` on everything has moved; what is read at `i` is still the old value
  refine run_forM_downFrom (fun i p => if i + d ≤ p ∧ p < b + d then m (p - d) else m p) hab ?_
  intro i hai hib
  rw [hf i hai hib]
  congr 2
  funext p
  -- the item has not been written yet
  rw [if_neg (by omega : ¬(i + 1 + d ≤ i ∧ i < b + d))]
  by_cases hp : p = i + d
  · subst hp
    rw [Function.update_self, Nat.add_sub_cancel, if_pos (by omega)]
  · rw [Function.update_of_ne hp]
    have hiff : (i + 1 + d ≤ p ∧ p < b + d) ↔ i + d ≤ p ∧ p < b + d := by omega
    simp only [hiff]

/-- A loop that writes one value to the items from `a` to `a + k - 1`. After
`i` rounds the first `i` of them have it; that is the invariant of the loop. -/
theorem run_forM_fill {f : ℕ → ArrayProg ν PUnit} {a k : ℕ} {x : ν}
    (hf : ∀ i < k, ∀ m : ℕ → ν, (f i).run n m = some (⟨⟩, Function.update m (a + i) x))
    (m : ℕ → ν) :
    ((upTo 0 k).forM f).run n m = some (⟨⟩, fun p => if a ≤ p ∧ p < a + k then x else m p) := by
  have hstart : (fun p => if a ≤ p ∧ p < a + 0 then x else m p) = m := by
    funext p
    exact if_neg (by omega)
  conv_lhs => rw [← hstart]
  refine run_forM_upTo (fun i p => if a ≤ p ∧ p < a + i then x else m p) (Nat.zero_le k) ?_
  intro i _ hik
  -- round `i` writes the item `a + i`
  rw [hf i hik]
  congr 2
  funext p
  by_cases hp : p = a + i
  · subst hp
    rw [Function.update_self, if_pos (by omega)]
  · rw [Function.update_of_ne hp]
    have hiff : (a ≤ p ∧ p < a + i) ↔ a ≤ p ∧ p < a + (i + 1) := by omega
    simp only [hiff]

/--
**The queue makes no difference.** A safe computation runs on the array with
the queue as on the array the queue stands for: it returns the same, and the
array that the queue stands for afterwards is the one the computation leaves.
The queue never has an entry too many, and the array itself is not changed
before it is flushed.
-/
theorem Safe.runBuffer [DecidableEq ν] {p : ArrayProg ν α} {Q : α → Prop} (h : p.Safe n Q)
    {b : WriteBuffer ν} (hb : b.Ok n) :
    ∃ a b', p.runBuffer n b = some (a, b') ∧ p.run n b.view = some (a, b'.view) ∧
      b'.Ok n ∧ b'.base = b.base ∧ Q a := by
  induction p generalizing b with
  | ret a => exact ⟨a, b, rfl, rfl, hb, rfl, h⟩
  | stuck => exact absurd h not_false
  | get i k ih =>
    -- a read sees the array that the queue stands for
    obtain ⟨a, b', hbuf, hrun, hok, hbase, hQ⟩ := ih (b.view i) (h.2 _) hb
    exact ⟨a, b', (if_pos h.1).trans hbuf, (if_pos h.1).trans hrun, hok, hbase, hQ⟩
  | put i x k ih =>
    -- a write keeps the queue in order, and safety keeps its length within `n`
    have hput := hb.put h.1 x
    obtain ⟨a, b', hbuf, hrun, hok, hbase, hQ⟩ := ih h.2 hput
    rw [WriteBuffer.view_put hb] at hrun
    rw [WriteBuffer.put_base] at hbase
    exact ⟨a, b', (if_pos ⟨h.1, hput.count_le⟩).trans hbuf, (if_pos h.1).trans hrun, hok, hbase, hQ⟩

end ArrayProg
