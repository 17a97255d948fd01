import Mathlib.Data.List.Induction
import Mathlib.Data.Set.Insert
import Mathlib.Tactic.Common

/-!
# Sets changed one element at a time

A set of elements that are set and cleared, and what the log of the updates
says about an element.

* `SetUpdate.run S log` — the set after the updates.
* `lastNaming log a` — the last update that names `a`.
* `mem_run` — `a` is in the set iff that update has set it, or there is none
  and `a` was in the set before.
* `mem_run_sets`, `mem_run_clears` — logs of updates of one kind.
* `foldl_refines` — an implementation whose updates change its set as the
  updates of the log do holds `run` of its set.
-/

universe u v

/-- The last match in a list that grows at its end is the new item, if it
matches. -/
theorem find?_reverse_concat {α : Type u} (p : α → Bool) (l : List α) (a : α) :
    (l ++ [a]).reverse.find? p = if p a then some a else l.reverse.find? p := by
  rw [List.reverse_append, List.reverse_singleton, List.singleton_append, List.find?_cons]
  cases p a with
  | true => rfl
  | false => rfl

/-- An element is added to the set or taken out of it. -/
inductive SetUpdate (α : Type u)
  | set (a : α)
  | clear (a : α)
  deriving DecidableEq

namespace SetUpdate

variable {α : Type u}

/-- The element that the update names. -/
def item : SetUpdate α → α
  | set a | clear a => a

/-- The set after one update. -/
def apply (S : Set α) : SetUpdate α → Set α
  | set a => insert a S
  | clear a => S \ {a}

/-- The set after the updates, the first of the log first. -/
def run (S : Set α) (log : List (SetUpdate α)) : Set α := log.foldl apply S

theorem run_append (S : Set α) (log : List (SetUpdate α)) (op : SetUpdate α) :
    run S (log ++ [op]) = op.apply (run S log) := by
  rw [run, List.foldl_append]
  rfl

/-- An update does not concern the elements it does not name. -/
theorem mem_apply_of_ne {S : Set α} {op : SetUpdate α} {a : α} (h : op.item ≠ a) :
    a ∈ op.apply S ↔ a ∈ S := by
  cases op with
  | set b => exact Set.mem_insert_iff.trans (or_iff_right (Ne.symm h))
  | clear b => exact and_iff_left fun heq => h (Set.mem_singleton_iff.mp heq).symm

/-- The element it names is in the set afterwards if it sets it. -/
theorem item_mem_apply (S : Set α) (op : SetUpdate α) :
    op.item ∈ op.apply S ↔ op = .set op.item := by
  cases op with
  | set b => exact iff_of_true (Set.mem_insert b S) rfl
  | clear b => simp [item, apply]

/-- A log that only sets adds the elements it names. -/
theorem mem_run_sets (S : Set α) (items : List α) (a : α) :
    a ∈ run S (items.map .set) ↔ a ∈ items ∨ a ∈ S := by
  induction items using List.reverseRecOn with
  | nil => simp [run]
  | append_singleton items b ih =>
    rw [List.map_append, List.map_singleton, run_append, List.mem_append, List.mem_singleton,
      or_right_comm, or_comm, ← ih]
    exact Set.mem_insert_iff

/-- A log that only clears takes out the elements it names. -/
theorem mem_run_clears (S : Set α) (items : List α) (a : α) :
    a ∈ run S (items.map .clear) ↔ a ∉ items ∧ a ∈ S := by
  induction items using List.reverseRecOn with
  | nil => simp [run]
  | append_singleton items b ih =>
    rw [List.map_append, List.map_singleton, run_append, List.mem_append, List.mem_singleton,
      not_or, and_right_comm, ← ih]
    exact Iff.rfl

variable [DecidableEq α]

/-- The last update of the log that names `a`. -/
def lastNaming (log : List (SetUpdate α)) (a : α) : Option (SetUpdate α) :=
  log.reverse.find? fun op => op.item == a

/-- An update is the last one that names its own element, and changes nothing
for the others. -/
theorem lastNaming_append (log : List (SetUpdate α)) (op : SetUpdate α) (a : α) :
    lastNaming (log ++ [op]) a = if op.item = a then some op else lastNaming log a := by
  unfold lastNaming
  rw [find?_reverse_concat]
  simp only [beq_iff_eq]

/--
**The log decides.** An element is in the set iff the last update that names it
has set it, or none names it and it was in the set to begin with.
-/
theorem mem_run (S : Set α) (log : List (SetUpdate α)) (a : α) :
    a ∈ run S log ↔ lastNaming log a = some (.set a) ∨ lastNaming log a = none ∧ a ∈ S := by
  -- on the log, from its end: the last update names `a` or leaves it alone
  induction log using List.reverseRecOn with
  | nil => simp [run, lastNaming]
  | append_singleton log op ih =>
    rw [run_append, lastNaming_append]
    by_cases h : op.item = a
    · subst h
      rw [if_pos rfl, item_mem_apply]
      simp
    · rw [if_neg h, mem_apply_of_ne h, ih]

end SetUpdate

/--
**Refinement rule.** Where every update of the log changes the set that a state
stands for as it should, the whole log does. The state may hold more than the
set; that part is free.
-/
theorem foldl_refines {α : Type u} {σ : Type v} {step : σ → SetUpdate α → σ} (abs : σ → Set α)
    {log : List (SetUpdate α)} {s : σ}
    (h : ∀ t, ∀ op ∈ log, abs (step t op) = op.apply (abs t)) :
    abs (log.foldl step s) = SetUpdate.run (abs s) log := by
  induction log generalizing s with
  | nil => rfl
  | cons op log ih =>
    rw [List.foldl_cons, ih fun t op' hop' => h t op' (List.mem_cons_of_mem op hop'),
      h s op List.mem_cons_self]
    rfl
