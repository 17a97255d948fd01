import Mathlib.Data.Finset.Card
import Mathlib.Logic.Function.Basic
import Mathlib.Tactic.Common

/-!
# Write buffers

An array whose writes are first collected in a queue, one entry for each index
that changes, with a table from an index to its entry.

* `WriteBuffer.view` — the array as it will be.
* `WriteBuffer.put`, `view_put` — a write changes the view at its index.
* `WriteBuffer.commit`, `view_commit` — one entry carried out, the view stays.
* `WriteBuffer.Ok`, `Ok.put` — table and queue belong together; `Ok.count_le`:
  the queue needs no more entries than the array has items.
* `WriteBuffer.Drained` — the same while the queue is being emptied;
  `Drained.base_eq` — at its end the array is the view.
-/

universe u

/-- An array, and a queue of the writes that have not reached it yet. Keys and
values from `count` on are left over from before and mean nothing. -/
structure WriteBuffer (α : Type u) where
  /-- The array itself. -/
  base : ℕ → α
  /-- The index and the value of each entry of the queue. -/
  key : ℕ → ℕ
  val : ℕ → α
  count : ℕ
  /-- The entry of an index. -/
  index : ℕ → Option ℕ

namespace WriteBuffer

variable {α : Type u}

/-- The array with the writes of the queue. -/
def view (b : WriteBuffer α) (i : ℕ) : α :=
  match b.index i with
  | some k => b.val k
  | none => b.base i

/-- Another value for an entry. -/
def replace (b : WriteBuffer α) (k : ℕ) (v : α) : WriteBuffer α :=
  { b with val := Function.update b.val k v }

/-- A new entry behind the others, and its number in the table. -/
def append (b : WriteBuffer α) (i : ℕ) (v : α) : WriteBuffer α :=
  { b with
    key := Function.update b.key b.count i
    val := Function.update b.val b.count v
    count := b.count + 1
    index := Function.update b.index i (some b.count) }

/-- A write. The value in the array needs no entry, unless it replaces another
one in the queue. -/
def put [DecidableEq α] (b : WriteBuffer α) (i : ℕ) (v : α) : WriteBuffer α :=
  match b.index i with
  | some k => b.replace k v
  | none => if b.base i = v then b else b.append i v

/-- A value is put into the array, and its index has no entry any more. -/
def settle (b : WriteBuffer α) (i : ℕ) (v : α) : WriteBuffer α :=
  { b with base := Function.update b.base i v, index := Function.update b.index i none }

/-- The write to an index is carried out. -/
def commit (b : WriteBuffer α) (i : ℕ) : WriteBuffer α :=
  match b.index i with
  | some k => b.settle i (b.val k)
  | none => b

/-- The table of an array of `n` items names the entries of the queue, each at
its own index: an index has at most one entry, and every entry is found through
its index. -/
structure Ok (n : ℕ) (b : WriteBuffer α) : Prop where
  entry : ∀ k < b.count, b.key k < n ∧ b.index (b.key k) = some k
  slot : ∀ i k, b.index i = some k → k < b.count ∧ b.key k = i

/-- The same with some of the entries carried out. They are still in the queue,
but the table does not name them any more. -/
structure Pending (n : ℕ) (b : WriteBuffer α) : Prop where
  entry : ∀ k < b.count, b.key k < n ∧ (b.index (b.key k) = some k ∨ b.index (b.key k) = none)
  slot : ∀ i k, b.index i = some k → k < b.count ∧ b.key k = i

variable {n i j k : ℕ} {b : WriteBuffer α} {v : α}

theorem view_of_some (h : b.index i = some k) : b.view i = b.val k := by
  rw [view, h]

/-- An index without an entry is seen as the array has it. -/
theorem view_of_none (h : b.index i = none) : b.view i = b.base i := by
  rw [view, h]

/-- Nothing has been carried out yet. -/
theorem Ok.pending (h : b.Ok n) : b.Pending n where
  entry k hk := ⟨(h.entry k hk).1, .inl (h.entry k hk).2⟩
  slot := h.slot

-- ---------------------------------------------------------------------------
-- Writes
-- ---------------------------------------------------------------------------

/-- The new value of an entry is seen at its index. -/
theorem replace_view_self (h : b.index i = some k) (v : α) : (b.replace k v).view i = v := by
  rw [view_of_some (b := b.replace k v) h]
  exact Function.update_self _ _ _

/-- And at no other index, since no other index has this entry. -/
theorem replace_view_of_ne (h : b.index j ≠ some k) (v : α) :
    (b.replace k v).view j = b.view j := by
  cases hj : b.index j with
  | some l =>
    have hlk : l ≠ k := by
      rintro rfl
      exact h hj
    rw [view_of_some hj, view_of_some (b := b.replace k v) hj]
    exact Function.update_of_ne hlk _ _
  | none => rw [view_of_none hj, view_of_none (b := b.replace k v) hj]; rfl

/-- The new entry is found through its index. -/
theorem append_index_self (b : WriteBuffer α) (i : ℕ) (v : α) :
    (b.append i v).index i = some b.count := Function.update_self _ _ _

/-- The other indices keep their entries. -/
theorem append_index_of_ne (h : j ≠ i) (v : α) : (b.append i v).index j = b.index j :=
  Function.update_of_ne h _ _

/-- The new entry stands behind the old ones. -/
theorem append_key_count (b : WriteBuffer α) (i : ℕ) (v : α) :
    (b.append i v).key b.count = i := Function.update_self _ _ _

/-- The old ones keep their indices. -/
theorem append_key_of_lt (h : k < b.count) (v : α) : (b.append i v).key k = b.key k :=
  Function.update_of_ne (Nat.ne_of_lt h) _ _

/-- The value of the new entry is seen at its index. -/
theorem append_view_self (b : WriteBuffer α) (i : ℕ) (v : α) : (b.append i v).view i = v := by
  rw [view_of_some (append_index_self b i v)]
  exact Function.update_self _ _ _

/-- The other indices are seen as before, as their entries are in front of the
new one. -/
theorem append_view_of_ne (hslot : ∀ l, b.index j = some l → l < b.count) (hji : j ≠ i) (v : α) :
    (b.append i v).view j = b.view j := by
  cases hj : b.index j with
  | some l =>
    rw [view_of_some hj, view_of_some ((append_index_of_ne hji v).trans hj)]
    exact Function.update_of_ne (Nat.ne_of_lt (hslot l hj)) _ _
  | none => rw [view_of_none hj, view_of_none ((append_index_of_ne hji v).trans hj)]; rfl

/-- A new entry for an index that has none keeps table and queue together. The
old entries are at other indices, since theirs had one. -/
theorem Ok.append (h : b.Ok n) (hi : i < n) (hnone : b.index i = none) (v : α) :
    (b.append i v).Ok n := by
  constructor
  · intro k hk
    -- an old entry, or the one that is appended
    obtain hk | rfl := Nat.lt_succ_iff_lt_or_eq.mp hk
    · obtain ⟨hlt, hslot⟩ := h.entry k hk
      have hne : b.key k ≠ i := by
        rintro rfl
        rw [hnone] at hslot
        contradiction
      rw [append_key_of_lt hk, append_index_of_ne hne]
      exact ⟨hlt, hslot⟩
    · rw [append_key_count, append_index_self]
      exact ⟨hi, rfl⟩
  · intro j k hj
    by_cases hji : j = i
    · subst hji
      rw [append_index_self] at hj
      obtain rfl := Option.some.inj hj
      exact ⟨Nat.lt_succ_self _, append_key_count b j v⟩
    · rw [append_index_of_ne hji] at hj
      obtain ⟨hlt, hkey⟩ := h.slot j k hj
      exact ⟨Nat.lt_succ_of_lt hlt, by rw [append_key_of_lt hlt, hkey]⟩

section Put

variable [DecidableEq α]

theorem put_of_some (h : b.index i = some k) (v : α) : b.put i v = b.replace k v := by
  rw [put, h]

/-- A write of the value that the array has needs no entry. -/
theorem put_same (h : b.index i = none) (hv : b.base i = v) : b.put i v = b := by
  rw [put, h]
  exact if_pos hv

/-- Any other one appends an entry. -/
theorem put_new (h : b.index i = none) (hv : b.base i ≠ v) : b.put i v = b.append i v := by
  rw [put, h]
  exact if_neg hv

/-- **A write changes the view** at its index and nowhere else, whether it
changes an entry, appends one or does nothing. -/
theorem view_put (h : b.Ok n) (i : ℕ) (v : α) : (b.put i v).view = Function.update b.view i v := by
  funext j
  cases hi : b.index i with
  | some k =>
    rw [put_of_some hi]
    by_cases hji : j = i
    · subst hji
      rw [Function.update_self, replace_view_self hi]
    · -- another index has another entry
      have hne : b.index j ≠ some k := fun hj =>
        hji ((h.slot j k hj).2.symm.trans (h.slot i k hi).2)
      rw [Function.update_of_ne hji, replace_view_of_ne hne]
  | none =>
    by_cases hv : b.base i = v
    · rw [put_same hi hv, ← hv, ← view_of_none hi, Function.update_eq_self]
    · rw [put_new hi hv]
      by_cases hji : j = i
      · subst hji
        rw [Function.update_self, append_view_self]
      · rw [Function.update_of_ne hji, append_view_of_ne (fun l hl => (h.slot j l hl).1) hji]

/-- A write keeps table and queue together. -/
theorem Ok.put (h : b.Ok n) (hi : i < n) (v : α) : (b.put i v).Ok n := by
  cases hindex : b.index i with
  | some k =>
    rw [put_of_some hindex]
    exact ⟨h.entry, h.slot⟩
  | none =>
    by_cases hv : b.base i = v
    · rwa [put_same hindex hv]
    · rw [put_new hindex hv]
      exact h.append hi hindex v

/-- A write does not reach the array itself. -/
@[simp] theorem put_base (b : WriteBuffer α) (i : ℕ) (v : α) : (b.put i v).base = b.base := by
  cases h : b.index i with
  | some k =>
    rw [put_of_some h]
    rfl
  | none =>
    by_cases hv : b.base i = v
    · rw [put_same h hv]
    · rw [put_new h hv]
      rfl

end Put

/-- The entries have indices of their own, so there are no more than indices: a
queue with as many entries as the array has items never overflows. -/
theorem Ok.count_le (h : b.Ok n) : b.count ≤ n := by
  have hinj : Set.InjOn b.key (Finset.range b.count) := by
    intro j hj k hk heq
    have hj' := (h.entry j (Finset.mem_range.mp hj)).2
    have hk' := (h.entry k (Finset.mem_range.mp hk)).2
    rw [heq, hk'] at hj'
    exact (Option.some.inj hj').symm
  have hmaps : ∀ k ∈ Finset.range b.count, b.key k ∈ Finset.range n := by
    intro k hk
    exact Finset.mem_range.mpr (h.entry k (Finset.mem_range.mp hk)).1
  have hcard := Finset.card_le_card_of_injOn b.key hmaps hinj
  rwa [Finset.card_range, Finset.card_range] at hcard

-- ---------------------------------------------------------------------------
-- Carrying the writes out
-- ---------------------------------------------------------------------------

/-- An entry is carried out by writing its value to the array. -/
theorem commit_of_some (h : b.index i = some k) : b.commit i = b.settle i (b.val k) := by
  rw [commit, h]

theorem Pending.settle_eq (h : b.Pending n) (hk : k < b.count) (hsome : b.index (b.key k) ≠ none) :
    b.settle (b.key k) (b.val k) = b.commit (b.key k) :=
  (commit_of_some ((h.entry k hk).2.resolve_right hsome)).symm

/-- An index without an entry has nothing to be carried out. -/
theorem commit_of_none (h : b.index i = none) : b.commit i = b := by
  rw [commit, h]

/-- Entries that are carried out are not taken out of the queue, -/
@[simp] theorem commit_count (b : WriteBuffer α) (i : ℕ) : (b.commit i).count = b.count := by
  cases h : b.index i with
  | some k =>
    rw [commit_of_some h]
    rfl
  | none => rw [commit_of_none h]

/-- and they keep their indices. -/
@[simp] theorem commit_key (b : WriteBuffer α) (i : ℕ) : (b.commit i).key = b.key := by
  cases h : b.index i with
  | some k =>
    rw [commit_of_some h]
    rfl
  | none => rw [commit_of_none h]

/-- Only the table forgets the entry. -/
theorem commit_index (b : WriteBuffer α) (i : ℕ) :
    (b.commit i).index = Function.update b.index i none := by
  cases h : b.index i with
  | some k =>
    rw [commit_of_some h]
    rfl
  | none => rw [commit_of_none h, ← h, Function.update_eq_self]

/-- The index has no entry any more. -/
theorem commit_index_self (b : WriteBuffer α) (i : ℕ) : (b.commit i).index i = none := by
  rw [commit_index, Function.update_self]

/-- The other ones keep theirs. -/
theorem commit_index_ne (b : WriteBuffer α) {i j : ℕ} (hne : j ≠ i) :
    (b.commit i).index j = b.index j := by
  rw [commit_index, Function.update_of_ne hne]

/-- **Carrying a write out changes nothing that is seen.** What was seen in the
entry is seen in the array now. -/
theorem view_commit (b : WriteBuffer α) (i : ℕ) : (b.commit i).view = b.view := by
  funext j
  cases h : b.index i with
  | none => rw [commit_of_none h]
  | some k =>
    rw [commit_of_some h]
    by_cases hji : j = i
    · -- the value has gone from the entry to the base
      subst hji
      rw [view_of_some h, view_of_none (Function.update_self _ _ _)]
      exact Function.update_self _ _ _
    · have hindex : Function.update b.index i none j = b.index j := Function.update_of_ne hji _ _
      -- another index keeps its entry, or its item in the array
      cases hj : b.index j with
      | some l =>
        rw [view_of_some hj, view_of_some (k := l) (hindex.trans hj)]
        rfl
      | none =>
        rw [view_of_none hj, view_of_none (hindex.trans hj)]
        exact Function.update_of_ne hji _ _

/-- Table and queue belong together while entries are carried out, in whatever
order. -/
theorem Pending.commit (h : b.Pending n) (i : ℕ) : (b.commit i).Pending n := by
  constructor
  · intro k hk
    rw [commit_count] at hk
    obtain ⟨hlt, hslot⟩ := h.entry k hk
    rw [commit_key, commit_index]
    refine ⟨hlt, ?_⟩
    -- the entry that is carried out, or another one
    by_cases hki : b.key k = i
    · exact .inr (by rw [hki, Function.update_self])
    · rwa [Function.update_of_ne hki]
  · intro j k hj
    rw [commit_index] at hj
    by_cases hji : j = i
    · rw [hji, Function.update_self] at hj
      contradiction
    · rw [Function.update_of_ne hji] at hj
      rw [commit_count, commit_key]
      exact h.slot j k hj

/-- The first `m` entries have been carried out: the loop over the queue has
come so far. -/
structure Drained (n m : ℕ) (b : WriteBuffer α) : Prop extends Pending n b where
  done : ∀ k < m, b.index (b.key k) = none

theorem Pending.drained_zero (h : b.Pending n) : b.Drained n 0 :=
  ⟨h, fun _ hk => absurd hk (Nat.not_lt_zero _)⟩

/-- One round carries one entry out. -/
theorem Drained.commit {m : ℕ} (h : b.Drained n m) :
    (b.commit (b.key m)).Drained n (m + 1) := by
  refine ⟨h.toPending.commit _, ?_⟩
  intro k hk
  rw [commit_key, commit_index]
  by_cases hkm : b.key k = b.key m
  · rw [hkm, Function.update_self]
  · rw [Function.update_of_ne hkm]
    have hne : k ≠ m := fun h => hkm (h ▸ rfl)
    exact h.done k (by omega)

/-- When the loop is through, the table is empty and the array is the view. -/
theorem Drained.index_none (h : b.Drained n b.count) (i : ℕ) : b.index i = none := by
  cases hi : b.index i with
  | none => rfl
  | some k =>
    obtain ⟨hk, hkey⟩ := h.slot i k hi
    have hdone := h.done k hk
    rw [hkey, hi] at hdone
    contradiction

/-- **Behind the loop the array is the view**: no entry is left that says
otherwise. -/
theorem Drained.base_eq (h : b.Drained n b.count) : b.base = b.view :=
  funext fun i => (view_of_none (h.index_none i)).symm

/-- The queue starts again. -/
theorem Drained.ok (h : b.Drained n b.count) : Ok n { b with count := 0 } where
  entry k hk := absurd hk (Nat.not_lt_zero _)
  slot i k hi := by
    rw [h.index_none i] at hi
    contradiction

end WriteBuffer
