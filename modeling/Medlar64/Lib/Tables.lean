import Mathlib.Tactic.Common

/-!
# Trees of tables

A radix tree kept in a store of tables: `read n k` is the word in slot `k` of
table `n`, and `next` the table that a word leads to, `none` for an empty slot.
A path is the list of the slots passed, the last one first.

* `node` — the table at the end of a path; `lookup` — the word in the slot at
  the end of a path, if it is not empty.
* `Distinct` — different paths shorter than the depth lead to different tables.
* `SetLeaf`, with `node_setLeaf`, `lookup_setLeaf`, `Distinct.setLeaf` — writing
  a slot of a table of the last level changes the lookup of that path only.
* `Graft`, with `node_graft`, `lookup_graft`, `Distinct.graft` — hanging a new
  empty table into an empty inner slot changes no lookup of full depth.
* `Inner` — what the words that lead to tables have in common; both updates
  keep it.
* `SameTree` — the store changes outside the tree only, which keeps all of this.
-/

universe u v w

namespace Tables

variable {N : Type u} {K : Type v} {V : Type w}

-- ---------------------------------------------------------------------------
-- Walks
-- ---------------------------------------------------------------------------

/-- The table at the end of the path, if every slot on the way leads
somewhere. -/
def node (next : V → Option N) (read : N → K → V) (root : N) : List K → Option N
  | [] => some root
  | k :: path => (node next read root path).bind fun n => next (read n k)

/-- The word in a slot, unless the slot is empty. -/
def present (next : V → Option N) (word : V) : Option V :=
  if (next word).isSome then some word else none

/-- The word at the end of the path: the one in the last slot, in the table to
which the slots before it lead. -/
def lookup (next : V → Option N) (read : N → K → V) (root : N) : List K → Option V
  | [] => none
  | k :: path => (node next read root path).bind fun n => present next (read n k)

/-- No table is reached by two paths. -/
def Distinct (next : V → Option N) (depth : Nat) (read : N → K → V) (root : N) : Prop :=
  ∀ p q n, p.length < depth → q.length < depth → node next read root p = some n →
    node next read root q = some n → p = q

section Walks

variable {next : V → Option N} {read read' : N → K → V} {root n : N} {path : List K} {k : K}

theorem present_none {word : V} (h : next word = none) : present next word = none := by
  rw [present, h]
  rfl

theorem present_some {word : V} (h : next word ≠ none) : present next word = some word :=
  if_pos (Option.isSome_iff_ne_none.mpr h)

theorem node_cons (h : node next read root path = some n) :
    node next read root (k :: path) = next (read n k) := by
  rw [node, h, Option.bind_some]

theorem node_cons_none (h : node next read root path = none) :
    node next read root (k :: path) = none := by
  rw [node, h, Option.bind_none]

/-- What is looked up in the table at the end of a walk. -/
theorem lookup_cons (h : node next read root path = some n) :
    lookup next read root (k :: path) = present next (read n k) := by
  rw [lookup, h, Option.bind_some]

/-- Nothing is looked up at the end of a walk that has ended before. -/
theorem lookup_cons_none (h : node next read root path = none) :
    lookup next read root (k :: path) = none := by
  rw [lookup, h, Option.bind_none]

end Walks

-- ---------------------------------------------------------------------------
-- The empty tree
-- ---------------------------------------------------------------------------

section Empty

variable {next : V → Option N} {read : N → K → V} {root : N}

/-- An empty root leads nowhere. -/
theorem node_empty (h : ∀ k, next (read root k) = none) (k : K) (path : List K) :
    node next read root (k :: path) = none := by
  induction path generalizing k with
  | nil =>
    rw [node_cons (n := root) rfl]
    exact h k
  | cons j path ih => exact node_cons_none (ih j)

/-- In an empty tree the root is the only table, and the empty path the only
one to it. -/
theorem Distinct.empty (h : ∀ k, next (read root k) = none) (depth : Nat) :
    Distinct next depth read root := by
  rintro (_ | ⟨i, p⟩) (_ | ⟨j, q⟩) n _ _ hp hq
  · rfl
  · rw [node_empty h] at hq
    contradiction
  · rw [node_empty h] at hp
    contradiction
  · rw [node_empty h] at hp
    contradiction

/-- Nothing is found in an empty tree. -/
theorem lookup_empty (h : ∀ k, next (read root k) = none) (path : List K) :
    lookup next read root path = none := by
  rcases path with _ | ⟨k, _ | ⟨j, path⟩⟩
  · rfl
  · rw [lookup_cons (n := root) rfl]
    exact present_none (h k)
  · exact lookup_cons_none (node_empty h j path)

end Empty

-- ---------------------------------------------------------------------------
-- Updates: `n` is the table at `path` and `k` the slot written; every other
-- slot of the tree keeps its word
-- ---------------------------------------------------------------------------

section Update

variable {next : V → Option N} {depth : Nat} {read read' : N → K → V} {root n m : N}
  {path : List K} {k : K}

/-- The slots of the tree, other than slot `k` of table `n`, keep their words. -/
def SameElsewhere (next : V → Option N) (depth : Nat) (read read' : N → K → V) (root n : N)
    (k : K) : Prop :=
  ∀ q x j, q.length < depth → node next read root q = some x → (x ≠ n ∨ j ≠ k) →
    read' x j = read x j

/-- A path to a slot other than the one written ends in a kept slot. -/
theorem SameElsewhere.word (hframe : SameElsewhere next depth read read' root n k)
    (hdist : Distinct next depth read root) (hn : node next read root path = some n)
    (hpath : path.length < depth) {q : List K} {x : N} {j : K} (hq : q.length < depth)
    (hx : node next read root q = some x) (hne : j :: q ≠ k :: path) : read' x j = read x j := by
  refine hframe q x j hq hx ?_
  by_cases hxn : x = n
  · subst hxn
    obtain rfl := hdist q path x hq hpath hx hn
    exact .inr fun hjk => hne (by rw [hjk])
  · exact .inl hxn

/-- No table up to the one written moves: the walks that are not longer than
the path to it do not pass through the slot. -/
theorem SameElsewhere.node (hframe : SameElsewhere next depth read read' root n k)
    (hdist : Distinct next depth read root) (hn : Tables.node next read root path = some n)
    (hpath : path.length < depth) {q : List K} (hq : q.length ≤ path.length) :
    Tables.node next read' root q = Tables.node next read root q := by
  induction q with
  | nil => rfl
  | cons j q ih =>
    have hq' : q.length + 1 ≤ path.length := hq
    have hsame := ih (by omega)
    cases hx : Tables.node next read root q with
    | none => rw [node_cons_none hx, node_cons_none (hsame.trans hx)]
    | some x =>
      -- the path is too short to end in the slot written
      have hne : j :: q ≠ k :: path := by
        intro heq
        rw [(List.cons.inj heq).2] at hq'
        omega
      rw [node_cons hx, node_cons (hsame.trans hx),
        hframe.word hdist hn hpath (by omega) hx hne]

/-- A slot of the last level written: slot `k` of the table `n` at `path`. -/
structure SetLeaf (next : V → Option N) (depth : Nat) (read read' : N → K → V) (root : N)
    (path : List K) (n : N) (k : K) : Prop where
  node : node next read root path = some n
  last : path.length + 1 = depth
  frame : SameElsewhere next depth read read' root n k

/-- A new empty table `m` hung into an empty inner slot, slot `k` of the table
`n` at `path`. The word in the slot leads to `m` from then on, and all slots of
`m` are empty. -/
structure Graft (next : V → Option N) (depth : Nat) (read read' : N → K → V) (root : N)
    (path : List K) (n : N) (k : K) (m : N) : Prop where
  node : node next read root path = some n
  inner : path.length + 1 < depth
  frame : SameElsewhere next depth read read' root n k
  vacant : next (read n k) = none
  slot : next (read' n k) = some m
  new : ∀ j, next (read' m j) = none

-- ---------------------------------------------------------------------------
-- Writing a leaf
-- ---------------------------------------------------------------------------

/-- A write to a slot at the last level moves no table. -/
theorem node_setLeaf (hdist : Distinct next depth read root)
    (h : SetLeaf next depth read read' root path n k) {q : List K} (hq : q.length < depth) :
    node next read' root q = node next read root q := by
  have hlast := h.last
  exact h.frame.node hdist h.node (by omega) (by omega)

/-- So different paths still lead to different tables. -/
theorem Distinct.setLeaf (hdist : Distinct next depth read root)
    (h : SetLeaf next depth read read' root path n k) : Distinct next depth read' root := by
  intro p q x hp hq hpx hqx
  rw [node_setLeaf hdist h hp] at hpx
  rw [node_setLeaf hdist h hq] at hqx
  exact hdist p q x hp hq hpx hqx

variable [DecidableEq K]

/-- **Writing a leaf** changes the lookup of its own path, and of no other
one. -/
theorem lookup_setLeaf (hdist : Distinct next depth read root)
    (h : SetLeaf next depth read read' root path n k) {q : List K} (hq : q.length = depth) :
    lookup next read' root q =
      if q = k :: path then present next (read' n k) else lookup next read root q := by
  have hlast := h.last
  rcases q with _ | ⟨j, q⟩
  · simp only [List.length_nil] at hq
    omega
  · have hq' : q.length + 1 = depth := hq
    have hsame := node_setLeaf hdist h (q := q) (by omega)
    by_cases hpath : j :: q = k :: path
    · -- the leaf written
      obtain ⟨rfl, rfl⟩ := List.cons.inj hpath
      rw [if_pos rfl, lookup_cons (hsame.trans h.node)]
    · rw [if_neg hpath]
      cases hx : node next read root q with
      -- no path ends before the last level in one tree only
      | none => rw [lookup_cons_none hx, lookup_cons_none (hsame.trans hx)]
      | some x =>
        rw [lookup_cons hx, lookup_cons (hsame.trans hx),
          h.frame.word hdist h.node (by omega) (by omega) hx hpath]

-- ---------------------------------------------------------------------------
-- Hanging in a table
-- ---------------------------------------------------------------------------

/-- The new table adds the one path to it. Nothing lies below the new table, so
no longer path is added. -/
theorem node_graft (hdist : Distinct next depth read root)
    (h : Graft next depth read read' root path n k m) {q : List K} (hq : q.length < depth) :
    node next read' root q = if q = k :: path then some m else node next read root q := by
  have hinner := h.inner
  induction q with
  | nil => rfl
  | cons j q ih =>
    have hq' : q.length + 1 < depth := hq
    have hnode := ih (by omega)
    by_cases hpath : j :: q = k :: path
    · obtain ⟨rfl, rfl⟩ := List.cons.inj hpath
      rw [if_neg (by simp)] at hnode
      rw [if_pos rfl, node_cons (hnode.trans h.node), h.slot]
    · rw [if_neg hpath]
      by_cases hq : q = k :: path
      · -- below the new table there is nothing, as below the empty slot before
        subst hq
        rw [if_pos rfl] at hnode
        rw [node_cons hnode, h.new, node_cons_none (node_cons h.node ▸ h.vacant)]
      · rw [if_neg hq] at hnode
        cases hx : node next read root q with
        | none => rw [node_cons_none hx, node_cons_none (hnode.trans hx)]
        | some x =>
          rw [node_cons hx, node_cons (hnode.trans hx),
            h.frame.word hdist h.node (by omega) (by omega) hx hpath]

/-- Different paths lead to different tables if the new table is none of the
old ones. -/
theorem Distinct.graft (hdist : Distinct next depth read root)
    (h : Graft next depth read read' root path n k m)
    (hfresh : ∀ q, q.length < depth → node next read root q ≠ some m) :
    Distinct next depth read' root := by
  intro p q x hp hq hpx hqx
  rw [node_graft hdist h hp] at hpx
  rw [node_graft hdist h hq] at hqx
  -- the new table is at the end of one path, and no old one is the new one
  by_cases hpm : p = k :: path
  · rw [if_pos hpm] at hpx
    by_cases hqm : q = k :: path
    · rw [hpm, hqm]
    · rw [if_neg hqm] at hqx
      exact absurd (hqx.trans hpx.symm) (hfresh q hq)
  · rw [if_neg hpm] at hpx
    by_cases hqm : q = k :: path
    · rw [if_pos hqm] at hqx
      exact absurd (hpx.trans hqx.symm) (hfresh p hp)
    · rw [if_neg hqm] at hqx
      exact hdist p q x hp hq hpx hqx

/--
**Hanging in a new table** changes no lookup of full depth: the slots of the
new table are empty, as the slot into which it is hung was.
-/
theorem lookup_graft (hdist : Distinct next depth read root)
    (h : Graft next depth read read' root path n k m) {q : List K} (hq : q.length = depth) :
    lookup next read' root q = lookup next read root q := by
  have hinner := h.inner
  rcases q with _ | ⟨j, q⟩
  · rfl
  · have hq' : q.length + 1 = depth := hq
    have hnode := node_graft hdist h (q := q) (by omega)
    by_cases hqm : q = k :: path
    · subst hqm
      rw [if_pos rfl] at hnode
      rw [lookup_cons hnode, present_none (h.new j),
        lookup_cons_none (node_cons h.node ▸ h.vacant)]
    · rw [if_neg hqm] at hnode
      cases hx : node next read root q with
      | none => rw [lookup_cons_none hx, lookup_cons_none (hnode.trans hx)]
      | some x =>
        -- the slot written is not at the last level
        have hne : j :: q ≠ k :: path := by
          intro heq
          rw [(List.cons.inj heq).2] at hq'
          omega
        rw [lookup_cons hx, lookup_cons (hnode.trans hx),
          h.frame.word hdist h.node (by omega) (by omega) hx hne]

end Update

-- ---------------------------------------------------------------------------
-- The words on the way
-- ---------------------------------------------------------------------------

/-- Every word that leads to a table has `P`. -/
def Inner (P : V → Prop) (next : V → Option N) (depth : Nat) (read : N → K → V) (root : N) : Prop :=
  ∀ q n k, q.length + 1 < depth → node next read root q = some n → next (read n k) ≠ none →
    P (read n k)

section Inner

variable {P : V → Prop} {next : V → Option N} {depth : Nat} {read read' : N → K → V}
  {root n m : N} {path : List K} {k : K}

/-- An empty tree has no words that lead on. -/
theorem Inner.empty (h : ∀ k, next (read root k) = none) (P : V → Prop) (depth : Nat) :
    Inner P next depth read root := by
  rintro (_ | ⟨j, q⟩) n k _ hn hword
  · rw [Option.some.inj hn] at h
    exact absurd (h k) hword
  · rw [node_empty h] at hn
    contradiction

/-- A leaf does not lead to a table. So the words that do are the old ones, and
they satisfy what they satisfied before. -/
theorem Inner.setLeaf (hinner : Inner P next depth read root)
    (hdist : Distinct next depth read root) (h : SetLeaf next depth read read' root path n k) :
    Inner P next depth read' root := by
  intro q x j hq hx hword
  have hlast := h.last
  rw [node_setLeaf hdist h (by omega)] at hx
  -- the slot is not at the last level
  have hne : j :: q ≠ k :: path := by
    intro heq
    rw [(List.cons.inj heq).2] at hq
    omega
  have hsame := h.frame.word hdist h.node (by omega) (by omega) hx hne
  rw [hsame] at hword ⊢
  exact hinner q x j hq hx hword

/-- The word of the new slot is the only one that is added to the inner
slots. The new table has none, and in the old tables no word but this one
has changed. -/
theorem Inner.graft [DecidableEq K] (hinner : Inner P next depth read root)
    (hdist : Distinct next depth read root) (h : Graft next depth read read' root path n k m)
    (hP : P (read' n k)) : Inner P next depth read' root := by
  intro q x j hq hx hword
  have hlen := h.inner
  rw [node_graft hdist h (by omega)] at hx
  by_cases hnew : q = k :: path
  · -- the new table is empty
    rw [if_pos hnew] at hx
    rw [← Option.some.inj hx] at hword
    exact absurd (h.new j) hword
  · -- the word that leads to the new table, or an old one
    rw [if_neg hnew] at hx
    by_cases hslot : j :: q = k :: path
    · obtain ⟨rfl, rfl⟩ := List.cons.inj hslot
      rw [h.node] at hx
      rw [← Option.some.inj hx]
      exact hP
    · have hsame := h.frame.word hdist h.node (by omega) (by omega) hx hslot
      rw [hsame] at hword ⊢
      exact hinner q x j hq hx hword

end Inner

-- ---------------------------------------------------------------------------
-- A tree left alone
-- ---------------------------------------------------------------------------

/-- The slots of the tree keep their words. What else the store holds may
change: memory that belongs to no table, for instance. -/
def SameTree (next : V → Option N) (depth : Nat) (read read' : N → K → V) (root : N) : Prop :=
  ∀ q n k, q.length < depth → node next read root q = some n → read' n k = read n k

section SameTree

variable {P : V → Prop} {next : V → Option N} {depth : Nat} {read read' : N → K → V} {root : N}

/-- Then every walk leads where it led before, -/
theorem SameTree.node (h : SameTree next depth read read' root) {q : List K}
    (hq : q.length ≤ depth) : Tables.node next read' root q = Tables.node next read root q := by
  induction q with
  | nil => rfl
  | cons j q ih =>
    have hq' : q.length + 1 ≤ depth := hq
    have hsame := ih (by omega)
    cases hx : Tables.node next read root q with
    | none => rw [node_cons_none hx, node_cons_none (hsame.trans hx)]
    | some x => rw [node_cons hx, node_cons (hsame.trans hx), h q x j (by omega) hx]

/-- every lookup finds what it found before, -/
theorem SameTree.lookup (h : SameTree next depth read read' root) {q : List K}
    (hq : q.length ≤ depth) : Tables.lookup next read' root q = Tables.lookup next read root q := by
  cases q with
  | nil => rfl
  | cons j q =>
    have hq' : q.length + 1 ≤ depth := hq
    have hsame := h.node (q := q) (by omega)
    cases hx : Tables.node next read root q with
    | none => rw [lookup_cons_none hx, lookup_cons_none (hsame.trans hx)]
    | some x => rw [lookup_cons hx, lookup_cons (hsame.trans hx), h q x j (by omega) hx]

/-- different paths lead to different tables, -/
theorem Distinct.congr (hdist : Distinct next depth read root)
    (h : SameTree next depth read read' root) : Distinct next depth read' root := by
  intro p q x hp hq hpx hqx
  rw [h.node (by omega)] at hpx hqx
  exact hdist p q x hp hq hpx hqx

/-- and the words on the way have what they had. -/
theorem Inner.congr (hinner : Inner P next depth read root)
    (h : SameTree next depth read read' root) : Inner P next depth read' root := by
  intro q x j hq hx hword
  rw [h.node (by omega)] at hx
  rw [h q x j (by omega) hx] at hword ⊢
  exact hinner q x j hq hx hword

end SameTree

end Tables
