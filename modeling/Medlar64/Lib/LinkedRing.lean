import Mathlib.Data.List.Chain
import Mathlib.Logic.Function.Iterate

/-!
# Circular doubly linked lists

Nodes with a `next` and a `prev` link. `LinkedRing next prev base nodes` says that
the links run from `base` through `nodes` and back to `base`, both ways.

* `LinkedRing.insertTail`, `LinkedRing.unlink` — the two edits of such a list; each needs
  the links it writes and that the other links of the members are kept.
* `LinkedRing.prev_mem`, `LinkedRing.next_mem` — the neighbours of a member.
* `LinkedRing.visits`, `LinkedRing.closes`, `LinkedRing.inverse` — following the links.
-/

universe u

/-- `b` follows `a`. -/
def LinkedTo {α : Type u} (next prev : α → α) (a b : α) : Prop := next a = b ∧ prev b = a

/-- The links go from `base` through `nodes` and back. The base is a node like
the others, so an edit next to it is not a special case. -/
def LinkedRing {α : Type u} (next prev : α → α) (base : α) (nodes : List α) : Prop :=
  (base :: nodes ++ [base]).IsChain (LinkedTo next prev)

section LinkedRing

variable {α : Type u} {next prev next' prev' : α → α} {base x z : α} {nodes l m : List α}

/-- A chain of links uses the `next` of every node but the last and the `prev`
of every node but the first. -/
theorem linkedTo_congr (h : (l ++ [z]).IsChain (LinkedTo next prev))
    (hnext : ∀ y ∈ l, next' y = next y) (hprev : ∀ y ∈ (l ++ [z]).tail, prev' y = prev y) :
    (l ++ [z]).IsChain (LinkedTo next' prev') := by
  rw [List.isChain_iff_forall_rel_of_append_cons_cons] at h ⊢
  intro a b l₁ l₂ heq
  obtain ⟨hab, hba⟩ := h heq
  -- of two neighbours the first one is not the last node, and the second not the first
  have hl : l = l₁ ++ a :: (b :: l₂).dropLast := by
    have := congrArg List.dropLast heq
    rwa [List.dropLast_concat, List.dropLast_append_of_ne_nil (by simp),
      List.dropLast_cons_of_ne_nil (by simp)] at this
  have ha : a ∈ l := by
    rw [hl]
    simp
  have hb : b ∈ (l ++ [z]).tail := by
    rw [heq]
    cases l₁ <;> simp
  exact ⟨(hnext a ha).trans hab, (hprev b hb).trans hba⟩

/-- A base that is linked to itself is a list without other nodes. -/
theorem LinkedRing.single : LinkedRing next prev base [] ↔ next base = base ∧ prev base = base := by
  show [base, base].IsChain (LinkedTo next prev) ↔ _
  rw [List.isChain_pair]
  rfl

-- ---------------------------------------------------------------------------
-- Neighbours
-- ---------------------------------------------------------------------------

/-- A member with the nodes around it: the list as the chain up to the node
before `x`, then `x`, then the chain from the node behind it. -/
theorem LinkedRing.split (h : LinkedRing next prev base (l ++ x :: m)) :
    ∃ l' c m', base :: l = l' ++ [prev x] ∧ m ++ [base] = c :: m' ∧ next x = c ∧
      (l' ++ [prev x]).IsChain (LinkedTo next prev) ∧ (c :: m').IsChain (LinkedTo next prev) := by
  unfold LinkedRing at h
  obtain ⟨l', a, hl⟩ : ∃ l' a, base :: l = l' ++ [a] :=
    ⟨(base :: l).dropLast, _, (List.dropLast_append_getLast (List.cons_ne_nil base l)).symm⟩
  obtain ⟨c, m', hm⟩ : ∃ c m', m ++ [base] = c :: m' :=
    List.exists_cons_of_ne_nil (by simp)
  have hlist : base :: (l ++ x :: m) ++ [base] = l' ++ a :: x :: c :: m' := by
    rw [← hm, List.append_cons l' a, ← hl]
    simp
  -- the chain falls into the part before `x`, its two links, and the part behind it
  rw [hlist, List.isChain_append_cons_cons, List.isChain_cons_cons] at h
  obtain ⟨hleft, ⟨-, hprev⟩, ⟨hnext, -⟩, hright⟩ := h
  subst hprev
  exact ⟨l', c, m', hl, hm, hnext, hleft, hright⟩

/-- The node before a member is one in front of it, or the base. -/
theorem LinkedRing.prev_mem (h : LinkedRing next prev base (l ++ x :: m)) : prev x ∈ base :: l := by
  obtain ⟨l', -, -, hl, -⟩ := h.split
  rw [hl]
  simp

/-- The node behind a member is one behind it, or the base. -/
theorem LinkedRing.next_mem (h : LinkedRing next prev base (l ++ x :: m)) :
    next x ∈ m ++ [base] := by
  obtain ⟨-, c, m', -, hm, hc, -⟩ := h.split
  rw [hm, hc]
  exact List.mem_cons_self

/-- A member is behind the last node before it. -/
theorem LinkedRing.prev_eq (h : LinkedRing next prev base (l ++ x :: m)) :
    (base :: l).getLast? = some (prev x) := by
  obtain ⟨l', -, -, hl, -⟩ := h.split
  rw [hl, List.getLast?_concat]

/-- And before the first node behind it. -/
theorem LinkedRing.next_eq (h : LinkedRing next prev base (l ++ x :: m)) :
    (m ++ [base]).head? = some (next x) := by
  obtain ⟨-, c, m', -, hm, hc, -⟩ := h.split
  rw [hm, hc]
  rfl

/-- The last node, the base when there is no other. -/
theorem LinkedRing.last (h : LinkedRing next prev base nodes) :
    ∃ l, base :: nodes = l ++ [prev base] ∧
      (l ++ [prev base]).IsChain (LinkedTo next prev) := by
  unfold LinkedRing at h
  obtain ⟨l, a, hl⟩ : ∃ l a, base :: nodes = l ++ [a] :=
    ⟨(base :: nodes).dropLast, _, (List.dropLast_append_getLast (List.cons_ne_nil base nodes)).symm⟩
  rw [hl, List.append_assoc, List.singleton_append, List.isChain_append_cons_cons] at h
  obtain ⟨hleft, ⟨-, hprev⟩, -⟩ := h
  subst hprev
  exact ⟨l, hl, hleft⟩

/-- The last node is a member, or the base when there is none. -/
theorem LinkedRing.prev_base_mem (h : LinkedRing next prev base nodes) :
    prev base ∈ base :: nodes := by
  obtain ⟨l, hl, -⟩ := h.last
  rw [hl]
  simp

-- ---------------------------------------------------------------------------
-- Edits
-- ---------------------------------------------------------------------------

/--
**Linking `x` in at the tail**: four links are written, every other link of the
members is kept. The node before the base gets a new successor, the base a new
predecessor, and `x` stands between the two.
-/
theorem LinkedRing.insertTail (h : LinkedRing next prev base nodes) (hnodup : (base :: nodes).Nodup)
    (hnext : ∀ y ∈ base :: nodes, y ≠ prev base → next' y = next y)
    (hprev : ∀ y ∈ nodes, prev' y = prev y)
    (hlast : next' (prev base) = x) (hx : next' x = base)
    (hbase : prev' base = x) (hx' : prev' x = prev base) :
    LinkedRing next' prev' base (nodes ++ [x]) := by
  obtain ⟨l, hl, hchain⟩ := h.last
  unfold LinkedRing
  rw [← List.cons_append, hl, List.append_assoc, List.append_assoc, List.singleton_append,
    List.singleton_append, List.isChain_append_cons_cons]
  -- the old chain, its last node linked to `x`, and `x` to the base
  refine ⟨linkedTo_congr hchain ?_ ?_, ⟨hlast, hx'⟩,
    List.isChain_pair.mpr ⟨hx, hbase⟩⟩
  · -- the old last node occurs once
    intro y hy
    refine hnext y (by rw [hl]; exact List.mem_append_left _ hy) ?_
    rintro rfl
    rw [hl] at hnodup
    exact (List.nodup_append.mp hnodup).2.2 _ hy _ (List.mem_singleton.mpr rfl) rfl
  · intro y hy
    rw [← hl] at hy
    exact hprev y hy

/-- The neighbours `a` and `c` of a member occur once: `a` is the last node
before it, `c` the first one after it, where the base stands at both ends. -/
theorem neighbours_once {a c : α} {l' m' : List α} (hnodup : (base :: (l ++ x :: m)).Nodup)
    (hl : base :: l = l' ++ [a]) (hm : m ++ [base] = c :: m') :
    a ∉ l' ∧ c ∉ l ∧ a ∉ m ∧ c ∉ m' := by
  rw [← List.cons_append] at hnodup
  obtain ⟨hleft, hright, hapart⟩ := List.nodup_append.mp hnodup
  have ha : a ∈ base :: l := by
    rw [hl]
    exact List.mem_append_right _ (List.mem_singleton.mpr rfl)
  have hc : c ∈ m ++ [base] := by
    rw [hm]
    exact List.mem_cons_self
  -- the nodes behind the member with the base at their end, once more without duplicates
  have hrest : (m ++ [base]).Nodup := by
    refine List.nodup_append.mpr ⟨(List.nodup_cons.mp hright).2, by simp, ?_⟩
    rintro y hy b hb rfl
    rw [List.mem_singleton.mp hb] at hy
    exact hapart base List.mem_cons_self base (List.mem_cons_of_mem _ hy) rfl
  refine ⟨?_, ?_, ?_, ?_⟩
  · intro h
    rw [hl] at hleft
    exact (List.nodup_append.mp hleft).2.2 a h a (List.mem_singleton.mpr rfl) rfl
  · intro h
    rcases List.mem_append.mp hc with hc | hc
    · exact hapart c (List.mem_cons_of_mem _ h) c (List.mem_cons_of_mem _ hc) rfl
    · rw [List.mem_singleton.mp hc] at h
      exact (List.nodup_cons.mp hleft).1 h
  · intro h
    exact hapart a ha a (List.mem_cons_of_mem _ h) rfl
  · intro h
    rw [hm] at hrest
    exact (List.nodup_cons.mp hrest).1 h

/--
**Unlinking `x`**: its two neighbours are linked with each other, every other
link of the members is kept. The links of `x` itself may be anything
afterwards.
-/
theorem LinkedRing.unlink (h : LinkedRing next prev base (l ++ x :: m))
    (hnodup : (base :: (l ++ x :: m)).Nodup)
    (hnext : ∀ y ∈ base :: (l ++ m), y ≠ prev x → next' y = next y)
    (hprev : ∀ y ∈ base :: (l ++ m), y ≠ next x → prev' y = prev y)
    (hleft : next' (prev x) = next x) (hright : prev' (next x) = prev x) :
    LinkedRing next' prev' base (l ++ m) := by
  obtain ⟨l', c, m', hl, hm, rfl, hchain, hchain'⟩ := h.split
  obtain ⟨hal', hcl, ham, hcm'⟩ := neighbours_once hnodup hl hm
  -- without `x` its two neighbours stand side by side
  have hlist : base :: (l ++ m) ++ [base] = l' ++ prev x :: next x :: m' := by
    rw [← hm, List.append_cons l' (prev x), ← hl]
    simp
  unfold LinkedRing
  rw [hlist, List.isChain_append_cons_cons]
  -- the links before the two neighbours and those behind them are kept
  refine ⟨linkedTo_congr hchain ?_ ?_, ⟨hleft, hright⟩, ?_⟩
  · intro y hy
    have hmem : y ∈ base :: l := by
      rw [hl]
      exact List.mem_append_left _ hy
    refine hnext y (by rw [← List.cons_append]; exact List.mem_append_left _ hmem) ?_
    exact ne_of_mem_of_not_mem hy hal'
  · intro y hy
    rw [← hl] at hy
    refine hprev y (List.mem_cons_of_mem _ (List.mem_append_left _ hy)) ?_
    exact ne_of_mem_of_not_mem hy hcl
  · rw [← hm] at hchain' ⊢
    refine linkedTo_congr hchain' ?_ ?_
    · intro y hy
      refine hnext y (List.mem_cons_of_mem _ (List.mem_append_right _ hy)) ?_
      exact ne_of_mem_of_not_mem hy ham
    · intro y hy
      have hmem : y ∈ base :: (l ++ m) := by
        rcases List.mem_append.mp (List.mem_of_mem_tail hy) with hy | hy
        · exact List.mem_cons_of_mem _ (List.mem_append_right _ hy)
        · rw [List.mem_singleton.mp hy]
          exact List.mem_cons_self
      rw [hm] at hy
      exact hprev y hmem (ne_of_mem_of_not_mem hy hcm')

-- ---------------------------------------------------------------------------
-- Following the links
-- ---------------------------------------------------------------------------

/-- Following `next` from the base visits the nodes in order. -/
theorem LinkedRing.visits (h : LinkedRing next prev base nodes) {i : Nat} {y : α}
    (hi : (base :: nodes ++ [base])[i]? = some y) : next^[i] base = y := by
  induction i generalizing y with
  | zero => simpa using hi
  | succ i ih =>
    obtain ⟨hlt, hy⟩ := List.getElem?_eq_some_iff.mp hi
    have hlink := List.IsChain.getElem h i hlt
    have hi' := ih (List.getElem?_eq_getElem (by omega))
    rw [Function.iterate_succ_apply', hi', hlink.1, hy]

/-- After the last node the links are back at the base. -/
theorem LinkedRing.closes (h : LinkedRing next prev base nodes) :
    next^[nodes.length + 1] base = base := by
  refine h.visits ?_
  rw [List.getElem?_append_right (by simp)]
  simp

/-- `next` and `prev` undo each other at every node. Two neighbours on the way
round are linked in both directions; the base has its neighbours at the two
ends of the list. -/
theorem LinkedRing.inverse (h : LinkedRing next prev base nodes) (hx : x ∈ base :: nodes) :
    prev (next x) = x ∧ next (prev x) = x := by
  unfold LinkedRing at h
  constructor
  · -- the node after `x`
    obtain ⟨l₁, l₂, heq⟩ := List.append_of_mem hx
    obtain ⟨c, m, hm⟩ : ∃ c m, l₂ ++ [base] = c :: m := List.exists_cons_of_ne_nil (by simp)
    have hlist : base :: nodes ++ [base] = l₁ ++ x :: c :: m := by
      rw [heq, List.append_assoc, List.cons_append, hm]
    obtain ⟨hnext, hprev⟩ := List.isChain_iff_forall_rel_of_append_cons_cons.mp h hlist
    rw [hnext, hprev]
  · -- the node before `x`
    have hx' : x ∈ nodes ++ [base] := by
      rcases List.mem_cons.mp hx with rfl | hx
      · exact List.mem_append_right _ (List.mem_singleton.mpr rfl)
      · exact List.mem_append_left _ hx
    obtain ⟨l₁, l₂, heq⟩ := List.append_of_mem hx'
    obtain ⟨l, a, hl⟩ : ∃ l a, base :: l₁ = l ++ [a] :=
      ⟨(base :: l₁).dropLast, _, (List.dropLast_append_getLast (List.cons_ne_nil base l₁)).symm⟩
    have hlist : base :: nodes ++ [base] = l ++ a :: x :: l₂ := by
      rw [List.cons_append, heq, ← List.cons_append, hl, List.append_assoc, List.singleton_append]
    obtain ⟨hnext, hprev⟩ := List.isChain_iff_forall_rel_of_append_cons_cons.mp h hlist
    rw [hprev, hnext]

end LinkedRing
