import Mathlib.Data.List.Pairwise
import Mathlib.Tactic.Common

/-!
# Accounting for runs of slots

What an allocator of contiguous slots is for. `init` are the slots it may hand
out, `free` those it holds now and `live` the runs its clients hold.
`Accounted init free live` says that the runs are pairwise disjoint, were all
slots of `init`, and that `free` is exactly what is left of `init` without
them: no slot has two owners and none is lost.

* `Accounted.take`, `Accounted.give` — the two operations.
* `Accounted.takeWithin`, `Accounted.giveWithin` — the same for an allocator
  whose books say something about the slots in `scope` only.
* `Accounted.taken_iff` — the slots missing are those of the live runs.
-/

/-- The slots `first, …, first + count - 1`. -/
structure SlotRun where
  first : Nat
  count : Nat
deriving DecidableEq, Repr

/-- The slot belongs to the run. -/
def SlotRun.has (r : SlotRun) (slot : Nat) : Prop :=
  r.first ≤ slot ∧ slot < r.first + r.count

theorem SlotRun.has_one {first slot : Nat} : SlotRun.has ⟨first, 1⟩ slot ↔ slot = first := by
  show first ≤ slot ∧ slot < first + 1 ↔ slot = first
  omega

/-- No slot belongs to both runs. -/
def SlotRun.Apart (a b : SlotRun) : Prop := ∀ slot, ¬ (a.has slot ∧ b.has slot)

instance : Std.Symm SlotRun.Apart := ⟨fun _ _ h slot hslot => h slot hslot.symm⟩

/-- Nonempty runs that share no slot lie one behind the other. -/
theorem apart_le {a b : SlotRun} (h : a.Apart b) (ha : 1 ≤ a.count) (hb : 1 ≤ b.count) :
    a.first + a.count ≤ b.first ∨ b.first + b.count ≤ a.first := by
  by_contra hover
  exact h (max a.first b.first) ⟨⟨by omega, by omega⟩, ⟨by omega, by omega⟩⟩

/-- Different runs of a list of disjoint ones share no slot. -/
theorem apart_of_mem {live : List SlotRun} (h : live.Pairwise SlotRun.Apart) {a b : SlotRun}
    (ha : a ∈ live) (hb : b ∈ live) (hne : a ≠ b) : a.Apart b :=
  h.forall ha hb hne

/-- Disjoint nonempty runs start at different slots. -/
theorem firsts_nodup {live : List SlotRun} (h : live.Pairwise SlotRun.Apart)
    (hpos : ∀ r ∈ live, 1 ≤ r.count) : (live.map SlotRun.first).Nodup := by
  refine List.pairwise_map.mpr (h.imp_of_mem fun {a b} ha hb hab heq => ?_)
  have hca := hpos a ha
  have hcb := hpos b hb
  exact hab a.first ⟨⟨Nat.le_refl _, by omega⟩, ⟨by omega, by omega⟩⟩

/-- What an allocator owes its clients: `apart` says that no slot has two
owners, `owned` that only slots of `init` are handed out, and `free_iff` that
the free slots are those of `init` that no run holds, so that none is lost. -/
structure Accounted (init free : Nat → Prop) (live : List SlotRun) : Prop where
  apart : live.Pairwise SlotRun.Apart
  owned : ∀ r ∈ live, ∀ slot, r.has slot → init slot
  free_iff : ∀ slot, free slot ↔ init slot ∧ ∀ r ∈ live, ¬ r.has slot

section Accounted

variable {init free free' : Nat → Prop} {live : List SlotRun}

theorem Accounted.start (init : Nat → Prop) : Accounted init init [] :=
  ⟨List.Pairwise.nil, fun _ h => absurd h List.not_mem_nil,
    fun _ => ⟨fun h => ⟨h, fun _ hr => absurd hr List.not_mem_nil⟩, fun h => h.1⟩⟩

/-- The books are about the slots that are free, however the allocator keeps
them. -/
theorem Accounted.congr (h : Accounted init free live) (heq : ∀ slot, free' slot ↔ free slot) :
    Accounted init free' live :=
  ⟨h.apart, h.owned, fun slot => (heq slot).trans (h.free_iff slot)⟩

/-- **Taking a run of free slots**: the run is added to the live ones. Free
slots are in no live run, so that the new run is apart from all others, and
they were free at the start. -/
theorem Accounted.take {r : SlotRun} (h : Accounted init free live)
    (hr : ∀ slot, r.has slot → free slot)
    (hfree : ∀ slot, free' slot ↔ free slot ∧ ¬ r.has slot) :
    Accounted init free' (live ++ [r]) := by
  refine ⟨?_, ?_, ?_⟩
  · refine List.pairwise_append.mpr ⟨h.apart, List.pairwise_singleton _ _, ?_⟩
    intro a ha b hb slot ⟨hsa, hsb⟩
    rw [List.mem_singleton] at hb
    subst hb
    exact ((h.free_iff slot).mp (hr slot hsb)).2 a ha hsa
  · intro a ha slot hslot
    -- an old run, or the new one whose slots were free
    rcases List.mem_append.mp ha with ha | ha
    · exact h.owned a ha slot hslot
    · rw [List.mem_singleton] at ha
      subst ha
      exact ((h.free_iff slot).mp (hr slot hslot)).1
  · -- free now: free at the start, in no old run, and not in the new one
    intro slot
    rw [hfree slot, h.free_iff slot, and_assoc]
    refine and_congr Iff.rfl ⟨?_, ?_⟩
    · rintro ⟨hl, hn⟩ a ha
      rcases List.mem_append.mp ha with ha | ha
      · exact hl a ha
      · rw [List.mem_singleton] at ha
        subst ha
        exact hn
    · intro hall
      exact ⟨fun a ha => hall a (List.mem_append_left _ ha),
        hall r (List.mem_append_right _ (List.mem_singleton.mpr rfl))⟩

/-- **Giving a live run back**: its slots, and no others, are free again. The
other live runs share none of these slots, so their books are right as they
are. -/
theorem Accounted.give {l m : List SlotRun} {r : SlotRun} (h : Accounted init free (l ++ r :: m))
    (hfree : ∀ slot, free' slot ↔ free slot ∨ r.has slot) :
    Accounted init free' (l ++ m) := by
  have hsub : List.Sublist (l ++ m) (l ++ r :: m) :=
    (List.sublist_cons_self r m).append_left l
  have hr : r ∈ l ++ r :: m := List.mem_append_right _ List.mem_cons_self
  refine ⟨h.apart.sublist hsub, fun a ha => h.owned a (hsub.subset ha), ?_⟩
  intro slot
  rw [hfree slot, h.free_iff slot]
  constructor
  · rintro (⟨hinit, hall⟩ | hslot)
    · exact ⟨hinit, fun a ha => hall a (hsub.subset ha)⟩
    · refine ⟨h.owned r hr slot hslot, ?_⟩
      intro a ha hsa
      -- the other live runs are apart from the one given back
      obtain ⟨-, hrm, hlr⟩ := List.pairwise_append.mp h.apart
      rcases List.mem_append.mp ha with ha | ha
      · exact hlr a ha r List.mem_cons_self slot ⟨hsa, hslot⟩
      · exact (List.pairwise_cons.mp hrm).1 a ha slot ⟨hslot, hsa⟩
  · rintro ⟨hinit, hall⟩
    by_cases hslot : r.has slot
    · exact .inr hslot
    · refine .inl ⟨hinit, ?_⟩
      intro a ha
      rcases List.mem_append.mp ha with ha | ha
      · exact hall a (List.mem_append_left _ ha)
      · rcases List.mem_cons.mp ha with rfl | ha
        · exact hslot
        · exact hall a (List.mem_append_right _ ha)

theorem Accounted.init_of_free (h : Accounted init free live) {slot : Nat} (hfree : free slot) :
    init slot := ((h.free_iff slot).mp hfree).1

/-- The slots missing are those of the live runs. -/
theorem Accounted.taken_iff (h : Accounted init free live) {slot : Nat} (hinit : init slot) :
    ¬ free slot ↔ ∃ r ∈ live, r.has slot := by
  rw [h.free_iff slot]
  constructor
  · intro hnot
    by_contra hnone
    exact hnot ⟨hinit, fun r hr hhas => hnone ⟨r, hr, hhas⟩⟩
  · rintro ⟨r, hr, hhas⟩ ⟨-, hall⟩
    exact hall r hr hhas

-- ---------------------------------------------------------------------------
-- Books about a part of the slots
-- ---------------------------------------------------------------------------

variable {scope : Nat → Prop}

/-- The books of a part of the slots do not see a change outside of it. -/
theorem Accounted.congrWithin (h : Accounted init (fun slot => scope slot ∧ free slot) live)
    (heq : ∀ slot, scope slot → (free' slot ↔ free slot)) :
    Accounted init (fun slot => scope slot ∧ free' slot) live :=
  h.congr fun slot => and_congr_right fun hslot => heq slot hslot

/-- Taking a run inside the part. `free'` need only be known there. -/
theorem Accounted.takeWithin {r : SlotRun}
    (h : Accounted init (fun slot => scope slot ∧ free slot) live)
    (hr : ∀ slot, r.has slot → scope slot ∧ free slot)
    (hfree : ∀ slot, scope slot → (free' slot ↔ free slot ∧ ¬ r.has slot)) :
    Accounted init (fun slot => scope slot ∧ free' slot) (live ++ [r]) := by
  refine h.take hr ?_
  intro slot
  rw [and_assoc]
  exact and_congr_right fun hslot => hfree slot hslot

/-- Giving a run inside the part back. -/
theorem Accounted.giveWithin {l m : List SlotRun} {r : SlotRun}
    (h : Accounted init (fun slot => scope slot ∧ free slot) (l ++ r :: m))
    (hr : ∀ slot, r.has slot → scope slot)
    (hfree : ∀ slot, scope slot → (free' slot ↔ free slot ∨ r.has slot)) :
    Accounted init (fun slot => scope slot ∧ free' slot) (l ++ m) := by
  refine h.give ?_
  intro slot
  constructor
  · rintro ⟨hslot, hf⟩
    exact ((hfree slot hslot).mp hf).imp (fun hf => ⟨hslot, hf⟩) id
  · rintro (⟨hslot, hf⟩ | hhas)
    · exact ⟨hslot, (hfree slot hslot).mpr (.inl hf)⟩
    · exact ⟨hr slot hhas, (hfree slot (hr slot hhas)).mpr (.inr hhas)⟩

end Accounted
