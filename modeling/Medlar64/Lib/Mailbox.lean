import Medlar64.Lib.Transitions

/-!
# A mailbox of one place without a handshake

A producer writes items into a single place and may overwrite what is there; a
consumer takes a look at the place (`take`) and empties it some time later
(`clear`). Items are numbered in the order in which they are sent, so that two
equal items are told apart.

* `Mailbox.Step` — what can happen.
* `Mailbox.Complete` — everything sent was taken or is waiting; kept by every
  `Spaced` event.
* `Mailbox.Gone` — an item that will never be taken; kept by every event.
* `Mailbox.delivered_iff` — when the consumer keeps taking, every item is
  taken once and in order if and only if every event is `Spaced`.
-/

universe u

/-- The place, the consumer's phase, and the items sent and taken so far. The
two histories are not part of what is modelled; they say what delivery means. -/
structure Mailbox (α : Type u) where
  content : Option (ℕ × α)
  /-- The consumer has taken and not yet cleared. -/
  busy : Bool
  sent : List (ℕ × α)
  taken : List (ℕ × α)

/-- What the two sides do. The consumer's look at the place and its emptying of
the place are two events, and the producer may come between them. -/
inductive MailboxEvent (α : Type u)
  /-- The producer writes an item, or wipes the place. -/
  | put (x : Option α)
  | take
  | clear
  | idle

namespace Mailbox

variable {α : Type u} {m m' : Mailbox α} {e : MailboxEvent α}

/-- What can happen. The producer never waits: it writes whatever the place
holds and whatever the consumer is doing. -/
inductive Step : Mailbox α → MailboxEvent α → Mailbox α → Prop
  | send (m : Mailbox α) (x : α) :
    Step m (.put (some x))
      { m with content := some (m.sent.length, x), sent := m.sent ++ [(m.sent.length, x)] }
  | wipe (m : Mailbox α) : Step m (.put none) { m with content := none }
  | take (m : Mailbox α) (h : m.busy = false) :
    Step m .take { m with busy := true, taken := m.taken ++ m.content.toList }
  | clear (m : Mailbox α) (h : m.busy = true) :
    Step m .clear { m with content := none, busy := false }
  | idle (m : Mailbox α) : Step m .idle m

/-- Nothing was sent yet. -/
structure Start (m : Mailbox α) : Prop where
  content : m.content = none
  busy : m.busy = false
  sent : m.sent = []
  taken : m.taken = []

/-- The producer does not write over an item that waits, nor an item into a
place about to be cleared. -/
def Spaced (m : Mailbox α) : MailboxEvent α → Prop
  | .put x => if m.busy then x = none else m.content = none
  | _ => True

/-- Between two takes a write that is `Spaced` finds the place empty. -/
theorem Spaced.content {x : Option α} (h : m.Spaced (.put x)) (hb : m.busy = false) :
    m.content = none := by
  unfold Spaced at h
  simpa [hb] using h

/-- Between a take and its clear only a wipe is `Spaced`. -/
theorem Spaced.wipe {x : Option α} (h : m.Spaced (.put x)) (hb : m.busy = true) : x = none := by
  unfold Spaced at h
  simpa [hb] using h

/-- A write that is not `Spaced` is one of an item into a place about to be
cleared, or one over an item that waits. -/
theorem exists_of_not_spaced {x : Option α} (h : ¬ m.Spaced (.put x)) :
    (m.busy = true ∧ ∃ v, x = some v) ∨ (m.busy = false ∧ ∃ y, m.content = some y) := by
  unfold Spaced at h
  cases hb : m.busy with
  | true =>
    simp only [hb, if_true] at h
    exact .inl ⟨rfl, Option.ne_none_iff_exists'.mp h⟩
  | false =>
    simp only [hb, Bool.false_eq_true, if_false] at h
    exact .inr ⟨rfl, Option.ne_none_iff_exists'.mp h⟩

-- ---------------------------------------------------------------------------
-- Nothing is lost
-- ---------------------------------------------------------------------------

/-- The item that waits to be taken. -/
def waiting (m : Mailbox α) : List (ℕ × α) := if m.busy then [] else m.content.toList

/-- Everything sent was taken, in this order, or is waiting. -/
def Complete (m : Mailbox α) : Prop := m.sent = m.taken ++ m.waiting

/-- Nothing is lost where nothing was sent. -/
theorem Start.complete (h : m.Start) : m.Complete := by
  unfold Complete waiting
  rw [h.sent, h.taken, h.busy, h.content]
  rfl

/-- A `Spaced` event loses nothing. An item is in the place or in the
history of what was taken, or about to be cleared and then in both. Only a
`send` or a `wipe` over an item that waits would break this, and `Spaced`
rules these out. -/
theorem Complete.step (hm : m.Complete) (h : Step m e m') (hs : m.Spaced e) : m'.Complete := by
  unfold Complete waiting at hm ⊢
  -- what waits moves between the place and the history of what was taken
  cases h with
  | send x =>
    cases hb : m.busy with
    -- an item into a place about to be cleared is not `Spaced`
    | true => exact absurd (hs.wipe hb) (Option.some_ne_none x)
    | false =>
      rw [hb, if_neg Bool.false_ne_true, hs.content hb, Option.toList_none, List.append_nil] at hm
      simp only [Bool.false_eq_true, if_false, Option.toList_some]
      rw [hm]
  | wipe =>
    cases hb : m.busy with
    | true => simpa [hb] using hm
    | false =>
      rw [hb, if_neg Bool.false_ne_true, hs.content hb] at hm
      simpa [hb] using hm
  | take hb =>
    rw [hb, if_neg Bool.false_ne_true] at hm
    simpa using hm
  -- what is cleared was taken before
  | clear hb =>
    rw [hb, if_pos rfl] at hm
    simpa using hm
  | idle => exact hm

-- ---------------------------------------------------------------------------
-- What is lost stays lost
-- ---------------------------------------------------------------------------

/-- The numbers are in order, and what waits was not taken before. -/
structure Numbered (m : Mailbox α) : Prop where
  sent_lt : ∀ x ∈ m.sent, x.1 < m.sent.length
  content_mem : ∀ x ∈ m.content, x ∈ m.sent
  taken_mem : ∀ x ∈ m.taken, x ∈ m.sent
  fresh : m.busy = false → ∀ x ∈ m.content, ∀ y ∈ m.taken, y.1 < x.1

/-- Nor is there anything to be numbered. -/
theorem Start.numbered (h : m.Start) : m.Numbered := by
  refine ⟨?_, ?_, ?_, ?_⟩
  · simp [h.sent]
  · simp [h.content]
  · simp [h.taken]
  · simp [h.content]

theorem Numbered.taken_lt (hm : m.Numbered) : ∀ x ∈ m.taken, x.1 < m.sent.length :=
  fun x hx => hm.sent_lt x (hm.taken_mem x hx)

/-- Every event keeps the numbers in order, also those that lose an item. A
number is given out once, by `send`, so that an item that was taken is never
the one in the place, unless it is about to be cleared. -/
theorem Numbered.step (hm : m.Numbered) (h : Step m e m') : m'.Numbered := by
  -- one case for each kind of event; only `send` gives out a number
  cases h with
  | send x =>
    refine ⟨?_, ?_, ?_, ?_⟩
    · intro y hy
      rw [List.length_append]
      rcases List.mem_append.mp hy with hold | hnew
      · exact Nat.lt_add_right _ (hm.sent_lt y hold)
      · rw [List.mem_singleton.mp hnew]
        exact Nat.lt_succ_self _
    · -- the item written is the last one sent
      rintro y hy
      obtain rfl := Option.some.inj hy
      exact List.mem_append_right _ (List.mem_singleton_self _)
    · exact fun y hy => List.mem_append_left _ (hm.taken_mem y hy)
    · rintro - y hy z hz
      obtain rfl := Option.some.inj hy
      exact hm.taken_lt z hz
  | wipe =>
    exact ⟨hm.sent_lt, (fun x hx => nomatch hx), hm.taken_mem, fun _ x hx => nomatch hx⟩
  | take hb =>
    refine ⟨hm.sent_lt, hm.content_mem, ?_, fun hfalse => nomatch hfalse⟩
    intro x hx
    rcases List.mem_append.mp hx with hold | hnew
    · exact hm.taken_mem x hold
    · exact hm.content_mem x (Option.mem_toList.mp hnew)
  | clear hb =>
    exact ⟨hm.sent_lt, (fun x hx => nomatch hx), hm.taken_mem, fun _ x hx => nomatch hx⟩
  | idle => exact hm

/-- Item `k` was sent, was not taken, and does not wait. -/
structure Gone (m : Mailbox α) (k : ℕ) : Prop where
  sent : k < m.sent.length
  not_taken : ∀ x ∈ m.taken, x.1 ≠ k
  not_waiting : m.busy = false → ∀ x ∈ m.content, x.1 ≠ k

/-- What is gone stays gone: later items have other numbers, and a place that
does not hold an item does not get it back. -/
theorem Gone.step {k : ℕ} (hk : m.Gone k) (h : Step m e m') : m'.Gone k := by
  -- only `take` adds to what was taken, and it takes what waits
  cases h with
  | send x =>
    refine ⟨?_, hk.not_taken, ?_⟩
    · rw [List.length_append]
      exact Nat.lt_add_right _ hk.sent
    · -- the item that waits now has a later number
      rintro - y hy
      obtain rfl := Option.some.inj hy
      exact Nat.ne_of_gt hk.sent
  | wipe => exact ⟨hk.sent, hk.not_taken, fun _ x hx => nomatch hx⟩
  | take hb =>
    refine ⟨hk.sent, ?_, fun hfalse => nomatch hfalse⟩
    intro x hx
    rcases List.mem_append.mp hx with hold | hnew
    · exact hk.not_taken x hold
    · exact hk.not_waiting hb x (Option.mem_toList.mp hnew)
  | clear hb => exact ⟨hk.sent, hk.not_taken, fun _ x hx => nomatch hx⟩
  | idle => exact hk

/-- An item that waits, in a place that is written over, is gone: its number is
in no later state, for no number is given out twice. -/
theorem Numbered.overwritten (hm : m.Numbered) (h : Step m e m') (hb : m.busy = false)
    {x : Option α} (he : e = .put x) {y : ℕ × α} (hy : m.content = some y) : m'.Gone y.1 := by
  have hlt := hm.sent_lt y (hm.content_mem y hy)
  have hfresh : ∀ z ∈ m.taken, z.1 ≠ y.1 := fun z hz => Nat.ne_of_lt (hm.fresh hb y hy z hz)
  -- the place gets an item with a later number, or none
  cases h with
  | send v =>
    refine ⟨?_, hfresh, ?_⟩
    · rw [List.length_append]
      exact Nat.lt_add_right _ hlt
    · rintro - z hz
      obtain rfl := Option.some.inj hz
      exact Nat.ne_of_gt hlt
  | wipe => exact ⟨hlt, hfresh, fun _ z hz => nomatch hz⟩
  | take | clear | idle => exact nomatch he

/-- Nothing is taken out of the history of what was sent. -/
theorem Step.sent_mem (h : Step m e m') {x : ℕ × α} (hx : x ∈ m.sent) : x ∈ m'.sent := by
  cases h with
  | send => exact List.mem_append_left _ hx
  | wipe | take | clear | idle => exact hx

/-- An event that is not `Spaced` loses an item: the one it writes, if the
place is about to be cleared, and otherwise the one that waits. -/
theorem Numbered.loses (hm : m.Numbered) (h : Step m e m') (hs : ¬ m.Spaced e) :
    ∃ x ∈ m'.sent, m'.Gone x.1 := by
  cases e with
  | put x =>
    rcases exists_of_not_spaced hs with ⟨hb, v, rfl⟩ | ⟨hb, y, hy⟩
    · -- the item written will be cleared
      cases h with
      | send v =>
        refine ⟨(m.sent.length, v), List.mem_append_right _ (List.mem_singleton_self _), ?_, ?_, ?_⟩
        · rw [List.length_append]
          exact Nat.lt_succ_self _
        · exact fun y hy => Nat.ne_of_lt (hm.taken_lt y hy)
        · intro hfalse
          exact absurd (hb.symm.trans hfalse) Bool.noConfusion
    · exact ⟨y, h.sent_mem (hm.content_mem y hy), hm.overwritten h hb rfl hy⟩
  | take | clear | idle => exact absurd trivial hs

-- ---------------------------------------------------------------------------
-- Runs
-- ---------------------------------------------------------------------------

section Runs

variable (r : Run (@Step α))

/-- Every item sent is taken once and in the order sent: what was taken is at
any time a prefix of what was sent, and everything sent is taken in the end. -/
def Delivered : Prop :=
  (∀ t, (r.st t).taken <+: (r.st t).sent) ∧
    ∀ t, ∀ x ∈ (r.st t).sent, ∃ t', x ∈ (r.st t').taken

variable {r}

theorem complete_of_spaced (h0 : (r.st 0).Start) (hs : ∀ t, (r.st t).Spaced (r.ev t)) (t : ℕ) :
    (r.st t).Complete :=
  r.stable Complete (fun t hc => hc.step (r.next t) (hs t)) (Nat.zero_le t) h0.complete

theorem numbered (h0 : (r.st 0).Start) (t : ℕ) : (r.st t).Numbered :=
  r.stable Numbered (fun t hn => hn.step (r.next t)) (Nat.zero_le t) h0.numbered

/-- What was taken stays taken. -/
theorem taken_stable {x : ℕ × α} {t t' : ℕ} (hle : t ≤ t') (h : x ∈ (r.st t).taken) :
    x ∈ (r.st t').taken := by
  have hstep : ∀ t, x ∈ (r.st t).taken → x ∈ (r.st (t + 1)).taken := by
    intro t hx
    have hnext := r.next t
    generalize r.st t = m, r.ev t = e, r.st (t + 1) = m' at hnext hx
    cases hnext with
    | take => exact List.mem_append_left _ hx
    | send | wipe | clear | idle => exact hx
  exact r.stable (fun m => x ∈ m.taken) hstep hle h

/-- An item that waits is taken, if nothing is lost and the consumer goes on.
Until then each event leaves it where it is, and a `take` comes at some time. -/
theorem taken_of_waiting (hs : ∀ t, (r.st t).Spaced (r.ev t))
    (hagain : ∀ t, ∃ t', t ≤ t' ∧ r.ev t' = .take) {t : ℕ} {x : ℕ × α}
    (hbusy : (r.st t).busy = false) (hx : (r.st t).content = some x) :
    ∃ t', x ∈ (r.st t').taken := by
  -- it waits until it is taken: no `Spaced` event writes over it
  have hstep : ∀ t, (r.st t).busy = false ∧ (r.st t).content = some x →
      x ∈ (r.st (t + 1)).taken ∨
        ((r.st (t + 1)).busy = false ∧ (r.st (t + 1)).content = some x) ∧ r.ev t ≠ .take := by
    rintro t ⟨hb, hc⟩
    have hnext := r.next t
    have hspaced := hs t
    generalize r.st t = m, r.ev t = e, r.st (t + 1) = m' at hnext hb hc hspaced
    cases hnext with
    | send | wipe =>
      rw [hspaced.content hb] at hc
      contradiction
    | take =>
      left
      rw [hc]
      exact List.mem_append_right _ (List.mem_singleton_self _)
    | clear hbusy =>
      rw [hb] at hbusy
      contradiction
    | idle => exact .inr ⟨⟨hb, hc⟩, fun hfalse => nomatch hfalse⟩
  -- and a `take` comes, as long as it waits
  obtain ⟨t', -, htaken⟩ : ∃ t', t ≤ t' ∧ x ∈ (r.st (t' + 1)).taken := by
    refine r.progress (· = .take) (fun m => m.busy = false ∧ m.content = some x) _ (fun _ => 0)
      hagain (fun t h => ?_) (fun t h htake => ?_) ⟨hbusy, hx⟩
    · exact (hstep t h).imp_right fun hkeep => ⟨hkeep.1, Nat.le_refl 0⟩
    · exact (hstep t h).imp_right fun hkeep => absurd htake hkeep.2
  exact ⟨t' + 1, htaken⟩

/-- `Spaced` events are enough for delivery: nothing is lost, and what waits is
taken, so that the history of what was taken catches up with what was sent. -/
theorem delivered_of_spaced (h0 : (r.st 0).Start)
    (hagain : ∀ t, ∃ t', t ≤ t' ∧ r.ev t' = .take) (hs : ∀ t, (r.st t).Spaced (r.ev t)) :
    Delivered r := by
  refine ⟨fun t => ⟨_, (complete_of_spaced h0 hs t).symm⟩, ?_⟩
  intro t x hx
  have hcomplete := complete_of_spaced h0 hs t
  unfold Complete waiting at hcomplete
  rw [hcomplete] at hx
  -- an item sent was taken already, or waits
  rcases List.mem_append.mp hx with htaken | hwait
  · exact ⟨t, htaken⟩
  · cases hb : (r.st t).busy with
    | true => simp [hb] at hwait
    | false =>
      rw [hb, if_neg Bool.false_ne_true] at hwait
      exact taken_of_waiting hs hagain hb (Option.mem_toList.mp hwait)

/-- And they are needed: an event that is not `Spaced` loses an item, and what
is lost stays lost. -/
theorem spaced_of_delivered (h0 : (r.st 0).Start) (hd : Delivered r) (t : ℕ) :
    (r.st t).Spaced (r.ev t) := by
  by_contra hs
  obtain ⟨x, hx, hgone⟩ := (numbered h0 t).loses (r.next t) hs
  obtain ⟨u, hu⟩ := hd.2 (t + 1) x hx
  -- at a time after both, `x` is taken and gone
  have hlater : (r.st (max u (t + 1))).Gone x.1 :=
    r.stable (Gone · x.1) (fun t hg => hg.step (r.next t)) (Nat.le_max_right _ _) hgone
  exact hlater.not_taken x (taken_stable (Nat.le_max_left _ _) hu) rfl

/--
**Delivery.** A mailbox whose consumer keeps taking delivers every item once
and in order if and only if every event is `Spaced`. The condition is on the
times of the events alone; it does not ask what the items are.
-/
theorem delivered_iff (h0 : (r.st 0).Start) (hagain : ∀ t, ∃ t', t ≤ t' ∧ r.ev t' = .take) :
    Delivered r ↔ ∀ t, (r.st t).Spaced (r.ev t) :=
  ⟨spaced_of_delivered h0, delivered_of_spaced h0 hagain⟩

end Runs

end Mailbox
