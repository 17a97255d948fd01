import Mathlib.Algebra.Group.Nat.Defs
import Mathlib.Tactic.Common

/-!
# Loops

Two loop forms and their rules, over arbitrary state and result types.

* `whileRun body fuel s` — a loop whose body either goes on with a new state
  (`.inl`) or leaves with a result (`.inr`), run for at most `fuel` rounds.
  `Visits body s t` says that the loop started at `s` comes back to its head
  in state `t`.
* `forUp f n s` — the counted loop `for (i = 0; i < n; i++)`, `forDown f n s` —
  the same loop from `n - 1` down to 0.

The rules: what every round preserves holds at every visited state
(`Visits.inv`), a decreasing measure bounds the rounds (`whileRun_total`), a
loop that goes on alike returns alike (`whileRun_map`), a loop that comes back
to where it was never returns (`whileRun_cycle`), a counted loop keeps an
indexed invariant (`forUp_inv`), and a loop whose rounds look like those of
another through a map looks like it as a whole (`forUp_map`, `forDown_map`).
-/

universe u v

-- ---------------------------------------------------------------------------
-- While loops
-- ---------------------------------------------------------------------------

/-- At most `fuel` rounds of `body`; `none` when they do not suffice. -/
def whileRun {σ : Type u} {β : Type v} (body : σ → σ ⊕ β) : Nat → σ → Option β
  | 0, _ => none
  | fuel + 1, s =>
    match body s with
    | .inl s' => whileRun body fuel s'
    | .inr b => some b

/-- The loop from `s` returns to its head in the given state. This is what an
invariant speaks of: the states between two rounds. -/
inductive Visits {σ : Type u} {β : Type v} (body : σ → σ ⊕ β) (s : σ) : σ → Prop
  | refl : Visits body s s
  | tail {t t' : σ} : Visits body s t → body t = .inl t' → Visits body s t'

section While

variable {σ : Type u} {β : Type v} {body : σ → σ ⊕ β}

theorem whileRun_next {s s' : σ} {fuel : Nat} (h : body s = .inl s') :
    whileRun body (fuel + 1) s = whileRun body fuel s' := by
  rw [whileRun, h]

theorem whileRun_done {s : σ} {b : β} {fuel : Nat} (h : body s = .inr b) :
    whileRun body (fuel + 1) s = some b := by
  rw [whileRun, h]

/-- Visits of visits are visits. -/
theorem Visits.trans {s t t' : σ} (h : Visits body s t) (h' : Visits body t t') :
    Visits body s t' := by
  induction h' with
  | refl => exact h
  | tail _ hstep ih => exact ih.tail hstep

/-- A visit other than the start goes through the first round. -/
theorem Visits.head {s s' t : σ} (hstep : body s = .inl s') (h : Visits body s' t) :
    Visits body s t :=
  (Visits.refl.tail hstep).trans h

/-- **Invariant rule.** What holds at the start and is kept by every round
holds at every visited state. The rule is about partial correctness; a measure
for `whileRun_total` makes it total. -/
theorem Visits.inv {Inv : σ → Prop} {s t : σ} (h : Visits body s t)
    (h0 : Inv s) (hstep : ∀ a b, Inv a → body a = .inl b → Inv b) : Inv t := by
  induction h with
  | refl => exact h0
  | tail _ hb ih => exact hstep _ _ ih hb

/-- A result comes from a visited state at which the body leaves. Together with
`Visits.inv` it gives what is known of a result. -/
theorem whileRun_visits {fuel : Nat} {s : σ} {b : β} (h : whileRun body fuel s = some b) :
    ∃ t, Visits body s t ∧ body t = .inr b := by
  induction fuel generalizing s with
  | zero => simp [whileRun] at h
  | succ fuel ih =>
    -- the first round goes on or leaves
    cases hb : body s with
    | inl s' =>
      rw [whileRun_next hb] at h
      obtain ⟨t, ht, hdone⟩ := ih h
      exact ⟨t, ht.head hb, hdone⟩
    | inr b' =>
      rw [whileRun_done hb] at h
      exact ⟨s, .refl, by rw [hb, Option.some.inj h]⟩

/--
**Total correctness.** With a measure that every round from an invariant state
decreases, more fuel than the measure gives a result. The result comes from a
visited state that satisfies the invariant, so that what the body does there
says what the result is.
-/
theorem whileRun_total {Inv : σ → Prop} (μ : σ → Nat) {fuel : Nat} {s : σ}
    (h0 : Inv s) (hstep : ∀ a a', Inv a → body a = .inl a' → Inv a' ∧ μ a' < μ a)
    (hfuel : μ s < fuel) :
    ∃ b t, whileRun body fuel s = some b ∧ Visits body s t ∧ Inv t ∧ body t = .inr b := by
  induction fuel generalizing s with
  | zero => omega
  | succ fuel ih =>
    cases hb : body s with
    | inl s' =>
      obtain ⟨hinv, hlt⟩ := hstep s s' h0 hb
      obtain ⟨b, t, hrun, hvis, ht, hdone⟩ := ih hinv (by omega)
      exact ⟨b, t, by rw [whileRun_next hb, hrun], hvis.head hb, ht, hdone⟩
    | inr b => exact ⟨b, s, whileRun_done hb, .refl, h0, hb⟩

/-- A loop that differs in what it makes of the result: it goes on alike, and
its result is the image of the other one's. -/
theorem whileRun_map {γ : Type*} {body' : σ → σ ⊕ γ} (f : β → γ)
    (hbody : ∀ s, body' s = (body s).map id f) (fuel : Nat) (s : σ) :
    whileRun body' fuel s = (whileRun body fuel s).map f := by
  induction fuel generalizing s with
  | zero => rfl
  | succ fuel ih =>
    have hround := hbody s
    cases hb : body s with
    | inl s' =>
      rw [hb] at hround
      rw [whileRun_next hround, whileRun_next hb]
      exact ih s'
    | inr b =>
      rw [hb] at hround
      rw [whileRun_done hround, whileRun_done hb]
      rfl

/-- The loop's result from a visited state is its result from the start, with
more fuel. -/
theorem Visits.run {s t : σ} {b : β} {fuel : Nat} (h : Visits body s t)
    (hrun : whileRun body fuel t = some b) : ∃ fuel', whileRun body fuel' s = some b := by
  induction h generalizing fuel with
  | refl => exact ⟨fuel, hrun⟩
  | tail _ hstep ih =>
    rw [← whileRun_next hstep] at hrun
    exact ih hrun

/-- The rest of a run from a visited state takes no more fuel than the whole
run. -/
theorem Visits.rest {s t : σ} {b : β} {fuel : Nat} (h : Visits body s t)
    (hrun : whileRun body fuel s = some b) :
    ∃ fuel', fuel' ≤ fuel ∧ whileRun body fuel' t = some b := by
  induction h with
  | refl => exact ⟨fuel, Nat.le_refl _, hrun⟩
  | tail _ hstep ih =>
    obtain ⟨k, hle, hk⟩ := ih
    cases k with
    | zero => simp [whileRun] at hk
    | succ k =>
      rw [whileRun_next hstep] at hk
      exact ⟨k, by omega, hk⟩

/-- A loop that comes back to a state it has left never returns, whatever the
fuel is. -/
theorem whileRun_cycle {s s' : σ} (hstep : body s = .inl s') (hback : Visits body s' s)
    (fuel : Nat) : whileRun body fuel s = none := by
  -- on the fuel: the way back takes at least one round of it
  induction fuel using Nat.strongRecOn with
  | ind fuel ih =>
    cases fuel with
    | zero => rfl
    | succ fuel =>
      rw [whileRun_next hstep]
      cases hrun : whileRun body fuel s' with
      | none => rfl
      | some b =>
        -- a shorter run would return as well
        obtain ⟨k, hle, hk⟩ := hback.rest hrun
        rw [ih k (by omega)] at hk
        contradiction

end While

-- ---------------------------------------------------------------------------
-- Counted loops
-- ---------------------------------------------------------------------------

/-- `for (i = 0; i < n; i++) s = f i s`. -/
def forUp {σ : Type u} (f : Nat → σ → σ) : Nat → σ → σ
  | 0, s => s
  | n + 1, s => f n (forUp f n s)

/-- **Invariant rule** for counted loops. The invariant may speak of the number
of rounds that are done. -/
theorem forUp_inv {σ : Type u} {f : Nat → σ → σ} (P : Nat → σ → Prop) {n : Nat} {s : σ}
    (h0 : P 0 s) (hstep : ∀ i t, i < n → P i t → P (i + 1) (f i t)) : P n (forUp f n s) := by
  induction n with
  | zero => exact h0
  | succ n ih =>
    exact hstep n _ (Nat.lt_succ_self n) (ih fun i t hi => hstep i t (Nat.lt_succ_of_lt hi))

/-- **Simulation rule** for counted loops, under an invariant: if each round
looks through `φ` like a round of the other loop, the whole loop does. -/
theorem forUp_map {σ : Type u} {τ : Type v} {f : Nat → σ → σ} {g : Nat → τ → τ} (φ : σ → τ)
    (P : σ → Prop) {n : Nat} {s : σ} (h0 : P s)
    (hstep : ∀ i t, i < n → P t → P (f i t) ∧ φ (f i t) = g i (φ t)) :
    P (forUp f n s) ∧ φ (forUp f n s) = forUp g n (φ s) := by
  induction n with
  | zero => exact ⟨h0, rfl⟩
  | succ n ih =>
    obtain ⟨hP, heq⟩ := ih fun i t hi => hstep i t (Nat.lt_succ_of_lt hi)
    obtain ⟨hP', heq'⟩ := hstep n _ (Nat.lt_succ_self n) hP
    exact ⟨hP', by rw [forUp, forUp, heq', heq]⟩

/-- `for (i = n; i > 0; i--) s = f (i - 1) s`. -/
def forDown {σ : Type u} (f : Nat → σ → σ) : Nat → σ → σ
  | 0, s => s
  | n + 1, s => forDown f n (f n s)

/-- **Simulation rule** for loops that count down. -/
theorem forDown_map {σ : Type u} {τ : Type v} {f : Nat → σ → σ} {g : Nat → τ → τ} (φ : σ → τ)
    (P : σ → Prop) {n : Nat} {s : σ} (h0 : P s)
    (hstep : ∀ i t, i < n → P t → P (f i t) ∧ φ (f i t) = g i (φ t)) :
    P (forDown f n s) ∧ φ (forDown f n s) = forDown g n (φ s) := by
  induction n generalizing s with
  | zero => exact ⟨h0, rfl⟩
  | succ n ih =>
    obtain ⟨hP, heq⟩ := hstep n s (Nat.lt_succ_self n) h0
    rw [forDown, forDown, ← heq]
    exact ih hP fun i t hi => hstep i t (Nat.lt_succ_of_lt hi)
