import Mathlib.Algebra.Group.Nat.Defs
import Mathlib.Data.List.Induction
import Mathlib.Tactic.Common

/-!
# Runs of a labelled transition relation

Over arbitrary states and events, for `step s e s'`: "in state `s` the event
`e` can happen and leads to `s'`".

* `Trace step n` — a run of `n` steps, `Run step` — an infinite run.
* `Trace.inv`, `Run.stable` — what every step keeps holds from there on.
* `prefixes_iff` — for a step function: a run that is as it should be after
  every prefix of its events, step by step.
* `Run.progress` — an event that happens again and again, decreases a measure
  each time and is never set back by the others, reaches its goal.
-/

universe u v

variable {σ : Type u} {ε : Type v}

/-- A run of `n` steps. The states and events beyond the last step are there,
too, and mean nothing. -/
structure Trace (step : σ → ε → σ → Prop) (n : ℕ) where
  st : ℕ → σ
  ev : ℕ → ε
  next : ∀ t < n, step (st t) (ev t) (st (t + 1))

/-- An infinite run. -/
structure Run (step : σ → ε → σ → Prop) where
  st : ℕ → σ
  ev : ℕ → ε
  next : ∀ t, step (st t) (ev t) (st (t + 1))

variable {step : σ → ε → σ → Prop}

/-- The events before time `t`. -/
def Trace.history {n : ℕ} (r : Trace step n) (t : ℕ) : List ε := (List.range t).map r.ev

/-- The event at `t` is the last one in the history of the next state. -/
theorem Trace.history_succ {n : ℕ} (r : Trace step n) (t : ℕ) :
    r.history (t + 1) = r.history t ++ [r.ev t] := by
  unfold Trace.history
  rw [List.range_succ, List.map_append]
  rfl

/-- **Invariant rule.** What holds at the start and is kept by every step holds
in every state of the run. The invariant may speak about the events so far. -/
theorem Trace.inv {n : ℕ} (r : Trace step n) (Inv : List ε → σ → Prop) (h0 : Inv [] (r.st 0))
    (hstep : ∀ es s e s', Inv es s → step s e s' → Inv (es ++ [e]) s') {t : ℕ} (ht : t ≤ n) :
    Inv (r.history t) (r.st t) := by
  induction t with
  | zero => exact h0
  | succ t ih =>
    rw [r.history_succ]
    exact hstep _ _ _ _ (ih (by omega)) (r.next t (by omega))

/-- **Stability rule.** What every step keeps holds from then on. -/
theorem Run.stable (r : Run step) (P : σ → Prop)
    (hstep : ∀ t, P (r.st t) → P (r.st (t + 1))) {t t' : ℕ} (hle : t ≤ t') (h : P (r.st t)) :
    P (r.st t') := by
  induction hle with
  | refl => exact h
  | step _ ih => exact hstep _ ih

/-- **Progress rule.** While `P` holds, every step reaches the goal or keeps
`P` without raising the measure, and every helpful event that does not reach
the goal lowers it. If helpful events keep happening, the goal is reached. -/
theorem Run.progress (r : Run step) (helpful : ε → Prop) (P : σ → Prop) (goal : ℕ → Prop)
    (μ : σ → ℕ) (hagain : ∀ t, ∃ t', t ≤ t' ∧ helpful (r.ev t'))
    (hkeep : ∀ t, P (r.st t) → goal t ∨ P (r.st (t + 1)) ∧ μ (r.st (t + 1)) ≤ μ (r.st t))
    (hlower : ∀ t, P (r.st t) → helpful (r.ev t) → goal t ∨ μ (r.st (t + 1)) < μ (r.st t))
    {t : ℕ} (h : P (r.st t)) : ∃ t', t ≤ t' ∧ goal t' := by
  -- on the measure; below it, on the time left to the next helpful event
  induction hμ : μ (r.st t) using Nat.strongRecOn generalizing t with
  | ind m ihm =>
    have hlater : (∃ t', t + 1 ≤ t' ∧ goal t') → ∃ t', t ≤ t' ∧ goal t' :=
      fun ⟨t', hle, hgoal⟩ => ⟨t', by omega, hgoal⟩
    obtain ⟨u, hle, hu⟩ := hagain t
    obtain ⟨d, rfl⟩ := Nat.exists_eq_add_of_le hle
    clear hle
    induction d generalizing t with
    -- the helpful event happens now
    | zero =>
      rcases hkeep t h with hgoal | ⟨hP, -⟩
      · exact ⟨t, Nat.le_refl t, hgoal⟩
      · rcases hlower t h hu with hgoal | hlt
        · exact ⟨t, Nat.le_refl t, hgoal⟩
        · exact hlater (ihm _ (by omega) hP rfl)
    | succ d ihd =>
      rcases hkeep t h with hgoal | ⟨hP, hle⟩
      · exact ⟨t, Nat.le_refl t, hgoal⟩
      · rcases Nat.lt_or_eq_of_le hle with hlt | heq
        · exact hlater (ihm _ (by omega) hP rfl)
        · have hnext : t + 1 + d = t + (d + 1) := by omega
          refine hlater (ihd hP (by omega) ?_ (by rw [hnext]; exact hu))
          exact fun ⟨t', hle', hgoal⟩ => ⟨t', by omega, hgoal⟩

-- ---------------------------------------------------------------------------
-- Prefixes
-- ---------------------------------------------------------------------------

section Prefixes

variable {next : σ → ε → Option σ}

theorem foldlM_snoc (s : σ) (es : List ε) (e : ε) :
    (es ++ [e]).foldlM next s = (es.foldlM next s).bind fun t => next t e := by
  rw [List.foldlM_append]
  simp [Option.bind_eq_bind]

/-- **Prefix rule.** Where `fits` says exactly which events a good state takes
to a good state, all prefixes of the events end in a good state if and only if
every event fits. Both may speak about the events before. -/
theorem prefixes_iff {good : List ε → σ → Prop} {fits : List ε → ε → Prop} {s₀ : σ}
    (h0 : good [] s₀)
    (hstep : ∀ es s e, good es s → ((∃ s', next s e = some s' ∧ good (es ++ [e]) s') ↔ fits es e))
    (es : List ε) :
    (∀ p, p <+: es → ∃ s, p.foldlM next s₀ = some s ∧ good p s) ↔
      ∀ p e, p ++ [e] <+: es → fits p e := by
  constructor
  · -- the states before and after the event are good, so the event fits
    intro hgood p e hpre
    obtain ⟨s, hs, hp⟩ := hgood p ((List.prefix_append p [e]).trans hpre)
    obtain ⟨s', hs', hpe⟩ := hgood _ hpre
    rw [foldlM_snoc, hs] at hs'
    exact (hstep p s e hp).mp ⟨s', hs', hpe⟩
  · intro hfits p
    -- on the prefix, from its end
    induction p using List.reverseRecOn with
    | nil => exact fun _ => ⟨s₀, rfl, h0⟩
    | append_singleton p e ih =>
      intro hpre
      obtain ⟨s, hs, hp⟩ := ih ((List.prefix_append p [e]).trans hpre)
      obtain ⟨s', hs', hpe⟩ := (hstep p s e hp).mpr (hfits p e hpre)
      exact ⟨s', by rw [foldlM_snoc, hs]; exact hs', hpe⟩

/-- What holds of every event, by prefixes: each event is the last one of the
prefix that it ends. -/
theorem forall_mem_iff_prefix {P : ε → Prop} {es : List ε} :
    (∀ e ∈ es, P e) ↔ ∀ p e, p ++ [e] <+: es → P e := by
  constructor
  · intro h p e hpre
    exact h e (hpre.subset (by simp))
  · intro h e he
    obtain ⟨p, rest, rfl⟩ := List.append_of_mem he
    exact h p e ⟨rest, by simp⟩

end Prefixes
