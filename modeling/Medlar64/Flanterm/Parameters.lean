import Medlar64.Flanterm.Init
import Medlar64.Flanterm.Invariant

/-!
# Flanterm: control sequences

How `flanterm_putchar` reads the bytes `ESC [`, parameters, final byte. The
parameters are digits between semicolons, in any number and of any length.

* `parameters_run` — the parameters up to the final byte.
* `sequence_parsed` — a whole sequence is one `runSequence` with the values of
  its first sixteen parameters.
* `controlSequence_parsed` — the same in whatever state the parser was.
* `cursorAddress` — what this means for the sequences `H` and `f`.
-/

namespace Flanterm

open ArrayProg

variable {g : FbConfig} {ctx : Context}

-- ---------------------------------------------------------------------------
-- Values
-- ---------------------------------------------------------------------------

/-- The value of digits. -/
def decimal (p : List (BitVec 8)) : ℕ :=
  p.foldl (fun n c => n * 10 + (c.toNat - '0'.toNat)) 0

/-- An empty last parameter is not counted. -/
def counted : List (List (BitVec 8)) → List (List (BitVec 8))
  | [] => []
  | [p] => if p = [] then [] else [p]
  | p :: q :: ps => p :: counted (q :: ps)

/-- The values of the parameters: 32 bits of the first sixteen. -/
def values (ps : List (List (BitVec 8))) : List (BitVec 32) :=
  ((counted ps).map fun p => BitVec.ofNat 32 (decimal p)).take maxEscValues

/-- The bytes of the sequence; `dec` stands for the question mark. -/
def sequence (dec : Bool) (ps : List (List (BitVec 8))) (f : BitVec 8) : List (BitVec 8) :=
  0x1b#8 :: byte '[' :: ((if dec then [byte '?'] else []) ++ [byte ';'].intercalate ps ++ [f])

-- ---------------------------------------------------------------------------
-- The state of the parser
-- ---------------------------------------------------------------------------

/-- Between characters and sequences. -/
structure Idle (ctx : Context) : Prop where
  discardNext : ctx.discardNext = false
  unicodeRemaining : ctx.unicodeRemaining = 0
  gSelect : ctx.gSelect = 0
  escape : ctx.escape = false
  osc : ctx.osc = false
  controlSequence : ctx.controlSequence = false

/-- The end of a sequence. -/
def Context.leave (ctx : Context) : Context :=
  { ctx with controlSequence := false, escape := false }

/-- Leaving a sequence changes nothing where none is under way. -/
theorem Idle.leave_eq (h : Idle ctx) : ctx.leave = ctx := by
  have hescape := h.escape
  have hsequence := h.controlSequence
  cases ctx
  cases hescape
  cases hsequence
  rfl

/-- A byte that `flanterm_putchar` hands on to `escape_parse`. -/
def Passed (c : BitVec 8) : Prop :=
  c ≠ 0x18#8 ∧ c ≠ 0x1a#8 ∧ ¬(0xc0 ≤ c.toNat ∧ c.toNat ≤ 0xf7)

/-- The array of the values, of which `vs` have been read. -/
def valueArray (old : ℕ → BitVec 32) (vs : List (BitVec 32)) (i : ℕ) : BitVec 32 :=
  if i < maxEscValues then vs.getD i 0 else old i

/-- In a control sequence: `k` parameters are complete. -/
def Context.inSequence (ctx : Context) (e k : ℕ) (rrr : Bool) (escValues : ℕ → BitVec 32) :
    Context :=
  { ctx with
    escapeOffset := e
    escape := true
    controlSequence := true
    rrr := rrr
    escValuesI := k
    escValues := escValues }

def reading (ctx : Context) (e k : ℕ) (rrr : Bool) (vs : List (BitVec 32)) : Context :=
  ctx.inSequence e k rrr (valueArray ctx.escValues vs)

/-- A parameter without digits has the value 0. -/
theorem valueArray_concat_zero (old : ℕ → BitVec 32) (vs : List (BitVec 32)) :
    valueArray old (vs ++ [0]) = valueArray old vs := by
  funext i
  rw [valueArray, valueArray, List.getD_eq_getElem?_getD, List.getD_eq_getElem?_getD,
    List.getElem?_append]
  by_cases hi : i < vs.length
  · rw [if_pos hi]
  · rw [if_neg hi, List.getElem?_eq_none (by omega : vs.length ≤ i)]
    cases i - vs.length <;> rfl

/-- The last value is replaced. -/
theorem update_valueArray {vs : List (BitVec 32)} (hlen : vs.length < maxEscValues)
    (v w : BitVec 32) (old : ℕ → BitVec 32) :
    Function.update (valueArray old (vs ++ [v])) vs.length w = valueArray old (vs ++ [w]) := by
  funext i
  by_cases hi : i = vs.length
  · subst hi
    rw [Function.update_self, valueArray, if_pos hlen, List.getD_eq_getElem?_getD,
      List.getElem?_concat_length]
    rfl
  · rw [Function.update_of_ne hi, valueArray, valueArray, List.getD_eq_getElem?_getD,
      List.getD_eq_getElem?_getD, List.getElem?_append, List.getElem?_append]
    by_cases hlt : i < vs.length
    · rw [if_pos hlt, if_pos hlt]
    · rw [if_neg hlt, if_neg hlt, List.getElem?_eq_none (by simp; omega),
        List.getElem?_eq_none (by simp; omega)]

/-- The value read last is the one behind those before it. -/
theorem valueArray_last {vs : List (BitVec 32)} (hlen : vs.length < maxEscValues)
    (v : BitVec 32) (old : ℕ → BitVec 32) : valueArray old (vs ++ [v]) vs.length = v := by
  rw [valueArray, if_pos hlen, List.getD_eq_getElem?_getD, List.getElem?_concat_length]
  rfl

-- ---------------------------------------------------------------------------
-- One byte
-- ---------------------------------------------------------------------------

theorem putBytes_singleton (g : FbConfig) (c : BitVec 8) (ctx : Context) :
    putBytes g [c] ctx = putchar g c ctx := by
  rw [putBytes_cons]
  exact bind_pure _

/-- While a sequence is being read, every byte that does not start a character
or cancel the sequence comes to `control_sequence_parse`. -/
theorem putchar_reading (h : Idle ctx) {c : BitVec 8} (hc : Passed c) (e k : ℕ) (rrr : Bool)
    (vs : List (BitVec 32)) :
    putchar g c (reading ctx e k rrr vs) =
      controlSequenceParse g c (reading ctx ((e + 1) % 2 ^ 64) k rrr vs) := by
  obtain ⟨hcan, hsub, hlead⟩ := hc
  have hstart : ¬(ctx.discardNext = true ∨ c = 0x18#8 ∨ c = 0x1a#8) := by
    rw [h.discardNext]
    simp [hcan, hsub]
  have hosc : ¬ctx.osc = true := by
    rw [h.osc]
    exact Bool.false_ne_true
  rw [putchar]
  show (if ctx.discardNext = true ∨ c = 0x18#8 ∨ c = 0x1a#8 then _ else
    if ctx.unicodeRemaining ≠ 0 then _ else _) = _
  have hescape : (reading ctx e k rrr vs).escape = true := rfl
  rw [if_neg hstart, if_neg (by simp [h.unicodeRemaining]), putcharStart, if_neg hlead,
    if_pos hescape]
  show (if ctx.osc = true then _ else if true = true then
    controlSequenceParse g c (reading ctx ((e + 1) % 2 ^ 64) k rrr vs) else _) = _
  rw [if_neg hosc, if_pos rfl]

theorem isDigit_iff {c : BitVec 8} : isDigit c = true ↔ 0x30 ≤ c.toNat ∧ c.toNat ≤ 0x39 := by
  rw [isDigit]
  exact decide_eq_true_iff

/-- A digit differs from what is none. -/
theorem ne_of_isDigit {c k : BitVec 8} (hc : isDigit c = true) (hk : isDigit k = false) :
    c ≠ k := by
  rintro rfl
  rw [hc] at hk
  exact Bool.noConfusion hk

/-- And it neither cancels a sequence nor starts a character. -/
theorem passed_of_isDigit {c : BitVec 8} (hc : isDigit c = true) : Passed c := by
  refine ⟨ne_of_isDigit hc rfl, ne_of_isDigit hc rfl, ?_⟩
  rw [isDigit_iff] at hc
  omega

/-- A digit of a parameter that has room. -/
theorem putchar_digit (h : Idle ctx) {c : BitVec 8} (hc : isDigit c = true) (e : ℕ) (rrr : Bool)
    {vs : List (BitVec 32)} (hlen : vs.length < maxEscValues) (v : BitVec 32) :
    putchar g c (reading ctx e vs.length rrr (vs ++ [v])) =
      pure (reading ctx ((e + 1) % 2 ^ 64) vs.length true
        (vs ++ [v * 10 + BitVec.ofNat 32 (c.toNat - '0'.toNat)])) := by
  rw [putchar_reading h (passed_of_isDigit hc), controlSequenceParse,
    if_neg (fun hb => ne_of_isDigit hc rfl hb.2), if_neg (fun hb => ne_of_isDigit hc rfl hb.2),
    if_pos hc]
  show (if vs.length = maxEscValues then _ else check (vs.length < maxEscValues) >>= fun _ => _) = _
  rw [if_neg (by omega), check, if_pos hlen]
  show (pure (ctx.inSequence _ vs.length true (Function.update _ vs.length
    (valueArray ctx.escValues (vs ++ [v]) vs.length * 10 + _))) : Screen Context) = _
  rw [valueArray_last hlen]
  exact congrArg (fun a => (pure (ctx.inSequence _ vs.length true a) : Screen Context))
    (update_valueArray hlen v _ _)

/-- A digit behind the sixteenth parameter. -/
theorem putchar_digit_full (h : Idle ctx) {c : BitVec 8} (hc : isDigit c = true) (e : ℕ)
    {vs : List (BitVec 32)} (hlen : vs.length = maxEscValues) :
    putchar g c (reading ctx e vs.length false vs) =
      pure (reading ctx ((e + 1) % 2 ^ 64) vs.length false vs) := by
  rw [putchar_reading h (passed_of_isDigit hc), controlSequenceParse,
    if_neg (fun hb => ne_of_isDigit hc rfl hb.2), if_neg (fun hb => ne_of_isDigit hc rfl hb.2),
    if_pos hc]
  show (if vs.length = maxEscValues then _ else _) = _
  rw [if_pos hlen]

/-- A byte that ends a parameter. -/
def Ending (c : BitVec 8) : Prop :=
  Passed c ∧ isDigit c = false ∧ c ≠ byte '[' ∧ c ≠ byte '?'

/-- A byte that ends a parameter comes as far as the test for the semicolon. -/
theorem putchar_ending (h : Idle ctx) {c : BitVec 8} (hc : Ending c) (e k : ℕ) (rrr : Bool)
    (vs : List (BitVec 32)) :
    putchar g c (reading ctx e k rrr vs) =
      controlSequenceValue g c (reading ctx ((e + 1) % 2 ^ 64) k rrr vs) := by
  obtain ⟨hpassed, hdigit, hbracket, hquestion⟩ := hc
  rw [putchar_reading h hpassed, controlSequenceParse, if_neg (fun hb => hbracket hb.2),
    if_neg (fun hb => hquestion hb.2), if_neg (by simp [hdigit])]

theorem ending_semicolon : Ending (byte ';') := by
  refine ⟨⟨by decide, by decide, by decide⟩, by decide, by decide, by decide⟩

-- ---------------------------------------------------------------------------
-- One parameter
-- ---------------------------------------------------------------------------

/-- The values with one more, of sixteen at most. -/
def nextValues (vs : List (BitVec 32)) (p : List (BitVec 8)) : List (BitVec 32) :=
  (vs ++ [BitVec.ofNat 32 (decimal p)]).take maxEscValues

/-- Below sixteen values a parameter is one more. -/
theorem nextValues_of_lt {vs : List (BitVec 32)} (hlen : vs.length < maxEscValues)
    (p : List (BitVec 8)) : nextValues vs p = vs ++ [BitVec.ofNat 32 (decimal p)] := by
  refine List.take_of_length_le ?_
  rw [List.length_append, List.length_singleton]
  exact hlen

/-- With sixteen it is dropped. -/
theorem nextValues_of_eq {vs : List (BitVec 32)} (hlen : vs.length = maxEscValues)
    (p : List (BitVec 8)) : nextValues vs p = vs := by
  rw [nextValues, ← hlen, List.take_left]

/-- There are never more than sixteen. -/
theorem length_nextValues_le (vs : List (BitVec 32)) (p : List (BitVec 8)) :
    (nextValues vs p).length ≤ maxEscValues := by
  rw [nextValues, List.length_take]
  exact Nat.min_le_left _ _

/-- The digits of a parameter that has room, by induction on them: the value
read so far is the number they spell, in 32 bits. -/
theorem digits_run (h : Idle ctx) {p : List (BitVec 8)} (hp : ∀ c ∈ p, isDigit c = true)
    {vs : List (BitVec 32)} (hlen : vs.length < maxEscValues) (e : ℕ) (rrr : Bool) (n : ℕ) :
    ∃ e', putBytes g p (reading ctx e vs.length rrr (vs ++ [BitVec.ofNat 32 n])) =
      pure (reading ctx e' vs.length (rrr || !p.isEmpty)
        (vs ++ [BitVec.ofNat 32 (p.foldl (fun n c => n * 10 + (c.toNat - '0'.toNat)) n)])) := by
  induction p generalizing e rrr n with
  | nil => exact ⟨e, by rw [List.isEmpty_nil, Bool.not_true, Bool.or_false]; rfl⟩
  | cons c p ih =>
    obtain ⟨e', ih⟩ := ih (fun c hc => hp c (List.mem_cons_of_mem _ hc)) ((e + 1) % 2 ^ 64) true
      (n * 10 + (c.toNat - '0'.toNat))
    refine ⟨e', ?_⟩
    -- the array holds the value modulo 2^32 after every digit
    rw [putBytes_cons, putchar_digit h (hp c List.mem_cons_self) e rrr hlen]
    have hvalue : BitVec.ofNat 32 n * 10 + BitVec.ofNat 32 (c.toNat - '0'.toNat) =
        BitVec.ofNat 32 (n * 10 + (c.toNat - '0'.toNat)) := by
      rw [BitVec.ofNat_add]
      exact congrArg (· + _) (BitVec.ofNat_mul n 10).symm
    rw [hvalue, pure_bind, ih, Bool.true_or, List.isEmpty_cons, Bool.not_false, Bool.or_true]
    rfl

/-- Digits that no parameter takes. -/
theorem digits_run_full (h : Idle ctx) {p : List (BitVec 8)} (hp : ∀ c ∈ p, isDigit c = true)
    {vs : List (BitVec 32)} (hlen : vs.length = maxEscValues) (e : ℕ) :
    ∃ e', putBytes g p (reading ctx e vs.length false vs) =
      pure (reading ctx e' vs.length false vs) := by
  induction p generalizing e with
  | nil => exact ⟨e, rfl⟩
  | cons c p ih =>
    obtain ⟨e', ih⟩ := ih (fun c hc => hp c (List.mem_cons_of_mem _ hc)) ((e + 1) % 2 ^ 64)
    refine ⟨e', ?_⟩
    rw [putBytes_cons, putchar_digit_full h (hp c List.mem_cons_self) e hlen, pure_bind, ih]

theorem reading_append_zero (e k : ℕ) (rrr : Bool) (vs : List (BitVec 32)) :
    reading ctx e k rrr (vs ++ [BitVec.ofNat 32 0]) = reading ctx e k rrr vs :=
  congrArg (ctx.inSequence e k rrr) (valueArray_concat_zero _ vs)

/-- A parameter before the byte that ends it. With sixteen values before it,
its digits are read and dropped. -/
theorem parameter_run (h : Idle ctx) {p : List (BitVec 8)} (hp : ∀ c ∈ p, isDigit c = true)
    {vs : List (BitVec 32)} (hlen : vs.length ≤ maxEscValues) (e : ℕ) :
    ∃ e', putBytes g p (reading ctx e vs.length false vs) =
      pure (reading ctx e' vs.length (!p.isEmpty && decide (vs.length < maxEscValues))
        (nextValues vs p)) := by
  obtain hlt | heq := Nat.lt_or_eq_of_le hlen
  · obtain ⟨e', hrun⟩ := digits_run (g := g) h hp hlt e false 0
    refine ⟨e', ?_⟩
    rw [reading_append_zero, Bool.false_or] at hrun
    rw [nextValues_of_lt hlt, decide_eq_true hlt, Bool.and_true, hrun]
    rfl
  · obtain ⟨e', hrun⟩ := digits_run_full (g := g) h hp heq e
    refine ⟨e', ?_⟩
    rw [nextValues_of_eq heq, decide_eq_false (by omega), Bool.and_false, hrun]

/-- A semicolon closes the parameter before it. One without digits counts as
zero here, unlike the last of a sequence; with sixteen values the parameter is
dropped, digits and all. -/
theorem semicolon_run (h : Idle ctx) (p : List (BitVec 8)) {vs : List (BitVec 32)}
    (hlen : vs.length ≤ maxEscValues) (e : ℕ) :
    putchar g (byte ';') (reading ctx e vs.length
        (!p.isEmpty && decide (vs.length < maxEscValues)) (nextValues vs p)) =
      pure (reading ctx ((e + 1) % 2 ^ 64) (nextValues vs p).length false (nextValues vs p)) := by
  rw [putchar_ending h ending_semicolon, controlSequenceValue]
  obtain hlt | heq := Nat.lt_or_eq_of_le hlen
  · have hlength : (nextValues vs p).length = vs.length + 1 := by
      rw [nextValues_of_lt hlt, List.length_append, List.length_singleton]
    rw [hlength, decide_eq_true hlt, Bool.and_true]
    cases p with
    | cons c p => rfl
    | nil =>
      show (if vs.length = maxEscValues then _ else check (vs.length < maxEscValues) >>= fun _ => _)
        = _
      rw [if_neg (by omega), check, if_pos hlt, nextValues_of_lt hlt]
      show (pure (ctx.inSequence _ (vs.length + 1) false (Function.update _ vs.length _)) :
        Screen Context) = _
      exact congrArg (fun a => (pure (ctx.inSequence _ (vs.length + 1) false a) : Screen Context))
        (update_valueArray hlt _ _ _)
  · -- sixteen are there: the parameter was dropped, digits and all
    rw [nextValues_of_eq heq, decide_eq_false (by omega), Bool.and_false]
    show (if vs.length = maxEscValues then _ else _) = _
    rw [if_pos heq]

/-- The values with the last parameter, if it has digits. -/
def lastValues (vs : List (BitVec 32)) (p : List (BitVec 8)) : List (BitVec 32) :=
  if p = [] then vs else nextValues vs p

/-- The final byte closes the last parameter. Where that has no digits there is
none: the array holds a zero for it already, which the default will replace. -/
theorem final_run (h : Idle ctx) {f : BitVec 8} (hf : Ending f) (hsemicolon : f ≠ byte ';')
    (p : List (BitVec 8)) {vs : List (BitVec 32)} (hlen : vs.length ≤ maxEscValues) (e : ℕ) :
    putchar g f (reading ctx e vs.length
        (!p.isEmpty && decide (vs.length < maxEscValues)) (nextValues vs p)) =
      controlSequenceEnd g f
        (reading ctx ((e + 1) % 2 ^ 64) (lastValues vs p).length false (lastValues vs p)) := by
  rw [putchar_ending h hf, controlSequenceValue, if_neg hsemicolon, if_neg hsemicolon]
  obtain hlt | heq := Nat.lt_or_eq_of_le hlen
  · rw [decide_eq_true hlt, Bool.and_true]
    cases p with
    | cons c p =>
      have hlength : (nextValues vs (c :: p)).length = vs.length + 1 := by
        rw [nextValues_of_lt hlt, List.length_append, List.length_singleton]
      rw [lastValues, if_neg (List.cons_ne_nil _ _), hlength]
      rfl
    -- an empty last parameter is none, and takes its default
    | nil =>
      rw [lastValues, if_pos rfl, nextValues_of_lt hlt]
      show controlSequenceEnd g f (reading ctx _ _ false (vs ++ [BitVec.ofNat 32 0])) = _
      rw [reading_append_zero]
  · have hlast : lastValues vs p = vs := by
      rw [lastValues, nextValues_of_eq heq, ite_self]
    rw [hlast, nextValues_of_eq heq, decide_eq_false (by omega), Bool.and_false]
    rfl

-- ---------------------------------------------------------------------------
-- All parameters
-- ---------------------------------------------------------------------------

/-- Cutting to sixteen can be left to the end. -/
theorem take_take_append (k : ℕ) (l l' : List (BitVec 32)) :
    (l.take k ++ l').take k = (l ++ l').take k := by
  rw [List.take_append, List.take_append, List.take_take, Nat.min_self, List.length_take]
  obtain hle | hge := Nat.le_total k l.length
  · rw [Nat.min_eq_left hle, Nat.sub_self, Nat.sub_eq_zero_of_le hle]
  · rw [Nat.min_eq_right hge]

/-- A last parameter, if it has digits, is one value more. -/
theorem lastValues_eq {vs : List (BitVec 32)} (hlen : vs.length ≤ maxEscValues)
    (p : List (BitVec 8)) :
    lastValues vs p =
      (vs ++ (counted [p]).map fun p => BitVec.ofNat 32 (decimal p)).take maxEscValues := by
  rw [lastValues, counted]
  split
  · rw [List.map_nil, List.append_nil, List.take_of_length_le hlen]
  · rfl

/--
**The parameters of a sequence, up to its final byte.** For any number of them,
each of any length, the terminal arrives at the end of the sequence with the
values of the first sixteen. By induction on the parameters: all but the last
are closed by a semicolon, the last by the final byte.
-/
theorem parameters_run (h : Idle ctx) {f : BitVec 8} (hf : Ending f) (hsemicolon : f ≠ byte ';')
    {ps : List (List (BitVec 8))} (hps : ∀ p ∈ ps, ∀ c ∈ p, isDigit c = true)
    {vs : List (BitVec 32)} (hlen : vs.length ≤ maxEscValues) (e : ℕ) :
    ∃ e' ws, ws = (vs ++ (counted ps).map fun p => BitVec.ofNat 32 (decimal p)).take maxEscValues ∧
      putBytes g ([byte ';'].intercalate ps ++ [f]) (reading ctx e vs.length false vs) =
        controlSequenceEnd g f (reading ctx e' ws.length false ws) := by
  -- the last parameter with the final byte
  have hend : ∀ p, (∀ c ∈ p, isDigit c = true) → ∀ {vs : List (BitVec 32)},
      vs.length ≤ maxEscValues → ∀ e, ∃ e',
      putBytes g (p ++ [f]) (reading ctx e vs.length false vs) =
        controlSequenceEnd g f
          (reading ctx e' (lastValues vs p).length false (lastValues vs p)) := by
    intro p hp vs hlen e
    obtain ⟨e', hrun⟩ := parameter_run (g := g) h hp hlen e
    refine ⟨(e' + 1) % 2 ^ 64, ?_⟩
    rw [putBytes_append, hrun, pure_bind, putBytes_singleton]
    exact final_run h hf hsemicolon p hlen e'
  induction ps generalizing vs e with
  | nil =>
    obtain ⟨e', hrun⟩ := hend [] (fun _ hc => absurd hc (List.not_mem_nil)) hlen e
    exact ⟨e', _, lastValues_eq hlen [], hrun⟩
  | cons p ps ih =>
    cases ps with
    | nil =>
      obtain ⟨e', hrun⟩ := hend p (hps p List.mem_cons_self) hlen e
      exact ⟨e', _, lastValues_eq hlen p, by rwa [List.intercalate_singleton]⟩
    | cons q ps =>
      obtain ⟨e₁, hp⟩ := parameter_run (g := g) h (hps p List.mem_cons_self) hlen e
      obtain ⟨e', ws, hws, hrun⟩ := ih (fun p' hp' => hps p' (List.mem_cons_of_mem p hp'))
        (length_nextValues_le vs p) ((e₁ + 1) % 2 ^ 64)
      refine ⟨e', ws, ?_, ?_⟩
      · rw [hws, nextValues, take_take_append, List.append_assoc]
        rfl
      · rw [List.intercalate_cons_cons, List.append_assoc, List.append_assoc, putBytes_append, hp,
          pure_bind, putBytes_append, putBytes_singleton, semicolon_run h p hlen, pure_bind, hrun]

-- ---------------------------------------------------------------------------
-- The whole sequence
-- ---------------------------------------------------------------------------

/-- The escape character opens a sequence, -/
theorem putchar_escape (h : Idle ctx) :
    putchar g 0x1b#8 ctx = pure { ctx with escapeOffset := 0, escape := true } := by
  rw [putchar, if_neg (by simp [h.discardNext]), if_neg (by simp [h.unicodeRemaining]),
    putcharStart, if_neg (by simp), if_neg (by simp [h.escape]), if_neg (by simp [h.gSelect])]
  rfl

/-- and the bracket clears the values of the one before it. -/
theorem putchar_bracket (h : Idle ctx) :
    putchar g (byte '[') { ctx with escapeOffset := 0, escape := true } =
      pure (reading ctx 1 0 false []) := by
  have hosc : ¬ctx.osc = true := by
    rw [h.osc]
    exact Bool.false_ne_true
  have hsequence : ¬ctx.controlSequence = true := by
    rw [h.controlSequence]
    exact Bool.false_ne_true
  have hstart : ¬(ctx.discardNext = true ∨ byte '[' = 0x18#8 ∨ byte '[' = 0x1a#8) := by
    rw [h.discardNext]
    decide
  rw [putchar]
  show (if ctx.discardNext = true ∨ byte '[' = 0x18#8 ∨ byte '[' = 0x1a#8 then _ else
    if ctx.unicodeRemaining ≠ 0 then _ else _) = _
  rw [if_neg hstart, if_neg (by simp [h.unicodeRemaining])]
  show (if ctx.osc = true then _ else if ctx.controlSequence = true then _ else _) = _
  rw [if_neg hosc, if_neg hsequence]
  rfl

/-- The question mark of a private sequence. -/
theorem putchar_question (h : Idle ctx) :
    putchar g (byte '?') (reading ctx 1 0 false []) =
      pure (reading { ctx with decPrivate := true } 2 0 false []) := by
  have hpassed : Passed (byte '?') := ⟨by decide, by decide, by decide⟩
  rw [putchar_reading h hpassed, controlSequenceParse]
  rfl

/-- At the end the values that were not given take their default, which depends
on the final byte. -/
theorem controlSequenceEnd_reading (f : BitVec 8) (ctx : Context) (e : ℕ) (ws : List (BitVec 32)) :
    controlSequenceEnd g f (reading ctx e ws.length false ws) = (do
      let ctx' ← runSequence g f (ctx.inSequence e ws.length false fun i =>
        if i < maxEscValues then ws.getD i (escDefault f) else ctx.escValues i)
      pure ctx'.leave) := by
  have hvalues : (fun i => if ws.length ≤ i ∧ i < maxEscValues then escDefault f
      else valueArray ctx.escValues ws i) =
      fun i => if i < maxEscValues then ws.getD i (escDefault f) else ctx.escValues i := by
    funext i
    rw [valueArray]
    by_cases hi : i < maxEscValues
    · rw [if_pos hi, if_pos hi, List.getD_eq_getElem?_getD, List.getD_eq_getElem?_getD]
      by_cases hlen : ws.length ≤ i
      · rw [if_pos ⟨hlen, hi⟩, List.getElem?_eq_none hlen]
        rfl
      · rw [if_neg (fun hand => hlen hand.1), List.getElem?_eq_getElem (by omega)]
        rfl
    · rw [if_neg (fun hand => hi hand.2), if_neg hi, if_neg hi]
  rw [controlSequenceEnd]
  exact congrArg (fun a => runSequence g f (ctx.inSequence e ws.length false a) >>= fun ctx' =>
    (pure ctx'.leave : Screen Context)) hvalues

/--
**A whole sequence is one `runSequence`.** From an idle terminal, the bytes of
a control sequence run the command of its final byte once, with the values of
its parameters, and leave the parser idle.

`dec_private` is only ever set by the parser, and taken back by
`dec_private_parse`. So if an earlier sequence with a question mark was broken
off, the flag is still there, and the sequence is private whether it has a
question mark of its own or not.
-/
theorem sequence_parsed (h : Idle ctx) (dec : Bool) {ps : List (List (BitVec 8))}
    (hps : ∀ p ∈ ps, ∀ c ∈ p, isDigit c = true) {f : BitVec 8} (hf : Ending f)
    (hsemicolon : f ≠ byte ';') :
    ∃ e, putBytes g (sequence dec ps f) ctx = (do
      let ctx' ← runSequence g f ({ ctx with decPrivate := ctx.decPrivate || dec }.inSequence e
        (values ps).length false fun i =>
          if i < maxEscValues then (values ps).getD i (escDefault f) else ctx.escValues i)
      pure ctx'.leave) := by
  have hzero : ([] : List (BitVec 32)).length ≤ maxEscValues := Nat.zero_le _
  rw [sequence, putBytes_cons, putchar_escape h, pure_bind, putBytes_cons, putchar_bracket h,
    pure_bind]
  -- the question mark is read before the parameters
  cases dec with
  | false =>
    obtain ⟨e, ws, hws, hrun⟩ := parameters_run (g := g) h hf hsemicolon hps hzero 1
    obtain rfl : ws = values ps := hws
    refine ⟨e, ?_⟩
    rw [Bool.or_false]
    exact hrun.trans (controlSequenceEnd_reading f ctx e _)
  | true =>
    have hprivate : Idle { ctx with decPrivate := true } := { h with }
    obtain ⟨e, ws, hws, hrun⟩ := parameters_run (g := g) hprivate hf hsemicolon hps hzero 2
    obtain rfl : ws = values ps := hws
    refine ⟨e, ?_⟩
    rw [Bool.or_true]
    show putBytes g (byte '?' :: ([byte ';'].intercalate ps ++ [f])) _ = _
    rw [putBytes_cons, putchar_question h, pure_bind]
    exact hrun.trans (controlSequenceEnd_reading f _ e _)

/-- The state after `CAN` or `SUB`; the question mark of a private sequence is not
forgotten. -/
def Context.cancelled (ctx : Context) : Context :=
  { ctx with
    discardNext := false
    escape := false
    controlSequence := false
    unicodeRemaining := 0
    osc := false
    oscEscape := false
    gSelect := 0 }

/-- After CAN or SUB the parser is idle. -/
theorem cancelled_idle (ctx : Context) : Idle ctx.cancelled := ⟨rfl, rfl, rfl, rfl, rfl, rfl⟩

/-- Both are looked at before anything else, so they do this in every state.
The flag of a private sequence is not among the fields they take back. -/
theorem putchar_cancel {c : BitVec 8} (hc : c = 0x18#8 ∨ c = 0x1a#8) (ctx : Context) :
    putchar g c ctx = pure ctx.cancelled := by
  rw [putchar, if_pos (Or.inr hc)]
  rfl

/-- **Every control sequence is read.** In whatever state the parser is, `CAN` or
`SUB` ends it. Whatever the parameters are, the values of the first sixteen are taken
modulo 2³², the others are left out, and those that are not given have the
default of the final byte; then the sequence is carried out and the terminal is
between characters again. -/
theorem controlSequence_parsed (ctx : Context) {c : BitVec 8} (hc : c = 0x18#8 ∨ c = 0x1a#8)
    (dec : Bool) {ps : List (List (BitVec 8))} (hps : ∀ p ∈ ps, ∀ c ∈ p, isDigit c = true)
    {f : BitVec 8} (hf : Ending f) (hsemicolon : f ≠ byte ';') :
    ∃ e, putBytes g (c :: sequence dec ps f) ctx = (do
      let ctx' ← runSequence g f
        ({ ctx.cancelled with decPrivate := ctx.decPrivate || dec }.inSequence e
          (values ps).length false fun i =>
            if i < maxEscValues then (values ps).getD i (escDefault f) else ctx.escValues i)
      pure ctx'.leave) := by
  obtain ⟨e, hrun⟩ := sequence_parsed (g := g) (cancelled_idle ctx) dec hps hf hsemicolon
  refine ⟨e, ?_⟩
  rw [putBytes_cons, putchar_cancel hc, pure_bind]
  exact hrun

/-- In the middle of another sequence: an empty parameter, which is 0, and
`25`, in a private sequence that ends in `h`. -/
theorem controlSequence_parsed_start :
    ∃ e, putBytes xgaConfig (0x18#8 :: sequence true [[], [byte '2', byte '5']] (byte 'h'))
      (reading (startContext xgaConfig) 7 1 true [9]) = (do
        let ctx' ← runSequence xgaConfig (byte 'h')
          ({ (reading (startContext xgaConfig) 7 1 true [9]).cancelled with
            decPrivate := true }.inSequence e 2 false fun i =>
              if i < maxEscValues then ([0, 25] : List (BitVec 32)).getD i 1
              else (reading (startContext xgaConfig) 7 1 true [9]).escValues i)
        pure ctx'.leave) :=
  controlSequence_parsed _ (.inl rfl) true (by decide)
    ⟨⟨by decide, by decide, by decide⟩, by decide, by decide, by decide⟩ (by decide)

-- ---------------------------------------------------------------------------
-- Cursor addresses
-- ---------------------------------------------------------------------------

/-- The fields in which a sequence was read. -/
def Context.parsed (ctx : Context) (e k : ℕ) (vs : ℕ → BitVec 32) : Context :=
  { ctx with escapeOffset := e, rrr := false, escValuesI := k, escValues := vs }

/-- Other values. -/
def Context.withValues (ctx : Context) (vs : ℕ → BitVec 32) : Context :=
  { ctx with escValues := vs }

/-- One value of `H` or `f`: counted from one, zero standing for one, and cut
to the last row or column. -/
theorem homeValue_eq {limit : ℕ} (hpos : 0 < limit) (hlt : limit < 2 ^ 31) (i : ℕ)
    (ctx : Context) :
    ∃ vs, homeValue i limit ctx = ctx.withValues vs ∧
      (vs i).toNat = min ((ctx.escValues i).toNat - 1) (limit - 1) ∧
      ∀ j, j ≠ i → vs j = ctx.escValues j := by
  -- one less, but for 0
  obtain ⟨vs, hvs, hvalue, hother⟩ : ∃ vs,
      (if ctx.escValues i ≠ 0 then
        { ctx with escValues := Function.update ctx.escValues i (ctx.escValues i - 1) }
      else ctx) = ctx.withValues vs ∧ (vs i).toNat = (ctx.escValues i).toNat - 1 ∧
      ∀ j, j ≠ i → vs j = ctx.escValues j := by
    by_cases hzero : ctx.escValues i ≠ 0
    · refine ⟨_, if_pos hzero, ?_, fun j hj => Function.update_of_ne hj _ _⟩
      have hpos : 0 < (ctx.escValues i).toNat := by
        refine Nat.pos_of_ne_zero fun heq => hzero (BitVec.eq_of_toNat_eq heq)
      rw [Function.update_self, BitVec.toNat_sub_of_le]
      · rfl
      · exact hpos
    · refine ⟨ctx.escValues, if_neg hzero, ?_, fun _ _ => rfl⟩
      rw [not_not.mp hzero]
      rfl
  rw [homeValue, hvs]
  show ∃ vs', (if limit ≤ (vs i).toNat then _ else _) = _ ∧ _
  split
  case isTrue hge =>
    refine ⟨Function.update vs i (BitVec.ofNat 32 (limit - 1)), rfl, ?_, ?_⟩
    · rw [Function.update_self, BitVec.toNat_ofNat, Nat.mod_eq_of_lt (by omega)]
      omega
    · intro j hj
      rw [Function.update_of_ne hj]
      exact hother j hj
  case isFalse hlt => exact ⟨vs, rfl, by omega, hother⟩

/-- The two values are taken down one after the other, the column first;
neither touches the other. -/
theorem homeSequence {f : BitVec 8} (hf : f = byte 'H' ∨ f = byte 'f') (ctx : Context) :
    ∃ vs, controlSequence g f ctx = pure ((ctx.withValues vs).at
      (min ((ctx.escValues 1).toNat - 1) (g.cols - 1))
      (min ((ctx.escValues 0).toNat - 1) (g.rows - 1))) := by
  have hcols := g.cols_pos
  have hrows := g.rows_pos
  -- the two letters have one branch
  have hbranch : controlSequence g f ctx =
      let ctx := homeValue 0 g.rows (homeValue 1 g.cols ctx)
      pure (setCursorPos g (ctx.escValues 1).toNat (ctx.escValues 0).toNat ctx) := by
    obtain rfl | rfl := hf
    · rfl
    · rfl
  obtain ⟨vs, hcolumn, hvs, hvs'⟩ := homeValue_eq hcols g.cols_lt 1 ctx
  obtain ⟨ws, hrow, hws, hws'⟩ := homeValue_eq hrows g.rows_lt 0 (ctx.withValues vs)
  have hws0 : (ws 0).toNat = min ((ctx.escValues 0).toNat - 1) (g.rows - 1) := by
    rw [hws]
    show min ((vs 0).toNat - 1) _ = _
    rw [hvs' 0 Nat.zero_ne_one]
  have hws1 : (ws 1).toNat = min ((ctx.escValues 1).toNat - 1) (g.cols - 1) := by
    rw [hws' 1 Nat.one_ne_zero]
    exact hvs
  refine ⟨ws, hbranch.trans ?_⟩
  rw [hcolumn, hrow]
  show pure (setCursorPos g (ws 1).toNat (ws 0).toNat (ctx.withValues ws)) = _
  rw [hws0, hws1, setCursorPos_eq, clampPos_of_lt (by omega), clampPos_of_lt (by omega)]

/--
**Cursor addressing.** `CSI row ; column H` puts the cursor into that row and
column, both counted from one and cut to the screen; a missing one counts as
one. Nothing else of the terminal changes but the count of the sequence and its
values.
-/
theorem cursorAddress (h : Idle ctx) (hprivate : ctx.decPrivate = false)
    {ps : List (List (BitVec 8))} (hps : ∀ p ∈ ps, ∀ c ∈ p, isDigit c = true) {f : BitVec 8}
    (hf : f = byte 'H' ∨ f = byte 'f') :
    ∃ e k vs, putBytes g (sequence false ps f) ctx =
      pure ((ctx.parsed e k vs).at
        (min (((values ps).getD 1 1).toNat - 1) (g.cols - 1))
        (min (((values ps).getD 0 1).toNat - 1) (g.rows - 1))) := by
  have hending : Ending f ∧ f ≠ byte ';' := by
    obtain rfl | rfl := hf
    · exact ⟨⟨⟨by decide, by decide, by decide⟩, by decide, by decide, by decide⟩, by decide⟩
    · exact ⟨⟨⟨by decide, by decide, by decide⟩, by decide, by decide, by decide⟩, by decide⟩
  have hdefault : escDefault f = 1 := by
    obtain rfl | rfl := hf
    · rfl
    · rfl
  obtain ⟨e, hrun⟩ := sequence_parsed (g := g) h false hps hending.1 hending.2
  rw [hdefault] at hrun
  -- the sequence is carried out without scrolling
  obtain ⟨ws, hhome⟩ := homeSequence (g := g) hf
    ({ ctx with scrollEnabled := false, decPrivate := ctx.decPrivate || false }.inSequence e
      (values ps).length false fun i =>
        if i < maxEscValues then (values ps).getD i 1 else ctx.escValues i)
  refine ⟨e, (values ps).length, ws, hrun.trans ?_⟩
  rw [runSequence]
  show (if (ctx.decPrivate || false) = true then _ else _) >>= _ = _
  rw [if_neg (by simp [hprivate])]
  refine (congrArg (fun p : Screen Context => (p >>= fun ctx' =>
    pure { ctx' with scrollEnabled := ctx.scrollEnabled }) >>= fun ctx' =>
    pure ctx'.leave) hhome).trans ?_
  -- -- scrolling is back, and the parser has left the sequence
  rw [pure_bind, pure_bind, Bool.or_false]
  exact congrArg
    (fun c : Context => (pure ((c.parsed e (values ps).length ws).at
      (min (((values ps).getD 1 1).toNat - 1) (g.cols - 1))
      (min (((values ps).getD 0 1).toNat - 1) (g.rows - 1))) : Screen Context))
    h.leave_eq

end Flanterm
