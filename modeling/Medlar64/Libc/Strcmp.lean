import Medlar64.Lib.Memory
import Medlar64.Lib.Terminated

/-!
# Medlar64 — comparing strings (`strlen` and `strcmp` in `libc.c`)

Both functions on a memory by pointer. They only read, so what they leave
behind is a result and the list of the pointers they have read through.

* `strlen`, `strcmp` — the source functions.
* `CString` — the bytes of a string before its terminator.
* `strlen_eq` — `strlen` counts the bytes of a string and reads each of them
  and the terminator once.
* `strcmp_exact` — `strcmp` returns 0 for equal strings and for no others, and
  reads within the two strings.
-/

namespace Medlar64

-- ---------------------------------------------------------------------------
-- The source functions
-- ---------------------------------------------------------------------------

/-- The locals of `strlen`, and the pointers read through. -/
structure StrlenState where
  i : ℕ
  pStr : ℕ
  reads : List ℕ

/-- One round of the loop of `strlen`; the result is the value returned and the
pointers read through, `none` when `i++` overflows. -/
def strlenBody (m : Memory) (st : StrlenState) : StrlenState ⊕ Option (ℕ × List ℕ) :=
  if m st.pStr ≠ 0 then
    -- `i` is an `int`, and overflow traps
    if st.i = 2 ^ 31 - 1 then .inr none
    else .inl { i := st.i + 1, pStr := st.pStr + 1, reads := st.reads ++ [st.pStr] }
  else .inr (some (st.i, st.reads ++ [st.pStr]))

/-- `strlen(pStr)`. -/
def strlen (m : Memory) (pStr fuel : ℕ) : Option (ℕ × List ℕ) :=
  (whileRun (strlenBody m) fuel { i := 0, pStr, reads := [] }).join

/-- The loop of `strcmp`: its local, and the pointers read through. -/
structure StrcmpState where
  i : ℕ
  reads : List ℕ

/-- One round of the loop of `strcmp`. The bound is counted again in each; `i`
stays below it, so that `i++` does not overflow. -/
def strcmpBody (m : Memory) (x y fuel : ℕ) (st : StrcmpState) :
    StrcmpState ⊕ Option (ℕ × List ℕ) :=
  match strlen m x fuel with
  | none => .inr none
  | some (len, counted) =>
    if st.i < len then
      if m (x + st.i) ≠ m (y + st.i) then
        .inr (some (1, st.reads ++ counted ++ [x + st.i, y + st.i]))
      else .inl { i := st.i + 1, reads := st.reads ++ counted ++ [x + st.i, y + st.i] }
    else .inr (some (0, st.reads ++ counted))

/-- `strcmp(x, y)`. C leaves open which `strlen` comes first. -/
def strcmp (m : Memory) (x y fuel : ℕ) : Option (ℕ × List ℕ) :=
  match strlen m x fuel with
  | none => none
  | some (lenX, countedX) =>
    match strlen m y fuel with
    | none => none
    | some (lenY, countedY) =>
      if lenX ≠ lenY then some (1, countedX ++ countedY)
      else (whileRun (strcmpBody m x y fuel) fuel { i := 0, reads := countedX ++ countedY }).join

/-- The bytes of a string; the terminator is 0. -/
abbrev CString := Terminated (0 : BitVec 8)

-- ---------------------------------------------------------------------------
-- `strlen`
-- ---------------------------------------------------------------------------

section Strlen

variable {m : Memory} {p : ℕ} {str : CString}

/-- The loop of `strlen` on a string at `p`: every byte before `pStr` is counted
and has been read. -/
structure Scanned (p : ℕ) (str : CString) (st : StrlenState) : Prop where
  le : st.i ≤ str.length
  ptr : st.pStr = p + st.i
  reads : st.reads = List.range' p st.i

/-- Before the loop nothing is counted. -/
theorem scanned_start (p : ℕ) (str : CString) :
    Scanned p str { i := 0, pStr := p, reads := [] } :=
  ⟨Nat.zero_le _, rfl, rfl⟩

/-- The next pointer is read behind those before. -/
theorem Scanned.reads_next {st : StrlenState} (h : Scanned p str st) :
    st.reads ++ [st.pStr] = List.range' p (st.i + 1) := by
  rw [h.reads, h.ptr, List.range'_1_concat]

/-- Before the terminator the loop goes on. -/
theorem Scanned.next {st : StrlenState} (h : Scanned p str st) (hat : str.At m p)
    (hlen : str.length < 2 ^ 31) (hlt : st.i < str.length) :
    ∃ st', strlenBody m st = .inl st' ∧ st'.i = st.i + 1 ∧ Scanned p str st' := by
  have hbyte : m st.pStr ≠ 0 := by
    rw [h.ptr]
    exact (hat.ne_iff h.le).mpr hlt
  refine ⟨{ i := st.i + 1, pStr := st.pStr + 1, reads := st.reads ++ [st.pStr] }, ?_, rfl, ?_⟩
  · rw [strlenBody, if_pos hbyte, if_neg (by omega)]
  · exact ⟨hlt, by rw [h.ptr, Nat.add_assoc], h.reads_next⟩

/-- At the terminator it leaves. -/
theorem Scanned.done {st : StrlenState} (h : Scanned p str st) (hat : str.At m p)
    (heq : st.i = str.length) :
    strlenBody m st = .inr (some (str.length, List.range' p (str.length + 1))) := by
  have hbyte : ¬ m st.pStr ≠ 0 := by
    rw [h.ptr]
    exact fun hne => absurd ((hat.ne_iff h.le).mp hne) (by omega)
  rw [strlenBody, if_neg hbyte, h.reads_next, heq]

/-- Every round keeps the invariant and comes closer to the terminator, so that
the loop ends. -/
theorem Scanned.step {st st' : StrlenState} (h : Scanned p str st) (hat : str.At m p)
    (hlen : str.length < 2 ^ 31) (hgo : strlenBody m st = .inl st') :
    Scanned p str st' ∧ str.length - st'.i < str.length - st.i := by
  obtain hlt | heq := Nat.lt_or_eq_of_le h.le
  · obtain ⟨next, hnext, hi, hscanned⟩ := h.next hat hlen hlt
    obtain rfl := Sum.inl.inj (hnext.symm.trans hgo)
    exact ⟨hscanned, by omega⟩
  · rw [h.done hat heq] at hgo
    contradiction

/-- **`strlen` of a string is its length**; it reads the bytes and the
terminator, in order and once each. Below `2 ^ 31` bytes the counter does not
overflow. -/
theorem strlen_eq (hat : str.At m p) (hlen : str.length < 2 ^ 31) {fuel : ℕ}
    (hfuel : str.length < fuel) :
    strlen m p fuel = some (str.length, List.range' p (str.length + 1)) := by
  obtain ⟨b, st, hrun, -, hst, hleave⟩ := whileRun_total
    (fun st : StrlenState => str.length - st.i) (scanned_start p str)
    (fun st st' hst hgo => hst.step hat hlen hgo) hfuel
  obtain hlt | heq := Nat.lt_or_eq_of_le hst.le
  · -- the loop does not leave before the terminator
    obtain ⟨next, hnext, -, -⟩ := hst.next hat hlen hlt
    rw [hnext] at hleave
    contradiction
  · obtain rfl := Sum.inr.inj ((hst.done hat heq).symm.trans hleave)
    rw [strlen, hrun]
    rfl

end Strlen

-- ---------------------------------------------------------------------------
-- `strcmp`
-- ---------------------------------------------------------------------------

section Strcmp

variable {m : Memory} {x y : ℕ} {xs ys : CString}

/-- The pointer reaches a byte of the string at `p`, or its terminator. -/
def InString (p : ℕ) (str : CString) (q : ℕ) : Prop := p ≤ q ∧ q ≤ p + str.length

/-- The loop of `strcmp` on strings of one length: the bytes before `i` are
equal, and every pointer read so far is in one of the strings. -/
structure Compared (m : Memory) (x y : ℕ) (xs ys : CString) (st : StrcmpState) : Prop where
  le : st.i ≤ xs.length
  same : ∀ j < st.i, m (x + j) = m (y + j)
  reads : ∀ q ∈ st.reads, InString x xs q ∨ InString y ys q

/-- The pointers read by the end of a round that compares two bytes. -/
def StrcmpState.round (st : StrcmpState) (x y : ℕ) (xs : CString) : List ℕ :=
  st.reads ++ List.range' x (xs.length + 1) ++ [x + st.i, y + st.i]

theorem inString_of_mem {p q : ℕ} {str : CString} (h : q ∈ List.range' p (str.length + 1)) :
    InString p str q := by
  have := List.mem_range'_1.mp h
  exact ⟨this.1, by omega⟩

/-- One round on a string, with the result of `strlen` put in. -/
theorem strcmpBody_eq (hat : xs.At m x) (hlen : xs.length < 2 ^ 31) {fuel : ℕ}
    (hfuel : xs.length < fuel) (y : ℕ) (st : StrcmpState) :
    strcmpBody m x y fuel st =
      if st.i < xs.length then
        if m (x + st.i) ≠ m (y + st.i) then .inr (some (1, st.round x y xs))
        else .inl { i := st.i + 1, reads := st.round x y xs }
      else .inr (some (0, st.reads ++ List.range' x (xs.length + 1))) := by
  rw [strcmpBody, strlen_eq hat hlen hfuel]
  rfl

/-- Before the first round there is nothing to compare; only the two lengths
have been counted. -/
theorem compared_start {reads : List ℕ} (h : ∀ q ∈ reads, InString x xs q ∨ InString y ys q) :
    Compared m x y xs ys { i := 0, reads } :=
  ⟨Nat.zero_le _, fun _ hj => absurd hj (Nat.not_lt_zero _), h⟩

/-- Counting the bound again reads `x` only. -/
theorem Compared.counted {st : StrcmpState} (h : Compared m x y xs ys st) :
    ∀ q ∈ st.reads ++ List.range' x (xs.length + 1), InString x xs q ∨ InString y ys q := by
  intro q hq
  obtain hq | hq := List.mem_append.mp hq
  · exact h.reads q hq
  · exact .inl (inString_of_mem hq)

/-- A round that compares reads a byte of each string as well. -/
theorem Compared.round {st : StrcmpState} (h : Compared m x y xs ys st)
    (hlen : xs.length = ys.length) (hlt : st.i < xs.length) :
    ∀ q ∈ st.round x y xs, InString x xs q ∨ InString y ys q := by
  intro q hq
  obtain hq | hq := List.mem_append.mp hq
  · exact h.counted q hq
  · obtain rfl | hq := List.mem_cons.mp hq
    · exact .inl ⟨by omega, by omega⟩
    · obtain rfl := List.mem_singleton.mp hq
      exact .inr ⟨by omega, by omega⟩

/-- A round that goes on has found a pair of equal bytes: one more byte is
known to be the same, and one less is left to compare. -/
theorem Compared.step {st st' : StrcmpState} {fuel : ℕ} (h : Compared m x y xs ys st)
    (hat : xs.At m x) (hlt31 : xs.length < 2 ^ 31) (hfuel : xs.length < fuel)
    (hlen : xs.length = ys.length) (hgo : strcmpBody m x y fuel st = .inl st') :
    Compared m x y xs ys st' ∧ xs.length - st'.i < xs.length - st.i := by
  rw [strcmpBody_eq hat hlt31 hfuel] at hgo
  by_cases hlt : st.i < xs.length
  · rw [if_pos hlt] at hgo
    by_cases hbyte : m (x + st.i) ≠ m (y + st.i)
    · rw [if_pos hbyte] at hgo
      contradiction
    · rw [if_neg hbyte] at hgo
      obtain rfl := Sum.inl.inj hgo
      refine ⟨⟨hlt, fun j hj => ?_, h.round hlen hlt⟩, by dsimp only; omega⟩
      obtain hj | rfl := Nat.lt_succ_iff_lt_or_eq.mp hj
      · exact h.same j hj
      · exact not_not.mp hbyte
  · rw [if_neg hlt] at hgo
    contradiction

/-- The loop leaves with 1 at a difference and with 0 when there is none. It
compares the bytes below the common length; at the end all of them have been
found equal, which is what the invariant says for the last round. -/
theorem Compared.leave {st : StrcmpState} {fuel : ℕ} {b : Option (ℕ × List ℕ)}
    (h : Compared m x y xs ys st) (hat : xs.At m x) (hlt31 : xs.length < 2 ^ 31)
    (hfuel : xs.length < fuel) (hlen : xs.length = ys.length)
    (hleave : strcmpBody m x y fuel st = .inr b) :
    ∃ r reads, b = some (r, reads) ∧ (r = 0 ↔ ∀ i < xs.length, m (x + i) = m (y + i)) ∧
      ∀ q ∈ reads, InString x xs q ∨ InString y ys q := by
  rw [strcmpBody_eq hat hlt31 hfuel] at hleave
  by_cases hlt : st.i < xs.length
  · rw [if_pos hlt] at hleave
    by_cases hbyte : m (x + st.i) ≠ m (y + st.i)
    · rw [if_pos hbyte] at hleave
      refine ⟨1, _, (Sum.inr.inj hleave).symm, ?_, h.round hlen hlt⟩
      exact iff_of_false (by decide) fun hsame => hbyte (hsame st.i hlt)
    · rw [if_neg hbyte] at hleave
      contradiction
  · rw [if_neg hlt] at hleave
    have hend : st.i = xs.length := Nat.le_antisymm h.le (Nat.not_lt.mp hlt)
    refine ⟨0, _, (Sum.inr.inj hleave).symm, iff_of_true rfl ?_, h.counted⟩
    rw [← hend]
    exact h.same

/-- `strcmp` returns, and compares the strings as a whole: first the lengths,
then the bytes one by one. -/
theorem strcmp_result (hx : xs.At m x) (hy : ys.At m y) (hxlt : xs.length < 2 ^ 31)
    (hylt : ys.length < 2 ^ 31) {fuel : ℕ} (hfx : xs.length < fuel) (hfy : ys.length < fuel) :
    ∃ r reads, strcmp m x y fuel = some (r, reads) ∧ (r = 0 ↔ xs = ys) ∧
      ∀ q ∈ reads, InString x xs q ∨ InString y ys q := by
  have hcounted : ∀ q ∈ List.range' x (xs.length + 1) ++ List.range' y (ys.length + 1),
      InString x xs q ∨ InString y ys q := fun q hq =>
    (List.mem_append.mp hq).imp inString_of_mem inString_of_mem
  rw [strcmp, strlen_eq hx hxlt hfx, strlen_eq hy hylt hfy]
  by_cases hlen : xs.length = ys.length
  · -- of one length: the loop compares the bytes, and the bytes left are its measure
    obtain ⟨b, st, hrun, -, hst, hleave⟩ := whileRun_total
      (fun st : StrcmpState => xs.length - st.i) (compared_start hcounted)
      (fun st st' hst hgo => hst.step hx hxlt hfx hlen hgo) hfx
    obtain ⟨r, reads, rfl, hr, hreads⟩ := hst.leave hx hxlt hfx hlen hleave
    refine ⟨r, reads, ?_, ?_, hreads⟩
    · show (if xs.length ≠ ys.length then _ else _) = _
      rw [if_neg (not_not.mpr hlen), hrun]
      rfl
    · rw [hr, hx.eq_iff_length hy, and_iff_right hlen]
  · -- strings of different lengths are not compared
    refine ⟨1, _, if_pos hlen, ?_, hcounted⟩
    exact iff_of_false (by decide) fun h => hlen (congrArg Terminated.length h)

end Strcmp

/--
**Exact comparison.** `strcmp` of any two strings shorter than 2^31 bytes, in
either order, returns: 0 if they are equal byte for byte up to and including
the terminator, not 0 if they differ, one being a prefix of the other included.
No pointer that it reads through is past either terminator.
-/
theorem strcmp_exact {m : Memory} {x y : ℕ} {xs ys : CString} (hx : xs.At m x) (hy : ys.At m y)
    (hxlt : xs.length < 2 ^ 31) (hylt : ys.length < 2 ^ 31) {fuel : ℕ} (hfx : xs.length < fuel)
    (hfy : ys.length < fuel) :
    ∃ r reads, strcmp m x y fuel = some (r, reads) ∧ (r = 0 ↔ xs = ys) ∧
      (r = 0 ↔ ∀ i ≤ xs.length, m (x + i) = m (y + i)) ∧
      ∀ q ∈ reads, InString x xs q ∨ InString y ys q := by
  obtain ⟨r, reads, hrun, heq, hreads⟩ := strcmp_result hx hy hxlt hylt hfx hfy
  exact ⟨r, reads, hrun, heq, heq.trans (hx.eq_iff hy), hreads⟩

/-- "help" at address 16 and, behind its terminator, its prefix "hel". -/
def helpMemory : Memory := fun q =>
  [0x68, 0x65, 0x6c, 0x70, 0, 0x68, 0x65, 0x6c].getD (q - 16) 0

/-- A word equals itself, and a proper prefix differs from it; the comparison
with the prefix reads inside the two strings, from 16 up to 24. -/
theorem strcmp_exact_help :
    (∃ r reads, strcmp helpMemory 16 16 5 = some (r, reads) ∧ r = 0) ∧
      ∃ r reads, strcmp helpMemory 16 21 5 = some (r, reads) ∧ r ≠ 0 ∧
        ∀ q ∈ reads, 16 ≤ q ∧ q ≤ 24 := by
  let help : CString := ⟨[0x68, 0x65, 0x6c, 0x70], by decide⟩
  let hel : CString := ⟨[0x68, 0x65, 0x6c], by decide⟩
  have hhelp : help.At helpMemory 16 := by unfold Terminated.At; decide
  have hhel : hel.At helpMemory 21 := by unfold Terminated.At; decide
  constructor
  · obtain ⟨r, reads, hrun, heq, -, -⟩ := strcmp_exact hhelp hhelp (by decide) (by decide)
      (show help.length < 5 by decide) (show help.length < 5 by decide)
    exact ⟨r, reads, hrun, heq.mpr rfl⟩
  · obtain ⟨r, reads, hrun, heq, -, hreads⟩ := strcmp_exact hhelp hhel (by decide) (by decide)
      (show help.length < 5 by decide) (show hel.length < 5 by decide)
    refine ⟨r, reads, hrun, ?_, ?_⟩
    · intro hr
      have hlen : 4 = 3 := congrArg Terminated.length (heq.mp hr)
      contradiction
    · intro q hq
      obtain h | h := hreads q hq
      · exact ⟨h.1, Nat.le_trans h.2 (by decide)⟩
      · exact ⟨Nat.le_trans (by decide) h.1, h.2⟩

end Medlar64
