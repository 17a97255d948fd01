import Mathlib.Data.List.GetD
import Mathlib.Logic.Function.Basic
import Medlar64.Printf.Format

/-!
# printf: output gadgets

`output_gadget_t` of `lib/printf.c`: the characters of a format go to a
function or into a buffer, `pos` counts all of them and `max_chars` limits
those that are passed on.

* `putcharViaGadget`, `appendTermination`, `vsnprintfImpl` — as in the source.
* `vsnprintf_eq` — the buffer afterwards: what of the text fits, a terminator,
  and nothing else changed.
* `vfctprintf_eq` — the function is called with the characters in their order.
-/

namespace Printf

/-- `output_gadget_t`; the calls of the function and the bytes at `buffer` are in
`Sink`. -/
structure Gadget where
  /-- `function != NULL` -/
  function : Bool
  /-- `buffer != NULL` -/
  buffer : Bool
  pos : ℕ
  maxChars : ℕ

/-- Where the characters go. -/
structure Sink where
  calls : List (BitVec 8)
  bytes : ℕ → BitVec 8

def Sink.call (s : Sink) (c : BitVec 8) : Sink := { s with calls := s.calls ++ [c] }

def Sink.write (s : Sink) (i : ℕ) (c : BitVec 8) : Sink :=
  { s with bytes := Function.update s.bytes i c }

/-- `gadget->pos++`, an `unsigned`. -/
def Gadget.next (g : Gadget) : Gadget := { g with pos := (g.pos + 1) % 2 ^ 32 }

/-- `putchar_via_gadget` -/
def putcharViaGadget (t : Gadget × Sink) (c : BitVec 8) : Gadget × Sink :=
  let writePos := t.1.pos
  (t.1.next,
    if writePos ≥ t.1.maxChars then t.2
    else if t.1.function then t.2.call c
    else t.2.write writePos c)

/-- `append_termination_with_gadget` -/
def appendTermination (t : Gadget × Sink) : Sink :=
  if t.1.function || t.1.maxChars == 0 then t.2
  else if !t.1.buffer then t.2
  else t.2.write (if t.1.pos < t.1.maxChars then t.1.pos else t.1.maxChars - 1) 0

def discardingGadget : Gadget := ⟨false, false, 0, 0⟩

/-- `buffer_gadget` -/
def bufferGadget (buffer : Bool) (bufferSize : ℕ) : Gadget :=
  if buffer then
    { discardingGadget with
      buffer := true
      maxChars := if bufferSize > maxBufferSize then maxBufferSize else bufferSize }
  else discardingGadget

/-- `function_gadget` -/
def functionGadget : Gadget := { discardingGadget with function := true, maxChars := maxBufferSize }

/-- `vsnprintf_impl`, on what the format prints: the result as an `int`. -/
def vsnprintfImpl (g : Gadget) (s : Sink) (text : List (BitVec 8)) : ℤ × Sink :=
  let t := text.foldl putcharViaGadget (g, s)
  ((BitVec.ofNat 32 t.1.pos).toInt, appendTermination t)

/-- `vsnprintf`; the buffer is not where the format and the strings are. -/
def vsnprintf (buffer : Bool) (n : ℕ) (f : List (BitVec 8)) (args : List Arg)
    (bytes : ℕ → BitVec 8) : Option (ℤ × (ℕ → BitVec 8) × List Store) :=
  match format f args with
  | .done st =>
    let r := vsnprintfImpl (bufferGadget buffer n) ⟨[], bytes⟩ st.out
    some (r.1, r.2.bytes, st.stores)
  | _ => none

/-- `vfctprintf`: the calls of the function. -/
def vfctprintf (f : List (BitVec 8)) (args : List Arg) :
    Option (ℤ × List (BitVec 8) × List Store) :=
  match format f args with
  | .done st =>
    let r := vsnprintfImpl functionGadget ⟨[], fun _ => 0⟩ st.out
    some (r.1, r.2.calls, st.stores)
  | _ => none

-- ---------------------------------------------------------------------------
-- A text through a gadget
-- ---------------------------------------------------------------------------

/-- Bytes with a text from `p` on, as far as it is in front of `limit`. -/
def written (limit p : ℕ) (text : List (BitVec 8)) (bytes : ℕ → BitVec 8) (i : ℕ) : BitVec 8 :=
  if p ≤ i ∧ i < limit then text.getD (i - p) (bytes i) else bytes i

theorem written_nil (limit p : ℕ) (bytes : ℕ → BitVec 8) : written limit p [] bytes = bytes := by
  funext i
  rw [written, List.getD_nil, ite_self]

/-- The first character, and the others behind it: writing a text is writing
its characters one after the other, each at the next place. -/
theorem written_cons (limit p : ℕ) (c : BitVec 8) (text : List (BitVec 8)) (bytes : ℕ → BitVec 8) :
    written limit p (c :: text) bytes =
      written limit (p + 1) text (if p < limit then Function.update bytes p c else bytes) := by
  funext i
  rw [written, written]
  -- the position of the first character, and any other
  by_cases hp : i = p
  · subst hp
    rw [Nat.sub_self, List.getD_cons_zero, if_neg (fun h : i + 1 ≤ i ∧ i < limit => by omega)]
    by_cases hlimit : i < limit
    · rw [if_pos ⟨Nat.le_refl i, hlimit⟩, if_pos hlimit, Function.update_self]
    · rw [if_neg (fun h : i ≤ i ∧ i < limit => hlimit h.2), if_neg hlimit]
  · have hsame : (if p < limit then Function.update bytes p c else bytes) i = bytes i := by
      split
      · exact Function.update_of_ne hp c bytes
      · rfl
    rw [hsame]
    by_cases hin : p + 1 ≤ i ∧ i < limit
    · obtain ⟨k, hk⟩ : ∃ k, i - p = k + 1 := ⟨i - p - 1, by omega⟩
      rw [if_pos hin, if_pos ⟨by omega, hin.2⟩, hk, List.getD_cons_succ]
      congr 1
      omega
    · rw [if_neg hin, if_neg (fun h => hin ⟨by omega, h.2⟩)]

/-- What a text does to the gadget and to the sink. -/
def Gadget.skip (g : Gadget) (k : ℕ) : Gadget := { g with pos := g.pos + k }

def Sink.absorb (s : Sink) (g : Gadget) (text : List (BitVec 8)) : Sink :=
  if g.function then { s with calls := s.calls ++ text.take (g.maxChars - g.pos) }
  else { s with bytes := written g.maxChars g.pos text s.bytes }

theorem Sink.absorb_nil (s : Sink) (g : Gadget) : s.absorb g [] = s := by
  rw [Sink.absorb, List.take_nil, List.append_nil, written_nil]
  cases g.function <;> rfl

/-- What the sink takes of a text is what it takes of the first character,
and then of the others. At the limit neither a function nor a buffer gets
any more. -/
theorem Sink.absorb_cons (s : Sink) (g : Gadget) (c : BitVec 8) (text : List (BitVec 8)) :
    s.absorb g (c :: text) =
      Sink.absorb (putcharViaGadget (g, s) c).2 (g.skip 1) text := by
  show _ = Sink.absorb (if g.pos ≥ g.maxChars then s else if g.function then s.call c
    else s.write g.pos c) (g.skip 1) text
  rw [Sink.absorb, Sink.absorb]
  cases hfunction : g.function with
  -- a call for the character, while there are characters left
  | true =>
    rw [show (g.skip 1).function = true from hfunction, if_pos rfl, if_pos rfl, if_pos rfl]
    by_cases hfull : g.pos ≥ g.maxChars
    · rw [if_pos hfull, show g.maxChars - g.pos = 0 by omega,
        show (g.skip 1).maxChars - (g.skip 1).pos = 0 from
          Nat.sub_eq_zero_of_le (Nat.le_succ_of_le hfull)]
      rfl
    · obtain ⟨k, hk⟩ : ∃ k, g.maxChars - g.pos = k + 1 := ⟨g.maxChars - g.pos - 1, by omega⟩
      have hk' : (g.skip 1).maxChars - (g.skip 1).pos = k := by
        show g.maxChars - (g.pos + 1) = k
        omega
      rw [if_neg hfull, hk, hk', List.take_succ_cons, Sink.call, List.append_assoc]
      rfl
  | false =>
    rw [show (g.skip 1).function = false from hfunction, if_neg Bool.false_ne_true,
      if_neg Bool.false_ne_true, if_neg Bool.false_ne_true, written_cons]
    by_cases hfull : g.pos ≥ g.maxChars
    · rw [if_pos hfull, if_neg (by omega)]
      rfl
    · rw [if_neg hfull, if_pos (by omega)]
      rfl

/-- A whole text is passed on as one: `pos` is moved by its length, and the
sink takes what the limit leaves. By induction on the text, from any
position. -/
theorem putcharViaGadget_run (text : List (BitVec 8)) (g : Gadget) (s : Sink)
    (hsmall : g.pos + text.length < 2 ^ 32) :
    text.foldl putcharViaGadget (g, s) = (g.skip text.length, s.absorb g text) := by
  induction text generalizing g s with
  | nil =>
    rw [Sink.absorb_nil]
    rfl
  | cons c text ih =>
    rw [List.length_cons] at hsmall
    -- `pos` is far from 2^32, so it does not wrap
    have hnext : (putcharViaGadget (g, s) c).1 = g.skip 1 := by
      show ({ g with pos := (g.pos + 1) % 2 ^ 32 } : Gadget) = _
      rw [Nat.mod_eq_of_lt (by omega)]
      rfl
    have hskip : (g.skip 1).skip text.length = g.skip (c :: text).length := by
      show ({ g with pos := g.pos + 1 + text.length } : Gadget) = _
      rw [Nat.add_assoc, Nat.add_comm 1]
      rfl
    have hpair : putcharViaGadget (g, s) c = (g.skip 1, (putcharViaGadget (g, s) c).2) := by
      rw [← hnext]
    have hmore : (g.skip 1).pos + text.length < 2 ^ 32 := by
      show g.pos + 1 + text.length < 2 ^ 32
      omega
    rw [List.foldl_cons, hpair, ih (g.skip 1) _ hmore, hskip, Sink.absorb_cons]

-- ---------------------------------------------------------------------------
-- Buffers
-- ---------------------------------------------------------------------------

/-- What `snprintf` is for: the text, cut off where the buffer ends, and a
terminator behind it. -/
def bounded (size : ℕ) (text : List (BitVec 8)) (bytes : ℕ → BitVec 8) (i : ℕ) : BitVec 8 :=
  if size = 0 then bytes i
  else if i < min text.length (size - 1) then text.getD i 0
  else if i = min text.length (size - 1) then 0
  else bytes i

/-- A count below `2^31` is the `int` that is returned for it. -/
theorem toInt_ofNat {n : ℕ} (h : n < 2 ^ 31) : (BitVec.ofNat 32 n).toInt = n := by
  rw [BitVec.toInt_eq_toNat_of_lt]
  · rw [BitVec.toNat_ofNat, Nat.mod_eq_of_lt (by omega)]
  · rw [BitVec.toNat_ofNat, Nat.mod_eq_of_lt (by omega)]
    omega

/-- A buffer of `size` characters. -/
def sizedGadget (size : ℕ) : Gadget := ⟨false, true, 0, size⟩

/-- A buffer larger than `PRINTF_MAX_POSSIBLE_BUFFER_SIZE` is taken for one of
that size. -/
theorem bufferGadget_eq (n : ℕ) : bufferGadget true n = sizedGadget (min n maxBufferSize) := by
  have hsize : (if n > maxBufferSize then maxBufferSize else n) = min n maxBufferSize := by
    split <;> omega
  rw [sizedGadget, ← hsize]
  rfl

/-- The text and the terminator in the buffer. There is no terminator in a
buffer of no bytes; in any other it is behind the text or in the last byte. -/
theorem terminated_eq (size : ℕ) (text : List (BitVec 8)) (bytes : ℕ → BitVec 8) :
    (appendTermination ((sizedGadget size).skip text.length,
      Sink.absorb ⟨[], bytes⟩ (sizedGadget size) text)).bytes = bounded size text bytes := by
  have habsorb : Sink.absorb ⟨[], bytes⟩ (sizedGadget size) text =
      ⟨[], written size 0 text bytes⟩ := rfl
  rw [habsorb]
  show Sink.bytes (if false || size == 0 then _ else if !true then _ else
    Sink.write _ (if 0 + text.length < size then 0 + text.length else size - 1) 0) = _
  by_cases hsize : size = 0
  · -- nothing is written, no terminator either
    subst hsize
    rw [if_pos (by rfl)]
    funext i
    rw [bounded, if_pos rfl]
    show (if 0 ≤ i ∧ i < 0 then text.getD (i - 0) (bytes i) else bytes i) = bytes i
    exact if_neg fun h => Nat.not_lt_zero i h.2
  · have hplace : (if 0 + text.length < size then 0 + text.length else size - 1) =
        min text.length (size - 1) := by
      split <;> omega
    rw [if_neg (by simpa using hsize), if_neg (show ¬(!true) = true from Bool.false_ne_true),
      hplace]
    funext i
    show Function.update (written size 0 text bytes) (min text.length (size - 1)) 0 i = _
    rw [bounded, if_neg hsize, Function.update_apply, written, Nat.sub_zero]
    -- the text that fits, the terminator, and the bytes behind them
    by_cases hi : i < min text.length (size - 1)
    · rw [if_neg (by omega), if_pos ⟨Nat.zero_le i, by omega⟩, if_pos hi,
        List.getD_eq_getElem _ _ (by omega), List.getD_eq_getElem _ _ (by omega)]
    · rw [if_neg hi]
      by_cases hterminator : i = min text.length (size - 1)
      · rw [if_pos hterminator, if_pos hterminator]
      · rw [if_neg hterminator, if_neg hterminator]
        split
        case isTrue hin =>
          exact List.getD_eq_default _ _ (by omega)
        case isFalse => rfl

/-- **`vsnprintf` keeps to its buffer.** The result is the length of the whole
text, whether it fits or not. -/
theorem vsnprintf_eq {f : List (BitVec 8)} {args : List Arg} {st : State}
    (hdone : format f args = .done st) (hshort : st.out.length < 2 ^ 31) (n : ℕ)
    (bytes : ℕ → BitVec 8) :
    vsnprintf true n f args bytes =
      some ((st.out.length : ℤ), bounded (min n maxBufferSize) st.out bytes, st.stores) := by
  have hrun := putcharViaGadget_run st.out (sizedGadget (min n maxBufferSize)) ⟨[], bytes⟩
    (by show 0 + st.out.length < _; omega)
  have hlength : (BitVec.ofNat 32 ((sizedGadget (min n maxBufferSize)).skip
      st.out.length).pos).toInt = st.out.length := by
    show (BitVec.ofNat 32 (0 + st.out.length)).toInt = _
    rw [Nat.zero_add, toInt_ofNat hshort]
  rw [vsnprintf, hdone]
  show some
    ((BitVec.ofNat 32 (List.foldl putcharViaGadget (bufferGadget true n, _) st.out).1.pos).toInt,
    (appendTermination (List.foldl putcharViaGadget (bufferGadget true n, _) st.out)).bytes, _) = _
  rw [bufferGadget_eq, hrun, terminated_eq, hlength]

-- ---------------------------------------------------------------------------
-- Functions
-- ---------------------------------------------------------------------------

/-- **The function is called with the characters in their order**, all of them
for a text that is not longer than the largest buffer. -/
theorem vfctprintf_eq {f : List (BitVec 8)} {args : List Arg} {st : State}
    (hdone : format f args = .done st) (hshort : st.out.length < 2 ^ 31) :
    vfctprintf f args = some ((st.out.length : ℤ), st.out, st.stores) := by
  have hrun := putcharViaGadget_run st.out functionGadget ⟨[], fun _ => 0⟩
    (by show 0 + st.out.length < _; omega)
  have hlength : (BitVec.ofNat 32 (functionGadget.skip st.out.length).pos).toInt =
      st.out.length := by
    show (BitVec.ofNat 32 (0 + st.out.length)).toInt = _
    rw [Nat.zero_add, toInt_ofNat hshort]
  have hcalls : (Sink.absorb ⟨[], fun _ => 0⟩ functionGadget st.out).calls = st.out := by
    show [] ++ st.out.take (maxBufferSize - 0) = _
    rw [List.nil_append, List.take_of_length_le (by rw [maxBufferSize]; omega)]
  rw [vfctprintf, hdone]
  show some ((BitVec.ofNat 32 (List.foldl putcharViaGadget (functionGadget, _) st.out).1.pos).toInt,
    (appendTermination (List.foldl putcharViaGadget (functionGadget, _) st.out)).calls, _) = _
  rw [hrun, hlength]
  show some (_, (Sink.absorb ⟨[], fun _ => 0⟩ functionGadget st.out).calls, _) = _
  rw [hcalls]

/-- `snprintf(s, 4, "%u!", 12345)`: the result is 6, three characters and a
terminator are in the buffer, and the byte behind them is not touched. -/
theorem vsnprintf_eq_cut : ∃ bytes, vsnprintf true 4 ("%u!".toList.map byte ++ [0]) [⟨12345#64, []⟩]
    (fun _ => 0xff) = some (6, bytes, []) ∧ bytes 2 = byte '3' ∧ bytes 3 = 0 ∧ bytes 4 = 0xff := by
  have hdone : format ("%u!".toList.map byte ++ [0]) [⟨12345#64, []⟩] =
      .done ⟨"12345!".toList.map byte, [], []⟩ := by
    rfl
  refine ⟨_, vsnprintf_eq hdone (by decide) 4 _, ?_, ?_, ?_⟩
  · rfl
  · rfl
  · rfl

end Printf
