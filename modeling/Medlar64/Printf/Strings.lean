import Mathlib.Data.List.TakeWhile
import Medlar64.Printf.Integers

/-!
# printf: strings

What the conversion `s` prints and how many bytes it reads for it. With a
precision other than 0 at most one byte more than the precision is read;
without one, or with the precision 0, there has to be a terminator.

* `printString_eq` — the text of a string, and when there are bytes enough.
* `stringText_eq` — the conversion `s`.
-/

namespace Printf

/-- The characters before the terminator. -/
def contents (bytes : List (BitVec 8)) : List (BitVec 8) := bytes.takeWhile (· ≠ 0)

/-- A character that is not the terminator is part of the string. -/
theorem contents_cons {c : BitVec 8} (hc : c ≠ 0) (cs : List (BitVec 8)) :
    contents (c :: cs) = c :: contents cs := by
  rw [contents, List.takeWhile_cons_of_pos (by simpa using hc)]
  rfl

theorem contents_zero (cs : List (BitVec 8)) : contents (0 :: cs) = [] := rfl

/-- Without a terminator all bytes are part of it. -/
theorem contents_of_not_mem {bytes : List (BitVec 8)} (h : 0 ∉ bytes) : contents bytes = bytes := by
  refine List.takeWhile_eq_self_iff.mpr ?_
  intro c hc
  have hne : c ≠ 0 := fun hzero => h (hzero ▸ hc)
  simpa using hne

/-- What stands in front of the first terminator is the string. -/
theorem contents_append {line : List (BitVec 8)} (h : 0 ∉ line) (rest : List (BitVec 8)) :
    contents (line ++ 0 :: rest) = line := by
  induction line with
  | nil => rfl
  | cons c line ih =>
    rw [List.mem_cons, not_or] at h
    rw [List.cons_append, contents_cons (Ne.symm h.1), ih h.2]

/-- At the terminator or the limit, enough has been read. -/
theorem reads_stop {c : BitVec 8} {limit : ℕ} (h : c = 0 ∨ limit = 0) (cs : List (BitVec 8)) :
    0 ∈ c :: cs ∨ limit < (c :: cs).length := by
  rcases h with rfl | rfl
  · exact Or.inl List.mem_cons_self
  · exact Or.inr (Nat.succ_pos _)

/-- Before both, one character less is to be read. -/
theorem reads_cons {c : BitVec 8} {limit : ℕ} (hc : c ≠ 0) (hlimit : limit ≠ 0)
    (cs : List (BitVec 8)) :
    (0 ∈ c :: cs ∨ limit < (c :: cs).length) ↔ (0 ∈ cs ∨ limit - 1 < cs.length) := by
  rw [List.mem_cons, or_iff_right (Ne.symm hc), List.length_cons]
  exact or_congr_right (by omega)

/-- The length, and whether the bytes are enough to find it. By induction on
the bytes: the loop reads one of them in every round, and stops at the
terminator or after `maxsize`, which is tested behind the read. -/
theorem strnlen_eq (bytes : List (BitVec 8)) (maxsize : ℕ) :
    strnlen bytes maxsize =
      if 0 ∈ bytes ∨ maxsize < bytes.length then some (min (contents bytes).length maxsize)
      else none := by
  induction bytes generalizing maxsize with
  | nil => rfl
  | cons c cs ih =>
    rw [strnlen]
    -- the loop stops at a zero, or when `maxsize` is used up
    split
    case isTrue hstop =>
      rw [if_pos (reads_stop hstop cs)]
      rcases hstop with rfl | rfl
      · rw [contents_zero, List.length_nil, Nat.zero_min]
      · rw [Nat.min_zero]
    case isFalse hmore =>
      have hc : c ≠ 0 := fun hzero => hmore (Or.inl hzero)
      have hsize : maxsize ≠ 0 := fun hzero => hmore (Or.inr hzero)
      have hcond := reads_cons hc hsize cs
      rw [ih, contents_cons hc]
      -- one byte more to read, and one to count
      by_cases hread : 0 ∈ cs ∨ maxsize - 1 < cs.length
      · rw [if_pos hread, if_pos (hcond.mpr hread), Option.map_some, List.length_cons]
        congr 1
        omega
      · rw [if_neg hread, if_neg (fun h => hread (hcond.mp h))]
        rfl

/-- Without a limit the loop needs the terminator. By induction on the bytes:
it prints each one that is none. -/
theorem stringLoop_none (bytes : List (BitVec 8)) :
    stringLoop bytes none = if 0 ∈ bytes then some (contents bytes) else none := by
  induction bytes with
  | nil => rfl
  | cons c cs ih =>
    rw [stringLoop]
    by_cases hc : c = 0
    · subst hc
      rw [if_pos (Or.inl rfl), if_pos List.mem_cons_self, contents_zero]
    · have hmem : 0 ∈ c :: cs ↔ 0 ∈ cs := by
        rw [List.mem_cons]
        exact or_iff_right (Ne.symm hc)
      rw [if_neg (by simpa using hc), Option.map_none, ih, contents_cons hc]
      by_cases hread : 0 ∈ cs
      · rw [if_pos hread, if_pos (hmem.mpr hread), Option.map_some]
      · rw [if_neg hread, if_neg (fun h => hread (hmem.mp h)), Option.map_none]

/-- The loop with a limit prints the string up to the limit, and it reads one
byte behind what it prints. By induction on the bytes. -/
theorem stringLoop_some (bytes : List (BitVec 8)) (limit : ℕ) :
    stringLoop bytes (some limit) =
      if 0 ∈ bytes ∨ limit < bytes.length then some ((contents bytes).take limit) else none := by
  induction bytes generalizing limit with
  | nil => rfl
  | cons c cs ih =>
    rw [stringLoop]
    by_cases hstop : c = 0 ∨ limit = 0
    · rw [if_pos (hstop.imp id (congrArg some)), if_pos (reads_stop hstop cs)]
      rcases hstop with rfl | rfl
      · rw [contents_zero, List.take_nil]
      · rw [List.take_zero]
    · have hc : c ≠ 0 := fun hzero => hstop (Or.inl hzero)
      have hlimit : limit ≠ 0 := fun hzero => hstop (Or.inr hzero)
      have hcond := reads_cons hc hlimit cs
      obtain ⟨n, rfl⟩ := Nat.exists_eq_succ_of_ne_zero hlimit
      rw [if_neg (by simpa using hc), Option.map_some, ih, contents_cons hc]
      by_cases hread : 0 ∈ cs ∨ n + 1 - 1 < cs.length
      · rw [if_pos hread, if_pos (hcond.mpr hread)]
        rfl
      · rw [if_neg hread, if_neg (fun h => hread (hcond.mp h))]
        rfl

/-- The padding of a string is that of a number. -/
theorem padded_eq_justified (width : ℕ) (flags : Flags) (text : List (BitVec 8)) :
    padded text.length width flags text = justified flags.left width text := by
  rw [padded, justified]
  cases flags.left with
  | true => rfl
  | false => exact List.append_nil _

/-- There are bytes enough for the conversion. -/
def Enough (bytes : List (BitVec 8)) (precision : ℕ) : Prop :=
  0 ∈ bytes ∨ 0 < precision ∧ precision < bytes.length

instance (bytes : List (BitVec 8)) (precision : ℕ) : Decidable (Enough bytes precision) :=
  inferInstanceAs (Decidable (_ ∨ _))

/-- The length is found if there are bytes enough. -/
theorem enough_iff {bytes : List (BitVec 8)} (hlong : (contents bytes).length ≤ maxBufferSize)
    (precision : ℕ) :
    0 ∈ bytes ∨ (if precision ≠ 0 then precision else maxBufferSize) < bytes.length ↔
      Enough bytes precision := by
  rw [Enough]
  by_cases hmem : 0 ∈ bytes
  · exact iff_of_true (Or.inl hmem) (Or.inl hmem)
  · rw [or_iff_right hmem, or_iff_right hmem]
    rw [contents_of_not_mem hmem] at hlong
    split <;> omega

/-- The text of a string. Both loops look for the terminator, the first to know
the length for the padding; with a precision they stop after so many
characters. -/
theorem printString_eq {bytes : List (BitVec 8)} {precision width : ℕ} {flags : Flags}
    (hprecision : flags.precision = false → precision = 0)
    (hlong : (contents bytes).length ≤ maxBufferSize) :
    printString bytes precision width flags =
      if Enough bytes precision then
        some (justified flags.left width
          (if flags.precision then (contents bytes).take precision else contents bytes))
      else none := by
  rw [printString, strnlen_eq]
  by_cases henough : Enough bytes precision
  · rw [if_pos ((enough_iff hlong precision).mpr henough), if_pos henough]
    cases hgiven : flags.precision with
    -- without a precision the string is read up to its terminator
    | false =>
      have hzero := hprecision hgiven
      have hmem : 0 ∈ bytes := henough.resolve_right (by omega)
      show (stringLoop bytes none >>= fun chars => some (padded
        (min (contents bytes).length (if precision ≠ 0 then _ else _)) width flags chars)) = _
      rw [stringLoop_none, if_pos hmem, hzero, if_neg (by omega), Nat.min_eq_left hlong]
      exact congrArg some (padded_eq_justified width flags _)
    -- with one, `strnlen_s_` and the loop stop at the same place
    | true =>
      have hread : 0 ∈ bytes ∨ precision < bytes.length := henough.imp id And.right
      have hlength : min (min (contents bytes).length
          (if precision ≠ 0 then precision else maxBufferSize)) precision =
          ((contents bytes).take precision).length := by
        rw [List.length_take]
        split <;> omega
      show (stringLoop bytes (some precision) >>= fun chars => some (padded
        (min (min (contents bytes).length (if precision ≠ 0 then _ else _)) precision) width flags
          chars)) = _
      rw [stringLoop_some, if_pos hread, hlength]
      exact congrArg some (padded_eq_justified width flags _)
  · rw [if_neg fun h => henough ((enough_iff hlong precision).mp h), if_neg henough]
    rfl

/-- `(null)` -/
def nullText : List (BitVec 8) := ['(', 'n', 'u', 'l', 'l', ')'].map byte

/-- **The conversion `s`.** The text is the string up to its terminator or to
the precision, in its field; the bytes are enough if there is a terminator or more
bytes than the precision. A null pointer prints `(null)`, whatever the precision
is, and without padding if there is the flag `0` and not `-`. -/
theorem stringText_eq {a : Arg} {precision width : ℕ} {flags : Flags}
    (hprecision : flags.precision = false → precision = 0)
    (hlong : (contents a.bytes).length ≤ maxBufferSize) :
    stringText a precision width flags =
      if a.word = 0 then
        some (if !flags.left && flags.zeropad then nullText
          else justified flags.left width nullText)
      else if Enough a.bytes precision then
        some (justified flags.left width
          (if flags.precision then (contents a.bytes).take precision else contents a.bytes))
      else none := by
  rw [stringText, printString_eq hprecision hlong]
  split
  case isTrue hnull =>
    rw [outRev, justified]
    cases flags.left with
    | true => rfl
    | false =>
      cases flags.zeropad with
      | true => rfl
      | false => exact congrArg some (List.append_nil _)
  case isFalse => rfl

/-- `%-6.3s` of `help`: the first three characters, and three spaces behind
them. -/
theorem stringText_eq_help :
    stringText ⟨0x1000#64, "help".toList.map byte ++ [0]⟩ 3 6 { left := true, precision := true } =
      some ("hel   ".toList.map byte) := by
  have htext := @stringText_eq ⟨0x1000#64, "help".toList.map byte ++ [0]⟩ 3 6
    { left := true, precision := true } (fun hmissing => Bool.noConfusion hmissing)
    (by rw [maxBufferSize]; decide)
  rw [htext]
  rfl

end Printf
