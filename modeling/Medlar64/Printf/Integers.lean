import Mathlib.Data.Nat.Digits.Lemmas
import Medlar64.Printf.Format

/-!
# printf: integers

What the conversions `d`, `i`, `u`, `x`, `X` and `o` print, compared with the text
that the C standard asks for: `standardText`, over the digits of the number.

* `digitLoop_eq` — the loop of `print_integer` finds the digits.
* `printInteger_standard` — the text is that of the standard whenever it fits
  into the buffer.
* `integerText_standard` — the same for the conversions.
-/

namespace Printf

variable {base precision width : ℕ} {flags : Flags}

-- ---------------------------------------------------------------------------
-- The text of the standard
-- ---------------------------------------------------------------------------

/-- The digits of a number, the highest first. -/
def numeral (base : ℕ) (uppercase : Bool) (value : ℕ) : List (BitVec 8) :=
  ((Nat.digits base value).map (digitChar uppercase)).reverse

/-- The digits with the zeros of the precision; a missing precision is 1. -/
def preciseDigits (base precision : ℕ) (flags : Flags) (value : ℕ) : List (BitVec 8) :=
  let digits := numeral base flags.uppercase value
  List.replicate ((if flags.precision then precision else 1) - digits.length) (byte '0') ++ digits

/-- With `#` an octal number begins with a zero. -/
def standardDigits (base precision : ℕ) (flags : Flags) (value : ℕ) : List (BitVec 8) :=
  let digits := preciseDigits base precision flags value
  if base = 8 ∧ flags.hash = true ∧ digits.head? ≠ some (byte '0') then byte '0' :: digits
  else digits

def standardSign (negative : Bool) (flags : Flags) : List (BitVec 8) :=
  if negative then [byte '-'] else if flags.plus then [byte '+']
  else if flags.space then [byte ' '] else []

/-- With `#` a hexadecimal number other than 0 has a prefix. -/
def standardPrefix (base : ℕ) (flags : Flags) (value : ℕ) : List (BitVec 8) :=
  if base = 16 ∧ flags.hash = true ∧ value ≠ 0 then
    [byte '0', if flags.uppercase then byte 'X' else byte 'x']
  else []

/-- Sign, prefix, the zeros that fill the width, digits. -/
def standardCore (value : ℕ) (negative : Bool) (base precision width : ℕ) (flags : Flags) :
    List (BitVec 8) :=
  let sign := standardSign negative flags
  let start := standardPrefix base flags value
  let digits := standardDigits base precision flags value
  sign ++ start ++ List.replicate
    (if !flags.left && flags.zeropad then width - (sign.length + start.length + digits.length)
    else 0) (byte '0') ++ digits

/-- Spaces fill the width on the left, or with `-` on the right. -/
def justified (left : Bool) (width : ℕ) (core : List (BitVec 8)) : List (BitVec 8) :=
  if left then core ++ spaces width core.length else spaces width core.length ++ core

def standardText (value : ℕ) (negative : Bool) (base precision width : ℕ) (flags : Flags) :
    List (BitVec 8) :=
  justified flags.left width (standardCore value negative base precision width flags)

-- ---------------------------------------------------------------------------
-- Digits
-- ---------------------------------------------------------------------------

/-- The loop finds the digits, the lowest first. -/
theorem digitLoop_eq (hbase : 2 ≤ base) (uppercase : Bool) {n value : ℕ} (hvalue : value ≠ 0) :
    digitLoop base uppercase n value =
      ((Nat.digits base value).take n).map (digitChar uppercase) := by
  induction n generalizing value with
  | zero => rfl
  | succ n ih =>
    rw [digitLoop, Nat.digits_def' hbase (Nat.pos_of_ne_zero hvalue), List.take_succ_cons,
      List.map_cons]
    congr 1
    split
    case isTrue hzero => rw [hzero, Nat.digits_zero, List.take_nil, List.map_nil]
    case isFalse hmore => exact ih hmore

/-- Among the digits only that of 0 is printed as `0`. -/
theorem digitChar_eq_zero {uppercase : Bool} {d : ℕ} (hd : d < 16)
    (h : digitChar uppercase d = byte '0') : d = 0 := by
  have hall : ∀ u : Bool, ∀ d < 16, digitChar u d = byte '0' → d = 0 := by
    decide
  exact hall uppercase d hd h

/-- The highest digit is not 0. -/
theorem head_numeral (hbase : 2 ≤ base) (hle : base ≤ 16) (uppercase : Bool) (value : ℕ) :
    (numeral base uppercase value).head? ≠ some (byte '0') := by
  intro hzero
  rw [numeral, List.head?_reverse, List.getLast?_map, Option.map_eq_some_iff] at hzero
  obtain ⟨d, hd, hchar⟩ := hzero
  have hmem : d ∈ Nat.digits base value := List.mem_of_getLast? hd
  have hne : Nat.digits base value ≠ [] := List.ne_nil_of_mem hmem
  have hlast : (Nat.digits base value).getLast hne = d :=
    Option.some.inj ((List.getLast?_eq_some_getLast hne).symm.trans hd)
  have hlt : d < 16 := lt_of_lt_of_le (Nat.digits_lt_base hbase hmem) hle
  refine Nat.getLast_digit_ne_zero base (Nat.digits_ne_nil_iff_ne_zero.mp hne) ?_
  rw [hlast]
  exact digitChar_eq_zero hlt hchar

-- ---------------------------------------------------------------------------
-- The buffer
-- ---------------------------------------------------------------------------

/-- How the conversions set the flags. -/
structure Sound (flags : Flags) (precision : ℕ) : Prop where
  pointer : flags.pointer = false
  zeropad : flags.precision = true → flags.zeropad = false
  precision : flags.precision = false → precision = 0

/-- Below the end of the buffer `padZeros` adds the zeros that are asked for. -/
theorem padZeros_of_le {len : ℕ} (hlen : len ≤ bufferSize) (buf : List (BitVec 8)) :
    padZeros len buf = buf ++ List.replicate (len - buf.length) (byte '0') := by
  rw [padZeros, Nat.min_eq_left hlen]

/-- The number of zeros in front of `len` characters. -/
def zeroCount (precision width : ℕ) (flags : Flags) (len : ℕ) : ℕ :=
  if !flags.left && flags.zeropad then width - len else precision - len

/-- The zeros of the precision and those of the `0` flag are never both there,
so one count stands for them. -/
theorem withZeros_eq (h : Sound flags precision) (hprecision : precision ≤ bufferSize)
    (hwidth : (!flags.left && flags.zeropad) = true → width ≤ bufferSize) (buf : List (BitVec 8)) :
    withZeros precision width flags buf =
      buf ++ List.replicate (zeroCount precision width flags buf.length) (byte '0') := by
  rw [withZeros, zeroCount, padZeros_of_le hprecision]
  cases hfill : !flags.left && flags.zeropad with
  | false => rfl
  | true =>
    -- the zeros fill the width, and there is no precision
    have hzero : precision = 0 := by
      refine h.precision ?_
      cases hgiven : flags.precision with
      | false => rfl
      | true => simp [h.zeropad hgiven] at hfill
    rw [if_pos rfl, if_pos rfl, padZeros_of_le (hwidth hfill), hzero, Nat.zero_sub,
      List.replicate_zero, List.append_nil]

/-- A character goes behind the others while there is room in the buffer. -/
theorem push_eq {buf : List (BitVec 8)} (hroom : buf.length < bufferSize) (c : BitVec 8) :
    push c buf = buf ++ [c] := if_pos hroom

/-- The sign in the buffer is that of the standard, and it is one character at
most. -/
theorem pushSign_eq (negative : Bool) (flags : Flags) {buf : List (BitVec 8)}
    (hroom : buf.length + (standardSign negative flags).length ≤ bufferSize) :
    pushSign negative flags buf = buf ++ standardSign negative flags := by
  rw [pushSign]
  rw [standardSign] at hroom ⊢
  split
  · rename_i hsign
    rw [if_pos hsign] at hroom
    exact push_eq hroom _
  · rename_i hsign
    rw [if_neg hsign] at hroom
    split
    · rename_i hplus
      rw [if_pos hplus] at hroom
      exact push_eq hroom _
    · rename_i hplus
      rw [if_neg hplus] at hroom
      split
      · rename_i hspace
        rw [if_pos hspace] at hroom
        exact push_eq hroom _
      · exact (List.append_nil _).symm

theorem reverse_sign (negative : Bool) (flags : Flags) :
    (standardSign negative flags).reverse = standardSign negative flags := by
  rw [standardSign]
  split_ifs <;> rfl

/-- Where zeros fill the width, the sign takes its part. -/
theorem widthLeft_eq (negative : Bool) (width : ℕ) (flags : Flags) :
    widthLeft negative width flags =
      if !flags.left && flags.zeropad then width - (standardSign negative flags).length
      else width := by
  rw [widthLeft, standardSign]
  cases flags.left <;> cases flags.zeropad <;> cases negative <;> cases flags.plus <;>
    cases flags.space <;> simp <;> omega

/-- The buffer is printed from its end. -/
theorem outRev_eq {buf : List (BitVec 8)} {w : ℕ}
    (hwidth : (!flags.left && flags.zeropad) = false → w = width)
    (hfilled : (!flags.left && flags.zeropad) = true → width ≤ buf.length) :
    outRev buf w flags = justified flags.left width buf.reverse := by
  rw [outRev, justified, List.length_reverse]
  cases hleft : flags.left with
  | true =>
    rw [hwidth (by simp [hleft])]
    simp
  | false =>
    cases hzero : flags.zeropad with
    | true =>
      have hnone : spaces width buf.length = [] := by
        rw [spaces, Nat.sub_eq_zero_of_le (hfilled (by simp [hleft, hzero]))]
        rfl
      simp [hnone]
    | false =>
      rw [hwidth (by simp [hzero])]
      simp

/-- The buffer with its zeros, of which there are `k`: those of the precision,
or those that fill the width when the `0` flag asks for them. The sign takes
one column of the width before they are counted. -/
theorem padded_eq (h : Sound flags precision) (buf : List (BitVec 8)) (negative : Bool)
    (width : ℕ) {k : ℕ}
    (hk : k = zeroCount precision (width - (standardSign negative flags).length) flags buf.length)
    (hfits : k + buf.length ≤ bufferSize) :
    withZeros precision (widthLeft negative width flags) flags buf =
      buf ++ List.replicate k (byte '0') := by
  rw [zeroCount] at hk
  rw [widthLeft_eq]
  cases hfill : !flags.left && flags.zeropad with
  | true =>
    rw [hfill, if_pos rfl] at hk
    have hzero : precision = 0 := by
      refine h.precision ?_
      cases hgiven : flags.precision with
      | false => rfl
      | true => simp [h.zeropad hgiven] at hfill
    rw [if_pos rfl, withZeros_eq h (hzero ▸ Nat.zero_le _) (fun _ => by omega), zeroCount, hfill,
      if_pos rfl, hk]
  | false =>
    rw [hfill, if_neg Bool.false_ne_true] at hk
    rw [if_neg Bool.false_ne_true,
      withZeros_eq h (by omega) (fun htrue => by simp [hfill] at htrue),
      zeroCount, hfill, if_neg Bool.false_ne_true, hk]

/-- The end of `print_integer_finalization`: the sign goes into the buffer,
behind the digits and zeros, and everything is printed from its end. What is
left of the width is filled with spaces, unless zeros have filled it. -/
theorem printed_eq (negative : Bool) (width : ℕ) {whole : List (BitVec 8)}
    (hroom : whole.length + (standardSign negative flags).length ≤ bufferSize)
    (hfilled : (!flags.left && flags.zeropad) = true →
      width ≤ whole.length + (standardSign negative flags).length) :
    outRev (pushSign negative flags whole) (widthLeft negative width flags) flags =
      justified flags.left width (standardSign negative flags ++ whole.reverse) := by
  rw [pushSign_eq negative flags hroom, outRev_eq, List.reverse_append,
    reverse_sign]
  · intro hplain
    rw [widthLeft_eq, hplain, if_neg Bool.false_ne_true]
  · intro hfill
    rw [List.length_append]
    exact hfilled hfill

/-- **Without a prefix.** The buffer holds the digits from the last one on,
then come zeros and sign, and it is printed from behind. An octal number that
was padded has its zero already. -/
theorem finalization_plain (h : Sound flags precision) {buf : List (BitVec 8)} (negative : Bool)
    (base width : ℕ) {k : ℕ}
    (hk : k = zeroCount precision (width - (standardSign negative flags).length) flags buf.length)
    (hhash : (flags.hash && !(base == 8 && decide (0 < k))) = false)
    (hfits : (standardSign negative flags).length + k + buf.length ≤ bufferSize) :
    finalization buf negative base precision width flags =
      justified flags.left width
        (standardSign negative flags ++ List.replicate k (byte '0') ++ buf.reverse) := by
  -- an octal number that was padded has its zero already
  have hlonger : buf.length < (buf ++ List.replicate k (byte '0')).length ↔ 0 < k := by
    rw [List.length_append, List.length_replicate]
    omega
  rw [finalization, padded_eq h buf negative width hk (by omega)]
  simp only [hlonger, hhash, h.pointer, Bool.or_self, Bool.false_eq_true, if_false]
  rw [printed_eq negative width, List.reverse_append, List.reverse_replicate, List.append_assoc]
  · rw [List.length_append, List.length_replicate]
    omega
  · intro hfill
    rw [zeroCount, hfill, if_pos rfl] at hk
    rw [List.length_append, List.length_replicate]
    omega

theorem dropLast_zeros (buf : List (BitVec 8)) (k : ℕ) :
    (buf ++ List.replicate (k + 1) (byte '0')).dropLast = buf ++ List.replicate k (byte '0') := by
  rw [List.replicate_succ', ← List.append_assoc, List.dropLast_concat]

theorem length_zeros (buf : List (BitVec 8)) (k : ℕ) :
    (buf ++ List.replicate k (byte '0')).length = buf.length + k := by
  rw [List.length_append, List.length_replicate]

/-- Zeros that fill the width make room for the prefix `0x`: two of them are
taken back, or the only one there is. Those of a precision stay. -/
theorem takeBack_eq {w : ℕ} {buf : List (BitVec 8)} {k : ℕ}
    (hfilled : flags.precision = false → 0 < k → buf.length + k = w) :
    takeBack 16 precision w buf.length flags (buf ++ List.replicate k (byte '0')) =
      buf ++ List.replicate (if flags.precision then k else k - 2) (byte '0') := by
  rw [takeBack, length_zeros]
  cases hprecision : flags.precision with
  | true => rfl
  | false =>
    match k with
    | 0 =>
      -- no zeros, nothing to take back
      simp [takeBackLetter]
    | 1 =>
      have hw : buf.length + 1 = w := hfilled hprecision Nat.one_pos
      have hcond : (!false && buf.length + 1 != 0 &&
          (buf.length + 1 == precision || buf.length + 1 == w)) = true := by
        rw [beq_iff_eq.mpr hw, Bool.or_true, Bool.and_true]
        rfl
      rw [if_pos hcond, if_pos (show buf.length < buf.length + 1 by omega), dropLast_zeros,
        takeBackLetter, length_zeros]
      simp
    | k + 2 =>
      have hw : buf.length + (k + 2) = w := hfilled hprecision (by omega)
      have hcond : (!false && buf.length + (k + 2) != 0 &&
          (buf.length + (k + 2) == precision || buf.length + (k + 2) == w)) = true := by
        rw [beq_iff_eq.mpr hw, Bool.or_true, Bool.and_true]
        rfl
      have hmore : (buf.length + (k + 1) != 0 && (16 == 16 || 16 == 2) &&
          decide (buf.length < buf.length + (k + 1))) = true := by
        simp
      rw [if_pos hcond, if_pos (show buf.length < buf.length + (k + 2) by omega), dropLast_zeros,
        takeBackLetter, length_zeros, if_pos hmore, dropLast_zeros]
      rfl

/-- Without a precision, zeros are there to fill the width. -/
theorem zeroCount_filled (h : Sound flags precision) {width n : ℕ}
    (hprecision : flags.precision = false) (hpos : 0 < zeroCount precision width flags n) :
    n + zeroCount precision width flags n = width := by
  rw [zeroCount] at hpos ⊢
  cases hfill : !flags.left && flags.zeropad with
  | true =>
    rw [hfill, if_pos rfl] at hpos
    rw [if_pos rfl]
    omega
  | false =>
    rw [hfill, if_neg Bool.false_ne_true, h.precision hprecision, Nat.zero_sub] at hpos
    omega

/-- Zeros that fill the width are two fewer beside a prefix; those of a precision
are not. -/
theorem zeroCount_taken (h : Sound flags precision) (width n : ℕ) :
    (if flags.precision then zeroCount precision width flags n
      else zeroCount precision width flags n - 2) = zeroCount precision (width - 2) flags n := by
  rw [zeroCount, zeroCount]
  cases hfill : !flags.left && flags.zeropad with
  | true =>
    have hgiven : flags.precision = false := by
      cases hprecision : flags.precision with
      | false => rfl
      | true => simp [h.zeropad hprecision] at hfill
    rw [hgiven, if_neg Bool.false_ne_true, if_pos rfl, if_pos rfl]
    omega
  | false =>
    rw [if_neg Bool.false_ne_true, if_neg Bool.false_ne_true]
    cases hprecision : flags.precision with
    | true => rw [if_pos rfl]
    | false => rw [if_neg Bool.false_ne_true, h.precision hprecision, Nat.zero_sub]

/-- **With the prefix of a hexadecimal number.** The zeros are first counted
without the prefix and two of them taken back; these are as many as fill a
width that is two columns less. -/
theorem finalization_hex (h : Sound flags precision) {buf : List (BitVec 8)} {width k : ℕ}
    (hk : k = zeroCount precision (width - 2) flags buf.length)
    (hhash : flags.hash = true) (hsign : standardSign false flags = [])
    (hfits : 2 + k + buf.length ≤ bufferSize)
    (hwidth : (!flags.left && flags.zeropad) = true → width ≤ bufferSize) :
    finalization buf false 16 precision width flags =
      justified flags.left width
        ([byte '0', if flags.uppercase then byte 'X' else byte 'x'] ++
          List.replicate k (byte '0') ++ buf.reverse) := by
  have hleft : widthLeft false width flags = width := by
    rw [widthLeft_eq, hsign, List.length_nil, Nat.sub_zero, ite_self]
  -- the zeros before any is taken back
  obtain ⟨k₀, hk₀⟩ : ∃ k₀, k₀ = zeroCount precision width flags buf.length := ⟨_, rfl⟩
  have hroom : k₀ + buf.length ≤ bufferSize := by
    rw [hk₀, zeroCount]
    split
    case isTrue hfill =>
      have hle := hwidth hfill
      omega
    case isFalse hplain =>
      rw [zeroCount, if_neg hplain] at hk
      omega
  have htaken : (if flags.precision then k₀ else k₀ - 2) = k := by
    rw [hk, hk₀]
    exact zeroCount_taken h width buf.length
  have hfilled : flags.precision = false → 0 < k₀ → buf.length + k₀ = width := by
    rw [hk₀]
    exact zeroCount_filled h
  have hpadded := padded_eq h buf false width (k := k₀) (by rw [hsign]; exact hk₀) hroom
  rw [hleft] at hpadded
  rw [finalization, hleft, hpadded]
  have hcond : ((flags.hash && !(16 == 8 && decide (buf.length <
      (buf ++ List.replicate k₀ (byte '0')).length))) || flags.pointer) = true := by
    simp [hhash]
  have hlength := length_zeros buf k
  rw [if_pos hcond, takeBack_eq hfilled, htaken, pushPrefix, if_pos rfl,
    push_eq (show (buf ++ List.replicate k (byte '0')).length < bufferSize by omega),
    push_eq (by rw [List.length_append, hlength, List.length_singleton]; omega), ← hleft,
    printed_eq false width, hleft, hsign]
  · simp
  · rw [hsign]
    simp
    omega
  · intro hfill
    rw [zeroCount, hfill, if_pos rfl] at hk
    simp
    omega

/-- Without zeros nothing is taken back. -/
theorem takeBack_same (base precision w : ℕ) (flags : Flags) (buf : List (BitVec 8)) :
    takeBack base precision w buf.length flags buf = buf := by
  rw [takeBack]
  split
  · rw [if_neg (lt_irrefl _), takeBackLetter]
    simp
  · rfl

/-- **With the zero of an octal number**, where no other zero is. One character
is put in front of the digits, as there are no zeros to take it from. -/
theorem finalization_octal (h : Sound flags precision) {buf : List (BitVec 8)} {width : ℕ}
    (hnone : zeroCount precision width flags buf.length = 0) (hhash : flags.hash = true)
    (hsign : standardSign false flags = []) (hfits : buf.length < bufferSize) :
    finalization buf false 8 precision width flags =
      justified flags.left width (byte '0' :: buf.reverse) := by
  have hleft : widthLeft false width flags = width := by
    rw [widthLeft_eq, hsign, List.length_nil, Nat.sub_zero, ite_self]
  have hpadded := padded_eq h buf false width (k := 0) (by rw [hsign]; exact hnone.symm) (by omega)
  rw [List.replicate_zero, List.append_nil] at hpadded
  rw [finalization, hpadded]
  have hcond : ((flags.hash && !(8 == 8 && decide (buf.length < buf.length))) ||
      flags.pointer) = true := by
    simp [hhash]
  rw [if_pos hcond, takeBack_same, pushPrefix, if_neg (by omega), if_neg (by omega),
    push_eq hfits, printed_eq false width, hsign]
  · simp
  · rw [hsign]
    simp
    omega
  · intro hfill
    rw [zeroCount, hfill, if_pos rfl] at hnone
    simp
    omega

-- ---------------------------------------------------------------------------
-- Against the standard
-- ---------------------------------------------------------------------------

/-- The zeros of the width and those of the precision. One of the two is empty:
the `0` flag is ignored when there is a precision, and without a precision a
number has a digit at least. -/
theorem zeros_eq (h : Sound flags precision) {digits : List (BitVec 8)}
    (hdigits : flags.precision = false → digits ≠ []) (width used : ℕ) :
    List.replicate (if !flags.left && flags.zeropad then width - (used +
        (((if flags.precision then precision else 1) - digits.length) + digits.length)) else 0)
      (byte '0') ++
      (List.replicate ((if flags.precision then precision else 1) - digits.length) (byte '0') ++
        digits) =
      List.replicate (zeroCount precision (width - used) flags digits.length) (byte '0') ++
        digits := by
  rw [← List.append_assoc, List.replicate_append_replicate]
  congr 2
  rw [zeroCount]
  cases hprecision : flags.precision with
  | true => simp [h.zeropad hprecision]
  | false =>
    have hpos : 0 < digits.length := List.length_pos_of_ne_nil (hdigits hprecision)
    have hzero : 1 - digits.length = 0 := by omega
    rw [h.precision hprecision, if_neg Bool.false_ne_true, hzero]
    split
    · omega
    · omega

/-- The core, over the digits that the zeros precede: sign, prefix, as many
zeros as `zeroCount` says for the width that is left, and the digits. -/
theorem standardCore_eq (h : Sound flags precision) {value : ℕ} {digits : List (BitVec 8)}
    (hdigits : standardDigits base precision flags value =
      List.replicate ((if flags.precision then precision else 1) - digits.length) (byte '0') ++
        digits)
    (hne : flags.precision = false → digits ≠ []) (negative : Bool) (width : ℕ) :
    standardCore value negative base precision width flags =
      standardSign negative flags ++ standardPrefix base flags value ++
        (List.replicate (zeroCount precision (width - ((standardSign negative flags).length +
          (standardPrefix base flags value).length)) flags digits.length) (byte '0') ++
          digits) := by
  rw [standardCore]
  simp only [hdigits, List.length_append, List.length_replicate]
  rw [← zeros_eq h hne, List.append_assoc (standardSign negative flags ++ _)]

/-- The loop finds all digits when there is room for them. -/
theorem digitLoop_numeral (hbase : 2 ≤ base) (uppercase : Bool) {value : ℕ} (hvalue : value ≠ 0)
    (hlength : (numeral base uppercase value).length ≤ bufferSize) :
    digitLoop base uppercase bufferSize value = (numeral base uppercase value).reverse := by
  rw [numeral, List.length_reverse, List.length_map] at hlength
  rw [digitLoop_eq hbase uppercase hvalue, List.take_of_length_le hlength, numeral,
    List.reverse_reverse]

/-- A number that is not zero has a digit. -/
theorem numeral_ne_nil {uppercase : Bool} {value : ℕ} (hvalue : value ≠ 0) :
    numeral base uppercase value ≠ [] := by
  intro hnil
  rw [numeral, List.reverse_eq_nil_iff, List.map_eq_nil_iff] at hnil
  exact Nat.digits_ne_nil_iff_ne_zero.mpr hvalue hnil

theorem numeral_zero (base : ℕ) (uppercase : Bool) : numeral base uppercase 0 = [] := by
  rw [numeral, Nat.digits_zero]
  rfl

/-- Where there is no prefix, and no zero of an octal number, the text is that
of the standard: sign, zeros, digits. -/
theorem plain_standard (h : Sound flags precision) {value : ℕ} {negative : Bool}
    {digits : List (BitVec 8)}
    (hdigits : standardDigits base precision flags value =
      List.replicate ((if flags.precision then precision else 1) - digits.length) (byte '0') ++
        digits)
    (hne : flags.precision = false → digits ≠ [])
    (hlead : standardPrefix base flags value = [])
    (hhash : (flags.hash && !(base == 8 && decide (0 < zeroCount precision
      (width - (standardSign negative flags).length) flags digits.length))) = false)
    (hfits : (standardCore value negative base precision width flags).length ≤ bufferSize) :
    finalization digits.reverse negative base precision width flags =
      standardText value negative base precision width flags := by
  have hcore := standardCore_eq h hdigits hne negative width
  rw [hlead, List.append_nil, List.length_nil, Nat.add_zero] at hcore
  have hlength := congrArg List.length hcore
  simp only [List.length_append, List.length_replicate] at hlength
  rw [standardText, hcore, finalization_plain h negative base width rfl, List.reverse_reverse,
    List.length_reverse, List.append_assoc]
  · rw [List.length_reverse]
    exact hhash
  · rw [List.length_reverse]
    omega

/-- The number 0 has no prefix, and an octal 0 begins with a zero. So the `#`
flag, which the source clears for it, makes no difference. -/
theorem standardCore_zero (negative : Bool) (width : ℕ)
    (hoctal : base = 8 → flags.precision = false) :
    standardCore 0 negative base precision width { flags with hash := false } =
      standardCore 0 negative base precision width flags := by
  have hdigits : standardDigits base precision { flags with hash := false } 0 =
      standardDigits base precision flags 0 := by
    rw [standardDigits, standardDigits]
    simp only [Bool.false_eq_true, false_and, and_false, if_false]
    split
    case isTrue hzero =>
      -- without a precision there is one zero
      refine absurd ?_ hzero.2.2
      rw [preciseDigits, hoctal hzero.1, numeral_zero]
      rfl
    case isFalse => rfl
  have hlead : standardPrefix base { flags with hash := false } 0 =
      standardPrefix base flags 0 := by
    rw [standardPrefix, standardPrefix, if_neg (by simp), if_neg (by simp)]
  rw [standardCore, standardCore, hdigits, hlead]
  rfl

/-- The digits are a part of the text of the standard. -/
theorem length_numeral_le (value : ℕ) (negative : Bool) (base precision width : ℕ)
    (flags : Flags) :
    (numeral base flags.uppercase value).length ≤
      (standardCore value negative base precision width flags).length := by
  have hprecise : (numeral base flags.uppercase value).length ≤
      (preciseDigits base precision flags value).length := by
    rw [preciseDigits, List.length_append]
    exact Nat.le_add_left _ _
  have hdigits : (preciseDigits base precision flags value).length ≤
      (standardDigits base precision flags value).length := by
    rw [standardDigits]
    split
    · exact Nat.le_succ _
    · exact le_rfl
  rw [standardCore, List.length_append]
  exact (hprecise.trans hdigits).trans (Nat.le_add_left _ _)

/-- A prefix needs the base 16 and the flag. -/
theorem standardPrefix_eq_nil (hplain : base ≠ 16 ∨ flags.hash = false) (value : ℕ) :
    standardPrefix base flags value = [] := by
  rw [standardPrefix, if_neg]
  rintro ⟨hsixteen, hhash, -⟩
  rcases hplain with hother | hnone
  · exact hother hsixteen
  · simp [hnone] at hhash

/-- A `0` in front needs the base 8 and the flag. -/
theorem standardDigits_plain (hplain : base ≠ 8 ∨ flags.hash = false) (precision value : ℕ) :
    standardDigits base precision flags value = preciseDigits base precision flags value := by
  rw [standardDigits, if_neg]
  rintro ⟨height, hhash, -⟩
  rcases hplain with hother | hnone
  · exact hother height
  · simp [hnone] at hhash

/-- Hexadecimal with a prefix: the text of the standard is prefix, zeros,
digits, and that is what the finalization puts into the buffer. -/
theorem hex_standard (h : Sound flags precision) {value : ℕ} (hvalue : value ≠ 0)
    (hhash : flags.hash = true) (hsign : standardSign false flags = [])
    (hfits : (standardCore value false 16 precision width flags).length ≤ bufferSize) :
    finalization (numeral 16 flags.uppercase value).reverse false 16 precision width flags =
      standardText value false 16 precision width flags := by
  have hlead : standardPrefix 16 flags value =
      [byte '0', if flags.uppercase then byte 'X' else byte 'x'] := by
    rw [standardPrefix, if_pos ⟨rfl, hhash, hvalue⟩]
  -- the text of the standard: prefix, zeros, digits
  have hcore := standardCore_eq h
    (standardDigits_plain (Or.inl (show 16 ≠ 8 by decide)) precision value)
    (fun _ => numeral_ne_nil hvalue) false width
  rw [hlead, hsign, List.nil_append] at hcore
  have hlength := congrArg List.length hcore
  simp only [List.length_append, List.length_replicate, List.length_cons,
    List.length_nil] at hlength
  rw [standardText, hcore, finalization_hex h rfl hhash hsign, List.reverse_reverse,
    List.length_reverse, List.append_assoc]
  · rfl
  · rw [List.length_reverse]
    show 2 + zeroCount precision (width - 2) flags _ + _ ≤ _
    have hsame : width - (1 + 1) = width - 2 := rfl
    rw [hsame] at hlength
    omega
  · intro hfill
    rw [zeroCount, if_pos hfill] at hlength
    omega

/-- Octal digits with the zeros of the precision in front of them. The first of
these is the zero that `#` asks for, so that no other is added. -/
theorem octal_zeros (h : Sound flags precision) {value : ℕ}
    (hgiven : flags.precision = true) {digits : List (BitVec 8)}
    (hdigits : digits = numeral 8 flags.uppercase value) (hless : digits.length < precision)
    (hfits : (standardCore value false 8 precision width flags).length ≤ bufferSize) :
    finalization digits.reverse false 8 precision width flags =
      standardText value false 8 precision width flags := by
  have hprecise : standardDigits 8 precision flags value =
      List.replicate ((if flags.precision then precision else 1) - digits.length) (byte '0') ++
        digits := by
    rw [standardDigits, if_neg, preciseDigits, ← hdigits]
    -- a zero of the precision is in front, so `#` adds none
    rintro ⟨-, -, hother⟩
    refine hother ?_
    obtain ⟨k, hk⟩ : ∃ k, precision - digits.length = k + 1 :=
      ⟨precision - digits.length - 1, by omega⟩
    rw [preciseDigits, ← hdigits, hgiven, if_pos rfl, hk]
    rfl
  have hmore : 0 < zeroCount precision (width - (standardSign false flags).length) flags
      digits.length := by
    rw [zeroCount, h.zeropad hgiven, Bool.and_false, if_neg Bool.false_ne_true]
    omega
  refine plain_standard h hprecise ?_ (standardPrefix_eq_nil (Or.inl (by omega)) value) ?_ hfits
  · intro hmissing
    exact absurd (hgiven.symm.trans hmissing) Bool.noConfusion
  · simp [hmore]

/-- Octal digits behind one zero more. The finalization adds it where no zeros
fill the width; where they do, the last of them stands for it and the width is
the same. -/
theorem octal_front (h : Sound flags precision) {value : ℕ} (hhash : flags.hash = true)
    (hsign : standardSign false flags = []) {digits : List (BitVec 8)}
    (hdigits : digits = numeral 8 flags.uppercase value)
    (hnone : (if flags.precision then precision else 1) - digits.length = 0)
    (hfits : (standardCore value false 8 precision width flags).length ≤ bufferSize) :
    finalization digits.reverse false 8 precision width flags =
      standardText value false 8 precision width flags := by
  have hhead : digits.head? ≠ some (byte '0') :=
    hdigits ▸ head_numeral (by omega) (by omega) flags.uppercase value
  have hless : (if flags.precision then precision else 1) - (byte '0' :: digits).length = 0 := by
    rw [List.length_cons]
    omega
  have hprecise : standardDigits 8 precision flags value =
      List.replicate ((if flags.precision then precision else 1) - (byte '0' :: digits).length)
        (byte '0') ++ (byte '0' :: digits) := by
    have hplain : preciseDigits 8 precision flags value = digits := by
      rw [preciseDigits, ← hdigits, hnone]
      rfl
    rw [standardDigits, hplain, if_pos ⟨rfl, hhash, hhead⟩, hless]
    rfl
  have hcore := standardCore_eq h hprecise (fun _ => List.cons_ne_nil _ _) false width
  rw [standardPrefix_eq_nil (Or.inl (by omega)) value, hsign, List.nil_append, List.nil_append,
    List.length_nil, Nat.add_zero, Nat.sub_zero, List.length_cons] at hcore
  have hlength := congrArg List.length hcore
  simp only [List.length_append, List.length_replicate, List.length_cons] at hlength
  rw [standardText, hcore]
  by_cases hfull : zeroCount precision width flags digits.length = 0
  · -- no zeros fill the width: `print_integer_finalization` puts the zero
    have hfew : zeroCount precision width flags (digits.length + 1) = 0 := by
      rw [zeroCount] at hfull ⊢
      split
      case isTrue hfill =>
        rw [if_pos hfill] at hfull
        omega
      case isFalse hplain =>
        rw [if_neg hplain] at hfull
        omega
    rw [hfew, finalization_octal h (by rw [List.length_reverse]; exact hfull) hhash hsign,
      List.reverse_reverse]
    · rfl
    · rw [List.length_reverse]
      omega
  · -- the last of the zeros that fill the width is the one in front
    have hfill : (!flags.left && flags.zeropad) = true := by
      cases hf : !flags.left && flags.zeropad with
      | true => rfl
      | false =>
        refine absurd ?_ hfull
        rw [zeroCount, hf, if_neg Bool.false_ne_true]
        cases hgiven : flags.precision with
        | true => simpa [hgiven] using hnone
        | false => rw [h.precision hgiven, Nat.zero_sub]
    obtain ⟨k, hk⟩ : ∃ k, zeroCount precision width flags digits.length = k + 1 :=
      ⟨_, (Nat.succ_pred_eq_of_ne_zero hfull).symm⟩
    have hfew : zeroCount precision width flags (digits.length + 1) = k := by
      rw [zeroCount, if_pos hfill] at hk ⊢
      omega
    rw [hfew] at hlength
    rw [hfew, finalization_plain (k := k + 1) h false 8 width, hsign, List.nil_append,
      List.reverse_reverse, List.replicate_succ', List.append_assoc]
    · rfl
    · rw [hsign, List.length_nil, Nat.sub_zero, List.length_reverse, hk]
    · simp
    · rw [hsign, List.length_reverse, List.length_nil]
      omega

/-- Octal with a leading zero. Either the precision has put one in front of the
digits, or there is one character more. -/
theorem octal_standard (h : Sound flags precision) {value : ℕ}
    (hvalue : flags.precision = false → value ≠ 0) (hhash : flags.hash = true)
    (hsign : standardSign false flags = [])
    (hfits : (standardCore value false 8 precision width flags).length ≤ bufferSize) :
    finalization (numeral 8 flags.uppercase value).reverse false 8 precision width flags =
      standardText value false 8 precision width flags := by
  by_cases hzeros : flags.precision = true ∧ (numeral 8 flags.uppercase value).length < precision
  · exact octal_zeros h hzeros.1 rfl hzeros.2 hfits
  · refine octal_front h hhash hsign rfl ?_ hfits
    split
    case isTrue hgiven => exact Nat.sub_eq_zero_of_le (not_lt.mp fun hlt => hzeros ⟨hgiven, hlt⟩)
    case isFalse hmissing =>
      have hdigits : numeral 8 flags.uppercase value ≠ [] :=
        numeral_ne_nil (hvalue (Bool.eq_false_of_not_eq_true hmissing))
      have hpos := List.length_pos_of_ne_nil hdigits
      omega

/-- The number 0, without `#`: a digit, or only the zeros of the precision. -/
theorem zero_standard (h : Sound flags precision) (hhash : flags.hash = false) {negative : Bool}
    {digits : List (BitVec 8)} (hdigits : digits = if flags.precision then [] else [byte '0'])
    (hfits : (standardCore 0 negative base precision width flags).length ≤ bufferSize) :
    finalization digits.reverse negative base precision width flags =
      standardText 0 negative base precision width flags := by
  refine plain_standard h ?_ ?_ (standardPrefix_eq_nil (Or.inr hhash) 0) ?_ hfits
  · rw [standardDigits_plain (Or.inr hhash), preciseDigits, numeral_zero, hdigits]
    cases flags.precision with
    | true => rfl
    | false => rfl
  · intro hmissing
    rw [hdigits, hmissing]
    exact List.cons_ne_nil _ _
  · rw [hhash]
    rfl

/-- The number 0, where `#` is taken away. -/
theorem zero_standard_hash (h : Sound flags precision) {negative : Bool}
    {digits : List (BitVec 8)} (hdigits : digits = if flags.precision then [] else [byte '0'])
    (hoctal : base = 8 → flags.precision = false)
    (hfits : (standardCore 0 negative base precision width flags).length ≤ bufferSize) :
    finalization digits.reverse negative base precision width { flags with hash := false } =
      standardText 0 negative base precision width flags := by
  have hcore := @standardCore_zero base precision flags negative width hoctal
  rw [standardText, ← hcore]
  rw [← hcore] at hfits
  have hnohash : Sound { flags with hash := false } precision :=
    ⟨h.pointer, h.zeropad, h.precision⟩
  exact zero_standard hnohash rfl hdigits hfits

/-- The value 0 is one digit, or none where there is a precision; then an octal
0 with `#` still begins with a zero. -/
theorem printInteger_zero (h : Sound flags precision) {negative : Bool}
    (hbase : base = 8 ∨ base = 10 ∨ base = 16) (hdecimal : base = 10 → flags.hash = false)
    (hunsigned : base ≠ 10 → negative = false ∧ standardSign false flags = [])
    (hfits : (standardCore 0 negative base precision width flags).length ≤ bufferSize) :
    printInteger 0 negative base precision width flags =
      standardText 0 negative base precision width flags := by
  rw [printInteger, if_pos rfl]
  split
  case isTrue hmissing =>
    have hgiven : flags.precision = false := by simpa using hmissing
    have hdigits : [byte '0'] = if flags.precision then [] else [byte '0'] := by
      rw [hgiven]
      rfl
    exact (zero_standard_hash h hdigits (fun _ => hgiven) hfits :)
  case isFalse hmissing =>
    have hgiven : flags.precision = true := by simpa using hmissing
    have hdigits : [] = if flags.precision then [] else [byte '0'] := by
      rw [hgiven]
      rfl
    split
    case isTrue hsixteen =>
      exact (zero_standard_hash h hdigits (fun height => by omega) hfits :)
    case isFalse hother =>
      cases hhash : flags.hash with
      | false =>
        exact (zero_standard h hhash hdigits hfits :)
      | true =>
        -- an octal 0 without digits
        have hten : base ≠ 10 := fun hten => by simp [hdecimal hten] at hhash
        obtain rfl : base = 8 := by omega
        obtain ⟨rfl, hsign⟩ := hunsigned hten
        have hoctal := octal_standard h (fun hmissing => by simp [hgiven] at hmissing) hhash hsign
          hfits
        rwa [numeral_zero] at hoctal

/-- Any other value: the loop finds all digits, as the text fits into the
buffer, and the finalization is that of the base and of `#`. -/
theorem printInteger_nonzero (h : Sound flags precision) {value : ℕ} {negative : Bool}
    (hbase : base = 8 ∨ base = 10 ∨ base = 16) (hdecimal : base = 10 → flags.hash = false)
    (hunsigned : base ≠ 10 → negative = false ∧ standardSign false flags = []) (hvalue : value ≠ 0)
    (hfits : (standardCore value negative base precision width flags).length ≤ bufferSize) :
    printInteger value negative base precision width flags =
      standardText value negative base precision width flags := by
  have hdigits := (length_numeral_le value negative base precision width flags).trans hfits
  rw [printInteger, if_neg hvalue, digitLoop_numeral (by omega) flags.uppercase hvalue hdigits]
  cases hhash : flags.hash with
  | false =>
    refine plain_standard h ?_ (fun _ => numeral_ne_nil hvalue)
      (standardPrefix_eq_nil (Or.inr hhash) value) ?_ hfits
    · rw [standardDigits_plain (Or.inr hhash)]
      rfl
    · rw [hhash]
      rfl
  | true =>
    have hother : base ≠ 10 := fun hten => by simp [hdecimal hten] at hhash
    obtain ⟨rfl, hsign⟩ := hunsigned hother
    rcases hbase with rfl | hten | rfl
    · exact octal_standard h (fun _ => hvalue) hhash hsign hfits
    · exact absurd hten hother
    · exact hex_standard h hvalue hhash hsign hfits

/-- **What `print_integer` prints is what the standard asks for**, if it fits
into the buffer. -/
theorem printInteger_standard (h : Sound flags precision) {value : ℕ} {negative : Bool}
    (hbase : base = 8 ∨ base = 10 ∨ base = 16) (hdecimal : base = 10 → flags.hash = false)
    (hunsigned : base ≠ 10 → negative = false ∧ standardSign false flags = [])
    (hfits : (standardCore value negative base precision width flags).length ≤ bufferSize) :
    printInteger value negative base precision width flags =
      standardText value negative base precision width flags := by
  by_cases hvalue : value = 0
  · subst hvalue
    exact printInteger_zero h hbase hdecimal hunsigned hfits
  · exact printInteger_nonzero h hbase hdecimal hunsigned hvalue hfits

-- ---------------------------------------------------------------------------
-- Conversions
-- ---------------------------------------------------------------------------

/-- `d`, `i`, `u`, `x`, `X` and `o` -/
def IsStandard (conv : BitVec 8) : Prop :=
  conv ∈ ['d', 'i', 'u', 'x', 'X', 'o'].map byte

/-- The number that a conversion prints. -/
def integerValue (conv : BitVec 8) (flags : Flags) (word : BitVec 64) : ℤ :=
  if isSigned conv then signedValue flags word else unsignedValue flags word

/-- The core of the text that the standard asks for. -/
def conversionCore (conv : BitVec 8) (value : ℤ) (precision width : ℕ) (flags : Flags) :
    List (BitVec 8) :=
  standardCore value.natAbs (decide (value < 0)) (integerBase conv) precision width
    (integerFlags conv flags)

/-- The conversions of the standard have three bases. -/
theorem integerBase_standard {conv : BitVec 8} (hconv : IsStandard conv) :
    integerBase conv = 8 ∨ integerBase conv = 10 ∨ integerBase conv = 16 := by
  rw [integerBase]
  split_ifs with hhex hoctal hbinary
  · exact Or.inr (Or.inr rfl)
  · exact Or.inl rfl
  · subst hbinary
    exact absurd hconv (by rw [IsStandard]; decide)
  · exact Or.inr (Or.inl rfl)

/-- Signed conversions are decimal. -/
theorem decimal_of_isSigned {conv : BitVec 8} (h : isSigned conv = true) :
    integerBase conv = 10 := by
  rw [isSigned, Bool.or_eq_true, beq_iff_eq, beq_iff_eq] at h
  rcases h with rfl | rfl
  · rfl
  · rfl

/-- The flags of a directive, as the conversion sets them. -/
theorem integerFlags_sound (hpointer : flags.pointer = false)
    (hprecision : flags.precision = false → precision = 0) (conv : BitVec 8) :
    Sound (integerFlags conv flags) precision where
  pointer := hpointer
  zeropad := by
    intro hgiven
    show (flags.zeropad && !flags.precision) = false
    rw [show flags.precision = true from hgiven, Bool.not_true, Bool.and_false]
  precision := hprecision

/-- The conversions that do not halt print the absolute value with its sign.
Only the lowest `long` has none, since narrower values are widened before. -/
theorem integerText_eq (conv : BitVec 8) (word : BitVec 64) (precision width : ℕ) (flags : Flags) :
    integerText conv word precision width flags =
      if integerValue conv flags word = -2 ^ 63 then none
      else some (printInteger (integerValue conv flags word).natAbs
        (decide (integerValue conv flags word < 0)) (integerBase conv) precision width
        (integerFlags conv flags)) := by
  rw [integerText, integerValue]
  split
  case isTrue =>
    rw [absForPrinting]
    split_ifs <;> rfl
  case isFalse =>
    have hnatural : ¬((unsignedValue flags word : ℤ) < 0) := by omega
    have hnever : ¬((unsignedValue flags word : ℤ) = -2 ^ 63) := by omega
    rw [if_neg hnever, Int.natAbs_natCast, decide_eq_false hnatural]

/-- What is not decimal has no sign: `print_integer` is told of none, and the flags
for one are out of force. -/
theorem unsigned_of_not_decimal {conv : BitVec 8} (hother : integerBase conv ≠ 10)
    (word : BitVec 64) :
    decide (integerValue conv flags word < 0) = false ∧
      standardSign false (integerFlags conv flags) = [] := by
  -- only `d` and `i` have a sign, and they are decimal
  have hunsigned : isSigned conv = false := by
    cases hsigned : isSigned conv with
    | false => rfl
    | true => exact absurd (decimal_of_isSigned hsigned) hother
  refine ⟨?_, ?_⟩
  · rw [integerValue, hunsigned, if_neg Bool.false_ne_true]
    exact decide_eq_false (by omega)
  · show (if false then _ else if (flags.plus && isSigned conv) = true then _ else
      if (flags.space && isSigned conv) = true then _ else _) = _
    rw [hunsigned, Bool.and_false, Bool.and_false]
    rfl

/--
**An integer conversion prints the text of the standard**, if its core fits into
the buffer of `print_integer`. The one exception is the lowest `long`, whose negation
in `ABS_FOR_PRINTING` overflows: there the sanitizer halts and nothing is printed.
-/
theorem integerText_standard {conv : BitVec 8} (hconv : IsStandard conv)
    (hpointer : flags.pointer = false) (hprecision : flags.precision = false → precision = 0)
    (word : BitVec 64)
    (hfits : (conversionCore conv (integerValue conv flags word) precision width flags).length ≤
      bufferSize) :
    integerText conv word precision width flags =
      if integerValue conv flags word = -2 ^ 63 then none
      else some (justified flags.left width
        (conversionCore conv (integerValue conv flags word) precision width flags)) := by
  rw [integerText_eq]
  have htext := printInteger_standard (integerFlags_sound hpointer hprecision conv)
    (integerBase_standard hconv) (fun hten => ?_)
    (fun hother => unsigned_of_not_decimal hother word) hfits
  · rw [htext]
    rfl
  · show (flags.hash && integerBase conv != 10) = false
    rw [hten]
    exact Bool.and_false _

example : integerText (byte 'd') 0x8000000000000000#64 0 0 { long := true } = none := rfl

/-- `%08x` of 48879, the hexadecimal `beef`, which zeros fill up to eight
characters. -/
theorem integerText_standard_hex :
    integerText (byte 'x') 48879#64 0 8 { zeropad := true } =
      some (['0', '0', '0', '0', 'b', 'e', 'e', 'f'].map byte) := by
  have hcore : conversionCore (byte 'x') (integerValue (byte 'x') { zeropad := true } 48879#64) 0 8
      { zeropad := true } = ['0', '0', '0', '0', 'b', 'e', 'e', 'f'].map byte := by
    decide +kernel
  have hconv : IsStandard (byte 'x') := by
    rw [IsStandard]
    decide
  have htext := @integerText_standard 0 8 { zeropad := true } (byte 'x') hconv rfl (fun _ => rfl)
    48879#64 (by rw [hcore]; decide)
  rw [htext, hcore]
  rfl

end Printf
