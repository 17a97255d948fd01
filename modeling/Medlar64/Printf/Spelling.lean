import Medlar64.Printf.Integers

/-!
# printf: the spelling of formats

A format is written from pieces: characters, and directives with flags, a width,
a precision, a length and a conversion. `format_string_loop` reads the pieces
back, and what it prints is what the pieces print one after the other.

* `parseDirective_spell` — a directive is read as it was written, its numbers
  in 32 bits.
* `format_spell` — a whole format.
-/

namespace Printf

-- ---------------------------------------------------------------------------
-- Directives
-- ---------------------------------------------------------------------------

inductive Flag where
  | zeropad
  | left
  | plus
  | space
  | hash

def Flag.spell : Flag → BitVec 8
  | .zeropad => byte '0'
  | .left => byte '-'
  | .plus => byte '+'
  | .space => byte ' '
  | .hash => byte '#'

def Flag.set (flags : Flags) : Flag → Flags
  | .zeropad => { flags with zeropad := true }
  | .left => { flags with left := true }
  | .plus => { flags with plus := true }
  | .space => { flags with space := true }
  | .hash => { flags with hash := true }

def isFlag (c : BitVec 8) : Bool := ['0', '-', '+', ' ', '#'].any fun f => c == byte f

inductive Length where
  | int
  | char
  | short
  | long
  | longLong
  | ptrdiff
  | intmax
  | size

def Length.spell : Length → List (BitVec 8)
  | .int => []
  | .char => [byte 'h', byte 'h']
  | .short => [byte 'h']
  | .long => [byte 'l']
  | .longLong => [byte 'l', byte 'l']
  | .ptrdiff => [byte 't']
  | .intmax => [byte 'j']
  | .size => [byte 'z']

def Length.set (flags : Flags) : Length → Flags
  | .int => flags
  | .char => { flags with short := true, char := true }
  | .short => { flags with short := true }
  | .longLong => { flags with long := true, longLong := true }
  | .long | .ptrdiff | .intmax | .size => { flags with long := true }

def isLength (c : BitVec 8) : Bool := ['l', 'h', 't', 'j', 'z'].any fun f => c == byte f

/-- The parts of a directive in their order; a character that can begin none
of them is a conversion. -/
def rank (c : BitVec 8) : ℕ :=
  if isFlag c then 0
  else if isDigit c || c == byte '*' then 1
  else if c == byte '.' then 2
  else if isLength c then 3
  else 4

/-- A directive as it is written. -/
structure Spec where
  flags : List Flag
  width : Field
  precision : Field
  length : Length
  conv : BitVec 8
  conv_ne : conv ≠ 0
  conv_rank : rank conv = 4

/-- A number is written without leading zeros, 0 is not written. -/
def Field.spell : Field → List (BitVec 8)
  | .none => []
  | .number n => numeral 10 false n
  | .star => [byte '*']

def spellPrecision (p : Field) : List (BitVec 8) :=
  if p.given then byte '.' :: p.spell else []

def Spec.spell (s : Spec) : List (BitVec 8) :=
  byte '%' :: (s.flags.map Flag.spell ++
    (s.width.spell ++ (spellPrecision s.precision ++ (s.length.spell ++ [s.conv]))))

/-- How a number is read back. -/
def Field.read (w default : Field) : Field :=
  match w with
  | .none => default
  | .number n => if n = 0 then default else .number (n % 2 ^ 32)
  | .star => .star

def readPrecision (p : Field) : Field := if p.given then p.read (.number 0) else .none

def Spec.directive (s : Spec) : Directive where
  flags := s.length.set ((s.flags.foldl Flag.set {}).withPrecision s.precision.given)
  width := s.width.read .none
  precision := readPrecision s.precision
  conv := s.conv

-- ---------------------------------------------------------------------------
-- What may stand next
-- ---------------------------------------------------------------------------

/-- The first character belongs to a part that comes no earlier than `k`. -/
def Starts (k : ℕ) (f : List (BitVec 8)) : Prop := ∃ c f', f = c :: f' ∧ c ≠ 0 ∧ k ≤ rank c

variable {f : List (BitVec 8)}

/-- A text that starts late in the order starts late enough. -/
theorem Starts.mono {j k : ℕ} (h : Starts k f) (hjk : j ≤ k) : Starts j f := by
  obtain ⟨c, f', hf, hne, hrank⟩ := h
  exact ⟨c, f', hf, hne, hjk.trans hrank⟩

/-- The conversion comes last in the order of the fields. -/
theorem Spec.starts_conv (s : Spec) (rest : List (BitVec 8)) : Starts 4 (s.conv :: rest) :=
  ⟨s.conv, rest, rfl, s.conv_ne, s.conv_rank.ge⟩

/-- A length in front of the conversion does not look like a precision. -/
theorem Length.starts (length : Length) (h : Starts 4 f) : Starts 3 (length.spell ++ f) := by
  cases length with
  | int => exact h.mono (by omega)
  | char => exact ⟨byte 'h', byte 'h' :: f, rfl, by decide, by decide⟩
  | short => exact ⟨byte 'h', f, rfl, by decide, by decide⟩
  | long => exact ⟨byte 'l', f, rfl, by decide, by decide⟩
  | longLong => exact ⟨byte 'l', byte 'l' :: f, rfl, by decide, by decide⟩
  | ptrdiff => exact ⟨byte 't', f, rfl, by decide, by decide⟩
  | intmax => exact ⟨byte 'j', f, rfl, by decide, by decide⟩
  | size => exact ⟨byte 'z', f, rfl, by decide, by decide⟩

/-- A precision does not look like a width. -/
theorem starts_precision (p : Field) (h : Starts 3 f) : Starts 2 (spellPrecision p ++ f) := by
  rw [spellPrecision]
  split
  · exact ⟨byte '.', p.spell ++ f, rfl, by decide, by decide⟩
  · exact h.mono (by omega)

/-- The ten digits are read back. -/
theorem isDigit_digitChar {d : ℕ} (hd : d < 10) :
    isDigit (digitChar false d) = true ∧ (digitChar false d).toNat - '0'.toNat = d := by
  have hall : ∀ d < 10, isDigit (digitChar false d) = true ∧
      (digitChar false d).toNat - '0'.toNat = d := by
    decide
  exact hall d hd

/-- The first character of a numeral is a digit other than 0. -/
theorem numeral_head {n : ℕ} (hn : n ≠ 0) :
    ∃ c ds, numeral 10 false n = c :: ds ∧ isDigit c = true ∧ rank c = 1 := by
  obtain ⟨c, ds, hnumeral⟩ := List.exists_cons_of_ne_nil (@numeral_ne_nil 10 false n hn)
  have hmem : c ∈ numeral 10 false n := by
    rw [hnumeral]
    exact List.mem_cons_self
  rw [numeral, List.mem_reverse, List.mem_map] at hmem
  obtain ⟨d, hd, rfl⟩ := hmem
  have hlt : d < 10 := Nat.digits_lt_base (by omega) hd
  have hzero : d ≠ 0 := by
    rintro rfl
    refine head_numeral (by omega) (by omega) false n (?_ : (numeral 10 false n).head? = _)
    rw [hnumeral]
    rfl
  have hall : ∀ d < 10, d ≠ 0 → rank (digitChar false d) = 1 := by
    decide
  exact ⟨_, ds, hnumeral, (isDigit_digitChar hlt).1, hall d hlt hzero⟩

/-- A width does not look like a flag. -/
theorem Field.starts (w : Field) (h : Starts 2 f) : Starts 1 (w.spell ++ f) := by
  cases w with
  | none => exact h.mono (by omega)
  | star => exact ⟨byte '*', f, rfl, by decide, by decide⟩
  | number n =>
    rw [Field.spell]
    by_cases hn : n = 0
    · rw [hn, numeral_zero]
      exact h.mono (by omega)
    · obtain ⟨c, ds, hnumeral, hdigit, hrank⟩ := numeral_head hn
      rw [hnumeral]
      refine ⟨c, ds ++ f, rfl, ?_, hrank.ge⟩
      rintro rfl
      exact absurd hdigit (by decide)

-- ---------------------------------------------------------------------------
-- The parts are read back
-- ---------------------------------------------------------------------------

/-- What starts behind the flags is no flag. -/
theorem not_isFlag {c : BitVec 8} (h : 1 ≤ rank c) : isFlag c = false := by
  rw [rank] at h
  cases hflag : isFlag c with
  | false => rfl
  | true =>
    rw [if_pos hflag] at h
    omega

/-- What starts behind the width is neither a digit nor a star. -/
theorem not_isDigit {c : BitVec 8} (h : 2 ≤ rank c) : isDigit c = false ∧ c ≠ byte '*' := by
  have hnumber : (isDigit c || c == byte '*') = false := by
    cases hnumber : isDigit c || c == byte '*' with
    | false => rfl
    | true =>
      rw [rank, if_pos hnumber] at h
      split at h
      · omega
      · omega
  rw [Bool.or_eq_false_iff] at hnumber
  exact ⟨hnumber.1, by simpa using hnumber.2⟩

theorem ne_dot {c : BitVec 8} (h : 3 ≤ rank c) : c ≠ byte '.' := by
  rintro rfl
  exact absurd h (by decide)

/-- What starts behind the length is no letter of a length. -/
theorem not_isLength {c : BitVec 8} (h : 4 ≤ rank c) : isLength c = false := by
  cases hlength : isLength c with
  | false => rfl
  | true =>
    rw [rank, if_pos hlength] at h
    split_ifs at h <;> omega

/-- A character that is no flag ends the flags. -/
theorem parseFlags_stop {c : BitVec 8} (hc : isFlag c = false) (f : List (BitVec 8))
    (flags : Flags) : parseFlags (c :: f) flags = (flags, c :: f) := by
  have hne : ∀ d ∈ ['0', '-', '+', ' ', '#'], c ≠ byte d := by
    intro d hd heq
    have htrue : isFlag c = true := List.any_eq_true.mpr ⟨d, hd, beq_iff_eq.mpr heq⟩
    rw [hc] at htrue
    exact Bool.false_ne_true htrue
  rw [parseFlags, if_neg (hne '0' (by decide)), if_neg (hne '-' (by decide)),
    if_neg (hne '+' (by decide)), if_neg (hne ' ' (by decide)), if_neg (hne '#' (by decide))]

/-- `parse_flags` takes one flag and goes on. -/
theorem parseFlags_flag (g : Flag) (f : List (BitVec 8)) (flags : Flags) :
    parseFlags (g.spell :: f) flags = parseFlags f (Flag.set flags g) := by
  cases g <;> rfl

/-- It takes the flags in their order, and stops at the first character that is
none. -/
theorem parseFlags_spell (fs : List Flag) (h : Starts 1 f) (flags : Flags) :
    parseFlags (fs.map Flag.spell ++ f) flags = (fs.foldl Flag.set flags, f) := by
  induction fs generalizing flags with
  | nil =>
    obtain ⟨c, f', rfl, -, hrank⟩ := h
    exact parseFlags_stop (not_isFlag hrank) f' flags
  | cons g fs ih => exact (parseFlags_flag g _ flags).trans (ih _)

/-- The digits are the decimal value, in 32 bits. By induction on them, from
any value that has been read before; the loop stops at the character behind
them. -/
theorem atou_digits {ds : List ℕ} (hds : ∀ d ∈ ds, d < 10) (h : Starts 2 f) (i : ℕ) :
    atou (ds.map (digitChar false) ++ f) (i % 2 ^ 32) =
      (ds.foldl (fun i d => i * 10 + d) i % 2 ^ 32, f) := by
  induction ds generalizing i with
  | nil =>
    obtain ⟨c, f', rfl, -, hrank⟩ := h
    rw [List.map_nil, List.nil_append, atou, (not_isDigit hrank).1]
    rfl
  | cons d ds ih =>
    obtain ⟨hd, hrest⟩ := List.forall_mem_cons.mp hds
    obtain ⟨hdigit, hvalue⟩ := isDigit_digitChar hd
    have hround : (i % 2 ^ 32 * 10 + d) % 2 ^ 32 = (i * 10 + d) % 2 ^ 32 := by omega
    rw [List.map_cons, List.cons_append, atou, if_pos hdigit, hvalue, hround, ih hrest]
    rfl

/-- The digits of a number, the first one first, give the number back. -/
theorem foldl_digits (n : ℕ) :
    (Nat.digits 10 n).reverse.foldl (fun i d => i * 10 + d) 0 = n := by
  have hfoldr : ∀ ds : List ℕ, ds.foldr (fun d i => i * 10 + d) 0 = Nat.ofDigits 10 ds := by
    intro ds
    induction ds with
    | nil => rfl
    | cons d ds ih =>
      rw [List.foldr_cons, ih, Nat.ofDigits_cons]
      omega
  rw [List.foldl_reverse, hfoldr, Nat.ofDigits_digits]

/-- `atou_` reads a numeral back in 32 bits and leaves what follows. -/
theorem atou_numeral (n : ℕ) (h : Starts 2 f) :
    atou (numeral 10 false n ++ f) 0 = (n % 2 ^ 32, f) := by
  have hds : ∀ d ∈ (Nat.digits 10 n).reverse, d < 10 :=
    fun d hd => Nat.digits_lt_base (by omega) (List.mem_reverse.mp hd)
  have hatou := atou_digits hds h 0
  rw [foldl_digits] at hatou
  rw [numeral, ← List.map_reverse]
  exact hatou

/-- `ADVANCE_IN_FORMAT_STRING` steps to what follows when it is not the
terminator. -/
theorem advance_eq {c : BitVec 8} {k : ℕ} (h : Starts k f) : advance (c :: f) = .ok f := by
  obtain ⟨d, f', rfl, hne, -⟩ := h
  exact if_neg hne

/-- A field is read as it is written. A zero is not written, for it would be a
flag. -/
theorem parseNumber_spell (w default : Field) (h : Starts 2 f) :
    parseNumber (w.spell ++ f) default = .ok (w.read default, f) := by
  -- what follows is neither a digit nor a star
  have hnothing : parseNumber f default = .ok (default, f) := by
    obtain ⟨c, f', rfl, -, hrank⟩ := h
    obtain ⟨hdigit, hstar⟩ := not_isDigit hrank
    show (if isDigit c = true then _ else if c = byte '*' then _ else _) = _
    rw [hdigit, if_neg Bool.false_ne_true, if_neg hstar]
  cases w with
  | none => exact hnothing
  | star =>
    show (advance (byte '*' :: f) >>= fun f => Except.ok (Field.star, f)) = _
    rw [advance_eq h]
    rfl
  | number n =>
    rw [Field.spell, Field.read]
    -- a zero is not written: it would be a flag
    by_cases hn : n = 0
    · rw [hn, numeral_zero, if_pos rfl]
      exact hnothing
    · obtain ⟨c, ds, hnumeral, hdigit, -⟩ := numeral_head hn
      have hatou := atou_numeral n h
      rw [hnumeral] at hatou ⊢
      show (if isDigit c = true then _ else _) = _
      rw [if_pos hdigit, if_neg hn]
      exact congrArg (fun r : ℕ × List (BitVec 8) => Except.ok (Field.number r.1, r.2)) hatou

/-- A precision is read as it is written, and one without a number is zero. -/
theorem parsePrecision_spell (p : Field) (h : Starts 3 f) :
    parsePrecision (spellPrecision p ++ f) = .ok (readPrecision p, f) := by
  rw [spellPrecision, readPrecision]
  split
  case isTrue hgiven =>
    have hstarts := (p.starts (h.mono (by omega)) : Starts 1 (p.spell ++ f))
    show (advance (byte '.' :: (p.spell ++ f)) >>= fun f => parseNumber f (.number 0)) = _
    rw [advance_eq hstarts]
    exact parseNumber_spell p (.number 0) (h.mono (by omega))
  case isFalse hmissing =>
    obtain ⟨c, f', rfl, -, hrank⟩ := h
    show (if c = byte '.' then _ else _) = _
    rw [if_neg (ne_dot hrank)]
    rfl

/-- A length is read as it is written: the letter behind `l` or `h` decides
between one letter and two, and the conversion is neither. -/
theorem parseLength_spell (length : Length) (h : Starts 4 f) (flags : Flags) :
    parseLength (length.spell ++ f) flags = .ok (length.set flags, f) := by
  obtain ⟨c, f', rfl, hne, hrank⟩ := h
  have hother : ∀ d ∈ ['l', 'h', 't', 'j', 'z'], c ≠ byte d := by
    intro d hd heq
    have htrue : isLength c = true := List.any_eq_true.mpr ⟨d, hd, beq_iff_eq.mpr heq⟩
    rw [not_isLength hrank] at htrue
    exact Bool.false_ne_true htrue
  have hl := hother 'l' (by decide)
  have hh := hother 'h' (by decide)
  -- the letters of a modifier are followed by a character that is none
  have hnext : ∀ d, advance (d :: c :: f') = .ok (c :: f') := fun d => if_neg hne
  have hdouble : ∀ d : Char, byte d ≠ 0 →
      advance (byte d :: byte d :: c :: f') = .ok (byte d :: c :: f') := fun d hd => if_neg hd
  cases length with
  | int =>
    show (if c = byte 'l' then _ else if c = byte 'h' then _ else
      if c = byte 't' ∨ c = byte 'j' ∨ c = byte 'z' then _ else _) = _
    rw [if_neg hl, if_neg hh, if_neg]
    · rfl
    · rintro (ht | hj | hz)
      · exact hother 't' (by decide) ht
      · exact hother 'j' (by decide) hj
      · exact hother 'z' (by decide) hz
  | short =>
    show (advance (byte 'h' :: c :: f') >>= fun f => peek f >>= fun c => _) = _
    rw [hnext]
    show (if c = byte 'h' then _ else _) = _
    rw [if_neg hh]
    rfl
  | char =>
    show (advance (byte 'h' :: byte 'h' :: c :: f') >>= fun f => peek f >>= fun c => _) = _
    rw [hdouble 'h' (by decide)]
    show (advance (byte 'h' :: c :: f') >>= fun f => _) = _
    rw [hnext]
    rfl
  | long =>
    show (advance (byte 'l' :: c :: f') >>= fun f => peek f >>= fun c => _) = _
    rw [hnext]
    show (if c = byte 'l' then _ else _) = _
    rw [if_neg hl]
    rfl
  | longLong =>
    show (advance (byte 'l' :: byte 'l' :: c :: f') >>= fun f => peek f >>= fun c => _) = _
    rw [hdouble 'l' (by decide)]
    show (advance (byte 'l' :: c :: f') >>= fun f => _) = _
    rw [hnext]
    rfl
  | ptrdiff =>
    show (advance (byte 't' :: c :: f') >>= fun f => _) = _
    rw [hnext]
    rfl
  | intmax =>
    show (advance (byte 'j' :: c :: f') >>= fun f => _) = _
    rw [hnext]
    rfl
  | size =>
    show (advance (byte 'z' :: c :: f') >>= fun f => _) = _
    rw [hnext]
    rfl

/-- A precision is given when there is a dot for it. -/
theorem readPrecision_given (p : Field) : (readPrecision p).given = p.given := by
  cases p with
  | none => rfl
  | star => rfl
  | number n =>
    show (if n = 0 then Field.number 0 else Field.number (n % 2 ^ 32)).given = true
    split <;> rfl

/-- The fields behind the flags are read as they are written. -/
theorem parseFields_spell (s : Spec) (flags : Flags) (rest : List (BitVec 8)) :
    parseFields flags (s.width.spell ++ (spellPrecision s.precision ++
      (s.length.spell ++ s.conv :: rest))) =
      .ok (⟨s.length.set (flags.withPrecision s.precision.given), s.width.read .none,
        readPrecision s.precision, s.conv⟩, rest) := by
  have hlength := s.length.starts (s.starts_conv rest)
  rw [parseFields, parseNumber_spell s.width .none (starts_precision s.precision hlength)]
  show (parsePrecision _ >>= fun x => _) = _
  rw [parsePrecision_spell s.precision hlength]
  show (parseLength _ _ >>= fun x => _) = _
  rw [parseLength_spell s.length (s.starts_conv rest), readPrecision_given]
  rfl

/-- **A directive is read as it was written.** Flags, width, precision, length
and conversion begin with characters of growing rank, so that each part of the
parser stops where the next one starts. -/
theorem parseDirective_spell (s : Spec) (rest : List (BitVec 8)) :
    parseDirective (s.spell ++ rest) = .ok (s.directive, rest) := by
  obtain ⟨fields, hfields⟩ : ∃ fields, fields = s.width.spell ++ (spellPrecision s.precision ++
    (s.length.spell ++ s.conv :: rest)) := ⟨_, rfl⟩
  have hwidth : Starts 1 fields := by
    rw [hfields]
    exact s.width.starts (starts_precision s.precision (s.length.starts (s.starts_conv rest)))
  have hspell : s.spell ++ rest = byte '%' :: (s.flags.map Flag.spell ++ fields) := by
    rw [hfields, Spec.spell]
    simp
  have hstarts : Starts 0 (s.flags.map Flag.spell ++ fields) := by
    cases s.flags with
    | nil => exact hwidth.mono (by omega)
    | cons g fs =>
      refine ⟨g.spell, _, rfl, ?_, Nat.zero_le _⟩
      cases g <;> decide
  rw [hspell, parseDirective, advance_eq hstarts]
  show parseFields (parseFlags _ {}).1 (parseFlags _ {}).2 = _
  rw [parseFlags_spell s.flags hwidth, hfields]
  exact parseFields_spell s _ rest

-- ---------------------------------------------------------------------------
-- Formats
-- ---------------------------------------------------------------------------

/-- A piece of a format. -/
inductive Piece where
  | char (c : BitVec 8) (hend : c ≠ 0) (hpercent : c ≠ byte '%')
  | spec (s : Spec)

def Piece.spell : Piece → List (BitVec 8)
  | .char c _ _ => [c]
  | .spec s => s.spell

def spellAll (ps : List Piece) : List (BitVec 8) := ps.flatMap Piece.spell

/-- What a piece prints. -/
def Piece.run (st : State) : Piece → Option State
  | .char c _ _ => some (st.put [c])
  | .spec s => runDirective s.directive st

/-- The pieces one after the other. -/
def runPieces (ps : List Piece) (st : State) : Result :=
  match ps.foldlM Piece.run st with
  | none => .badArgument
  | some st => .done st

theorem Piece.length_spell_pos (p : Piece) : 0 < p.spell.length := by
  cases p with
  | char c hend hpercent => exact Nat.one_pos
  | spec s => exact Nat.succ_pos _

theorem formatLoop_end (n : ℕ) (st : State) : formatLoop (n + 1) [0] st = .done st := rfl

/-- One piece: a character is printed, a directive is read as it was written
and carried out. Either takes one turn of the loop. -/
theorem formatLoop_piece (n : ℕ) (p : Piece) (f : List (BitVec 8)) (st : State) :
    formatLoop (n + 1) (p.spell ++ f) st =
      match p.run st with
      | none => .badArgument
      | some st => formatLoop n f st := by
  cases p with
  | char c hend hpercent =>
    show formatLoop (n + 1) (c :: f) st = formatLoop n f (st.put [c])
    rw [formatLoop, if_neg hend, if_pos hpercent]
  | spec s =>
    have hparse := parseDirective_spell s f
    obtain ⟨t, ht⟩ : ∃ t, s.spell = byte '%' :: t := ⟨_, rfl⟩
    show formatLoop (n + 1) (s.spell ++ f) st = _
    rw [ht, List.cons_append] at hparse ⊢
    rw [formatLoop, if_neg (by decide), if_neg (by decide), hparse]
    rfl

/-- The loop prints the pieces one after the other, by induction on them. A
turn takes a piece, so the length of the format is enough turns. -/
theorem formatLoop_pieces (ps : List Piece) {n : ℕ} (hn : (spellAll ps).length < n) (st : State) :
    formatLoop n (spellAll ps ++ [0]) st = runPieces ps st := by
  induction ps generalizing n st with
  | nil =>
    obtain ⟨n, rfl⟩ := Nat.exists_eq_add_of_lt hn
    exact formatLoop_end _ st
  | cons p ps ih =>
    have hpos := p.length_spell_pos
    have hspell : spellAll (p :: ps) = p.spell ++ spellAll ps := List.flatMap_cons
    rw [hspell, List.length_append] at hn
    obtain ⟨n, rfl⟩ : ∃ m, n = m + 1 := ⟨n - 1, by omega⟩
    rw [hspell, List.append_assoc, formatLoop_piece, runPieces, List.foldlM_cons]
    cases hrun : p.run st with
    | none => rfl
    | some st' => exact ih (by omega) st'

/-- Characters up to the end of the format. -/
theorem formatLoop_text {text : List (BitVec 8)} (htext : ∀ c ∈ text, c ≠ 0 ∧ c ≠ byte '%') {n : ℕ}
    (hn : text.length < n) (st : State) : formatLoop n (text ++ [0]) st = .done (st.put text) := by
  induction text generalizing n st with
  | nil =>
    obtain ⟨n, rfl⟩ := Nat.exists_eq_add_of_lt hn
    show Result.done st = .done { st with out := st.out ++ [] }
    rw [List.append_nil]
  | cons c text ih =>
    obtain ⟨⟨hend, hpercent⟩, hrest⟩ := List.forall_mem_cons.mp htext
    rw [List.length_cons] at hn
    obtain ⟨n, rfl⟩ : ∃ m, n = m + 1 := ⟨n - 1, by omega⟩
    rw [List.cons_append, formatLoop, if_neg hend, if_pos hpercent, ih hrest (by omega)]
    show Result.done { st with out := st.out ++ [c] ++ text } =
      .done { st with out := st.out ++ c :: text }
    rw [List.append_assoc, List.singleton_append]

/-- **A format prints what its pieces print.** -/
theorem format_spell (ps : List Piece) (args : List Arg) :
    format (spellAll ps ++ [0]) args = runPieces ps { args := args } := by
  refine formatLoop_pieces ps ?_ _
  rw [List.length_append]
  exact Nat.lt_succ_self _

end Printf
