import Mathlib.Algebra.Group.Nat.Defs
import Mathlib.Algebra.Group.Int.Defs
import Mathlib.Data.Int.Notation
import Mathlib.Tactic.Common

/-!
# printf: formats

`format_string_loop` of `lib/printf.c` with the functions it calls, for the
configuration of this kernel: no floating point, `long long` and `%n` present,
a buffer of 32 characters for an integer.

* `Directive` — what stands behind a percent sign; `parseDirective` reads it.
* `runDirective` — what it prints. The characters go to an output gadget in the
  order of `State.out`, whose length is `pos`.
* `formatLoop` — the whole format.
-/

namespace Printf

/-- A character constant. -/
def byte (c : Char) : BitVec 8 := BitVec.ofNat 8 c.toNat

structure Flags where
  zeropad : Bool := false
  left : Bool := false
  plus : Bool := false
  space : Bool := false
  hash : Bool := false
  uppercase : Bool := false
  char : Bool := false
  short : Bool := false
  long : Bool := false
  longLong : Bool := false
  precision : Bool := false
  pointer : Bool := false
  deriving DecidableEq

-- ---------------------------------------------------------------------------
-- Integers
-- ---------------------------------------------------------------------------

/-- `PRINTF_INTEGER_BUFFER_SIZE` -/
def bufferSize : ℕ := 32

/-- `width` characters of padding less those that are there. -/
def spaces (width len : ℕ) : List (BitVec 8) := List.replicate (width - len) (byte ' ')

/-- `out_rev_`: the characters in reverse. -/
def outRev (buf : List (BitVec 8)) (width : ℕ) (flags : Flags) : List (BitVec 8) :=
  (if !flags.left && !flags.zeropad then spaces width buf.length else []) ++ buf.reverse ++
    if flags.left then spaces width buf.length else []

/-- `buf[len++] = c` while there is room. -/
def push (c : BitVec 8) (buf : List (BitVec 8)) : List (BitVec 8) :=
  if buf.length < bufferSize then buf ++ [c] else buf

/-- Zeros up to a length, while there is room. -/
def padZeros (len : ℕ) (buf : List (BitVec 8)) : List (BitVec 8) :=
  buf ++ List.replicate (min len bufferSize - buf.length) (byte '0')

/-- The width without the sign, where zeros are to fill it. -/
def widthLeft (negative : Bool) (width : ℕ) (flags : Flags) : ℕ :=
  if !flags.left && (width != 0 && flags.zeropad && (negative || flags.plus || flags.space)) then
    width - 1
  else width

/-- Leading zeros. -/
def withZeros (precision width : ℕ) (flags : Flags) (buf : List (BitVec 8)) : List (BitVec 8) :=
  padZeros precision (if !flags.left && flags.zeropad then padZeros width buf else buf)

/-- A second character, for the letter of the prefix. -/
def takeBackLetter (base unpadded : ℕ) (buf : List (BitVec 8)) : List (BitVec 8) :=
  if buf.length != 0 && (base == 16 || base == 2) && decide (unpadded < buf.length) then
    buf.dropLast
  else buf

/-- Some of the padding is taken back for the prefix. -/
def takeBack (base precision width unpadded : ℕ) (flags : Flags) (buf : List (BitVec 8)) :
    List (BitVec 8) :=
  if !flags.precision && buf.length != 0 && (buf.length == precision || buf.length == width) then
    takeBackLetter base unpadded (if unpadded < buf.length then buf.dropLast else buf)
  else buf

/-- The prefix of the base. -/
def pushPrefix (base : ℕ) (flags : Flags) (buf : List (BitVec 8)) : List (BitVec 8) :=
  push (byte '0')
    (if base = 16 then push (if flags.uppercase then byte 'X' else byte 'x') buf
    else if base = 2 then push (byte 'b') buf
    else buf)

def pushSign (negative : Bool) (flags : Flags) (buf : List (BitVec 8)) : List (BitVec 8) :=
  if negative then push (byte '-') buf
  else if flags.plus then push (byte '+') buf
  else if flags.space then push (byte ' ') buf
  else buf

/-- `print_integer_finalization` -/
def finalization (buf : List (BitVec 8)) (negative : Bool) (base precision width : ℕ)
    (flags : Flags) : List (BitVec 8) :=
  let width := widthLeft negative width flags
  let padded := withZeros precision width flags buf
  let hash := flags.hash && !(base == 8 && decide (buf.length < padded.length))
  let whole := if hash || flags.pointer then
      pushPrefix base flags (takeBack base precision width buf.length flags padded)
    else padded
  outRev (pushSign negative flags whole) width flags

def digitChar (uppercase : Bool) (d : ℕ) : BitVec 8 :=
  if d < 10 then BitVec.ofNat 8 ('0'.toNat + d)
  else BitVec.ofNat 8 ((if uppercase then 'A'.toNat else 'a'.toNat) + d - 10)

/-- The loop of `print_integer`, for at most `n` digits. -/
def digitLoop (base : ℕ) (uppercase : Bool) : ℕ → ℕ → List (BitVec 8)
  | 0, _ => []
  | n + 1, value =>
    digitChar uppercase (value % base) ::
      if value / base = 0 then [] else digitLoop base uppercase n (value / base)

/-- `print_integer` -/
def printInteger (value : ℕ) (negative : Bool) (base precision width : ℕ) (flags : Flags) :
    List (BitVec 8) :=
  if value = 0 then
    if !flags.precision then
      finalization [byte '0'] negative base precision width { flags with hash := false }
    else if base = 16 then
      finalization [] negative base precision width { flags with hash := false }
    else finalization [] negative base precision width flags
  else
    finalization (digitLoop base flags.uppercase bufferSize value) negative base precision width
      flags

-- ---------------------------------------------------------------------------
-- Strings
-- ---------------------------------------------------------------------------

/-- `strnlen_s_`, on the bytes that may be read. -/
def strnlen : List (BitVec 8) → ℕ → Option ℕ
  | [], _ => none
  | c :: cs, maxsize =>
    if c = 0 ∨ maxsize = 0 then some 0 else (strnlen cs (maxsize - 1)).map (· + 1)

/-- The loop that prints a string, with at most `limit` characters. -/
def stringLoop : List (BitVec 8) → Option ℕ → Option (List (BitVec 8))
  | [], _ => none
  | c :: cs, limit =>
    if c = 0 ∨ limit = some 0 then some []
    else (stringLoop cs (limit.map (· - 1))).map (c :: ·)

/-- `PRINTF_MAX_POSSIBLE_BUFFER_SIZE` -/
def maxBufferSize : ℕ := 2 ^ 31 - 1

/-- Characters, `l` of which count for the padding. -/
def padded (l width : ℕ) (flags : Flags) (chars : List (BitVec 8)) : List (BitVec 8) :=
  (if !flags.left then spaces width l else []) ++ chars ++ if flags.left then spaces width l else []

/-- The branch `s` for a pointer that is not `NULL`. -/
def printString (bytes : List (BitVec 8)) (precision width : ℕ) (flags : Flags) :
    Option (List (BitVec 8)) := do
  let l ← strnlen bytes (if precision ≠ 0 then precision else maxBufferSize)
  let chars ← stringLoop bytes (if flags.precision then some precision else none)
  some (padded (if flags.precision then min l precision else l) width flags chars)

-- ---------------------------------------------------------------------------
-- Arguments
-- ---------------------------------------------------------------------------

/-- An argument: its word, and the bytes it points to when it is a string. -/
structure Arg where
  word : BitVec 64
  bytes : List (BitVec 8) := []

/-- A write of `%n`: an address, a number of bytes and the value. -/
structure Store where
  addr : BitVec 64
  size : ℕ
  value : ℕ

structure State where
  out : List (BitVec 8) := []
  stores : List Store := []
  args : List Arg := []

def State.put (st : State) (chars : List (BitVec 8)) : State := { st with out := st.out ++ chars }

/-- `va_arg` -/
def State.next (st : State) : Option (Arg × State) :=
  match st.args with
  | [] => none
  | a :: args => some (a, { st with args := args })

/-- The value of a signed conversion. -/
def signedValue (flags : Flags) (word : BitVec 64) : ℤ :=
  if flags.longLong || flags.long then word.toInt
  else if flags.char then (word.setWidth 8).toInt
  else if flags.short then (word.setWidth 16).toInt
  else (word.setWidth 32).toInt

def unsignedValue (flags : Flags) (word : BitVec 64) : ℕ :=
  if flags.longLong || flags.long then word.toNat
  else if flags.char then (word.setWidth 8).toNat
  else if flags.short then (word.setWidth 16).toNat
  else (word.setWidth 32).toNat

-- ---------------------------------------------------------------------------
-- Directives
-- ---------------------------------------------------------------------------

/-- A width or a precision; `*` takes it from the arguments. -/
inductive Field where
  | none
  | number (n : ℕ)
  | star

/-- What stands behind a percent sign. -/
structure Directive where
  flags : Flags
  width : Field
  precision : Field
  conv : BitVec 8

/-- Why no directive can be read: the terminator, or the end of the array. -/
inductive Halt where
  | stop
  | outside

/-- `*format` -/
def peek : List (BitVec 8) → Except Halt (BitVec 8)
  | [] => .error .outside
  | c :: _ => .ok c

/-- `ADVANCE_IN_FORMAT_STRING` -/
def advance (f : List (BitVec 8)) : Except Halt (List (BitVec 8)) :=
  match f.tail with
  | [] => .error .outside
  | c :: f => if c = 0 then .error .stop else .ok (c :: f)

def parseFlags : List (BitVec 8) → Flags → Flags × List (BitVec 8)
  | [], flags => (flags, [])
  | c :: f, flags =>
    if c = byte '0' then parseFlags f { flags with zeropad := true }
    else if c = byte '-' then parseFlags f { flags with left := true }
    else if c = byte '+' then parseFlags f { flags with plus := true }
    else if c = byte ' ' then parseFlags f { flags with space := true }
    else if c = byte '#' then parseFlags f { flags with hash := true }
    else (flags, c :: f)

def isDigit (c : BitVec 8) : Bool := '0'.toNat ≤ c.toNat ∧ c.toNat ≤ '9'.toNat

/-- `atou_`, in 32 bits. -/
def atou : List (BitVec 8) → ℕ → ℕ × List (BitVec 8)
  | [], i => (i, [])
  | c :: f, i =>
    if isDigit c then atou f ((i * 10 + (c.toNat - '0'.toNat)) % 2 ^ 32) else (i, c :: f)

/-- A number or a star. -/
def parseNumber (f : List (BitVec 8)) (default : Field) :
    Except Halt (Field × List (BitVec 8)) := do
  let c ← peek f
  if isDigit c then
    let (n, f) := atou f 0
    .ok (.number n, f)
  else if c = byte '*' then do
    let f ← advance f
    .ok (.star, f)
  else .ok (default, f)

def parsePrecision (f : List (BitVec 8)) : Except Halt (Field × List (BitVec 8)) := do
  let c ← peek f
  if c = byte '.' then do
    let f ← advance f
    parseNumber f (.number 0)
  else .ok (.none, f)

/-- The length; on this machine `ptrdiff_t`, `intmax_t` and `size_t` are as long as
`long`. -/
def parseLength (f : List (BitVec 8)) (flags : Flags) : Except Halt (Flags × List (BitVec 8)) := do
  let c ← peek f
  if c = byte 'l' then do
    let f ← advance f
    let c ← peek f
    if c = byte 'l' then do
      let f ← advance f
      .ok ({ flags with long := true, longLong := true }, f)
    else .ok ({ flags with long := true }, f)
  else if c = byte 'h' then do
    let f ← advance f
    let c ← peek f
    if c = byte 'h' then do
      let f ← advance f
      .ok ({ flags with short := true, char := true }, f)
    else .ok ({ flags with short := true }, f)
  else if c = byte 't' ∨ c = byte 'j' ∨ c = byte 'z' then do
    let f ← advance f
    .ok ({ flags with long := true }, f)
  else .ok (flags, f)

def Field.given : Field → Bool
  | .none => false
  | _ => true

def Flags.withPrecision (flags : Flags) (given : Bool) : Flags := { flags with precision := given }

/-- What stands behind the flags. -/
def parseFields (flags : Flags) (f : List (BitVec 8)) :
    Except Halt (Directive × List (BitVec 8)) := do
  let (width, f) ← parseNumber f .none
  let (precision, f) ← parsePrecision f
  let (flags, f) ← parseLength f (flags.withPrecision precision.given)
  let conv ← peek f
  .ok (⟨flags, width, precision, conv⟩, f.tail)

/-- The directive behind a percent sign, and the format behind it. -/
def parseDirective (f : List (BitVec 8)) : Except Halt (Directive × List (BitVec 8)) := do
  let f ← advance f
  parseFields (parseFlags f {}).1 (parseFlags f {}).2

-- ---------------------------------------------------------------------------
-- Conversions
-- ---------------------------------------------------------------------------

/-- The width; a negative argument means padding on the right. The negation of
`INT_MIN` overflows, which halts. -/
def takeWidth (d : Directive) (st : State) : Option (ℕ × Flags × State) :=
  match d.width with
  | .none => some (0, d.flags, st)
  | .number n => some (n, d.flags, st)
  | .star => do
    let (a, st) ← st.next
    let w := (a.word.setWidth 32).toInt
    if w = -2 ^ 31 then none
    else some (w.natAbs, { d.flags with left := d.flags.left || decide (w < 0) }, st)

/-- The precision; a negative argument means 0. -/
def takePrecision (d : Directive) (st : State) : Option (ℕ × State) :=
  match d.precision with
  | .none => some (0, st)
  | .number n => some (n, st)
  | .star => do
    let (a, st) ← st.next
    some ((a.word.setWidth 32).toInt.toNat, st)

/-- `d`, `i`, `u`, `x`, `X`, `o` and `b` -/
def isInteger (conv : BitVec 8) : Bool :=
  ['d', 'i', 'u', 'x', 'X', 'o', 'b'].any fun c => conv == byte c

def isSigned (conv : BitVec 8) : Bool := conv == byte 'd' || conv == byte 'i'

def integerBase (conv : BitVec 8) : ℕ :=
  if conv = byte 'x' ∨ conv = byte 'X' then 16
  else if conv = byte 'o' then 8
  else if conv = byte 'b' then 2
  else 10

/-- Decimal numbers have no prefix, a precision puts the zero flag out of
force, and numbers without sign show none. -/
def integerFlags (conv : BitVec 8) (flags : Flags) : Flags :=
  { flags with
    hash := flags.hash && integerBase conv != 10
    uppercase := flags.uppercase || conv == byte 'X'
    zeropad := flags.zeropad && !flags.precision
    plus := flags.plus && isSigned conv
    space := flags.space && isSigned conv }

/-- `ABS_FOR_PRINTING`; the negation of `LONG_MIN` overflows, which halts. -/
def absForPrinting (value : ℤ) : Option ℕ := if value = -2 ^ 63 then none else some value.natAbs

def integerText (conv : BitVec 8) (word : BitVec 64) (precision width : ℕ) (flags : Flags) :
    Option (List (BitVec 8)) :=
  if isSigned conv then do
    let magnitude ← absForPrinting (signedValue flags word)
    some (printInteger magnitude (decide (signedValue flags word < 0)) (integerBase conv) precision
      width (integerFlags conv flags))
  else
    some (printInteger (unsignedValue flags word) false (integerBase conv) precision width
      (integerFlags conv flags))

def charText (word : BitVec 64) (width : ℕ) (flags : Flags) : List (BitVec 8) :=
  padded 1 width flags [word.setWidth 8]

def stringText (a : Arg) (precision width : ℕ) (flags : Flags) : Option (List (BitVec 8)) :=
  if a.word = 0 then some (outRev ([')', 'l', 'l', 'u', 'n', '('].map byte) width flags)
  else printString a.bytes precision width flags

/-- Two digits for each byte of a pointer, and the prefix. -/
def pointerWidth : ℕ := 18

def pointerText (word : BitVec 64) (precision : ℕ) (flags : Flags) : List (BitVec 8) :=
  if word = 0 then
    outRev ([')', 'l', 'i', 'n', '('].map byte) pointerWidth
      { flags with zeropad := true, pointer := true }
  else
    printInteger word.toNat false 16 precision pointerWidth
      { flags with zeropad := true, pointer := true }

/-- The number of bytes that `%n` writes. -/
def storeSize (flags : Flags) : ℕ :=
  if flags.char then 1 else if flags.short then 2 else if flags.long || flags.longLong then 8 else 4

/-- The `switch` over the specifier. -/
def convert (conv : BitVec 8) (precision width : ℕ) (flags : Flags) (st : State) : Option State :=
  if isInteger conv then do
    let (a, st) ← st.next
    let chars ← integerText conv a.word precision width flags
    some (st.put chars)
  else if conv = byte 'c' then do
    let (a, st) ← st.next
    some (st.put (charText a.word width flags))
  else if conv = byte 's' then do
    let (a, st) ← st.next
    let chars ← stringText a precision width flags
    some (st.put chars)
  else if conv = byte 'p' then do
    let (a, st) ← st.next
    some (st.put (pointerText a.word precision flags))
  else if conv = byte '%' then some (st.put [byte '%'])
  else if conv = byte 'n' then do
    let (a, st) ← st.next
    -- a store through a null or a misaligned pointer halts
    if a.word = 0 ∨ a.word.toNat % storeSize flags ≠ 0 then none
    else some { st with
      stores := st.stores ++
        [⟨a.word, storeSize flags, st.out.length % 2 ^ 32 % 2 ^ (8 * storeSize flags)⟩] }
  else some (st.put [conv])

def runDirective (d : Directive) (st : State) : Option State := do
  let (width, flags, st) ← takeWidth d st
  let (precision, st) ← takePrecision d st
  convert d.conv precision width flags st

/-- What `format_string_loop` comes to. It may read behind the format
(`badFormat`). It also does not come back from an argument that is missing, whose
string has no end, or at which the sanitizer halts the kernel (`badArgument`): the
lowest `int` as a width, the lowest `long` as a number, a null or misaligned pointer
for `%n`. -/
inductive Result where
  | done (st : State)
  | badFormat
  | badArgument

/-- `format_string_loop`, each round of which goes on in the format. -/
def formatLoop : ℕ → List (BitVec 8) → State → Result
  | 0, _, _ => .badFormat
  | _ + 1, [], _ => .badFormat
  | n + 1, c :: f, st =>
    if c = 0 then .done st
    else if c ≠ byte '%' then formatLoop n f (st.put [c])
    else
      match parseDirective (c :: f) with
      | .error .stop => .done st
      | .error .outside => .badFormat
      | .ok (d, f) =>
        match runDirective d st with
        | none => .badArgument
        | some st => formatLoop n f st

/-- A format from its first character on, terminator and all. -/
def format (f : List (BitVec 8)) (args : List Arg) : Result :=
  formatLoop f.length f { args := args }

end Printf
