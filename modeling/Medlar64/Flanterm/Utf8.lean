import Medlar64.Flanterm.Init
import Medlar64.Flanterm.Invariant

/-!
# Flanterm: characters of several bytes

How `flanterm_putchar` reads UTF-8. The code point is kept with the bits that
are still to come at its end.

* `continuation_run` — the bytes behind the first one.
* `utf8_decoded` — every character is read back from its encoding, whatever
  sequence it stands in.
-/

namespace Flanterm

open ArrayProg

variable {g : FbConfig} {ctx : Context}

/-- In a character: `r` bytes are still to come. -/
def Context.decodes (ctx : Context) (r : ℕ) (codePoint : BitVec 64) : Context :=
  { ctx with unicodeRemaining := r, codePoint := codePoint }

/-- The bits `p` have been read. -/
def Context.decoding (ctx : Context) (p r : ℕ) : Context :=
  ctx.decodes r (BitVec.ofNat 64 (p * 2 ^ (6 * r)))

/-- The byte with six bits of a character. -/
def continuation (b : ℕ) : BitVec 8 := BitVec.ofNat 8 (b + 0x80)

/-- The bits in front of `r` more bytes. -/
def codePointOf (a : ℕ) (bs : List ℕ) : ℕ := bs.foldl (fun p b => p * 64 + b) a

-- ---------------------------------------------------------------------------
-- Bits
-- ---------------------------------------------------------------------------

/-- A continuation byte as a number, -/
theorem toNat_continuation {b : ℕ} (hb : b < 64) : (continuation b).toNat = b + 0x80 := by
  rw [continuation, BitVec.toNat_ofNat, Nat.mod_eq_of_lt (by omega)]

/-- The lower bits of a byte under its mark. -/
theorem and_mask {n k b : ℕ} (hb : b < 2 ^ n) (hk : k % 2 ^ n = 0) :
    (b + k) &&& (2 ^ n - 1) = b := by
  rw [Nat.and_two_pow_sub_one_eq_mod, Nat.add_mod, hk, Nat.add_zero, Nat.mod_mod,
    Nat.mod_eq_of_lt hb]

/-- and its two bits that mark it as one. -/
theorem continuation_mark {b : ℕ} (hb : b < 64) : continuation b &&& 0xc0 = 0x80 := by
  have hall : ∀ b < 64, continuation b &&& 0xc0 = 0x80 := by
    decide
  exact hall b hb

/-- The six bits of a continuation byte are or-ed into the place that was
kept free for them. The bound keeps everything within the 64 bits of the
code point. -/
theorem codePoint_continuation {p r b : ℕ} (hp : (p + 1) * 2 ^ (6 * (r + 1)) ≤ 2 ^ 63)
    (hb : b < 64) :
    BitVec.ofNat 64 (p * 2 ^ (6 * (r + 1))) ||| (continuation b &&& 0x3f).setWidth 64 <<< (6 * r) =
      BitVec.ofNat 64 ((p * 64 + b) * 2 ^ (6 * r)) := by
  have hpow : 2 ^ (6 * (r + 1)) = 64 * 2 ^ (6 * r) := by
    rw [Nat.mul_succ, Nat.pow_add, Nat.mul_comm]
  have hbits : b * 2 ^ (6 * r) < 2 ^ (6 * (r + 1)) := by
    rw [hpow]
    exact Nat.mul_lt_mul_of_pos_right hb (Nat.two_pow_pos _)
  rw [Nat.succ_mul] at hp
  have hmask : ((continuation b &&& 0x3f).setWidth 64).toNat = b := by
    rw [BitVec.toNat_setWidth, BitVec.toNat_and, toNat_continuation hb]
    show ((b + 0x80) &&& (2 ^ 6 - 1)) % 2 ^ 64 = b
    rw [and_mask hb (by decide), Nat.mod_eq_of_lt (by omega)]
  have hsum : (p * 64 + b) * 2 ^ (6 * r) = 2 ^ (6 * (r + 1)) * p + b * 2 ^ (6 * r) := by
    rw [Nat.add_mul, Nat.mul_assoc, ← hpow, Nat.mul_comm p]
  have hcomm : p * 2 ^ (6 * (r + 1)) = 2 ^ (6 * (r + 1)) * p := Nat.mul_comm _ _
  refine BitVec.eq_of_toNat_eq ?_
  rw [BitVec.toNat_or, BitVec.toNat_shiftLeft, hmask, BitVec.toNat_ofNat, BitVec.toNat_ofNat,
    Nat.shiftLeft_eq, Nat.mod_eq_of_lt (by omega), Nat.mod_eq_of_lt (by omega), hsum,
    Nat.mod_eq_of_lt (by omega), hcomm, Nat.two_pow_add_eq_or_of_lt hbits]

-- ---------------------------------------------------------------------------
-- Bytes
-- ---------------------------------------------------------------------------

/-- One continuation byte while a character is under way. The last one prints
the character, any other only adds its bits. -/
theorem putchar_continuation (h : ctx.discardNext = false) {p r b : ℕ}
    (hp : (p + 1) * 2 ^ (6 * (r + 1)) ≤ 2 ^ 63) (hb : b < 64) :
    putchar g (continuation b) (ctx.decoding p (r + 1)) =
      if r = 0 then putCodePoint g (ctx.decoding (p * 64 + b) 0)
      else pure (ctx.decoding (p * 64 + b) r) := by
  have hbyte := toNat_continuation hb
  -- a continuation byte is from 0x80 on, so it is neither CAN nor SUB
  have hnot : ¬(ctx.discardNext = true ∨ continuation b = 0x18#8 ∨ continuation b = 0x1a#8) := by
    rw [h]
    rintro (hfalse | hcan | hsub)
    · exact Bool.false_ne_true hfalse
    · rw [hcan] at hbyte
      exact absurd hbyte (by simp)
    · rw [hsub] at hbyte
      exact absurd hbyte (by simp)
  rw [putchar]
  show (if ctx.discardNext = true ∨ continuation b = 0x18#8 ∨ continuation b = 0x1a#8 then _ else
    if r + 1 ≠ 0 then if continuation b &&& 0xc0 ≠ 0x80 then _ else _ else _) = _
  rw [if_neg hnot, if_pos (Nat.succ_ne_zero r), if_neg (not_not.mpr (continuation_mark hb))]
  have hcodePoint := codePoint_continuation hp hb
  show (if r ≠ 0 then pure (ctx.decodes r (_ ||| _))
    else putCodePoint g (ctx.decodes r (_ ||| _))) = _
  -- the last byte completes the character
  by_cases hr : r = 0
  · subst hr
    rw [if_neg (not_not.mpr rfl), if_pos rfl]
    exact congrArg (fun cp => putCodePoint g (ctx.decodes 0 cp)) hcodePoint
  · rw [if_pos hr, if_neg hr]
    exact congrArg (fun cp => (pure (ctx.decodes r cp) : Screen Context)) hcodePoint

/--
**The bytes behind the first one.** By induction on them: the code point grows
by six bits a byte, and the counter of the bytes to come reaches zero with the
last.
-/
theorem continuation_run (h : ctx.discardNext = false) {bs : List ℕ} (hbs : ∀ b ∈ bs, b < 64)
    {p : ℕ} (hne : bs ≠ []) (hp : (p + 1) * 2 ^ (6 * bs.length) ≤ 2 ^ 63) :
    putBytes g (bs.map continuation) (ctx.decoding p bs.length) =
      putCodePoint g (ctx.decoding (codePointOf p bs) 0) := by
  induction bs generalizing p with
  | nil => exact absurd rfl hne
  | cons b bs ih =>
    have hb := hbs b List.mem_cons_self
    have hstep := putchar_continuation (g := g) h hp hb
    rw [List.map_cons, putBytes_cons, List.length_cons, hstep]
    -- the last byte prints the character
    by_cases hlast : bs = []
    · subst hlast
      exact bind_pure _
    · have hroom : (p * 64 + b + 1) * 2 ^ (6 * bs.length) ≤ 2 ^ 63 := by
        refine le_trans ?_ hp
        have hpow : 2 ^ (6 * (b :: bs).length) = 64 * 2 ^ (6 * bs.length) := by
          rw [List.length_cons, Nat.mul_succ, Nat.pow_add, Nat.mul_comm]
        rw [hpow, ← Nat.mul_assoc]
        refine Nat.mul_le_mul_right _ ?_
        omega
      rw [if_neg (fun hzero => hlast (List.eq_nil_of_length_eq_zero hzero)), pure_bind]
      exact ih (fun b' hb' => hbs b' (List.mem_cons_of_mem b hb')) hlast hroom

/-- The first byte of a character, by the number of bytes that follow. -/
def leadByte (a : ℕ) : ℕ → BitVec 8
  | 1 => BitVec.ofNat 8 (a + 0xc0)
  | 2 => BitVec.ofNat 8 (a + 0xe0)
  | _ => BitVec.ofNat 8 (a + 0xf0)

/-- The bits for which it has room. -/
def leadBits : ℕ → ℕ
  | 1 => 5
  | 2 => 4
  | _ => 3

/-- The bits under the mark of a first byte, moved to their place. -/
theorem lead_bits {a n k s : ℕ} (ha : a < 2 ^ n) (hk : k % 2 ^ n = 0)
    (hlt : a + k < 256) {m : BitVec 8} (hm : m.toNat = 2 ^ n - 1) :
    (BitVec.ofNat 8 (a + k) &&& m).setWidth 64 <<< s = BitVec.ofNat 64 (a * 2 ^ s) := by
  have hmask : ((BitVec.ofNat 8 (a + k) &&& m).setWidth 64).toNat = a := by
    rw [BitVec.toNat_setWidth, BitVec.toNat_and, BitVec.toNat_ofNat, Nat.mod_eq_of_lt hlt, hm,
      and_mask ha hk, Nat.mod_eq_of_lt (by omega)]
  refine BitVec.eq_of_toNat_eq ?_
  rw [BitVec.toNat_shiftLeft, hmask, Nat.shiftLeft_eq, BitVec.toNat_ofNat]

/-- A first byte begins a character wherever it stands, but behind a byte that
discards the next one. -/
theorem putchar_start (h : ctx.discardNext = false) (hidle : ctx.unicodeRemaining = 0)
    {c : BitVec 8} (hc : 0xc0 ≤ c.toNat) : putchar g c ctx = putcharStart g c ctx := by
  have hnot : ¬(ctx.discardNext = true ∨ c = 0x18#8 ∨ c = 0x1a#8) := by
    rw [h]
    rintro (hfalse | rfl | rfl)
    · exact Bool.false_ne_true hfalse
    · exact absurd hc (by decide)
    · exact absurd hc (by decide)
  rw [putchar, if_neg hnot, if_neg (not_not.mpr hidle)]

/-- A lead byte outside any character starts one. Its range says how many bytes
will follow, and its low bits are the first of the code point. -/
theorem putchar_lead (h : ctx.discardNext = false) (hidle : ctx.unicodeRemaining = 0) {r a : ℕ}
    (hr : r = 1 ∨ r = 2 ∨ r = 3) (ha : a < 2 ^ leadBits r) :
    putchar g (leadByte a r) ctx = pure (ctx.decoding a r) := by
  -- the three ranges of lead bytes
  obtain rfl | rfl | rfl := hr
  · change a < 32 at ha
    have hlead : (leadByte a 1).toNat = a + 0xc0 := by
      rw [leadByte, BitVec.toNat_ofNat, Nat.mod_eq_of_lt (by omega)]
    rw [putchar_start h hidle (by omega), putcharStart, if_pos (by omega), if_pos (by omega)]
    exact congrArg (fun cp => (pure (ctx.decodes 1 cp) : Screen Context))
      (lead_bits (n := 5) ha (by decide) (by omega) rfl)
  · change a < 16 at ha
    have hlead : (leadByte a 2).toNat = a + 0xe0 := by
      rw [leadByte, BitVec.toNat_ofNat, Nat.mod_eq_of_lt (by omega)]
    rw [putchar_start h hidle (by omega), putcharStart, if_pos (by omega), if_neg (by omega),
      if_pos (by omega)]
    exact congrArg (fun cp => (pure (ctx.decodes 2 cp) : Screen Context))
      (lead_bits (n := 4) ha (by decide) (by omega) rfl)
  · change a < 8 at ha
    have hlead : (leadByte a 3).toNat = a + 0xf0 := by
      rw [leadByte, BitVec.toNat_ofNat, Nat.mod_eq_of_lt (by omega)]
      · intro heq
        exact absurd heq (by decide)
      · intro heq
        exact absurd heq (by decide)
    rw [putchar_start h hidle (by omega), putcharStart, if_pos (by omega), if_neg (by omega),
      if_neg (by omega)]
    exact congrArg (fun cp => (pure (ctx.decodes 3 cp) : Screen Context))
      (lead_bits (n := 3) ha (by decide) (by omega) rfl)

/-- A lead byte with all its continuation bytes ends in one `putCodePoint`
with the value of all their bits. -/
theorem sequence_run (h : ctx.discardNext = false) (hidle : ctx.unicodeRemaining = 0)
    {bs : List ℕ} (hbs : ∀ b ∈ bs, b < 64) (hr : bs.length = 1 ∨ bs.length = 2 ∨ bs.length = 3)
    {a : ℕ} (ha : a < 2 ^ leadBits bs.length) :
    putBytes g (leadByte a bs.length :: bs.map continuation) ctx =
      putCodePoint g (ctx.decoding (codePointOf a bs) 0) := by
  have hne : bs ≠ [] := by
    rintro rfl
    simp at hr
  -- at most 5 bits and 18 more
  have hroom : (a + 1) * 2 ^ (6 * bs.length) ≤ 2 ^ 63 := by
    have hsmall : a < 2 ^ 5 := by
      refine lt_of_lt_of_le ha (Nat.pow_le_pow_right (by decide) ?_)
      obtain heq | heq | heq := hr
      · rw [heq]
        decide
      · rw [heq]
        decide
      · rw [heq]
        decide
    calc (a + 1) * 2 ^ (6 * bs.length)
        ≤ 2 ^ 5 * 2 ^ 18 := Nat.mul_le_mul hsmall (Nat.pow_le_pow_right (by decide) (by omega))
      _ ≤ 2 ^ 63 := by decide
  rw [putBytes_cons, putchar_lead h hidle hr ha, pure_bind]
  exact continuation_run h hbs hne hroom

-- ---------------------------------------------------------------------------
-- Characters
-- ---------------------------------------------------------------------------

/-- The bytes of a character. -/
def utf8Bytes (c : Char) : List (BitVec 8) := (String.utf8EncodeChar c).map UInt8.toBitVec

/-- The encoding of a character from 0x80 on consists of a lead byte and one to
three continuation bytes, and its bits are those of the character. -/
theorem utf8Bytes_eq {c : Char} (hc : 0x80 ≤ c.toNat) :
    ∃ a bs, utf8Bytes c = leadByte a bs.length :: bs.map continuation ∧ (∀ b ∈ bs, b < 64) ∧
      (bs.length = 1 ∨ bs.length = 2 ∨ bs.length = 3) ∧ a < 2 ^ leadBits bs.length ∧
      codePointOf a bs = c.toNat := by
  have hlimit : c.val.toNat < 0x110000 := by
    obtain hlow | ⟨-, hhigh⟩ := c.valid
    · exact Nat.lt_trans hlow (by decide)
    · exact hhigh
  have hmany : ¬c.val.toNat ≤ 0x7f := Nat.not_le.mpr hc
  have hsix : ∀ n, n % 64 < 64 := fun n => Nat.mod_lt n (by decide)
  rw [utf8Bytes, String.utf8EncodeChar, if_neg hmany]
  -- by the number of bytes of the encoding
  by_cases htwo : c.val.toNat ≤ 0x7ff
  · rw [if_pos htwo]
    refine ⟨c.val.toNat / 64 % 32, [c.val.toNat % 64], rfl, ?_, .inl rfl,
      Nat.mod_lt _ (by decide), ?_⟩
    · simp [hsix]
    · show c.val.toNat / 64 % 32 * 64 + c.val.toNat % 64 = c.val.toNat
      omega
  · rw [if_neg htwo]
    by_cases hthree : c.val.toNat ≤ 0xffff
    · rw [if_pos hthree]
      refine ⟨c.val.toNat / 4096 % 16, [c.val.toNat / 64 % 64, c.val.toNat % 64], rfl, ?_,
        .inr (.inl rfl), Nat.mod_lt _ (by decide), ?_⟩
      · simp [hsix]
      · show (c.val.toNat / 4096 % 16 * 64 + c.val.toNat / 64 % 64) * 64 + c.val.toNat % 64 =
          c.val.toNat
        omega
    · rw [if_neg hthree]
      refine ⟨c.val.toNat / 262144 % 8,
        [c.val.toNat / 4096 % 64, c.val.toNat / 64 % 64, c.val.toNat % 64], rfl, ?_,
        .inr (.inr rfl), Nat.mod_lt _ (by decide), ?_⟩
      · simp [hsix]
      · show ((c.val.toNat / 262144 % 8 * 64 + c.val.toNat / 4096 % 64) * 64 +
          c.val.toNat / 64 % 64) * 64 + c.val.toNat % 64 = c.val.toNat
        omega

/-- So the bytes of such a character, fed to an idle decoder, print that
character. -/
theorem utf8_run (h : ctx.discardNext = false) (hidle : ctx.unicodeRemaining = 0) {c : Char}
    (hc : 0x80 ≤ c.toNat) :
    putBytes g (utf8Bytes c) ctx = putCodePoint g (ctx.decodes 0 (BitVec.ofNat 64 c.toNat)) := by
  obtain ⟨a, bs, hbytes, hbs, hr, ha, hvalue⟩ := utf8Bytes_eq hc
  rw [hbytes, sequence_run h hidle hbs hr ha, hvalue, Context.decoding, Nat.mul_zero, Nat.pow_zero,
    Nat.mul_one]

/-- A lead byte is neither ASCII nor a continuation byte. -/
theorem leadByte_ge {r a : ℕ} (hr : r = 1 ∨ r = 2 ∨ r = 3) (ha : a < 2 ^ leadBits r) :
    0xc0 ≤ (leadByte a r).toNat := by
  obtain rfl | rfl | rfl := hr
  · change a < 32 at ha
    rw [leadByte, BitVec.toNat_ofNat, Nat.mod_eq_of_lt (by omega)]
    omega
  · change a < 16 at ha
    rw [leadByte, BitVec.toNat_ofNat, Nat.mod_eq_of_lt (by omega)]
    omega
  · change a < 8 at ha
    rw [leadByte, BitVec.toNat_ofNat, Nat.mod_eq_of_lt (by omega)]
    · omega
    · exact fun heq => absurd heq (by decide)
    · exact fun heq => absurd heq (by decide)

/-- In the middle of a character such a byte drops what was read of it: the
decoder starts over as if it had been idle. -/
theorem putchar_resync (h : ctx.discardNext = false) {c : BitVec 8} (hc : 0xc0 ≤ c.toNat) :
    putchar g c ctx = putchar g c (ctx.decodes 0 ctx.codePoint) := by
  have hmark : ∀ n < 256, 0xc0 ≤ n → BitVec.ofNat 8 n &&& 0xc0#8 ≠ 0x80#8 := by
    decide +kernel
  have hnot : c &&& 0xc0 ≠ 0x80 := by
    have hc' := hmark c.toNat c.isLt hc
    rwa [BitVec.ofNat_toNat, BitVec.setWidth_eq] at hc'
  have hcontrol : ¬(ctx.discardNext = true ∨ c = 0x18#8 ∨ c = 0x1a#8) := by
    rw [h]
    rintro (hfalse | rfl | rfl)
    · exact Bool.false_ne_true hfalse
    · exact absurd hc (by decide)
    · exact absurd hc (by decide)
  by_cases hidle : ctx.unicodeRemaining = 0
  · have hsame : ctx.decodes 0 ctx.codePoint = ctx := by
      rw [Context.decodes, ← hidle]
    rw [hsame]
  · have hready : (ctx.decodes 0 ctx.codePoint).discardNext = false := h
    rw [putchar_start hready rfl hc, putchar, if_neg hcontrol, if_pos hidle, if_pos hnot]
    rfl

/-- **UTF-8 is read back.** For every character of several bytes: its bytes put
that character on the screen, also in the middle of an escape sequence or of
a character that is not complete. -/
theorem utf8_decoded (h : ctx.discardNext = false) {c : Char} (hc : 0x80 ≤ c.toNat) :
    putBytes g (utf8Bytes c) ctx =
      putCodePoint g { ctx with
        unicodeRemaining := 0
        codePoint := BitVec.ofNat 64 c.toNat } := by
  have hready : (ctx.decodes 0 ctx.codePoint).discardNext = false := h
  have hresync : putBytes g (utf8Bytes c) ctx =
      putBytes g (utf8Bytes c) (ctx.decodes 0 ctx.codePoint) := by
    obtain ⟨a, bs, hbytes, -, hr, ha, -⟩ := utf8Bytes_eq hc
    rw [hbytes, putBytes_cons, putBytes_cons, putchar_resync h (leadByte_ge hr ha)]
  rw [hresync, utf8_run hready rfl hc]
  rfl

/-- The first byte of another character stands before it. The three bytes of
`€` are read all the same. -/
theorem utf8_decoded_euro :
    putBytes xgaConfig (utf8Bytes '€') { startContext xgaConfig with unicodeRemaining := 2 } =
      putCodePoint xgaConfig { startContext xgaConfig with
        unicodeRemaining := 0
        codePoint := BitVec.ofNat 64 0x20ac } :=
  utf8_decoded rfl (by decide)

end Flanterm
