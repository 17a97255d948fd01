import Medlar64.Printf.Spelling

/-!
# printf: where a format ends

The checks of `ADVANCE_IN_FORMAT_STRING` stop a format that ends inside of a
directive. They are missing behind flags and digits, where the terminator is
taken for a conversion and the character behind it is read.

* `parseDirective_inside` — a directive does not go beyond the terminator.
* `format_inside` — nor does a format whose last character is neither a flag
  nor a digit.
-/

namespace Printf

variable {α β : Type} {g : List (BitVec 8)}

-- ---------------------------------------------------------------------------
-- Reading
-- ---------------------------------------------------------------------------

/-- A reader stops at the terminator or comes to a result with `p`. -/
def Reads (p : α → Prop) : Except Halt α → Prop
  | .error .stop => True
  | .error .outside => False
  | .ok a => p a

/-- A reading stops, or it gives a result with the property. -/
theorem Reads.cases {p : α → Prop} {x : Except Halt α} (h : Reads p x) :
    x = .error .stop ∨ ∃ a, x = .ok a ∧ p a := by
  cases x with
  | ok a => exact Or.inr ⟨a, rfl, h⟩
  | error halt =>
    cases halt with
    | stop => exact Or.inl rfl
    | outside => exact h.elim

/-- Readings one after the other: what the first one leaves is what the second
one starts from. -/
theorem Reads.bind {p : α → Prop} {q : β → Prop} {x : Except Halt α} {k : α → Except Halt β}
    (hx : Reads p x) (hk : ∀ a, p a → Reads q (k a)) : Reads q (x >>= k) := by
  obtain rfl | ⟨a, rfl, ha⟩ := hx.cases
  · exact trivial
  · exact hk a ha

/-- A property of the results may be weakened. -/
theorem Reads.imp {p q : α → Prop} {x : Except Halt α} (hx : Reads p x) (h : ∀ a, p a → q a) :
    Reads q x := by
  obtain rfl | ⟨a, rfl, ha⟩ := hx.cases
  · exact trivial
  · exact h a ha

/-- What is left of a format: a part of `g` that is not empty, and the terminator. -/
def Left (g f : List (BitVec 8)) : Prop := ∃ h, f = h ++ [0] ∧ h ≠ [] ∧ h <:+ g

/-- A format that ends with neither a flag nor a digit. -/
structure Finished (g : List (BitVec 8)) : Prop where
  terminator : 0 ∉ g
  last : ∀ c, g.getLast? = some c → isFlag c = false ∧ isDigit c = false

/-- What is left of a finished format is finished. -/
theorem Finished.suffix {h : List (BitVec 8)} (hg : Finished g) (hs : h <:+ g) : Finished h where
  terminator := fun hmem => hg.terminator (hs.mem hmem)
  last := by
    intro c hc
    obtain ⟨front, rfl⟩ := hs
    refine hg.last c ?_
    rw [List.getLast?_append, hc]
    rfl

/-- The same for the format without its first character. -/
theorem Finished.tail {c : BitVec 8} (hg : Finished (c :: g)) : Finished g :=
  hg.suffix (List.suffix_cons c g)

/-- A flag or a digit is not the last character. -/
theorem Finished.ne_nil {c : BitVec 8} (hg : Finished (c :: g))
    (hc : isFlag c = true ∨ isDigit c = true) : g ≠ [] := by
  rintro rfl
  obtain ⟨hflag, hdigit⟩ := hg.last c rfl
  rcases hc with hc | hc
  · simp [hflag] at hc
  · simp [hdigit] at hc

theorem Left.mono {h f : List (BitVec 8)} (hf : Left h f) (hs : h <:+ g) : Left g f := by
  obtain ⟨h', rfl, hne, hs'⟩ := hf
  exact ⟨h', rfl, hne, hs'.trans hs⟩

theorem left_self {h : List (BitVec 8)} (hne : h ≠ []) : Left h (h ++ [0]) :=
  ⟨h, rfl, hne, List.suffix_refl h⟩

-- ---------------------------------------------------------------------------
-- The parts of a directive
-- ---------------------------------------------------------------------------

/-- `ADVANCE_IN_FORMAT_STRING` steps to a character of the format, or it stops
the reading at the terminator. -/
theorem advance_inside (hne : g ≠ []) : Reads (Left g.tail) (advance (g ++ [0])) := by
  obtain ⟨c, g, rfl⟩ := List.exists_cons_of_ne_nil hne
  rw [advance, List.cons_append, List.tail_cons]
  cases g with
  | nil => exact trivial
  | cons d g =>
    show Reads _ (if d = 0 then _ else _)
    split
    · exact trivial
    · exact left_self (List.cons_ne_nil d g)

/-- The characters of `parse_flags` are the spellings of the five flags. -/
theorem exists_flag {c : BitVec 8} (hc : isFlag c = true) : ∃ fl : Flag, c = fl.spell := by
  obtain ⟨d, hd, heq⟩ := List.any_eq_true.mp hc
  rw [beq_iff_eq] at heq
  subst heq
  simp only [List.mem_cons, List.not_mem_nil, or_false] at hd
  rcases hd with rfl | rfl | rfl | rfl | rfl
  · exact ⟨.zeropad, rfl⟩
  · exact ⟨.left, rfl⟩
  · exact ⟨.plus, rfl⟩
  · exact ⟨.space, rfl⟩
  · exact ⟨.hash, rfl⟩

/-- `parse_flags` steps without a check, and still there is a character left:
the last one is no flag. -/
theorem parseFlags_inside (hg : Finished g) (hne : g ≠ []) (flags : Flags) :
    Left g (parseFlags (g ++ [0]) flags).2 := by
  induction g generalizing flags with
  | nil => exact absurd rfl hne
  | cons c g ih =>
    cases hc : isFlag c with
    | false =>
      rw [List.cons_append, parseFlags_stop hc]
      exact left_self hne
    | true =>
      obtain ⟨fl, rfl⟩ := exists_flag hc
      rw [List.cons_append, parseFlags_flag]
      exact (ih hg.tail (hg.ne_nil (Or.inl hc)) _).mono (List.suffix_cons _ g)

/-- `atou_` steps over digits without a check: the last character is no
digit. -/
theorem atou_inside (hg : Finished g) (hne : g ≠ []) (i : ℕ) : Left g (atou (g ++ [0]) i).2 := by
  induction g generalizing i with
  | nil => exact absurd rfl hne
  | cons c g ih =>
    rw [List.cons_append, atou]
    split
    case isTrue hc => exact (ih hg.tail (hg.ne_nil (Or.inr hc)) _).mono (List.suffix_cons _ g)
    case isFalse => exact left_self hne

/-- A number, a star or nothing leaves a character of the format. -/
theorem parseNumber_inside (hg : Finished g) (hne : g ≠ []) (default : Field) :
    Reads (fun r => Left g r.2) (parseNumber (g ++ [0]) default) := by
  have hadvance := advance_inside hne
  have hatou := atou_inside hg hne 0
  obtain ⟨c, g, rfl⟩ := List.exists_cons_of_ne_nil hne
  show Reads _ (if isDigit c then _ else if c = byte '*' then _ else _)
  split
  · exact hatou
  · split
    · exact hadvance.bind fun f hf => hf.mono (List.suffix_cons c g)
    · exact left_self hne

/-- A part of a directive, and what stands behind it. -/
theorem Reads.next (hg : Finished g) {p : α → List (BitVec 8)} {q : β → Prop} {x : Except Halt α}
    {k : α → Except Halt β} (hx : Reads (fun a => Left g (p a)) x)
    (hk : ∀ a h, p a = h ++ [0] → Finished h → h ≠ [] → h <:+ g → Reads q (k a)) :
    Reads q (x >>= k) := by
  refine hx.bind ?_
  intro a ha
  obtain ⟨h, heq, hne, hs⟩ := ha
  exact hk a h heq (hg.suffix hs) hne hs

/-- So does a precision, with its dot or without it. -/
theorem parsePrecision_inside (hg : Finished g) (hne : g ≠ []) :
    Reads (fun r => Left g r.2) (parsePrecision (g ++ [0])) := by
  have hadvance := advance_inside hne
  obtain ⟨c, g, rfl⟩ := List.exists_cons_of_ne_nil hne
  show Reads _ (if c = byte '.' then _ else _)
  split
  · refine Reads.next hg.tail (p := id) hadvance ?_
    intro f h heq hh hmore hs
    rw [show f = h ++ [0] from heq]
    exact (parseNumber_inside hh hmore _).imp fun r hr => hr.mono (hs.trans (List.suffix_cons c g))
  · exact left_self hne

/-- So does a length modifier, of one letter or of two. Behind `l` and `h` the
next character is looked at, which there is since the step to it was checked. -/
theorem parseLength_inside (hg : Finished g) (hne : g ≠ []) (flags : Flags) :
    Reads (fun r => Left g r.2) (parseLength (g ++ [0]) flags) := by
  have hadvance := advance_inside hne
  obtain ⟨c, g, rfl⟩ := List.exists_cons_of_ne_nil hne
  -- a second letter, as in `ll` and `hh`
  have hdouble : ∀ (d : BitVec 8) (one two : Flags), Reads (fun r => Left (c :: g) r.2)
      (advance (c :: g ++ [0]) >>= fun f => peek f >>= fun e =>
        if e = d then advance f >>= fun f => Except.ok (two, f) else Except.ok (one, f)) := by
    intro d one two
    refine Reads.next hg.tail (p := id) hadvance ?_
    intro f h heq hh hmore hs
    have hsuffix := hs.trans (List.suffix_cons c g)
    have hsecond := advance_inside hmore
    rw [show f = h ++ [0] from heq]
    obtain ⟨e, h, rfl⟩ := List.exists_cons_of_ne_nil hmore
    show Reads _ (if e = d then _ else _)
    split
    · exact hsecond.bind fun f hf => (hf.mono (List.suffix_cons e h)).mono hsuffix
    · exact (left_self hmore).mono hsuffix
  show Reads _ (if c = byte 'l' then _ else if c = byte 'h' then _ else
    if c = byte 't' ∨ c = byte 'j' ∨ c = byte 'z' then _ else _)
  split_ifs
  · exact hdouble (byte 'l') _ _
  · exact hdouble (byte 'h') _ _
  · exact hadvance.bind fun f hf => hf.mono (List.suffix_cons c g)
  · exact left_self hne

/-- What is left of a format behind a directive: it may be the terminator alone. -/
def Behind (g f : List (BitVec 8)) : Prop := ∃ h, f = h ++ [0] ∧ Finished h ∧ h.length < g.length

/-- The fields behind the flags, then the conversion: it is a character of the
format, and what is behind it is finished and shorter. -/
theorem parseFields_inside (hg : Finished g) (hne : g ≠ []) (flags : Flags) :
    Reads (fun r => Behind g r.2) (parseFields flags (g ++ [0])) := by
  rw [parseFields]
  refine Reads.next hg (parseNumber_inside hg hne _) ?_
  intro r h₁ heq₁ hg₁ hne₁ hs₁
  show Reads _ (parsePrecision r.2 >>= _)
  rw [heq₁]
  refine Reads.next hg₁ (parsePrecision_inside hg₁ hne₁) ?_
  intro r h₂ heq₂ hg₂ hne₂ hs₂
  show Reads _ (parseLength r.2 _ >>= _)
  rw [heq₂]
  refine Reads.next hg₂ (parseLength_inside hg₂ hne₂ _) ?_
  intro r h₃ heq₃ hg₃ hne₃ hs₃
  show Reads _ (peek r.2 >>= fun conv => Except.ok (_, r.2.tail))
  rw [heq₃]
  -- the conversion is a character of the format
  obtain ⟨c, h, rfl⟩ := List.exists_cons_of_ne_nil hne₃
  have hlength := ((hs₃.trans hs₂).trans hs₁).length_le
  exact ⟨h, rfl, hg₃.tail, hlength⟩

/-- **A directive does not go beyond the terminator.** Each part of it leaves a
character of the format for the next, up to the conversion; only behind that
the terminator may be next. -/
theorem parseDirective_inside (hg : Finished g) (hne : g ≠ []) :
    Reads (fun r => Behind g r.2) (parseDirective (g ++ [0])) := by
  have hadvance := advance_inside hne
  obtain ⟨c, g, rfl⟩ := List.exists_cons_of_ne_nil hne
  rw [parseDirective]
  refine Reads.next hg.tail (p := id) hadvance ?_
  intro f h heq hh hmore hs
  rw [show f = h ++ [0] from heq]
  obtain ⟨h', hflags, hmore', hs'⟩ := parseFlags_inside hh hmore {}
  rw [hflags]
  refine (parseFields_inside (hh.suffix hs') hmore' _).imp ?_
  intro r hr
  obtain ⟨rest, hrest, hfinished, hlength⟩ := hr
  have hle := (hs'.trans hs).length_le
  exact ⟨rest, hrest, hfinished, by rw [List.length_cons]; omega⟩

-- ---------------------------------------------------------------------------
-- The format
-- ---------------------------------------------------------------------------

/-- The loop reads nothing behind the terminator. By induction on the turns:
each turn leaves a finished format with less to read. -/
theorem formatLoop_inside {n : ℕ} (hg : Finished g) (hn : g.length < n) (st : State) :
    formatLoop n (g ++ [0]) st ≠ .badFormat := by
  induction n generalizing g st with
  | zero => omega
  | succ n ih =>
    cases g with
    | nil => exact Result.noConfusion
    | cons c g =>
      have hc : c ≠ 0 := by
        rintro rfl
        exact hg.terminator List.mem_cons_self
      rw [List.length_cons] at hn
      rw [List.cons_append, formatLoop, if_neg hc]
      split
      case isTrue => exact ih hg.tail (by omega) _
      case isFalse =>
        -- the directive ends at the terminator, or before it with less to read
        have hreads := parseDirective_inside hg (List.cons_ne_nil c g)
        rw [List.cons_append] at hreads
        obtain hstop | ⟨⟨d, f⟩, hparse, h, hf, hfinished, hlength⟩ := hreads.cases
        · rw [hstop]
          exact Result.noConfusion
        · obtain rfl : f = h ++ [0] := hf
          rw [List.length_cons] at hlength
          rw [hparse]
          dsimp only
          cases runDirective d st with
          | none => exact Result.noConfusion
          | some st' => exact ih hfinished (by omega) st'

/-- **A format whose last character is neither a flag nor a digit is read up to
its terminator**, whatever the arguments are. -/
theorem format_inside (hg : Finished g) (args : List Arg) :
    format (g ++ [0]) args ≠ .badFormat := by
  refine formatLoop_inside hg ?_ _
  rw [List.length_append]
  exact Nat.lt_succ_self _

/-- The format of an unknown command. Its last character is the line feed. -/
theorem format_inside_shell :
    format ("%s: command not found\n".toList.map byte ++ [0]) [⟨0x1000#64, [byte 'l', 0]⟩] ≠
      .badFormat := by
  refine format_inside ⟨by decide, ?_⟩ _
  intro c hc
  obtain rfl : c = byte '\n' := (Option.some.inj hc).symm
  exact ⟨rfl, rfl⟩

end Printf
