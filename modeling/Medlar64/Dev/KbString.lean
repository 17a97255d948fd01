import Medlar64.Dev.Kb
import Medlar64.Mm.Machine

/-!
# Medlar64 — reading a line (`kb_get_string` in `kb.c`)

`kb_get_string` one access to `kb_char` at a time, so that an interrupt can
come between any two of them. The program counter names what comes next; at
`gap` the function has returned and the next call has not been made.

* `kbGetString` — one step of the source function.
* `kbGetString_mailbox` — what a step does to `kb_char`.
* `kbGetString_toDispatch` — a call that goes on comes back to its `switch`.
-/

namespace Medlar64

/-- Where `kb_get_string` is. -/
inductive KbPc
  /-- Between two calls. -/
  | gap
  | hlt
  /-- `switch (kb_char)`. -/
  | dispatch
  /-- `case '\n'`: `printf("\n")`. -/
  | newline
  /-- `case '\b'`, with a character to erase. -/
  | erase
  /-- `default`: `kb_ctrl &&`. -/
  | ctrl
  /-- `kb_char == 'l' ||`. -/
  | lower
  /-- `kb_char == 'L'`. -/
  | upper
  | clearScreen
  /-- `pos >= n - 1`. -/
  | room
  /-- `printf("%c", kb_char)`. -/
  | echo
  /-- `buf[pos] = kb_char; pos++`. -/
  | store
  /-- `kb_char = 0`, with or without a `return` behind it. -/
  | clear (ret : Bool)
  deriving DecidableEq

/-- After the `switch` has read `kb_char` and before it is cleared. -/
def KbPc.busy : KbPc → Bool
  | gap | hlt | dispatch => false
  | _ => true

/-- The activation of `kb_get_string`, the memory it writes to, and the
characters printed. -/
structure Reader where
  pc : KbPc
  buf : ℕ
  n : ℕ
  pos : ℕ
  mach : Machine
  out : List (BitVec 8)

def Reader.printf (r : Reader) (text : List (BitVec 8)) : Reader :=
  { r with out := r.out ++ text }

/-- `kb_get_string(buf, n)` up to its loop. -/
def Reader.call (r : Reader) (buf n : ℕ) : Reader :=
  { r with pc := .hlt, buf, n, pos := 0, mach := memset r.mach buf 0 n }

/-- `switch (kb_char)`. -/
def Reader.switch (r : Reader) (c : BitVec 8) : KbPc :=
  if c = 0 then .clear false
  else if c = 0x0a then .newline
  else if c = 0x08 then if r.pos ≤ 0 then .clear false else .erase
  else .ctrl

/-- One step of `kb_get_string`; `none` between two calls. `hlt` ends with any
interrupt, of the timer as well as of the keyboard. -/
def kbGetString (r : Reader) (kb : Kb) : Option (Reader × Kb) :=
  match r.pc with
  | .gap => none
  | .hlt => some ({ r with pc := .dispatch }, kb)
  | .dispatch => some ({ r with pc := r.switch kb.char }, kb)
  -- the echo of a newline, before `kb_char` is cleared
  | .newline => some ({ r.printf [0x0a] with pc := .clear true }, kb)
  -- `pos` is decremented before the byte is cleared
  | .erase =>
    some ({ r.printf [kb.char, 0x20, 0x08] with
      pc := .clear false
      pos := r.pos - 1
      mach := r.mach.write8 (r.buf + (r.pos - 1)) 0 }, kb)
  | .ctrl => some ({ r with pc := if kb.ctrl then .lower else .room }, kb)
  | .lower => some ({ r with pc := if kb.char = 0x6c then .clearScreen else .upper }, kb)
  | .upper => some ({ r with pc := if kb.char = 0x4c then .clearScreen else .room }, kb)
  | .clearScreen =>
    some ({ r.printf (ascii ['\x1b', '[', '2', 'J', '\x1b', '[', 'H']) with
      pc := .clear true
      mach := memset r.mach r.buf 0 r.n }, kb)
  -- `n - 1` is a `u64`: for `n = 0` there is room for 2^64 - 1 characters
  | .room =>
    some ({ r with pc := if r.pos ≥ u64 (r.n + (2 ^ 64 - 1)) then .clear false else .echo }, kb)
  | .echo => some ({ r.printf [kb.char] with pc := .store }, kb)
  | .store =>
    some ({ r with
      pc := .clear false
      pos := u64 (r.pos + 1)
      mach := r.mach.write8 (r.buf + r.pos) kb.char }, kb)
  | .clear ret => some ({ r with pc := if ret then .gap else .hlt }, { kb with char := 0 })

-- ---------------------------------------------------------------------------
-- The mailbox
-- ---------------------------------------------------------------------------

/-- Behind the `switch` the reader works on the character, whichever it is. -/
theorem switch_busy (r : Reader) (c : BitVec 8) : (r.switch c).busy = true := by
  unfold Reader.switch
  split_ifs <;> rfl

/--
**What a step does to `kb_char`.** It is read in the `switch`, cleared behind
the work, and left alone by every other step; `busy` says in which of the two
halves the reader is.
-/
theorem kbGetString_mailbox {r r' : Reader} {kb kb' : Kb}
    (h : kbGetString r kb = some (r', kb')) :
    r.pc = .dispatch ∧ kb' = kb ∧ r'.pc.busy = true ∨
      (∃ ret, r.pc = .clear ret) ∧ kb' = { kb with char := 0 } ∧ r'.pc.busy = false ∨
      (r.pc ≠ .dispatch ∧ ∀ ret, r.pc ≠ .clear ret) ∧ kb' = kb ∧ r'.pc.busy = r.pc.busy := by
  unfold kbGetString at h
  cases hpc : r.pc with
  | gap => simp [hpc] at h
  | dispatch =>
    rw [hpc] at h
    obtain ⟨rfl, rfl⟩ := Prod.mk.inj (Option.some.inj h)
    exact .inl ⟨rfl, rfl, switch_busy r kb.char⟩
  | clear ret =>
    rw [hpc] at h
    obtain ⟨rfl, rfl⟩ := Prod.mk.inj (Option.some.inj h)
    refine .inr (.inl ⟨⟨ret, rfl⟩, rfl, ?_⟩)
    cases ret <;> rfl
  -- the tests and the work in between leave `kb_char` alone
  | ctrl | lower | upper | room =>
    rw [hpc] at h
    obtain ⟨rfl, rfl⟩ := Prod.mk.inj (Option.some.inj h)
    refine .inr (.inr ⟨⟨nofun, nofun⟩, rfl, ?_⟩)
    simp only
    split_ifs <;> rfl
  | hlt | newline | erase | clearScreen | echo | store =>
    rw [hpc] at h
    obtain ⟨rfl, rfl⟩ := Prod.mk.inj (Option.some.inj h)
    exact .inr (.inr ⟨⟨nofun, nofun⟩, rfl, rfl⟩)

/-- Within a call there is always a next step. -/
theorem kbGetString_ready {r : Reader} (kb : Kb) (h : r.pc ≠ .gap) :
    ∃ next, kbGetString r kb = some next := by
  unfold kbGetString
  cases hpc : r.pc with
  | gap => exact absurd hpc h
  | _ => exact ⟨_, rfl⟩

-- ---------------------------------------------------------------------------
-- Progress
-- ---------------------------------------------------------------------------

/-- The most steps that can come before the next dispatch, the next call
included. -/
def KbPc.toDispatch : KbPc → ℕ
  | dispatch => 0
  | hlt => 1
  | gap => 2
  | clear _ => 3
  | newline | erase | clearScreen | store => 4
  | echo => 5
  | room => 6
  | upper => 7
  | lower => 8
  | ctrl => 9

/-- Every step that is not the `switch` brings the reader nearer to it, in this
call or, behind the end of one, in the next. -/
theorem kbGetString_toDispatch {r r' : Reader} {kb kb' : Kb}
    (h : kbGetString r kb = some (r', kb')) (hne : r.pc ≠ .dispatch) :
    r'.pc.toDispatch < r.pc.toDispatch := by
  unfold kbGetString at h
  cases hpc : r.pc with
  | gap => simp [hpc] at h
  | dispatch => exact absurd hpc hne
  | clear ret =>
    rw [hpc] at h
    -- after the dispatch the loop ends or begins anew
    obtain ⟨rfl, rfl⟩ := Prod.mk.inj (Option.some.inj h)
    cases ret <;> simp [KbPc.toDispatch]
  | ctrl | lower | upper | room =>
    rw [hpc] at h
    obtain ⟨rfl, rfl⟩ := Prod.mk.inj (Option.some.inj h)
    simp only
    split_ifs <;> simp [KbPc.toDispatch]
  | hlt | newline | erase | clearScreen | echo | store =>
    rw [hpc] at h
    obtain ⟨rfl, rfl⟩ := Prod.mk.inj (Option.some.inj h)
    simp [KbPc.toDispatch]

end Medlar64
