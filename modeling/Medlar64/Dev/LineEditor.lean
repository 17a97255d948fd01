import Mathlib.Data.List.GetD
import Medlar64.Dev.KbString

/-!
# Medlar64 — the line that `kb_get_string` edits

A wake-up of `kb_get_string` is a pass of its loop: from `hlt` with one value
of `kb_char` and of the modifiers until it halts again or returns. The
reference is a line editor on a list of characters.

* `wakeUp`, `readLine` — one wake-up and a sequence of them.
* `Editor.step` — the reference editor.
* `Screen.put` — a terminal line on which backspace moves left.
* `Edits.wakeUp` — one wake-up keeps the buffer, the position and the echo in
  step with the editor.
* `read_line_edits` — so does every sequence of them.
-/

namespace Medlar64

-- ---------------------------------------------------------------------------
-- Wake-ups
-- ---------------------------------------------------------------------------

/-- One step of `kb_get_string`; leaves when it halts or has returned. -/
def readerBody (s : Reader × Kb) : (Reader × Kb) ⊕ Reader :=
  match kbGetString s.1 s.2 with
  | none => .inr s.1
  | some next => if next.1.pc = .hlt ∨ next.1.pc = .gap then .inr next.1 else .inl next

/-- A wake-up of `kb_get_string` that sees `kb`; ten steps are more than the
longest way through the loop. -/
def wakeUp (r : Reader) (kb : Kb) : Option Reader := whileRun readerBody 10 (r, kb)

/-- One wake-up after another; a call that has returned sees no more of them. -/
def readLine (r : Reader) (kbs : List Kb) : Option Reader := kbs.foldlM wakeUp r

-- ---------------------------------------------------------------------------
-- The reference editor
-- ---------------------------------------------------------------------------

inductive Editor
  | editing (line : List (BitVec 8))
  /-- After a newline. -/
  | entered (line : List (BitVec 8))
  /-- After Ctrl-L. -/
  | cleared
  deriving DecidableEq

/-- The line that the buffer holds. -/
def Editor.line : Editor → List (BitVec 8)
  | editing line | entered line => line
  | cleared => []

/-- `l` or `L` with `kb_ctrl`. -/
def IsCtrlL (kb : Kb) : Prop := kb.ctrl = true ∧ (kb.char = 0x6c ∨ kb.char = 0x4c)

instance (kb : Kb) : Decidable (IsCtrlL kb) := inferInstanceAs (Decidable (_ ∧ _))

/-- The line editor for a buffer of `n` bytes: 0 is ignored, newline and Ctrl-L
end the line, backspace drops the last character, and any other character is
appended unless there are `n - 1`. -/
def Editor.step (n : ℕ) (e : Editor) (kb : Kb) : Editor :=
  match e with
  | entered line => .entered line
  | cleared => .cleared
  | editing line =>
    if kb.char = 0 then .editing line
    else if kb.char = 0x0a then .entered line
    else if kb.char = 0x08 then .editing line.dropLast
    else if IsCtrlL kb then .cleared
    else if line.length < n - 1 then .editing (line ++ [kb.char])
    else .editing line

/-- A line that is being edited has not been cleared away. -/
theorem editing_ne_cleared (line : List (BitVec 8)) : Editor.editing line ≠ .cleared := by
  simp

/-- The editor on a line, in the order in which `kb_get_string` tests the
character. -/
theorem Editor.step_editing (n : ℕ) (line : List (BitVec 8)) (kb : Kb) :
    Editor.step n (.editing line) kb =
      if kb.char = 0 then .editing line
      else if kb.char = 0x0a then .entered line
      else if kb.char = 0x08 then .editing line.dropLast
      else if IsCtrlL kb then .cleared
      else if line.length < n - 1 then .editing (line ++ [kb.char])
      else .editing line := rfl

-- ---------------------------------------------------------------------------
-- Lines by position
-- ---------------------------------------------------------------------------

/-- A line with one character more, -/
theorem getD_append_last {α : Type*} (line : List α) (c d : α) (i : ℕ) :
    (line ++ [c]).getD i d = if i = line.length then c else line.getD i d := by
  rcases Nat.lt_trichotomy i line.length with hlt | rfl | hgt
  · rw [if_neg (by omega), List.getD_append _ _ _ _ hlt]
  · simp
  · rw [if_neg (by omega), List.getD_eq_default _ _ (by simp; omega),
      List.getD_eq_default _ _ (by omega)]

/-- and with the last one taken away: that place then reads as one behind the
end. -/
theorem getD_dropLast {α : Type*} (line : List α) (d : α) (i : ℕ) :
    line.dropLast.getD i d = if i = line.length - 1 then d else line.getD i d := by
  rcases Nat.lt_trichotomy i (line.length - 1) with hlt | rfl | hgt
  · rw [if_neg (by omega), List.getD_eq_getElem?_getD, List.getElem?_dropLast, if_pos hlt,
      List.getD_eq_getElem?_getD]
  · rw [if_pos rfl, List.getD_eq_default _ _ (by simp)]
  · rw [if_neg (by omega), List.getD_eq_default _ _ (by simp; omega),
      List.getD_eq_default _ _ (by omega)]

-- ---------------------------------------------------------------------------
-- The screen
-- ---------------------------------------------------------------------------

/-- A line of the terminal, without an end on either side. -/
structure Screen where
  cells : ℤ → BitVec 8
  cursor : ℤ

def Screen.blank : Screen := { cells := fun _ => 0x20, cursor := 0 }

/-- Backspace moves left, any other character is written as a printable one is. -/
def Screen.put (s : Screen) (c : BitVec 8) : Screen :=
  if c = 0x08 then { s with cursor := s.cursor - 1 }
  else { cells := Function.update s.cells s.cursor c, cursor := s.cursor + 1 }

def Screen.replay (out : List (BitVec 8)) : Screen := out.foldl Screen.put .blank

/-- The line, blanks around it, and the cursor behind it. -/
structure Screen.Shows (s : Screen) (line : List (BitVec 8)) : Prop where
  cells : ∀ i : ℕ, s.cells i = line.getD i 0x20
  left : ∀ i < 0, s.cells i = 0x20
  cursor : s.cursor = line.length

theorem Screen.shows_blank : Screen.blank.Shows [] := ⟨fun _ => rfl, fun _ _ => rfl, rfl⟩

theorem Screen.replay_append (out more : List (BitVec 8)) :
    Screen.replay (out ++ more) = more.foldl Screen.put (.replay out) := List.foldl_append

/-- A character that is typed. -/
theorem Screen.Shows.put {s : Screen} {line : List (BitVec 8)} {c : BitVec 8} (h : s.Shows line)
    (hc : c ≠ 0x08) : (s.put c).Shows (line ++ [c]) := by
  rw [Screen.put, if_neg hc]
  refine ⟨?_, ?_, ?_⟩
  · intro i
    show Function.update s.cells s.cursor c i = _
    rw [h.cursor, Function.update_apply, h.cells, getD_append_last]
    exact if_congr (by omega) rfl rfl
  · intro i hi
    show Function.update s.cells s.cursor c i = _
    rw [h.cursor, Function.update_of_ne (by omega), h.left i hi]
  · simp [h.cursor]

/-- Backspace, blank, backspace wipes the last character and leaves the cursor
behind the one before it. -/
theorem Screen.Shows.erase {s : Screen} {line : List (BitVec 8)} (h : s.Shows line)
    (hne : line ≠ []) : (((s.put 0x08).put 0x20).put 0x08).Shows line.dropLast := by
  have hpos := List.length_pos_iff.mpr hne
  have hput : ((s.put 0x08).put 0x20).put 0x08 =
      { cells := Function.update s.cells (s.cursor - 1) 0x20, cursor := s.cursor - 1 } := by
    simp [Screen.put]
  rw [hput]
  refine ⟨?_, ?_, ?_⟩
  · intro i
    simp only [h.cursor, Function.update_apply, h.cells]
    rw [getD_dropLast]
    exact if_congr (by omega) rfl rfl
  · intro i hi
    simp only [h.cursor]
    rw [Function.update_of_ne (by omega), h.left i hi]
  · simp only [h.cursor, List.length_dropLast]
    omega

-- ---------------------------------------------------------------------------
-- One wake-up
-- ---------------------------------------------------------------------------

/-- What a wake-up of the halted reader does. -/
def Reader.wake (r : Reader) (kb : Kb) : Reader :=
  if kb.char = 0 then r
  else if kb.char = 0x0a then { r.printf [0x0a] with pc := .gap }
  else if kb.char = 0x08 then
    if r.pos ≤ 0 then r
    else { r.printf [0x08, 0x20, 0x08] with
      pos := r.pos - 1
      mach := r.mach.write8 (r.buf + (r.pos - 1)) 0 }
  else if IsCtrlL kb then
    { r.printf (ascii ['\x1b', '[', '2', 'J', '\x1b', '[', 'H']) with
      pc := .gap
      mach := memset r.mach r.buf 0 r.n }
  else if r.pos ≥ u64 (r.n + (2 ^ 64 - 1)) then r
  else { r.printf [kb.char] with
    pos := u64 (r.pos + 1)
    mach := r.mach.write8 (r.buf + r.pos) kb.char }

/--
From the test for room on, a wake-up echoes the character and stores it, or
passes both over when the buffer is full. Either way `kb_char` is cleared and
the reader halts again.
-/
theorem readerBody_room {r : Reader} {kb : Kb} (h : r.pc = .room) (fuel : ℕ) :
    whileRun readerBody (fuel + 4) (r, kb) = some
      (if r.pos ≥ u64 (r.n + (2 ^ 64 - 1)) then { r with pc := .hlt }
      else { r.printf [kb.char] with
        pc := .hlt
        pos := u64 (r.pos + 1)
        mach := r.mach.write8 (r.buf + r.pos) kb.char }) := by
  have hstep : kbGetString r kb = some ({ r with
      pc := if r.pos ≥ u64 (r.n + (2 ^ 64 - 1)) then .clear false else .echo }, kb) := by
    unfold kbGetString
    rw [h]
  -- no room: `kb_char` is cleared and nothing is stored
  by_cases hroom : r.pos ≥ u64 (r.n + (2 ^ 64 - 1))
  · rw [if_pos hroom] at hstep ⊢
    have hbody : readerBody (r, kb) = .inl ({ r with pc := .clear false }, kb) := by
      simp [readerBody, hstep]
    rw [whileRun_next hbody]
    simp [whileRun, readerBody, kbGetString]
  · rw [if_neg hroom] at hstep ⊢
    have hbody : readerBody (r, kb) = .inl ({ r with pc := .echo }, kb) := by
      simp [readerBody, hstep]
    rw [whileRun_next hbody]
    simp [whileRun, readerBody, kbGetString, Reader.printf]

/-- **A wake-up in one step**, from `hlt` to the next `hlt` or to the end of
the call. The cases are those of the `switch`, and ten rounds are enough for
the longest. -/
theorem wakeUp_eq {r : Reader} (kb : Kb) (h : r.pc = .hlt) : wakeUp r kb = some (r.wake kb) := by
  obtain ⟨pc, buf, n, pos, mach, out⟩ := r
  obtain rfl : pc = .hlt := h
  unfold Reader.wake
  by_cases h0 : kb.char = 0
  · simp [wakeUp, whileRun, readerBody, kbGetString, Reader.switch, h0]
  rw [if_neg h0]
  by_cases hnl : kb.char = 0x0a
  · simp [wakeUp, whileRun, readerBody, kbGetString, Reader.switch, hnl, Reader.printf]
  rw [if_neg hnl]
  by_cases hbs : kb.char = 0x08
  · by_cases hpos : pos ≤ 0
    · simp [wakeUp, whileRun, readerBody, kbGetString, Reader.switch, hbs, hpos]
    · simp [wakeUp, whileRun, readerBody, kbGetString, Reader.switch, hbs, hpos, Reader.printf]
  rw [if_neg hbs]
  by_cases hctrl : IsCtrlL kb
  · rw [if_pos hctrl]
    obtain ⟨hctrl, hl | hL⟩ := hctrl
    · simp [wakeUp, whileRun, readerBody, kbGetString, Reader.switch, hctrl, hl, Reader.printf]
    · simp [wakeUp, whileRun, readerBody, kbGetString, Reader.switch, hctrl, hL, Reader.printf]
  rw [if_neg hctrl]
  have hswitch : (⟨.dispatch, buf, n, pos, mach, out⟩ : Reader).switch kb.char = .ctrl := by
    unfold Reader.switch
    rw [if_neg h0, if_neg hnl, if_neg hbs]
  -- with or without the two tests that `kb_ctrl` asks for, on to the test for room
  obtain ⟨fuel, hroom⟩ : ∃ fuel, wakeUp ⟨.hlt, buf, n, pos, mach, out⟩ kb =
      whileRun readerBody (fuel + 4) (⟨.room, buf, n, pos, mach, out⟩, kb) := by
    cases hon : kb.ctrl with
    | false =>
      refine ⟨3, ?_⟩
      simp [wakeUp, whileRun_next, readerBody, kbGetString, hswitch, hon]
    | true =>
      have hl : kb.char ≠ 0x6c#8 := fun h => hctrl ⟨hon, .inl h⟩
      have hL : kb.char ≠ 0x4c#8 := fun h => hctrl ⟨hon, .inr h⟩
      refine ⟨1, ?_⟩
      simp [wakeUp, whileRun_next, readerBody, kbGetString, hswitch, hon, hl, hL]
  rw [hroom, readerBody_room rfl]
  rfl

-- ---------------------------------------------------------------------------
-- The buffer
-- ---------------------------------------------------------------------------

/-- The `n` bytes at `buf` are the line and zero bytes behind it, and nothing
else has changed since `m₀`. -/
structure Holds (m₀ : Machine) (buf n : ℕ) (line : List (BitVec 8)) (m : Machine) : Prop where
  globals : SameGlobals m₀ m
  bytes : ∀ i < n, m.read8 (buf + i) = line.getD i 0
  frame : ∀ x, (∀ i < n, x ≠ m₀.physical (buf + i)) → m.mem x = m₀.mem x

section Buffer

variable {m₀ m : Machine} {buf n : ℕ} {line line' : List (BitVec 8)}

/-- The call begins with a buffer of zeros, which holds the empty line. -/
theorem holds_memset (m : Machine) (buf n : ℕ) : Holds m buf n [] (memset m buf 0 n) where
  globals := sameGlobals_memset m buf 0 n
  bytes _ hi := memset_read8 m 0 hi
  frame _ hx := memset_other m 0 hx

/-- A line that was held before does not matter to it. -/
theorem Holds.memset (h : Holds m₀ buf n line m) : Holds m₀ buf n [] (memset m buf 0 n) where
  globals := h.globals.trans (sameGlobals_memset m buf 0 n)
  bytes := (holds_memset m buf n).bytes
  frame x hx := by
    rw [memset_other m 0 fun i hi => by rw [h.globals.physical]; exact hx i hi, h.frame x hx]

/-- A byte of the line changes. -/
theorem Holds.write8 {j : ℕ} {c : BitVec 8} (h : Holds m₀ buf n line m) (hn : n < 2 ^ 64)
    (hj : j < n) (hline : ∀ i, line'.getD i 0 = if i = j then c else line.getD i 0) :
    Holds m₀ buf n line' (m.write8 (buf + j) c) where
  globals := h.globals.trans (sameGlobals_write8 m _ c)
  bytes i hi := by
    rw [read8_write8, hline, h.bytes i hi]
    refine if_congr ⟨physical_add_inj m (by omega) (by omega), ?_⟩ rfl rfl
    rintro rfl
    rfl
  frame x hx := by
    show Function.update m.mem (m.physical (buf + j)) c x = _
    rw [Function.update_of_ne (by rw [h.globals.physical]; exact hx j hj), h.frame x hx]

end Buffer

-- ---------------------------------------------------------------------------
-- The reader keeps in step
-- ---------------------------------------------------------------------------

/-- Where `kb_get_string` is between two wake-ups. -/
def Editor.pc : Editor → KbPc
  | editing _ => .hlt
  | entered _ | cleared => .gap

/-- What is printed behind the echo when the line ends. -/
def Editor.farewell : Editor → List (BitVec 8)
  | editing _ => []
  | entered _ => [0x0a]
  | cleared => ascii ['\x1b', '[', '2', 'J', '\x1b', '[', 'H']

/-- The reader called as `r₀` with `kb_get_string(buf, n)` is where the editor is. -/
structure Edits (r₀ : Reader) (buf n : ℕ) (e : Editor) (r : Reader) : Prop where
  pc : r.pc = e.pc
  buf_eq : r.buf = buf
  n_eq : r.n = n
  holds : Holds r₀.mach buf n e.line r.mach
  room : e.line.length ≤ n - 1
  nonzero : ∀ c ∈ e.line, c ≠ 0
  pos : e ≠ .cleared → r.pos = e.line.length
  echo : ∃ echo, r.out = r₀.out ++ echo ++ e.farewell ∧
    (e ≠ .cleared → (Screen.replay echo).Shows e.line)

/-- The call as a whole begins in step with the editor. -/
theorem edits_call (r : Reader) (buf n : ℕ) : Edits r buf n (.editing []) (r.call buf n) where
  pc := rfl
  buf_eq := rfl
  n_eq := rfl
  holds := holds_memset r.mach buf n
  room := Nat.zero_le _
  nonzero := nofun
  pos _ := rfl
  echo := ⟨[], by simp [Reader.call, Editor.farewell], fun _ => Screen.shows_blank⟩

section Steps

variable {r₀ r : Reader} {buf n : ℕ} {line : List (BitVec 8)} {kb : Kb}

theorem Edits.pos_editing (h : Edits r₀ buf n (.editing line) r) : r.pos = line.length :=
  h.pos (editing_ne_cleared line)

/-- While the line is edited, the echo is all that was printed. -/
theorem Edits.echo_editing (h : Edits r₀ buf n (.editing line) r) :
    ∃ echo, r.out = r₀.out ++ echo ∧ (Screen.replay echo).Shows line := by
  obtain ⟨echo, hout, hshows⟩ := h.echo
  exact ⟨echo, by simpa [Editor.farewell] using hout, hshows (editing_ne_cleared line)⟩

/-- A newline ends the call with the line as it is. -/
theorem Edits.newline (h : Edits r₀ buf n (.editing line) r) :
    Edits r₀ buf n (.entered line) { r.printf [0x0a] with pc := .gap } where
  pc := rfl
  buf_eq := h.buf_eq
  n_eq := h.n_eq
  holds := h.holds
  room := h.room
  nonzero := h.nonzero
  pos _ := h.pos_editing
  echo := by
    obtain ⟨echo, hout, hshows⟩ := h.echo_editing
    exact ⟨echo, by simp [Reader.printf, hout, Editor.farewell], fun _ => hshows⟩

/-- Ctrl-L ends it with a blank screen and an empty buffer. The position is
left where it was; nothing reads it any more. -/
theorem Edits.clear (h : Edits r₀ buf n (.editing line) r) :
    Edits r₀ buf n .cleared { r.printf (ascii ['\x1b', '[', '2', 'J', '\x1b', '[', 'H']) with
      pc := .gap
      mach := memset r.mach r.buf 0 r.n } where
  pc := rfl
  buf_eq := h.buf_eq
  n_eq := h.n_eq
  holds := by
    rw [h.buf_eq, h.n_eq]
    exact h.holds.memset
  room := Nat.zero_le _
  nonzero := nofun
  pos hne := absurd rfl hne
  echo := by
    obtain ⟨echo, hout, -⟩ := h.echo_editing
    exact ⟨echo, by simp [Reader.printf, hout, Editor.farewell], fun hne => absurd rfl hne⟩

/-- Backspace takes the last character out of the buffer, the position and the
echo alike. With an empty line none of the three is touched; that case is not
here. -/
theorem Edits.erase (h : Edits r₀ buf n (.editing line) r) (hn : n < 2 ^ 64) (hne : line ≠ []) :
    Edits r₀ buf n (.editing line.dropLast) { r.printf [0x08, 0x20, 0x08] with
      pos := r.pos - 1
      mach := r.mach.write8 (r.buf + (r.pos - 1)) 0 } where
  pc := h.pc
  buf_eq := h.buf_eq
  n_eq := h.n_eq
  holds := by
    have hlen := List.length_pos_iff.mpr hne
    have hroom : line.length ≤ n - 1 := h.room
    rw [h.buf_eq, h.pos_editing]
    exact h.holds.write8 hn (by omega) (getD_dropLast line 0)
  room := by
    have hroom : line.length ≤ n - 1 := h.room
    simp only [Editor.line, List.length_dropLast]
    omega
  nonzero c hc := h.nonzero c (List.dropLast_subset line hc)
  pos _ := by simp [h.pos_editing, Editor.line]
  echo := by
    obtain ⟨echo, hout, hshows⟩ := h.echo_editing
    refine ⟨echo ++ [0x08, 0x20, 0x08], by simp [Reader.printf, hout, Editor.farewell], fun _ => ?_⟩
    -- backspace, blank, backspace wipes the last character
    rw [Screen.replay_append]
    exact hshows.erase hne

/-- A character for which there is room goes to all three: the line of the
editor, the buffer at `pos`, and the echo. With room for it, `pos` stays below
`n`, so that the position does not wrap and the byte behind the line is still
zero. -/
theorem Edits.type (h : Edits r₀ buf n (.editing line) r) (hn : n < 2 ^ 64)
    (hroom : line.length < n - 1) (hzero : kb.char ≠ 0) (hback : kb.char ≠ 0x08) :
    Edits r₀ buf n (.editing (line ++ [kb.char])) { r.printf [kb.char] with
      pos := u64 (r.pos + 1)
      mach := r.mach.write8 (r.buf + r.pos) kb.char } where
  pc := h.pc
  buf_eq := h.buf_eq
  n_eq := h.n_eq
  holds := by
    rw [h.buf_eq, h.pos_editing]
    exact h.holds.write8 hn (by omega) (getD_append_last line kb.char 0)
  room := by
    simp only [Editor.line, List.length_append, List.length_singleton]
    omega
  nonzero c hc := by
    rcases List.mem_append.mp hc with hc | hc
    · exact h.nonzero c hc
    · rw [List.mem_singleton.mp hc]
      exact hzero
  pos _ := by
    simp only [Editor.line, List.length_append, List.length_singleton]
    -- the position does not overflow below `n`
    rw [h.pos_editing, u64_of_lt (by omega)]
  echo := by
    obtain ⟨echo, hout, hshows⟩ := h.echo_editing
    refine ⟨echo ++ [kb.char], by simp [Reader.printf, hout, Editor.farewell], fun _ => ?_⟩
    rw [Screen.replay_append]
    exact hshows.put hback

/--
**Step.** One wake-up, with whatever value `kb_char` and the modifiers have,
keeps the buffer, the position and the echo in step with the editor. Along the
tests of the `switch`; a call that has returned is left alone.
-/
theorem Edits.wakeUp {e : Editor} (h : Edits r₀ buf n e r) (hn : 1 ≤ n) (hn64 : n < 2 ^ 64)
    (kb : Kb) : ∃ r', wakeUp r kb = some r' ∧ Edits r₀ buf n (e.step n kb) r' := by
  -- a call that has returned stays where it is
  have hgap (hpc : r.pc = .gap) : Medlar64.wakeUp r kb = some r := by
    simp [Medlar64.wakeUp, whileRun, readerBody, kbGetString, hpc]
  cases e with
  | entered line => exact ⟨r, hgap h.pc, h⟩
  | cleared => exact ⟨r, hgap h.pc, h⟩
  | editing line =>
    refine ⟨_, wakeUp_eq kb h.pc, ?_⟩
    have hpos := h.pos_editing
    rw [Editor.step_editing]
    unfold Reader.wake
    by_cases hzero : kb.char = 0
    · rw [if_pos hzero, if_pos hzero]
      exact h
    rw [if_neg hzero, if_neg hzero]
    by_cases hline : kb.char = 0x0a
    · rw [if_pos hline, if_pos hline]
      exact h.newline
    rw [if_neg hline, if_neg hline]
    by_cases hback : kb.char = 0x08
    · rw [if_pos hback, if_pos hback]
      by_cases hne : line = []
      · -- nothing to erase
        rw [if_pos (by simp [hpos, hne])]
        subst hne
        exact h
      · rw [if_neg (by simp [hpos, hne])]
        exact h.erase hn64 hne
    rw [if_neg hback, if_neg hback]
    by_cases hctrl : IsCtrlL kb
    · rw [if_pos hctrl, if_pos hctrl]
      exact h.clear
    rw [if_neg hctrl, if_neg hctrl]
    -- `n - 1` does not wrap, as `n` is not 0
    have hlast : u64 (r.n + (2 ^ 64 - 1)) = n - 1 := by
      unfold u64
      rw [h.n_eq]
      omega
    rw [hlast]
    by_cases hfull : r.pos ≥ n - 1
    · rw [if_pos hfull, if_neg (by omega)]
      exact h
    · rw [if_neg hfull, if_pos (by omega)]
      exact h.type hn64 (by omega) hzero hback

/-- **Any number of wake-ups.** -/
theorem Edits.readLine {e : Editor} (h : Edits r₀ buf n e r) (hn : 1 ≤ n) (hn64 : n < 2 ^ 64)
    (kbs : List Kb) :
    ∃ r', readLine r kbs = some r' ∧ Edits r₀ buf n (kbs.foldl (Editor.step n) e) r' := by
  induction kbs generalizing e r with
  | nil => exact ⟨r, rfl, h⟩
  | cons kb kbs ih =>
    obtain ⟨next, hnext, hedits⟩ := h.wakeUp hn hn64 kb
    obtain ⟨r', hrun, hend⟩ := ih hedits
    refine ⟨r', ?_, hend⟩
    unfold Medlar64.readLine
    rw [List.foldlM_cons, hnext]
    exact hrun

end Steps

-- ---------------------------------------------------------------------------
-- The result
-- ---------------------------------------------------------------------------

/-- **The line read is the line edited.** For every sequence of wake-ups the
buffer is what the editor makes of it, with zero bytes up to `n`; until a
Ctrl-L `pos` stays within `n - 1`, no byte before it and every byte from it on
is zero, and the echo shows the bytes before it; nothing outside the buffer is
written. -/
theorem read_line_edits (r : Reader) {buf n : ℕ} (hn : 1 ≤ n) (hn64 : n < 2 ^ 64)
    (kbs : List Kb) :
    ∃ r' e echo, readLine (r.call buf n) kbs = some r' ∧
      e = kbs.foldl (Editor.step n) (.editing []) ∧ r'.pc = e.pc ∧
      (∀ i < n, r'.mach.read8 (buf + i) = e.line.getD i 0) ∧
      r'.out = r.out ++ echo ++ e.farewell ∧
      (e ≠ .cleared → r'.pos = e.line.length ∧ r'.pos ≤ n - 1 ∧
        (∀ i < r'.pos, r'.mach.read8 (buf + i) ≠ 0) ∧
        (∀ i < n, r'.pos ≤ i → r'.mach.read8 (buf + i) = 0) ∧
        (Screen.replay echo).Shows e.line) ∧
      ∀ x, (∀ i < n, x ≠ r.mach.physical (buf + i)) → r'.mach.mem x = r.mach.mem x := by
  obtain ⟨r', hrun, hedits⟩ := (edits_call r buf n).readLine hn hn64 kbs
  obtain ⟨echo, hout, hshows⟩ := hedits.echo
  refine ⟨r', _, echo, hrun, rfl, hedits.pc, hedits.holds.bytes, hout, ?_,
    hedits.holds.frame⟩
  intro hne
  have hpos := hedits.pos hne
  have hroom := hedits.room
  refine ⟨hpos, by omega, fun i hi => ?_, fun i hi hle => ?_, hshows hne⟩
  · rw [hedits.holds.bytes i (by omega), List.getD_eq_getElem _ _ (by omega)]
    exact hedits.nonzero _ (List.getElem_mem _)
  · rw [hedits.holds.bytes i hi, List.getD_eq_default _ _ (by omega)]

/-- A reader that was never called. -/
def idleReader : Reader :=
  { pc := .gap, buf := 0, n := 0, pos := 0, mach := .boot (fun _ => 0) usualHhdm, out := [] }

/-- Three characters fit into four bytes: the fourth is ignored, the third
erased. What is left is `hi` and two zero bytes. -/
theorem read_line_edits_hi :
    ∃ r', readLine (idleReader.call (usualHhdm + 4096) 4)
        ((ascii ['h', 'i', '!', '?', '\x08', '\n']).map fun c => { Kb.init with char := c }) =
        some r' ∧ r'.pc = .gap ∧
      ∀ i < 4, r'.mach.read8 (usualHhdm + 4096 + i) = (ascii ['h', 'i']).getD i 0 := by
  obtain ⟨r', e, -, hrun, he, hpc, hbytes, -⟩ := read_line_edits idleReader
    (by decide : 1 ≤ 4) (by decide) ((ascii ['h', 'i', '!', '?', '\x08', '\n']).map
      fun c => { Kb.init with char := c })
  obtain rfl : e = .entered (ascii ['h', 'i']) := he
  exact ⟨r', hrun, hpc, hbytes⟩

end Medlar64
