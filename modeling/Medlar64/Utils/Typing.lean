import Mathlib.Data.List.ReduceOption
import Medlar64.Dev.KbBytes
import Medlar64.Utils.Session

/-!
# Medlar64 — the shell on its interrupts

Between two interrupts the kernel is in the `hlt` of `kb_get_string`. The timer
or the keyboard wakes it up, the handler runs, and the reader looks at `kb_char`.
When the line ends, the shell answers and asks for the next one.

* `shellEvent` — an interrupt, up to the next `hlt`.
* `Desk` — what it is about: the sheet, the line and the modifier keys.
* `AtDesk.event` — the kernel keeps in step with the desk.
* `Desk.key` — the bytes of a key are the wake-up of its character.
* `shell_interrupts` — any interrupts, from the byte at port 0x60 to the picture.
* `shell_typed` — lines of characters, typed with the timer ticking.
-/

namespace Medlar64

open Flanterm (Stroke)

-- ---------------------------------------------------------------------------
-- The source
-- ---------------------------------------------------------------------------

/-- The loop of `kb_get_string`, with what it leaves in the globals of `kb.c`. -/
def waitBody (s : Reader × Kb) : (Reader × Kb) ⊕ (Reader × Kb) :=
  match kbGetString s.1 s.2 with
  | none => .inr s
  | some next => if next.1.pc = .hlt ∨ next.1.pc = .gap then .inr next else .inl next

/-- From `hlt` to the next `hlt`, or to the end of the call. -/
def waitKey (r : Reader) (kb : Kb) : Option (Reader × Kb) := whileRun waitBody 10 (r, kb)

/-- An interrupt: of the keyboard, with the byte at its port, or of the timer. -/
def interrupt (d : Devices) : Option (BitVec 8) → Option Devices
  | none => pitHandler d
  | some b => kbByte d b

/-- The head of the loop of `shell_launch`. -/
def shellPrompt (buf : ℕ) (r : Reader) : Option Reader := do
  let prompt ← printfText "medlar > ".toList []
  some ((r.printf prompt).call buf 1024)

/-- When `kb_get_string` has returned: the answer, and the next pass. -/
def shellGoesOn (lits : ShellLiterals) (buf : ℕ) (r : Reader) : Option Reader :=
  if r.pc = .gap then (shellAnswer lits buf r).bind (shellPrompt buf) else some r

/-- An interrupt, up to the next `hlt`. -/
def shellEvent (lits : ShellLiterals) (buf : ℕ) (s : Devices × Reader) (ev : Option (BitVec 8)) :
    Option (Devices × Reader) := do
  let d ← interrupt s.1 ev
  let next ← waitKey s.2 d.kb
  let r ← shellGoesOn lits buf next.1
  some ({ d with kb := next.2 }, r)

-- ---------------------------------------------------------------------------
-- The desk
-- ---------------------------------------------------------------------------

/-- `kb_char = 0`. -/
def Kb.taken (kb : Kb) : Kb := { kb with char := 0 }

/-- The globals of `kb.c` after a byte. -/
def Kb.byte (kb : Kb) (b : BitVec 8) : Option Kb :=
  if b &&& 0x80 = 0 then kb.press b else some (kb.release b)

/-- What the reader sees after an interrupt. -/
def Kb.seen (kb : Kb) : Option (BitVec 8) → Option Kb
  | none => some kb
  | some b => kb.byte b

/-- The sheet up to the last prompt, the line behind it, and the keys held. -/
structure Desk where
  kb : Kb
  paper : Paper (BitVec 8)
  line : Editor

def Desk.sheet (k : Desk) : Paper (BitVec 8) := Medlar64.sheet k.paper.done k.line

/-- The line becomes `line`; when that ends it, the shell answers. -/
def Desk.accept (cols : ℕ) (k : Desk) (kb : Kb) (line : Editor) : Desk :=
  if line.pc = .gap then ⟨kb.taken, transcript cols k.paper line, .editing []⟩
  else ⟨kb.taken, k.paper, line⟩

def Desk.enter (cols : ℕ) (k : Desk) (kb : Kb) (line : Editor) : Option Desk :=
  if KeyOk kb ∧ (promptText ++ line.line).length < cols then some (k.accept cols kb line) else none

/-- An interrupt; `none` where the byte has no entry in the tables, the character
none on the paper, or the line no room in its row. -/
def Desk.step (cols : ℕ) (k : Desk) (ev : Option (BitVec 8)) : Option Desk :=
  (k.kb.seen ev).bind fun kb => k.enter cols kb (k.line.step 1024 kb)

-- ---------------------------------------------------------------------------
-- A wake-up
-- ---------------------------------------------------------------------------

section Wait

variable {r r' : Reader} {kb kb' : Kb}

/-- `kb_char` is cleared on the way to `hlt` and to the end of the call, and
nowhere else. One case for each place in `kb_get_string`. -/
theorem kbGetString_kb (h : kbGetString r kb = some (r', kb')) :
    kb' = if r'.pc = .hlt ∨ r'.pc = .gap then kb.taken else kb := by
  rw [kbGetString] at h
  cases hpc : r.pc with
  | gap => simp [hpc] at h
  | dispatch =>
    rw [hpc] at h
    obtain ⟨rfl, rfl⟩ := Prod.mk.inj (Option.some.inj h)
    -- no case of the `switch` waits or returns
    have hswitch : ¬(r.switch kb.char = .hlt ∨ r.switch kb.char = .gap) := by
      rw [Reader.switch]
      split_ifs <;> simp
    exact (if_neg hswitch).symm
  | clear ret =>
    rw [hpc] at h
    obtain ⟨rfl, rfl⟩ := Prod.mk.inj (Option.some.inj h)
    -- both ways out of `kb_char = 0`
    have hback :
        (if ret then KbPc.gap else .hlt) = .hlt ∨ (if ret then KbPc.gap else .hlt) = .gap := by
      cases ret
      · exact Or.inl rfl
      · exact Or.inr rfl
    exact (if_pos hback).symm
  | ctrl | lower | upper | room =>
    rw [hpc] at h
    obtain ⟨rfl, rfl⟩ := Prod.mk.inj (Option.some.inj h)
    refine (if_neg ?_).symm
    simp only
    split_ifs <;> simp
  | hlt | newline | erase | clearScreen | echo | store =>
    rw [hpc] at h
    obtain ⟨rfl, rfl⟩ := Prod.mk.inj (Option.some.inj h)
    exact (if_neg (by simp)).symm

/-- `waitBody` is the body of the loop that hands the keyboard back as well. -/
theorem readerBody_eq (s : Reader × Kb) : readerBody s = (waitBody s).map id Prod.fst := by
  rw [readerBody, waitBody]
  cases kbGetString s.1 s.2 with
  | none => rfl
  | some next =>
    show (if _ then _ else _) = Sum.map id Prod.fst (if _ then _ else _)
    split
    · rfl
    · rfl

/-- **A wake-up** does to the reader what `Reader.wake` says, and takes the
character. -/
theorem waitKey_eq (kb : Kb) (h : r.pc = .hlt) : waitKey r kb = some (r.wake kb, kb.taken) := by
  have hwake := wakeUp_eq kb h
  rw [wakeUp, whileRun_map Prod.fst readerBody_eq] at hwake
  obtain ⟨⟨r', kb'⟩, hrun, rfl⟩ := Option.map_eq_some_iff.mp hwake
  rw [waitKey, hrun]
  -- the character is there until the last step
  obtain ⟨t, hvisits, hlast⟩ := whileRun_visits hrun
  have hstart : r.pc ≠ .gap := by
    rw [h]
    simp
  have hkept : t.2 = kb ∧ t.1.pc ≠ .gap := by
    refine @Visits.inv _ _ _ (fun t => t.2 = kb ∧ t.1.pc ≠ .gap) _ _ hvisits ⟨rfl, hstart⟩ ?_
    intro a b ha hstep
    rw [waitBody] at hstep
    cases hget : kbGetString a.1 a.2 with
    | none => simp [hget] at hstep
    | some next =>
      rw [hget] at hstep
      simp only at hstep
      split at hstep
      case isTrue => simp at hstep
      case isFalse hgoes =>
        obtain rfl := Sum.inl.inj hstep
        have hchar := kbGetString_kb hget
        rw [if_neg hgoes] at hchar
        exact ⟨hchar.trans ha.1, fun hgap => hgoes (Or.inr hgap)⟩
  obtain ⟨next, hget⟩ := kbGetString_ready t.2 hkept.2
  rw [waitBody, hget] at hlast
  simp only at hlast
  split at hlast
  case isTrue hback =>
    obtain rfl := Sum.inr.inj hlast
    have hchar := kbGetString_kb hget
    rw [if_pos hback, hkept.1] at hchar
    rw [hchar]
  case isFalse => simp at hlast

end Wait

-- ---------------------------------------------------------------------------
-- The kernel keeps in step
-- ---------------------------------------------------------------------------

/-- The literals are in memory, and not in the buffer. -/
structure LiteralsApart (lits : ShellLiterals) (buf : ℕ) (r : Reader) : Prop where
  at_mem : lits.At r.mach.read8
  off : ∀ q, lits.Byte q → ∀ i < 1024, r.mach.physical q ≠ r.mach.physical (buf + i)

/-- The kernel in `hlt`, at the line of the desk. -/
structure AtDesk (lits : ShellLiterals) (buf cols : ℕ) (k : Desk) (s : Devices × Reader) :
    Prop where
  kb : s.1.kb = k.kb
  pc : k.line.pc = .hlt
  cur : k.paper.cur = []
  width : (promptText ++ k.line.line).length < cols
  printable : ∀ c ∈ k.line.line, Flanterm.Printable c
  edits : ∃ r₀, Edits r₀ buf 1024 k.line s.2 ∧ LiteralsApart lits buf r₀

section Step

variable {lits : ShellLiterals} {buf cols : ℕ} {k k' : Desk} {s : Devices × Reader}
  {r r' : Reader} {e : Editor} {kb : Kb} {ev : Option (BitVec 8)}

/-- What `kb_get_string` writes stays clear of the texts of `shell_launch`. -/
theorem LiteralsApart.of_edits (h : LiteralsApart lits buf r) (hedits : Edits r buf 1024 e r') :
    LiteralsApart lits buf r' where
  at_mem := literals_kept hedits h.at_mem h.off
  off := by
    intro q hq i hi
    rw [hedits.holds.globals.physical, hedits.holds.globals.physical]
    exact h.off q hq i hi

/-- Between two bytes of the keyboard the shell waits in `hlt`. -/
theorem AtDesk.hlt (h : AtDesk lits buf cols k s) : s.2.pc = .hlt := by
  obtain ⟨r₀, hedits, -⟩ := h.edits
  exact hedits.pc.trans h.pc

/-- The interrupt of the keyboard does to `kb` what `Kb.seen` says. -/
theorem interrupt_kb {d : Devices} (h : d.kb.seen ev = some kb) :
    ∃ d', interrupt d ev = some d' ∧ d'.kb = kb := by
  cases ev with
  | none => exact ⟨_, rfl, Option.some.inj h⟩
  | some b =>
    refine ⟨{ d with port60 := b, kb, lapic := lapicEoi d.lapic }, ?_, rfl⟩
    show Option.map _ (d.kb.byte b) = _
    rw [show d.kb.byte b = some kb from h]
    rfl

/-- A line that has ended stays. -/
theorem Editor.pc_cases (e : Editor) : e.pc = .hlt ∨ e.pc = .gap := by
  cases e with
  | editing line => exact Or.inl rfl
  | entered line => exact Or.inr rfl
  | cleared => exact Or.inr rfl

/-- The answer, the prompt and the next call, on paper: behind the answer the
sheet has a new prompt, and the buffer is empty again. -/
theorem shellGoesOn_run {r₀ : Reader} {p : Paper (BitVec 8)} (hedits : Edits r₀ buf 1024 e r)
    (hlits : LiteralsApart lits buf r₀) (hbuf : BitVec.ofNat 64 buf ≠ 0) (hend : e.pc = .gap)
    (hcur : p.cur = []) (hwidth : (promptText ++ e.line).length < cols)
    (hline : ∀ c ∈ e.line, Flanterm.Printable c) :
    ∃ r' ss r₁, shellGoesOn lits buf r = some r' ∧ r'.out = r.out ++ ss.flatMap Stroke.bytes ∧
      Edits r₁ buf 1024 (.editing []) r' ∧ LiteralsApart lits buf r₁ ∧
      Flanterm.FitAll cols (sheet p.done e) ss ∧
      ss.foldl (Stroke.apply cols) (sheet p.done e) =
        sheet (transcript cols p e).done (.editing []) := by
  have hkept := hlits.of_edits hedits
  obtain ⟨answer, hanswer, hpaper⟩ :=
    @shellAnswer_run _ _ _ cols _ _ hedits hkept.at_mem hbuf hline
  obtain ⟨hfits, hsheet⟩ := hpaper (sheet p.done e)
  have hroom : promptText.length ≤ cols := by
    rw [List.length_append] at hwidth
    omega
  have hafter := transcript_eq hcur hend hwidth.le hline
  rw [hafter] at hsheet
  obtain ⟨hpromptFits, hprompt⟩ := prompt_paper (transcript_cur p hend) hroom
  refine ⟨((r.printf (answer.flatMap Stroke.bytes)).printf promptText).call buf 1024,
    answer ++ textStrokes promptText, (r.printf (answer.flatMap Stroke.bytes)).printf promptText,
    ?_, ?_, edits_call _ buf 1024, ⟨hkept.at_mem, hkept.off⟩, ?_, ?_⟩
  · -- the loop goes on with the prompt
    rw [shellGoesOn, if_pos (hedits.pc.trans hend), hanswer]
    show shellPrompt buf (r.printf (answer.flatMap Stroke.bytes)) = _
    rw [shellPrompt, printfText_prompt]
    rfl
  · rw [List.flatMap_append, textStrokes_bytes, ← List.append_assoc]
    rfl
  · refine Flanterm.fitAll_append hfits ?_
    rw [hsheet]
    exact hpromptFits
  · rw [List.foldl_append, hsheet]
    exact hprompt

/-- **Step.** An interrupt that the desk takes: the kernel comes back to `hlt` at
the next desk, and what it prints turns the one sheet into the other. -/
theorem AtDesk.event (h : AtDesk lits buf cols k s) (hbuf : BitVec.ofNat 64 buf ≠ 0)
    (hstep : k.step cols ev = some k') :
    ∃ s' ss, shellEvent lits buf s ev = some s' ∧ AtDesk lits buf cols k' s' ∧
      s'.2.out = s.2.out ++ ss.flatMap Stroke.bytes ∧ Flanterm.FitAll cols k.sheet ss ∧
      ss.foldl (Stroke.apply cols) k.sheet = k'.sheet := by
  obtain ⟨kb, hseen, henter⟩ := Option.bind_eq_some_iff.mp hstep
  rw [Desk.enter] at henter
  split at henter
  case isFalse => simp at henter
  case isTrue hok =>
    obtain ⟨hkey, hwidth⟩ := hok
    rw [← h.kb] at hseen
    obtain ⟨d, hinterrupt, hd⟩ := interrupt_kb hseen
    obtain ⟨r₀, hedits, hlits⟩ := h.edits
    -- the reader takes the character, whichever interrupt woke it up
    have hwait := waitKey_eq d.kb (hedits.pc.trans h.pc)
    obtain ⟨r, hwake, hedits', hout⟩ := wakeUp_strokes hedits kb
    obtain rfl : s.2.wake kb = r :=
      Option.some.inj ((wakeUp_eq kb (hedits.pc.trans h.pc)).symm.trans hwake)
    rw [hd] at hwait
    have hevent : shellEvent lits buf s ev = (shellGoesOn lits buf (s.2.wake kb)).bind fun r =>
        some ({ d with kb := kb.taken }, r) := by
      rw [shellEvent, hinterrupt]
      show (waitKey s.2 d.kb >>= fun next => shellGoesOn lits buf next.1 >>= fun r => _) = _
      rw [hd, hwait]
      rfl
    obtain ⟨hfits, hsheet⟩ := keyStrokes_paper k.paper.done h.width hkey
    have hnarrow : Narrow cols k.line [kb] := ⟨h.width, hkey, hwidth⟩
    have hprintable := printable_line hnarrow h.printable
    obtain hhlt | hgap := Editor.pc_cases (k.line.step 1024 kb)
    · -- the line goes on
      have hne : (k.line.step 1024 kb).pc ≠ .gap := by
        rw [hhlt]
        simp
      rw [Desk.accept, if_neg hne] at henter
      obtain rfl := Option.some.inj henter
      refine ⟨({ d with kb := kb.taken }, s.2.wake kb), keyStrokes k.line kb, ?_,
        ⟨rfl, hhlt, h.cur, hwidth, hprintable, r₀, hedits', hlits⟩, hout, hfits, hsheet⟩
      rw [hevent, shellGoesOn, if_neg (by rw [hedits'.pc]; exact hne)]
      rfl
    · -- the line ends
      rw [Desk.accept, if_pos hgap] at henter
      obtain rfl := Option.some.inj henter
      obtain ⟨r', ss, r₁, hgoes, hout', hcall, hapart, hfits', hsheet'⟩ :=
        shellGoesOn_run hedits' hlits hbuf hgap h.cur hwidth hprintable
      refine ⟨({ d with kb := kb.taken }, r'), keyStrokes k.line kb ++ ss, ?_,
        ⟨rfl, rfl, transcript_cur _ hgap, ?_, ?_, r₁, hcall, hapart⟩, ?_, ?_, ?_⟩
      · rw [hevent, hgoes]
        rfl
      · have hprompt : (promptText ++ (k.line.step 1024 kb).line).length < cols := hwidth
        rw [List.length_append] at hprompt
        show (promptText ++ []).length < cols
        rw [List.append_nil]
        omega
      · exact fun c hc => absurd hc List.not_mem_nil
      · show r'.out = _
        rw [hout', hout, List.flatMap_append, List.append_assoc]
      · refine Flanterm.fitAll_append hfits ?_
        show Flanterm.FitAll cols ((keyStrokes k.line kb).foldl _ (sheet _ _)) ss
        rw [hsheet]
        exact hfits'
      · rw [List.foldl_append]
        show ss.foldl (Stroke.apply cols) ((keyStrokes k.line kb).foldl _ (sheet _ _)) = _
        rw [hsheet]
        exact hsheet'

/-- **Run.** By induction on the interrupts: each keeps the shell at the desk,
and its strokes continue on the sheet of the desk before. -/
theorem AtDesk.events (h : AtDesk lits buf cols k s) (hbuf : BitVec.ofNat 64 buf ≠ 0)
    {evs : List (Option (BitVec 8))} (hrun : evs.foldlM (Desk.step cols) k = some k') :
    ∃ s' ss, evs.foldlM (shellEvent lits buf) s = some s' ∧ AtDesk lits buf cols k' s' ∧
      s'.2.out = s.2.out ++ ss.flatMap Stroke.bytes ∧ Flanterm.FitAll cols k.sheet ss ∧
      ss.foldl (Stroke.apply cols) k.sheet = k'.sheet := by
  induction evs generalizing k s with
  | nil =>
    obtain rfl := Option.some.inj hrun
    exact ⟨s, [], rfl, h, (List.append_nil _).symm, trivial, rfl⟩
  | cons ev evs ih =>
    rw [List.foldlM_cons] at hrun
    obtain ⟨k₁, hstep, hmore⟩ := Option.bind_eq_some_iff.mp hrun
    obtain ⟨s₁, ss₁, hev, hdesk, hout, hfits, hsheet⟩ := h.event hbuf hstep
    obtain ⟨s', ss, hevs, hdesk', hout', hfits', hsheet'⟩ := ih hdesk hmore
    rw [← hsheet] at hfits' hsheet'
    refine ⟨s', ss₁ ++ ss, ?_, hdesk', ?_, Flanterm.fitAll_append hfits hfits', ?_⟩
    · rw [List.foldlM_cons, hev]
      exact hevs
    · rw [hout', hout, List.flatMap_append, List.append_assoc]
    · rw [List.foldl_append, hsheet']

end Step

-- ---------------------------------------------------------------------------
-- Keys that are typed
-- ---------------------------------------------------------------------------

/-- The place of a character in a layout table. -/
def scanCode (table : List (BitVec 8)) (c : BitVec 8) : BitVec 8 := BitVec.ofNat 8 (table.idxOf c)

/-- What the keyboard sends for a character: press and release of its key, in
those of the shift key where the key alone is another character. -/
def keyBytes (c : BitVec 8) : List (BitVec 8) :=
  if kbMapKeys.contains c then [scanCode kbMapKeys c, scanCode kbMapKeys c ||| 0x80]
  else [0x2a, scanCode kbMapKeysShift c, scanCode kbMapKeysShift c ||| 0x80, 0xaa]

/-- A line, and the return key. -/
def lineBytes (text : List (BitVec 8)) : List (BitVec 8) := (text ++ [0x0a]).flatMap keyBytes

/-- A character without modifiers. -/
def charKey (c : BitVec 8) : Kb := { Kb.init with char := c }

/-- After a press that is looked up. -/
def Kb.typed (kb : Kb) (c : BitVec 8) : Kb := { kb with keyPressed := true, char := c }

/-- A character of the layout; the US layout has no `|`, the key of the backslash
gives a backslash with shift too. -/
def OnLayout (c : BitVec 8) : Prop := c ∈ kbMapKeys ∨ c ∈ kbMapKeysShift

instance (c : BitVec 8) : Decidable (OnLayout c) := inferInstanceAs (Decidable (_ ∨ _))

/-- No modifier is held or locked, and no character waits. -/
structure Kb.AtRest (kb : Kb) : Prop where
  char : kb.char = 0
  caps : kb.caps = false
  ctrl : kb.ctrl = false
  shift : kb.shift = false

/-- A press code that is looked up, of the character `c`. -/
structure IsKey (table : List (BitVec 8)) (code c : BitVec 8) : Prop where
  press : code &&& 0x80 = 0
  plain : ¬IsModifier code
  entry : table[code.toNat]? = some c

instance (table : List (BitVec 8)) (code c : BitVec 8) : Decidable (IsKey table code c) :=
  decidable_of_iff (code &&& 0x80 = 0 ∧ ¬IsModifier code ∧ table[code.toNat]? = some c)
    ⟨fun h => ⟨h.1, h.2.1, h.2.2⟩, fun h => ⟨h.press, h.plain, h.entry⟩⟩

section Keys

variable {cols : ℕ} {k : Desk} {kb : Kb} {code c : BitVec 8} {table : List (BitVec 8)} {e : Editor}

/-- Every character of the table of plain keys is found at a scan code of it. -/
theorem scanCode_isKey (h : c ∈ kbMapKeys) : IsKey kbMapKeys (scanCode kbMapKeys c) c := by
  have hall : ∀ c ∈ kbMapKeys, IsKey kbMapKeys (scanCode kbMapKeys c) c := by decide +kernel
  exact hall c h

/-- The same for the table with shift. -/
theorem scanCode_isKey_shift (h : c ∈ kbMapKeysShift) :
    IsKey kbMapKeysShift (scanCode kbMapKeysShift c) c := by
  have hall : ∀ c ∈ kbMapKeysShift, IsKey kbMapKeysShift (scanCode kbMapKeysShift c) c := by
    decide +kernel
  exact hall c h

/-- A release of a key that is no modifier. -/
theorem Kb.byte_release (kb : Kb) (hpress : code &&& 0x80 = 0) (hplain : ¬IsModifier code) :
    kb.byte (code ||| 0x80) = some kb := by
  have hall : ∀ code : BitVec 8, code &&& 0x80 = 0 → (code ||| 0x80) &&& 0x80 ≠ 0 ∧
      (code ||| 0x80 = 0xaa → code = 0x2a) ∧ (code ||| 0x80 = 0xb6 → code = 0x36) ∧
      (code ||| 0x80 = 0x9d → code = 0x1d) := by
    decide +kernel
  obtain ⟨hrelease, hleft, hright, hctrl⟩ := hall code hpress
  rw [Kb.byte, if_neg hrelease, Kb.release]
  · intro heq
    exact hplain (Or.inl (hleft heq))
  · intro heq
    exact hplain (Or.inr (Or.inl (hright heq)))
  · intro heq
    exact hplain (Or.inr (Or.inr (Or.inl (hctrl heq))))

/-- The byte of a key types the character of the table in use. -/
theorem Kb.byte_press (h : IsKey kb.table code c) :
    kb.byte code = some (kb.typed c) := by
  rw [Kb.byte, if_pos h.press, Kb.press_lookup h.plain, h.entry]
  rfl

/-- An interrupt that leaves no character: a tick, a modifier, a release. The
reader looks at `kb_char`, finds 0 and goes back to `hlt`. -/
theorem Desk.step_quiet {ev : Option (BitVec 8)} (hline : k.line.pc = .hlt)
    (hwidth : (promptText ++ k.line.line).length < cols) (hseen : k.kb.seen ev = some kb)
    (hchar : kb.char = 0) : k.step cols ev = some ⟨kb, k.paper, k.line⟩ := by
  -- `case '\0'` of the reader
  have hstay : k.line.step 1024 kb = k.line := by
    cases hcase : k.line with
    | editing line => rw [Editor.step_editing, if_pos hchar]
    | entered line => rfl
    | cleared => rfl
  have hhlt : k.line.pc ≠ .gap := by
    rw [hline]
    simp
  have htaken : kb.taken = kb := by
    obtain ⟨keyPressed, char, caps, ctrl, shift⟩ := kb
    obtain rfl : char = 0 := hchar
    rfl
  rw [Desk.step, hseen]
  show k.enter cols kb (k.line.step 1024 kb) = _
  rw [hstay, Desk.enter, if_pos ⟨Or.inl hchar, hwidth⟩, Desk.accept, if_neg hhlt, htaken]

/-- A line that is edited, with room behind it. -/
structure Desk.Editing (cols : ℕ) (k : Desk) : Prop where
  pc : k.line.pc = .hlt
  width : (promptText ++ k.line.line).length < cols

/-- What a wake-up does depends on the character and on Ctrl. -/
theorem Editor.step_char (e : Editor) (hctrl : kb.ctrl = false) :
    e.step 1024 kb = e.step 1024 (charKey kb.char) := by
  have hclear : IsCtrlL kb ↔ IsCtrlL (charKey kb.char) := by
    rw [IsCtrlL, IsCtrlL, hctrl]
    rfl
  cases e with
  | editing line =>
    rw [Editor.step_editing, Editor.step_editing]
    exact if_congr Iff.rfl rfl (if_congr Iff.rfl rfl
      (if_congr Iff.rfl rfl (if_congr hclear rfl rfl)))
  | entered line => rfl
  | cleared => rfl

/-- The desk goes on with a line that does not reach the margin. -/
theorem Desk.accept_editing
    (hwidth : (promptText ++ e.line).length < cols) : (k.accept cols kb e).Editing cols := by
  rw [Desk.accept]
  split
  case isTrue hgap =>
    refine ⟨rfl, ?_⟩
    rw [List.length_append] at hwidth
    show (promptText ++ []).length < cols
    rw [List.append_nil]
    omega
  case isFalse hne => exact ⟨(Editor.pc_cases e).resolve_right hne, hwidth⟩

/-- A press that is looked up. -/
theorem Desk.step_press (h : IsKey k.kb.table code c) (hctrl : k.kb.ctrl = false)
    (hok : KeyOk (charKey c))
    (hwidth : (promptText ++ (k.line.step 1024 (charKey c)).line).length < cols) :
    k.step cols (some code) =
      some (k.accept cols (k.kb.typed c)
        (k.line.step 1024 (charKey c))) := by
  rw [Desk.step, show k.kb.seen (some code) = _ from Kb.byte_press h]
  show k.enter cols _ (k.line.step 1024 (k.kb.typed c)) = _
  rw [Editor.step_char k.line (show (k.kb.typed c).ctrl = false from hctrl)]
  exact if_pos ⟨hok, hwidth⟩

theorem Desk.step_release (h : IsKey table code c) (hediting : k.Editing cols)
    (hchar : k.kb.char = 0) : k.step cols (some (code ||| 0x80)) = some k :=
  Desk.step_quiet hediting.pc hediting.width (Kb.byte_release k.kb h.press h.plain) hchar

/-- The character of the key is taken, whatever the desk does with it. -/
theorem Desk.accept_kb (k : Desk) (cols : ℕ) (kb : Kb) (e : Editor) :
    (k.accept cols kb e).kb = kb.taken := by
  rw [Desk.accept]
  split
  · rfl
  · rfl

/-- A key on its own is two bytes: the press types its character, the release
does nothing. -/
theorem Desk.key_plain (hrest : k.kb.AtRest) (hc : c ∈ kbMapKeys) (hok : KeyOk (charKey c))
    (hwidth : (promptText ++ (k.line.step 1024 (charKey c)).line).length < cols) :
    [some (scanCode kbMapKeys c), some (scanCode kbMapKeys c ||| 0x80)].foldlM (Desk.step cols) k =
      some (k.accept cols (k.kb.typed c) (k.line.step 1024 (charKey c))) := by
  have htable : k.kb.table = kbMapKeys := by
    rw [Kb.table, hrest.shift, hrest.caps]
    rfl
  have hkey := scanCode_isKey hc
  rw [← htable] at hkey ⊢
  have hpress := Desk.step_press hkey hrest.ctrl hok hwidth
  have hrelease := Desk.step_release hkey (Desk.accept_editing hwidth)
    (congrArg Kb.char (k.accept_kb cols (k.kb.typed c) _))
  show (k.step cols (some _) >>= fun k => Desk.step cols k (some _) >>= pure) = _
  rw [hpress]
  show (Desk.step cols (k.accept cols _ _) (some _) >>= pure) = _
  rw [hrelease]
  rfl

/-- A key with the shift key held is four bytes: shift down, the key, and both
up again. Only the second types a character; the last leaves no key held. -/
theorem Desk.key_shift (hrest : k.kb.AtRest) (hediting : k.Editing cols) (hc : c ∈ kbMapKeysShift)
    (hok : KeyOk (charKey c))
    (hwidth : (promptText ++ (k.line.step 1024 (charKey c)).line).length < cols) :
    [some 0x2a, some (scanCode kbMapKeysShift c), some (scanCode kbMapKeysShift c ||| 0x80),
      some 0xaa].foldlM (Desk.step cols) k =
      some (k.accept cols (k.kb.typed c) (k.line.step 1024 (charKey c))) := by
  obtain ⟨kb, paper, line⟩ := k
  have hkey := scanCode_isKey_shift hc
  have hdown : Desk.step cols ⟨kb, paper, line⟩ (some 0x2a) =
      some ⟨{ kb with shift := true }, paper, line⟩ :=
    Desk.step_quiet hediting.pc hediting.width rfl hrest.char
  have hpress := @Desk.step_press cols ⟨{ kb with shift := true }, paper, line⟩ _ _
    hkey hrest.ctrl hok hwidth
  obtain ⟨held, hheld⟩ : ∃ k', k' = Desk.accept cols ⟨{ kb with shift := true }, paper, line⟩
    (Kb.typed { kb with shift := true } c) (line.step 1024 (charKey c)) := ⟨_, rfl⟩
  have hkb : held.kb = (Kb.typed { kb with shift := true } c).taken := by
    rw [hheld, Desk.accept_kb]
  have hheldEditing : held.Editing cols := by
    rw [hheld]
    exact Desk.accept_editing hwidth
  have hrelease := Desk.step_release hkey hheldEditing (congrArg Kb.char hkb)
  -- the shift key comes up again
  have hup : held.step cols (some 0xaa) =
      some (Desk.accept cols ⟨kb, paper, line⟩ (kb.typed c) (line.step 1024 (charKey c))) := by
    have hseen : held.kb.seen (some 0xaa) = some (kb.typed c).taken := by
      rw [hkb]
      show some _ = some (Kb.mk true 0 kb.caps kb.ctrl kb.shift)
      rw [show kb.shift = false from hrest.shift]
      rfl
    rw [Desk.step_quiet hheldEditing.pc hheldEditing.width hseen rfl, hheld, Desk.accept,
      Desk.accept]
    split
    · rfl
    · rfl
  show (Desk.step cols _ (some _) >>= fun k => Desk.step cols k (some _) >>= fun k =>
    Desk.step cols k (some _) >>= fun k => Desk.step cols k (some _) >>= pure) = _
  rw [hdown]
  show (Desk.step cols _ (some _) >>= fun k => Desk.step cols k (some _) >>= fun k =>
    Desk.step cols k (some _) >>= pure) = _
  rw [hpress, ← hheld]
  show (Desk.step cols held (some _) >>= fun k => Desk.step cols k (some _) >>= pure) = _
  rw [hrelease]
  show (Desk.step cols held (some _) >>= pure) = _
  rw [hup]
  rfl

/-- A desk with a line on it is editing. -/
theorem Desk.editing_of {line : List (BitVec 8)} (hline : k.line = .editing line)
    (hwidth : (promptText ++ line).length < cols) : k.Editing cols where
  pc := by
    rw [hline]
    rfl
  width := by
    rw [hline]
    exact hwidth

/-- **One key**, from its first to its last byte, is the wake-up of its
character. -/
theorem Desk.key (hrest : k.kb.AtRest) (hediting : k.Editing cols) (hc : OnLayout c)
    (hok : KeyOk (charKey c))
    (hwidth : (promptText ++ (k.line.step 1024 (charKey c)).line).length < cols) :
    ((keyBytes c).map some).foldlM (Desk.step cols) k =
      some (k.accept cols (k.kb.typed c) (k.line.step 1024 (charKey c))) := by
  rw [keyBytes]
  by_cases hplain : c ∈ kbMapKeys
  · rw [if_pos (List.contains_iff_mem.mpr hplain)]
    exact Desk.key_plain hrest hplain hok hwidth
  · rw [if_neg (fun hmem => hplain (List.contains_iff_mem.mp hmem))]
    exact Desk.key_shift hrest hediting (hc.resolve_left hplain) hok hwidth

/-- Without Ctrl only the return key ends a line. -/
theorem charKey_editing (line : List (BitVec 8)) (hne : c ≠ 0x0a) :
    ∃ line', (Editor.editing line).step 1024 (charKey c) = .editing line' := by
  have hctrl : ¬IsCtrlL (charKey c) := by
    intro hclear
    exact absurd hclear.1 Bool.false_ne_true
  rw [Editor.step_editing, if_neg (show (charKey c).char ≠ 0x0a from hne), if_neg hctrl]
  split_ifs
  · exact ⟨_, rfl⟩
  · exact ⟨_, rfl⟩
  · exact ⟨_, rfl⟩
  · exact ⟨_, rfl⟩

/-- A line that never reaches the margin does not reach it now. -/
theorem Narrow.first {kbs : List Kb} (h : Narrow cols e kbs) :
    (promptText ++ e.line).length < cols := by
  cases kbs with
  | nil => exact h
  | cons kb kbs => exact h.1

/-- The wake-ups of a line and the return key. -/
def lineKeys (text : List (BitVec 8)) : List Kb := (text ++ [0x0a]).map charKey

/-- **One line.** By induction on its characters, each of which is typed with
all its keys up again before the next; the key at the end is the line feed,
after which the answer is on the sheet. -/
theorem Desk.typed_line (hrest : k.kb.AtRest) {line text : List (BitVec 8)}
    (hline : k.line = .editing line) (htext : ∀ c ∈ text, OnLayout c ∧ c ≠ 0x0a)
    (hnarrow : Narrow cols (.editing line) (lineKeys text)) :
    ∃ kb, kb.AtRest ∧ ((lineBytes text).map some).foldlM (Desk.step cols) k =
      some ⟨kb, transcript cols k.paper ((lineKeys text).foldl (Editor.step 1024) (.editing line)),
        .editing []⟩ := by
  induction text generalizing k line with
  | nil =>
    obtain ⟨hwidth, hok, hlast⟩ := hnarrow
    have hediting := Desk.editing_of hline hwidth
    have hkey := @Desk.key cols k 0x0a hrest hediting (by decide) hok (by rw [hline]; exact hlast)
    rw [hline] at hkey
    refine ⟨(k.kb.typed 0x0a).taken, ⟨rfl, hrest.caps, hrest.ctrl, hrest.shift⟩, ?_⟩
    rw [lineBytes, List.nil_append, List.flatMap_singleton, hkey]
    rfl
  | cons c text ih =>
    obtain ⟨⟨hc, hne⟩, hmore⟩ := List.forall_mem_cons.mp htext
    obtain ⟨hwidth, hok, hlast⟩ := hnarrow
    have hediting := Desk.editing_of hline hwidth
    -- the character first; it does not end the line
    have hkey := Desk.key hrest hediting hc hok (by rw [hline]; exact Narrow.first hlast)
    obtain ⟨line', hline'⟩ := charKey_editing line hne
    rw [hline, hline', Desk.accept, if_neg (by simp [Editor.pc])] at hkey
    have hrest' : (k.kb.typed c).taken.AtRest := ⟨rfl, hrest.caps, hrest.ctrl, hrest.shift⟩
    rw [hline'] at hlast
    obtain ⟨kb, hkb, hrun⟩ :=
      ih (k := ⟨(k.kb.typed c).taken, k.paper, .editing line'⟩) hrest' rfl hmore hlast
    refine ⟨kb, hkb, ?_⟩
    rw [lineBytes, List.cons_append, List.flatMap_cons, List.map_append, List.foldlM_append, hkey]
    show ((lineBytes text).map some).foldlM (Desk.step cols) _ = _
    rw [hrun]
    show _ = some (Desk.mk kb (transcript cols k.paper ((lineKeys text).foldl (Editor.step 1024)
      ((Editor.editing line).step 1024 (charKey c)))) (.editing []))
    rw [hline']

/-- **Lines.** By induction on them: each begins with all keys up and an empty
line, and so does the next. -/
theorem Desk.typed_lines (hrest : k.kb.AtRest) (hline : k.line = .editing [])
    {texts : List (List (BitVec 8))} (htexts : ∀ text ∈ texts,
      (∀ c ∈ text, OnLayout c ∧ c ≠ 0x0a) ∧ Narrow cols (.editing []) (lineKeys text)) :
    ∃ kb, kb.AtRest ∧ ((texts.flatMap lineBytes).map some).foldlM (Desk.step cols) k =
      some ⟨kb, transcripts cols k.paper (texts.map lineKeys), .editing []⟩ := by
  induction texts generalizing k with
  | nil =>
    refine ⟨k.kb, hrest, ?_⟩
    rw [← hline]
    rfl
  | cons text texts ih =>
    obtain ⟨⟨htext, hnarrow⟩, hmore⟩ := List.forall_mem_cons.mp htexts
    obtain ⟨kb₁, hrest₁, hfirst⟩ := Desk.typed_line hrest hline htext hnarrow
    obtain ⟨kb, hkb, hrun⟩ := @ih ⟨kb₁, transcript cols k.paper
      ((lineKeys text).foldl (Editor.step 1024) (.editing [])), .editing []⟩ hrest₁ rfl hmore
    refine ⟨kb, hkb, ?_⟩
    rw [List.flatMap_cons, List.map_append, List.foldlM_append, hfirst]
    exact hrun

/-- Ticks of the timer change nothing on the desk. Between two bytes of the
keyboard no character waits, so a tick wakes the reader in vain. -/
theorem Desk.ticks {evs : List (Option (BitVec 8))} (hchar : k.kb.char = 0)
    (hediting : k.Editing cols) :
    evs.foldlM (Desk.step cols) k = (evs.reduceOption.map some).foldlM (Desk.step cols) k := by
  induction evs generalizing k with
  | nil => rfl
  | cons ev evs ih =>
    cases ev with
    | none =>
      have htick : k.step cols none = some k :=
        Desk.step_quiet hediting.pc hediting.width rfl hchar
      rw [List.foldlM_cons, htick, List.reduceOption_cons_of_none]
      exact ih hchar hediting
    | some b =>
      rw [List.reduceOption_cons_of_some, List.map_cons, List.foldlM_cons, List.foldlM_cons]
      cases hstep : k.step cols (some b) with
      | none => rfl
      | some k' =>
        -- the next desk is at rest again
        obtain ⟨kb, -, henter⟩ := Option.bind_eq_some_iff.mp hstep
        rw [Desk.enter] at henter
        split at henter
        case isFalse => simp at henter
        case isTrue hok =>
          obtain rfl := Option.some.inj henter
          exact ih (congrArg Kb.char (k.accept_kb cols kb _)) (Desk.accept_editing hok.2)

end Keys

-- ---------------------------------------------------------------------------
-- The picture
-- ---------------------------------------------------------------------------

section Shown

open Flanterm

variable {g : FbConfig} {s : Flanterm.Machine} {p : Paper (BitVec 8)} {r : Reader} {buf : ℕ}
  {lits : ShellLiterals} {d : Devices} {k : Desk}

/-- The shell at its first prompt. -/
theorem shellPrompt_run {cols : ℕ} (hlits : LiteralsApart lits buf r) (hcur : p.cur = [])
    (hcols : promptText.length < cols) (d : Devices) :
    ∃ r', shellPrompt buf r = some r' ∧
      AtDesk lits buf cols ⟨d.kb, p, .editing []⟩ (d, r') ∧ r'.out = r.out ++ promptText := by
  refine ⟨(r.printf promptText).call buf 1024, ?_, ⟨rfl, rfl, hcur, ?_, ?_, r.printf promptText,
    edits_call _ buf 1024, ⟨hlits.at_mem, hlits.off⟩⟩, rfl⟩
  · rw [shellPrompt, printfText_prompt]
    rfl
  · show (promptText ++ []).length < cols
    rw [List.append_nil]
    exact hcols
  · exact fun c hc => absurd hc List.not_mem_nil

/-- The prompt and what follows it, drawn by `printf`: two texts one after the
other, the second of which begins on the sheet that the first leaves. -/
theorem prompted_shown (hwide : g.rows ≤ g.cols) (hok : MachineOk g s) (hmode : TextMode g s.ctx)
    (hpaper : OnPaper g s.ctx p s.screen) (hcur : p.cur = []) (hcols : promptText.length < g.cols)
    {ss : List Stroke} (hfits : FitAll g.cols (sheet p.done (.editing [])) ss) :
    ∃ s', (promptText ++ ss.flatMap Stroke.bytes).foldlM (Printf.putchar_ g) s = some s' ∧
      MachineOk g s' ∧
      OnPaper g s'.ctx (ss.foldl (Stroke.apply g.cols) (sheet p.done (.editing []))) s'.screen := by
  obtain ⟨hpromptFits, hprompt⟩ := prompt_paper hcur hcols.le
  have hall : FitAll g.cols p (textStrokes promptText ++ ss) := by
    refine fitAll_append hpromptFits ?_
    rw [hprompt]
    exact hfits
  obtain ⟨s', hdraw, hok', -, hpaper'⟩ := strokes_shown hwide hok hmode hpaper hall
  rw [List.flatMap_append, textStrokes_bytes] at hdraw
  rw [List.foldl_append, hprompt] at hpaper'
  exact ⟨s', hdraw, hok', hpaper'⟩

/-- **Interrupts.** From the first prompt on, through any interrupts of the timer
and the keyboard that find the kernel in `hlt` and that the desk takes: all calls
return, the kernel is in `hlt` again, and what was printed draws the sheet of the
desk, with the answers to the lines that have ended and the line that is being
edited. -/
theorem shell_interrupts (hwide : g.rows ≤ g.cols) (hok : MachineOk g s) (hmode : TextMode g s.ctx)
    (hpaper : OnPaper g s.ctx p s.screen) (hcur : p.cur = []) (hcols : promptText.length < g.cols)
    (hlits : LiteralsApart lits buf r) (hbuf : BitVec.ofNat 64 buf ≠ 0)
    {evs : List (Option (BitVec 8))}
    (hdesk : evs.foldlM (Desk.step g.cols) ⟨d.kb, p, .editing []⟩ = some k) :
    ∃ start t text s', shellPrompt buf r = some start ∧
      evs.foldlM (shellEvent lits buf) (d, start) = some t ∧ t.1.kb = k.kb ∧ t.2.pc = .hlt ∧
      t.2.out = r.out ++ text ∧ text.foldlM (Printf.putchar_ g) s = some s' ∧ MachineOk g s' ∧
      OnPaper g s'.ctx k.sheet s'.screen := by
  obtain ⟨start, hstart, hat, hout⟩ := shellPrompt_run hlits hcur hcols d
  obtain ⟨t, ss, hrun, hat', hout', hfits, hsheet⟩ := hat.events hbuf hdesk
  obtain ⟨s', hdraw, hok', hpaper'⟩ := prompted_shown hwide hok hmode hpaper hcur hcols hfits
  have hshown : ss.foldl (Stroke.apply g.cols) (sheet p.done (.editing [])) = k.sheet := hsheet
  rw [hshown] at hpaper'
  refine ⟨start, t, promptText ++ ss.flatMap Stroke.bytes, s', hstart, hrun, hat'.kb, hat'.hlt, ?_,
    hdraw, hok', hpaper'⟩
  rw [hout', hout, List.append_assoc]

/-- The texts of the example are clear of its line buffer. -/
theorem textReader_apart : LiteralsApart textLiterals (usualHhdm + 4096) textReader :=
  ⟨textReader_at, textReader_off⟩

/-- A key that is held while the timer ticks, and one that is pressed behind
it: `h` and `i` are on the sheet behind the prompt. -/
theorem shell_interrupts_hi :
    ∃ s start t text s', startMachine xgaConfig (fun _ => 0) = some s ∧
      shellPrompt (usualHhdm + 4096) textReader = some start ∧
      [some 0x23, none, some 0xa3, none, some 0x17].foldlM
        (shellEvent textLiterals (usualHhdm + 4096)) (bootDevices, start) = some t ∧
      t.2.out = text ∧ text.foldlM (Printf.putchar_ xgaConfig) s = some s' ∧
      OnPaper xgaConfig s'.ctx ⟨[], promptText ++ ascii ['h', 'i']⟩ s'.screen := by
  obtain ⟨s, hstart, hok, hmode, hpaper⟩ := startMachine_paper xgaConfig fun _ => 0
  have hdesk : [some 0x23, none, some 0xa3, none, some 0x17].foldlM (Desk.step xgaConfig.cols)
      ⟨bootDevices.kb, ⟨[], []⟩, .editing []⟩ =
      some ⟨⟨true, 0, false, false, false⟩, ⟨[], []⟩, .editing (ascii ['h', 'i'])⟩ := rfl
  obtain ⟨start, t, text, s', hprompt, hrun, -, -, hout, hdraw, -, hpaper'⟩ :=
    shell_interrupts (by decide) hok hmode hpaper rfl (by decide) textReader_apart (by decide) hdesk
  exact ⟨s, start, t, text, s', hstart, hprompt, hrun, hout, hdraw, hpaper'⟩

/-- **Typing.** Lines of characters on the keyboard, byte by byte, with ticks of
the timer anywhere between the bytes: the screen shows the lines and the answers
to them, and a new prompt. -/
theorem shell_typed (hwide : g.rows ≤ g.cols) (hok : MachineOk g s) (hmode : TextMode g s.ctx)
    (hpaper : OnPaper g s.ctx p s.screen) (hcur : p.cur = []) (hcols : promptText.length < g.cols)
    (hlits : LiteralsApart lits buf r) (hbuf : BitVec.ofNat 64 buf ≠ 0) (hrest : d.kb.AtRest)
    {texts : List (List (BitVec 8))} (htexts : ∀ text ∈ texts,
      (∀ c ∈ text, OnLayout c ∧ c ≠ 0x0a) ∧ Narrow g.cols (.editing []) (lineKeys text))
    {evs : List (Option (BitVec 8))} (hevs : evs.reduceOption = texts.flatMap lineBytes) :
    ∃ start t text s', shellPrompt buf r = some start ∧
      evs.foldlM (shellEvent lits buf) (d, start) = some t ∧ t.1.kb.AtRest ∧ t.2.pc = .hlt ∧
      t.2.out = r.out ++ text ∧ text.foldlM (Printf.putchar_ g) s = some s' ∧ MachineOk g s' ∧
      OnPaper g s'.ctx
        (sheet (transcripts g.cols p (texts.map lineKeys)).done (.editing [])) s'.screen := by
  obtain ⟨start, hstart, hat, hout⟩ := shellPrompt_run hlits hcur hcols d
  obtain ⟨kb, hkb, htyped⟩ :=
    @Desk.typed_lines g.cols ⟨d.kb, p, .editing []⟩ hrest rfl texts htexts
  have hdesk := @Desk.ticks g.cols ⟨d.kb, p, .editing []⟩ evs hrest.char
    (Desk.editing_of rfl hat.width)
  rw [hevs, htyped] at hdesk
  obtain ⟨t, ss, hrun, hat', hout', hfits, hsheet⟩ := hat.events hbuf hdesk
  obtain ⟨s', hdraw, hok', hpaper'⟩ := prompted_shown hwide hok hmode hpaper hcur hcols hfits
  have hshown : ss.foldl (Stroke.apply g.cols) (sheet p.done (.editing [])) =
      sheet (transcripts g.cols p (texts.map lineKeys)).done (.editing []) := hsheet
  rw [hshown] at hpaper'
  refine ⟨start, t, promptText ++ ss.flatMap Stroke.bytes, s', hstart, hrun, ?_, hat'.hlt, ?_,
    hdraw, hok', hpaper'⟩
  · rw [hat'.kb]
    exact hkb
  · rw [hout', hout, List.append_assoc]

/-- `?`, which needs the shift key, and `help`, with a tick before every byte:
both lines and both answers are on the sheet, and the next prompt. -/
theorem shell_typed_help :
    ∃ s start t text s', startMachine xgaConfig (fun _ => 0) = some s ∧
      shellPrompt (usualHhdm + 4096) textReader = some start ∧
      ((lineBytes (ascii ['?']) ++ lineBytes (ascii ['h', 'e', 'l', 'p'])).flatMap fun b =>
        [none, some b]).foldlM
        (shellEvent textLiterals (usualHhdm + 4096)) (bootDevices, start) = some t ∧
      t.2.out = text ∧ text.foldlM (Printf.putchar_ xgaConfig) s = some s' ∧
      OnPaper xgaConfig s'.ctx
        ⟨[promptText ++ ascii ['?'], ascii ['?'] ++ notFoundAnswer.dropLast,
          promptText ++ ascii ['h', 'e', 'l', 'p'], helpAnswer.dropLast], promptText⟩
        s'.screen := by
  obtain ⟨s, hstart, hok, hmode, hpaper⟩ := startMachine_paper xgaConfig fun _ => 0
  have htexts : ∀ text ∈ [ascii ['?'], ascii ['h', 'e', 'l', 'p']],
      (∀ c ∈ text, OnLayout c ∧ c ≠ 0x0a) ∧
        Narrow xgaConfig.cols (.editing []) (lineKeys text) := by
    intro text htext
    obtain rfl | htext := List.mem_cons.mp htext
    · exact ⟨by decide, by decide⟩
    · rw [List.mem_singleton.mp htext]
      exact ⟨by decide, by decide⟩
  have hrest : bootDevices.kb.AtRest := ⟨rfl, rfl, rfl, rfl⟩
  have hevs : ((lineBytes (ascii ['?']) ++ lineBytes (ascii ['h', 'e', 'l', 'p'])).flatMap fun b =>
      [none, some b]).reduceOption = [ascii ['?'], ascii ['h', 'e', 'l', 'p']].flatMap lineBytes :=
    rfl
  obtain ⟨start, t, text, s', hprompt, hrun, -, -, hout, hdraw, -, hpaper'⟩ :=
    shell_typed (by decide) hok hmode hpaper rfl (by decide) textReader_apart (by decide) hrest
      htexts hevs
  exact ⟨s, start, t, text, s', hstart, hprompt, hrun, hout, hdraw, hpaper'⟩

end Shown

end Medlar64
