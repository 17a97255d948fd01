import Medlar64.Flanterm.Editing
import Medlar64.Printf.Console
import Medlar64.Printf.Spelling
import Medlar64.Printf.Strings
import Medlar64.Utils.Shell

/-!
# Medlar64 — a session with the shell

`shell_launch` from the keys to the pixels: the prompt, the line that
`kb_get_string` edits, the answer, all of it through `printf`.

* `shellRound` — one pass of the loop of the source.
* `transcript` — what is on the screen afterwards: prompt, line and answer as if
  they had been typed without a mistake.
* `readLine_strokes` — the keys as strokes on paper.
* `shell_session` — any number of passes.
-/

namespace Medlar64

open Flanterm (Stroke)

-- ---------------------------------------------------------------------------
-- The source
-- ---------------------------------------------------------------------------

/-- What a `printf` prints. -/
def printfText (f : List Char) (args : List Printf.Arg) : Option (List (BitVec 8)) :=
  match Printf.format (f.map Printf.byte ++ [0]) args with
  | .done st => some st.out
  | _ => none

/-- The bytes of a buffer. -/
def bytesAt (m : Memory) (buf n : ℕ) : List (BitVec 8) := (List.range n).map fun i => m (buf + i)

/-- The answers of `shell_launch`. -/
def shellPrint (m : Memory) (buf : ℕ) : ShellBranch → Option (List (BitVec 8))
  | .nothing => some []
  | .help => printfText "commands: help, clear\n".toList []
  | .clear => printfText "\x1b[2J\x1b[H".toList []
  | .notFound =>
    printfText "%s: command not found\n".toList [⟨BitVec.ofNat 64 buf, bytesAt m buf 1024⟩]

/-- The comparisons and the answer, once `kb_get_string` has returned. -/
def shellAnswer (lits : ShellLiterals) (buf : ℕ) (r : Reader) : Option Reader := do
  let branch ← shellBranch r.mach.read8 lits buf 1024
  let text ← shellPrint r.mach.read8 buf branch
  some (r.printf text)

/-- One pass of the loop of `shell_launch`, with the wake-ups of `kb_get_string`
until it returns. -/
def shellRound (lits : ShellLiterals) (buf : ℕ) (r : Reader) (kbs : List Kb) : Option Reader := do
  let prompt ← printfText "medlar > ".toList []
  let r ← readLine ((r.printf prompt).call buf 1024) kbs
  if r.pc = .gap then shellAnswer lits buf r else none

-- ---------------------------------------------------------------------------
-- What the screen shows
-- ---------------------------------------------------------------------------

def promptText : List (BitVec 8) := ascii ['m', 'e', 'd', 'l', 'a', 'r', ' ', '>', ' ']

def helpAnswer : List (BitVec 8) :=
  ascii ['c', 'o', 'm', 'm', 'a', 'n', 'd', 's', ':', ' ', 'h', 'e', 'l', 'p', ',', ' ', 'c', 'l',
    'e', 'a', 'r', '\n']

def notFoundAnswer : List (BitVec 8) :=
  ascii [':', ' ', 'c', 'o', 'm', 'm', 'a', 'n', 'd', ' ', 'n', 'o', 't', ' ', 'f', 'o', 'u', 'n',
    'd', '\n']

/-- Plain text on paper. -/
def typeText (cols : ℕ) (p : Paper (BitVec 8)) (text : List (BitVec 8)) : Paper (BitVec 8) :=
  text.foldl (fun p c => if c = 0x0a then p.newline else p.print cols c) p

/-- The sheet after a pass that ends with the editor in `e`. -/
def transcript (cols : ℕ) (p : Paper (BitVec 8)) : Editor → Paper (BitVec 8)
  | .editing _ => p
  | .cleared => ⟨[], []⟩
  | .entered line =>
    match recognise line with
    | .nothing => typeText cols p (promptText ++ line ++ [0x0a])
    | .help => typeText cols p (promptText ++ line ++ [0x0a] ++ helpAnswer)
    | .clear => ⟨[], []⟩
    | .notFound => typeText cols p (promptText ++ line ++ [0x0a] ++ (line ++ notFoundAnswer))

-- ---------------------------------------------------------------------------
-- Text
-- ---------------------------------------------------------------------------

/-- The strokes of plain text. -/
def textStrokes (text : List (BitVec 8)) : List Stroke :=
  text.map fun c => if c = 0x0a then .newline else .char c

/-- The strokes of a text are its characters. -/
theorem textStrokes_bytes (text : List (BitVec 8)) :
    (textStrokes text).flatMap Stroke.bytes = text := by
  induction text with
  | nil => rfl
  | cons c text ih =>
    have hfirst : (if c = 0x0a then Stroke.newline else .char c).bytes = [c] := by
      split
      case isTrue hline =>
        rw [hline]
        rfl
      case isFalse => rfl
    show (if c = 0x0a then Stroke.newline else .char c).bytes ++
      (textStrokes text).flatMap Stroke.bytes = _
    rw [hfirst, ih, List.singleton_append]

/-- On the paper the strokes of a text type it. -/
theorem textStrokes_apply (cols : ℕ) (p : Paper (BitVec 8)) (text : List (BitVec 8)) :
    (textStrokes text).foldl (Stroke.apply cols) p = typeText cols p text := by
  rw [textStrokes, List.foldl_map, typeText]
  refine congrArg (fun f => text.foldl f p) (funext fun p => funext fun c => ?_)
  split
  · rfl
  · rfl

/-- Characters and ends of lines fit everywhere. -/
theorem textStrokes_fit (cols : ℕ) (p : Paper (BitVec 8)) {text : List (BitVec 8)}
    (htext : ∀ c ∈ text, c = 0x0a ∨ Flanterm.Printable c) :
    Flanterm.FitAll cols p (textStrokes text) := by
  induction text generalizing p with
  | nil => exact trivial
  | cons c text ih =>
    obtain ⟨hc, hrest⟩ := List.forall_mem_cons.mp htext
    refine ⟨?_, ih _ hrest⟩
    show Stroke.Fits cols p (if c = 0x0a then .newline else .char c)
    split
    case isTrue => exact trivial
    case isFalse hline => exact hc.resolve_left hline

theorem typeText_append (cols : ℕ) (p : Paper (BitVec 8)) (text text' : List (BitVec 8)) :
    typeText cols p (text ++ text') = typeText cols (typeText cols p text) text' :=
  List.foldl_append

/-- A text within one line. -/
theorem typeText_line {cols : ℕ} (done : List (List (BitVec 8))) {cur text : List (BitVec 8)}
    (htext : ∀ c ∈ text, c ≠ 0x0a) (hroom : (cur ++ text).length ≤ cols) :
    typeText cols ⟨done, cur⟩ text = ⟨done, cur ++ text⟩ := by
  induction text generalizing cur with
  | nil =>
    rw [List.append_nil]
    rfl
  | cons c text ih =>
    obtain ⟨hc, hrest⟩ := List.forall_mem_cons.mp htext
    have hlt : cur.length < cols := by
      rw [List.length_append, List.length_cons] at hroom
      omega
    have hmore : cur ++ c :: text = cur ++ [c] ++ text := by
      rw [List.append_assoc, List.singleton_append]
    rw [hmore] at hroom ⊢
    rw [← ih hrest hroom]
    show typeText cols (if c = 0x0a then _ else Paper.print cols c ⟨done, cur⟩) text = _
    rw [if_neg hc, Paper.print, if_pos hlt]

-- ---------------------------------------------------------------------------
-- Keys
-- ---------------------------------------------------------------------------

/-- What a key does to the screen. -/
def keyStrokes : Editor → Kb → List Stroke
  | .editing line, kb =>
    if kb.char = 0 then []
    else if kb.char = 0x0a then [.newline]
    else if kb.char = 0x08 then if line = [] then [] else [.rubout]
    else if IsCtrlL kb then [.clear]
    else if line.length < 1024 - 1 then [.char kb.char]
    else []
  | _, _ => []

def lineStrokes : Editor → List Kb → List Stroke
  | _, [] => []
  | e, kb :: kbs => keyStrokes e kb ++ lineStrokes (e.step 1024 kb) kbs

section Keys

variable {r₀ r : Reader} {buf : ℕ} {e : Editor}

/-- One wake-up prints its strokes, by the cases of the `switch`: nothing, a
line feed, an erased character, a cleared screen, or the character itself. -/
theorem wake_strokes {line : List (BitVec 8)} (h : Edits r₀ buf 1024 (.editing line) r) (kb : Kb) :
    (r.wake kb).out = r.out ++ (keyStrokes (.editing line) kb).flatMap Stroke.bytes := by
  have hpos := h.pos_editing
  have hnothing : ∀ out : List (BitVec 8), out = out ++ List.flatMap Stroke.bytes [] :=
    fun out => (List.append_nil out).symm
  have hlast : u64 (r.n + (2 ^ 64 - 1)) = 1024 - 1 := by
    rw [h.n_eq]
    rfl
  -- by the cases of the `switch`
  rw [Reader.wake, keyStrokes]
  by_cases hzero : kb.char = 0
  · rw [if_pos hzero, if_pos hzero]
    exact hnothing _
  rw [if_neg hzero, if_neg hzero]
  by_cases hline : kb.char = 0x0a
  · rw [if_pos hline, if_pos hline]
    rfl
  rw [if_neg hline, if_neg hline]
  by_cases hback : kb.char = 0x08
  · rw [if_pos hback, if_pos hback]
    by_cases hne : line = []
    · rw [if_pos hne, if_pos (by simp [hpos, hne])]
      exact hnothing _
    · rw [if_neg hne, if_neg (by simp [hpos, hne])]
      rfl
  rw [if_neg hback, if_neg hback]
  by_cases hctrl : IsCtrlL kb
  · rw [if_pos hctrl, if_pos hctrl]
    rfl
  rw [if_neg hctrl, if_neg hctrl, hlast, hpos]
  by_cases hfull : line.length ≥ 1024 - 1
  · rw [if_pos hfull, if_neg (by omega)]
    exact hnothing _
  · rw [if_neg hfull, if_pos (by omega)]
    rfl

theorem wakeUp_gap (h : r.pc = .gap) (kb : Kb) : wakeUp r kb = some r := by
  simp [wakeUp, whileRun, readerBody, kbGetString, h]

/-- One wake-up of `kb_get_string` is a step of the editor, and the bytes it
sends to the terminal are those of the strokes of the key. -/
theorem wakeUp_strokes (h : Edits r₀ buf 1024 e r) (kb : Kb) :
    ∃ r', wakeUp r kb = some r' ∧ Edits r₀ buf 1024 (e.step 1024 kb) r' ∧
      r'.out = r.out ++ (keyStrokes e kb).flatMap Stroke.bytes := by
  obtain ⟨r', hrun, hedits⟩ := h.wakeUp (by decide) (by decide) kb
  refine ⟨r', hrun, hedits, ?_⟩
  have hquiet : r.pc = .gap → r'.out = r.out ++ List.flatMap Stroke.bytes [] := by
    intro hgap
    have heq : r' = r := Option.some.inj (hrun.symm.trans (wakeUp_gap hgap kb))
    rw [heq]
    exact (List.append_nil _).symm
  cases e with
  | editing line =>
    have heq : r' = r.wake kb := Option.some.inj (hrun.symm.trans (wakeUp_eq kb h.pc))
    rw [heq]
    exact wake_strokes h kb
  | entered line => exact hquiet h.pc
  | cleared => exact hquiet h.pc

/-- **Keys.** Any number of wake-ups. -/
theorem readLine_strokes (h : Edits r₀ buf 1024 e r) (kbs : List Kb) :
    ∃ r', readLine r kbs = some r' ∧ Edits r₀ buf 1024 (kbs.foldl (Editor.step 1024) e) r' ∧
      r'.out = r.out ++ (lineStrokes e kbs).flatMap Stroke.bytes := by
  induction kbs generalizing e r with
  | nil => exact ⟨r, rfl, h, (List.append_nil _).symm⟩
  | cons kb kbs ih =>
    obtain ⟨next, hnext, hedits, hout⟩ := wakeUp_strokes h kb
    obtain ⟨r', hrun, hend, hout'⟩ := ih hedits
    refine ⟨r', ?_, hend, ?_⟩
    · rw [readLine, List.foldlM_cons, hnext]
      exact hrun
    · rw [hout', hout, lineStrokes, List.flatMap_append, List.append_assoc]

end Keys

-- ---------------------------------------------------------------------------
-- The line on paper
-- ---------------------------------------------------------------------------

/-- Prompt and line on the sheet. -/
def sheet (done : List (List (BitVec 8))) : Editor → Paper (BitVec 8)
  | .editing line => ⟨done, promptText ++ line⟩
  | .entered line => ⟨done ++ [promptText ++ line], []⟩
  | .cleared => ⟨[], []⟩

/-- A key of a character on the paper, or one with a meaning of its own. -/
def KeyOk (kb : Kb) : Prop :=
  kb.char = 0 ∨ kb.char = 0x0a ∨ kb.char = 0x08 ∨ Flanterm.Printable kb.char

instance (kb : Kb) : Decidable (KeyOk kb) := inferInstanceAs (Decidable (_ ∨ _ ∨ _ ∨ _ ∧ _))

/-- Prompt and line stay within one line of the screen. -/
def Narrow (cols : ℕ) : Editor → List Kb → Prop
  | e, [] => (promptText ++ e.line).length < cols
  | e, kb :: kbs =>
    (promptText ++ e.line).length < cols ∧ KeyOk kb ∧ Narrow cols (e.step 1024 kb) kbs

instance decidableNarrow (cols : ℕ) : ∀ (e : Editor) (kbs : List Kb), Decidable (Narrow cols e kbs)
  | e, [] => inferInstanceAs (Decidable ((promptText ++ e.line).length < cols))
  | e, kb :: kbs =>
    haveI := decidableNarrow cols (e.step 1024 kb) kbs
    inferInstanceAs (Decidable (_ ∧ _ ∧ Narrow cols (e.step 1024 kb) kbs))

/-- The strokes of one key fit on the paper and leave the line of the editor on
it, if the line does not reach the right margin. -/
theorem keyStrokes_paper {cols : ℕ} (done : List (List (BitVec 8))) {e : Editor} {kb : Kb}
    (hwidth : (promptText ++ e.line).length < cols) (hkey : KeyOk kb) :
    Flanterm.FitAll cols (sheet done e) (keyStrokes e kb) ∧
      (keyStrokes e kb).foldl (Stroke.apply cols) (sheet done e) = sheet done (e.step 1024 kb) := by
  cases e with
  | entered line => exact ⟨trivial, rfl⟩
  | cleared => exact ⟨trivial, rfl⟩
  | editing line =>
    rw [keyStrokes, Editor.step_editing]
    -- the cases in the order of the `if`s of `kb_get_string`
    by_cases hzero : kb.char = 0
    · rw [if_pos hzero, if_pos hzero]
      exact ⟨trivial, rfl⟩
    rw [if_neg hzero, if_neg hzero]
    by_cases hline : kb.char = 0x0a
    · rw [if_pos hline, if_pos hline]
      exact ⟨⟨trivial, trivial⟩, rfl⟩
    rw [if_neg hline, if_neg hline]
    by_cases hback : kb.char = 0x08
    · rw [if_pos hback, if_pos hback]
      by_cases hne : line = []
      · rw [if_pos hne, hne]
        exact ⟨trivial, rfl⟩
      · rw [if_neg hne]
        -- the prompt is never empty, so a line behind it can be shortened
        have hcur : promptText ++ line ≠ [] := fun hnil => hne (List.append_eq_nil_iff.mp hnil).2
        refine ⟨⟨⟨hcur, hwidth⟩, trivial⟩, ?_⟩
        show (⟨done, (promptText ++ line).dropLast⟩ : Paper (BitVec 8)) =
          ⟨done, promptText ++ line.dropLast⟩
        rw [List.dropLast_append_of_ne_nil hne]
    rw [if_neg hback, if_neg hback]
    by_cases hctrl : IsCtrlL kb
    · rw [if_pos hctrl, if_pos hctrl]
      exact ⟨⟨trivial, trivial⟩, rfl⟩
    rw [if_neg hctrl, if_neg hctrl]
    have hprintable : Flanterm.Printable kb.char :=
      ((hkey.resolve_left hzero).resolve_left hline).resolve_left hback
    by_cases hroom : line.length < 1024 - 1
    · rw [if_pos hroom, if_pos hroom]
      refine ⟨⟨hprintable, trivial⟩, ?_⟩
      show Paper.print cols kb.char ⟨done, promptText ++ line⟩ =
        ⟨done, promptText ++ (line ++ [kb.char])⟩
      -- one character still fits: `hwidth` is about the line before it
      have hlt : (promptText ++ line).length < cols := hwidth
      rw [Paper.print, if_pos hlt, List.append_assoc]
    · rw [if_neg hroom, if_neg hroom]
      exact ⟨trivial, rfl⟩

/-- The same for all keys of a line, by induction on them. The line never
reaches the right margin, so no key moves the prompt to another row. -/
theorem lineStrokes_paper {cols : ℕ} (done : List (List (BitVec 8))) {e : Editor} {kbs : List Kb}
    (h : Narrow cols e kbs) :
    Flanterm.FitAll cols (sheet done e) (lineStrokes e kbs) ∧
      (lineStrokes e kbs).foldl (Stroke.apply cols) (sheet done e) =
        sheet done (kbs.foldl (Editor.step 1024) e) := by
  induction kbs generalizing e with
  | nil => exact ⟨trivial, rfl⟩
  | cons kb kbs ih =>
    obtain ⟨hwidth, hkey, hmore⟩ := h
    obtain ⟨hfits, hpaper⟩ := keyStrokes_paper done hwidth hkey
    obtain ⟨hfits', hpaper'⟩ := ih hmore
    rw [← hpaper] at hfits' hpaper'
    rw [lineStrokes, List.foldl_append]
    exact ⟨Flanterm.fitAll_append hfits hfits', hpaper'⟩

-- ---------------------------------------------------------------------------
-- The answer
-- ---------------------------------------------------------------------------

/-- A format without a `%` prints itself. -/
theorem printfText_text {f : List Char} {text : List (BitVec 8)}
    (hf : f.map Printf.byte = text) (htext : ∀ c ∈ text, c ≠ 0 ∧ c ≠ Printf.byte '%') :
    printfText f [] = some text := by
  rw [printfText, hf, Printf.format, Printf.formatLoop_text htext]
  · rfl
  · rw [List.length_append]
    exact Nat.lt_succ_self _

/-- So does the prompt. -/
theorem printfText_prompt : printfText "medlar > ".toList [] = some promptText :=
  printfText_text rfl (by decide)

/-- The format with a string: the string up to its terminator and then the rest
of the format. It is one directive and plain text, so the loop reads it as two
pieces. -/
theorem printfText_notFound {a : Printf.Arg} (hword : a.word ≠ 0) (hend : 0 ∈ a.bytes)
    (hlong : (Printf.contents a.bytes).length ≤ Printf.maxBufferSize) :
    printfText "%s: command not found\n".toList [a] =
      some (Printf.contents a.bytes ++ notFoundAnswer) := by
  have hstring : Printf.stringText a 0 0 {} = some (Printf.contents a.bytes) := by
    have henough : Printf.Enough a.bytes 0 := Or.inl hend
    rw [Printf.stringText, if_neg hword, Printf.printString_eq (fun _ => rfl) hlong,
      if_pos henough]
    simp [Printf.justified, Printf.spaces]
  -- the format as a specification followed by plain text
  obtain ⟨s, hspell, hdirective⟩ : ∃ s : Printf.Spec, s.spell = [Printf.byte '%', Printf.byte 's'] ∧
      s.directive = ⟨{}, .none, .none, Printf.byte 's'⟩ :=
    ⟨⟨[], .none, .none, .int, Printf.byte 's', by decide, by decide⟩, rfl, rfl⟩
  have hrun : Printf.Piece.run { args := [a] } (.spec s) =
      some ⟨Printf.contents a.bytes, [], []⟩ := by
    show Printf.runDirective s.directive { args := [a] } = _
    rw [hdirective]
    show (Printf.stringText a 0 0 {} >>= fun chars =>
      some (Printf.State.put ⟨[], [], []⟩ chars)) = _
    rw [hstring]
    rfl
  -- 23 rounds are enough: one for `%s`, the others for the text
  have hloop := Printf.formatLoop_piece 22 (.spec s) (notFoundAnswer ++ [0]) { args := [a] }
  rw [hrun] at hloop
  have htext := @Printf.formatLoop_text notFoundAnswer (by decide) 22 (by decide)
    ⟨Printf.contents a.bytes, [], []⟩
  have hformat : Printf.format ("%s: command not found\n".toList.map Printf.byte ++ [0]) [a] =
      .done ⟨Printf.contents a.bytes ++ notFoundAnswer, [], []⟩ := by
    refine Eq.trans ?_ (hloop.trans htext)
    show Printf.formatLoop 23 _ _ = Printf.formatLoop 23 (s.spell ++ (notFoundAnswer ++ [0])) _
    rw [hspell]
    rfl
  rw [printfText, hformat]

/-- The bytes of the buffer hold the line and a terminator. Behind the line
there are zeros only, and there is room for one, so `%s` stops at the end of
the line. -/
theorem contents_bytesAt {m : Memory} {buf n : ℕ} {line : List (BitVec 8)}
    (hline : ∀ i < n, m (buf + i) = line.getD i 0) (hroom : line.length < n) (hzero : 0 ∉ line) :
    Printf.contents (bytesAt m buf n) = line ∧ 0 ∈ bytesAt m buf n := by
  -- behind the line the buffer holds zeros only
  have hbytes : bytesAt m buf n = line ++ 0 :: List.replicate (n - line.length - 1) 0 := by
    refine List.ext_getElem ?_ ?_
    · simp [bytesAt]
      omega
    · intro i hi hi'
      have hin : i < n := by simpa [bytesAt] using hi
      have hget : (bytesAt m buf n)[i] = line.getD i 0 := by
        simp [bytesAt, hline i hin]
      rw [hget, List.getElem_append]
      split
      case isTrue hlt => rw [List.getD_eq_getElem _ _ hlt]
      case isFalse hge =>
        rw [List.getD_eq_default _ _ (by omega)]
        have hrest : ∀ k,
            ∀ h : k < (0 :: List.replicate (n - line.length - 1) (0 : BitVec 8)).length,
            (0 :: List.replicate (n - line.length - 1) (0 : BitVec 8))[k] = 0 := by
          intro k h
          cases k with
          | zero => rfl
          | succ k => simp
        exact (hrest _ _).symm
  rw [hbytes]
  exact ⟨Printf.contents_append hzero _, List.mem_append_right _ List.mem_cons_self⟩

-- ---------------------------------------------------------------------------
-- One pass
-- ---------------------------------------------------------------------------

/-- The sheet after an answer. -/
def answerPaper (cols : ℕ) (p : Paper (BitVec 8)) (line : List (BitVec 8)) : Paper (BitVec 8) :=
  match recognise line with
  | .nothing => p
  | .help => typeText cols p helpAnswer
  | .clear => ⟨[], []⟩
  | .notFound => typeText cols p (line ++ notFoundAnswer)

section Pass

variable {r₀ r : Reader} {buf cols : ℕ} {lits : ShellLiterals} {e : Editor} {kbs : List Kb}

/-- The keys leave printable characters in the line. By induction on the keys;
a key adds a character, which is printable, or takes some away. -/
theorem printable_line (h : Narrow cols e kbs) (hline : ∀ c ∈ e.line, Flanterm.Printable c) :
    ∀ c ∈ (kbs.foldl (Editor.step 1024) e).line, Flanterm.Printable c := by
  induction kbs generalizing e with
  | nil => exact hline
  | cons kb kbs ih =>
    obtain ⟨-, hkey, hmore⟩ := h
    refine ih hmore ?_
    cases e with
    | entered line => exact hline
    | cleared => exact hline
    | editing line =>
      rw [Editor.step_editing]
      -- only the last case adds a character
      by_cases hzero : kb.char = 0
      · rw [if_pos hzero]
        exact hline
      rw [if_neg hzero]
      by_cases hnewline : kb.char = 0x0a
      · rw [if_pos hnewline]
        exact hline
      rw [if_neg hnewline]
      by_cases hback : kb.char = 0x08
      · rw [if_pos hback]
        exact fun c hc => hline c (List.dropLast_subset line hc)
      rw [if_neg hback]
      have hprintable : Flanterm.Printable kb.char :=
        ((hkey.resolve_left hzero).resolve_left hnewline).resolve_left hback
      -- Ctrl-L, and a line that is full
      split
      · exact fun c hc => absurd hc List.not_mem_nil
      · split
        · intro c hc
          obtain hc | hc := List.mem_append.mp hc
          · exact hline c hc
          · rw [List.mem_singleton.mp hc]
            exact hprintable
        · exact hline

/-- The literals are not in the buffer. -/
theorem literals_kept (h : Edits r₀ buf 1024 e r) (hlits : lits.At r₀.mach.read8)
    (hoff : ∀ q, lits.Byte q → ∀ i < 1024, r₀.mach.physical q ≠ r₀.mach.physical (buf + i)) :
    lits.At r.mach.read8 := by
  refine hlits.congr ?_
  intro q hq
  have hframe := h.holds.frame (r₀.mach.physical q) fun i hi => hoff q hq i hi
  rw [Machine.read8, h.holds.globals.physical, hframe]
  rfl

/-- `shell_launch` compares the finished line with its commands, and takes the
branch of the command it is. -/
theorem shellBranch_edits (h : Edits r₀ buf 1024 e r) (hlits : lits.At r.mach.read8) :
    shellBranch r.mach.read8 lits buf 1024 = some (recognise e.line) := by
  have hroom := h.room
  have hline : (⟨e.line, h.nonzero⟩ : CString).At r.mach.read8 buf :=
    fun i hi => h.holds.bytes i (lt_of_le_of_lt (le_trans hi hroom) (by decide))
  have hlength : (⟨e.line, h.nonzero⟩ : CString).length ≤ 1024 - 1 := hroom
  exact shellBranch_eq hlits hline (by omega) (by omega) (by decide)

/-- The answer in strokes, one case for each branch of `shell_launch`. An
unknown command is repeated, and it can be drawn since the line is printable. -/
theorem shellAnswer_run (h : Edits r₀ buf 1024 e r) (hlits : lits.At r.mach.read8)
    (hbuf : BitVec.ofNat 64 buf ≠ 0) (hline : ∀ c ∈ e.line, Flanterm.Printable c) :
    ∃ ss : List Stroke, shellAnswer lits buf r = some (r.printf (ss.flatMap Stroke.bytes)) ∧
      ∀ p, Flanterm.FitAll cols p ss ∧
        ss.foldl (Stroke.apply cols) p = answerPaper cols p e.line := by
  have hroom := h.room
  have hzero : 0 ∉ e.line := fun hmem => h.nonzero 0 hmem rfl
  -- what `%s` prints is the line, as the line holds no zero
  obtain ⟨hcontents, hend⟩ := contents_bytesAt (n := 1024) h.holds.bytes (by omega) hzero
  rw [shellAnswer, shellBranch_edits h hlits]
  show ∃ ss : List Stroke, (shellPrint r.mach.read8 buf (recognise e.line) >>= fun text =>
    some (r.printf text)) = _ ∧ ∀ p, _ ∧ _ = answerPaper cols p e.line
  simp only [answerPaper]
  cases recognise e.line with
  | nothing => exact ⟨[], rfl, fun p => ⟨trivial, rfl⟩⟩
  | help =>
    refine ⟨textStrokes helpAnswer, ?_, fun p =>
      ⟨textStrokes_fit cols p (by decide), textStrokes_apply cols p helpAnswer⟩⟩
    have htext : printfText "commands: help, clear\n".toList [] = some helpAnswer :=
      printfText_text rfl (by decide)
    rw [shellPrint, htext, textStrokes_bytes]
    rfl
  | clear =>
    refine ⟨[.clear], ?_, fun p => ⟨⟨trivial, trivial⟩, rfl⟩⟩
    have htext : printfText "\x1b[2J\x1b[H".toList [] = some (Stroke.bytes .clear) :=
      printfText_text rfl (by decide)
    rw [shellPrint, htext]
    rfl
  | notFound =>
    -- the answer repeats the line, which is printable
    have hfit : ∀ c ∈ e.line ++ notFoundAnswer, c = 0x0a ∨ Flanterm.Printable c := by
      intro c hc
      obtain hc | hc := List.mem_append.mp hc
      · exact Or.inr (hline c hc)
      · have hall : ∀ c ∈ notFoundAnswer, c = 0x0a ∨ Flanterm.Printable c := by decide
        exact hall c hc
    refine ⟨textStrokes (e.line ++ notFoundAnswer), ?_, fun p =>
      ⟨textStrokes_fit cols p hfit, textStrokes_apply cols p _⟩⟩
    rw [shellPrint]
    generalize bytesAt r.mach.read8 buf 1024 = bytes at hcontents hend ⊢
    have hlong : (Printf.contents bytes).length ≤ Printf.maxBufferSize := by
      rw [hcontents, Printf.maxBufferSize]
      omega
    have htext := @printfText_notFound ⟨BitVec.ofNat 64 buf, bytes⟩ hbuf hend hlong
    rw [htext, hcontents, textStrokes_bytes]
    rfl

theorem typeText_newline (cols : ℕ) (p : Paper (BitVec 8)) (text : List (BitVec 8)) :
    typeText cols p (text ++ [0x0a]) = (typeText cols p text).newline :=
  typeText_append cols p text [0x0a]

/-- Line and answer, as if they had been typed at once. The line feed behind
the line is part of both, and the line fits into one row behind the prompt. -/
theorem transcript_eq {p : Paper (BitVec 8)} (hcur : p.cur = []) (hend : e.pc = .gap)
    (hwidth : (promptText ++ e.line).length ≤ cols)
    (hline : ∀ c ∈ e.line, Flanterm.Printable c) :
    answerPaper cols (sheet p.done e) e.line = transcript cols p e := by
  cases e with
  | editing line => exact absurd hend (by simp [Editor.pc])
  | cleared => rfl
  | entered line =>
    -- without a line feed the typed line stays one line of the sheet
    have hplain : ∀ c ∈ promptText ++ line, c ≠ 0x0a := by
      rintro c hc rfl
      obtain hc | hc := List.mem_append.mp hc
      · exact absurd hc (by decide)
      · exact absurd (hline _ hc) (by decide)
    have hsheet :
        sheet p.done (.entered line) = typeText cols p (promptText ++ line ++ [0x0a]) := by
      obtain ⟨done, cur⟩ := p
      obtain rfl : cur = [] := hcur
      rw [typeText_newline, typeText_line done hplain hwidth]
      rfl
    rw [hsheet]
    show answerPaper cols _ line = _
    rw [answerPaper, transcript]
    cases recognise line with
    | nothing => rfl
    | help => exact (typeText_append cols p _ _).symm
    | clear => rfl
    | notFound => exact (typeText_append cols p _ _).symm

/-- A pass ends at the beginning of a line: every answer ends in a line feed,
and the answer to `clear` is a blank sheet. -/
theorem transcript_cur (p : Paper (BitVec 8)) (hend : e.pc = .gap) :
    (transcript cols p e).cur = [] := by
  have hnewline : ∀ text text' : List (BitVec 8), text' = text ++ [0x0a] →
      (typeText cols p text').cur = [] := by
    intro text text' heq
    rw [heq, typeText_newline]
    rfl
  cases e with
  | editing line => exact absurd hend (by simp [Editor.pc])
  | cleared => rfl
  | entered line =>
    rw [transcript]
    cases recognise line with
    | nothing => exact hnewline _ _ rfl
    | help =>
      -- every answer ends in a line feed
      have hlast : helpAnswer = helpAnswer.dropLast ++ [0x0a] := by decide
      refine hnewline (promptText ++ line ++ [0x0a] ++ helpAnswer.dropLast) _ ?_
      rw [List.append_assoc (promptText ++ line ++ [0x0a]), ← hlast]
    | clear => rfl
    | notFound =>
      have hlast : notFoundAnswer = notFoundAnswer.dropLast ++ [0x0a] := by decide
      refine hnewline (promptText ++ line ++ [0x0a] ++ (line ++ notFoundAnswer.dropLast)) _ ?_
      rw [List.append_assoc (promptText ++ line ++ [0x0a]), List.append_assoc line, ← hlast]

/-- The width holds at the end. -/
theorem Narrow.last (h : Narrow cols e kbs) :
    (promptText ++ (kbs.foldl (Editor.step 1024) e).line).length < cols := by
  induction kbs generalizing e with
  | nil => exact h
  | cons kb kbs ih => exact ih h.2.2

/-- The prompt at the beginning of a line. -/
theorem prompt_paper {p : Paper (BitVec 8)} (hcur : p.cur = []) (hroom : promptText.length ≤ cols) :
    Flanterm.FitAll cols p (textStrokes promptText) ∧
      (textStrokes promptText).foldl (Stroke.apply cols) p = sheet p.done (.editing []) := by
  obtain ⟨done, cur⟩ := p
  obtain rfl : cur = [] := hcur
  have hwidth : ([] ++ promptText).length ≤ cols := by
    rw [List.nil_append]
    exact hroom
  refine ⟨@textStrokes_fit cols _ promptText (by decide), ?_⟩
  rw [textStrokes_apply, typeText_line done (by decide) hwidth]
  rfl

/-- **Pass.** The strokes of one pass are those of the prompt, of the keys and
of the answer, each of which continues on the sheet that the one before it
leaves. -/
theorem shellRound_run {p : Paper (BitVec 8)} (hcur : p.cur = []) (hlits : lits.At r.mach.read8)
    (hoff : ∀ q, lits.Byte q → ∀ i < 1024, r.mach.physical q ≠ r.mach.physical (buf + i))
    (hbuf : BitVec.ofNat 64 buf ≠ 0) (hnarrow : Narrow cols (.editing []) kbs)
    (hend : (kbs.foldl (Editor.step 1024) (.editing [])).pc = .gap) :
    ∃ r' ss, shellRound lits buf r kbs = some r' ∧ r'.out = r.out ++ ss.flatMap Stroke.bytes ∧
      lits.At r'.mach.read8 ∧ SameGlobals r.mach r'.mach ∧ Flanterm.FitAll cols p ss ∧
      ss.foldl (Stroke.apply cols) p =
        transcript cols p (kbs.foldl (Editor.step 1024) (.editing [])) := by
  obtain ⟨r₁, hrun, hedits, hout⟩ :=
    readLine_strokes (edits_call (r.printf promptText) buf 1024) kbs
  have hkept : lits.At r₁.mach.read8 := literals_kept hedits hlits hoff
  have hprintable := printable_line hnarrow fun c hc => absurd hc List.not_mem_nil
  obtain ⟨answer, hanswer, hpaper⟩ := @shellAnswer_run _ _ _ cols _ _ hedits hkept hbuf hprintable
  obtain ⟨hfits, hline⟩ := lineStrokes_paper p.done hnarrow
  -- the prompt fits since prompt and line do
  have hroom : promptText.length ≤ cols := by
    have hlast := hnarrow.last
    rw [List.length_append] at hlast
    omega
  obtain ⟨hpromptFits, hprompt⟩ := prompt_paper hcur hroom
  -- the strokes: the prompt, the keys, the answer
  refine ⟨r₁.printf (answer.flatMap Stroke.bytes),
    textStrokes promptText ++ (lineStrokes (.editing []) kbs ++ answer), ?_, ?_, hkept,
    hedits.holds.globals, ?_, ?_⟩
  · rw [shellRound, printfText_prompt]
    show (readLine ((r.printf promptText).call buf 1024) kbs >>= fun r =>
      if r.pc = .gap then shellAnswer lits buf r else none) = _
    rw [hrun]
    show (if r₁.pc = .gap then shellAnswer lits buf r₁ else none) = _
    rw [if_pos (hedits.pc.trans hend), hanswer]
  · show r₁.out ++ answer.flatMap Stroke.bytes = _
    rw [hout, List.flatMap_append, List.flatMap_append, textStrokes_bytes]
    show r.out ++ promptText ++ _ ++ _ = _
    rw [List.append_assoc, List.append_assoc]
  · refine Flanterm.fitAll_append hpromptFits ?_
    rw [hprompt]
    refine Flanterm.fitAll_append hfits ?_
    rw [hline]
    exact (hpaper _).1
  · rw [List.foldl_append, List.foldl_append, hprompt, hline, (hpaper _).2]
    exact transcript_eq hcur hend hnarrow.last.le hprintable

end Pass

-- ---------------------------------------------------------------------------
-- Sessions
-- ---------------------------------------------------------------------------

/-- The keys of one pass: they end the line, and it stays within one row. -/
structure OneLine (cols : ℕ) (kbs : List Kb) : Prop where
  narrow : Narrow cols (.editing []) kbs
  ends : (kbs.foldl (Editor.step 1024) (.editing [])).pc = .gap

/-- The sheet after any number of passes. -/
def transcripts (cols : ℕ) (p : Paper (BitVec 8)) (rounds : List (List Kb)) : Paper (BitVec 8) :=
  rounds.foldl (fun p kbs => transcript cols p (kbs.foldl (Editor.step 1024) (.editing []))) p

section Session

variable {r : Reader} {buf cols : ℕ} {lits : ShellLiterals} {p : Paper (BitVec 8)}

/-- **Passes.** By induction on them: each ends at the beginning of a line and
leaves texts and buffer where they are, which is all that the next one needs. -/
theorem shellRounds_run (hcur : p.cur = []) (hlits : lits.At r.mach.read8)
    (hoff : ∀ q, lits.Byte q → ∀ i < 1024, r.mach.physical q ≠ r.mach.physical (buf + i))
    (hbuf : BitVec.ofNat 64 buf ≠ 0) {rounds : List (List Kb)}
    (hrounds : ∀ kbs ∈ rounds, OneLine cols kbs) :
    ∃ r' ss, rounds.foldlM (shellRound lits buf) r = some r' ∧
      r'.out = r.out ++ ss.flatMap Stroke.bytes ∧ Flanterm.FitAll cols p ss ∧
      ss.foldl (Stroke.apply cols) p = transcripts cols p rounds := by
  induction rounds generalizing r p with
  | nil => exact ⟨r, [], rfl, (List.append_nil _).symm, trivial, rfl⟩
  | cons kbs rounds ih =>
    obtain ⟨hline, hmore⟩ := List.forall_mem_cons.mp hrounds
    obtain ⟨r₁, ss₁, hrun, hout, hlits₁, hglobals, hfits, hpaper⟩ :=
      shellRound_run hcur hlits hoff hbuf hline.narrow hline.ends
    -- the buffer and the literals are where they were
    have hoff₁ : ∀ q, lits.Byte q → ∀ i < 1024,
        r₁.mach.physical q ≠ r₁.mach.physical (buf + i) := by
      intro q hq i hi
      rw [hglobals.physical, hglobals.physical]
      exact hoff q hq i hi
    obtain ⟨r', ss, hruns, hout', hfits', hpaper'⟩ :=
      ih (transcript_cur p hline.ends) hlits₁ hoff₁ hmore
    rw [← hpaper] at hfits' hpaper'
    refine ⟨r', ss₁ ++ ss, ?_, ?_, Flanterm.fitAll_append hfits hfits', ?_⟩
    · rw [List.foldlM_cons, hrun]
      exact hruns
    · rw [hout', hout, List.flatMap_append, List.append_assoc]
    · rw [List.foldl_append, hpaper', hpaper]
      rfl

end Session

section Shown

open Flanterm

variable {g : FbConfig} {s : Flanterm.Machine} {p : Paper (BitVec 8)} {r : Reader} {buf : ℕ}
  {lits : ShellLiterals}

/-- Strokes that fit, printed through `putchar_`: the screen shows the sheet
afterwards, and the terminal is in text mode. By induction on the strokes. -/
theorem strokes_shown (hwide : g.rows ≤ g.cols) (hok : MachineOk g s) (hmode : TextMode g s.ctx)
    (hpaper : OnPaper g s.ctx p s.screen) {ss : List Stroke} (hfits : FitAll g.cols p ss) :
    ∃ s', (ss.flatMap Stroke.bytes).foldlM (Printf.putchar_ g) s = some s' ∧ MachineOk g s' ∧
      TextMode g s'.ctx ∧ OnPaper g s'.ctx (ss.foldl (Stroke.apply g.cols) p) s'.screen := by
  obtain ⟨ctx, m, hplain, honward, hpaper'⟩ := strokes_run ss hmode hwide hpaper hfits
  obtain ⟨s', hrun, hok', hplain', -⟩ :=
    flantermWrite_run ((ss.flatMap Stroke.bytes).map fun c => [c]) hok
  rw [Printf.flatten_singletons] at hplain'
  -- both are the plain terminal after the same bytes
  obtain ⟨hctx, hscreen⟩ := Prod.mk.inj (Option.some.inj (hplain.symm.trans hplain'))
  have hmode' := honward.mode
  rw [hctx] at hmode'
  rw [hctx, hscreen] at hpaper'
  refine ⟨s', ?_, hok', hmode', hpaper'⟩
  rw [Printf.foldlM_putchar]
  exact hrun

/-- **Session.** Passes of the shell that begin in an empty line: what they print
draws the sheet with prompts, lines and answers, however the lines were edited,
and `clear` and Ctrl-L leave an empty one. -/
theorem shell_session (hwide : g.rows ≤ g.cols) (hok : MachineOk g s) (hmode : TextMode g s.ctx)
    (hpaper : OnPaper g s.ctx p s.screen) (hcur : p.cur = []) (hlits : lits.At r.mach.read8)
    (hoff : ∀ q, lits.Byte q → ∀ i < 1024, r.mach.physical q ≠ r.mach.physical (buf + i))
    (hbuf : BitVec.ofNat 64 buf ≠ 0) {rounds : List (List Kb)}
    (hrounds : ∀ kbs ∈ rounds, OneLine g.cols kbs) :
    ∃ r' text s', rounds.foldlM (shellRound lits buf) r = some r' ∧ r'.out = r.out ++ text ∧
      text.foldlM (Printf.putchar_ g) s = some s' ∧ MachineOk g s' ∧ TextMode g s'.ctx ∧
      OnPaper g s'.ctx (transcripts g.cols p rounds) s'.screen := by
  obtain ⟨r', ss, hrun, hout, hfits, hsheet⟩ := shellRounds_run hcur hlits hoff hbuf hrounds
  obtain ⟨s', hdraw, hok', hmode', hpaper'⟩ := strokes_shown hwide hok hmode hpaper hfits
  rw [hsheet] at hpaper'
  exact ⟨r', ss.flatMap Stroke.bytes, s', hrun, hout, hdraw, hok', hmode', hpaper'⟩

/-- The literals behind the buffer. -/
def textReader : Reader :=
  { idleReader with
    mach := .boot (fun a => if 8192 ≤ a then
      (ascii ['h', 'e', 'l', 'p', '\x00', 'c', 'l', 'e', 'a', 'r', '\x00']).getD (a - 8192) 0
      else 0) usualHhdm }

def textLiterals : ShellLiterals := ⟨usualHhdm + 8196, usualHhdm + 8192, usualHhdm + 8197⟩

/-- The texts of `shell_launch` are in the memory of the example. -/
theorem textReader_at : textLiterals.At textReader.mach.read8 := by
  refine ⟨?_, ?_, ?_⟩ <;> intro i hi
  · obtain rfl : i = 0 := Nat.le_zero.mp hi
    decide
  · have hlt : i < 5 := Nat.lt_succ_of_le hi
    interval_cases i <;> decide
  · have hlt : i < 6 := Nat.lt_succ_of_le hi
    interval_cases i <;> decide

/-- The buffer ends where the literals begin. -/
theorem textReader_off : ∀ q, textLiterals.Byte q → ∀ i < 1024,
    textReader.mach.physical q ≠ textReader.mach.physical (usualHhdm + 4096 + i) := by
  intro q hq i hi
  have hrange : usualHhdm + 8192 ≤ q ∧ q ≤ usualHhdm + 8202 := by
    obtain ⟨hle, hlt⟩ | ⟨hle, hlt⟩ | ⟨hle, hlt⟩ := hq
    · exact ⟨le_trans (by decide) hle, le_trans hlt (by decide)⟩
    · exact ⟨hle, le_trans hlt (by decide)⟩
    · exact ⟨le_trans (by decide) hle, hlt⟩
  show u64 (q + (2 ^ 64 - usualHhdm % 2 ^ 64)) ≠
    u64 (usualHhdm + 4096 + i + (2 ^ 64 - usualHhdm % 2 ^ 64))
  rw [u64, u64]
  omega

/-- The keys without modifiers. -/
def keys (text : List Char) : List Kb := (ascii text).map fun c => { Kb.init with char := c }

/-- A slip corrected in `help`, after an unknown command: the line shows what
is left after the backspace, and so does the answer. -/
theorem shell_session_help :
    ∃ s r' text s', startMachine xgaConfig (fun _ => 0) = some s ∧
      [keys ['h', 'i', '\n'], keys ['h', 'i', '\x08', 'e', 'l', 'p', '\n']].foldlM
        (shellRound textLiterals (usualHhdm + 4096)) textReader = some r' ∧ r'.out = text ∧
      text.foldlM (Printf.putchar_ xgaConfig) s = some s' ∧ MachineOk xgaConfig s' ∧
      OnPaper xgaConfig s'.ctx
        ⟨[promptText ++ ascii ['h', 'i'], ascii ['h', 'i'] ++ notFoundAnswer.dropLast,
          promptText ++ ascii ['h', 'e', 'l', 'p'], helpAnswer.dropLast], []⟩ s'.screen := by
  obtain ⟨s, hstart, hok, hmode, hpaper⟩ := startMachine_paper xgaConfig fun _ => 0
  have hrounds : ∀ kbs ∈ [keys ['h', 'i', '\n'], keys ['h', 'i', '\x08', 'e', 'l', 'p', '\n']],
      OneLine xgaConfig.cols kbs := by
    intro kbs hkbs
    obtain rfl | hkbs := List.mem_cons.mp hkbs
    · exact ⟨by decide, by decide⟩
    · rw [List.mem_singleton.mp hkbs]
      exact ⟨by decide, by decide⟩
  obtain ⟨r', text, s', hrun, hout, hdraw, hok', -, hpaper'⟩ :=
    shell_session (by decide) hok hmode hpaper rfl textReader_at textReader_off (by decide) hrounds
  exact ⟨s, r', text, s', hstart, hrun, hout, hdraw, hok', hpaper'⟩

end Shown

end Medlar64
