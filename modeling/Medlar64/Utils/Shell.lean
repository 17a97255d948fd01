import Medlar64.Dev.LineEditor
import Medlar64.Libc.Strcmp

/-!
# Medlar64 — the commands of the shell (`shell.c`)

`shell_launch` reads a line with `kb_get_string` and compares it with one
literal after another.

* `shellBranch` — the `if` chain of the source.
* `recognise` — what it is for: the command that the line is.
* `shellBranch_eq` — it takes the branch of the line's command.
* `shell_recognises_typed` — for the line typed on the keyboard.
-/

namespace Medlar64

-- ---------------------------------------------------------------------------
-- The source
-- ---------------------------------------------------------------------------

/-- Where the literals `""`, `"help"` and `"clear"` are. -/
structure ShellLiterals where
  empty : ℕ
  help : ℕ
  clear : ℕ

/-- The branches of `shell_launch`. -/
inductive ShellBranch
  | nothing
  | help
  | clear
  | notFound
  deriving DecidableEq

/-- `if (!strcmp(buf, "")) … else …`; `none` when a comparison does not return. -/
def shellBranch (m : Memory) (lits : ShellLiterals) (buf fuel : ℕ) : Option ShellBranch :=
  match strcmp m buf lits.empty fuel with
  | none => none
  | some (r, _) =>
    if r = 0 then some .nothing
    else
      match strcmp m buf lits.help fuel with
      | none => none
      | some (r, _) =>
        if r = 0 then some .help
        else
          match strcmp m buf lits.clear fuel with
          | none => none
          | some (r, _) => if r = 0 then some .clear else some .notFound

-- ---------------------------------------------------------------------------
-- The commands
-- ---------------------------------------------------------------------------

def emptyText : CString := ⟨[], by decide⟩

def helpText : CString := ⟨ascii ['h', 'e', 'l', 'p'], by decide⟩

def clearText : CString := ⟨ascii ['c', 'l', 'e', 'a', 'r'], by decide⟩

/-- The command that a line is. -/
def recognise (line : List (BitVec 8)) : ShellBranch :=
  if line = emptyText.items then .nothing
  else if line = helpText.items then .help
  else if line = clearText.items then .clear
  else .notFound

/-- The literals are in memory. -/
structure ShellLiterals.At (lits : ShellLiterals) (m : Memory) : Prop where
  empty : emptyText.At m lits.empty
  help : helpText.At m lits.help
  clear : clearText.At m lits.clear

/-- A byte of one of the literals. -/
def ShellLiterals.Byte (lits : ShellLiterals) (q : ℕ) : Prop :=
  InString lits.empty emptyText q ∨ InString lits.help helpText q ∨ InString lits.clear clearText q

-- ---------------------------------------------------------------------------
-- One line
-- ---------------------------------------------------------------------------

section Line

variable {m m' : Memory} {lits : ShellLiterals} {buf : ℕ} {line text : CString}

/-- A test of the chain. -/
theorem strcmp_text (hline : line.At m buf) (hlt : line.length < 2 ^ 31) {p : ℕ}
    (htext : text.At m p) (htlt : text.length < 6) {fuel : ℕ} (hfuel : line.length < fuel)
    (hsix : 6 ≤ fuel) :
    ∃ r reads, strcmp m buf p fuel = some (r, reads) ∧ (r = 0 ↔ line.items = text.items) := by
  obtain ⟨r, reads, hrun, heq, -⟩ := strcmp_result hline htext hlt
    (Nat.lt_trans htlt (by decide)) hfuel (Nat.lt_of_lt_of_le htlt hsix)
  exact ⟨r, reads, hrun, heq.trans Terminated.ext_iff⟩

/-- The chain finds the command by exact equality. -/
theorem shellBranch_eq (hlits : lits.At m) (hline : line.At m buf) (hlt : line.length < 2 ^ 31)
    {fuel : ℕ} (hfuel : line.length < fuel) (hsix : 6 ≤ fuel) :
    shellBranch m lits buf fuel = some (recognise line.items) := by
  obtain ⟨r₁, _, hempty, h₁⟩ := strcmp_text hline hlt hlits.empty (by decide) hfuel hsix
  obtain ⟨r₂, _, hhelp, h₂⟩ := strcmp_text hline hlt hlits.help (by decide) hfuel hsix
  obtain ⟨r₃, _, hclear, h₃⟩ := strcmp_text hline hlt hlits.clear (by decide) hfuel hsix
  unfold shellBranch recognise
  simp only [hempty, hhelp, hclear, h₁, h₂, h₃, apply_ite some]

/-- The literals stay where nothing is written. -/
theorem ShellLiterals.At.congr (h : lits.At m) (hsame : ∀ q, lits.Byte q → m' q = m q) :
    lits.At m' where
  empty i hi := (hsame _ (.inl ⟨by omega, by omega⟩)).trans (h.empty i hi)
  help i hi := (hsame _ (.inr (.inl ⟨by omega, by omega⟩))).trans (h.help i hi)
  clear i hi := (hsame _ (.inr (.inr ⟨by omega, by omega⟩))).trans (h.clear i hi)

end Line

/-- **The line typed.** After any wake-ups of `kb_get_string(buf, 1024)` the shell
takes the branch of the line that the editor shows. -/
theorem shell_recognises_typed (r : Reader) {buf : ℕ} {lits : ShellLiterals} (kbs : List Kb)
    (hlits : lits.At r.mach.read8)
    (hoff : ∀ q, lits.Byte q → ∀ i < 1024, r.mach.physical q ≠ r.mach.physical (buf + i)) :
    ∃ r', readLine (r.call buf 1024) kbs = some r' ∧
      shellBranch r'.mach.read8 lits buf 1024 =
        some (recognise (kbs.foldl (Editor.step 1024) (.editing [])).line) := by
  obtain ⟨r', hrun, hedits⟩ := (edits_call r buf 1024).readLine (by decide) (by decide) kbs
  refine ⟨r', hrun, ?_⟩
  have hroom := hedits.room
  -- the buffer holds the line and a terminator
  let line : CString := ⟨(kbs.foldl (Editor.step 1024) (.editing [])).line, hedits.nonzero⟩
  have hlen : line.length ≤ 1024 - 1 := hroom
  have hline : line.At r'.mach.read8 buf := fun i hi => hedits.holds.bytes i (by omega)
  -- and the literals are not in the buffer
  have hkept : lits.At r'.mach.read8 := hlits.congr fun q hq => by
    have hframe := hedits.holds.frame (r.mach.physical q) fun i hi => hoff q hq i hi
    rw [Machine.read8, hedits.holds.globals.physical, hframe]
    rfl
  exact shellBranch_eq hkept hline (by omega) (by omega) (by decide)

end Medlar64
