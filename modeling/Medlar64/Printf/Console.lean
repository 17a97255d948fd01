import Medlar64.Flanterm.Init
import Medlar64.Flanterm.Screen
import Medlar64.Printf.Gadget

/-!
# printf: the console

`printf` of this kernel hands every character to `putchar_`, which is a call of
`flanterm_write` of its own and so draws it.

* `vprintf_eq` — `printf` is one call of `putchar_` after another.
* `console_shows` — any calls of `printf` end with the picture of one
  `flanterm_write` of all their texts.
-/

namespace Printf

open Flanterm

variable {g : FbConfig}

/-- `putchar_` -/
def putchar_ (g : FbConfig) (s : Machine) (c : BitVec 8) : Option Machine := flantermWrite g s [c]

/-- `vprintf`, and with it `printf` -/
def vprintf (g : FbConfig) (s : Machine) (f : List (BitVec 8)) (args : List Arg) :
    Option Machine := do
  let r ← vfctprintf f args
  r.2.1.foldlM (putchar_ g) s

/-- A format and its arguments print a text. -/
structure Prints (call : List (BitVec 8) × List Arg) (text : List (BitVec 8)) : Prop where
  done : ∃ st, format call.1 call.2 = .done st ∧ st.out = text
  short : text.length < 2 ^ 31

/-- `vprintf` draws the characters of its text one by one. -/
theorem vprintf_eq {call : List (BitVec 8) × List Arg} {text : List (BitVec 8)}
    (h : Prints call text) (s : Machine) :
    vprintf g s call.1 call.2 = text.foldlM (putchar_ g) s := by
  obtain ⟨st, hdone, rfl⟩ := h.done
  rw [vprintf, vfctprintf_eq hdone h.short]
  rfl

/-- Calls of `printf` from the start. -/
def runConsole (g : FbConfig) (framebuffer : ℕ → BitVec 32)
    (calls : List (List (BitVec 8) × List Arg)) : Option Machine := do
  let s ← startMachine g framebuffer
  calls.foldlM (fun s call => vprintf g s call.1 call.2) s

/-- Several calls draw the characters of all texts, by induction on the
calls. -/
theorem foldlM_vprintf {calls : List (List (BitVec 8) × List Arg)} {texts : List (List (BitVec 8))}
    (h : List.Forall₂ Prints calls texts) (s : Machine) :
    calls.foldlM (fun s call => vprintf g s call.1 call.2) s =
      texts.flatten.foldlM (putchar_ g) s := by
  induction h generalizing s with
  | nil => rfl
  | cons hcall hcalls ih =>
    rw [List.foldlM_cons, vprintf_eq hcall, List.flatten_cons, List.foldlM_append]
    congr 1
    funext s'
    exact ih s'

theorem foldlM_putchar (text : List (BitVec 8)) (s : Machine) :
    text.foldlM (putchar_ g) s = (text.map fun c => [c]).foldlM (flantermWrite g) s := by
  rw [List.foldlM_map]
  rfl

/-- The calls of `flanterm_write` for the single characters make up the text. -/
theorem flatten_singletons (text : List (BitVec 8)) : (text.map fun c => [c]).flatten = text := by
  induction text with
  | nil => rfl
  | cons c text ih => rw [List.map_cons, List.flatten_cons, ih, List.singleton_append]

/-- **`printf` draws what one write would.** The picture and the state of the
terminal are those after a single call of `flanterm_write` with all the texts. -/
theorem console_shows (framebuffer : ℕ → BitVec 32) {calls : List (List (BitVec 8) × List Arg)}
    {texts : List (List (BitVec 8))} (h : List.Forall₂ Prints calls texts) :
    ∃ s s', runConsole g framebuffer calls = some s ∧
      runMachine g framebuffer [texts.flatten] = some s' ∧ s.ctx = s'.ctx ∧
      ∀ x < g.width, ∀ y < g.height,
        s.fb.framebuffer (y * (g.pitch / 4) + x) = s'.fb.framebuffer (y * (g.pitch / 4) + x) := by
  obtain ⟨s, hrun, hok, hplain, hmargins, -⟩ :=
    runMachine_ok g framebuffer (texts.flatten.map fun c => [c])
  obtain ⟨s', hrun', hok', hplain', hmargins', -⟩ := runMachine_ok g framebuffer [texts.flatten]
  rw [flatten_singletons] at hplain
  rw [List.flatten_singleton, hplain] at hplain'
  obtain ⟨hctx, hscreen⟩ := Prod.mk.inj (Option.some.inj hplain')
  refine ⟨s, s', ?_, hrun', hctx, hok.pixels_eq hok' hmargins hmargins' hctx hscreen⟩
  rw [← hrun, runConsole, runMachine]
  refine congrArg (Option.bind _) (funext ?_)
  intro s₀
  rw [foldlM_vprintf h, foldlM_putchar]

/-- The prompt and the echo of a key, as two calls of `printf`, and as one
write of ten characters. -/
theorem console_shows_prompt :
    ∃ s s', runConsole xgaConfig (fun _ => 0)
        [("medlar > ".toList.map byte ++ [0], []), ("%c".toList.map byte ++ [0], [⟨0x6c#64, []⟩])] =
        some s ∧
      runMachine xgaConfig (fun _ => 0) ["medlar > l".toList.map byte] = some s' ∧
      s.ctx = s'.ctx := by
  have hcalls : List.Forall₂ Prints
      [("medlar > ".toList.map byte ++ [0], []), ("%c".toList.map byte ++ [0], [⟨0x6c#64, []⟩])]
      ["medlar > ".toList.map byte, [byte 'l']] :=
    .cons ⟨⟨_, rfl, rfl⟩, by decide⟩ (.cons ⟨⟨_, rfl, rfl⟩, by decide⟩ .nil)
  obtain ⟨s, s', hrun, hrun', hctx, -⟩ := console_shows (g := xgaConfig) (fun _ => 0) hcalls
  exact ⟨s, s', hrun, hrun', hctx⟩

end Printf
