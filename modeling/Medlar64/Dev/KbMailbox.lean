import Medlar64.Dev.KbString
import Medlar64.Lib.Mailbox

/-!
# Medlar64 — keystrokes between `kb_handler` and `kb_get_string`

The interrupt may come between any two steps of the reader. `kb_char` is then
a mailbox of one place: `kb_handler` puts a character into it, or wipes it for
a key without one, `kb_get_string` takes it in its `switch` and clears it after
the work on the character is done.

* `KbSystem.next` — the handler and the reader, interleaved, with a log of the
  keystrokes stored and of those dispatched on.
* `next_mailbox` — it refines a `Mailbox`.
* `KbRun.takes_again` — a reader that keeps running keeps dispatching.
* `kb_delivered_iff` — in every run, each keystroke is dispatched on once and
  in order if and only if the keystrokes are `Spaced`.
-/

namespace Medlar64

-- ---------------------------------------------------------------------------
-- The interleaving
-- ---------------------------------------------------------------------------

inductive KbEvent
  /-- The keyboard interrupt, with the byte that port 0x60 holds. -/
  | key (b : BitVec 8)
  /-- The next call of `kb_get_string`. -/
  | call (buf n : ℕ)
  /-- A step of `kb_get_string`. -/
  | step

def KbEvent.IsReader : KbEvent → Prop
  | key _ => False
  | call _ _ | step => True

/-- The devices and the reader. The logs number the non-zero characters stored
into `kb_char`; `tag` is the number of the one that is there. -/
structure KbSystem where
  dev : Devices
  reader : Reader
  tag : ℕ
  stored : List (ℕ × BitVec 8)
  dispatched : List (ℕ × BitVec 8)

/-- Log that `kb_handler` assigned `c` to `kb_char`. -/
def KbSystem.logStore (s : KbSystem) (c : BitVec 8) : KbSystem :=
  if c = 0#8 then s
  else { s with tag := s.stored.length, stored := s.stored ++ [(s.stored.length, c)] }

/-- Log that `kb_get_string` dispatched on `kb_char`. -/
def KbSystem.logDispatch (s : KbSystem) : KbSystem :=
  if s.dev.kb.char = 0#8 then s
  else { s with dispatched := s.dispatched ++ [(s.tag, s.dev.kb.char)] }

/-- The keyboard interrupt. -/
def KbSystem.key (s : KbSystem) (b : BitVec 8) : Option KbSystem :=
  (kbHandler { s.dev with port60 := b }).map fun dev =>
    match s.dev.kb.stores b with
    | some c => { s.logStore c with dev }
    | none => { s with dev }

/-- A step of the reader. -/
def KbSystem.read (s : KbSystem) : Option KbSystem :=
  (kbGetString s.reader s.dev.kb).map fun (reader, kb) =>
    { if s.reader.pc = .dispatch then s.logDispatch else s with reader, dev := { s.dev with kb } }

/-- What an event leads to; `none` when it cannot happen, or halts. -/
def KbSystem.next (s : KbSystem) : KbEvent → Option KbSystem
  | .key b => s.key b
  | .call buf n =>
    if s.reader.pc = .gap then some { s with reader := s.reader.call buf n } else none
  | .step => s.read

def KbSystem.Step (s : KbSystem) (e : KbEvent) (s' : KbSystem) : Prop := s.next e = some s'

/-- A call can only be made between two calls. -/
theorem next_call {s s' : KbSystem} {buf n : ℕ} (h : s.next (.call buf n) = some s') :
    s.reader.pc = .gap ∧ s' = { s with reader := s.reader.call buf n } := by
  have hcall :
      (if s.reader.pc = .gap then some { s with reader := s.reader.call buf n } else none) =
        some s' := h
  split at hcall
  case isTrue hgap => exact ⟨hgap, (Option.some.inj hcall).symm⟩
  case isFalse => contradiction

-- ---------------------------------------------------------------------------
-- The mailbox it implements
-- ---------------------------------------------------------------------------

def KbSystem.mailbox (s : KbSystem) : Mailbox (BitVec 8) :=
  { content := if s.dev.kb.char = 0#8 then none else some (s.tag, s.dev.kb.char)
    busy := s.reader.pc.busy
    sent := s.stored
    taken := s.dispatched }

def KbPc.mailboxEvent : KbPc → MailboxEvent (BitVec 8)
  | .dispatch => .take
  | .clear _ => .clear
  | _ => .idle

/-- A character put into the mailbox; 0 wipes it. -/
def putChar (c : BitVec 8) : MailboxEvent (BitVec 8) := .put (if c = 0#8 then none else some c)

def KbSystem.mailboxEvent (s : KbSystem) : KbEvent → MailboxEvent (BitVec 8)
  | .key b => ((s.dev.kb.stores b).map putChar).getD .idle
  | .call _ _ => .idle
  | .step => s.reader.pc.mailboxEvent

/-- Between the `switch` and the clearing, the reader does not touch the
mailbox. -/
theorem KbPc.mailboxEvent_idle {pc : KbPc} (h : pc ≠ .dispatch ∧ ∀ ret, pc ≠ .clear ret) :
    pc.mailboxEvent = .idle := by
  unfold KbPc.mailboxEvent
  split
  · exact absurd rfl h.1
  · exact absurd rfl (h.2 _)
  · rfl

/-- An interrupt puts a character into the mailbox, wipes it, or leaves it. It
is the character stored that decides: 0 is what a key without one leaves
behind, and a byte that stores nothing does not touch `kb_char`. -/
theorem key_mailbox {s s' : KbSystem} {b : BitVec 8} (h : s.key b = some s') :
    Mailbox.Step s.mailbox (s.mailboxEvent (.key b)) s'.mailbox := by
  obtain ⟨dev, hdev, rfl⟩ := Option.map_eq_some_iff.mp h
  have hchar := kbHandler_char hdev
  simp only at hchar
  show Mailbox.Step _ (((s.dev.kb.stores b).map putChar).getD .idle) _
  cases hstores : s.dev.kb.stores b with
  -- nothing is stored into `kb_char`
  | none =>
    rw [hstores, Option.getD_none] at hchar
    have hsame : ({ s with dev } : KbSystem).mailbox = s.mailbox := by
      unfold KbSystem.mailbox
      rw [hchar]
    simp only [hsame]
    exact .idle _
  | some c =>
    rw [hstores, Option.getD_some] at hchar
    simp only [Option.map_some, Option.getD_some]
    unfold putChar KbSystem.logStore
    -- a key without a character wipes the mailbox, any other sends one
    by_cases hc : c = 0#8
    · simp only [if_pos hc]
      have hwipe := Mailbox.Step.wipe s.mailbox
      unfold KbSystem.mailbox at hwipe ⊢
      simpa [hchar, hc] using hwipe
    · simp only [if_neg hc]
      have hsend := Mailbox.Step.send s.mailbox c
      unfold KbSystem.mailbox at hsend ⊢
      simpa [hchar, hc] using hsend

/-- A step of the reader takes the content in its `switch`, clears the mailbox
behind the work on it, or leaves it. -/
theorem read_mailbox {s s' : KbSystem} (h : s.read = some s') :
    Mailbox.Step s.mailbox s.reader.pc.mailboxEvent s'.mailbox := by
  obtain ⟨⟨reader, kb⟩, hstep, rfl⟩ := Option.map_eq_some_iff.mp h
  rcases kbGetString_mailbox hstep with ⟨hpc, rfl, hbusy⟩ | ⟨⟨ret, hpc⟩, rfl, hbusy⟩ |
    ⟨hpc, rfl, hbusy⟩
  · -- the `switch`
    have htake := Mailbox.Step.take s.mailbox (by unfold KbSystem.mailbox; rw [hpc]; rfl)
    rw [hpc]
    show Mailbox.Step _ .take _
    unfold KbSystem.logDispatch
    unfold KbSystem.mailbox at htake ⊢
    by_cases hc : s.dev.kb.char = 0#8
    · simpa [hpc, hbusy, hc] using htake
    · simpa [hpc, hbusy, hc] using htake
  · -- `kb_char = 0`
    have hclear := Mailbox.Step.clear s.mailbox (by unfold KbSystem.mailbox; rw [hpc]; rfl)
    rw [hpc]
    show Mailbox.Step _ .clear _
    unfold KbSystem.mailbox at hclear ⊢
    simpa [hpc, hbusy] using hclear
  · -- any other step
    rw [KbPc.mailboxEvent_idle hpc, if_neg hpc.1]
    unfold KbSystem.mailbox
    simp only [hbusy]
    exact .idle _

/-- **Refinement.** The interrupt and the reader do to `kb_char` what a
mailbox of one place does. -/
theorem next_mailbox {s s' : KbSystem} {e : KbEvent} (h : s.next e = some s') :
    Mailbox.Step s.mailbox (s.mailboxEvent e) s'.mailbox := by
  cases e with
  | key b => exact key_mailbox h
  | step => exact read_mailbox h
  | call buf n =>
    obtain ⟨hgap, rfl⟩ := next_call h
    have hsame : ({ s with reader := s.reader.call buf n } : KbSystem).mailbox = s.mailbox := by
      unfold KbSystem.mailbox
      rw [hgap]
      rfl
    rw [hsame]
    exact .idle _

/-- A key press that stores into `kb_char` finds it empty, or stores 0 while
the reader is between its `switch` and the clearing. -/
def KbSystem.Spaced (s : KbSystem) : KbEvent → Prop
  | .key b => ∀ c, s.dev.kb.stores b = some c →
      if s.reader.pc.busy then c = 0#8 else s.dev.kb.char = 0#8
  | _ => True

/-- A keystroke comes in time for the code exactly when it does for the
mailbox. -/
theorem KbSystem.spaced_iff (s : KbSystem) (e : KbEvent) :
    s.Spaced e ↔ s.mailbox.Spaced (s.mailboxEvent e) := by
  cases e with
  | key b =>
    unfold KbSystem.Spaced KbSystem.mailboxEvent
    simp only
    cases hstores : s.dev.kb.stores b with
    | none => simp [Mailbox.Spaced]
    | some c => simp [Mailbox.Spaced, putChar, KbSystem.mailbox]
  | call => exact Iff.rfl
  | step =>
    refine ⟨?_, fun _ => trivial⟩
    intro _
    show s.mailbox.Spaced s.reader.pc.mailboxEvent
    unfold KbPc.mailboxEvent
    split <;> trivial

-- ---------------------------------------------------------------------------
-- Runs
-- ---------------------------------------------------------------------------

/-- A run from a state in which no key was pressed, in which the reader keeps
running. -/
structure KbRun extends Run KbSystem.Step where
  start_char : (st 0).dev.kb.char = 0#8
  start_gap : (st 0).reader.pc = .gap
  start_stored : (st 0).stored = []
  start_dispatched : (st 0).dispatched = []
  reader_runs : ∀ t, ∃ t', t ≤ t' ∧ (ev t').IsReader

namespace KbRun

variable (r : KbRun)

def mailboxRun : Run (@Mailbox.Step (BitVec 8)) :=
  { st := fun t => (r.st t).mailbox
    ev := fun t => (r.st t).mailboxEvent (r.ev t)
    next := fun t => next_mailbox (r.next t) }

/-- The mailbox of a run begins empty. -/
theorem start : (r.mailboxRun.st 0).Start := by
  refine ⟨?_, ?_, r.start_stored, r.start_dispatched⟩
  · exact if_pos r.start_char
  · show (r.st 0).reader.pc.busy = false
    rw [r.start_gap]
    rfl

/--
**The reader comes back.** From every moment of a run there is a later one in
which the reader looks into the mailbox: each of its steps takes it nearer to
its `switch`, an interrupt leaves it where it is, and it keeps running.
-/
theorem takes_again (t : ℕ) : ∃ t', t ≤ t' ∧ r.mailboxRun.ev t' = .take := by
  -- a step of the reader dispatches or brings it nearer, an interrupt leaves it
  have hstep : ∀ t, r.mailboxRun.ev t = .take ∨
      ((r.st (t + 1)).reader = (r.st t).reader ∧ ¬ (r.ev t).IsReader ∨
        (r.st (t + 1)).reader.pc.toDispatch < (r.st t).reader.pc.toDispatch) := by
    intro t
    have hnext : (r.st t).next (r.ev t) = some (r.st (t + 1)) := r.next t
    show (r.st t).mailboxEvent (r.ev t) = .take ∨ _
    generalize r.st t = s, r.ev t = e, r.st (t + 1) = s' at hnext ⊢
    cases e with
    -- an interrupt between two steps of the reader
    | key b =>
      obtain ⟨dev, -, rfl⟩ := Option.map_eq_some_iff.mp hnext
      refine .inr (.inl ⟨?_, not_false⟩)
      unfold KbSystem.logStore
      split
      · split_ifs <;> rfl
      · rfl
    | call buf n =>
      obtain ⟨hgap, rfl⟩ := next_call hnext
      rw [hgap]
      exact .inr (.inr (Nat.lt_succ_self 1))
    | step =>
      obtain ⟨⟨reader, kb⟩, hread, rfl⟩ := Option.map_eq_some_iff.mp hnext
      by_cases hpc : s.reader.pc = .dispatch
      · left
        show s.reader.pc.mailboxEvent = .take
        rw [hpc]
        rfl
      · exact .inr (.inr (kbGetString_toDispatch hread hpc))
  refine r.toRun.progress KbEvent.IsReader (fun _ => True) _
    (fun s => s.reader.pc.toDispatch) r.reader_runs (fun t _ => ?_) (fun t _ hreader => ?_) trivial
  · refine (hstep t).imp_right fun hcases => ⟨trivial, ?_⟩
    rcases hcases with ⟨hsame, -⟩ | hlt
    · exact Nat.le_of_eq (by rw [hsame])
    · exact Nat.le_of_lt hlt
  · refine (hstep t).imp_right ?_
    intro hcases
    rcases hcases with ⟨-, hother⟩ | hlt
    · exact absurd hreader hother
    · exact hlt

/-- Every non-zero character stored into `kb_char` is dispatched on once and
in the order stored: the keystrokes dispatched on are at any time the first of
those stored, and every keystroke stored is dispatched on in the end. -/
def Delivered : Prop :=
  (∀ t, (r.st t).dispatched <+: (r.st t).stored) ∧
    ∀ t, ∀ x ∈ (r.st t).stored, ∃ t', x ∈ (r.st t').dispatched

/-- If every keystroke is dispatched on, each of them came in time. -/
theorem spaced_of_delivered (h : r.Delivered) (t : ℕ) : (r.st t).Spaced (r.ev t) :=
  ((r.st t).spaced_iff (r.ev t)).mpr (Mailbox.spaced_of_delivered r.start h t)

end KbRun

/-- **When no keystroke is lost.** In every run, every character is dispatched
on exactly once and in order if and only if no key press stores over a
character that waits, and none stores a character between the reader's
`switch` and its clearing of `kb_char`. -/
theorem kb_delivered_iff (r : KbRun) :
    r.Delivered ↔ ∀ t, (r.st t).Spaced (r.ev t) := by
  have hmailbox := Mailbox.delivered_iff r.start r.takes_again
  refine hmailbox.trans (forall_congr' ?_)
  intro t
  exact ((r.st t).spaced_iff (r.ev t)).symm

-- ---------------------------------------------------------------------------
-- A burst of two keys
-- ---------------------------------------------------------------------------

/-- What the reader does next; its buffer is at physical address 4096. -/
def KbSystem.readerEvent (s : KbSystem) : KbEvent :=
  if s.reader.pc = .gap then .call (usualHhdm + 4096) 16 else .step

/-- The reader is never stuck: between two calls the next one can be made, and
within a call the next step. -/
theorem readerEvent_ready (s : KbSystem) : (s.next s.readerEvent).isSome := by
  unfold KbSystem.readerEvent
  by_cases hgap : s.reader.pc = .gap
  · rw [if_pos hgap]
    simp [KbSystem.next, hgap]
  · obtain ⟨next, hnext⟩ := kbGetString_ready s.dev.kb hgap
    rw [if_neg hgap]
    unfold KbSystem.next KbSystem.read
    rw [hnext]
    rfl

def burstStart : KbSystem :=
  { dev := { port60 := 0, kb := .init, pitTicks := 0, lapic := ⟨[]⟩ }
    reader :=
      { pc := .gap, buf := 0, n := 0, pos := 0, mach := .boot (fun _ => 0) usualHhdm, out := [] }
    tag := 0, stored := [], dispatched := [] }

/-- The keys A and S, then only the reader. -/
def burstEvent (s : KbSystem) : ℕ → KbEvent
  | 0 => .key 0x1e
  | 1 => .key 0x1f
  | _ => s.readerEvent

def burstState : ℕ → KbSystem
  | 0 => burstStart
  | t + 1 => ((burstState t).next (burstEvent (burstState t) t)).getD (burstState t)

/-- The run of the example, step by step. -/
theorem burst_next (t : ℕ) :
    (burstState t).next (burstEvent (burstState t) t) = some (burstState (t + 1)) := by
  have hready : ((burstState t).next (burstEvent (burstState t) t)).isSome := by
    match t with
    | 0 => rfl
    | 1 => rfl
    | t + 2 => exact readerEvent_ready _
  obtain ⟨s, hs⟩ := Option.isSome_iff_exists.mp hready
  rw [burstState, hs]
  rfl

def burstRun : KbRun :=
  { st := burstState
    ev := fun t => burstEvent (burstState t) t
    next := burst_next
    start_char := rfl
    start_gap := rfl
    start_stored := rfl
    start_dispatched := rfl
    reader_runs := fun t => by
      refine ⟨t + 2, Nat.le_add_right t 2, ?_⟩
      show ((burstState (t + 2)).readerEvent).IsReader
      unfold KbSystem.readerEvent
      split_ifs <;> trivial }

/-- The second key is pressed while the first one waits: `a`, then `s` before
the reader has looked at `kb_char`, where it finds the `s` only. -/
theorem kb_not_delivered : ¬ ∀ r : KbRun, r.Delivered := by
  intro h
  have hspaced := burstRun.spaced_of_delivered (h burstRun) 1
  have hwaits : (burstState 1).dev.kb.char = 0#8 := hspaced 0x73 rfl
  exact absurd hwaits (by decide)

end Medlar64
