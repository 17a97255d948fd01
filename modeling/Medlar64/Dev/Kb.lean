import Medlar64.Dev.Devices

/-!
# Medlar64 — the keyboard interrupt (`kb_handler` in `kb.c`)

A press of a modifier key sets its flag, a press of any other key stores the
character of the layout table that the modifiers select into `kb_char`, and a
release clears a flag or does nothing.

* `kbHandler` — the source function.
* `Kb.stores` — the character a byte from the keyboard makes it store.
* `kbHandler_char` — the handler stores exactly that.
* `kbHandler_eoi` — the handler acknowledges its interrupt once.
-/

namespace Medlar64

-- ---------------------------------------------------------------------------
-- The layout tables (`kb.h`)
-- ---------------------------------------------------------------------------

def ascii (cs : List Char) : List (BitVec 8) := cs.map fun c => BitVec.ofNat 8 c.toNat

/-- `kb_map_keys`. -/
def kbMapKeys : List (BitVec 8) := ascii [
  '\x00', '\x1b', '1', '2', '3', '4', '5', '6', '7', '8', '9', '0', '-', '=', '\x08',
  '\t', 'q', 'w', 'e', 'r', 't', 'y', 'u', 'i', 'o', 'p', '[', ']', '\n',
  '\x00', 'a', 's', 'd', 'f', 'g', 'h', 'j', 'k', 'l', ';', '\x27', '\x60', '\x00',
  '\\', 'z', 'x', 'c', 'v', 'b', 'n', 'm', ',', '.', '/', '\x00', '*', '\x00', ' ',
  '\x00', '\x00', '\x00', '\x00', '\x00', '\x00', '\x00', '\x00', '\x00', '\x00', '\x00', '\x00',
  '\x00', '\x00', '\x00', '\x00', '-', '\x00', '\x00', '\x00', '+', '\x00', '\x00',
  '\x00', '\x00', '\x00', '\x00', '\x00', '\x00', '\x00', '\x00', '\x00']

/-- `kb_map_keys_shift`. -/
def kbMapKeysShift : List (BitVec 8) := ascii [
  '\x00', '\x1b', '!', '@', '#', '$', '%', '^', '&', '*', '(', ')', '_', '+', '\x08',
  '\t', 'Q', 'W', 'E', 'R', 'T', 'Y', 'U', 'I', 'O', 'P', '\x7b', '\x7d', '\n',
  '\x00', 'A', 'S', 'D', 'F', 'G', 'H', 'J', 'K', 'L', ':', '\x22', '~', '\x00',
  '\\', 'Z', 'X', 'C', 'V', 'B', 'N', 'M', '<', '>', '?', '\x00', '*', '\x00', ' ',
  '\x00', '\x00', '\x00', '\x00', '\x00', '\x00', '\x00', '\x00', '\x00', '\x00', '\x00', '\x00',
  '\x00', '\x00', '\x00', '\x00', '-', '\x00', '\x00', '\x00', '+', '\x00', '\x00',
  '\x00', '\x00', '\x00', '\x00', '\x00', '\x00', '\x00', '\x00', '\x00']

/-- `kb_map_keys_caps`. -/
def kbMapKeysCaps : List (BitVec 8) := ascii [
  '\x00', '\x1b', '1', '2', '3', '4', '5', '6', '7', '8', '9', '0', '-', '=', '\x08',
  '\t', 'Q', 'W', 'E', 'R', 'T', 'Y', 'U', 'I', 'O', 'P', '[', ']', '\n',
  '\x00', 'A', 'S', 'D', 'F', 'G', 'H', 'J', 'K', 'L', ';', '\x27', '\x60', '\x00',
  '\\', 'Z', 'X', 'C', 'V', 'B', 'N', 'M', ',', '.', '/', '\x00', '*', '\x00', ' ',
  '\x00', '\x00', '\x00', '\x00', '\x00', '\x00', '\x00', '\x00', '\x00', '\x00', '\x00', '\x00',
  '\x00', '\x00', '\x00', '\x00', '-', '\x00', '\x00', '\x00', '+', '\x00', '\x00',
  '\x00', '\x00', '\x00', '\x00', '\x00', '\x00', '\x00', '\x00', '\x00']

-- ---------------------------------------------------------------------------
-- The handler
-- ---------------------------------------------------------------------------

/-- The table that the modifiers select. -/
def Kb.table (k : Kb) : List (BitVec 8) :=
  if k.shift then kbMapKeysShift else if k.caps then kbMapKeysCaps else kbMapKeys

/-- The first `switch` of `kb_handler`, on a key that is pressed. An index
behind the end of a table is caught by the sanitizer, which halts. -/
def Kb.press (k : Kb) (key : BitVec 8) : Option Kb :=
  match key with
  | 0x2a#8 => some { k with shift := true }
  | 0x36#8 => some { k with shift := true }
  | 0x1d#8 => some { k with ctrl := true }
  | 0x3a#8 => some { k with caps := !k.caps }
  -- no press of a modifier: the table of the modifiers set, at the scan code
  | _ => (k.table[key.toNat]?).map fun c => { k with keyPressed := true, char := c }

/-- The second `switch`, on a key that is released. -/
def Kb.release (k : Kb) (key : BitVec 8) : Kb :=
  match key with
  | 0xaa#8 => { k with shift := false }
  | 0xb6#8 => { k with shift := false }
  | 0x9d#8 => { k with ctrl := false }
  | _ => k

/-- `kb_handler(r)`. -/
def kbHandler (d : Devices) : Option Devices :=
  let key := d.port60
  let kb := if key &&& 0x80 = 0 then d.kb.press key else some (d.kb.release key)
  kb.map fun kb => { d with kb, lapic := lapicEoi d.lapic }

/-- The keys that `kb_handler` does not look up. -/
def IsModifier (key : BitVec 8) : Prop := key = 0x2a ∨ key = 0x36 ∨ key = 0x1d ∨ key = 0x3a

instance (key : BitVec 8) : Decidable (IsModifier key) := inferInstanceAs (Decidable (_ ∨ _))

/-- The value that a byte from the keyboard makes `kb_handler` assign to
`kb_char`, if any. -/
def Kb.stores (k : Kb) (key : BitVec 8) : Option (BitVec 8) :=
  if key &&& 0x80 = 0 ∧ ¬ IsModifier key then k.table[key.toNat]? else none

-- ---------------------------------------------------------------------------
-- What it does
-- ---------------------------------------------------------------------------

/-- Whatever key it was, the handler acknowledges its interrupt once. -/
theorem kbHandler_eoi {d d' : Devices} (h : kbHandler d = some d') :
    d'.lapic.eois = d.lapic.eois + 1 := by
  obtain ⟨kb, -, rfl⟩ := Option.map_eq_some_iff.mp h
  exact eois_lapicEoi d.lapic

theorem Kb.release_char (k : Kb) (key : BitVec 8) : (k.release key).char = k.char := by
  unfold Kb.release
  split <;> rfl

/-- The press of a key that is no modifier. -/
theorem Kb.press_lookup {k : Kb} {key : BitVec 8} (h : ¬ IsModifier key) :
    k.press key = (k.table[key.toNat]?).map fun c => { k with keyPressed := true, char := c } := by
  unfold IsModifier at h
  unfold Kb.press
  split
  case h_5 => rfl
  all_goals simp at h

/-- A press of a modifier leaves the character, any other stores one: the entry
of the table in use. -/
theorem Kb.press_char {k k' : Kb} {key : BitVec 8} (h : k.press key = some k') :
    k'.char = if IsModifier key then k.char else (k.table[key.toNat]?).getD k.char := by
  by_cases hmod : IsModifier key
  · rw [if_pos hmod]
    rcases hmod with rfl | rfl | rfl | rfl
    all_goals
      obtain rfl := Option.some.inj h
      rfl
  · rw [if_neg hmod]
    rw [Kb.press_lookup hmod] at h
    obtain ⟨c, hc, rfl⟩ := Option.map_eq_some_iff.mp h
    rw [hc]
    rfl

/--
**What the handler stores.** Where it returns, `kb_char` holds the character of
the key that was pressed, in the table that the modifiers select; the press of
a modifier and any release leave it as it was. A key without a character stores
NUL.
-/
theorem kbHandler_char {d d' : Devices} (h : kbHandler d = some d') :
    d'.kb.char = (d.kb.stores d.port60).getD d.kb.char := by
  obtain ⟨kb, hkb, rfl⟩ := Option.map_eq_some_iff.mp h
  show kb.char = _
  unfold Kb.stores
  -- a press is looked up, a release stores nothing
  by_cases hpress : d.port60 &&& 0x80 = 0
  · rw [if_pos hpress] at hkb
    rw [Kb.press_char hkb]
    by_cases hmod : IsModifier d.port60
    · rw [if_pos hmod, if_neg (fun hboth => hboth.2 hmod)]
      rfl
    · rw [if_neg hmod, if_pos ⟨hpress, hmod⟩]
  · rw [if_neg hpress] at hkb
    obtain rfl := Option.some.inj hkb
    rw [if_neg (fun hboth => hpress hboth.1)]
    exact d.kb.release_char d.port60

end Medlar64
