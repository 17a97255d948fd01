import Medlar64.Dev.KbBytes

/-!
# Medlar64 — the modifier keys that are held

`kb_handler` keeps one flag for both Shift keys and one for both Ctrl keys and
does not tell the 0xe0 codes of a key from the others.

* `KeyEvent.bytes` — what a keyboard sends for a key, in scan code set 1.
* `Keyboard` — the keys that are down.
* `kbBytes_modified` — what a stream of bytes makes of the flags.
* `modifiers_follow_iff` — the flags follow the keys after every event if and
  only if every event `Fits`.
-/

namespace Medlar64

-- ---------------------------------------------------------------------------
-- The keyboard
-- ---------------------------------------------------------------------------

inductive ModKey
  | lShift | rShift | lCtrl | rCtrl | capsLock
  deriving DecidableEq

/-- The codes of a press; the right Ctrl is an extended key. -/
def ModKey.makes : ModKey → List (BitVec 8)
  | lShift => [0x2a]
  | rShift => [0x36]
  | lCtrl => [0x1d]
  | rCtrl => [0xe0, 0x1d]
  | capsLock => [0x3a]

/-- The codes of a release. -/
def ModKey.breaks : ModKey → List (BitVec 8)
  | lShift => [0xaa]
  | rShift => [0xb6]
  | lCtrl => [0x9d]
  | rCtrl => [0xe0, 0x9d]
  | capsLock => [0xba]

inductive KeyEvent
  | press (key : ModKey)
  | release (key : ModKey)
  /-- An event of another key, with what the keyboard sends for it. -/
  | other (codes : List (BitVec 8))

def KeyEvent.bytes : KeyEvent → List (BitVec 8)
  | press key => key.makes
  | release key => key.breaks
  | other codes => codes

/-- The modifier keys that are down, and how often Caps Lock was pressed. -/
structure Keyboard where
  down : ModKey → Bool
  capsPresses : ℕ

def Keyboard.rest : Keyboard := { down := fun _ => false, capsPresses := 0 }

def Keyboard.after (k : Keyboard) : KeyEvent → Keyboard
  | .press key =>
    { down := Function.update k.down key true
      capsPresses := if key = .capsLock then k.capsPresses + 1 else k.capsPresses }
  | .release key => { k with down := Function.update k.down key false }
  | .other _ => k

def Keyboard.shiftHeld (k : Keyboard) : Bool := k.down .lShift || k.down .rShift

def Keyboard.ctrlHeld (k : Keyboard) : Bool := k.down .lCtrl || k.down .rCtrl

/-- The flags of `kb.c` are those of the keys. -/
structure Follows (k : Keyboard) (kb : Kb) : Prop where
  shift : kb.shift = k.shiftHeld
  ctrl : kb.ctrl = k.ctrlHeld
  caps : kb.caps = decide (k.capsPresses % 2 = 1)

/-- The keyboard interrupts of one event. -/
def kbEvent (d : Devices) (e : KeyEvent) : Option Devices := kbBytes d e.bytes

/-- The keys after a history of events. -/
def keysAfter (es : List KeyEvent) : Keyboard := es.foldl Keyboard.after .rest

-- ---------------------------------------------------------------------------
-- What bytes do to the flags
-- ---------------------------------------------------------------------------

/-- What the last of the codes in the stream says of a flag, if there is one. -/
def lastCode (makes breaks : List (BitVec 8)) : List (BitVec 8) → Option Bool
  | [] => none
  | b :: bs =>
    (lastCode makes breaks bs).or
      (if b ∈ makes then some true else if b ∈ breaks then some false else none)

abbrev lastShift : List (BitVec 8) → Option Bool := lastCode [0x2a, 0x36] [0xaa, 0xb6]

abbrev lastCtrl : List (BitVec 8) → Option Bool := lastCode [0x1d] [0x9d]

/-- The flags after the stream `bs`. -/
structure Modified (kb : Kb) (bs : List (BitVec 8)) (kb' : Kb) : Prop where
  shift : kb'.shift = (lastShift bs).getD kb.shift
  ctrl : kb'.ctrl = (lastCtrl bs).getD kb.ctrl
  caps : kb'.caps = (kb.caps ^^ decide (bs.count 0x3a % 2 = 1))

/-- A release byte clears the flag whose code it is, -/
theorem Kb.release_modified (kb : Kb) {b : BitVec 8} (h : ¬ b &&& 0x80 = 0) :
    Modified kb [b] (kb.release b) := by
  have hmod : ¬ IsModifier b := by
    rintro (rfl | rfl | rfl | rfl) <;> exact h rfl
  unfold IsModifier at hmod
  unfold Kb.release
  split
  case h_4 haa hb6 h9d =>
    constructor <;> simp_all [lastCode]
  all_goals constructor <;> simp [lastCode]

/-- and a press byte sets it; Caps Lock turns over at every press. -/
theorem Kb.press_modified {kb kb' : Kb} {b : BitVec 8} (h : b &&& 0x80 = 0)
    (hpress : kb.press b = some kb') : Modified kb [b] kb' := by
  by_cases hmod : IsModifier b
  · rcases hmod with rfl | rfl | rfl | rfl
    all_goals
      obtain rfl := Option.some.inj hpress
      constructor <;> simp [lastCode]
  · rw [Kb.press_lookup hmod] at hpress
    obtain ⟨c, -, rfl⟩ := Option.map_eq_some_iff.mp hpress
    have hbreak : b ≠ 0xaa ∧ b ≠ 0xb6 ∧ b ≠ 0x9d := by
      refine ⟨?_, ?_, ?_⟩ <;> rintro rfl <;> simp at h
    unfold IsModifier at hmod
    constructor <;> simp_all [lastCode]

/-- So the last code of a flag among the bytes decides it, which for one byte
is the byte itself. -/
theorem kbByte_modified {d d' : Devices} {b : BitVec 8} (h : kbByte d b = some d') :
    Modified d.kb [b] d'.kb := by
  obtain ⟨kb, hkb, rfl⟩ := Option.map_eq_some_iff.mp h
  show Modified d.kb [b] kb
  simp only at hkb
  split_ifs at hkb with hpress
  · exact Kb.press_modified hpress hkb
  · obtain rfl := Option.some.inj hkb
    exact Kb.release_modified d.kb hpress

/-- The last code of a stream, found from its front. -/
theorem lastCode_cons (makes breaks : List (BitVec 8)) (b : BitVec 8) (bs : List (BitVec 8))
    (flag : Bool) :
    (lastCode makes breaks (b :: bs)).getD flag =
      (lastCode makes breaks bs).getD ((lastCode makes breaks [b]).getD flag) := by
  simp [lastCode, Option.getD_or]

/-- Two runs of presses of Caps Lock are together odd if one of them is. -/
theorem xor_odd (m n : ℕ) :
    (decide (m % 2 = 1) ^^ decide (n % 2 = 1)) = decide ((m + n) % 2 = 1) := by
  rcases Nat.mod_two_eq_zero_or_one m with hm | hm <;>
    rcases Nat.mod_two_eq_zero_or_one n with hn | hn <;>
      simp [Nat.add_mod, hm, hn]

/-- One byte and the rest of a stream. -/
theorem Modified.cons {kb kb' kb'' : Kb} {b : BitVec 8} {bs : List (BitVec 8)}
    (h : Modified kb [b] kb') (h' : Modified kb' bs kb'') : Modified kb (b :: bs) kb'' where
  shift := by
    rw [h'.shift, h.shift]
    exact (lastCode_cons _ _ b bs kb.shift).symm
  ctrl := by
    rw [h'.ctrl, h.ctrl]
    exact (lastCode_cons _ _ b bs kb.ctrl).symm
  caps := by
    have hcount : (b :: bs).count 0x3a = [b].count 0x3a + bs.count 0x3a := by
      rw [show b :: bs = [b] ++ bs from rfl, List.count_append]
    rw [h'.caps, h.caps, hcount, Bool.xor_assoc, xor_odd]

/-- **A stream of bytes.** -/
theorem kbBytes_modified {d d' : Devices} {bs : List (BitVec 8)} (h : kbBytes d bs = some d') :
    Modified d.kb bs d'.kb := by
  induction bs generalizing d with
  | nil =>
    obtain rfl := Option.some.inj h
    constructor <;> simp [lastCode]
  | cons b bs ih =>
    unfold kbBytes at h
    rw [List.foldlM_cons] at h
    obtain ⟨next, hnext, hrest⟩ := Option.bind_eq_some_iff.mp h
    exact (kbByte_modified hnext).cons (ih hrest)

/-- A stream is read to its end if every byte has an entry. -/
theorem kbBytes_isSome (d : Devices) (bs : List (BitVec 8)) :
    (kbBytes d bs).isSome ↔ ∀ b ∈ bs, HasEntry b := by
  induction bs generalizing d with
  | nil => simp [kbBytes]
  | cons b bs ih =>
    rw [List.forall_mem_cons, ← kbByte_isSome d b]
    unfold kbBytes at ih ⊢
    rw [List.foldlM_cons]
    cases hnext : kbByte d b with
    | none => simp
    | some next => simp [ih next]

-- ---------------------------------------------------------------------------
-- One event
-- ---------------------------------------------------------------------------

/-- The other key of the pair that shares a flag. -/
def ModKey.twin : ModKey → Option ModKey
  | lShift => some .rShift
  | rShift => some .lShift
  | lCtrl => some .rCtrl
  | rCtrl => some .lCtrl
  | capsLock => none

/-- A modifier is released while its twin is up. Another key sends no press
code without an entry, Caps Lock codes in pairs, and a Shift or Ctrl code at
last only if it says what is held. -/
def Fits (k : Keyboard) : KeyEvent → Prop
  | .press _ => True
  | .release key => ∀ twin, key.twin = some twin → k.down twin = false
  | .other codes => (∀ b ∈ codes, b.toNat < 0x5a ∨ 0x80 ≤ b.toNat) ∧
      (∀ on, lastShift codes = some on → on = k.shiftHeld) ∧
      (∀ on, lastCtrl codes = some on → on = k.ctrlHeld) ∧ codes.count 0x3a % 2 = 0

/-- The flags after the event, if they were right before. -/
structure Agrees (k : Keyboard) (e : KeyEvent) : Prop where
  entries : ∀ b ∈ e.bytes, HasEntry b
  shift : (lastShift e.bytes).getD k.shiftHeld = (k.after e).shiftHeld
  ctrl : (lastCtrl e.bytes).getD k.ctrlHeld = (k.after e).ctrlHeld
  caps : (k.capsPresses + e.bytes.count 0x3a) % 2 = (k.after e).capsPresses % 2

/-- A flag stays if the stream has no code for it, or one that says the same. -/
theorem getD_eq_self {o : Option Bool} {flag : Bool} :
    o.getD flag = flag ↔ ∀ on, o = some on → on = flag := by
  cases o <;> simp

/-- A press always agrees with the keys: it sets a flag that has to be set. -/
theorem agrees_press (k : Keyboard) (key : ModKey) : Agrees k (.press key) := by
  cases key <;> constructor <;>
    simp [KeyEvent.bytes, ModKey.makes, lastCode, Keyboard.after, Keyboard.shiftHeld,
      Keyboard.ctrlHeld, HasEntry]

/-- A release agrees only if the other key of the pair is up. The flag goes
down either way, although one key may still be held. -/
theorem agrees_release_iff (k : Keyboard) (key : ModKey) :
    Agrees k (.release key) ↔ ∀ twin, key.twin = some twin → k.down twin = false := by
  constructor
  · intro h
    -- the release clears the flag, and the twin is all that could hold it
    cases key with
    | capsLock => exact nofun
    | lShift | rShift =>
      intro twin htwin
      obtain rfl := Option.some.inj htwin
      simpa [KeyEvent.bytes, ModKey.breaks, lastCode, Keyboard.after, Keyboard.shiftHeld]
        using h.shift
    | lCtrl | rCtrl =>
      intro twin htwin
      obtain rfl := Option.some.inj htwin
      simpa [KeyEvent.bytes, ModKey.breaks, lastCode, Keyboard.after, Keyboard.ctrlHeld]
        using h.ctrl
  · intro h
    cases key <;> constructor <;>
      simp_all [KeyEvent.bytes, ModKey.breaks, ModKey.twin, lastCode, Keyboard.after,
        Keyboard.shiftHeld, Keyboard.ctrlHeld, HasEntry]

/-- Another key agrees if its bytes have entries and do not look like codes of
a modifier that say something else. -/
theorem agrees_other_iff (k : Keyboard) (codes : List (BitVec 8)) :
    Agrees k (.other codes) ↔ Fits k (.other codes) := by
  constructor
  · intro h
    have hcaps : (k.capsPresses + codes.count 0x3a) % 2 = k.capsPresses % 2 := h.caps
    exact ⟨h.entries, getD_eq_self.mp h.shift, getD_eq_self.mp h.ctrl, by omega⟩
  · rintro ⟨hentries, hshift, hctrl, hcaps⟩
    refine ⟨hentries, getD_eq_self.mpr hshift, getD_eq_self.mpr hctrl, ?_⟩
    show (k.capsPresses + codes.count 0x3a) % 2 = k.capsPresses % 2
    omega

/-- The three cases together. -/
theorem agrees_iff_fits (k : Keyboard) (e : KeyEvent) : Agrees k e ↔ Fits k e := by
  cases e with
  | press key => exact iff_of_true (agrees_press k key) trivial
  | release key => exact agrees_release_iff k key
  | other codes => exact agrees_other_iff k codes

/--
**Step.** With the flags in step with the keys, an event keeps them so if and
only if it fits: the flags after it are a function of its bytes and of the
flags before, the keys after it one of the event and of the keys before, and
`Agrees` compares the two.
-/
theorem kbEvent_follows_iff {k : Keyboard} {d : Devices} (h : Follows k d.kb) (e : KeyEvent) :
    (∃ d', kbEvent d e = some d' ∧ Follows (k.after e) d'.kb) ↔ Fits k e := by
  rw [← agrees_iff_fits]
  constructor
  · rintro ⟨d', hd', hfollows⟩
    have hmod := kbBytes_modified hd'
    have hcaps := hfollows.caps
    rw [hmod.caps, h.caps, xor_odd] at hcaps
    refine ⟨(kbBytes_isSome d e.bytes).mp (Option.isSome_of_eq_some hd'), ?_, ?_, ?_⟩
    · rw [← hfollows.shift, hmod.shift, h.shift]
    · rw [← hfollows.ctrl, hmod.ctrl, h.ctrl]
    · have hiff := decide_eq_decide.mp hcaps
      omega
  · intro hagrees
    obtain ⟨d', hd'⟩ := Option.isSome_iff_exists.mp ((kbBytes_isSome d e.bytes).mpr hagrees.entries)
    have hmod := kbBytes_modified hd'
    refine ⟨d', hd', ?_, ?_, ?_⟩
    · rw [hmod.shift, h.shift, hagrees.shift]
    · rw [hmod.ctrl, h.ctrl, hagrees.ctrl]
    · rw [hmod.caps, h.caps, xor_odd, hagrees.caps]

-- ---------------------------------------------------------------------------
-- Any events
-- ---------------------------------------------------------------------------

/-- The flags follow the keys after every event of the sequence. -/
def ModifiersFollow (d : Devices) (es : List KeyEvent) : Prop :=
  ∀ p, p <+: es → ∃ d', p.foldlM kbEvent d = some d' ∧ Follows (keysAfter p) d'.kb

/-- **The flags follow the keys** from the start of `kb.c` on, if and only if
every event fits the keys that are down when it happens. -/
theorem modifiers_follow_iff (d : Devices) (es : List KeyEvent) :
    ModifiersFollow { d with kb := .init } es ↔
      ∀ p e, p ++ [e] <+: es → Fits (keysAfter p) e := by
  refine @prefixes_iff _ _ kbEvent (fun p d => Follows (keysAfter p) d.kb)
    (fun p e => Fits (keysAfter p) e) _ ⟨rfl, rfl, rfl⟩ ?_ es
  intro p d e hfollows
  have hafter : keysAfter (p ++ [e]) = (keysAfter p).after e := by
    simp [keysAfter]
  rw [hafter]
  exact kbEvent_follows_iff hfollows e

/-- Both Shift keys are pressed and the left one is released: the right one is
still held. -/
theorem modifiers_lost_shift :
    ¬ ModifiersFollow bootDevices [.press .lShift, .press .rShift, .release .lShift] := by
  intro h
  obtain ⟨d', hd', hfollows⟩ := h _ (List.prefix_refl _)
  obtain rfl := Option.some.inj hd'
  exact absurd hfollows.shift (by decide)

end Medlar64
