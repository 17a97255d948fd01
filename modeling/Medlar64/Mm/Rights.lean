import Medlar64.Mm.PageTables

/-!
# Medlar64 — the rights of a mapped page

The processor combines the flags of the four entries that it walks through: a
page is writable or accessible to the user if all four allow it, and not
executable if one of them forbids it. `vmm_map` gives the flags it is passed to
the last entry only; the other three are made with
`PTE_PRESENT | PTE_WRITABLE`.

* `vmmRights` — the rights that the processor computes.
* `RightsInv` — the inner entries are all alike, over any sequence of calls.
* `vmm_map_rights_iff` — a page has the rights of the last call for it if and
  only if that call does not ask for `PTE_USER`, and the address has no bit in
  the place of `PTE_NX` that was not asked for.
-/

namespace Medlar64

open Tables (node lookup Inner)

def pteUser : Nat := 4

/-- `1ul << 63`. -/
def pteNx : Nat := 2 ^ 63

-- ---------------------------------------------------------------------------
-- What the processor computes
-- ---------------------------------------------------------------------------

structure Rights where
  writable : Bool
  user : Bool
  noExecute : Bool
deriving DecidableEq, Repr

/-- The rights that the flags of one entry give. -/
def Rights.ofFlags (flags : Nat) : Rights where
  writable := flags &&& pteWritable ≠ 0
  user := flags &&& pteUser ≠ 0
  noExecute := flags &&& pteNx ≠ 0

/-- The rights through two entries. -/
def Rights.meet (a b : Rights) : Rights where
  writable := a.writable && b.writable
  user := a.user && b.user
  noExecute := a.noExecute || b.noExecute

/-- The rights of the page at `virt`, `none` where nothing is mapped. -/
def vmmRights (s : Machine) (root virt : Nat) : Option Rights := do
  let word4 := s.entry root (pmlIndex virt 39)
  let pml3 ← nextTable word4
  let word3 := s.entry pml3 (pmlIndex virt 30)
  let pml2 ← nextTable word3
  let word2 := s.entry pml2 (pmlIndex virt 21)
  let pml1 ← nextTable word2
  let word1 := s.entry pml1 (pmlIndex virt 12)
  if word1 &&& ptePresent = 0 then none
  else some ((((Rights.ofFlags word4).meet (.ofFlags word3)).meet (.ofFlags word2)).meet
    (.ofFlags word1))

/-- An entry as `vmm_get_next_lvl` makes it: writable, not for the user, and
executable. -/
def InnerWord (word : Nat) : Prop := Rights.ofFlags word = ⟨true, false, false⟩

/-- Through such entries the last one decides, except that the user is kept
out. -/
theorem meet_inner {w₄ w₃ w₂ : Nat} (h₄ : InnerWord w₄) (h₃ : InnerWord w₃) (h₂ : InnerWord w₂)
    (r : Rights) :
    (((Rights.ofFlags w₄).meet (.ofFlags w₃)).meet (.ofFlags w₂)).meet r =
      ⟨r.writable, false, r.noExecute⟩ := by
  rw [h₄, h₃, h₂]
  cases r
  simp [Rights.meet]

/--
**The rights of a page, when the inner entries are all alike.** They allow
writing, keep the user out and forbid no execution; so writing and execution
are decided by the last entry alone, and the user is kept out whatever that
says.
-/
theorem vmmRights_eq {s : Machine} {root : Nat}
    (hinner : Inner InnerWord nextTable 4 s.tables root) (virt : Nat) :
    vmmRights s root virt = (lookup nextTable s.tables root (slots virt)).map fun word =>
      ⟨(Rights.ofFlags word).writable, false, (Rights.ofFlags word).noExecute⟩ := by
  -- an entry that leads on is alike to all that do
  have hword : ∀ (q : List (Fin 512)) (shift : Nat) {t t' : Nat}, q.length + 1 < 4 →
      node nextTable s.tables root q = some t → t' ∈ nextTable (s.tables t (pmlSlot virt shift)) →
      InnerWord (s.entry t (pmlIndex virt shift)) := fun q shift t t' hq hnode hnext =>
    hinner q t (pmlSlot virt shift) hq hnode (Option.ne_none_iff_exists'.mpr ⟨t', hnext⟩)
  unfold vmmRights slots Tables.lookup
  simp only [Tables.node, Option.bind_some, Option.bind_eq_bind, Option.map_bind]
  rw [Option.bind_assoc, Option.bind_assoc]
  -- level by level, with the entry passed
  refine Option.bind_congr ?_
  intro pml3 hnext₄
  have hnode₃ : node nextTable s.tables root [pmlSlot virt 39] = some pml3 := hnext₄
  refine Option.bind_congr ?_
  intro pml2 hnext₃
  have hnode₂ : node nextTable s.tables root [pmlSlot virt 30, pmlSlot virt 39] = some pml2 := by
    rw [Tables.node_cons hnode₃]
    exact hnext₃
  refine Option.bind_congr ?_
  intro pml1 hnext₂
  show (if s.entry pml1 (pmlIndex virt 12) &&& ptePresent = 0 then none else some _) =
    Option.map _ (Tables.present nextTable (s.entry pml1 (pmlIndex virt 12)))
  unfold Tables.present nextTable
  by_cases habsent : s.entry pml1 (pmlIndex virt 12) &&& ptePresent = 0
  · simp [habsent]
  · rw [if_neg habsent, if_neg habsent, Option.isSome_some, if_pos rfl, Option.map_some]
    refine congrArg some (meet_inner ?_ ?_ ?_ _)
    · exact hword [] 39 (by decide) rfl hnext₄
    · exact hword [pmlSlot virt 39] 30 (by simp) hnode₃ hnext₃
    · exact hword [pmlSlot virt 30, pmlSlot virt 39] 21 (Nat.lt_succ_self 3) hnode₂ hnext₂

-- ---------------------------------------------------------------------------
-- Words
-- ---------------------------------------------------------------------------

/-- A page-aligned address has no bit in the place of a flag below 12. -/
theorem and_two_pow_of_aligned {p i : Nat} (hp : p % 4096 = 0) (hi : i < 12) : p &&& 2 ^ i = 0 := by
  have hbit : p.testBit i = false := by
    rw [Nat.testBit_eq_decide_div_mod_eq, decide_eq_false_iff_not]
    obtain ⟨q, rfl⟩ : ∃ q, p = 2 ^ i * (2 * (2 ^ (11 - i) * q)) := by
      refine ⟨p / 4096, ?_⟩
      rw [← Nat.mul_assoc, ← Nat.mul_assoc, ← Nat.pow_succ, ← Nat.pow_add,
        show i + 1 + (11 - i) = 12 by omega]
      omega
    rw [Nat.mul_div_cancel_left _ (Nat.two_pow_pos i)]
    omega
  rw [Nat.and_two_pow, hbit]
  simp

theorem and_pow_or (p flags m : Nat) :
    (p ||| flags) &&& m ≠ 0 ↔ p &&& m ≠ 0 ∨ flags &&& m ≠ 0 := by
  rw [Nat.and_or_distrib_right, Ne, Nat.or_eq_zero_iff, not_and_or]

/-- The rights of an entry with an address and flags. -/
theorem ofFlags_or {p flags : Nat} (hp : p % 4096 = 0) :
    Rights.ofFlags (p ||| flags) = ⟨(Rights.ofFlags flags).writable, (Rights.ofFlags flags).user,
      decide (p &&& pteNx ≠ 0) || (Rights.ofFlags flags).noExecute⟩ := by
  have hw : p &&& pteWritable = 0 := and_two_pow_of_aligned (i := 1) hp (by decide)
  have hu : p &&& pteUser = 0 := and_two_pow_of_aligned (i := 2) hp (by decide)
  unfold Rights.ofFlags
  simp only [and_pow_or, hw, hu, ne_eq, not_true_eq_false, false_or, Bool.decide_or]

theorem PhysPage.and_nx {p : Nat} (hp : PhysPage p) : p &&& pteNx = 0 := by
  unfold pteNx
  rw [Nat.and_two_pow, Nat.testBit_lt_two_pow (Nat.lt_trans hp.lt (by decide))]
  simp

/-- The entries that `vmm_map` makes on the way are alike. -/
theorem innerWord_or {p : Nat} (hp : PhysPage p) :
    InnerWord (p ||| (ptePresent ||| pteWritable)) := by
  rw [InnerWord, ofFlags_or hp.aligned, hp.and_nx]
  decide

-- ---------------------------------------------------------------------------
-- Sequences of calls
-- ---------------------------------------------------------------------------

/-- The arguments are a page-aligned address, and `PTE_PRESENT` with any of the
other flags. -/
structure MapCall.Flagged (c : MapCall) : Prop where
  aligned : c.phys % 4096 = 0
  phys_lt : c.phys < 2 ^ 64
  present : c.flags &&& ptePresent ≠ 0
  flags : c.flags &&& (ptePresent ||| pteWritable ||| pteUser ||| pteNx) = c.flags

theorem MapCall.Flagged.flags_lt {c : MapCall} (h : c.Flagged) : c.flags < 2 ^ 64 := by
  rw [← h.flags]
  exact Nat.lt_of_le_of_lt Nat.and_le_right (by decide)

/-- The machine after such calls, each of which gets pages that are not in
use. -/
inductive FlaggedRun (root pm : Nat) (s₀ : Machine) : List MapCall → Machine → Prop
  | start : FlaggedRun root pm s₀ [] s₀
  | call {calls : List MapCall} {s s' : Machine} {c : MapCall} (h : FlaggedRun root pm s₀ calls s)
      (hc : c.Flagged) (hfresh : MapFresh s root pm c.virt)
      (hmap : vmmMap s pm c.virt c.phys c.flags = some s') : FlaggedRun root pm s₀ (calls ++ [c]) s'

/-- The tables after the calls: a tree whose inner entries are all alike, with
the words of the last calls in its last level. -/
structure RightsInv (calls : List MapCall) (root : Nat) (s : Machine) : Prop
    extends TreeInv s root where
  inner : Inner InnerWord nextTable 4 s.tables root
  words : ∀ virt, lookup nextTable s.tables root (slots virt) =
    (lastCall calls virt).map fun c => c.phys ||| c.flags

section Runs

variable {s s' : Machine} {root n : Nat} {calls : List MapCall} {c : MapCall}

/-- A table that is made is led to by such an entry. -/
theorem Hangs.inner (hinv : TreeInv s root) (hinner : Inner InnerWord nextTable 4 s.tables root)
    (h : Hangs root s n s') : Inner InnerWord nextTable 4 s'.tables root := by
  -- table by table
  induction h with
  | none => exact hinner
  | hang hhangs hhung ih =>
    obtain ⟨-, hinv', -⟩ := hhangs.tree hinv
    refine ih.graft hinv'.distinct hhung.graft ?_
    rw [hhung.word]
    exact innerWord_or hhung.fresh.page

/--
**Step.** A call keeps the tree, the inner entries, and that the word of a page
is the one its last call has written.
-/
theorem RightsInv.map (h : RightsInv calls root s) (hc : c.Flagged)
    (hfresh : MapFresh s root (s.higherHalf root) c.virt)
    (hmap : vmmMap s (s.higherHalf root) c.virt c.phys c.flags = some s') :
    SameLayout s s' ∧ RightsInv (calls ++ [c]) root s' := by
  have hpresent : nextTable (c.phys ||| c.flags) ≠ none := by
    rw [nextTable, if_neg (present_or hc.present)]
    exact Option.some_ne_none _
  obtain ⟨n, t, s₁, s₂, hhangs, -, hset, hrun⟩ :=
    h.mapWord hfresh (Nat.or_lt_two_pow hc.phys_lt hc.flags_lt)
  obtain ⟨hlayout, hinv₁, hsame⟩ := hhangs.tree h.toTreeInv
  have hinner₁ := hhangs.inner h.toTreeInv h.inner
  rw [hmap] at hrun
  obtain rfl := Option.some.inj hrun
  refine ⟨hlayout.trans hset.globals.toSameLayout, hset.tree,
    hinner₁.setLeaf hinv₁.distinct hset.leaf, ?_⟩
  intro virt
  -- the word of `c` at the path of `c`, the one of the calls before elsewhere
  rw [hset.lookup hinv₁ hpresent, hsame _ rfl, h.words virt, lastCall_append,
    apply_ite (Option.map _)]
  rfl

/-- An empty top-level table stands for no calls. -/
theorem RightsInv.start {s₀ : Machine} (hroot : PhysPage root) (hoff : OffBitmap s₀ root)
    (hzero : ∀ x, root ≤ x → x < root + 4096 → s₀.mem x = 0) : RightsInv [] root s₀ := by
  have hempty := nextTable_zeroed hzero
  obtain ⟨hinv, -⟩ := TreeInv.start hroot hoff hzero
  exact ⟨hinv, .empty hempty _ 4, fun virt => Tables.lookup_empty hempty _⟩

/-- **Run.** By induction on the calls. -/
theorem FlaggedRun.inv {s₀ : Machine} (hstart : RightsInv [] root s₀)
    (hrun : FlaggedRun root (s₀.higherHalf root) s₀ calls s) :
    SameLayout s₀ s ∧ RightsInv calls root s := by
  -- on the calls; the last one is the one just made
  induction hrun with
  | start => exact ⟨.refl s₀, hstart⟩
  | call _ hc hfresh hmap ih =>
    obtain ⟨hlayout, hinv⟩ := ih
    rw [← hlayout.higherHalf] at hfresh hmap
    obtain ⟨hlayout', hinv'⟩ := hinv.map hc hfresh hmap
    exact ⟨hlayout.trans hlayout', hinv'⟩

/-- Whose calls they are, the run has valid ones only. -/
theorem FlaggedRun.flagged {pm : Nat} {s₀ : Machine} (hrun : FlaggedRun root pm s₀ calls s) :
    ∀ c ∈ calls, c.Flagged := by
  induction hrun with
  | start => simp
  | call _ hc _ _ ih =>
    intro d hd
    rcases List.mem_append.mp hd with hd | hd
    · exact ih d hd
    · rw [List.mem_singleton.mp hd]
      exact hc

end Runs

/--
**When a mapping grants the rights asked for.** From a zeroed top-level table, after
any sequence of `vmm_map` calls whose tables go to pages not in use: the rights that
the processor computes for a page are the flags of the last call for it if and only
if that call does not ask for `PTE_USER`, and its address has bit 63 clear or it asks
for `PTE_NX`. Every further call of this kind returns.
-/
theorem vmm_map_rights_iff (s₀ : Machine) (root : Nat) (hroot : PhysPage root)
    (hoff : OffBitmap s₀ root) (hzero : ∀ x, root ≤ x → x < root + 4096 → s₀.mem x = 0)
    {calls : List MapCall} {s : Machine}
    (hrun : FlaggedRun root (s₀.higherHalf root) s₀ calls s) :
    (∀ (virt : Nat) (c : MapCall), lastCall calls virt = some c →
      (vmmRights s root virt = some (Rights.ofFlags c.flags) ↔
        c.flags &&& pteUser = 0 ∧ (c.phys &&& pteNx = 0 ∨ c.flags &&& pteNx ≠ 0))) ∧
      ∀ c : MapCall, c.Flagged → MapFresh s root (s₀.higherHalf root) c.virt →
        ∃ s', vmmMap s (s₀.higherHalf root) c.virt c.phys c.flags = some s' ∧
          FlaggedRun root (s₀.higherHalf root) s₀ (calls ++ [c]) s' := by
  obtain ⟨hlayout, hinv⟩ := hrun.inv (RightsInv.start hroot hoff hzero)
  refine ⟨?_, ?_⟩
  · intro virt c hlast
    have hc := hrun.flagged c (mem_of_lastCall hlast)
    rw [vmmRights_eq hinv.inner, hinv.words, hlast, Option.map_some, Option.map_some,
      ofFlags_or hc.aligned, Option.some_inj]
    unfold Rights.ofFlags
    simp only [Rights.mk.injEq, true_and]
    -- the user is always kept out, and bit 63 is that of either
    by_cases hu : c.flags &&& pteUser = 0 <;> by_cases hx : c.flags &&& pteNx = 0 <;>
      simp [hu, hx]
  · intro c hc hfresh
    have hown := hfresh
    rw [← hlayout.higherHalf] at hown
    obtain ⟨t, n, s₁, -, -, -, hmap⟩ := hinv.mapSteps hown
    specialize hmap c.phys c.flags
    rw [hlayout.higherHalf] at hmap
    exact ⟨_, hmap, hrun.call hc hfresh hmap⟩

/-- One call of `vmm_map` on the machine with room leaves room for another. -/
theorem roomyCall (flags : Nat) (hc : MapCall.Flagged ⟨0x400000, 0x5000, flags⟩) :
    ∃ s, FlaggedRun 4096 (roomyMachine.higherHalf 4096) roomyMachine
      [⟨0x400000, 0x5000, flags⟩] s ∧ SameLayout roomyMachine s ∧ TreeInv s 4096 ∧
      Supplied s 4096 3 := by
  obtain ⟨hinv, -⟩ := TreeInv.start ⟨by decide, by decide⟩ roomyMachine_off roomyMachine_zero
  have hfresh := (roomyMachine_supplied.mono (by decide)).mapFresh hinv 0x400000
  obtain ⟨s, hmap, hkept⟩ := roomyMachine_supplied.call hinv 0x400000 _ _
    (Nat.or_lt_two_pow hc.phys_lt hc.flags_lt)
  exact ⟨s, @FlaggedRun.call _ _ _ [] _ _ _ .start hc hfresh hmap, hkept⟩

/-- Two pages mapped through one table, the second without the right to
execute. Neither asks for `PTE_USER`, and both addresses have bit 63 clear. -/
theorem vmm_map_rights_iff_roomy :
    ∃ s, FlaggedRun 4096 (roomyMachine.higherHalf 4096) roomyMachine
        [⟨0x400000, 0x5000, 3⟩, ⟨0x401000, 0x6000, 2 ^ 63 + 1⟩] s ∧
      vmmRights s 4096 0x400abc = some (Rights.ofFlags 3) ∧
      vmmRights s 4096 0x401def = some (Rights.ofFlags (2 ^ 63 + 1)) := by
  have hroot : PhysPage 4096 := ⟨by decide, by decide⟩
  obtain ⟨s₁, hrun₁, hlayout, hinv₁, hleft⟩ :=
    roomyCall 3 ⟨by decide, by decide, by decide, by decide⟩
  have hc : MapCall.Flagged ⟨0x401000, 0x6000, 2 ^ 63 + 1⟩ :=
    ⟨by decide, by decide, by decide, by decide⟩
  have hfresh := hleft.mapFresh hinv₁ 0x401000
  rw [hlayout.higherHalf] at hfresh
  obtain ⟨-, hnext⟩ := vmm_map_rights_iff roomyMachine 4096 hroot roomyMachine_off
    roomyMachine_zero hrun₁
  obtain ⟨s, -, hrun⟩ := hnext ⟨0x401000, 0x6000, 2 ^ 63 + 1⟩ hc hfresh
  obtain ⟨hrights, -⟩ := vmm_map_rights_iff roomyMachine 4096 hroot roomyMachine_off
    roomyMachine_zero hrun
  exact ⟨s, hrun, (hrights 0x400abc _ rfl).mpr ⟨by decide, .inl (by decide)⟩,
    (hrights 0x401def _ rfl).mpr ⟨by decide, .inl (by decide)⟩⟩

/-- A page mapped for the user is not accessible to it: the leaf has
`PTE_USER`, but the entries on the way to it have not, and the processor asks
for it on every level. -/
theorem vmm_map_not_rights :
    ¬ ∀ (s₀ : Machine) (root : Nat), PhysPage root → OffBitmap s₀ root →
      (∀ x, root ≤ x → x < root + 4096 → s₀.mem x = 0) →
      ∀ (calls : List MapCall) (s : Machine), FlaggedRun root (s₀.higherHalf root) s₀ calls s →
      ∀ (virt : Nat) (c : MapCall), lastCall calls virt = some c →
        vmmRights s root virt = some (Rights.ofFlags c.flags) := by
  intro hall
  have hroot : PhysPage 4096 := ⟨by decide, by decide⟩
  obtain ⟨s, hrun, -⟩ := roomyCall 5 ⟨by decide, by decide, by decide, by decide⟩
  have hlast : lastCall [⟨0x400000, 0x5000, 5⟩] 0x400000 = some ⟨0x400000, 0x5000, 5⟩ := rfl
  have hrights := hall roomyMachine 4096 hroot roomyMachine_off roomyMachine_zero _ s hrun _ _ hlast
  obtain ⟨-, hinv⟩ := hrun.inv (RightsInv.start hroot roomyMachine_off roomyMachine_zero)
  rw [vmmRights_eq hinv.inner, hinv.words, hlast] at hrights
  exact absurd hrights (by decide)

end Medlar64
