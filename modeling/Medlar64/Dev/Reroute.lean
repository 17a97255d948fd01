import Medlar64.Dev.IoapicEntries

/-!
# Medlar64 — rerouting an interrupt, one register write at a time

`ioapic_redirect_irq` selects and writes the low half of an entry, with the
vector and the mask bit, and then the high half, with the destination. An
interrupt can arrive between any two of these register writes.

* `redirectGsiWrites` — the register writes of `ioapic_redirect_gsi`, in order;
  `applyAll_redirectGsiWrites` says that they are what the function does.
* `Instant` — the states between two register writes of a sequence of calls.
* `Untorn` — an entry that is not masked has its vector and its destination
  from one call.
* `reroute_untorn_iff` — a sequence of calls is `Untorn` at every instant if and
  only if every call that unmasks an entry finds its destination there, or one
  that was given together with its vector before.
-/

namespace Medlar64

-- ---------------------------------------------------------------------------
-- Register writes
-- ---------------------------------------------------------------------------

/-- A write to word 0 or word 4 of a controller. -/
inductive RegWrite
  | select (address : BitVec 32) (reg : BitVec 8)
  | window (address : BitVec 32) (value : BitVec 32)
  deriving DecidableEq

def RegWrite.apply (hw : Ioapics) : RegWrite → Ioapics
  | .select address reg => Function.update hw address ((hw address).select reg)
  | .window address value => Function.update hw address ((hw address).setWindow value)

/-- The state after the writes. -/
def applyAll (hw : Ioapics) (ws : List RegWrite) : Ioapics := ws.foldl RegWrite.apply hw

theorem applyAll_append (hw : Ioapics) (ws ws' : List RegWrite) :
    applyAll hw (ws ++ ws') = applyAll (applyAll hw ws) ws' := List.foldl_append

/-- `ioapic_write` is a `select` and a write to the window. -/
theorem applyAll_write (hw : Ioapics) (ioapic : MadtIoapic) (reg : BitVec 8)
    (value : BitVec 32) :
    applyAll hw [.select ioapic.address reg, .window ioapic.address value] =
      ioapicWrite hw ioapic reg value := by
  unfold applyAll ioapicWrite
  simp only [List.foldl_cons, List.foldl_nil, RegWrite.apply, Function.update_self,
    Function.update_idem]

/-- The controllers that `ioapic_get_gsi` looks at have their version register
selected, up to the one that is found. -/
def probeWrites (hw : Ioapics) (gsi : BitVec 32) : List MadtIoapic → List RegWrite
  | [] => []
  | ioapic :: rest =>
    if ioapic.gsiBase ≤ gsi then
      .select ioapic.address ioapicVer ::
        if ioapic.gsiBase.toNat + maxEntry hw ioapic > gsi.toNat then []
        else probeWrites hw gsi rest
    else probeWrites hw gsi rest

/-- `madt_ioapic_list`, from index `i` on. -/
def IoapicLists.controllers (m : IoapicLists) (i : ℕ) : List MadtIoapic :=
  (List.range' i (m.ioapics - i)).map m.ioapicList

/-- The controllers from one on are that one and those behind it, -/
theorem controllers_cons {m : IoapicLists} {i : ℕ} (h : i < m.ioapics) :
    m.controllers i = m.ioapicList i :: m.controllers (i + 1) := by
  obtain ⟨k, hk⟩ : ∃ k, m.ioapics - i = k + 1 := ⟨m.ioapics - i - 1, by omega⟩
  unfold IoapicLists.controllers
  rw [hk, show m.ioapics - (i + 1) = k by omega, List.range'_succ, List.map_cons]

/-- and behind the last there are none. -/
theorem controllers_nil {m : IoapicLists} {i : ℕ} (h : m.ioapics ≤ i) : m.controllers i = [] := by
  unfold IoapicLists.controllers
  rw [Nat.sub_eq_zero_of_le h]
  rfl

/-- The register writes of `ioapic_redirect_gsi`. -/
def redirectGsiWrites (m : IoapicLists) (hw : Ioapics) (lapicId : BitVec 32) (vector : BitVec 8)
    (gsi : BitVec 32) (flags : BitVec 16) (mask : Bool) : List RegWrite :=
  probeWrites hw gsi (m.controllers 0) ++
    match (ioapicGetGsi m hw gsi).2 with
    | none => []
    | some ioapic =>
      let redirect := redirection lapicId vector flags mask
      [.select ioapic.address (BitVec.ofNat 8 (16 + 2 * redirectLine ioapic gsi)),
        .window ioapic.address (redirect.setWidth 32),
        .select ioapic.address (BitVec.ofNat 8 (17 + 2 * redirectLine ioapic gsi)),
        .window ioapic.address ((redirect >>> 32).setWidth 32)]

section Writes

variable {m : IoapicLists} {hw hw' : Ioapics} {gsi : BitVec 32}

/-- While the controllers are probed only selectors move, at whatever point the
probing is interrupted. -/
theorem sameRegs_probes {ws : List RegWrite} {l : List MadtIoapic} (hw' : Ioapics)
    (h : ws <+: probeWrites hw gsi l) : SameRegs hw' (applyAll hw' ws) := by
  -- on the controllers; a write is the `select` of one of them
  induction l generalizing ws hw' with
  | nil =>
    rw [List.prefix_nil.mp h]
    exact .refl hw'
  | cons ioapic rest ih =>
    rw [probeWrites] at h
    split at h
    case isFalse => exact ih hw' h
    case isTrue =>
      rcases List.prefix_cons_iff.mp h with rfl | ⟨ws', rfl, hrest⟩
      · exact .refl hw'
      · refine (sameRegs_select hw' ioapic.address ioapicVer).trans ?_
        split at hrest
        case isTrue =>
          rw [List.prefix_nil.mp hrest]
          exact .refl _
        case isFalse => exact ih _ hrest

/--
The search leaves the controllers as the probes do: every round that reads a
version register is one `select`. By induction on the rounds, with the
controllers that are still to come.
-/
theorem whileRun_probes {fuel i : ℕ} {r : Ioapics × Option MadtIoapic} (hsame : SameRegs hw hw')
    (h : whileRun (getGsiBody m gsi) fuel (i, hw') = some r) :
    r.1 = applyAll hw' (probeWrites hw gsi (m.controllers i)) := by
  induction fuel generalizing i hw' with
  | zero => simp [whileRun] at h
  | succ fuel ih =>
    by_cases hlt : i < m.ioapics
    · rw [controllers_cons hlt, probeWrites]
      have hbody : getGsiBody m gsi (i, hw') =
          if (m.ioapicList i).gsiBase ≤ gsi then
            if (m.ioapicList i).gsiBase.toNat + maxEntry hw' (m.ioapicList i) > gsi.toNat then
              .inr ((ioapicRead hw' (m.ioapicList i) ioapicVer).1, some (m.ioapicList i))
            else .inl (i + 1, (ioapicRead hw' (m.ioapicList i) ioapicVer).1)
          else .inl (i + 1, hw') := by
        unfold getGsiBody
        simp only [ioapicGsiCount_eq]
        exact if_pos hlt
      have hread := hsame.trans (sameRegs_ioapicRead hw' (m.ioapicList i) ioapicVer)
      rw [hsame.maxEntry] at hbody
      by_cases hbase : (m.ioapicList i).gsiBase ≤ gsi
      · rw [if_pos hbase] at hbody ⊢
        by_cases hin : (m.ioapicList i).gsiBase.toNat + maxEntry hw (m.ioapicList i) > gsi.toNat
        · rw [if_pos hin] at hbody ⊢
          rw [whileRun_done hbody] at h
          rw [← Option.some.inj h]
          rfl
        · rw [if_neg hin] at hbody ⊢
          rw [whileRun_next hbody] at h
          exact ih hread h
      · rw [if_neg hbase] at hbody ⊢
        rw [whileRun_next hbody] at h
        exact ih hsame h
    · -- the list is at its end
      have hbody : getGsiBody m gsi (i, hw') = .inr (hw', none) := by
        unfold getGsiBody
        exact if_neg hlt
      rw [whileRun_done hbody] at h
      rw [← Option.some.inj h, controllers_nil (Nat.le_of_not_lt hlt)]
      rfl

theorem applyAll_probes (m : IoapicLists) (hw : Ioapics) (gsi : BitVec 32) :
    applyAll hw (probeWrites hw gsi (m.controllers 0)) = (ioapicGetGsi m hw gsi).1 :=
  (whileRun_probes (.refl hw) (getGsi_returns m hw gsi)).symm

/-- **The register writes are what `ioapic_redirect_gsi` does.** -/
theorem applyAll_redirectGsiWrites {ioapic : MadtIoapic} (lapicId : BitVec 32)
    (vector : BitVec 8) (flags : BitVec 16) (mask : Bool)
    (hfound : (ioapicGetGsi m hw gsi).2 = some ioapic) :
    ioapicRedirectGsi m hw lapicId vector gsi flags mask =
      some (applyAll hw (redirectGsiWrites m hw lapicId vector gsi flags mask)) := by
  rw [ioapicRedirectGsi_eq lapicId vector flags mask hfound, redirectGsiWrites, hfound,
    applyAll_append, applyAll_probes, ← applyAll_write, ← applyAll_write, ← applyAll_append]
  rfl

end Writes

-- ---------------------------------------------------------------------------
-- Sequences of calls
-- ---------------------------------------------------------------------------

/-- The arguments of `ioapic_redirect_irq`. -/
structure RerouteCall where
  lapicId : BitVec 32
  vector : BitVec 8
  irq : BitVec 8
  mask : Bool

/-- Calls of `ioapic_redirect_irq`, one after the other, that return. -/
inductive RerouteRun (m : IoapicLists) (hw₀ : Ioapics) : List RerouteCall → Ioapics → Prop
  | start : RerouteRun m hw₀ [] hw₀
  | call {calls : List RerouteCall} {hw hw' : Ioapics} {c : RerouteCall} {fuel : ℕ}
      (h : RerouteRun m hw₀ calls hw)
      (hrun : ioapicRedirectIrq m hw c.lapicId c.vector c.irq c.mask fuel = some (some hw')) :
    RerouteRun m hw₀ (calls ++ [c]) hw'

/-- The state between two calls, or between two register writes of the last
call. -/
inductive Instant (m : IoapicLists) (hw₀ : Ioapics) : List RerouteCall → Ioapics → Prop
  | between {calls : List RerouteCall} {hw : Ioapics} (h : RerouteRun m hw₀ calls hw) :
    Instant m hw₀ calls hw
  | within {calls : List RerouteCall} {hw : Ioapics} {c : RerouteCall} {fuel : ℕ}
      {g : BitVec 32 × BitVec 16} {ws : List RegWrite} (h : RerouteRun m hw₀ calls hw)
      (hsearch : whileRun (isoBody m c.irq) fuel 0 = some g)
      (hws : ws <+: redirectGsiWrites m hw c.lapicId c.vector g.1 g.2 c.mask) :
    Instant m hw₀ (calls ++ [c]) (applyAll hw ws)

/-- An entry that is not masked carries a vector and a destination that one of
the calls gave together. -/
def Untorn (calls : List RerouteCall) (hw : Ioapics) : Prop :=
  ∀ address line, line < 120 → (hw.entry address line).getLsbD 16 = false →
    ∃ c ∈ calls, (hw.entry address line).setWidth 8 = c.vector ∧
      (hw.entry address line >>> 56).toNat = c.lapicId.toNat

/-- The call programs the entry. -/
def Programs (m : IoapicLists) (hw : Ioapics) (c : RerouteCall) (address : BitVec 32)
    (line : ℕ) : Prop :=
  ∃ g fuel ioapic, whileRun (isoBody m c.irq) fuel 0 = some g ∧
    (ioapicGetGsi m hw g.1).2 = some ioapic ∧ address = ioapic.address ∧
    line = redirectLine ioapic g.1

/-- Where the call unmasks an entry, the destination that the entry has is the
one of the call, or an earlier call gave it together with the vector. -/
def RerouteFits (m : IoapicLists) (calls : List RerouteCall) (hw : Ioapics)
    (c : RerouteCall) : Prop :=
  c.mask = false → ∀ address line, line < 120 → Programs m hw c address line →
    (hw.entry address line >>> 56).toNat = c.lapicId.toNat ∨
      ∃ c' ∈ calls, c'.vector = c.vector ∧
        (hw.entry address line >>> 56).toNat = c'.lapicId.toNat

section Steps

variable {m : IoapicLists} {hw hw' : Ioapics} {calls : List RerouteCall} {c : RerouteCall}

/-- What only moves selectors tears nothing, and a further call only gives more
pairs of a vector and a destination to have come from. -/
theorem Untorn.mono (h : Untorn calls hw) (hsame : SameRegs hw hw') :
    Untorn (calls ++ [c]) hw' := by
  intro address line hline hmask
  rw [hsame.entry] at hmask ⊢
  obtain ⟨c', hc', hgiven⟩ := h address line hline hmask
  exact ⟨c', List.mem_append_left _ hc', hgiven⟩

theorem append_getLsbD_low (hi lo : BitVec 32) {i : ℕ} (h : i < 32) :
    (hi ++ lo).getLsbD i = lo.getLsbD i := by
  rw [BitVec.getLsbD_append]
  simp [h]

/-- The vector is in the low half of an entry, -/
theorem append_vector (hi lo : BitVec 32) : (hi ++ lo).setWidth 8 = lo.setWidth 8 := by
  refine BitVec.eq_of_getLsbD_eq ?_
  intro i hlt
  rw [BitVec.getLsbD_setWidth, BitVec.getLsbD_setWidth, append_getLsbD_low _ _ (by omega)]

/-- the destination in the high half. -/
theorem append_destination (hi lo lo' : BitVec 32) : (hi ++ lo) >>> 56 = (hi ++ lo') >>> 56 := by
  refine BitVec.eq_of_getLsbD_eq ?_
  intro i hlt
  rw [BitVec.getLsbD_ushiftRight, BitVec.getLsbD_ushiftRight, BitVec.getLsbD_append,
    BitVec.getLsbD_append]
  have hhigh : ¬ 56 + i < 32 := by omega
  simp [hhigh]

/--
**The entry between its two halves.** After the low half has been written, the
entry has the vector and the mask of the call and still the destination from
before it.
-/
theorem half_entry (hsame : SameRegs hw hw') {ioapic : MadtIoapic} (lapicId : BitVec 32)
    (vector : BitVec 8) (flags : BitVec 16) (mask : Bool) {address : BitVec 32} {line line' : ℕ}
    (hline : line < 120) (hline' : line' < 128) (hprog : address = ioapic.address ∧ line = line') :
    ∀ e, e = (ioapicWrite hw' ioapic (BitVec.ofNat 8 (16 + 2 * line'))
        ((redirection lapicId vector flags mask).setWidth 32)).entry address line →
      e.setWidth 8 = vector ∧ e.getLsbD 16 = mask ∧
        e >>> 56 = hw.entry address line >>> 56 := by
  rintro e rfl
  rw [entry_write_low hline hline', if_pos hprog]
  refine ⟨?_, ?_, ?_⟩
  · rw [append_vector]
    refine BitVec.eq_of_getLsbD_eq ?_
    intro i hi
    rw [BitVec.getLsbD_setWidth, BitVec.getLsbD_setWidth, redirection_getLsbD _ _ _ _ (by omega)]
    have h56 : ¬ 56 ≤ i := by omega
    simp [hi, h56, show i < 32 by omega, show i ≠ 13 by omega, show i ≠ 15 by omega,
      show i ≠ 16 by omega]
  · rw [append_getLsbD_low _ _ (by omega), BitVec.getLsbD_setWidth,
      redirection_getLsbD _ _ _ _ (by omega)]
    simp
  · -- the high half is the old one
    rw [← hsame.entry, Ioapics.entry]
    exact append_destination _ _ _

/-- With the low half written, no entry is torn. The entry that is programmed
has the vector of the call already and the destination of an older one: it is
masked, or `RerouteFits` says that the two agree. All others are as before. -/
theorem Untorn.half {fuel : ℕ} {g : BitVec 32 × BitVec 16} {ioapic : MadtIoapic}
    (h : Untorn calls hw) (hsame : SameRegs hw hw') (hfits : RerouteFits m calls hw c)
    (hsearch : whileRun (isoBody m c.irq) fuel 0 = some g)
    (hfound : (ioapicGetGsi m hw g.1).2 = some ioapic) :
    Untorn (calls ++ [c]) (ioapicWrite hw' ioapic
      (BitVec.ofNat 8 (16 + 2 * redirectLine ioapic g.1))
      ((redirection c.lapicId c.vector g.2 c.mask).setWidth 32)) := by
  have hlt := redirectLine_lt ioapic g.1
  intro address line hline hmask
  by_cases hprog : address = ioapic.address ∧ line = redirectLine ioapic g.1
  · obtain ⟨hvector, hbit, hdest⟩ := half_entry hsame c.lapicId c.vector g.2 c.mask hline hlt
      hprog _ rfl
    rw [hbit] at hmask
    rw [hvector, hdest]
    -- the destination is still the old one
    rcases hfits hmask address line hline ⟨g, fuel, ioapic, hsearch, hfound, hprog⟩ with
      hsame | ⟨c', hc', hv, hd⟩
    · exact ⟨c, List.mem_append_right _ (List.mem_singleton_self c), rfl, hsame⟩
    · exact ⟨c', List.mem_append_left _ hc', hv.symm, hd⟩
  · rw [entry_write_low hline hlt, if_neg hprog] at hmask ⊢
    exact h.mono hsame address line hline hmask

/-- With both halves written, the entry is that of the call, vector and
destination, and no other entry has changed. -/
theorem Untorn.full {g : BitVec 32 × BitVec 16} {ioapic : MadtIoapic} (h : Untorn calls hw)
    (hlapic : c.lapicId.toNat < 256) (hfound : (ioapicGetGsi m hw g.1).2 = some ioapic)
    (hrun : ioapicRedirectGsi m hw c.lapicId c.vector g.1 g.2 c.mask = some hw') :
    Untorn (calls ++ [c]) hw' := by
  intro address line hline hmask
  rw [ioapicRedirectGsi_entry hfound hrun hline] at hmask ⊢
  by_cases hprog : address = ioapic.address ∧ line = redirectLine ioapic g.1
  · rw [if_pos hprog]
    have hentry := redirection_entryFor hlapic c.vector g.2 c.mask
    exact ⟨c, List.mem_append_right _ (List.mem_singleton_self c), hentry.vector,
      hentry.destination⟩
  · rw [if_neg hprog] at hmask ⊢
    obtain ⟨c', hc', hgiven⟩ := h address line hline hmask
    exact ⟨c', List.mem_append_left _ hc', hgiven⟩

/-- Likewise without a further call. -/
theorem Untorn.congr (h : Untorn calls hw) (hsame : SameRegs hw hw') : Untorn calls hw' := by
  intro address line hline hmask
  rw [hsame.entry] at hmask ⊢
  exact h address line hline hmask

/-- The first writes of a list of four behind others. -/
theorem prefix_append_four {α : Type*} {l p : List α} {w x y z : α}
    (h : l <+: p ++ [w, x, y, z]) :
    l <+: p ∨ l = p ++ [w] ∨ l = p ++ [w, x] ∨ l = p ++ [w, x, y] ∨ l = p ++ [w, x, y, z] := by
  have hsplit : p ++ [w, x, y, z] = p ++ [w] ++ [x] ++ [y] ++ [z] := by simp
  rw [hsplit] at h
  simp only [List.prefix_concat_iff] at h
  rcases h with rfl | rfl | rfl | rfl | h
  · simp
  · simp
  · simp
  · simp
  · exact .inl h

/--
**Step.** All instants within one call that fits: while the controllers are
probed nothing has changed; between the halves the condition says that the
destination is one that was given with this vector; after both the entry is
that of the call.
-/
theorem Untorn.within {fuel : ℕ} {g : BitVec 32 × BitVec 16} {ws : List RegWrite}
    (h : Untorn calls hw) (hlapic : c.lapicId.toNat < 256) (hfits : RerouteFits m calls hw c)
    (hsearch : whileRun (isoBody m c.irq) fuel 0 = some g)
    (hws : ws <+: redirectGsiWrites m hw c.lapicId c.vector g.1 g.2 c.mask) :
    Untorn (calls ++ [c]) (applyAll hw ws) := by
  cases hfound : (ioapicGetGsi m hw g.1).2 with
  | none =>
    rw [redirectGsiWrites, hfound, List.append_nil] at hws
    exact h.mono (sameRegs_probes hw hws)
  | some ioapic =>
    have hprobes : SameRegs hw (applyAll hw (probeWrites hw g.1 (m.controllers 0))) :=
      sameRegs_probes hw (List.prefix_refl _)
    have hhalf := h.half hprobes hfits hsearch hfound
    have hfull := h.full hlapic hfound
      (applyAll_redirectGsiWrites c.lapicId c.vector g.2 c.mask hfound)
    rw [← applyAll_write] at hhalf
    rw [redirectGsiWrites, hfound] at hws hfull
    -- probing; the low half selected, written; the high half selected, written
    rcases prefix_append_four hws with hws | rfl | rfl | rfl | rfl
    · exact h.mono (sameRegs_probes hw hws)
    · rw [applyAll_append]
      exact h.mono (hprobes.trans (sameRegs_select _ _ _))
    · rw [applyAll_append]
      exact hhalf
    · rw [applyAll_append]
      exact hhalf.congr (sameRegs_select _ _ _)
    · exact hfull

/-- The state in the middle of the call shows what the entry had before. The
high half is not written yet, so its destination is the old one, which by
assumption belongs to the vector. -/
theorem RerouteFits.of_within {g : BitVec 32 × BitVec 16} {ioapic : MadtIoapic} {line : ℕ}
    (hline : line < 120) (hmask : c.mask = false)
    (hprog : line = redirectLine ioapic g.1) (hsame : SameRegs hw hw')
    (h : Untorn (calls ++ [c]) (ioapicWrite hw' ioapic
      (BitVec.ofNat 8 (16 + 2 * redirectLine ioapic g.1))
      ((redirection c.lapicId c.vector g.2 c.mask).setWidth 32))) :
    (hw.entry ioapic.address line >>> 56).toNat = c.lapicId.toNat ∨
      ∃ c' ∈ calls, c'.vector = c.vector ∧
        (hw.entry ioapic.address line >>> 56).toNat = c'.lapicId.toNat := by
  obtain ⟨hvector, hbit, hdest⟩ := half_entry hsame c.lapicId c.vector g.2 c.mask hline
    (redirectLine_lt ioapic g.1) ⟨rfl, hprog⟩ _ rfl
  obtain ⟨c', hc', hv, hd⟩ := h ioapic.address line hline (hbit.trans hmask)
  rw [hvector] at hv
  rw [hdest] at hd
  rcases List.mem_append.mp hc' with hc' | hc'
  · exact .inr ⟨c', hc', hv.symm, hd⟩
  · rw [List.mem_singleton.mp hc'] at hd
    exact .inl hd

end Steps

-- ---------------------------------------------------------------------------
-- When no entry is torn
-- ---------------------------------------------------------------------------

/--
**Run.** Between the calls of a run all of whose calls fit, nothing is torn. By
induction on the calls, beginning with every entry masked.
-/
theorem RerouteRun.untorn {m : IoapicLists} {hw₀ hw : Ioapics} {calls : List RerouteCall}
    (h : RerouteRun m hw₀ calls hw)
    (hmasked : ∀ address line, line < 120 → (hw₀.entry address line).getLsbD 16 = true)
    (hlapic : ∀ c ∈ calls, c.lapicId.toNat < 256)
    (hfits : ∀ done c hw, done ++ [c] <+: calls → RerouteRun m hw₀ done hw →
      RerouteFits m done hw c) : Untorn calls hw := by
  induction h with
  | start =>
    intro address line hline hmask
    rw [hmasked address line hline] at hmask
    contradiction
  | @call calls hw hw' c fuel hrun hcall ih =>
    have hprefix : calls <+: calls ++ [c] := List.prefix_append calls [c]
    have huntorn := ih (fun c' hc' => hlapic c' (List.mem_append_left _ hc'))
      fun done c' hw hdone => hfits done c' hw (hdone.trans hprefix)
    -- a call that returns has found a controller
    rw [ioapicRedirectIrq_eq] at hcall
    obtain ⟨g, -, hgsi⟩ := Option.map_eq_some_iff.mp hcall
    cases hfound : (ioapicGetGsi m hw g.1).2 with
    | none =>
      rw [ioapicRedirectGsi_eq_none.mpr hfound] at hgsi
      contradiction
    | some ioapic =>
      exact huntorn.full (hlapic c (List.mem_append_right _ (List.mem_singleton_self c))) hfound
        hgsi

/-- **When rerouting exposes no torn entry.** From a state with every entry
masked, for every sequence of calls: at every instant every entry that is not
masked carries a vector and a destination from one call, if and only if each
call that unmasks an entry finds there its own destination, or one that an
earlier call gave together with its vector. -/
theorem reroute_untorn_iff (m : IoapicLists) (hw₀ : Ioapics) (calls : List RerouteCall)
    (hmasked : ∀ address line, line < 120 → (hw₀.entry address line).getLsbD 16 = true)
    (hlapic : ∀ c ∈ calls, c.lapicId.toNat < 256) :
    (∀ done hw, done <+: calls → Instant m hw₀ done hw → Untorn done hw) ↔
      ∀ done c hw, done ++ [c] <+: calls → RerouteRun m hw₀ done hw →
        RerouteFits m done hw c := by
  constructor
  · rintro huntorn done c hw hdone hrun hmask address line hline
      ⟨g, fuel, ioapic, hsearch, hfound, rfl, hprog⟩
    have hprobes : SameRegs hw (applyAll hw (probeWrites hw g.1 (m.controllers 0))) :=
      sameRegs_probes hw (List.prefix_refl _)
    refine RerouteFits.of_within (g := g) hline hmask hprog hprobes ?_
    -- the instant after the low half was written
    rw [← applyAll_write, ← applyAll_append]
    refine huntorn _ _ hdone (.within hrun hsearch ?_)
    rw [redirectGsiWrites, hfound]
    refine (List.prefix_append_right_inj _).mpr ?_
    exact ⟨_, rfl⟩
  · intro hfits done hw hdone hinstant
    have hlapic' : ∀ c ∈ done, c.lapicId.toNat < 256 := fun c hc => hlapic c (hdone.subset hc)
    cases hinstant with
    | between hrun =>
      exact hrun.untorn hmasked hlapic' fun done' c hw hdone' =>
        hfits done' c hw (hdone'.trans hdone)
    | @within calls' hw c fuel g ws hrun hsearch hws =>
      have hbefore : Untorn calls' hw :=
        hrun.untorn hmasked (fun c' hc' => hlapic' c' (List.mem_append_left _ hc'))
          fun done' c' hw hdone' =>
            hfits done' c' hw ((hdone'.trans (List.prefix_append _ _)).trans hdone)
      exact hbefore.within (hlapic' c (List.mem_append_right _ (List.mem_singleton_self c)))
        (hfits calls' c hw hdone hrun) hsearch hws

-- ---------------------------------------------------------------------------
-- An interrupt moved to another processor
-- ---------------------------------------------------------------------------

/-- In the example every entry begins masked. -/
theorem maskedRegs_masked (address : BitVec 32) (line : ℕ) :
    (maskedRegs.entry address line).getLsbD 16 = true := by
  have hreg : BitVec.ofNat 8 (16 + 2 * line) ≠ ioapicVer := by
    intro heq
    have hnum := congrArg BitVec.toNat heq
    rw [BitVec.toNat_ofNat] at hnum
    change (16 + 2 * line) % 2 ^ 8 = 1 at hnum
    omega
  have hlow : (maskedRegs address).reg (BitVec.ofNat 8 (16 + 2 * line)) = 0x10000 := if_neg hreg
  rw [Ioapics.entry, append_getLsbD_low _ _ (by omega), hlow]
  rfl

/-- The keyboard's interrupt for processor 0. -/
def keyboardCall : RerouteCall := { lapicId := 0, vector := 33, irq := 1, mask := false }

/-- The keyboard's interrupt for processor 1. -/
def movedCall : RerouteCall := { lapicId := 1, vector := 33, irq := 1, mask := false }

/-- The keyboard's interrupt routed once, on a machine with one controller: to
local APIC 0, whose number the entry has before. -/
theorem reroute_untorn_iff_keyboard :
    (∀ done hw, done <+: [keyboardCall] → Instant oneIoapic maskedRegs done hw →
        Untorn done hw) ↔
      ∀ done c hw, done ++ [c] <+: [keyboardCall] → RerouteRun oneIoapic maskedRegs done hw →
        RerouteFits oneIoapic done hw c :=
  reroute_untorn_iff oneIoapic maskedRegs [keyboardCall]
    (fun address line _ => maskedRegs_masked address line) (by decide)

/-- The probe of the controller, and the low half selected and written. -/
def movedWrites : List RegWrite :=
  [.select 0xfec00000 1, .select 0xfec00000 18, .window 0xfec00000 33]

/-- Unmasked with the vector of the call and the destination of none: the low
half is written first, and in that moment the entry has vector 33 with the
destination 0, which only the high half makes that of the call. -/
theorem reroute_torn :
    ¬ ∀ (m : IoapicLists) (hw₀ : Ioapics) (calls : List RerouteCall),
      (∀ address line, line < 120 → (hw₀.entry address line).getLsbD 16 = true) →
        (∀ c ∈ calls, c.lapicId.toNat < 256) →
          ∀ done hw, done <+: calls → Instant m hw₀ done hw → Untorn done hw := by
  intro h
  have hinstant : Instant oneIoapic maskedRegs [movedCall] (applyAll maskedRegs movedWrites) :=
    @Instant.within oneIoapic maskedRegs [] maskedRegs movedCall 1 (1, 0) movedWrites .start rfl
      ⟨_, rfl⟩
  obtain ⟨c, hc, -, hdest⟩ := h oneIoapic maskedRegs [movedCall]
    (fun address line _ => maskedRegs_masked address line) (by decide) _ _ (List.prefix_refl _)
    hinstant 0xfec00000 1 (by decide) (by decide +kernel)
  rw [List.mem_singleton.mp hc] at hdest
  exact absurd hdest (by decide +kernel)

end Medlar64
