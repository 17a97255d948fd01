import Medlar64.Mm.Init
import Medlar64.Mm.VmmInit

/-!
# Medlar64 — the kernel's address space

What `vmm_init` is for: the sections of the kernel image with their own rights,
the first 4 GiB at two places, and nothing else. `ALIGN_UP` of a bound in the
last page of the address space wraps to 0, and the loop that it bounds does not
run.

* `AddressSpace` — what is meant.
* `KernelImage.LaidOut.ordered` — the gaps of the linker script keep the loops
  apart; `lastCall_initCalls` — no page is entered twice.
* `vmm_init_address_space_iff` — the address space is as meant if and only if
  the data does not end in the last page.
-/

namespace Medlar64

-- ---------------------------------------------------------------------------
-- What is meant
-- ---------------------------------------------------------------------------

/-- Bits 47 to 63 are equal. -/
def Canonical (v : Nat) : Prop := v < 2 ^ 47 ∨ 2 ^ 64 - 2 ^ 47 ≤ v ∧ v < 2 ^ 64

/-- The ranges `[a, b)` and `[c, d)` have no address in common. -/
def Apart (a b c d : Nat) : Prop := ∀ v, ¬ ((a ≤ v ∧ v < b) ∧ c ≤ v ∧ v < d)

/-- The page of `v` meets the range `[a, b)`. -/
def PageMeets (v a b : Nat) : Prop := ∃ x, a ≤ x ∧ x < b ∧ x / 4096 = v / 4096

/-- The sections as the linker script lays them out, a page apart, and the
ranges to be mapped canonical and apart from each other. -/
structure KernelImage.LaidOut (k : KernelImage) (hhdm : Nat) : Prop where
  text : k.textStart < k.textEnd
  textGap : k.textEnd + 0x1000 ≤ k.rodataStart
  rodata : k.rodataStart < k.rodataEnd
  rodataGap : k.rodataEnd + 0x1000 ≤ k.dataStart
  data : k.dataStart < k.dataEnd
  dataEnd_lt : k.dataEnd < 2 ^ 64
  virtualAligned : k.virtualBase % 4096 = 0
  physicalAligned : k.physicalBase % 4096 = 0
  phys : ∀ v, k.textStart ≤ v → v < k.dataEnd → k.phys v < 2 ^ 52
  aligned : hhdm % 4096 = 0
  imageCanonical : ∀ v, k.textStart ≤ v → v < k.dataEnd → Canonical v
  directCanonical : ∀ v, v < 2 ^ 32 → Canonical (hhdm + v)
  lowDirect : Apart 0 (2 ^ 32) hhdm (hhdm + 2 ^ 32)
  lowImage : Apart 0 (2 ^ 32) k.textStart k.dataEnd
  directImage : Apart hhdm (hhdm + 2 ^ 32) k.textStart k.dataEnd

/-- The physical address of the page of `virt`. -/
def vmmTranslate (s : Machine) (root virt : Nat) : Option Nat := (vmmWalk s root virt).map Prod.fst

def Rights.readExecute : Rights := ⟨false, false, false⟩

def Rights.readOnly : Rights := ⟨false, false, true⟩

def Rights.readWrite : Rights := ⟨true, false, true⟩

def Rights.readWriteExecute : Rights := ⟨true, false, false⟩

/-- The address space that the kernel is meant to have: the three sections of the
image with rights of their own, and the first 4 GiB twice, at their own addresses
and in the direct map, where the kernel may read, write and execute them. -/
structure AddressSpace (k : KernelImage) (hhdm : Nat) (s : Machine) (root : Nat) : Prop where
  text : ∀ v, PageMeets v k.textStart k.textEnd →
    vmmTranslate s root v = some (k.phys (alignDown v)) ∧
      vmmRights s root v = some .readExecute
  rodata : ∀ v, PageMeets v k.rodataStart k.rodataEnd →
    vmmTranslate s root v = some (k.phys (alignDown v)) ∧ vmmRights s root v = some .readOnly
  data : ∀ v, PageMeets v k.dataStart k.dataEnd →
    vmmTranslate s root v = some (k.phys (alignDown v)) ∧ vmmRights s root v = some .readWrite
  low : ∀ v, v < 2 ^ 32 →
    vmmTranslate s root v = some (alignDown v) ∧ vmmRights s root v = some .readWriteExecute
  direct : ∀ v, v < 2 ^ 32 →
    vmmTranslate s root (hhdm + v) = some (alignDown v) ∧
      vmmRights s root (hhdm + v) = some .readWriteExecute
  /-- Nothing else is mapped. -/
  only : ∀ v, Canonical v → vmmTranslate s root v ≠ none →
    PageMeets v k.textStart k.textEnd ∨ PageMeets v k.rodataStart k.rodataEnd ∨
      PageMeets v k.dataStart k.dataEnd ∨ v < 2 ^ 32 ∨ hhdm ≤ v ∧ v < hhdm + 2 ^ 32
  /-- No page of the image is both writable and executable. -/
  writeXorExecute : ∀ v, PageMeets v k.textStart k.dataEnd → ∀ r, vmmRights s root v = some r →
    ¬ (r.writable = true ∧ r.noExecute = false)

/-- No `pmm_alloc(1)` of `vmm_init` returns `NULL`. -/
def InitServed (s : Machine) (k : KernelImage) : Prop :=
  ∃ p s₁, pmmAlloc s 1 = some (p, s₁) ∧ p ≠ 0 ∧
    CallsServed (s₁.higherHalf p) (memset s₁ (s₁.higherHalf p) 0 pageSize)
      (initCalls k s.hhdmOffset)

-- ---------------------------------------------------------------------------
-- Pages and ranges
-- ---------------------------------------------------------------------------

section Ranges

variable {k : KernelImage} {hhdm v w a b : Nat}

/-- An address that a loop of `vmm_init` reaches lies on a page of the
section, -/
theorem InSection.meets (h : InSection a b v) (hab : a < b) (hb : b < 2 ^ 64) :
    PageMeets v a b := by
  obtain ⟨hlo, hhi⟩ := h
  rw [alignDown_eq] at hlo
  rw [alignUp_eq] at hhi
  -- the address itself, or the bound of the section that is on its page
  by_cases hlow : v < a
  · exact ⟨a, by omega, by omega, by omega⟩
  · by_cases hhigh : v < b
    · exact ⟨v, by omega, by omega, rfl⟩
    · exact ⟨b - 1, by omega, by omega, by omega⟩

/-- and every page of a section is reached, unless `ALIGN_UP` of its end
wraps. -/
theorem PageMeets.inSection (h : PageMeets v a b) (hb : b ≤ 2 ^ 64 - 4096) : InSection a b v := by
  obtain ⟨x, hlo, hhi, hpage⟩ := h
  constructor
  · rw [alignDown_eq]
    omega
  · rw [alignUp_eq]
    omega

theorem PageMeets.wider {a' b' : Nat} (h : PageMeets v a b) (ha : a' ≤ a) (hb : b ≤ b') :
    PageMeets v a' b' := by
  obtain ⟨x, hlo, hhi, hpage⟩ := h
  exact ⟨x, by omega, by omega, hpage⟩

/-- Rounding down stays on the page. -/
theorem alignDown_page (v : Nat) : alignDown v / 4096 = v / 4096 :=
  Nat.mul_div_cancel _ (by decide)

/-- So the address of its page stands for every address. -/
theorem pageMeets_alignDown : PageMeets (alignDown v) a b ↔ PageMeets v a b := by
  unfold PageMeets
  rw [alignDown_page]

/-- On the same page, both addresses are canonical or none is. -/
theorem Canonical.page (h : Canonical v) (hpage : w / 4096 = v / 4096) : Canonical w := by
  unfold Canonical at h ⊢
  omega

theorem Canonical.page_eq (hv : Canonical v) (hw : Canonical w)
    (h : v / 4096 % 2 ^ 36 = w / 4096 % 2 ^ 36) : v / 4096 = w / 4096 := by
  unfold Canonical at hv hw
  omega

/--
**The gaps of the linker script keep the loops apart.** A page lies between two
sections, so rounding one up and the next one down does not make them meet; the
two copies of the first 4 GiB are apart from the image because their addresses
are. The one end that can wrap is that of the data.
-/
theorem KernelImage.LaidOut.ordered (hk : k.LaidOut hhdm) : k.Ordered hhdm := by
  obtain ⟨htext, htextGap, hrodata, hrodataGap, hdata, hlt, -, -, -, hhhdm, -, hcanon,
    hlowDirect, hlowImage, hdirect⟩ := hk
  -- ranges that are apart lie on one side of each other
  have hlow : 2 ^ 32 ≤ k.textStart := by
    have := hlowImage k.textStart
    omega
  have hhdmLow : 2 ^ 32 ≤ hhdm := by
    have := hlowDirect hhdm
    omega
  have hhdmTop : hhdm + 2 ^ 32 ≤ 2 ^ 64 := by
    have := hcanon (2 ^ 32 - 1) (by decide)
    unfold Canonical at this
    omega
  have himage : hhdm + 2 ^ 32 ≤ k.textStart ∨ k.dataEnd ≤ hhdm := by
    have hfirst := hdirect k.textStart
    have hsecond := hdirect hhdm
    omega
  -- no end but that of the data can wrap
  have htextStart := alignDown_eq k.textStart
  have htextEnd := alignUp_eq k.textEnd
  have hrodataStart := alignDown_eq k.rodataStart
  have hrodataEnd := alignUp_eq k.rodataEnd
  have hdataStart := alignDown_eq k.dataStart
  have hdataEnd := alignUp_eq k.dataEnd
  constructor <;> omega

/-- A page of a section is one of the image. -/
theorem KernelImage.LaidOut.image (hk : k.LaidOut hhdm)
    (h : InSection k.textStart k.textEnd v ∨ InSection k.rodataStart k.rodataEnd v ∨
      InSection k.dataStart k.dataEnd v) : PageMeets v k.textStart k.dataEnd := by
  obtain ⟨htext, htextGap, hrodata, hrodataGap, hdata, hlt, -⟩ := hk
  rcases h with h | h | h
  · -- the text comes first, the data last
    exact (h.meets htext (by omega)).wider (Nat.le_refl _) (by omega)
  · exact (h.meets hrodata (by omega)).wider (by omega) (by omega)
  · exact (h.meets hdata hlt).wider (by omega) (Nat.le_refl _)

theorem KernelImage.LaidOut.canonical (hk : k.LaidOut hhdm)
    (h : PageMeets v k.textStart k.dataEnd) : Canonical v := by
  obtain ⟨x, hlo, hhi, hpage⟩ := h
  exact (hk.imageCanonical x hlo hhi).page hpage.symm

/-- No page of the image is in one of the two other ranges. -/
theorem KernelImage.LaidOut.outside (hk : k.LaidOut hhdm)
    (h : PageMeets v k.textStart k.dataEnd) :
    ¬ v < 2 ^ 32 ∧ ¬ (hhdm ≤ v ∧ v < hhdm + 2 ^ 32) := by
  obtain ⟨x, hlo, hhi, hpage⟩ := h
  have haligned := hk.aligned
  have hlow := hk.lowImage x
  have hdirect := hk.directImage x
  omega

/-- The physical page of a page of the image. -/
theorem KernelImage.LaidOut.physPage (hk : k.LaidOut hhdm) (hv : v % 4096 = 0)
    (h : PageMeets v k.textStart k.dataEnd) : PhysPage (k.phys v) := by
  obtain ⟨x, hlo, hhi, hpage⟩ := h
  -- the bases are page-aligned, so the whole page moves
  have hlt := hk.phys x hlo hhi
  have hvirtual := hk.virtualAligned
  have hphysical := hk.physicalAligned
  unfold KernelImage.phys u64 at hlt ⊢
  exact ⟨by omega, by omega⟩

/-- The flags of an entry are flags of `vmm.h`, the present bit among them. -/
theorem initEntry_flags {p f : Nat} (h : initEntry k hhdm v = some (p, f)) :
    f &&& pteAddrMask = 0 ∧ f &&& ptePresent ≠ 0 ∧
      f &&& (ptePresent ||| pteWritable ||| pteUser ||| pteNx) = f := by
  rcases initEntry_cases h with ⟨-, he⟩ | ⟨-, he⟩ | ⟨-, he⟩ | ⟨-, he⟩ | ⟨-, he⟩ <;>
    obtain ⟨-, rfl⟩ := Prod.mk.inj he <;> decide

/-- The entries that are writable and executable are outside the image. -/
theorem initEntry_writeXorExecute {p f : Nat} (h : initEntry k hhdm v = some (p, f))
    (hlow : ¬ v < 2 ^ 32) (hdirect : ¬ (hhdm ≤ v ∧ v < hhdm + 2 ^ 32)) :
    ¬ ((Rights.ofFlags f).writable = true ∧ (Rights.ofFlags f).noExecute = false) := by
  rcases initEntry_cases h with ⟨-, he⟩ | ⟨-, he⟩ | ⟨-, he⟩ | ⟨hv, -⟩ | ⟨hv, -⟩
  · obtain ⟨-, rfl⟩ := Prod.mk.inj he
    decide
  · obtain ⟨-, rfl⟩ := Prod.mk.inj he
    decide
  · obtain ⟨-, rfl⟩ := Prod.mk.inj he
    decide
  · exact absurd hv hlow
  · exact absurd hv hdirect

/-- Canonical pages only, and addresses and flags that fit an entry. The bounds
are those that the layout of the image promises for the sections; the other two
ranges have fixed ones. -/
theorem initEntry_valid (hk : k.LaidOut hhdm) {p f : Nat} (hv : v % 4096 = 0)
    (h : initEntry k hhdm v = some (p, f)) :
    Canonical v ∧ PhysPage p ∧ f &&& pteAddrMask = 0 ∧ MapCall.Flagged ⟨v, p, f⟩ := by
  obtain ⟨hmask, hpresent, hflags⟩ := initEntry_flags h
  have haligned := hk.aligned
  have hpage : Canonical v ∧ PhysPage p := by
    rcases initEntry_cases h with ⟨hin, he⟩ | ⟨hin, he⟩ | ⟨hin, he⟩ | ⟨hlt, he⟩ |
      ⟨⟨hlo, hhi⟩, he⟩ <;> obtain ⟨rfl, -⟩ := Prod.mk.inj he
    · -- text, rodata and data
      have himage := hk.image (.inl hin)
      exact ⟨hk.canonical himage, hk.physPage hv himage⟩
    · have himage := hk.image (.inr (.inl hin))
      exact ⟨hk.canonical himage, hk.physPage hv himage⟩
    · have himage := hk.image (.inr (.inr hin))
      exact ⟨hk.canonical himage, hk.physPage hv himage⟩
    · -- the first 4 GiB, at their own addresses
      exact ⟨.inl (by omega), hv, by omega⟩
    · -- the direct map
      have hcanon := hk.directCanonical (v - hhdm) (by omega)
      rw [Nat.add_sub_cancel' hlo] at hcanon
      exact ⟨hcanon, by omega, by omega⟩
  exact ⟨hpage.1, hpage.2, hmask, hpage.2.aligned, Nat.lt_trans hpage.2.lt (by decide), hpresent,
    hflags⟩

/-- Every call of `vmm_init` has flags the processor knows and a page-aligned
address. -/
theorem initCalls_flagged (hk : k.LaidOut hhdm) : ∀ c ∈ initCalls k hhdm, c.Flagged := by
  intro c hc
  obtain ⟨haligned, hentry⟩ := (mem_initCalls hk.ordered).mp hc
  obtain ⟨-, -, -, hflagged⟩ := initEntry_valid hk haligned hentry
  exact hflagged

/--
**No page is entered twice with different contents.** For a canonical address,
the last call for its page is the one that `initEntry` names, and where that
names none there is no call.
-/
theorem lastCall_initCalls (hk : k.LaidOut hhdm) (hv : Canonical v) :
    lastCall (initCalls k hhdm) v =
      (initEntry k hhdm (alignDown v)).map fun e => ⟨alignDown v, e.1, e.2⟩ := by
  have ho := hk.ordered
  cases hlast : lastCall (initCalls k hhdm) v with
  | some c =>
    -- the call is the one for the page
    obtain ⟨haligned, hentry⟩ := (mem_initCalls ho).mp (mem_of_lastCall hlast)
    obtain ⟨hcanon, -⟩ := initEntry_valid hk haligned hentry
    have hsame := List.find?_some hlast
    have hpage := hv.page_eq hcanon (beq_iff_eq.mp hsame)
    have hvirt : alignDown v = c.virt := by
      rw [alignDown_eq]
      omega
    rw [hvirt, hentry]
    rfl
  | none =>
    cases hentry : initEntry k hhdm (alignDown v) with
    | none => rfl
    | some e =>
      -- there would be a call
      have hmem : (⟨alignDown v, e.1, e.2⟩ : MapCall) ∈ initCalls k hhdm :=
        (mem_initCalls ho).mpr ⟨alignDown_mod v, hentry⟩
      have hnone := List.find?_eq_none.mp hlast _ (List.mem_reverse.mpr hmem)
      rw [beq_iff_eq, alignDown_page] at hnone
      exact absurd rfl hnone

end Ranges

-- ---------------------------------------------------------------------------
-- The walk
-- ---------------------------------------------------------------------------

section Walk

variable {s : Machine} {root v : Nat} {calls : List MapCall} {c : MapCall}

/-- The walk to a page entered last by `c`. -/
theorem RightsInv.mapped (h : RightsInv calls root s) (hlast : lastCall calls v = some c)
    (hphys : PhysPage c.phys) (hmask : c.flags &&& pteAddrMask = 0) :
    vmmTranslate s root v = some c.phys ∧
      vmmRights s root v = some ⟨(Rights.ofFlags c.flags).writable, false,
        (Rights.ofFlags c.flags).noExecute⟩ := by
  constructor
  · rw [vmmTranslate, vmmWalk_eq_lookup, h.words, hlast, Option.map_some, Option.map_some,
      Option.map_some, pteGetAddr_or hphys hmask]
  · rw [vmmRights_eq h.inner, h.words, hlast, Option.map_some, Option.map_some,
      ofFlags_or hphys.aligned, hphys.and_nx]
    rfl

/-- A page without a call is not mapped and has no rights. -/
theorem RightsInv.unmapped (h : RightsInv calls root s) (hlast : lastCall calls v = none) :
    vmmTranslate s root v = none ∧ vmmRights s root v = none := by
  constructor
  · rw [vmmTranslate, vmmWalk_eq_lookup, h.words, hlast]
    rfl
  · rw [vmmRights_eq h.inner, h.words, hlast]
    rfl

variable {k : KernelImage} {hhdm p f : Nat}

/-- A page that `vmm_init` enters is mapped as entered. -/
theorem RightsInv.entered (h : RightsInv (initCalls k hhdm) root s) (hk : k.LaidOut hhdm)
    (hv : Canonical v) (hentry : initEntry k hhdm (alignDown v) = some (p, f)) :
    vmmTranslate s root v = some p ∧
      vmmRights s root v =
        some ⟨(Rights.ofFlags f).writable, false, (Rights.ofFlags f).noExecute⟩ := by
  obtain ⟨-, hphys, hmask, -⟩ := initEntry_valid hk (alignDown_mod v) hentry
  have hlast : lastCall (initCalls k hhdm) v = some ⟨alignDown v, p, f⟩ := by
    rw [lastCall_initCalls hk hv, hentry]
    rfl
  exact h.mapped hlast hphys hmask

/-- No other page is. -/
theorem RightsInv.notEntered (h : RightsInv (initCalls k hhdm) root s) (hk : k.LaidOut hhdm)
    (hv : Canonical v) (hentry : initEntry k hhdm (alignDown v) = none) :
    vmmTranslate s root v = none ∧ vmmRights s root v = none := by
  refine h.unmapped ?_
  rw [lastCall_initCalls hk hv, hentry]
  rfl

/-- If the data ends in the last page, its first page is not entered. -/
theorem initEntry_wrapped (hk : k.LaidOut hhdm) (hlate : 2 ^ 64 - 4096 < k.dataEnd) :
    initEntry k hhdm (alignDown k.dataStart) = none := by
  have ho := hk.ordered
  have hlt := hk.dataEnd_lt
  have hend : alignUp k.dataEnd = 0 := by
    rw [alignUp_eq]
    omega
  have himage : PageMeets (alignDown k.dataStart) k.textStart k.dataEnd := by
    obtain ⟨htext, htextGap, hrodata, hrodataGap, hdata, -⟩ := hk
    exact ⟨k.dataStart, by omega, hdata, (alignDown_page _).symm⟩
  obtain ⟨hlow, hdirect⟩ := hk.outside himage
  rw [initEntry_outside ho (.inr ⟨ho.rodataGap, by omega⟩), if_neg hlow, if_neg hdirect]

/--
**The address space from the calls.** With the tables that stand for the calls
of `vmm_init`, each part of what is meant comes from the entry of its range;
that nothing else is mapped comes from the list of the five ranges.
-/
theorem RightsInv.addressSpace (h : RightsInv (initCalls k hhdm) root s) (hk : k.LaidOut hhdm)
    (hend : k.dataEnd ≤ 2 ^ 64 - 4096) : AddressSpace k hhdm s root := by
  have ho := hk.ordered
  obtain ⟨htext, htextGap, hrodata, hrodataGap, hdata, -⟩ := id hk
  -- the pages that meet a section are those of its loop
  have hin : ∀ {v a b : Nat}, PageMeets v a b → b ≤ 2 ^ 64 - 4096 → InSection a b (alignDown v) :=
    fun hmeets hb => (pageMeets_alignDown.mpr hmeets).inSection hb
  constructor
  case text =>
    intro v hv
    have hcanon := hk.canonical (hv.wider (Nat.le_refl _) (by omega))
    exact h.entered hk hcanon (initEntry_text (hin hv (by omega)))
  case rodata =>
    intro v hv
    have hcanon := hk.canonical (hv.wider (by omega) (by omega))
    exact h.entered hk hcanon (initEntry_rodata ho (hin hv (by omega)))
  case data =>
    intro v hv
    have hcanon := hk.canonical (hv.wider (by omega) (Nat.le_refl _))
    exact h.entered hk hcanon (initEntry_data ho (hin hv hend))
  case low =>
    -- no section begins below 4 GiB
    intro v hv
    have hpage : alignDown v < 2 ^ 32 := by
      rw [alignDown_eq]
      omega
    exact h.entered hk (.inl (by omega)) (initEntry_low ho hpage)
  case direct =>
    -- the offset is page-aligned
    intro v hv
    have haligned := hk.aligned
    have hpage : alignDown v < 2 ^ 32 := by
      rw [alignDown_eq]
      omega
    have hentry := initEntry_direct ho hpage
    rw [show hhdm + alignDown v = alignDown (hhdm + v) by rw [alignDown_eq, alignDown_eq]; omega]
      at hentry
    exact h.entered hk (hk.directCanonical v hv) hentry
  case only =>
    -- what is mapped has been entered, in one of the five ranges
    intro v hv hmapped
    have haligned := hk.aligned
    obtain ⟨e, hentry⟩ := Option.ne_none_iff_exists'.mp fun hnone =>
      hmapped (h.notEntered hk hv hnone).1
    have hpage := alignDown_eq v
    have hlt := hk.dataEnd_lt
    rcases initEntry_cases hentry with ⟨hv, -⟩ | ⟨hv, -⟩ | ⟨hv, -⟩ | ⟨hv, -⟩ | ⟨hv, -⟩
    · exact .inl (pageMeets_alignDown.mp (hv.meets htext (by omega)))
    · exact .inr (.inl (pageMeets_alignDown.mp (hv.meets hrodata (by omega))))
    · exact .inr (.inr (.inl (pageMeets_alignDown.mp (hv.meets hdata hlt))))
    · exact .inr (.inr (.inr (.inl (by omega))))
    · exact .inr (.inr (.inr (.inr (by omega))))
  case writeXorExecute =>
    intro v hv r hr
    have hcanon := hk.canonical hv
    obtain ⟨hlow, hdirect⟩ := hk.outside (pageMeets_alignDown.mpr hv)
    cases hentry : initEntry k hhdm (alignDown v) with
    | none =>
      rw [(h.notEntered hk hcanon hentry).2] at hr
      contradiction
    | some e =>
      rw [(h.entered hk hcanon hentry).2] at hr
      obtain rfl := Option.some.inj hr
      exact initEntry_writeXorExecute hentry hlow hdirect

/-- Where the data ends in the last page, `ALIGN_UP` gives 0 and none of its
pages is mapped. -/
theorem RightsInv.addressSpace_iff (h : RightsInv (initCalls k hhdm) root s)
    (hk : k.LaidOut hhdm) : AddressSpace k hhdm s root ↔ k.dataEnd ≤ 2 ^ 64 - 4096 := by
  refine ⟨?_, h.addressSpace hk⟩
  intro hspace
  by_contra hlate
  obtain ⟨htext, htextGap, hrodata, hrodataGap, hdata, -⟩ := id hk
  have hmeets : PageMeets k.dataStart k.dataStart k.dataEnd := ⟨_, Nat.le_refl _, hdata, rfl⟩
  have himage : PageMeets k.dataStart k.textStart k.dataEnd :=
    hmeets.wider (by omega) (Nat.le_refl _)
  have hcanon := hk.canonical himage
  -- the first page of the data is not mapped
  have hmapped := (hspace.data k.dataStart hmeets).1
  rw [(h.notEntered hk hcanon (initEntry_wrapped hk (by omega))).1] at hmapped
  contradiction

end Walk

-- ---------------------------------------------------------------------------
-- `vmm_init`
-- ---------------------------------------------------------------------------

/--
**`vmm_init` returns**, and its tables stand for its calls: it starts with an
empty table in a page of its own, and from there on the run lemma of `vmm_map`
applies.
-/
theorem InitServed.run {s : Machine} {k : KernelImage} (hserved : InitServed s k)
    (hready : PmmReady s) (hk : k.LaidOut s.hhdmOffset) :
    ∃ pm s', vmmInit s k = some (pm, s') ∧
      RightsInv (initCalls k s.hhdmOffset) (s'.physical pm) s' := by
  obtain ⟨p, s₁, halloc, hp, hcalls⟩ := hserved
  obtain ⟨-, hpage, -⟩ := hready.alloc halloc hp
  obtain ⟨-, hstart⟩ := hready.start halloc hp
  have hglob := sameGlobals_memset s₁ (s₁.higherHalf p) 0 pageSize
  rw [vmmInit_eq halloc]
  generalize memset s₁ (s₁.higherHalf p) 0 pageSize = s₂ at hcalls hstart hglob ⊢
  rw [← hglob.higherHalf p] at hcalls ⊢
  -- from the cleared top-level table on, every call keeps the tree and its rights
  obtain ⟨s', hrun, hlayout, hinv⟩ := hstart.run (initCalls_flagged hk) hcalls
  have hlt := hpage.lt
  have hroot : s'.physical (s₂.higherHalf p) = p := by
    rw [← hlayout.higherHalf, physical_higherHalf s' (by omega)]
  refine ⟨s₂.higherHalf p, s', ?_, ?_⟩
  · rw [hrun, Option.bind_some]
  · rw [hroot]
    exact hinv.toRightsInv

/-- **When the kernel has the address space that is meant.** With the
allocator in order, the sections laid out a page apart and the ranges apart
from each other, and no failing `pmm_alloc`: `vmm_init` returns, and the page
map is as meant if and only if the data does not end in the last page of the
address space. -/
theorem vmm_init_address_space_iff {s : Machine} {k : KernelImage} (hready : PmmReady s)
    (hk : k.LaidOut s.hhdmOffset) (hserved : InitServed s k) :
    ∃ pm s', vmmInit s k = some (pm, s') ∧
      (AddressSpace k s.hhdmOffset s' (s'.physical pm) ↔ k.dataEnd ≤ 2 ^ 64 - 4096) := by
  obtain ⟨pm, s', hrun, hinv⟩ := hserved.run hready hk
  exact ⟨pm, s', hrun, hinv.addressSpace_iff hk⟩

-- ---------------------------------------------------------------------------
-- After `pmm_init`
-- ---------------------------------------------------------------------------

section Boot

variable {mm : Memmap} {i : Nat} {d : LimineMemmapEntry}

/--
**What `pmm_init` leaves suits the page tables.** The cursor is at the front,
there are at most 2^40 pages, and no page that is free holds a byte of the
bitmap, since the bitmap's pages were cut off the entry that they come from.
-/
theorem InitSpec.ready {mem : Memory} {hhdm : Nat} {s : Machine}
    (hspec : InitSpec mm d (Machine.boot mem hhdm) s) (hd : FirstLargest mm.entries i d)
    (hfit : mm.bitmapSize ≤ d.length) (hcover : mm.pageCount ≤ 8 * mm.bitmapSize)
    (hsmall : mm.pageCount ≤ 2 ^ 40) : PmmReady s := by
  have hmem := FirstLargest.mem hd
  have hrange := mm.inRange d hmem hd.usable
  have halign := mm.aligned d hmem hd.usable
  have hsize : mm.bitmapSize % 4096 = 0 := Nat.mul_mod_left _ _
  refine ⟨?_, ?_, ?_⟩
  · rw [hspec.lastPage]
    exact Nat.zero_le _
  · rw [hspec.pageCount]
    exact hsmall
  · -- the pages cleared are not those of the bitmap
    intro page hpage hfree bit hbit
    rw [hspec.pageCount] at hpage hbit
    obtain ⟨-, hcut⟩ := (hspec.free page (by omega)).mp hfree
    rw [hspec.byte, u64_of_lt (by omega)]
    omega

/-- **From boot to the kernel's address space.** On such a memory map
`pmm_init` returns, and `vmm_init` after it makes the address space that is
meant, if no `pmm_alloc` fails and the data does not end in the last page. -/
theorem boot_address_space (hd : FirstLargest mm.entries i d) (hfit : mm.bitmapSize ≤ d.length)
    (hcover : mm.pageCount ≤ 8 * mm.bitmapSize) (hsmall : mm.pageCount ≤ 2 ^ 40) (mem : Memory)
    {hhdm : Nat} {k : KernelImage} (hk : k.LaidOut hhdm) (hend : k.dataEnd ≤ 2 ^ 64 - 4096) :
    ∃ s entries, pmmInit (Machine.boot mem hhdm) mm.entries = some (s, entries) ∧
      (InitServed s k → ∃ pm s', vmmInit s k = some (pm, s') ∧
        AddressSpace k hhdm s' (s'.physical pm)) := by
  obtain ⟨s, entries, hrun, hspec⟩ := pmmInit_spec hd hfit (Machine.boot mem hhdm)
  refine ⟨s, entries, hrun, ?_⟩
  intro hserved
  have hready := hspec.ready hd hfit hcover hsmall
  have hhdm : s.hhdmOffset = hhdm := hspec.hhdm
  rw [← hhdm] at hk ⊢
  obtain ⟨pm, s', hinit, hinv⟩ := hserved.run hready hk
  exact ⟨pm, s', hinit, hinv.addressSpace hk hend⟩

end Boot

-- ---------------------------------------------------------------------------
-- A machine with enough pages
-- ---------------------------------------------------------------------------

/-- How many calls `vmm_init` makes: one for each page of a section, two for
each page of the first 4 GiB. -/
theorem length_initCalls (k : KernelImage) (hhdm : Nat) :
    (initCalls k hhdm).length =
      (alignUp k.textEnd - alignDown k.textStart) / 4096 +
        (alignUp k.rodataEnd - alignDown k.rodataStart) / 4096 +
        (alignUp k.dataEnd - alignDown k.dataStart) / 4096 + 2 ^ 21 := by
  have hpages : ∀ start stop, (pagesFrom start stop).length = (stop - start) / 4096 :=
    fun _ _ => List.length_range'
  have hdirect : (directCalls hhdm).length = 2 ^ 21 := by
    unfold directCalls
    rw [List.length_flatMap]
    simp only [directPair, List.length_cons, List.length_nil, List.map_const',
      List.sum_replicate_nat, hpages]
    decide
  unfold initCalls sectionCalls
  rw [List.length_append, List.length_append, List.length_append, List.length_map,
    List.length_map, List.length_map, hpages, hpages, hpages, hdirect]

/--
**Three pages for every call are enough**, and one for the top-level table.
-/
theorem Roomy.initServed {s : Machine} {k : KernelImage} (hready : PmmReady s)
    (hk : k.LaidOut s.hhdmOffset)
    (hroomy : Roomy s (3 * (initCalls k s.hhdmOffset).length + 1)) : InitServed s k := by
  have hroom := hroomy.room
  have hcursor := hroomy.bitmap 0 (by omega)
  obtain ⟨halloc, hroomy₁⟩ := hroomy.alloc (Nat.le_refl 1)
  have hcursor₁ := setLastPage_lastPage (setPages s s.pmmLastPage 1) (s.pmmLastPage + 1)
  generalize (setPages s s.pmmLastPage 1).setLastPage (s.pmmLastPage + 1) = s₁
    at halloc hroomy₁ hcursor₁
  have hp : 4096 * s.pmmLastPage ≠ 0 := by omega
  generalize hroot : 4096 * s.pmmLastPage = p at halloc hp
  have hlayout := (pmmAlloc_cases halloc).1
  obtain ⟨-, hpage, -, hoff, -⟩ := hready.alloc halloc hp
  obtain ⟨-, hstart⟩ := hready.start halloc hp
  obtain ⟨hglob, hzero, hbyte⟩ := clearPage hpage (hlayout.offBitmap.mpr hoff)
  refine ⟨p, s₁, halloc, hp, ?_⟩
  generalize memset s₁ (s₁.higherHalf p) 0 pageSize = s₂ at hstart hglob hzero hbyte ⊢
  rw [← hglob.higherHalf p]
  have hsupplied : Supplied s₂ p (3 * (initCalls k s.hhdmOffset).length) := by
    refine ⟨hroomy₁.congr hglob hbyte, ?_, ?_⟩
    · rw [hglob.pageCount, hlayout.pageCount]
      exact hready.small
    · -- the only table is the new one
      intro t ht
      rw [tableAt_zeroed hzero ht, hglob.lastPage, hcursor₁]
      omega
  exact hsupplied.served hstart.toTreeInv (initCalls_flagged hk)

/-- 64 GiB: the bitmap in the first 2 MiB, which are in use like the last
page, the cursor at page 520. -/
def largeMachine : Machine :=
  { mem := fun x => if x < 65 then 0xff else if x = 2 ^ 21 - 1 then 0x80 else 0
    hhdmOffset := usualHhdm, pmmBitmap := usualHhdm,
    pmmLastPage := 520, pmmPageCount := 2 ^ 24, pageCount_lt := by decide }

/-- Where the bitmap of the example lies. -/
theorem largeMachine_byte {bit : Nat} (h : bit < 2 ^ 24) :
    bitmapByte largeMachine bit = bit / 8 := by
  show u64 (usualHhdm + bit / 8 + (2 ^ 64 - usualHhdm % 2 ^ 64)) = bit / 8
  unfold u64 usualHhdm
  omega

/-- The first 520 pages are in use, up to the last eight pages the others are
not. -/
theorem largeMachine_used {page : Nat} (h : page < 2 ^ 24 - 8) :
    largeMachine.used page = decide (page < 520) := by
  have hbits : ∀ i : Fin 8, (0xff : BitVec 8).getLsbD i = true := by decide
  rw [used_eq, largeMachine_byte (by omega)]
  show (if page / 8 < 65 then (0xff : BitVec 8)
    else if page / 8 = 2 ^ 21 - 1 then 0x80 else 0).getLsbD (page % 8) = _
  by_cases hlow : page < 520
  · rw [if_pos (by omega), decide_eq_true hlow]
    exact hbits ⟨page % 8, by omega⟩
  · rw [if_neg (by omega), if_neg (by omega), decide_eq_false hlow]
    exact BitVec.getLsbD_zero

/-- The example has 2^23 free pages side by side behind the cursor, -/
theorem largeMachine_roomy : Roomy largeMachine (2 ^ 23) := by
  have hbitmap : ∀ bit, bit < 2 ^ 24 → bitmapByte largeMachine bit / 4096 < 520 := by
    intro bit hbit
    rw [largeMachine_byte hbit]
    omega
  refine ⟨by decide, ?_, ?_, ?_, hbitmap⟩
  · intro i hi
    show largeMachine.used (520 + i) = false
    rw [largeMachine_used (by omega), decide_eq_false (by omega)]
  · rw [not_free, largeMachine_used (by decide)]
    decide
  · rw [not_free]
    decide

/-- and is in order. -/
theorem largeMachine_ready : PmmReady largeMachine := by
  refine ⟨by decide, by decide, fun page hpage hfree bit hbit => ?_⟩
  change bit < 2 ^ 24 at hbit
  change page < 2 ^ 24 at hpage
  have hhigh : 520 ≤ page := by
    by_contra hlow
    rw [Machine.free, largeMachine_used (by omega), decide_eq_true (by omega)] at hfree
    contradiction
  rw [largeMachine_byte hbit]
  omega

/-- A kernel at the usual place, with two pages of text and read-only data, and
data up to an address. -/
def imageTo (dataEnd : Nat) : KernelImage where
  textStart := 0xffffffff80000000
  textEnd := 0xffffffff80000800
  rodataStart := 0xffffffff80001800
  rodataEnd := 0xffffffff80002000
  dataStart := 0xffffffff80003000
  dataEnd := dataEnd
  virtualBase := 0xffffffff80000000
  physicalBase := 0x100000

/-- Its kernel image keeps to the linker script, wherever the data ends: the
sections are a page apart, in the upper half, and apart from the two maps of
memory, -/
theorem imageTo_laidOut {dataEnd : Nat} (hdata : 0xffffffff80003000 < dataEnd)
    (hlt : dataEnd < 2 ^ 64) : (imageTo dataEnd).LaidOut largeMachine.hhdmOffset := by
  have himage : ∀ v, (imageTo dataEnd).textStart ≤ v → v < (imageTo dataEnd).dataEnd →
      0xffffffff80000000 ≤ v ∧ v < 2 ^ 64 := fun v hlo hhi => ⟨hlo, Nat.lt_trans hhi hlt⟩
  have hgaps : 0xffffffff80000800 + 0x1000 ≤ 0xffffffff80001800 ∧
      0xffffffff80002000 + 0x1000 ≤ 0xffffffff80003000 := by decide
  refine ⟨Nat.lt_add_of_pos_right (by decide : 0 < 0x800), hgaps.1,
    Nat.lt_add_of_pos_right (by decide : 0 < 0x800), hgaps.2, hdata, hlt,
    Nat.mul_mod_left 0xffffffff80000 4096, Nat.mul_mod_left 0x100 4096,
    fun v hlo hhi => ?_, by decide, fun v hlo hhi => ?_, fun v hv => ?_,
    fun v ⟨⟨_, hlow⟩, hdirect, _⟩ => ?_, fun v ⟨⟨_, hlow⟩, hlo, hhi⟩ => ?_,
    fun v ⟨⟨_, hdirect⟩, hlo, hhi⟩ => ?_⟩
  · -- the image is canonical and below 2^52 in physical memory
    obtain ⟨hlo, hhi⟩ := himage v hlo hhi
    show u64 (v + (2 ^ 64 - 0xffffffff80000000 % 2 ^ 64) + 0x100000) < 2 ^ 52
    unfold u64
    omega
  · obtain ⟨hlo, hhi⟩ := himage v hlo hhi
    exact .inr ⟨by omega, hhi⟩
  · show Canonical (0xffff800000000000 + v)
    exact .inr ⟨by omega, by omega⟩
  · -- the three ranges are disjoint
    change 0xffff800000000000 ≤ v at hdirect
    omega
  · obtain ⟨hlo, hhi⟩ := himage v hlo hhi
    omega
  · obtain ⟨hlo, hhi⟩ := himage v hlo hhi
    change v < 0xffff800000000000 + 2 ^ 32 at hdirect
    omega

/-- and `vmm_init` finds all the pages it needs: three for each call at most,
and there are less than `2 ^ 22` calls. -/
theorem imageTo_served {dataEnd : Nat} (hdata : 0xffffffff80003000 < dataEnd)
    (hlt : dataEnd < 2 ^ 64)
    (hpages : (alignUp dataEnd - alignDown 0xffffffff80003000) / 4096 ≤ 2 ^ 19) :
    InitServed largeMachine (imageTo dataEnd) := by
  refine Roomy.initServed largeMachine_ready (imageTo_laidOut hdata hlt)
    (largeMachine_roomy.mono ?_)
  rw [length_initCalls]
  have htext : (alignUp 0xffffffff80000800 - alignDown 0xffffffff80000000) / 4096 = 1 := by decide
  have hrodata : (alignUp 0xffffffff80002000 - alignDown 0xffffffff80001800) / 4096 = 1 := by decide
  -- three pages for each of the calls, of which there are at most `2 + 2 ^ 19 + 2 ^ 21`
  show 3 * ((alignUp 0xffffffff80000800 - alignDown 0xffffffff80000000) / 4096 +
    (alignUp 0xffffffff80002000 - alignDown 0xffffffff80001800) / 4096 +
    (alignUp dataEnd - alignDown 0xffffffff80003000) / 4096 + 2 ^ 21) + 1 ≤ 2 ^ 23
  rw [htext, hrodata]
  omega

/-- A kernel with two pages of data has the address space that is meant. Its
last page is far below the end of the address space. -/
theorem vmm_init_address_space_iff_large :
    ∃ pm s', vmmInit largeMachine (imageTo 0xffffffff80005000) = some (pm, s') ∧
      AddressSpace (imageTo 0xffffffff80005000) largeMachine.hhdmOffset s' (s'.physical pm) := by
  have hlaid : (imageTo 0xffffffff80005000).LaidOut largeMachine.hhdmOffset :=
    imageTo_laidOut (by decide) (by decide)
  have hserved : InitServed largeMachine (imageTo 0xffffffff80005000) :=
    imageTo_served (by decide) (by decide) (by decide)
  obtain ⟨pm, s', hrun, hiff⟩ := vmm_init_address_space_iff largeMachine_ready hlaid hserved
  have hend : 0xffffffff80005000 ≤ 2 ^ 64 - 4096 := by decide
  exact ⟨pm, s', hrun, hiff.mpr hend⟩

/-- A kernel with data up to the last page has not: `ALIGN_UP` of
0xfffffffffffff800 wraps to 0, so the loop over the data has no round and
nothing of it is mapped. -/
theorem vmm_init_not_address_space :
    ¬ ∀ (s : Machine) (k : KernelImage), PmmReady s → k.LaidOut s.hhdmOffset → InitServed s k →
      ∃ pm s', vmmInit s k = some (pm, s') ∧
        AddressSpace k s.hhdmOffset s' (s'.physical pm) := by
  intro hall
  have hlaid : (imageTo 0xfffffffffffff800).LaidOut largeMachine.hhdmOffset :=
    imageTo_laidOut (by decide) (by decide)
  have hserved : InitServed largeMachine (imageTo 0xfffffffffffff800) :=
    imageTo_served (by decide) (by decide) (by decide)
  obtain ⟨pm, s', hrun, hspace⟩ := hall _ _ largeMachine_ready hlaid hserved
  obtain ⟨pm', s'', hrun', hinv⟩ := hserved.run largeMachine_ready hlaid
  obtain ⟨rfl, rfl⟩ := Prod.mk.inj (Option.some.inj (hrun.symm.trans hrun'))
  have hend : 0xfffffffffffff800 ≤ 2 ^ 64 - 4096 := (hinv.addressSpace_iff hlaid).mp hspace
  exact absurd hend (by decide)

end Medlar64
