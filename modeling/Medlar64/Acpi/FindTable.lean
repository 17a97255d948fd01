import Medlar64.Acpi.Acpi

/-!
# Medlar64 — which table `acpi_find_table` finds

The root table lists the other tables, an RSDT with 4-byte and an XSDT with
8-byte addresses. What is behind the last whole entry is not looked at.

The entries are looked at in order, and the first one that stops the scan decides
the result: either the table it lists has the signature, or it cannot be looked at
and the kernel halts there. `StopsAt` is this case distinction, `acpiScan_stops`
its proof over the recursion, and the clauses of `FindsFirst` are read off it.

The result theorem is `acpi_find_table_first`: the result and the reads of
`acpi_find_table` for every root table, that both formats agree, and that in the
direct map nothing halts.
-/

namespace Medlar64

-- ---------------------------------------------------------------------------
-- What a root table lists
-- ---------------------------------------------------------------------------

/-- The physical address in entry `i`, for entries of `width` bytes. -/
def listedTable (s : Machine) (root width i : Nat) : Nat :=
  s.load (root + sizeofSdt + width * i) width

/-- The physical addresses listed: as many as there are whole entries between the
header and the end that the length field names. -/
def listedTables (s : Machine) (root width : Nat) : List Nat :=
  (List.range ((s.load (root + 4) 4 - sizeofSdt) / width)).map (listedTable s root width)

/-- The width of an entry of the root table. -/
def Acpi.width (a : Acpi) : Nat := if a.useXsdt then 8 else 4

/-- The table at the physical address `p` has the signature. -/
def HasSignature (s : Machine) (signature : Nat → BitVec 8) (p : Nat) : Prop :=
  ∀ k < 4, s.read8 (s.higherHalf p + k) = signature k

instance (s : Machine) (signature : Nat → BitVec 8) (p : Nat) :
    Decidable (HasSignature s signature p) := inferInstanceAs (Decidable (∀ k < 4, _))

/-- The first of the addresses whose table has the signature. -/
def firstTable (s : Machine) (signature : Nat → BitVec 8) (ps : List Nat) : Option Nat :=
  ps.find? fun p => HasSignature s signature p

/-- The signature at `p` cannot be compared: the direct map has `NULL` there, or
the bytes agree up to the end of the address space. -/
def OutOfReach (s : Machine) (signature : Nat → BitVec 8) (p : Nat) : Prop :=
  s.higherHalf p = 0 ∨
    ∃ k < 4, 2 ^ 64 ≤ s.higherHalf p + k ∧ ∀ j < k, s.read8 (s.higherHalf p + j) = signature j

/-- The kernel halts at entry `i`: the entry lies behind the end of the address
space, or the table it lists is out of reach. -/
def HaltsAt (s : Machine) (root width : Nat) (signature : Nat → BitVec 8) (i : Nat) : Prop :=
  2 ^ 64 ≤ root + sizeofSdt + width * i ∨ OutOfReach s signature (listedTable s root width i)

/-- The length field of the root table cannot be read. -/
def NoRoot (root : Nat) : Prop := root = 0 ∨ 2 ^ 64 ≤ root + 4

/-- A root table that lies in the address space as a whole. -/
structure RootTable (s : Machine) (root : Nat) : Prop where
  nonnull : root ≠ 0
  header : sizeofSdt ≤ s.load (root + 4) 4
  inside : root + s.load (root + 4) 4 ≤ 2 ^ 64

/-- The direct map reaches the signature of the table at `p`. -/
def InDirectMap (s : Machine) (p : Nat) : Prop :=
  0 < s.hhdmOffset + p ∧ s.hhdmOffset + p + 4 ≤ 2 ^ 64

instance (s : Machine) (p : Nat) : Decidable (InDirectMap s p) :=
  inferInstanceAs (Decidable (_ ∧ _))

-- ---------------------------------------------------------------------------
-- One comparison
-- ---------------------------------------------------------------------------

section Comparison

variable {s : Machine} {signature : Nat → BitVec 8}

/-- The comparison from byte `i` on runs over the end of the address space if and
only if the bytes before the end agree. By recursion on the rounds left. -/
theorem memcmpFrom_none_iff (sdt : Nat) (n i : Nat) :
    memcmpFrom (s.readAt sdt) (fun k => some (signature k)) n i = none ↔
      ∃ k, i ≤ k ∧ k < i + n ∧ 2 ^ 64 ≤ sdt + k ∧
        ∀ j, i ≤ j → j < k → s.read8 (sdt + j) = signature j := by
  induction n generalizing i with
  | zero =>
    refine iff_of_false (by simp [memcmpFrom]) ?_
    rintro ⟨k, hle, hlt, -⟩
    omega
  | succ n ih =>
    by_cases hin : sdt + i < 2 ^ 64
    · have hread : s.readAt sdt i = some (s.read8 (sdt + i)) := if_pos hin
      by_cases hbyte : s.read8 (sdt + i) = signature i
      · -- the same byte: the next one decides
        have hnext : memcmpFrom (s.readAt sdt) (fun k => some (signature k)) (n + 1) i =
            memcmpFrom (s.readAt sdt) (fun k => some (signature k)) n (i + 1) := by
          simp [memcmpFrom, hread, hbyte]
        rw [hnext, ih (i + 1)]
        constructor
        · rintro ⟨k, hle, hlt, hend, hsame⟩
          refine ⟨k, by omega, by omega, hend, fun j hj hjk => ?_⟩
          rcases Nat.eq_or_lt_of_le hj with rfl | hj
          · exact hbyte
          · exact hsame j hj hjk
        · rintro ⟨k, hle, hlt, hend, hsame⟩
          have hne : k ≠ i := by
            rintro rfl
            omega
          exact ⟨k, by omega, by omega, hend, fun j hj hjk => hsame j (by omega) hjk⟩
      · -- another byte: the comparison ends here
        refine iff_of_false (by simp [memcmpFrom, hread, hbyte]) ?_
        rintro ⟨k, hle, -, hend, hsame⟩
        rcases Nat.eq_or_lt_of_le hle with rfl | hlt
        · omega
        · exact hbyte (hsame i (Nat.le_refl i) hlt)
    · have hread : s.readAt sdt i = none := if_neg hin
      exact iff_of_true (by simp [memcmpFrom, hread])
        ⟨i, Nat.le_refl i, by omega, by omega, fun j hj hjk => by omega⟩

/-- The comparison from byte `i` on finds no difference if and only if all bytes
are in the address space and agree. -/
theorem memcmpFrom_zero_iff (sdt : Nat) (n i : Nat) :
    memcmpFrom (s.readAt sdt) (fun k => some (signature k)) n i = some 0 ↔
      ∀ k, i ≤ k → k < i + n → sdt + k < 2 ^ 64 ∧ s.read8 (sdt + k) = signature k := by
  induction n generalizing i with
  | zero => exact iff_of_true rfl fun k hle hlt => by omega
  | succ n ih =>
    by_cases hin : sdt + i < 2 ^ 64
    · have hread : s.readAt sdt i = some (s.read8 (sdt + i)) := if_pos hin
      by_cases hbyte : s.read8 (sdt + i) = signature i
      · have hnext : memcmpFrom (s.readAt sdt) (fun k => some (signature k)) (n + 1) i =
            memcmpFrom (s.readAt sdt) (fun k => some (signature k)) n (i + 1) := by
          simp [memcmpFrom, hread, hbyte]
        rw [hnext, ih (i + 1)]
        constructor
        · intro hall k hle hlt
          rcases Nat.eq_or_lt_of_le hle with rfl | hle
          · exact ⟨hin, hbyte⟩
          · exact hall k hle (by omega)
        · intro hall k hle hlt
          exact hall k (by omega) (by omega)
      · refine iff_of_false ?_ fun hall => hbyte (hall i (Nat.le_refl i) (by omega)).2
        simp only [memcmpFrom, hread, Option.bind_eq_bind, Option.bind_some, ne_eq, hbyte,
          not_false_eq_true, if_true, Option.some.injEq]
        split_ifs <;> decide
    · have hread : s.readAt sdt i = none := if_neg hin
      exact iff_of_false (by simp [memcmpFrom, hread])
        fun hall => hin (hall i (Nat.le_refl i) (by omega)).1

/-- **One comparison** halts exactly on a table out of reach. -/
theorem hasSignature_none_iff (p : Nat) :
    hasSignature s signature (s.higherHalf p) = none ↔ OutOfReach s signature p := by
  unfold hasSignature OutOfReach
  by_cases hnull : s.higherHalf p = 0
  · simp [hnull]
  · rw [if_neg hnull, Option.map_eq_none_iff, memcmp, memcmpFrom_none_iff]
    simp only [hnull, false_or, Nat.zero_le, true_and, Nat.zero_add, forall_const]

/-- Within reach, it answers whether the table has the signature. `memcmp`
stops at the first byte that differs, so it only leaves the address space
behind bytes that all agree, and that is what out of reach means. -/
theorem hasSignature_of_reach {p : Nat} (h : ¬ OutOfReach s signature p) :
    hasSignature s signature (s.higherHalf p) = some (decide (HasSignature s signature p)) := by
  have hnull : s.higherHalf p ≠ 0 := fun hnull => h (.inl hnull)
  have hcmp : hasSignature s signature (s.higherHalf p) ≠ none :=
    fun hnone => h ((hasSignature_none_iff p).mp hnone)
  unfold hasSignature at hcmp ⊢
  rw [if_neg hnull] at hcmp ⊢
  obtain ⟨r, hr⟩ : ∃ r, memcmp (s.readAt (s.higherHalf p)) (fun k => some (signature k)) 4 =
      some r := Option.ne_none_iff_exists'.mp fun hnone => hcmp (by rw [hnone]; rfl)
  have hiff : r = 0 ↔ HasSignature s signature p := by
    have hzero := @memcmpFrom_zero_iff s signature (s.higherHalf p) 4 0
    rw [← memcmp, hr, Option.some.injEq] at hzero
    rw [hzero]
    constructor
    · intro hall k hk
      exact (hall k (Nat.zero_le k) (by omega)).2
    · intro hsig k _ hk
      refine ⟨?_, hsig k (by omega)⟩
      -- a byte beyond the end would put the table out of reach
      by_contra hend
      exact h (.inr ⟨k, by omega, by omega, fun j hj => hsig j (by omega)⟩)
  rw [hr, Option.map_some]
  exact congrArg some (decide_eq_decide.mpr hiff)

end Comparison

/-- What the direct map reaches can be compared. -/
theorem InDirectMap.reach {s : Machine} {p : Nat} (h : InDirectMap s p)
    (signature : Nat → BitVec 8) : ¬ OutOfReach s signature p := by
  obtain ⟨hpos, hle⟩ := h
  have hhalf : s.higherHalf p = s.hhdmOffset + p := by
    rw [Machine.higherHalf, u64_of_lt (by omega), Nat.add_comm]
  rintro (hnull | ⟨k, hk, hend, -⟩)
  · omega
  · omega

-- ---------------------------------------------------------------------------
-- The scan
-- ---------------------------------------------------------------------------

section Scan

variable {s : Machine} {root width : Nat} {signature : Nat → BitVec 8}

/-- Where the scan of `n` entries stops, and with which result. -/
inductive StopsAt (s : Machine) (root width : Nat) (signature : Nat → BitVec 8) (n : Nat) :
    Nat → Option Nat → Prop
  | halt {t : Nat} : t < n → HaltsAt s root width signature t →
      StopsAt s root width signature n t none
  | found {t : Nat} : t < n → ¬ HaltsAt s root width signature t →
      HasSignature s signature (listedTable s root width t) →
      StopsAt s root width signature n t (some (s.higherHalf (listedTable s root width t)))
  | missing : StopsAt s root width signature n n (some 0)

/-- The scan goes on behind entry `j`. -/
def Passes (s : Machine) (root width : Nat) (signature : Nat → BitVec 8) (j : Nat) : Prop :=
  ¬ HaltsAt s root width signature j ∧ ¬ HasSignature s signature (listedTable s root width j)

/-- An entry of the table, where its address does not wrap. -/
theorem rootEntry_of_lt {i : Nat} (h : root + sizeofSdt + width * i < 2 ^ 64) :
    rootEntry s root width i = some (listedTable s root width i) := if_pos h

/-- An entry at which the kernel halts ends the scan. -/
theorem acpiScan_halt {i : Nat} (h : HaltsAt s root width signature i) (n : Nat) :
    acpiScan s root width signature (n + 1) i = none := by
  unfold acpiScan
  by_cases hin : root + sizeofSdt + width * i < 2 ^ 64
  · have hreach : OutOfReach s signature (listedTable s root width i) :=
      h.resolve_left (Nat.not_le.mpr hin)
    simp [rootEntry_of_lt hin, (hasSignature_none_iff _).mpr hreach]
  · have hentry : rootEntry s root width i = none := if_neg hin
    simp [hentry]

/-- Any other entry is compared. -/
theorem acpiScan_compare {i : Nat} (h : ¬ HaltsAt s root width signature i) (n : Nat) :
    acpiScan s root width signature (n + 1) i =
      if HasSignature s signature (listedTable s root width i) then
        some (s.higherHalf (listedTable s root width i))
      else acpiScan s root width signature n (i + 1) := by
  have hin : root + sizeofSdt + width * i < 2 ^ 64 := by
    by_contra hin
    exact h (.inl (Nat.not_lt.mp hin))
  have hreach : ¬ OutOfReach s signature (listedTable s root width i) := fun hout => h (.inr hout)
  rw [acpiScan]
  simp [rootEntry_of_lt hin, hasSignature_of_reach hreach]

/-- **The scan** passes a number of entries and stops at the next. By induction on
the entries left. -/
theorem acpiScan_stops {n i m : Nat} (h : n + i = m) :
    ∃ t, i ≤ t ∧ (∀ j, i ≤ j → j < t → Passes s root width signature j) ∧
      StopsAt s root width signature m t (acpiScan s root width signature n i) := by
  induction n generalizing i with
  | zero =>
    obtain rfl : i = m := by omega
    exact ⟨i, Nat.le_refl i, fun j hle hlt => by omega, .missing⟩
  | succ n ih =>
    by_cases hhalt : HaltsAt s root width signature i
    · rw [acpiScan_halt hhalt]
      exact ⟨i, Nat.le_refl i, fun j hle hlt => by omega, .halt (by omega) hhalt⟩
    · rw [acpiScan_compare hhalt]
      by_cases hsig : HasSignature s signature (listedTable s root width i)
      · rw [if_pos hsig]
        exact ⟨i, Nat.le_refl i, fun j hle hlt => by omega, .found (by omega) hhalt hsig⟩
      · rw [if_neg hsig]
        obtain ⟨t, hle, hpass, hstop⟩ := @ih (i + 1) (by omega)
        refine ⟨t, by omega, fun j hj hjt => ?_, hstop⟩
        rcases Nat.eq_or_lt_of_le hj with rfl | hj
        · exact ⟨hhalt, hsig⟩
        · exact hpass j hj hjt

end Scan

-- ---------------------------------------------------------------------------
-- The loop
-- ---------------------------------------------------------------------------

/-- One round of the loop of `acpi_find_table`, at entry `i`. -/
def acpiBody (s : Machine) (a : Acpi) (signature : Nat → BitVec 8) (length i : Nat) :
    Nat ⊕ Option Nat :=
  if i < rootEntries length a.width then
    match rootEntry s a.rootSdt a.width i with
    | none => .inr none
    | some entry =>
      match hasSignature s signature (s.higherHalf entry) with
      | none => .inr none
      | some true => .inr (some (s.higherHalf entry))
      | some false => .inl (i + 1)
  else .inr (some 0)

/-- The loop comes to its head with entry `i` left, and reads it. -/
def Reads (s : Machine) (a : Acpi) (signature : Nat → BitVec 8) (i : Nat) : Prop :=
  ∃ length, rootLength s a.rootSdt = some length ∧ Visits (acpiBody s a signature length) 0 i ∧
    i < rootEntries length a.width ∧ rootEntry s a.rootSdt a.width i ≠ none

/-- For a length field that covers the header, the `u32` number of entries is
that of the whole entries. -/
theorem rootEntries_eq (s : Machine) {root : Nat} (width : Nat)
    (h : sizeofSdt ≤ s.load (root + 4) 4) :
    rootEntries (s.load (root + 4) 4) width = (s.load (root + 4) 4 - sizeofSdt) / width := by
  have hlt : s.load (root + 4) 4 < 2 ^ 32 := loadLE_lt s.mem _ 4
  have hdiff : u64 (s.load (root + 4) 4 + (2 ^ 64 - sizeofSdt)) =
      s.load (root + 4) 4 - sizeofSdt := by
    unfold u64 sizeofSdt at *
    omega
  rw [rootEntries, hdiff,
    Nat.mod_eq_of_lt (Nat.lt_of_le_of_lt (Nat.div_le_self _ _) (by omega))]

section Loop

variable {s : Machine} {a : Acpi} {signature : Nat → BitVec 8} {length : Nat}

/-- The loop from entry `i` on is the scan of the entries left. By induction on
their number. -/
theorem acpiBody_run {n i : Nat} (h : n + i = rootEntries length a.width) :
    whileRun (acpiBody s a signature length) (n + 1) i =
      some (acpiScan s a.rootSdt a.width signature n i) := by
  induction n generalizing i with
  | zero =>
    have hbody : acpiBody s a signature length i = .inr (some 0) := if_neg (by omega)
    exact whileRun_done hbody
  | succ n ih =>
    have hlt : i < rootEntries length a.width := by omega
    rw [acpiScan]
    cases hentry : rootEntry s a.rootSdt a.width i with
    | none =>
      rw [whileRun_done (b := none) (by simp only [acpiBody, if_pos hlt, hentry])]
      rfl
    | some entry =>
      cases hsig : hasSignature s signature (s.higherHalf entry) with
      | none =>
        rw [whileRun_done (b := none) (by simp only [acpiBody, if_pos hlt, hentry, hsig])]
        simp [hsig]
      | some found =>
        cases found with
        | true =>
          rw [whileRun_done (b := some (s.higherHalf entry))
            (by simp only [acpiBody, if_pos hlt, hentry, hsig])]
          simp [hsig]
        | false =>
          have hnext : acpiBody s a signature length i = .inl (i + 1) := by
            simp only [acpiBody, if_pos hlt, hentry, hsig]
          rw [whileRun_next hnext, ih (by omega)]
          simp [hsig]

/-- A round goes on exactly behind an entry that is passed: one whose address
does not wrap, whose table is in reach, and which has another signature. At any
other entry the loop ends, by a return or by a halt. -/
theorem acpiBody_next {i j : Nat} :
    acpiBody s a signature length i = .inl j ↔
      j = i + 1 ∧ i < rootEntries length a.width ∧ Passes s a.rootSdt a.width signature i := by
  unfold acpiBody
  by_cases hlt : i < rootEntries length a.width
  · rw [if_pos hlt]
    by_cases hin : a.rootSdt + sizeofSdt + a.width * i < 2 ^ 64
    · rw [rootEntry_of_lt hin]
      by_cases hreach : OutOfReach s signature (listedTable s a.rootSdt a.width i)
      · simp [(hasSignature_none_iff _).mpr hreach, Passes, HaltsAt, hreach]
      · have hgo : ¬ HaltsAt s a.rootSdt a.width signature i := by
          rintro (hend | hout)
          · omega
          · exact hreach hout
        by_cases hsig : HasSignature s signature (listedTable s a.rootSdt a.width i)
        · simp [hasSignature_of_reach hreach, hsig, Passes]
        · simp [hasSignature_of_reach hreach, hsig, Passes, hgo, hlt, eq_comm]
    · have hend : HaltsAt s a.rootSdt a.width signature i := .inl (Nat.not_lt.mp hin)
      have hentry : rootEntry s a.rootSdt a.width i = none := if_neg hin
      simp [hentry, Passes, hend]
  · simp [hlt]

/-- **The rounds.** The loop comes to entry `i` if and only if it passes all the
entries before. -/
theorem visits_iff (i : Nat) :
    Visits (acpiBody s a signature length) 0 i ↔
      i ≤ rootEntries length a.width ∧ ∀ j < i, Passes s a.rootSdt a.width signature j := by
  constructor
  · intro hvis
    refine @Visits.inv _ _ _ (fun i => i ≤ rootEntries length a.width ∧
      ∀ j < i, Passes s a.rootSdt a.width signature j) _ _ hvis
      ⟨Nat.zero_le _, fun j hj => by omega⟩ ?_
    rintro i j ⟨-, hpass⟩ hbody
    obtain ⟨rfl, hlt, hi⟩ := acpiBody_next.mp hbody
    refine ⟨hlt, ?_⟩
    intro k hk
    rcases Nat.eq_or_lt_of_le (Nat.le_of_lt_succ hk) with rfl | hk
    · exact hi
    · exact hpass k hk
  · rintro ⟨hle, hpass⟩
    -- on the index, one round at a time
    induction i with
    | zero => exact .refl
    | succ i ih =>
      have hvis := ih (by omega) fun j hj => hpass j (by omega)
      exact hvis.tail (acpiBody_next.mpr ⟨rfl, by omega, hpass i (Nat.lt_succ_self i)⟩)

end Loop

-- ---------------------------------------------------------------------------
-- The result
-- ---------------------------------------------------------------------------

/-- The two branches of `acpi_find_table` differ in the width only. -/
theorem acpiFindTable_eq_scan (s : Machine) (a : Acpi) (signature : Nat → BitVec 8) :
    acpiFindTable s a signature = (rootLength s a.rootSdt).bind fun length =>
      acpiScan s a.rootSdt a.width signature (rootEntries length a.width) 0 := by
  unfold acpiFindTable Acpi.width
  cases a.useXsdt with
  | false => simp only [Bool.not_false, if_true, Bool.false_eq_true, if_false, Option.bind_eq_bind]
  | true => simp only [Bool.not_true, Bool.false_eq_true, if_false, if_true, Option.bind_eq_bind]

/-- The length of the table cannot be read where there is no table. -/
theorem rootLength_none_iff (s : Machine) (root : Nat) :
    rootLength s root = none ↔ NoRoot root := by
  unfold rootLength NoRoot
  split_ifs with h
  · exact iff_of_true rfl h
  · exact iff_of_false nofun h

/-- Otherwise it is the word behind the signature. -/
theorem rootLength_of_root (s : Machine) {root : Nat} (h : ¬ NoRoot root) :
    rootLength s root = some (s.load (root + 4) 4) := if_neg h

/-- What `acpi_find_table` returns and reads, for a root table of `n` whole
entries. -/
structure FindsFirst (s : Machine) (a : Acpi) (signature : Nat → BitVec 8) (n : Nat) : Prop where
  /-- The address in the direct map of the first table with the signature, which
  is not `NULL`, where the kernel halts at no entry up to it. -/
  found : ∀ i < n, HasSignature s signature (listedTable s a.rootSdt a.width i) →
    ¬ NoRoot a.rootSdt → ¬ HaltsAt s a.rootSdt a.width signature i →
    (∀ j < i, Passes s a.rootSdt a.width signature j) →
    acpiFindTable s a signature = some (s.higherHalf (listedTable s a.rootSdt a.width i)) ∧
      s.higherHalf (listedTable s a.rootSdt a.width i) ≠ 0
  /-- `NULL` if and only if no entry stops the scan. -/
  null : acpiFindTable s a signature = some 0 ↔
    ¬ NoRoot a.rootSdt ∧ ∀ i < n, Passes s a.rootSdt a.width signature i
  /-- No return if and only if an entry halts and those before it are passed. -/
  halts : acpiFindTable s a signature = none ↔ NoRoot a.rootSdt ∨
    ∃ i < n, HaltsAt s a.rootSdt a.width signature i ∧
      ∀ j < i, Passes s a.rootSdt a.width signature j
  /-- The entries are read in order, up to the one that stops the scan. -/
  reads : ∀ i, Reads s a signature i ↔ ¬ NoRoot a.rootSdt ∧ i < n ∧
    a.rootSdt + sizeofSdt + a.width * i < 2 ^ 64 ∧
    ∀ j < i, Passes s a.rootSdt a.width signature j
  /-- The loop ends with this result. -/
  returns : ∀ length, rootLength s a.rootSdt = some length → ∃ fuel,
    whileRun (acpiBody s a signature length) fuel 0 = some (acpiFindTable s a signature)

section Result

variable {s : Machine} {a : Acpi} {signature : Nat → BitVec 8}

/-- The result for a root whose length can be read is that of the scan. -/
theorem acpiFindTable_of_root (hroot : ¬ NoRoot a.rootSdt)
    (h : sizeofSdt ≤ s.load (a.rootSdt + 4) 4) :
    acpiFindTable s a signature = acpiScan s a.rootSdt a.width signature
      ((s.load (a.rootSdt + 4) 4 - sizeofSdt) / a.width) 0 := by
  rw [acpiFindTable_eq_scan, rootLength_of_root s hroot, Option.bind_some,
    rootEntries_eq s a.width h]

/-- The entry at which the scan stops is the only one that can: those before it
are passed and it is not. -/
theorem StopsAt.unique {root width n t i : Nat} {r : Option Nat}
    (hstop : StopsAt s root width signature n t r)
    (hpass : ∀ j < t, Passes s root width signature j) (hi : i < n)
    (hnot : ¬ Passes s root width signature i)
    (hbefore : ∀ j < i, Passes s root width signature j) : t = i := by
  rcases Nat.lt_trichotomy t i with hlt | heq | hlt
  · -- an entry before `i` does not stop the scan
    obtain ⟨hgo, hmiss⟩ := hbefore t hlt
    cases hstop with
    | halt _ hhalt => exact absurd hhalt hgo
    | found _ _ hsig => exact absurd hsig hmiss
    | missing => omega
  · exact heq
  · exact absurd (hpass i hlt) hnot

/-- A scan that does not stop at `n` stops at an entry that is not passed. -/
theorem StopsAt.missing_of_passes {root width n t : Nat} {r : Option Nat}
    (hstop : StopsAt s root width signature n t r)
    (hall : ∀ i < n, Passes s root width signature i) : r = some 0 := by
  cases hstop with
  | halt hlt hhalt => exact absurd hhalt (hall _ hlt).1
  | found hlt _ hsig => exact absurd hsig (hall _ hlt).2
  | missing => rfl

/-- The scan of all entries stops at an entry, and those before it are passed. -/
theorem acpiFindTable_stops (hroot : ¬ NoRoot a.rootSdt)
    (h : sizeofSdt ≤ s.load (a.rootSdt + 4) 4) :
    ∃ t, (∀ j < t, Passes s a.rootSdt a.width signature j) ∧
      StopsAt s a.rootSdt a.width signature ((s.load (a.rootSdt + 4) 4 - sizeofSdt) / a.width) t
        (acpiFindTable s a signature) := by
  obtain ⟨t, -, hpass, hstop⟩ := @acpiScan_stops s a.rootSdt a.width signature
    ((s.load (a.rootSdt + 4) 4 - sizeofSdt) / a.width) 0 _ rfl
  rw [acpiFindTable_of_root hroot h]
  exact ⟨t, fun j hj => hpass j (Nat.zero_le j) hj, hstop⟩

theorem acpiFindTable_noRoot (hroot : NoRoot a.rootSdt) : acpiFindTable s a signature = none := by
  rw [acpiFindTable_eq_scan, (rootLength_none_iff s a.rootSdt).mpr hroot, Option.bind_none]

/-- The scan finds the first table with the signature. -/
theorem acpiFindTable_found (hroot : ¬ NoRoot a.rootSdt)
    (h : sizeofSdt ≤ s.load (a.rootSdt + 4) 4) {i : Nat}
    (hi : i < (s.load (a.rootSdt + 4) 4 - sizeofSdt) / a.width)
    (hsig : HasSignature s signature (listedTable s a.rootSdt a.width i))
    (hgo : ¬ HaltsAt s a.rootSdt a.width signature i)
    (hbefore : ∀ j < i, Passes s a.rootSdt a.width signature j) :
    acpiFindTable s a signature = some (s.higherHalf (listedTable s a.rootSdt a.width i)) := by
  obtain ⟨t, hpass, hstop⟩ := @acpiFindTable_stops s a signature hroot h
  obtain rfl := hstop.unique hpass hi (fun hp => hp.2 hsig) hbefore
  generalize acpiFindTable s a signature = r at hstop
  cases hstop with
  | halt _ hhalt => exact absurd hhalt hgo
  | found => rfl
  | missing => exact absurd hi (Nat.lt_irrefl _)

/-- `NULL` is the result exactly if every entry is passed. -/
theorem acpiFindTable_null_iff (h : sizeofSdt ≤ s.load (a.rootSdt + 4) 4) :
    acpiFindTable s a signature = some 0 ↔ ¬ NoRoot a.rootSdt ∧
      ∀ i < (s.load (a.rootSdt + 4) 4 - sizeofSdt) / a.width,
        Passes s a.rootSdt a.width signature i := by
  by_cases hroot : NoRoot a.rootSdt
  · simp [acpiFindTable_noRoot hroot, hroot]
  · obtain ⟨t, hpass, hstop⟩ := @acpiFindTable_stops s a signature hroot h
    refine ⟨fun hzero => ⟨hroot, ?_⟩, fun hall => hstop.missing_of_passes hall.2⟩
    generalize acpiFindTable s a signature = r at hstop hzero
    cases hstop with
    | halt => cases hzero
    | found _ hgo _ =>
      -- a table that is found does not lie at `NULL`
      exact absurd (.inr (.inl (Option.some.inj hzero))) hgo
    | missing => exact hpass

/-- The kernel halts exactly if an entry behind passed ones makes it. The entry
at which the scan stops is unique, so whatever makes the kernel halt there is
the reason for it. -/
theorem acpiFindTable_none_iff (h : sizeofSdt ≤ s.load (a.rootSdt + 4) 4) :
    acpiFindTable s a signature = none ↔ NoRoot a.rootSdt ∨
      ∃ i < (s.load (a.rootSdt + 4) 4 - sizeofSdt) / a.width,
        HaltsAt s a.rootSdt a.width signature i ∧
          ∀ j < i, Passes s a.rootSdt a.width signature j := by
  by_cases hroot : NoRoot a.rootSdt
  · exact iff_of_true (acpiFindTable_noRoot hroot) (.inl hroot)
  · obtain ⟨t, hpass, hstop⟩ := @acpiFindTable_stops s a signature hroot h
    generalize acpiFindTable s a signature = r at hstop
    constructor
    · intro hnone
      cases hstop with
      | halt hlt hhalt => exact .inr ⟨t, hlt, hhalt, hpass⟩
      | found => cases hnone
      | missing => cases hnone
    · rintro (hno | ⟨i, hi, hhalt, hbefore⟩)
      · exact absurd hno hroot
      · obtain rfl := hstop.unique hpass hi (fun hp => hp.1 hhalt) hbefore
        cases hstop with
        | halt => rfl
        | found _ hgo _ => exact absurd hhalt hgo
        | missing => exact absurd hi (Nat.lt_irrefl _)

/-- The entries read are those that the scan comes to: the ones behind passed
entries, as long as their address does not wrap. The reads themselves do not
depend on what `memcmp` answers for the last one. -/
theorem reads_iff (h : sizeofSdt ≤ s.load (a.rootSdt + 4) 4) (i : Nat) :
    Reads s a signature i ↔ ¬ NoRoot a.rootSdt ∧
      i < (s.load (a.rootSdt + 4) 4 - sizeofSdt) / a.width ∧
      a.rootSdt + sizeofSdt + a.width * i < 2 ^ 64 ∧
      ∀ j < i, Passes s a.rootSdt a.width signature j := by
  unfold Reads
  have hread : rootEntry s a.rootSdt a.width i ≠ none ↔
      a.rootSdt + sizeofSdt + a.width * i < 2 ^ 64 := by
    unfold rootEntry
    split_ifs with hin
    · exact iff_of_true nofun hin
    · exact iff_of_false (fun hne => hne rfl) hin
  by_cases hroot : NoRoot a.rootSdt
  · simp [(rootLength_none_iff s a.rootSdt).mpr hroot, hroot]
  · rw [rootLength_of_root s hroot, ← rootEntries_eq s a.width h, hread]
    constructor
    · rintro ⟨length, hlen, hvis, hlt, hin⟩
      obtain rfl := Option.some.inj hlen
      exact ⟨hroot, hlt, hin, ((visits_iff i).mp hvis).2⟩
    · rintro ⟨-, hlt, hin, hbefore⟩
      exact ⟨_, rfl, (visits_iff i).mpr ⟨Nat.le_of_lt hlt, hbefore⟩, hlt, hin⟩

/-- **The clauses of `FindsFirst`** hold for every root table. -/
theorem findsFirst (h : sizeofSdt ≤ s.load (a.rootSdt + 4) 4) :
    FindsFirst s a signature ((s.load (a.rootSdt + 4) 4 - sizeofSdt) / a.width) where
  found i hi hsig hroot hgo hbefore :=
    ⟨acpiFindTable_found hroot h hi hsig hgo hbefore, fun hnull => hgo (.inr (.inl hnull))⟩
  null := acpiFindTable_null_iff h
  halts := acpiFindTable_none_iff h
  reads := reads_iff h
  returns length hlen := by
    refine ⟨rootEntries length a.width + 1, ?_⟩
    rw [acpiBody_run (Nat.add_zero _), acpiFindTable_eq_scan, hlen, Option.bind_some]

/-- The entries of a root table lie in the address space. -/
theorem RootTable.entry_lt {root : Nat} (h : RootTable s root) {width i : Nat}
    (hi : i < (s.load (root + 4) 4 - sizeofSdt) / width) :
    root + sizeofSdt + width * i < 2 ^ 64 := by
  have hpos : 0 < width := by
    by_contra hzero
    obtain rfl : width = 0 := by omega
    simp at hi
  have hmul : width * (i + 1) ≤ s.load (root + 4) 4 - sizeofSdt :=
    Nat.le_trans (Nat.mul_le_mul_left width hi) (Nat.mul_div_le _ width)
  have hheader := h.header
  have hinside := h.inside
  rw [Nat.mul_succ] at hmul
  omega

/-- A root table is one whose length can be read. -/
theorem RootTable.root {root : Nat} (h : RootTable s root) : ¬ NoRoot root := by
  have hheader := h.header
  have hinside := h.inside
  unfold sizeofSdt at hheader
  rintro (hzero | hend)
  · exact h.nonnull hzero
  · omega

end Result

-- ---------------------------------------------------------------------------
-- The addresses listed decide the result
-- ---------------------------------------------------------------------------

/-- The scan of a list of addresses, by the first of them that stops it. -/
def scanListed (s : Machine) (signature : Nat → BitVec 8) : List Nat → Option Nat
  | [] => some 0
  | p :: ps =>
    match hasSignature s signature (s.higherHalf p) with
    | none => none
    | some true => some (s.higherHalf p)
    | some false => scanListed s signature ps

section Listed

variable {s : Machine} {root width : Nat} {signature : Nat → BitVec 8}

/-- A scan whose entries lie in the address space is that of the addresses. By
induction on the entries left. -/
theorem acpiScan_eq_listed {n i : Nat}
    (h : ∀ j, i ≤ j → j < i + n → root + sizeofSdt + width * j < 2 ^ 64) :
    acpiScan s root width signature n i =
      scanListed s signature ((List.range' i n).map (listedTable s root width)) := by
  induction n generalizing i with
  | zero => rfl
  | succ n ih =>
    have hentry := @rootEntry_of_lt s root width i (h i (Nat.le_refl i) (by omega))
    rw [List.range'_succ, List.map_cons, acpiScan, scanListed, hentry,
      ← @ih (i + 1) fun j hle hlt => h j (by omega) (by omega)]
    cases hsig : hasSignature s signature (s.higherHalf (listedTable s root width i)) with
    | none => simp [hsig]
    | some found => cases found <;> simp [hsig]

/-- **The result for a root table in the address space** is that of the scan of the
addresses it lists. -/
theorem acpiFindTable_eq_listed {a : Acpi} (h : RootTable s a.rootSdt) :
    acpiFindTable s a signature = scanListed s signature (listedTables s a.rootSdt a.width) := by
  rw [acpiFindTable_of_root h.root h.header, acpiScan_eq_listed, listedTables,
    List.range_eq_range']
  exact fun j _ hj => h.entry_lt (by omega)

/-- In the direct map the scan of a list returns its first table with the
signature. -/
theorem scanListed_inDirectMap {ps : List Nat} (h : ∀ p ∈ ps, InDirectMap s p) :
    scanListed s signature ps = some (((firstTable s signature ps).map s.higherHalf).getD 0) := by
  induction ps with
  | nil => rfl
  | cons p ps ih =>
    have hreach := (h p List.mem_cons_self).reach signature
    rw [scanListed, hasSignature_of_reach hreach, firstTable, List.find?_cons]
    by_cases hsig : HasSignature s signature p
    · simp [hsig]
    · simpa [hsig, firstTable] using ih fun q hq => h q (List.mem_cons_of_mem _ hq)

end Listed

/--
**The first match, in both formats.** For every root table whose length field
covers its header, `acpi_find_table` looks at the entries in order, up to the first
one whose table has the signature, at which it returns, or at which the kernel
halts. An RSDT and an XSDT that list the same tables give the same result. Where
the direct map reaches every table listed, nothing halts: the result is the first
table with the signature, and `NULL` if there is none.
-/
theorem acpi_find_table_first (s : Machine) (signature : Nat → BitVec 8) :
    (∀ a : Acpi, 36 ≤ s.load (a.rootSdt + 4) 4 →
      FindsFirst s a signature ((s.load (a.rootSdt + 4) 4 - 36) / a.width)) ∧
    (∀ rsdt xsdt, RootTable s rsdt → RootTable s xsdt →
      listedTables s rsdt 4 = listedTables s xsdt 8 →
      acpiFindTable s ⟨false, rsdt⟩ signature = acpiFindTable s ⟨true, xsdt⟩ signature) ∧
    ∀ a : Acpi, RootTable s a.rootSdt →
      (∀ p ∈ listedTables s a.rootSdt a.width, InDirectMap s p) →
      acpiFindTable s a signature =
        some (((firstTable s signature (listedTables s a.rootSdt a.width)).map s.higherHalf).getD
          0) := by
  refine ⟨fun a h => findsFirst h, ?_, ?_⟩
  · intro rsdt xsdt hr hx hsame
    rw [acpiFindTable_eq_listed (a := ⟨false, rsdt⟩) hr,
      acpiFindTable_eq_listed (a := ⟨true, xsdt⟩) hx]
    exact congrArg (scanListed s signature) hsame
  · intro a hroot hmap
    rw [acpiFindTable_eq_listed hroot, scanListed_inDirectMap hmap]

/-- An RSDT at 4096 and an XSDT at 8192, each with a part of an entry at its
end; both list 0x3000, the MADT at 0x4000 and 0x5000. -/
def bothRoots : Machine :=
  Machine.boot (fun x =>
    match x with
    | 4100 => 50
    | 4133 => 0x30
    | 4137 => 0x40
    | 4141 => 0x50
    | 8196 => 63
    | 8229 => 0x30
    | 8237 => 0x40
    | 8245 => 0x50
    | x => if 0x4000 ≤ x then apicSignature (x - 0x4000) else 0) usualHhdm

theorem bothRoots_root : RootTable bothRoots (usualHhdm + 4096) ∧
    RootTable bothRoots (usualHhdm + 8192) :=
  ⟨⟨by decide, by decide, by decide⟩, ⟨by decide, by decide, by decide⟩⟩

theorem acpi_find_table_first_both :
    FindsFirst bothRoots ⟨false, usualHhdm + 4096⟩ apicSignature 3 ∧
      acpiFindTable bothRoots ⟨false, usualHhdm + 4096⟩ apicSignature =
        acpiFindTable bothRoots ⟨true, usualHhdm + 8192⟩ apicSignature ∧
      acpiFindTable bothRoots ⟨true, usualHhdm + 8192⟩ apicSignature =
        some (usualHhdm + 0x4000) :=
  ⟨(acpi_find_table_first bothRoots apicSignature).1 ⟨false, usualHhdm + 4096⟩ (by decide),
    (acpi_find_table_first bothRoots apicSignature).2.1 _ _ bothRoots_root.1 bothRoots_root.2
      (by decide +kernel),
    ((acpi_find_table_first bothRoots apicSignature).2.2 ⟨true, usualHhdm + 8192⟩
      bothRoots_root.2 (by decide +kernel)).trans (by decide +kernel)⟩

/-- An XSDT at 4096 that lists a MADT at 2^47, behind the end of the direct map. -/
def farXsdt : Machine :=
  Machine.boot (fun x =>
    match x with
    | 4100 => 44
    | 4137 => 0x80
    | x => if 2 ^ 47 ≤ x then apicSignature (x - 2 ^ 47) else 0) usualHhdm

/-- The kernel halts at the table that `farXsdt` lists, whose place in the direct
map is `NULL`; and of the three entries of `bothRoots` the last is not read. -/
theorem acpi_find_table_stops :
    (¬ ∀ (s : Machine) (a : Acpi) (signature : Nat → BitVec 8), 36 ≤ s.load (a.rootSdt + 4) 4 →
      acpiFindTable s a signature =
        some (((firstTable s signature (listedTables s a.rootSdt a.width)).map s.higherHalf).getD
          0)) ∧
    ¬ ∀ (s : Machine) (a : Acpi) (signature : Nat → BitVec 8), 36 ≤ s.load (a.rootSdt + 4) 4 →
      ∀ i, Reads s a signature i ↔ i < (s.load (a.rootSdt + 4) 4 - 36) / a.width := by
  constructor
  · intro h
    have hhalt : acpiFindTable farXsdt ⟨true, usualHhdm + 4096⟩ apicSignature = none := by
      decide +kernel
    rw [h farXsdt ⟨true, usualHhdm + 4096⟩ apicSignature (by decide)] at hhalt
    cases hhalt
  · intro h
    have hread : Reads bothRoots ⟨false, usualHhdm + 4096⟩ apicSignature 2 :=
      (h bothRoots ⟨false, usualHhdm + 4096⟩ apicSignature (by decide) 2).mpr (by decide)
    obtain ⟨-, -, -, hpass⟩ := (reads_iff (by decide) 2).mp hread
    -- the second entry lists a table with the signature
    exact (hpass 1 (by decide)).2 (by decide +kernel)

end Medlar64
