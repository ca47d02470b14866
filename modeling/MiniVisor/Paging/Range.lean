import MiniVisor.Paging.Exact

/-!
# What a call of the mapping claims

`map_address_stage2_internal` checks neither that its range is inside the input addresses nor that
there is something to map. The index into the first table is masked, so a range beyond the table is
mapped to other addresses, and the loop over the descriptors ends at the end of the table, whatever
is left. `mapping_honest_iff` says when a call that returns has done what it claims. With a size of
zero the loop at level 3 subtracts a page from nothing: `remaining_size` underflows whenever a call
with that size gets so far.

That `remaining_size` does not underflow is stated with the subtraction as a parameter
(`mapAddressStage2With`): the call has the same outcome whatever the subtraction does on underflow.
-/

set_option autoImplicit false

namespace MiniVisor.Paging

open MiniVisor.Lib MiniVisor.Lib.Radix

variable {σ : Type}

/-! ## The subtraction as a parameter -/

section With

variable (A : PageAllocator σ) (sub : Nat → Nat → Except Fault Nat)

def Mapping.putWith (m : Mapping σ) (descriptor : Nat) (value : Descriptor) (size : Nat) :
    Except Fault (Mapping σ) := do
  let physicalAddress ← checkedAdd m.physicalAddress size
  let intermediatePhysicalAddress ← checkedAdd m.intermediatePhysicalAddress size
  let remainingSize ← sub m.remainingSize size
  return { m with
    memory := Function.update m.memory descriptor value
    physicalAddress, intermediatePhysicalAddress, remainingSize }

def mapBlockOrTableWith (access : Access) (depth : Nat)
    (next : (table : Nat) → Mapping σ → Except Fault (Mapping σ)) (descriptor : Nat)
    (m : Mapping σ) : Except Fault (Mapping σ) := do
  let blockSize := 1 <<< (12 + 9 * depth)
  let mask := blockSize - 1
  if depth ≤ 2 ∧ blockSize ≤ m.remainingSize ∧ m.physicalAddress &&& mask = 0 ∧
      m.intermediatePhysicalAddress &&& mask = 0 then
    m.putWith sub descriptor (blockDescriptor access m.physicalAddress) blockSize
  else
    let (table, m) ← nextLevelTable A descriptor m
    next table m

def mapTableWith (access : Access) : (depth numOfDescriptors tableAddress : Nat) → Mapping σ →
    Except Fault (Mapping σ)
  | 0, numOfDescriptors, tableAddress, m =>
    let index := (m.intermediatePhysicalAddress >>> 12) &&& (numOfDescriptors - 1)
    overDescriptors
      (fun descriptor m => m.putWith sub descriptor (pageDescriptor access m.physicalAddress)
        pageSize)
      (numOfDescriptors - index) (tableAddress + 8 * index) m
  | depth + 1, numOfDescriptors, tableAddress, m =>
    let shift := 12 + 9 * (depth + 1)
    let index := (m.intermediatePhysicalAddress >>> shift) &&& (numOfDescriptors - 1)
    overDescriptors (mapBlockOrTableWith A sub access (depth + 1) (mapTableWith access depth 512))
      (numOfDescriptors - index) (tableAddress + 8 * index) m

/-- `map_address_stage2_internal` with the subtraction from `remaining_size` as a parameter. -/
def mapAddressStage2With (vtcr : BitVec 64) (access : Access)
    (tableAddress physicalAddress intermediatePhysicalAddress mapSize : Nat) (m : Machine σ) :
    Except Fault (Machine σ) := do
  if mapSize &&& ((1 <<< pageShift) - 1) ≠ 0 then .error .unwrapNone
  else
    let level := initialLookupLevel vtcr
    let numOfDescriptors := numberOfConcatenatedPageTables (t0szOf vtcr) level * 512
    let m ← mapTableWith A sub access (3 - level) numOfDescriptors tableAddress
      { m with physicalAddress, intermediatePhysicalAddress, remainingSize := mapSize }
    return m.toMachine

end With

/-- The code is the one with the checked subtraction. -/
theorem mapTableWith_checkedSub (A : PageAllocator σ) (access : Access) (k : Nat) :
    mapTableWith A checkedSub access k = mapTable A access k := by
  induction k with
  | zero => rfl
  | succ k ih =>
    funext num t m
    rw [mapTableWith, mapTable, ih]
    rfl

theorem mapAddressStage2With_checkedSub (A : PageAllocator σ) (vtcr : BitVec 64) (access : Access)
    (table p ipa size : Nat) (m : Machine σ) :
    mapAddressStage2With A checkedSub vtcr access table p ipa size m =
      mapAddressStage2 A vtcr access table p ipa size m := by
  unfold mapAddressStage2With mapAddressStage2
  dsimp only
  rw [mapTableWith_checkedSub]

/-- `remaining_size` does not underflow in a call: a subtraction that does something else on
underflow makes no difference. -/
def NeverUnderflows (A : PageAllocator σ) (vtcr : BitVec 64) (access : Access)
    (table p ipa size : Nat) (m : Machine σ) : Prop :=
  ∀ sub : Nat → Nat → Except Fault Nat, (∀ a b, b ≤ a → sub a b = .ok (a - b)) →
    mapAddressStage2With A sub vtcr access table p ipa size m =
      mapAddressStage2 A vtcr access table p ipa size m

section Never

variable {A : PageAllocator σ} {sub : Nat → Nat → Except Fault Nat} {access : Access}

theorem putWith_eq (hsub : ∀ a b, b ≤ a → sub a b = .ok (a - b)) {m : Mapping σ} {size : Nat}
    (hle : size ≤ m.remainingSize) (e : Nat) (d : Descriptor) :
    m.putWith sub e d size = m.put e d size := by
  unfold Mapping.putWith Mapping.put
  rw [hsub _ _ hle, checkedSub_eq hle]

/-- There are pages left to map. -/
def Pending (m : Mapping σ) : Prop := 0 < m.remainingSize ∧ 4096 ∣ m.remainingSize

/-- Whole pages are taken from what is left. -/
theorem dvd_of_put {m m' : Mapping σ} {e k : Nat} {d : Descriptor} (h : 4096 ∣ m.remainingSize)
    (hput : m.put e d (span k) = .ok m') : 4096 ∣ m'.remainingSize := by
  obtain ⟨-, -, -, hr⟩ := put_eq_ok hput
  rw [hr] at h
  exact (Nat.dvd_add_left (page_dvd_span k)).1 h

theorem nextLevelTable_remaining {m m₁ : Mapping σ} {e t : Nat}
    (h : nextLevelTable A e m = .ok (t, m₁)) : m₁.remainingSize = m.remainingSize := by
  unfold nextLevelTable at h
  split_ifs at h
  · cases h
    rfl
  · obtain ⟨_, -, h⟩ := bind_eq_ok.1 h
    cases h
    rfl

/-- Two loop bodies that agree while there are pages left make the same loop. -/
theorem overDescriptors_congr {step step' : Nat → Mapping σ → Except Fault (Mapping σ)}
    (hsame : ∀ e m, Pending m → step' e m = step e m)
    (hdvd : ∀ e m m', Pending m → step e m = .ok m' → 4096 ∣ m'.remainingSize) (left : Nat) :
    ∀ (e : Nat) (m : Mapping σ), Pending m →
      overDescriptors step' left e m = overDescriptors step left e m ∧
        ∀ m', overDescriptors step left e m = .ok m' → 4096 ∣ m'.remainingSize := by
  induction left with
  | zero =>
    intro e m hm
    refine ⟨rfl, fun m' h => ?_⟩
    cases h
    exact hm.2
  | succ left ih =>
    intro e m hm
    unfold overDescriptors
    rw [hsame e m hm]
    cases hstep : step e m with
    | error fault => exact ⟨rfl, fun _ h => by cases h⟩
    | ok m₁ =>
      have hm₁ := hdvd e m m₁ hm hstep
      rw [ok_bind, ok_bind]
      by_cases hdone : m₁.remainingSize = 0
      · rw [if_pos hdone, if_pos hdone]
        refine ⟨rfl, fun m' h => ?_⟩
        cases h
        exact hm₁
      · rw [if_neg hdone, if_neg hdone]
        exact ih (e + 8) m₁ ⟨Nat.pos_of_ne_zero hdone, hm₁⟩

/-- While there are pages left, no subtraction underflows: a page is at most what is left, and a
block is checked. -/
theorem mapTableWith_eq (hsub : ∀ a b, b ≤ a → sub a b = .ok (a - b)) (k : Nat) :
    ∀ (num t : Nat) (m : Mapping σ), Pending m →
      mapTableWith A sub access k num t m = mapTable A access k num t m ∧
        ∀ m', mapTable A access k num t m = .ok m' → 4096 ∣ m'.remainingSize := by
  induction k with
  | zero =>
    intro num t m hm
    refine overDescriptors_congr (fun e m hm => ?_) (fun e m m' hm h => ?_) _ _ m hm
    · have hle : pageSize ≤ m.remainingSize := Nat.le_of_dvd hm.1 hm.2
      exact putWith_eq hsub hle e _
    · exact dvd_of_put (k := 0) hm.2 h
  | succ k ih =>
    intro num t m hm
    refine overDescriptors_congr (fun e m hm => ?_) (fun e m m' hm h => ?_) _ _ m hm
    · unfold mapBlockOrTableWith mapBlockOrTable
      dsimp only
      split_ifs with hblock
      · exact putWith_eq hsub hblock.2.1 e _
      · cases hnext : nextLevelTable A e m with
        | error fault => rfl
        | ok r =>
          obtain ⟨u, m₁⟩ := r
          have hr := nextLevelTable_remaining hnext
          exact (ih 512 u m₁ ⟨hr.symm ▸ hm.1, hr.symm ▸ hm.2⟩).1
    · unfold mapBlockOrTable at h
      dsimp only at h
      split_ifs at h with hblock
      · rw [shiftLeft_eq_span] at h
        exact dvd_of_put hm.2 h
      · obtain ⟨⟨u, m₁⟩, hnext, h⟩ := bind_eq_ok.1 h
        have hr := nextLevelTable_remaining hnext
        exact (ih 512 u m₁ ⟨hr.symm ▸ hm.1, hr.symm ▸ hm.2⟩).2 m' h

end Never

/-! ## Nothing to map -/

/-- The walk for an address gets to level 3: the tables are there or can be allocated. -/
def reachesPage (A : PageAllocator σ) : (depth entry : Nat) → Mapping σ → Prop
  | 0, _, m => m.physicalAddress + pageSize < wordSize ∧
      m.intermediatePhysicalAddress + pageSize < wordSize
  | k + 1, e, m => ∃ t m₁, nextLevelTable A e m = .ok (t, m₁) ∧
      reachesPage A k (t + 8 * ((m₁.intermediatePhysicalAddress >>> (12 + 9 * k)) &&& (512 - 1))) m₁

/-- A subtraction with a fault of its own. -/
def subOr (fault : Fault) (a b : Nat) : Except Fault Nat := if b ≤ a then .ok (a - b)
    else .error fault

section Nothing

variable {A : PageAllocator σ} {access : Access}

/-- A loop begins with its first descriptor. -/
theorem overDescriptors_error {step : Nat → Mapping σ → Except Fault (Mapping σ)} {left e : Nat}
    {m : Mapping σ} {fault : Fault} (hleft : 0 < left) (h : step e m = .error fault) :
    overDescriptors step left e m = .error fault := by
  obtain ⟨left, rfl⟩ := Nat.exists_eq_succ_of_ne_zero (Nat.pos_iff_ne_zero.1 hleft)
  unfold overDescriptors
  rw [h]
  rfl

/-- The body of the loop above level 3 goes to the next table when nothing is left. -/
theorem mapBlockOrTableWith_zero (sub : Nat → Nat → Except Fault Nat) {k e : Nat}
    {next : Nat → Mapping σ → Except Fault (Mapping σ)} {m : Mapping σ} (hm : m.remainingSize = 0) :
    mapBlockOrTableWith A sub access k next e m =
      nextLevelTable A e m >>= fun r => next r.1 r.2 := by
  unfold mapBlockOrTableWith
  dsimp only
  rw [if_neg]
  rintro ⟨-, hle, -⟩
  rw [hm, shiftLeft_eq_span] at hle
  exact absurd (span_pos k) (Nat.not_lt.2 hle)

theorem putWith_zero {fault : Fault} {e : Nat} {d : Descriptor} {m : Mapping σ}
    (hm : m.remainingSize = 0) (h : reachesPage A 0 e m) :
    m.putWith (subOr fault) e d pageSize = .error fault := by
  unfold Mapping.putWith
  rw [checkedAdd_eq h.1, checkedAdd_eq h.2, hm]
  rfl

/-- With nothing to map, the subtraction underflows at level 3. -/
theorem mapTableWith_underflows (fault : Fault) (k : Nat) :
    ∀ {num t : Nat} {m : Mapping σ}, 0 < num → m.remainingSize = 0 →
      reachesPage A k (t + 8 * ((m.intermediatePhysicalAddress >>> (12 + 9 * k)) &&& (num - 1))) m →
      mapTableWith A (subOr fault) access k num t m = .error fault := by
  induction k with
  | zero =>
    intro num t m hnum hm h
    have hindex : (m.intermediatePhysicalAddress >>> 12) &&& (num - 1) ≤ num - 1 := Nat.and_le_right
    exact overDescriptors_error (by omega) (putWith_zero hm h)
  | succ k ih =>
    intro num t m hnum hm h
    have hindex : (m.intermediatePhysicalAddress >>> (12 + 9 * (k + 1))) &&& (num - 1) ≤ num - 1 :=
      Nat.and_le_right
    obtain ⟨u, m₁, hnext, hreach⟩ := h
    refine overDescriptors_error (by omega) ?_
    rw [mapBlockOrTableWith_zero _ hm, hnext]
    exact ih (by decide) ((nextLevelTable_remaining hnext).trans hm) hreach

/-- Where the walk does not get to level 3, there is a fault before the subtraction. -/
theorem mapTableWith_stops (k : Nat) :
    ∀ {num t : Nat} {m : Mapping σ}, 0 < num → m.remainingSize = 0 →
      ¬ reachesPage A k (t + 8 * ((m.intermediatePhysicalAddress >>> (12 + 9 * k)) &&& (num - 1))) m
        → ∃ fault, ∀ sub : Nat → Nat → Except Fault Nat,
        mapTableWith A sub access k num t m = .error fault := by
  induction k with
  | zero =>
    intro num t m hnum hm h
    have hindex : (m.intermediatePhysicalAddress >>> 12) &&& (num - 1) ≤ num - 1 := Nat.and_le_right
    refine ⟨.overflow, fun sub => overDescriptors_error (by omega) ?_⟩
    unfold Mapping.putWith
    by_cases hp : m.physicalAddress + pageSize < wordSize
    · have hi : ¬ m.intermediatePhysicalAddress + pageSize < wordSize := fun hi => h ⟨hp, hi⟩
      rw [checkedAdd_eq hp, show checkedAdd m.intermediatePhysicalAddress pageSize = _
        from if_neg hi]
      rfl
    · rw [show checkedAdd m.physicalAddress pageSize = _ from if_neg hp]
      rfl
  | succ k ih =>
    intro num t m hnum hm h
    have hindex : (m.intermediatePhysicalAddress >>> (12 + 9 * (k + 1))) &&& (num - 1) ≤ num - 1 :=
      Nat.and_le_right
    cases hnext : nextLevelTable A
        (t + 8 * ((m.intermediatePhysicalAddress >>> (12 + 9 * (k + 1))) &&& (num - 1))) m with
    | error fault =>
      refine ⟨fault, fun sub => overDescriptors_error (by omega) ?_⟩
      rw [mapBlockOrTableWith_zero sub hm, hnext]
      rfl
    | ok r =>
      obtain ⟨u, m₁⟩ := r
      have hstops : ∃ fault, ∀ sub : Nat → Nat → Except Fault Nat,
          mapTableWith A sub access k 512 u m₁ = .error fault :=
        ih (by decide) ((nextLevelTable_remaining hnext).trans hm)
          fun hreach => h ⟨u, m₁, hnext, hreach⟩
      obtain ⟨fault, hfault⟩ := hstops
      refine ⟨fault, fun sub => overDescriptors_error (by omega) ?_⟩
      rw [mapBlockOrTableWith_zero sub hm, hnext]
      exact hfault sub

end Nothing

/-- The walk of a call gets to level 3. -/
def ReachesPage (A : PageAllocator σ) (vtcr : BitVec 64) (table p ipa : Nat) (m : Machine σ) :
    Prop :=
  reachesPage A (initialDepth vtcr)
    (table + 8 * ((ipa >>> (12 + 9 * initialDepth vtcr)) &&& (initialTables vtcr * 512 - 1)))
    (mappingOf m p ipa 0)

/-- `remaining_size` underflows when there is nothing to map and the walk gets to level 3. -/
theorem neverUnderflows_iff {A : PageAllocator σ} {ps : Nat} (hps : ps < 16) {access : Access}
    {table p ipa size : Nat} {m : Machine σ} (hsize : pageSize ∣ size) :
    NeverUnderflows A (vtcrEl2 ps) access table p ipa size m ↔
      0 < size ∨ ¬ ReachesPage A (vtcrEl2 ps) table p ipa m := by
  have hpages : size &&& ((1 <<< pageShift) - 1) = 0 := by
    show size &&& ((1 <<< 12) - 1) = 0
    rw [Nat.shiftLeft_eq, Nat.one_mul, Nat.and_two_pow_sub_one_eq_mod]
    exact Nat.mod_eq_zero_of_dvd hsize
  have hnum : 0 < initialTables (vtcrEl2 ps) * 512 := by
    unfold initialTables
    rw [t0szOf_vtcrEl2 hps, initialLookupLevel_vtcrEl2 hps]
    exact Nat.mul_pos (rootTables_pos hps).1 (by decide)
  have hcall : ∀ sub : Nat → Nat → Except Fault Nat,
      mapAddressStage2With A sub (vtcrEl2 ps) access table p ipa size m =
        mapTableWith A sub access (initialDepth (vtcrEl2 ps)) (initialTables (vtcrEl2 ps) * 512)
          table
          (mappingOf m p ipa size) >>= fun m => .ok m.toMachine := by
    intro sub
    unfold mapAddressStage2With
    rw [if_neg (not_not.2 hpages)]
    rfl
  have hcode := mapAddressStage2With_checkedSub A (vtcrEl2 ps) access table p ipa size m
  constructor
  · intro h
    by_contra hno
    obtain ⟨hzero, hreach⟩ := not_or.1 hno
    obtain rfl : size = 0 := Nat.eq_zero_of_not_pos hzero
    rw [not_not] at hreach
    -- Two subtractions with different faults have different outcomes.
    have hfault : ∀ fault, mapAddressStage2With A (subOr fault) (vtcrEl2 ps) access table p ipa 0
        m = .error fault := by
      intro fault
      have hmap : mapTableWith A (subOr fault) access (initialDepth (vtcrEl2 ps))
          (initialTables (vtcrEl2 ps) * 512) table (mappingOf m p ipa 0) = .error fault :=
        mapTableWith_underflows fault _ hnum rfl hreach
      rw [hcall, hmap]
      rfl
    have hsub : ∀ fault, ∀ a b, b ≤ a → subOr fault a b = .ok (a - b) := fun _ _ _ hle => if_pos hle
    have hone := h _ (hsub .overflow)
    have htwo := h _ (hsub .unwrapNone)
    rw [hfault] at hone htwo
    cases hone.trans htwo.symm
  · intro h sub hsub
    rw [← hcode, hcall, hcall]
    by_cases hpos : 0 < size
    · rw [(mapTableWith_eq hsub _ _ _ (mappingOf m p ipa size) ⟨hpos, hsize⟩).1,
        (mapTableWith_eq (fun _ _ hle => checkedSub_eq hle) _ _ _ (mappingOf m p ipa size)
          ⟨hpos, hsize⟩).1]
    · obtain rfl : size = 0 := Nat.eq_zero_of_not_pos hpos
      have hstops : ∃ fault, ∀ sub : Nat → Nat → Except Fault Nat,
          mapTableWith A sub access (initialDepth (vtcrEl2 ps)) (initialTables (vtcrEl2 ps) * 512)
            table (mappingOf m p ipa 0) = .error fault :=
        mapTableWith_stops _ hnum rfl (h.resolve_left hpos)
      obtain ⟨fault, hfault⟩ := hstops
      rw [hfault, hfault]

/-! ## What a call claims -/

section Claims

variable (vtcr : BitVec 64) (access : Access) (table p ipa size : Nat) (m m' : Machine σ)

/-- All bytes are mapped at their own addresses. -/
def Delivered : Prop :=
  ∀ i < size, hardwareTranslate vtcr m'.memory table (ipa + i) = some (access.target (p + i))

/-- No other address has a new translation. -/
def NothingElse : Prop :=
  ∀ x, x < ipa ∨ ipa + size ≤ x →
    hardwareTranslate vtcr m'.memory table x = hardwareTranslate vtcr m.memory table x ∨
      hardwareTranslate vtcr m'.memory table x = none

end Claims

/-- For every table that is built by calls, a further call that returns has mapped its bytes at
their own addresses and nothing else exactly if the physical address is a page, the physical
addresses are output addresses, and the range is inside the input addresses. `remaining_size` does
not underflow exactly if there is something to map, or the walk ends before level 3. -/
theorem mapping_honest_iff (A : PageAllocator σ) (idAa64mmfr0 : BitVec 64) {table : Nat}
    {calls : List (Option Call)} {m : Machine σ} (access : Access) {p ipa size : Nat}
    (hr : Run (Created A (paRange idAa64mmfr0) table) (BuildStep A (paRange idAa64mmfr0) table)
      calls m) (hipa : pageSize ∣ ipa) (hsize : pageSize ∣ size) :
    let vtcr := vtcrEl2 (paRange idAa64mmfr0)
    (∀ m', mapAddressStage2 A vtcr access table p ipa size m = .ok m' →
      (Delivered vtcr access table p ipa size m' ∧ NothingElse vtcr table ipa size m m' ↔
        pageSize ∣ p ∧ p + size ≤ outputLimit vtcr ∧ ipa + size ≤ inputLimit vtcr)) ∧
    (NeverUnderflows A vtcr access table p ipa size m ↔
      0 < size ∨ ¬ ReachesPage A vtcr table p ipa m) := by
  intro vtcr
  have hps := paRange_lt idAa64mmfr0
  obtain ⟨own, h⟩ := built_of_run hps hr
  refine ⟨fun m' hmap => ⟨fun ⟨hall, _⟩ => ?_, fun ⟨hp, hout, hfits⟩ => ?_⟩,
    neverUnderflows_iff hps hsize⟩
  · obtain ⟨own', hrooted, heffect⟩ := mapAddressStage2_keeps hps h.rooted hmap
    have hbuilt := h.effect hrooted heffect
    obtain ⟨-, m₁, htable, -⟩ := mapTable_of_mapAddressStage2 hps hmap
    have hpos : 0 < size :=
      mapTable_pos access _ (Nat.mul_pos (rootTables_pos hps).1 (by decide)) htable
    obtain ⟨⟨⟨k, d⟩, offset⟩, hfirst, htarget⟩ := Option.map_eq_some_iff.1 (hall 0 hpos)
    obtain ⟨-, hfound, -⟩ := hbuilt.of_hardwareWalk hps hfirst
    obtain ⟨⟨word, last⟩, hlast, -⟩ := Option.map_eq_some_iff.1 (hall (size - 1) (by omega))
    have hinput := (hbuilt.of_hardwareWalk hps hlast).1
    have houtput := hbuilt.physicalAddress_lt hps (hall (size - 1) (by omega))
    change p + (size - 1) < outputLimit vtcr at houtput
    refine ⟨?_, by omega, ?_⟩
    · -- The output address and the position of a page are pages.
      have hsum : outputBits d (12 + 9 * k) + offset = p := congrArg Target.physicalAddress htarget
      have hoffset := (wordLookup_same hfound (rfl : _ = (ipa + 0) / span k)).1
      rw [← hsum, hoffset]
      refine Nat.dvd_add ?_ ((Nat.dvd_mod_iff (page_dvd_span k)).2 hipa)
      exact Nat.dvd_trans (Nat.pow_dvd_pow 2 (by omega : 12 ≤ 12 + 9 * k)) (Nat.dvd_mul_left _ _)
    · rw [show inputLimit vtcr = _ from inputLimit_eq hps]
      omega
  · rw [show inputLimit vtcr = _ from inputLimit_eq hps] at hfits
    obtain ⟨-, own', hrooted, heffect, hturns⟩ := mapAddressStage2_turns hps h.rooted
      hipa hfits hmap
    have hbuilt := h.effect hrooted heffect
    refine ⟨fun i hi => h.maps hps hp hipa hfits hout hmap hi, fun x hx => ?_⟩
    unfold hardwareTranslate
    by_cases hlt : x < ipaLimit (paRange idAa64mmfr0)
    case neg =>
      refine .inr ?_
      rw [show hardwareWalk vtcr m'.memory table x = none from
        hardwareWalk_eq_none hps (Nat.not_lt.1 hlt)]
      rfl
    rw [show hardwareWalk vtcr m'.memory table x = _ from hbuilt.hardwareWalk_eq hps hlt,
      show hardwareWalk vtcr m.memory table x = _ from h.hardwareWalk_eq hps hlt]
    by_cases hcut : Cut ipa size x (wordLookup (paRange idAa64mmfr0) table m.memory x)
    · rw [(hturns x hlt).cut hx hcut]
      exact .inr rfl
    · rw [(hturns x hlt).kept hx hcut]
      exact .inl rfl

/-- A page on a CPU with physical addresses of 44 bits. -/
theorem mapping_honest_page : ∃ table m m',
    mapAddressStage2 memoryPages (vtcrEl2 (paRange 4)) ramAccess table 0x80800000 0x40000000 0x1000
      m = .ok m' ∧
    Delivered (vtcrEl2 (paRange 4)) ramAccess table 0x80800000 0x40000000 0x1000 m' ∧
    NothingElse (vtcrEl2 (paRange 4)) table 0x40000000 0x1000 m m' := by
  have hok : translations 4 [] ⟨ramAccess, 0x80800000, 0x40000000, 0x1000⟩ 0 = .ok
    (none, none) := by
    decide +kernel
  obtain ⟨table, m, m', hr, hmap, -⟩ := exists_of_translations hok (by decide)
  exact ⟨table, m, m', hmap, ((mapping_honest_iff memoryPages 4 ramAccess hr (by decide)
    (by decide)).1 m' hmap).2 (by decide)⟩

theorem error_of_map {α β : Type} {x : Except Fault α} {f : α → β} {fault : Fault}
    (h : x.map f = .error fault) : x = .error fault := by
  cases x with
  | error e =>
    cases h
    rfl
  | ok a => cases h

/-- On a CPU with physical addresses of 40 bits, a page at `2 ^ 40` is beyond the input addresses.
The call returns, and what it has mapped is the page at address 0. With a size of zero, a call
panics since `remaining_size` underflows. -/
theorem mapped_beyond_the_table : (∃ table calls m m',
      Run (Created memoryPages (paRange 2) table) (BuildStep memoryPages (paRange 2) table) calls
        m ∧
      mapAddressStage2 memoryPages (vtcrEl2 (paRange 2)) ramAccess table 0x80800000 (2 ^ 40)
        0x1000 m = .ok m' ∧
      hardwareTranslate (vtcrEl2 (paRange 2)) m'.memory table (2 ^ 40) = none ∧
      hardwareTranslate (vtcrEl2 (paRange 2)) m.memory table 0 = none ∧
      hardwareTranslate (vtcrEl2 (paRange 2)) m'.memory table 0 =
        some (ramAccess.target 0x80800000)) ∧
    ∃ table calls m,
      Run (Created memoryPages (paRange 2) table) (BuildStep memoryPages (paRange 2) table) calls
        m ∧
      mapAddressStage2 memoryPages (vtcrEl2 (paRange 2)) ramAccess table 0x80800000 0 0 m =
        .error .overflow ∧
      ¬ NeverUnderflows memoryPages (vtcrEl2 (paRange 2)) ramAccess table 0x80800000 0 0 m := by
  have hok : translations 2 [] ⟨ramAccess, 0x80800000, 2 ^ 40, 0x1000⟩ 0 =
      .ok (none, some (ramAccess.target 0x80800000)) := by
    decide +kernel
  obtain ⟨table, m, m', hr, hmap, hold, hnew⟩ := exists_of_translations hok (by decide)
  refine ⟨⟨table, _, m, m', hr, hmap, ?_, hold, hnew⟩, ?_⟩
  · unfold hardwareTranslate
    rw [hardwareWalk_eq_none (by decide) (by decide)]
    rfl
  · obtain ⟨hvalid, hfree⟩ := bank_spec 0x80000000 0x1000000 (by decide) (by decide)
    -- The outcome with the code's subtraction, and with one that faults in another way.
    have hcode : (build memoryPages (paRange 2) smallMachine [] >>= fun r =>
        (mapAddressStage2 memoryPages (vtcrEl2 (paRange 2)) ramAccess r.1 0x80800000 0 0 r.2).map
          fun _ => ()) = .error .overflow := by
      decide +kernel
    have hother : (build memoryPages (paRange 2) smallMachine [] >>= fun r =>
        (mapAddressStage2With memoryPages (subOr .assertion) (vtcrEl2 (paRange 2)) ramAccess r.1
          0x80800000 0 0 r.2).map fun _ => ()) = .error .assertion := by
      decide +kernel
    cases hbuild : build memoryPages (paRange 2) smallMachine [] with
    | error fault =>
      rw [hbuild, error_bind] at hcode hother
      cases hcode
      cases hother
    | ok r =>
      obtain ⟨table, m⟩ := r
      rw [hbuild] at hcode hother
      have hmemory : ∀ a ∈ memoryPages.free smallMachine.pool, a < outputLimit
        (vtcrEl2 (paRange 2)) :=
        fun a ha => Nat.lt_of_lt_of_le (hfree ha).2 (by decide)
      refine ⟨table, _, m, run_of_build hvalid hmemory hbuild, error_of_map hcode, fun hnever => ?_⟩
      have hsame := hnever (subOr .assertion) fun _ _ hle => if_pos hle
      rw [show mapAddressStage2With _ _ _ _ _ _ _ _ _ = _ from error_of_map hother,
        show mapAddressStage2 _ _ _ _ _ _ _ _ = _ from error_of_map hcode] at hsame
      cases hsame

end MiniVisor.Paging
