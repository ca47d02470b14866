import MiniVisor.Paging.Isolation

/-!
# What a call of the mapping means to the hardware

`hardwareTranslate` is the walk of the hardware with everything it looks at: the size of the input
addresses, the size of the output addresses of the tables and of the result, and the fields of the
descriptor that it ends with. A table is built by a run of calls (`Run (Created A ps table) …`),
with any arguments.

`mapping_exact_iff` is about the range of a further call. It leads to the physical addresses, with
the permission and the kind of memory that are asked for, exactly if these addresses fit into the
output addresses of the translation. `mapping_frame_iff` is about the addresses outside the range.
They are translated as before exactly if the range does not cut a block: a block that is only partly
in the range is replaced by an empty table, and what it has translated outside the range is lost.

What this walk translates, `translate` translates to the same address
(`translate_of_hardwareTranslate`), so the isolation of the guests holds of it as well
(`hardware_isolated`).
-/

set_option autoImplicit false

namespace MiniVisor.Paging

open MiniVisor.Lib MiniVisor.Lib.Radix

/-! ## The hardware -/

/-- The field `PS`. -/
def psOf (vtcr : BitVec 64) : Nat := ((vtcr >>> 16) &&& 0b111#64).toNat

/-- The size of an output address. With a 4 KiB granule it is at most 48 bits. -/
def outputSize (vtcr : BitVec 64) : Nat :=
  match psOf vtcr with
  | 0b000 => 32
  | 0b001 => 36
  | 0b010 => 40
  | 0b011 => 42
  | 0b100 => 44
  | _ => 48

/-- The end of the output addresses. -/
def outputLimit (vtcr : BitVec 64) : Nat := 2 ^ outputSize vtcr

/-- The end of the input addresses. -/
def inputLimit (vtcr : BitVec 64) : Nat := 2 ^ (64 - t0szOf vtcr)

/-- The walk with the faults of addresses that are too large. -/
def sizedFormat (limit : Nat) : Format Descriptor (Nat × Descriptor) where
  kind k d :=
    match wordFormat.kind k d with
    | .empty => .empty
    | .leaf word => if outputBits word.2 (12 + 9 * word.1) < limit then .leaf word else .empty
    | .table t => if t < limit then .table t else .empty
  fan := 512
  unit := 4096
  stride := 8
  fan_pos := stage2Format.fan_pos
  unit_pos := stage2Format.unit_pos

/-- What an address is translated to. -/
structure Target where
  physicalAddress : Nat
  memAttr : BitVec 4
  s2ap : BitVec 2
  shareability : BitVec 2
  accessFlag : Bool
  deriving DecidableEq, Repr

def targetOf (word : Nat × Descriptor) (offset : Nat) : Target where
  physicalAddress := outputBits word.2 (12 + 9 * word.1) + offset
  memAttr := word.2.extractLsb' 2 4
  s2ap := word.2.extractLsb' 6 2
  shareability := word.2.extractLsb' 8 2
  accessFlag := accessFlag word.2

/-- The descriptor that the hardware finds for an address, with its depth. -/
def hardwareWalk (vtcr : BitVec 64) (memory : Nat → Descriptor) (table ipa : Nat) : Found :=
  if ipa < inputLimit vtcr then
    (sizedFormat (outputLimit vtcr)).walk memory (initialDepth vtcr)
      (table + 8 * (ipa / 2 ^ (12 + 9 * initialDepth vtcr))) ipa
  else none

def hardwareTranslate (vtcr : BitVec 64) (memory : Nat → Descriptor) (table ipa : Nat) :
    Option Target :=
  (hardwareWalk vtcr memory table ipa).map fun (word, offset) => targetOf word offset

/-- The depth of the page or block that translates an address. -/
def leafDepth (vtcr : BitVec 64) (memory : Nat → Descriptor) (table ipa : Nat) : Option Nat :=
  (hardwareWalk vtcr memory table ipa).map (·.1.1)

/-- What a call asks for: the permission, write-back or device memory, inner shareable, with the
access flag. -/
def Access.target (access : Access) (physicalAddress : Nat) : Target where
  physicalAddress := physicalAddress
  memAttr := if access.isDevice then 0b0000#4 else 0b1111#4
  s2ap := BitVec.ofBool access.isWritable ++ BitVec.ofBool access.isReadable
  shareability := 0b11#2
  accessFlag := true

theorem outputLimit_le (vtcr : BitVec 64) : outputLimit vtcr ≤ 2 ^ 48 := by
  refine Nat.pow_le_pow_right (by decide) ?_
  unfold outputSize
  split <;> decide

/-- The pages and blocks fit into the output addresses. -/
theorem span_dvd_outputLimit (vtcr : BitVec 64) {k : Nat} (hk : k ≤ 2) :
    2 ^ (12 + 9 * k) ∣ outputLimit vtcr := by
  refine Nat.pow_dvd_pow 2 ?_
  have hsize : 32 ≤ outputSize vtcr := by
    unfold outputSize
    split <;> decide
  omega

/-- There are no blocks at level 0. -/
theorem le_two_of_leaf {k : Nat} {d : Descriptor} {l : Leaf} (h : descriptorKind k d = .leaf l) :
    k ≤ 2 := by
  cases k with
  | zero => exact Nat.zero_le 2
  | succ k =>
    unfold descriptorKind at h
    dsimp only at h
    split_ifs at h with _ hleaf
    exact hleaf.2.1

/-- There are no tables at level 3. -/
theorem wordKind_zero_ne_table {t : Nat} {d : Descriptor} : wordFormat.kind 0 d ≠ .table t := by
  intro hkind
  have hno := wordKind_table_iff.1 hkind
  unfold descriptorKind at hno
  dsimp only at hno
  split_ifs at hno

section Sized

variable {own : Owner} {memory : Nat → Descriptor} {limit : Nat}

theorem sizedKind_leaf (limit : Nat) {k : Nat} {d : Descriptor} {word : Nat × Descriptor}
    (h : wordFormat.kind k d = .leaf word) : (sizedFormat limit).kind k d =
      if outputBits word.2 (12 + 9 * word.1) < limit then .leaf word else .empty := by
  show (match wordFormat.kind k d with | .empty => _ | .leaf word => _ | .table t => _) = _
  rw [h]

theorem sizedKind_table {k t : Nat} {d : Descriptor} (h : wordFormat.kind k d = .table t)
    (ht : t < limit) : (sizedFormat limit).kind k d = .table t := by
  show (match wordFormat.kind k d with | .empty => _ | .leaf word => _ | .table t => _) = _
  rw [h]
  exact if_pos ht

theorem sizedKind_empty {k : Nat} {d : Descriptor} (h : wordFormat.kind k d = .empty) :
    (sizedFormat limit).kind k d = .empty := by
  show (match wordFormat.kind k d with | .empty => _ | .leaf word => _ | .table t => _) = _
  rw [h]

theorem sizedWalk_leaf {k e : Nat} {word : Nat × Descriptor}
    (h : wordFormat.kind k (memory e) = .leaf word) (x : Nat) :
    (sizedFormat limit).walk memory k e x = (wordFormat.walk memory k e x).filter
      fun found => outputBits found.1.2 (12 + 9 * found.1.1) < limit := by
  rw [Format.walk_leaf h, Option.filter_some]
  by_cases hlt : outputBits word.2 (12 + 9 * word.1) < limit
  · have hleaf := (sizedKind_leaf limit h).trans (if_pos hlt)
    rw [Format.walk_leaf hleaf, if_pos (decide_eq_true hlt)]
    rfl
  · have hleaf := (sizedKind_leaf limit h).trans (if_neg hlt)
    rw [Format.walk_empty hleaf, if_neg (by simpa using hlt)]

/-- The tables are in memory, so that only the result can be too large. -/
theorem sizedWalk_eq (hown : ∀ t x, own t = some x → t < limit) (k : Nat) :
    ∀ {e b : Nat}, wordFormat.Serves own memory k e b → ∀ x,
      (sizedFormat limit).walk memory k e x = (wordFormat.walk memory k e x).filter
        fun found => outputBits found.1.2 (12 + 9 * found.1.1) < limit := by
  induction k with
  | zero =>
    intro e b _ x
    cases hkind : wordFormat.kind 0 (memory e) with
    | leaf word => exact sizedWalk_leaf hkind x
    | empty =>
      rw [Format.walk_empty hkind, Format.walk_empty (sizedKind_empty hkind)]
      rfl
    | table t =>
      exact absurd hkind wordKind_zero_ne_table
  | succ k ih =>
    intro e b h x
    cases hkind : wordFormat.kind (k + 1) (memory e) with
    | leaf word => exact sizedWalk_leaf hkind x
    | empty =>
      rw [Format.walk_empty hkind, Format.walk_empty (sizedKind_empty hkind)]
      rfl
    | table t =>
      obtain ⟨ht, hslots⟩ := h t hkind
      rw [Format.walk_table hkind, Format.walk_table (sizedKind_table hkind (hown t _ ht))]
      exact ih (hslots _ (Nat.mod_lt _ (by decide))) x

/-- What is found with the faults is found without them. -/
theorem walk_of_sizedWalk (k : Nat) : ∀ {e x : Nat} {found : (Nat × Descriptor) × Nat},
    (sizedFormat limit).walk memory k e x = some found →
      wordFormat.walk memory k e x = some found := by
  have hleaf : ∀ {k e x : Nat} {found : (Nat × Descriptor) × Nat} {word : Nat × Descriptor},
      wordFormat.kind k (memory e) = .leaf word →
      (sizedFormat limit).walk memory k e x = some found →
        wordFormat.walk memory k e x = some found := by
    intro k e x found word hkind h
    rw [sizedWalk_leaf hkind] at h
    exact (Option.filter_eq_some_iff.1 h).1
  induction k with
  | zero =>
    intro e x found h
    cases hkind : wordFormat.kind 0 (memory e) with
    | leaf word => exact hleaf hkind h
    | empty =>
      rw [Format.walk_empty (sizedKind_empty hkind)] at h
      cases h
    | table t => exact absurd hkind wordKind_zero_ne_table
  | succ k ih =>
    intro e x found h
    cases hkind : wordFormat.kind (k + 1) (memory e) with
    | leaf word => exact hleaf hkind h
    | empty =>
      rw [Format.walk_empty (sizedKind_empty hkind)] at h
      cases h
    | table t =>
      rw [Format.walk_table hkind]
      by_cases ht : t < limit
      · rw [Format.walk_table (sizedKind_table hkind ht)] at h
        exact ih h
      · have hempty : (sizedFormat limit).kind (k + 1) (memory e) = .empty := by
          show (match wordFormat.kind _ _ with | .empty => _ | .leaf word => _ | .table t => _) = _
          rw [hkind]
          exact if_neg ht
        rw [Format.walk_empty hempty] at h
        cases h

end Sized

/-! ## Isolation -/

/-- The hardware refuses more than `translate` does, and translates nothing else. -/
theorem translate_of_hardwareTranslate {vtcr : BitVec 64} {memory : Nat → Descriptor}
    {table x : Nat} {target : Target} (h : hardwareTranslate vtcr memory table x = some target) :
    ∃ l : Leaf, translate vtcr memory table x = some (target.physicalAddress, l) ∧
      l.attributes = target.memAttr ∧ l.permission = target.s2ap := by
  obtain ⟨⟨word, offset⟩, hwalk, rfl⟩ := Option.map_eq_some_iff.1 h
  unfold hardwareWalk at hwalk
  split at hwalk
  · next hx =>
    refine ⟨leafAt word, ?_, rfl, rfl⟩
    unfold translate
    unfold inputLimit at hx
    rw [if_pos hx, stage2Format_walk, walk_of_sizedWalk _ hwalk]
    rfl
  · cases hwalk

/-- The normal memory that the hardware lets a VM reach is its own RAM, at its address. -/
theorem hardware_isolated {σ : Type} {A : PageAllocator σ} {idAa64mmfr0 : BitVec 64}
    {actions : List Action} {s : World σ}
    (hr : Run (Initial A) (FitStep A (paRange idAa64mmfr0)) actions s) {vm : Vm} (hvm : vm ∈ s.vms)
    {x : Nat} {target : Target} (h : hardwareTranslate (vtcrEl2 (paRange idAa64mmfr0))
      s.machine.memory vm.stage2TableAddress x = some target)
    (hnormal : target.memAttr.extractLsb' 2 2 ≠ 0#2) :
    ∃ i < vm.ramSize, x = ramVirtualBase + i ∧
      target.physicalAddress = vm.ramPhysicalAddress + i := by
  have hps := paRange_lt idAa64mmfr0
  obtain ⟨ghosts, hseparate⟩ := separate_of_run hps hr
  rw [← hseparate.vms] at hvm
  obtain ⟨g, hg, rfl⟩ := List.mem_map.1 hvm
  obtain ⟨l, htranslate, hattributes, -⟩ := translate_of_hardwareTranslate h
  rw [← hattributes] at hnormal
  exact (hseparate.holds g hg).of_translate_normal hps htranslate hnormal

/-! ## Tables that are built by calls -/

/-- The arguments of a call of `map_address_stage2` or `map_device_stage2`. -/
structure Call where
  access : Access
  physicalAddress : Nat
  intermediatePhysicalAddress : Nat
  mapSize : Nat

section Runs

variable {σ : Type} (A : PageAllocator σ) (ps table : Nat)

/-- An empty table, in a machine whose memory has output addresses. -/
def Created (m : Machine σ) : Prop :=
  ∃ m₀, A.Valid m₀.pool ∧ (∀ a ∈ A.free m₀.pool, a < outputLimit (vtcrEl2 ps)) ∧
    createStage2TranslationTable A ps m₀ = .ok (table, m)

/-- A call, with any arguments, or something else that takes free memory and writes to it. -/
inductive BuildStep : Machine σ → Option Call → Machine σ → Prop where
  | map {m m' : Machine σ} {call : Call}
      (h : mapAddressStage2 A (vtcrEl2 ps) call.access table call.physicalAddress
        call.intermediatePhysicalAddress call.mapSize m = .ok m') : BuildStep m (some call) m'
  | other {m m' : Machine σ} (hvalid : A.Valid m'.pool) (hfree : A.free m'.pool ⊆ A.free m.pool)
      (hmem : ∀ a, m'.memory a ≠ m.memory a → a ∈ A.free m.pool) : BuildStep m none m'

/-- What holds of a table that is built by calls. -/
structure Built (own : Owner) (m : Machine σ) : Prop where
  rooted : Rooted A ps table own m
  tables : ∀ t x, own t = some x → t < outputLimit (vtcrEl2 ps)
  memory : ∀ a ∈ A.free m.pool, a < outputLimit (vtcrEl2 ps)

variable {A ps table} {own own' : Owner} {m m' : Machine σ}

theorem Built.effect {lo hi : Nat} (h : Built A ps table own m) (hr : Rooted A ps table own' m')
    (he : Effect A own own' m m' (rootDepth ps) lo hi) : Built A ps table own' m' := by
  refine ⟨hr, fun t x ht => ?_, fun a ha => h.memory a (he.shrinks ha)⟩
  cases hold : own t with
  | some y => exact h.tables t y hold
  | none => exact h.memory t (he.fresh t x hold ht ⟨Nat.le_refl t, by omega⟩)

theorem Created.built (hps : ps < 16) (h : Created A ps table m) :
    ∃ own, Built A ps table own m := by
  obtain ⟨m₀, hvalid, hmemory, hcreate⟩ := h
  have hroot := createStage2TranslationTable_spec hps hvalid
    (fun a ha => Nat.lt_of_lt_of_le (hmemory a ha) (outputLimit_le _)) hcreate
  refine ⟨_, hroot.rooted, fun t x ht => ?_, fun a ha => hmemory a (hroot.shrinks ha)⟩
  exact hmemory t (hroot.taken t x ht ⟨Nat.le_refl t, by omega⟩)

/-- The words of the tables are not free memory. -/
theorem Rooted.other (h : Rooted A ps table own m) (hvalid : A.Valid m'.pool)
    (hfree : A.free m'.pool ⊆ A.free m.pool)
    (hmem : ∀ a, m'.memory a ≠ m.memory a → a ∈ A.free m.pool) : Rooted A ps table own m' := by
  have hwords : ∀ t x, own t = some x → ∀ i < 512, m'.memory (t + 8 * i) = m.memory
    (t + 8 * i) := by
    intro t x ht i hi
    by_contra hne
    exact Set.disjoint_left.1 (h.sound.held t x ht) (mem_page_of_lt hi) (hmem _ hne)
  have hslots : ∀ {k e b}, Slot own k e b → m'.memory e = m.memory e := by
    rintro k e b ⟨t, c, i, ht, hi, rfl, -⟩
    exact hwords t _ ht i hi
  refine ⟨⟨hvalid, fun a ha => h.sound.below a (hfree ha), h.sound.aligned,
    fun t x ht => (h.sound.held t x ht).mono_right hfree, fun hslot htable => ?_⟩, h.slot,
    fun i hi => ?_⟩
  · rw [hslots hslot] at htable ⊢
    exact h.sound.words hslot htable
  · exact ((h.serves i hi).frame (Owner.Grows.refl own) _
      ⟨hslots (h.slot i hi), fun t ⟨k, b, ht, _⟩ => hwords t _ ht⟩).1

theorem Built.step (hps : ps < 16) {call : Option Call} (h : Built A ps table own m)
    (hs : BuildStep A ps table m call m') : ∃ own', Built A ps table own' m' := by
  cases hs with
  | map hmap =>
    obtain ⟨own', hrooted, heffect⟩ := mapAddressStage2_keeps hps h.rooted hmap
    exact ⟨own', h.effect hrooted heffect⟩
  | other hvalid hfree hmem =>
    exact ⟨own, h.rooted.other hvalid hfree hmem, h.tables, fun a ha => h.memory a (hfree ha)⟩

theorem built_of_run (hps : ps < 16) {calls : List (Option Call)}
    (hr : Run (Created A ps table) (BuildStep A ps table) calls m) :
    ∃ own, Built A ps table own m := by
  refine hr.invariant (P := fun m => ∃ own, Built A ps table own m) ?_ ?_
  · exact fun m h => h.built hps
  · rintro m call m' ⟨own, h⟩ hs
    exact h.step hps hs

/-! ## Translations of built tables -/

theorem inputLimit_eq (hps : ps < 16) : inputLimit (vtcrEl2 ps) = ipaLimit ps := by
  unfold inputLimit
  rw [t0szOf_vtcrEl2 hps]
  rfl

/-- The hardware finds the descriptor of the table, if its output address is not too large. -/
theorem Built.hardwareWalk_eq (hps : ps < 16) (h : Built A ps table own m) {x : Nat}
    (hx : x < ipaLimit ps) : hardwareWalk (vtcrEl2 ps) m.memory table x =
      (wordLookup ps table m.memory x).filter fun found =>
        outputBits found.1.2 (12 + 9 * found.1.1) < outputLimit (vtcrEl2 ps) := by
  have hdepth : initialDepth (vtcrEl2 ps) = rootDepth ps := by
    unfold initialDepth
    rw [initialLookupLevel_vtcrEl2 hps]
    rfl
  have hlimit := ipaLimit_le hps
  obtain ⟨i, hi, hlo, hhi⟩ := exists_index (Nat.zero_le x)
    (show x < 0 + rootTables ps * 512 * span (rootDepth ps) by omega)
  rw [Nat.zero_add] at hlo hhi
  have hindex : x / span (rootDepth ps) = i := by
    apply Nat.div_eq_of_lt_le hlo
    rwa [Nat.succ_mul]
  unfold hardwareWalk
  rw [inputLimit_eq hps, if_pos hx, hdepth, ← size_eq, wordLookup_eq hlo hhi]
  rw [show x / stage2Format.size (rootDepth ps) = i from hindex]
  exact sizedWalk_eq h.tables _ (serves_iff.1 (h.rooted.serves i hi)) x

theorem hardwareWalk_eq_none (hps : ps < 16) {memory : Nat → Descriptor} {x : Nat}
    (hx : ipaLimit ps ≤ x) : hardwareWalk (vtcrEl2 ps) memory table x = none := by
  unfold hardwareWalk
  rw [inputLimit_eq hps, if_neg (Nat.not_lt.2 hx)]

/-- What the hardware finds is in the table, and is not too large. -/
theorem Built.of_hardwareWalk (hps : ps < 16) (h : Built A ps table own m) {x k offset : Nat}
    {d : Descriptor} (hw : hardwareWalk (vtcrEl2 ps) m.memory table x = some ((k, d), offset)) :
    x < ipaLimit ps ∧ wordLookup ps table m.memory x = some ((k, d), offset) ∧
      outputBits d (12 + 9 * k) < outputLimit (vtcrEl2 ps) := by
  have hx : x < ipaLimit ps := by
    by_contra hge
    rw [hardwareWalk_eq_none hps (Nat.not_lt.1 hge)] at hw
    cases hw
  rw [h.hardwareWalk_eq hps hx, Option.filter_eq_some_iff] at hw
  exact ⟨hx, hw.1, of_decide_eq_true hw.2⟩

/-- A walk ends with a page or block descriptor. -/
theorem leaf_of_walk {memory : Nat → Descriptor} (k : Nat) :
    ∀ {e x j : Nat} {d : Descriptor} {offset : Nat},
      wordFormat.walk memory k e x = some ((j, d), offset) → ∃ l, descriptorKind j d = .leaf l := by
  have hleaf : ∀ {i e x j : Nat} {d : Descriptor} {offset : Nat} {word : Nat × Descriptor},
      wordFormat.kind i (memory e) = .leaf word →
      wordFormat.walk memory i e x = some ((j, d), offset) → ∃ l, descriptorKind j d = .leaf l := by
    intro i e x j d offset word hkind h
    have hword := eq_of_wordKind_leaf hkind
    rw [Format.walk_leaf hkind, hword] at h
    cases h
    cases hd : descriptorKind i (memory e) with
    | leaf l => exact ⟨l, rfl⟩
    | empty =>
      rw [wordKind_empty hd] at hkind
      cases hkind
    | table t =>
      rw [wordKind_table_iff.2 hd] at hkind
      cases hkind
  induction k with
  | zero =>
    intro e x j d offset h
    cases hkind : wordFormat.kind 0 (memory e) with
    | leaf word => exact hleaf hkind h
    | empty =>
      rw [Format.walk_empty hkind] at h
      cases h
    | table t =>
      rw [Format.walk, hkind] at h
      cases h
  | succ k ih =>
    intro e x j d offset h
    cases hkind : wordFormat.kind (k + 1) (memory e) with
    | leaf word => exact hleaf hkind h
    | empty =>
      rw [Format.walk_empty hkind] at h
      cases h
    | table t =>
      rw [Format.walk_table hkind] at h
      exact ih h

/-- A page or block whose first byte has an output address has only such bytes. -/
theorem Built.physicalAddress_lt (hps : ps < 16) (h : Built A ps table own m) {x : Nat}
    {target : Target} (ht : hardwareTranslate (vtcrEl2 ps) m.memory table x = some target) :
    target.physicalAddress < outputLimit (vtcrEl2 ps) := by
  obtain ⟨⟨⟨k, d⟩, offset⟩, hw, rfl⟩ := Option.map_eq_some_iff.1 ht
  obtain ⟨-, hfound, hlt⟩ := h.of_hardwareWalk hps hw
  obtain ⟨l, hl⟩ := leaf_of_walk _ hfound
  obtain ⟨hoffset, -⟩ := wordLookup_same hfound (rfl : x / span k = x / span k)
  have hpos : 0 < 2 ^ (12 + 9 * k) := Nat.two_pow_pos _
  have hin : offset < 2 ^ (12 + 9 * k) := by
    rw [hoffset, ← size_eq]
    exact Nat.mod_lt _ (span_pos k)
  obtain ⟨c, hc⟩ := span_dvd_outputLimit (vtcrEl2 ps) (le_two_of_leaf hl)
  show outputBits d (12 + 9 * k) + offset < _
  unfold outputBits at hlt ⊢
  rw [hc, Nat.mul_comm] at hlt
  have hle : d.toNat % 2 ^ 48 / 2 ^ (12 + 9 * k) + 1 ≤ c := Nat.lt_of_mul_lt_mul_left hlt
  have hmul := Nat.mul_le_mul_left (2 ^ (12 + 9 * k)) hle
  rw [hc, Nat.mul_comm (d.toNat % 2 ^ 48 / 2 ^ (12 + 9 * k))]
  rw [Nat.mul_add, Nat.mul_one] at hmul
  omega

theorem permission_eq (access : Access) : access.permission.extractLsb' 0 2 =
    BitVec.ofBool access.isWritable ++ BitVec.ofBool access.isReadable := by
  obtain ⟨r, w, v⟩ := access
  revert r w v
  decide

theorem target_of_wordFor {access : Access} {d : Descriptor} (hd : WordFor access d)
    (k offset : Nat) :
    targetOf (k, d) offset = access.target (outputBits d (12 + 9 * k) + offset) := by
  unfold targetOf Access.target
  rw [hd.attributes, hd.permission, hd.shareability, hd.accessFlag, permission_eq]

/-- The range of a call that returns, inside the output addresses. -/
theorem Built.maps (hps : ps < 16) (h : Built A ps table own m) {access : Access} {p ipa size : Nat}
    (hp : 4096 ∣ p) (hipa : 4096 ∣ ipa) (hfits : ipa + size ≤ ipaLimit ps)
    (hout : p + size ≤ outputLimit (vtcrEl2 ps))
    (hmap : mapAddressStage2 A (vtcrEl2 ps) access table p ipa size m = .ok m') {i : Nat}
    (hi : i < size) :
    hardwareTranslate (vtcrEl2 ps) m'.memory table (ipa + i) = some (access.target (p + i)) := by
  obtain ⟨-, own', hrooted, heffect, hturns⟩ := mapAddressStage2_turns hps h.rooted hipa hfits hmap
  have hbuilt := h.effect hrooted heffect
  have hlimit := outputLimit_le (vtcrEl2 ps)
  obtain ⟨k, d, hfound, -, -, hword, hbase⟩ := (hturns (ipa + i) (by omega)).mapped
    (Nat.le_add_right ipa i) (Nat.add_lt_add_left hi ipa)
  have hsum : outputBits d (12 + 9 * k) + (ipa + i) % span k = p + (ipa + i - ipa) :=
    hbase hp (show p + (ipa + i - ipa) < 2 ^ 48 by omega)
  rw [Nat.add_sub_cancel_left] at hsum
  have hlt : outputBits d (12 + 9 * k) < outputLimit (vtcrEl2 ps) := by
    have := Nat.le_add_right (outputBits d (12 + 9 * k)) ((ipa + i) % span k)
    omega
  have hwalk : hardwareWalk (vtcrEl2 ps) m'.memory table (ipa + i) =
      some ((k, d), (ipa + i) % span k) := by
    rw [hbuilt.hardwareWalk_eq hps (by omega), hfound]
    exact Option.filter_eq_some_iff.2 ⟨rfl, decide_eq_true hlt⟩
  unfold hardwareTranslate
  rw [hwalk, ← hsum]
  exact congrArg some (target_of_wordFor hword k _)

/-- A table that is built by a list of calls. -/
def build (A : PageAllocator σ) (ps : Nat) (m₀ : Machine σ) (calls : List Call) :
    Except Fault (Nat × Machine σ) := do
  let (table, m) ← createStage2TranslationTable A ps m₀
  let m ← calls.foldlM (fun m call => mapAddressStage2 A (vtcrEl2 ps) call.access table
    call.physicalAddress call.intermediatePhysicalAddress call.mapSize m) m
  return (table, m)

theorem run_of_build {m₀ : Machine σ} (hvalid : A.Valid m₀.pool)
    (hmemory : ∀ a ∈ A.free m₀.pool, a < outputLimit (vtcrEl2 ps)) {calls : List Call}
    (h : build A ps m₀ calls = .ok (table, m)) :
    Run (Created A ps table) (BuildStep A ps table) (calls.map some) m := by
  -- the calls that are left, after a run of the others
  have hrest : ∀ (calls : List Call) {done : List (Option Call)} {m₁ m₂ : Machine σ},
      Run (Created A ps table) (BuildStep A ps table) done m₁ →
      calls.foldlM (fun m call => mapAddressStage2 A (vtcrEl2 ps) call.access table
        call.physicalAddress call.intermediatePhysicalAddress call.mapSize m) m₁ = .ok m₂ →
      Run (Created A ps table) (BuildStep A ps table) (done ++ calls.map some) m₂ := by
    intro calls
    induction calls with
    | nil =>
      intro done m₁ m₂ hr hfold
      cases hfold
      rwa [List.map_nil, List.append_nil]
    | cons call calls ih =>
      intro done m₁ m₂ hr hfold
      rw [List.foldlM_cons] at hfold
      obtain ⟨m₃, hmap, hfold⟩ := bind_eq_ok.1 hfold
      have hr' := ih (hr.next (.map hmap)) hfold
      rwa [List.append_assoc] at hr'
  unfold build at h
  obtain ⟨⟨t, m₁⟩, hcreate, h⟩ := bind_eq_ok.1 h
  obtain ⟨m₂, hfold, h⟩ := bind_eq_ok.1 h
  cases h
  exact hrest calls (.start ⟨m₀, hvalid, hmemory, hcreate⟩) hfold

end Runs

/-- A machine with 16 MiB of RAM at 2 GiB. -/
def smallMachine : Machine Allocator.MemoryAllocator := (boot 0x80000000 0x1000000).machine

/-- What a list of calls and a further one give: the translations of an address before and after. -/
def translations (idAa64mmfr0 : BitVec 64) (calls : List Call) (call : Call) (x : Nat) :
    Except Fault (Option Target × Option Target) := do
  let vtcr := vtcrEl2 (paRange idAa64mmfr0)
  let (table, m) ← build memoryPages (paRange idAa64mmfr0) smallMachine calls
  let m' ← mapAddressStage2 memoryPages vtcr call.access table call.physicalAddress
    call.intermediatePhysicalAddress call.mapSize m
  return (hardwareTranslate vtcr m.memory table x, hardwareTranslate vtcr m'.memory table x)

theorem exists_of_translations {idAa64mmfr0 : BitVec 64} {calls : List Call} {call : Call} {x : Nat}
    {old new : Option Target} (h : translations idAa64mmfr0 calls call x = .ok (old, new))
    (hlimit : 0x81000000 ≤ outputLimit (vtcrEl2 (paRange idAa64mmfr0))) :
    ∃ table m m', Run (Created memoryPages (paRange idAa64mmfr0) table)
        (BuildStep memoryPages (paRange idAa64mmfr0) table) (calls.map some) m ∧
      mapAddressStage2 memoryPages (vtcrEl2 (paRange idAa64mmfr0)) call.access table
        call.physicalAddress call.intermediatePhysicalAddress call.mapSize m = .ok m' ∧
      hardwareTranslate (vtcrEl2 (paRange idAa64mmfr0)) m.memory table x = old ∧
      hardwareTranslate (vtcrEl2 (paRange idAa64mmfr0)) m'.memory table x = new := by
  obtain ⟨hvalid, hfree⟩ := bank_spec 0x80000000 0x1000000 (by decide) (by decide)
  unfold translations at h
  obtain ⟨⟨table, m⟩, hbuild, h⟩ := bind_eq_ok.1 h
  obtain ⟨m', hmap, h⟩ := bind_eq_ok.1 h
  cases h
  refine ⟨table, m, m', run_of_build hvalid (fun a ha => ?_) hbuild, hmap, rfl, rfl⟩
  exact Nat.lt_of_lt_of_le (hfree ha).2 hlimit

/-! ## The range of a call -/

/-- For every table that is built by calls, a further call that returns makes the hardware translate
its range to the physical addresses, with what is asked for, exactly if these addresses are output
addresses of the translation. -/
theorem mapping_exact_iff {σ : Type} (A : PageAllocator σ) (idAa64mmfr0 : BitVec 64) {table : Nat}
    {calls : List (Option Call)} {m m' : Machine σ} (access : Access) {p ipa size : Nat}
    (hr : Run (Created A (paRange idAa64mmfr0) table) (BuildStep A (paRange idAa64mmfr0) table)
      calls m) (hp : pageSize ∣ p) (hipa : pageSize ∣ ipa)
    (hfits : ipa + size ≤ inputLimit (vtcrEl2 (paRange idAa64mmfr0)))
    (hmap : mapAddressStage2 A (vtcrEl2 (paRange idAa64mmfr0)) access table p ipa size m = .ok m') :
    (∀ i < size, hardwareTranslate (vtcrEl2 (paRange idAa64mmfr0)) m'.memory table (ipa + i) =
        some (access.target (p + i))) ↔
      p + size ≤ outputLimit (vtcrEl2 (paRange idAa64mmfr0)) := by
  have hps := paRange_lt idAa64mmfr0
  obtain ⟨own, h⟩ := built_of_run hps hr
  rw [inputLimit_eq hps] at hfits
  constructor
  · intro hall
    obtain ⟨⟨hpos, -⟩, own', hrooted, heffect, -⟩ :=
      mapAddressStage2_turns hps h.rooted hipa hfits hmap
    have hlast := (h.effect hrooted heffect).physicalAddress_lt hps (hall (size - 1) (by omega))
    change p + (size - 1) < _ at hlast
    omega
  · exact fun hout i hi => h.maps hps hp hipa hfits hout hmap hi

/-- Two pages of RAM on a CPU with physical addresses of 44 bits. -/
theorem mapping_exact_two_pages : ∃ table m', ∀ i < 0x2000,
    hardwareTranslate (vtcrEl2 (paRange 4)) m' table (0x40000000 + i) =
      some (ramAccess.target (0x80800000 + i)) := by
  have hok : translations 4 [] ⟨ramAccess, 0x80800000, 0x40000000, 0x2000⟩ 0 = .ok
    (none, none) := by
    decide +kernel
  obtain ⟨table, m, m', hr, hmap, -⟩ := exists_of_translations hok (by decide)
  exact ⟨table, m'.memory, (mapping_exact_iff memoryPages 4 ramAccess hr (by decide) (by decide)
    (by decide) hmap).2 (by decide)⟩

/-- On a CPU with physical addresses of 52 bits, the page at `2 ^ 48` is mapped to address 0. -/
theorem mapped_to_other_page : ∃ table calls m m',
    Run (Created memoryPages (paRange 6) table) (BuildStep memoryPages (paRange 6) table) calls m ∧
    mapAddressStage2 memoryPages (vtcrEl2 (paRange 6)) ramAccess table (2 ^ 48) 0x40000000 0x1000
      m = .ok m' ∧
    hardwareTranslate (vtcrEl2 (paRange 6)) m'.memory table 0x40000000 = some
      (ramAccess.target 0) := by
  have hok : translations 6 [] ⟨ramAccess, 2 ^ 48, 0x40000000, 0x1000⟩ 0x40000000 =
      .ok (none, some (ramAccess.target 0)) := by
    decide +kernel
  obtain ⟨table, m, m', hr, hmap, -, hnew⟩ := exists_of_translations hok (by decide)
  exact ⟨table, _, m, m', hr, hmap, hnew⟩

/-! ## The other addresses -/

/-- For every table that is built by calls, a further call that returns leaves the translation of
all other addresses as it was, exactly if no block, and no page, translates both an address of the
range and another one. -/
theorem mapping_frame_iff {σ : Type} (A : PageAllocator σ) (idAa64mmfr0 : BitVec 64) {table : Nat}
    {calls : List (Option Call)} {m m' : Machine σ} (access : Access) {p ipa size : Nat}
    (hr : Run (Created A (paRange idAa64mmfr0) table) (BuildStep A (paRange idAa64mmfr0) table)
      calls m)
    (hipa : pageSize ∣ ipa) (hfits : ipa + size ≤ inputLimit (vtcrEl2 (paRange idAa64mmfr0)))
    (hmap : mapAddressStage2 A (vtcrEl2 (paRange idAa64mmfr0)) access table p ipa size m = .ok m') :
    (∀ x, x < ipa ∨ ipa + size ≤ x →
        hardwareTranslate (vtcrEl2 (paRange idAa64mmfr0)) m'.memory table x =
          hardwareTranslate (vtcrEl2 (paRange idAa64mmfr0)) m.memory table x) ↔
      ∀ x k y, x < ipa ∨ ipa + size ≤ x →
        leafDepth (vtcrEl2 (paRange idAa64mmfr0)) m.memory table x = some k →
        ipa ≤ y → y < ipa + size → y / 2 ^ (12 + 9 * k) ≠ x / 2 ^ (12 + 9 * k) := by
  have hps := paRange_lt idAa64mmfr0
  obtain ⟨own, h⟩ := built_of_run hps hr
  rw [inputLimit_eq hps] at hfits
  obtain ⟨-, own', hrooted, heffect, hturns⟩ := mapAddressStage2_turns hps h.rooted hipa hfits hmap
  have hbuilt := h.effect hrooted heffect
  constructor
  · intro hall x k y hout hdepth hy hy' hxy
    rw [← size_eq] at hxy
    obtain ⟨⟨⟨k', d⟩, offset⟩, hw, rfl⟩ := Option.map_eq_some_iff.1 hdepth
    obtain ⟨hx, hfound, -⟩ := h.of_hardwareWalk hps hw
    -- The block is cut: the address had a translation and has none any more.
    have hnone := (hturns x hx).cut hout ⟨k', d, offset, hfound, y, hy, hy', hxy⟩
    have hsame := hall x hout
    unfold hardwareTranslate at hsame
    rw [hw, hbuilt.hardwareWalk_eq hps hx, hnone] at hsame
    cases hsame
  · intro hno x hout
    by_cases hx : x < ipaLimit (paRange idAa64mmfr0)
    case neg =>
      unfold hardwareTranslate
      rw [hardwareWalk_eq_none hps (Nat.not_lt.1 hx), hardwareWalk_eq_none hps (Nat.not_lt.1 hx)]
    unfold hardwareTranslate
    by_cases hcut : Cut ipa size x (wordLookup (paRange idAa64mmfr0) table m.memory x)
    · -- A block that is cut has no output address that the hardware accepts.
      have hnone := (hturns x hx).cut hout hcut
      obtain ⟨k, d, offset, hfound, y, hy, hy', hxy⟩ := hcut
      have hold : hardwareWalk (vtcrEl2 (paRange idAa64mmfr0)) m.memory table x = none := by
        cases hw : hardwareWalk (vtcrEl2 (paRange idAa64mmfr0)) m.memory table x with
        | none => rfl
        | some found =>
          obtain ⟨⟨k', d'⟩, offset'⟩ := found
          obtain ⟨-, hfound', -⟩ := h.of_hardwareWalk hps hw
          rw [hfound] at hfound'
          cases hfound'
          refine absurd ?_ (hno x k y hout (by unfold leafDepth; rw [hw]; rfl) hy hy')
          rw [← size_eq]
          exact hxy
      rw [hold, hbuilt.hardwareWalk_eq hps hx, hnone]
      rfl
    · rw [hbuilt.hardwareWalk_eq hps hx, h.hardwareWalk_eq hps hx, (hturns x hx).kept hout hcut]

/-- Nothing is translated by an empty table. -/
theorem Created.hardwareWalk_eq_none {σ : Type} {A : PageAllocator σ} {ps table : Nat}
    {m : Machine σ} (hps : ps < 16) (h : Created A ps table m) (x : Nat) :
    hardwareWalk (vtcrEl2 ps) m.memory table x = none := by
  obtain ⟨own, hbuilt⟩ := h.built hps
  obtain ⟨m₀, hvalid, hmemory, hcreate⟩ := h
  have hroot := createStage2TranslationTable_spec hps hvalid
    (fun a ha => Nat.lt_of_lt_of_le (hmemory a ha) (outputLimit_le _)) hcreate
  by_cases hx : x < ipaLimit ps
  · have hnone := hroot.lookup x hx
    rw [lookup_eq_map, Option.map_eq_none_iff] at hnone
    rw [hbuilt.hardwareWalk_eq hps hx, hnone]
    rfl
  · exact Paging.hardwareWalk_eq_none hps (Nat.not_lt.1 hx)

/-- A first page is mapped, and nothing else. -/
theorem mapping_frame_first_page : ∃ table m m', m' ≠ m ∧ ∀ x, x < 0x40000000 ∨
    0x40000000 + 0x1000 ≤ x → hardwareTranslate (vtcrEl2 (paRange 4)) m' table x =
      hardwareTranslate (vtcrEl2 (paRange 4)) m table x := by
  have hok : translations 4 [] ⟨ramAccess, 0x80800000, 0x40000000, 0x1000⟩ 0x40000000 =
      .ok (none, some (ramAccess.target 0x80800000)) := by
    decide +kernel
  obtain ⟨table, m, m', hr, hmap, hold, hnew⟩ := exists_of_translations hok (by decide)
  have hcreated : Created memoryPages (paRange 4) table m := hr.of_nil
  refine ⟨table, m.memory, m'.memory, fun heq => ?_,
    (mapping_frame_iff memoryPages 4 ramAccess hr (by decide) (by decide) hmap).2 ?_⟩
  · rw [heq, hold] at hnew
    cases hnew
  · intro x k y _ hdepth
    unfold leafDepth at hdepth
    rw [hcreated.hardwareWalk_eq_none (by decide)] at hdepth
    cases hdepth

/-- A page is mapped inside a block of 2 MiB. The rest of the block is lost. -/
theorem block_lost : ∃ table calls m m',
    Run (Created memoryPages (paRange 4) table) (BuildStep memoryPages (paRange 4) table) calls m ∧
    mapAddressStage2 memoryPages (vtcrEl2 (paRange 4)) deviceAccess table 0xff846000 0x40000000
      0x1000 m = .ok m' ∧
    hardwareTranslate (vtcrEl2 (paRange 4)) m.memory table 0x40001000 =
      some (ramAccess.target 0x80801000) ∧
    hardwareTranslate (vtcrEl2 (paRange 4)) m'.memory table 0x40001000 = none := by
  have hok : translations 4 [⟨ramAccess, 0x80800000, 0x40000000, 0x200000⟩]
      ⟨deviceAccess, 0xff846000, 0x40000000, 0x1000⟩ 0x40001000 =
        .ok (some (ramAccess.target 0x80801000), none) := by
    decide +kernel
  obtain ⟨table, m, m', hr, hmap, hold, hnew⟩ := exists_of_translations hok (by decide)
  exact ⟨table, _, m, m', hr, hmap, hold, hnew⟩

end MiniVisor.Paging
