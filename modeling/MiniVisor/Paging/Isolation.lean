import MiniVisor.Paging.Map
import MiniVisor.Allocator.Refinement

/-!
# Isolation of the memory of VMs

The system is the machine with its VMs, and with the bytes that the rest of the hypervisor uses
(`World`). It goes on by calls of `create_vm` and by anything else that allocates and frees memory
of its own and does not write to the tables.

A VM holds its RAM and the pages of its tables (`held`), and `Holds` says what its tables translate.
`createVm_spec` is this for a new VM, with memory that was free before, and `Holds.frame` for the
VMs that exist. The main result, `stage2_isolation`, is that the normal memory of a VM is its own
RAM and that it contains no RAM and no table of another one, as long as the RAM fits into the
address space of the translation. `address_space_exceeded` is a RAM that does not.
-/

set_option autoImplicit false

namespace MiniVisor.Paging

open MiniVisor.Lib MiniVisor.Lib.Radix

variable {σ : Type} {A : PageAllocator σ} {own own' : Owner}

/-! ## The root of the tables -/

/-- The field `PARange` of `ID_AA64MMFR0_EL1`. -/
def paRange (idAa64mmfr0 : BitVec 64) : Nat := (idAa64mmfr0 &&& 0b1111#64).toNat

theorem paRange_lt (register : BitVec 64) : paRange register < 16 := by
  have hle : (register &&& 0b1111#64).toNat ≤ 15 := by
    rw [BitVec.toNat_and]
    exact Nat.and_le_right
  exact Nat.lt_succ_of_le hle

/-- The number of tables at the initial level. -/
def rootTables (ps : Nat) : Nat :=
  numberOfConcatenatedPageTables (stage2Parameters ps).1 (stage2Parameters ps).2

/-- The depth of the initial level. -/
def rootDepth (ps : Nat) : Nat := 3 - (stage2Parameters ps).2

/-- The end of the intermediate physical addresses. -/
def ipaLimit (ps : Nat) : Nat := 2 ^ (64 - (stage2Parameters ps).1)

theorem t0szOf_vtcrEl2 {ps : Nat} (h : ps < 16) :
    t0szOf (vtcrEl2 ps) = (stage2Parameters ps).1 := by
  interval_cases ps <;> decide

theorem initialLookupLevel_vtcrEl2 {ps : Nat} (h : ps < 16) :
    initialLookupLevel (vtcrEl2 ps) = (stage2Parameters ps).2 := by
  interval_cases ps <;> decide

theorem rootTables_pos {ps : Nat} (h : ps < 16) : 0 < rootTables ps ∧ rootTables ps ≤ 8 := by
  interval_cases ps <;> decide

/-- The number of descriptors at the initial level is a power of two. -/
theorem rootTables_eq {ps : Nat} (h : ps < 16) : ∃ c < 13, rootTables ps * 512 = 2 ^ c := by
  interval_cases ps <;> decide

/-- The tables at the initial level cover the addresses of the translation. -/
theorem ipaLimit_le {ps : Nat} (h : ps < 16) :
    ipaLimit ps ≤ rootTables ps * 512 * span (rootDepth ps) := by
  interval_cases ps <;> decide

/-- The tables at the initial level. -/
def rootOwner (table n k : Nat) : Owner := fun a =>
  if table ≤ a ∧ a < table + 4096 * n ∧ (a - table) % 4096 = 0 then
    some (k, (a - table) / 4096 * (512 * span k))
  else none

theorem rootOwner_eq_some {table n k t : Nat} {x : Nat × Nat} (h : rootOwner table n k t = some x) :
    ∃ j < n, t = table + 4096 * j := by
  unfold rootOwner at h
  split_ifs at h with hin
  exact ⟨(t - table) / 4096, by omega, by omega⟩

theorem slot_rootOwner (table : Nat) {n i : Nat} (k : Nat) (hi : i < n * 512) :
    Slot (rootOwner table n k) k (table + 8 * i) (0 + i * span k) := by
  refine ⟨table + 4096 * (i / 512), i / 512 * (512 * span k), i % 512, ?_, by omega, by omega, ?_⟩
  · have hindex : (table + 4096 * (i / 512) - table) / 4096 = i / 512 := by omega
    unfold rootOwner
    rw [if_pos ⟨by omega, by omega, by omega⟩, hindex]
  · rw [← Nat.mul_assoc, ← Nat.add_mul, Nat.zero_add, Nat.mul_comm (i / 512), Nat.div_add_mod]

/-! ## One call of the mapping -/

section MapAddress

variable {access : Access} {m m' : Machine σ} {ps table p ipa size : Nat}

/-- The tables of a VM: those at the initial level and the tables below them. -/
structure Rooted (A : PageAllocator σ) (ps table : Nat) (own : Owner) (m : Machine σ) : Prop where
  sound : Sound A own m
  slot : ∀ i < rootTables ps * 512, Slot own (rootDepth ps) (table + 8 * i)
    (0 + i * span (rootDepth ps))
  serves : ∀ i < rootTables ps * 512,
    stage2Format.Serves own m.memory (rootDepth ps) (table + 8 * i) (0 + i * span (rootDepth ps))

/-- The lookup of an address at the initial level. -/
def lookup (ps table : Nat) (memory : Nat → Descriptor) (x : Nat) : Option (Leaf × Nat) :=
  stage2Format.walk memory (rootDepth ps) (table + 8 * (x / span (rootDepth ps))) x

theorem lookup_eq {memory : Nat → Descriptor} {i x : Nat} (hlo : i * span (rootDepth ps) ≤ x)
    (hhi : x < i * span (rootDepth ps) + span (rootDepth ps)) :
    lookup ps table memory x = stage2Format.walk memory (rootDepth ps) (table + 8 * i) x := by
  have hindex : x / span (rootDepth ps) = i := by
    apply Nat.div_eq_of_lt_le hlo
    rw [Nat.succ_mul]
    exact hhi
  rw [lookup, hindex]

/-- The descriptor of an address, with its depth, and the position in it. -/
def wordLookup (ps table : Nat) (memory : Nat → Descriptor) (x : Nat) : Found :=
  wordFormat.walk memory (rootDepth ps) (table + 8 * (x / span (rootDepth ps))) x

theorem lookup_eq_map (memory : Nat → Descriptor) (x : Nat) :
    lookup ps table memory x = (wordLookup ps table memory x).map (Prod.map leafAt id) :=
  stage2Format_walk memory _ _ x

theorem wordLookup_eq {memory : Nat → Descriptor} {i x : Nat} (hlo : i * span (rootDepth ps) ≤ x)
    (hhi : x < i * span (rootDepth ps) + span (rootDepth ps)) :
    wordLookup ps table memory x = wordFormat.walk memory (rootDepth ps) (table + 8 * i) x := by
  have hindex : x / span (rootDepth ps) = i := by
    apply Nat.div_eq_of_lt_le hlo
    rw [Nat.succ_mul]
    exact hhi
  rw [wordLookup, hindex]

/-- The addresses of a page or block lead to it. -/
theorem wordLookup_same {memory : Nat → Descriptor} {x y k offset : Nat} {d : Descriptor}
    (h : wordLookup ps table memory x = some ((k, d), offset)) (hxy : y / span k = x / span k) :
    offset = x % span k ∧ wordLookup ps table memory y = some ((k, d), y % span k) := by
  obtain ⟨hle, hoffset, hy⟩ := walk_same_word _ h hxy
  have hsize : span (rootDepth ps) = span k * 512 ^ (rootDepth ps - k) := by
    show 4096 * 512 ^ rootDepth ps = 4096 * 512 ^ k * 512 ^ (rootDepth ps - k)
    rw [Nat.mul_assoc, ← Nat.pow_add, Nat.add_sub_cancel' hle]
  have hindex : y / span (rootDepth ps) = x / span (rootDepth ps) := by
    rw [hsize, ← Nat.div_div_eq_div_mul, ← Nat.div_div_eq_div_mul, hxy]
  refine ⟨hoffset, ?_⟩
  rw [wordLookup, hindex]
  exact hy

/-- The mapping with the three words at their first values. -/
def mappingOf (m : Machine σ) (p ipa size : Nat) : Mapping σ :=
  { m with physicalAddress := p, intermediatePhysicalAddress := ipa, remainingSize := size }

/-- A call that returns is one of the walk from the initial level, with whole pages. -/
theorem mapTable_of_mapAddressStage2 (hps : ps < 16)
    (hmap : mapAddressStage2 A (vtcrEl2 ps) access table p ipa size m = .ok m') :
    4096 ∣ size ∧ ∃ m₁, mapTable A access (rootDepth ps) (rootTables ps * 512) table
      (mappingOf m p ipa size) = .ok m₁ ∧ m₁.toMachine = m' := by
  unfold mapAddressStage2 at hmap
  split_ifs at hmap with hpages
  rw [not_not] at hpages
  dsimp only at hmap
  rw [initialLookupLevel_vtcrEl2 hps, t0szOf_vtcrEl2 hps] at hmap
  obtain ⟨m₁, htable, hm'⟩ := bind_eq_ok.1 hmap
  cases hm'
  exact ⟨span_dvd_of_and_eq_zero (k := 0) hpages, m₁, htable, rfl⟩

/-- Every call that returns leaves sound tables. -/
theorem mapAddressStage2_keeps (hps : ps < 16) (h : Rooted A ps table own m)
    (hmap : mapAddressStage2 A (vtcrEl2 ps) access table p ipa size m = .ok m') :
    ∃ own', Rooted A ps table own' m' ∧
      Effect A own own' m m' (rootDepth ps) 0 (rootTables ps * 512 * span (rootDepth ps)) := by
  obtain ⟨-, m₁, htable, rfl⟩ := mapTable_of_mapAddressStage2 hps hmap
  have hserves : ∀ i < rootTables ps * 512, wordFormat.Serves own m.memory (rootDepth ps)
      (table + 8 * i) (0 + i * span (rootDepth ps)) := fun i hi => serves_iff.1 (h.serves i hi)
  obtain ⟨own', hkeeps⟩ := mapTable_keeps access (rootDepth ps)
    (Nat.mul_pos (rootTables_pos hps).1 (by decide)) h.sound h.slot hserves htable
  have heffect := hkeeps.effect
  rw [Nat.zero_add] at heffect
  exact ⟨own', ⟨hkeeps.sound, fun i hi => (h.slot i hi).grows heffect.grows,
    fun i hi => serves_iff.2 (hkeeps.serves i hi)⟩, heffect⟩

/-- A call inside the address space maps its range, and the other addresses keep their descriptors,
unless they are in a block that the range cuts. -/
theorem mapAddressStage2_turns (hps : ps < 16) (h : Rooted A ps table own m) (hipa : 4096 ∣ ipa)
    (hfits : ipa + size ≤ ipaLimit ps)
    (hmap : mapAddressStage2 A (vtcrEl2 ps) access table p ipa size m = .ok m') :
    (0 < size ∧ 4096 ∣ size) ∧ ∃ own', Rooted A ps table own' m' ∧
      Effect A own own' m m' (rootDepth ps) 0 (rootTables ps * 512 * span (rootDepth ps)) ∧
      ∀ x < ipaLimit ps, Turns access (mappingOf m p ipa size) size x
        (wordLookup ps table m'.memory x) (wordLookup ps table m.memory x) := by
  have hlimit := ipaLimit_le hps
  obtain ⟨c, -, hc⟩ := rootTables_eq hps
  obtain ⟨hdvd, m₁, htable, rfl⟩ := mapTable_of_mapAddressStage2 hps hmap
  have hsize : 0 < size :=
    mapTable_pos access (rootDepth ps) (Nat.mul_pos (rootTables_pos hps).1 (by decide)) htable
  have hready : TableReady own (mappingOf m p ipa size) (rootDepth ps) table
    (rootTables ps * 512) 0 :=
    ⟨h.slot, Nat.dvd_zero _, fun i hi => serves_iff.1 (h.serves i hi), Nat.zero_le _,
      show ipa < 0 + rootTables ps * 512 * span (rootDepth ps) by omega, hipa, hsize⟩
  obtain ⟨own', n, hmaps, hfull⟩ := mapTable_spec access (rootDepth ps) hc h.sound hready htable
  have hn : n = size := by
    have hi : m₁.intermediatePhysicalAddress = ipa + n := hmaps.moves.intermediate
    have hr : size = m₁.remainingSize + n := hmaps.moves.remaining
    omega
  refine ⟨⟨hsize, hdvd⟩, own', ⟨hmaps.sound, fun i hi => (h.slot i hi).grows hmaps.effect.grows,
    fun i hi => serves_iff.2 (hmaps.serves i hi)⟩, ?_, fun x hx => ?_⟩
  · have heffect := hmaps.effect
    rwa [Nat.zero_add] at heffect
  · obtain ⟨i, hi, hlo, hhi⟩ := exists_index (Nat.zero_le x)
      (show x < 0 + rootTables ps * 512 * span (rootDepth ps) by omega)
    have hlook := hmaps.lookup i hi x hlo hhi
    rw [Nat.zero_add] at hlo hhi
    rw [wordLookup_eq hlo hhi, wordLookup_eq hlo hhi]
    rwa [hn] at hlook

/-- The lookup of `x` leads to the address that belongs to it when `ipa` is mapped to `p`. -/
def Shows (access : Access) (p ipa x : Nat) (found : Option (Leaf × Nat)) : Prop :=
  ∃ l offset, found = some (l, offset) ∧
    l.attributes = (if access.isDevice then 0#4 else 15#4) ∧
    l.permission = access.permission.extractLsb' 0 2 ∧
    (4096 ∣ p → p + (x - ipa) < 2 ^ 48 → l.base + offset = p + (x - ipa))

/-- The lookup of `x` is mapped when `n` bytes are, and `x` is one of them; otherwise it is as
before. -/
structure Looks (access : Access) (m : Mapping σ) (n x : Nat) (new old : Option (Leaf × Nat)) :
    Prop where
  mapped : m.intermediatePhysicalAddress ≤ x → x < m.intermediatePhysicalAddress + n →
    Shows access m.physicalAddress m.intermediatePhysicalAddress x new
  kept : x < m.intermediatePhysicalAddress ∨ m.intermediatePhysicalAddress + n ≤ x → new = old

/-- A range that is not mapped yet is mapped, and the other addresses are looked up as before. -/
theorem mapAddressStage2_spec (hps : ps < 16) (h : Rooted A ps table own m) (hipa : 4096 ∣ ipa)
    (hfits : ipa + size ≤ ipaLimit ps)
    (hfree : ∀ x, ipa ≤ x → x < ipa + size → lookup ps table m.memory x = none)
    (hmap : mapAddressStage2 A (vtcrEl2 ps) access table p ipa size m = .ok m') :
    (0 < size ∧ 4096 ∣ size) ∧ ∃ own', Rooted A ps table own' m' ∧
      Effect A own own' m m' (rootDepth ps) 0 (rootTables ps * 512 * span (rootDepth ps)) ∧
      ∀ x < ipaLimit ps, Looks access { m with
        physicalAddress := p, intermediatePhysicalAddress := ipa, remainingSize := size } size x
          (lookup ps table m'.memory x) (lookup ps table m.memory x) := by
  obtain ⟨hpages, own', hrooted, heffect, hturns⟩ := mapAddressStage2_turns hps h hipa hfits hmap
  refine ⟨hpages, own', hrooted, heffect, fun x hx => ⟨fun hlo hhi => ?_, fun hout => ?_⟩⟩
  · obtain ⟨k, d, hfound, -, -, hword, hbase⟩ := (hturns x hx).mapped hlo hhi
    rw [lookup_eq_map, hfound]
    exact ⟨_, _, rfl, hword.attributes, hword.permission, hbase⟩
  · rw [lookup_eq_map, lookup_eq_map, (hturns x hx).kept hout]
    -- A block that is cut would lead somewhere from the range.
    rintro ⟨k, d, offset, hfound, y, hy, hy', hxy⟩
    have hnone := hfree y hy hy'
    rw [lookup_eq_map, (wordLookup_same hfound hxy).2] at hnone
    cases hnone

end MapAddress

/-! ## The memory of a VM -/

/-- The RAM of a VM. -/
def Vm.ram (vm : Vm) : Set Nat :=
  Set.Ico vm.ramPhysicalAddress (vm.ramPhysicalAddress + vm.ramSize)

/-- The bytes of a VM: its RAM and the pages of its tables. -/
def held (vm : Vm) (own : Owner) : Set Nat := vm.ram ∪ { a | ∃ t x, own t = some x ∧ a ∈ page t }

/-- The addresses of the RAM lead to it, and no other address leads to normal memory. -/
structure Translates (ps : Nat) (memory : Nat → Descriptor) (vm : Vm) : Prop where
  ram : ∀ x, ramVirtualBase ≤ x → x < ramVirtualBase + vm.ramSize → x < ipaLimit ps →
    Shows ramAccess vm.ramPhysicalAddress ramVirtualBase x
      (lookup ps vm.stage2TableAddress memory x)
  other : ∀ x < ipaLimit ps, x < ramVirtualBase ∨ ramVirtualBase + vm.ramSize ≤ x →
    ∀ l offset, lookup ps vm.stage2TableAddress memory x = some (l, offset) → ¬l.Normal

/-- What the rest of the system leaves to a VM. -/
structure Holds (A : PageAllocator σ) (ps : Nat) (m : Machine σ) (others : Set Nat) (vm : Vm)
    (own : Owner) : Prop where
  aligned : Aligned own
  slot : ∀ i < rootTables ps * 512,
    Slot own (rootDepth ps) (vm.stage2TableAddress + 8 * i) (0 + i * span (rootDepth ps))
  serves : ∀ i < rootTables ps * 512, stage2Format.Serves own m.memory (rootDepth ps)
    (vm.stage2TableAddress + 8 * i) (0 + i * span (rootDepth ps))
  tables : ∀ t x, own t = some x → Disjoint vm.ram (page t)
  apart : Disjoint (held vm own) (A.free m.pool ∪ others)
  pages : 4096 ∣ vm.ramPhysicalAddress
  fits : ramVirtualBase + vm.ramSize ≤ ipaLimit ps
  below : vm.ramPhysicalAddress + vm.ramSize ≤ 2 ^ 48
  translates : Translates ps m.memory vm

section Holds

variable {ps : Nat} {m m' : Machine σ} {others others' : Set Nat} {vm : Vm}

/-- The words of the tables at the initial level are words of recorded tables. -/
theorem lookup_frame (h : Holds A ps m others vm own)
    (hmem : ∀ t x, own t = some x → ∀ i < 512, m'.memory (t + 8 * i) = m.memory (t + 8 * i)) :
    ∀ i < rootTables ps * 512,
      stage2Format.Serves own m'.memory (rootDepth ps) (vm.stage2TableAddress + 8 * i)
        (0 + i * span (rootDepth ps)) ∧
      ∀ x, stage2Format.walk m'.memory (rootDepth ps) (vm.stage2TableAddress + 8 * i) x =
        stage2Format.walk m.memory (rootDepth ps) (vm.stage2TableAddress + 8 * i) x := by
  intro i hi
  have hsame : stage2Format.Same own m.memory m'.memory (rootDepth ps)
      (vm.stage2TableAddress + 8 * i) (0 + i * span (rootDepth ps)) := by
    refine ⟨?_, fun t ⟨k, b, ht, _⟩ => hmem t _ ht⟩
    obtain ⟨t, c, j, ht, hj, he, -⟩ := h.slot i hi
    rw [he]
    exact hmem t _ ht j hj
  obtain ⟨hserves, hwalk, -⟩ := (h.serves i hi).frame (Owner.Grows.refl own) _ hsame
  exact ⟨hserves, hwalk⟩

/-- A VM keeps what it holds when its tables are not written and its bytes are neither freed nor
used by others. -/
theorem Holds.frame (hps : ps < 16) (h : Holds A ps m others vm own)
    (hmem : ∀ t x, own t = some x → ∀ i < 512, m'.memory (t + 8 * i) = m.memory (t + 8 * i))
    (hapart : Disjoint (held vm own) (A.free m'.pool ∪ others')) :
    Holds A ps m' others' vm own := by
  have hframe := lookup_frame h hmem
  have hlimit := ipaLimit_le hps
  have hlookup : ∀ x < ipaLimit ps, lookup ps vm.stage2TableAddress m'.memory x =
      lookup ps vm.stage2TableAddress m.memory x := by
    intro x hx
    obtain ⟨i, hi, hlo, hhi⟩ := exists_index (Nat.zero_le x)
      (show x < 0 + rootTables ps * 512 * span (rootDepth ps) by omega)
    rw [Nat.zero_add] at hlo hhi
    rw [lookup_eq hlo hhi, lookup_eq hlo hhi, (hframe i hi).2]
  refine ⟨h.aligned, h.slot, fun i hi => (hframe i hi).1, h.tables, hapart, h.pages, h.fits,
    h.below, ⟨fun x hlo hhi hx => ?_, fun x hx hout l offset hl => ?_⟩⟩
  · rw [hlookup x hx]
    exact h.translates.ram x hlo hhi hx
  · rw [hlookup x hx] at hl
    exact h.translates.other x hx hout l offset hl

end Holds

/-! ## A new VM -/

/-- The RAM and the virtual CPU interface fit into the address space of the translation and do not
overlap there, and there is no memory above the output addresses of a descriptor. -/
structure Fits (A : PageAllocator σ) (ps : Nat) (m : Machine σ) (parameters : Parameters) :
    Prop where
  space : ramVirtualBase + parameters.ramSize ≤ ipaLimit ps
  apart : guestGicCpuInterfaceAddress + parameters.gicVirtualCpuInterfaceSize ≤ ramVirtualBase
  memory : ∀ a ∈ A.free m.pool, a < 2 ^ 48

section Create

variable {ps table : Nat} {m m' : Machine σ} {vm : Vm}

/-- The empty tables of a new VM. -/
structure Root (A : PageAllocator σ) (ps table : Nat) (m m' : Machine σ) : Prop where
  rooted : Rooted A ps table (rootOwner table (rootTables ps) (rootDepth ps)) m'
  taken : ∀ t x, rootOwner table (rootTables ps) (rootDepth ps) t = some x →
    page t ⊆ A.free m.pool
  shrinks : A.free m'.pool ⊆ A.free m.pool
  lookup : ∀ x < ipaLimit ps, lookup ps table m'.memory x = none
  writes : ∀ a, m'.memory a ≠ m.memory a →
    ∃ t x, rootOwner table (rootTables ps) (rootDepth ps) t = some x ∧ a ∈ page t

theorem createStage2TranslationTable_spec (hps : ps < 16) (hv : A.Valid m.pool)
    (hb : ∀ a ∈ A.free m.pool, a < 2 ^ 48)
    (h : createStage2TranslationTable A ps m = .ok (table, m')) : Root A ps table m m' := by
  obtain ⟨hpos, hle⟩ := rootTables_pos hps
  change (takePages A m.pool (rootTables ps) (12 + rootTables ps - 1) >>= fun r =>
    .ok (r.1, ⟨initTable m.memory r.1 (rootTables ps * 512), r.2⟩)) = .ok (table, m') at h
  obtain ⟨⟨table, pool⟩, htake, h⟩ := bind_eq_ok.1 h
  cases h
  obtain ⟨hvalid, hdvd, hfree, hfree'⟩ := takePages_spec hv (by omega) (by omega) htake
  have hpage : 4096 ∣ table :=
    Nat.dvd_trans (Nat.pow_dvd_pow 2 (show 12 ≤ 12 + rootTables ps - 1 by omega)) hdvd
  have hpages : ∀ t x, rootOwner table (rootTables ps) (rootDepth ps) t = some x →
      page t ⊆ Set.Ico table (table + rootTables ps * pageSize) := by
    intro t x ht a ha
    obtain ⟨j, hj, rfl⟩ := rootOwner_eq_some ht
    obtain ⟨hlo, hhi⟩ := ha
    have : (j + 1) * 4096 ≤ rootTables ps * 4096 := Nat.mul_le_mul_right _ hj
    exact ⟨by omega, by show a < table + rootTables ps * 4096; omega⟩
  have hkind : ∀ i < rootTables ps * 512, ∀ k,
      stage2Format.kind k (initTable m.memory table (rootTables ps * 512) (table + 8 * i)) =
        .empty := by
    intro i hi k
    rw [initTable_slot hi]
    exact kind_init k
  have haligned : Aligned (rootOwner table (rootTables ps) (rootDepth ps)) := by
    intro t x ht
    have hin : t ∈ A.free m.pool := hfree (hpages t x ht ⟨Nat.le_refl t, by omega⟩)
    obtain ⟨j, hj, rfl⟩ := rootOwner_eq_some ht
    exact ⟨Nat.dvd_add hpage (Nat.dvd_mul_right _ _), hb _ hin⟩
  have hsound : Sound A (rootOwner table (rootTables ps) (rootDepth ps))
      ⟨initTable m.memory table (rootTables ps * 512), pool⟩ := by
    refine ⟨hvalid, fun a ha => ?_, haligned, fun t x ht => ?_, ?_⟩
    · rw [hfree'] at ha
      exact hb a ha.1
    · rw [hfree']
      exact Set.disjoint_sdiff_right.mono_left (hpages t x ht)
    · intro k e b t ⟨u, c, i, hu, hi, he, _⟩ ht
      obtain ⟨j, hj, rfl⟩ := rootOwner_eq_some hu
      have hword := hkind (j * 512 + i) (by omega) (k + 1)
      rw [show table + 8 * (j * 512 + i) = e by omega] at hword
      rw [show descriptorKind (k + 1) _ = _ from hword] at ht
      cases ht
  refine ⟨⟨hsound, fun i hi => slot_rootOwner table _ hi, fun i hi => ?_⟩,
    fun t x ht => (hpages t x ht).trans hfree, ?_, fun x hx => ?_, fun a ha => ?_⟩
  · apply Format.serves_of_no_table
    intro t
    rw [hkind i hi]
    nofun
  · rw [hfree']
    exact Set.sdiff_subset
  · have hlimit := ipaLimit_le hps
    obtain ⟨i, hi, hlo, hhi⟩ := exists_index (Nat.zero_le x)
      (show x < 0 + rootTables ps * 512 * span (rootDepth ps) by omega)
    rw [Nat.zero_add] at hlo hhi
    rw [lookup_eq hlo hhi]
    exact Format.walk_empty (hkind i hi _) x
  · obtain ⟨i, hi, rfl⟩ := initTable_eq ha
    obtain ⟨t, c, j, ht, hj, he, -⟩ := slot_rootOwner table (rootDepth ps) hi
    rw [he]
    exact ⟨t, _, ht, mem_page_of_lt hj⟩

/-- What a call of `create_vm` gives to the new VM, and what it changes. -/
structure Creates (A : PageAllocator σ) (ps : Nat) (m m' : Machine σ) (vm : Vm) (own : Owner) :
    Prop where
  valid : A.Valid m'.pool
  shrinks : A.free m'.pool ⊆ A.free m.pool
  taken : held vm own ⊆ A.free m.pool
  writes : ∀ a, m'.memory a ≠ m.memory a → ∃ t x, own t = some x ∧ a ∈ page t
  holds : ∀ others, Disjoint (A.free m.pool) others → Holds A ps m' others vm own

theorem not_normal_device {p ipa x : Nat} {found : Option (Leaf × Nat)}
    (h : Shows deviceAccess p ipa x found) {l : Leaf} {offset : Nat}
    (hl : found = some (l, offset)) : ¬l.Normal := by
  obtain ⟨l', offset', hfound, hattr, -, -⟩ := h
  rw [hl] at hfound
  cases hfound
  unfold Leaf.Normal
  rw [hattr]
  decide

theorem createVm_spec (hps : ps < 16) (hv : A.Valid m.pool) {parameters : Parameters}
    (hfits : Fits A ps m parameters) (h : createVm A ps parameters m = .ok (vm, m')) :
    ∃ own, Creates A ps m m' vm own := by
  have hspace := hfits.space
  have hapart := hfits.apart
  have hsize : parameters.ramSize < 2 ^ 48 := by
    have hlimit : ipaLimit ps ≤ 2 ^ 48 := by
      interval_cases ps <;> decide
    have : 0 < ramVirtualBase := by decide
    omega
  unfold createVm at h
  obtain ⟨⟨ram, pool⟩, hram, h⟩ := bind_eq_ok.1 h
  obtain ⟨⟨table, m₂⟩, htable, h⟩ := bind_eq_ok.1 h
  obtain ⟨m₃, hmap, h⟩ := bind_eq_ok.1 h
  obtain ⟨m₄, hdevice, h⟩ := bind_eq_ok.1 h
  cases h
  have hcount : parameters.ramSize >>> pageShift < 2 ^ 52 := by
    rw [Nat.shiftRight_eq_div_pow]
    exact Nat.lt_of_le_of_lt (Nat.div_le_self _ _) (by omega)
  obtain ⟨hvalid, hdvd, hfree, hfree'⟩ := takePages_spec hv (by decide) hcount hram
  have hroot := createStage2TranslationTable_spec hps hvalid
    (fun a ha => hfits.memory a (by rw [hfree'] at ha; exact ha.1)) htable
  -- The RAM is mapped into the empty tables.
  obtain ⟨⟨hpos, hpages⟩, own₁, hrooted₁, heffect₁, hlook₁⟩ := mapAddressStage2_spec
    hps hroot.rooted
    (by decide) hspace (fun x _ hx => hroot.lookup x (by omega)) hmap
  have hbytes : parameters.ramSize >>> pageShift * pageSize = parameters.ramSize := by
    rw [Nat.shiftRight_eq_div_pow]
    exact Nat.div_mul_cancel hpages
  rw [hbytes] at hfree hfree'
  -- The interface is mapped at addresses that are still free.
  obtain ⟨-, own₂, hrooted₂, heffect₂, hlook₂⟩ := mapAddressStage2_spec hps hrooted₁ (by decide)
    (by omega) (fun x hlo hhi => by
      rw [(hlook₁ x (by omega)).kept (.inl (by dsimp only; omega))]
      exact hroot.lookup x (by omega)) hdevice
  have heffect := heffect₁.trans heffect₂
  have htaken : ∀ t x, own₂ t = some x → page t ⊆ A.free pool := by
    intro t x ht
    cases h₀ : rootOwner table (rootTables ps) (rootDepth ps) t with
    | some y => exact hroot.taken t y h₀
    | none => exact (heffect.fresh t x h₀ ht).trans hroot.shrinks
  have hshrinks : A.free m'.pool ⊆ A.free pool := heffect.shrinks.trans hroot.shrinks
  have hram : ∀ t x, own₂ t = some x →
      Disjoint (Set.Ico ram (ram + parameters.ramSize)) (page t) := by
    intro t x ht
    have hsub := htaken t x ht
    rw [hfree'] at hsub
    exact Set.disjoint_sdiff_right.mono_right hsub
  have hheld : held ⟨ram, parameters.ramSize, table⟩ own₂ ⊆ A.free m.pool := by
    rintro a (ha | ⟨t, x, ht, ha⟩)
    · exact hfree ha
    · have hin := htaken t x ht ha
      rw [hfree'] at hin
      exact hin.1
  have hnow : Disjoint (held ⟨ram, parameters.ramSize, table⟩ own₂) (A.free m'.pool) := by
    rw [Set.disjoint_left]
    rintro a (ha | ⟨t, x, ht, ha⟩) hin
    · have hin' := hshrinks hin
      rw [hfree'] at hin'
      exact hin'.2 ha
    · exact Set.disjoint_left.1 (hrooted₂.sound.held t x ht) ha hin
  refine ⟨own₂, hrooted₂.sound.valid, ?_, hheld, fun a ha => ?_, fun others hothers => ?_⟩
  · rw [hfree'] at hshrinks
    exact hshrinks.trans Set.sdiff_subset
  · by_cases hchanged : m'.memory a = m₂.memory a
    · rw [hchanged] at ha
      obtain ⟨t, x, ht, hin⟩ := hroot.writes a ha
      exact ⟨t, x, heffect.grows t x ht, hin⟩
    · obtain ⟨k, b, ⟨t, c, i, ht, hi, he, -⟩, -⟩ := heffect.writes a hchanged
      rw [he]
      exact ⟨t, _, ht, mem_page_of_lt hi⟩
  · refine ⟨hrooted₂.sound.aligned, hrooted₂.slot, hrooted₂.serves, hram,
      Set.disjoint_union_right.2 ⟨hnow, hothers.mono_left hheld⟩, hdvd, hspace, ?_, ?_⟩
    · have hlast : ram + parameters.ramSize - 1 ∈ A.free m.pool :=
        hfree ⟨by omega, by omega⟩
      have := hfits.memory _ hlast
      show ram + parameters.ramSize ≤ 2 ^ 48
      omega
    · refine ⟨fun x hlo hhi hx => ?_, fun x hx hout l offset hl => ?_⟩
      · dsimp only at hhi ⊢
        rw [(hlook₂ x hx).kept (.inr (by dsimp only; omega))]
        exact (hlook₁ x hx).mapped hlo hhi
      · dsimp only at hout hl
        by_cases hin : guestGicCpuInterfaceAddress ≤ x ∧
            x < guestGicCpuInterfaceAddress + parameters.gicVirtualCpuInterfaceSize
        · exact not_normal_device ((hlook₂ x hx).mapped hin.1 hin.2) hl
        · rw [(hlook₂ x hx).kept (by dsimp only; omega), (hlook₁ x hx).kept (by dsimp only; omega),
            hroot.lookup x hx] at hl
          cases hl

end Create

/-! ## Runs -/

/-- The machine, its VMs, and the bytes that the rest of the hypervisor uses. -/
structure World (σ : Type) where
  machine : Machine σ
  vms : List Vm
  others : Set Nat

/-- What happens to the machine: a VM is created, or something else. -/
inductive Action where
  | create (parameters : Parameters)
  | other

/-- The memory that belongs to no table. -/
def World.writable (A : PageAllocator σ) (s : World σ) : Set Nat :=
  A.free s.machine.pool ∪ s.others ∪ { a | ∃ vm ∈ s.vms, a ∈ vm.ram }

inductive Step (A : PageAllocator σ) (ps : Nat) : World σ → Action → World σ → Prop where
  | create {s : World σ} {parameters : Parameters} {vm : Vm} {m' : Machine σ}
      (h : createVm A ps parameters s.machine = .ok (vm, m')) :
      Step A ps s (.create parameters) ⟨m', vm :: s.vms, s.others⟩
  /-- Guests write to their RAM, and the rest of the hypervisor takes free memory, gives its own
  back and writes to it. -/
  | other {s : World σ} {machine : Machine σ} {others : Set Nat} (hvalid : A.Valid machine.pool)
      (hbytes : A.free machine.pool ∪ others ⊆ A.free s.machine.pool ∪ s.others)
      (hapart : Disjoint (A.free machine.pool) others)
      (hmem : ∀ a, machine.memory a ≠ s.machine.memory a → a ∈ s.writable A) :
      Step A ps s .other ⟨machine, s.vms, others⟩

def Initial (A : PageAllocator σ) (s : World σ) : Prop :=
  s.vms = [] ∧ A.Valid s.machine.pool ∧ Disjoint (A.free s.machine.pool) s.others

/-- A step where a new VM fits into the address space. -/
def FitStep (A : PageAllocator σ) (ps : Nat) (s : World σ) (action : Action) (s' : World σ) :
    Prop :=
  (∀ parameters, action = .create parameters → Fits A ps s.machine parameters) ∧
    Step A ps s action s'

/-- The VMs with the records of their tables. -/
structure Separate (A : PageAllocator σ) (ps : Nat) (s : World σ) (ghosts : List (Vm × Owner)) :
    Prop where
  vms : ghosts.map Prod.fst = s.vms
  valid : A.Valid s.machine.pool
  apart : Disjoint (A.free s.machine.pool) s.others
  holds : ∀ g ∈ ghosts, Holds A ps s.machine s.others g.1 g.2
  pairwise : ghosts.Pairwise fun g g' => Disjoint (held g.1 g.2) (held g'.1 g'.2)

section Runs

variable {ps : Nat} {s s' : World σ} {action : Action} {ghosts : List (Vm × Owner)}

theorem slot_mem_page {t i : Nat} (hi : i < 512) : t + 8 * i ∈ page t := mem_page_of_lt hi

/-- The VMs are separate in every pair, the two sides of which may be one VM only when it is the
same element. -/
theorem Separate.disjoint (h : Separate A ps s ghosts) {g g' : Vm × Owner} (hg : g ∈ ghosts)
    (hg' : g' ∈ ghosts) : Disjoint g.1.ram { a | ∃ t x, g'.2 t = some x ∧ a ∈ page t } := by
  by_cases heq : g = g'
  · subst heq
    rw [Set.disjoint_left]
    rintro a ha ⟨t, x, ht, hin⟩
    exact Set.disjoint_left.1 ((h.holds g hg).tables t x ht) ha hin
  · have hsymm : Std.Symm fun g g' : Vm × Owner => Disjoint (held g.1 g.2) (held g'.1 g'.2) :=
      ⟨fun _ _ hd => hd.symm⟩
    exact (h.pairwise.forall hg hg' heq).mono Set.subset_union_left Set.subset_union_right

/-- A step that creates a VM leaves the others what they hold, since it writes only to memory that
was free. -/
theorem Separate.create (hps : ps < 16) (h : Separate A ps s ghosts) {parameters : Parameters}
    {vm : Vm} {m' : Machine σ} (hfits : Fits A ps s.machine parameters)
    (hcreate : createVm A ps parameters s.machine = .ok (vm, m')) :
    ∃ own, Separate A ps ⟨m', vm :: s.vms, s.others⟩ ((vm, own) :: ghosts) := by
  obtain ⟨own, hnew⟩ := createVm_spec hps h.valid hfits hcreate
  have hpages : { a | ∃ t x, own t = some x ∧ a ∈ page t } ⊆ A.free s.machine.pool :=
    Set.subset_union_right.trans hnew.taken
  have hold : ∀ g ∈ ghosts, Holds A ps m' s.others g.1 g.2 := by
    intro g hg
    have hg' := h.holds g hg
    refine hg'.frame hps (fun t x ht i hi => ?_) ?_
    · by_contra hne
      have hfree := hpages (hnew.writes _ hne)
      exact Set.disjoint_left.1 hg'.apart (.inr ⟨t, x, ht, slot_mem_page hi⟩) (.inl hfree)
    · exact hg'.apart.mono_right (Set.union_subset_union_left _ hnew.shrinks)
  refine ⟨own, by rw [List.map_cons, h.vms], hnew.valid, h.apart.mono_left hnew.shrinks, ?_, ?_⟩
  · rintro g (_ | ⟨_, hg⟩)
    · exact hnew.holds s.others h.apart
    · exact hold g hg
  · refine List.pairwise_cons.2 ⟨fun g hg => ?_, h.pairwise⟩
    exact ((h.holds g hg).apart.mono_right (hnew.taken.trans Set.subset_union_left)).symm

/-- Nothing else writes to the tables. -/
theorem Separate.other (hps : ps < 16) (h : Separate A ps s ghosts) {machine : Machine σ}
    {others : Set Nat} (hvalid : A.Valid machine.pool)
    (hbytes : A.free machine.pool ∪ others ⊆ A.free s.machine.pool ∪ s.others)
    (hapart : Disjoint (A.free machine.pool) others)
    (hmem : ∀ a, machine.memory a ≠ s.machine.memory a → a ∈ s.writable A) :
    Separate A ps ⟨machine, s.vms, others⟩ ghosts := by
  refine ⟨h.vms, hvalid, hapart, fun g hg => ?_, h.pairwise⟩
  have hg' := h.holds g hg
  refine hg'.frame hps (fun t x ht i hi => ?_) (hg'.apart.mono_right hbytes)
  by_contra hne
  rcases hmem _ hne with hin | ⟨vm, hvm, hin⟩
  · exact Set.disjoint_left.1 hg'.apart (.inr ⟨t, x, ht, slot_mem_page hi⟩) hin
  · rw [← h.vms] at hvm
    obtain ⟨g₁, hg₁, rfl⟩ := List.mem_map.1 hvm
    exact Set.disjoint_left.1 (h.disjoint hg₁ hg) hin ⟨t, x, ht, slot_mem_page hi⟩

theorem separate_of_run (hps : ps < 16) {actions : List Action}
    (hr : Run (Initial A) (FitStep A ps) actions s) : ∃ ghosts, Separate A ps s ghosts := by
  refine hr.invariant (P := fun s => ∃ ghosts, Separate A ps s ghosts) ?_ ?_
  · rintro s ⟨hvms, hvalid, hapart⟩
    exact ⟨[], by rw [hvms]; rfl, hvalid, hapart, nofun, .nil⟩
  · rintro s action s' ⟨ghosts, h⟩ ⟨hfits, hstep⟩
    cases hstep with
    | create hcreate =>
      obtain ⟨own, hnew⟩ := h.create hps (hfits _ rfl) hcreate
      exact ⟨_, hnew⟩
    | other hvalid hbytes hapart hmem => exact ⟨_, h.other hps hvalid hbytes hapart hmem⟩

end Runs

/-! ## What the hardware reaches -/

section Reach

variable (vtcr : BitVec 64) (memory : Nat → Descriptor) (table : Nat)

/-- The physical addresses that are reachable as normal memory. -/
def normalMemory : Set Nat := { p | ∃ ipa l, translate vtcr memory table ipa = some (p, l) ∧
    l.Normal }

/-- The number of tables at the initial level. -/
def initialTables : Nat := numberOfConcatenatedPageTables (t0szOf vtcr) (initialLookupLevel vtcr)

/-- The tables of a walk: those at the initial level, and the ones that their descriptors lead to.
-/
def IsTable (t : Nat) : Prop :=
  (∃ j < initialTables vtcr, t = table + 4096 * j) ∨
    ∃ i < initialTables vtcr * 512, stage2Format.Below memory (initialDepth vtcr) (table + 8 * i) t

/-- The bytes of the pages that hold a translation table. -/
def tableMemory : Set Nat := { a | ∃ t, IsTable vtcr memory table t ∧ a ∈ page t }

end Reach

section Translate

variable {ps : Nat} {m : Machine σ} {others : Set Nat} {vm : Vm}

theorem translate_eq_lookup (hps : ps < 16) (memory : Nat → Descriptor) (table : Nat) {x : Nat}
    (hx : x < ipaLimit ps) : translate (vtcrEl2 ps) memory table x =
      (lookup ps table memory x).map fun (l, offset) => (l.base + offset, l) := by
  unfold translate initialDepth
  rw [t0szOf_vtcrEl2 hps, initialLookupLevel_vtcrEl2 hps,
    if_pos (show x < 2 ^ (64 - (stage2Parameters ps).1) from hx)]
  have hspan : span (rootDepth ps) = 2 ^ (12 + 9 * (3 - (stage2Parameters ps).2)) := size_eq _
  rw [lookup, hspan]
  rfl

theorem lt_ipaLimit_of_translate (hps : ps < 16) {memory : Nat → Descriptor} {table x : Nat}
    {found : Nat × Leaf} (h : translate (vtcrEl2 ps) memory table x = some found) :
    x < ipaLimit ps := by
  unfold translate at h
  rw [t0szOf_vtcrEl2 hps] at h
  split_ifs at h with hx
  exact hx

/-- The RAM is found behind its addresses. -/
theorem Holds.translate_ram (hps : ps < 16) (h : Holds A ps m others vm own) {i : Nat}
    (hi : i < vm.ramSize) : ∃ l, translate (vtcrEl2 ps) m.memory vm.stage2TableAddress
      (ramVirtualBase + i) = some (vm.ramPhysicalAddress + i, l) ∧ l.Normal := by
  have hfits := h.fits
  have hbelow := h.below
  obtain ⟨l, offset, hfound, hattr, -, hbase⟩ := h.translates.ram (ramVirtualBase + i) (by omega)
    (by omega) (by omega)
  have hsum := hbase h.pages (by omega)
  rw [Nat.add_sub_cancel_left] at hsum
  refine ⟨l, ?_, ?_⟩
  · rw [translate_eq_lookup hps _ _ (by omega), hfound, ← hsum]
    rfl
  · unfold Leaf.Normal
    rw [hattr]
    decide

/-- Normal memory is found behind these addresses only. -/
theorem Holds.of_translate_normal (hps : ps < 16) (h : Holds A ps m others vm own) {x p : Nat}
    {l : Leaf} (ht : translate (vtcrEl2 ps) m.memory vm.stage2TableAddress x = some (p, l))
    (hl : l.Normal) :
    ∃ i < vm.ramSize, x = ramVirtualBase + i ∧ p = vm.ramPhysicalAddress + i := by
  have hx := lt_ipaLimit_of_translate hps ht
  have hin : ramVirtualBase ≤ x ∧ x < ramVirtualBase + vm.ramSize := by
    by_contra hout
    rw [translate_eq_lookup hps _ _ hx] at ht
    obtain ⟨⟨l', offset⟩, hfound, heq⟩ := Option.map_eq_some_iff.1 ht
    cases heq
    exact h.translates.other x hx (by omega) l offset hfound hl
  obtain ⟨l', hram, -⟩ := h.translate_ram hps (show x - ramVirtualBase < vm.ramSize by omega)
  rw [Nat.add_sub_cancel' hin.1, ht] at hram
  have hp := congrArg Prod.fst (Option.some.inj hram)
  exact ⟨x - ramVirtualBase, by omega, by omega, hp⟩

theorem Holds.normalMemory_eq (hps : ps < 16) (h : Holds A ps m others vm own) :
    normalMemory (vtcrEl2 ps) m.memory vm.stage2TableAddress = vm.ram := by
  ext p
  constructor
  · rintro ⟨x, l, ht, hl⟩
    obtain ⟨i, hi, -, rfl⟩ := h.of_translate_normal hps ht hl
    exact ⟨by omega, by omega⟩
  · rintro ⟨hlo, hhi⟩
    obtain ⟨l, ht, hl⟩ := h.translate_ram hps (show p - vm.ramPhysicalAddress < vm.ramSize by omega)
    rw [Nat.add_sub_cancel' hlo] at ht
    exact ⟨_, l, ht, hl⟩

/-- The tables of a VM are recorded. -/
theorem Holds.tableMemory_subset (hps : ps < 16) (h : Holds A ps m others vm own) :
    tableMemory (vtcrEl2 ps) m.memory vm.stage2TableAddress ⊆
      { a | ∃ t x, own t = some x ∧ a ∈ page t } := by
  have hroot : initialTables (vtcrEl2 ps) = rootTables ps := by
    rw [initialTables, t0szOf_vtcrEl2 hps, initialLookupLevel_vtcrEl2 hps]
    rfl
  have hdepth : initialDepth (vtcrEl2 ps) = rootDepth ps := by
    rw [initialDepth, initialLookupLevel_vtcrEl2 hps]
    rfl
  rintro a ⟨t, ht, ha⟩
  rw [IsTable, hroot, hdepth] at ht
  rcases ht with ⟨j, hj, rfl⟩ | ⟨i, hi, ht⟩
  · -- The word of the byte is a word of a recorded table.
    obtain ⟨hlo, hhi⟩ := ha
    obtain ⟨u, c, i, hu, hi, he, -⟩ :=
      h.slot (j * 512 + (a - (vm.stage2TableAddress + 4096 * j)) / 8) (by omega)
    exact ⟨u, _, hu, by omega, by omega⟩
  · obtain ⟨k, b, hown, -⟩ := (h.serves i hi).inside _ ht
    exact ⟨t, _, hown, ha⟩

end Translate

/-! ## The allocator of the hypervisor -/

/-- `allocate_pages` on the memory allocator is a correct page allocator. -/
def memoryPages : PageAllocator Allocator.MemoryAllocator where
  allocatePages a numberOfPages align := Allocator.allocate a ((numberOfPages <<< 12) % wordSize)
    align
  Valid := Allocator.WellFormed
  free a := ↑(Allocator.freeBytes a)
  spec := by
    rintro a a' numberOfPages align address ⟨chain, lists, hrep⟩ halign hcount hok
    have hsize : (numberOfPages <<< 12) % wordSize = numberOfPages * pageSize := by
      rw [Nat.shiftLeft_eq, Nat.mod_eq_of_lt]
      · rfl
      · have : numberOfPages * 2 ^ 12 < 2 ^ 52 * 2 ^ 12 := Nat.mul_lt_mul_of_pos_right
          hcount (by decide)
        exact this
    rw [hsize] at hok
    obtain ⟨⟨result, b⟩, hok', hall⟩ :=
      Allocator.allocateWithAddressLimit_spec (wordSize - 1) (numberOfPages * pageSize) hrep halign
    cases hok'.symm.trans hok
    obtain ⟨-, hdvd, -, hsub, hfree⟩ := hall.ok address rfl
    refine ⟨hall.wellFormed, hdvd, ?_, ?_⟩
    · rw [← Finset.coe_Ico]
      exact Finset.coe_subset.2 hsub
    · rw [hfree, Finset.coe_sdiff, Finset.coe_Ico]

/-- The allocator after a bank of RAM is freed. -/
def bank (start size : Nat) : Allocator.MemoryAllocator :=
  ((Allocator.free Allocator.MemoryAllocator.new start size).toOption.map Prod.snd).getD
    Allocator.MemoryAllocator.new

theorem bank_spec (start size : Nat) (hpos : 0 < size)
    (hle : start + size ≤ Allocator.physicalLimit) :
    memoryPages.Valid (bank start size) ∧
      memoryPages.free (bank start size) ⊆ Set.Ico start (start + size) := by
  obtain ⟨⟨result, a⟩, hfree, hfrees⟩ := Allocator.free_empty Allocator.rep_new
    (show start ≤ start + size - 1 by omega) (by omega)
  rw [show start + size - 1 - start + 1 = size by omega] at hfree
  obtain rfl : result = .ok () := Allocator.free_ok_of_empty Allocator.rep_new hfree
  have hbank : bank start size = a := by
    unfold bank
    rw [hfree]
    rfl
  rw [hbank]
  refine ⟨hfrees.wellFormed, fun x hx => ?_⟩
  have hx' : x ∈ Allocator.freeBytes a := hx
  have hfree : Allocator.freeBytes a = Finset.Icc start (start + size - 1) := by
    rw [hfrees.ok rfl, Allocator.represents_new.2]
    exact Finset.empty_union _
  rw [hfree, Finset.mem_Icc] at hx'
  exact ⟨hx'.1, by omega⟩

/-- A world with one bank of RAM and nothing in it. -/
def boot (start size : Nat) : World Allocator.MemoryAllocator :=
  ⟨⟨fun _ => 0, bank start size⟩, [], ∅⟩

theorem initial_boot {start size : Nat} (hpos : 0 < size)
    (hle : start + size ≤ Allocator.physicalLimit) : Initial memoryPages (boot start size) :=
  ⟨rfl, (bank_spec start size hpos hle).1, Set.disjoint_empty _⟩

/-! ## Isolation -/

/-- In every run whose VMs fit into the address space, a VM reaches its own RAM as normal memory,
each byte of it at its address, and nothing else: no RAM of another VM and no table of any VM. -/
theorem stage2_isolation (A : PageAllocator σ) (idAa64mmfr0 : BitVec 64) {actions : List Action}
    {s : World σ} (hr : Run (Initial A) (FitStep A (paRange idAa64mmfr0)) actions s) :
    let vtcr := vtcrEl2 (paRange idAa64mmfr0)
    let memory := s.machine.memory
    (∀ vm ∈ s.vms,
      (∀ i < vm.ramSize, ∃ l, translate vtcr memory vm.stage2TableAddress (ramVirtualBase + i) =
        some (vm.ramPhysicalAddress + i, l) ∧ l.Normal) ∧
      (∀ ipa p l, translate vtcr memory vm.stage2TableAddress ipa = some (p, l) → l.Normal →
        ∃ i < vm.ramSize, ipa = ramVirtualBase + i ∧ p = vm.ramPhysicalAddress + i) ∧
      normalMemory vtcr memory vm.stage2TableAddress = vm.ram ∧
      ∀ vm' ∈ s.vms, Disjoint (normalMemory vtcr memory vm.stage2TableAddress)
        (tableMemory vtcr memory vm'.stage2TableAddress)) ∧
    s.vms.Pairwise fun vm vm' =>
      Disjoint (normalMemory vtcr memory vm.stage2TableAddress) vm'.ram ∧
      Disjoint (normalMemory vtcr memory vm'.stage2TableAddress) vm.ram := by
  intro vtcr memory
  have hps := paRange_lt idAa64mmfr0
  obtain ⟨ghosts, h⟩ := separate_of_run hps hr
  have hnormal : ∀ g ∈ ghosts, normalMemory vtcr memory g.1.stage2TableAddress = g.1.ram :=
    fun g hg => (h.holds g hg).normalMemory_eq hps
  rw [← h.vms]
  refine ⟨fun vm hvm => ?_, ?_⟩
  · obtain ⟨g, hg, rfl⟩ := List.mem_map.1 hvm
    have hg' := h.holds g hg
    refine ⟨fun i hi => hg'.translate_ram hps hi, fun ipa p l => hg'.of_translate_normal hps,
      hnormal g hg, fun vm' hvm' => ?_⟩
    obtain ⟨g₁, hg₁, rfl⟩ := List.mem_map.1 hvm'
    rw [hnormal g hg]
    exact (h.disjoint hg hg₁).mono_right ((h.holds g₁ hg₁).tableMemory_subset hps)
  · refine List.pairwise_map.2 (h.pairwise.imp_of_mem fun {g g'} hg hg' hd => ?_)
    rw [hnormal g hg, hnormal g' hg']
    have hram : Disjoint g.1.ram g'.1.ram := hd.mono Set.subset_union_left Set.subset_union_left
    exact ⟨hram, hram.symm⟩

/-- Two VMs of 2 MiB on a CPU with physical addresses of 44 bits. -/
theorem stage2_isolation_two : ∃ s vm vm', Run (Initial memoryPages)
      (FitStep memoryPages (paRange 4)) [.create ⟨0x200000, 0xff846000, 0x2000⟩,
        .create ⟨0x200000, 0xff846000, 0x2000⟩] s ∧ s.vms = [vm', vm] ∧
    normalMemory (vtcrEl2 (paRange 4)) s.machine.memory vm.stage2TableAddress = vm.ram ∧
    Disjoint (normalMemory (vtcrEl2 (paRange 4)) s.machine.memory vm'.stage2TableAddress)
      vm.ram := by
  have hbank := bank_spec 0x80000000 0x1000000 (by decide) (by decide)
  have hvalid : memoryPages.Valid (boot 0x80000000 0x1000000).machine.pool := hbank.1
  have hfits : ∀ m : Machine Allocator.MemoryAllocator,
      memoryPages.free m.pool ⊆ memoryPages.free (bank 0x80000000 0x1000000) →
      Fits memoryPages (paRange 4) m ⟨0x200000, 0xff846000, 0x2000⟩ := by
    intro m hsub
    refine ⟨by decide, by decide, fun a ha => ?_⟩
    have hlt := (hbank.2 (hsub ha)).2
    omega
  have hfirstFits := hfits (boot 0x80000000 0x1000000).machine (subset_refl _)
  have hok : (createVm memoryPages (paRange 4) ⟨0x200000, 0xff846000, 0x2000⟩
      (boot 0x80000000 0x1000000).machine >>= fun r =>
        createVm memoryPages (paRange 4) ⟨0x200000, 0xff846000, 0x2000⟩ r.2).map Prod.fst =
      .ok ⟨0x80205000, 0x200000, 0x80405000⟩ := by
    decide +kernel
  obtain ⟨m', hboth⟩ := exists_of_map_fst hok
  obtain ⟨⟨vm, m⟩, hfirst, hsecond⟩ := bind_eq_ok.1 hboth
  obtain ⟨own, hnew⟩ := createVm_spec (paRange_lt 4) hvalid hfirstFits hfirst
  have hstart : Run (Initial memoryPages) (FitStep memoryPages (paRange 4)) []
      (boot 0x80000000 0x1000000) := .start (initial_boot (by decide) (by decide))
  have hstep : FitStep memoryPages (paRange 4) (boot 0x80000000 0x1000000)
      (.create ⟨0x200000, 0xff846000, 0x2000⟩) ⟨m, [vm], ∅⟩ := by
    refine ⟨?_, .create hfirst⟩
    rintro _ ⟨⟩
    exact hfirstFits
  have hstep' : FitStep memoryPages (paRange 4) ⟨m, [vm], ∅⟩
      (.create ⟨0x200000, 0xff846000, 0x2000⟩)
      ⟨m', [⟨0x80205000, 0x200000, 0x80405000⟩, vm], ∅⟩ := by
    refine ⟨?_, .create hsecond⟩
    rintro _ ⟨⟩
    exact hfits m hnew.shrinks
  have hrun := (hstart.next hstep).next hstep'
  obtain ⟨hall, hpair⟩ := stage2_isolation memoryPages 4 hrun
  refine ⟨_, vm, _, hrun, rfl, (hall vm (List.mem_cons_of_mem _ List.mem_cons_self)).2.2.1, ?_⟩
  exact ((List.pairwise_cons.1 hpair).1 vm List.mem_cons_self).1

/-- With physical addresses of 32 bits the translation covers 4 GiB, and the RAM of a guest begins
at 1 GiB. A larger RAM than 3 GiB is mapped without an error, but its end is out of reach. -/
theorem address_space_exceeded : ∃ s vm, Run (Initial memoryPages) (Step memoryPages (paRange 0))
      [.create ⟨0xC0200000, 0xff846000, 0x2000⟩] s ∧ vm ∈ s.vms ∧ 0xC0000000 < vm.ramSize ∧
    translate (vtcrEl2 (paRange 0)) s.machine.memory vm.stage2TableAddress
      (ramVirtualBase + 0xC0000000) = none := by
  have hok : ((createVm memoryPages (paRange 0) ⟨0xC0200000, 0xff846000, 0x2000⟩
      (boot 0 0xE0000000).machine).map Prod.fst) = .ok ⟨0, 0xC0200000, 0xC0200000⟩ := by
    decide +kernel
  obtain ⟨m, hcreate⟩ := exists_of_map_fst hok
  have hstart : Run (Initial memoryPages) (Step memoryPages (paRange 0)) [] (boot 0 0xE0000000) :=
    .start (initial_boot (by decide) (by decide))
  refine ⟨_, _, hstart.next (.create hcreate), List.mem_cons_self, by decide, ?_⟩
  unfold translate
  rw [if_neg (by decide)]

end MiniVisor.Paging
