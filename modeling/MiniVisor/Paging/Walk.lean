import MiniVisor.Paging.Model
import MiniVisor.Lib.RadixTable

/-!
# The translation of the hardware

`stage2Format` is the meaning that the architecture gives to a descriptor with a 4 KiB granule, and
`translate` is the walk from the initial level on. The descriptors that the code writes have the
meaning that it intends: `kind_pageDescriptor`, `kind_blockDescriptor` and `kind_tableDescriptor`.
-/

set_option autoImplicit false

namespace MiniVisor.Paging

open MiniVisor.Lib MiniVisor.Lib.Radix

/-! ## Descriptors as the hardware reads them -/

/-- The output address, the memory attributes and the permission of a page or a block. -/
structure Leaf where
  base : Nat
  attributes : BitVec 4
  permission : BitVec 2
  deriving DecidableEq, Repr

/-- Normal memory: the other values of `MemAttr` are kinds of device memory. -/
def Leaf.Normal (l : Leaf) : Prop := l.attributes.extractLsb' 2 2 ≠ 0#2

instance (l : Leaf) : Decidable l.Normal := inferInstanceAs (Decidable (_ ≠ _))

/-- The bits `[47:shift]` of a descriptor. -/
def outputBits (d : Descriptor) (shift : Nat) : Nat := d.toNat % 2 ^ 48 / 2 ^ shift * 2 ^ shift

/-- The leaf of a descriptor whose level has pages or blocks of `2 ^ shift` bytes. -/
def leafOf (d : Descriptor) (shift : Nat) : Leaf where
  base := outputBits d shift
  attributes := d.extractLsb' 2 4
  permission := d.extractLsb' 6 2

/-- The access flag. Without it an access faults. -/
def accessFlag (d : Descriptor) : Bool := d.getLsbD 10

/-- The meaning of a descriptor. Level 0 has no blocks, and level 3 no tables. -/
def descriptorKind (depth : Nat) (d : Descriptor) : Kind Leaf :=
  let type := d.extractLsb' 0 2
  match depth with
  | 0 => if type = 0b11#2 ∧ accessFlag d then .leaf (leafOf d 12) else .empty
  | depth + 1 =>
    if type = 0b11#2 then .table (outputBits d 12)
    else if type = 0b01#2 ∧ depth + 1 ≤ 2 ∧ accessFlag d then
      .leaf (leafOf d (12 + 9 * (depth + 1)))
    else .empty

def stage2Format : Format Descriptor Leaf where
  kind := descriptorKind
  fan := 512
  unit := 4096
  stride := 8
  fan_pos := by decide
  unit_pos := by decide

/-- The depth of the initial level. -/
def initialDepth (vtcr : BitVec 64) : Nat := 3 - initialLookupLevel vtcr

/-- The translation of an intermediate physical address: the physical address and its leaf. -/
def translate (vtcr : BitVec 64) (memory : Nat → Descriptor) (table ipa : Nat) :
    Option (Nat × Leaf) :=
  if ipa < 2 ^ (64 - t0szOf vtcr) then
    (stage2Format.walk memory (initialDepth vtcr)
      (table + 8 * (ipa / 2 ^ (12 + 9 * initialDepth vtcr))) ipa).map
        fun (l, offset) => (l.base + offset, l)
  else none

theorem size_eq (k : Nat) : stage2Format.size k = 2 ^ (12 + 9 * k) := by
  show 4096 * 512 ^ k = _
  rw [Nat.pow_add, Nat.pow_mul]

/-! ## The descriptors that the code writes -/

section Flags

variable {p : Nat} {c : Descriptor}

theorem getLsbD_of_lt_shift {i : Nat} (hp : 4096 ∣ p) (hi : i < 12) :
    (BitVec.ofNat 64 p).getLsbD i = false := by
  obtain ⟨q, rfl⟩ := hp
  rw [BitVec.getLsbD_ofNat, show 4096 = 2 ^ 12 from rfl, Nat.testBit_two_pow_mul]
  simp only [ge_iff_le, Bool.and_eq_false_iff, decide_eq_false_iff_not]
  omega

theorem getLsbD_of_shift_le {i : Nat} (hc : c.toNat < 4096) (hi : 12 ≤ i) : c.getLsbD i = false :=
  Nat.testBit_lt_two_pow (Nat.lt_of_lt_of_le hc (Nat.pow_le_pow_right Nat.two_pos hi))

/-- A mask of low bits does not concern the address. -/
theorem aligned_or_and_not {m : Descriptor} (hp : 4096 ∣ p) (hm : m.toNat < 4096) (c : Descriptor) :
    (BitVec.ofNat 64 p ||| c) &&& ~~~m = BitVec.ofNat 64 p ||| (c &&& ~~~m) := by
  have hclear : BitVec.ofNat 64 p &&& ~~~m = BitVec.ofNat 64 p := by
    apply BitVec.eq_of_getLsbD_eq
    intro i hi
    by_cases hlow : i < 12
    · simp [getLsbD_of_lt_shift hp hlow]
    · rw [BitVec.getLsbD_and, BitVec.getLsbD_not,
        getLsbD_of_shift_le hm (Nat.le_of_not_lt hlow)]
      simp [hi]
  rw [BitVec.and_comm, BitVec.and_or_distrib_left, BitVec.and_comm, hclear, BitVec.and_comm c]

/-- The address and the flags of a descriptor are its high and its low bits. -/
theorem toNat_aligned_or (hp : 4096 ∣ p) (hlt : p < 2 ^ 64) (hc : c.toNat < 4096) :
    (BitVec.ofNat 64 p ||| c).toNat = p + c.toNat := by
  obtain ⟨q, rfl⟩ := hp
  rw [BitVec.toNat_or, BitVec.toNat_ofNat, Nat.mod_eq_of_lt hlt]
  exact (Nat.two_pow_add_eq_or_of_lt (i := 12) hc q).symm

theorem outputBits_aligned_or {shift : Nat} (hs : 12 ≤ shift) (hp : 2 ^ shift ∣ p)
    (hlt : p < 2 ^ 48) (hc : c.toNat < 4096) :
    outputBits (BitVec.ofNat 64 p ||| c) shift = p := by
  have hpage : 4096 ∣ p := Nat.dvd_trans (Nat.pow_dvd_pow 2 hs) hp
  have hle : c.toNat < 2 ^ shift := Nat.lt_of_lt_of_le hc (Nat.pow_le_pow_right Nat.two_pos hs)
  have hsum : p + c.toNat < 2 ^ 48 := by omega
  unfold outputBits
  rw [toNat_aligned_or hpage (by omega) hc, Nat.mod_eq_of_lt hsum]
  obtain ⟨q, rfl⟩ := hp
  rw [Nat.mul_add_div (Nat.two_pow_pos shift), Nat.div_eq_of_lt hle, Nat.add_zero, Nat.mul_comm]

end Flags

section Descriptors

open Descriptor

variable (access : Access) (p : Nat)

theorem attributes_leafDescriptor :
    (leafDescriptor access p).extractLsb' 2 4 = if access.isDevice then 0#4 else 15#4 := by
  cases hd : access.isDevice <;> ext i hi <;> interval_cases i <;>
    simp [leafDescriptor, hd, setMemoryAttributeDevice, setMemoryAttributeWriteBack,
      setShareability, attrIndex, attrWriteBack, sh, innerShareable]

theorem permission_leafDescriptor :
    (leafDescriptor access p).extractLsb' 6 2 = access.permission.extractLsb' 0 2 := by
  cases hd : access.isDevice <;> ext i hi <;> interval_cases i <;>
    simp [leafDescriptor, hd, setPermission, setMemoryAttributeDevice,
      setMemoryAttributeWriteBack, setShareability, attrIndex, attrWriteBack, sh, innerShareable,
      s2ap]

theorem accessFlag_leafDescriptor : accessFlag (leafDescriptor access p) = true := by
  cases hd : access.isDevice <;>
    simp [accessFlag, leafDescriptor, hd, setOutputAddress, setPermission,
      setMemoryAttributeDevice, setMemoryAttributeWriteBack, setShareability, attrIndex,
      attrWriteBack, sh, innerShareable, af, s2ap, Access.permission]

/-- The flags are those of address zero. -/
theorem leafDescriptor_eq {p : Nat} (hp : 4096 ∣ p) :
    leafDescriptor access p = BitVec.ofNat 64 p ||| leafDescriptor access 0 := by
  have hs2ap : s2ap.toNat < 4096 := by decide
  have hattr : attrIndex.toNat < 4096 := by decide
  have hsh : sh.toNat < 4096 := by decide
  unfold leafDescriptor setOutputAddress init
  cases access.isDevice with
  | true =>
    simp [setPermission, aligned_or_and_not hp hs2ap, setMemoryAttributeDevice, setShareability,
      BitVec.or_assoc, aligned_or_and_not hp hattr, aligned_or_and_not hp hsh]
  | false =>
    simp [setPermission, aligned_or_and_not hp hs2ap, setMemoryAttributeWriteBack, setShareability,
      BitVec.or_assoc, aligned_or_and_not hp hattr, aligned_or_and_not hp hsh]

theorem toNat_flags_lt (flags : Descriptor) (hf : flags.toNat < 4) :
    (leafDescriptor access 0 ||| flags).toNat < 4096 := by
  have hleaf : (leafDescriptor access 0).toNat < 4096 := by
    obtain ⟨r, w, d⟩ := access
    cases r <;> cases w <;> cases d <;> decide
  rw [BitVec.toNat_or]
  exact Nat.or_lt_two_pow (n := 12) hleaf (Nat.lt_trans hf (by decide))

/-- The output address of a descriptor for a page or a block that is aligned to its size. -/
theorem outputBits_leafDescriptor {p shift : Nat} {flags : Descriptor} (hs : 12 ≤ shift)
    (hp : 2 ^ shift ∣ p) (hlt : p < 2 ^ 48) (hf : flags.toNat < 4) :
    outputBits (leafDescriptor access p ||| flags) shift = p := by
  rw [leafDescriptor_eq access (Nat.dvd_trans (Nat.pow_dvd_pow 2 hs) hp), BitVec.or_assoc]
  exact outputBits_aligned_or hs hp hlt (toNat_flags_lt access flags hf)

/-- What a leaf for a physical address is. Its output address is the physical one when this is
aligned and within the 48 bits of an output address. -/
structure LeafFor (access : Access) (p : Nat) (shift : Nat) (l : Leaf) : Prop where
  attributes : l.attributes = if access.isDevice then 0#4 else 15#4
  permission : l.permission = access.permission.extractLsb' 0 2
  base : 2 ^ shift ∣ p → p < 2 ^ 48 → l.base = p

theorem shareability_leafDescriptor : (leafDescriptor access p).extractLsb' 8 2 = 3#2 := by
  cases hd : access.isDevice <;> ext i hi <;> interval_cases i <;>
    simp [leafDescriptor, hd, setShareability, sh, innerShareable]

/-- The fields of a descriptor, apart from the address. -/
structure WordFor (access : Access) (d : Descriptor) : Prop where
  attributes : d.extractLsb' 2 4 = if access.isDevice then 0#4 else 15#4
  permission : d.extractLsb' 6 2 = access.permission.extractLsb' 0 2
  shareability : d.extractLsb' 8 2 = 3#2
  accessFlag : accessFlag d = true

theorem wordFor_validated (flags : Descriptor) (hf : flags.toNat < 4) :
    WordFor access (leafDescriptor access p ||| flags) := by
  have hkept : ∀ i n, 2 ≤ i → (leafDescriptor access p ||| flags).extractLsb' i n =
      (leafDescriptor access p).extractLsb' i n := by
    intro i n hi
    apply BitVec.eq_of_getLsbD_eq
    intro j hj
    have hflag : flags.getLsbD (i + j) = false :=
      Nat.testBit_lt_two_pow (Nat.lt_of_lt_of_le hf
        (Nat.pow_le_pow_right Nat.two_pos (show 2 ≤ i + j by omega)))
    simp [hflag]
  refine ⟨?_, ?_, ?_, ?_⟩
  · rw [hkept 2 4 (by omega), attributes_leafDescriptor]
  · rw [hkept 6 2 (by omega), permission_leafDescriptor]
  · rw [hkept 8 2 (by omega), shareability_leafDescriptor]
  · unfold Paging.accessFlag
    rw [BitVec.getLsbD_or, show (leafDescriptor access p).getLsbD 10 = true from
      accessFlag_leafDescriptor access p, Bool.true_or]

theorem leafFor_validated (shift : Nat) (flags : Descriptor) (hs : 12 ≤ shift)
    (hf : flags.toNat < 4) :
    LeafFor access p shift (leafOf (leafDescriptor access p ||| flags) shift) := by
  have hword := wordFor_validated access p flags hf
  exact ⟨hword.attributes, hword.permission,
    fun hp hlt => outputBits_leafDescriptor access hs hp hlt hf⟩

theorem type_or_three (d : Descriptor) : (d ||| 0b11#64).extractLsb' 0 2 = 3#2 := by
  ext i hi
  interval_cases i <;> simp

theorem accessFlag_or (d flags : Descriptor) (h : accessFlag d = true) :
    accessFlag (d ||| flags) = true := by
  unfold accessFlag at h ⊢
  rw [BitVec.getLsbD_or, h, Bool.true_or]

theorem kind_pageDescriptor :
    ∃ l, descriptorKind 0 (pageDescriptor access p) = .leaf l ∧ LeafFor access p 12 l := by
  refine ⟨_, ?_, leafFor_validated access p 12 0b11#64 (Nat.le_refl 12) (by decide)⟩
  have htype : (pageDescriptor access p).extractLsb' 0 2 = 3#2 := type_or_three _
  have hflag : accessFlag (pageDescriptor access p) = true :=
    accessFlag_or _ _ (accessFlag_leafDescriptor access p)
  exact if_pos ⟨htype, hflag⟩

/-- A block is aligned, so that its address does not reach the bits of its type. -/
theorem kind_blockDescriptor {p k : Nat} (hk : k + 1 ≤ 2) (hp : 4096 ∣ p) :
    ∃ l, descriptorKind (k + 1) (blockDescriptor access p) = .leaf l ∧
      LeafFor access p (12 + 9 * (k + 1)) l := by
  refine ⟨_, ?_, leafFor_validated access p (12 + 9 * (k + 1)) 0b01#64 (by omega)
    (by decide)⟩
  have htype : (blockDescriptor access p).extractLsb' 0 2 = 1#2 := by
    have hflags : (leafDescriptor access 0 ||| 0b01#64).extractLsb' 0 2 = 1#2 := by
      obtain ⟨r, w, d⟩ := access
      cases r <;> cases w <;> cases d <;> decide
    rw [← hflags, blockDescriptor, validateAsBlockDescriptor, leafDescriptor_eq access hp]
    apply BitVec.eq_of_getLsbD_eq
    intro i hi
    simp [getLsbD_of_lt_shift hp (show i < 12 by omega)]
  have hflag : accessFlag (blockDescriptor access p) = true :=
    accessFlag_or _ _ (accessFlag_leafDescriptor access p)
  unfold descriptorKind
  dsimp only
  rw [htype, if_neg (by decide), if_pos ⟨rfl, hk, hflag⟩]
  rfl

theorem tableDescriptor_eq (t : Nat) : tableDescriptor t = BitVec.ofNat 64 t ||| 0x403#64 := by
  unfold tableDescriptor setOutputAddress validateAsTableDescriptor init
  rw [BitVec.zero_and, BitVec.zero_or, BitVec.or_assoc]
  rfl

theorem kind_tableDescriptor {t : Nat} (ht : 4096 ∣ t) (hlt : t < 2 ^ 48) (k : Nat) :
    descriptorKind (k + 1) (tableDescriptor t) = .table t := by
  have htype : (tableDescriptor t).extractLsb' 0 2 = 3#2 := type_or_three _
  have hout : outputBits (tableDescriptor t) 12 = t := by
    rw [tableDescriptor_eq]
    exact outputBits_aligned_or (Nat.le_refl 12) ht hlt (by decide)
  unfold descriptorKind
  dsimp only
  rw [htype, if_pos rfl, hout]

theorem isTableDescriptor_iff (d : Descriptor) :
    d.isTableDescriptor = true ↔ d.extractLsb' 0 2 = 3#2 := by
  have hand : (d &&& 0b11#64).toNat = d.toNat % 4 := by
    rw [BitVec.toNat_and]
    exact Nat.and_two_pow_sub_one_eq_mod d.toNat 2
  have hextract : (d.extractLsb' 0 2).toNat = d.toNat % 4 := by
    rw [BitVec.extractLsb'_toNat, Nat.shiftRight_zero]
  rw [isTableDescriptor, decide_eq_true_eq, ← BitVec.toNat_inj, ← BitVec.toNat_inj, hand, hextract]
  rfl

/-- The hardware takes a descriptor above level 3 for a table when the code does. -/
theorem kind_eq_table_iff {k t : Nat} {d : Descriptor} :
    descriptorKind (k + 1) d = .table t ↔ d.isTableDescriptor = true ∧ t = outputBits d 12 := by
  rw [isTableDescriptor_iff]
  unfold descriptorKind
  dsimp only
  split_ifs with htype hleaf
  · exact ⟨fun h => ⟨htype, (Kind.table.inj h).symm⟩, fun h => by rw [h.2]⟩
  · exact ⟨nofun, fun h => absurd h.1 htype⟩
  · exact ⟨nofun, fun h => absurd h.1 htype⟩

/-- The code and the hardware read the same table from a descriptor for a table in memory. -/
theorem getNextLevelTableAddress_tableDescriptor {t : Nat} (ht : 4096 ∣ t) (hlt : t < 2 ^ 48) :
    (tableDescriptor t).getNextLevelTableAddress = t := by
  have hmask : ∀ i : Fin 64, tableAddressMask.getLsbD i = decide (12 ≤ i.val ∧ i.val < 50) := by
    decide
  have hword : tableDescriptor t &&& tableAddressMask = BitVec.ofNat 64 t := by
    rw [tableDescriptor_eq]
    apply BitVec.eq_of_getLsbD_eq
    intro i hi
    rw [BitVec.getLsbD_and, BitVec.getLsbD_or, hmask ⟨i, hi⟩]
    by_cases hlow : i < 12
    · simp [getLsbD_of_lt_shift ht hlow, Nat.not_le_of_lt hlow]
    · have hflags : (0x403#64).getLsbD i = false :=
        getLsbD_of_shift_le (by decide) (Nat.le_of_not_lt hlow)
      by_cases hhigh : i < 50
      · simp [hflags, hhigh, Nat.le_of_not_lt hlow]
      · have hbit : t.testBit i = false :=
          Nat.testBit_lt_two_pow (Nat.lt_of_lt_of_le hlt
            (Nat.pow_le_pow_right Nat.two_pos (by omega)))
        simp [hhigh, BitVec.getLsbD_ofNat, hbit]
  unfold getNextLevelTableAddress
  rw [hword, BitVec.toNat_ofNat, Nat.mod_eq_of_lt (by omega)]

theorem kind_init (k : Nat) : descriptorKind k Descriptor.init = .empty := by
  cases k with
  | zero => rfl
  | succ k => rfl

end Descriptors

/-! ## The descriptor of an address -/

/-- The walk to a page or block descriptor, with the depth where it is found. -/
def wordFormat : Format Descriptor (Nat × Descriptor) where
  kind k d :=
    match descriptorKind k d with
    | .empty => .empty
    | .leaf _ => .leaf (k, d)
    | .table t => .table t
  fan := 512
  unit := 4096
  stride := 8
  fan_pos := by decide
  unit_pos := by decide

/-- The leaf of a descriptor at a depth. -/
def leafAt (word : Nat × Descriptor) : Leaf := leafOf word.2 (12 + 9 * word.1)

theorem eq_leafAt {k : Nat} {d : Descriptor} {l : Leaf} (h : descriptorKind k d = .leaf l) :
    l = leafAt (k, d) := by
  unfold descriptorKind at h
  cases k with
  | zero =>
    dsimp only at h
    split_ifs at h
    cases h
    rfl
  | succ k =>
    dsimp only at h
    split_ifs at h
    cases h
    rfl

theorem stage2Format_eq : stage2Format = wordFormat.map leafAt := by
  unfold stage2Format wordFormat Format.map
  congr 1
  funext k d
  dsimp only
  cases h : descriptorKind k d with
  | empty => rfl
  | leaf l => exact congrArg Kind.leaf (eq_leafAt h)
  | table t => rfl

theorem stage2Format_walk (memory : Nat → Descriptor) (k e x : Nat) :
    stage2Format.walk memory k e x = (wordFormat.walk memory k e x).map (Prod.map leafAt id) := by
  rw [stage2Format_eq]
  exact wordFormat.walk_map leafAt memory k e x

theorem serves_iff {own : Owner} {memory : Nat → Descriptor} {k e b : Nat} :
    stage2Format.Serves own memory k e b ↔ wordFormat.Serves own memory k e b := by
  rw [stage2Format_eq]
  exact wordFormat.serves_map leafAt own memory k e b

theorem wordKind_leaf {k : Nat} {d : Descriptor} {l : Leaf} (h : descriptorKind k d = .leaf l) :
    wordFormat.kind k d = .leaf (k, d) := by
  show (match descriptorKind k d with | .empty => _ | .leaf _ => _ | .table t => _) = _
  rw [h]

theorem wordKind_table_iff {k t : Nat} {d : Descriptor} :
    wordFormat.kind k d = .table t ↔ descriptorKind k d = .table t := by
  show (match descriptorKind k d with | .empty => _ | .leaf _ => _ | .table t => _) = _ ↔ _
  cases descriptorKind k d <;> simp

theorem wordKind_empty {k : Nat} {d : Descriptor} (h : descriptorKind k d = .empty) :
    wordFormat.kind k d = .empty := by
  show (match descriptorKind k d with | .empty => _ | .leaf _ => _ | .table t => _) = _
  rw [h]

/-- A word that ends a walk is found at its own depth. -/
theorem eq_of_wordKind_leaf {k : Nat} {d : Descriptor} {word : Nat × Descriptor}
    (h : wordFormat.kind k d = .leaf word) : word = (k, d) := by
  change (match descriptorKind k d with | .empty => _ | .leaf _ => _ | .table t => _) = _ at h
  cases hkind : descriptorKind k d with
  | empty =>
    rw [hkind] at h
    cases h
  | leaf l =>
    rw [hkind] at h
    cases h
    rfl
  | table t =>
    rw [hkind] at h
    cases h

/-- The addresses that agree in the part above a page or block lead to the same descriptor. -/
theorem walk_same_word {memory : Nat → Descriptor} (k : Nat) :
    ∀ {e x y j : Nat} {d : Descriptor} {offset : Nat},
      wordFormat.walk memory k e x = some ((j, d), offset) →
      y / wordFormat.size j = x / wordFormat.size j →
        j ≤ k ∧ offset = x % wordFormat.size j ∧
          wordFormat.walk memory k e y = some ((j, d), y % wordFormat.size j) := by
  have hleaf : ∀ {i e x y j : Nat} {d : Descriptor} {offset : Nat} {word : Nat × Descriptor},
      wordFormat.kind i (memory e) = .leaf word →
      wordFormat.walk memory i e x = some ((j, d), offset) →
        j ≤ i ∧ offset = x % wordFormat.size j ∧
          wordFormat.walk memory i e y = some ((j, d), y % wordFormat.size j) := by
    intro i e x y j d offset word hkind h
    rw [Format.walk_leaf hkind, eq_of_wordKind_leaf hkind] at h
    cases h
    exact ⟨Nat.le_refl _, rfl, by rw [Format.walk_leaf hkind, eq_of_wordKind_leaf hkind]⟩
  induction k with
  | zero =>
    intro e x y j d offset h _
    cases hkind : wordFormat.kind 0 (memory e) with
    | leaf word => exact hleaf hkind h
    | empty =>
      rw [Format.walk_empty hkind] at h
      cases h
    | table t =>
      rw [Format.walk, hkind] at h
      cases h
  | succ k ih =>
    intro e x y j d offset h hxy
    cases hkind : wordFormat.kind (k + 1) (memory e) with
    | leaf word => exact hleaf hkind h
    | empty =>
      rw [Format.walk_empty hkind] at h
      cases h
    | table t =>
      rw [Format.walk_table hkind] at h ⊢
      obtain ⟨hle, hoffset, hy⟩ := ih h hxy
      -- The index of the next word is a part of what the two addresses have in common.
      have hsize : wordFormat.size k = wordFormat.size j * 512 ^ (k - j) := by
        show 4096 * 512 ^ k = 4096 * 512 ^ j * 512 ^ (k - j)
        rw [Nat.mul_assoc, ← Nat.pow_add, Nat.add_sub_cancel' hle]
      have hindex : y / wordFormat.size k = x / wordFormat.size k := by
        rw [hsize, ← Nat.div_div_eq_div_mul, ← Nat.div_div_eq_div_mul, hxy]
      rw [hindex]
      exact ⟨Nat.le_succ_of_le hle, hoffset, hy⟩

end MiniVisor.Paging
