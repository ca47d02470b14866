import Mathlib

/-!
# List Registers

The 32-bit entries through which the hypervisor hands virtual interrupts to a guest. A List Register
holds a virtual INTID, a state (inactive, pending, active, or both), a group, a priority and either
the physical INTID that the guest's deactivation also deactivates (HW bit set) or the request for a
maintenance interrupt at the end of the interrupt.

`createListRegisterEntry` packs an entry as `vgic_lr.rs` does. `acknowledge` and `endOfInterrupt`
are what the GICv2 virtual CPU interface does to a List Register when the guest acknowledges and
completes its interrupt. The lemmas say what each of these leaves of the fields.
-/

set_option autoImplicit false

namespace MiniVisor.Gic

abbrev Word := BitVec 32

/-! ## Fields -/

/-- `GICH_LR_VIRTUAL_ID`. -/
def gichLrVirtualId : Word := 0x3FF

/-- `GICH_LR_PHYSICAL_ID`. -/
def gichLrPhysicalId : Word := (0x3FF : Word) <<< 10

/-- `GICH_LR_EOI`. -/
def gichLrEoi : Word := (1 : Word) <<< 19

/-- `GICH_LR_STATE`. -/
def gichLrState : Word := (0b11 : Word) <<< 28

/-- `GICH_LR_STATE_PENDING`. -/
def gichLrStatePending : Word := (0b01 : Word) <<< 28

/-- The other bit of the state. -/
def gichLrStateActive : Word := (0b10 : Word) <<< 28

/-- `GICH_LR_HW`. -/
def gichLrHw : Word := (1 : Word) <<< 31

/-- The virtual INTID. -/
def virtualId (lr : Word) : Word := lr &&& gichLrVirtualId

/-- The physical INTID, for an entry with the HW bit. -/
def physicalId (lr : Word) : Word := (lr &&& gichLrPhysicalId) >>> 10

def isInactive (lr : Word) : Bool := (lr &&& gichLrState) == 0#32

def isPending (lr : Word) : Bool := (lr &&& gichLrStatePending) != 0#32

def isActive (lr : Word) : Bool := (lr &&& gichLrStateActive) != 0#32

def isHardware (lr : Word) : Bool := (lr &&& gichLrHw) != 0#32

/-- `create_list_register_entry`. -/
def createListRegisterEntry (intId group priority : Word) (physicalIntId : Option Word) : Word :=
  let entry := gichLrStatePending ||| (group <<< 30) ||| (((priority >>> 3) &&& 0x1F) <<< 23) |||
    (intId &&& gichLrVirtualId)
  match physicalIntId with
  | some pIntId => entry ||| (gichLrHw ||| ((pIntId <<< 10) &&& gichLrPhysicalId))
  | none => entry ||| gichLrEoi

/-! ## The virtual CPU interface -/

/-- The guest acknowledges a pending interrupt, which becomes active. -/
def acknowledge (lr : Word) : Word := (lr &&& ~~~gichLrStatePending) ||| gichLrStateActive

/-- The guest completes an active interrupt; a pending one behind it stays pending. -/
def endOfInterrupt (lr : Word) : Word := lr &&& ~~~gichLrStateActive

/-- The bit of the List Register in `GICH_EISR`: it was completed and asked for maintenance. -/
def awaitsMaintenance (lr : Word) : Bool :=
  isInactive lr && !isHardware lr && (lr &&& gichLrEoi) != 0#32

/-! ## Masks -/

section Masks

variable {x y m : Word}

theorem or_and_of_disjoint (h : y &&& m = 0#32) : (x ||| y) &&& m = x &&& m := by
  rw [BitVec.and_or_distrib_right, h, BitVec.or_zero]

theorem and_and_of_subset (h : y &&& m = m) : (x &&& y) &&& m = x &&& m := by
  rw [BitVec.and_assoc, h]

/-- A shifted word has no bits below the shift. -/
theorem shiftLeft_and_eq_zero (x : Word) {n : Nat} (h : m.toNat < 2 ^ n) :
    (x <<< n) &&& m = 0#32 := by
  apply BitVec.eq_of_getLsbD_eq
  intro i hi
  rw [BitVec.getLsbD_and, BitVec.getLsbD_shiftLeft, BitVec.getLsbD_zero]
  by_cases hin : i < n
  · simp [hin]
  · have hm : m.getLsbD i = false :=
      Nat.testBit_lt_two_pow (lt_of_lt_of_le h (Nat.pow_le_pow_right (by decide) (by omega)))
    rw [hm, Bool.and_false]

end Masks

/-! ## Fields of an entry that is made pending, acknowledged or completed -/

section Transitions

variable (lr : Word)

@[simp] theorem virtualId_or_pending : virtualId (lr ||| gichLrStatePending) = virtualId lr :=
  or_and_of_disjoint (by decide)

@[simp] theorem isPending_or_pending : isPending (lr ||| gichLrStatePending) = true := by
  have h : (lr ||| gichLrStatePending) &&& gichLrStatePending = gichLrStatePending := by
    rw [BitVec.and_or_distrib_right, BitVec.and_self, BitVec.or_comm]
    apply BitVec.eq_of_getLsbD_eq
    intro i _
    rw [BitVec.getLsbD_or, BitVec.getLsbD_and]
    cases gichLrStatePending.getLsbD i <;> cases lr.getLsbD i <;> rfl
  rw [isPending, h]
  decide

@[simp] theorem isHardware_or_pending : isHardware (lr ||| gichLrStatePending) = isHardware lr := by
  rw [isHardware, or_and_of_disjoint (by decide), isHardware]

@[simp] theorem physicalId_or_pending : physicalId (lr ||| gichLrStatePending) = physicalId lr := by
  rw [physicalId, or_and_of_disjoint (by decide), physicalId]

@[simp] theorem virtualId_acknowledge : virtualId (acknowledge lr) = virtualId lr := by
  rw [virtualId, acknowledge, or_and_of_disjoint (by decide), and_and_of_subset (by decide),
    virtualId]

@[simp] theorem isHardware_acknowledge : isHardware (acknowledge lr) = isHardware lr := by
  rw [isHardware, acknowledge, or_and_of_disjoint (by decide), and_and_of_subset (by decide),
    isHardware]

@[simp] theorem physicalId_acknowledge : physicalId (acknowledge lr) = physicalId lr := by
  rw [physicalId, acknowledge, or_and_of_disjoint (by decide), and_and_of_subset (by decide),
    physicalId]

@[simp] theorem virtualId_endOfInterrupt : virtualId (endOfInterrupt lr) = virtualId lr := by
  rw [virtualId, endOfInterrupt, and_and_of_subset (by decide), virtualId]

@[simp] theorem isHardware_endOfInterrupt : isHardware (endOfInterrupt lr) = isHardware lr := by
  rw [isHardware, endOfInterrupt, and_and_of_subset (by decide), isHardware]

@[simp] theorem physicalId_endOfInterrupt : physicalId (endOfInterrupt lr) = physicalId lr := by
  rw [physicalId, endOfInterrupt, and_and_of_subset (by decide), physicalId]

@[simp] theorem isPending_endOfInterrupt : isPending (endOfInterrupt lr) = isPending lr := by
  rw [isPending, endOfInterrupt, and_and_of_subset (by decide), isPending]

/-- A pending entry is in use. -/
theorem isInactive_of_isPending (h : isPending lr = true) : isInactive lr = false := by
  rw [isPending, bne_iff_ne] at h
  rw [isInactive, beq_eq_false_iff_ne]
  intro hzero
  apply h
  have hsub : gichLrState &&& gichLrStatePending = gichLrStatePending := by decide
  rw [← hsub, ← BitVec.and_assoc, hzero, BitVec.zero_and]

end Transitions

/-! ## Fields of a new entry -/

section Create

variable (intId group priority : Word) (physicalIntId : Option Word)

/-- The parts of an entry, as far as a field below bit 20 can see them. -/
theorem createListRegisterEntry_and_low {m : Word} (hm : m.toNat < 2 ^ 20) :
    createListRegisterEntry intId group priority physicalIntId &&& m =
      (((intId &&& gichLrVirtualId) &&& m) |||
        (match physicalIntId with
          | some pIntId => (pIntId <<< 10) &&& gichLrPhysicalId
          | none => gichLrEoi) &&& m) := by
  have hpending : gichLrStatePending &&& m = 0#32 := shiftLeft_and_eq_zero 1 (by omega)
  have hgroup : (group <<< 30) &&& m = 0#32 := shiftLeft_and_eq_zero _ (by omega)
  have hpriority : (((priority >>> 3) &&& 0x1F) <<< 23) &&& m = 0#32 :=
    shiftLeft_and_eq_zero _ (by omega)
  have hhw : gichLrHw &&& m = 0#32 := shiftLeft_and_eq_zero 1 (by omega)
  cases physicalIntId with
  | none =>
    simp only [createListRegisterEntry, BitVec.and_or_distrib_right, hpending, hgroup, hpriority,
      BitVec.zero_or]
  | some pIntId =>
    simp only [createListRegisterEntry, BitVec.and_or_distrib_right, hpending, hgroup, hpriority,
      hhw, BitVec.zero_or]

@[simp] theorem virtualId_create :
    virtualId (createListRegisterEntry intId group priority physicalIntId) =
      intId &&& gichLrVirtualId := by
  rw [virtualId, createListRegisterEntry_and_low _ _ _ _ (by decide), BitVec.and_assoc,
    BitVec.and_self]
  cases physicalIntId with
  | none =>
    have h : gichLrEoi &&& gichLrVirtualId = 0#32 := by decide
    rw [h, BitVec.or_zero]
  | some pIntId =>
    have h : gichLrPhysicalId &&& gichLrVirtualId = 0#32 := by decide
    simp only [BitVec.and_assoc, h, BitVec.and_zero, BitVec.or_zero]

@[simp] theorem isPending_create :
    isPending (createListRegisterEntry intId group priority physicalIntId) = true := by
  -- The pending bit is the first part of the entry; the others can only add to it.
  have hpart : ∃ rest, createListRegisterEntry intId group priority physicalIntId =
      rest ||| gichLrStatePending := by
    cases physicalIntId with
    | none =>
      exact ⟨_, by simp only [createListRegisterEntry, BitVec.or_assoc]; exact BitVec.or_comm _ _⟩
    | some pIntId =>
      exact ⟨_, by simp only [createListRegisterEntry, BitVec.or_assoc]; exact BitVec.or_comm _ _⟩
  obtain ⟨rest, hrest⟩ := hpart
  rw [hrest]
  exact isPending_or_pending rest

/-- The HW bit of an entry with a group of one bit. -/
theorem isHardware_create (hgroup : group &&& 1 = group) :
    isHardware (createListRegisterEntry intId group priority physicalIntId) =
      physicalIntId.isSome := by
  have hpending : gichLrStatePending &&& gichLrHw = 0#32 := by decide
  have hg : (group <<< 30) &&& gichLrHw = 0#32 := by
    have h : (1#32 <<< 30) &&& gichLrHw = 0#32 := by decide
    rw [← hgroup, BitVec.shiftLeft_and_distrib, BitVec.and_assoc]
    exact (congrArg _ h).trans BitVec.and_zero
  have hp : (((priority >>> 3) &&& 0x1F) <<< 23) &&& gichLrHw = 0#32 := by
    have h : (0x1F#32 <<< 23) &&& gichLrHw = 0#32 := by decide
    rw [BitVec.shiftLeft_and_distrib, BitVec.and_assoc]
    exact (congrArg _ h).trans BitVec.and_zero
  have hid : (intId &&& gichLrVirtualId) &&& gichLrHw = 0#32 := by
    have h : gichLrVirtualId &&& gichLrHw = 0#32 := by decide
    rw [BitVec.and_assoc, h, BitVec.and_zero]
  cases physicalIntId with
  | none =>
    have h : gichLrEoi &&& gichLrHw = 0#32 := by decide
    simp only [isHardware, createListRegisterEntry, BitVec.and_or_distrib_right, hpending, hg, hp,
      hid, h, BitVec.zero_or]
    rfl
  | some pIntId =>
    have h : gichLrPhysicalId &&& gichLrHw = 0#32 := by decide
    simp only [isHardware, createListRegisterEntry, BitVec.and_or_distrib_right, hpending, hg, hp,
      hid, BitVec.and_assoc, h, BitVec.and_zero, BitVec.zero_or, BitVec.or_zero, BitVec.and_self]
    rfl

/-- The physical INTID of an entry that has one. -/
theorem physicalId_create (pIntId : Word) :
    physicalId (createListRegisterEntry intId group priority (some pIntId)) = pIntId &&& 0x3FF := by
  have hid : (intId &&& gichLrVirtualId) &&& gichLrPhysicalId = 0#32 := by
    have h : gichLrVirtualId &&& gichLrPhysicalId = 0#32 := by decide
    rw [BitVec.and_assoc, h, BitVec.and_zero]
  rw [physicalId, createListRegisterEntry_and_low _ _ _ _ (by decide), hid, BitVec.zero_or,
    BitVec.and_assoc, BitVec.and_self, gichLrPhysicalId, ← BitVec.shiftLeft_and_distrib]
  apply BitVec.eq_of_getLsbD_eq
  intro i hi
  have hmask : (0x3FF#32).getLsbD i = decide (i < 10) := by
    rw [BitVec.getLsbD_ofNat]
    have h : (0x3FF : Nat) = 2 ^ 10 - 1 := by decide
    rw [h, Nat.testBit_two_pow_sub_one]
    simp [hi]
  rw [BitVec.getLsbD_ushiftRight, BitVec.getLsbD_shiftLeft, BitVec.getLsbD_and]
  have hsub : 10 + i - 10 = i := by omega
  rw [hsub]
  by_cases hi10 : i < 10
  · have hlt : 10 + i < 32 := by omega
    simp [hlt]
  · have hzero : (0x3FF#32).getLsbD i = false := by
      rw [hmask]
      simpa using hi10
    simp [hzero]

end Create

end MiniVisor.Gic
