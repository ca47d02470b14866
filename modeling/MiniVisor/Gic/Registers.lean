import MiniVisor.Gic.Model

/-!
# The registers as maps from INTIDs to bits

The register arrays of the Distributor are read and written through places. `placeOf` is the place
of an index for a CPU, `register_eq` says when the helpers of the source reach it, and `bitOf` is
the bit of an INTID in a CPU's view. `bitOf_changeBit` is the one fact about a single bit that is
set or cleared: the bit of that INTID changes in every view that shares it and no other bit does.
-/

set_option autoImplicit false

namespace MiniVisor.Gic

open MiniVisor.Lib

/-! ## Places -/

def Place.bank : Place → Bank
  | .banked _ bank _ => bank
  | .shared bank _ => bank

/-- The place of a register for a CPU, for any index. -/
def placeOf (bank : Bank) (cpu : Cpu) (index : Nat) : Place :=
  if index < bank.bankedLength then .banked cpu bank index else .shared bank index

@[simp] theorem bank_placeOf (bank : Bank) (cpu : Cpu) (index : Nat) :
    (placeOf bank cpu index).bank = bank := by
  unfold placeOf
  split <;> rfl

theorem bankedLength_le (bank : Bank) : bank.bankedLength ≤ bank.sharedLength := by
  cases bank <;> decide

theorem register_eq {bank : Bank} {cpu : Cpu} {index : Nat} (h : index < bank.sharedLength) :
    register bank cpu index = .ok (placeOf bank cpu index) := by
  unfold register placeOf
  split
  · rfl
  · rfl

theorem register_eq_error {bank : Bank} {cpu : Cpu} {index : Nat} (h : ¬index < bank.sharedLength) :
    register bank cpu index = .error .indexOutOfBounds := by
  have hb : ¬index < bank.bankedLength := fun hlt => h (hlt.trans_le (bankedLength_le bank))
  unfold register
  rw [if_neg hb, if_neg h]

/-- Two CPUs reach the same place when the index is shared or they are the same. -/
theorem placeOf_inj {bank : Bank} {c c' : Cpu} {i i' : Nat} :
    placeOf bank c i = placeOf bank c' i' ↔ i = i' ∧ (bank.bankedLength ≤ i ∨ c = c') := by
  by_cases h : i < bank.bankedLength <;> by_cases h' : i' < bank.bankedLength
  · simp only [placeOf, if_pos h, if_pos h', Place.banked.injEq]
    constructor
    · rintro ⟨rfl, -, rfl⟩
      exact ⟨rfl, Or.inr rfl⟩
    · rintro ⟨rfl, hb | rfl⟩
      · omega
      · exact ⟨rfl, trivial, rfl⟩
  · simp only [placeOf, if_pos h, if_neg h', reduceCtorEq, false_iff, not_and]
    omega
  · simp only [placeOf, if_neg h, if_pos h', reduceCtorEq, false_iff, not_and]
    omega
  · simp only [placeOf, if_neg h, if_neg h', Place.shared.injEq, true_and]
    constructor
    · rintro rfl
      exact ⟨rfl, Or.inl (not_lt.1 h)⟩
    · exact fun h => h.1

namespace GicDistributorMmio

variable (d : GicDistributorMmio)

/-- An update changes one place. -/
theorem get_update (p q : Place) (f : Word → Word) :
    (d.update p f).get q = if q = p then f (d.get q) else d.get q := by
  cases p <;> cases q <;> simp [update, get]

@[simp] theorem ctlr_update (p : Place) (f : Word → Word) : (d.update p f).ctlr = d.ctlr := by
  cases p <;> rfl

@[simp] theorem target_update (p : Place) (f : Word → Word) : (d.update p f).target = d.target := by
  cases p <;> rfl

@[simp] theorem ownTarget_update (p : Place) (f : Word → Word) :
    (d.update p f).ownTarget = d.ownTarget := by
  cases p <;> rfl

@[simp] theorem toInjectInterrupt_update (p : Place) (f : Word → Word) :
    (d.update p f).toInjectInterrupt = d.toInjectInterrupt := by
  cases p <;> rfl

end GicDistributorMmio

/-! ## Bits -/

/-- The bit of an INTID in a CPU's view of a bitmap. -/
def bitOf (d : GicDistributorMmio) (bank : Bank) (cpu : Cpu) (intId : Nat) : Bool :=
  (d.get (placeOf bank cpu (intId / 32))).getLsbD (intId % 32)

/-- The banks with one bit for an INTID. -/
def Bank.IsBitmap (bank : Bank) : Prop := bank.bankedLength = 1 ∧ bank.sharedLength = 32

theorem isBitmap_enable : Bank.enable.IsBitmap := ⟨rfl, rfl⟩

theorem isBitmap_pending : Bank.pending.IsBitmap := ⟨rfl, rfl⟩

theorem getLsbD_bit (intId k : Nat) :
    (bit intId).getLsbD k = decide (k = intId % 32) := by
  unfold bit
  rw [show (1 : Word) <<< (intId % 32) = BitVec.twoPow 32 (intId % 32) from
    (BitVec.twoPow_eq _ _).symm, BitVec.getLsbD_twoPow]
  have := Nat.mod_lt intId (show 0 < 32 by decide)
  simp [eq_comm, this]

theorem getLsbD_changeBit {intId k : Nat} (hk : k < 32) (isSet : Bool) (word : Word) :
    (changeBit intId isSet word).getLsbD k =
      if k = intId % 32 then isSet else word.getLsbD k := by
  unfold changeBit
  cases isSet with
  | true =>
    rw [if_pos rfl, BitVec.getLsbD_or, getLsbD_bit]
    by_cases h : k = intId % 32 <;> simp [h]
  | false =>
    rw [if_neg (by decide), BitVec.getLsbD_and, BitVec.getLsbD_not, getLsbD_bit]
    by_cases h : k = intId % 32 <;> simp [h, hk]

/-- The views in which a bitmap bit of an INTID is that of a CPU: all of them when it is not
banked. -/
def SameBit (intId : Nat) (c c' : Cpu) : Prop := 32 ≤ intId ∨ c = c'

instance (intId : Nat) (c c' : Cpu) : Decidable (SameBit intId c c') :=
  inferInstanceAs (Decidable (_ ∨ _))

theorem placeOf_bitmap {bank : Bank} (hb : bank.IsBitmap) {c c' : Cpu} {i i' : Nat} :
    (placeOf bank c (i / 32) = placeOf bank c' (i' / 32) ∧ i % 32 = i' % 32) ↔
      i = i' ∧ SameBit i' c c' := by
  rw [placeOf_inj, hb.1, SameBit]
  constructor
  · rintro ⟨⟨hi, hc⟩, hm⟩
    exact ⟨by omega, hc.imp (fun h => by omega) id⟩
  · rintro ⟨rfl, hc⟩
    exact ⟨⟨rfl, hc.imp (fun h => by omega) id⟩, rfl⟩

/-- What one bit written through `changeBit` does to the bitmaps. -/
theorem bitOf_changeBit (d : GicDistributorMmio) {bank : Bank} (hb : bank.IsBitmap) (cpu c : Cpu)
    (intId i : Nat) (isSet : Bool) :
    bitOf (d.update (placeOf bank cpu (intId / 32)) (changeBit intId isSet)) bank c i = true ↔
      if i = intId ∧ SameBit intId c cpu then isSet = true else bitOf d bank c i = true := by
  have hk : i % 32 < 32 := Nat.mod_lt i (by decide)
  have hsame : (placeOf bank c (i / 32) = placeOf bank cpu (intId / 32) ∧ i % 32 = intId % 32) ↔
      i = intId ∧ SameBit intId c cpu := placeOf_bitmap hb
  unfold bitOf
  rw [d.get_update]
  by_cases hp : placeOf bank c (i / 32) = placeOf bank cpu (intId / 32)
  · rw [if_pos hp, getLsbD_changeBit hk]
    by_cases hm : i % 32 = intId % 32
    · rw [if_pos hm, if_pos (hsame.1 ⟨hp, hm⟩)]
    · rw [if_neg hm, if_neg (fun h => hm (hsame.2 h).2)]
  · rw [if_neg hp, if_neg (fun h => hp (hsame.2 h).1)]

/-- A write to one bank leaves the bits of the others. -/
theorem bitOf_update_of_ne (d : GicDistributorMmio) {p : Place} {bank : Bank} (hb : p.bank ≠ bank)
    (f : Word → Word) (c : Cpu) (i : Nat) : bitOf (d.update p f) bank c i = bitOf d bank c i := by
  have hp : placeOf bank c (i / 32) ≠ p := by
    rintro rfl
    exact hb (bank_placeOf _ _ _)
  unfold bitOf
  rw [d.get_update, if_neg hp]

/-! ## The accessors of the source -/

section Accessors

variable (d : GicDistributorMmio) (cpu : Cpu) {intId : Nat}

theorem getEnable_eq (h : intId < 1024) :
    getEnable d cpu intId = .ok (bitOf d .enable cpu intId) := by
  have hi : intId / 32 < Bank.enable.sharedLength := show intId / 32 < 32 by omega
  simp only [getEnable, enableRegister, register_eq hi, ok_bind]
  rfl

theorem getPending_eq (h : intId < 1024) :
    getPending d cpu intId = .ok (bitOf d .pending cpu intId) := by
  have hi : intId / 32 < Bank.pending.sharedLength := show intId / 32 < 32 by omega
  simp only [getPending, pendingRegister, register_eq hi, ok_bind]
  rfl

theorem changePendingStatusOf_eq (h : intId < 1024) (isPending : Bool) :
    changePendingStatusOf d cpu intId isPending =
      .ok (d.update (placeOf .pending cpu (intId / 32)) (changeBit intId isPending)) := by
  have hi : intId / 32 < Bank.pending.sharedLength := show intId / 32 < 32 by omega
  simp only [changePendingStatusOf, pendingRegister, register_eq hi, ok_bind]
  rfl

theorem changeActiveStatus_eq (h : intId < 1024) (isActive : Bool) :
    changeActiveStatus d cpu intId isActive =
      .ok (d.update (placeOf .active cpu (intId / 32)) (changeBit intId isActive)) := by
  have hi : intId / 32 < Bank.active.sharedLength := show intId / 32 < 32 by omega
  simp only [changeActiveStatus, activeRegister, register_eq hi, ok_bind]
  rfl

theorem getEnable_eq_error (h : 1024 ≤ intId) :
    getEnable d cpu intId = .error .indexOutOfBounds := by
  have hi : ¬intId / 32 < Bank.enable.sharedLength := show ¬intId / 32 < 32 by omega
  simp only [getEnable, enableRegister, register_eq_error hi, error_bind]

theorem getPending_eq_error (h : 1024 ≤ intId) :
    getPending d cpu intId = .error .indexOutOfBounds := by
  have hi : ¬intId / 32 < Bank.pending.sharedLength := show ¬intId / 32 < 32 by omega
  simp only [getPending, pendingRegister, register_eq_error hi, error_bind]

theorem changePendingStatusOf_eq_error (h : 1024 ≤ intId) (isPending : Bool) :
    changePendingStatusOf d cpu intId isPending = .error .indexOutOfBounds := by
  have hi : ¬intId / 32 < Bank.pending.sharedLength := show ¬intId / 32 < 32 by omega
  simp only [changePendingStatusOf, pendingRegister, register_eq_error hi, error_bind]

/-- The group of an INTID in a CPU's view. -/
def groupOf (cpu : Cpu) (intId : Nat) : Word :=
  (d.get (placeOf .group cpu (intId / 32)) >>> (intId % 32)) &&& 1

/-- The priority of an INTID in a CPU's view. -/
def priorityOf (cpu : Cpu) (intId : Nat) : Word :=
  (d.get (placeOf .priority cpu (intId / 4)) >>> (intId % 4 * 8)) &&& 0xFF

theorem getGroup_eq (h : intId < 1024) : getGroup d cpu intId = .ok (groupOf d cpu intId) := by
  have hi : intId / 32 < Bank.group.sharedLength := show intId / 32 < 32 by omega
  simp only [getGroup, groupRegister, register_eq hi, ok_bind]
  rfl

/-- The priority array ends before the last four INTIDs. -/
theorem getPriority_eq (h : intId < 1020) : getPriority d cpu intId = .ok
    (priorityOf d cpu intId) := by
  have hi : intId / 4 < Bank.priority.sharedLength := show intId / 4 < 255 by omega
  simp only [getPriority, priorityRegister, register_eq hi, ok_bind]
  rfl

theorem getPriority_eq_error (h : 1020 ≤ intId) :
    getPriority d cpu intId = .error .indexOutOfBounds := by
  have hi : ¬intId / 4 < Bank.priority.sharedLength := show ¬intId / 4 < 255 by omega
  simp only [getPriority, priorityRegister, register_eq_error hi, error_bind]

/-- The entry that `listEntry` makes. -/
def entryOf (cpu : Cpu) (intId : Nat) (physicalIntId : Option Word) : Word :=
  createListRegisterEntry (BitVec.ofNat 32 intId) (groupOf d cpu intId) (priorityOf d cpu intId)
    physicalIntId

theorem listEntry_eq (h : intId < 1020) (physicalIntId : Option Word) :
    listEntry d cpu intId physicalIntId = .ok (entryOf d cpu intId physicalIntId) := by
  simp only [listEntry, getGroup_eq d cpu (h.trans (by decide)), getPriority_eq d cpu h, ok_bind]
  rfl

theorem not_succeeds_listEntry (h : 1020 ≤ intId) (physicalIntId : Option Word) :
    ¬Succeeds (listEntry d cpu intId physicalIntId) := by
  rw [listEntry, succeeds_bind]
  rintro ⟨group, -, hs⟩
  rw [getPriority_eq_error d cpu h, error_bind] at hs
  exact not_succeeds_error _ hs

end Accessors

@[simp] theorem targetToCpuIndex_targetOf (cpu : Cpu) : targetToCpuIndex (targetOf cpu) = cpu := by
  revert cpu
  decide

theorem targetOf_inj {c c' : Cpu} : targetOf c = targetOf c' ↔ c = c' := by
  revert c c'
  decide

end MiniVisor.Gic
