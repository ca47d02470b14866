import MiniVisor.Trap.Model

/-!
# Trapped loads

A load truncates what it reads to the width of the access and extends it to the size of its
register: with zeros, or with its sign if the instruction says so (`loadResult`).
`data_abort_handler` puts the answer of the device into the register as it is, and does not look at
`ESR_EL2.SSE`.

So `load_iff`: a trapped load does what a load does exactly when the answer of the device is its own
result (`Fits`) or is discarded. Most devices ignore the width of the access;
`capacity_byte_not_truncated` is a byte load from the configuration space of the block device.
-/

set_option autoImplicit false

namespace MiniVisor.Trap

open MiniVisor.Lib MiniVisor.Vm

/-! ## What a load does -/

/-- `ESR_EL2.SSE`: the load sign-extends. The handler does not read this bit. -/
def isSignExtending (esr : BitVec 64) : Bool := esr.getLsbD 21

/-- The size of the register that is loaded. -/
def registerSize (esr : BitVec 64) : Nat := if is64bitRegister esr then 64 else 32

/-- What a load of `value` leaves in its register. A load of a 32-bit register clears the upper half
of the 64-bit one. -/
def loadResult (esr value : BitVec 64) : BitVec 64 :=
  let data := value.setWidth (accessWidth esr)
  if isSignExtending esr then (data.signExtend (registerSize esr)).setWidth 64
  else (data.setWidth (registerSize esr)).setWidth 64

/-- The value is within the width of the access and of the register. For a load that sign-extends,
it is a signed number of this width, as a word of the size of the register. -/
def Fits (esr value : BitVec 64) : Prop :=
  let bits := min (accessWidth esr) (registerSize esr)
  if isSignExtending esr then
    value.toNat < 2 ^ (bits - 1) ∨
      (2 ^ registerSize esr - 2 ^ (bits - 1) ≤ value.toNat ∧ value.toNat < 2 ^ registerSize esr)
  else value.toNat < 2 ^ bits

instance (esr value : BitVec 64) : Decidable (Fits esr value) := by
  unfold Fits
  infer_instance

theorem accessWidth_cases (esr : BitVec 64) :
    accessWidth esr = 8 ∨ accessWidth esr = 16 ∨ accessWidth esr = 32 ∨ accessWidth esr = 64 := by
  unfold accessWidth
  split <;> simp

theorem registerSize_cases (esr : BitVec 64) : registerSize esr = 32 ∨ registerSize esr = 64 := by
  unfold registerSize
  split <;> simp

/-- Zero extension leaves the values below the width. -/
theorem zeroExtend_eq_self_iff (value : BitVec 64) {width size : Nat} (hsize : size ≤ 64) :
    ((value.setWidth width).setWidth size).setWidth 64 = value ↔
      value.toNat < 2 ^ min width size := by
  have hpow : 2 ^ size ≤ 2 ^ 64 := Nat.pow_le_pow_right (by decide) hsize
  have hdvd : 2 ^ min width size = min (2 ^ width) (2 ^ size) := by
    rcases le_total width size with h | h
    · rw [min_eq_left h, min_eq_left (Nat.pow_le_pow_right (by decide) h)]
    · rw [min_eq_right h, min_eq_right (Nat.pow_le_pow_right (by decide) h)]
  rw [← BitVec.toNat_inj, BitVec.toNat_setWidth, BitVec.toNat_setWidth, BitVec.toNat_setWidth, hdvd,
    lt_min_iff]
  have hbelow : value.toNat % 2 ^ width % 2 ^ size < 2 ^ 64 :=
    (Nat.mod_lt _ (Nat.two_pow_pos size)).trans_le hpow
  rw [Nat.mod_eq_of_lt hbelow]
  constructor
  · intro h
    have hle := Nat.mod_le (value.toNat % 2 ^ width) (2 ^ size)
    have hw := Nat.mod_lt value.toNat (Nat.two_pow_pos width)
    have hs := Nat.mod_lt (value.toNat % 2 ^ width) (Nat.two_pow_pos size)
    omega
  · rintro ⟨hw, hs⟩
    rw [Nat.mod_eq_of_lt hw, Nat.mod_eq_of_lt hs]

/-- Sign extension leaves the signed numbers of the width. -/
theorem signExtend_eq_self_iff (value : BitVec 64) {width size : Nat}
    (hsize : size = 32 ∨ size = 64) (hwidth : width = 8 ∨ width = 16 ∨ width = 32 ∨ width = 64) :
    ((value.setWidth width).signExtend size).setWidth 64 = value ↔
      value.toNat < 2 ^ (min width size - 1) ∨
        (2 ^ size - 2 ^ (min width size - 1) ≤ value.toNat ∧ value.toNat < 2 ^ size) := by
  have hlt := value.isLt
  rw [← BitVec.toNat_inj, BitVec.toNat_setWidth, BitVec.toNat_signExtend, BitVec.msb_eq_decide,
    BitVec.toNat_setWidth, BitVec.toNat_setWidth]
  -- With concrete widths the extension is an addition to a remainder.
  rcases hsize with rfl | rfl <;> rcases hwidth with rfl | rfl | rfl | rfl
  all_goals
    simp only [Nat.min_def, Nat.reduceLeDiff, reduceIte, Nat.reduceSub, Nat.reducePow,
      decide_eq_true_eq] at hlt ⊢
    split_ifs <;> omega

/-- The values that a load leaves as they are. -/
theorem loadResult_eq_self_iff (esr value : BitVec 64) :
    loadResult esr value = value ↔ Fits esr value := by
  unfold loadResult Fits
  dsimp only
  split_ifs
  · exact signExtend_eq_self_iff value (registerSize_cases esr) (accessWidth_cases esr)
  · refine zeroExtend_eq_self_iff value ?_
    rcases registerSize_cases esr with h | h <;> rw [h]
    decide

/-! ## What the trap does -/

/-- The device can be read at the offset, and holds `value` there. -/
def Device.Holds (device : Device) (w : World) (d : Devices) (offset accessWidth : Nat)
    (value : BitVec 64) : Prop :=
  ∃ d', device.read w offset accessWidth d = (.ok value, d')

/-- The registers after a load of `value`. Register 31 discards it. -/
structure LoadsLike {σ : Type} (g : Guest σ) (value : BitVec 64) (t : Guest σ) : Prop where
  register : ∀ h : (registerNumber g.esrEl2).val < 31,
    t.x ⟨registerNumber g.esrEl2, h⟩ = loadResult g.esrEl2 value
  others : ∀ i : Fin 31, i.val ≠ (registerNumber g.esrEl2).val → t.x i = g.x i
  elr : t.elrEl2 = g.elrEl2 + 4

theorem loadsLike_resumed_iff {σ : Type} (g : Guest σ) (value : BitVec 64) (d : σ) :
    LoadsLike g value (g.resumed (setRegister g.x (registerNumber g.esrEl2) value) d) ↔
      (registerNumber g.esrEl2).val = 31 ∨ Fits g.esrEl2 value := by
  have hnumber := (registerNumber g.esrEl2).isLt
  rw [← loadResult_eq_self_iff]
  by_cases h : (registerNumber g.esrEl2).val < 31
  · have hset : setRegister g.x (registerNumber g.esrEl2) value =
        Function.update g.x ⟨registerNumber g.esrEl2, h⟩ value := dif_pos h
    rw [hset]
    constructor
    · intro hloads
      have hregister := hloads.register h
      rw [show (g.resumed (Function.update g.x ⟨registerNumber g.esrEl2, h⟩ value) d).x
        ⟨registerNumber g.esrEl2, h⟩ = value from Function.update_self ..] at hregister
      exact Or.inr hregister.symm
    · rintro (heq | heq)
      · omega
      · refine ⟨fun _ => (Function.update_self ..).trans heq.symm, fun i hi => ?_, rfl⟩
        exact Function.update_of_ne (fun hi' => hi (congrArg Fin.val hi')) ..
  · have hset : setRegister g.x (registerNumber g.esrEl2) value = g.x := dif_neg h
    rw [hset]
    have h31 : (registerNumber g.esrEl2).val = 31 := by
      unfold numberOfSlots at hnumber
      omega
    exact ⟨fun _ => Or.inl h31, fun _ => ⟨fun h' => absurd h' h, fun _ _ => rfl, rfl⟩⟩

/-- For every trapped load from a device, the trap ends and does what the load does exactly when the
value of the device fits the load or is discarded, and the instruction is not the last one of the
address space. -/
theorem load_iff (w : World) (g : Guest Devices) (device : Device) (offset : Nat)
    (value : BitVec 64) (hvalid : isValid g.esrEl2 = true) (hload : isWriteAccess g.esrEl2 = false)
    (hoffset : offset < device.length) (haddress : g.address.toNat = device.baseAddress + offset)
    (hvalue : device.Holds w g.devices offset (accessWidth g.esrEl2) value) :
    wp (dataAbort (mmioHandlers w)) (fun _ _ => False) (fun _ t => LoadsLike g value t) g ↔
      ((registerNumber g.esrEl2).val = 31 ∨ Fits g.esrEl2 value) ∧
        g.elrEl2.toNat + 4 < 2 ^ 64 := by
  obtain ⟨d, hread⟩ := hvalue
  rw [wp_dataAbort_load hvalid hload, haddress, handleMmioRead_mmioHandlers w device
    hoffset, wp_map]
  unfold wp
  rw [hread]
  simp only [Option.some.injEq, exists_eq_left', loadsLike_resumed_iff]
  exact and_comm

/-- A data abort with a valid syndrome: a load of the given width code into `x1`, at the page and
offset. -/
def loadAt (width : BitVec 2) (page offset : BitVec 64) : Guest Devices where
  x _ := 0
  esrEl2 := (0x24 <<< 26) ||| (1 <<< 24) ||| (width.zeroExtend 64 <<< 22) ||| (1 <<< 16)
  elrEl2 := 0x40080000
  hpfarEl2 := page <<< 4
  farEl2 := offset
  devices := smallDevices

/-- A 32-bit load of the magic value of the block device. -/
theorem load_magic :
    wp (dataAbort (mmioHandlers smallWorld)) (fun _ _ => False)
      (fun _ t => LoadsLike (loadAt 0b10 0xa000 0) 0x74726976 t) (loadAt 0b10 0xa000 0) := by
  have hvalue : Device.blk.Holds smallWorld smallDevices 0 32 0x74726976 := ⟨_, rfl⟩
  exact (load_iff smallWorld (loadAt 0b10 0xa000 0) .blk 0 0x74726976 (by decide) (by decide)
    (by decide) (by decide) hvalue).2 ⟨Or.inr (by decide), by decide⟩

/-- The lowest byte of the capacity of 512 sectors is zero. A byte load of it leaves the whole
capacity in the register. -/
theorem capacity_byte_not_truncated :
    Device.blk.Holds smallWorld smallDevices 0x100 8 0x200 ∧
    loadResult (loadAt 0b00 0xa000 0x100).esrEl2 0x200 = 0 ∧
    ∃ t, dataAbort (mmioHandlers smallWorld) (loadAt 0b00 0xa000 0x100) = (.ok (), t) ∧
      t.x 1 = 0x200 :=
  ⟨⟨_, rfl⟩, by decide +kernel, _, rfl, by decide +kernel⟩

end MiniVisor.Trap
