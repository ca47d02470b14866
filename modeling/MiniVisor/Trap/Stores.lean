import MiniVisor.Trap.Model

/-!
# Trapped byte stores to the Distributor

`GICD_IPRIORITYR` and `GICD_ITARGETSR` have one byte for each INTID and take byte stores. The
handler passes the whole source register to the Distributor, and the Distributor clears the byte of
the INTID and ors the shifted register into it. So the upper bits of the source register reach the
bytes of the INTIDs above in the same word.

`byte_store_local_iff` says for which states and source registers the store is local all the same:
every such bit is set already, or there is none.
-/

set_option autoImplicit false

namespace MiniVisor.Trap

open MiniVisor.Lib MiniVisor.Vm MiniVisor.Gic

/-! ## Bytes of a register -/

/-- The byte of a register. -/
def byteOf (word : Word) (byte : Nat) : BitVec 8 := word.extractLsb' (8 * byte) 8

theorem byteOf_eq_iff {word word' : Word} {byte : Nat} : byteOf word byte = byteOf word' byte ↔
    ∀ i < 8, word.getLsbD (8 * byte + i) = word'.getLsbD (8 * byte + i) := by
  unfold byteOf
  constructor
  · intro h i hi
    have hbit := congrArg (fun b => b.getLsbD i) h
    simpa [BitVec.getLsbD_extractLsb', hi] using hbit
  · intro h
    refine BitVec.eq_of_getLsbD_eq fun i hi => ?_
    simp only [BitVec.getLsbD_extractLsb', hi, decide_true, Bool.true_and]
    exact h i hi

/-- A bit of `replaceByte`: the value is shifted in from the byte on. -/
theorem getLsbD_replaceByte {byte i : Nat} (value : BitVec 64) (word : Word) (hi : i < 32) :
    (replaceByte byte value word).getLsbD i =
      if i < 8 * byte then word.getLsbD i
      else if i < 8 * byte + 8 then value.getLsbD (i - 8 * byte)
      else word.getLsbD i || value.getLsbD (i - 8 * byte) := by
  have hmask : ((0xFF : Word) <<< (byte * 8)).getLsbD i =
      decide (8 * byte ≤ i ∧ i < 8 * byte + 8) := by
    have hones : (0xFF : Word) = BitVec.setWidth 32 (BitVec.allOnes 8) := by decide
    rw [BitVec.getLsbD_shiftLeft, hones, BitVec.getLsbD_setWidth, BitVec.getLsbD_allOnes]
    by_cases h : i < byte * 8
    · simp [h, show ¬8 * byte ≤ i by omega]
    · simp [h, hi, show 8 * byte ≤ i by omega, show i - byte * 8 < 32 by omega,
        show i - byte * 8 < 8 ↔ i < 8 * byte + 8 by omega]
  unfold replaceByte
  rw [BitVec.getLsbD_or, BitVec.getLsbD_and, BitVec.getLsbD_not, hmask,
    BitVec.truncate_eq_setWidth, BitVec.getLsbD_setWidth, BitVec.getLsbD_shiftLeft,
    Nat.mul_comm byte 8]
  -- Below the byte nothing is shifted in, in the byte the old bit is masked.
  split_ifs with hbelow hin
  · simp [hi, hbelow, show ¬8 * byte ≤ i by omega]
  · simp [hi, hbelow, hin, show 8 * byte ≤ i by omega, show i < 64 by omega]
  · simp [hi, hbelow, hin, show i < 64 by omega]

/-- The byte itself is replaced. -/
theorem byteOf_replaceByte {byte : Nat} (value : BitVec 64) (word : Word) (hbyte : byte < 4) :
    byteOf (replaceByte byte value word) byte = value.truncate 8 := by
  unfold byteOf
  refine BitVec.eq_of_getLsbD_eq fun i hi => ?_
  rw [BitVec.getLsbD_extractLsb', getLsbD_replaceByte value word (by omega), if_neg (by omega),
    if_pos (by omega), BitVec.truncate_eq_setWidth, BitVec.getLsbD_setWidth,
    Nat.add_sub_cancel_left]

/-- Every bit of the value above its lowest byte that is shifted into the register is set there
already. -/
def Absorbs (word : Word) (byte : Nat) (value : BitVec 64) : Prop :=
  ∀ i, 8 ≤ i → 8 * byte + i < 32 → value.getLsbD i = true → word.getLsbD (8 * byte + i) = true

/-- The other bytes of the register stay exactly when it absorbs the rest of the value. -/
theorem byteOf_replaceByte_of_ne_iff {byte : Nat} (value : BitVec 64) (word : Word) :
    (∀ other < 4, other ≠ byte →
        byteOf (replaceByte byte value word) other = byteOf word other) ↔
        Absorbs word byte value := by
  constructor
  · intro h i hi hlt hvalue
    have hother := byteOf_eq_iff.1 (h ((8 * byte + i) / 8) (by omega) (by omega))
      ((8 * byte + i) % 8) (by omega)
    rw [Nat.div_add_mod, getLsbD_replaceByte value word hlt, if_neg (by omega), if_neg (by omega),
      Nat.add_sub_cancel_left, hvalue, Bool.or_true] at hother
    exact hother.symm
  · intro h other hlt hne
    refine byteOf_eq_iff.2 fun i hi => ?_
    rw [getLsbD_replaceByte value word (by omega)]
    split_ifs with hbelow hin
    · rfl
    · omega
    · cases hvalue : value.getLsbD (8 * other + i - 8 * byte) with
      | false => rw [Bool.or_false]
      | true =>
        have habsorbed := h (8 * other + i - 8 * byte) (by omega) (by omega) hvalue
        rw [show 8 * byte + (8 * other + i - 8 * byte) = 8 * other + i by omega] at habsorbed
        rw [habsorbed, Bool.or_true]

/-! ## The store -/

/-- The registers with a byte for each INTID. -/
inductive ByteRegister where
  | ipriorityr | itargetsr
  deriving DecidableEq, Repr

def ByteRegister.offset : ByteRegister → Nat
  | .ipriorityr => 0x0400
  | .itargetsr => 0x0800

/-- The priority byte of an INTID in a CPU's view. -/
def priorityByte (d : GicDistributorMmio) (cpu : Cpu) (intId : Nat) : BitVec 8 :=
  byteOf (d.get (placeOf .priority cpu (intId / 4))) (intId % 4)

/-- The target byte of an INTID. -/
def targetByte (d : GicDistributorMmio) (intId : Nat) : BitVec 8 :=
  byteOf (d.target (intId / 4)) (intId % 4)

/-- The store of a byte for an INTID, on a CPU: the byte is replaced, and no other one changes. The
priorities of INTIDs 0 to 31 are banked, and their targets are read-only. -/
structure StoresByte (register : ByteRegister) (cpu : Cpu) (intId : Nat) (value : BitVec 8)
    (d d' : GicDistributorMmio) : Prop where
  priority : register = .ipriorityr → priorityByte d' cpu intId = value
  target : register = .itargetsr → 32 ≤ intId → targetByte d' intId = value
  priorities : ∀ c id, ¬(register = .ipriorityr ∧ id = intId ∧ (32 ≤ id ∨ c = cpu)) →
    priorityByte d' c id = priorityByte d c id
  targets : ∀ id, ¬(register = .itargetsr ∧ id = intId ∧ 32 ≤ id) →
    targetByte d' id = targetByte d id

/-- The register that the byte of the INTID is in. -/
def wordOf (register : ByteRegister) (d : GicDistributorMmio) (cpu : Cpu) (intId : Nat) : Word :=
  match register with
  | .ipriorityr => d.get (placeOf .priority cpu (intId / 4))
  | .itargetsr => d.target (intId / 4)

/-- The store is to a read-only byte, or the register absorbs what is above the lowest byte. -/
def Clean (register : ByteRegister) (d : GicDistributorMmio) (cpu : Cpu) (intId : Nat)
    (value : BitVec 64) : Prop :=
  (register = .itargetsr ∧ intId < 32) ∨ Absorbs (wordOf register d cpu intId) (intId % 4) value

section Priority

variable {d : GicDistributorMmio} {cpu : Cpu} {intId : Nat} {value : BitVec 64}

theorem priorityByte_update (c : Cpu) (id : Nat) (f : Word → Word) :
    priorityByte (d.update (placeOf .priority cpu (intId / 4)) f) c id =
      if id / 4 = intId / 4 ∧ (32 ≤ id ∨ c = cpu) then
        byteOf (f (d.get (placeOf .priority cpu (intId / 4)))) (id % 4)
      else priorityByte d c id := by
  have hplace : placeOf .priority c (id / 4) = placeOf .priority cpu (intId / 4) ↔
      id / 4 = intId / 4 ∧ (32 ≤ id ∨ c = cpu) := by
    rw [placeOf_inj, show Bank.priority.bankedLength = 8 from rfl,
      show (8 ≤ id / 4 ↔ 32 ≤ id) by omega]
  unfold priorityByte
  rw [GicDistributorMmio.get_update]
  split_ifs with h h' h'
  · rw [h]
  · exact absurd (hplace.1 h) h'
  · exact absurd (hplace.2 h') h
  · rfl

/-- A byte store to a priority register. -/
theorem storesByte_priority_iff :
    StoresByte .ipriorityr cpu intId (value.truncate 8) d
        (d.update (placeOf .priority cpu (intId / 4)) (replaceByte (intId % 4) value)) ↔
      Clean .ipriorityr d cpu intId value := by
  have hlt : intId % 4 < 4 := Nat.mod_lt _ (by decide)
  have hclean : Clean .ipriorityr d cpu intId value ↔
      Absorbs (d.get (placeOf .priority cpu (intId / 4))) (intId % 4) value :=
    or_iff_right (by simp)
  rw [hclean, ← byteOf_replaceByte_of_ne_iff]
  constructor
  · -- The byte `other` of the register is the one of another INTID.
    intro h other hother hne
    have hdiv : (intId / 4 * 4 + other) / 4 = intId / 4 := by omega
    have hmod : (intId / 4 * 4 + other) % 4 = other := by omega
    have hkept := h.priorities cpu (intId / 4 * 4 + other) (by rintro ⟨-, heq, -⟩; omega)
    rw [priorityByte_update, if_pos ⟨hdiv, Or.inr rfl⟩, hmod] at hkept
    unfold priorityByte at hkept
    rwa [hdiv, hmod] at hkept
  · intro h
    refine ⟨fun _ => ?_, nofun, fun c id hother => ?_, fun id _ => ?_⟩
    · rw [priorityByte_update, if_pos ⟨rfl, Or.inr rfl⟩]
      exact byteOf_replaceByte value _ hlt
    · rw [priorityByte_update]
      split_ifs with hsame
      · have hne : id % 4 ≠ intId % 4 := fun hmod => hother ⟨rfl, by omega, hsame.2⟩
        rw [h (id % 4) (Nat.mod_lt _ (by decide)) hne]
        unfold priorityByte
        rw [(placeOf_inj (i := id / 4) (c := c)).2 ⟨hsame.1, ?_⟩]
        rw [show Bank.priority.bankedLength = 8 from rfl]
        exact hsame.2.imp_left fun hid => by omega
      · rfl
    · unfold targetByte
      rw [GicDistributorMmio.target_update]

end Priority

section Target

variable {d : GicDistributorMmio} {cpu : Cpu} {intId : Nat} {value : BitVec 64}

/-- The Distributor after a change to an entry of `target`. -/
def withTarget (d : GicDistributorMmio) (n : Nat) (f : Word → Word) : GicDistributorMmio :=
  { d with target := fun i => if i = n then f (d.target i) else d.target i }

theorem targetByte_withTarget (n id : Nat) (f : Word → Word) : targetByte (withTarget d n f) id =
    if id / 4 = n then byteOf (f (d.target n)) (id % 4) else targetByte d id := by
  unfold targetByte withTarget
  dsimp only
  split_ifs with h
  · rw [h]
  · rfl

/-- A byte store to a target register that is not read-only. -/
theorem storesByte_target_iff (hid : 32 ≤ intId) :
    StoresByte .itargetsr cpu intId (value.truncate 8) d
        (withTarget d (intId / 4) (replaceByte (intId % 4) value)) ↔
      Clean .itargetsr d cpu intId value := by
  have hlt : intId % 4 < 4 := Nat.mod_lt _ (by decide)
  have hclean : Clean .itargetsr d cpu intId value ↔
      Absorbs (d.target (intId / 4)) (intId % 4) value :=
    or_iff_right fun h => absurd h.2 (by omega)
  rw [hclean, ← byteOf_replaceByte_of_ne_iff]
  constructor
  · intro h other hother hne
    have hdiv : (intId / 4 * 4 + other) / 4 = intId / 4 := by omega
    have hmod : (intId / 4 * 4 + other) % 4 = other := by omega
    have hkept := h.targets (intId / 4 * 4 + other) (by rintro ⟨-, heq, -⟩; omega)
    rw [targetByte_withTarget, if_pos hdiv, hmod] at hkept
    unfold targetByte at hkept
    rwa [hdiv, hmod] at hkept
  · intro h
    refine ⟨nofun, fun _ _ => ?_, fun c id _ => rfl, fun id hother => ?_⟩
    · rw [targetByte_withTarget, if_pos rfl]
      exact byteOf_replaceByte value _ hlt
    · rw [targetByte_withTarget]
      split_ifs with hsame
      · have hne : id % 4 ≠ intId % 4 := fun hmod => hother ⟨rfl, by omega, by omega⟩
        rw [h (id % 4) (Nat.mod_lt _ (by decide)) hne, ← hsame]
        rfl
      · rfl

/-- A store to a read-only byte changes nothing. -/
theorem storesByte_refl (hid : intId < 32) (byte : BitVec 8) :
    StoresByte .itargetsr cpu intId byte d d :=
  ⟨nofun, fun _ h => absurd h (by omega), fun _ _ _ => rfl, fun _ _ => rfl⟩

end Target

/-! ## The write of the Distributor -/

theorem decode_ipriorityr {intId : Nat} (h : intId ≤ 1019) :
    decode (0x400 + intId) = some (.ipriorityr (intId / 4) (intId % 4)) := by
  unfold decode
  repeat rw [if_neg (by omega)]
  rw [if_pos (by omega), Nat.add_sub_cancel_left]

theorem decode_itargetsr {intId : Nat} (h : intId ≤ 1019) :
    decode (0x800 + intId) = some (.itargetsr (intId / 4) (intId % 4)) := by
  unfold decode
  repeat rw [if_neg (by omega)]
  rw [if_pos (by omega), Nat.add_sub_cancel_left]

/-- A byte write to the Distributor succeeds, and is local exactly when it is clean. -/
theorem write_byte_iff (v : Vgic) (cpu : Cpu) (register : ByteRegister) {intId : Nat}
    (hid : intId ≤ 1019) (value : BitVec 64) :
    ∃ v', write v cpu (register.offset + intId) 8 value = .ok v' ∧
      (StoresByte register cpu intId (value.truncate 8) v.distributor v'.distributor ↔
        Clean register v.distributor cpu intId value) := by
  cases register with
  | ipriorityr =>
    have hplace : priorityRegister cpu (intId / 4) = .ok (placeOf .priority cpu (intId / 4)) :=
      register_eq (show intId / 4 < 255 by omega)
    refine ⟨v.setDistributor (v.distributor.update (placeOf .priority cpu (intId / 4))
      (replaceByte (intId % 4) value)), ?_, storesByte_priority_iff⟩
    simp only [write, ByteRegister.offset, decode_ipriorityr hid, if_true, updateRegister, hplace,
      ok_bind]
    rfl
  | itargetsr =>
    by_cases hlow : intId < 32
    · refine ⟨v, ?_, fun _ => Or.inl ⟨rfl, hlow⟩, fun _ => storesByte_refl hlow _⟩
      simp only [write, ByteRegister.offset, decode_itargetsr hid]
      rw [if_pos (by omega)]
    · have htarget : targetRegister (intId / 4) = .ok (intId / 4) := if_pos (by omega)
      refine ⟨v.setDistributor (withTarget v.distributor (intId / 4)
        (replaceByte (intId % 4) value)), ?_, storesByte_target_iff (by omega)⟩
      simp only [write, ByteRegister.offset, decode_itargetsr hid]
      rw [if_neg (by omega), if_pos trivial, updateTarget, htarget]
      rfl

/-! ## The trap -/

section Masked

variable (value : BitVec 64)

theorem getLsbD_low_mask {i : Nat} (hi : i < 32) :
    (value &&& 0xFFFFFFFF).getLsbD i = value.getLsbD i := by
  have hones : (0xFFFFFFFF : BitVec 64) = BitVec.setWidth 64 (BitVec.allOnes 32) := by decide
  rw [BitVec.getLsbD_and, hones, BitVec.getLsbD_setWidth, BitVec.getLsbD_allOnes]
  simp [hi, show i < 64 by omega]

/-- The part of a source register that the handler passes on when the register has 32 bits. -/
theorem clean_mask_iff {register : ByteRegister} {d : GicDistributorMmio} {cpu : Cpu}
    {intId : Nat} :
    Clean register d cpu intId (value &&& 0xFFFFFFFF) ↔ Clean register d cpu intId value := by
  refine or_congr Iff.rfl (forall_congr' fun i => forall_congr' fun _ => forall_congr' fun hlt =>
    ?_)
  rw [getLsbD_low_mask value (by omega)]

theorem truncate_mask : (value &&& 0xFFFFFFFF).truncate 8 = value.truncate 8 := by
  refine BitVec.eq_of_getLsbD_eq fun i hi => ?_
  simp only [BitVec.truncate_eq_setWidth, BitVec.getLsbD_setWidth, hi, decide_true, Bool.true_and]
  exact getLsbD_low_mask value (by omega)

end Masked

/-- For every state and every source register, a trapped byte store to a priority or target register
is local exactly when it is clean, and the instruction is not the last one of the address space. -/
theorem byte_store_local_iff (w : World) (g : Guest Devices) (register : ByteRegister) (intId : Nat)
    (hvalid : isValid g.esrEl2 = true) (hstore : isWriteAccess g.esrEl2 = true)
    (hwidth : accessWidth g.esrEl2 = 8) (hid : intId ≤ 1019)
    (haddress : g.address.toNat = Device.distributor.baseAddress + (register.offset + intId)) :
    wp (dataAbort (mmioHandlers w)) (fun _ _ => False) (fun _ t =>
        StoresByte register w.cpu intId (g.register.truncate 8) g.devices.vgic.distributor
          t.devices.vgic.distributor) g ↔
      Clean register g.devices.vgic.distributor w.cpu intId g.register ∧
        g.elrEl2.toNat + 4 < 2 ^ 64 := by
  have hoffset : register.offset + intId < Device.distributor.length := by
    cases register <;> simp only [ByteRegister.offset, Device.length] <;> omega
  rw [wp_dataAbort_store hvalid hstore, hwidth, haddress,
    handleMmioWrite_mmioHandlers w .distributor hoffset, wp_map]
  -- The value is the source register, or its lower half: its bits that matter are the same.
  generalize hvalue : (if is64bitRegister g.esrEl2 = true then g.register
    else g.register &&& 0xFFFFFFFF) = value
  have hsame : (Clean register g.devices.vgic.distributor w.cpu intId value ↔
      Clean register g.devices.vgic.distributor w.cpu intId g.register) ∧
      value.truncate 8 = g.register.truncate 8 := by
    rw [← hvalue]
    split
    · exact ⟨Iff.rfl, rfl⟩
    · exact ⟨clean_mask_iff _, truncate_mask _⟩
  obtain ⟨v, hwrite, hiff⟩ := write_byte_iff g.devices.vgic w.cpu register hid value
  rw [hsame.1, hsame.2] at hiff
  simp only [Device.write, wp_bind, wp_ofExcept, hwrite, wp_modify, true_and]
  rw [and_comm, ← hiff]
  rfl

/-- A data abort with a valid syndrome: a byte store of `x1` to `GICD_IPRIORITYR`, for INTID 32. -/
def storePriority (x1 : BitVec 64) : Guest Devices where
  x i := if i = 1 then x1 else 0
  esrEl2 := (0x24 <<< 26) ||| (1 <<< 24) ||| (1 <<< 16) ||| (1 <<< 6)
  elrEl2 := 0x40080000
  hpfarEl2 := 0x8000 <<< 4
  farEl2 := 0x420
  devices := smallDevices

/-- A source register below 256. -/
theorem byte_store_low :
    wp (dataAbort (mmioHandlers smallWorld)) (fun _ _ => False) (fun _ t =>
      StoresByte .ipriorityr 0 32 0xA0 smallDevices.vgic.distributor t.devices.vgic.distributor)
      (storePriority 0xA0) := by
  have habsorbs : Absorbs 0 0 0xA0 := by
    intro i hi hlt hbit
    have hnone : ∀ i < 32, 8 ≤ i → (0xA0 : BitVec 64).getLsbD i = false := by decide
    rw [hnone i (by omega) hi] at hbit
    cases hbit
  exact (byte_store_local_iff smallWorld (storePriority 0xA0) .ipriorityr 32 (by decide) (by decide)
    (by decide) (by decide) (by decide)).2 ⟨Or.inr habsorbs, by decide⟩

/-- The ninth bit of the source register ends up in the priority of INTID 33. -/
theorem byte_store_spills :
    priorityByte smallDevices.vgic.distributor 0 33 = 0 ∧
    ∃ t, dataAbort (mmioHandlers smallWorld) (storePriority 0x1A0) = (.ok (), t) ∧
      priorityByte t.devices.vgic.distributor 0 33 = 1 :=
  ⟨by decide +kernel, _, rfl, by decide +kernel⟩

end MiniVisor.Trap
