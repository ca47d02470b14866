import MiniVisor.Gic.ListRegister
import MiniVisor.Lib.Fault

/-!
# The emulated GIC Distributor

`GicDistributorMmio` of `mmio/gicv2.rs` for one VM, together with the List Registers of the physical
CPUs that run the VM and the handlers of `vgic.rs` and `generic_timer.rs` that move interrupts
between the two.

A register array of the source is a function of the index with a fixed length, and the helpers that
return a reference into the arrays return a `Place` or the fault of an index out of bounds. INTIDs 0
to 31 are banked for each CPU interface; a CPU interface is named by its number, and its target bit
is the power of two of that number.

`outstanding` records the software triggers that the guest on the target has not acknowledged yet.
No function reads it.
-/

set_option autoImplicit false

namespace MiniVisor.Gic

open MiniVisor.Lib

/-! ## State -/

/-- `MAX_CPU_INTERFACES`. -/
abbrev maxCpuInterfaces : Nat := 8

abbrev Cpu := Fin maxCpuInterfaces

/-- A bitmask of CPU interfaces. -/
abbrev Target := BitVec 8

/-- The register arrays of which the part for INTIDs 0 to 31 is banked. -/
inductive Bank where
  | group | enable | pending | active | priority | configuration
  deriving DecidableEq, Repr

/-- The number of registers for INTIDs 0 to 31. -/
def Bank.bankedLength : Bank → Nat
  | .priority => 8
  | .configuration => 2
  | _ => 1

/-- The length of the shared array. -/
def Bank.sharedLength : Bank → Nat
  | .priority => 255
  | .configuration => 64
  | _ => 32

structure GicDistributorMmio where
  ctlr : Word
  shared : Bank → Nat → Word
  banked : Cpu → Bank → Nat → Word
  target : Nat → Word
  ownTarget : Target
  toInjectInterrupt : List (Target × Word)

/-- The Distributor of one VM and the interrupt hardware that its handlers use. -/
structure Vgic where
  distributor : GicDistributorMmio
  /-- `get_gich_vtr_list_regs`. -/
  numberOfLrn : Nat
  lr : Cpu → Nat → Word
  /-- `GENERIC_TIMER_PHYSICAL_INT_ID`. -/
  timerIntId : Word
  outstanding : Cpu → Nat → Bool

/-- `GicDistributorMmio::new`. -/
def GicDistributorMmio.new (ownTarget : Target) : GicDistributorMmio where
  ctlr := 0
  shared _ _ := 0
  banked _ _ _ := 0
  target _ := 0
  ownTarget := ownTarget
  toInjectInterrupt := []

namespace Vgic

def setDistributor (v : Vgic) (d : GicDistributorMmio) : Vgic := { v with distributor := d }

/-- `set_gich_lr` on a CPU. -/
def setLr (v : Vgic) (cpu : Cpu) (i : Nat) (value : Word) : Vgic :=
  { v with lr := fun c j => if c = cpu ∧ j = i then value else v.lr c j }

/-- The number of List Registers in use, at most `NUMBER_OF_SUPPORTED_LRS`. -/
def supportedLrn (v : Vgic) : Nat := min v.numberOfLrn 4

end Vgic

/-! ## CPU interfaces -/

/-- `get_current_cpu_target`, for the CPU that executes the code. -/
def targetOf (cpu : Cpu) : Target := (1 : Target) <<< cpu.val

/-- `target_to_cpu_index`. -/
def targetToCpuIndex (target : Target) : Cpu :=
  ⟨min target.ctz.toNat (maxCpuInterfaces - 1), by
    have := Nat.min_le_right target.ctz.toNat (maxCpuInterfaces - 1)
    simp only [maxCpuInterfaces] at *
    omega⟩

/-! ## Registers -/

/-- Where a register is. -/
inductive Place where
  | banked (cpu : Cpu) (bank : Bank) (index : Nat)
  | shared (bank : Bank) (index : Nat)
  deriving DecidableEq, Repr

namespace GicDistributorMmio

def get (d : GicDistributorMmio) : Place → Word
  | .banked cpu bank index => d.banked cpu bank index
  | .shared bank index => d.shared bank index

def update (d : GicDistributorMmio) (place : Place) (f : Word → Word) : GicDistributorMmio :=
  match place with
  | .banked cpu bank index =>
    { d with banked := fun c b i =>
        if c = cpu ∧ b = bank ∧ i = index then f (d.banked c b i) else d.banked c b i }
  | .shared bank index =>
    { d with shared := fun b i =>
        if b = bank ∧ i = index then f (d.shared b i) else d.shared b i }

end GicDistributorMmio

/-- The choice between the bank of a CPU and the shared array. -/
def register (bank : Bank) (cpu : Cpu) (index : Nat) : Except Fault Place :=
  if index < bank.bankedLength then .ok (.banked cpu bank index)
  else if index < bank.sharedLength then .ok (.shared bank index)
  else .error .indexOutOfBounds

def groupRegister (cpu : Cpu) (index : Nat) : Except Fault Place := register .group cpu index

def enableRegister (cpu : Cpu) (index : Nat) : Except Fault Place := register .enable cpu index

def pendingRegister (cpu : Cpu) (index : Nat) : Except Fault Place := register .pending cpu index

def activeRegister (cpu : Cpu) (index : Nat) : Except Fault Place := register .active cpu index

def priorityRegister (cpu : Cpu) (index : Nat) : Except Fault Place := register .priority cpu index

def configurationRegister (cpu : Cpu) (index : Nat) : Except Fault Place :=
  register .configuration cpu index

/-- The single bit of an INTID in a bitmap register. -/
def bit (intId : Nat) : Word := (1 : Word) <<< (intId % 32)

section Distributor

variable (d : GicDistributorMmio)

def getGroup (cpu : Cpu) (intId : Nat) : Except Fault Word := do
  let place ← groupRegister cpu (intId / 32)
  return (d.get place >>> (intId % 32)) &&& 1

def getEnable (cpu : Cpu) (intId : Nat) : Except Fault Bool := do
  let place ← enableRegister cpu (intId / 32)
  return (d.get place).getLsbD (intId % 32)

def getPending (cpu : Cpu) (intId : Nat) : Except Fault Bool := do
  let place ← pendingRegister cpu (intId / 32)
  return (d.get place).getLsbD (intId % 32)

/-- `|= 1 << offset` or `&= !(1 << offset)`. -/
def changeBit (intId : Nat) (isSet : Bool) (word : Word) : Word :=
  if isSet then word ||| bit intId else word &&& ~~~bit intId

def changePendingStatusOf (cpu : Cpu) (intId : Nat) (isPending : Bool) :
    Except Fault GicDistributorMmio := do
  let place ← pendingRegister cpu (intId / 32)
  return d.update place (changeBit intId isPending)

/-- `change_active_status`, on the current CPU. -/
def changeActiveStatus (cpu : Cpu) (intId : Nat) (isActive : Bool) :
    Except Fault GicDistributorMmio := do
  let place ← activeRegister cpu (intId / 32)
  return d.update place (changeBit intId isActive)

def getPriority (cpu : Cpu) (intId : Nat) : Except Fault Word := do
  let place ← priorityRegister cpu (intId / 4)
  return (d.get place >>> (intId % 4 * 8)) &&& 0xFF

/-- One of the two enable bits of `GICD_CTLR` is set. -/
def distributorEnabled : Bool := (d.ctlr &&& 0b11) != 0

end Distributor

/-! ## Injection -/

/-- `add_virtual_interrupt`, on the CPU that executes it. -/
def addVirtualInterrupt (v : Vgic) (cpu : Cpu) (entry : Word) : Bool × Vgic :=
  let held := (List.range v.supportedLrn).find? fun i =>
    !isInactive (v.lr cpu i) && virtualId (v.lr cpu i) == virtualId entry
  match held with
  | some i => (true, v.setLr cpu i (v.lr cpu i ||| gichLrStatePending))
  | none =>
    match (List.range v.supportedLrn).find? fun i => isInactive (v.lr cpu i) with
    | some i => (true, v.setLr cpu i entry)
    | none => (false, v)

/-- The entry for an INTID with the group and the priority in a CPU's view. -/
def listEntry (d : GicDistributorMmio) (cpu : Cpu) (intId : Nat) (physicalIntId : Option Word) :
    Except Fault Word := do
  let group ← getGroup d cpu intId
  let priority ← getPriority d cpu intId
  return createListRegisterEntry (BitVec.ofNat 32 intId) group priority physicalIntId

/-- The trigger has not been acknowledged yet. Only software triggers are recorded. -/
def Vgic.record (v : Vgic) (cpu : Cpu) (intId : Nat) (physicalIntId : Option Word) : Vgic :=
  if physicalIntId.isSome then v
  else { v with outstanding := fun c i => (c == cpu && i == intId) || v.outstanding c i }

/-- An entry for this CPU goes to its List Registers, one for another CPU to the queue. -/
def deliver (v : Vgic) (current : Cpu) (target : Target) (entry : Word) : Bool × Vgic :=
  if target = targetOf current then addVirtualInterrupt v current entry
  else
    (true, v.setDistributor { v.distributor with
      toInjectInterrupt := v.distributor.toInjectInterrupt ++ [(target, entry)] })

/-- One iteration of `trigger_interrupt_to`, for a target that is in the mask. -/
def triggerTarget (v : Vgic) (current : Cpu) (intId : Nat) (physicalIntId : Option Word)
    (target : Target) : Except Fault (Bool × Vgic) := do
  let cpu := targetToCpuIndex target
  let d ← changePendingStatusOf v.distributor cpu intId true
  let v := (v.setDistributor d).record cpu intId physicalIntId
  if !distributorEnabled d then return (false, v)
  else if !(← getEnable d cpu intId) then return (false, v)
  else
    let entry ← listEntry d cpu intId physicalIntId
    return deliver v current target entry

/-- The loop of `trigger_interrupt_to`, over the bits that are left. -/
def triggerLoop (current : Cpu) (intId : Nat) (physicalIntId : Option Word) (targets : Target) :
    List Cpu → Bool → Vgic → Except Fault (Bool × Vgic)
  | [], injected, v => .ok (injected, v)
  | b :: rest, injected, v =>
    if (targets &&& targetOf b) = 0 then triggerLoop current intId physicalIntId targets
      rest injected v
    else do
      let (added, v) ← triggerTarget v current intId physicalIntId (targetOf b)
      triggerLoop current intId physicalIntId targets rest (injected || added) v

/-- `trigger_interrupt_to`, executed on `current`. -/
def triggerInterruptTo (v : Vgic) (current : Cpu) (intId : Nat) (physicalIntId : Option Word)
    (targets : Target) : Except Fault (Bool × Vgic) :=
  triggerLoop current intId physicalIntId targets (List.finRange maxCpuInterfaces) false v

/-- `retrigger`. -/
def retrigger (v : Vgic) (current : Cpu) (intId : Nat) : Except Fault (Bool × Vgic) :=
  triggerInterruptTo v current intId none
    (if intId < 32 then targetOf current else v.distributor.ownTarget)

/-- `generic_timer_interrupt_handler`. -/
def genericTimerInterruptHandler (v : Vgic) (current : Cpu) : Except Fault (Bool × Vgic) :=
  triggerInterruptTo v current 27 (some v.timerIntId) (targetOf current)

/-- The loop of `inject_interrupt_handler`: the entries that stay in the queue. -/
def injectEntries (current : Cpu) : List (Target × Word) → Vgic → List (Target × Word) × Vgic
  | [], v => ([], v)
  | (target, entry) :: rest, v =>
    if target = targetOf current then
      let (added, v) := addVirtualInterrupt v current entry
      let (remaining, v) := injectEntries current rest v
      (if added then remaining else (target, entry) :: remaining, v)
    else
      let (remaining, v) := injectEntries current rest v
      ((target, entry) :: remaining, v)

/-- `inject_interrupt_handler`. -/
def injectInterruptHandler (v : Vgic) (current : Cpu) : Vgic :=
  let (remaining, v) := injectEntries current v.distributor.toInjectInterrupt v
  v.setDistributor { v.distributor with toInjectInterrupt := remaining }

/-- The scan of `inject_pending_for_current_cpu`: priority and INTID of what is pending and
enabled. -/
def pendingCandidates (d : GicDistributorMmio) (cpu : Cpu) :
    List Nat → Except Fault (List (Nat × Nat))
  | [] => .ok []
  | intId :: rest => do
    if intId = 27 then pendingCandidates d cpu rest
    else if !(← getPending d cpu intId) then pendingCandidates d cpu rest
    else if !(← getEnable d cpu intId) then pendingCandidates d cpu rest
    else
      let priority ← getPriority d cpu intId
      let candidates ← pendingCandidates d cpu rest
      return (priority.toNat, intId) :: candidates

/-- Injects the candidates in order until no List Register is free. -/
def injectCandidates (current : Cpu) : List (Nat × Nat) → Vgic → Except Fault Vgic
  | [], v => .ok v
  | (_, intId) :: rest, v => do
    let entry ← listEntry v.distributor current intId none
    let (added, v) := addVirtualInterrupt v current entry
    if added then injectCandidates current rest v else return v

/-- `inject_pending_for_current_cpu`. -/
def injectPendingForCurrentCpu (v : Vgic) (current : Cpu) : Except Fault Vgic :=
  if !distributorEnabled v.distributor then .ok v
  else do
    let maxIntId := if targetOf current = v.distributor.ownTarget then 1024 else 32
    let candidates ← pendingCandidates v.distributor current (List.range maxIntId)
    injectCandidates current
      (candidates.insertionSort fun a b => a.1 < b.1 ∨ (a.1 = b.1 ∧ a.2 ≤ b.2)) v

/-- The loop of `maintenance_interrupt_handler` over the List Registers whose bit in `GICH_EISR` was
set. -/
def collectCompleted (current : Cpu) (eoiBits : Nat → Bool) : List Nat → Vgic → Except Fault Vgic
  | [], v => .ok v
  | i :: rest, v =>
    if eoiBits i then do
      let intId := (virtualId (v.lr current i)).toNat
      let d ← changePendingStatusOf v.distributor current intId false
      let d ← changeActiveStatus d current intId false
      collectCompleted current eoiBits rest ((v.setDistributor d).setLr current i 0)
    else collectCompleted current eoiBits rest v

/-- `maintenance_interrupt_handler`. -/
def maintenanceInterruptHandler (v : Vgic) (current : Cpu) : Except Fault Vgic := do
  let v ← collectCompleted current (fun i => awaitsMaintenance (v.lr current i))
    (List.range v.supportedLrn) v
  injectPendingForCurrentCpu (injectInterruptHandler v current) current

/-! ## Guest accesses -/

/-- The registers of the Distributor, with the index in their array and, for the byte-accessible
ones, the byte in the register. -/
inductive DistributorRegister where
  | ctlr | typer | sgir | pidr2
  | igroupr (n : Nat) | isenabler (n : Nat) | icenabler (n : Nat)
  | ispendr (n : Nat) | icpendr (n : Nat) | isactiver (n : Nat) | icactiver (n : Nat)
  | ipriorityr (n byte : Nat) | itargetsr (n byte : Nat) | icfgr (n : Nat)
  deriving DecidableEq, Repr

/-- The register at an offset. -/
def decode (offset : Nat) : Option DistributorRegister :=
  if offset = 0x0000 then some .ctlr
  else if offset = 0x0004 then some .typer
  else if 0x0080 ≤ offset ∧ offset ≤ 0x00FC then some (.igroupr ((offset - 0x0080) / 4))
  else if 0x0100 ≤ offset ∧ offset ≤ 0x017C then some (.isenabler ((offset - 0x0100) / 4))
  else if 0x0180 ≤ offset ∧ offset ≤ 0x01FC then some (.icenabler ((offset - 0x0180) / 4))
  else if 0x0200 ≤ offset ∧ offset ≤ 0x027C then some (.ispendr ((offset - 0x0200) / 4))
  else if 0x0280 ≤ offset ∧ offset ≤ 0x02FC then some (.icpendr ((offset - 0x0280) / 4))
  else if 0x0300 ≤ offset ∧ offset ≤ 0x037C then some (.isactiver ((offset - 0x0300) / 4))
  else if 0x0380 ≤ offset ∧ offset ≤ 0x03FC then some (.icactiver ((offset - 0x0380) / 4))
  else if 0x0400 ≤ offset ∧ offset < 0x07FC then
    some (.ipriorityr ((offset - 0x0400) / 4) ((offset - 0x0400) % 4))
  else if 0x0800 ≤ offset ∧ offset < 0x0BFC then
    some (.itargetsr ((offset - 0x0800) / 4) ((offset - 0x0800) % 4))
  else if 0x0C00 ≤ offset ∧ offset ≤ 0x0CFC then some (.icfgr ((offset - 0x0C00) / 4))
  else if offset = 0x0F00 then some .sgir
  else if offset = 0xFFE8 then some .pidr2
  else none

/-- An array access to `target`. -/
def targetRegister (index : Nat) : Except Fault Nat :=
  if index < 255 then .ok index else .error .indexOutOfBounds

/-- The value of a banked or shared register. -/
def readRegister (d : GicDistributorMmio) (place : Except Fault Place) :
    Except Fault (BitVec 64) := do
  let place ← place
  return (d.get place).zeroExtend 64

/-- `GicDistributorMmio::read`, executed on `current`. An access that no register accepts reads as
zero. -/
def read (d : GicDistributorMmio) (current : Cpu) (offset accessWidth : Nat) :
    Except Fault (BitVec 64) :=
  match decode offset with
  | some .ctlr => if accessWidth = 32 then .ok (d.ctlr.zeroExtend 64) else .ok 0
  | some .typer => if accessWidth = 32 then .ok 31 else .ok 0
  | some (.igroupr n) =>
    if accessWidth = 32 then readRegister d (groupRegister current n) else .ok 0
  | some (.isenabler n) | some (.icenabler n) =>
    if accessWidth = 32 then readRegister d (enableRegister current n) else .ok 0
  | some (.ispendr n) | some (.icpendr n) =>
    if accessWidth = 32 then readRegister d (pendingRegister current n) else .ok 0
  | some (.isactiver n) | some (.icactiver n) =>
    if accessWidth = 32 then readRegister d (activeRegister current n) else .ok 0
  | some (.ipriorityr n byte) =>
    if accessWidth = 8 then do
      let word ← readRegister d (priorityRegister current n)
      return (word >>> (byte * 8)) &&& 0xFF
    else if byte = 0 ∧ accessWidth = 32 then readRegister d (priorityRegister current n)
    else .ok 0
  | some (.itargetsr n byte) =>
    if accessWidth = 8 then
      if n * 4 + byte < 32 then .ok ((targetOf current).zeroExtend 64)
      else do
        let n ← targetRegister n
        return ((d.target n >>> (byte * 8)).zeroExtend 64) &&& 0xFF
    else if byte = 0 ∧ accessWidth = 32 then
      if n * 4 < 32 then
        let target : Word := (targetOf current).zeroExtend 32
        .ok ((target ||| (target <<< 8) ||| (target <<< 16) ||| (target <<< 24)).zeroExtend 64)
      else do
        let n ← targetRegister n
        return (d.target n).zeroExtend 64
    else .ok 0
  | some (.icfgr n) =>
    if accessWidth = 32 then readRegister d (configurationRegister current n) else .ok 0
  | some .pidr2 => if accessWidth = 32 then .ok (2 <<< 4) else .ok 0
  | some .sgir | none => .ok 0

/-- A change to a banked or shared register. -/
def updateRegister (v : Vgic) (place : Except Fault Place) (f : Word → Word) :
    Except Fault Vgic := do
  let place ← place
  return v.setDistributor (v.distributor.update place f)

/-- A change to an entry of `target`. -/
def updateTarget (v : Vgic) (index : Nat) (f : Word → Word) : Except Fault Vgic := do
  let n ← targetRegister index
  return v.setDistributor { v.distributor with
    target := fun i => if i = n then f (v.distributor.target i) else v.distributor.target i }

/-- One iteration of the loops over the bits of a written value. -/
def retriggerBit (check : GicDistributorMmio → Cpu → Nat → Except Fault Bool) (current : Cpu)
    (intId : Nat) (isSet : Bool) (v : Vgic) : Except Fault Vgic :=
  if isSet then do
    if ← check v.distributor current intId then
      let (_, v) ← retrigger v current intId
      return v
    else return v
  else .ok v

/-- The loops over the bits of a written value, which end when no bit is left. -/
def retriggerLoop (check : GicDistributorMmio → Cpu → Nat → Except Fault Bool) (current : Cpu) :
    (fuel intId : Nat) → BitVec 64 → Vgic → Except Fault Vgic
  | 0, _, value, v => if value = 0 then .ok v else .error .outOfFuel
  | fuel + 1, intId, value, v =>
    if value = 0 then .ok v
    else do
      let v ← retriggerBit check current intId (value.getLsbD 0) v
      retriggerLoop check current fuel (intId + 1) (value >>> 1) v

/-- The byte of a register replaced by a value. The value is shifted as a 64-bit word and not
masked. -/
def replaceByte (byte : Nat) (value : BitVec 64) (word : Word) : Word :=
  (word &&& ~~~((0xFF : Word) <<< (byte * 8))) ||| (value <<< (byte * 8)).truncate 32

/-- The target list of a write to `GICD_SGIR`. -/
def sgirTargets (current : Cpu) (value : BitVec 64) : Target :=
  let filter := (value >>> 24) &&& 0b11
  if filter = 0b00 then ((value >>> 16) &&& 0xFF).truncate 8
  else if filter = 0b01 then 0x0F &&& ~~~targetOf current
  else targetOf current

/-- `GicDistributorMmio::write`, executed on `current`. An access that no register accepts is
ignored. -/
def write (v : Vgic) (current : Cpu) (offset accessWidth : Nat) (value : BitVec 64) :
    Except Fault Vgic :=
  let word : Word := value.truncate 32
  match decode offset with
  | some .ctlr =>
    if accessWidth = 32 then .ok (v.setDistributor { v.distributor with ctlr := word }) else .ok v
  | some (.igroupr n) =>
    if accessWidth = 32 then updateRegister v (groupRegister current n) fun _ => word else .ok v
  | some (.isenabler n) =>
    if accessWidth = 32 then do
      let v ← updateRegister v (enableRegister current n) fun old => old ||| word
      retriggerLoop getPending current 64 (n * 32) value v
    else .ok v
  | some (.icenabler n) =>
    if accessWidth = 32 then updateRegister v (enableRegister current n) fun old => old &&& ~~~word
    else .ok v
  | some (.ispendr n) =>
    if accessWidth = 32 then do
      let v ← updateRegister v (pendingRegister current n) fun old => old ||| word
      retriggerLoop getEnable current 64 (n * 32) value v
    else .ok v
  | some (.icpendr n) =>
    if accessWidth = 32 then updateRegister v (pendingRegister current n) fun old => old &&& ~~~word
    else .ok v
  | some (.isactiver n) =>
    if accessWidth = 32 then updateRegister v (activeRegister current n) fun old => old ||| word
    else .ok v
  | some (.icactiver n) =>
    if accessWidth = 32 then updateRegister v (activeRegister current n) fun old => old &&& ~~~word
    else .ok v
  | some (.ipriorityr n byte) =>
    if accessWidth = 8 then updateRegister v (priorityRegister current n) (replaceByte byte value)
    else if byte = 0 ∧ accessWidth = 32 then
      updateRegister v (priorityRegister current n) fun _ => word
    else .ok v
  | some (.itargetsr n byte) =>
    -- The targets of INTIDs 0 to 31 are read-only.
    if n * 4 < 32 then .ok v
    else if accessWidth = 8 then updateTarget v n (replaceByte byte value)
    else if byte = 0 ∧ accessWidth = 32 then updateTarget v n fun _ => word
    else .ok v
  | some (.icfgr n) =>
    if accessWidth = 32 then updateRegister v (configurationRegister current n) fun _ => word
    else .ok v
  | some .sgir =>
    if accessWidth = 32 then do
      let (_, v) ← triggerInterruptTo v current (word &&& 0xF).toNat none
        (sgirTargets current value)
      return v
    else .ok v
  | some .typer | some .pidr2 | none => .ok v

/-! ## Events -/

inductive Action where
  | read (cpu : Cpu) (offset accessWidth : Nat)
  | write (cpu : Cpu) (offset accessWidth : Nat) (value : BitVec 64)
  /-- A device triggers an interrupt while the CPU executes its emulation. -/
  | trigger (cpu : Cpu) (intId : Nat) (targets : Target)
  /-- The physical timer interrupt of the CPU. -/
  | timer (cpu : Cpu)
  /-- The guest acknowledges the interrupt in a List Register. -/
  | acknowledge (cpu : Cpu) (i : Nat)
  /-- The guest completes the interrupt in a List Register. -/
  | endOfInterrupt (cpu : Cpu) (i : Nat)
  | inject (cpu : Cpu)
  | maintenance (cpu : Cpu)
  deriving DecidableEq, Repr

/-- The acknowledged interrupt is not outstanding any more. -/
def Vgic.settle (v : Vgic) (cpu : Cpu) (intId : Nat) : Vgic :=
  { v with outstanding := fun c i => v.outstanding c i && !(c == cpu && i == intId) }

def exec (v : Vgic) : Action → Except Fault Vgic
  | .read cpu offset accessWidth => do
    let _ ← read v.distributor cpu offset accessWidth
    return v
  | .write cpu offset accessWidth value => write v cpu offset accessWidth value
  | .trigger cpu intId targets => do
    let (_, v) ← triggerInterruptTo v cpu intId none targets
    return v
  | .timer cpu => do
    let (_, v) ← genericTimerInterruptHandler v cpu
    return v
  | .acknowledge cpu i =>
    .ok ((v.setLr cpu i (acknowledge (v.lr cpu i))).settle cpu (virtualId (v.lr cpu i)).toNat)
  | .endOfInterrupt cpu i => .ok (v.setLr cpu i (endOfInterrupt (v.lr cpu i)))
  | .inject cpu => .ok (injectInterruptHandler v cpu)
  | .maintenance cpu => maintenanceInterruptHandler v cpu

/-- What the guest can do: it acknowledges an interrupt that is pending and not active, and
completes one that is active. -/
def Possible (v : Vgic) : Action → Prop
  | .acknowledge cpu i => i < v.supportedLrn ∧ isPending (v.lr cpu i) ∧ ¬isActive (v.lr cpu i)
  | .endOfInterrupt cpu i => i < v.supportedLrn ∧ isActive (v.lr cpu i)
  | _ => True

instance (v : Vgic) (action : Action) : Decidable (Possible v action) := by
  cases action with
  | acknowledge cpu i => exact inferInstanceAs (Decidable (_ ∧ _ ∧ _))
  | endOfInterrupt cpu i => exact inferInstanceAs (Decidable (_ ∧ _))
  | _ => exact inferInstanceAs (Decidable True)

/-- A VM whose Distributor is new and whose List Registers are empty. -/
def Vgic.new (ownTarget : Target) (numberOfLrn : Nat) (timerIntId : Word) : Vgic where
  distributor := .new ownTarget
  numberOfLrn := numberOfLrn
  lr _ _ := 0
  timerIntId := timerIntId
  outstanding _ _ := false

/-- The events that are possible and permitted. -/
def Step (permitted : Vgic → Action → Prop) (v : Vgic) (action : Action) (v' : Vgic) : Prop :=
  Possible v action ∧ permitted v action ∧ exec v action = .ok v'

/-- The events that are possible and allowed, as a function. -/
def perform (allowed : Action → Bool) (v : Vgic) (action : Action) : Option Vgic :=
  if Possible v action ∧ allowed action = true then
    match exec v action with
    | .ok v' => some v'
    | .error _ => none
  else none

theorem step_of_perform {permitted : Vgic → Action → Prop} {allowed : Action → Bool}
    (hallowed : ∀ v action, allowed action = true → permitted v action) (v : Vgic) (action : Action)
    (v' : Vgic) (h : perform allowed v action = some v') : Step permitted v action v' := by
  unfold perform at h
  split at h
  · next hp =>
    cases he : exec v action with
    | error e =>
      rw [he] at h
      cases h
    | ok w =>
      rw [he] at h
      cases h
      exact ⟨hp.1, hallowed v action hp.2, he⟩
  · cases h

end MiniVisor.Gic
