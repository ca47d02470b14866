import MiniVisor.Allocator.Model

/-!
# Stage 2 translation tables

`paging.rs`, and the part of `create_vm` that allocates the RAM of a VM and builds its table. A
level of the source is given by its depth, the number of levels below it: level 3 has depth 0.

The memory holds a descriptor at every address of one. The page allocator is a parameter with the
laws of a correct one (`PageAllocator`). The three words that the source passes as `&mut usize` are
in the state (`Mapping`), and an `Err(())`, which the callers `expect` not to see, is a fault.
-/

set_option autoImplicit false

namespace MiniVisor.Paging

open MiniVisor.Lib

/-! ## Descriptors -/

abbrev Descriptor := BitVec 64

def pageShift : Nat := 12

def pageSize : Nat := 4096

namespace Descriptor

def tableAddressMask : Descriptor := BitVec.ofNat 64 (2 ^ 50 - 2 ^ 12)
def outputAddressMask : Descriptor := BitVec.ofNat 64 (2 ^ 50 - 2 ^ 12)
def af : Descriptor := 1#64 <<< 10
def sh : Descriptor := 0b11#64 <<< 8
def s2ap : Descriptor := 0b11#64 <<< 6
def attrIndex : Descriptor := 0b1111#64 <<< 2
def attrWriteBack : Descriptor := 0b1111#64 <<< 2

/-- `Shareability::InnerShareable`. -/
def innerShareable : Descriptor := 0b11#64

def init : Descriptor := 0#64

def isTableDescriptor (d : Descriptor) : Bool := d &&& 0b11#64 = 0b11#64

def getNextLevelTableAddress (d : Descriptor) : Nat := (d &&& tableAddressMask).toNat

def setOutputAddress (d : Descriptor) (outputAddress : Nat) : Descriptor :=
  (d &&& ~~~outputAddressMask) ||| BitVec.ofNat 64 outputAddress ||| af

def setShareability (d shareability : Descriptor) : Descriptor :=
  (d &&& ~~~sh) ||| (shareability <<< 8)

def setPermission (d permission : Descriptor) : Descriptor :=
  (d &&& ~~~s2ap) ||| (permission <<< 6)

def setMemoryAttributeWriteBack (d : Descriptor) : Descriptor :=
  (d &&& ~~~attrIndex) ||| attrWriteBack

def setMemoryAttributeDevice (d : Descriptor) : Descriptor := d &&& ~~~attrIndex

def validateAsPageDescriptor (d : Descriptor) : Descriptor := d ||| 0b11#64

def validateAsTableDescriptor (d : Descriptor) : Descriptor := d ||| 0b11#64

def validateAsBlockDescriptor (d : Descriptor) : Descriptor := d ||| 0b01#64

end Descriptor

/-- The permission and the kind of memory that a call maps. -/
structure Access where
  isReadable : Bool
  isWritable : Bool
  isDevice : Bool
  deriving DecidableEq, Repr

/-- `((is_writable as u64) << 1) | (is_readable as u64)`. -/
def Access.permission (access : Access) : Descriptor :=
  ((if access.isWritable then 1#64 else 0#64) <<< 1) ||| (if access.isReadable then 1#64 else 0#64)

open Descriptor in
/-- What page and block descriptors have in common, before they are validated. -/
def leafDescriptor (access : Access) (physicalAddress : Nat) : Descriptor :=
  let d := (init.setOutputAddress physicalAddress).setPermission access.permission
  let d := if access.isDevice then d.setMemoryAttributeDevice else d.setMemoryAttributeWriteBack
  d.setShareability innerShareable

def pageDescriptor (access : Access) (physicalAddress : Nat) : Descriptor :=
  (leafDescriptor access physicalAddress).validateAsPageDescriptor

def blockDescriptor (access : Access) (physicalAddress : Nat) : Descriptor :=
  (leafDescriptor access physicalAddress).validateAsBlockDescriptor

open Descriptor in
def tableDescriptor (nextLevelTableAddress : Nat) : Descriptor :=
  (init.setOutputAddress nextLevelTableAddress).validateAsTableDescriptor

/-! ## Translation parameters -/

/-- `T0SZ` and the initial lookup level for a value of `ID_AA64MMFR0_EL1.PARange`. -/
def stage2Parameters (ps : Nat) : Nat × Nat :=
  match ps with
  | 0b000 => (32, 1)
  | 0b001 => (28, 1)
  | 0b010 => (24, 1)
  | 0b011 => (22, 1)
  | 0b100 => (20, 0)
  | 0b101 => (16, 0)
  | _ => (16, 0)

/-- The value that `set_vtcr_el2_for_this_pcpu` writes. -/
def vtcrEl2 (ps : Nat) : BitVec 64 :=
  let sl0 := if (stage2Parameters ps).2 = 1 then 0b01#64 else 0b10#64
  (1#64 <<< 31) ||| (BitVec.ofNat 64 ps <<< 16) ||| (0#64 <<< 14) ||| (0b11#64 <<< 12) |||
    (0b11#64 <<< 10) ||| (0b11#64 <<< 8) ||| (sl0 <<< 6) |||
    (BitVec.ofNat 64 (stage2Parameters ps).1 <<< 0)

/-- The field `T0SZ`. -/
def t0szOf (vtcr : BitVec 64) : Nat := (vtcr &&& 0b111111#64).toNat

/-- The initial lookup level of the field `SL0`. -/
def initialLookupLevel (vtcr : BitVec 64) : Nat :=
  match ((vtcr &&& (0b11#64 <<< 6)) >>> 6).toNat with
  | 0b00 => 2
  | 0b01 => 1
  | 0b10 => 0
  | _ => 3

def numberOfConcatenatedPageTables (t0sz firstLevel : Nat) : Nat :=
  if t0sz > 43 - (3 - firstLevel) * 9 then 1 else 2 ^ (43 - (3 - firstLevel) * 9 - t0sz)

/-! ## The page allocator -/

/-- A correct page allocator: the pages that it hands out were free, are aligned as requested and
are not free any more. `Valid` is its invariant. -/
structure PageAllocator (σ : Type) where
  allocatePages : σ → (numberOfPages align : Nat) →
    Except Fault (Except Allocator.MemoryError Nat × σ)
  Valid : σ → Prop
  free : σ → Set Nat
  spec : ∀ {s s' : σ} {numberOfPages align address : Nat}, Valid s → align < 64 →
    numberOfPages < 2 ^ 52 → allocatePages s numberOfPages align = .ok (.ok address, s') →
      Valid s' ∧ 2 ^ align ∣ address ∧
        Set.Ico address (address + numberOfPages * pageSize) ⊆ free s ∧
        free s' = free s \ Set.Ico address (address + numberOfPages * pageSize)

variable {σ : Type} (A : PageAllocator σ)

/-- `allocate_pages` where a failure stops the caller. -/
def takePages (pool : σ) (numberOfPages align : Nat) : Except Fault (Nat × σ) := do
  match ← A.allocatePages pool numberOfPages align with
  | (.ok address, pool) => return (address, pool)
  | (.error _, _) => .error .unwrapNone

/-! ## Mapping -/

structure Machine (σ : Type) where
  memory : Nat → Descriptor
  pool : σ

structure Mapping (σ : Type) extends Machine σ where
  physicalAddress : Nat
  intermediatePhysicalAddress : Nat
  remainingSize : Nat

/-- `init` on every descriptor of a table. -/
def initTable (memory : Nat → Descriptor) (table numOfDescriptors : Nat) : Nat → Descriptor :=
  fun a =>
    if table ≤ a ∧ a < table + 8 * numOfDescriptors ∧ (a - table) % 8 = 0 then Descriptor.init
    else memory a

/-- A descriptor is written and the three words move on. -/
def Mapping.put (m : Mapping σ) (descriptor : Nat) (value : Descriptor) (size : Nat) :
    Except Fault (Mapping σ) := do
  let physicalAddress ← checkedAdd m.physicalAddress size
  let intermediatePhysicalAddress ← checkedAdd m.intermediatePhysicalAddress size
  let remainingSize ← checkedSub m.remainingSize size
  return { m with
    memory := Function.update m.memory descriptor value
    physicalAddress, intermediatePhysicalAddress, remainingSize }

/-- A loop over the descriptors of a table, which ends when nothing is left to map. -/
def overDescriptors (step : (descriptor : Nat) → Mapping σ → Except Fault (Mapping σ)) :
    (left descriptor : Nat) → Mapping σ → Except Fault (Mapping σ)
  | 0, _, m => .ok m
  | left + 1, descriptor, m => do
    let m ← step descriptor m
    if m.remainingSize = 0 then return m else overDescriptors step left (descriptor + 8) m

/-- The table that a descriptor refers to, which is created when there is none. -/
def nextLevelTable (descriptor : Nat) (m : Mapping σ) : Except Fault (Nat × Mapping σ) := do
  if (m.memory descriptor).isTableDescriptor then
    return ((m.memory descriptor).getNextLevelTableAddress, m)
  else
    let (table, pool) ← takePages A m.pool 1 12
    let memory := Function.update (initTable m.memory table 512) descriptor (tableDescriptor table)
    return (table, { m with memory, pool })

/-- The body of the loop above level 3. -/
def mapBlockOrTable (access : Access) (depth : Nat)
    (next : (table : Nat) → Mapping σ → Except Fault (Mapping σ)) (descriptor : Nat)
    (m : Mapping σ) : Except Fault (Mapping σ) := do
  let blockSize := 1 <<< (12 + 9 * depth)
  let mask := blockSize - 1
  -- `level >= 1`: there are no blocks at level 0.
  if depth ≤ 2 ∧ blockSize ≤ m.remainingSize ∧ m.physicalAddress &&& mask = 0 ∧
      m.intermediatePhysicalAddress &&& mask = 0 then
    m.put descriptor (blockDescriptor access m.physicalAddress) blockSize
  else
    let (table, m) ← nextLevelTable A descriptor m
    next table m

/-- `_map_address_stage2`. -/
def mapTable (access : Access) : (depth numOfDescriptors tableAddress : Nat) → Mapping σ →
    Except Fault (Mapping σ)
  | 0, numOfDescriptors, tableAddress, m =>
    let index := (m.intermediatePhysicalAddress >>> 12) &&& (numOfDescriptors - 1)
    overDescriptors
      (fun descriptor m => m.put descriptor (pageDescriptor access m.physicalAddress) pageSize)
      (numOfDescriptors - index) (tableAddress + 8 * index) m
  | depth + 1, numOfDescriptors, tableAddress, m =>
    let shift := 12 + 9 * (depth + 1)
    let index := (m.intermediatePhysicalAddress >>> shift) &&& (numOfDescriptors - 1)
    overDescriptors (mapBlockOrTable A access (depth + 1) (mapTable access depth 512))
      (numOfDescriptors - index) (tableAddress + 8 * index) m

/-- `map_address_stage2_internal`. -/
def mapAddressStage2 (vtcr : BitVec 64) (access : Access)
    (tableAddress physicalAddress intermediatePhysicalAddress mapSize : Nat) (m : Machine σ) :
    Except Fault (Machine σ) := do
  if mapSize &&& ((1 <<< pageShift) - 1) ≠ 0 then .error .unwrapNone
  else
    let level := initialLookupLevel vtcr
    let numOfDescriptors := numberOfConcatenatedPageTables (t0szOf vtcr) level * 512
    let m ← mapTable A access (3 - level) numOfDescriptors tableAddress
      { m with physicalAddress, intermediatePhysicalAddress, remainingSize := mapSize }
    return m.toMachine

def createStage2TranslationTable (ps : Nat) (m : Machine σ) : Except Fault (Nat × Machine σ) := do
  let (t0sz, level) := stage2Parameters ps
  let numberOfTables := numberOfConcatenatedPageTables t0sz level
  let (table, pool) ← takePages A m.pool numberOfTables (12 + numberOfTables - 1)
  return (table, ⟨initTable m.memory table (numberOfTables * 512), pool⟩)

/-! ## Virtual machines -/

/-- The memory of a VM. -/
structure Vm where
  ramPhysicalAddress : Nat
  ramSize : Nat
  stage2TableAddress : Nat
  deriving DecidableEq, Repr

def ramVirtualBase : Nat := 0x40000000

def guestGicCpuInterfaceAddress : Nat := 0x8010000

/-- What a call of `create_vm` depends on: the size of a guest's RAM, and where the GIC virtual CPU
interface is. -/
structure Parameters where
  ramSize : Nat
  gicVirtualCpuInterfacePhysicalAddress : Nat
  gicVirtualCpuInterfaceSize : Nat
  deriving DecidableEq, Repr

def ramAccess : Access := ⟨true, true, false⟩

def deviceAccess : Access := ⟨true, true, true⟩

/-- The memory part of `create_vm`. -/
def createVm (ps : Nat) (parameters : Parameters) (m : Machine σ) :
    Except Fault (Vm × Machine σ) := do
  let (ram, pool) ← takePages A m.pool (parameters.ramSize >>> pageShift) pageShift
  let (table, m) ← createStage2TranslationTable A ps { m with pool }
  let m ← mapAddressStage2 A (vtcrEl2 ps) ramAccess table ram ramVirtualBase parameters.ramSize m
  let m ← mapAddressStage2 A (vtcrEl2 ps) deviceAccess table
    parameters.gicVirtualCpuInterfacePhysicalAddress guestGicCpuInterfaceAddress
    parameters.gicVirtualCpuInterfaceSize m
  return (⟨ram, parameters.ramSize, table⟩, m)

end MiniVisor.Paging
