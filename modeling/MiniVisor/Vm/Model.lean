import MiniVisor.Lib.Fault

/-!
# Virtual machines and physical CPUs

The part of `vm.rs` and `main.rs` that decides which VM a physical CPU runs: the list of VMs with
their saved contexts, the registers of each physical CPU that belong to a VM (`TPIDR_EL2`,
`VTTBR_EL2`, the trap frame, `ELR_EL2`, `SPSR_EL2`, the List Registers and the EL1 registers), the
pool of parked CPUs, and the functions that move a CPU from one VM to another.

An `Arc<VM>` is a `VM` with the immutable fields; the saved context behind its lock is kept in
`System.context` under the `vm_id`. A physical CPU is named by its affinity.

Registers carry the `vm_id` of the VM whose guest they belong to (`origin`). No function reads it;
it says what "the registers of a VM are loaded" means.
-/

set_option autoImplicit false

namespace MiniVisor.Vm

open MiniVisor.Lib

/-! ## Data -/

/-- `Registers::NUMBER_OF_SLOTS`: `x0` to `x30` and the padding. -/
def numberOfSlots : Nat := 32

/-- `vgic::NUMBER_OF_SUPPORTED_LRS`. -/
def numberOfSupportedLrs : Nat := 4

/-- The trap frame: `x0` to `x30` and the padding, in the order of the `repr(C)` structure. -/
abbrev Registers := Fin numberOfSlots → BitVec 64

/-- `Registers::as_array`. -/
def Registers.asArray (registers : Registers) : Vector (BitVec 64) numberOfSlots :=
  Vector.ofFn registers

/-- `Registers::load_array`. -/
def Registers.loadArray (array : Vector (BitVec 64) numberOfSlots) : Registers :=
  fun i => array[i]

/-- The EL0 and EL1 registers of a CPU that a switch replaces. -/
inductive El1Register where
  | sctlrEl1 | ttbr0El1 | ttbr1El1 | tcrEl1 | mairEl1 | amairEl1 | vbarEl1 | cpacrEl1
  | contextidrEl1 | esrEl1 | farEl1 | parEl1 | afsr0El1 | afsr1El1 | tpidrEl0 | tpidrEl1
  | spEl0 | spEl1 | elrEl1 | spsrEl1 | cntkctlEl1 | cntvCtlEl0 | cntvCvalEl0
  deriving DecidableEq, Repr

structure El1Context where
  sctlrEl1 : BitVec 64
  ttbr0El1 : BitVec 64
  ttbr1El1 : BitVec 64
  tcrEl1 : BitVec 64
  mairEl1 : BitVec 64
  amairEl1 : BitVec 64
  vbarEl1 : BitVec 64
  cpacrEl1 : BitVec 64
  contextidrEl1 : BitVec 64
  esrEl1 : BitVec 64
  farEl1 : BitVec 64
  parEl1 : BitVec 64
  afsr0El1 : BitVec 64
  afsr1El1 : BitVec 64
  tpidrEl0 : BitVec 64
  tpidrEl1 : BitVec 64
  spEl0 : BitVec 64
  spEl1 : BitVec 64
  elrEl1 : BitVec 64
  spsrEl1 : BitVec 64
  cntkctlEl1 : BitVec 64
  cntvCtlEl0 : BitVec 64
  cntvCvalEl0 : BitVec 64
  deriving Inhabited

/-- `El1Context::capture_current`, of the registers of the CPU. -/
def El1Context.captureCurrent (el1 : El1Register → BitVec 64) : El1Context where
  sctlrEl1 := el1 .sctlrEl1
  ttbr0El1 := el1 .ttbr0El1
  ttbr1El1 := el1 .ttbr1El1
  tcrEl1 := el1 .tcrEl1
  mairEl1 := el1 .mairEl1
  amairEl1 := el1 .amairEl1
  vbarEl1 := el1 .vbarEl1
  cpacrEl1 := el1 .cpacrEl1
  contextidrEl1 := el1 .contextidrEl1
  esrEl1 := el1 .esrEl1
  farEl1 := el1 .farEl1
  parEl1 := el1 .parEl1
  afsr0El1 := el1 .afsr0El1
  afsr1El1 := el1 .afsr1El1
  tpidrEl0 := el1 .tpidrEl0
  tpidrEl1 := el1 .tpidrEl1
  spEl0 := el1 .spEl0
  spEl1 := el1 .spEl1
  elrEl1 := el1 .elrEl1
  spsrEl1 := el1 .spsrEl1
  cntkctlEl1 := el1 .cntkctlEl1
  cntvCtlEl0 := el1 .cntvCtlEl0
  cntvCvalEl0 := el1 .cntvCvalEl0

/-- `El1Context::activate`: the writes in their order. -/
def El1Context.activate (c : El1Context) (el1 : El1Register → BitVec 64) :
    El1Register → BitVec 64 :=
  [ (.sctlrEl1, c.sctlrEl1),
    (.ttbr0El1, c.ttbr0El1),
    (.ttbr1El1, c.ttbr1El1),
    (.tcrEl1, c.tcrEl1),
    (.mairEl1, c.mairEl1),
    (.amairEl1, c.amairEl1),
    (.vbarEl1, c.vbarEl1),
    (.cpacrEl1, c.cpacrEl1),
    (.contextidrEl1, c.contextidrEl1),
    (.esrEl1, c.esrEl1),
    (.farEl1, c.farEl1),
    (.parEl1, c.parEl1),
    (.afsr0El1, c.afsr0El1),
    (.afsr1El1, c.afsr1El1),
    (.tpidrEl0, c.tpidrEl0),
    (.tpidrEl1, c.tpidrEl1),
    (.spEl0, c.spEl0),
    (.spEl1, c.spEl1),
    (.elrEl1, c.elrEl1),
    (.spsrEl1, c.spsrEl1),
    (.cntkctlEl1, c.cntkctlEl1),
    (.cntvCtlEl0, c.cntvCtlEl0),
    (.cntvCvalEl0, c.cntvCvalEl0)
  ].foldl (fun el1 write => Function.update el1 write.1 write.2) el1

/-- The registers of a CPU that belong to the guest on it. -/
structure GuestRegisters where
  registers : Registers
  elrEl2 : BitVec 64
  spsrEl2 : BitVec 64
  gichLr : Fin numberOfSupportedLrs → BitVec 32
  el1 : El1Register → BitVec 64
  /-- The VM whose guest the registers belong to. -/
  origin : Nat
  deriving Inhabited

/-- The saved state of a guest that is not running. -/
structure VcpuContext where
  regs : Vector (BitVec 64) numberOfSlots
  elrEl2 : BitVec 64
  spsrEl2 : BitVec 64
  gichLr : Fin numberOfSupportedLrs → BitVec 32
  el1 : El1Context
  origin : Nat
  deriving Inhabited

/-- The loop of `save_context` and `restore_context` over the List Registers. -/
def copyLrs (source target : Fin numberOfSupportedLrs → BitVec 32) :
    Fin numberOfSupportedLrs → BitVec 32 :=
  (List.finRange numberOfSupportedLrs).foldl (fun lrs i => Function.update lrs i (source i)) target

/-- `VM::save_context`, into the context that the VM has. -/
def VcpuContext.save (context : VcpuContext) (cpu : GuestRegisters) : VcpuContext where
  regs := cpu.registers.asArray
  elrEl2 := cpu.elrEl2
  spsrEl2 := cpu.spsrEl2
  gichLr := copyLrs cpu.gichLr context.gichLr
  el1 := .captureCurrent cpu.el1
  origin := cpu.origin

/-- `VM::restore_context`, and the writes to `ELR_EL2` and `SPSR_EL2` that follow it. -/
def VcpuContext.restore (context : VcpuContext) (cpu : GuestRegisters) : GuestRegisters where
  registers := Registers.loadArray context.regs
  elrEl2 := context.elrEl2
  spsrEl2 := context.spsrEl2
  gichLr := copyLrs context.gichLr cpu.gichLr
  el1 := context.el1.activate cpu.el1
  origin := context.origin

/-- The immutable fields of a `VM` that the scheduler reads. -/
structure VM where
  vmId : Nat
  ownerAffinity : Nat
  stage2TableAddress : Nat
  vmid : Nat
  deriving DecidableEq, Repr

/-- `SmpLaunchRequest`: the VM to join, and the entry point and context id its guest passed to
`CPU_ON`. -/
structure SmpLaunchRequest where
  vm : VM
  entryPoint : BitVec 64
  contextId : BitVec 64
  origin : Nat
  deriving DecidableEq, Repr

/-- What a physical CPU is doing. -/
inductive Mode where
  /-- It has not been started. -/
  | off
  /-- It waits in `smp_park_main`, possibly with a request to take. -/
  | parked (launch : Option SmpLaunchRequest)
  /-- It runs a guest, or handles a trap of the guest that it returns to. -/
  | guest
  /-- It loops in the panic handler. -/
  | stopped
  deriving DecidableEq, Repr

structure Pcpu where
  mode : Mode
  tpidrEl2 : Nat
  vttbrEl2 : Nat
  loaded : GuestRegisters

structure System where
  vmList : List VM
  context : Nat → VcpuContext
  nextVmId : Nat
  nextVmid : Nat
  /-- `ACTIVE_VM`, by `vm_id`. -/
  activeVm : Option Nat
  resetEl1 : Option El1Context
  parkedCpus : List Nat
  /-- The affinities with an entry in `STACK_TOPS`. -/
  stackTops : List Nat
  /-- `VIRTIO_BLK` was locked when a CPU panicked, and is never unlocked again. -/
  blkStuck : Bool
  pcpus : Nat → Pcpu

namespace System

def modifyCpu (s : System) (p : Nat) (f : Pcpu → Pcpu) : System :=
  { s with pcpus := fun q => if q = p then f (s.pcpus q) else s.pcpus q }

def setContext (s : System) (vmId : Nat) (c : VcpuContext) : System :=
  { s with context := fun i => if i = vmId then c else s.context i }

/-- The statics before any CPU has run; the registers of the CPUs are arbitrary. -/
def initial (context : Nat → VcpuContext) (pcpus : Nat → Pcpu) : System where
  vmList := []
  context := context
  nextVmId := 0
  nextVmid := 0
  activeVm := none
  resetEl1 := none
  parkedCpus := []
  stackTops := []
  blkStuck := false
  pcpus := pcpus

end System

/-! ## Registers -/

/-- `VTTBR_BADDR`. -/
def vttbrBaddr : Nat := (1 <<< 47) - 2

/-- `VTTBR_VMID`. -/
def vttbrVmid : Nat := 0xFF <<< 48

/-- The value that `activate_stage2_translation_table` writes. The masks drop what the 64-bit shift
would lose. -/
def vttbr (tableAddress vmid : Nat) : Nat :=
  ((vmid <<< 48) &&& vttbrVmid) ||| (tableAddress &&& vttbrBaddr)

def activateStage2TranslationTable (cpu : Pcpu) (tableAddress vmid : Nat) : Pcpu :=
  { cpu with vttbrEl2 := vttbr tableAddress vmid }

/-- `asm::advance_elr_el2`, with the checked addition of the source. -/
def advanceElrEl2 (elrEl2 : BitVec 64) : Except Fault (BitVec 64) := do
  let next ← checkedAdd elrEl2.toNat 4
  return BitVec.ofNat 64 next

/-- The instruction is not the last one of the address space. -/
theorem advanceElrEl2_eq (elrEl2 : BitVec 64) : advanceElrEl2 elrEl2 =
    if elrEl2.toNat + 4 < 2 ^ 64 then .ok (elrEl2 + 4) else .error .overflow := by
  have hadd : BitVec.ofNat 64 (elrEl2.toNat + 4) = elrEl2 + 4 := by
    rw [← BitVec.ofNat_add_ofNat, BitVec.ofNat_toNat, BitVec.setWidth_eq]
    rfl
  rw [advanceElrEl2, checkedAdd, wordSize]
  split
  · rw [ok_bind, hadd]
    rfl
  · rfl

/-- `asm::advance_elr_el2` on a CPU. -/
def System.advance (s : System) (p : Nat) : Except Fault System := do
  let elrEl2 ← advanceElrEl2 (s.pcpus p).loaded.elrEl2
  return s.modifyCpu p fun cpu => { cpu with loaded := { cpu.loaded with elrEl2 } }

/-- `SPSR_EL2_M_EL1H`. -/
def spsrEl2MEl1h : BitVec 64 := 0b0101

/-- `boot_vm`: `eret` sets four registers and leaves the others as they are. -/
def bootVm (cpu : Pcpu) (entryPoint argument : BitVec 64) (origin : Nat) : Pcpu :=
  { cpu with
    mode := .guest
    loaded :=
      { cpu.loaded with
        registers := fun i =>
          if i.val = 0 then argument else if i.val < 4 then 0 else cpu.loaded.registers i
        elrEl2 := entryPoint
        spsrEl2 := spsrEl2MEl1h
        origin := origin } }

/-! ## Choice of the next VM -/

/-- `get_current_vm`. -/
def getCurrentVm (s : System) (p : Nat) : Except Fault VM :=
  match s.vmList.find? fun vm => vm.vmId == (s.pcpus p).tpidrEl2 with
  | some vm => .ok vm
  | none => .error .unwrapNone

/-- `find_next_same_affinity_vcpu`. -/
def findNextSameAffinityVcpu (vmList : List VM) (currentVmId affinity : Nat) : Option VM :=
  let candidates := vmList.filter fun vm => vm.ownerAffinity == affinity
  if candidates.length ≤ 1 then none
  else do
    let position ← candidates.findIdx? fun vm => vm.vmId == currentVmId
    candidates[(position + 1) % candidates.length]?

/-- `find_other_same_affinity_vcpu`. -/
def findOtherSameAffinityVcpu (vmList : List VM) (retiringVmId affinity : Nat) : Option VM :=
  vmList.find? fun vm => vm.ownerAffinity == affinity && vm.vmId != retiringVmId

/-! ## Switching -/

/-- The registers on the CPU go to the context of the VM. -/
def saveContext (s : System) (p : Nat) (vm : VM) : System :=
  s.setContext vm.vmId ((s.context vm.vmId).save (s.pcpus p).loaded)

/-- The context of the VM goes to the registers on the CPU. -/
def restoreContext (s : System) (p : Nat) (vm : VM) : System :=
  s.modifyCpu p fun cpu => { cpu with loaded := (s.context vm.vmId).restore cpu.loaded }

/-- The common end of `switch_to_other_vcpu_on_retire` and `try_yield_to_next_vcpu`. -/
def switchTo (s : System) (p : Nat) (next : VM) : System :=
  let s := restoreContext s p next
  let s := s.modifyCpu p fun cpu =>
    activateStage2TranslationTable cpu next.stage2TableAddress next.vmid
  let s := s.modifyCpu p fun cpu => { cpu with tpidrEl2 := next.vmId }
  { s with activeVm := some next.vmId }

/-- `try_yield_to_next_vcpu`. The source returns whether there was a switch, here with the VM. -/
def tryYieldToNextVcpu (s : System) (p : Nat) : Except Fault (Option Nat × System) := do
  let current ← getCurrentVm s p
  match findNextSameAffinityVcpu s.vmList current.vmId p with
  | none => return (none, s)
  | some next =>
    -- The outgoing guest resumes after its WFI, so `ELR_EL2` moves before it is saved.
    let s ← s.advance p
    let s := saveContext s p current
    return (some next.vmId, switchTo s p next)

/-- The end of `wfx_handler`. -/
def wfxHandler (s : System) (p : Nat) : Except Fault (Option Nat × System) := do
  let (switched, s) ← tryYieldToNextVcpu s p
  if switched.isSome then return (switched, s)
  else
    let s ← s.advance p
    return (none, s)

/-- `switch_to_other_vcpu_on_retire`. -/
def switchToOtherVcpuOnRetire (s : System) (p retiringVmId : Nat) : Option Nat × System :=
  match findOtherSameAffinityVcpu s.vmList retiringVmId p with
  | none => (none, s)
  | some next => (some next.vmId, switchTo s p next)

/-- The start of `smp_park_main`. -/
def smpPark (s : System) (p : Nat) : System :=
  let s := s.modifyCpu p fun cpu => { cpu with mode := .parked none }
  { s with parkedCpus := s.parkedCpus ++ [p] }

/-- `handle_guest_cpu_off`. -/
def handleGuestCpuOff (s : System) (p : Nat) : Except Fault (Option Nat × System) :=
  match switchToOtherVcpuOnRetire s p (s.pcpus p).tpidrEl2 with
  | (some next, s) => .ok (some next, s)
  | (none, s) =>
    -- Only a CPU that was parked at start-up has a stack top to go back to.
    if s.stackTops.contains p then .ok (none, smpPark s p) else .error .unwrapNone

/-! ## CPUs that join a VM -/

/-- `asm::mpidr_to_affinity`. -/
def mpidrToAffinity (mpidr : BitVec 64) : Nat :=
  (mpidr &&& ~~~(((1 : BitVec 64) <<< 31) ||| ((1 : BitVec 64) <<< 30))).toNat

/-- `handle_guest_cpu_on`: the value of `x0` and the system. -/
def handleGuestCpuOn (s : System) (p : Nat) (targetCpu entryPoint contextId : BitVec 64) :
    Except Fault (BitVec 64 × System) := do
  let target := mpidrToAffinity targetCpu
  match s.parkedCpus.findIdx? fun q => q == target with
  | none => return (0xFFFFFFFC, s)
  | some index =>
    let vm ← getCurrentVm s p
    let request : SmpLaunchRequest :=
      { vm, entryPoint, contextId, origin := (s.pcpus p).loaded.origin }
    let s := { s with parkedCpus := s.parkedCpus.eraseIdx index }
    return (0, s.modifyCpu target fun cpu => { cpu with mode := .parked (some request) })

/-- `activate_vm_on_this_pcpu`, which also turns the MMU of EL1 off. -/
def activateVmOnThisPcpu (cpu : Pcpu) (vm : VM) : Pcpu :=
  let el1 : El1Register → BitVec 64 := fun r =>
    if r = .sctlrEl1 then cpu.loaded.el1 r &&& ~~~1 else cpu.loaded.el1 r
  let cpu := { cpu with loaded := { cpu.loaded with el1 := el1 } }
  let cpu := activateStage2TranslationTable cpu vm.stage2TableAddress vm.vmid
  { cpu with tpidrEl2 := vm.vmId }

/-- The end of `smp_park_main`, once the CPU has taken its request. -/
def joinVm (s : System) (p : Nat) (request : SmpLaunchRequest) : System :=
  s.modifyCpu p fun cpu =>
    bootVm (activateVmOnThisPcpu cpu request.vm) request.entryPoint request.contextId request.origin

/-! ## New VMs -/

/-- What `create_vm` gets from the page allocator and the kernel image: the Stage 2 table and the
entry point. -/
structure BootImage where
  tableAddress : Nat
  entryPoint : BitVec 64
  deriving DecidableEq, Repr

/-- `RAM_VIRTUAL_BASE`, where the guest finds its devicetree. -/
def ramVirtualBase : BitVec 64 := 0x40000000

/-- `reset_el1_context`: the EL1 registers of the CPU that asked first. -/
def resetEl1Context (s : System) (p : Nat) : El1Context × System :=
  match s.resetEl1 with
  | some el1 => (el1, s)
  | none =>
    let el1 := El1Context.captureCurrent (s.pcpus p).loaded.el1
    (el1, { s with resetEl1 := some el1 })

/-- `VcpuContext::new` and `VM::set_initial_context`. -/
def initialContext (el1 : El1Context) (entryPoint argument : BitVec 64) (origin : Nat) :
    VcpuContext where
  regs := (Vector.replicate numberOfSlots 0).set 0 argument
  elrEl2 := entryPoint
  spsrEl2 := spsrEl2MEl1h
  gichLr _ := 0
  el1 := el1
  origin := origin

/-- `create_vm`. One of its `expect`s fails when there is no image. The disk of a VM is named by the
character `'0' + vm_id`, which is no UTF-8 text from `0x80` on. -/
def createVm (s : System) (p : Nat) (image : Option BootImage) :
    Except Fault ((BitVec 64 × BitVec 64) × System) :=
  match image with
  | none => .error .unwrapNone
  | some image => do
    let vmId := s.nextVmId
    let vmid := s.nextVmid &&& 0xFF
    let s := { s with nextVmId := s.nextVmId + 1, nextVmid := s.nextVmid + 1 }
    if 0x80 ≤ 0x30 + vmId % 256 then throw .unwrapNone
    let vm : VM := { vmId, ownerAffinity := p, stage2TableAddress := image.tableAddress, vmid }
    let (el1, s) := resetEl1Context s p
    let s := s.setContext vmId (initialContext el1 image.entryPoint ramVirtualBase vmId)
    let isFirstOnThisPcpu := !s.vmList.any fun v => v.ownerAffinity == p
    let s := { s with vmList := s.vmList ++ [vm] }
    if isFirstOnThisPcpu then
      let s := { s with activeVm := some vmId }
      let s := s.modifyCpu p fun cpu => { cpu with tpidrEl2 := vmId }
      let s := s.modifyCpu p fun cpu =>
        activateStage2TranslationTable cpu image.tableAddress vmid
      return ((image.entryPoint, ramVirtualBase), s)
    else
      -- The message about the queue names the current VM.
      let _ ← getCurrentVm s p
      return ((image.entryPoint, ramVirtualBase), s)

/-- `spawn_vcpu_on_current_pcpu`. -/
def spawnVcpuOnCurrentPcpu (s : System) (p : Nat) (image : Option BootImage) :
    Except Fault System := do
  let (_, s) ← createVm s p image
  return s

/-- `core_main`, and the end of the boot CPU's start-up. -/
def coreMain (s : System) (p : Nat) (image : Option BootImage) : Except Fault System := do
  let vmId := s.nextVmId
  let ((entryPoint, argument), s) ← createVm s p image
  return s.modifyCpu p fun cpu => bootVm cpu entryPoint argument vmId

end MiniVisor.Vm
