import MiniVisor.Gic.Registers
import MiniVisor.Uart.Output
import MiniVisor.Uart.Pl011
import MiniVisor.Virtio.Device
import MiniVisor.Vm.Model

/-!
# Trapped accesses to the emulated devices

A guest access to an address without a Stage 2 mapping traps. `data_abort_handler` decodes the
syndrome, finds the device at the address in the list of the VM's `MmioHandler`s and moves a value
between the device and the trap frame.

The handler works for any list of devices (`dataAbortHandler`). `mmioHandlers` is the list that
`create_vm` makes. `dataAbort` is the whole trap as the guest sees it: the vector saves `x0` to
`x30` with a zero behind them, the handler runs, and `exit_exception` loads `x0` to `x30` again.

The virtio devices, the Distributor and the two sides of the PL011 are the models of their own
modules; the other registers of the PL011 are added here. Its counters of console output are left
out.
-/

set_option autoImplicit false

namespace MiniVisor.Trap

open MiniVisor.Lib MiniVisor.Vm

/-! ## The PL011 -/

/-- The registers of the PL011. The identification registers hold constants. -/
inductive UartRegister where
  | dr | rsrEcr | fr | ilpr | ibrd | fbrd | lcrH | cr | ifls | imsc | ris | mis | icr | dmacr
  | identification (value : BitVec 64)
  deriving DecidableEq, Repr

def UartRegister.decode (offset : Nat) : Option UartRegister :=
  if offset = 0x000 then some .dr
  else if offset = 0x004 then some .rsrEcr
  else if offset = 0x018 then some .fr
  else if offset = 0x020 then some .ilpr
  else if offset = 0x024 then some .ibrd
  else if offset = 0x028 then some .fbrd
  else if offset = 0x02C then some .lcrH
  else if offset = 0x030 then some .cr
  else if offset = 0x034 then some .ifls
  else if offset = 0x038 then some .imsc
  else if offset = 0x03C then some .ris
  else if offset = 0x040 then some .mis
  else if offset = 0x044 then some .icr
  else if offset = 0x048 then some .dmacr
  else if offset = 0xFE0 then some (.identification 0x11)
  else if offset = 0xFE4 then some (.identification (0x01 <<< 4))
  else if offset = 0xFE8 then some (.identification ((0x03 <<< 4) ||| 0x04))
  else if offset = 0xFEC then some (.identification 0x00)
  else if offset = 0xFF0 then some (.identification 0x0D)
  else if offset = 0xFF4 then some (.identification 0xF0)
  else if offset = 0xFF8 then some (.identification 0x05)
  else if offset = 0xFFC then some (.identification 0xB1)
  else none

/-- `Pl011Mmio`: its receive side, its output side and the registers without an effect. -/
structure Pl011Mmio where
  receive : Uart.Pl011Mmio
  output : Uart.Output
  control : BitVec 16
  irdaLowPowerCounter : BitVec 16
  integerBaudRateDivisor : BitVec 16
  fractionalBaudRateDivisor : BitVec 16
  lineControl : BitVec 16
  interruptFifoLevelSelect : BitVec 16
  dmaControl : BitVec 16

namespace Pl011Mmio

/-- `Pl011Mmio::new`. -/
def new : Pl011Mmio := ⟨.new, .new, 0, 0, 0, 0, 0, 0, 0⟩

/-- What a register holds. -/
def value (p : Pl011Mmio) (offset : Nat) : BitVec 64 :=
  match UartRegister.decode offset with
  | some .dr => BitVec.ofNat 64 (p.receive.readDr.1.getD 0).toNat
  | some .fr => p.receive.flag.zeroExtend 64
  | some .cr => p.control.zeroExtend 64
  | some .imsc => p.receive.interruptMask.zeroExtend 64
  | some .ris => p.receive.rawInterruptStatus.zeroExtend 64
  | some .mis => (p.receive.rawInterruptStatus &&& p.receive.interruptMask).zeroExtend 64
  | some .ilpr => p.irdaLowPowerCounter.zeroExtend 64
  | some .ibrd => p.integerBaudRateDivisor.zeroExtend 64
  | some .fbrd => p.fractionalBaudRateDivisor.zeroExtend 64
  | some .lcrH => p.lineControl.zeroExtend 64
  | some .ifls => p.interruptFifoLevelSelect.zeroExtend 64
  | some .dmacr => p.dmaControl.zeroExtend 64
  | some (.identification value) => value
  | some .rsrEcr | some .icr | none => 0

/-- `Pl011Mmio::read`. A read of the data register takes the byte out of the FIFO. -/
def read (offset : Nat) : Program Pl011Mmio (BitVec 64) := do
  let p ← get
  if UartRegister.decode offset = some .dr then
    modify fun p => { p with receive := p.receive.readDr.2 }
  return p.value offset

/-- `Pl011Mmio::write`. -/
def write (offset : Nat) (value : BitVec 64) : Program Pl011Mmio Unit :=
  let half : BitVec 16 := value.truncate 16
  match UartRegister.decode offset with
  | some .dr => modify fun p => { p with output := p.output.writeDr (UInt8.ofNat value.toNat) }
  | some .cr => modify fun p => { p with control := half }
  | some .imsc => modify fun p => { p with receive := p.receive.writeImsc half }
  | some .icr => modify fun p => { p with receive := p.receive.writeIcr half }
  | some .ilpr => modify fun p => { p with irdaLowPowerCounter := half }
  | some .ibrd => modify fun p => { p with integerBaudRateDivisor := half }
  | some .fbrd => modify fun p => { p with fractionalBaudRateDivisor := half }
  | some .lcrH => modify fun p => { p with lineControl := half }
  | some .ifls => modify fun p => { p with interruptFifoLevelSelect := half }
  | some .dmacr => modify fun p => { p with dmaControl := half }
  | _ => return ()

end Pl011Mmio

/-! ## Dispatch -/

/-- `MmioHandler`, for devices in a state `σ`. An answer of `none` is `Err(())`. -/
structure MmioHandler (σ : Type) where
  read : (offset accessWidth : Nat) → Program σ (Option (BitVec 64))
  write : (offset accessWidth : Nat) → BitVec 64 → Program σ (Option Unit)

structure MmioEntry (σ : Type) where
  baseAddress : Nat
  length : Nat
  handler : MmioHandler σ

section Handler

variable {σ : Type}

/-- The entry covers the address. -/
def MmioEntry.Covers (e : MmioEntry σ) (address : Nat) : Prop :=
  e.baseAddress ≤ address ∧ address < e.baseAddress + e.length

instance (e : MmioEntry σ) (address : Nat) : Decidable (e.Covers address) := by
  unfold MmioEntry.Covers
  infer_instance

/-- `VM::handle_mmio_read`. -/
def handleMmioRead (address accessWidth : Nat) :
    List (MmioEntry σ) → Program σ (Option (BitVec 64))
  | [] => return none
  | e :: entries =>
    if e.Covers address then e.handler.read (address - e.baseAddress) accessWidth
    else handleMmioRead address accessWidth entries

/-- `VM::handle_mmio_write`. -/
def handleMmioWrite (address accessWidth : Nat) (value : BitVec 64) :
    List (MmioEntry σ) → Program σ (Option Unit)
  | [] => return none
  | e :: entries =>
    if e.Covers address then e.handler.write (address - e.baseAddress) accessWidth value
    else handleMmioWrite address accessWidth value entries

/-! ## The handler -/

/-- What `data_abort_handler` works on: the trap frame, system registers and the devices. -/
structure Trapped (σ : Type) where
  registers : Registers
  elrEl2 : BitVec 64
  hpfarEl2 : BitVec 64
  farEl2 : BitVec 64
  devices : σ

def Trapped.onDevices {α : Type} (x : Program σ α) : Program (Trapped σ) α :=
  zoom Trapped.devices (fun d t => { t with devices := d }) x

/-- `ESR_EL2_ISS_ISV`: the syndrome describes the access. -/
def isValid (esr : BitVec 64) : Bool := esr.getLsbD 24

/-- `ESR_EL2_ISS_SF`: the instruction has a 64-bit register. -/
def is64bitRegister (esr : BitVec 64) : Bool := esr.getLsbD 15

/-- `ESR_EL2_ISS_WNR`. -/
def isWriteAccess (esr : BitVec 64) : Bool := esr.getLsbD 6

/-- The width that `ESR_EL2_ISS_SAS` stands for. -/
def accessWidth (esr : BitVec 64) : Nat :=
  match esr.extractLsb' 22 2 with
  | 0b00#2 => 8
  | 0b01#2 => 16
  | 0b10#2 => 32
  | _ => 64

/-- `ESR_EL2_ISS_SRT`. -/
def registerNumber (esr : BitVec 64) : Fin numberOfSlots := (esr.extractLsb' 16 5).toFin

/-- `HPFAR_EL2_FIPA`. -/
def hpfarEl2Fipa : BitVec 64 := (((1 : BitVec 64) <<< 44) - 1) &&& ~~~(((1 : BitVec 64) <<< 4) - 1)

/-- The address of the access: its page from `HPFAR_EL2`, its offset in the page from `FAR_EL2`. -/
def guestAddress (hpfar far : BitVec 64) : BitVec 64 :=
  (((hpfar &&& hpfarEl2Fipa) >>> 4) <<< 12) ||| (far &&& ((1 <<< 12) - 1))

/-- `advance_elr_el2`. -/
def advanceElr : Program (Trapped σ) Unit := do
  let t ← get
  match Vm.advanceElrEl2 t.elrEl2 with
  | .ok elrEl2 => modify fun t => { t with elrEl2 }
  | .error fault => throw fault

/-- The write access of `data_abort_handler`. -/
def storeRegister (handlers : List (MmioEntry σ)) (esr : BitVec 64) :
    Program (Trapped σ) Unit := do
  let t ← get
  let register := t.registers (registerNumber esr)
  let value := if is64bitRegister esr then register else register &&& 0xFFFFFFFF
  let address := (guestAddress t.hpfarEl2 t.farEl2).toNat
  match ← Trapped.onDevices (handleMmioWrite address (accessWidth esr) value handlers) with
  | some () => return ()
  | none => throw .assertion

/-- The read access of `data_abort_handler`. -/
def loadRegister (handlers : List (MmioEntry σ)) (esr : BitVec 64) :
    Program (Trapped σ) Unit := do
  let t ← get
  let address := (guestAddress t.hpfarEl2 t.farEl2).toNat
  match ← Trapped.onDevices (handleMmioRead address (accessWidth esr) handlers) with
  | some value =>
    modify fun t => { t with
      registers := Function.update t.registers (registerNumber esr) value }
  | none => throw .assertion

/-- `data_abort_handler`. -/
def dataAbortHandler (handlers : List (MmioEntry σ)) (esr : BitVec 64) :
    Program (Trapped σ) Unit :=
  if isValid esr = false then throw .assertion
  else do
    if isWriteAccess esr then storeRegister handlers esr else loadRegister handlers esr
    advanceElr

/-! ## The trap -/

/-- What the guest's access leaves for the hypervisor, and the registers that it gets back. -/
structure Guest (σ : Type) where
  x : Fin 31 → BitVec 64
  esrEl2 : BitVec 64
  elrEl2 : BitVec 64
  hpfarEl2 : BitVec 64
  farEl2 : BitVec 64
  devices : σ

/-- The vector stores `x0` to `x30`, and `xzr` behind them. -/
def saveFrame (x : Fin 31 → BitVec 64) : Registers :=
  fun i => if h : i.val < 31 then x ⟨i, h⟩ else 0

/-- `exit_exception` loads `x0` to `x30`. -/
def loadFrame (registers : Registers) : Fin 31 → BitVec 64 := fun i =>
    registers (i.castLE (by decide))

def Guest.enter (g : Guest σ) : Trapped σ :=
  ⟨saveFrame g.x, g.elrEl2, g.hpfarEl2, g.farEl2, g.devices⟩

def Guest.leave (t : Trapped σ) (g : Guest σ) : Guest σ :=
  { g with x := loadFrame t.registers, elrEl2 := t.elrEl2, devices := t.devices }

/-- A data abort of the guest, from the vector to `eret`. -/
def dataAbort (handlers : List (MmioEntry σ)) : Program (Guest σ) Unit := do
  let g ← get
  zoom Guest.enter Guest.leave (dataAbortHandler handlers g.esrEl2)

/-- The address of the trapped access. -/
def Guest.address (g : Guest σ) : BitVec 64 := guestAddress g.hpfarEl2 g.farEl2

/-- The register that the instruction names: register 31 is the zero register. -/
def Guest.register (g : Guest σ) : BitVec 64 := saveFrame g.x (registerNumber g.esrEl2)

end Handler

/-! ## The devices of a VM -/

structure Devices where
  pl011 : Pl011Mmio
  blk : Virtio.VirtioBlkMmio
  vgic : Gic.Vgic
  net : Virtio.VirtioNetMmio
  console : Virtio.VirtioConsoleMmio

/-- What the devices work with during one access: the CPU that executes the handler, the RAM of the
VM, the storage, and what is read from guest memory if the access makes a device process a queue. -/
structure World where
  cpu : Gic.Cpu
  window : Virtio.Window
  physicalNet : Bool
  storage : Virtio.Storage
  memories : List Memory
  requests : List (Memory × List Memory)

namespace Devices

def onPl011 {α : Type} (x : Program Pl011Mmio α) : Program Devices α :=
  zoom pl011 (fun p d => { d with pl011 := p }) x

def onBlk {α : Type} (x : Program Virtio.VirtioBlkMmio α) : Program Devices α :=
  zoom blk (fun b d => { d with blk := b }) x

def onNet {α : Type} (x : Program Virtio.VirtioNetMmio α) : Program Devices α :=
  zoom net (fun n d => { d with net := n }) x

def onConsole {α : Type} (x : Program Virtio.VirtioConsoleMmio α) : Program Devices α :=
  zoom console (fun c d => { d with console := c }) x

end Devices

/-- A computation that only reads, and may fault. -/
def ofExcept {σ α : Type} (x : σ → Except Fault α) : Program σ α := fun s => (x s, s)

/-- The devices that `create_vm` registers. -/
inductive Device where
  | pl011 | blk | distributor | net | console
  deriving DecidableEq, Repr

namespace Device

def baseAddress : Device → Nat
  | .pl011 => 0x9000000
  | .blk => 0xa000000
  | .distributor => 0x8000000
  | .net => 0xa000200
  | .console => 0xa000400

def length : Device → Nat
  | .pl011 => 0x1000
  | .distributor => 0x10000
  | .blk | .net | .console => 0x0200

/-- The implementations of `MmioHandler::read`. -/
def read (w : World) (offset accessWidth : Nat) : Device → Program Devices (BitVec 64)
  | .pl011 => Devices.onPl011 (Pl011Mmio.read offset)
  | .blk => BitVec.ofNat 64 <$> Devices.onBlk (Virtio.VirtioBlkMmio.read offset)
  | .distributor => ofExcept fun d => Gic.read d.vgic.distributor w.cpu offset accessWidth
  | .net => BitVec.ofNat 64 <$> Devices.onNet (Virtio.VirtioNetMmio.read offset)
  | .console => BitVec.ofNat 64 <$> Devices.onConsole (Virtio.VirtioConsoleMmio.read offset)

/-- The implementations of `MmioHandler::write`. -/
def write (w : World) (offset accessWidth : Nat) (value : BitVec 64) :
    Device → Program Devices Unit
  | .pl011 => Devices.onPl011 (Pl011Mmio.write offset value)
  | .blk =>
    Devices.onBlk (Virtio.VirtioBlkMmio.write w.window w.storage offset value w.requests)
  | .distributor => do
    let vgic ← ofExcept fun d => Gic.write d.vgic w.cpu offset accessWidth value
    modify fun d => { d with vgic := vgic }
  | .net =>
    Devices.onNet (Virtio.VirtioNetMmio.write w.window w.physicalNet offset value w.memories)
  | .console => Devices.onConsole (Virtio.VirtioConsoleMmio.write w.window offset value w.memories)

def entry (w : World) (device : Device) : MmioEntry Devices where
  baseAddress := device.baseAddress
  length := device.length
  handler :=
    { read := fun offset accessWidth => some <$> device.read w offset accessWidth
      write := fun offset accessWidth value => some <$> device.write w offset accessWidth value }

end Device

/-- `mmio_handlers`, in the order in which `create_vm` registers them. -/
def mmioHandlers (w : World) : List (MmioEntry Devices) :=
  [.pl011, .blk, .distributor, .net, .console].map (Device.entry w)

/-! ## Rules -/

section Rules

variable {σ α : Type} {handlers : List (MmioEntry σ)} {g : Guest σ} {t : Trapped σ}
  {fail : Fault → Guest σ → Prop} {post : Unit → Guest σ → Prop}

@[simp] theorem wp_ofExcept {x : σ → Except Fault α} {fail : Fault → σ → Prop}
    {post : α → σ → Prop} {s : σ} : wp (ofExcept x) fail post s ↔
      match x s with
      | .ok a => post a s
      | .error fault => fail fault s := by
  unfold wp ofExcept
  cases x s <;> rfl

/-- The register named by an instruction, after a write: a write to register 31 is lost. -/
def setRegister (x : Fin 31 → BitVec 64) (number : Fin numberOfSlots) (value : BitVec 64) :
    Fin 31 → BitVec 64 :=
  if h : number.val < 31 then Function.update x ⟨number, h⟩ value else x

@[simp] theorem loadFrame_saveFrame (x : Fin 31 → BitVec 64) : loadFrame (saveFrame x) = x := by
  funext i
  exact dif_pos i.isLt

theorem loadFrame_update (x : Fin 31 → BitVec 64) (number : Fin numberOfSlots) (value : BitVec 64) :
    loadFrame (Function.update (saveFrame x) number value) = setRegister x number value := by
  funext i
  have hi := i.isLt
  show Function.update (saveFrame x) number value (i.castLE _) = _
  unfold setRegister
  rw [Function.update_apply]
  split_ifs with heq hlt hlt
  · have hval : i.val = number.val := congrArg Fin.val heq
    have hi' : i = ⟨number, hlt⟩ := Fin.ext hval
    rw [hi', Function.update_self]
  · rw [← heq] at hlt
    exact absurd hi hlt
  · have hi' : i ≠ ⟨number, hlt⟩ := by
      intro h
      have hval : i.val = number.val := congrArg Fin.val h
      exact heq (Fin.ext hval)
    rw [Function.update_of_ne hi']
    exact dif_pos hi
  · exact dif_pos hi

/-- The state after a trap that ends in `eret`. -/
def Guest.resumed (g : Guest σ) (x : Fin 31 → BitVec 64) (devices : σ) : Guest σ :=
  { g with x := x, elrEl2 := g.elrEl2 + 4, devices := devices }

/-- The checked addition to `ELR_EL2` succeeds unless the instruction is the last one of the address
space. -/
theorem wp_advanceElr {post : Unit → Trapped σ → Prop} :
    wp advanceElr (fun _ _ => False) post t ↔
      t.elrEl2.toNat + 4 < 2 ^ 64 ∧ post () { t with elrEl2 := t.elrEl2 + 4 } := by
  unfold advanceElr
  rw [wp_bind, wp_get, Vm.advanceElrEl2_eq]
  by_cases h : t.elrEl2.toNat + 4 < 2 ^ 64
  · rw [if_pos h, and_iff_right h]
    exact wp_modify _
  · rw [if_neg h]
    exact iff_of_false id fun hpost => h hpost.1

/-- A trapped load without a fault: a device answers, and the answer is loaded. -/
theorem wp_dataAbort_load (hvalid : isValid g.esrEl2 = true)
    (hload : isWriteAccess g.esrEl2 = false) :
    wp (dataAbort handlers) (fun _ _ => False) post g ↔
      wp (handleMmioRead g.address.toNat (accessWidth g.esrEl2) handlers) (fun _ _ => False)
        (fun answer d => ∃ value, answer = some value ∧ g.elrEl2.toNat + 4 < 2 ^ 64 ∧
          post () (g.resumed (setRegister g.x (registerNumber g.esrEl2) value) d)) g.devices := by
  unfold dataAbort dataAbortHandler
  rw [wp_bind, wp_get, wp_zoom, hvalid, hload, if_neg (by decide), if_neg (by decide)]
  simp only [wp_bind, wp_get, wp_zoom, loadRegister, Trapped.onDevices]
  refine wp_congr fun answer d => ?_
  cases answer with
  | none => simp
  | some value =>
    simp only [wp_modify, wp_advanceElr, Option.some.injEq, exists_eq_left']
    rw [Guest.leave]
    simp only [Guest.enter, loadFrame_update]
    rfl

/-- A trapped store without a fault: a device accepts the value. -/
theorem wp_dataAbort_store (hvalid : isValid g.esrEl2 = true)
    (hstore : isWriteAccess g.esrEl2 = true) :
    wp (dataAbort handlers) (fun _ _ => False) post g ↔
      wp (handleMmioWrite g.address.toNat (accessWidth g.esrEl2)
          (if is64bitRegister g.esrEl2 then g.register else g.register &&& 0xFFFFFFFF) handlers)
        (fun _ _ => False)
        (fun answer d => answer = some () ∧ g.elrEl2.toNat + 4 < 2 ^ 64 ∧
          post () (g.resumed g.x d)) g.devices := by
  unfold dataAbort dataAbortHandler
  rw [wp_bind, wp_get, wp_zoom, hvalid, hstore, if_neg (by decide), if_pos rfl]
  simp only [wp_bind, wp_get, wp_zoom, storeRegister, Trapped.onDevices]
  refine wp_congr fun answer d => ?_
  cases answer with
  | none => simp
  | some value =>
    simp only [wp_pure, wp_advanceElr, true_and]
    rw [Guest.leave]
    simp only [Guest.enter, loadFrame_saveFrame]
    rfl

end Rules

/-- The ranges of the devices are disjoint, so an access reaches the device that it is for. -/
theorem handleMmioRead_mmioHandlers (w : World) (device : Device) {offset : Nat}
    (h : offset < device.length) (accessWidth : Nat) :
    handleMmioRead (device.baseAddress + offset) accessWidth (mmioHandlers w) =
      some <$> device.read w offset accessWidth := by
  cases device <;>
    · simp only [Device.length] at h
      simp only [mmioHandlers, List.map_cons, List.map_nil, handleMmioRead, MmioEntry.Covers,
        Device.entry, Device.baseAddress, Device.length, Nat.add_sub_cancel_left]
      repeat rw [if_neg (by omega)]
      rw [if_pos (by omega)]

theorem handleMmioWrite_mmioHandlers (w : World) (device : Device) {offset : Nat}
    (h : offset < device.length) (accessWidth : Nat) (value : BitVec 64) :
    handleMmioWrite (device.baseAddress + offset) accessWidth value (mmioHandlers w) =
      some <$> device.write w offset accessWidth value := by
  cases device <;>
    · simp only [Device.length] at h
      simp only [mmioHandlers, List.map_cons, List.map_nil, handleMmioWrite, MmioEntry.Covers,
        Device.entry, Device.baseAddress, Device.length, Nat.add_sub_cancel_left]
      repeat rw [if_neg (by omega)]
      rw [if_pos (by omega)]

/-! ## A machine -/

/-- A disk of 512 sectors behind the block device, and every other device as it is made. -/
def smallDevices : Devices where
  pl011 := .new
  blk := ⟨⟨2, 0x40000, Fat.firstCluster_lt, by decide⟩, 0, 0, 0, false, 2 ^ 12, .new, 0, []⟩
  vgic := .new 1 4 27
  net := .new fun _ => 0
  console := .new

def smallWorld : World where
  cpu := 0
  window := Virtio.smallHost.window
  physicalNet := true
  storage := ⟨Virtio.smallHost.fat32, ⟨fun _ => true, fun _ => none⟩, 0⟩
  memories := []
  requests := []

end MiniVisor.Trap
