import MiniVisor.Fat.Model
import MiniVisor.Virtio.Queue

/-!
# The emulated virtio devices

A model of `mmio/virtio_net.rs`, `mmio/virtio_console.rs` and `mmio/virtio_blk.rs`. `Transport`
holds the registers that the network and the console device have in common.

A function that loops takes a list of what it reads from guest memory, one element for each
iteration; it is out of fuel when the list ends before the loop does. A request of the block device
also takes a memory for each descriptor behind the first.

`interrupts` counts the calls of `trigger_interrupt`; no function reads it.
-/

set_option autoImplicit false

namespace MiniVisor.Virtio

open MiniVisor.Lib MiniVisor.Fat

/-! ## Registers -/

inductive Register where
  | magic | version | deviceId | vendorId | deviceFeatures | deviceFeaturesSel | driverFeatures
  | driverFeaturesSel | guestPageSize | queueSel | queueNumMax | queueNum | queuePfn | queueReady
  | queueNotify | interruptStatus | interruptAck | status
  | config (offset : Nat)
  deriving DecidableEq, Repr

def decode (offset : Nat) : Option Register :=
  if offset = 0x000 then some .magic
  else if offset = 0x004 then some .version
  else if offset = 0x008 then some .deviceId
  else if offset = 0x00c then some .vendorId
  else if offset = 0x010 then some .deviceFeatures
  else if offset = 0x014 then some .deviceFeaturesSel
  else if offset = 0x020 then some .driverFeatures
  else if offset = 0x024 then some .driverFeaturesSel
  else if offset = 0x028 then some .guestPageSize
  else if offset = 0x030 then some .queueSel
  else if offset = 0x034 then some .queueNumMax
  else if offset = 0x038 then some .queueNum
  else if offset = 0x040 then some .queuePfn
  else if offset = 0x044 then some .queueReady
  else if offset = 0x050 then some .queueNotify
  else if offset = 0x060 then some .interruptStatus
  else if offset = 0x064 then some .interruptAck
  else if offset = 0x070 then some .status
  else if 0x100 ≤ offset then some (.config (offset - 0x100))
  else none

/-- The registers and queues of a device with two queues. -/
structure Transport where
  interruptStatus : Nat
  status : Nat
  pageSize : Nat
  queueSel : Fin 2
  deviceFeaturesSel : Nat
  queues : Fin 2 → QueueState
  interrupts : Nat

namespace Transport

def new : Transport := ⟨0, 0, 2 ^ 12, 0, 0, fun _ => .new, 0⟩

def setQueue (i : Fin 2) (q : QueueState) (t : Transport) : Transport :=
  { t with queues := fun j => if j = i then q else t.queues j }

/-- A program on one of the queues. -/
def onQueue {α : Type} (i : Fin 2) (x : Program QueueState α) : Program Transport α :=
  zoom (fun t => t.queues i) (fun q t => t.setQueue i q) x

/-- `interrupt_status |= 1` and `trigger_interrupt`. -/
def interrupt : Program Transport Unit :=
  modify fun t =>
    { t with interruptStatus := t.interruptStatus ||| 1, interrupts := t.interrupts + 1 }

/-- The register reads of a device, given its identifier, its first feature word and its
configuration space. -/
def read (id features : Nat) (config : Nat → Nat) (register : Option Register) :
    Program Transport Nat := do
  let t ← get
  match register with
  | some .magic => return 0x74726976
  | some .version => return 1
  | some .deviceId => return id
  | some .vendorId => return 0x554d4551
  | some .deviceFeatures => return if t.deviceFeaturesSel = 0 then features else 0
  | some .queueNumMax => return 32
  | some .queuePfn => quot (t.queues t.queueSel).descriptor t.pageSize
  | some .interruptStatus => return t.interruptStatus
  | some .status => return t.status
  | some (.config offset) => return config offset
  | _ => return 0

/-- A register read changes nothing, and fails only on a division by the page size. -/
theorem wp_read {t : Transport} {id features : Nat} {config : Nat → Nat}
    {register : Option Register} {fail : Fault → Transport → Prop} {post : Nat → Transport → Prop}
    (hpost : ∀ value, post value t)
    (hdiv : register = some .queuePfn → t.pageSize = 0 → fail .divisionByZero t) :
    wp (read id features config register) fail post t := by
  unfold read
  rw [wp_bind, wp_get]
  split
  case h_7 => exact (wp_quot _ _).2 ⟨hdiv rfl, fun _ => hpost _⟩
  all_goals exact hpost _

/-- The register writes of a device, other than to `QUEUE_NOTIFY`. -/
def write (w : Window) (register : Option Register) (value : BitVec 64) :
    Program Transport Unit := do
  let t ← get
  match register with
  | some .deviceFeaturesSel =>
    modify fun t => { t with deviceFeaturesSel := value.toNat % 2 ^ 32 }
  | some .guestPageSize => modify fun t => { t with pageSize := value.toNat }
  | some .queueSel =>
    if h : value.toNat < 2 then modify fun t => { t with queueSel := ⟨value.toNat, h⟩ }
  | some .queueNum =>
    onQueue t.queueSel do
      modify fun q => { q with queueSize := value.toNat }
      QueueState.recomputeRings t.pageSize
  | some .queuePfn =>
    let guestAddress ← fits 64 (value.toNat * t.pageSize)
    match w.getPhysicalAddress guestAddress with
    | some address =>
      onQueue t.queueSel do
        modify fun q => { q with descriptor := address }
        QueueState.recomputeRings t.pageSize
    | none => return ()
  | some .interruptAck =>
    modify fun t => { t with
      interruptStatus := t.interruptStatus &&& (2 ^ 32 - 1 - value.toNat % 2 ^ 32) }
  | some .status =>
    if value = 0 then
      modify fun t => { t with
        pageSize := 2 ^ 12, interruptStatus := 0, status := 0, queueSel := 0,
        deviceFeaturesSel := 0 }
      onQueue 0 QueueState.reset
      onQueue 1 QueueState.reset
    else
      modify fun t => { t with status := value.toNat % 2 ^ 32 }
  | _ => return ()

end Transport

/-! ## The network device -/

structure VirtioNetMmio where
  mac : Nat → UInt8
  transport : Transport

namespace VirtioNetMmio

def new (mac : Nat → UInt8) : VirtioNetMmio := ⟨mac, .new⟩

def onTransport {α : Type} (x : Program Transport α) : Program VirtioNetMmio α :=
  zoom transport (fun t n => { n with transport := t }) x

/-- `virtio_net_config`: the MAC address, and a link that is up. -/
def config (n : VirtioNetMmio) (offset : Nat) : Nat :=
  if offset < 6 then (n.mac offset).toNat else if offset = 6 then 1 else 0

def read (offset : Nat) : Program VirtioNetMmio Nat := do
  let n ← get
  onTransport (Transport.read 1 (2 ^ 5) n.config (decode offset))

/-- The part of `push_rx` before the interrupt, and whether it comes to the interrupt. -/
def deliver (w : Window) (memory : Memory) (length : Nat) : Program QueueState Bool := do
  match ← QueueState.takeHead (QueueState.getNextAvailId memory) memory with
  | .none => return false
  | .lost => return false
  | .found descriptorId descriptor =>
    if descriptor.length < 10 + length then
      return false
    else
      match w.getPhysicalAddress descriptor.address with
      | none => return false
      | some address =>
        let _ ← fits 64 (address + 10)
        QueueState.access .buffer address (10 + length)
        QueueState.writeUsed descriptorId ((10 + length) % 2 ^ 32)
        return true

/-- `push_rx` for a frame of the given length. -/
def pushRx (w : Window) (memory : Memory) (length : Nat) : Program VirtioNetMmio Unit :=
  onTransport do
    if ← Transport.onQueue 0 (deliver w memory length) then
      Transport.interrupt

/-- The payload goes to the physical device, if there is one. -/
def send (w : Window) (physicalNet : Bool) (data : VirtQueueDesc) : Program QueueState Unit :=
  match w.getPhysicalAddress data.address with
  | some address =>
    if physicalNet = true then QueueState.access .buffer address data.length else return ()
  | none => return ()

/-- An iteration of `process_tx`. -/
def transmit (w : Window) (physicalNet : Bool) (memory : Memory) (_ : Unit) :
    Program QueueState (Flow Unit) := do
  match ← QueueState.takeHead (QueueState.getNextAvailId memory) memory with
  | .none => return .stop ()
  | .lost => return .exit
  | .found descriptorId header =>
    if header.hasNext = false then
      return .next ()
    else
      match ← QueueState.getDescriptor memory header.next with
      | none => return .exit
      | some data =>
        let totalLength ← fits 32 (header.length + data.length)
        send w physicalNet data
        QueueState.writeUsed descriptorId totalLength
        return .next ()

def processTx (w : Window) (physicalNet : Bool) (memories : List Memory) :
    Program Transport Unit := do
  match ← Transport.onQueue 1 (loop (transmit w physicalNet) memories ()) with
  | some () => Transport.interrupt
  | none => return ()

def write (w : Window) (physicalNet : Bool) (offset : Nat) (value : BitVec 64)
    (memories : List Memory) : Program VirtioNetMmio Unit :=
  onTransport <|
    match decode offset with
    | some .queueNotify => if value = 1 then processTx w physicalNet memories else return ()
    | register => Transport.write w register value

end VirtioNetMmio

/-! ## The console device -/

/-- `RX_STAGING_SIZE`. -/
def rxStagingSize : Nat := 256

/-- The fields `rx_staging` and `rx_staging_len`. `written` are the bytes that `flush_rx` has
written to the guest, with their addresses; no function reads them. -/
structure RxStaging where
  bytes : Nat → UInt8
  length : Nat
  bounded : length ≤ rxStagingSize
  written : List (Nat × UInt8)

namespace RxStaging

def new : RxStaging := ⟨fun _ => 0, 0, Nat.zero_le _, []⟩

/-- A byte is staged while there is space. -/
def push (data : UInt8) (s : RxStaging) : RxStaging :=
  if h : s.length < rxStagingSize then
    ⟨Function.update s.bytes s.length data, s.length + 1, h, s.written⟩
  else s

/-- The `write_volatile` of the first byte. -/
def writeVolatile (address : Nat) (s : RxStaging) : RxStaging :=
  { s with written := s.written ++ [(address, s.bytes 0)] }

/-- The `copy_within` of the other bytes to the front, and the decrement. -/
def shift (s : RxStaging) : RxStaging where
  bytes i := if i + 1 < s.length then s.bytes (i + 1) else s.bytes i
  length := s.length - 1
  bounded := (Nat.sub_le _ _).trans s.bounded
  written := s.written

/-- The length becomes 0. -/
def clear (s : RxStaging) : RxStaging := { s with length := 0, bounded := Nat.zero_le _ }

end RxStaging

structure VirtioConsoleMmio where
  rxStaging : RxStaging
  transport : Transport

namespace VirtioConsoleMmio

def new : VirtioConsoleMmio := ⟨.new, .new⟩

def onTransport {α : Type} (x : Program Transport α) : Program VirtioConsoleMmio α :=
  zoom transport (fun t c => { c with transport := t }) x

def onQueue {α : Type} (i : Fin 2) (x : Program QueueState α) : Program VirtioConsoleMmio α :=
  onTransport (Transport.onQueue i x)

def read (offset : Nat) : Program VirtioConsoleMmio Nat :=
  onTransport (Transport.read 3 0 (fun _ => 0) (decode offset))

/-- An iteration of `flush_rx`, with the staged bytes and the flag `injected`. -/
def receive (w : Window) (memory : Memory) (acc : RxStaging × Bool) :
    Program QueueState (Flow (RxStaging × Bool)) :=
  if acc.1.length = 0 then return .stop acc
  else do
    match ← QueueState.takeHead (QueueState.getNextAvailId memory) memory with
    | .none => return .stop acc
    | .lost => return .stop acc
    | .found descriptorId descriptor =>
      if descriptor.length = 0 then
        return .stop acc
      else
        match w.getPhysicalAddress descriptor.address with
        | none => return .stop acc
        | some address =>
          QueueState.access .buffer address 1
          let staging := (acc.1.writeVolatile address).shift
          QueueState.writeUsed descriptorId 1
          return .next (staging, true)

def flushRx (w : Window) (memories : List Memory) : Program VirtioConsoleMmio Unit := do
  let c ← get
  match ← onQueue 0 (loop (receive w) memories (c.rxStaging, false)) with
  | some (rxStaging, injected) =>
    modify fun c => { c with rxStaging := rxStaging }
    if injected = true then onTransport Transport.interrupt else return ()
  | none => return ()

def stage (data : UInt8) (c : VirtioConsoleMmio) : VirtioConsoleMmio :=
  { c with rxStaging := c.rxStaging.push data }

def pushRx (w : Window) (data : UInt8) (memories : List Memory) :
    Program VirtioConsoleMmio Unit := do
  modify (stage data)
  flushRx w memories

/-- An iteration of `process_tx`, with the flag `handled`. -/
def print (w : Window) (memory : Memory) (handled : Bool) : Program QueueState (Flow Bool) := do
  match ← QueueState.takeHead (QueueState.getNextAvailId memory) memory with
  | .none => return .stop handled
  | .lost => return .exit
  | .found descriptorId descriptor =>
    match w.getPhysicalAddress descriptor.address with
    | none => return .exit
    | some address =>
      QueueState.access .buffer address descriptor.length
      QueueState.writeUsed descriptorId descriptor.length
      return .next true

def processTx (w : Window) (memories : List Memory) : Program VirtioConsoleMmio Unit := do
  match ← onQueue 1 (loop (print w) memories false) with
  | some true => onTransport Transport.interrupt
  | _ => return ()

def write (w : Window) (offset : Nat) (value : BitVec 64) (memories : List Memory) :
    Program VirtioConsoleMmio Unit :=
  match decode offset with
  | some .queueNotify =>
    if value = 1 then processTx w memories
    else if value = 0 then flushRx w memories
    else return ()
  | register => do
    onTransport (Transport.write w register value)
    if register = some .status ∧ value = 0 then
      modify fun c => { c with rxStaging := c.rxStaging.clear }

end VirtioConsoleMmio

/-! ## The block device -/

/-- `VirtioBlkMmio`. The fields of its queue are those of a `QueueState`. `statuses` are the status
bytes that were written; no function reads them. -/
structure VirtioBlkMmio where
  file : FileInfo
  walkHint : Nat
  interruptStatus : Nat
  status : Nat
  queueReady : Bool
  pageSize : Nat
  queue : QueueState
  interrupts : Nat
  statuses : List Nat

/-- What a request of the block device goes to: the volume, the physical device, and fuel for the
loops of `Fat32`. -/
structure Storage where
  fat32 : Fat32
  backend : Backend
  fuel : Nat

/-- The locals of the loop over the descriptors of a request. -/
structure Progress where
  descriptor : VirtQueueDesc
  totalSize : Nat
  offset : Nat
  status : Nat

namespace VirtioBlkMmio

/-- The size of the file has to be a multiple of 512. -/
def new (file : FileInfo) : Except Fault VirtioBlkMmio :=
  if file.fileSize % 2 ^ 9 = 0 then .ok ⟨file, 0, 0, 0, false, 2 ^ 12, .new, 0, []⟩
  else .error .assertion

def onQueue {α : Type} (x : Program QueueState α) : Program VirtioBlkMmio α :=
  zoom queue (fun q b => { b with queue := q }) x

/-- The queue of this device is not checked before it is used. -/
def getNextAvailId (memory : Memory) : Program QueueState (Option Nat) := do
  let q ← get
  if q.availRing = 0 then
    throw .nullPointer
  else
    QueueState.takeNextAvailId memory

/-- The rule for the start of a request with `VirtioBlkMmio::get_next_avail_id`. -/
theorem wp_takeHead_getNextAvailId {q : QueueState} {memory : Memory}
    {fail : Fault → QueueState → Prop} {post : QueueState.Head → QueueState → Prop}
    (hnone : post .none q.polled)
    (hlost : q.Available memory → q.queueSize % 2 ^ 16 ≠ 0 → q.descriptor = 0 →
      post .lost (q.consumed memory))
    (hfound : q.Available memory → q.queueSize % 2 ^ 16 ≠ 0 → q.lastAvailId + 1 < 2 ^ 16 →
      q.descriptor ≠ 0 → post (.found (q.nextHead memory) (q.nextDescriptor memory))
    (q.started memory)) (hnull : q.availRing = 0 → fail .nullPointer q)
    (hdiv : q.availRing ≠ 0 → q.lastAvailId ≠ q.availIdx memory → q.queueSize % 2 ^ 16 = 0 →
      fail .divisionByZero q.polled)
    (hlast : q.Available memory → ¬q.lastAvailId + 1 < 2 ^ 16 → fail .overflow q.polled)
    (hentry : q.Available memory → q.queueSize % 2 ^ 16 ≠ 0 → ¬q.nextEntry < 2 ^ 64 →
      fail .overflow q.advanced)
    (htable : q.Available memory → q.queueSize % 2 ^ 16 ≠ 0 →
      ¬q.descriptor + 16 * q.nextHead memory < 2 ^ 64 → fail .overflow (q.consumed memory)) :
    wp (QueueState.takeHead (getNextAvailId memory) memory) fail post q := by
  by_cases hzero : q.availRing = 0
  · unfold QueueState.takeHead getNextAvailId
    simp only [wp_bind, wp_get, if_pos hzero, wp_throw]
    exact hnull hzero
  · have hnext : getNextAvailId memory q = QueueState.takeNextAvailId memory q := by
      unfold getNextAvailId
      rw [bind_apply]
      show (if q.availRing = 0 then _ else QueueState.takeNextAvailId memory) q = _
      rw [if_neg hzero]
    unfold wp
    rw [QueueState.takeHead_congr hnext]
    exact QueueState.wp_takeHead hzero hnone hlost hfound (hdiv hzero) hlast hentry htable

/-- The guest memory that a call of `Fat32` uses, last access first. -/
def buffers : List Effect → List Access
  | [] => []
  | .direct t :: rest => buffers rest ++ [⟨.buffer, t.bufferAddress, t.length⟩]
  | .bounce _ :: rest => buffers rest
  | .copy _ address length :: rest => buffers rest ++ [⟨.buffer, address, length⟩]

/-- A call of `Fat32::read` or `Fat32::write` on the file of the device. -/
def onFile {α : Type} (x : Program Call α) : Program VirtioBlkMmio α :=
  zoom (fun b => ⟨b.walkHint, []⟩)
    (fun c b => { b with
      walkHint := c.walkHint
      queue := { b.queue with accesses := buffers c.effects ++ b.queue.accesses } }) x

/-- An iteration of the loop over the descriptors of a request. The last one is for the status. -/
def transferData (w : Window) (storage : Storage) (isWrite : Bool) (memory : Memory)
    (p : Progress) : Program VirtioBlkMmio (Flow Progress) := do
  match ← onQueue (QueueState.getDescriptor memory p.descriptor.next) with
  | none => return .exit
  | some descriptor =>
    if descriptor.hasNext = false then
      return .stop { p with descriptor := descriptor }
    else
      let totalSize ← fits 32 (p.totalSize + descriptor.length)
      match w.getPhysicalAddress descriptor.address with
      | none => return .next ⟨descriptor, totalSize, p.offset, 1⟩
      | some address =>
        let b ← get
        let result ← onFile (storage.fat32.access isWrite b.file storage.backend storage.fuel
          address p.offset descriptor.length)
        let offset ← fits 64 (p.offset + descriptor.length)
        return .next ⟨descriptor, totalSize, offset, if result.isNone then 1 else p.status⟩

/-- The status byte of a request, and the size with that of its descriptor. -/
def writeStatus (w : Window) (p : Progress) : Program VirtioBlkMmio Nat := do
  match w.getPhysicalAddress p.descriptor.address with
  | some address =>
    onQueue (QueueState.access .buffer address 1)
    modify fun b => { b with statuses := b.statuses ++ [p.status] }
    fits 32 (p.totalSize + p.descriptor.length)
  | none => return p.totalSize

/-- The part of a request behind its header: the data, the status and the used element. -/
def complete (w : Window) (storage : Storage) (isWrite : Bool) (descriptorId : Nat)
    (memories : List Memory) (p : Progress) : Program VirtioBlkMmio (Flow Unit) := do
  match ← loop (transferData w storage isWrite) memories p with
  | none => return .exit
  | some p =>
    let totalSize ← writeStatus w p
    onQueue (QueueState.writeUsed descriptorId totalSize)
    return .next ()

/-- An iteration of `operation`: a request, with a memory for its first part and one for each of its
further descriptors. Of the header, the type and the sector are read. -/
def request (w : Window) (storage : Storage) (input : Memory × List Memory) (_ : Unit) :
    Program VirtioBlkMmio (Flow Unit) := do
  match ← onQueue (QueueState.takeHead (getNextAvailId input.1) input.1) with
  | .none => return .stop ()
  | .lost => return .exit
  | .found descriptorId header =>
    if header.length ≠ 16 then
      return .exit
    else
      match w.getPhysicalAddress header.address with
      | none => return .exit
      | some address =>
        -- The reference to the header is checked: its largest field has 8 bytes.
        if address % 8 ≠ 0 then throw .misaligned
        else
          onQueue (QueueState.access .buffer address 4)
          onQueue (QueueState.access .buffer (address + 8) 8)
          if header.hasNext = false then
            return .exit
          else
            complete w storage (readLe input.1 4 address == 1) descriptorId input.2
              ⟨header, 0, readLe input.1 8 (address + 8) * 2 ^ 9 % 2 ^ 64, 0⟩

/-- `interrupt_status |= 1` and `trigger_interrupt`. -/
def interrupt : Program VirtioBlkMmio Unit :=
  modify fun b =>
    { b with interruptStatus := b.interruptStatus ||| 1, interrupts := b.interrupts + 1 }

def operation (w : Window) (storage : Storage) (requests : List (Memory × List Memory)) :
    Program VirtioBlkMmio Unit := do
  match ← loop (request w storage) requests () with
  | some () => interrupt
  | none => return ()

def read (offset : Nat) : Program VirtioBlkMmio Nat := do
  let b ← get
  match decode offset with
  | some .magic => return 0x74726976
  | some .version => return 1
  | some .deviceId => return 2
  | some .vendorId => return 0x554d4551
  | some .deviceFeatures => return 0
  | some .queueNumMax => return 1024
  | some .queueReady => return if b.queueReady then 1 else 0
  | some .queuePfn => quot b.queue.descriptor b.pageSize
  | some .interruptStatus => return b.interruptStatus
  | some .status => return b.status
  | some (.config offset) =>
    return if offset < 8 then b.file.fileSize / 2 ^ 9 / 2 ^ (offset * 8) else 0
  | _ => return 0

/-- A register read changes nothing, and fails only on a division by the page size. -/
theorem wp_read {b : VirtioBlkMmio} {offset : Nat} {fail : Fault → VirtioBlkMmio → Prop}
    {post : Nat → VirtioBlkMmio → Prop} (hpost : ∀ value, post value b)
    (hdiv : decode offset = some .queuePfn → b.pageSize = 0 → fail .divisionByZero b) :
    wp (read offset) fail post b := by
  unfold read
  rw [wp_bind, wp_get]
  split
  case h_8 heq => exact (wp_quot _ _).2 ⟨hdiv heq, fun _ => hpost _⟩
  all_goals exact hpost _

def write (w : Window) (storage : Storage) (offset : Nat) (value : BitVec 64)
    (requests : List (Memory × List Memory)) : Program VirtioBlkMmio Unit := do
  let b ← get
  match decode offset with
  | some .guestPageSize => modify fun b => { b with pageSize := value.toNat }
  | some .queueNum =>
    onQueue do
      modify fun q => { q with queueSize := value.toNat }
      QueueState.recomputeRings b.pageSize
  | some .queuePfn =>
    let guestAddress ← fits 64 (value.toNat * b.pageSize)
    match w.getPhysicalAddress guestAddress with
    | some address =>
      onQueue do
        modify fun q => { q with descriptor := address }
        QueueState.recomputeRings b.pageSize
    | none => return ()
  | some .queueNotify => if value = 0 then operation w storage requests else return ()
  | some .interruptAck =>
    modify fun b => { b with
      interruptStatus := b.interruptStatus &&& (2 ^ 32 - 1 - value.toNat % 2 ^ 32) }
  | some .status =>
    if value = 0 then
      modify fun b => { b with
        queueReady := false, pageSize := 2 ^ 12, interruptStatus := 0, status := 0 }
      onQueue QueueState.reset
    else
      modify fun b => { b with status := value.toNat % 2 ^ 32 }
  | _ => return ()

end VirtioBlkMmio

/-! ## The devices of a VM -/

/-- What the devices of a VM are built on. -/
structure Host where
  window : Window
  /-- There is a physical network device. -/
  physicalNet : Bool
  fat32 : Fat32

structure Devices where
  net : VirtioNetMmio
  console : VirtioConsoleMmio
  blk : VirtioBlkMmio

/-- What the devices react to: accesses of the guest to their registers, with what is read from
guest memory if the access makes the device process a queue, Ethernet frames, and console input. -/
inductive Event where
  | netRead (offset : Nat)
  | netWrite (offset : Nat) (value : BitVec 64) (memories : List Memory)
  | frame (memory : Memory) (length : Nat)
  | consoleRead (offset : Nat)
  | consoleWrite (offset : Nat) (value : BitVec 64) (memories : List Memory)
  | input (data : UInt8) (memories : List Memory)
  | blkRead (offset : Nat)
  | blkWrite (offset : Nat) (value : BitVec 64) (backend : Backend) (fuel : Nat)
      (requests : List (Memory × List Memory))

namespace Devices

def onNet {α : Type} (x : Program VirtioNetMmio α) : Program Devices α :=
  zoom net (fun n d => { d with net := n }) x

def onConsole {α : Type} (x : Program VirtioConsoleMmio α) : Program Devices α :=
  zoom console (fun c d => { d with console := c }) x

def onBlk {α : Type} (x : Program VirtioBlkMmio α) : Program Devices α :=
  zoom blk (fun b d => { d with blk := b }) x

def exec (h : Host) : Event → Program Devices Unit
  | .netRead offset => do
    let _ ← onNet (VirtioNetMmio.read offset)
  | .netWrite offset value memories =>
    onNet (VirtioNetMmio.write h.window h.physicalNet offset value memories)
  | .frame memory length => onNet (VirtioNetMmio.pushRx h.window memory length)
  | .consoleRead offset => do
    let _ ← onConsole (VirtioConsoleMmio.read offset)
  | .consoleWrite offset value memories =>
    onConsole (VirtioConsoleMmio.write h.window offset value memories)
  | .input data memories => onConsole (VirtioConsoleMmio.pushRx h.window data memories)
  | .blkRead offset => do
    let _ ← onBlk (VirtioBlkMmio.read offset)
  | .blkWrite offset value backend fuel requests =>
    onBlk (VirtioBlkMmio.write h.window ⟨h.fat32, backend, fuel⟩ offset value requests)

/-- The event is a register read for which a device divides by zero. -/
def DividesByZero (d : Devices) : Event → Prop
  | .netRead offset => decode offset = some .queuePfn ∧ d.net.transport.pageSize = 0
  | .consoleRead offset => decode offset = some .queuePfn ∧ d.console.transport.pageSize = 0
  | .blkRead offset => decode offset = some .queuePfn ∧ d.blk.pageSize = 0
  | _ => False

section Reads

variable {h : Host} {d : Devices} {fail : Fault → Devices → Prop} {post : Unit → Devices → Prop}

theorem wp_exec_netRead {offset : Nat} (hpost : post () d)
    (hdiv : d.DividesByZero (.netRead offset) → fail .divisionByZero d) :
    wp (exec h (.netRead offset)) fail post d := by
  simp only [exec, wp_bind, wp_pure, onNet, wp_zoom, VirtioNetMmio.read, wp_get,
    VirtioNetMmio.onTransport]
  exact Transport.wp_read (fun _ => hpost) fun hr hp => hdiv ⟨hr, hp⟩

theorem wp_exec_consoleRead {offset : Nat} (hpost : post () d)
    (hdiv : d.DividesByZero (.consoleRead offset) → fail .divisionByZero d) :
    wp (exec h (.consoleRead offset)) fail post d := by
  simp only [exec, wp_bind, wp_pure, onConsole, wp_zoom, VirtioConsoleMmio.read,
    VirtioConsoleMmio.onTransport]
  exact Transport.wp_read (fun _ => hpost) fun hr hp => hdiv ⟨hr, hp⟩

theorem wp_exec_blkRead {offset : Nat} (hpost : post () d)
    (hdiv : d.DividesByZero (.blkRead offset) → fail .divisionByZero d) :
    wp (exec h (.blkRead offset)) fail post d := by
  simp only [exec, wp_bind, wp_pure, onBlk, wp_zoom]
  exact VirtioBlkMmio.wp_read (fun _ => hpost) fun hr hp => hdiv ⟨hr, hp⟩

end Reads

/-- The devices of a new VM. -/
def Initial (d : Devices) : Prop :=
  ∃ mac file blk, VirtioBlkMmio.new file = .ok blk ∧ d = ⟨.new mac, .new, blk⟩

/-- The device handles an event that is permitted in its state. -/
def Step (h : Host) (permitted : Devices → Event → Prop) (d : Devices) (event : Event)
    (d' : Devices) : Prop :=
  permitted d event ∧ exec h event d = (.ok (), d')

/-- The events that are handled without a fault, as a function. -/
def perform (h : Host) (permitted : Devices → Event → Bool) (d : Devices) (event : Event) :
    Option Devices :=
  if permitted d event = true then
    match exec h event d with
    | (.ok (), d') => some d'
    | (.error _, _) => none
  else none

theorem step_of_perform {h : Host} {permitted : Devices → Event → Prop}
    {check : Devices → Event → Bool} (hcheck : ∀ d e, check d e = true → permitted d e)
    (d : Devices) (event : Event) (d' : Devices) (hp : perform h check d event = some d') :
    Step h permitted d event d' := by
  unfold perform at hp
  split at hp
  · next hc =>
    split at hp
    · next hx =>
      cases hp
      exact ⟨hcheck d event hc, hx⟩
    · cases hp
  · cases hp

end Devices

/-! ## A machine -/

/-- A VM with 64 KiB of RAM, and a volume of one file. -/
def smallHost : Host where
  window := ⟨0x40000000, 0x80000000, 0x10000, by decide, by decide⟩
  physicalNet := true
  fat32 := ⟨0, 512, 512, 8, 32, 8, 2, fun c => c + 1, sectorSize_lt, by decide⟩

def smallFile : FileInfo := ⟨2, 0x2000, firstCluster_lt, by decide⟩

/-- Its devices. -/
def smallDevices : Devices :=
  ⟨.new fun _ => 0, .new, ⟨smallFile, 0, 0, 0, false, 2 ^ 12, .new, 0, []⟩⟩

theorem smallDevices_initial : smallDevices.Initial :=
  ⟨fun _ => 0, smallFile, _, rfl, rfl⟩

/-- The guest places a queue of the network device, with 32 entries, at the start of its RAM. -/
def placeNetQueue (queue : BitVec 64) : List Event :=
  [.netWrite 0x030 queue [], .netWrite 0x038 32 [], .netWrite 0x040 0x40000 []]

end MiniVisor.Virtio
