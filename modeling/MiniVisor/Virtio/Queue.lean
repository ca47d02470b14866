import MiniVisor.Lib.Bytes
import MiniVisor.Lib.Program

/-!
# Virtqueues of the emulated devices

A model of `QueueState` in `mmio/virtio_net.rs`, which the network and the console device share, of
the queue inside `VirtioBlkMmio`, and of the translation of guest addresses in `guest_memory.rs`.

The functions read guest memory through a `Memory`, the host-physical memory at the time of the
read. Other CPUs of the guest may write to it at any time, so the callers pass a memory of its own
to each iteration of a loop.

A queue also records what was done through it; no function reads these fields. `taken`, `heads` and
`published` are, since the last reset, the number of avail entries consumed, the head descriptors
that were read, and the used elements that were written. `accesses` are the ranges of host memory
that were read or written.
-/

set_option autoImplicit false

namespace MiniVisor.Virtio

open MiniVisor.Lib

/-! ## Guest RAM -/

/-- The RAM of a VM. -/
structure Window where
  ramVirtualBaseAddress : Nat
  ramPhysicalBaseAddress : Nat
  ramSize : Nat
  virtual_fits : ramVirtualBaseAddress + ramSize < 2 ^ 64
  physical_fits : ramPhysicalBaseAddress + ramSize < 2 ^ 64

/-- `translate_guest_physical_address`, with the window of the VM (`get_physical_address`). -/
def Window.getPhysicalAddress (w : Window) (virtualAddress : Nat) : Option Nat :=
  if w.ramVirtualBaseAddress ≤ virtualAddress ∧
      virtualAddress < w.ramVirtualBaseAddress + w.ramSize then
    some (virtualAddress - w.ramVirtualBaseAddress + w.ramPhysicalBaseAddress)
  else none

/-- What a range of memory is accessed for: a ring or table of the queue, or a buffer of a
descriptor. -/
inductive Purpose where
  | ring | buffer
  deriving DecidableEq, Repr

/-- A range of host-physical memory that the hypervisor reads or writes. -/
structure Access where
  purpose : Purpose
  address : Nat
  length : Nat
  deriving DecidableEq, Repr

/-- Every byte of the range lies in the RAM of the VM. -/
def Window.Contains (w : Window) (address length : Nat) : Prop :=
  ∀ a, address ≤ a → a < address + length →
    w.ramPhysicalBaseAddress ≤ a ∧ a < w.ramPhysicalBaseAddress + w.ramSize

theorem Window.contains_of_le {w : Window} {address length : Nat}
    (hlow : w.ramPhysicalBaseAddress ≤ address)
    (hhigh : address + length ≤ w.ramPhysicalBaseAddress + w.ramSize) : w.Contains address length :=
  fun _ ha hb => ⟨hlow.trans ha, hb.trans_le hhigh⟩

/-- For a range that is not empty, the bounds are needed. -/
theorem Window.contains_iff {w : Window} {address length : Nat} (hpos : 0 < length) :
    w.Contains address length ↔ w.ramPhysicalBaseAddress ≤ address ∧
      address + length ≤ w.ramPhysicalBaseAddress + w.ramSize := by
  refine ⟨fun h => ?_, fun h => contains_of_le h.1 h.2⟩
  have hfirst := h address (Nat.le_refl _) (by omega)
  have hlast := h (address + length - 1) (by omega) (by omega)
  omega

theorem Window.contains_zero (w : Window) (address : Nat) : w.Contains address 0 :=
  fun a ha hb => absurd hb (by omega)

theorem Window.Contains.mono {w : Window} {address length length' : Nat}
    (h : w.Contains address length) (hle : length' ≤ length) : w.Contains address length' :=
  fun a ha hb => h a ha (by omega)

/-- A translated address lies in the RAM. -/
theorem Window.getPhysicalAddress_eq_some {w : Window} {virtualAddress address : Nat} :
    w.getPhysicalAddress virtualAddress = some address ↔
      w.ramVirtualBaseAddress ≤ virtualAddress ∧
        virtualAddress < w.ramVirtualBaseAddress + w.ramSize ∧
        address = virtualAddress - w.ramVirtualBaseAddress + w.ramPhysicalBaseAddress := by
  unfold getPhysicalAddress
  split
  · next h => rw [Option.some_inj, eq_comm, ← and_assoc, and_iff_right h]
  · next h =>
    refine ⟨fun hn => (nomatch hn), fun hn => absurd ⟨hn.1, hn.2.1⟩ h⟩

theorem Window.le_getPhysicalAddress {w : Window} {virtualAddress address : Nat}
    (h : w.getPhysicalAddress virtualAddress = some address) :
    w.ramPhysicalBaseAddress ≤ address ∧
      address < w.ramPhysicalBaseAddress + w.ramSize := by
  obtain ⟨h₁, h₂, rfl⟩ := getPhysicalAddress_eq_some.1 h
  omega

/-! ## Descriptors -/

/-- `VirtQueueDesc`. -/
structure VirtQueueDesc where
  address : Nat
  length : Nat
  flags : Nat
  next : Nat
  deriving DecidableEq, Repr

/-- The descriptor that stands at an address. -/
def VirtQueueDesc.read (memory : Memory) (address : Nat) : VirtQueueDesc where
  address := readLe memory 8 address
  length := readLe memory 4 (address + 8)
  flags := readLe memory 2 (address + 12)
  next := readLe memory 2 (address + 14)

/-- `VIRT_QUEUE_DESC_FLAGS_NEXT` is set. -/
def VirtQueueDesc.hasNext (d : VirtQueueDesc) : Bool := d.flags % 2 == 1

/-! ## Queues -/

/-- A used element as it was written: its slot, `VirtQueueUsedElement`, and `used.idx` behind it. -/
structure Published where
  slot : Nat
  id : Nat
  length : Nat
  idx : Nat
  deriving DecidableEq, Repr

/-- `QueueState`. A null pointer is the address 0. -/
structure QueueState where
  queueSize : Nat
  descriptor : Nat
  availRing : Nat
  usedRing : Nat
  lastAvailId : Nat
  usedId : Nat
  taken : Nat
  heads : List Nat
  published : List Published
  accesses : List Access

namespace QueueState

def new : QueueState := ⟨0, 0, 0, 0, 0, 0, 0, [], [], []⟩

/-- Records a range that is read or written. -/
def access (purpose : Purpose) (address length : Nat) : Program QueueState Unit :=
  modify fun q => { q with accesses := ⟨purpose, address, length⟩ :: q.accesses }

def getDescriptor (memory : Memory) (id : Nat) : Program QueueState (Option VirtQueueDesc) := do
  let q ← get
  if q.descriptor ≠ 0 then
    let address ← fits 64 (q.descriptor + 16 * id)
    access .ring address 16
    return some (.read memory address)
  else
    return none

def getDescriptorId (memory : Memory) (id : Nat) : Program QueueState (Option Nat) := do
  let q ← get
  if q.availRing ≠ 0 then
    let address ← fits 64 (q.availRing + 2 * 2 + 2 * id)
    access .ring address 2
    modify fun q => { q with heads := q.heads ++ [readLe memory 2 address] }
    return some (readLe memory 2 address)
  else
    return none

/-- The part of `get_next_avail_id` behind the null checks. -/
def takeNextAvailId (memory : Memory) : Program QueueState (Option Nat) := do
  let q ← get
  access .ring (q.availRing + 2) 2
  if q.lastAvailId = readLe memory 2 (q.availRing + 2) then
    return none
  else
    let next ← rem q.lastAvailId (q.queueSize % 2 ^ 16)
    let lastAvailId ← fits 16 (q.lastAvailId + 1)
    modify fun q => { q with lastAvailId := lastAvailId, taken := q.taken + 1 }
    return some next

def getNextAvailId (memory : Memory) : Program QueueState (Option Nat) := do
  let q ← get
  if q.availRing = 0 ∨ q.queueSize = 0 then
    return none
  else
    takeNextAvailId memory

/-- How the search for the next request ends: there is none, there is one whose descriptor cannot be
read, or there is one. -/
inductive Head where
  | none
  | lost
  | found (descriptorId : Nat) (descriptor : VirtQueueDesc)

/-- How all devices start with a request: `get_next_avail_id`, `get_descriptor_id` and
`get_descriptor`. -/
def takeHead (nextAvailId : Program QueueState (Option Nat)) (memory : Memory) :
    Program QueueState Head := do
  let some id ← nextAvailId | return .none
  let some descriptorId ← getDescriptorId memory id | return .lost
  let some descriptor ← getDescriptor memory descriptorId | return .lost
  return .found descriptorId descriptor

def writeUsed (id length : Nat) : Program QueueState Unit := do
  let q ← get
  let slot ← rem q.usedId (q.queueSize % 2 ^ 16)
  let usedId ← fits 16 (q.usedId + 1)
  modify fun q => { q with usedId := usedId }
  let address ← fits 64 (q.usedRing + 2 * 2 + 8 * slot)
  access .ring address 8
  if q.usedRing = 0 then
    throw .nullPointer
  else
    access .ring (q.usedRing + 2) 2
    modify fun q => { q with published := q.published ++ [⟨slot, id, length, usedId⟩] }

/-- The first multiple of `align` above the address, for a power of two. -/
def roundUpAbove (address align : Nat) : Nat :=
  (address &&& (2 ^ 64 - 1 - (align - 1))) + align

def recomputeRings (pageSize : Nat) : Program QueueState Unit := do
  let q ← get
  let availRing ← fits 64 (q.descriptor + 16 * q.queueSize)
  modify fun q => { q with availRing := availRing }
  let availEnd ← fits 64 (availRing + 2 * (3 + q.queueSize))
  let last ← minus availEnd 1
  let _ ← minus pageSize 1
  let usedRing ← fits 64 (roundUpAbove last pageSize)
  modify fun q => { q with usedRing := usedRing }

def reset : Program QueueState Unit :=
  modify fun q => { q with
    queueSize := 0, descriptor := 0, availRing := 0, usedRing := 0, lastAvailId := 0, usedId := 0,
    taken := 0, heads := [], published := [] }

/-! ## What the functions of a queue do -/

/-- The range has been read or written. -/
def touch (q : QueueState) (purpose : Purpose) (address length : Nat) : QueueState :=
  { q with accesses := ⟨purpose, address, length⟩ :: q.accesses }

/-- `avail.idx`. -/
def availIdx (q : QueueState) (memory : Memory) : Nat := readLe memory 2 (q.availRing + 2)

/-- The guest has published an avail entry that has not been consumed. -/
def Available (q : QueueState) (memory : Memory) : Prop :=
  q.availRing ≠ 0 ∧ q.queueSize ≠ 0 ∧ q.lastAvailId ≠ q.availIdx memory

instance (q : QueueState) (memory : Memory) : Decidable (q.Available memory) :=
  inferInstanceAs (Decidable (_ ∧ _ ∧ _))

/-- The address of the avail entry that is consumed next. -/
def nextEntry (q : QueueState) : Nat :=
  q.availRing + 2 * 2 + 2 * (q.lastAvailId % (q.queueSize % 2 ^ 16))

/-- The head of the request that is consumed next. -/
def nextHead (q : QueueState) (memory : Memory) : Nat := readLe memory 2 q.nextEntry

def descriptorAt (q : QueueState) (memory : Memory) (id : Nat) : VirtQueueDesc :=
  .read memory (q.descriptor + 16 * id)

/-- The first descriptor of the request that is consumed next. -/
def nextDescriptor (q : QueueState) (memory : Memory) : VirtQueueDesc :=
  q.descriptorAt memory (q.nextHead memory)

/-- The queue after a look at `avail.idx`. -/
def polled (q : QueueState) : QueueState := q.touch .ring (q.availRing + 2) 2

/-- The queue after the consumption of an avail entry, before the entry is read. -/
def advanced (q : QueueState) : QueueState :=
  { q.polled with lastAvailId := q.lastAvailId + 1, taken := q.taken + 1 }

/-- The queue after the consumption of an avail entry. -/
def consumed (q : QueueState) (memory : Memory) : QueueState :=
  { q.advanced.touch .ring q.nextEntry 2 with heads := q.heads ++ [q.nextHead memory] }

/-- The queue after the first descriptor of a request was read. -/
def started (q : QueueState) (memory : Memory) : QueueState :=
  (q.consumed memory).touch .ring (q.descriptor + 16 * q.nextHead memory) 16

/-- The address of the used element that is written next. -/
def nextUsed (q : QueueState) : Nat :=
  q.usedRing + 2 * 2 + 8 * (q.usedId % (q.queueSize % 2 ^ 16))

/-- The queue before a used element is written. -/
def reserved (q : QueueState) : QueueState := { q with usedId := q.usedId + 1 }

/-- The queue after a used element was written. -/
def answered (q : QueueState) (id length : Nat) : QueueState :=
  { (q.reserved.touch .ring q.nextUsed 8).touch .ring (q.usedRing + 2) 2 with
    published := q.published ++ [⟨q.usedId % (q.queueSize % 2 ^ 16), id, length, q.usedId + 1⟩] }

section Rules

variable {q : QueueState} {memory : Memory} {fail : Fault → QueueState → Prop}

@[simp] theorem wp_access {purpose : Purpose} {address length : Nat}
    {post : Unit → QueueState → Prop} :
    wp (access purpose address length) fail post q ↔ post () (q.touch purpose address length) :=
  Iff.rfl

theorem wp_getDescriptor {id : Nat} {post : Option VirtQueueDesc → QueueState → Prop}
    (hfound : q.descriptor ≠ 0 → q.descriptor + 16 * id < 2 ^ 64 →
      post (some (q.descriptorAt memory id)) (q.touch .ring (q.descriptor + 16 * id) 16))
    (hnull : q.descriptor = 0 → post none q)
    (hfail : q.descriptor ≠ 0 → ¬q.descriptor + 16 * id < 2 ^ 64 → fail .overflow q) :
    wp (getDescriptor memory id) fail post q := by
  unfold getDescriptor
  simp only [wp_bind, wp_get, wp_ite, wp_fits, wp_access, wp_pure]
  exact ⟨fun h => ⟨hfound h, hfail h⟩, fun h => hnull (not_not.1 h)⟩

/-- The rule for the start of a request, behind the null check of the avail ring. -/
theorem wp_takeHead {post : Head → QueueState → Prop} (havail : q.availRing ≠ 0)
    (hnone : post .none q.polled)
    (hlost : q.Available memory → q.queueSize % 2 ^ 16 ≠ 0 → q.descriptor = 0 →
      post .lost (q.consumed memory))
    (hfound : q.Available memory → q.queueSize % 2 ^ 16 ≠ 0 → q.lastAvailId + 1 < 2 ^ 16 →
      q.descriptor ≠ 0 → post (.found (q.nextHead memory) (q.nextDescriptor memory))
    (q.started memory)) (hdiv : q.lastAvailId ≠ q.availIdx memory → q.queueSize % 2 ^ 16 = 0 →
      fail .divisionByZero q.polled)
    (hlast : q.Available memory → ¬q.lastAvailId + 1 < 2 ^ 16 → fail .overflow q.polled)
    (hentry : q.Available memory → q.queueSize % 2 ^ 16 ≠ 0 → ¬q.nextEntry < 2 ^ 64 →
      fail .overflow q.advanced)
    (htable : q.Available memory → q.queueSize % 2 ^ 16 ≠ 0 →
      ¬q.descriptor + 16 * q.nextHead memory < 2 ^ 64 → fail .overflow (q.consumed memory)) :
    wp (takeHead (takeNextAvailId memory) memory) fail post q := by
  unfold takeHead takeNextAvailId getDescriptorId
  simp only [wp_bind, wp_get, wp_ite, wp_fits, wp_access, wp_pure, wp_rem, wp_modify]
  refine ⟨fun _ => hnone, fun hnew => ⟨hdiv hnew, fun hsize => ?_⟩⟩
  have hav : q.Available memory := ⟨havail, fun h => hsize (by rw [h, Nat.zero_mod]), hnew⟩
  refine ⟨fun hcount => ⟨fun _ => ⟨fun _ => ?_, hentry hav hsize⟩, fun h => absurd havail h⟩,
    hlast hav⟩
  refine wp_getDescriptor ?_ ?_ ?_
  · exact fun hd _ => hfound hav hsize hcount hd
  · exact fun hd => hlost hav hsize hd
  · exact fun _ ho => htable hav hsize ho

theorem takeHead_congr {next next' : Program QueueState (Option Nat)} (h : next q = next' q) :
    takeHead next memory q = takeHead next' memory q := by
  unfold takeHead
  rw [bind_apply, bind_apply, h]

/-- The rule for the start of a request with `QueueState::get_next_avail_id`. -/
theorem wp_takeHead_getNextAvailId {post : Head → QueueState → Prop} (hidle : post .none q)
    (hnone : post .none q.polled)
    (hlost : q.Available memory → q.queueSize % 2 ^ 16 ≠ 0 → q.descriptor = 0 →
      post .lost (q.consumed memory))
    (hfound : q.Available memory → q.queueSize % 2 ^ 16 ≠ 0 → q.lastAvailId + 1 < 2 ^ 16 →
      q.descriptor ≠ 0 → post (.found (q.nextHead memory) (q.nextDescriptor memory))
        (q.started memory))
    (hdiv : q.Available memory → q.queueSize % 2 ^ 16 = 0 → fail .divisionByZero q.polled)
    (hlast : q.Available memory → ¬q.lastAvailId + 1 < 2 ^ 16 → fail .overflow q.polled)
    (hentry : q.Available memory → q.queueSize % 2 ^ 16 ≠ 0 → ¬q.nextEntry < 2 ^ 64 →
      fail .overflow q.advanced)
    (htable : q.Available memory → q.queueSize % 2 ^ 16 ≠ 0 →
      ¬q.descriptor + 16 * q.nextHead memory < 2 ^ 64 → fail .overflow (q.consumed memory)) :
    wp (takeHead (getNextAvailId memory) memory) fail post q := by
  by_cases hnull : q.availRing = 0 ∨ q.queueSize = 0
  · unfold takeHead getNextAvailId
    simp only [wp_bind, wp_get, if_pos hnull, wp_pure]
    exact hidle
  · have hnull' := not_or.1 hnull
    have hnext : getNextAvailId memory q = takeNextAvailId memory q := by
      unfold getNextAvailId
      rw [bind_apply]
      show (if q.availRing = 0 ∨ q.queueSize = 0 then _ else takeNextAvailId memory) q = _
      rw [if_neg hnull]
    unfold wp
    rw [takeHead_congr hnext]
    exact wp_takeHead hnull'.1 hnone hlost hfound
      (fun hnew => hdiv ⟨hnull'.1, hnull'.2, hnew⟩) hlast hentry htable

theorem wp_writeUsed {id length : Nat} {post : Unit → QueueState → Prop}
    (hpost : q.queueSize % 2 ^ 16 ≠ 0 → q.usedId + 1 < 2 ^ 16 → q.usedRing ≠ 0 →
      post () (q.answered id length))
    (hdiv : q.queueSize % 2 ^ 16 = 0 → fail .divisionByZero q)
    (hlast : ¬q.usedId + 1 < 2 ^ 16 → fail .overflow q)
    (helement : q.queueSize % 2 ^ 16 ≠ 0 → ¬q.nextUsed < 2 ^ 64 → fail .overflow q.reserved)
    (hnull : q.queueSize % 2 ^ 16 ≠ 0 → q.usedRing = 0 →
      fail .nullPointer (q.reserved.touch .ring q.nextUsed 8)) :
    wp (writeUsed id length) fail post q := by
  unfold writeUsed
  simp only [wp_bind, wp_get, wp_ite, wp_fits, wp_access, wp_rem, wp_modify, wp_throw]
  exact ⟨hdiv, fun hsize => ⟨fun hlt => ⟨fun _ => ⟨hnull hsize, hpost hsize hlt⟩, helement hsize⟩,
    hlast⟩⟩

end Rules

end QueueState

end MiniVisor.Virtio
