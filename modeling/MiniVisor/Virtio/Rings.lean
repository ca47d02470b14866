import MiniVisor.Virtio.Buffers

/-!
# Rings stay in the RAM of the guest

The rings of a queue are placed by arithmetic on three registers, which the guest may write in any
order: only the address of the descriptor table is translated, the avail ring is behind the table
and the used ring on the next page behind that. With a large queue they lie behind the RAM. With a
queue size but no table they lie at the bottom of the host's memory, and pass the check for a queue
that is not set up. An index of a descriptor is not compared with the size of the queue.

`Placed` says that, whenever a device looks at a queue, its rings lie inside the RAM, and so does
each descriptor that it reads. `rings_inside` says that then no ring or table outside is accessed.
-/

set_option autoImplicit false

namespace MiniVisor.Virtio

open MiniVisor.Lib MiniVisor.Fat

/-! ## Queues inside the RAM -/

namespace QueueState

/-- Both rings lie inside the RAM. -/
def RingsInside (w : Window) (q : QueueState) : Prop :=
  w.Contains q.availRing (4 + 2 * q.queueSize) ∧ w.Contains q.usedRing (4 + 8 * q.queueSize)

/-- A descriptor, if there is a table, lies inside the RAM. -/
def DescriptorInside (w : Window) (q : QueueState) (id : Nat) : Prop :=
  q.descriptor ≠ 0 → w.Contains (q.descriptor + 16 * id) 16

/-- The rings lie inside the RAM if they are looked at, and so does the head of the next request. -/
def HeadInside (w : Window) (memory : Memory) (q : QueueState) : Prop :=
  (q.availRing ≠ 0 → q.queueSize ≠ 0 → q.RingsInside w) ∧
    (q.Available memory → q.DescriptorInside w (q.nextHead memory))

/-- Also the second descriptor of the next request lies inside the RAM. -/
def PairInside (w : Window) (memory : Memory) (q : QueueState) : Prop :=
  q.HeadInside w memory ∧ (q.Available memory → (q.nextDescriptor memory).hasNext = true →
    q.DescriptorInside w (q.nextDescriptor memory).next)

instance (w : Window) (q : QueueState) : Decidable (q.RingsInside w) :=
  inferInstanceAs (Decidable (_ ∧ _))

instance (w : Window) (q : QueueState) (id : Nat) : Decidable (q.DescriptorInside w id) :=
  inferInstanceAs (Decidable (_ → _))

instance (w : Window) (memory : Memory) (q : QueueState) : Decidable (q.HeadInside w memory) :=
  inferInstanceAs (Decidable (_ ∧ _))

instance (w : Window) (memory : Memory) (q : QueueState) : Decidable (q.PairInside w memory) :=
  inferInstanceAs (Decidable (_ ∧ _))

end QueueState

/-- The queue of the block device is looked at whatever its size, and all descriptors of the next
request lie inside the RAM. -/
def VirtioBlkMmio.ChainInside (w : Window) (storage : Storage) (input : Memory × List Memory)
    (b : VirtioBlkMmio) : Prop :=
  (b.queue.availRing ≠ 0 → b.queue.RingsInside w) ∧
    (b.queue.Available input.1 → b.queue.DescriptorInside w (b.queue.nextHead input.1) ∧
      ((b.queue.nextDescriptor input.1).length = 16 →
        (b.queue.nextDescriptor input.1).hasNext = true →
          w.Translated (b.queue.nextDescriptor input.1).address fun address =>
            Throughout (transferData w storage (readLe input.1 4 address == 1))
              (fun _ p b => b.queue.DescriptorInside w p.descriptor.next) input.2
              (firstProgress (b.queue.nextDescriptor input.1) input.1 address)
              (b.opened input.1 address)))

instance (w : Window) (storage : Storage) (input : Memory × List Memory) (b : VirtioBlkMmio) :
    Decidable (b.ChainInside w storage input) :=
  inferInstanceAs (Decidable (_ ∧ _))

/-- The queues that a device looks at when it handles the event lie inside the RAM. -/
def Devices.Placed (h : Host) (d : Devices) : Event → Prop
  | .netWrite offset value memories => decode offset = some .queueNotify → value = 1 →
      Throughout (VirtioNetMmio.transmit h.window h.physicalNet)
        (fun m _ q => q.PairInside h.window m) memories () (d.net.transport.queues 1)
  | .frame memory _ => (d.net.transport.queues 0).HeadInside h.window memory
  | .consoleWrite offset value memories => decode offset = some .queueNotify →
      (value = 1 → Throughout (VirtioConsoleMmio.print h.window)
        (fun m _ q => q.HeadInside h.window m) memories false (d.console.transport.queues 1)) ∧
      (value = 0 → Throughout (VirtioConsoleMmio.receive h.window)
        (fun m acc q => acc.1.length ≠ 0 → q.HeadInside h.window m) memories
        (d.console.rxStaging, false) (d.console.transport.queues 0))
  | .input data memories => Throughout (VirtioConsoleMmio.receive h.window)
      (fun m acc q => acc.1.length ≠ 0 → q.HeadInside h.window m) memories
      ((VirtioConsoleMmio.stage data d.console).rxStaging, false) (d.console.transport.queues 0)
  | .blkWrite offset value backend fuel requests => decode offset = some .queueNotify →
      value = 0 → Throughout (VirtioBlkMmio.request h.window ⟨h.fat32, backend, fuel⟩)
        (fun input _ b => b.ChainInside h.window ⟨h.fat32, backend, fuel⟩ input) requests () d.blk
  | _ => True

instance (h : Host) (d : Devices) : (event : Event) → Decidable (d.Placed h event)
  | .netWrite _ _ _ => inferInstanceAs (Decidable (_ → _ → _))
  | .frame _ _ => inferInstanceAs (Decidable (QueueState.HeadInside _ _ _))
  | .consoleWrite _ _ _ => inferInstanceAs (Decidable (_ → _ ∧ _))
  | .input _ _ => inferInstanceAs (Decidable (Throughout _ _ _ _ _))
  | .blkWrite _ _ _ _ _ => inferInstanceAs (Decidable (_ → _ → _))
  | .netRead _ | .consoleRead _ | .blkRead _ => .isTrue trivial

/-! ## The policy for rings -/

/-- Rings and tables have to be inside the RAM. -/
def ringPolicy (w : Window) : Policy where
  access a := a.purpose = .ring → w.Contains a.address a.length
  fault _ := True
  fuel := trivial

section Policy

variable {w : Window} {q : QueueState} {memory : Memory}

theorem ringPolicy_buffer (address length : Nat) :
    (ringPolicy w).access ⟨.buffer, address, length⟩ :=
  fun h => nomatch h

/-- A part of a range is inside if the range is. -/
theorem Window.Contains.part {address length start n : Nat} (h : w.Contains address length)
    (hstart : address ≤ start) (hend : start + n ≤ address + length) : w.Contains start n :=
  fun a hlow hhigh => h a (by omega) (by omega)

/-- A slot of a ring, a remainder by the lower 16 bits of the size, is below the size. -/
theorem slot_lt (id : Nat) {size : Nat} (hsize : size % 2 ^ 16 ≠ 0) :
    id % (size % 2 ^ 16) + 1 ≤ size := by
  have hlt := Nat.mod_lt id (Nat.pos_of_ne_zero hsize)
  have hle := Nat.mod_le size (2 ^ 16)
  omega

theorem QueueState.RingsInside.answer (h : q.RingsInside w) : q.MayAnswer (ringPolicy w) := by
  refine ⟨fun _ => trivial, fun _ => trivial, fun _ _ => trivial, fun hsize _ => ?_,
    fun _ => trivial, fun _ => ?_⟩
  · have hslot := slot_lt q.usedId hsize
    show w.Contains (q.usedRing + 2 * 2 + 8 * (q.usedId % (q.queueSize % 2 ^ 16))) 8
    exact h.2.part (by omega) (by omega)
  · show w.Contains (q.usedRing + 2) 2
    exact h.2.part (by omega) (by omega)

theorem QueueState.RingsInside.poll (h : q.RingsInside w) :
    (ringPolicy w).access ⟨.ring, q.availRing + 2, 2⟩ := by
  intro _
  show w.Contains (q.availRing + 2) 2
  exact h.1.part (by omega) (by omega)

theorem QueueState.RingsInside.entry (h : q.RingsInside w) (hsize : q.queueSize % 2 ^ 16 ≠ 0) :
    (ringPolicy w).access ⟨.ring, q.nextEntry, 2⟩ := by
  intro _
  have hslot := slot_lt q.lastAvailId hsize
  show w.Contains (q.availRing + 2 * 2 + 2 * (q.lastAvailId % (q.queueSize % 2 ^ 16))) 2
  exact h.1.part (by omega) (by omega)

theorem QueueState.DescriptorInside.may {id : Nat} (h : q.DescriptorInside w id) :
    q.MayRead (ringPolicy w) id :=
  ⟨fun hd _ => h hd, fun _ _ => trivial⟩

theorem QueueState.HeadInside.take (h : q.HeadInside w memory) :
    q.MayTake (ringPolicy w) memory where
  poll havail hsize := (h.1 havail hsize).poll
  size _ _ := trivial
  last _ _ := trivial
  address _ _ _ := trivial
  entry hav hsize := (h.1 hav.1 hav.2.1).entry hsize
  head hav := (h.2 hav).may

theorem QueueState.HeadInside.answer (h : q.HeadInside w memory) (hav : q.Available memory) :
    q.MayAnswer (ringPolicy w) :=
  (h.1 hav.1 hav.2.1).answer

theorem QueueState.PairInside.may {physicalNet : Bool} (h : q.PairInside w memory) :
    VirtioNetMmio.MayTransmit (ringPolicy w) w physicalNet memory q where
  take := h.1.take
  data hav hnext := (h.2 hav hnext).may
  total _ _ _ := trivial
  payload _ _ _ _ _ := ringPolicy_buffer _ _
  answer hav _ := h.1.answer hav

theorem QueueState.HeadInside.mayDeliver {length : Nat} (h : q.HeadInside w memory) :
    VirtioNetMmio.MayDeliver (ringPolicy w) w memory length q where
  take := h.take
  buffer hav _ _ _ := ⟨ringPolicy_buffer _ _, fun _ => trivial, h.answer hav⟩

theorem QueueState.HeadInside.mayPrint (h : q.HeadInside w memory) :
    VirtioConsoleMmio.MayPrint (ringPolicy w) w memory q where
  take := h.take
  buffer hav _ _ := ⟨ringPolicy_buffer _ _, h.answer hav⟩

theorem QueueState.HeadInside.mayReceive {acc : RxStaging × Bool}
    (h : acc.1.length ≠ 0 → q.HeadInside w memory) :
    VirtioConsoleMmio.MayReceive (ringPolicy w) w memory acc q where
  take hsome := (h hsome).take
  buffer hsome hav _ _ _ := ⟨ringPolicy_buffer _ _, (h hsome).answer hav⟩

theorem QueueState.DescriptorInside.mayTransfer {storage : Storage} {p : Progress}
    {b : VirtioBlkMmio} (h : b.queue.DescriptorInside w p.descriptor.next) :
    VirtioBlkMmio.MayTransfer (ringPolicy w) w storage memory p b where
  read := h.may
  status _ _ _ := ⟨ringPolicy_buffer _ _, fun _ => trivial⟩
  total _ _ := trivial
  data _ _ _ := ⟨Or.inl ringPolicy_buffer, Or.inl fun _ => trivial⟩

theorem VirtioBlkMmio.ChainInside.may {storage : Storage} {input : Memory × List Memory}
    {b : VirtioBlkMmio} (h : b.ChainInside w storage input) :
    MayRequest (ringPolicy w) w storage input b where
  null _ := trivial
  poll havail := (h.1 havail).poll
  size _ _ _ := trivial
  take :=
    have hhead : b.queue.HeadInside w input.1 :=
      ⟨fun havail _ => h.1 havail, fun hav => (h.2 hav).1⟩
    hhead.take
  align := trivial
  header _ _ _ _ := ⟨ringPolicy_buffer _ _, ringPolicy_buffer _ _⟩
  answer hav _ _ := (h.1 hav.1).answer
  chain hav hlength hnext address ha :=
    ((h.2 hav).2 hlength hnext address ha).mono fun _ _ _ hs => hs.mayTransfer

end Policy

theorem Devices.Placed.may {h : Host} {d : Devices} {event : Event} (hp : d.Placed h event) :
    d.May (ringPolicy h.window) h event := by
  cases event with
  | netWrite offset value memories =>
    exact ⟨QueueState.mayPlace_of_fault (fun _ => trivial) _ _ _ _ _,
      fun hn hv => (hp hn hv).mono fun _ _ _ hq => hq.may⟩
  | frame memory length => exact QueueState.HeadInside.mayDeliver hp
  | consoleWrite offset value memories =>
    exact ⟨QueueState.mayPlace_of_fault (fun _ => trivial) _ _ _ _ _,
      fun hn hv => ((hp hn).1 hv).mono fun _ _ _ hq => hq.mayPrint,
      fun hn hv => ((hp hn).2 hv).mono fun _ _ _ hq => QueueState.HeadInside.mayReceive hq⟩
  | input data memories =>
    exact Throughout.mono (fun _ _ _ hq => QueueState.HeadInside.mayReceive hq) hp
  | blkWrite offset value backend fuel requests =>
    exact ⟨QueueState.mayPlace_of_fault (fun _ => trivial) _ _ _ _ _,
      fun hn hv => (hp hn hv).mono fun _ _ _ hq => hq.may⟩
  | netRead offset => exact fun _ => trivial
  | consoleRead offset => exact fun _ => trivial
  | blkRead offset => exact fun _ => trivial

/-- **Rings stay in the RAM of the guest.** After every run in which the queues that the devices
look at lie inside the RAM, and after one more such event, whether it is handled or fails, every
byte of a ring or a descriptor table that was read or written lies in the RAM of the VM. -/
theorem rings_inside {h : Host} {events : List Event} {event : Event} {d : Devices}
    (hr : Run Devices.Initial (Devices.Step h (Devices.Placed h)) events d)
    (hp : d.Placed h event) {q : QueueState} (hq : q ∈ (Devices.exec h event d).2.queues)
    {a : Access} (ha : a ∈ q.accesses) (hring : a.purpose = .ring) :
    h.window.Contains a.address a.length := by
  have hd : d.Obeys (ringPolicy h.window) h := Devices.run_obeys (fun _ _ hp => hp.may) hr
  have hlast : wp (Devices.exec h event) (fun _ d' => d'.Obeys (ringPolicy h.window) h)
      (fun _ d' => d'.Obeys (ringPolicy h.window) h) d :=
    wp_mono (Devices.exec_obeys hd hp.may) (fun _ _ hf => hf.2) fun _ _ hd' => hd'
  exact hlast.state.of_mem_queues hq a ha hring

/-- The RX queue has one buffer of 128 bytes. -/
def oneBuffer : Memory :=
  ofBytes [(0x80000202, 1), (0x80000001, 0x20), (0x80000003, 0x40), (0x80000008, 128)]

theorem rings_inside_frame : ∃ d,
    Run Devices.Initial (Devices.Step smallHost (Devices.Placed smallHost)) (placeNetQueue 0) d ∧
      d.Placed smallHost (.frame oneBuffer 64) ∧
      ∃ q ∈ (Devices.exec smallHost (.frame oneBuffer 64) d).2.queues,
        ⟨.ring, 0x80001004, 8⟩ ∈ q.accesses ∧ smallHost.window.Contains 0x80001004 8 := by
  have hcheck : (follow (Devices.perform smallHost fun d e => decide (d.Placed smallHost e))
      smallDevices (placeNetQueue 0)).any (fun d => decide (d.Placed smallHost
        (.frame oneBuffer 64)) && decide (⟨.ring, 0x80001004, 8⟩ ∈ ((Devices.exec smallHost
          (.frame oneBuffer 64) d).2.net.transport.queues 0).accesses)) = true := by
    decide +kernel
  obtain ⟨d, hd, hc⟩ := (Option.any_eq_true _ _).1 hcheck
  rw [Bool.and_eq_true, decide_eq_true_eq, decide_eq_true_eq] at hc
  have hstart : Run Devices.Initial (Devices.Step smallHost (Devices.Placed smallHost)) []
      smallDevices := .start smallDevices_initial
  have hrun := hstart.follow (Devices.step_of_perform fun _ _ h => of_decide_eq_true h) _ hd
  have hmem : (Devices.exec smallHost (.frame oneBuffer 64) d).2.net.transport.queues 0 ∈
      (Devices.exec smallHost (.frame oneBuffer 64) d).2.queues :=
    List.mem_of_getElem? (i := 0) rfl
  exact ⟨d, hrun, hc.1, _, hmem, hc.2, rings_inside hrun hc.1 hmem hc.2 rfl⟩

/-- With a size but no table, the avail ring of a queue is at the bottom of the host's memory, and
it is read when a frame arrives. -/
theorem ring_without_table : ∃ d d',
    Run Devices.Initial (Devices.Step smallHost fun _ _ => True) [.netWrite 0x038 32 []] d ∧
      Devices.Step smallHost (fun _ _ => True) d (.frame (ofBytes []) 64) d' ∧
      ∃ q ∈ d'.queues, ∃ a ∈ q.accesses, a.purpose = .ring ∧
        ¬smallHost.window.Contains a.address a.length := by
  have hcheck : ((follow (Devices.perform smallHost fun _ _ => true) smallDevices
      [.netWrite 0x038 32 []]).bind fun d => Devices.perform smallHost (fun _ _ => true) d
        (.frame (ofBytes []) 64)).any (fun d' =>
          decide (⟨.ring, 0x202, 2⟩ ∈ (d'.net.transport.queues 0).accesses)) = true := by
    decide +kernel
  obtain ⟨d', hd', hc⟩ := (Option.any_eq_true _ _).1 hcheck
  obtain ⟨d, hd, hd'⟩ := Option.bind_eq_some_iff.1 hd'
  have hstart : Run Devices.Initial (Devices.Step smallHost fun _ _ => True) [] smallDevices :=
    .start smallDevices_initial
  exact ⟨d, d', hstart.follow (Devices.step_of_perform fun _ _ _ => trivial) _ hd,
    Devices.step_of_perform (fun _ _ _ => trivial) _ _ _ hd', _,
    List.mem_of_getElem? (i := 0) rfl, _, of_decide_eq_true hc, rfl, by decide⟩

end MiniVisor.Virtio
