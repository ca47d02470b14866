import MiniVisor.Virtio.Policy

/-!
# Buffers stay in the RAM of the guest

A device translates the address of a descriptor and then uses as many bytes behind it as the
descriptor says. The translation looks at the first byte only, so that a buffer which starts near
the end of the RAM reaches into the memory behind it. A read of a file moreover goes by whole
sectors, and starts over with the whole length behind every gap between the clusters of the file.

`Contained` says that the buffers of the requests that a device finds end inside the RAM.
`buffers_inside` says that in every run of such events no byte outside is read or written for a
descriptor, also by a handler that fails.
-/

set_option autoImplicit false

namespace MiniVisor.Virtio

open MiniVisor.Lib MiniVisor.Fat

/-! ## Buffers that end inside the RAM -/

instance (w : Window) (address length : Nat) : Decidable (w.Contains address length) :=
  if hpos : 0 < length then decidable_of_iff _ (Window.contains_iff hpos).symm
  else .isTrue (Nat.eq_zero_of_not_pos hpos ▸ w.contains_zero address)

/-- Whether a link of the chain leads to the adjacent cluster. -/
def linksAdjacent (fs : Fat32) (file : FileInfo) (k : Nat) : Bool :=
  match fs.chain file.entryCluster k with
  | none => true
  | some cluster =>
    match fs.getNextCluster cluster with
    | none => true
    | some next => next == cluster + 1

theorem linksAdjacent_iff {fs : Fat32} {file : FileInfo} {k : Nat} :
    linksAdjacent fs file k = true ↔ ∀ cluster next, fs.chain file.entryCluster k = some cluster →
      fs.getNextCluster cluster = some next → next = cluster + 1 := by
  unfold linksAdjacent
  cases hchain : fs.chain file.entryCluster k with
  | none => exact ⟨fun _ _ _ hc => (by cases hc), fun _ => rfl⟩
  | some cluster =>
    dsimp only
    cases hnext : fs.getNextCluster cluster with
    | none =>
      refine ⟨fun _ c n hc hn => ?_, fun _ => rfl⟩
      cases hc
      cases hnext.symm.trans hn
    | some next =>
      rw [beq_iff_eq]
      refine ⟨fun h c n hc hn => ?_, fun h => h cluster next rfl hnext⟩
      cases hc
      cases hnext.symm.trans hn
      exact h

instance (fs : Fat32) (file : FileInfo) (offset length : Nat) :
    Decidable (fs.Contiguous file offset length) :=
  decidable_of_iff (∀ k < (offset + length - 1) / fs.bytesPerCluster,
      offset / fs.bytesPerCluster ≤ k → linksAdjacent fs file k = true)
    ⟨fun h k hlow hhigh => linksAdjacent_iff.1 (h k hhigh hlow),
      fun h k hhigh hlow => linksAdjacent_iff.2 (h k hlow hhigh)⟩

section Conditions

variable (w : Window)

/-- The buffer for a frame, if it is large enough, ends inside the RAM. -/
def VirtioNetMmio.FrameInside (memory : Memory) (length : Nat) (q : QueueState) : Prop :=
  q.Available memory → 10 + length ≤ (q.nextDescriptor memory).length →
    w.Translated (q.nextDescriptor memory).address fun address => w.Contains address (10 + length)

/-- The payload of the next request, if it is sent, ends inside the RAM. -/
def VirtioNetMmio.PayloadInside (physicalNet : Bool) (memory : Memory) (q : QueueState) : Prop :=
  q.Available memory → (q.nextDescriptor memory).hasNext = true → physicalNet = true →
    w.Translated (q.secondDescriptor memory).address fun address =>
      w.Contains address (q.secondDescriptor memory).length

/-- The output of the next request ends inside the RAM. -/
def VirtioConsoleMmio.OutputInside (memory : Memory) (q : QueueState) : Prop :=
  q.Available memory → w.Translated (q.nextDescriptor memory).address fun address =>
    w.Contains address (q.nextDescriptor memory).length

/-- The sectors for the next descriptor of a request, if it is one for data, are read from adjacent
clusters to, or written from, memory inside the RAM. -/
def VirtioBlkMmio.SectorsInside (storage : Storage) (memory : Memory) (p : Progress)
    (b : VirtioBlkMmio) : Prop :=
  (b.queue.descriptorAt memory p.descriptor.next).hasNext = true →
    w.Translated (b.queue.descriptorAt memory p.descriptor.next).address fun address =>
      storage.fat32.Contiguous b.file p.offset (Fat32.clamped b.file p.offset
          (b.queue.descriptorAt memory p.descriptor.next).length) ∧
        w.Contains address (storage.fat32.span b.file p.offset
          (b.queue.descriptorAt memory p.descriptor.next).length)

/-- The header and the data of the next request end inside the RAM. -/
def VirtioBlkMmio.RequestInside (storage : Storage) (input : Memory × List Memory)
    (b : VirtioBlkMmio) : Prop :=
  b.queue.Available input.1 → (b.queue.nextDescriptor input.1).length = 16 →
    w.Translated (b.queue.nextDescriptor input.1).address fun address =>
      w.Contains address 16 ∧ ((b.queue.nextDescriptor input.1).hasNext = true →
        Throughout (transferData w storage (readLe input.1 4 address == 1))
          (SectorsInside w storage) input.2
          (firstProgress (b.queue.nextDescriptor input.1) input.1 address)
          (b.opened input.1 address))

instance (memory : Memory) (length : Nat) (q : QueueState) :
    Decidable (VirtioNetMmio.FrameInside w memory length q) :=
  inferInstanceAs (Decidable (_ → _ → _))

instance (physicalNet : Bool) (memory : Memory) (q : QueueState) :
    Decidable (VirtioNetMmio.PayloadInside w physicalNet memory q) :=
  inferInstanceAs (Decidable (_ → _ → _ → _))

instance (memory : Memory) (q : QueueState) :
    Decidable (VirtioConsoleMmio.OutputInside w memory q) :=
  inferInstanceAs (Decidable (_ → _))

instance (storage : Storage) (memory : Memory) (p : Progress) (b : VirtioBlkMmio) :
    Decidable (VirtioBlkMmio.SectorsInside w storage memory p b) :=
  inferInstanceAs (Decidable (_ → _))

instance (storage : Storage) (input : Memory × List Memory) (b : VirtioBlkMmio) :
    Decidable (VirtioBlkMmio.RequestInside w storage input b) :=
  inferInstanceAs (Decidable (_ → _ → _))

end Conditions

namespace Devices

/-- The buffers of the requests that a device finds when it handles the event end inside the
RAM. -/
def Contained (h : Host) (d : Devices) : Event → Prop
  | .netWrite offset value memories => decode offset = some .queueNotify → value = 1 →
      Throughout (VirtioNetMmio.transmit h.window h.physicalNet)
        (fun m _ q => VirtioNetMmio.PayloadInside h.window h.physicalNet m q) memories ()
        (d.net.transport.queues 1)
  | .frame memory length =>
    VirtioNetMmio.FrameInside h.window memory length (d.net.transport.queues 0)
  | .consoleWrite offset value memories => decode offset = some .queueNotify → value = 1 →
      Throughout (VirtioConsoleMmio.print h.window)
        (fun m _ q => VirtioConsoleMmio.OutputInside h.window m q) memories false
        (d.console.transport.queues 1)
  | .blkWrite offset value backend fuel requests => decode offset = some .queueNotify →
      value = 0 → Throughout (VirtioBlkMmio.request h.window ⟨h.fat32, backend, fuel⟩)
        (fun input _ b => b.RequestInside h.window ⟨h.fat32, backend, fuel⟩ input) requests ()
        d.blk
  | _ => True

instance (h : Host) (d : Devices) (event : Event) : Decidable (d.Contained h event) := by
  unfold Contained
  cases event <;> infer_instance

/-- All queues. -/
def queues (d : Devices) : List QueueState :=
  [d.net.transport.queues 0, d.net.transport.queues 1, d.console.transport.queues 0,
    d.console.transport.queues 1, d.blk.queue]

theorem Obeys.of_mem_queues {P : Policy} {h : Host} {d : Devices} (hd : d.Obeys P h)
    {q : QueueState} (hq : q ∈ d.queues) : q.Obeys P := by
  simp only [queues, List.mem_cons, List.not_mem_nil, or_false] at hq
  rcases hq with rfl | rfl | rfl | rfl | rfl
  · exact hd.net 0
  · exact hd.net 1
  · exact hd.console 0
  · exact hd.console 1
  · exact hd.blk.1

end Devices

/-! ## The policy for buffers -/

/-- Buffers have to be inside the RAM. -/
def bufferPolicy (w : Window) : Policy where
  access a := a.purpose = .buffer → w.Contains a.address a.length
  fault _ := True
  fuel := trivial

section Policy

variable {w : Window} {q : QueueState} {memory : Memory}

theorem bufferPolicy_ring (address length : Nat) :
    (bufferPolicy w).access ⟨.ring, address, length⟩ :=
  fun h => nomatch h

/-- The first byte of a translated buffer is inside the RAM. -/
theorem bufferPolicy_byte {virtualAddress address : Nat}
    (h : w.getPhysicalAddress virtualAddress = some address) :
    (bufferPolicy w).access ⟨.buffer, address, 1⟩ := by
  obtain ⟨hlow, hhigh⟩ := Window.le_getPhysicalAddress h
  exact fun _ => Window.contains_of_le hlow hhigh

theorem mayRead_bufferPolicy (id : Nat) : q.MayRead (bufferPolicy w) id :=
  ⟨fun _ => bufferPolicy_ring _ _, fun _ _ => trivial⟩

theorem mayTake_bufferPolicy : q.MayTake (bufferPolicy w) memory :=
  ⟨fun _ _ => bufferPolicy_ring _ _, fun _ _ => trivial, fun _ _ => trivial, fun _ _ _ => trivial,
    fun _ _ => bufferPolicy_ring _ _, fun _ => mayRead_bufferPolicy _⟩

theorem mayAnswer_bufferPolicy : q.MayAnswer (bufferPolicy w) :=
  ⟨fun _ => trivial, fun _ => trivial, fun _ _ => trivial, fun _ => bufferPolicy_ring _ _,
    fun _ => trivial, bufferPolicy_ring _ _⟩

theorem VirtioNetMmio.PayloadInside.may {physicalNet : Bool}
    (h : PayloadInside w physicalNet memory q) :
    MayTransmit (bufferPolicy w) w physicalNet memory q where
  take := mayTake_bufferPolicy
  data _ _ := mayRead_bufferPolicy _
  total _ _ _ := trivial
  payload hav hnext hnet address ha := fun _ => h hav hnext hnet address ha
  answer _ _ := mayAnswer_bufferPolicy

theorem VirtioNetMmio.FrameInside.may {length : Nat} (h : FrameInside w memory length q) :
    MayDeliver (bufferPolicy w) w memory length q where
  take := mayTake_bufferPolicy
  buffer hav hlength address ha :=
    ⟨fun _ => h hav hlength address ha, fun _ => trivial, mayAnswer_bufferPolicy⟩

theorem VirtioConsoleMmio.OutputInside.may (h : OutputInside w memory q) :
    MayPrint (bufferPolicy w) w memory q where
  take := mayTake_bufferPolicy
  buffer hav address ha := ⟨fun _ => h hav address ha, mayAnswer_bufferPolicy⟩

/-- Input is written byte by byte, which needs no condition. -/
theorem VirtioConsoleMmio.mayReceive_bufferPolicy {acc : RxStaging × Bool} :
    MayReceive (bufferPolicy w) w memory acc q where
  take _ := mayTake_bufferPolicy
  buffer _ _ _ _ ha := ⟨bufferPolicy_byte ha, mayAnswer_bufferPolicy⟩

theorem VirtioBlkMmio.SectorsInside.may {storage : Storage} {p : Progress} {b : VirtioBlkMmio}
    (h : SectorsInside w storage memory p b) :
    MayTransfer (bufferPolicy w) w storage memory p b where
  read := mayRead_bufferPolicy _
  status _ _ ha := ⟨bufferPolicy_byte ha, fun _ => trivial⟩
  total _ _ := trivial
  data hnext address ha := by
    obtain ⟨hcontiguous, hinside⟩ := h hnext address ha
    exact ⟨Or.inr ⟨hcontiguous, fun n hn _ => hinside.mono hn⟩, Or.inl fun _ => trivial⟩

theorem VirtioBlkMmio.RequestInside.may {storage : Storage} {input : Memory × List Memory}
    {b : VirtioBlkMmio} (h : b.RequestInside w storage input) :
    MayRequest (bufferPolicy w) w storage input b where
  null _ := trivial
  poll _ := bufferPolicy_ring _ _
  size _ _ _ := trivial
  take := mayTake_bufferPolicy
  align := trivial
  header hav hlength address ha := by
    have hinside := (h hav hlength address ha).1
    refine ⟨fun _ => hinside.mono (show 4 ≤ 16 by decide), fun _ a hlow hhigh => ?_⟩
    dsimp only at hlow hhigh
    exact hinside a (by omega) (by omega)
  answer _ _ _ := mayAnswer_bufferPolicy
  chain hav hlength hnext address ha :=
    ((h hav hlength address ha).2 hnext).mono fun _ _ _ hs => hs.may

end Policy

theorem Devices.Contained.may {h : Host} {d : Devices} {event : Event} (hc : d.Contained h event) :
    d.May (bufferPolicy h.window) h event := by
  cases event with
  | netWrite offset value memories =>
    exact ⟨QueueState.mayPlace_of_fault (fun _ => trivial) _ _ _ _ _,
      fun hn hv => (hc hn hv).mono fun _ _ _ hp => hp.may⟩
  | frame memory length => exact VirtioNetMmio.FrameInside.may hc
  | consoleWrite offset value memories =>
    exact ⟨QueueState.mayPlace_of_fault (fun _ => trivial) _ _ _ _ _,
      fun hn hv => (hc hn hv).mono fun _ _ _ hp => hp.may,
      fun _ _ => throughout_of_forall _
        (fun _ _ _ _ => VirtioConsoleMmio.mayReceive_bufferPolicy) _ _⟩
  | input data memories =>
    exact throughout_of_forall _ (fun _ _ _ _ => VirtioConsoleMmio.mayReceive_bufferPolicy) _ _
  | blkWrite offset value backend fuel requests =>
    exact ⟨QueueState.mayPlace_of_fault (fun _ => trivial) _ _ _ _ _,
      fun hn hv => (hc hn hv).mono fun _ _ _ hp => hp.may⟩
  | netRead offset => exact fun _ => trivial
  | consoleRead offset => exact fun _ => trivial
  | blkRead offset => exact fun _ => trivial

/-- **Buffers stay in the RAM of the guest.** After every run in which the buffers that the devices
find end inside the RAM, and after one more such event, whether it is handled or fails, every byte
that was read or written for a descriptor lies in the RAM of the VM. -/
theorem buffers_inside {h : Host} {events : List Event} {event : Event} {d : Devices}
    (hr : Run Devices.Initial (Devices.Step h (Devices.Contained h)) events d)
    (hc : d.Contained h event) {q : QueueState} (hq : q ∈ (Devices.exec h event d).2.queues)
    {a : Access} (ha : a ∈ q.accesses) (hbuffer : a.purpose = .buffer) :
    h.window.Contains a.address a.length := by
  have hd : d.Obeys (bufferPolicy h.window) h :=
    Devices.run_obeys (fun _ _ hc => hc.may) hr
  have hlast : wp (Devices.exec h event) (fun _ d' => d'.Obeys (bufferPolicy h.window) h)
      (fun _ d' => d'.Obeys (bufferPolicy h.window) h) d :=
    wp_mono (Devices.exec_obeys hd hc.may) (fun _ _ hf => hf.2) fun _ _ hd' => hd'
  exact hlast.state.of_mem_queues hq a ha hbuffer

/-- The guest places the TX queue of the console, with 32 entries, at the start of its RAM. -/
def placeConsoleQueue : List Event :=
  [.consoleWrite 0x030 1 [], .consoleWrite 0x038 32 [], .consoleWrite 0x040 0x40000 []]

/-- The TX queue has one request, with an address in the last page of the RAM. -/
def lastPage (offset length : UInt8) : Memory :=
  ofBytes [(0x80000202, 1), (0x80000000, offset), (0x80000001, 0xFF), (0x80000003, 0x40),
    (0x80000008, length)]

theorem buffers_inside_console : ∃ d,
    Run Devices.Initial (Devices.Step smallHost (Devices.Contained smallHost)) placeConsoleQueue d ∧
      d.Contained smallHost (.consoleWrite 0x050 1 [lastPage 0xFE 2, lastPage 0xFE 2]) ∧
      ∃ q ∈ (Devices.exec smallHost
        (.consoleWrite 0x050 1 [lastPage 0xFE 2, lastPage 0xFE 2]) d).2.queues,
        ⟨.buffer, 0x8000FFFE, 2⟩ ∈ q.accesses ∧ smallHost.window.Contains 0x8000FFFE 2 := by
  have hcheck : (follow (Devices.perform smallHost fun d e => decide (d.Contained smallHost e))
      smallDevices placeConsoleQueue).any (fun d => decide (d.Contained smallHost
        (.consoleWrite 0x050 1 [lastPage 0xFE 2, lastPage 0xFE 2])) &&
          decide (⟨.buffer, 0x8000FFFE, 2⟩ ∈ ((Devices.exec smallHost
            (.consoleWrite 0x050 1 [lastPage 0xFE 2, lastPage 0xFE 2])
              d).2.console.transport.queues 1).accesses)) = true := by
    decide +kernel
  obtain ⟨d, hd, hc⟩ := (Option.any_eq_true _ _).1 hcheck
  rw [Bool.and_eq_true, decide_eq_true_eq, decide_eq_true_eq] at hc
  have hstart : Run Devices.Initial (Devices.Step smallHost (Devices.Contained smallHost)) []
      smallDevices := .start smallDevices_initial
  have hrun := hstart.follow (Devices.step_of_perform fun _ _ h => of_decide_eq_true h) _ hd
  have hmem : (Devices.exec smallHost (.consoleWrite 0x050 1 [lastPage 0xFE 2, lastPage 0xFE 2])
      d).2.console.transport.queues 1 ∈ (Devices.exec smallHost
        (.consoleWrite 0x050 1 [lastPage 0xFE 2, lastPage 0xFE 2]) d).2.queues :=
    List.mem_of_getElem? (i := 3) rfl
  exact ⟨d, hrun, hc.1, _, hmem, hc.2, buffers_inside hrun hc.1 hmem hc.2 rfl⟩

/-- The last byte of the RAM is translated, and the byte behind it is printed with it. -/
theorem output_outside : ∃ d d',
    Run Devices.Initial (Devices.Step smallHost fun _ _ => True) placeConsoleQueue d ∧
      Devices.Step smallHost (fun _ _ => True) d
        (.consoleWrite 0x050 1 [lastPage 0xFF 2, lastPage 0xFF 2]) d' ∧
      ∃ q ∈ d'.queues, ∃ a ∈ q.accesses, a.purpose = .buffer ∧
        ¬smallHost.window.Contains a.address a.length := by
  have hcheck : ((follow (Devices.perform smallHost fun _ _ => true) smallDevices
      placeConsoleQueue).bind fun d => Devices.perform smallHost (fun _ _ => true) d
        (.consoleWrite 0x050 1 [lastPage 0xFF 2, lastPage 0xFF 2])).any (fun d' =>
          decide (⟨.buffer, 0x8000FFFF, 2⟩ ∈ (d'.console.transport.queues 1).accesses)) = true := by
    decide +kernel
  obtain ⟨d', hd', hc⟩ := (Option.any_eq_true _ _).1 hcheck
  obtain ⟨d, hd, hd'⟩ := Option.bind_eq_some_iff.1 hd'
  have hstart : Run Devices.Initial (Devices.Step smallHost fun _ _ => True) [] smallDevices :=
    .start smallDevices_initial
  refine ⟨d, d', hstart.follow (Devices.step_of_perform fun _ _ _ => trivial) _ hd,
    Devices.step_of_perform (fun _ _ _ => trivial) _ _ _ hd', _,
    List.mem_of_getElem? (i := 3) rfl, _, of_decide_eq_true hc, rfl, by decide⟩

end MiniVisor.Virtio
