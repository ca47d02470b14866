import MiniVisor.Fat.Sound
import MiniVisor.Lib.Transition
import MiniVisor.Virtio.Device

/-!
# What the handlers touch, and how they fail

A policy says which ranges of host memory the devices may access, and which faults may happen.
For each handler, a condition on the state before it (`MayTake`, `MayTransmit`, …, `Devices.May`)
lists the ranges and the faults that it can come to there: the next entry of the avail ring, the
descriptors of the request, the buffers that they describe, and the used element.

`Devices.exec_obeys` says that a handler whose list is allowed by the policy obeys the policy,
whether it returns or fails. What the confinement of buffers, the confinement of rings and the
absence of faults ask of the guest follows from it with three policies.
-/

set_option autoImplicit false

namespace MiniVisor.Virtio

open MiniVisor.Lib MiniVisor.Fat

/-- The ranges of host memory that may be accessed, and the faults that may happen. A loop of the
model may always run out of fuel. -/
structure Policy where
  access : Access → Prop
  fault : Fault → Prop
  fuel : fault .outOfFuel

/-- An address, if it is translated, is translated to one with a property. -/
def Window.Translated (w : Window) (virtualAddress : Nat) (Q : Nat → Prop) : Prop :=
  ∀ address, w.getPhysicalAddress virtualAddress = some address → Q address

instance (w : Window) (virtualAddress : Nat) (Q : Nat → Prop) [DecidablePred Q] :
    Decidable (w.Translated virtualAddress Q) :=
  match h : w.getPhysicalAddress virtualAddress with
  | none => .isTrue fun _ ha => nomatch h.symm.trans ha
  | some address => decidable_of_iff (Q address)
      ⟨fun hq _ ha => Option.some.inj (h.symm.trans ha) ▸ hq, fun hq => hq address h⟩

/-! ## Queues -/

namespace QueueState

variable (P : Policy)

/-- All accesses so far are allowed. -/
def Obeys (q : QueueState) : Prop := ∀ a ∈ q.accesses, P.access a

/-- A descriptor may be read. -/
structure MayRead (q : QueueState) (id : Nat) : Prop where
  table : q.descriptor ≠ 0 → P.access ⟨.ring, q.descriptor + 16 * id, 16⟩
  address : q.descriptor ≠ 0 → ¬q.descriptor + 16 * id < 2 ^ 64 → P.fault .overflow

/-- The next request may be taken. -/
structure MayTake (q : QueueState) (memory : Memory) : Prop where
  poll : q.availRing ≠ 0 → q.queueSize ≠ 0 → P.access ⟨.ring, q.availRing + 2, 2⟩
  size : q.Available memory → q.queueSize % 2 ^ 16 = 0 → P.fault .divisionByZero
  last : q.Available memory → ¬q.lastAvailId + 1 < 2 ^ 16 → P.fault .overflow
  address : q.Available memory → q.queueSize % 2 ^ 16 ≠ 0 → ¬q.nextEntry < 2 ^ 64 →
    P.fault .overflow
  entry : q.Available memory → q.queueSize % 2 ^ 16 ≠ 0 → P.access ⟨.ring, q.nextEntry, 2⟩
  head : q.Available memory → q.MayRead P (q.nextHead memory)

/-- A used element may be written. -/
structure MayAnswer (q : QueueState) : Prop where
  size : q.queueSize % 2 ^ 16 = 0 → P.fault .divisionByZero
  last : ¬q.usedId + 1 < 2 ^ 16 → P.fault .overflow
  address : q.queueSize % 2 ^ 16 ≠ 0 → ¬q.nextUsed < 2 ^ 64 → P.fault .overflow
  element : q.queueSize % 2 ^ 16 ≠ 0 → P.access ⟨.ring, q.nextUsed, 8⟩
  null : q.usedRing = 0 → P.fault .nullPointer
  idx : P.access ⟨.ring, q.usedRing + 2, 2⟩

/-- The rings can be computed: the page size is not zero, and they end below the end of the address
space. -/
def Placeable (q : QueueState) (pageSize : Nat) : Prop :=
  1 ≤ pageSize ∧ q.descriptor + 16 * q.queueSize + 2 * (3 + q.queueSize) < 2 ^ 64 ∧
    roundUpAbove (q.descriptor + 16 * q.queueSize + 2 * (3 + q.queueSize) - 1) pageSize < 2 ^ 64

instance (q : QueueState) (pageSize : Nat) : Decidable (q.Placeable pageSize) :=
  inferInstanceAs (Decidable (_ ∧ _ ∧ _))

def MayRecompute (q : QueueState) (pageSize : Nat) : Prop :=
  ¬q.Placeable pageSize → P.fault .overflow

/-- The table and the used ring are where they were, and no used element was written. -/
def SameRings (q q' : QueueState) : Prop :=
  q'.queueSize = q.queueSize ∧ q'.descriptor = q.descriptor ∧ q'.usedRing = q.usedRing ∧
    q'.usedId = q.usedId

variable {P} {q : QueueState} {memory : Memory}

theorem MayAnswer.of_sameRings {q' : QueueState} (h : q.MayAnswer P) (hs : q.SameRings q') :
    q'.MayAnswer P := by
  obtain ⟨hsize, -, hused, hid⟩ := hs
  have hnext : q'.nextUsed = q.nextUsed := by
    unfold nextUsed
    rw [hsize, hused, hid]
  refine ⟨?_, ?_, ?_, ?_, ?_, ?_⟩
  · rw [hsize]; exact h.size
  · rw [hid]; exact h.last
  · rw [hnext, hsize]; exact h.address
  · rw [hnext, hsize]; exact h.element
  · rw [hused]; exact h.null
  · rw [hused]; exact h.idx

theorem Obeys.touch {purpose : Purpose} {address length : Nat} (h : q.Obeys P)
    (ha : P.access ⟨purpose, address, length⟩) : (q.touch purpose address length).Obeys P := by
  intro a hmem
  rcases List.mem_cons.1 hmem with rfl | hmem
  · exact ha
  · exact h a hmem

theorem Obeys.consumed (h : q.Obeys P) (hmay : q.MayTake P memory) (hav : q.Available memory)
    (hsize : q.queueSize % 2 ^ 16 ≠ 0) : (q.consumed memory).Obeys P :=
  Obeys.touch (q := q.polled) (h.touch (hmay.poll hav.1 hav.2.1)) (hmay.entry hav hsize)

theorem getDescriptor_obeys {id : Nat} {post : Option VirtQueueDesc → QueueState → Prop}
    (h : q.Obeys P) (hmay : q.MayRead P id) (hnull : q.descriptor = 0 → post none q)
    (hfound : q.descriptor ≠ 0 →
      (q.touch .ring (q.descriptor + 16 * id) 16).Obeys P →
        post (some (q.descriptorAt memory id)) (q.touch .ring (q.descriptor + 16 * id) 16)) :
    wp (getDescriptor memory id) (fun fault q' => P.fault fault ∧ q'.Obeys P) post q := by
  refine wp_getDescriptor (fun hd _ => hfound hd (h.touch (hmay.table hd))) hnull ?_
  exact fun hd ho => ⟨hmay.address hd ho, h⟩

/-- How a request that was taken begins. -/
def Taken (P : Policy) (q : QueueState) (memory : Memory) (head : Head) (q' : QueueState) : Prop :=
  q'.Obeys P ∧ ∀ id d, head = .found id d →
    q.Available memory ∧ q.descriptor ≠ 0 ∧ d = q.nextDescriptor memory ∧ q' = q.started memory

theorem taken_started (h : q.Obeys P) (hmay : q.MayTake P memory) (hav : q.Available memory)
    (hsize : q.queueSize % 2 ^ 16 ≠ 0) (hd : q.descriptor ≠ 0) :
    q.Taken P memory (.found (q.nextHead memory) (q.nextDescriptor memory)) (q.started memory) := by
  refine ⟨(h.consumed hmay hav hsize).touch ((hmay.head hav).table hd), fun id d hfound => ?_⟩
  cases hfound
  exact ⟨hav, hd, rfl, rfl⟩

theorem taken_of_not_found {head : Head} {q' : QueueState} (h : q'.Obeys P)
    (hhead : ∀ id d, head ≠ .found id d) : q.Taken P memory head q' :=
  ⟨h, fun id d hfound => absurd hfound (hhead id d)⟩

theorem takeHead_obeys (h : q.Obeys P) (hmay : q.MayTake P memory) :
    wp (takeHead (getNextAvailId memory) memory) (fun fault q' => P.fault fault ∧ q'.Obeys P)
      (q.Taken P memory) q := by
  by_cases hidle : q.availRing = 0 ∨ q.queueSize = 0
  · -- Nothing is looked at in a queue that is not set up.
    unfold takeHead getNextAvailId
    simp only [wp_bind, wp_get, if_pos hidle, wp_pure]
    exact taken_of_not_found h fun _ _ hno => by cases hno
  have hpolled : q.polled.Obeys P :=
    h.touch (hmay.poll (not_or.1 hidle).1 (not_or.1 hidle).2)
  refine wp_takeHead_getNextAvailId (taken_of_not_found h fun _ _ hno => by cases hno)
    (taken_of_not_found hpolled fun _ _ hno => by cases hno) ?_ ?_ ?_ ?_ ?_ ?_
  · exact fun hav hsize _ =>
      taken_of_not_found (h.consumed hmay hav hsize) fun _ _ hno => by cases hno
  · exact fun hav hsize _ hd => taken_started h hmay hav hsize hd
  · exact fun hav hsize => ⟨hmay.size hav hsize, hpolled⟩
  · exact fun hav hlast => ⟨hmay.last hav hlast, hpolled⟩
  · exact fun hav hsize haddress => ⟨hmay.address hav hsize haddress, hpolled⟩
  · intro hav hsize haddress
    refine ⟨?_, h.consumed hmay hav hsize⟩
    by_cases hd : q.descriptor = 0
    · -- A head is a word of 16 bits, so that a table at address zero does not overflow.
      have hhead := readLe_lt memory 2 q.nextEntry
      rw [hd] at haddress
      unfold nextHead at haddress
      omega
    · exact (hmay.head hav).address hd haddress

theorem writeUsed_obeys {id length : Nat} (h : q.Obeys P) (hmay : q.MayAnswer P) :
    wp (writeUsed id length) (fun fault q' => P.fault fault ∧ q'.Obeys P)
      (fun _ q' => q'.Obeys P) q := by
  have hreserved : q.reserved.Obeys P := h
  refine wp_writeUsed ?_ ?_ ?_ ?_ ?_
  · exact fun hsize _ _ => (hreserved.touch (hmay.element hsize)).touch hmay.idx
  · exact fun hsize => ⟨hmay.size hsize, h⟩
  · exact fun hlast => ⟨hmay.last hlast, h⟩
  · exact fun hsize haddress => ⟨hmay.address hsize haddress, h⟩
  · exact fun hsize hnull => ⟨hmay.null hnull, hreserved.touch (hmay.element hsize)⟩

theorem recomputeRings_obeys {pageSize : Nat} (h : q.Obeys P) (hmay : q.MayRecompute P pageSize) :
    wp (recomputeRings pageSize) (fun fault q' => P.fault fault ∧ q'.Obeys P)
      (fun _ q' => q'.Obeys P) q := by
  unfold recomputeRings
  simp only [wp_bind, wp_get, wp_fits, wp_modify, wp_minus]
  refine ⟨fun _ => ⟨fun _ => ⟨fun _ => ⟨fun _ => ⟨fun _ => h, ?_⟩, ?_⟩, ?_⟩, ?_⟩, ?_⟩
  · exact fun hno => ⟨hmay fun hp => hno hp.2.2, h⟩
  · exact fun hno => ⟨hmay fun hp => hno hp.1, h⟩
  · exact fun hno => absurd (by omega) hno
  · exact fun hno => ⟨hmay fun hp => hno hp.2.1, h⟩
  · refine fun hno => ⟨hmay fun hp => hno ?_, h⟩
    have hfits := hp.2.1
    omega

theorem sameRings_started (q : QueueState) (memory : Memory) : q.SameRings (q.started memory) :=
  ⟨rfl, rfl, rfl, rfl⟩

theorem SameRings.touch {q' : QueueState} {purpose : Purpose} {address length : Nat}
    (h : q.SameRings q') : q.SameRings (q'.touch purpose address length) :=
  h

/-- The second descriptor of the request that is taken next. -/
def secondDescriptor (q : QueueState) (memory : Memory) : VirtQueueDesc :=
  q.descriptorAt memory (q.nextDescriptor memory).next

end QueueState

/-! ## The loops of the devices -/

section Loops

variable (P : Policy) (w : Window)

namespace VirtioNetMmio

/-- A frame may be delivered. -/
structure MayDeliver (memory : Memory) (length : Nat) (q : QueueState) : Prop where
  take : q.MayTake P memory
  buffer : q.Available memory → 10 + length ≤ (q.nextDescriptor memory).length →
    w.Translated (q.nextDescriptor memory).address fun address =>
      P.access ⟨.buffer, address, 10 + length⟩ ∧ (¬address + 10 < 2 ^ 64 → P.fault .overflow) ∧
        q.MayAnswer P

/-- A request of the TX queue may be processed. -/
structure MayTransmit (physicalNet : Bool) (memory : Memory) (q : QueueState) : Prop where
  take : q.MayTake P memory
  data : q.Available memory → (q.nextDescriptor memory).hasNext = true →
    q.MayRead P (q.nextDescriptor memory).next
  total : q.Available memory → (q.nextDescriptor memory).hasNext = true →
    ¬(q.nextDescriptor memory).length + (q.secondDescriptor memory).length < 2 ^ 32 →
      P.fault .overflow
  payload : q.Available memory → (q.nextDescriptor memory).hasNext = true → physicalNet = true →
    w.Translated (q.secondDescriptor memory).address fun address =>
      P.access ⟨.buffer, address, (q.secondDescriptor memory).length⟩
  answer : q.Available memory → (q.nextDescriptor memory).hasNext = true → q.MayAnswer P

variable {P w} {memory : Memory} {q : QueueState}

theorem deliver_obeys {length : Nat} (h : q.Obeys P) (hmay : MayDeliver P w memory length q) :
    wp (deliver w memory length) (fun fault q' => P.fault fault ∧ q'.Obeys P)
      (fun _ q' => q'.Obeys P) q := by
  unfold deliver
  rw [wp_bind]
  refine wp_mono (QueueState.takeHead_obeys h hmay.take) (fun _ _ hf => hf) fun head q₁ ht => ?_
  cases head with
  | none => exact ht.1
  | lost => exact ht.1
  | found id d =>
    obtain ⟨hav, -, rfl, rfl⟩ := ht.2 id d rfl
    simp only [wp_ite, wp_pure]
    refine ⟨fun _ => ht.1, fun hlength => ?_⟩
    split
    · exact ht.1
    · next address haddress =>
      obtain ⟨hbuffer, hsum, hanswer⟩ := hmay.buffer hav (Nat.not_lt.1 hlength) address haddress
      simp only [wp_bind, wp_fits, QueueState.wp_access]
      refine ⟨fun _ => ?_, fun hno => ⟨hsum hno, ht.1⟩⟩
      exact QueueState.writeUsed_obeys (ht.1.touch hbuffer)
        (hanswer.of_sameRings (QueueState.sameRings_started _ _).touch)

theorem send_obeys {physicalNet : Bool} {d : VirtQueueDesc} (h : q.Obeys P)
    (hmay : physicalNet = true → w.Translated d.address fun address =>
      P.access ⟨.buffer, address, d.length⟩) :
    wp (send w physicalNet d) (fun fault q' => P.fault fault ∧ q'.Obeys P)
      (fun _ q' => q'.Obeys P ∧ q.SameRings q') q := by
  unfold send
  split
  · next address haddress =>
    rw [wp_ite]
    refine ⟨fun hnet => ⟨h.touch (hmay hnet address haddress), ?_⟩, fun _ => ⟨h, ?_⟩⟩
    · exact ⟨rfl, rfl, rfl, rfl⟩
    · exact ⟨rfl, rfl, rfl, rfl⟩
  · exact ⟨h, rfl, rfl, rfl, rfl⟩

theorem transmit_obeys {physicalNet : Bool} (h : q.Obeys P)
    (hmay : MayTransmit P w physicalNet memory q) :
    wp (transmit w physicalNet memory ()) (fun fault q' => P.fault fault ∧ q'.Obeys P)
      (Flow.Meets (fun _ q' => q'.Obeys P) fun _ q' => q'.Obeys P) q := by
  unfold transmit
  rw [wp_bind]
  refine wp_mono (QueueState.takeHead_obeys h hmay.take) (fun _ _ hf => hf) fun head q₁ ht => ?_
  cases head with
  | none => exact ht.1
  | lost => exact ht.1
  | found id header =>
    obtain ⟨hav, hd, rfl, rfl⟩ := ht.2 id header rfl
    simp only [wp_ite, wp_pure, wp_bind]
    refine ⟨fun _ => ht.1, fun hnext => ?_⟩
    have hnext' := Bool.not_eq_false _ ▸ hnext
    have hdata := hmay.data hav hnext'
    refine QueueState.getDescriptor_obeys ht.1 ⟨hdata.table, hdata.address⟩ (fun _ => ht.1)
      fun _ hq => ?_
    simp only [wp_bind, wp_fits]
    refine ⟨fun _ => ?_, fun hno => ⟨hmay.total hav hnext' hno, hq⟩⟩
    refine wp_mono (send_obeys hq (hmay.payload hav hnext')) (fun _ _ hf => hf)
      fun _ q₂ hq₂ => ?_
    exact QueueState.writeUsed_obeys hq₂.1
      ((hmay.answer hav hnext').of_sameRings ⟨hq₂.2.1, hq₂.2.2.1, hq₂.2.2.2.1, hq₂.2.2.2.2⟩)

end VirtioNetMmio

namespace VirtioConsoleMmio

/-- A staged byte may be delivered. -/
structure MayReceive (memory : Memory) (acc : RxStaging × Bool) (q : QueueState) : Prop where
  take : acc.1.length ≠ 0 → q.MayTake P memory
  buffer : acc.1.length ≠ 0 → q.Available memory → (q.nextDescriptor memory).length ≠ 0 →
    w.Translated (q.nextDescriptor memory).address fun address =>
      P.access ⟨.buffer, address, 1⟩ ∧ q.MayAnswer P

/-- A request of the TX queue may be processed. -/
structure MayPrint (memory : Memory) (q : QueueState) : Prop where
  take : q.MayTake P memory
  buffer : q.Available memory → w.Translated (q.nextDescriptor memory).address fun address =>
    P.access ⟨.buffer, address, (q.nextDescriptor memory).length⟩ ∧ q.MayAnswer P

variable {P w} {memory : Memory} {q : QueueState}

theorem receive_obeys {acc : RxStaging × Bool} (h : q.Obeys P)
    (hmay : MayReceive P w memory acc q) :
    wp (receive w memory acc) (fun fault q' => P.fault fault ∧ q'.Obeys P)
      (Flow.Meets (fun _ q' => q'.Obeys P) fun _ q' => q'.Obeys P) q := by
  unfold receive
  rw [wp_ite]
  refine ⟨fun _ => h, fun hsome => ?_⟩
  rw [wp_bind]
  refine wp_mono (QueueState.takeHead_obeys h (hmay.take hsome)) (fun _ _ hf => hf)
    fun head q₁ ht => ?_
  cases head with
  | none => exact ht.1
  | lost => exact ht.1
  | found id d =>
    obtain ⟨hav, -, rfl, rfl⟩ := ht.2 id d rfl
    simp only [wp_ite, wp_pure]
    refine ⟨fun _ => ht.1, fun hlength => ?_⟩
    split
    · exact ht.1
    · next address haddress =>
      obtain ⟨hbuffer, hanswer⟩ := hmay.buffer hsome hav hlength address haddress
      simp only [wp_bind, QueueState.wp_access]
      exact QueueState.writeUsed_obeys (ht.1.touch hbuffer)
        (hanswer.of_sameRings (QueueState.sameRings_started _ _).touch)

theorem print_obeys {handled : Bool} (h : q.Obeys P) (hmay : MayPrint P w memory q) :
    wp (print w memory handled) (fun fault q' => P.fault fault ∧ q'.Obeys P)
      (Flow.Meets (fun _ q' => q'.Obeys P) fun _ q' => q'.Obeys P) q := by
  unfold print
  rw [wp_bind]
  refine wp_mono (QueueState.takeHead_obeys h hmay.take) (fun _ _ hf => hf) fun head q₁ ht => ?_
  cases head with
  | none => exact ht.1
  | lost => exact ht.1
  | found id d =>
    obtain ⟨hav, -, rfl, rfl⟩ := ht.2 id d rfl
    dsimp only
    split
    · exact ht.1
    · next address haddress =>
      obtain ⟨hbuffer, hanswer⟩ := hmay.buffer hav address haddress
      simp only [wp_bind, QueueState.wp_access]
      exact QueueState.writeUsed_obeys (ht.1.touch hbuffer)
        (hanswer.of_sameRings (QueueState.sameRings_started _ _).touch)

end VirtioConsoleMmio

namespace VirtioBlkMmio

/-- A call of `Fat32` may be made: its sectors, if it touches adjacent clusters, are allowed, or all
buffers are; and it does not fail, or all faults are allowed. -/
structure MayAccess (fs : Fat32) (file : FileInfo) (address offset length : Nat) : Prop where
  buffer : (∀ start n, P.access ⟨.buffer, start, n⟩) ∨
    (fs.Contiguous file offset (Fat32.clamped file offset length) ∧
      ∀ n ≤ fs.span file offset length, P.access ⟨.buffer, address, n⟩)
  fault : (∀ fault, P.fault fault) ∨
    (address ≤ 2 ^ 63 ∧ offset + length < 2 ^ 64 ∧ fs.Sound file)

/-- The status of a request may be written. -/
def MayFinish (d : VirtQueueDesc) (totalSize : Nat) : Prop :=
  w.Translated d.address fun address =>
    P.access ⟨.buffer, address, 1⟩ ∧ (¬totalSize + d.length < 2 ^ 32 → P.fault .overflow)

/-- The next descriptor of a request may be processed. -/
structure MayTransfer (storage : Storage) (memory : Memory) (p : Progress)
    (b : VirtioBlkMmio) : Prop where
  read : b.queue.MayRead P p.descriptor.next
  status : (b.queue.descriptorAt memory p.descriptor.next).hasNext = false →
    MayFinish P w (b.queue.descriptorAt memory p.descriptor.next) p.totalSize
  total : (b.queue.descriptorAt memory p.descriptor.next).hasNext = true →
    ¬p.totalSize + (b.queue.descriptorAt memory p.descriptor.next).length < 2 ^ 32 →
      P.fault .overflow
  data : (b.queue.descriptorAt memory p.descriptor.next).hasNext = true →
    w.Translated (b.queue.descriptorAt memory p.descriptor.next).address fun address =>
      MayAccess P storage.fat32 b.file address p.offset
        (b.queue.descriptorAt memory p.descriptor.next).length

/-- The device after the header of the next request was read. -/
def opened (b : VirtioBlkMmio) (memory : Memory) (address : Nat) : VirtioBlkMmio :=
  { b with
    queue := ((b.queue.started memory).touch .buffer address 4).touch .buffer (address + 8) 8 }

/-- The locals of a request at its first descriptor behind the header. -/
def firstProgress (header : VirtQueueDesc) (memory : Memory) (address : Nat) : Progress :=
  ⟨header, 0, readLe memory 8 (address + 8) * 2 ^ 9 % 2 ^ 64, 0⟩

/-- The next request may be processed. -/
structure MayRequest (storage : Storage) (input : Memory × List Memory)
    (b : VirtioBlkMmio) : Prop where
  null : b.queue.availRing = 0 → P.fault .nullPointer
  poll : b.queue.availRing ≠ 0 → P.access ⟨.ring, b.queue.availRing + 2, 2⟩
  size : b.queue.availRing ≠ 0 → b.queue.lastAvailId ≠ b.queue.availIdx input.1 →
    b.queue.queueSize % 2 ^ 16 = 0 → P.fault .divisionByZero
  take : b.queue.MayTake P input.1
  align : P.fault .misaligned
  header : b.queue.Available input.1 → (b.queue.nextDescriptor input.1).length = 16 →
    w.Translated (b.queue.nextDescriptor input.1).address fun address =>
      P.access ⟨.buffer, address, 4⟩ ∧ P.access ⟨.buffer, address + 8, 8⟩
  answer : b.queue.Available input.1 → (b.queue.nextDescriptor input.1).length = 16 →
    (b.queue.nextDescriptor input.1).hasNext = true → b.queue.MayAnswer P
  chain : b.queue.Available input.1 → (b.queue.nextDescriptor input.1).length = 16 →
    (b.queue.nextDescriptor input.1).hasNext = true →
    w.Translated (b.queue.nextDescriptor input.1).address fun address =>
      Throughout (transferData w storage (readLe input.1 4 address == 1))
        (MayTransfer P w storage) input.2
        (firstProgress (b.queue.nextDescriptor input.1) input.1 address)
        (b.opened input.1 address)

/-- The queue obeys the policy, and the hint is valid. -/
def Obeys (fs : Fat32) (b : VirtioBlkMmio) : Prop :=
  b.queue.Obeys P ∧ fs.HintOk b.file b.walkHint

variable {P w} {memory : Memory} {q : QueueState} {storage : Storage} {b : VirtioBlkMmio}

theorem takeHead_obeys (h : q.Obeys P) (hnull : q.availRing = 0 → P.fault .nullPointer)
    (hpoll : q.availRing ≠ 0 → P.access ⟨.ring, q.availRing + 2, 2⟩)
    (hsize : q.availRing ≠ 0 → q.lastAvailId ≠ q.availIdx memory → q.queueSize % 2 ^ 16 = 0 →
      P.fault .divisionByZero) (hmay : q.MayTake P memory) :
    wp (QueueState.takeHead (getNextAvailId memory) memory)
      (fun fault q' => P.fault fault ∧ q'.Obeys P) (q.Taken P memory) q := by
  by_cases havail : q.availRing = 0
  · unfold QueueState.takeHead getNextAvailId
    simp only [wp_bind, wp_get, if_pos havail, wp_throw]
    exact ⟨hnull havail, h⟩
  -- From here on the device does what the others do, but for a queue of size zero.
  by_cases hzero : q.queueSize = 0
  · have hpolled : q.polled.Obeys P := h.touch (hpoll havail)
    have hnot : ¬q.Available memory := fun hav => hav.2.1 hzero
    refine wp_takeHead_getNextAvailId
      (QueueState.taken_of_not_found hpolled fun _ _ hno => by cases hno) ?_ ?_ ?_ ?_ ?_ ?_ ?_
    · exact fun hav _ _ => absurd hav hnot
    · exact fun hav _ _ _ => absurd hav hnot
    · exact fun hav => absurd hav havail
    · exact fun _ hnew hmod => ⟨hsize havail hnew hmod, hpolled⟩
    · exact fun hav _ => absurd hav hnot
    all_goals exact fun hav _ _ => absurd hav hnot
  · have hshared := QueueState.takeHead_obeys h hmay
    have hnext : getNextAvailId memory q = QueueState.getNextAvailId memory q := by
      unfold getNextAvailId QueueState.getNextAvailId
      rw [bind_apply, bind_apply]
      show (if q.availRing = 0 then _ else QueueState.takeNextAvailId memory) q =
        (if q.availRing = 0 ∨ q.queueSize = 0 then _ else QueueState.takeNextAvailId memory) q
      rw [if_neg havail, if_neg (not_or.2 ⟨havail, hzero⟩)]
    unfold wp at hshared ⊢
    rw [QueueState.takeHead_congr hnext]
    exact hshared

theorem purpose_of_mem_buffers {effects : List Effect} {a : Access} (ha : a ∈ buffers effects) :
    a.purpose = .buffer := by
  induction effects with
  | nil => cases ha
  | cons e rest ih =>
    cases e with
    | bounce t => exact ih ha
    | direct t =>
      rcases List.mem_append.1 ha with ha | ha
      · exact ih ha
      · rw [List.mem_singleton.1 ha]
    | copy address length =>
      rcases List.mem_append.1 ha with ha | ha
      · exact ih ha
      · rw [List.mem_singleton.1 ha]

/-- The buffers of effects that stay in a range are in the range. -/
theorem stays_of_mem_buffers {effects : List Effect} {a : Access} {address n : Nat}
    (hstays : ∀ e ∈ effects, Fat32.Stays address n e) (ha : a ∈ buffers effects) :
    a.address = address ∧ a.length ≤ n := by
  induction effects with
  | nil => cases ha
  | cons e rest ih =>
    have hrest := ih fun e' he' => hstays e' (List.mem_cons_of_mem _ he')
    have he := hstays e List.mem_cons_self
    cases e with
    | bounce t => exact hrest ha
    | direct t =>
      rcases List.mem_append.1 ha with ha | ha
      · exact hrest ha
      · rw [List.mem_singleton.1 ha]
        exact he
    | copy address length =>
      rcases List.mem_append.1 ha with ha | ha
      · exact hrest ha
      · rw [List.mem_singleton.1 ha]
        exact he

theorem MayAccess.confines {isWrite : Bool} {dev : Backend} {fs : Fat32} {file : FileInfo}
    {fuel address offset length walkHint : Nat}
    (hmay : MayAccess P fs file address offset length) (haddress : address < 2 ^ 64)
    (hhint : fs.HintOk file walkHint) :
    wp (fs.access isWrite file dev fuel address offset length)
      (fun _ c => ∀ a ∈ buffers c.effects, P.access a)
      (fun _ c => ∀ a ∈ buffers c.effects, P.access a) ⟨walkHint, []⟩ := by
  have hbuffer : ∀ (c : Call), ∀ a ∈ buffers c.effects, a = ⟨.buffer, a.address, a.length⟩ := by
    intro c a ha
    rw [← purpose_of_mem_buffers ha]
  rcases hmay.buffer with hall | ⟨hcontiguous, hspan⟩
  · have hfree : ∀ (c : Call), ∀ a ∈ buffers c.effects, P.access a := fun c a ha =>
      hbuffer c a ha ▸ hall _ _
    exact wp_of_forall (fun _ => hfree) fun _ => hfree
  · have hstays : ∀ c, Fat32.Done address (fs.span file offset length) c →
        ∀ a ∈ buffers c.effects, P.access a := by
      intro c hdone a ha
      obtain ⟨rfl, hle⟩ := stays_of_mem_buffers hdone ha
      exact hbuffer c a ha ▸ hspan _ hle
    exact wp_mono (Fat32.access_contiguous haddress hhint hcontiguous fun _ he => nomatch he)
      (fun _ => hstays) fun _ => hstays

theorem MayAccess.faults {isWrite : Bool} {dev : Backend} {fs : Fat32} {file : FileInfo}
    {fuel address offset length walkHint : Nat}
    (hmay : MayAccess P fs file address offset length) (hhint : fs.HintOk file walkHint) :
    wp (fs.access isWrite file dev fuel address offset length)
      (fun fault _ => P.fault fault) (fun _ _ => True) ⟨walkHint, []⟩ := by
  rcases hmay.fault with hall | ⟨haddress, hsum, hsound⟩
  · exact wp_of_forall (fun fault _ => hall fault) fun _ _ => trivial
  · refine wp_mono (Fat32.access_sound haddress hsum hsound hhint) (fun _ _ hf => ?_)
      fun _ _ _ => trivial
    exact hf.1 ▸ P.fuel

theorem onFile_obeys {isWrite : Bool} {address offset length : Nat}
    (h : b.Obeys P storage.fat32) (haddress : address < 2 ^ 64)
    (hmay : MayAccess P storage.fat32 b.file address offset length) :
    wp (onFile (storage.fat32.access isWrite b.file storage.backend storage.fuel address offset
        length)) (fun fault b' => P.fault fault ∧ b'.Obeys P storage.fat32)
      (fun _ b' => b'.Obeys P storage.fat32 ∧ b.queue.SameRings b'.queue) b := by
  have hqueue : ∀ c : Call, (∀ a ∈ buffers c.effects, P.access a) →
      QueueState.Obeys P { b.queue with accesses := buffers c.effects ++ b.queue.accesses } := by
    intro c hbuffers a ha
    rcases List.mem_append.1 ha with ha | ha
    · exact hbuffers a ha
    · exact h.1 a ha
  rw [onFile, wp_zoom]
  refine wp_mono (wp_and (Fat32.access_hint ⟨b.walkHint, []⟩ h.2)
    (wp_and (hmay.confines haddress h.2) (hmay.faults h.2))) (fun fault c hc => ?_)
    fun _ c hc => ?_
  · exact ⟨hc.2.2, hqueue c hc.2.1, hc.1⟩
  · exact ⟨⟨hqueue c hc.2.1, hc.1⟩, rfl, rfl, rfl, rfl⟩

/-- The sum of the offset and the length does not overflow, or the policy allows that. -/
theorem MayAccess.overflow {fs : Fat32} {file : FileInfo} {address offset length : Nat}
    (hmay : MayAccess P fs file address offset length) (hno : ¬offset + length < 2 ^ 64) :
    P.fault .overflow := by
  rcases hmay.fault with hall | hsum
  · exact hall _
  · exact absurd hsum.2.1 hno

/-- What the loop over the descriptors of a request keeps. -/
def InChain (P : Policy) (fs : Fat32) (b b' : VirtioBlkMmio) : Prop :=
  b'.Obeys P fs ∧ b.queue.SameRings b'.queue

theorem transferData_obeys {isWrite : Bool} {p : Progress} {b₀ : VirtioBlkMmio}
    (h : InChain P storage.fat32 b₀ b) (hmay : MayTransfer P w storage memory p b) :
    wp (transferData w storage isWrite memory p)
      (fun fault b' => P.fault fault ∧ b'.Obeys P storage.fat32)
      (Flow.Meets (fun _ => InChain P storage.fat32 b₀) fun result b' =>
        InChain P storage.fat32 b₀ b' ∧
          ∀ p', result = some p' → MayFinish P w p'.descriptor p'.totalSize) b := by
  unfold transferData
  rw [wp_bind, onQueue, wp_zoom]
  have hfail : ∀ {x : Program QueueState (Option VirtQueueDesc)}
      {post : Option VirtQueueDesc → QueueState → Prop},
      wp x (fun fault q' => P.fault fault ∧ q'.Obeys P) post b.queue →
        wp x (fun fault q' => P.fault fault ∧
          VirtioBlkMmio.Obeys P storage.fat32 { b with queue := q' }) post b.queue :=
    fun hx => wp_mono hx (fun _ _ hf => ⟨hf.1, hf.2, h.1.2⟩) fun _ _ hpost => hpost
  refine hfail (QueueState.getDescriptor_obeys h.1.1 hmay.read ?_ fun _ hq => ?_)
  · exact fun _ => ⟨h, fun p' hp' => by cases hp'⟩
  have hread : InChain P storage.fat32 b₀ { b with
      queue := b.queue.touch .ring (b.queue.descriptor + 16 * p.descriptor.next) 16 } :=
    ⟨⟨hq, h.1.2⟩, h.2⟩
  simp only [wp_ite, wp_pure, wp_bind, wp_fits]
  refine ⟨fun hlast => ⟨hread, fun p' hp' => ?_⟩, fun hnext => ?_⟩
  · cases hp'
    exact hmay.status hlast
  have hnext' := Bool.not_eq_false _ ▸ hnext
  refine ⟨fun _ => ?_, fun hno => ⟨hmay.total hnext' hno, hread.1⟩⟩
  split
  · exact hread
  · next address haddress =>
    have hfits : address < 2 ^ 64 :=
      (Window.le_getPhysicalAddress haddress).2.trans w.physical_fits
    have hdata := hmay.data hnext' address haddress
    simp only [wp_bind, wp_get]
    refine wp_mono (onFile_obeys hread.1 hfits hdata) (fun _ _ hf => hf) fun result b' hb' => ?_
    simp only [wp_fits, wp_pure]
    refine ⟨fun _ => ⟨hb'.1, ?_⟩, fun hno => ⟨hdata.overflow hno, hb'.1⟩⟩
    obtain ⟨h₁, h₂, h₃, h₄⟩ := hread.2
    obtain ⟨h₁', h₂', h₃', h₄'⟩ := hb'.2
    exact ⟨h₁'.trans h₁, h₂'.trans h₂, h₃'.trans h₃, h₄'.trans h₄⟩

theorem writeStatus_obeys {p : Progress} {b₀ : VirtioBlkMmio} {fs : Fat32}
    (h : InChain P fs b₀ b) (hmay : MayFinish P w p.descriptor p.totalSize) :
    wp (writeStatus w p) (fun fault b' => P.fault fault ∧ b'.Obeys P fs)
      (fun _ => InChain P fs b₀) b := by
  unfold writeStatus
  split
  · next address haddress =>
    obtain ⟨hbyte, hsum⟩ := hmay address haddress
    simp only [wp_bind, onQueue, wp_zoom, QueueState.wp_access, wp_modify, wp_fits]
    have hobeys : (b.queue.touch .buffer address 1).Obeys P := h.1.1.touch hbyte
    exact ⟨fun _ => ⟨⟨hobeys, h.1.2⟩, h.2⟩, fun hno => ⟨hsum hno, hobeys, h.1.2⟩⟩
  · exact h

theorem complete_obeys {isWrite : Bool} {id : Nat} {memories : List Memory} {p : Progress}
    (h : b.Obeys P storage.fat32) (hanswer : b.queue.MayAnswer P)
    (hmay : Throughout (transferData w storage isWrite) (MayTransfer P w storage) memories p b) :
    wp (complete w storage isWrite id memories p)
      (fun fault b' => P.fault fault ∧ b'.Obeys P storage.fat32)
      (Flow.Meets (fun _ b' => b'.Obeys P storage.fat32)
        fun _ b' => b'.Obeys P storage.fat32) b := by
  have hloop : wp (loop (transferData w storage isWrite) memories p)
      (fun fault b' => P.fault fault ∧ b'.Obeys P storage.fat32)
      (fun result b' => InChain P storage.fat32 b b' ∧
        ∀ p', result = some p' → MayFinish P w p'.descriptor p'.totalSize) b :=
    wp_loop (I := fun _ => InChain P storage.fat32 b) (fun _ _ hb => ⟨P.fuel, hb.1⟩)
      (fun _ _ _ hb hm => transferData_obeys hb hm) memories p b ⟨h, rfl, rfl, rfl, rfl⟩ hmay
  unfold complete
  rw [wp_bind]
  refine wp_mono hloop (fun _ _ hf => hf) fun result b₁ hb₁ => ?_
  cases result with
  | none => exact hb₁.1.1
  | some p' =>
    simp only [wp_bind]
    refine wp_mono (writeStatus_obeys hb₁.1 (hb₁.2 p' rfl)) (fun _ _ hf => hf)
      fun totalSize b₂ hb₂ => ?_
    simp only [onQueue, wp_zoom]
    exact wp_mono (QueueState.writeUsed_obeys hb₂.1.1 (hanswer.of_sameRings hb₂.2))
      (fun _ _ hf => ⟨hf.1, hf.2, hb₂.1.2⟩) fun _ _ hq => ⟨hq, hb₂.1.2⟩

theorem request_obeys {input : Memory × List Memory} (h : b.Obeys P storage.fat32)
    (hmay : MayRequest P w storage input b) :
    wp (request w storage input ()) (fun fault b' => P.fault fault ∧ b'.Obeys P storage.fat32)
      (Flow.Meets (fun _ b' => b'.Obeys P storage.fat32)
        fun _ b' => b'.Obeys P storage.fat32) b := by
  unfold request
  rw [wp_bind, onQueue, wp_zoom]
  refine wp_mono (takeHead_obeys h.1 hmay.null hmay.poll hmay.size hmay.take)
    (fun _ _ hf => ⟨hf.1, hf.2, h.2⟩) fun head q₁ ht => ?_
  cases head with
  | none => exact ⟨ht.1, h.2⟩
  | lost => exact ⟨ht.1, h.2⟩
  | found id header =>
    obtain ⟨hav, -, rfl, rfl⟩ := ht.2 id header rfl
    simp only [wp_ite, wp_pure]
    refine ⟨fun _ => ⟨ht.1, h.2⟩, fun hlength => ?_⟩
    have hlength' := not_not.1 hlength
    split
    · exact ⟨ht.1, h.2⟩
    · next address haddress =>
      obtain ⟨htype, hsector⟩ := hmay.header hav hlength' address haddress
      have hopened : (b.opened input.1 address).Obeys P storage.fat32 :=
        ⟨(ht.1.touch htype).touch hsector, h.2⟩
      simp only [wp_bind, onQueue, wp_zoom, QueueState.wp_access, wp_ite, wp_pure, wp_throw]
      refine ⟨fun _ => ⟨hmay.align, ht.1, h.2⟩, fun _ => ⟨fun _ => hopened, fun hnext => ?_⟩⟩
      have hnext' := Bool.not_eq_false _ ▸ hnext
      have hanswer : (b.opened input.1 address).queue.MayAnswer P :=
        (hmay.answer hav hlength' hnext').of_sameRings
          (QueueState.sameRings_started _ _).touch.touch
      have hchain := hmay.chain hav hlength' hnext' address haddress
      exact complete_obeys hopened hanswer hchain

end VirtioBlkMmio

end Loops

/-! ## The devices -/

/-- A register that holds a part of the place of a queue may be written. -/
def QueueState.MayPlace (P : Policy) (w : Window) (q : QueueState) (pageSize : Nat)
    (value : BitVec 64) : Option Register → Prop
  | some .queueNum => MayRecompute P { q with queueSize := value.toNat } pageSize
  | some .queuePfn => (¬value.toNat * pageSize < 2 ^ 64 → P.fault .overflow) ∧
      w.Translated (value.toNat * pageSize) fun address =>
        MayRecompute P { q with descriptor := address } pageSize
  | _ => True

/-- A policy that does not mind faults lets the registers be written in any order. -/
theorem QueueState.mayPlace_of_fault {P : Policy} (hfault : ∀ fault, P.fault fault) (w : Window)
    (q : QueueState) (pageSize : Nat) (value : BitVec 64) (register : Option Register) :
    q.MayPlace P w pageSize value register := by
  unfold MayPlace
  split
  · exact fun _ => hfault _
  · exact ⟨fun _ => hfault _, fun _ _ _ => hfault _⟩
  · trivial

namespace Transport

variable {P : Policy} {w : Window} {t : Transport}

def Obeys (P : Policy) (t : Transport) : Prop := ∀ i, (t.queues i).Obeys P

theorem Obeys.setQueue (h : t.Obeys P) {i : Fin 2} {q : QueueState} (hq : q.Obeys P) :
    (t.setQueue i q).Obeys P := by
  intro j
  show QueueState.Obeys P (if j = i then q else t.queues j)
  split
  · exact hq
  · exact h j

/-- A program that makes a queue obey makes the device obey. -/
theorem onQueue_obeys {α : Type} {i : Fin 2} {x : Program QueueState α} (h : t.Obeys P)
    (hx : wp x (fun fault q => P.fault fault ∧ q.Obeys P) (fun _ q => q.Obeys P) (t.queues i)) :
    wp (onQueue i x) (fun fault t' => P.fault fault ∧ t'.Obeys P) (fun _ t' => t'.Obeys P) t := by
  rw [onQueue, wp_zoom]
  exact wp_mono hx (fun _ _ hf => ⟨hf.1, h.setQueue hf.2⟩) fun _ _ hq => h.setQueue hq

theorem write_obeys {register : Option Register} {value : BitVec 64} (h : t.Obeys P)
    (hmay : (t.queues t.queueSel).MayPlace P w t.pageSize value register) :
    wp (write w register value) (fun fault t' => P.fault fault ∧ t'.Obeys P)
      (fun _ t' => t'.Obeys P) t := by
  unfold write
  rw [wp_bind, wp_get]
  split
  · exact h
  · exact h
  · split <;> exact h
  · refine onQueue_obeys h ?_
    rw [wp_bind, wp_modify]
    exact QueueState.recomputeRings_obeys (h t.queueSel) hmay
  · rw [wp_bind, wp_fits]
    refine ⟨fun _ => ?_, fun hno => ⟨hmay.1 hno, h⟩⟩
    split
    · next address haddress =>
      refine onQueue_obeys h ?_
      rw [wp_bind, wp_modify]
      exact QueueState.recomputeRings_obeys (h t.queueSel) (hmay.2 address haddress)
    · exact h
  · exact h
  · rw [wp_ite]
    refine ⟨fun _ => ?_, fun _ => h⟩
    simp only [wp_bind, wp_modify, onQueue, wp_zoom, QueueState.reset]
    have hfirst := h.setQueue (i := 0) (q := { t.queues 0 with
      queueSize := 0, descriptor := 0, availRing := 0, usedRing := 0, lastAvailId := 0, usedId := 0,
      taken := 0, heads := [], published := [] }) (h 0)
    exact Obeys.setQueue hfirst (hfirst 1)
  · exact h

end Transport

namespace VirtioNetMmio

variable {P : Policy} {w : Window} {physicalNet : Bool} {n : VirtioNetMmio}

theorem processTx_obeys {memories : List Memory} {t : Transport} (h : t.Obeys P)
    (hmay : Throughout (transmit w physicalNet) (fun m _ q => MayTransmit P w physicalNet m q)
      memories () (t.queues 1)) :
    wp (processTx w physicalNet memories) (fun fault t' => P.fault fault ∧ t'.Obeys P)
      (fun _ t' => t'.Obeys P) t := by
  have hloop : wp (loop (transmit w physicalNet) memories ())
      (fun fault q' => P.fault fault ∧ q'.Obeys P) (fun _ q' => q'.Obeys P) (t.queues 1) :=
    wp_loop (I := fun _ q => q.Obeys P) (fun _ _ hq => ⟨P.fuel, hq⟩)
      (fun _ _ _ hq hm => transmit_obeys hq hm) memories () _ (h 1) hmay
  unfold processTx
  rw [wp_bind]
  refine wp_mono (Transport.onQueue_obeys h hloop) (fun _ _ hf => hf) fun result t' ht' => ?_
  cases result <;> exact ht'

theorem pushRx_obeys {memory : Memory} {length : Nat} (h : n.transport.Obeys P)
    (hmay : MayDeliver P w memory length (n.transport.queues 0)) :
    wp (pushRx w memory length) (fun fault n' => P.fault fault ∧ n'.transport.Obeys P)
      (fun _ n' => n'.transport.Obeys P) n := by
  unfold pushRx
  rw [onTransport, wp_zoom, wp_bind]
  refine wp_mono (Transport.onQueue_obeys h (deliver_obeys (h 0) hmay)) (fun _ _ hf => hf)
    fun delivered t' ht' => ?_
  rw [wp_ite]
  exact ⟨fun _ => ht', fun _ => ht'⟩

/-- A register may be written. -/
structure MayWrite (P : Policy) (w : Window) (physicalNet : Bool) (offset : Nat)
    (value : BitVec 64) (memories : List Memory) (n : VirtioNetMmio) : Prop where
  place : (n.transport.queues n.transport.queueSel).MayPlace P w n.transport.pageSize value
    (decode offset)
  notify : decode offset = some .queueNotify → value = 1 → Throughout (transmit w physicalNet)
    (fun m _ q => MayTransmit P w physicalNet m q) memories () (n.transport.queues 1)

theorem write_obeys {offset : Nat} {value : BitVec 64} {memories : List Memory}
    (h : n.transport.Obeys P) (hmay : MayWrite P w physicalNet offset value memories n) :
    wp (write w physicalNet offset value memories)
      (fun fault n' => P.fault fault ∧ n'.transport.Obeys P)
      (fun _ n' => n'.transport.Obeys P) n := by
  unfold write
  rw [onTransport, wp_zoom]
  split
  · next hnotify =>
    rw [wp_ite]
    exact ⟨fun hvalue => processTx_obeys h (hmay.notify hnotify hvalue), fun _ => h⟩
  · exact Transport.write_obeys h hmay.place

end VirtioNetMmio

namespace VirtioConsoleMmio

variable {P : Policy} {w : Window} {c : VirtioConsoleMmio} {memories : List Memory}

theorem onQueue_obeys {α : Type} {i : Fin 2} {x : Program QueueState α}
    (h : c.transport.Obeys P)
    (hx : wp x (fun fault q => P.fault fault ∧ q.Obeys P) (fun _ q => q.Obeys P)
      (c.transport.queues i)) :
    wp (onQueue i x) (fun fault c' => P.fault fault ∧ c'.transport.Obeys P)
      (fun _ c' => c'.transport.Obeys P) c := by
  rw [onQueue, onTransport, wp_zoom]
  exact Transport.onQueue_obeys h hx

theorem flushRx_obeys (h : c.transport.Obeys P)
    (hmay : Throughout (receive w) (MayReceive P w) memories (c.rxStaging, false)
      (c.transport.queues 0)) :
    wp (flushRx w memories) (fun fault c' => P.fault fault ∧ c'.transport.Obeys P)
      (fun _ c' => c'.transport.Obeys P) c := by
  have hloop : wp (loop (receive w) memories (c.rxStaging, false))
      (fun fault q' => P.fault fault ∧ q'.Obeys P) (fun _ q' => q'.Obeys P)
      (c.transport.queues 0) :=
    wp_loop (I := fun _ q => q.Obeys P) (fun _ _ hq => ⟨P.fuel, hq⟩)
      (fun _ _ _ hq hm => receive_obeys hq hm) memories _ _ (h 0) hmay
  unfold flushRx
  rw [wp_bind, wp_get, wp_bind]
  refine wp_mono (onQueue_obeys h hloop) (fun _ _ hf => hf) fun result c' hc' => ?_
  cases result with
  | none => exact hc'
  | some acc =>
    simp only [wp_bind, wp_modify, wp_ite, onTransport, wp_zoom, wp_pure]
    exact ⟨fun _ => hc', fun _ => hc'⟩

theorem pushRx_obeys {data : UInt8} (h : c.transport.Obeys P)
    (hmay : Throughout (receive w) (MayReceive P w) memories ((stage data c).rxStaging, false)
      (c.transport.queues 0)) :
    wp (pushRx w data memories) (fun fault c' => P.fault fault ∧ c'.transport.Obeys P)
      (fun _ c' => c'.transport.Obeys P) c := by
  unfold pushRx
  rw [wp_bind, wp_modify]
  exact flushRx_obeys (c := stage data c) h hmay

theorem processTx_obeys (h : c.transport.Obeys P)
    (hmay : Throughout (print w) (fun m _ q => MayPrint P w m q) memories false
      (c.transport.queues 1)) :
    wp (processTx w memories) (fun fault c' => P.fault fault ∧ c'.transport.Obeys P)
      (fun _ c' => c'.transport.Obeys P) c := by
  have hloop : wp (loop (print w) memories false)
      (fun fault q' => P.fault fault ∧ q'.Obeys P) (fun _ q' => q'.Obeys P)
      (c.transport.queues 1) :=
    wp_loop (I := fun _ q => q.Obeys P) (fun _ _ hq => ⟨P.fuel, hq⟩)
      (fun _ _ _ hq hm => print_obeys hq hm) memories _ _ (h 1) hmay
  unfold processTx
  rw [wp_bind]
  refine wp_mono (onQueue_obeys h hloop) (fun _ _ hf => hf) fun result c' hc' => ?_
  rcases result with _ | ⟨_ | _⟩
  · exact hc'
  · exact hc'
  · exact (wp_zoom _).2 hc'

/-- A register may be written. -/
structure MayWrite (P : Policy) (w : Window) (offset : Nat) (value : BitVec 64)
    (memories : List Memory) (c : VirtioConsoleMmio) : Prop where
  place : (c.transport.queues c.transport.queueSel).MayPlace P w c.transport.pageSize value
    (decode offset)
  transmit : decode offset = some .queueNotify → value = 1 → Throughout (print w)
    (fun m _ q => MayPrint P w m q) memories false (c.transport.queues 1)
  receive : decode offset = some .queueNotify → value = 0 → Throughout (receive w)
    (MayReceive P w) memories (c.rxStaging, false) (c.transport.queues 0)

theorem write_obeys {offset : Nat} {value : BitVec 64} (h : c.transport.Obeys P)
    (hmay : MayWrite P w offset value memories c) :
    wp (write w offset value memories) (fun fault c' => P.fault fault ∧ c'.transport.Obeys P)
      (fun _ c' => c'.transport.Obeys P) c := by
  unfold write
  split
  · next hnotify =>
    simp only [wp_ite]
    exact ⟨fun hvalue => processTx_obeys h (hmay.transmit hnotify hvalue), fun _ =>
      ⟨fun hvalue => flushRx_obeys h (hmay.receive hnotify hvalue), fun _ => h⟩⟩
  · rw [wp_bind, onTransport, wp_zoom]
    refine wp_mono (Transport.write_obeys h hmay.place) (fun _ _ hf => hf) fun _ t' ht' => ?_
    rw [wp_ite]
    exact ⟨fun _ => ht', fun _ => ht'⟩

end VirtioConsoleMmio

namespace VirtioBlkMmio

variable {P : Policy} {w : Window} {storage : Storage} {b : VirtioBlkMmio}

theorem onQueue_obeys {α : Type} {x : Program QueueState α} {fs : Fat32} (h : b.Obeys P fs)
    (hx : wp x (fun fault q => P.fault fault ∧ q.Obeys P) (fun _ q => q.Obeys P) b.queue) :
    wp (onQueue x) (fun fault b' => P.fault fault ∧ b'.Obeys P fs)
      (fun _ b' => b'.Obeys P fs) b := by
  rw [onQueue, wp_zoom]
  exact wp_mono hx (fun _ _ hf => ⟨hf.1, hf.2, h.2⟩) fun _ _ hq => ⟨hq, h.2⟩

theorem operation_obeys {requests : List (Memory × List Memory)} (h : b.Obeys P storage.fat32)
    (hmay : Throughout (request w storage) (fun input _ b => MayRequest P w storage input b)
      requests () b) :
    wp (operation w storage requests) (fun fault b' => P.fault fault ∧ b'.Obeys P storage.fat32)
      (fun _ b' => b'.Obeys P storage.fat32) b := by
  have hloop : wp (loop (request w storage) requests ())
      (fun fault b' => P.fault fault ∧ b'.Obeys P storage.fat32)
      (fun _ b' => b'.Obeys P storage.fat32) b :=
    wp_loop (I := fun _ b' => b'.Obeys P storage.fat32) (fun _ _ hb => ⟨P.fuel, hb⟩)
      (fun _ _ _ hb hm => request_obeys hb hm) requests () b h hmay
  unfold operation
  rw [wp_bind]
  refine wp_mono hloop (fun _ _ hf => hf) fun result b' hb' => ?_
  cases result <;> exact hb'

/-- A register may be written. -/
structure MayWrite (P : Policy) (w : Window) (storage : Storage) (offset : Nat)
    (value : BitVec 64) (requests : List (Memory × List Memory)) (b : VirtioBlkMmio) : Prop where
  place : b.queue.MayPlace P w b.pageSize value (decode offset)
  notify : decode offset = some .queueNotify → value = 0 → Throughout (request w storage)
    (fun input _ b => MayRequest P w storage input b) requests () b

theorem write_obeys {offset : Nat} {value : BitVec 64} {requests : List (Memory × List Memory)}
    (h : b.Obeys P storage.fat32) (hmay : MayWrite P w storage offset value requests b) :
    wp (write w storage offset value requests)
      (fun fault b' => P.fault fault ∧ b'.Obeys P storage.fat32)
      (fun _ b' => b'.Obeys P storage.fat32) b := by
  have hplace := hmay.place
  unfold write
  rw [wp_bind, wp_get]
  split
  · exact h
  · next hnum =>
    rw [hnum] at hplace
    refine onQueue_obeys h ?_
    rw [wp_bind, wp_modify]
    exact QueueState.recomputeRings_obeys h.1 hplace
  · next hpfn =>
    rw [hpfn] at hplace
    rw [wp_bind, wp_fits]
    refine ⟨fun _ => ?_, fun hno => ⟨hplace.1 hno, h⟩⟩
    split
    · next address haddress =>
      refine onQueue_obeys h ?_
      rw [wp_bind, wp_modify]
      exact QueueState.recomputeRings_obeys h.1 (hplace.2 address haddress)
    · exact h
  · next hnotify =>
    rw [wp_ite]
    exact ⟨fun hvalue => operation_obeys h (hmay.notify hnotify hvalue), fun _ => h⟩
  · exact h
  · rw [wp_ite]
    refine ⟨fun _ => ?_, fun _ => h⟩
    simp only [wp_bind, wp_modify, onQueue, wp_zoom, QueueState.reset]
    exact h
  · exact h

end VirtioBlkMmio

namespace Devices

variable {P : Policy} {h : Host} {d : Devices}

/-- All devices obey the policy so far. -/
structure Obeys (P : Policy) (h : Host) (d : Devices) : Prop where
  net : d.net.transport.Obeys P
  console : d.console.transport.Obeys P
  blk : d.blk.Obeys P h.fat32

/-- An event may be handled. -/
def May (P : Policy) (h : Host) (d : Devices) : Event → Prop
  | .netWrite offset value memories =>
    d.net.MayWrite P h.window h.physicalNet offset value memories
  | .frame memory length =>
    VirtioNetMmio.MayDeliver P h.window memory length (d.net.transport.queues 0)
  | .consoleWrite offset value memories => d.console.MayWrite P h.window offset value memories
  | .input data memories => Throughout (VirtioConsoleMmio.receive h.window)
      (VirtioConsoleMmio.MayReceive P h.window) memories
      ((VirtioConsoleMmio.stage data d.console).rxStaging, false) (d.console.transport.queues 0)
  | .blkWrite offset value backend fuel requests =>
    d.blk.MayWrite P h.window ⟨h.fat32, backend, fuel⟩ offset value requests
  | event => d.DividesByZero event → P.fault .divisionByZero

theorem obeys_initial (hinit : d.Initial) : d.Obeys P h := by
  obtain ⟨mac, file, blk, hblk, rfl⟩ := hinit
  have hnew : blk.Obeys P h.fat32 := by
    unfold VirtioBlkMmio.new at hblk
    split at hblk
    · cases hblk
      exact ⟨fun _ ha => (nomatch ha), Fat32.hintOk_zero⟩
    · cases hblk
  exact ⟨fun _ _ ha => (nomatch ha), fun _ _ ha => (nomatch ha), hnew⟩

/-- **A handler obeys a policy** that allows what the handler can come to. -/
theorem exec_obeys {event : Event} (hd : d.Obeys P h) (hmay : d.May P h event) :
    wp (exec h event) (fun fault d' => P.fault fault ∧ d'.Obeys P h) (fun _ d' => d'.Obeys P h)
      d := by
  cases event with
  | netRead offset => exact wp_exec_netRead hd fun hdiv => ⟨hmay hdiv, hd⟩
  | netWrite offset value memories =>
    rw [exec, onNet, wp_zoom]
    exact wp_mono (VirtioNetMmio.write_obeys hd.net hmay)
      (fun _ _ hf => ⟨hf.1, hf.2, hd.console, hd.blk⟩) fun _ _ hn => ⟨hn, hd.console, hd.blk⟩
  | frame memory length =>
    rw [exec, onNet, wp_zoom]
    exact wp_mono (VirtioNetMmio.pushRx_obeys hd.net hmay)
      (fun _ _ hf => ⟨hf.1, hf.2, hd.console, hd.blk⟩) fun _ _ hn => ⟨hn, hd.console, hd.blk⟩
  | consoleRead offset => exact wp_exec_consoleRead hd fun hdiv => ⟨hmay hdiv, hd⟩
  | consoleWrite offset value memories =>
    rw [exec, onConsole, wp_zoom]
    exact wp_mono (VirtioConsoleMmio.write_obeys hd.console hmay)
      (fun _ _ hf => ⟨hf.1, hd.net, hf.2, hd.blk⟩) fun _ _ hc => ⟨hd.net, hc, hd.blk⟩
  | input data memories =>
    rw [exec, onConsole, wp_zoom]
    exact wp_mono (VirtioConsoleMmio.pushRx_obeys hd.console hmay)
      (fun _ _ hf => ⟨hf.1, hd.net, hf.2, hd.blk⟩) fun _ _ hc => ⟨hd.net, hc, hd.blk⟩
  | blkRead offset => exact wp_exec_blkRead hd fun hdiv => ⟨hmay hdiv, hd⟩
  | blkWrite offset value backend fuel requests =>
    rw [exec, onBlk, wp_zoom]
    have hwrite : wp (VirtioBlkMmio.write h.window ⟨h.fat32, backend, fuel⟩ offset value requests)
        (fun fault b' => P.fault fault ∧ b'.Obeys P h.fat32) (fun _ b' => b'.Obeys P h.fat32)
        d.blk := VirtioBlkMmio.write_obeys hd.blk hmay
    exact wp_mono hwrite (fun _ _ hf => ⟨hf.1, hd.net, hd.console, hf.2⟩)
      fun _ _ hb => ⟨hd.net, hd.console, hb⟩

/-- A run of events that may be handled obeys the policy. -/
theorem run_obeys {permitted : Devices → Event → Prop} {events : List Event}
    (hpermitted : ∀ d event, permitted d event → d.May P h event)
    (hr : Run Initial (Step h permitted) events d) : d.Obeys P h :=
  hr.invariant (fun _ => obeys_initial) fun s label _ hs ht =>
    (exec_obeys hs (hpermitted s label ht.1)).ok ht.2

end Devices

end MiniVisor.Virtio
