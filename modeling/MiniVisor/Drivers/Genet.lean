import MiniVisor.Lib.Ring
import MiniVisor.Lib.Transition

/-!
# Transmission by the GENET driver

`Genet::send` puts a frame into the descriptor at `tx_index`, moves the producer index, and polls
the consumer index of the device until the two are equal or `DMA_POLL_TIMEOUT` polls are over. The
device takes a descriptor between any two of these steps and also behind a call that has given up.
Which one it takes is its own affair (`Device`): `tx_ring_init` puts its read pointer to the start
of the ring and `tx_index` to its consumer index. For a device that goes by the consumer index
(`ByConsumerIndex`) the ring is a queue as long as at most 256 frames are waiting
(`frames_in_order`).
-/

set_option autoImplicit false

namespace MiniVisor.Drivers.Genet

open MiniVisor.Lib

def numberOfDescriptors : Nat := 256
def dmaPollTimeout : Nat := 1000000

/-- The words of a descriptor. -/
structure Descriptor where
  lengthStatus : Nat
  addressLo : Nat
  addressHi : Nat

/-- The words that `send` writes: the length with the queue tag, `DMA_TX_APPEND_CRC`, `DMA_SOP` and
`DMA_EOP`, and `write_descriptor_address`. -/
def descriptorOf (bufferAddress length : Nat) : Descriptor where
  lengthStatus := (length <<< 16) % 2 ^ 32 ||| (0x3F <<< 7 ||| 0x0040 ||| 0x2000 ||| 0x4000)
  addressLo := bufferAddress % 2 ^ 32
  addressHi := (bufferAddress >>> 32) % 2 ^ 32

/-- The frame that the device takes from a descriptor: its address and its length, in the 12 bits
of `DMA_BUFLENGTH_MASK`. -/
def Descriptor.frame (d : Descriptor) : Nat × Nat :=
  (d.addressHi * 2 ^ 32 + d.addressLo, (d.lengthStatus >>> 16) % 2 ^ 12)

structure Transmitter where
  txIndex : Nat
  txProdIndex : Nat
  descriptors : Nat → Descriptor
  tdmaProdIndex : Nat
  tdmaConsIndex : Nat
  tdmaReadPtr : Nat
  tdmaWritePtr : Nat
  /-- The polls that are left to a call of `send`. -/
  polls : Option Nat
  /-- What the last call has returned. -/
  result : Option Bool
  transmitted : List (Nat × Nat)

/-- `tx_ring_init`, with the value of the register `TDMA_CONS_INDEX`. -/
def txRingInit (tdmaCons : Nat) (descriptors : Nat → Descriptor) : Transmitter where
  txIndex := tdmaCons % 2 ^ 16 % 2 ^ 8
  txProdIndex := tdmaCons % 2 ^ 16
  descriptors := descriptors
  tdmaProdIndex := tdmaCons
  tdmaConsIndex := tdmaCons
  tdmaReadPtr := 0
  tdmaWritePtr := 0
  polls := none
  result := none
  transmitted := []

/-- The index behind another one. -/
def nextIndex (index : Nat) : Nat :=
  if (index + 1) % 2 ^ 16 ≥ numberOfDescriptors then 0 else (index + 1) % 2 ^ 16

/-- The descriptor that the device takes, by its consumer index and its read and write pointers. -/
abbrev Device := (consIndex readPtr writePtr : Nat) → Nat

/-- The device takes the descriptor that its consumer index names, wherever its pointers are. -/
def ByConsumerIndex (device : Device) : Prop :=
  ∀ consIndex readPtr writePtr, device consIndex readPtr writePtr = consIndex % numberOfDescriptors

/-- A call of `send` up to its loop, an iteration of the loop, or a descriptor that the device
takes, with its pointers behind that. -/
inductive Action where
  | send (bufferAddress length : Nat)
  | poll
  | transmit (readPtr writePtr : Nat)

namespace Transmitter

def perform (device : Device) (s : Transmitter) : Action → Option Transmitter
  | .send bufferAddress length =>
    if s.polls = none then
      let targetProd := (s.txProdIndex + 1) % 2 ^ 16
      some { s with
        descriptors := Function.update s.descriptors s.txIndex (descriptorOf bufferAddress length)
        txIndex := nextIndex s.txIndex
        txProdIndex := targetProd
        tdmaProdIndex := targetProd
        polls := some dmaPollTimeout
        result := none }
    else none
  | .poll =>
    match s.polls with
    | none => none
    | some 0 => some { s with polls := none, result := some false }
    | some (n + 1) =>
      if s.tdmaConsIndex % 2 ^ 16 = s.txProdIndex then
        some { s with polls := none, result := some true }
      else some { s with polls := some n }
  | .transmit readPtr writePtr =>
    if s.tdmaConsIndex % 2 ^ 16 = s.tdmaProdIndex % 2 ^ 16 then none
    else some { s with
      tdmaConsIndex := (s.tdmaConsIndex % 2 ^ 16 + 1) % 2 ^ 16
      tdmaReadPtr := readPtr
      tdmaWritePtr := writePtr
      transmitted := s.transmitted ++ [(s.descriptors
        (device (s.tdmaConsIndex % 2 ^ 16) s.tdmaReadPtr s.tdmaWritePtr)).frame] }

/-- The number of frames that are waiting, by the indices. -/
def waiting (s : Transmitter) : Nat :=
  (s.tdmaProdIndex % 2 ^ 16 + 2 ^ 16 - s.tdmaConsIndex % 2 ^ 16) % 2 ^ 16

/-- A step behind which no more frames are waiting than there are descriptors. -/
def Step (device : Device) (s : Transmitter) (action : Action) (t : Transmitter) : Prop :=
  s.perform device action = some t ∧ t.waiting ≤ numberOfDescriptors

def Initial (s : Transmitter) : Prop := ∃ tdmaCons descriptors, s = txRingInit tdmaCons descriptors

/-- The frames of the calls of a run, as the descriptors can hold them. -/
def frames (actions : List Action) : List (Nat × Nat) :=
  actions.filterMap fun
    | .send bufferAddress length => some (bufferAddress % 2 ^ 64, length % 2 ^ 12)
    | _ => none

/-! ## The ring as a queue -/

theorem frame_descriptorOf (bufferAddress length : Nat) :
    (descriptorOf bufferAddress length).frame = (bufferAddress % 2 ^ 64, length % 2 ^ 12) := by
  have hlength : ((length <<< 16) % 2 ^ 32) >>> 16 = length % 2 ^ 16 := by
    rw [Nat.shiftLeft_eq, Nat.shiftRight_eq_div_pow]
    omega
  have haddress : (bufferAddress >>> 32) % 2 ^ 32 * 2 ^ 32 + bufferAddress % 2 ^ 32 =
      bufferAddress % 2 ^ 64 := by
    rw [Nat.shiftRight_eq_div_pow]
    omega
  refine Prod.ext haddress ?_
  show ((length <<< 16) % 2 ^ 32 ||| _) >>> 16 % 2 ^ 12 = _
  rw [Nat.shiftRight_or_distrib, hlength]
  show (length % 2 ^ 16 ||| 0) % 2 ^ 12 = length % 2 ^ 12
  rw [Nat.or_zero]
  omega

/-- The indices agree, and the frames that are not yet transmitted are in the ring. -/
structure Queues (s : Transmitter) (sent : List (Nat × Nat)) (n : Nat) : Prop where
  index : s.txIndex = s.txProdIndex % numberOfDescriptors
  prod : s.tdmaProdIndex % 2 ^ 16 = s.txProdIndex
  cons : s.txProdIndex = (s.tdmaConsIndex % 2 ^ 16 + n) % 2 ^ 16
  room : n ≤ numberOfDescriptors
  queue : sent = s.transmitted ++ (ringContents numberOfDescriptors s.descriptors
    (s.tdmaConsIndex % 2 ^ 16 % numberOfDescriptors) n).map Descriptor.frame
  done : s.result = some true → n = 0

variable {device : Device} {s t : Transmitter} {sent : List (Nat × Nat)} {n : Nat}

theorem Queues.waiting_eq (h : Queues s sent n) : s.waiting = n := by
  have hroom : n ≤ 256 := h.room
  have hcons := h.cons
  unfold waiting
  rw [h.prod]
  omega

/-- What a step does to the queue. -/
theorem Queues.step {action : Action} (hdevice : ByConsumerIndex device) (h : Queues s sent n)
    (hstep : s.Step device action t) : ∃ m, Queues t (sent ++ frames [action]) m := by
  obtain ⟨hperform, hroom⟩ := hstep
  have hle : n ≤ 256 := h.room
  have hindex : s.txIndex = s.txProdIndex % 256 := h.index
  have hcons := h.cons
  cases action with
  | send bufferAddress length =>
    simp only [perform] at hperform
    split_ifs at hperform
    cases hperform
    -- The frame that was added is one of at most 256.
    have hlt : n < 256 := by
      simp only [waiting, numberOfDescriptors] at hroom
      omega
    have hslot : s.txIndex = (s.tdmaConsIndex % 2 ^ 16 % 256 + n) % 256 := by omega
    refine ⟨n + 1, ?_, Nat.mod_mod _ _, ?_, hlt, ?_, fun hno => ?_⟩
    · show (if (s.txIndex + 1) % 2 ^ 16 ≥ 256 then 0 else (s.txIndex + 1) % 2 ^ 16) =
        (s.txProdIndex + 1) % 2 ^ 16 % 256
      split_ifs <;> omega
    · show (s.txProdIndex + 1) % 2 ^ 16 = (s.tdmaConsIndex % 2 ^ 16 + (n + 1)) % 2 ^ 16
      omega
    · show _ = s.transmitted ++ (ringContents 256 (Function.update s.descriptors s.txIndex _)
        (s.tdmaConsIndex % 2 ^ 16 % 256) (n + 1)).map _
      rw [hslot, ringContents_push hlt, List.map_append, ← List.append_assoc]
      exact congrArg₂ (· ++ ·) h.queue (congrArg (fun x => [x]) (frame_descriptorOf _ _).symm)
    · cases hno
  | poll =>
    rw [show frames [.poll] = [] from rfl, List.append_nil]
    simp only [perform] at hperform
    split at hperform
    · cases hperform
    · cases hperform
      exact ⟨n, h.index, h.prod, h.cons, h.room, h.queue, fun hno => by cases hno⟩
    · split_ifs at hperform with heq <;> cases hperform
      -- Equal indices mean an empty ring, since fewer than 2 ^ 16 frames wait.
      · exact ⟨n, h.index, h.prod, h.cons, h.room, h.queue, fun _ => by omega⟩
      · exact ⟨n, h.index, h.prod, h.cons, h.room, h.queue, h.done⟩
  | transmit readPtr writePtr =>
    rw [show frames [.transmit readPtr writePtr] = [] from rfl, List.append_nil]
    simp only [perform, hdevice _ _ _] at hperform
    split_ifs at hperform with heq
    cases hperform
    rw [h.prod] at heq
    -- The indices differ, so that a frame is waiting.
    obtain ⟨m, rfl⟩ : ∃ m, n = m + 1 := ⟨n - 1, by omega⟩
    refine ⟨m, h.index, h.prod, ?_, (Nat.le_succ m).trans hle, ?_, fun hdone => ?_⟩
    · show s.txProdIndex = ((s.tdmaConsIndex % 2 ^ 16 + 1) % 2 ^ 16 % 2 ^ 16 + m) % 2 ^ 16
      omega
    · have hhead : (s.tdmaConsIndex % 2 ^ 16 + 1) % 2 ^ 16 % 2 ^ 16 % 256 =
          (s.tdmaConsIndex % 2 ^ 16 % 256 + 1) % 256 := by omega
      have hqueue := h.queue
      rw [ringContents_pop (Nat.mod_lt _ (by decide)), List.map_cons, ← List.singleton_append,
        ← List.append_assoc] at hqueue
      show sent = _ ++ (ringContents 256 _ ((s.tdmaConsIndex % 2 ^ 16 + 1) % 2 ^ 16 % 2 ^ 16 % 256)
        m).map _
      rw [hhead]
      exact hqueue
    · cases h.done hdone

/-- **Frames are transmitted in order.** In every run in which at most 256 frames are waiting, a
device that goes by its consumer index has transmitted the first ones of those that were sent, each
once and in their order, and all of them when `send` has returned `Ok`. -/
theorem frames_in_order (hdevice : ByConsumerIndex device) {actions : List Action}
    (hr : Run Initial (Step device) actions s) :
    ∃ rest, frames actions = s.transmitted ++ rest ∧ rest.length = s.waiting ∧
      (s.result = some true → rest = []) := by
  have hqueues : ∃ n, Queues s (frames actions) n := by
    induction hr with
    | start h =>
      obtain ⟨tdmaCons, descriptors, rfl⟩ := h
      exact ⟨0, rfl, rfl, (Nat.mod_mod _ _).symm, Nat.zero_le _, rfl, fun _ => rfl⟩
    | next _ hstep ih =>
      obtain ⟨n, hn⟩ := ih
      rw [frames, List.filterMap_append]
      exact hn.step hdevice hstep
  obtain ⟨n, h⟩ := hqueues
  refine ⟨_, h.queue, ?_, fun hdone => ?_⟩
  · rw [List.length_map, length_ringContents, h.waiting_eq]
  · rw [h.done hdone]
    rfl

/-- A frame of 60 bytes is sent at the wrap-around of the indices. -/
theorem frames_in_order_wrap : ∃ s : Transmitter,
    Run Initial (Step fun consIndex _ _ => consIndex % numberOfDescriptors)
        [.send 0x180000000 60, .poll, .transmit 3 0, .poll] s ∧
      s.result = some true ∧ s.transmitted = [(0x180000000, 60)] := by
  have hrun : Run Initial (Step fun consIndex _ _ => consIndex % numberOfDescriptors)
      [.send 0x180000000 60, .poll, .transmit 3 0, .poll] _ :=
    .next (.next (.next (.next (.start ⟨0xFFFF, fun _ => ⟨0, 0, 0⟩, rfl⟩) ⟨rfl, by decide⟩)
      ⟨rfl, by decide⟩) ⟨rfl, by decide⟩) ⟨rfl, by decide⟩
  obtain ⟨rest, hframes, -, hdone⟩ := frames_in_order (fun _ _ _ => rfl) hrun
  refine ⟨_, hrun, rfl, ?_⟩
  rw [hdone rfl, List.append_nil] at hframes
  exact hframes.symm

end Transmitter

end MiniVisor.Drivers.Genet
