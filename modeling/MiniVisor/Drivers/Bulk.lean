import MiniVisor.Lib.Fault
import MiniVisor.Drivers.TrbRing

/-!
# Bulk transfers

A model of `submit_bulk_transfer` in `drivers/xhci.rs`. A transfer is cut into waves and a wave into
TRBs, so that no TRB goes over a boundary of 64 KiB and no wave has more TRBs than the ring. Two
loops make the same cut: `max_wave_length` adds up what 63 TRBs can hold, and `submit_bulk_wave`
writes the TRBs.

Both are described by the pages of 64 KiB: a TRB ends with its page or with the wave, and a wave
ends 63 pages behind the page it starts in or with the transfer (`maxWaveLength_eq`, `waveLoop_eq`).

A wave returns its length without the residue of the event. The residue is that of one TRB, so
`short_count_iff`: the count of a short transfer is right exactly when the TRB that went short is
the last one of its wave.
-/

set_option autoImplicit false

namespace MiniVisor.Drivers

open MiniVisor.Lib

/-! ## The code -/

def trbIsp : BitVec 32 := 4
def trbChain : BitVec 32 := 0x10
def trbIoc : BitVec 32 := 0x20
def trbNormal : BitVec 32 := 1

def compSuccess : BitVec 32 := 1
def compShortTx : BitVec 32 := 13

def maxTrbsPerWave : Nat := trbsPerSegment - 1

def trbLen (length : Nat) : BitVec 32 := BitVec.ofNat 32 length &&& 0x1FFFF

def trbTdSize (value : Nat) : BitVec 32 := BitVec.ofNat 32 (min (value % 2 ^ 32) 31) <<< 17

def transferTrbRemainder (transferredBefore currentTrbLen totalLen maxPacket : Nat) : Nat :=
  if currentTrbLen = totalLen ∨ maxPacket = 0 ∨ transferredBefore + currentTrbLen ≥ totalLen then 0
  else (totalLen + maxPacket - 1) / maxPacket - (transferredBefore + currentTrbLen) / maxPacket

def eventResidue (transferLenField : BitVec 32) : Nat := (transferLenField &&& 0xFFFFFF).toNat

def completionCode (statusField : BitVec 32) : BitVec 32 := (statusField >>> 24) &&& 0xFF

/-- `to_bus`, with the value of `DMA_OFFSET`. -/
def toBus (dmaOffset cpuAddr : Nat) : Except Fault Nat := checkedAdd cpuAddr dmaOffset

/-- The part of the remaining bytes that the next TRB takes, in both loops. -/
def nextChunk (address remaining : Nat) : Nat :=
  let boundaryLimit := 0x10000 - address % 0x10000
  min remaining (if boundaryLimit = 0 then 0x10000 else boundaryLimit)

/-- The loop of `max_wave_length`, with `left` iterations to go. -/
def maxWaveLoop (remaining : Nat) : (left address total : Nat) → Except Fault Nat
  | 0, _, total => .ok total
  | left + 1, address, total =>
    if total ≥ remaining then .ok total
    else do
      let chunk := nextChunk address (remaining - total)
      let total ← checkedAdd total chunk
      maxWaveLoop remaining left (← checkedAdd address chunk) total

def maxWaveLength (address remaining : Nat) : Except Fault Nat :=
  maxWaveLoop remaining maxTrbsPerWave address 0

/-- What the calls of one transfer have in common. -/
structure BulkEndpoint where
  dmaOffset : Nat
  maxPacketSize : Nat
  isIn : Bool

/-- The bytes that a TRB stands for, and the fields it is written with. -/
structure Chunk where
  address : Nat
  length : Nat
  fields : Trb

/-- The flags of a TRB. The first one of a wave gets the wrong cycle bit. -/
def waveFlags (isIn : Bool) (startCycle cycleState : BitVec 32) (transferred : Nat) (more : Bool) :
    BitVec 32 :=
  let flags := trbType trbNormal
  let flags :=
    if transferred = 0 then if startCycle = 0 then flags ||| trbCycle else flags
    else flags ||| cycleState
  let flags := if isIn then flags ||| trbIsp else flags
  if more then flags ||| trbChain else flags ||| trbIoc

def waveFields (currentBus chunk remainder : Nat) (flags : BitVec 32) : Trb :=
  ⟨BitVec.ofNat 32 currentBus, BitVec.ofNat 32 (currentBus / 2 ^ 32),
    trbLen chunk ||| trbTdSize remainder, flags⟩

/-- The loop of `submit_bulk_wave` that writes the TRBs. -/
def waveLoop (ep : BulkEndpoint) (startCycle : BitVec 32) (dmaAddress waveLength : Nat) :
    (fuel transferred remaining : Nat) → TrbRing → Except Fault (TrbRing × List Chunk)
  | _, _, 0, ring => .ok (ring, [])
  | 0, _, _ + 1, _ => .error .outOfFuel
  | fuel + 1, transferred, remaining@(_ + 1), ring => do
    let currentAddress ← checkedAdd dmaAddress transferred
    let chunk := nextChunk currentAddress remaining
    let flags := waveFlags ep.isIn startCycle ring.cycleState transferred (remaining > chunk)
    let remainder := transferTrbRemainder transferred chunk waveLength ep.maxPacketSize
    let currentBus ← toBus ep.dmaOffset currentAddress
    let fields := waveFields currentBus chunk remainder flags
    let (ring, chunks) ← waveLoop ep startCycle dmaAddress waveLength fuel (transferred + chunk)
      (remaining - chunk) (ring.pushTrbRaw fields)
    return (ring, ⟨currentAddress, chunk, fields⟩ :: chunks)

/-- `submit_bulk_wave` up to the doorbell. -/
def queueWave (ep : BulkEndpoint) (ring : TrbRing) (dmaAddress waveLength : Nat) :
    Except Fault (TrbRing × List Chunk) := do
  let (ring', chunks) ← waveLoop ep ring.cycleState dmaAddress waveLength waveLength 0
    waveLength ring
  return (ring'.commitFirstTrb ring.enqueueIndex ring.cycleState, chunks)

/-- The bytes transferred and the completion code that `submit_bulk_wave` reads off its event. -/
def waveResult (waveLength : Nat) (event : BitVec 32) : Nat × BitVec 32 :=
  (waveLength - eventResidue event, completionCode event)

/-- What `submit_bulk_transfer` returns, the ring, and for each wave the ring when the doorbell is
rung and the TRBs. -/
structure BulkOutcome where
  result : Option Nat
  ring : TrbRing
  waves : List (TrbRing × List Chunk)

/-- The loop of `submit_bulk_transfer`. The answer to a wave is the third word of its event, if
there is one in time. -/
def bulkLoop (ep : BulkEndpoint) (answer : Nat → List Chunk → Option (BitVec 32))
    (dmaBufferAddress length : Nat) :
    (fuel wave offset transferredTotal : Nat) → TrbRing → Except Fault BulkOutcome
  | fuel, wave, offset, transferredTotal, ring =>
    if offset ≥ length then .ok ⟨some transferredTotal, ring, []⟩
    else
      match fuel with
      | 0 => .error .outOfFuel
      | fuel + 1 => do
        let waveAddress ← checkedAdd dmaBufferAddress offset
        let waveLength ← maxWaveLength waveAddress (length - offset)
        let (ring, chunks) ← queueWave ep ring waveAddress waveLength
        match (answer wave chunks).map (waveResult waveLength) with
        | none => return ⟨none, ring, [(ring, chunks)]⟩
        | some (waveTransferred, completion) =>
          if completion ≠ compSuccess ∧ completion ≠ compShortTx then
            return ⟨none, ring, [(ring, chunks)]⟩
          else
            let transferredTotal ← checkedAdd transferredTotal waveTransferred
            if waveTransferred < waveLength then
              return ⟨some transferredTotal, ring, [(ring, chunks)]⟩
            else
              let outcome ← bulkLoop ep answer dmaBufferAddress length fuel (wave + 1)
                (offset + waveLength) transferredTotal ring
              return { outcome with waves := (ring, chunks) :: outcome.waves }

def needsBounceBuffer (lineSize bufferAddress length : Nat) : Bool :=
  bufferAddress &&& (lineSize - 1) ≠ 0 ∨ length &&& (lineSize - 1) ≠ 0

/-- The address that the controller gets, if the bounce buffer can be allocated when one is needed.
-/
def dmaAddressOf (lineSize : Nat) (bounce : Option Nat) (bufferAddress length : Nat) : Option Nat :=
  if needsBounceBuffer lineSize bufferAddress length then bounce else some bufferAddress

def submitBulkTransfer (ep : BulkEndpoint) (lineSize : Nat) (bounce : Option Nat)
    (answer : Nat → List Chunk → Option (BitVec 32)) (ring : TrbRing) (bufferAddress length : Nat) :
    Except Fault BulkOutcome :=
  if length = 0 then .ok ⟨some 0, ring, []⟩
  else
    match dmaAddressOf lineSize bounce bufferAddress length with
    | none => .ok ⟨none, ring, []⟩
    | some dmaBufferAddress => bulkLoop ep answer dmaBufferAddress length length 0 0 0 ring

/-! ## Pages of 64 KiB -/

theorem nextChunk_eq (address remaining : Nat) :
    nextChunk address remaining = min remaining (0x10000 - address % 0x10000) := by
  unfold nextChunk
  dsimp only
  rw [if_neg (by omega)]

/-- Where the wave ends that starts at the address, when the transfer ends at `stop`. -/
def waveEnd (address stop : Nat) : Nat := min stop ((address / 0x10000 + 63) * 0x10000)

/-- Where the TRB ends that starts at the address, when the wave ends at `stop`. -/
def chunkEnd (address stop : Nat) : Nat := min stop ((address / 0x10000 + 1) * 0x10000)

theorem add_nextChunk (address remaining : Nat) :
    address + nextChunk address remaining = chunkEnd address (address + remaining) := by
  rw [nextChunk_eq]
  unfold chunkEnd
  omega

/-- After `left` iterations the loop is `left` pages further, or at the end. -/
theorem maxWaveLoop_eq {remaining : Nat} (hremaining : remaining < wordSize) (left : Nat) :
    ∀ {address total : Nat}, total ≤ remaining → address + (remaining - total) < wordSize →
      maxWaveLoop remaining left address total = .ok (total +
        (min (address + (remaining - total)) ((address / 0x10000 + left) * 0x10000) -
          address)) := by
  induction left with
  | zero =>
    intro address total _ _
    have hnone : min (address + (remaining - total)) ((address / 0x10000 + 0) * 0x10000) - address =
        0 := by omega
    rw [hnone]
    rfl
  | succ left ih =>
    intro address total htotal hword
    unfold maxWaveLoop
    by_cases hdone : total ≥ remaining
    · have hnone : min (address + (remaining - total))
          ((address / 0x10000 + (left + 1)) * 0x10000) - address = 0 := by omega
      rw [if_pos hdone, hnone]
      rfl
    · have hchunk := nextChunk_eq address (remaining - total)
      generalize nextChunk address (remaining - total) = chunk at hchunk
      rw [if_neg hdone]
      dsimp only
      rw [checkedAdd_eq (by omega), ok_bind, checkedAdd_eq (by omega), ok_bind,
        ih (by omega) (by omega)]
      congr 1
      omega

/-- A wave ends with the transfer or 63 pages behind the page it starts in. -/
theorem maxWaveLength_eq {address remaining : Nat} (hword : address + remaining < wordSize) :
    maxWaveLength address remaining = .ok (waveEnd address (address + remaining) - address) := by
  unfold maxWaveLength
  rw [maxWaveLoop_eq (by omega) _ (Nat.zero_le _) (by omega), Nat.zero_add, Nat.sub_zero]
  rfl

/-! ## The TRBs of a wave -/

/-- The address that the controller reads from a TRB. -/
def Trb.pointer (t : Trb) : Nat := (t.field1 ++ t.field0 : BitVec 64).toNat

/-- The length that the controller reads from a TRB. -/
def Trb.length (t : Trb) : Nat := (t.field2 &&& 0x1FFFF).toNat

/-- The fields say where the bytes are on the bus, and how many they are. -/
structure Chunk.Encoded (c : Chunk) (dmaOffset : Nat) : Prop where
  pointer : c.fields.pointer = c.address + dmaOffset
  length : c.fields.length = c.length

theorem pointer_waveFields {bus : Nat} (hbus : bus < wordSize) (chunk remainder : Nat)
    (flags : BitVec 32) : (waveFields bus chunk remainder flags).pointer = bus := by
  have hword : wordSize = 2 ^ 64 := rfl
  unfold Trb.pointer waveFields
  dsimp only
  rw [BitVec.toNat_append, BitVec.toNat_ofNat, BitVec.toNat_ofNat, ← Nat.shiftLeft_add_eq_or_of_lt
    (Nat.mod_lt _ (by decide)), Nat.shiftLeft_eq]
  omega

theorem toNat_trbLen {chunk : Nat} (hchunk : chunk ≤ 0x10000) : (trbLen chunk).toNat = chunk := by
  unfold trbLen
  rw [BitVec.toNat_and, BitVec.toNat_ofNat]
  show chunk % 2 ^ 32 &&& (2 ^ 17 - 1) = chunk
  rw [Nat.and_two_pow_sub_one_eq_mod]
  omega

/-- The size of the rest of the TD stands above the length. -/
theorem length_waveFields {chunk : Nat} (hchunk : chunk ≤ 0x10000) (bus remainder : Nat)
    (flags : BitVec 32) : (waveFields bus chunk remainder flags).length = chunk := by
  have hsize : trbTdSize remainder &&& 0x1FFFF = 0#32 := by
    unfold trbTdSize
    ext i hi
    simp only [BitVec.getElem_and, BitVec.getElem_shiftLeft, BitVec.getElem_zero]
    by_cases hlow : i < 17
    · simp [hlow]
    · have hmask : (0x1FFFF : BitVec 32)[i] = false := by
        have hall : ∀ j (hj : j < 32), ¬j < 17 → (0x1FFFF : BitVec 32)[j] = false := by decide
        exact hall i hi hlow
      rw [hmask, Bool.and_false]
  have hlen : trbLen chunk &&& 0x1FFFF = trbLen chunk := by
    unfold trbLen
    rw [BitVec.and_assoc, BitVec.and_self]
  unfold Trb.length waveFields
  dsimp only
  rw [BitVec.and_or_distrib_right, hsize, hlen, BitVec.or_zero, toNat_trbLen hchunk]

/-- The bytes from `address` to `stop` cut at the pages, with their TRBs. -/
def Cut (dmaOffset stop : Nat) : (address : Nat) → List Chunk → Prop
  | address, [] => address = stop
  | address, c :: rest => address < stop ∧ c.address = address ∧
      address + c.length = chunkEnd address stop ∧ c.Encoded dmaOffset ∧
      Cut dmaOffset stop (chunkEnd address stop) rest

/-- The loop of a wave cuts the wave at the pages. The fuel is enough when it is as much as the
bytes that are left. -/
theorem waveLoop_eq (ep : BulkEndpoint) (startCycle : BitVec 32) (dmaAddress waveLength : Nat)
    (fuel : Nat) : ∀ (transferred remaining : Nat) (ring : TrbRing), remaining ≤ fuel →
      dmaAddress + transferred + remaining < wordSize →
      dmaAddress + transferred + remaining + ep.dmaOffset ≤ wordSize →
      ∃ ring' chunks, waveLoop ep startCycle dmaAddress waveLength fuel transferred remaining ring =
          .ok (ring', chunks) ∧
        Cut ep.dmaOffset (dmaAddress + transferred + remaining) (dmaAddress + transferred)
          chunks := by
  induction fuel with
  | zero =>
    intro transferred remaining ring hfuel _ _
    obtain rfl : remaining = 0 := Nat.le_zero.1 hfuel
    exact ⟨ring, [], rfl, rfl⟩
  | succ fuel ih =>
    intro transferred remaining ring hfuel hword hbus
    cases remaining with
    | zero => exact ⟨ring, [], rfl, rfl⟩
    | succ left =>
      have hchunk := nextChunk_eq (dmaAddress + transferred) (left + 1)
      have hend := add_nextChunk (dmaAddress + transferred) (left + 1)
      unfold waveLoop
      rw [checkedAdd_eq (by omega), ok_bind, toBus, checkedAdd_eq (by omega)]
      dsimp only [ok_bind]
      generalize nextChunk (dmaAddress + transferred) (left + 1) = chunk at hchunk hend
      obtain ⟨ring', chunks, hok, hcut⟩ := ih (transferred + chunk) (left + 1 - chunk)
        (ring.pushTrbRaw (waveFields
          (dmaAddress + transferred + ep.dmaOffset) chunk
          (transferTrbRemainder transferred chunk waveLength ep.maxPacketSize)
          (waveFlags ep.isIn startCycle ring.cycleState transferred (left + 1 > chunk))))
        (by omega) (by omega) (by omega)
      have hstop : dmaAddress + (transferred + chunk) + (left + 1 - chunk) =
          dmaAddress + transferred + (left + 1) := by omega
      rw [hstop, ← Nat.add_assoc dmaAddress transferred chunk, hend] at hcut
      rw [hok]
      refine ⟨ring', _, rfl, by omega, rfl, hend, ⟨?_, ?_⟩, hcut⟩
      · exact pointer_waveFields (by omega) _ _ _
      · exact length_waveFields (by omega) _ _ _

/-- The chunks begin at the address, each where the one before ends, and the last ends at `stop`. -/
def Consecutive (stop : Nat) : (address : Nat) → List Chunk → Prop
  | address, [] => address = stop
  | address, c :: rest => c.address = address ∧ Consecutive stop (address + c.length) rest

theorem Consecutive.append {middle stop : Nat} {l r : List Chunk} : ∀ {address : Nat},
    Consecutive middle address l → Consecutive stop middle r →
    Consecutive stop address (l ++ r) := by
  induction l with
  | nil =>
    intro address hl hr
    rw [show address = middle from hl]
    exact hr
  | cons c l ih => exact fun hl hr => ⟨hl.1, ih hl.2 hr⟩

/-- A TRB of a transfer: its length is that of one page at most, its bytes are in one page of the
bus, and its fields say so. -/
structure Chunk.Valid (c : Chunk) (dmaOffset : Nat) : Prop extends c.Encoded dmaOffset where
  pos : 1 ≤ c.length
  le : c.length ≤ 0x10000
  page : (c.address + dmaOffset) / 0x10000 = (c.address + dmaOffset + c.length - 1) / 0x10000

section Cut

variable {dmaOffset stop : Nat}

theorem Cut.consecutive {chunks : List Chunk} : ∀ {address : Nat}, Cut dmaOffset stop address chunks
    → Consecutive stop address chunks := by
  induction chunks with
  | nil => exact fun h => h
  | cons c rest ih =>
    rintro address ⟨-, haddress, hlength, -, hrest⟩
    refine ⟨haddress, ?_⟩
    rw [hlength]
    exact ih hrest

theorem Cut.valid {chunks : List Chunk} (hoffset : 0x10000 ∣ dmaOffset) : ∀ {address : Nat},
    Cut dmaOffset stop address chunks → ∀ c ∈ chunks, c.Valid dmaOffset := by
  induction chunks with
  | nil => exact fun _ c hc => nomatch hc
  | cons d rest ih =>
    rintro address ⟨hlt, haddress, hlength, hencoded, hrest⟩ c hc
    rcases List.mem_cons.1 hc with rfl | hc
    · unfold chunkEnd at hlength
      exact ⟨hencoded, by omega, by omega, by omega⟩
    · exact ih hrest c hc

/-- There are as many TRBs as pages. -/
theorem Cut.length_eq {chunks : List Chunk} : ∀ {address : Nat}, Cut dmaOffset stop address chunks →
    address < stop → chunks.length = (stop - 1) / 0x10000 - address / 0x10000 + 1 := by
  induction chunks with
  | nil =>
    intro address h hlt
    exact absurd h (Nat.ne_of_lt hlt)
  | cons c rest ih =>
    rintro address ⟨-, -, -, -, hrest⟩ hlt
    have hend : chunkEnd address stop = min stop ((address / 0x10000 + 1) * 0x10000) := rfl
    rw [List.length_cons]
    cases rest with
    | nil =>
      have hstop : chunkEnd address stop = stop := hrest
      rw [List.length_nil]
      omega
    | cons d rest =>
      have hmore : chunkEnd address stop < stop := hrest.1
      rw [ih hrest hmore]
      omega

end Cut

/-! ## The waves of a transfer -/

/-- What `queueWave` writes. -/
theorem queueWave_eq (ep : BulkEndpoint) (ring : TrbRing) {address stop : Nat}
    (hle : address ≤ stop) (hword : stop < wordSize) (hbus : stop + ep.dmaOffset ≤ wordSize) :
    ∃ ring' chunks, queueWave ep ring address (stop - address) = .ok (ring', chunks) ∧
      Cut ep.dmaOffset stop address chunks := by
  have hstop : address + 0 + (stop - address) = stop := by omega
  obtain ⟨ring', chunks, hok, hcut⟩ := waveLoop_eq ep ring.cycleState address (stop - address)
    (stop - address) 0 (stop - address) ring (Nat.le_refl _) (by rw [hstop]; exact hword)
    (by rw [hstop]; exact hbus)
  rw [hstop] at hcut
  refine ⟨ring'.commitFirstTrb ring.enqueueIndex ring.cycleState, chunks, ?_, hcut⟩
  unfold queueWave
  rw [hok]
  rfl

/-! ## Short transfers -/

/-- The third word of a transfer event. -/
def eventWord (code : BitVec 32) (residue : Nat) : BitVec 32 :=
    code <<< 24 ||| BitVec.ofNat 32 residue

/-- The event of a wave of an IN transfer when the device sends the bytes below the address
`received` and no more. The TRB that goes short is the first one that ends above it, and its residue
is what it was not given. -/
def deviceEvent (received : Nat) (chunks : List Chunk) : BitVec 32 :=
  match chunks.find? fun c => received < c.address + c.length with
  | some c => eventWord compShortTx (c.length - (received - c.address))
  | none => eventWord compSuccess 0

theorem toNat_eventWord {code : BitVec 32} {residue : Nat} (hcode : code.toNat < 256)
    (hresidue : residue < 2 ^ 24) :
    (eventWord code residue).toNat = code.toNat * 2 ^ 24 + residue := by
  unfold eventWord
  rw [BitVec.toNat_or, BitVec.toNat_shiftLeft, BitVec.toNat_ofNat, Nat.shiftLeft_eq,
    Nat.mod_eq_of_lt (by omega), Nat.mod_eq_of_lt (by omega), ← Nat.shiftLeft_eq,
    ← Nat.shiftLeft_add_eq_or_of_lt hresidue, Nat.shiftLeft_eq]

theorem eventResidue_eventWord {code : BitVec 32} {residue : Nat} (hcode : code.toNat < 256)
    (hresidue : residue < 2 ^ 24) : eventResidue (eventWord code residue) = residue := by
  unfold eventResidue
  rw [BitVec.toNat_and, toNat_eventWord hcode hresidue]
  show _ &&& (2 ^ 24 - 1) = residue
  rw [Nat.and_two_pow_sub_one_eq_mod]
  omega

theorem completionCode_eventWord {code : BitVec 32} {residue : Nat} (hcode : code.toNat < 256)
    (hresidue : residue < 2 ^ 24) : completionCode (eventWord code residue) = code := by
  refine BitVec.eq_of_toNat_eq ?_
  unfold completionCode
  rw [BitVec.toNat_and, BitVec.toNat_ushiftRight, toNat_eventWord hcode hresidue,
    Nat.shiftRight_eq_div_pow]
  show _ &&& (2 ^ 8 - 1) = code.toNat
  rw [Nat.and_two_pow_sub_one_eq_mod]
  omega

/-- The bytes of the TRB in which the device stops, from there on. -/
def untransferred (stop received : Nat) : Nat := chunkEnd received stop - received

/-- A wave is full when the device sends more, and short otherwise. -/
theorem Cut.deviceEvent_eq {dmaOffset stop received : Nat} {chunks : List Chunk} :
    ∀ {address : Nat}, Cut dmaOffset stop address chunks → address ≤ received →
      deviceEvent received chunks = if received < stop then
        eventWord compShortTx (untransferred stop received) else eventWord compSuccess 0 := by
  unfold deviceEvent
  induction chunks with
  | nil =>
    intro address h hle
    have hstop : address = stop := h
    rw [if_neg (by omega)]
    rfl
  | cons c rest ih =>
    rintro address ⟨hlt, haddress, hlength, -, hrest⟩ hle
    have hend : chunkEnd address stop = min stop ((address / 0x10000 + 1) * 0x10000) := rfl
    by_cases hshort : received < c.address + c.length
    · have hresidue : c.length - (received - c.address) = untransferred stop received := by
        unfold untransferred chunkEnd
        omega
      rw [List.find?_cons_of_pos (by simpa using hshort), if_pos (by omega)]
      dsimp only
      rw [hresidue]
    · rw [List.find?_cons_of_neg (by simpa using hshort)]
      exact ih hrest (by omega)

/-- The TRB in which the device stops is the last one of its wave: it is in the last page of the
buffer, or in the last one of 63 pages. -/
def LastOfWave (dma length received : Nat) : Prop :=
  (dma + received) / 0x10000 = (dma + length - 1) / 0x10000 ∨
    ((dma + received) / 0x10000 - dma / 0x10000) % 63 = 62

/-- The waves before the one in which the device stops are full, and that one counts everything but
the residue. -/
theorem bulkLoop_short (ep : BulkEndpoint) {dma length received : Nat} (hle : received ≤ length)
    (hword : dma + length < wordSize) (hbus : dma + length + ep.dmaOffset ≤ wordSize) (fuel : Nat) :
    ∀ (wave offset : Nat) (ring : TrbRing), offset ≤ received → length - offset ≤ fuel →
      offset = length ∨ (dma + offset) / 0x10000 = dma / 0x10000 + 63 * wave →
      ∃ count ring' waves,
        bulkLoop ep (fun _ chunks => some (deviceEvent (dma + received) chunks)) dma
          length fuel wave
            offset offset ring = .ok ⟨some count, ring', waves⟩ ∧
          (count = received ↔ received = length ∨ LastOfWave dma length received) := by
  induction fuel with
  | zero =>
    intro wave offset ring hoffset hfuel _
    obtain rfl : offset = length := by omega
    refine ⟨offset, ring, [], ?_, by omega⟩
    unfold bulkLoop
    rw [if_pos (Nat.le_refl _)]
  | succ fuel ih =>
    intro wave offset ring hoffset hfuel hwave
    unfold bulkLoop
    by_cases hdone : offset ≥ length
    · rw [if_pos hdone]
      exact ⟨offset, ring, [], rfl, by omega⟩
    · have hrest : dma + offset + (length - offset) = dma + length := by omega
      have hpage := hwave.resolve_left (by omega)
      have hend : waveEnd (dma + offset) (dma + length) =
        min (dma + length) (((dma + offset) / 0x10000 + 63) * 0x10000) := rfl
      generalize hstop : waveEnd (dma + offset) (dma + length) = stop at hend
      obtain ⟨ring₁, chunks, hqueue, hcut⟩ := queueWave_eq ep ring
        (show dma + offset ≤ stop by omega) (by omega) (by omega)
      have hevent := hcut.deviceEvent_eq (show dma + offset ≤ dma + received by omega)
      rw [if_neg hdone]
      dsimp only
      rw [checkedAdd_eq (by omega), ok_bind, maxWaveLength_eq (by omega), ok_bind, hrest, hstop,
        hqueue]
      dsimp only [ok_bind, Option.map_some, waveResult]
      rw [hevent]
      by_cases hshort : dma + received < stop
      · -- the last wave: only its last TRB ends where the wave ends
        have hchunk : chunkEnd (dma + received) stop =
          min stop (((dma + received) / 0x10000 + 1) * 0x10000) := rfl
        have hresidue : untransferred stop (dma + received) =
          chunkEnd (dma + received) stop - (dma + received) := rfl
        rw [if_pos hshort, completionCode_eventWord (by decide) (by omega),
          eventResidue_eventWord (by decide) (by omega), if_neg (by decide),
          checkedAdd_eq (by omega), ok_bind, if_pos (by omega)]
        refine ⟨_, ring₁, [(ring₁, chunks)], rfl, ?_⟩
        unfold LastOfWave
        omega
      · obtain ⟨count, ring₂, waves, hloop, hcount⟩ :=
          ih (wave + 1) (offset + (stop - (dma + offset))) ring₁ (by omega) (by omega) (by omega)
        rw [if_neg hshort, completionCode_eventWord (by decide) (by decide),
          eventResidue_eventWord (by decide) (by decide), if_neg (by decide), Nat.sub_zero,
          checkedAdd_eq (by omega), ok_bind, if_neg (Nat.lt_irrefl _), hloop]
        exact ⟨count, ring₂, (ring₁, chunks) :: waves, rfl, hcount⟩

/-- The count of an IN transfer of which the device sends `received` bytes. -/
theorem short_count_iff (dmaOffset maxPacketSize lineSize : Nat) (bounce : Option Nat)
    (ring : TrbRing)
    (bufferAddress length dma received : Nat) (hlength : 0 < length) (hle : received ≤ length)
    (hdma : dmaAddressOf lineSize bounce bufferAddress length = some dma)
    (hword : dma + length < wordSize) (hbus : dma + length + dmaOffset ≤ wordSize) :
    ∃ count ring' waves, submitBulkTransfer ⟨dmaOffset, maxPacketSize, true⟩ lineSize bounce
        (fun _ chunks => some (deviceEvent (dma + received) chunks)) ring bufferAddress length =
          .ok ⟨some count, ring', waves⟩ ∧
      (count = received ↔ received = length ∨ LastOfWave dma length received) := by
  obtain ⟨count, ring', waves, hloop, hcount⟩ := bulkLoop_short ⟨dmaOffset, maxPacketSize, true⟩ hle
    hword hbus length 0 0 ring (Nat.zero_le _) (by omega) (.inr rfl)
  refine ⟨count, ring', waves, ?_, hcount⟩
  unfold submitBulkTransfer
  rw [if_neg (by omega), hdma]
  exact hloop

/-- A transfer of one TRB that ends after 512 bytes. -/
theorem short_count_iff_one : ∃ ring' waves, submitBulkTransfer ⟨0, 512, true⟩ 64 none
    (fun _ chunks => some (deviceEvent (0x10000 + 0x200) chunks)) (TrbRing.new 0) 0x10000 0x10000 =
      .ok ⟨some 0x200, ring', waves⟩ := by
  obtain ⟨count, ring', waves, hok, hcount⟩ := short_count_iff 0 512 64 none (TrbRing.new 0) 0x10000
    0x10000 0x10000 0x200 (by decide) (by decide) (by decide) (by decide) (by decide)
  obtain rfl := hcount.2 (.inr (.inl (by decide)))
  exact ⟨ring', waves, hok⟩

/-- A transfer of two TRBs that ends after 512 bytes, in the first TRB: the second TRB is counted.
-/
theorem short_count_of_two : (submitBulkTransfer ⟨0, 512, true⟩ 64 none
    (fun _ chunks => some (deviceEvent (0x10000 + 0x200) chunks)) (TrbRing.new 0) 0x10000
      0x20000).map BulkOutcome.result = .ok (some 0x10200) := by
  decide +kernel

end MiniVisor.Drivers
