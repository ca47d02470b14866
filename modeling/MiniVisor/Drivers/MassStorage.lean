import MiniVisor.Lib.Bytes
import MiniVisor.Lib.Program

/-!
# USB mass storage

A model of `drivers/usb_mass_storage.rs`. A command is a bulk transfer of a command block wrapper, a
data stage if the command has one, and a bulk transfer of a status wrapper. The device is arbitrary:
each bulk transfer ends as the device wants, and changes the device's own state.

`executeScsiCommandInner_asks` is what a command asks of the device, on any device and however it
ends: its own bulk transfers, and those of the REQUEST SENSE that follows one that fails.
-/

set_option autoImplicit false

namespace MiniVisor.Drivers.MassStorage

open MiniVisor.Lib

/-! ## The code -/

def cbwSignature : Nat := 0x43425355
def cswSignature : Nat := 0x53425355
def botFlagIn : UInt8 := 0x80
def botLun : UInt8 := 0

def scsiTestUnitReady : UInt8 := 0x00
def scsiRequestSense : UInt8 := 0x03
def scsiInquiry : UInt8 := 0x12
def scsiReadCapacity10 : UInt8 := 0x25
def scsiRead10 : UInt8 := 0x28
def scsiWrite10 : UInt8 := 0x2A
def scsiServiceActionIn16 : UInt8 := 0x9E
def scsiSaiReadCapacity16 : UInt8 := 0x10

/-- A bulk transfer that the driver asks for. -/
inductive BulkRequest where
  | command (cbw : List UInt8)
  | data (directionIn : Bool) (bufferAddress length : Nat)
  | status
  deriving DecidableEq, Repr

/-- A bulk transfer that succeeded: the number of bytes, and the bytes that came in. -/
structure Reply where
  transferred : Nat
  bytes : List UInt8
  deriving DecidableEq, Repr

/-- `XhciMassStorageDevice`. A bulk transfer may fail, and it may stop the program. -/
structure Device (δ : Type) where
  bulkTransfer : BulkRequest → Program δ (Option Reply)
  /-- The address of the arrays on the stack of the driver. -/
  stackBuffer : Nat

/-- The state of a device, the next tag, and the bulk transfers that were asked for. -/
structure Bot (δ : Type) where
  device : δ
  tag : Nat
  requests : List BulkRequest

variable {δ : Type} (dev : Device δ)

def bulkTransfer (request : BulkRequest) : Program (Bot δ) (Option Reply) := do
  modify fun s => { s with requests := s.requests ++ [request] }
  zoom Bot.device (fun d s => { s with device := d }) (dev.bulkTransfer request)

/-- The command block wrapper, an array of 31 bytes. -/
def cbwOf (tag : Nat) (cdb : List UInt8) (transferLength : Nat) (directionIn : Bool) : List UInt8 :=
  le32 cbwSignature ++ le32 tag ++ le32 transferLength ++
    [if directionIn then botFlagIn else 0, botLun, UInt8.ofNat cdb.length] ++ cdb ++
    List.replicate (16 - cdb.length) 0

/-- An array of zeros into which bytes were received. -/
def received (size : Nat) (bytes : List UInt8) : List UInt8 :=
  (bytes ++ List.replicate size 0).take size

/-- `execute_scsi_command_inner`. A command that fails is followed by a REQUEST SENSE, and this one
is a command too. -/
def executeScsiCommandInner : (fuel tag : Nat) → (cdb : List UInt8) →
    (bufferAddress transferLength : Nat) → (directionIn : Bool) → Program (Bot δ) (Option Reply)
  | 0, _, _, _, _, _ => throw .outOfFuel
  | fuel + 1, tag, cdb, bufferAddress, transferLength, directionIn => do
    if cdb.isEmpty ∨ cdb.length > 16 then
      return none
    let some _ ← bulkTransfer dev (.command (cbwOf tag cdb transferLength directionIn))
      | return none
    let some reply ←
      (if transferLength ≠ 0 then bulkTransfer dev (.data directionIn bufferAddress transferLength)
        else pure (some ⟨0, []⟩)) | return none
    let some csw ← bulkTransfer dev .status | return none
    if csw.transferred ≠ 13 then
      return none
    let array := received 13 csw.bytes
    let signature := leNat (array.take 4)
    let returnedTag := leNat ((array.drop 4).take 4)
    let residue := leNat ((array.drop 8).take 4)
    if signature ≠ cswSignature ∨ returnedTag ≠ tag then
      return none
    if array.getD 12 0 ≠ 0 then
      -- `request_sense_inner`, whose result is ignored
      let _ ← executeScsiCommandInner fuel ((tag + 0x1000) % 2 ^ 32)
        [scsiRequestSense, 0, 0, 0, 18, 0]
        dev.stackBuffer 18 true
      return none
    return some ⟨reply.transferred - residue, reply.bytes⟩

def requestSenseInner (fuel tag : Nat) : Program (Bot δ) (Option Unit) := do
  let some _ ← executeScsiCommandInner dev fuel tag [scsiRequestSense, 0, 0, 0, 18, 0]
    dev.stackBuffer 18
    true | return none
  return some ()

def testUnitReadyInner (fuel tag : Nat) : Program (Bot δ) (Option Unit) := do
  let some _ ← executeScsiCommandInner dev fuel tag [scsiTestUnitReady, 0, 0, 0, 0, 0] 0 0 false
    | return none
  return some ()

/-- The last block address and the block size that the device reports. -/
structure Capacity where
  lastLba : Nat
  blockSize : Nat
  lastLba_lt : lastLba < 2 ^ 64
  blockSize_lt : blockSize < 2 ^ 32

def capacity10 (response : List UInt8) : Capacity where
  lastLba := beNat (response.take 4)
  blockSize := beNat ((response.drop 4).take 4)
  lastLba_lt := (beNat_take_lt response 4).trans (by decide)
  blockSize_lt := beNat_take_lt (response.drop 4) 4

def capacity16 (response : List UInt8) : Capacity where
  lastLba := beNat (response.take 8)
  blockSize := beNat ((response.drop 8).take 4)
  lastLba_lt := beNat_take_lt response 8
  blockSize_lt := beNat_take_lt (response.drop 8) 4

def readCapacityInner (fuel tag : Nat) : Program (Bot δ) (Option Capacity) := do
  let some reply ← executeScsiCommandInner dev fuel tag
    [scsiReadCapacity10, 0, 0, 0, 0, 0, 0, 0, 0, 0]
    dev.stackBuffer 8 true | return none
  let capacity := capacity10 (received 8 reply.bytes)
  if capacity.lastLba ≠ 2 ^ 32 - 1 then
    return some capacity
  let tag ← fits 32 (tag + 1)
  let some reply ← executeScsiCommandInner dev fuel tag
    [scsiServiceActionIn16, scsiSaiReadCapacity16, 0, 0, 0, 0, 0, 0, 0, 0, 0, 0, 0, 32, 0, 0]
    dev.stackBuffer 32 true | return none
  return some (capacity16 (received 32 reply.bytes))

/-- `UsbMassStorage`, without the device and the tag. -/
structure UsbMassStorage extends Capacity where
  blockSize_pos : 0 < blockSize

/-- The loop of `new` that waits for the device, with `left` attempts to go. -/
def waitReady (fuel : Nat) : (left : Nat) → Program (Bot δ) Unit
  | 0 => return ()
  | left + 1 => do
    let some _ ← testUnitReadyInner dev fuel 2 | do
      let _ ← requestSenseInner dev fuel 3
      waitReady fuel left
    return ()

def new (fuel : Nat) : Program (Bot δ) (Option UsbMassStorage) := do
  let some _ ← executeScsiCommandInner dev fuel 1 [scsiInquiry, 0, 0, 0, 36, 0]
    dev.stackBuffer 36 true
    | return none
  waitReady dev fuel 4
  let some capacity ← readCapacityInner dev fuel 4 | return none
  if h : capacity.blockSize = 0 then
    return none
  else
    modify fun s => { s with tag := 5 }
    return some ⟨capacity, Nat.pos_of_ne_zero h⟩

def executeScsiCommand (fuel : Nat) (cdb : List UInt8) (bufferAddress transferLength : Nat)
    (directionIn : Bool) : Program (Bot δ) (Option Reply) := do
  let tag := (← get).tag
  modify fun s => { s with tag := (tag + 1) % 2 ^ 32 }
  executeScsiCommandInner dev fuel tag cdb bufferAddress transferLength directionIn

def maxBlocksPerCommand : Nat := max (2 ^ 16 - 1) 1

/-- The command block of READ(10) and WRITE(10). -/
def transferCdb (isWrite : Bool) (currentLba blocks : Nat) : List UInt8 :=
  [if isWrite then scsiWrite10 else scsiRead10, 0] ++ be32 currentLba ++ [0] ++ be16 blocks ++ [0]

namespace UsbMassStorage

variable (storage : UsbMassStorage)

/-- The loop of `read` and `write`, which differ in the opcode and the direction. Each iteration
takes at least one of the remaining blocks. -/
def transferLoop (fuel : Nat) (isWrite : Bool) :
    (left currentLba remainingBlocks buffer : Nat) → Program (Bot δ) (Option Unit)
  | _, _, 0, _ => return some ()
  | 0, _, _ + 1, _ => throw .outOfFuel
  | left + 1, currentLba, remainingBlocks@(_ + 1), buffer => do
    let blocks := min remainingBlocks maxBlocksPerCommand
    let requestEnd ← fits 64 (currentLba + blocks)
    if blocks ≠ 0 ∧ requestEnd - 1 > storage.lastLba then
      return none
    let transferBytes ← fits 64 (blocks * storage.blockSize)
    let some reply ← executeScsiCommand dev fuel (transferCdb isWrite currentLba blocks) buffer
      transferBytes (!isWrite) | return none
    if reply.transferred ≠ transferBytes then
      return none
    let buffer ← fits 64 (buffer + transferBytes)
    transferLoop fuel isWrite left requestEnd (remainingBlocks - blocks) buffer

def transfer (fuel : Nat) (isWrite : Bool) (bufferAddress blockAddress length : Nat) :
    Program (Bot δ) (Option Unit) := do
  if blockAddress % storage.blockSize ≠ 0 ∨ length % storage.blockSize ≠ 0 then
    return none
  let totalBlocks := length / storage.blockSize
  storage.transferLoop dev fuel isWrite totalBlocks (blockAddress / storage.blockSize) totalBlocks
    bufferAddress

def read (fuel : Nat) := storage.transfer dev fuel false

def write (fuel : Nat) := storage.transfer dev fuel true

end UsbMassStorage

/-! ## What was asked of the device -/

/-- A READ(10) or a WRITE(10), as the device decodes it. -/
structure Command where
  isWrite : Bool
  lba : Nat
  blocks : Nat
  deriving DecidableEq, Repr

/-- The blocks that a command is about. -/
def Command.lbas (c : Command) : List Nat := List.range' c.lba c.blocks

/-- The bytes of a data stage. -/
structure Slice where
  directionIn : Bool
  address : Nat
  length : Nat
  deriving DecidableEq, Repr

def commandOf : BulkRequest → Option Command
  | .command cbw =>
    let cdb := cbw.drop 15
    let opcode := cdb.getD 0 0
    if opcode = scsiRead10 ∨ opcode = scsiWrite10 then
      some ⟨opcode = scsiWrite10, beNat ((cdb.drop 2).take 4), beNat ((cdb.drop 7).take 2)⟩
    else none
  | _ => none

def sliceOf : BulkRequest → Option Slice
  | .data directionIn bufferAddress length => some ⟨directionIn, bufferAddress, length⟩
  | _ => none

def commands (requests : List BulkRequest) : List Command := requests.filterMap commandOf

def slices (requests : List BulkRequest) : List Slice := requests.filterMap sliceOf

@[simp] theorem commands_append (l k : List BulkRequest) :
    commands (l ++ k) = commands l ++ commands k := List.filterMap_append

@[simp] theorem slices_append (l k : List BulkRequest) : slices (l ++ k) = slices l ++ slices k :=
  List.filterMap_append

/-- The block address in a command has 32 bits. -/
theorem commandOf_transferCdb (tag currentLba blocks length : Nat) (isWrite directionIn : Bool) :
    commandOf (.command (cbwOf tag (transferCdb isWrite currentLba blocks) length directionIn)) =
      some ⟨isWrite, currentLba % 2 ^ 32, blocks % 2 ^ 16⟩ := by
  have hlba := beNat_be32_mod currentLba
  have hblocks := beNat_be16_mod blocks
  cases isWrite with
  | false =>
    show some (Command.mk false (beNat (be32 currentLba)) (beNat (be16 blocks))) = _
    rw [hlba, hblocks]
  | true =>
    show some (Command.mk true (beNat (be32 currentLba)) (beNat (be16 blocks))) = _
    rw [hlba, hblocks]

/-! ## One command on any device -/

/-- The bulk transfers of a command that succeeds. -/
def stages (cbw : List UInt8) (bufferAddress transferLength : Nat) (directionIn : Bool) :
    List BulkRequest :=
  .command cbw ::
    (if transferLength ≠ 0 then [.data directionIn bufferAddress transferLength] else []) ++
    [.status]

/-- A bulk transfer of a REQUEST SENSE. -/
def Sense : BulkRequest → Prop
  | .command cbw => ∃ tag, cbw = cbwOf tag [scsiRequestSense, 0, 0, 0, 18, 0] 18 true
  | .data directionIn bufferAddress length =>
    directionIn = true ∧ bufferAddress = dev.stackBuffer ∧ length = 18
  | .status => True

theorem sense_of_mem_stages {tag : Nat} {x : BulkRequest}
    (hx : x ∈ stages (cbwOf tag [scsiRequestSense, 0, 0, 0, 18, 0] 18 true) dev.stackBuffer 18
      true) : Sense dev x := by
  rw [stages, if_pos (by decide)] at hx
  simp only [List.cons_append, List.nil_append, List.mem_cons, List.not_mem_nil, or_false] at hx
  rcases hx with rfl | rfl | rfl
  · exact ⟨tag, rfl⟩
  · exact ⟨rfl, rfl, rfl⟩
  · trivial

section Asked

variable {dev} {s t : Bot δ} {l : List BulkRequest}

/-- More was asked: bulk transfers of a list, and those of REQUEST SENSE. -/
def Asked (dev : Device δ) (l : List BulkRequest) (s t : Bot δ) : Prop :=
  ∃ k, t.requests = s.requests ++ k ∧ ∀ x ∈ k, x ∈ l ∨ Sense dev x

theorem Asked.refl (l : List BulkRequest) (s : Bot δ) : Asked dev l s s :=
  ⟨[], (List.append_nil _).symm, List.forall_mem_nil _⟩

theorem Asked.trans {u : Bot δ} (h : Asked dev l s t) (h' : Asked dev l t u) : Asked dev l s u := by
  obtain ⟨k, hk, hasked⟩ := h
  obtain ⟨k', hk', hasked'⟩ := h'
  exact ⟨k ++ k', by rw [hk', hk, List.append_assoc], List.forall_mem_append.2 ⟨hasked, hasked'⟩⟩

theorem asked_of_append {k : List BulkRequest} (ht : t.requests = s.requests ++ k)
    (hk : ∀ x ∈ k, x ∈ l) : Asked dev l s t := ⟨k, ht, fun x hx => .inl (hk x hx)⟩

theorem wp_bulkTransfer {request : BulkRequest} {fail : Fault → Bot δ → Prop}
    {post : Option Reply → Bot δ → Prop}
    (hfail : ∀ fault d, fail fault { s with device := d, requests := s.requests ++ [request] })
    (hpost : ∀ r d, post r { s with device := d, requests := s.requests ++ [request] }) :
    wp (bulkTransfer dev request) fail post s := by
  rw [bulkTransfer, wp_bind, wp_modify, wp_zoom]
  exact wp_of_forall (fun fault d => hfail fault d) fun r d => hpost r d

/-- The data stage, if there is one. -/
theorem wp_dataStage {directionIn : Bool} {bufferAddress transferLength : Nat} (s : Bot δ) :
    wp (if transferLength ≠ 0 then bulkTransfer dev (.data directionIn bufferAddress transferLength)
        else pure (some ⟨0, []⟩))
      (fun _ t => t.requests = s.requests ++
        if transferLength ≠ 0 then [.data directionIn bufferAddress transferLength] else [])
      (fun _ t => t.requests = s.requests ++
        if transferLength ≠ 0 then [.data directionIn bufferAddress transferLength] else []) s := by
  rw [wp_ite]
  refine ⟨fun hne => ?_, fun heq => ?_⟩
  · rw [if_pos hne]
    exact wp_bulkTransfer (fun _ _ => rfl) fun _ _ => rfl
  · rw [wp_pure, if_neg heq, List.append_nil]

theorem executeScsiCommandInner_asks (fuel tag : Nat) (cdb : List UInt8)
    (bufferAddress transferLength : Nat) (directionIn : Bool) (s : Bot δ) :
    wp (executeScsiCommandInner dev fuel tag cdb bufferAddress transferLength directionIn)
      (fun _ t => Asked dev (stages (cbwOf tag cdb transferLength directionIn) bufferAddress
        transferLength directionIn) s t)
      (fun r t => Asked dev (stages (cbwOf tag cdb transferLength directionIn) bufferAddress
          transferLength directionIn) s t ∧
        ∀ reply, r = some reply → t.requests = s.requests ++
          stages (cbwOf tag cdb transferLength directionIn) bufferAddress
            transferLength directionIn)
      s := by
  induction fuel generalizing tag cdb bufferAddress transferLength directionIn s with
  | zero => exact Asked.refl _ s
  | succ fuel ih =>
    generalize hcbw : cbwOf tag cdb transferLength directionIn = cbw
    generalize hl : stages cbw bufferAddress transferLength directionIn = l
    rw [executeScsiCommandInner, wp_ite]
    refine ⟨fun _ => ⟨Asked.refl _ s, fun _ hno => nomatch hno⟩, fun _ => ?_⟩
    rw [wp_bind, hcbw]
    -- the command
    have hcommand : ∀ d, Asked dev l s
        { s with device := d, requests := s.requests ++ [.command cbw] } := by
      refine fun d => asked_of_append rfl (List.forall_mem_singleton.2 ?_)
      rw [← hl, stages]
      exact List.mem_append_left _ List.mem_cons_self
    refine wp_bulkTransfer (fun _ d => hcommand d) fun r d => ?_
    cases r with
    | none => exact ⟨hcommand d, fun _ hno => nomatch hno⟩
    | some r =>
    -- the data stage
    have hdata : ∀ {t : Bot δ}, t.requests = s.requests ++ [.command cbw] ++
        (if transferLength ≠ 0 then [.data directionIn bufferAddress transferLength] else []) →
        Asked dev l s t := by
      intro t ht
      refine (hcommand d).trans (asked_of_append ht fun x hx => ?_)
      rw [← hl, stages]
      exact List.mem_append_left _ (List.mem_cons_of_mem _ hx)
    refine (wp_bind _ _).2 (wp_mono (wp_dataStage _) (fun _ _ ht => hdata ht) fun reply t ht => ?_)
    cases reply with
    | none => exact ⟨hdata ht, fun _ hno => nomatch hno⟩
    | some reply =>
    -- the status
    have hstatus : ∀ d', Asked dev l s
        { t with device := d', requests := t.requests ++ [.status] } := by
      refine fun d' => (hdata ht).trans (asked_of_append rfl (List.forall_mem_singleton.2 ?_))
      rw [← hl, stages]
      exact List.mem_append_right _ (List.mem_singleton.2 rfl)
    refine (wp_bind _ _).2 (wp_bulkTransfer (fun _ d' => hstatus d') fun csw d' => ?_)
    cases csw with
    | none => exact ⟨hstatus d', fun _ hno => nomatch hno⟩
    | some csw =>
    refine (wp_ite _ _ _).2 ⟨fun _ => ⟨hstatus d', fun _ hno => nomatch hno⟩, fun _ => ?_⟩
    refine (wp_ite _ _ _).2 ⟨fun _ => ⟨hstatus d', fun _ hno => nomatch hno⟩, fun _ => ?_⟩
    refine (wp_ite _ _ _).2 ⟨fun _ => ?_, fun _ => ⟨hstatus d', fun _ _ => ?_⟩⟩
    · -- the command failed, and a REQUEST SENSE follows
      have hsense : ∀ {u : Bot δ} {tag' : Nat},
          Asked dev (stages (cbwOf tag' [scsiRequestSense, 0, 0, 0, 18, 0] 18 true) dev.stackBuffer
            18 true) { t with device := d', requests := t.requests ++ [.status] } u →
          Asked dev l s u := by
        intro u tag' ⟨k, hk, hasked⟩
        exact (hstatus d').trans
          ⟨k, hk, fun x hx => .inr ((hasked x hx).elim (sense_of_mem_stages dev) id)⟩
      refine (wp_bind _ _).2 (wp_mono (ih _ _ _ _ _ _) (fun _ _ hu => hsense hu) fun _ u hu => ?_)
      exact ⟨hsense hu.1, fun _ hno => nomatch hno⟩
    · show t.requests ++ [BulkRequest.status] = _
      rw [ht, ← hl]
      show s.requests ++ [BulkRequest.command cbw] ++ _ ++ _ = s.requests ++ stages _ _ _ _
      rw [stages, List.append_assoc, List.append_assoc]
      rfl

/-- The bulk transfers of READ(10) or WRITE(10). -/
def transferStages (tag : Nat) (isWrite : Bool) (lba blocks buffer bytes : Nat) :
    List BulkRequest :=
  stages (cbwOf tag (transferCdb isWrite lba blocks) bytes (!isWrite)) buffer bytes (!isWrite)

theorem commands_transferStages (tag : Nat) (isWrite : Bool) (lba blocks buffer bytes : Nat) :
    commands (transferStages tag isWrite lba blocks buffer bytes) =
      [⟨isWrite, lba % 2 ^ 32, blocks % 2 ^ 16⟩] := by
  rw [transferStages, stages, commands, List.cons_append,
    List.filterMap_cons_some (commandOf_transferCdb tag lba blocks bytes isWrite (!isWrite))]
  split <;> rfl

theorem slices_transferStages (tag : Nat) (isWrite : Bool) (lba blocks buffer : Nat) {bytes : Nat}
    (hbytes : bytes ≠ 0) : slices (transferStages tag isWrite lba blocks buffer bytes) =
      [⟨!isWrite, buffer, bytes⟩] := by
  rw [transferStages, stages, if_pos hbytes]
  rfl

/-- READ(10) and WRITE(10). -/
theorem executeScsiCommand_asks (fuel : Nat) (isWrite : Bool) (lba blocks buffer bytes : Nat)
    (s : Bot δ) :
    wp (executeScsiCommand dev fuel (transferCdb isWrite lba blocks) buffer bytes (!isWrite))
      (fun _ t => Asked dev (transferStages s.tag isWrite lba blocks buffer bytes) s t)
      (fun r t => Asked dev (transferStages s.tag isWrite lba blocks buffer bytes) s t ∧
        ∀ reply, r = some reply →
          t.requests = s.requests ++ transferStages s.tag isWrite lba blocks buffer bytes) s := by
  rw [executeScsiCommand, wp_bind, wp_get, wp_bind, wp_modify]
  exact executeScsiCommandInner_asks _ _ _ _ _ _ _

end Asked

end MiniVisor.Drivers.MassStorage
