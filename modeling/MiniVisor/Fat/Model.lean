import MiniVisor.Lib.Program

/-!
# FAT32 files

A model of `Fat32::read` and `Fat32::write` in `fat32.rs`, from the FAT that is already in memory.
The block device and the allocator of bounce pages are parameters: a function that says which
transfers succeed, and one that gives the address of bounce pages, if there are any.

The state of a call is the hint of `FileInfo` and the record of the memory that the call used: the
transfers between the block device and the caller's buffer, those into bounce pages, and the copies
out of them. Loops take fuel.
-/

set_option autoImplicit false

namespace MiniVisor.Fat

open MiniVisor.Lib

/-- The volume. The FAT is given by its entries. -/
structure Fat32 where
  baseLba : Nat
  lbaSize : Nat
  bytesPerSector : Nat
  sectorsPerCluster : Nat
  reservedSectors : Nat
  fatSectors : Nat
  numberOfFats : Nat
  fat : Nat → Nat
  bytesPerSector_lt : bytesPerSector < 2 ^ 16
  sectorsPerCluster_lt : sectorsPerCluster < 2 ^ 8

/-- `FileInfo`, without its hint. -/
structure FileInfo where
  entryCluster : Nat
  fileSize : Nat
  entryCluster_lt : entryCluster < 2 ^ 32
  fileSize_lt : fileSize < 2 ^ 32

/-- The number of the first data cluster has 32 bits. -/
theorem firstCluster_lt : 2 < 2 ^ 32 := by decide

/-- The usual size of a sector has 16 bits. -/
theorem sectorSize_lt : 512 < 2 ^ 16 := by decide

/-- A transfer of a block device. -/
structure Transfer where
  isWrite : Bool
  bufferAddress : Nat
  blockAddress : Nat
  length : Nat
  deriving DecidableEq, Repr

/-- The block device, by the transfers that succeed, and `allocate_dma_pages`. -/
structure Backend where
  transfer : Transfer → Bool
  allocateDmaPages : Nat → Option Nat

/-- What a call does with memory. -/
inductive Effect where
  /-- The device reads or writes the caller's buffer. -/
  | direct (t : Transfer)
  /-- The device writes bounce pages. -/
  | bounce (t : Transfer)
  /-- Bounced bytes are copied into the caller's buffer. -/
  | copy (source bufferAddress length : Nat)
  deriving DecidableEq, Repr

structure Call where
  walkHint : Nat
  effects : List Effect

namespace Fat32

variable (fs : Fat32)

def bytesPerCluster : Nat := fs.sectorsPerCluster * fs.bytesPerSector

def clusterToSector (cluster : Nat) : Program Call Nat := do
  let fats ← fits 32 (fs.numberOfFats * fs.fatSectors)
  let start ← fits 32 (fs.reservedSectors + fats)
  let index ← minus cluster 2
  let distance ← fits 32 (index * fs.sectorsPerCluster)
  fits 32 (start + distance)

/-- The cluster behind a cluster, if the FAT has an entry for it that links to one. -/
def getNextCluster (cluster : Nat) : Option Nat :=
  if cluster < fs.fatSectors * fs.bytesPerSector / 4 ∧ 2 ≤ fs.fat cluster ∧
      fs.fat cluster < 0x0FFFFFF8 then some (fs.fat cluster)
  else none

/-- The byte address of a sector on the device. -/
def sectorAddress (baseSector : Nat) : Program Call Nat := do
  let base ← fits 64 (fs.baseLba * fs.lbaSize)
  fits 64 (base + baseSector * fs.bytesPerSector)

def record (effect : Effect) : Program Call Unit :=
  modify fun c => { c with effects := c.effects ++ [effect] }

/-- `FileInfo::walk_start`. -/
def walkStart (file : FileInfo) (walkHint clustersToSkip : Nat) : Nat × Nat :=
  let hintIndex := walkHint / 2 ^ 32
  let hintCluster := walkHint % 2 ^ 32
  if 2 ≤ hintCluster ∧ hintIndex ≤ clustersToSkip then (hintCluster, hintIndex)
  else (file.entryCluster, 0)

/-- `FileInfo::update_walk_hint`. -/
def updateWalkHint (index cluster : Nat) : Program Call Unit :=
  modify fun c => { c with walkHint := (index * 2 ^ 32) % 2 ^ 64 ||| cluster }

/-- The walk over a number of clusters. -/
def walk : Nat → Nat → Nat → Program Call (Option Nat)
  | 0, _, cluster => return some cluster
  | count + 1, clusterIndex, cluster => do
    match fs.getNextCluster cluster with
    | none => return none
    | some next =>
      updateWalkHint (clusterIndex + 1) next
      walk count (clusterIndex + 1) next

/-- The locals of the inner loop. -/
structure Gather where
  cluster : Nat
  sectors : Nat
  bytes : Nat
  sectorOffset : Nat
  dataOffset : Nat
  dataOffsetBackup : Nat
  deriving DecidableEq, Repr

/-- The sectors to skip, behind the start of a cluster. -/
def skipSectors (g : Gather) : Program Call Gather := do
  if g.dataOffset > fs.bytesPerSector then
    let sectorOffset ← quot g.dataOffset fs.bytesPerSector
    let dataOffset ← minus g.dataOffset (sectorOffset * fs.bytesPerSector)
    return { g with
      sectorOffset := sectorOffset, dataOffset := dataOffset, dataOffsetBackup := dataOffset }
  else
    return g

/-- The inner loop of `read` and `write`: the sectors of a run of adjacent clusters. Only `write`
refuses a rest of less than a sector. -/
def gather (isWrite : Bool) (length : Nat) : Nat → Gather → Program Call (Option Gather)
  | 0, _ => throw .outOfFuel
  | fuel + 1, g => do
    let left ← minus length g.bytes
    if isWrite = true ∧ left < fs.bytesPerSector then
      return none
    else
      let g ← skipSectors fs g
      let rest ← fits 64 (left + g.dataOffset)
      if rest ≤ fs.bytesPerCluster then
        let last ← quot (max rest 1 - 1) fs.bytesPerSector
        let sectors ← fits 32 (g.sectors + (1 + last))
        return some { g with sectors := sectors, bytes := length }
      else
        let sectors ← fits 32 (g.sectors + fs.sectorsPerCluster)
        let inCluster ← minus fs.bytesPerCluster g.dataOffset
        let bytes ← fits 64 (g.bytes + inCluster)
        match fs.getNextCluster g.cluster with
        | none => return none
        | some next =>
          let adjacent ← fits 32 (g.cluster + 1)
          if next ≠ adjacent then
            return some { g with sectors := sectors, bytes := bytes }
          else
            gather isWrite length fuel
              { g with cluster := next, sectors := sectors, bytes := bytes, dataOffset := 0 }

/-- The sector where a run starts, as the byte address and length of its transfer. -/
def runTransfer (isWrite : Bool) (buffer firstCluster : Nat) (g : Gather) :
    Program Call Transfer := do
  let first ← fs.clusterToSector firstCluster
  let sector ← fits 32 (first + g.sectorOffset)
  let block ← fs.sectorAddress sector
  return ⟨isWrite, buffer, block, g.sectors * fs.bytesPerSector⟩

/-- The size of the bounce buffer of a run, in pages. -/
def bouncePages (g : Gather) : Program Call Nat := do
  let bytes ← fits 64 (g.sectors * fs.bytesPerSector)
  let mask ← minus fs.lbaSize 1
  let aligned ← fits 64 ((bytes &&& (2 ^ 64 - 1 - mask)) + fs.lbaSize)
  return aligned / 2 ^ 12 + 1

/-- The buffer of a transfer: bounce pages if the data starts behind the first byte of a sector, and
otherwise the caller's buffer. -/
def transferBuffer (dev : Backend) (bufferAddress bufferPointer dataOffset pages : Nat) :
    Program Call (Option Nat) :=
  if dataOffset ≠ 0 then return dev.allocateDmaPages pages
  else do
    let address ← fits 64 (bufferAddress + bufferPointer)
    return some address

/-- The copy out of bounce pages. -/
def copyBounced (buffer bufferAddress bufferPointer dataOffset bytes : Nat) :
    Program Call Unit :=
  if dataOffset ≠ 0 then
    if bufferPointer ≠ 0 then throw .assertion
    else record (.copy (buffer + dataOffset) bufferAddress bytes)
  else return ()

/-- The outer loop of `read`. -/
def readRuns (dev : Backend) (bufferAddress length fuel : Nat) :
    Nat → Nat → Nat → Nat → Program Call (Option Nat)
  | 0, _, _, _ => throw .outOfFuel
  | runs + 1, cluster, dataOffset, bufferPointer => do
    match ← fs.gather false length fuel ⟨cluster, 0, 0, 0, dataOffset, dataOffset⟩ with
    | none => return none
    | some g =>
      let dataOffset := g.dataOffsetBackup
      let pages ← fs.bouncePages g
      match ← transferBuffer dev bufferAddress bufferPointer dataOffset pages with
      | none => return none
      | some buffer =>
        let t ← fs.runTransfer false buffer cluster g
        record (if dataOffset ≠ 0 then .bounce t else .direct t)
        if dev.transfer t = false then
          return none
        else
          copyBounced buffer bufferAddress bufferPointer dataOffset g.bytes
          let bufferPointer ← fits 64 (bufferPointer + g.bytes)
          if length = bufferPointer then
            return some bufferPointer
          else
            match fs.getNextCluster g.cluster with
            | none => return none
            | some next => readRuns dev bufferAddress length fuel runs next 0 bufferPointer

/-- The outer loop of `write`. -/
def writeRuns (dev : Backend) (bufferAddress length fuel : Nat) :
    Nat → Nat → Nat → Nat → Program Call (Option Nat)
  | 0, _, _, _ => throw .outOfFuel
  | runs + 1, cluster, dataOffset, bufferPointer => do
    match ← fs.gather true length fuel ⟨cluster, 0, 0, 0, dataOffset, dataOffset⟩ with
    | none => return none
    | some g =>
      if g.dataOffsetBackup ≠ 0 then
        return none
      else
        let buffer ← fits 64 (bufferAddress + bufferPointer)
        let t ← fs.runTransfer true buffer cluster g
        record (.direct t)
        if dev.transfer t = false then
          return none
        else
          let bufferPointer ← fits 64 (bufferPointer + g.bytes)
          if length = bufferPointer then
            return some bufferPointer
          else
            match fs.getNextCluster g.cluster with
            | none => return none
            | some next =>
              writeRuns dev bufferAddress length fuel runs next g.dataOffsetBackup bufferPointer

/-- `Fat32::read` (`isWrite` unset) and `Fat32::write`. The result is absent for an error. -/
def access (isWrite : Bool) (file : FileInfo) (dev : Backend)
    (fuel bufferAddress offset length : Nat) : Program Call (Option Nat) := do
  let last ← fits 64 (offset + length)
  if last > file.fileSize ∧ offset ≥ file.fileSize then
    return some 0
  else
    let length := if last > file.fileSize then file.fileSize - offset else length
    let clustersToSkip ← quot offset fs.bytesPerCluster
    let dataOffset := offset - clustersToSkip * fs.bytesPerCluster
    let hint := (← get).walkHint
    let (start, index) := walkStart file hint clustersToSkip
    match ← fs.walk (clustersToSkip - index) index start with
    | none => return none
    | some cluster =>
      if isWrite then fs.writeRuns dev bufferAddress length fuel fuel cluster dataOffset 0
      else fs.readRuns dev bufferAddress length fuel fuel cluster dataOffset 0

def read : FileInfo → Backend → Nat → Nat → Nat → Nat → Program Call (Option Nat) :=
  fs.access false

def write : FileInfo → Backend → Nat → Nat → Nat → Nat → Program Call (Option Nat) :=
  fs.access true

end Fat32

end MiniVisor.Fat
