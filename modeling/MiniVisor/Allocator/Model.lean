import MiniVisor.Lib.Fault

/-!
# The page allocator

The model of `memory_allocator.rs`. Free memory is a pool of 64 entries, each an inclusive address
range. The enabled entries are linked twice: in a chain by address (`previous`, `next`, entered at
`firstEntry`) and in twelve lists by size (`listPrev`, `listNext`, entered at `freeList`).

A reference to an entry is the index of its slot. The pool is a function from slots to entries, of
which the code reaches the slots below `poolSize` only (`getMemoryEntry`). An operation returns the
code's `Result` together with the allocator it leaves behind, an error included; a failed assertion,
a checked overflow, an `unwrap` of `None` or a loop that does not end within its fuel is a `Fault`.
-/

set_option autoImplicit false

namespace MiniVisor.Allocator

open MiniVisor.Lib

/-- `PAGE_SHIFT` of `paging.rs`. -/
def pageShift : Nat := 12

/-- `POOL_SIZE`. -/
def poolSize : Nat := 64

/-- `NUM_OF_FREE_LIST`. -/
def numOfFreeList : Nat := 12

inductive MemoryError where
  | noEntry
  | invalidEntry
  | noMemory
  | invalidRequest
  deriving DecidableEq, Repr

/-- A pool entry. `stop` is the source's inclusive `end`; the only writer of the range is
`setRange`, whose assertion is the last field. -/
structure MemoryEntry where
  previous : Option Nat
  next : Option Nat
  listPrev : Option Nat
  listNext : Option Nat
  start : Nat
  stop : Nat
  enabled : Bool
  id : Nat
  start_le_stop : start ≤ stop

/-- The entries by slot. -/
abbrev Pool := Nat → MemoryEntry

structure MemoryAllocator where
  freeSize : Nat
  firstEntry : Option Nat
  freeList : Nat → Option Nat
  pool : Pool

/-- The code's result and the allocator after the call. -/
abbrev Outcome (α : Type) := Except MemoryError α × MemoryAllocator

namespace MemoryEntry

def new : MemoryEntry where
  previous := none
  next := none
  listPrev := none
  listNext := none
  start := 0
  stop := 0
  enabled := false
  id := 0
  start_le_stop := le_refl 0

def setRange (e : MemoryEntry) (start stop : Nat) : Except Fault MemoryEntry :=
  if h : start ≤ stop then .ok { e with start := start, stop := stop, start_le_stop := h }
  else .error .assertion

def getSize (e : MemoryEntry) : Nat := e.stop - e.start + 1

def isFirstEntry (e : MemoryEntry) : Bool := e.previous.isNone

end MemoryEntry

/-- Update of one slot of the pool. -/
def MemoryAllocator.modify (a : MemoryAllocator) (i : Nat) (f : MemoryEntry → MemoryEntry) :
    MemoryAllocator :=
  { a with pool := fun j => if j = i then f (a.pool j) else a.pool j }

/-- Update of one list head. -/
def MemoryAllocator.setHead (a : MemoryAllocator) (order : Nat) (head : Option Nat) :
    MemoryAllocator :=
  { a with freeList := fun o => if o = order then head else a.freeList o }

/-- `MemoryAllocator::new`. -/
def MemoryAllocator.new : MemoryAllocator where
  freeSize := 0
  firstEntry := none
  freeList := fun _ => none
  pool := fun _ => MemoryEntry.new

/-- `create_memory_entry`: the first disabled slot, reset and enabled. -/
def createMemoryEntry (a : MemoryAllocator) : Option (Nat × MemoryAllocator) :=
  match (List.range poolSize).find? fun i => !(a.pool i).enabled with
  | some i => some (i, a.modify i fun _ => { MemoryEntry.new with id := i, enabled := true })
  | none => none

/-- `get_memory_entry`: the reference, or nothing for an index outside the pool. -/
def getMemoryEntry (index : Nat) : Option Nat :=
  if index ≥ poolSize then none else some index

def getNextEntry (a : MemoryAllocator) (entry : Nat) : Option Nat :=
  (a.pool entry).next.bind getMemoryEntry

def getPrevEntry (a : MemoryAllocator) (entry : Nat) : Option Nat :=
  (a.pool entry).previous.bind getMemoryEntry

/-- `set_range` on a slot. -/
def setRangeAt (a : MemoryAllocator) (entry start stop : Nat) : Except Fault MemoryAllocator := do
  let e ← (a.pool entry).setRange start stop
  return a.modify entry fun _ => e

def setNextEntry (a : MemoryAllocator) (self next : Nat) : MemoryAllocator :=
  a.modify self fun e => { e with next := some (a.pool next).id }

def setPrevEntry (a : MemoryAllocator) (self prev : Nat) : MemoryAllocator :=
  a.modify self fun e => { e with previous := some (a.pool prev).id }

/-- `chain_after_me`: `self` names `entry` after it, and `entry` names `self` before it. -/
def chainAfterMe (a : MemoryAllocator) (self entry : Nat) : MemoryAllocator :=
  setPrevEntry (setNextEntry a self entry) entry self

/-- `MemoryEntry::delete`. -/
def delete (a : MemoryAllocator) (self : Nat) : MemoryAllocator :=
  let unlinked :=
    match getPrevEntry a self with
    | some previous =>
      match getNextEntry a self with
      | some next => chainAfterMe a previous next
      | none => a.modify previous fun e => { e with next := none }
    | none =>
      match getNextEntry a self with
      | some next => a.modify next fun e => { e with previous := none }
      | none => a
  unlinked.modify self fun e => { e with previous := none, next := none, enabled := false }

/-! ## Sizes and alignment -/

/-- The loop of `size_to_page_order`, with `left` iterations to go. -/
def pageOrderFrom (size : Nat) : (left order : Nat) → Nat
  | 0, order => order
  | left + 1, order =>
    if size > 2 ^ (order + pageShift) then
      if order + 1 = numOfFreeList - 1 then order + 1 else pageOrderFrom size left (order + 1)
    else order

def sizeToPageOrder (size : Nat) : Nat := pageOrderFrom size (numOfFreeList - 1) 0

/-- `1 << order`, which a 64-bit word has for orders below 64. -/
def shiftOne (order : Nat) : Except Fault Nat :=
  if order < 64 then .ok (2 ^ order) else .error .overflow

/-- `address & !(alignSize - 1)` for a power of two. -/
def maskAddress (address alignSize : Nat) : Nat := address / alignSize * alignSize

def alignAddressAndSize (address size alignOrder : Nat) : Except Fault (Nat × Nat) := do
  let alignSize ← shiftOne alignOrder
  let alignedAddress := maskAddress address alignSize
  let last ← checkedSub (← checkedAdd size (address - alignedAddress)) 1
  return (alignedAddress, ← checkedAdd (maskAddress last alignSize) alignSize)

def alignAddressAndAvailableSize (start size alignOrder : Nat) : Except Fault (Nat × Nat) :=
  if start = 0 then .ok (0, size)
  else do
    let alignSize ← shiftOne alignOrder
    let alignedAddress ← checkedAdd (maskAddress (start - 1) alignSize) alignSize
    let skipped ← checkedSub alignedAddress start
    if size > skipped then return (alignedAddress, size - skipped)
    else return (alignedAddress, 0)

def getEndAddress (address size : Nat) : Except Fault Nat := do
  checkedSub (← checkedAdd address size) 1

/-! ## The lists by size -/

/-- The entry after `entry` in its list. -/
def getListNext (a : MemoryAllocator) (entry : Nat) : Option Nat :=
  (a.pool entry).listNext.bind getMemoryEntry

/-- The entry before `entry` in its list. -/
def getListPrev (a : MemoryAllocator) (entry : Nat) : Option Nat :=
  (a.pool entry).listPrev.bind getMemoryEntry

/-- `unchain_from_freelist`. -/
def unchainFromFreelist (a : MemoryAllocator) (self : Nat) : MemoryAllocator :=
  let listPrev := (a.pool self).listPrev
  let listNext := (a.pool self).listNext
  let a₁ :=
    match getListPrev a self with
    | some prevEntry => a.modify prevEntry fun e => { e with listNext := listNext }
    | none => a
  let a₂ :=
    match getListNext a self with
    | some nextEntry => a₁.modify nextEntry fun e => { e with listPrev := listPrev }
    | none => a₁
  a₂.modify self fun e => { e with listNext := none, listPrev := none }

/-- Removal of an entry that is filed under `order`: the head moves on when it is this entry. -/
def unchainFromOrder (a : MemoryAllocator) (entry order : Nat) : MemoryAllocator :=
  unchainFromFreelist
    (if a.freeList order = some (a.pool entry).id then a.setHead order (a.pool entry).listNext
      else a)
    entry

def unchainEntryFromFreeList (a : MemoryAllocator) (entry : Nat) : MemoryAllocator :=
  unchainFromOrder a entry (sizeToPageOrder (a.pool entry).getSize)

/-- `entry` linked behind `listEntry`. -/
def chainListAfter (a : MemoryAllocator) (listEntry entry : Nat) : MemoryAllocator :=
  (a.modify listEntry fun e => { e with listNext := some (a.pool entry).id }).modify entry
    fun e => { e with listPrev := some (a.pool listEntry).id }

/-- `entry` linked before `nextEntry`. -/
def chainListBefore (a : MemoryAllocator) (entry nextEntry : Nat) : MemoryAllocator :=
  (a.modify entry fun e => { e with listNext := some (a.pool nextEntry).id }).modify nextEntry
    fun e => { e with listPrev := some (a.pool entry).id }

/-- The loop of `chain_entry_to_free_list`, at a list entry smaller than `entry`. -/
def chainAfterSmaller (a : MemoryAllocator) (entry : Nat) :
    (fuel listEntry : Nat) → Except Fault MemoryAllocator
  | 0, _ => .error .outOfFuel
  | fuel + 1, listEntry =>
    match getListNext a listEntry with
    | some nextEntry =>
      if (a.pool nextEntry).getSize ≥ (a.pool entry).getSize then
        .ok (chainListBefore (chainListAfter a listEntry entry) entry nextEntry)
      else chainAfterSmaller a entry fuel nextEntry
    | none => .ok (chainListAfter a listEntry entry)

/-- `chain_entry_to_free_list` once the entry has left its old list. -/
def insertToFreeList (a : MemoryAllocator) (entry : Nat) : Except Fault MemoryAllocator := do
  let newOrder := sizeToPageOrder (a.pool entry).getSize
  assertThat ((a.pool entry).listNext == none)
  assertThat ((a.pool entry).listPrev == none)
  match (a.freeList newOrder).bind getMemoryEntry with
  | some listEntry =>
    if (a.pool listEntry).getSize ≥ (a.pool entry).getSize then
      return (chainListBefore a entry listEntry).setHead newOrder (some (a.pool entry).id)
    else chainAfterSmaller a entry poolSize listEntry
  | none => return a.setHead newOrder (some (a.pool entry).id)

/-- `chain_entry_to_free_list`. -/
def chainEntryToFreeList (a : MemoryAllocator) (entry : Nat) (oldSize : Option Nat) :
    Except Fault MemoryAllocator :=
  match oldSize with
  | none => insertToFreeList a entry
  | some oldSize =>
    if oldSize = (a.pool entry).getSize then .ok a
    else insertToFreeList (unchainFromOrder a entry (sizeToPageOrder oldSize)) entry

/-! ## The chain by address -/

/-- The loop of `search_entry_containing_address_mut`. -/
def searchContaining (a : MemoryAllocator) (address : Nat) :
    (fuel entry : Nat) → Except Fault (Option Nat)
  | 0, _ => .error .outOfFuel
  | fuel + 1, entry =>
    if (a.pool entry).start < address ∧ (a.pool entry).stop < address then
      match getNextEntry a entry with
      | some t => searchContaining a address fuel t
      | none => .ok none
    else if address ≥ (a.pool entry).start ∧ address ≤ (a.pool entry).stop then .ok (some entry)
    else .ok none

def searchEntryContainingAddress (a : MemoryAllocator) (address : Nat) :
    Except Fault (Option Nat) :=
  match a.firstEntry.bind getMemoryEntry with
  | some entry => searchContaining a address poolSize entry
  | none => .ok none

/-- The loop of `search_entry_previous_address_mut`. -/
def searchPrevious (a : MemoryAllocator) (address : Nat) :
    (fuel entry : Nat) → Except Fault (Option Nat)
  | 0, _ => .error .outOfFuel
  | fuel + 1, entry =>
    if (a.pool entry).start < address then
      match getNextEntry a entry with
      | some t => searchPrevious a address fuel t
      | none =>
        if (a.pool entry).stop ≤ address then .ok (some entry) else .ok (getPrevEntry a entry)
    else .ok (getPrevEntry a entry)

def searchEntryPreviousAddress (a : MemoryAllocator) (address : Nat) :
    Except Fault (Option Nat) :=
  match a.firstEntry.bind getMemoryEntry with
  | some entry => searchPrevious a address poolSize entry
  | none => .ok none

/-! ## Taking memory -/

/-- `define_used_memory` when the range is the whole entry. -/
def deleteUsed (a : MemoryAllocator) (entry : Nat) : MemoryAllocator :=
  let a₁ :=
    if (a.pool entry).isFirstEntry then
      match getNextEntry a entry with
      | some next => { a with firstEntry := some (a.pool next).id }
      | none => { a with firstEntry := none }
    else a
  delete (unchainEntryFromFreeList a₁ entry) entry

/-- `set_range` followed by `chain_entry_to_free_list`. -/
def resize (a : MemoryAllocator) (entry start stop : Nat) (oldSize : Nat) :
    Except Fault MemoryAllocator := do
  chainEntryToFreeList (← setRangeAt a entry start stop) entry (some oldSize)

/-- `define_used_memory` when the range is inside the entry: the part above it becomes an entry of
its own. -/
def splitUsed (a : MemoryAllocator) (entry start size : Nat) :
    Except Fault (Option MemoryAllocator) :=
  match createMemoryEntry a with
  | none => .ok none
  | some (newEntry, a) => do
    let oldSize := (a.pool entry).getSize
    let a ← setRangeAt a newEntry (← checkedAdd start size) (a.pool entry).stop
    let a ← setRangeAt a entry (a.pool entry).start (← checkedSub start 1)
    let a :=
      match getNextEntry a entry with
      | some next => chainAfterMe a newEntry next
      | none => a
    let a := chainAfterMe a entry newEntry
    let a ← chainEntryToFreeList a entry (some oldSize)
    return some (← chainEntryToFreeList a newEntry none)

/-- The end of `define_used_memory`: `free_size -= size`. -/
def finishUsed (a : MemoryAllocator) (size : Nat) : Except Fault (Outcome Unit) := do
  return (.ok (), { a with freeSize := ← checkedSub a.freeSize size })

/-- The part of the request that is in the entry: a request may span past the end of its entry. -/
def clampSize (entryStop start size : Nat) : Except Fault Nat := do
  if entryStop < (← getEndAddress start size) then return (← checkedSub entryStop start) + 1
  else return size

/-- `define_used_memory` on its entry, with the size clamped to the entry. -/
def carveClamped (a : MemoryAllocator) (entry start size : Nat) : Except Fault (Outcome Unit) := do
  let entryStart := (a.pool entry).start
  let entryStop := (a.pool entry).stop
  if entryStart = start then
    if entryStop = (← getEndAddress start size) then
      finishUsed (deleteUsed a entry) size
    else
      finishUsed (← resize a entry (← checkedAdd start size) entryStop (a.pool entry).getSize) size
  else if entryStop = start then
    if size ≠ 1 then return (.error .invalidRequest, a)
    else
      let a ← setRangeAt a entry entryStart (← checkedSub start 1)
      finishUsed (← chainEntryToFreeList a entry (some ((a.pool entry).getSize + 1))) size
  else if entryStop = (← getEndAddress start size) then
    finishUsed (← resize a entry entryStart (← checkedSub start 1) (a.pool entry).getSize) size
  else
    match ← splitUsed a entry start size with
    | none => return (.error .noEntry, a)
    | some a => finishUsed a size

/-- `define_used_memory` on the entry that holds the range. -/
def carve (a : MemoryAllocator) (entry start size : Nat) : Except Fault (Outcome Unit) := do
  carveClamped a entry start (← clampSize (a.pool entry).stop start size)

/-- `define_used_memory` with `align_order` zero. -/
def defineUsedRange (a : MemoryAllocator) (start size : Nat) (targetEntry : Option Nat) :
    Except Fault (Outcome Unit) := do
  if size = 0 then return (.error .invalidRequest, a)
  else if a.freeSize < size then return (.error .noMemory, a)
  else
    match targetEntry with
    | some entry => carve a entry start size
    | none =>
      match ← searchEntryContainingAddress a start with
      | some entry => carve a entry start size
      | none => return (.error .invalidRequest, a)

/-- `define_used_memory`: its recursive call has `align_order` zero. -/
def defineUsedMemory (a : MemoryAllocator) (start size alignOrder : Nat)
    (targetEntry : Option Nat) : Except Fault (Outcome Unit) := do
  if size = 0 then return (.error .invalidRequest, a)
  else if a.freeSize < size then return (.error .noMemory, a)
  else if alignOrder ≠ 0 then do
    let (alignedStart, alignedSize) ← alignAddressAndSize start size alignOrder
    defineUsedRange a alignedStart alignedSize targetEntry
  else defineUsedRange a start size targetEntry

/-! ## Giving memory back -/

/-- What one round of `define_free_memory` ends in: its result, or a call for another range. -/
inductive FreeStep where
  | done (outcome : Outcome Unit)
  | again (a : MemoryAllocator) (start size : Nat)

/-- The range is right behind the entry: the entry grows upwards. -/
def growUp (a : MemoryAllocator) (entry start stop addressAfterEntry : Nat) :
    Except Fault (Bool × MemoryAllocator) := do
  if addressAfterEntry = start then
    return (true, ← setRangeAt a entry (a.pool entry).start stop)
  else return (false, a)

/-- The range is right before the first entry: the entry grows downwards. -/
def growDown (a : MemoryAllocator) (entry start stop : Nat) :
    Except Fault (Bool × MemoryAllocator) := do
  if (a.pool entry).isFirstEntry then
    if (a.pool entry).start = (← checkedAdd stop 1) then
      return (true, ← setRangeAt a entry start (a.pool entry).stop)
    else return (false, a)
  else return (false, a)

/-- The range is right before the next entry, which grows downwards and is filed again. -/
def growNext (a : MemoryAllocator) (next start stop : Nat) :
    Except Fault (Bool × MemoryAllocator) := do
  if (a.pool next).start = (← checkedAdd stop 1) then
    return (true, ← resize a next start (a.pool next).stop (a.pool next).getSize)
  else return (false, a)

/-- The next entry is merged into the entry when the two touch. -/
def mergeNext (a : MemoryAllocator) (entry next addressAfterEntry : Nat) (processed : Bool) :
    Except Fault MemoryAllocator := do
  let entryStop := (a.pool entry).stop
  if (a.pool next).start = (← checkedAdd entryStop 1) ∨
      (processed ∧ addressAfterEntry ≥ (a.pool next).start) then
    let a ← setRangeAt a entry (a.pool entry).start (max entryStop (a.pool next).stop)
    return delete (unchainEntryFromFreeList a next) next
  else return a

/-- `free_size += size` and the filing of the entry that grew. -/
def finishGrown (a : MemoryAllocator) (entry size oldSize : Nat) : Except Fault FreeStep := do
  let a := { a with freeSize := ← checkedAdd a.freeSize size }
  return .done (.ok (), ← chainEntryToFreeList a entry (some oldSize))

/-- `free_size += size` and the filing of the new entry. -/
def finishNew (a : MemoryAllocator) (entry newEntry size oldSize : Nat) :
    Except Fault FreeStep := do
  let a := { a with freeSize := ← checkedAdd a.freeSize size }
  let a ← chainEntryToFreeList a entry (some oldSize)
  return .done (.ok (), ← chainEntryToFreeList a newEntry none)

/-- A new entry beside an entry that has a next one. -/
def insertWithNext (a : MemoryAllocator) (entry next start stop size oldSize : Nat) :
    Except Fault FreeStep :=
  match createMemoryEntry a with
  | none => .ok (.done (.error .noEntry, a))
  | some (newEntry, a) => do
    let a ← setRangeAt a newEntry start stop
    if (a.pool newEntry).stop < (a.pool entry).start then
      match getPrevEntry a entry with
      | some prevEntry => do
        assertThat (decide ((a.pool prevEntry).stop < (a.pool newEntry).start))
        finishNew (chainAfterMe (chainAfterMe a prevEntry newEntry) newEntry entry) entry newEntry
          size oldSize
      | none =>
        finishNew (chainAfterMe { a with firstEntry := some (a.pool newEntry).id } newEntry entry)
          entry newEntry size oldSize
    else
      let a := setNextEntry (setPrevEntry a next newEntry) newEntry next
      finishNew (chainAfterMe a entry newEntry) entry newEntry size oldSize

/-- A new entry beside the last entry of the chain. -/
def insertAtLast (a : MemoryAllocator) (entry start stop size oldSize : Nat) :
    Except Fault FreeStep :=
  match createMemoryEntry a with
  | none => .ok (.done (.error .noEntry, a))
  | some (newEntry, a) => do
    let a ← setRangeAt a newEntry start stop
    if (a.pool entry).stop < (a.pool newEntry).start then
      finishNew (chainAfterMe a entry newEntry) entry newEntry size oldSize
    else
      match getPrevEntry a entry with
      | some prevEntry => do
        assertThat (decide ((a.pool prevEntry).stop < (a.pool entry).start))
        finishNew (chainAfterMe (chainAfterMe a prevEntry newEntry) newEntry entry) entry newEntry
          size oldSize
      | none =>
        finishNew (chainAfterMe { a with firstEntry := some (a.pool newEntry).id } newEntry entry)
          entry newEntry size oldSize

/-- The branch of `define_free_memory` for an entry with a next one. -/
def freeWithNext (a : MemoryAllocator) (entry next start stop size oldSize addressAfterEntry : Nat)
    (processed : Bool) : Except Fault FreeStep := do
  if (a.pool next).start ≤ start then
    assertThat (!processed)
    if (a.pool next).stop ≥ stop then return .done (.error .invalidRequest, a)
    else return .again a (← checkedAdd (a.pool next).stop 1) (← checkedSub stop (a.pool next).stop)
  else
    let (grown, a) ← growNext a next start stop
    let processed := processed || grown
    let a ← mergeNext a entry next addressAfterEntry processed
    if processed then finishGrown a entry size oldSize
    else insertWithNext a entry next start stop size oldSize

/-- `define_free_memory` after its checks for memory that is free already. -/
def freeBeside (a : MemoryAllocator) (entry start stop size : Nat) : Except Fault FreeStep := do
  let oldSize := (a.pool entry).getSize
  let addressAfterEntry ← checkedAdd (a.pool entry).stop 1
  let (up, a) ← growUp a entry start stop addressAfterEntry
  let (down, a) ← growDown a entry start stop
  let processed := up || down
  match getNextEntry a entry with
  | some next => freeWithNext a entry next start stop size oldSize addressAfterEntry processed
  | none =>
    if processed then finishGrown a entry size oldSize
    else insertAtLast a entry start stop size oldSize

/-- `define_free_memory` at the entry it selected, up to its recursive calls. -/
def freeAt (a : MemoryAllocator) (entry start size : Nat) : Except Fault FreeStep := do
  let stop ← getEndAddress start size
  let entryStart := (a.pool entry).start
  let entryStop := (a.pool entry).stop
  if entryStart ≤ start ∧ entryStop ≥ stop then return .done (.error .invalidRequest, a)
  else if entryStop ≥ start ∧ ¬(a.pool entry).isFirstEntry then
    return .again a (← checkedAdd entryStop 1) (← checkedAdd (← checkedSub stop entryStop) 2)
  else if entryStop = stop then
    return .again a start (← checkedSub size (a.pool entry).getSize)
  else freeBeside a entry start stop size

/-- One round of `define_free_memory`. -/
def freeStep (a : MemoryAllocator) (start size : Nat) : Except Fault FreeStep := do
  if size = 0 then return .done (.error .invalidRequest, a)
  else
    match ← searchEntryPreviousAddress a start with
    | some entry => freeAt a entry start size
    | none =>
      match a.firstEntry with
      | none => .error .unwrapNone
      | some first =>
        match getMemoryEntry first with
        | some entry => freeAt a entry start size
        | none => return .done (.error .invalidEntry, a)

/-- `define_free_memory`, with at most `fuel` calls. -/
def defineFreeMemory (a : MemoryAllocator) (start size : Nat) :
    (fuel : Nat) → Except Fault (Outcome Unit)
  | 0 => .error .outOfFuel
  | fuel + 1 => do
    match ← freeStep a start size with
    | .done outcome => return outcome
    | .again a start size => defineFreeMemory a start size fuel

/-- The depth to which `define_free_memory` may recurse. Every call but the last passes one entry
for good, from the left or from the right. -/
def freeFuel : Nat := 2 * poolSize + 1

/-- `free`. -/
def free (a : MemoryAllocator) (start size : Nat) : Except Fault (Outcome Unit) :=
  if a.freeSize = 0 then
    match createMemoryEntry a with
    | none => .ok (.error .noEntry, a)
    | some (firstEntry, a) => do
      let a ← setRangeAt a firstEntry start (← getEndAddress start size)
      let a ← chainEntryToFreeList a firstEntry none
      return (.ok (), { a with firstEntry := some (a.pool firstEntry).id, freeSize := size })
  else defineFreeMemory a start size freeFuel

/-! ## Allocation -/

/-- The address at which `allocate_with_address_limit` takes `size` bytes from the entry, if the
part of the entry below the limit has room for them. -/
def fitAddress (e : MemoryEntry) (size alignOrder addressLimit : Nat) :
    Except Fault (Option Nat) := do
  let stop := min e.stop (addressLimit - 1)
  let availableSize := if stop ≥ e.start then stop - e.start + 1 else 0
  if availableSize ≥ size then
    if alignOrder ≠ 0 then
      let (alignedAddress, alignedAvailableSize) ←
        alignAddressAndAvailableSize e.start availableSize alignOrder
      if alignedAvailableSize < size then return none else return some alignedAddress
    else return some e.start
  else return none

/-- The walk over one list: the first entry with room, and the address in it. -/
def walkList (a : MemoryAllocator) (size alignOrder addressLimit : Nat) :
    (fuel : Nat) → (entry : Option Nat) → Except Fault (Option (Nat × Nat))
  | _, none => .ok none
  | 0, some _ => .error .outOfFuel
  | fuel + 1, some e => do
    match ← fitAddress (a.pool e) size alignOrder addressLimit with
    | some address => return some (e, address)
    | none => walkList a size alignOrder addressLimit fuel (getListNext a e)

/-- The loop of `allocate_with_address_limit` over the lists. -/
def allocateFrom (a : MemoryAllocator) (size alignOrder addressLimit : Nat) :
    (orders : List Nat) → Except Fault (Outcome Nat)
  | [] => .ok (.error .noMemory, a)
  | i :: orders =>
    match a.freeList i with
    | none => allocateFrom a size alignOrder addressLimit orders
    | some t =>
      match getMemoryEntry t with
      | none => .ok (.error .invalidEntry, a)
      | some firstEntry => do
        match ← walkList a size alignOrder addressLimit poolSize (some firstEntry) with
        | none => allocateFrom a size alignOrder addressLimit orders
        | some (e, address) =>
          match ← defineUsedMemory a address size 0 (some e) with
          | (.ok (), a) => return (.ok address, a)
          | (.error err, a) => return (.error err, a)

def allocateWithAddressLimit (a : MemoryAllocator) (size alignOrder addressLimit : Nat) :
    Except Fault (Outcome Nat) :=
  if size = 0 then .ok (.error .invalidRequest, a)
  else if a.freeSize < size then .ok (.error .noMemory, a)
  else
    let pageOrder := sizeToPageOrder size
    allocateFrom a size alignOrder addressLimit
      (List.range' pageOrder (numOfFreeList - pageOrder))

def allocate (a : MemoryAllocator) (size alignOrder : Nat) : Except Fault (Outcome Nat) :=
  allocateWithAddressLimit a size alignOrder (wordSize - 1)

def allocateBelow (a : MemoryAllocator) (size alignOrder addressLimit : Nat) :
    Except Fault (Outcome Nat) :=
  allocateWithAddressLimit a size alignOrder addressLimit

def reserveMemory (a : MemoryAllocator) (startAddress size alignOrder : Nat) :
    Except Fault (Outcome Unit) :=
  defineUsedMemory a startAddress size alignOrder none

end MiniVisor.Allocator
