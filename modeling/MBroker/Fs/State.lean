import MBroker.Lib.CMemory

/-!
# TécnicoFS state (fs/state.c)

The file system's tables as `fs/state.c` keeps them: the inode table and
its allocation map, the raw data blocks and theirs, the open file table
and its. The root directory is not a structure of its own: its entries
are bytes of a data block.

Each function takes the state and returns the new one, or the `Fault`
that ends the process. `insert_delay` and the log lines change nothing
and are left out. A pointer to an inode, to a block or to an open file
entry is its index in the table it points into.
-/

namespace MBroker

/-! ## Types (fs/state.h, fs/config.h) -/

/-- TécnicoFS parameters. -/
structure TfsParams where
  maxInodeCount : Nat
  maxBlockCount : Nat
  maxOpenFilesCount : Nat
  blockSize : Nat
deriving DecidableEq, Repr

inductive InodeType where
  | tFile
  | tDirectory
deriving DecidableEq, Repr

structure Inode where
  iNodeType : InodeType
  iSize : Nat
  iDataBlock : Int
deriving DecidableEq, Repr

inductive AllocationState where
  | free
  | taken
deriving DecidableEq, Repr

/-- Open file entry (in open file table). -/
structure OpenFileEntry where
  ofInumber : Int
  ofOffset : Nat
deriving DecidableEq, Repr

/-- FS root inode number. -/
def rootDirInum : Int := 0

def maxFileName : Nat := 40

/-- `sizeof(dir_entry_t)`: `d_name` at offset 0, `d_inumber` at offset 40. -/
def sizeofDirEntry : Nat := 44

/-- `sizeof(inode_t)`. -/
def sizeofInode : Nat := 24

/-- `sizeof(open_file_entry_t)`. -/
def sizeofOpenFileEntry : Nat := 16

/-- `sizeof(allocation_state_t)`. -/
def sizeofAllocationState : Nat := 4

/-- The number of values an `int` counter of a loop takes before it
overflows. A loop that compares it with a `size_t` ends there: the
negative index converts to a bound past every table. -/
def intIndices : Nat := 2147483648

/-- FS state: the static variables of fs/state.c. -/
structure Tfs where
  fsParams : TfsParams
  inodeTable : Region Inode
  freeinodeTs : Region AllocationState
  fsData : Region UInt8
  freeBlocks : Region AllocationState
  openFileTable : Region OpenFileEntry
  freeOpenFileEntries : Region AllocationState

/-- What the six calls of `malloc` in `state_init` return: `none` is
`NULL`, else the contents the block happens to have. -/
structure Mallocs where
  inodeTable : Option (Nat → Inode)
  freeinodeTs : Option (Nat → AllocationState)
  fsData : Option (Nat → UInt8)
  freeBlocks : Option (Nat → AllocationState)
  openFileTable : Option (Nat → OpenFileEntry)
  freeOpenFileEntries : Option (Nat → AllocationState)

namespace Tfs

/-! ## Convenience macros -/

/-- `INODE_TABLE_SIZE`. -/
abbrev inodeTableSize (s : Tfs) : Nat := s.fsParams.maxInodeCount

/-- `DATA_BLOCKS`. -/
abbrev dataBlocks (s : Tfs) : Nat := s.fsParams.maxBlockCount

/-- `MAX_OPEN_FILES`. -/
abbrev maxOpenFiles (s : Tfs) : Nat := s.fsParams.maxOpenFilesCount

/-- `BLOCK_SIZE`. -/
abbrev blockSize (s : Tfs) : Nat := s.fsParams.blockSize

/-- `MAX_DIR_ENTRIES`. -/
def maxDirEntries (s : Tfs) : Nat := s.blockSize / sizeofDirEntry

abbrev validInumber (s : Tfs) (inumber : Int) : Prop :=
  0 ≤ inumber ∧ inumber < s.inodeTableSize

abbrev validBlockNumber (s : Tfs) (blockNumber : Int) : Prop :=
  0 ≤ blockNumber ∧ blockNumber < s.dataBlocks

abbrev validFileHandle (s : Tfs) (fileHandle : Int) : Prop :=
  0 ≤ fileHandle ∧ fileHandle < s.maxOpenFiles

/-- An update of `inode_table[inode]`. -/
def modifyInode (s : Tfs) (inode : Nat) (f : Inode → Inode) : Except Fault Tfs := do
  let n ← s.inodeTable.load inode
  let inodeTable ← s.inodeTable.store inode (f n)
  return { s with inodeTable }

/-- An update of `open_file_table[fhandle]`. -/
def modifyOpenFileEntry (s : Tfs) (fhandle : Nat) (f : OpenFileEntry → OpenFileEntry) :
    Except Fault Tfs := do
  let file ← s.openFileTable.load fhandle
  let openFileTable ← s.openFileTable.store fhandle (f file)
  return { s with openFileTable }

end Tfs

/-! ## Initialisation -/

/-- Initialize FS state. -/
def stateInit (params : TfsParams) (m : Mallocs) (s : Tfs) : Except Fault (Int × Tfs) := do
  let s := { s with fsParams := params }
  if s.inodeTable.null = false then
    return (-1, s) -- already initialized
  let s : Tfs :=
    { s with
      inodeTable := .malloc (s.inodeTableSize * sizeofInode) sizeofInode
        ⟨.tFile, 0, 0⟩ m.inodeTable
      freeinodeTs := .malloc (s.inodeTableSize * sizeofAllocationState) sizeofAllocationState
        .free m.freeinodeTs
      fsData := .malloc (s.dataBlocks * s.blockSize) 1 0 m.fsData
      freeBlocks := .malloc (s.dataBlocks * sizeofAllocationState) sizeofAllocationState
        .free m.freeBlocks
      openFileTable := .malloc (s.maxOpenFiles * sizeofOpenFileEntry) sizeofOpenFileEntry
        ⟨0, 0⟩ m.openFileTable
      freeOpenFileEntries := .malloc (s.maxOpenFiles * sizeofAllocationState)
        sizeofAllocationState .free m.freeOpenFileEntries }
  if s.inodeTable.null ∨ s.freeinodeTs.null ∨ s.fsData.null ∨ s.freeBlocks.null ∨
      s.openFileTable.null ∨ s.freeOpenFileEntries.null then
    return (-1, s) -- allocation failed
  let freeinodeTs ← s.freeinodeTs.fill s.inodeTableSize .free
  let freeBlocks ← s.freeBlocks.fill s.dataBlocks .free
  let freeOpenFileEntries ← s.freeOpenFileEntries.fill s.maxOpenFiles .free
  return (0, { s with freeinodeTs, freeBlocks, freeOpenFileEntries })

/-! ## Data blocks -/

/-- Allocate a new data block: its number, or -1 when none is free. -/
def dataBlockAlloc (s : Tfs) : Except Fault (Int × Tfs) := do
  let found ← scan s.dataBlocks fun i => do
    let _ ← modulo (i * sizeofAllocationState) s.blockSize
    return (← s.freeBlocks.load i) == .free
  match found with
  | some i =>
    let freeBlocks ← s.freeBlocks.store i .taken
    return (toInt i, { s with freeBlocks })
  | none => return (-1, s)

/-- Free a data block. -/
def dataBlockFree (blockNumber : Int) (s : Tfs) : Except Fault Tfs := do
  alwaysAssert (s.validBlockNumber blockNumber) "data_block_free: invalid block number"
  let freeBlocks ← s.freeBlocks.store blockNumber.toNat .free
  return { s with freeBlocks }

/-- The address in `fs_data` of the first byte of a block. -/
def dataBlockGet (blockNumber : Int) (s : Tfs) : Except Fault Nat := do
  alwaysAssert (s.validBlockNumber blockNumber) "data_block_get: invalid block number"
  return blockNumber.toNat * s.blockSize % 18446744073709551616

/-! ## Inodes -/

/-- (Try to) allocate a new inode, without initializing its data. -/
def inodeAlloc (s : Tfs) : Except Fault (Int × Tfs) := do
  let found ← scan s.inodeTableSize fun inumber => do
    let _ ← modulo (inumber * sizeofAllocationState) s.blockSize
    return (← s.freeinodeTs.load inumber) == .free
  match found with
  | some inumber =>
    let freeinodeTs ← s.freeinodeTs.store inumber .taken
    return (toInt inumber, { s with freeinodeTs })
  | none => return (-1, s) -- no free inodes

/-- Delete an inode. -/
def inodeDelete (inumber : Int) (s : Tfs) : Except Fault Tfs := do
  alwaysAssert (s.validInumber inumber) "inode_delete: invalid inumber"
  let state ← s.freeinodeTs.load inumber.toNat
  alwaysAssert (state = .taken) "inode_delete: inode already freed"
  let inode ← s.inodeTable.load inumber.toNat
  let s ← if 0 < inode.iSize then dataBlockFree inode.iDataBlock s else pure s
  let freeinodeTs ← s.freeinodeTs.store inumber.toNat .free
  return { s with freeinodeTs }

/-- `for (size_t i = 0; i < n; i++) dir_entry[i].d_inumber = -1`. -/
def labelEntries (dirEntry : Nat) (fsData : Region UInt8) : Nat → Except Fault (Region UInt8)
  | 0 => .ok fsData
  | n + 1 => do
    let fsData ← labelEntries dirEntry fsData n
    fsData.copyIn (dirEntry + n * sizeofDirEntry + maxFileName) 4 (intByte (-1))

/-- Create a new inode. Directories get a block of empty entries, labeled
with inumber -1; files have no block. -/
def inodeCreate (iType : InodeType) (s : Tfs) : Except Fault (Int × Tfs) := do
  let (inumber, s) ← inodeAlloc s
  if inumber = -1 then
    return (-1, s) -- no free slots in inode table
  let inode ← index inumber
  let s ← s.modifyInode inode fun n => { n with iNodeType := iType }
  match iType with
  | .tDirectory =>
    let (b, s) ← dataBlockAlloc s
    if b = -1 then
      let s ← s.modifyInode inode fun n => { n with iSize := 0, iDataBlock := -1 }
      let s ← inodeDelete inumber s
      return (-1, s)
    let s ← s.modifyInode inode fun n => { n with iSize := s.blockSize, iDataBlock := b }
    let dirEntry ← dataBlockGet b s
    alwaysAssert (s.fsData.null = false) "inode_create: data block freed while in use"
    let fsData ← labelEntries dirEntry s.fsData s.maxDirEntries
    return (inumber, { s with fsData })
  | .tFile =>
    let s ← s.modifyInode inode fun n => { n with iSize := 0, iDataBlock := -1 }
    return (inumber, s)

/-- Obtain a pointer to an inode from its inumber. -/
def inodeGet (inumber : Int) (s : Tfs) : Except Fault Nat := do
  alwaysAssert (s.validInumber inumber) "inode_get: invalid inumber"
  return inumber.toNat

/-! ## Directory entries -/

/-- `dir_entry[i].d_inumber`. -/
def loadDInumber (dirEntry i : Nat) (s : Tfs) : Except Fault Int := do
  let a := dirEntry + i * sizeofDirEntry + maxFileName
  return intOfBytes (← s.fsData.load a) (← s.fsData.load (a + 1)) (← s.fsData.load (a + 2))
    (← s.fsData.load (a + 3))

/-- Clear the directory entry associated with a sub file. -/
def clearDirEntry (inode : Nat) (subName : List UInt8) (s : Tfs) : Except Fault (Int × Tfs) := do
  let dir ← s.inodeTable.load inode
  if dir.iNodeType ≠ .tDirectory then
    return (-1, s) -- not a directory
  let dirEntry ← dataBlockGet dir.iDataBlock s
  alwaysAssert (s.fsData.null = false) "clear_dir_entry: directory must have a data block"
  let found ← scan s.maxDirEntries fun i =>
    s.fsData.strcmpEq (dirEntry + i * sizeofDirEntry) subName
  match found with
  | some i =>
    let entry := dirEntry + i * sizeofDirEntry
    let fsData ← s.fsData.copyIn (entry + maxFileName) 4 (intByte (-1))
    let fsData ← fsData.copyIn entry maxFileName fun _ => 0
    return (0, { s with fsData })
  | none => return (-1, s) -- sub_name not found

/-- Store the inumber for a sub file in a directory. -/
def addDirEntry (inode : Nat) (subName : List UInt8) (subInumber : Int) (s : Tfs) :
    Except Fault (Int × Tfs) := do
  if subName.length = 0 ∨ maxFileName - 1 < subName.length then
    return (-1, s) -- invalid sub_name
  let dir ← s.inodeTable.load inode
  if dir.iNodeType ≠ .tDirectory then
    return (-1, s) -- not a directory
  let dirEntry ← dataBlockGet dir.iDataBlock s
  alwaysAssert (s.fsData.null = false) "add_dir_entry: directory must have a data block"
  -- Finds and fills the first empty entry
  let found ← scan s.maxDirEntries fun i => return (← loadDInumber dirEntry i s) == -1
  match found with
  | some i =>
    let entry := dirEntry + i * sizeofDirEntry
    let fsData ← s.fsData.copyIn (entry + maxFileName) 4 (intByte subInumber)
    -- strncpy pads with NULs
    let fsData ← fsData.copyIn entry (maxFileName - 1) fun j => subName.getD j 0
    let fsData ← fsData.store (entry + (maxFileName - 1)) 0
    return (0, { s with fsData })
  | none => return (-1, s) -- no space for entry

/-- Obtain the inumber for a sub file inside a directory. -/
def findInDir (inode : Nat) (subName : List UInt8) (s : Tfs) : Except Fault Int := do
  alwaysAssert (s.inodeTable.null = false) "find_in_dir: inode must be non-NULL"
  let dir ← s.inodeTable.load inode
  if dir.iNodeType ≠ .tDirectory then
    return -1 -- not a directory
  let dirEntry ← dataBlockGet dir.iDataBlock s
  alwaysAssert (s.fsData.null = false) "find_in_dir: directory inode must have a data block"
  -- the index is an `int`
  let found ← scan (min s.maxDirEntries intIndices) fun i => do
    if (← loadDInumber dirEntry i s) ≠ -1 then
      s.fsData.strncmpEq (dirEntry + i * sizeofDirEntry) subName maxFileName
    else return false
  match found with
  | some i => loadDInumber dirEntry i s
  | none => return -1 -- entry not found

/-! ## Open file table -/

/-- Add a new entry to the open file table: its handle, or -1. -/
def addToOpenFileTable (inumber : Int) (offset : Nat) (s : Tfs) : Except Fault (Int × Tfs) := do
  -- the index is an `int`
  let found ← scan (min s.maxOpenFiles intIndices) fun i =>
    return (← s.freeOpenFileEntries.load i) == .free
  match found with
  | some i =>
    let freeOpenFileEntries ← s.freeOpenFileEntries.store i .taken
    let openFileTable ← s.openFileTable.store i ⟨inumber, offset⟩
    return ((i : Int), { s with freeOpenFileEntries, openFileTable })
  | none => return (-1, s)

/-- Free an entry from the open file table. -/
def removeFromOpenFileTable (fhandle : Int) (s : Tfs) : Except Fault Tfs := do
  alwaysAssert (s.validFileHandle fhandle)
    "remove_from_open_file_table: file handle must be valid"
  let state ← s.freeOpenFileEntries.load fhandle.toNat
  alwaysAssert (state = .taken) "remove_from_open_file_table: file handle must be taken"
  let freeOpenFileEntries ← s.freeOpenFileEntries.store fhandle.toNat .free
  return { s with freeOpenFileEntries }

/-- Obtain pointer to a given entry in the open file table: `none` is `NULL`. -/
def getOpenFileEntry (fhandle : Int) (s : Tfs) : Except Fault (Option Nat) := do
  if ¬ s.validFileHandle fhandle then
    return none
  if (← s.freeOpenFileEntries.load fhandle.toNat) ≠ .taken then
    return none
  return some fhandle.toNat

end MBroker
