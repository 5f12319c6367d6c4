import MBroker.Fs.State
import MBroker.Lib.Machine

/-!
# TécnicoFS operations (fs/operations.c)

The five public calls and `tfs_init`. Each call runs under
`g_library_mutex` from its first statement to its last, so it is one
atomic step; locking and unlocking a valid default mutex never returns
-1 and those branches are left out. A path name is a string, never
`NULL`.

`TfsCall` and `tfsMachine` are the runs: any sequence of calls after a
successful `tfs_init`, each ended by a call that faults.
-/

namespace MBroker

/-! ## Opening modes -/

def tfsOCreat : Nat := 0b001
def tfsOTrunc : Nat := 0b010
def tfsOAppend : Nat := 0b100

/-- A sane default set of parameters for tecnicofs. -/
def tfsDefaultParams : TfsParams where
  maxInodeCount := 64
  maxBlockCount := 1024
  maxOpenFilesCount := 16
  blockSize := 1024

/-- The static variables before any call: every pointer is `NULL`. -/
def tfsUninit : Tfs where
  fsParams := ⟨0, 0, 0, 0⟩
  inodeTable := ⟨true, 0, fun _ => ⟨.tFile, 0, 0⟩⟩
  freeinodeTs := ⟨true, 0, fun _ => .free⟩
  fsData := ⟨true, 0, fun _ => 0⟩
  freeBlocks := ⟨true, 0, fun _ => .free⟩
  openFileTable := ⟨true, 0, fun _ => ⟨0, 0⟩⟩
  freeOpenFileEntries := ⟨true, 0, fun _ => .free⟩

/-- Initialize tecnicofs; no parameters means the default ones. -/
def tfsInit (paramsPtr : Option TfsParams) (m : Mallocs) (s : Tfs) :
    Except Fault (Int × Tfs) := do
  let params := paramsPtr.getD tfsDefaultParams
  let (r, s) ← stateInit params m s
  if r ≠ 0 then
    return (-1, s)
  -- create root inode
  let (root, s) ← inodeCreate .tDirectory s
  if root ≠ rootDirInum then
    return (-1, s)
  return (0, s)

/-! ## Calls -/

def validPathname (name : CString) : Prop :=
  1 < name.chars.length ∧ name.chars.head? = some 47

instance (name : CString) : Decidable (validPathname name) :=
  inferInstanceAs (Decidable (_ ∧ _))

/-- Looks for a file: its inumber, -1 if unsuccessful. -/
def tfsLookup (name : CString) (rootInode : Nat) (s : Tfs) : Except Fault Int := do
  if ¬ validPathname name then
    return -1
  -- skip the initial '/' character
  findInDir rootInode name.chars.tail s

def tfsOpen (name : CString) (mode : Nat) (s : Tfs) : Except Fault (Int × Tfs) := do
  -- Checks if the path name is valid
  if ¬ validPathname name then
    return (-1, s)
  let rootDirInode ← inodeGet rootDirInum s
  alwaysAssert (s.inodeTable.null = false) "tfs_open: root dir inode must exist"
  let inum ← tfsLookup name rootDirInode s
  if 0 ≤ inum then
    -- The file already exists
    let inode ← inodeGet inum s
    alwaysAssert (s.inodeTable.null = false) "tfs_open: directory files must have an inode"
    let n ← s.inodeTable.load inode
    -- Truncate (if requested)
    let s ← if mode &&& tfsOTrunc ≠ 0 ∧ 0 < n.iSize then do
        let s ← dataBlockFree n.iDataBlock s
        s.modifyInode inode fun n => { n with iSize := 0 }
      else pure s
    -- Determine initial offset
    let n ← s.inodeTable.load inode
    let offset := if mode &&& tfsOAppend ≠ 0 then n.iSize else 0
    addToOpenFileTable inum offset s
  else if mode &&& tfsOCreat ≠ 0 then
    -- The file does not exist; the mode specified that it should be created
    let (inum, s) ← inodeCreate .tFile s
    if inum = -1 then
      return (-1, s) -- no space in inode table
    -- Add entry in the root directory
    let (r, s) ← addDirEntry rootDirInode name.chars.tail inum s
    if r = -1 then
      let s ← inodeDelete inum s
      return (-1, s) -- no space in directory
    addToOpenFileTable inum 0 s
  else
    return (-1, s)

def tfsClose (fhandle : Int) (s : Tfs) : Except Fault (Int × Tfs) := do
  match ← getOpenFileEntry fhandle s with
  | none => return (-1, s) -- invalid fd
  | some _ =>
    let s ← removeFromOpenFileTable fhandle s
    return (0, s)

/-- The number of bytes `tfs_write` sets out to write: clamped at the end
of the block. -/
def clampWrite (toWrite ofOffset blockSize : Nat) : Nat :=
  if blockSize < sizeAdd toWrite ofOffset then sizeSub blockSize ofOffset else toWrite

def tfsWrite (fhandle : Int) (buffer : Nat → UInt8) (toWrite : Nat) (s : Tfs) :
    Except Fault (Int × Tfs) := do
  match ← getOpenFileEntry fhandle s with
  | none => return (-1, s)
  | some fh =>
    let file ← s.openFileTable.load fh
    -- From the open file table entry, we get the inode
    let inode ← inodeGet file.ofInumber s
    alwaysAssert (s.inodeTable.null = false) "tfs_write: inode of open file deleted"
    -- Determine how many bytes to write
    let toWrite := clampWrite toWrite file.ofOffset s.blockSize
    if toWrite = 0 then
      return (0, s)
    let n ← s.inodeTable.load inode
    let mut s := s
    if n.iSize = 0 then
      -- If empty file, allocate new block
      let (bnum, s') ← dataBlockAlloc s
      if bnum = -1 then
        return (-1, s') -- no space
      s ← s'.modifyInode inode fun n => { n with iDataBlock := bnum }
    let n ← s.inodeTable.load inode
    let block ← dataBlockGet n.iDataBlock s
    alwaysAssert (s.fsData.null = false) "tfs_write: data block deleted mid-write"
    -- Perform the actual write
    let fsData ← s.fsData.copyIn (block + file.ofOffset) toWrite buffer
    s := { s with fsData }
    -- The offset associated with the file handle is incremented accordingly
    let ofOffset := sizeAdd file.ofOffset toWrite
    s ← s.modifyOpenFileEntry fh fun file => { file with ofOffset }
    s ← s.modifyInode inode fun n => { n with iSize := max n.iSize ofOffset }
    return (toSSize toWrite, s)

/-- The number of bytes `tfs_read` sets out to read. -/
def clampRead (len ofOffset iSize : Nat) : Nat :=
  if len < sizeSub iSize ofOffset then len else sizeSub iSize ofOffset

/-- Returns the number of bytes read and the bytes. -/
def tfsRead (fhandle : Int) (len : Nat) (s : Tfs) :
    Except Fault ((Int × List UInt8) × Tfs) := do
  match ← getOpenFileEntry fhandle s with
  | none => return ((-1, []), s)
  | some fh =>
    let file ← s.openFileTable.load fh
    -- From the open file table entry, we get the inode
    let inode ← inodeGet file.ofInumber s
    alwaysAssert (s.inodeTable.null = false) "tfs_read: inode of open file deleted"
    let n ← s.inodeTable.load inode
    -- Determine how many bytes to read
    let toRead := clampRead len file.ofOffset n.iSize
    if toRead = 0 then
      return ((0, []), s)
    let block ← dataBlockGet n.iDataBlock s
    alwaysAssert (s.fsData.null = false) "tfs_read: data block deleted mid-read"
    -- Perform the actual read
    let bytes ← s.fsData.copyOut (block + file.ofOffset) toRead
    let s ← s.modifyOpenFileEntry fh fun file =>
      { file with ofOffset := sizeAdd file.ofOffset toRead }
    return ((toSSize toRead, bytes), s)

def tfsUnlink (target : CString) (s : Tfs) : Except Fault (Int × Tfs) := do
  -- Checks if the path name is valid
  if ¬ validPathname target then
    return (-1, s)
  let rootDirInode ← inodeGet rootDirInum s
  alwaysAssert (s.inodeTable.null = false) "tfs_open: root dir inode must exist"
  let inum ← tfsLookup target rootDirInode s
  if inum = -1 then
    return (-1, s)
  let s ← inodeDelete inum s
  let (r, s) ← clearDirEntry rootDirInode target.chars.tail s
  if r = -1 then
    return (-1, s)
  return (0, s)

/-! ## Runs -/

/-- A call of the TFS interface. -/
inductive TfsCall where
  | open (name : CString) (mode : Nat)
  | close (fhandle : Int)
  | write (fhandle : Int) (buffer : Nat → UInt8) (toWrite : Nat)
  | read (fhandle : Int) (len : Nat)
  | unlink (target : CString)

/-- What a call returns: its return value and the bytes it read. -/
abbrev TfsResult := Int × List UInt8

/-- One call: its result and the state after it. -/
def tfsCall (s : Tfs) : TfsCall → Except Fault (TfsResult × Tfs)
  | .open name mode => do
    let (r, s) ← tfsOpen name mode s
    return ((r, []), s)
  | .close fhandle => do
    let (r, s) ← tfsClose fhandle s
    return ((r, []), s)
  | .write fhandle buffer toWrite => do
    let (r, s) ← tfsWrite fhandle buffer toWrite s
    return ((r, []), s)
  | .read fhandle len => tfsRead fhandle len s
  | .unlink target => do
    let (r, s) ← tfsUnlink target s
    return ((r, []), s)

/-- The calls of a list one after the other: their results and the state
after the last. -/
def tfsCalls (s : Tfs) : List TfsCall → Except Fault (List TfsResult × Tfs)
  | [] => return ([], s)
  | c :: cs => do
    let (r, s) ← tfsCall s c
    let (rs, s) ← tfsCalls s cs
    return (r :: rs, s)

/-- `tfs_init` and then the calls of a list: its result and theirs. -/
def tfsRun (params : TfsParams) (m : Mallocs) (cs : List TfsCall) :
    Except Fault ((Int × List TfsResult) × Tfs) := do
  let (r, s) ← tfsInit (some params) m tfsUninit
  if r ≠ 0 then
    return ((r, []), s)
  let (rs, s) ← tfsCalls s cs
  return ((r, rs), s)

/-- `tfs_init` on an uninitialised file system succeeds and leaves `s`. -/
def TfsStart (params : TfsParams) (m : Mallocs) (s : Tfs) : Prop :=
  tfsInit (some params) m tfsUninit = .ok (0, s)

/-- The runs of TFS calls after a successful `tfs_init`, with any
parameters and any contents of the allocated memory. -/
def tfsMachine : Machine Tfs TfsCall where
  start s := ∃ params m, TfsStart params m s
  step s c := match tfsCall s c with
    | .ok (_, s') => some s'
    | .error _ => none

/-! ## One call -/

section Call

variable {s t : Tfs} {r fhandle : Int} {bytes : List UInt8} {name : CString} {mode toWrite : Nat}
  {buffer : Nat → UInt8}

/-- The calls that return a number only. -/
theorem noBytes_eq_ok {x : Except Fault (Int × Tfs)} :
    (do let (r, s) ← x
        return ((r, []), s)) = Except.ok (ε := Fault) ((r, bytes), t) ↔
      x = .ok (r, t) ∧ bytes = [] := by
  cases x with
  | error e => simp
  | ok p =>
      simp only [ok_bind, pure_eq_ok, Except.ok.injEq, Prod.ext_iff]
      constructor
      · rintro ⟨⟨hr, hbytes⟩, ht⟩
        exact ⟨⟨hr, ht⟩, hbytes.symm⟩
      · rintro ⟨⟨hr, ht⟩, hbytes⟩
        exact ⟨⟨hr, hbytes.symm⟩, ht⟩

theorem tfsCall_open : tfsCall s (.open name mode) = .ok ((r, bytes), t) ↔
    tfsOpen name mode s = .ok (r, t) ∧ bytes = [] :=
  noBytes_eq_ok

theorem tfsCall_close : tfsCall s (.close fhandle) = .ok ((r, bytes), t) ↔
    tfsClose fhandle s = .ok (r, t) ∧ bytes = [] :=
  noBytes_eq_ok

theorem tfsCall_write : tfsCall s (.write fhandle buffer toWrite) = .ok ((r, bytes), t) ↔
    tfsWrite fhandle buffer toWrite s = .ok (r, t) ∧ bytes = [] :=
  noBytes_eq_ok

theorem tfsCall_unlink : tfsCall s (.unlink name) = .ok ((r, bytes), t) ↔
    tfsUnlink name s = .ok (r, t) ∧ bytes = [] :=
  noBytes_eq_ok

end Call

end MBroker
