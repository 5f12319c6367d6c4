import MBroker.Fs.Operations

/-!
# Reading a TFS state

What a reader of the tables sees (which inodes, blocks and handles are
taken, what the root directory's entries say, what bytes a file has) and
the pure updates the calls amount to. The root directory's block is
block 0, at address 0 of `fs_data`.

The lemmas say what each update changes and what it leaves alone; the
later modules use nothing else about the bytes of the directory.
-/

namespace MBroker

/-! ## Directory entries in memory -/

/-- `dir_entry[k].d_inumber`, for the directory at address 0. -/
def inumberAt (fsData : Region UInt8) (k : Nat) : Int :=
  intAt fsData.get (k * sizeofDirEntry + maxFileName)

/-- `dir_entry[k].d_name`, up to its terminator. -/
def nameAt (fsData : Region UInt8) (k : Nat) : List UInt8 :=
  strAt fsData.get (k * sizeofDirEntry) maxFileName

/-- Entry `k` set to `name` and `inumber`. -/
def setEntry (fsData : Region UInt8) (k : Nat) (name : List UInt8) (inumber : Int) :
    Region UInt8 :=
  ((fsData.blit (k * sizeofDirEntry + maxFileName) 4 (intByte inumber)).blit
    (k * sizeofDirEntry) (maxFileName - 1) fun j => name.getD j 0).set
      (k * sizeofDirEntry + (maxFileName - 1)) 0

/-- Entry `k` labeled -1 and its name zeroed. -/
def clearEntry (fsData : Region UInt8) (k : Nat) : Region UInt8 :=
  (fsData.blit (k * sizeofDirEntry + maxFileName) 4 (intByte (-1))).blit
    (k * sizeofDirEntry) maxFileName fun _ => 0

section Entry

variable {fsData : Region UInt8} {k k' : Nat} {name : List UInt8} {inumber : Int}

/-- Writing one entry leaves the bytes of the others. -/
theorem setEntry_get_of_ne {x : Nat} (hx : x < k * sizeofDirEntry ∨ (k + 1) * sizeofDirEntry ≤ x) :
    (setEntry fsData k name inumber).get x = fsData.get x := by
  simp only [sizeofDirEntry] at hx
  rw [setEntry, Region.set_get_ne _ _ (by simp only [sizeofDirEntry, maxFileName]; omega),
    Region.blit_get_of_not_mem _ _ (by simp only [sizeofDirEntry, maxFileName]; omega),
    Region.blit_get_of_not_mem _ _ (by simp only [sizeofDirEntry, maxFileName]; omega)]

theorem clearEntry_get_of_ne {x : Nat}
    (hx : x < k * sizeofDirEntry ∨ (k + 1) * sizeofDirEntry ≤ x) :
    (clearEntry fsData k).get x = fsData.get x := by
  simp only [sizeofDirEntry] at hx
  rw [clearEntry,
    Region.blit_get_of_not_mem _ _ (by simp only [sizeofDirEntry, maxFileName]; omega),
    Region.blit_get_of_not_mem _ _ (by simp only [sizeofDirEntry, maxFileName]; omega)]

/-- An entry reads the same from two memories that agree on its bytes. -/
theorem inumberAt_congr {fsData' : Region UInt8}
    (h : ∀ x, k * sizeofDirEntry ≤ x → x < (k + 1) * sizeofDirEntry →
      fsData'.get x = fsData.get x) :
    inumberAt fsData' k = inumberAt fsData k := by
  refine intAt_congr fun j hj => h _ ?_ ?_
  · simp only [sizeofDirEntry, maxFileName]; omega
  · simp only [sizeofDirEntry, maxFileName]; omega

theorem nameAt_congr {fsData' : Region UInt8}
    (h : ∀ x, k * sizeofDirEntry ≤ x → x < (k + 1) * sizeofDirEntry →
      fsData'.get x = fsData.get x) :
    nameAt fsData' k = nameAt fsData k := by
  refine strAt_congr fun j hj => h _ ?_ ?_
  · omega
  · simp only [sizeofDirEntry, maxFileName] at hj ⊢; omega

theorem inumberAt_setEntry_ne (h : k' ≠ k) :
    inumberAt (setEntry fsData k name inumber) k' = inumberAt fsData k' := by
  refine inumberAt_congr fun x h1 h2 => setEntry_get_of_ne ?_
  simp only [sizeofDirEntry] at *
  omega

theorem nameAt_setEntry_ne (h : k' ≠ k) :
    nameAt (setEntry fsData k name inumber) k' = nameAt fsData k' := by
  refine nameAt_congr fun x h1 h2 => setEntry_get_of_ne ?_
  simp only [sizeofDirEntry] at *
  omega

theorem inumberAt_setEntry (hlo : -2147483648 ≤ inumber) (hhi : inumber < 2147483648) :
    inumberAt (setEntry fsData k name inumber) k = inumber := by
  refine intAt_of_bytes hlo hhi fun j hj => ?_
  rw [setEntry, Region.set_get_ne _ _ (by simp only [sizeofDirEntry, maxFileName]; omega),
    Region.blit_get_of_not_mem _ _ (by simp only [sizeofDirEntry, maxFileName]; omega),
    Region.blit_get_of_mem _ _ (by simp only [sizeofDirEntry, maxFileName]; omega)
      (by simp only [sizeofDirEntry, maxFileName]; omega)]
  congr 1
  simp only [sizeofDirEntry, maxFileName]
  omega

/-- A name of at most 39 characters fits its field with its terminator. -/
theorem nameAt_setEntry (h0 : 0 ∉ name) (hlen : name.length < maxFileName) :
    nameAt (setEntry fsData k name inumber) k = name := by
  refine strAt_of_bytes h0 hlen fun j hj => ?_
  simp only [sizeofDirEntry, maxFileName] at *
  by_cases hlast : j = 39
  · subst hlast
    rw [setEntry]
    simp only [sizeofDirEntry, maxFileName, Region.set_get_self]
    rw [List.getD_eq_getElem?_getD, List.getElem?_eq_none (by omega)]
    rfl
  · rw [setEntry, Region.set_get_ne _ _ (by simp only [sizeofDirEntry, maxFileName]; omega),
      Region.blit_get_of_mem _ _ (by simp only [sizeofDirEntry]; omega)
        (by simp only [sizeofDirEntry, maxFileName]; omega)]
    congr 1
    simp only [sizeofDirEntry]
    omega

theorem inumberAt_clearEntry_ne (h : k' ≠ k) :
    inumberAt (clearEntry fsData k) k' = inumberAt fsData k' := by
  refine inumberAt_congr fun x h1 h2 => clearEntry_get_of_ne ?_
  simp only [sizeofDirEntry] at *
  omega

theorem nameAt_clearEntry_ne (h : k' ≠ k) :
    nameAt (clearEntry fsData k) k' = nameAt fsData k' := by
  refine nameAt_congr fun x h1 h2 => clearEntry_get_of_ne ?_
  simp only [sizeofDirEntry] at *
  omega

theorem inumberAt_clearEntry : inumberAt (clearEntry fsData k) k = -1 := by
  refine intAt_of_bytes (by decide) (by decide) fun j hj => ?_
  rw [clearEntry,
    Region.blit_get_of_not_mem _ _ (by simp only [sizeofDirEntry, maxFileName]; omega),
    Region.blit_get_of_mem _ _ (by simp only [sizeofDirEntry, maxFileName]; omega)
      (by simp only [sizeofDirEntry, maxFileName]; omega)]
  congr 1
  simp only [sizeofDirEntry, maxFileName]
  omega

theorem nameAt_clearEntry : nameAt (clearEntry fsData k) k = [] := by
  refine strAt_of_bytes (by simp) (by decide) fun j hj => ?_
  simp only [List.length_nil, Nat.le_zero_eq] at hj
  subst hj
  rw [clearEntry, Region.blit_get_of_mem _ _ (by omega) (by simp only [maxFileName]; omega)]
  rfl

end Entry

namespace Tfs

/-! ## Views -/

/-- `inode_table[i]`. -/
abbrev inode (s : Tfs) (i : Nat) : Inode := s.inodeTable.get i

/-- `open_file_table[h]`. -/
abbrev file (s : Tfs) (h : Nat) : OpenFileEntry := s.openFileTable.get h

/-- Inode `i` is TAKEN. -/
def Taken (s : Tfs) (i : Nat) : Prop :=
  i < s.inodeTableSize ∧ s.freeinodeTs.get i = .taken

/-- Block `b` is TAKEN. -/
def BlockTaken (s : Tfs) (b : Nat) : Prop :=
  b < s.dataBlocks ∧ s.freeBlocks.get b = .taken

/-- Handle `h` is open. -/
def Open (s : Tfs) (h : Nat) : Prop :=
  h < s.maxOpenFiles ∧ s.freeOpenFileEntries.get h = .taken

instance (s : Tfs) (i : Nat) : Decidable (s.Taken i) := inferInstanceAs (Decidable (_ ∧ _))
instance (s : Tfs) (b : Nat) : Decidable (s.BlockTaken b) := inferInstanceAs (Decidable (_ ∧ _))
instance (s : Tfs) (h : Nat) : Decidable (s.Open h) := inferInstanceAs (Decidable (_ ∧ _))

/-- The `d_inumber` of entry `k` of the root directory. -/
abbrev dInumber (s : Tfs) (k : Nat) : Int := inumberAt s.fsData k

/-- The `d_name` of entry `k` of the root directory. -/
abbrev dName (s : Tfs) (k : Nat) : List UInt8 := nameAt s.fsData k

/-- Entry `k` of the root directory is live. -/
def Live (s : Tfs) (k : Nat) : Prop := k < s.maxDirEntries ∧ s.dInumber k ≠ -1

instance (s : Tfs) (k : Nat) : Decidable (s.Live k) := inferInstanceAs (Decidable (_ ∧ _))

/-- The directory maps `name` to inode `i`. -/
def Maps (s : Tfs) (name : List UInt8) (i : Nat) : Prop :=
  ∃ k, s.Live k ∧ s.dName k = name ∧ s.dInumber k = i

/-- The entry of the root directory for a name. -/
def findSlot (s : Tfs) (name : List UInt8) : Option Nat :=
  (List.range s.maxDirEntries).find? fun k =>
    decide (s.dInumber k ≠ -1 ∧ s.dName k = name)

/-- The inode the directory maps a name to. -/
def find (s : Tfs) (name : List UInt8) : Option Nat :=
  (s.findSlot name).map fun k => (s.dInumber k).toNat

/-- The address in `fs_data` of the block of inode `i`. -/
def blockAddr (s : Tfs) (i : Nat) : Nat := (s.inode i).iDataBlock.toNat * s.blockSize

/-- The bytes of the file with inode `i`. -/
def fileBytes (s : Tfs) (i : Nat) : List UInt8 :=
  (List.range (s.inode i).iSize).map fun j => s.fsData.get (s.blockAddr i + j)

/-- What a reader of the directory finds under a name: the bytes of its file. -/
def contents (s : Tfs) (name : List UInt8) : Option (List UInt8) :=
  (s.find name).map s.fileBytes

/-- The first free inode. -/
def firstFreeInode (s : Tfs) : Option Nat :=
  (List.range s.inodeTableSize).find? fun i => s.freeinodeTs.get i == .free

/-- The first free block. -/
def firstFreeBlock (s : Tfs) : Option Nat :=
  (List.range s.dataBlocks).find? fun b => s.freeBlocks.get b == .free

/-- The block a write to inode `i` goes to: an empty file gets a new one. -/
def blockFor (s : Tfs) (i : Nat) : Option Nat :=
  if (s.inode i).iSize = 0 then s.firstFreeBlock else some (s.inode i).iDataBlock.toNat

/-- The first entry of the root directory that is not live. -/
def firstFreeSlot (s : Tfs) : Option Nat :=
  (List.range s.maxDirEntries).find? fun k => s.dInumber k == -1

/-- The entry a new file gets: none when its name is too long. -/
def slotFor (s : Tfs) (name : List UInt8) : Option Nat :=
  if name.length < maxFileName then s.firstFreeSlot else none

/-- The first free handle. -/
def firstFreeHandle (s : Tfs) : Option Nat :=
  (List.range (min s.maxOpenFiles intIndices)).find? fun h => s.freeOpenFileEntries.get h == .free

/-! ## Updates -/

/-- A free inode initialized as an empty file and left free. -/
def resetInode (s : Tfs) (i : Nat) : Tfs :=
  { s with inodeTable := s.inodeTable.set i ⟨.tFile, 0, -1⟩ }

/-- A new file `name` with inode `i` in entry `k`. -/
def create (s : Tfs) (i k : Nat) (name : List UInt8) : Tfs :=
  { s with
    inodeTable := s.inodeTable.set i ⟨.tFile, 0, -1⟩
    freeinodeTs := s.freeinodeTs.set i .taken
    fsData := setEntry s.fsData k name i }

/-- The block map after inode `i` gives up its block, if it has one. -/
def releaseBlock (s : Tfs) (i : Nat) : Region AllocationState :=
  if 0 < (s.inode i).iSize then s.freeBlocks.set (s.inode i).iDataBlock.toNat .free
  else s.freeBlocks

/-- The file with inode `i` emptied. -/
def truncate (s : Tfs) (i : Nat) : Tfs :=
  { s with
    inodeTable := s.inodeTable.set i { s.inode i with iSize := 0 }
    freeBlocks := s.releaseBlock i }

/-- The file with inode `i` and entry `k` removed. -/
def remove (s : Tfs) (i k : Nat) : Tfs :=
  { s with
    freeinodeTs := s.freeinodeTs.set i .free
    freeBlocks := s.releaseBlock i
    fsData := clearEntry s.fsData k }

/-- Handle `h` opened on inode `i` at `offset`. -/
def openHandle (s : Tfs) (h i offset : Nat) : Tfs :=
  { s with
    freeOpenFileEntries := s.freeOpenFileEntries.set h .taken
    openFileTable := s.openFileTable.set h ⟨i, offset⟩ }

/-- Handle `h` closed. -/
def closeHandle (s : Tfs) (h : Nat) : Tfs :=
  { s with freeOpenFileEntries := s.freeOpenFileEntries.set h .free }

/-- The offset of handle `h` set. -/
def seekHandle (s : Tfs) (h offset : Nat) : Tfs :=
  { s with openFileTable := s.openFileTable.set h { s.file h with ofOffset := offset } }

/-- The block map after inode `i` has got block `b`: an empty file takes it anew. -/
def acquireBlock (s : Tfs) (i b : Nat) : Region AllocationState :=
  if (s.inode i).iSize = 0 then s.freeBlocks.set b .taken else s.freeBlocks

/-- `n` bytes of `buffer` written through handle `h`, open on inode `i` at
offset `off`, into block `b`. -/
def writeAt (s : Tfs) (h i b off n : Nat) (buffer : Nat → UInt8) : Tfs :=
  { s with
    inodeTable := s.inodeTable.set i
      { s.inode i with iDataBlock := b, iSize := max (s.inode i).iSize (off + n) }
    freeBlocks := s.acquireBlock i b
    fsData := s.fsData.blit (b * s.blockSize + off) n buffer
    openFileTable := s.openFileTable.set h { s.file h with ofOffset := off + n } }

end Tfs

end MBroker
