import MBroker.Fs.View

/-!
# The TFS invariant and the state.c functions under it

`Base` holds from the end of `tfs_init` on and is never touched again:
the tables are allocated, inode 0 is the root directory and block 0 is
its block. `Inv` adds three groups: `Bounds` (what is taken lies inside
its table), `Blocks` (who owns which data block) and `Directory` (the
entries of the root directory against the inode table).

A handle may outlive its file, and a write through it then goes to an
inode that is free or belongs to another file. `Blocks.held` therefore
speaks of every inode that is taken *or* open: none of them can name the
block of the directory.

Under `Base` and `Inv` each function of fs/state.c is a pure function of
the views; the equations here are all the later modules use of them.
-/

namespace MBroker

open Tfs

/-- What `tfs_init` establishes and no call touches. -/
structure Base (s : Tfs) : Prop where
  blockSize_pos : 0 < s.blockSize
  inodeTable_null : s.inodeTable.null = false
  fsData_null : s.fsData.null = false
  freeinodeTs_size : s.inodeTableSize ≤ s.freeinodeTs.size
  freeBlocks_size : s.dataBlocks ≤ s.freeBlocks.size
  freeOpenFileEntries_size : s.maxOpenFiles ≤ s.freeOpenFileEntries.size
  fsData_size : s.fsData.size < 9223372036854775808
  entries_fit : s.maxDirEntries * sizeofDirEntry ≤ s.fsData.size
  root_taken : s.Taken 0
  root_lt : 0 < s.inodeTable.size
  root_inode : s.inode 0 = ⟨.tDirectory, s.blockSize, 0⟩
  root_block : s.BlockTaken 0

/-- What is taken lies inside its table, and its index is an `int`. -/
structure Bounds (s : Tfs) : Prop where
  taken_lt : ∀ i, s.Taken i → i < 2147483648 ∧ i < s.inodeTable.size
  block_lt : ∀ b, s.BlockTaken b → b ≠ 0 → b < 2147483648 ∧ b * s.blockSize < s.fsData.size
  open_lt : ∀ h, s.Open h → h < s.openFileTable.size
  open_inode : ∀ h, s.Open h → ∃ i : Nat, (s.file h).ofInumber = i ∧ i ≠ 0 ∧
    i < s.inodeTableSize ∧ i < s.inodeTable.size

/-- A file's inode that is taken, or that an open handle still names. -/
def Tfs.Held (s : Tfs) (i : Nat) : Prop :=
  i ≠ 0 ∧ (s.Taken i ∨ ∃ h, s.Open h ∧ (s.file h).ofInumber = i)

/-- Inode `i` names a data block that is not the directory's. -/
structure Tfs.HasBlock (s : Tfs) (i b : Nat) : Prop where
  eq : (s.inode i).iDataBlock = b
  pos : b ≠ 0
  int : b < 2147483648
  valid : b < s.dataBlocks
  addr_lt : b * s.blockSize < s.fsData.size
  size_le : (s.inode i).iSize ≤ s.blockSize

/-- Who owns which data block. -/
structure Blocks (s : Tfs) : Prop where
  not_root : ∀ i, s.Held i → (s.inode i).iDataBlock ≠ 0
  held : ∀ i, s.Held i → 0 < (s.inode i).iSize → ∃ b, s.HasBlock i b
  owner_taken : ∀ i b, s.Taken i → i ≠ 0 → 0 < (s.inode i).iSize →
    (s.inode i).iDataBlock = (b : Nat) → s.BlockTaken b
  owner_inj : ∀ i j, s.Taken i → s.Taken j → i ≠ 0 → j ≠ 0 → 0 < (s.inode i).iSize →
    0 < (s.inode j).iSize → (s.inode i).iDataBlock = (s.inode j).iDataBlock → i = j

/-- The entries of the root directory against the inode table. -/
structure Directory (s : Tfs) : Prop where
  file_type : ∀ i, s.Taken i → i ≠ 0 → (s.inode i).iNodeType = .tFile
  live_inode : ∀ k, s.Live k → ∃ i : Nat, s.dInumber k = i ∧ i ≠ 0 ∧ s.Taken i
  live_name : ∀ k, s.Live k → s.dName k ≠ [] ∧ (s.dName k).length < maxFileName
  inumber_inj : ∀ k k', s.Live k → s.Live k' → s.dInumber k = s.dInumber k' → k = k'
  name_inj : ∀ k k', s.Live k → s.Live k' → s.dName k = s.dName k' → k = k'
  taken_live : ∀ i, s.Taken i → i ≠ 0 → ∃ k, s.Live k ∧ s.dInumber k = i
  live_lt : ∀ k, s.Live k → k < intIndices
  /-- First-fit filling: an entry before a live one has been used, so if it
  is not live its name was zeroed. -/
  used : ∀ k k', s.Live k → k' < k → ¬ s.Live k' → s.dName k' = []

structure Inv (s : Tfs) : Prop where
  base : Base s
  bounds : Bounds s
  blocks : Blocks s
  dir : Directory s

/-! ## The allocators -/

section Base

variable {s : Tfs}

theorem dataBlockAlloc_eq (hbs : 0 < s.blockSize) (hsz : s.dataBlocks ≤ s.freeBlocks.size) :
    dataBlockAlloc s = .ok (match s.firstFreeBlock with
      | some b => (toInt b, { s with freeBlocks := s.freeBlocks.set b .taken })
      | none => (-1, s)) := by
  have htest : ∀ i < s.dataBlocks, (do
      let _ ← modulo (i * sizeofAllocationState) s.blockSize
      return (← s.freeBlocks.load i) == .free) =
        Except.ok (s.freeBlocks.get i == AllocationState.free) := by
    intro i hi
    rw [modulo_of_pos hbs, Region.load_of_lt (by omega)]
    rfl
  rw [dataBlockAlloc, scan_eq_find htest, firstFreeBlock]
  cases hf : (List.range s.dataBlocks).find? fun b => s.freeBlocks.get b == .free with
  | none => rfl
  | some b =>
      have hlt := (find_range_eq_some.mp hf).1
      simp only [ok_bind]
      rw [Region.store_of_lt (by omega)]
      rfl

theorem inodeAlloc_eq (hbs : 0 < s.blockSize) (hsz : s.inodeTableSize ≤ s.freeinodeTs.size) :
    inodeAlloc s = .ok (match s.firstFreeInode with
      | some i => (toInt i, { s with freeinodeTs := s.freeinodeTs.set i .taken })
      | none => (-1, s)) := by
  have htest : ∀ inumber < s.inodeTableSize, (do
      let _ ← modulo (inumber * sizeofAllocationState) s.blockSize
      return (← s.freeinodeTs.load inumber) == .free) =
        Except.ok (s.freeinodeTs.get inumber == AllocationState.free) := by
    intro inumber hi
    rw [modulo_of_pos hbs, Region.load_of_lt (by omega)]
    rfl
  rw [inodeAlloc, scan_eq_find htest, firstFreeInode]
  cases hf : (List.range s.inodeTableSize).find? fun i => s.freeinodeTs.get i == .free with
  | none => rfl
  | some i =>
      have hlt := (find_range_eq_some.mp hf).1
      simp only [ok_bind]
      rw [Region.store_of_lt (by omega)]
      rfl

theorem Base.addToOpenFileTable_eq (hb : Base s) (i offset : Nat) :
    addToOpenFileTable i offset s = match s.firstFreeHandle with
      | some h =>
        if h < s.openFileTable.size then .ok ((h : Int), s.openHandle h i offset)
        else .error .outOfBounds
      | none => .ok (-1, s) := by
  have htest : ∀ j < min s.maxOpenFiles intIndices,
      (do return (← s.freeOpenFileEntries.load j) == .free) =
        Except.ok (s.freeOpenFileEntries.get j == AllocationState.free) := by
    intro j hj
    have := hb.freeOpenFileEntries_size
    rw [Region.load_of_lt (by omega)]
    rfl
  rw [addToOpenFileTable, scan_eq_find htest, firstFreeHandle]
  cases hf : (List.range (min s.maxOpenFiles intIndices)).find? fun h =>
      s.freeOpenFileEntries.get h == .free with
  | none => rfl
  | some h =>
      have hlt := (find_range_eq_some.mp hf).1
      have := hb.freeOpenFileEntries_size
      simp only [ok_bind]
      rw [Region.store_of_lt (by omega)]
      by_cases hh : h < s.openFileTable.size
      · rw [ok_bind, Region.store_of_lt hh, if_pos hh]
        rfl
      · simp only [ok_bind, Region.store, if_neg hh, error_bind]

theorem getOpenFileEntry_eq (hb : Base s) (fhandle : Int) :
    getOpenFileEntry fhandle s =
      .ok (if 0 ≤ fhandle ∧ s.Open fhandle.toNat then some fhandle.toNat else none) := by
  by_cases hv : s.validFileHandle fhandle
  · have := hb.freeOpenFileEntries_size
    have hlt : fhandle.toNat < s.maxOpenFiles := by omega
    rw [getOpenFileEntry, if_neg (by simpa using hv), Region.load_of_lt (by omega)]
    by_cases ht : s.freeOpenFileEntries.get fhandle.toNat = .taken
    · simp [ht, Open, hlt, hv.1]
    · simp [ht, Open]
  · rw [getOpenFileEntry, if_pos hv]
    have : ¬ (0 ≤ fhandle ∧ s.Open fhandle.toNat) := fun h => hv ⟨h.1, by have := h.2.1; omega⟩
    simp [this]

end Base

end MBroker
