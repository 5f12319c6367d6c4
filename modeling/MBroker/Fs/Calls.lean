import MBroker.Fs.Inv

/-!
# The TFS calls under the invariant

One equation or case lemma for each function of fs/state.c and
fs/operations.c: what a call returns and which update of `View` it makes,
guards and faults included. Everything proved later about the calls is
proved from these.
-/

namespace MBroker

open Tfs

variable {s : Tfs}

/-! ## Lookup -/

theorem Base.dataBlockGet_root (hb : Base s) : dataBlockGet 0 s = .ok 0 := by
  have := hb.root_block.1
  rw [dataBlockGet, alwaysAssert_of_true ⟨by omega, by omega⟩]
  simp

theorem Base.inodeGet_root (hb : Base s) : inodeGet rootDirInum s = .ok 0 := by
  have := hb.root_taken.1
  rw [inodeGet, alwaysAssert_of_true ⟨by simp [rootDirInum], by simp only [rootDirInum]; omega⟩]
  rfl

theorem Base.load_root (hb : Base s) :
    s.inodeTable.load 0 = .ok ⟨.tDirectory, s.blockSize, 0⟩ := by
  rw [Region.load_of_lt hb.root_lt]
  exact congrArg _ hb.root_inode

/-- The bytes of entry `k` lie inside `fs_data`. -/
theorem Base.entry_le (hb : Base s) {k : Nat} (hk : k < s.maxDirEntries) :
    (k + 1) * sizeofDirEntry ≤ s.fsData.size :=
  Nat.le_trans (Nat.mul_le_mul_right _ hk) hb.entries_fit

theorem Base.loadDInumber_eq (hb : Base s) {k : Nat} (hk : k < s.maxDirEntries) :
    loadDInumber 0 k s = .ok (s.dInumber k) := by
  have hle := hb.entry_le hk
  simp only [sizeofDirEntry] at hle
  rw [loadDInumber, Region.load_of_lt (by simp only [sizeofDirEntry, maxFileName]; omega),
    Region.load_of_lt (by simp only [sizeofDirEntry, maxFileName]; omega),
    Region.load_of_lt (by simp only [sizeofDirEntry, maxFileName]; omega),
    Region.load_of_lt (by simp only [sizeofDirEntry, maxFileName]; omega)]
  simp only [ok_bind, Nat.zero_add]
  rfl

/-- Comparing with a name cut to 40 characters is comparing with the name:
a live name is shorter. -/
theorem Directory.take_eq (hd : Directory s) {k : Nat} (hk : s.Live k) (name : List UInt8) :
    s.dName k = name.take maxFileName ↔ s.dName k = name := by
  have hlen := (hd.live_name k hk).2
  constructor
  · intro h
    rw [h, List.length_take] at hlen
    rw [h, List.take_of_length_le (by omega)]
  · intro h
    rw [List.take_of_length_le (by rw [← h]; omega), h]

/-- `find_in_dir` on the root directory returns the inumber of the entry
with the name. -/
theorem Inv.findInDir_eq (h : Inv s) {name : List UInt8} (h0 : 0 ∉ name) :
    findInDir 0 name s = .ok (match s.findSlot name with
      | some k => s.dInumber k
      | none => -1) := by
  have hb := h.base
  have htest : ∀ k < min s.maxDirEntries intIndices,
      (do if (← loadDInumber 0 k s) ≠ -1 then
            s.fsData.strncmpEq (0 + k * sizeofDirEntry) name maxFileName
          else return false) =
        Except.ok (decide (s.dInumber k ≠ -1 ∧ s.dName k = name.take maxFileName)) := by
    intro k hk
    have hle := hb.entry_le (k := k) (by omega)
    simp only [sizeofDirEntry] at hle
    rw [hb.loadDInumber_eq (by omega), ok_bind, Nat.zero_add]
    by_cases hlive : s.dInumber k = -1
    · simp [hlive]
    · rw [if_pos hlive,
        strncmpEq_eq h0 (by simp only [sizeofDirEntry, maxFileName]; omega)]
      simp only [ne_eq, hlive, not_false_eq_true, true_and]
      rfl
  have hfind : (List.range (min s.maxDirEntries intIndices)).find?
      (fun k => decide (s.dInumber k ≠ -1 ∧ s.dName k = name.take maxFileName))
        = s.findSlot name := by
    refine find_range_extend (by omega) (fun k hk => ?_) (fun k hk hge => ?_)
    · by_cases hlive : s.dInumber k = -1
      · simp [hlive]
      · simp [hlive, h.dir.take_eq ⟨by omega, hlive⟩]
    · have : ¬ (s.dInumber k ≠ -1 ∧ s.dName k = name) := fun hc => by
        have := h.dir.live_lt k ⟨hk, hc.1⟩
        omega
      exact decide_eq_false this
  rw [findInDir, alwaysAssert_of_true hb.inodeTable_null, ok_bind, hb.load_root]
  simp only [ok_bind, ne_eq, not_true_eq_false, if_false]
  rw [hb.dataBlockGet_root, ok_bind, alwaysAssert_of_true hb.fsData_null, ok_bind,
    scan_eq_find htest, hfind]
  cases hs : s.findSlot name with
  | none => rfl
  | some k => exact hb.loadDInumber_eq (find_range_eq_some.mp hs).1

theorem CString.zero_notMem_tail (name : CString) : 0 ∉ name.chars.tail :=
  fun h => name.noNul (List.mem_of_mem_tail h)

theorem findSlot_eq_some {name : List UInt8} {k : Nat} (h : s.findSlot name = some k) :
    s.Live k ∧ s.dName k = name := by
  obtain ⟨hk, hp, -⟩ := find_range_eq_some.mp h
  have := of_decide_eq_true hp
  exact ⟨⟨hk, this.1⟩, this.2⟩

theorem findSlot_eq_none {name : List UInt8} :
    s.findSlot name = none ↔ ∀ k, s.Live k → s.dName k ≠ name := by
  rw [findSlot, find_range_eq_none]
  constructor
  · intro h k hk hn
    have := of_decide_eq_false (h k hk.1)
    exact this ⟨hk.2, hn⟩
  · intro h k hk
    exact decide_eq_false fun hc => h k ⟨hk, hc.1⟩ hc.2

theorem Directory.findSlot_of_live (hd : Directory s) {k : Nat} (hk : s.Live k) :
    s.findSlot (s.dName k) = some k := by
  refine find_range_of_unique hk.1 (decide_eq_true ⟨hk.2, rfl⟩) fun j hj hp => ?_
  have hp := of_decide_eq_true hp
  exact hd.name_inj j k ⟨hj, hp.1⟩ hk hp.2

/-- `find` is the relation `Maps`. -/
theorem Directory.find_eq_some (hd : Directory s) {name : List UInt8} {i : Nat} :
    s.find name = some i ↔ s.Maps name i := by
  simp only [find, Option.map_eq_some_iff, Maps]
  constructor
  · rintro ⟨k, hk, hi⟩
    obtain ⟨hlive, hname⟩ := findSlot_eq_some hk
    obtain ⟨j, hj, -, -⟩ := hd.live_inode k hlive
    exact ⟨k, hlive, hname, by omega⟩
  · rintro ⟨k, hlive, rfl, hi⟩
    exact ⟨k, hd.findSlot_of_live hlive, by omega⟩

theorem find_eq_none {name : List UInt8} :
    s.find name = none ↔ ∀ k, s.Live k → s.dName k ≠ name := by
  rw [find, Option.map_eq_none_iff, findSlot_eq_none]

theorem Inv.tfsLookup_eq (h : Inv s) {name : CString} (hv : validPathname name) :
    tfsLookup name 0 s = .ok (match s.find name.chars.tail with
      | some i => (i : Int)
      | none => -1) := by
  rw [tfsLookup, if_neg (by simpa using hv), h.findInDir_eq name.zero_notMem_tail, find]
  cases hs : s.findSlot name.chars.tail with
  | none => rfl
  | some k =>
      obtain ⟨j, hj, -, -⟩ := h.dir.live_inode k (findSlot_eq_some hs).1
      simp [hj]

/-! ## Directory updates -/

/-- `add_dir_entry` on the root directory fills the first entry that is not
live, unless the name is too long. -/
theorem Base.addDirEntry_eq (hb : Base s) {name : List UInt8} (hne : name ≠ []) (i : Int) :
    addDirEntry 0 name i s = .ok (match s.slotFor name with
      | some k => (0, { s with fsData := setEntry s.fsData k name i })
      | none => (-1, s)) := by
  have hpos : name.length ≠ 0 := fun hz => hne (List.length_eq_zero_iff.mp hz)
  rw [addDirEntry, slotFor]
  by_cases hlen : name.length < maxFileName
  · have hcond : ¬ (name.length = 0 ∨ maxFileName - 1 < name.length) := by omega
    have htest : ∀ k < s.maxDirEntries,
        (do return (← loadDInumber 0 k s) == -1) = Except.ok (s.dInumber k == -1) := by
      intro k hk
      rw [hb.loadDInumber_eq hk]
      rfl
    rw [if_neg hcond, if_pos hlen, hb.load_root]
    simp only [ok_bind, ne_eq, not_true_eq_false, if_false]
    rw [hb.dataBlockGet_root, ok_bind, alwaysAssert_of_true hb.fsData_null, ok_bind,
      scan_eq_find htest, ok_bind, firstFreeSlot]
    cases hs : (List.range s.maxDirEntries).find? fun k => s.dInumber k == -1 with
    | none => rfl
    | some k =>
        have hle := hb.entry_le (find_range_eq_some.mp hs).1
        simp only [sizeofDirEntry] at hle
        simp only [Nat.zero_add]
        rw [Region.copyIn_of_le (by simp only [sizeofDirEntry, maxFileName]; omega), ok_bind,
          Region.copyIn_of_le
            (by simp only [sizeofDirEntry, maxFileName, Region.blit_size]; omega), ok_bind,
          Region.store_of_lt
            (by simp only [sizeofDirEntry, maxFileName, Region.blit_size]; omega)]
        rfl
  · have hcond : name.length = 0 ∨ maxFileName - 1 < name.length := by omega
    rw [if_pos hcond, if_neg hlen]
    rfl

/-- `clear_dir_entry` on the root directory clears the first entry, live or
not, whose name is `name`. -/
theorem Base.clearDirEntry_eq (hb : Base s) {name : List UInt8} {k : Nat}
    (hk : k < s.maxDirEntries) (h0 : 0 ∉ name) (hlen : name.length < maxFileName)
    (hname : s.dName k = name) (hbefore : ∀ j < k, s.dName j ≠ name) :
    clearDirEntry 0 name s = .ok (0, { s with fsData := clearEntry s.fsData k }) := by
  have hle := hb.entry_le hk
  simp only [sizeofDirEntry] at hle
  have htest : ∀ j ≤ k, s.fsData.strcmpEq (0 + j * sizeofDirEntry) name
      = .ok (decide (s.dName j = name)) := by
    intro j hj
    rw [Nat.zero_add]
    exact strcmpEq_eq h0 hlen (by simp only [sizeofDirEntry, maxFileName]; omega)
  have hskip : ∀ j < k, s.fsData.strcmpEq (0 + j * sizeofDirEntry) name = .ok false := by
    intro j hj
    rw [htest j (by omega), decide_eq_false (hbefore j hj)]
  have hstop : s.fsData.strcmpEq (0 + k * sizeofDirEntry) name = .ok true := by
    rw [htest k (Nat.le_refl k), decide_eq_true hname]
  rw [clearDirEntry, hb.load_root]
  simp only [ok_bind, ne_eq, not_true_eq_false, if_false]
  rw [hb.dataBlockGet_root, ok_bind, alwaysAssert_of_true hb.fsData_null, ok_bind,
    scan_eq_some hk hskip hstop, ok_bind]
  simp only [Nat.zero_add]
  rw [Region.copyIn_of_le (by simp only [sizeofDirEntry, maxFileName]; omega), ok_bind,
    Region.copyIn_of_le (by simp only [sizeofDirEntry, maxFileName, Region.blit_size]; omega)]
  rfl

/-! ## Inodes -/

/-- The first free inode is an `int`, or the first index past them: the
inodes before it are taken. -/
theorem Bounds.firstFreeInode_le (hbd : Bounds s) {i : Nat} (h : s.firstFreeInode = some i) :
    i ≤ 2147483648 := by
  obtain ⟨hi, -, hbefore⟩ := find_range_eq_some.mp h
  by_contra hc
  have htaken : s.Taken 2147483648 := by
    refine ⟨by omega, ?_⟩
    have := hbefore 2147483648 (by omega)
    cases hst : s.freeinodeTs.get 2147483648 with
    | free => rw [hst] at this; cases this
    | taken => rfl
  have := (hbd.taken_lt _ htaken).1
  omega

/-- `inode_create(T_FILE)` takes the first free inode. A number past
`INT_MAX` turns into a negative index. -/
theorem Inv.inodeCreate_eq (h : Inv s) :
    inodeCreate .tFile s = match s.firstFreeInode with
      | some i =>
        if i < 2147483648 ∧ i < s.inodeTable.size then
          .ok ((i : Int), { s with
            inodeTable := s.inodeTable.set i ⟨.tFile, 0, -1⟩
            freeinodeTs := s.freeinodeTs.set i .taken })
        else .error .outOfBounds
      | none => .ok (-1, s) := by
  rw [inodeCreate, inodeAlloc_eq h.base.blockSize_pos h.base.freeinodeTs_size]
  cases hf : s.firstFreeInode with
  | none => rfl
  | some i =>
      rw [ok_bind]
      dsimp only
      by_cases hi : i < 2147483648
      · have hne : ¬ (i : Int) = -1 := by omega
        rw [toInt_of_lt hi, if_neg hne, index_natCast, ok_bind, modifyInode]
        by_cases hsz : i < s.inodeTable.size
        · simp only [Region.load_of_lt hsz, Region.store_of_lt hsz, ok_bind, pure_eq_ok,
            modifyInode, if_pos (And.intro hi hsz)]
          rw [Region.load_of_lt (by simpa using hsz), ok_bind,
            Region.store_of_lt (by simpa using hsz)]
          simp
        · have hno : ¬ (i < 2147483648 ∧ i < s.inodeTable.size) := fun hc => hsz hc.2
          simp only [Region.load, if_neg hsz, error_bind, if_neg hno]
      · have hle := h.bounds.firstFreeInode_le hf
        rw [if_neg (toInt_ne_neg_one hle), if_neg (fun hc => hi hc.1),
          index_of_neg (toInt_neg hle hi), error_bind]

/-- `inode_delete` frees the inode and its block. -/
theorem Base.inodeDelete_eq (hb : Base s) {i : Nat} (ht : s.Taken i)
    (hlt : i < s.inodeTable.size)
    (hblock : 0 < (s.inode i).iSize → ∃ b, s.HasBlock i b) :
    inodeDelete i s = .ok { s with
      freeinodeTs := s.freeinodeTs.set i .free
      freeBlocks := s.releaseBlock i } := by
  have hfree := hb.freeinodeTs_size
  have hi := ht.1
  have hstate : ∀ t : Region AllocationState, s.inodeTableSize ≤ t.size → i < t.size :=
    fun t h => by omega
  rw [inodeDelete, alwaysAssert_of_true ⟨by omega, by omega⟩, ok_bind, Int.toNat_natCast,
    Region.load_of_lt (hstate _ hfree), ok_bind, alwaysAssert_of_true ht.2, ok_bind,
    Region.load_of_lt hlt, ok_bind, releaseBlock]
  by_cases hsz : 0 < (s.inode i).iSize
  · obtain ⟨b, hbl⟩ := hblock hsz
    have hvalid := hbl.valid
    have hfb := hb.freeBlocks_size
    rw [if_pos hsz, if_pos hsz, hbl.eq, dataBlockFree,
      alwaysAssert_of_true ⟨by omega, by omega⟩, ok_bind, Int.toNat_natCast,
      Region.store_of_lt (by omega)]
    simp only [ok_bind, pure_eq_ok]
    rw [Region.store_of_lt (hstate _ hfree)]
    rfl
  · rw [if_neg hsz, if_neg hsz]
    simp only [ok_bind, pure_eq_ok]
    rw [Region.store_of_lt (hstate _ hfree)]
    rfl

/-! ## What no update touches -/

/-- `t` has the tables of `s`, with other contents, and the same root. -/
structure Frame (s t : Tfs) : Prop where
  fsParams : t.fsParams = s.fsParams
  inodeTable_null : t.inodeTable.null = s.inodeTable.null
  inodeTable_size : t.inodeTable.size = s.inodeTable.size
  fsData_null : t.fsData.null = s.fsData.null
  fsData_size : t.fsData.size = s.fsData.size
  freeinodeTs_size : t.freeinodeTs.size = s.freeinodeTs.size
  freeBlocks_size : t.freeBlocks.size = s.freeBlocks.size
  openFileTable_size : t.openFileTable.size = s.openFileTable.size
  freeOpenFileEntries_size : t.freeOpenFileEntries.size = s.freeOpenFileEntries.size
  root_taken : t.freeinodeTs.get 0 = s.freeinodeTs.get 0
  root_inode : t.inode 0 = s.inode 0
  root_block : s.freeBlocks.get 0 = .taken → t.freeBlocks.get 0 = .taken

theorem Base.frame {t : Tfs} (hb : Base s) (hf : Frame s t) : Base t where
  blockSize_pos := by rw [blockSize, hf.fsParams]; exact hb.blockSize_pos
  inodeTable_null := by rw [hf.inodeTable_null]; exact hb.inodeTable_null
  fsData_null := by rw [hf.fsData_null]; exact hb.fsData_null
  freeinodeTs_size := by
    rw [inodeTableSize, hf.fsParams, hf.freeinodeTs_size]
    exact hb.freeinodeTs_size
  freeBlocks_size := by
    rw [dataBlocks, hf.fsParams, hf.freeBlocks_size]
    exact hb.freeBlocks_size
  freeOpenFileEntries_size := by
    rw [maxOpenFiles, hf.fsParams, hf.freeOpenFileEntries_size]
    exact hb.freeOpenFileEntries_size
  fsData_size := by rw [hf.fsData_size]; exact hb.fsData_size
  entries_fit := by
    rw [maxDirEntries, blockSize, hf.fsParams, hf.fsData_size]
    exact hb.entries_fit
  root_taken := by
    refine ⟨?_, by rw [hf.root_taken]; exact hb.root_taken.2⟩
    rw [inodeTableSize, hf.fsParams]
    exact hb.root_taken.1
  root_lt := by rw [hf.inodeTable_size]; exact hb.root_lt
  root_inode := by rw [hf.root_inode, blockSize, hf.fsParams]; exact hb.root_inode
  root_block := by
    refine ⟨?_, hf.root_block hb.root_block.2⟩
    rw [dataBlocks, hf.fsParams]
    exact hb.root_block.1

theorem frame_resetInode {i : Nat} (hi : i ≠ 0) : Frame s (s.resetInode i) := by
  constructor <;> simp [resetInode, inode, hi.symm]

theorem frame_create {i : Nat} (hi : i ≠ 0) (k : Nat) (name : List UInt8) :
    Frame s (s.create i k name) := by
  constructor <;> simp [create, setEntry, inode, hi.symm]

/-- Releasing a file's block does not free the root's. -/
theorem releaseBlock_root {i : Nat} (hblock : 0 < (s.inode i).iSize → ∃ b, s.HasBlock i b) :
    (s.releaseBlock i).get 0 = s.freeBlocks.get 0 := by
  rw [releaseBlock]
  split
  · rename_i hsz
    obtain ⟨b, hb⟩ := hblock hsz
    rw [hb.eq, Int.toNat_natCast, Region.set_get_ne _ _ hb.pos.symm]
  · rfl

@[simp] theorem releaseBlock_size (i : Nat) : (s.releaseBlock i).size = s.freeBlocks.size := by
  rw [releaseBlock]
  split <;> rfl

@[simp] theorem acquireBlock_size (i b : Nat) :
    (s.acquireBlock i b).size = s.freeBlocks.size := by
  rw [acquireBlock]
  split <;> rfl

theorem frame_truncate {i : Nat} (hi : i ≠ 0)
    (hblock : 0 < (s.inode i).iSize → ∃ b, s.HasBlock i b) : Frame s (s.truncate i) := by
  constructor <;> simp [truncate, inode, hi.symm, releaseBlock_root hblock]

theorem frame_remove {i : Nat} (hi : i ≠ 0) (k : Nat)
    (hblock : 0 < (s.inode i).iSize → ∃ b, s.HasBlock i b) : Frame s (s.remove i k) := by
  constructor <;> simp [remove, clearEntry, inode, hi.symm, releaseBlock_root hblock]

theorem frame_openHandle (h i offset : Nat) : Frame s (s.openHandle h i offset) := by
  constructor <;> simp [openHandle]

theorem frame_closeHandle (h : Nat) : Frame s (s.closeHandle h) := by
  constructor <;> simp [closeHandle]

theorem frame_seekHandle (h offset : Nat) : Frame s (s.seekHandle h offset) := by
  constructor <;> simp [seekHandle]

theorem frame_writeAt (h : Nat) {i : Nat} (hi : i ≠ 0) (b off n : Nat) (buffer : Nat → UInt8) :
    Frame s (s.writeAt h i b off n buffer) := by
  constructor <;> simp [writeAt, inode, hi.symm]
  intro hroot
  rw [acquireBlock]
  split
  · by_cases hb : (0 : Nat) = b
    · rw [← hb, Region.set_get_self]
    · rw [Region.set_get_ne _ _ hb, hroot]
  · exact hroot

/-! ## The calls -/

theorem Base.ne_root (hb : Base s) {i : Nat} (h : s.firstFreeInode = some i) : i ≠ 0 := by
  rintro rfl
  have := (find_range_eq_some.mp h).2.1
  rw [hb.root_taken.2] at this
  cases this

theorem truncate_of_empty {i : Nat} (h : (s.inode i).iSize = 0) : s.truncate i = s := by
  have hset : s.inodeTable.set i { s.inode i with iSize := 0 } = s.inodeTable :=
    Region.set_of_get_eq (by rw [← h])
  rw [truncate, hset, releaseBlock, if_neg (by omega)]

theorem resetInode_of_free {i : Nat} (h : s.freeinodeTs.get i = .free) :
    ({ s with
      inodeTable := s.inodeTable.set i ⟨.tFile, 0, -1⟩
      freeinodeTs := (s.freeinodeTs.set i .taken).set i .free } : Tfs) = s.resetInode i := by
  rw [Region.set_set, Region.set_of_get_eq h]
  rfl

/-- The inode a directory entry refers to. -/
theorem Inv.of_find (h : Inv s) {name : List UInt8} {i : Nat} (hf : s.find name = some i) :
    i ≠ 0 ∧ s.Taken i ∧ i < s.inodeTable.size ∧
      (0 < (s.inode i).iSize → ∃ b, s.HasBlock i b) := by
  obtain ⟨k, hlive, -, hk⟩ := h.dir.find_eq_some.mp hf
  obtain ⟨j, hj, hne, ht⟩ := h.dir.live_inode k hlive
  obtain rfl : i = j := by omega
  exact ⟨hne, ht, (h.bounds.taken_lt i ht).2, h.blocks.held i ⟨hne, .inl ht⟩⟩

/-- The state of an existing file's tables when its handle is added. -/
def Tfs.truncated (s : Tfs) (i mode : Nat) : Tfs :=
  if mode &&& tfsOTrunc ≠ 0 then s.truncate i else s

theorem Inv.frame_truncated (h : Inv s) {name : List UInt8} {i : Nat}
    (hf : s.find name = some i) (mode : Nat) : Frame s (s.truncated i mode) := by
  obtain ⟨hne, -, -, hblock⟩ := h.of_find hf
  rw [truncated]
  split
  · exact frame_truncate hne hblock
  · constructor <;> simp

/-- The truncation of an existing file, and what is done after it. -/
theorem Inv.truncated_eq (h : Inv s) {name : List UInt8} (hf : s.find name = some i) (mode : Nat)
    {α : Type} (next : Tfs → Except Fault α) :
    (if mode &&& tfsOTrunc ≠ 0 ∧ 0 < (s.inode i).iSize then do
        let t ← dataBlockFree (s.inode i).iDataBlock s
        let t ← t.modifyInode i fun n => { n with iSize := 0 }
        next t
      else next s) = next (s.truncated i mode) := by
  obtain ⟨-, -, hlt, hblock⟩ := h.of_find hf
  by_cases htr : mode &&& tfsOTrunc ≠ 0
  · by_cases hsz : 0 < (s.inode i).iSize
    · obtain ⟨b, hbl⟩ := hblock hsz
      have hvalid := hbl.valid
      have hfb := h.base.freeBlocks_size
      have heq : (s.inode i).iDataBlock = b := hbl.eq
      have htrunc : s.truncated i mode = s.truncate i := if_pos htr
      rw [if_pos ⟨htr, hsz⟩, dataBlockFree, alwaysAssert_of_true ⟨by omega, by omega⟩, ok_bind,
        Region.store_of_lt (by omega), htrunc]
      simp only [ok_bind, pure_eq_ok, modifyInode, Region.load_of_lt hlt, Region.store_of_lt hlt]
      rw [truncate, releaseBlock, if_pos hsz]
    · have htrunc : s.truncated i mode = s :=
        (if_pos htr).trans (truncate_of_empty (by omega))
      rw [if_neg (fun hc => hsz hc.2), htrunc]
  · have htrunc : s.truncated i mode = s := if_neg htr
    rw [if_neg (fun hc => htr hc.1), htrunc]

/-- A new inode gets its entry, or is given back. -/
theorem Inv.newEntry_eq (h : Inv s) {name : List UInt8} (hfree : s.firstFreeInode = some i)
    (hlt : i < s.inodeTable.size) (hnil : name ≠ []) :
    (do
      let (r, t) ← addDirEntry 0 name i { s with
        inodeTable := s.inodeTable.set i ⟨.tFile, 0, -1⟩
        freeinodeTs := s.freeinodeTs.set i .taken }
      if r = -1 then
        let t ← inodeDelete i t
        return (-1, t)
      addToOpenFileTable i 0 t) =
      match s.slotFor name with
      | none => .ok (-1, s.resetInode i)
      | some k => addToOpenFileTable i 0 (s.create i k name) := by
  have hne := h.base.ne_root hfree
  obtain ⟨hi, hstate, -⟩ := find_range_eq_some.mp hfree
  have hb := h.base.frame (t := { s with
      inodeTable := s.inodeTable.set i ⟨.tFile, 0, -1⟩
      freeinodeTs := s.freeinodeTs.set i .taken })
    (by constructor <;> simp [inode, hne.symm])
  rw [hb.addDirEntry_eq hnil i, ok_bind]
  have hslot : Tfs.slotFor { s with
      inodeTable := s.inodeTable.set i ⟨.tFile, 0, -1⟩
      freeinodeTs := s.freeinodeTs.set i .taken } name = s.slotFor name := rfl
  rw [hslot]
  cases hs : s.slotFor name with
  | none =>
      dsimp only
      rw [if_pos rfl, hb.inodeDelete_eq ⟨hi, by simp⟩ (by simpa using hlt) (by simp [inode]),
        ok_bind, releaseBlock, if_neg (by simp [inode])]
      exact congrArg (fun t => Except.ok ((-1 : Int), t))
        (resetInode_of_free (by simpa using hstate))
  | some k =>
      dsimp only
      rw [if_neg (by decide)]
      rfl

/-- **`tfs_open`.** -/
theorem Inv.tfsOpen_eq (h : Inv s) (name : CString) (mode : Nat) :
    tfsOpen name mode s =
      if ¬ validPathname name then .ok (-1, s)
      else match s.find name.chars.tail with
        | some i =>
          addToOpenFileTable i
            (if mode &&& tfsOAppend ≠ 0 then ((s.truncated i mode).inode i).iSize else 0)
            (s.truncated i mode)
        | none =>
          if mode &&& tfsOCreat = 0 then .ok (-1, s)
          else match s.firstFreeInode with
            | none => .ok (-1, s)
            | some i =>
              if i < 2147483648 ∧ i < s.inodeTable.size then
                match s.slotFor name.chars.tail with
                | none => .ok (-1, s.resetInode i)
                | some k => addToOpenFileTable i 0 (s.create i k name.chars.tail)
              else .error .outOfBounds := by
  have hb := h.base
  by_cases hv : validPathname name
  · rw [tfsOpen, if_neg (by simpa using hv), if_neg (by simpa using hv), hb.inodeGet_root, ok_bind,
      alwaysAssert_of_true hb.inodeTable_null, ok_bind, h.tfsLookup_eq hv, ok_bind]
    cases hf : s.find name.chars.tail with
    | some i =>
        obtain ⟨hne, ht, hlt, -⟩ := h.of_find hf
        have hi := ht.1
        dsimp only
        rw [if_pos (by omega), inodeGet, alwaysAssert_of_true ⟨by omega, by omega⟩, ok_bind]
        rw [pure_eq_ok, ok_bind, Int.toNat_natCast, alwaysAssert_of_true hb.inodeTable_null,
          ok_bind, Region.load_of_lt hlt, ok_bind]
        refine (h.truncated_eq hf mode fun t => do
          let n ← t.inodeTable.load i
          addToOpenFileTable i (if mode &&& tfsOAppend ≠ 0 then n.iSize else 0) t).trans ?_
        have hlt' : i < (s.truncated i mode).inodeTable.size := by
          rw [(h.frame_truncated hf mode).inodeTable_size]
          exact hlt
        rw [Region.load_of_lt hlt', ok_bind]
    | none =>
        dsimp only
        rw [if_neg (by omega)]
        by_cases hc : mode &&& tfsOCreat = 0
        · rw [if_pos hc, if_neg (by simpa using hc)]
          rfl
        · rw [if_neg hc, if_pos hc, h.inodeCreate_eq]
          cases hfree : s.firstFreeInode with
          | none => rfl
          | some i =>
              dsimp only
              by_cases hlt : i < 2147483648 ∧ i < s.inodeTable.size
              · have hnil : name.chars.tail ≠ [] := by
                  intro hnil
                  have hlen := congrArg List.length hnil
                  rw [List.length_tail, List.length_nil] at hlen
                  have := hv.1
                  omega
                rw [if_pos hlt, if_pos hlt, ok_bind]
                dsimp only
                rw [if_neg (by omega)]
                exact h.newEntry_eq hfree hlt.2 hnil
              · rw [if_neg hlt, if_neg hlt, error_bind]
  · rw [tfsOpen, if_pos hv, if_pos hv]
    rfl

/-- **`tfs_close`.** -/
theorem Base.tfsClose_eq (hb : Base s) (fhandle : Int) :
    tfsClose fhandle s =
      .ok (if 0 ≤ fhandle ∧ s.Open fhandle.toNat then (0, s.closeHandle fhandle.toNat)
        else (-1, s)) := by
  rw [tfsClose, getOpenFileEntry_eq hb, ok_bind]
  by_cases ho : 0 ≤ fhandle ∧ s.Open fhandle.toNat
  · obtain ⟨hpos, hlt, htaken⟩ := ho
    have := hb.freeOpenFileEntries_size
    rw [if_pos ⟨hpos, hlt, htaken⟩, if_pos ⟨hpos, hlt, htaken⟩]
    dsimp only
    rw [removeFromOpenFileTable, alwaysAssert_of_true ⟨hpos, by omega⟩, ok_bind,
      Region.load_of_lt (by omega), ok_bind, alwaysAssert_of_true htaken, ok_bind,
      Region.store_of_lt (by omega)]
    rfl
  · rw [if_neg ho, if_neg ho]
    rfl

/-- **`tfs_read`** through an open handle. -/
theorem Inv.tfsRead_eq (hinv : Inv s) {h i off : Nat} (ho : s.Open h)
    (hf : s.file h = ⟨i, off⟩) (len : Nat) :
    tfsRead h len s =
      if clampRead len off (s.inode i).iSize = 0 then .ok ((0, []), s)
      else if ¬ s.validBlockNumber (s.inode i).iDataBlock then
        .error (.panic "data_block_get: invalid block number")
      else if s.blockAddr i % 18446744073709551616 + off + clampRead len off (s.inode i).iSize
          ≤ s.fsData.size then
        .ok ((toSSize (clampRead len off (s.inode i).iSize),
          (List.range (clampRead len off (s.inode i).iSize)).map fun j =>
            s.fsData.get (s.blockAddr i % 18446744073709551616 + off + j)),
          s.seekHandle h (sizeAdd off (clampRead len off (s.inode i).iSize)))
      else .error .outOfBounds := by
  have hb := hinv.base
  have hsz := hinv.bounds.open_lt h ho
  obtain ⟨j, hj, hne, hjs, hjt⟩ := hinv.bounds.open_inode h ho
  rw [hf] at hj
  obtain rfl : i = j := Int.ofNat_inj.mp hj
  have hf' : s.openFileTable.get h = ⟨i, off⟩ := hf
  rw [tfsRead, getOpenFileEntry_eq hb, if_pos ⟨by omega, by simpa using ho⟩, ok_bind]
  dsimp only
  rw [Int.toNat_natCast, Region.load_of_lt hsz, hf', ok_bind]
  dsimp only
  rw [inodeGet, alwaysAssert_of_true ⟨by omega, by omega⟩, ok_bind, pure_eq_ok, ok_bind,
    alwaysAssert_of_true hb.inodeTable_null, ok_bind, Int.toNat_natCast,
    Region.load_of_lt hjt, ok_bind]
  by_cases hn : clampRead len off (s.inode i).iSize = 0
  · rw [if_pos hn, if_pos hn]
    rfl
  · rw [if_neg hn, if_neg hn, dataBlockGet, blockAddr]
    by_cases hv : s.validBlockNumber (s.inode i).iDataBlock
    · rw [if_neg (by simpa using hv), alwaysAssert_of_true hv, ok_bind, pure_eq_ok, ok_bind,
        alwaysAssert_of_true hb.fsData_null, ok_bind, Region.copyOut]
      split
      · rw [ok_bind, modifyOpenFileEntry, Region.load_of_lt hsz, ok_bind,
          Region.store_of_lt hsz, seekHandle, file, hf']
        rfl
      · rfl
    · rw [if_pos hv, alwaysAssert, if_neg hv]
      rfl

theorem Base.read_closed (hb : Base s) {fhandle : Int} (len : Nat)
    (ho : ¬ (0 ≤ fhandle ∧ s.Open fhandle.toNat)) :
    tfsRead fhandle len s = .ok ((-1, []), s) := by
  rw [tfsRead, getOpenFileEntry_eq hb, if_neg ho]
  rfl

theorem Base.write_closed (hb : Base s) {fhandle : Int} (buffer : Nat → UInt8) (toWrite : Nat)
    (ho : ¬ (0 ≤ fhandle ∧ s.Open fhandle.toNat)) :
    tfsWrite fhandle buffer toWrite s = .ok (-1, s) := by
  rw [tfsWrite, getOpenFileEntry_eq hb, if_neg ho]
  rfl

/-! ## Writes -/

/-- `fs_data` is smaller than `PTRDIFF_MAX`, and a block exceeds what the
directory uses of it by less than an entry. -/
theorem Base.blockSize_lt (hb : Base s) : s.blockSize < 9223372036854775852 := by
  have h1 := hb.entries_fit
  have h2 := hb.fsData_size
  have h3 := Nat.div_add_mod s.blockSize sizeofDirEntry
  have h4 := Nat.mod_lt s.blockSize (show sizeofDirEntry > 0 by decide)
  rw [maxDirEntries] at h1
  simp only [sizeofDirEntry] at *
  omega

/-- The first free block is an `int`, or the first number past them, and
its address is a `size_t`: the blocks before it are taken. -/
theorem Inv.firstFreeBlock_le (h : Inv s) {b : Nat} (hf : s.firstFreeBlock = some b) :
    b ≠ 0 ∧ b ≤ 2147483648 ∧ b < s.dataBlocks ∧ b * s.blockSize < 18446744073709551616 := by
  obtain ⟨hb, hfree, hbefore⟩ := find_range_eq_some.mp hf
  have htaken : ∀ c < b, s.BlockTaken c := by
    intro c hc
    refine ⟨by omega, ?_⟩
    have := hbefore c hc
    cases hst : s.freeBlocks.get c with
    | free => rw [hst] at this; cases this
    | taken => rfl
  have hne : b ≠ 0 := by
    rintro rfl
    rw [h.base.root_block.2] at hfree
    cases hfree
  have hbs := h.base.blockSize_lt
  refine ⟨hne, ?_, hb, ?_⟩
  · by_contra hc
    have := (h.bounds.block_lt 2147483648 (htaken _ (by omega)) (by decide)).1
    omega
  · obtain ⟨c, rfl⟩ : ∃ c, b = c + 1 := ⟨b - 1, by omega⟩
    by_cases hc : c = 0
    · subst hc
      omega
    · have haddr := (h.bounds.block_lt c (htaken c (by omega)) hc).2
      have hdata := h.base.fsData_size
      have hle : 1 * s.blockSize ≤ c * s.blockSize := Nat.mul_le_mul_right _ (by omega)
      rw [Nat.add_mul]
      omega

theorem dataBlockGet_eq {b : Nat} (hv : b < s.dataBlocks)
    (haddr : b * s.blockSize < 18446744073709551616) :
    dataBlockGet b s = .ok (b * s.blockSize) := by
  rw [dataBlockGet, alwaysAssert_of_true ⟨by omega, by omega⟩, Int.toNat_natCast,
    Nat.mod_eq_of_lt haddr]
  rfl

/-- The second half of `tfs_write`: the block is there, `n` bytes go into it. -/
private theorem write_block_eq {h i off n b : Nat} {buffer : Nat → UInt8}
    (hnull : s.fsData.null = false) (hdata : s.fsData.size < 9223372036854775808)
    (hh : h < s.openFileTable.size) (hi : i < s.inodeTable.size) (hv : b < s.dataBlocks)
    (haddr : b * s.blockSize < 18446744073709551616) :
    (do
      let block ← dataBlockGet b s
      alwaysAssert (s.fsData.null = false) "tfs_write: data block deleted mid-write"
      let fsData ← s.fsData.copyIn (block + off) n buffer
      let s' := { s with fsData }
      let s' ← s'.modifyOpenFileEntry h fun file => { file with ofOffset := sizeAdd off n }
      let s' ← s'.modifyInode i fun inode =>
        { inode with iSize := max inode.iSize (sizeAdd off n) }
      return (toSSize n, s')) =
    if b * s.blockSize + off + n ≤ s.fsData.size then
      .ok (toSSize n, { s with
        inodeTable := s.inodeTable.set i
          { s.inodeTable.get i with iSize := max (s.inodeTable.get i).iSize (off + n) }
        fsData := s.fsData.blit (b * s.blockSize + off) n buffer
        openFileTable := s.openFileTable.set h
          { s.openFileTable.get h with ofOffset := off + n } })
    else .error .outOfBounds := by
  rw [dataBlockGet_eq hv haddr, ok_bind, alwaysAssert_of_true hnull, ok_bind, Region.copyIn]
  by_cases hfit : b * s.blockSize + off + n ≤ s.fsData.size
  · have hadd : sizeAdd off n = off + n := Nat.mod_eq_of_lt (by omega)
    rw [if_pos hfit, if_pos hfit, ok_bind, hadd]
    dsimp only
    rw [modifyOpenFileEntry, Region.load_of_lt hh, ok_bind, Region.store_of_lt hh, ok_bind,
      pure_eq_ok, ok_bind, modifyInode, Region.load_of_lt hi, ok_bind, Region.store_of_lt hi]
    rfl
  · rw [if_neg hfit, if_neg hfit, error_bind]

/-- **`tfs_write`** through an open handle. -/
theorem Inv.tfsWrite_eq (hinv : Inv s) {h i off : Nat} (ho : s.Open h)
    (hf : s.file h = ⟨i, off⟩) (buffer : Nat → UInt8) (toWrite : Nat) :
    tfsWrite h buffer toWrite s =
      if clampWrite toWrite off s.blockSize = 0 then .ok (0, s)
      else match s.blockFor i with
        | none => .ok (-1, s)
        | some b =>
          if ¬ b < 2147483648 then .error (.panic "data_block_get: invalid block number")
          else if b * s.blockSize + off + clampWrite toWrite off s.blockSize ≤ s.fsData.size then
            .ok (toSSize (clampWrite toWrite off s.blockSize),
              s.writeAt h i b off (clampWrite toWrite off s.blockSize) buffer)
          else .error .outOfBounds := by
  have hb := hinv.base
  have hsz := hinv.bounds.open_lt h ho
  obtain ⟨j, hj, hne, hjs, hjt⟩ := hinv.bounds.open_inode h ho
  rw [hf] at hj
  obtain rfl : i = j := Int.ofNat_inj.mp hj
  have hf' : s.openFileTable.get h = ⟨i, off⟩ := hf
  have hdata := hb.fsData_size
  rw [tfsWrite, getOpenFileEntry_eq hb, if_pos ⟨by omega, by simpa using ho⟩, ok_bind]
  dsimp only
  rw [Int.toNat_natCast, Region.load_of_lt hsz, hf', ok_bind]
  dsimp only
  rw [inodeGet, alwaysAssert_of_true ⟨by omega, by omega⟩, ok_bind, pure_eq_ok, ok_bind,
    alwaysAssert_of_true hb.inodeTable_null, ok_bind, Int.toNat_natCast]
  generalize clampWrite toWrite off s.blockSize = n
  by_cases hn : n = 0
  · rw [if_pos hn, if_pos hn]
    rfl
  · rw [if_neg hn, if_neg hn, Region.load_of_lt hjt, ok_bind, blockFor]
    by_cases hempty : (s.inode i).iSize = 0
    · have hempty' : (s.inodeTable.get i).iSize = 0 := hempty
      rw [if_pos hempty, if_pos hempty', dataBlockAlloc_eq hb.blockSize_pos hb.freeBlocks_size]
      cases hfb : s.firstFreeBlock with
      | none => rfl
      | some b =>
          obtain ⟨hb0, hble, hbv, haddr⟩ := hinv.firstFreeBlock_le hfb
          rw [ok_bind]
          dsimp only
          rw [if_neg (toInt_ne_neg_one hble), modifyInode, Region.load_of_lt hjt, ok_bind,
            Region.store_of_lt hjt, ok_bind, pure_eq_ok, ok_bind,
            Region.load_of_lt (by simpa using hjt), ok_bind, Region.set_get_self]
          by_cases hint : b < 2147483648
          · rw [toInt_of_lt hint, if_neg (not_not_intro hint)]
            refine (write_block_eq (s := { s with
                inodeTable := s.inodeTable.set i { s.inodeTable.get i with iDataBlock := b }
                freeBlocks := s.freeBlocks.set b .taken })
              hb.fsData_null hdata hsz hjt hbv haddr).trans ?_
            rw [Region.set_get_self, Region.set_set, writeAt, acquireBlock, if_pos hempty]
          · have hneg := toInt_neg hble hint
            have hpanic : dataBlockGet (toInt b) { s with
                inodeTable := s.inodeTable.set i { s.inodeTable.get i with iDataBlock := toInt b }
                freeBlocks := s.freeBlocks.set b .taken } =
                .error (.panic "data_block_get: invalid block number") := by
              rw [dataBlockGet, alwaysAssert, if_neg (fun hc => Int.not_le.mpr hneg hc.1)]
              rfl
            rw [if_pos hint, hpanic, error_bind]
    · obtain ⟨b, hbl⟩ := hinv.blocks.held i ⟨hne, .inr ⟨h, ho, by rw [hf]⟩⟩ (by omega)
      have hblock : (s.inodeTable.get i).iDataBlock = b := hbl.eq
      have hint := hbl.int
      have haddr := hbl.addr_lt
      rw [if_neg hempty, if_neg hempty]
      dsimp only
      rw [ok_bind, hblock, Int.toNat_natCast, if_neg (by omega)]
      refine (write_block_eq hb.fsData_null hdata hsz hjt hbl.valid (by omega)).trans ?_
      rw [writeAt, acquireBlock, if_neg hempty, inode, ← hblock]

/-- What an open handle refers to. -/
theorem Bounds.file_eq (hbd : Bounds s) {h : Nat} (ho : s.Open h) :
    ∃ i off : Nat, s.file h = ⟨i, off⟩ ∧ i ≠ 0 ∧ i < s.inodeTableSize ∧
      i < s.inodeTable.size := by
  obtain ⟨i, hi, hrest⟩ := hbd.open_inode h ho
  exact ⟨i, (s.file h).ofOffset, by rw [← hi], hrest⟩

/-- A write that stays inside the memory stays inside its block. -/
theorem clampWrite_le {toWrite off blockSize : Nat} (hbs : blockSize < 18446744073709551616)
    (hn : off + clampWrite toWrite off blockSize < 18446744073709551616) :
    off + clampWrite toWrite off blockSize ≤ blockSize := by
  have hoff : off % 18446744073709551616 = off := Nat.mod_eq_of_lt (by omega)
  rw [clampWrite] at hn ⊢
  by_cases hc : blockSize < sizeAdd toWrite off
  · rw [if_pos hc, sizeSub, hoff] at hn ⊢
    by_cases hle : off ≤ blockSize
    · omega
    · rw [Nat.mod_eq_of_lt (by omega)] at hn
      omega
  · rw [if_neg hc] at hn ⊢
    rw [sizeAdd, Nat.mod_eq_of_lt (by omega)] at hc
    omega

/-- `n` bytes can be written through handle `h`, which is open on inode `i`
at `off`, into block `b`. -/
structure Tfs.Writes (s : Tfs) (h i b off n : Nat) : Prop where
  opened : s.Open h
  file_eq : s.file h = ⟨i, off⟩
  ne_root : i ≠ 0
  lt : i < s.inodeTable.size
  pos : 0 < n
  le_block : off + n ≤ s.blockSize
  block : s.blockFor i = some b
  block_ne : b ≠ 0
  int : b < 2147483648
  valid : b < s.dataBlocks
  addr_le : b * s.blockSize + off + n ≤ s.fsData.size

/-- The block a write goes to is not the directory's. -/
theorem Inv.blockFor_ne (hinv : Inv s) {h i off b : Nat} (ho : s.Open h)
    (hf : s.file h = ⟨i, off⟩) (hne : i ≠ 0) (hb : s.blockFor i = some b) :
    b ≠ 0 ∧ b < s.dataBlocks := by
  rw [blockFor] at hb
  split at hb
  · obtain ⟨h1, -, h2, -⟩ := hinv.firstFreeBlock_le hb
    exact ⟨h1, h2⟩
  · obtain ⟨b', hbl⟩ := hinv.blocks.held i ⟨hne, .inr ⟨h, ho, by rw [hf]⟩⟩ (by omega)
    obtain rfl : b' = b := by
      have := Option.some.inj hb
      rw [hbl.eq] at this
      exact this
    exact ⟨hbl.pos, hbl.valid⟩

/-- A write that has bytes to write and a block to write to, and returns, is
a `writeAt`. -/
theorem Inv.tfsWrite_writes (hinv : Inv s) {h i off b toWrite : Nat} {r : Int}
    {buffer : Nat → UInt8} {s' : Tfs} (ho : s.Open h) (hf : s.file h = ⟨i, off⟩)
    (hn : clampWrite toWrite off s.blockSize ≠ 0) (hb : s.blockFor i = some b)
    (hw : tfsWrite h buffer toWrite s = .ok (r, s')) :
    s.Writes h i b off (clampWrite toWrite off s.blockSize) ∧
      s' = s.writeAt h i b off (clampWrite toWrite off s.blockSize) buffer := by
  have hfile : (i : Int) = (s.file h).ofInumber := by rw [hf]
  obtain ⟨j, hj, hne, -, hlt⟩ := hinv.bounds.open_inode h ho
  obtain rfl : i = j := Int.ofNat_inj.mp (hfile.trans hj)
  rw [hinv.tfsWrite_eq ho hf, if_neg hn, hb] at hw
  dsimp only at hw
  by_cases hint : b < 2147483648
  · rw [if_neg (not_not_intro hint)] at hw
    by_cases hfit : b * s.blockSize + off + clampWrite toWrite off s.blockSize ≤ s.fsData.size
    · rw [if_pos hfit] at hw
      have hdata := hinv.base.fsData_size
      have hbs := hinv.base.blockSize_lt
      obtain ⟨hb0, hv⟩ := hinv.blockFor_ne ho hf hne hb
      exact ⟨⟨ho, hf, hne, hlt, by omega, clampWrite_le (by omega) (by omega), hb, hb0, hint, hv,
        hfit⟩, (ok_pair_inj hw).2.symm⟩
    · rw [if_neg hfit] at hw
      cases hw
  · rw [if_pos hint] at hw
    cases hw

/-- A write that returns changes nothing or is a `writeAt`. -/
theorem Inv.tfsWrite_cases (hinv : Inv s) {fhandle r : Int} {buffer : Nat → UInt8}
    {toWrite : Nat} {s' : Tfs} (hw : tfsWrite fhandle buffer toWrite s = .ok (r, s')) :
    s' = s ∨ ∃ h i b off : Nat, fhandle = h ∧
      s.Writes h i b off (clampWrite toWrite off s.blockSize) ∧
      s' = s.writeAt h i b off (clampWrite toWrite off s.blockSize) buffer := by
  by_cases ho : 0 ≤ fhandle ∧ s.Open fhandle.toNat
  · obtain ⟨h, rfl⟩ : ∃ h : Nat, fhandle = h := ⟨fhandle.toNat, by omega⟩
    have ho : s.Open h := ho.2
    obtain ⟨i, off, hf, -⟩ := hinv.bounds.file_eq ho
    by_cases hn : clampWrite toWrite off s.blockSize = 0
    · rw [hinv.tfsWrite_eq ho hf, if_pos hn] at hw
      exact .inl (ok_pair_inj hw).2.symm
    · cases hb : s.blockFor i with
      | none =>
          rw [hinv.tfsWrite_eq ho hf, if_neg hn, hb] at hw
          exact .inl (ok_pair_inj hw).2.symm
      | some b => exact .inr ⟨h, i, b, off, rfl, hinv.tfsWrite_writes ho hf hn hb hw⟩
  · rw [hinv.base.write_closed _ _ ho] at hw
    exact .inl (ok_pair_inj hw).2.symm

/-- A read that returns moves an offset at most, to a `size_t`. -/
theorem Inv.tfsRead_cases (hinv : Inv s) {fhandle : Int} {len : Nat} {r : Int × List UInt8}
    {s' : Tfs} (hr : tfsRead fhandle len s = .ok (r, s')) :
    s' = s ∨ ∃ h off : Nat, fhandle = h ∧ s.Open h ∧ off < 18446744073709551616 ∧
      s' = s.seekHandle h off := by
  by_cases ho : 0 ≤ fhandle ∧ s.Open fhandle.toNat
  · obtain ⟨h, rfl⟩ : ∃ h : Nat, fhandle = h := ⟨fhandle.toNat, by omega⟩
    have ho : s.Open h := ho.2
    obtain ⟨i, off, hf, -⟩ := hinv.bounds.file_eq ho
    rw [hinv.tfsRead_eq ho hf] at hr
    split at hr
    · cases hr
      exact .inl rfl
    · split at hr
      · cases hr
      · split at hr
        · obtain ⟨-, rfl⟩ := ok_pair_inj hr
          exact .inr ⟨h, _, rfl, ho, Nat.mod_lt _ (by decide), rfl⟩
        · cases hr
  · rw [hinv.base.read_closed _ ho] at hr
    cases hr
    exact .inl rfl

/-! ## Unlinking -/

/-- **`tfs_unlink`.** The entry cleared is the entry found: an entry before
it with the same name would be live too, since a cleared one has no name. -/
theorem Inv.tfsUnlink_eq (hinv : Inv s) (target : CString) :
    tfsUnlink target s =
      if ¬ validPathname target then .ok (-1, s)
      else match s.findSlot target.chars.tail with
        | none => .ok (-1, s)
        | some k => .ok (0, s.remove (s.dInumber k).toNat k) := by
  have hb := hinv.base
  by_cases hv : validPathname target
  · rw [tfsUnlink, if_neg (not_not_intro hv), if_neg (not_not_intro hv), hb.inodeGet_root,
      ok_bind, alwaysAssert_of_true hb.inodeTable_null, ok_bind, hinv.tfsLookup_eq hv, ok_bind,
      find]
    cases hs : s.findSlot target.chars.tail with
    | none => rfl
    | some k =>
        obtain ⟨hlive, hname⟩ := findSlot_eq_some hs
        obtain ⟨i, hi, hne, ht⟩ := hinv.dir.live_inode k hlive
        have hlt := (hinv.bounds.taken_lt i ht).2
        have hblock := hinv.blocks.held i ⟨hne, .inl ht⟩
        have hnonempty := (hinv.dir.live_name k hlive).1
        have hlen := (hinv.dir.live_name k hlive).2
        have hbefore : ∀ j < k, s.dName j ≠ target.chars.tail := by
          intro j hj heq
          by_cases hjl : s.Live j
          · have := hinv.dir.name_inj j k hjl hlive (by rw [heq, hname])
            omega
          · have hnil := hinv.dir.used k j hlive hj hjl
            rw [heq, ← hname] at hnil
            exact hnonempty hnil
        rw [Option.map_some, hi, Int.toNat_natCast]
        dsimp only
        rw [if_neg (by omega), hb.inodeDelete_eq ht hlt hblock, ok_bind]
        have hb' := hb.frame (t := { s with
            freeinodeTs := s.freeinodeTs.set i .free
            freeBlocks := s.releaseBlock i })
          (by constructor <;> simp [hne.symm, releaseBlock_root hblock])
        rw [hb'.clearDirEntry_eq (k := k) hlive.1 target.zero_notMem_tail
          (by rw [← hname]; exact hlen) hname hbefore, ok_bind]
        dsimp only
        rw [if_neg (by decide), remove, hi, Int.toNat_natCast]
        rfl
  · rw [tfsUnlink, if_pos hv, if_pos hv]
    rfl

end MBroker
