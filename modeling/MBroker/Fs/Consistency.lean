import MBroker.Fs.Init

/-!
# What holds of the tables in every run

The invariant read as the two agreements a user of the file system relies
on: between the root directory and the inode table, and between the files
and the data blocks. Both hold after every sequence of calls, also of
calls through handles whose file has been unlinked or truncated.
-/

namespace MBroker

open Tfs

variable {s t : Tfs}

/-! ## Directory and inode table -/

/-- The root directory and the inode table agree. The entries are those of
block 0, which is the root's own. -/
structure DirectoryAgrees (s : Tfs) : Prop where
  root_taken : s.Taken 0
  root_directory : (s.inode 0).iNodeType = .tDirectory
  root_block : (s.inode 0).iDataBlock = 0
  root_block_taken : s.BlockTaken 0
  root_block_alone : ∀ i, s.Taken i → i ≠ 0 → (s.inode i).iDataBlock ≠ 0
  live_file : ∀ k, s.Live k →
    ∃ i : Nat, s.dInumber k = i ∧ i ≠ 0 ∧ s.Taken i ∧ (s.inode i).iNodeType = .tFile
  referred_once : ∀ i, s.Taken i → i ≠ 0 → ∃! k, s.Live k ∧ s.dInumber k = i
  name_length : ∀ k, s.Live k → 1 ≤ (s.dName k).length ∧ (s.dName k).length ≤ 39
  name_terminated : ∀ k, s.Live k →
    s.fsData.get (k * sizeofDirEntry + (s.dName k).length) = 0
  name_distinct : ∀ k k', s.Live k → s.Live k' → k ≠ k' → s.dName k ≠ s.dName k'

theorem Inv.directoryAgrees (hinv : Inv s) : DirectoryAgrees s where
  root_taken := hinv.base.root_taken
  root_directory := by rw [hinv.base.root_inode]
  root_block := by rw [hinv.base.root_inode]
  root_block_taken := hinv.base.root_block
  root_block_alone := fun i ht hne => hinv.blocks.not_root i ⟨hne, .inl ht⟩
  live_file := by
    intro k hk
    obtain ⟨i, hi, hne, ht⟩ := hinv.dir.live_inode k hk
    exact ⟨i, hi, hne, ht, hinv.dir.file_type i ht hne⟩
  referred_once := by
    intro i ht hne
    obtain ⟨k, hk, hi⟩ := hinv.dir.taken_live i ht hne
    refine ⟨k, ⟨hk, hi⟩, ?_⟩
    rintro k' ⟨hk', hi'⟩
    exact hinv.dir.inumber_inj k' k hk' hk (by rw [hi, hi'])
  name_length := by
    intro k hk
    obtain ⟨hne, hlen⟩ := hinv.dir.live_name k hk
    have hpos := List.length_pos_iff.mpr hne
    simp only [maxFileName] at hlen
    omega
  name_terminated := fun k hk => strAt_terminated (hinv.dir.live_name k hk).2
  name_distinct := fun k k' hk hk' hne heq => hne (hinv.dir.name_inj k k' hk hk' heq)

/-- **Directory and inode table agree** in every reachable state. -/
theorem reachable_directoryAgrees (h : tfsMachine.Reachable s) : DirectoryAgrees s :=
  (reachable_inv h).directoryAgrees

/-- Three inodes, three blocks of 100 bytes, two handles. -/
def smallParams : TfsParams := ⟨3, 3, 2, 100⟩

/-- Every `malloc` succeeds and finds the memory full of 0xff. -/
def dirtyMallocs : Mallocs where
  inodeTable := some fun _ => ⟨.tDirectory, 7, 7⟩
  freeinodeTs := some fun _ => .taken
  fsData := some fun _ => 255
  freeBlocks := some fun _ => .taken
  openFileTable := some fun _ => ⟨7, 7⟩
  freeOpenFileEntries := some fun _ => .taken

def pathA : CString := ⟨[47, 97], by decide⟩

def pathB : CString := ⟨[47, 98], by decide⟩

/-- `/a` is created, written and unlinked while its handle stays open; `/b`
then gets the inode, and the old handle writes to it. -/
def staleRun : List TfsCall :=
  [.open pathA tfsOCreat, .write 0 (fun _ => 1) 60, .unlink pathA,
    .open pathB tfsOCreat, .write 0 (fun _ => 2) 60]

theorem staleRun_results : (tfsRun smallParams dirtyMallocs staleRun).map Prod.fst =
    .ok (0, [(0, []), (60, []), (0, []), (1, []), (40, [])]) := by
  decide +kernel

theorem staleRun_directoryAgrees :
    ∃ s t, TfsStart smallParams dirtyMallocs s ∧
      tfsCalls s staleRun = .ok ([(0, []), (60, []), (0, []), (1, []), (40, [])], t) ∧
      DirectoryAgrees t := by
  obtain ⟨s, t, hs, hcs⟩ := tfsRun_ok staleRun_results
  exact ⟨s, t, hs, hcs, reachable_directoryAgrees (tfsCalls_reachable (.start ⟨_, _, hs⟩) hcs)⟩

/-! ## Files and blocks -/

/-- The files with contents, the root included, have a block each. -/
structure BlocksDisjoint (s : Tfs) : Prop where
  size_le : ∀ i, s.Taken i → 0 < (s.inode i).iSize → (s.inode i).iSize ≤ s.blockSize
  block_taken : ∀ i, s.Taken i → 0 < (s.inode i).iSize →
    ∃ b : Nat, (s.inode i).iDataBlock = b ∧ s.BlockTaken b
  disjoint : ∀ i j, s.Taken i → s.Taken j → i ≠ j → 0 < (s.inode i).iSize →
    0 < (s.inode j).iSize → (s.inode i).iDataBlock ≠ (s.inode j).iDataBlock

theorem Inv.blocksDisjoint (hinv : Inv s) : BlocksDisjoint s where
  size_le := by
    intro i ht hsz
    by_cases hi : i = 0
    · rw [hi, hinv.base.root_inode]
    · obtain ⟨b, hb⟩ := hinv.blocks.held i ⟨hi, .inl ht⟩ hsz
      exact hb.size_le
  block_taken := by
    intro i ht hsz
    by_cases hi : i = 0
    · exact ⟨0, by rw [hi, hinv.base.root_inode]; rfl, hinv.base.root_block⟩
    · obtain ⟨b, hb⟩ := hinv.blocks.held i ⟨hi, .inl ht⟩ hsz
      exact ⟨b, hb.eq, hinv.blocks.owner_taken i b ht hi hsz hb.eq⟩
  disjoint := by
    have hroot : ∀ i, s.Taken i → i ≠ 0 → (s.inode i).iDataBlock ≠ (s.inode 0).iDataBlock := by
      intro i ht hi
      rw [hinv.base.root_inode]
      exact hinv.blocks.not_root i ⟨hi, .inl ht⟩
    intro i j hti htj hij hsi hsj heq
    by_cases hi : i = 0
    · exact hroot j htj (by omega) (by rw [← heq, hi])
    · by_cases hj : j = 0
      · exact hroot i hti hi (by rw [heq, hj])
      · exact hij (hinv.blocks.owner_inj i j hti htj hi hj hsi hsj heq)

/-- **Live files never share a block** in any reachable state. -/
theorem reachable_blocksDisjoint (h : tfsMachine.Reachable s) : BlocksDisjoint s :=
  (reachable_inv h).blocksDisjoint

theorem staleRun_blocksDisjoint :
    ∃ s t, TfsStart smallParams dirtyMallocs s ∧
      tfsCalls s staleRun = .ok ([(0, []), (60, []), (0, []), (1, []), (40, [])], t) ∧
      BlocksDisjoint t := by
  obtain ⟨s, t, hs, hcs⟩ := tfsRun_ok staleRun_results
  exact ⟨s, t, hs, hcs, reachable_blocksDisjoint (tfsCalls_reachable (.start ⟨_, _, hs⟩) hcs)⟩

end MBroker
