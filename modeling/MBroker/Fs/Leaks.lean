import MBroker.Fs.Consistency
import MBroker.Fs.Paths

/-!
# Data blocks and their owners

The first write to an empty file takes a block; truncation and unlinking
give it back. Nothing else does, so a block is lost when its inode is not
a file's. That happens in one way: `tfs_write` through a handle whose file
was empty when it was unlinked takes a block for a free inode, which is
reset when the next file gets it.
-/

namespace MBroker

open Tfs

variable {s t : Tfs} {h i k b off n : Nat} {name : List UInt8} {buffer : Nat → UInt8}

/-- Every TAKEN block but the root's belongs to a file. -/
def NoLeak (s : Tfs) : Prop :=
  ∀ b, s.BlockTaken b → b ≠ 0 →
    ∃ i, s.Taken i ∧ i ≠ 0 ∧ 0 < (s.inode i).iSize ∧ (s.inode i).iDataBlock = b

/-! ## One update -/

/-- No block is lost when none is taken and those that stay taken keep
their owners. -/
theorem NoLeak.mono (hn : NoLeak s) (hblock : ∀ b, t.BlockTaken b → s.BlockTaken b)
    (howner : ∀ i b, s.Taken i → i ≠ 0 → 0 < (s.inode i).iSize →
      (s.inode i).iDataBlock = (b : Nat) → t.BlockTaken b →
      t.Taken i ∧ t.inode i = s.inode i) : NoLeak t := by
  intro b hb hb0
  obtain ⟨i, ht, hi0, hsz, hib⟩ := hn b (hblock b hb) hb0
  obtain ⟨ht', heq⟩ := howner i b ht hi0 hsz hib hb
  exact ⟨i, ht', hi0, by rw [heq]; exact hsz, by rw [heq]; exact hib⟩

theorem NoLeak.resetInode (hn : NoLeak s) (hi : s.firstFreeInode = some i) :
    NoLeak (s.resetInode i) := by
  refine hn.mono (fun _ hb => hb) ?_
  intro j b hj _ _ _ _
  exact ⟨hj, Region.set_get_ne _ _ (firstFree_ne_taken hi hj)⟩

theorem NoLeak.create (hn : NoLeak s) (hi : s.firstFreeInode = some i) :
    NoLeak (s.create i k name) := by
  refine hn.mono (fun _ hb => hb) ?_
  intro j b hj _ _ _ _
  exact ⟨(create_taken (firstFreeInode_free hi).1).mpr (.inr hj),
    create_inode_ne (firstFree_ne_taken hi hj)⟩

/-- A file that gives up its block is not the owner of one that stays taken. -/
theorem ne_of_releaseBlock {j : Nat} (hblock : 0 < (s.inode i).iSize → ∃ b, s.HasBlock i b)
    (hsz : 0 < (s.inode j).iSize) (hb : (s.inode j).iDataBlock = (b : Nat))
    (ht : (s.releaseBlock i).get b = .taken) : j ≠ i := by
  intro heq
  subst heq
  obtain ⟨c, hc⟩ := hblock hsz
  obtain rfl : b = c := Int.ofNat_inj.mp (hb.symm.trans hc.eq)
  rw [releaseBlock_get hc hsz, if_pos rfl] at ht
  cases ht

theorem NoLeak.truncate (hn : NoLeak s)
    (hblock : 0 < (s.inode i).iSize → ∃ b, s.HasBlock i b) : NoLeak (s.truncate i) := by
  refine hn.mono (fun b hb => ⟨hb.1, releaseBlock_taken hb.2⟩) ?_
  intro j b hj _ hsz hjb hb
  exact ⟨hj, Region.set_get_ne _ _ (ne_of_releaseBlock hblock hsz hjb hb.2)⟩

theorem NoLeak.remove (hn : NoLeak s)
    (hblock : 0 < (s.inode i).iSize → ∃ b, s.HasBlock i b) : NoLeak (s.remove i k) := by
  refine hn.mono (fun b hb => ⟨hb.1, releaseBlock_taken hb.2⟩) ?_
  intro j b hj _ hsz hjb hb
  exact ⟨remove_taken.mpr ⟨ne_of_releaseBlock hblock hsz hjb hb.2, hj⟩, rfl⟩

/-- A write to a file loses no block. -/
theorem NoLeak.writeAt (hn : NoLeak s) (hinv : Inv s) (hw : s.Writes h i b off n)
    (hi : (s.inode i).iSize = 0 → s.Taken i) : NoLeak (s.writeAt h i b off n buffer) := by
  intro b' hb' hb0
  have hpos := hw.pos
  have hself : s.Taken i → ∃ j, (s.writeAt h i b off n buffer).Taken j ∧ j ≠ 0 ∧
      0 < ((s.writeAt h i b off n buffer).inode j).iSize ∧
      ((s.writeAt h i b off n buffer).inode j).iDataBlock = (b : Int) := by
    intro ht
    refine ⟨i, ht, hw.ne_root, ?_, ?_⟩
    · rw [writeAt_inode_self]
      exact Nat.lt_of_lt_of_le (by omega) (Nat.le_max_right ..)
    · rw [writeAt_inode_self]
  have hold : s.freeBlocks.get b' = .taken → ∃ j, (s.writeAt h i b off n buffer).Taken j ∧
      j ≠ 0 ∧ 0 < ((s.writeAt h i b off n buffer).inode j).iSize ∧
      ((s.writeAt h i b off n buffer).inode j).iDataBlock = (b' : Int) := by
    intro htk
    obtain ⟨j, hj, hj0, hsz, hjb⟩ := hn b' ⟨hb'.1, htk⟩ hb0
    by_cases hji : j = i
    · rw [hji] at hj hsz hjb
      rcases hinv.block_of_write hw with ⟨hz, -⟩ | ⟨-, hib⟩
      · omega
      · obtain rfl : b = b' := Int.ofNat_inj.mp (hib.symm.trans hjb)
        exact hself hj
    · exact ⟨j, hj, hj0, by rw [writeAt_inode_ne hji]; exact hsz,
        by rw [writeAt_inode_ne hji]; exact hjb⟩
  by_cases hz : (s.inode i).iSize = 0
  · rcases acquireBlock_taken hb'.2 with rfl | htk
    · exact hself (hi hz)
    · exact hold htk
  · have htaken : (s.acquireBlock i b).get b' = .taken := hb'.2
    rw [acquireBlock, if_neg hz] at htaken
    exact hold htaken

/-- A first write through a handle whose inode is free loses the block it takes. -/
theorem not_noLeak_writeAt (hinv : Inv s) (hw : s.Writes h i b off n)
    (hz : (s.inode i).iSize = 0) (hi : ¬ s.Taken i) :
    ¬ NoLeak (s.writeAt h i b off n buffer) := by
  intro hn
  have htaken : (s.writeAt h i b off n buffer).BlockTaken b := by
    refine ⟨hw.valid, ?_⟩
    show (s.acquireBlock i b).get b = .taken
    rw [acquireBlock, if_pos hz, Region.set_get_self]
  obtain ⟨j, hj, hj0, hsz, hjb⟩ := hn b htaken hw.block_ne
  have hj : s.Taken j := hj
  have hji : j ≠ i := by
    intro heq
    rw [heq] at hj
    exact hi hj
  rw [writeAt_inode_ne hji] at hsz hjb
  have hown := (hinv.blocks.owner_taken j b hj hj0 hsz hjb).2
  rcases hinv.block_of_write hw with ⟨-, hfree⟩ | ⟨hpos, -⟩
  · rw [hown] at hfree
    cases hfree
  · omega

/-! ## One call -/

theorem NoLeak.truncated (hn : NoLeak s) (hinv : Inv s) (hf : s.find name = some i)
    (mode : Nat) : NoLeak (s.truncated i mode) := by
  rcases s.truncated_cases i mode with heq | heq
  · rw [heq]
    exact hn
  · rw [heq]
    exact hn.truncate (hinv.of_find hf).2.2.2

theorem NoLeak.open {m : CString} {mode : Nat} {r : Int} (hn : NoLeak s) (hinv : Inv s)
    (ho : OpenResult s m mode r t) : NoLeak t := by
  cases ho with
  | invalid | absent | noInode => exact hn
  | existing _ hf => exact hn.truncated hinv hf mode
  | existingFull _ hf => exact hn.truncated hinv hf mode
  | noEntry _ _ _ hi => exact hn.resetInode hi
  | @created i k _ _ _ _ hi =>
      have hcreate : NoLeak (s.create i k m.chars.tail) := hn.create hi
      exact hcreate
  | createdFull _ _ _ hi => exact hn.create hi

/-- The condition on a call, in the state before it: a write that takes a
block goes to a file that exists. -/
def BlockMeets (s : Tfs) : TfsCall → Prop
  | .write fhandle _ toWrite => 0 ≤ fhandle ∧ s.Open fhandle.toNat →
      clampWrite toWrite (s.file fhandle.toNat).ofOffset s.blockSize ≠ 0 →
      (s.inode (s.file fhandle.toNat).ofInumber.toNat).iSize = 0 → s.firstFreeBlock.isSome →
      s.Taken (s.file fhandle.toNat).ofInumber.toNat
  | _ => True

/-- **Exactly the calls that meet the condition lose no block.** -/
theorem Inv.noLeak_call_iff {c : TfsCall} {res : TfsResult} (hinv : Inv s) (hn : NoLeak s)
    (hc : tfsCall s c = .ok (res, t)) : NoLeak t ↔ BlockMeets s c := by
  cases c with
  | «open» m mode =>
      obtain ⟨ho, -⟩ := tfsCall_open.mp hc
      exact iff_of_true (hn.open hinv (hinv.tfsOpen_ok ho)) trivial
  | close fhandle =>
      obtain ⟨ho, -⟩ := tfsCall_close.mp hc
      refine iff_of_true ?_ trivial
      rcases hinv.tfsClose_cases ho with ⟨_, _, _, _, rfl⟩ | ⟨_, _, rfl⟩
      · exact hn
      · exact hn
  | write fhandle buffer toWrite =>
      obtain ⟨ho, -⟩ := tfsCall_write.mp hc
      constructor
      -- a block taken for a free inode has no owner from then on
      · intro hleak ⟨hpos, hopen⟩ hclamp hz hfree
        obtain ⟨h, rfl⟩ := Int.eq_ofNat_of_zero_le hpos
        rw [Int.toNat_natCast] at *
        obtain ⟨i, off, hf, -⟩ := hinv.bounds.file_eq hopen
        rw [hf] at hclamp hz ⊢
        obtain ⟨b, hb⟩ := Option.isSome_iff_exists.mp hfree
        have hbf : s.blockFor i = some b := (if_pos hz).trans hb
        obtain ⟨hw, rfl⟩ := hinv.tfsWrite_writes hopen hf hclamp hbf ho
        by_contra hnt
        exact not_noLeak_writeAt hinv hw hz hnt hleak
      · intro hm
        rcases hinv.tfsWrite_cases ho with rfl | ⟨h, i, b, off, rfl, hw, rfl⟩
        · exact hn
        · refine hn.writeAt hinv hw ?_
          intro hz
          have hclamp := hw.pos
          have hb : s.firstFreeBlock = some b := (if_pos hz).symm.trans hw.block
          have hm := hm ⟨Int.natCast_nonneg h, hw.opened⟩
          rw [Int.toNat_natCast, hw.file_eq] at hm
          exact hm (by dsimp only; omega) hz (by rw [hb]; rfl)
  | read fhandle len =>
      refine iff_of_true ?_ trivial
      rcases hinv.tfsRead_cases hc with rfl | ⟨h, off, rfl, _, _, rfl⟩
      · exact hn
      · exact hn
  | unlink target =>
      obtain ⟨ho, -⟩ := tfsCall_unlink.mp hc
      refine iff_of_true ?_ trivial
      rcases hinv.tfsUnlink_cases ho with ⟨-, -, rfl⟩ | ⟨k, i, -, hk, -, hi, -, -, rfl⟩
      · exact hn
      · obtain ⟨j, hj, hj0, ht⟩ := hinv.dir.live_inode k hk
        obtain rfl : j = i := Int.ofNat_inj.mp (hj.symm.trans hi)
        exact hn.remove (hinv.blocks.held j ⟨hj0, .inl ht⟩)

/-! ## Runs -/

/-- Every TAKEN block is the block of a TAKEN inode with contents. -/
def BlocksOwned (s : Tfs) : Prop :=
  ∀ b, s.BlockTaken b → ∃ i, s.Taken i ∧ 0 < (s.inode i).iSize ∧ (s.inode i).iDataBlock = b

theorem Inv.blocksOwned (hinv : Inv s) (hn : NoLeak s) : BlocksOwned s := by
  intro b hb
  by_cases hb0 : b = 0
  · subst hb0
    refine ⟨0, hinv.base.root_taken, ?_, ?_⟩
    · rw [hinv.base.root_inode]
      exact hinv.base.blockSize_pos
    · rw [hinv.base.root_inode]
      rfl
  · obtain ⟨i, ht, -, hsz, hib⟩ := hn b hb hb0
    exact ⟨i, ht, hsz, hib⟩

theorem reachable_noLeak (h : tfsMachine.ReachableBy BlockMeets s) : NoLeak s := by
  refine h.invariant' ?_ ?_
  · intro s hs b hb hb0
    obtain ⟨params, m, hstart⟩ := hs
    exact absurd (hstart.emptyRoot.1.only_block b hb) hb0
  · intro s c t hr hn hm hstep
    obtain ⟨res, hc⟩ := tfsMachine_step_eq_some.mp hstep
    exact ((reachable_inv hr.reachable).noLeak_call_iff hn hc).mpr hm

/-- **No data block is lost** in the runs whose first writes go to files
that exist; when every file has been unlinked only the root's block is
TAKEN. -/
theorem reachable_blocksOwned (h : tfsMachine.ReachableBy BlockMeets s) :
    BlocksOwned s ∧ ((∀ name, s.find name = none) → ∀ b, s.BlockTaken b → b = 0) := by
  have hinv := reachable_inv h.reachable
  have hn := reachable_noLeak h
  refine ⟨hinv.blocksOwned hn, ?_⟩
  intro hempty b hb
  by_contra hb0
  -- the owner of the block is TAKEN, so an entry still names it
  obtain ⟨i, ht, hi0, -⟩ := hn b hb hb0
  obtain ⟨name, hname⟩ := hinv.dir.find_of_taken ht hi0
  rw [hempty name] at hname
  cases hname

instance (s : Tfs) : DecidablePred (BlockMeets s)
  | .write fhandle _ toWrite => inferInstanceAs (Decidable (0 ≤ fhandle ∧ s.Open fhandle.toNat →
      clampWrite toWrite (s.file fhandle.toNat).ofOffset s.blockSize ≠ 0 →
      (s.inode (s.file fhandle.toNat).ofInumber.toNat).iSize = 0 → s.firstFreeBlock.isSome →
      s.Taken (s.file fhandle.toNat).ofInumber.toNat))
  | .open _ _ | .close _ | .read _ _ | .unlink _ => .isTrue trivial

/-- `/a` is written, unlinked and written again through its handle: the
inode is free, but still has its size. -/
def freedRun : List TfsCall :=
  [.open pathA tfsOCreat, .write 0 (fun _ => 1) 60, .unlink pathA, .write 0 (fun _ => 2) 40]

theorem freedRun_result :
    (tfsRunBy BlockMeets smallParams dirtyMallocs freedRun).map (fun s => s.file 0) =
    some ⟨1, 100⟩ := by
  decide +kernel

theorem freedRun_blocksOwned :
    ∃ s, tfsRunBy BlockMeets smallParams dirtyMallocs freedRun = some s ∧ s.file 0 = ⟨1, 100⟩ ∧
      BlocksOwned s ∧ ((∀ name, s.find name = none) → ∀ b, s.BlockTaken b → b = 0) := by
  obtain ⟨s, hrun, hfile⟩ := Option.map_eq_some_iff.mp freedRun_result
  exact ⟨s, hrun, hfile, reachable_blocksOwned (tfsRunBy_reachable hrun)⟩

/-- `/a` is unlinked while it is empty, and written through its handle. -/
def lostRun : List TfsCall :=
  [.open pathA tfsOCreat, .unlink pathA, .write 0 (fun _ => 1) 10]

theorem lostRun_result :
    (tfsRunBy (fun _ _ => True) smallParams dirtyMallocs lostRun).map (fun s =>
      decide (s.BlockTaken 1 ∧ s.inodeTableSize = 3 ∧
        ∀ i ∈ List.range 3, s.Taken i → (s.inode i).iDataBlock ≠ 1)) = some true := by
  decide +kernel

theorem lostRun_not_blocksOwned :
    ∃ s, tfsMachine.Reachable s ∧ s.BlockTaken 1 ∧ ¬ BlocksOwned s := by
  obtain ⟨s, hrun, hobs⟩ := Option.map_eq_some_iff.mp lostRun_result
  obtain ⟨htaken, hsize, hnone⟩ := of_decide_eq_true hobs
  refine ⟨s, tfsRunBy_reachable hrun, htaken, ?_⟩
  intro howned
  obtain ⟨i, ht, -, hib⟩ := howned 1 htaken
  exact hnone i (List.mem_range.mpr (by rw [← hsize]; exact ht.1)) ht hib

end MBroker
