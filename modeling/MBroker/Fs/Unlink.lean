import MBroker.Fs.Paths
import MBroker.Fs.Consistency

/-!
# Unlinking

`tfs_unlink` deletes the inode first and clears the entry after it, so a
failure in between would leave an entry that refers to a free inode. The
lookup skips entries that are not live, the clearing does not, and reads
names of entries that were never used; both stop at the same entry, since
an entry before a live one has been used and was zeroed.
-/

namespace MBroker

open Tfs

variable {s t u : Tfs} {target path : CString} {i k : Nat} {r : Int}

/-- `t` is `s` with entry `k` cleared, its inode `i` free and the block of
`i` free, and with nothing else changed. -/
structure Unlinked (target : CString) (s t : Tfs) (k i : Nat) : Prop where
  found : s.findSlot target.chars.tail = some k
  lookup : tfsLookup target 0 s = .ok (i : Int)
  inumber : s.dInumber k = i
  entry_free : t.dInumber k = -1
  name_zeroed : ∀ j < maxFileName, t.fsData.get (k * sizeofDirEntry + j) = 0
  data_kept : ∀ x, x < k * sizeofDirEntry ∨ (k + 1) * sizeofDirEntry ≤ x →
    t.fsData.get x = s.fsData.get x
  inode_free : t.freeinodeTs.get i = .free
  inodes_kept : ∀ j, j ≠ i → t.freeinodeTs.get j = s.freeinodeTs.get j
  block_free : ∀ b : Nat, 0 < (s.inode i).iSize → (s.inode i).iDataBlock = b →
    t.freeBlocks.get b = .free
  blocks_kept : ∀ b : Nat, (0 < (s.inode i).iSize → (s.inode i).iDataBlock ≠ b) →
    t.freeBlocks.get b = s.freeBlocks.get b
  inodeTable_kept : t.inodeTable = s.inodeTable
  openFiles_kept : t.openFileTable = s.openFileTable ∧
    t.freeOpenFileEntries = s.freeOpenFileEntries
  gone : t.resolve target = none
  others : ∀ path, path ≠ target → t.resolve path = s.resolve path ∧ Kept path s t

/-- The name of a cleared entry is zeroed to the end of its field. -/
theorem clearEntry_name {fsData : Region UInt8} {j : Nat} (hj : j < maxFileName) :
    (clearEntry fsData k).get (k * sizeofDirEntry + j) = 0 :=
  Region.blit_get_of_mem _ _ (Nat.le_add_right _ _) (Nat.add_lt_add_left hj _)

theorem Inv.lookup_of_findSlot (hinv : Inv s) (hv : validPathname target)
    (hk : s.findSlot target.chars.tail = some k) (hi : s.dInumber k = i) :
    tfsLookup target 0 s = .ok (i : Int) := by
  have hfind : s.find target.chars.tail = some i := by
    rw [find, hk, Option.map_some, hi]
    rfl
  rw [hinv.tfsLookup_eq hv, hfind]

theorem Inv.unlinked (hinv : Inv s) (hv : validPathname target)
    (hk : s.findSlot target.chars.tail = some k) (hi : s.dInumber k = i)
    (hu : tfsUnlink target s = .ok (r, s.remove i k)) :
    Unlinked target s (s.remove i k) k i := by
  obtain ⟨hlive, -⟩ := findSlot_eq_some hk
  obtain ⟨i', hi', hne, ht⟩ := hinv.dir.live_inode k hlive
  obtain rfl : i' = i := Int.ofNat_inj.mp (hi'.symm.trans hi)
  have hblock := hinv.blocks.held i' ⟨hne, .inl ht⟩
  constructor
  case found => exact hk
  case lookup => exact hinv.lookup_of_findSlot hv hk hi
  case inumber => exact hi
  case entry_free => exact remove_dInumber_self
  case name_zeroed => exact fun j hj => clearEntry_name hj
  case data_kept => exact fun x hx => clearEntry_get_of_ne hx
  case inode_free => exact Region.set_get_self ..
  case inodes_kept => exact fun j hj => Region.set_get_ne _ _ hj
  case block_free =>
    intro b hsz hb
    obtain ⟨b', hb'⟩ := hblock hsz
    obtain rfl : b' = b := Int.ofNat_inj.mp (hb'.eq.symm.trans hb)
    show (s.releaseBlock i').get b' = .free
    rw [releaseBlock_get hb' hsz, if_pos rfl]
  case blocks_kept => exact fun b hb => releaseBlock_get_of_ne hb hblock
  case inodeTable_kept => rfl
  case openFiles_kept => exact ⟨rfl, rfl⟩
  case gone =>
    have hres := hinv.resolve_unlink hu target
    rwa [if_pos rfl] at hres
  case others =>
    intro path hp
    have hres := hinv.resolve_unlink hu path
    rw [if_neg hp] at hres
    exact ⟨hres, hinv.kept_unlink hu hp⟩

/-- After the inode has been deleted the entry is always found again. -/
theorem Inv.clearDirEntry_succeeds (hinv : Inv s) {inum : Int}
    (hlookup : tfsLookup target 0 s = .ok inum) (hinum : inum ≠ -1)
    (hdelete : inodeDelete inum s = .ok u) :
    ∃ r t, clearDirEntry 0 target.chars.tail u = .ok (r, t) ∧ r ≠ -1 := by
  have hv : validPathname target := by
    by_contra hv
    rw [tfsLookup, if_pos hv] at hlookup
    exact hinum (Except.ok.inj hlookup).symm
  have hunlink := hinv.tfsUnlink_eq target
  rw [if_neg (not_not_intro hv)] at hunlink
  cases hk : s.findSlot target.chars.tail with
  | none =>
      rw [hinv.tfsLookup_eq hv, find, hk] at hlookup
      exact absurd (Except.ok.inj hlookup).symm hinum
  | some k =>
      rw [hk, tfsUnlink, if_neg (not_not_intro hv), hinv.base.inodeGet_root, ok_bind,
        alwaysAssert_of_true hinv.base.inodeTable_null, ok_bind, hlookup, ok_bind,
        if_neg hinum, hdelete, ok_bind] at hunlink
      obtain ⟨⟨r, t⟩, hclear, hunlink⟩ := bind_eq_ok.mp hunlink
      refine ⟨r, t, hclear, ?_⟩
      -- with -1 here `tfs_unlink` would return -1, and it returns 0 for a name that is found
      intro hr
      dsimp only at hunlink
      rw [if_pos hr] at hunlink
      exact absurd (ok_pair_inj hunlink).1 (by decide)

/-- **`tfs_unlink` is exact and atomic** in every reachable state, and its
branch for an entry that cannot be cleared is never taken. -/
theorem reachable_unlink_exact (h : tfsMachine.Reachable s) (target : CString) :
    (∃ r t, tfsUnlink target s = .ok (r, t) ∧
      (r = -1 ∧ t = s ∨ r = 0 ∧ ∃ k i, Unlinked target s t k i)) ∧
    ∀ inum u, tfsLookup target 0 s = .ok inum → inum ≠ -1 → inodeDelete inum s = .ok u →
      ∃ r t, clearDirEntry 0 target.chars.tail u = .ok (r, t) ∧ r ≠ -1 := by
  have hinv := reachable_inv h
  constructor
  · obtain ⟨r, t, hu⟩ := hinv.tfsUnlink_returns target
    refine ⟨r, t, hu, ?_⟩
    rcases hinv.tfsUnlink_cases hu with ⟨-, hr, ht⟩ | ⟨k, i, hv, hk, hname, hi, -, hr, ht⟩
    · exact .inl ⟨hr, ht⟩
    · subst ht
      have hslot := hinv.dir.findSlot_of_live hk
      rw [hname] at hslot
      exact .inr ⟨hr, k, i, hinv.unlinked hv hslot hi hu⟩
  · intro inum u hlookup hinum hdelete
    exact hinv.clearDirEntry_succeeds hlookup hinum hdelete

/-- `/a` and `/b` are created, `/b` is written and `/a` is unlinked: its
entry is free, before the entry of `/b`. -/
def gapRun : List TfsCall :=
  [.open pathA tfsOCreat, .open pathB tfsOCreat, .write 1 (fun _ => 5) 60, .unlink pathA]

theorem gapRun_results : (tfsRun smallParams dirtyMallocs gapRun).map Prod.fst =
    .ok (0, [(0, []), (1, []), (60, []), (0, [])]) := by
  decide +kernel

theorem gapRun_unlink_exact :
    ∃ s t, TfsStart smallParams dirtyMallocs s ∧
      tfsCalls s gapRun = .ok ([(0, []), (1, []), (60, []), (0, [])], t) ∧
      ((∃ r u, tfsUnlink pathB t = .ok (r, u) ∧
        (r = -1 ∧ u = t ∨ r = 0 ∧ ∃ k i, Unlinked pathB t u k i)) ∧
      ∀ inum u, tfsLookup pathB 0 t = .ok inum → inum ≠ -1 → inodeDelete inum t = .ok u →
        ∃ r v, clearDirEntry 0 pathB.chars.tail u = .ok (r, v) ∧ r ≠ -1) := by
  obtain ⟨s, t, hs, hcs⟩ := tfsRun_ok gapRun_results
  exact ⟨s, t, hs, hcs,
    reachable_unlink_exact (tfsCalls_reachable (.start ⟨_, _, hs⟩) hcs) pathB⟩

end MBroker
