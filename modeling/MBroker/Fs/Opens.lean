import MBroker.Fs.Paths
import MBroker.Fs.Consistency

/-!
# What a failed open leaves behind

`tfs_open` truncates an existing file before it looks for a free entry of
the open file table, and that step can still fail: with a full table the
file is empty and its block free although the open has failed. Every other
failure comes before the first change, or gives back the inode that it had
allocated. A new file stays when the table is full, as the source says.
-/

namespace MBroker

open Tfs

variable {s t : Tfs} {m : CString} {mode i j k b h : Nat} {r : Int}

/-- The files of `s`, its handles and its blocks are in `t` as they were. -/
structure FilesIntact (s t : Tfs) : Prop where
  files : ∀ path, Kept path s t
  opens : ∀ h, t.Open h ↔ s.Open h
  handles : ∀ h, s.Open h → t.file h = s.file h
  blocks : ∀ b, t.BlockTaken b ↔ s.BlockTaken b

/-- The inodes taken and the directory are the same too. -/
structure NothingLost (s t : Tfs) : Prop extends FilesIntact s t where
  inodes : ∀ i, t.Taken i ↔ s.Taken i
  entries : ∀ k, t.dInumber k = s.dInumber k ∧ t.dName k = s.dName k

/-- The open file table is full and `m` is a new, empty file: one more inode
is taken and one more directory entry used. -/
structure NewFileStays (s t : Tfs) (m : CString) (i k : Nat) : Prop extends FilesIntact s t where
  full : s.firstFreeHandle = none
  absent : s.resolve m = none
  resolved : t.resolve m = some i
  empty : (t.inode i).iSize = 0
  fresh : ¬ s.Taken i
  inodes : ∀ j, t.Taken j ↔ j = i ∨ s.Taken j
  unused : ¬ s.Live k
  entries : ∀ k', k' ≠ k → t.dInumber k' = s.dInumber k' ∧ t.dName k' = s.dName k'

/-- A failed `tfs_open` loses nothing; a file that it has created may stay. -/
def OpenLosesNothing (s : Tfs) (m : CString) (mode : Nat) : Prop :=
  ∀ t, tfsOpen m mode s = .ok (-1, t) →
    NothingLost s t ∨ mode &&& tfsOCreat ≠ 0 ∧ ∃ i k, NewFileStays s t m i k

/-- The open file table has a free entry, or there is nothing to truncate. -/
def OpenMeets (s : Tfs) (m : CString) (mode : Nat) : Prop :=
  s.firstFreeHandle.isSome ∨ mode &&& tfsOTrunc = 0 ∨
    ∀ i, s.resolve m = some i → (s.inode i).iSize = 0

/-! ## The failures -/

theorem NothingLost.refl (s : Tfs) : NothingLost s s where
  files := fun path => Kept.refl path s
  opens := fun _ => Iff.rfl
  handles := fun _ _ => rfl
  blocks := fun _ => Iff.rfl
  inodes := fun _ => Iff.rfl
  entries := fun _ => ⟨rfl, rfl⟩

theorem OpenResult.opens (ho : OpenResult s m mode (-1) t) (h : Nat) : t.Open h ↔ s.Open h := by
  rcases ho.handles with ⟨-, hopens⟩ | ⟨h', hr, -⟩
  · exact hopens h
  · omega

/-- An inode that was given back is as free as before. -/
theorem OpenResult.nothingLost_noEntry (ho : OpenResult s m mode (-1) (s.resetInode i))
    (hinv : Inv s) (hnew : s.find m.chars.tail = none) : NothingLost s (s.resetInode i) where
  files := by
    intro path j hj
    by_cases hp : path = m
    · subst hp
      rw [(resolve_eq_some.mp hj).2] at hnew
      cases hnew
    · exact ho.kept hinv (.inl hp) j hj
  opens := ho.opens
  handles := fun _ => ho.file_of_open
  blocks := fun _ => Iff.rfl
  inodes := fun _ => Iff.rfl
  entries := fun _ => ⟨rfl, rfl⟩

theorem OpenResult.newFileStays (ho : OpenResult s m mode (-1) (s.create i k m.chars.tail))
    (hinv : Inv s) (hv : validPathname m) (hf : s.find m.chars.tail = none)
    (hi : s.firstFreeInode = some i) (hint : i < 2147483648) (hlt : i < s.inodeTable.size)
    (hk : s.slotFor m.chars.tail = some k) (hh : s.firstFreeHandle = none) :
    NewFileStays s (s.create i k m.chars.tail) m i k where
  files := fun path => hinv.kept_create hi hint hlt hk hv hf
  opens := ho.opens
  handles := fun _ => ho.file_of_open
  blocks := fun _ => Iff.rfl
  full := hh
  absent := by
    unfold resolve
    rw [if_pos hv]
    exact hf
  resolved := by
    rw [hinv.resolve_create hi hint hlt hk hv hf, if_pos rfl]
  empty := by rw [create_inode_self]
  fresh := fun ht => firstFree_ne_taken hi ht rfl
  inodes := fun j => create_taken (firstFreeInode_free hi).1
  unused := by
    obtain ⟨-, -, hfree, -⟩ := slotFor_eq_some hk
    exact hfree
  entries := fun _ hk' => ⟨create_dInumber_ne hk', create_dName_ne hk'⟩

/-- With a full table an open with `TFS_O_TRUNC` truncates and fails. -/
theorem OpenResult.truncates (ho : OpenResult s m mode r t)
    (htrunc : mode &&& tfsOTrunc ≠ 0) (hi : s.resolve m = some i)
    (hh : s.firstFreeHandle = none) : r = -1 ∧ t = s.truncate i := by
  obtain ⟨hv, hf⟩ := resolve_eq_some.mp hi
  cases ho with
  | invalid hinvalid => exact absurd hv hinvalid
  | existing _ _ hfree =>
      rw [hh] at hfree
      cases hfree
  | existingFull _ hf' =>
      rw [hf] at hf'
      cases hf'
      exact ⟨rfl, if_pos htrunc⟩
  | absent _ hf' | noInode _ hf' =>
      rw [hf] at hf'
      cases hf'
  | noEntry _ hf' | created _ hf' | createdFull _ hf' =>
      rw [hf] at hf'
      cases hf'

/-- With a full table the open of an existing file returns. -/
theorem Inv.tfsOpen_full (hinv : Inv s) (hi : s.resolve m = some i)
    (hh : s.firstFreeHandle = none) (mode : Nat) :
    tfsOpen m mode s = .ok (-1, s.truncated i mode) := by
  obtain ⟨hv, hf⟩ := resolve_eq_some.mp hi
  have hfull : (s.truncated i mode).firstFreeHandle = none := by
    rcases s.truncated_cases i mode with heq | heq
    · rw [heq]
      exact hh
    · rw [heq]
      exact hh
  rw [hinv.tfsOpen_eq, if_neg (not_not_intro hv), hf]
  dsimp only
  rw [(hinv.base.frame (hinv.frame_truncated hf mode)).addToOpenFileTable_eq, hfull]

/-! ## The condition -/

theorem OpenMeets.losesNothing (hm : OpenMeets s m mode) (hinv : Inv s)
    (ho : OpenResult s m mode (-1) t) :
    NothingLost s t ∨ mode &&& tfsOCreat ≠ 0 ∧ ∃ i k, NewFileStays s t m i k := by
  generalize hr : (-1 : Int) = r at ho
  cases ho with
  | invalid | absent | noInode => exact .inl (NothingLost.refl s)
  | noEntry hv hf hc hi hk =>
      have ho : OpenResult s m mode (-1) _ := .noEntry hv hf hc hi hk
      exact .inl (ho.nothingLost_noEntry hinv hf)
  | @existingFull i hv hf hh =>
      -- the table is full, so the condition says that nothing is truncated
      have hsame : s.truncated i mode = s := by
        rcases hm with hfree | hmode | hempty
        · rw [hh] at hfree
          cases hfree
        · exact if_neg (not_not_intro hmode)
        · have hz := hempty i (resolve_eq_some.mpr ⟨hv, hf⟩)
          rcases s.truncated_cases i mode with heq | heq
          · exact heq
          · rw [heq, truncate_of_empty hz]
      rw [hsame]
      exact .inl (NothingLost.refl s)
  | createdFull hv hf hc hi hint hlt hk hh =>
      have ho : OpenResult s m mode (-1) _ := .createdFull hv hf hc hi hint hlt hk hh
      exact .inr ⟨hc, _, _, ho.newFileStays hinv hv hf hi hint hlt hk hh⟩
  | existing => omega
  | created => omega

theorem Inv.openLosesNothing_iff (hinv : Inv s) (m : CString) (mode : Nat) :
    OpenLosesNothing s m mode ↔ OpenMeets s m mode := by
  constructor
  · intro hloses
    by_contra hc
    obtain ⟨hfull, hc⟩ := not_or.mp hc
    obtain ⟨hmode, hsize⟩ := not_or.mp hc
    obtain ⟨i, hi⟩ := not_forall.mp hsize
    obtain ⟨hres, hne⟩ := Classical.not_imp.mp hi
    have hh : s.firstFreeHandle = none := by simpa using hfull
    -- the open fails and the file is empty
    have hopen := hinv.tfsOpen_full hres hh mode
    have hzero : ((s.truncated i mode).inode i).iSize = 0 := by
      rw [truncated, if_pos hmode]
      exact congrArg Inode.iSize (Region.set_get_self ..)
    have hfiles : Kept m s (s.truncated i mode) := by
      rcases hloses _ hopen with hkept | ⟨-, _, _, hkept⟩
      · exact hkept.files m
      · exact hkept.files m
    rw [(hfiles i hres).2.1] at hzero
    exact hne hzero
  · intro hm t ht
    exact hm.losesNothing hinv (hinv.tfsOpen_ok ht)

/-- **A failed `tfs_open` loses nothing** exactly when the table of open files
has a free entry or there is nothing to truncate. -/
theorem reachable_openLosesNothing_iff (hr : tfsMachine.Reachable s) (m : CString) (mode : Nat) :
    OpenLosesNothing s m mode ↔ OpenMeets s m mode :=
  (reachable_inv hr).openLosesNothing_iff m mode

/-- `/a` and `/b` are open and the table of open files is full. -/
def fullTableRun : List TfsCall :=
  [.open pathA tfsOCreat, .write 0 (fun _ => 1) 60, .open pathB tfsOCreat]

theorem fullTableRun_result :
    (tfsRunBy (fun _ _ => True) smallParams dirtyMallocs fullTableRun).map (fun s =>
      (decide (s.firstFreeHandle = none ∧ s.resolve pathA = some 1 ∧ (s.inode 1).iSize = 60),
        (tfsOpen pathA 0 s).map Prod.fst, (tfsOpen pathA tfsOTrunc s).map Prod.fst)) =
    some (true, .ok (-1), .ok (-1)) := by
  decide +kernel

/-- An open of `/a` without `TFS_O_TRUNC` fails and loses nothing. -/
theorem fullTableRun_openLosesNothing :
    ∃ s, tfsMachine.Reachable s ∧ (tfsOpen pathA 0 s).map Prod.fst = .ok (-1) ∧
      OpenLosesNothing s pathA 0 := by
  obtain ⟨s, hrun, hobs⟩ := Option.map_eq_some_iff.mp fullTableRun_result
  obtain ⟨-, hobs⟩ := Prod.mk.inj hobs
  have hreach := tfsRunBy_reachable hrun
  exact ⟨s, hreach, (Prod.mk.inj hobs).1,
    (reachable_openLosesNothing_iff hreach pathA 0).mpr (.inr (.inl rfl))⟩

/-- With `TFS_O_TRUNC` it fails too, and the sixty bytes are gone. -/
theorem fullTableRun_not_openLosesNothing :
    ∃ s, tfsMachine.Reachable s ∧ s.resolve pathA = some 1 ∧ (s.inode 1).iSize = 60 ∧
      (tfsOpen pathA tfsOTrunc s).map Prod.fst = .ok (-1) ∧
      ¬ OpenLosesNothing s pathA tfsOTrunc := by
  obtain ⟨s, hrun, hobs⟩ := Option.map_eq_some_iff.mp fullTableRun_result
  obtain ⟨hstate, hobs⟩ := Prod.mk.inj hobs
  obtain ⟨hfull, hres, hsize⟩ := of_decide_eq_true hstate
  have hreach := tfsRunBy_reachable hrun
  have hinv := reachable_inv hreach
  refine ⟨s, hreach, hres, hsize, (Prod.mk.inj hobs).2, ?_⟩
  intro hloses
  rcases (hinv.openLosesNothing_iff pathA tfsOTrunc).mp hloses with hfree | hmode | hempty
  · rw [hfull] at hfree
    cases hfree
  · cases hmode
  · rw [hempty 1 hres] at hsize
    cases hsize

end MBroker
