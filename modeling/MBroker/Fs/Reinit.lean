import MBroker.Fs.Init
import MBroker.Fs.Consistency

/-!
# A `tfs_init` that fails

`state_init` stores the parameters before it looks whether the file system
is already initialized, and leaves the tables it got when an allocation or
the root directory fails. A failed `tfs_init` has changed nothing only if
it was given the parameters in use.

`FsCall` adds `tfs_init` and `tfs_destroy` to the calls of `TfsCall`.
-/

namespace MBroker

open Tfs

variable {s t u : Tfs} {params : TfsParams} {paramsPtr : Option TfsParams} {m : Mallocs}
  {r b inumber : Int} {i : Nat}

/-! ## All the calls -/

/-- Destroy FS state: the tables are freed and the pointers `NULL` again. -/
def stateDestroy (s : Tfs) : Int × Tfs :=
  (0, { tfsUninit with fsParams := s.fsParams })

def tfsDestroy (s : Tfs) : Int × Tfs :=
  let (r, s) := stateDestroy s
  if r ≠ 0 then (-1, s) else (0, s)

/-- A call of the interface, `tfs_init` and `tfs_destroy` included. -/
inductive FsCall where
  | call (c : TfsCall)
  | init (paramsPtr : Option TfsParams) (m : Mallocs)
  | destroy

def fsCall (s : Tfs) : FsCall → Except Fault (TfsResult × Tfs)
  | .call c => tfsCall s c
  | .init paramsPtr m => do
    let (r, s) ← tfsInit paramsPtr m s
    return ((r, []), s)
  | .destroy => .ok (((tfsDestroy s).1, []), (tfsDestroy s).2)

/-- The calls of a list one after the other: their results and the state
after the last. -/
def fsCalls (s : Tfs) : List FsCall → Except Fault (List TfsResult × Tfs)
  | [] => return ([], s)
  | c :: cs => do
    let (r, s) ← fsCall s c
    let (rs, s) ← fsCalls s cs
    return (r :: rs, s)

/-- A file system that is not initialized, or that is in use, or that has
been destroyed after some use. -/
inductive FsState : Tfs → Prop
  | uninit : FsState tfsUninit
  | used {s : Tfs} (hs : tfsMachine.Reachable s) : FsState s
  | destroyed {s : Tfs} (hs : tfsMachine.Reachable s) : FsState (tfsDestroy s).2

/-- No later calls tell `t` from `s`: they give the same results. -/
def SameResults (s t : Tfs) : Prop :=
  ∀ cs, (fsCalls t cs).map Prod.fst = (fsCalls s cs).map Prod.fst

/-! ## What a failed `tfs_init` leaves -/

/-- The state after the six calls of `malloc`. -/
def mallocTables (params : TfsParams) (m : Mallocs) : Tfs where
  fsParams := params
  inodeTable := .malloc (params.maxInodeCount * sizeofInode) sizeofInode ⟨.tFile, 0, 0⟩ m.inodeTable
  freeinodeTs := .malloc (params.maxInodeCount * sizeofAllocationState) sizeofAllocationState
    .free m.freeinodeTs
  fsData := .malloc (params.maxBlockCount * params.blockSize) 1 0 m.fsData
  freeBlocks := .malloc (params.maxBlockCount * sizeofAllocationState) sizeofAllocationState
    .free m.freeBlocks
  openFileTable := .malloc (params.maxOpenFilesCount * sizeofOpenFileEntry) sizeofOpenFileEntry
    ⟨0, 0⟩ m.openFileTable
  freeOpenFileEntries := .malloc (params.maxOpenFilesCount * sizeofAllocationState)
    sizeofAllocationState .free m.freeOpenFileEntries

/-- Every pointer is `NULL`. -/
structure Tfs.NoTables (s : Tfs) : Prop where
  inodeTable : s.inodeTable.null = true
  freeinodeTs : s.freeinodeTs.null = true
  fsData : s.fsData.null = true
  freeBlocks : s.freeBlocks.null = true
  openFileTable : s.openFileTable.null = true
  freeOpenFileEntries : s.freeOpenFileEntries.null = true

/-- The parameters are those in use, and either the tables are there already
or not one of them can be allocated. -/
def ReinitMeets (s : Tfs) (params : TfsParams) (m : Mallocs) : Prop :=
  s.fsParams = params ∧ (s.inodeTable.null = false ∨ (mallocTables params m).NoTables)

/-- The three failures of `tfs_init`. -/
inductive FailedInit (s : Tfs) (params : TfsParams) (m : Mallocs) : Tfs → Prop
  | alreadyInitialized (hs : s.inodeTable.null = false) :
      FailedInit s params m { s with fsParams := params }
  | allocationFailed (hs : s.inodeTable.null = true) : FailedInit s params m (mallocTables params m)
  | noRoot {t : Tfs} (hs : s.inodeTable.null = true)
      (hm : (mallocTables params m).inodeTable.null = false)
      (ht : t.inodeTable.null = false) : FailedInit s params m t

/-! ## The inode table stays allocated -/

/-- `inode_table` is `NULL` in both states or in neither. -/
def SameInodeTable (s t : Tfs) : Prop := t.inodeTable.null = s.inodeTable.null

theorem SameInodeTable.trans (h : SameInodeTable s t) (h' : SameInodeTable t u) :
    SameInodeTable s u :=
  Eq.trans h' h

theorem modifyInode_sameTable {f : Inode → Inode} (h : s.modifyInode i f = .ok t) :
    SameInodeTable s t := by
  obtain ⟨-, rfl⟩ := modifyInode_ok h
  rfl

theorem inodeAlloc_sameTable (h : inodeAlloc s = .ok (r, t)) : SameInodeTable s t := by
  obtain ⟨found, -, h⟩ := bind_eq_ok.mp h
  cases found with
  | none =>
      obtain ⟨-, rfl⟩ := ok_pair_inj h
      rfl
  | some i =>
      obtain ⟨freeinodeTs, -, h⟩ := bind_eq_ok.mp h
      obtain ⟨-, rfl⟩ := ok_pair_inj h
      rfl

theorem dataBlockAlloc_sameTable (h : dataBlockAlloc s = .ok (b, t)) : SameInodeTable s t := by
  obtain ⟨found, -, h⟩ := bind_eq_ok.mp h
  cases found with
  | none =>
      obtain ⟨-, rfl⟩ := ok_pair_inj h
      rfl
  | some i =>
      obtain ⟨freeBlocks, -, h⟩ := bind_eq_ok.mp h
      obtain ⟨-, rfl⟩ := ok_pair_inj h
      rfl

theorem dataBlockFree_sameTable (h : dataBlockFree b s = .ok t) : SameInodeTable s t := by
  obtain ⟨_, -, h⟩ := bind_eq_ok.mp h
  obtain ⟨freeBlocks, -, h⟩ := bind_eq_ok.mp h
  cases h
  rfl

theorem inodeDelete_sameTable (h : inodeDelete inumber s = .ok t) : SameInodeTable s t := by
  obtain ⟨_, -, h⟩ := bind_eq_ok.mp h
  obtain ⟨state, -, h⟩ := bind_eq_ok.mp h
  obtain ⟨_, -, h⟩ := bind_eq_ok.mp h
  obtain ⟨inode, -, h⟩ := bind_eq_ok.mp h
  dsimp only at h
  split at h
  · obtain ⟨s₁, hfree, h⟩ := bind_eq_ok.mp h
    have hsame := dataBlockFree_sameTable hfree
    obtain ⟨freeinodeTs, -, h⟩ := bind_eq_ok.mp h
    cases h
    exact hsame
  · obtain ⟨s₁, hs₁, h⟩ := bind_eq_ok.mp h
    cases hs₁
    obtain ⟨freeinodeTs, -, h⟩ := bind_eq_ok.mp h
    cases h
    rfl

theorem inodeCreate_sameTable (h : inodeCreate .tDirectory s = .ok (r, t)) :
    SameInodeTable s t := by
  obtain ⟨⟨inumber, s₁⟩, halloc, h⟩ := bind_eq_ok.mp h
  have h₁ := inodeAlloc_sameTable halloc
  dsimp only at h
  split at h
  · obtain ⟨-, rfl⟩ := ok_pair_inj h
    exact h₁
  · obtain ⟨inode, -, h⟩ := bind_eq_ok.mp h
    obtain ⟨s₂, hmod, h⟩ := bind_eq_ok.mp h
    have h₂ := h₁.trans (modifyInode_sameTable hmod)
    obtain ⟨⟨b, s₃⟩, hblock, h⟩ := bind_eq_ok.mp h
    have h₃ := h₂.trans (dataBlockAlloc_sameTable hblock)
    dsimp only at h
    split at h
    · -- no block for the directory: its inode is given back
      obtain ⟨s₄, hmod, h⟩ := bind_eq_ok.mp h
      obtain ⟨s₅, hdel, h⟩ := bind_eq_ok.mp h
      obtain ⟨-, rfl⟩ := ok_pair_inj h
      exact (h₃.trans (modifyInode_sameTable hmod)).trans (inodeDelete_sameTable hdel)
    · obtain ⟨s₄, hmod, h⟩ := bind_eq_ok.mp h
      have h₄ := h₃.trans (modifyInode_sameTable hmod)
      obtain ⟨dirEntry, -, h⟩ := bind_eq_ok.mp h
      obtain ⟨_, -, h⟩ := bind_eq_ok.mp h
      obtain ⟨fsData, -, h⟩ := bind_eq_ok.mp h
      obtain ⟨-, rfl⟩ := ok_pair_inj h
      exact h₄

/-! ## The failures, one by one -/

theorem stateInit_cases (h : stateInit params m s = .ok (r, t)) :
    s.inodeTable.null = false ∧ r = -1 ∧ t = { s with fsParams := params } ∨
    s.inodeTable.null = true ∧ r = -1 ∧ t = mallocTables params m ∨
    s.inodeTable.null = true ∧ r = 0 ∧ (mallocTables params m).inodeTable.null = false ∧
      t.inodeTable.null = false := by
  rw [stateInit] at h
  dsimp only at h
  split at h
  · rename_i hs
    obtain ⟨rfl, rfl⟩ := ok_pair_inj h
    exact .inl ⟨hs, rfl, rfl⟩
  · rename_i hs
    have hs : s.inodeTable.null = true := by simpa using hs
    right
    split at h
    · obtain ⟨rfl, rfl⟩ := ok_pair_inj h
      exact .inl ⟨hs, rfl, rfl⟩
    · rename_i hnull
      simp only [not_or, Bool.not_eq_true] at hnull
      obtain ⟨f1, -, h⟩ := bind_eq_ok.mp h
      obtain ⟨f2, -, h⟩ := bind_eq_ok.mp h
      obtain ⟨f3, -, h⟩ := bind_eq_ok.mp h
      obtain ⟨rfl, rfl⟩ := ok_pair_inj h
      exact .inr ⟨hs, rfl, hnull.1, hnull.1⟩

theorem tfsInit_failed (h : tfsInit paramsPtr m s = .ok (-1, t)) :
    FailedInit s (paramsPtr.getD tfsDefaultParams) m t := by
  obtain ⟨⟨r, s₁⟩, hinit, h⟩ := bind_eq_ok.mp h
  dsimp only at h
  rcases stateInit_cases hinit with ⟨hs, rfl, hs₁⟩ | ⟨hs, rfl, hs₁⟩ | ⟨hs, rfl, hm, hs₁⟩
  · rw [if_pos (by decide)] at h
    obtain ⟨-, rfl⟩ := ok_pair_inj h
    rw [hs₁]
    exact .alreadyInitialized hs
  · rw [if_pos (by decide)] at h
    obtain ⟨-, rfl⟩ := ok_pair_inj h
    rw [hs₁]
    exact .allocationFailed hs
  · rw [if_neg (by decide)] at h
    obtain ⟨⟨root, s₂⟩, hroot, h⟩ := bind_eq_ok.mp h
    have ht : t = s₂ := by
      dsimp only at h
      split at h
      · exact (ok_pair_inj h).2.symm
      · exact (ok_pair_inj h).2.symm
    rw [ht]
    exact .noRoot hs hm (Eq.trans (inodeCreate_sameTable hroot) hs₁)

/-! ## The condition -/

theorem malloc_of_null {α : Type} {bytes elemSize : Nat} {dflt : α} {contents : Option (Nat → α)}
    (h : (Region.malloc bytes elemSize dflt contents).null = true) :
    Region.malloc bytes elemSize dflt contents = ⟨true, 0, fun _ => dflt⟩ := by
  cases contents with
  | none => rfl
  | some c =>
      rw [Region.malloc] at h ⊢
      split at h
      · cases h
      · rename_i hmax
        exact if_neg hmax

/-- Allocations that all fail leave what `tfs_destroy` leaves. -/
theorem mallocTables_eq_iff (p params : TfsParams) (m : Mallocs) :
    mallocTables params m = { tfsUninit with fsParams := p } ↔
      p = params ∧ (mallocTables params m).NoTables := by
  constructor
  · intro h
    refine ⟨(congrArg Tfs.fsParams h).symm, ?_⟩
    rw [h]
    constructor <;> rfl
  · rintro ⟨rfl, hn⟩
    rw [mallocTables, tfsUninit, Tfs.mk.injEq]
    exact ⟨rfl, malloc_of_null hn.inodeTable, malloc_of_null hn.freeinodeTs,
      malloc_of_null hn.fsData, malloc_of_null hn.freeBlocks, malloc_of_null hn.openFileTable,
      malloc_of_null hn.freeOpenFileEntries⟩

/-- A state without tables is all `NULL`. -/
theorem FsState.eq_uninit (hs : FsState s) (hnull : s.inodeTable.null = true) :
    s = { tfsUninit with fsParams := s.fsParams } := by
  cases hs with
  | uninit => rfl
  | used hr =>
      rw [(reachable_inv hr).base.inodeTable_null] at hnull
      cases hnull
  | destroyed => rfl

theorem FailedInit.eq_iff (hf : FailedInit s params m t) (hs : FsState s) :
    t = s ↔ ReinitMeets s params m := by
  cases hf with
  | alreadyInitialized hnull =>
      constructor
      · intro h
        exact ⟨(congrArg Tfs.fsParams h).symm, .inl hnull⟩
      · rintro ⟨rfl, -⟩
        rfl
  | allocationFailed hnull =>
      have heq := mallocTables_eq_iff s.fsParams params m
      rw [← hs.eq_uninit hnull] at heq
      rw [heq]
      refine and_congr_right fun _ => ?_
      rw [hnull]
      simp
  | noRoot hnull hm ht =>
      -- the table is allocated now, and it was not before
      constructor
      · rintro rfl
        rw [hnull] at ht
        cases ht
      · rintro ⟨-, hnull' | hno⟩
        · rw [hnull] at hnull'
          cases hnull'
        · rw [hno.inodeTable] at hm
          cases hm

/-- **A failed `tfs_init` changes nothing** exactly when it was given the
parameters in use and got no table. Then all later calls give the same results. -/
theorem failedInit_changesNothing_iff (hs : FsState s)
    (h : tfsInit paramsPtr m s = .ok (-1, t)) :
    (t = s ↔ ReinitMeets s (paramsPtr.getD tfsDefaultParams) m) ∧
      (ReinitMeets s (paramsPtr.getD tfsDefaultParams) m → SameResults s t) := by
  have heq := (tfsInit_failed h).eq_iff hs
  refine ⟨heq, fun hmeets => ?_⟩
  rw [heq.mpr hmeets]
  exact fun _ => rfl

/-- `smallParams` with blocks of one byte. -/
def tinyParams : TfsParams := ⟨3, 3, 2, 1⟩

/-- `tfs_init` fails on a file system in use, and then `/a` is created. -/
def reinitRun (params : TfsParams) : List FsCall :=
  [.init (some smallParams) dirtyMallocs, .init (some params) dirtyMallocs,
    .call (.open pathA tfsOCreat)]

theorem reinitRun_same : (fsCalls tfsUninit (reinitRun smallParams)).map Prod.fst =
    .ok [(0, []), (-1, []), (0, [])] := by
  decide +kernel

theorem reinitRun_tiny : (fsCalls tfsUninit (reinitRun tinyParams)).map Prod.fst =
    .ok [(0, []), (-1, []), (-1, [])] := by
  decide +kernel

/-- The states before and after the second `tfs_init`. -/
theorem reinitRun_states {r : TfsResult}
    (h : (fsCalls tfsUninit (reinitRun params)).map Prod.fst = .ok [(0, []), (-1, []), r]) :
    ∃ s t, TfsStart smallParams dirtyMallocs s ∧
      tfsInit (some params) dirtyMallocs s = .ok (-1, t) ∧
      (fsCalls t [.call (.open pathA tfsOCreat)]).map Prod.fst = .ok [r] := by
  obtain ⟨w, h⟩ := map_fst_eq_ok h
  obtain ⟨⟨r₁, s⟩, h₁, h⟩ := bind_eq_ok.mp h
  obtain ⟨⟨rs, w₁⟩, h, hrs⟩ := bind_eq_ok.mp h
  obtain ⟨hrs, -⟩ := ok_pair_inj hrs
  obtain ⟨rfl, rfl⟩ := List.cons.inj hrs
  obtain ⟨⟨r₂, t⟩, h₂, h⟩ := bind_eq_ok.mp h
  obtain ⟨⟨rs, w₂⟩, h₃, hrs⟩ := bind_eq_ok.mp h
  obtain ⟨hrs, -⟩ := ok_pair_inj hrs
  obtain ⟨rfl, rfl⟩ := List.cons.inj hrs
  exact ⟨s, t, (noBytes_eq_ok.mp h₁).1, (noBytes_eq_ok.mp h₂).1, by rw [h₃]; rfl⟩

/-- With the parameters in use nothing has changed. -/
theorem reinitRun_changesNothing :
    ∃ s t, TfsStart smallParams dirtyMallocs s ∧
      tfsInit (some smallParams) dirtyMallocs s = .ok (-1, t) ∧ t = s ∧ SameResults s t := by
  obtain ⟨s, t, hs, ht, -⟩ := reinitRun_states reinitRun_same
  have hused : FsState s := .used (.start ⟨_, _, hs⟩)
  have hmeets : ReinitMeets s smallParams dirtyMallocs :=
    ⟨hs.emptyRoot.2.fsParams, .inl hs.emptyRoot.1.base.inodeTable_null⟩
  obtain ⟨heq, hresults⟩ := failedInit_changesNothing_iff hused ht
  exact ⟨s, t, hs, ht, heq.mpr hmeets, hresults hmeets⟩

/-- With others, `/a` can no longer be created. -/
theorem reinitRun_not_changesNothing :
    ∃ s t, TfsStart smallParams dirtyMallocs s ∧
      tfsInit (some tinyParams) dirtyMallocs s = .ok (-1, t) ∧
      (fsCalls s [.call (.open pathA tfsOCreat)]).map Prod.fst = .ok [(0, [])] ∧
      (fsCalls t [.call (.open pathA tfsOCreat)]).map Prod.fst = .ok [(-1, [])] ∧
      ¬ SameResults s t ∧ t ≠ s := by
  obtain ⟨s, t, hs, ht, hopen⟩ := reinitRun_states reinitRun_tiny
  obtain ⟨s', t', hs', ht', hopen'⟩ := reinitRun_states reinitRun_same
  -- `tfs_init` with the parameters in use left the state that the call starts from
  have hsame : s' = s := (ok_pair_inj (hs'.symm.trans hs)).2
  have hkept : t' = s' := (tfsInit_failed ht').eq_iff (.used (.start ⟨_, _, hs'⟩)) |>.mpr
    ⟨hs'.emptyRoot.2.fsParams, .inl hs'.emptyRoot.1.base.inodeTable_null⟩
  rw [hkept, hsame] at hopen'
  have hdiffer : ¬ SameResults s t := by
    intro hresults
    have hres := hresults [.call (.open pathA tfsOCreat)]
    rw [hopen, hopen'] at hres
    cases hres
  refine ⟨s, t, hs, ht, hopen', hopen, hdiffer, ?_⟩
  rintro rfl
  exact hdiffer fun _ => rfl

end MBroker
