import MBroker.Fs.Preserve

/-!
# The TFS invariant holds initially

A `tfs_init` that succeeds leaves a file system with an empty root
directory and no open file, whatever the parameters and whatever the
allocated memory held. With the step lemma of `Preserve` this gives the
invariant of every run.
-/

namespace MBroker

open Tfs

variable {s t : Tfs} {params : TfsParams} {m : Mallocs} {i : Nat}

/-! ## The tables -/

/-- The tables have the sizes `malloc` was asked for: a product of the
parameters that overflows a `size_t` leaves a smaller table. -/
structure TableSizes (params : TfsParams) (s : Tfs) : Prop where
  fsParams : s.fsParams = params
  inodeTable : s.inodeTable.size =
    params.maxInodeCount * sizeofInode % 18446744073709551616 / sizeofInode
  openFileTable : s.openFileTable.size =
    params.maxOpenFilesCount * sizeofOpenFileEntry % 18446744073709551616 / sizeofOpenFileEntry
  fsData : s.fsData.size = params.maxBlockCount * params.blockSize % 18446744073709551616

/-- The state `state_init` leaves. -/
structure Cleared (params : TfsParams) (s : Tfs) : Prop where
  sizes : TableSizes params s
  inodeTable_null : s.inodeTable.null = false
  fsData_null : s.fsData.null = false
  freeinodeTs_size : s.inodeTableSize ≤ s.freeinodeTs.size
  freeBlocks_size : s.dataBlocks ≤ s.freeBlocks.size
  freeOpenFileEntries_size : s.maxOpenFiles ≤ s.freeOpenFileEntries.size
  fsData_size : s.fsData.size < 9223372036854775808
  inodes_free : ∀ i < s.inodeTableSize, s.freeinodeTs.get i = .free
  blocks_free : ∀ b < s.dataBlocks, s.freeBlocks.get b = .free
  handles_free : ∀ h < s.maxOpenFiles, s.freeOpenFileEntries.get h = .free

theorem stateInit_ok (h : stateInit params m tfsUninit = .ok (0, s)) : Cleared params s := by
  rw [stateInit] at h
  dsimp only at h
  rw [if_neg (by simp [tfsUninit])] at h
  split at h
  · exact absurd (ok_pair_inj h).1 (by decide)
  · rename_i hnull
    simp only [not_or, Bool.not_eq_true] at hnull
    obtain ⟨hn1, -, hn3, -, hn5, -⟩ := hnull
    obtain ⟨f1, hf1, h⟩ := bind_eq_ok.mp h
    obtain ⟨f2, hf2, h⟩ := bind_eq_ok.mp h
    obtain ⟨f3, hf3, h⟩ := bind_eq_ok.mp h
    obtain ⟨-, rfl⟩ := ok_pair_inj h
    obtain ⟨hle1, rfl⟩ := Region.fill_eq_ok.mp hf1
    obtain ⟨hle2, rfl⟩ := Region.fill_eq_ok.mp hf2
    obtain ⟨hle3, rfl⟩ := Region.fill_eq_ok.mp hf3
    obtain ⟨hmax, hsize⟩ := Region.malloc_not_null hn3
    refine ⟨⟨rfl, (Region.malloc_not_null hn1).2, (Region.malloc_not_null hn5).2,
      hsize.trans (Nat.div_one _)⟩, hn1, hn3, hle1, hle2, hle3, ?_, ?_, ?_, ?_⟩
    · show (Region.malloc _ 1 _ _).size < _
      rw [hsize, Nat.div_one]
      simp only [ptrdiffMax] at hmax
      omega
    · intro i hi
      exact if_pos hi
    · intro b hb
      exact if_pos hb
    · intro h hh
      exact if_pos hh

/-! ## The root directory -/

/-- `inode_create(T_DIRECTORY)` labels every entry. -/
theorem labelEntries_ok {fsData fsData' : Region UInt8} {n : Nat}
    (h : labelEntries 0 fsData n = .ok fsData') :
    fsData'.null = fsData.null ∧ fsData'.size = fsData.size ∧
      n * sizeofDirEntry ≤ fsData.size ∧ ∀ k < n, inumberAt fsData' k = -1 := by
  induction n generalizing fsData' with
  | zero =>
      cases h
      exact ⟨rfl, rfl, by simp, fun k hk => absurd hk (by omega)⟩
  | succ n ih =>
      obtain ⟨fsData₁, h1, h2⟩ := bind_eq_ok.mp h
      obtain ⟨hnull, hsize, -, hlabel⟩ := ih h1
      obtain ⟨hle, rfl⟩ := Region.copyIn_eq_ok.mp h2
      simp only [sizeofDirEntry, maxFileName] at hle
      refine ⟨hnull, hsize, by simp only [sizeofDirEntry]; omega, fun k hk => ?_⟩
      by_cases hkn : k = n
      · subst hkn
        refine intAt_of_bytes (by decide) (by decide) fun j hj => ?_
        rw [Region.blit_get_of_mem _ _ (by omega) (by omega)]
        congr 1
        omega
      · rw [← hlabel k (by omega)]
        refine intAt_congr fun j hj => Region.blit_get_of_not_mem _ _ ?_
        simp only [sizeofDirEntry, maxFileName]
        omega

theorem modifyInode_ok {f : Inode → Inode} (h : s.modifyInode i f = .ok t) :
    i < s.inodeTable.size ∧
      t = { s with inodeTable := s.inodeTable.set i (f (s.inodeTable.get i)) } := by
  obtain ⟨n, hn, h⟩ := bind_eq_ok.mp h
  obtain ⟨table, htab, h⟩ := bind_eq_ok.mp h
  obtain ⟨hlt, rfl⟩ := Region.load_eq_ok.mp hn
  obtain ⟨-, rfl⟩ := Region.store_eq_ok.mp htab
  exact ⟨hlt, (Except.ok.inj h).symm⟩

/-- With no room in a block the first allocation faults. -/
theorem blockSize_pos_of_inodeAlloc {r : Int × Tfs} (h : inodeAlloc s = .ok r) (hr : r.1 ≠ -1) :
    0 < s.blockSize := by
  by_contra hz
  have hz : s.blockSize = 0 := by omega
  rw [inodeAlloc] at h
  cases hn : s.inodeTableSize with
  | zero =>
      rw [hn] at h
      exact hr (congrArg Prod.fst (Except.ok.inj h)).symm
  | succ n =>
      rw [hn, hz] at h
      cases h

/-- All free: the first one is index 0. -/
theorem find_free_zero {n i : Nat} {states : Region AllocationState}
    (hfree : ∀ j < n, states.get j = .free)
    (h : (List.range n).find? (fun j => states.get j == .free) = some i) : i = 0 := by
  obtain ⟨hi, -, hbefore⟩ := find_range_eq_some.mp h
  by_contra hne
  have := hbefore 0 (by omega)
  rw [hfree 0 (by omega)] at this
  cases this

theorem inodeAlloc_zero {r : Int} (h : inodeAlloc s = .ok (r, t)) (hr : r ≠ -1)
    (hsz : s.inodeTableSize ≤ s.freeinodeTs.size)
    (hfree : ∀ i < s.inodeTableSize, s.freeinodeTs.get i = .free) :
    r = 0 ∧ 0 < s.inodeTableSize ∧ t = { s with freeinodeTs := s.freeinodeTs.set 0 .taken } := by
  rw [inodeAlloc_eq (blockSize_pos_of_inodeAlloc h hr) hsz] at h
  cases hi : s.firstFreeInode with
  | none =>
      rw [hi] at h
      exact absurd (ok_pair_inj h).1.symm hr
  | some i =>
      obtain rfl := find_free_zero hfree hi
      rw [hi] at h
      obtain ⟨rfl, rfl⟩ := ok_pair_inj h
      exact ⟨toInt_of_lt (by decide), (find_range_eq_some.mp hi).1, rfl⟩

theorem dataBlockAlloc_zero {b : Int} (h : dataBlockAlloc s = .ok (b, t)) (hb : b ≠ -1)
    (hbs : 0 < s.blockSize) (hsz : s.dataBlocks ≤ s.freeBlocks.size)
    (hfree : ∀ b < s.dataBlocks, s.freeBlocks.get b = .free) :
    b = 0 ∧ 0 < s.dataBlocks ∧ t = { s with freeBlocks := s.freeBlocks.set 0 .taken } := by
  rw [dataBlockAlloc_eq hbs hsz] at h
  cases hi : s.firstFreeBlock with
  | none =>
      rw [hi] at h
      exact absurd (ok_pair_inj h).1.symm hb
  | some c =>
      obtain rfl := find_free_zero hfree hi
      rw [hi] at h
      obtain ⟨rfl, rfl⟩ := ok_pair_inj h
      exact ⟨toInt_of_lt (by decide), (find_range_eq_some.mp hi).1, rfl⟩

/-- The state after the root directory has been created. -/
structure EmptyRoot (s : Tfs) : Prop where
  base : Base s
  only_root : ∀ i, s.Taken i → i = 0
  only_block : ∀ b, s.BlockTaken b → b = 0
  none_open : ∀ h, ¬ s.Open h
  none_live : ∀ k, ¬ s.Live k

theorem Cleared.create_root (hc : Cleared params s)
    (h : inodeCreate .tDirectory s = .ok (0, t)) :
    EmptyRoot t ∧ TableSizes params t := by
  obtain ⟨⟨r, s₁⟩, halloc, h⟩ := bind_eq_ok.mp h
  dsimp only at h
  by_cases hr : r = -1
  · rw [if_pos hr] at h
    exact absurd (ok_pair_inj h).1 (by decide)
  have hbs := blockSize_pos_of_inodeAlloc halloc hr
  obtain ⟨rfl, hin, rfl⟩ := inodeAlloc_zero halloc hr hc.freeinodeTs_size hc.inodes_free
  rw [if_neg hr] at h
  obtain ⟨inode, hinode, h⟩ := bind_eq_ok.mp h
  obtain rfl : inode = 0 := by
    have := Except.ok.inj hinode
    exact this.symm
  obtain ⟨s₂, hmod, h⟩ := bind_eq_ok.mp h
  obtain ⟨hlt, rfl⟩ := modifyInode_ok hmod
  obtain ⟨⟨b, s₃⟩, hblock, h⟩ := bind_eq_ok.mp h
  dsimp only at h
  by_cases hb : b = -1
  · rw [if_pos hb] at h
    obtain ⟨s₄, -, h⟩ := bind_eq_ok.mp h
    obtain ⟨s₅, -, h⟩ := bind_eq_ok.mp h
    exact absurd (ok_pair_inj h).1 (by decide)
  obtain ⟨rfl, hbn, rfl⟩ :=
    dataBlockAlloc_zero hblock hb hbs hc.freeBlocks_size hc.blocks_free
  rw [if_neg hb] at h
  obtain ⟨s₄, hmod, h⟩ := bind_eq_ok.mp h
  obtain ⟨-, rfl⟩ := modifyInode_ok hmod
  obtain ⟨dirEntry, hdir, h⟩ := bind_eq_ok.mp h
  obtain ⟨-, -, hdir⟩ := bind_eq_ok.mp hdir
  obtain rfl : dirEntry = 0 := by
    have := Except.ok.inj hdir
    simpa using this.symm
  obtain ⟨-, -, h⟩ := bind_eq_ok.mp h
  obtain ⟨fsData, hlabel, h⟩ := bind_eq_ok.mp h
  obtain ⟨-, rfl⟩ := ok_pair_inj h
  obtain ⟨hnull, hsize, hfit, hfree⟩ := labelEntries_ok hlabel
  refine ⟨?_, ⟨hc.sizes.fsParams, hc.sizes.inodeTable, hc.sizes.openFileTable,
    hsize.trans hc.sizes.fsData⟩⟩
  constructor
  case base =>
    constructor
    case blockSize_pos => exact hbs
    case inodeTable_null => exact hc.inodeTable_null
    case fsData_null => exact hnull.trans hc.fsData_null
    case freeinodeTs_size => exact hc.freeinodeTs_size
    case freeBlocks_size => exact hc.freeBlocks_size
    case freeOpenFileEntries_size => exact hc.freeOpenFileEntries_size
    case fsData_size => exact lt_of_eq_of_lt hsize hc.fsData_size
    case entries_fit => exact le_of_le_of_eq hfit hsize.symm
    case root_taken => exact ⟨hin, Region.set_get_self ..⟩
    case root_lt => exact hlt
    case root_inode => simp [inode]
    case root_block => exact ⟨hbn, Region.set_get_self ..⟩
  case only_root =>
    rintro i ⟨hi, ht⟩
    by_contra hne
    rw [show _ = s.freeinodeTs.get i from Region.set_get_ne _ _ hne, hc.inodes_free i hi] at ht
    cases ht
  case only_block =>
    rintro b ⟨hb, ht⟩
    by_contra hne
    rw [show _ = s.freeBlocks.get b from Region.set_get_ne _ _ hne, hc.blocks_free b hb] at ht
    cases ht
  case none_open =>
    rintro h ⟨hh, ht⟩
    rw [show _ = AllocationState.free from hc.handles_free h hh] at ht
    cases ht
  case none_live => exact fun k hk => hk.2 (hfree k hk.1)

theorem EmptyRoot.inv (he : EmptyRoot s) : Inv s := by
  have hheld : ∀ i, ¬ s.Held i := by
    rintro i ⟨hne, ht | ⟨h, ho, -⟩⟩
    · exact hne (he.only_root i ht)
    · exact he.none_open h ho
  constructor
  case base => exact he.base
  case bounds =>
    refine ⟨?_, ?_, ?_, ?_⟩
    · intro i ht
      rw [he.only_root i ht]
      exact ⟨by decide, he.base.root_lt⟩
    · exact fun b hb hne => absurd (he.only_block b hb) hne
    · exact fun h ho => absurd ho (he.none_open h)
    · exact fun h ho => absurd ho (he.none_open h)
  case blocks =>
    refine ⟨?_, ?_, ?_, ?_⟩
    · exact fun i hi => absurd hi (hheld i)
    · exact fun i hi => absurd hi (hheld i)
    · exact fun i _ ht hne => absurd (he.only_root i ht) hne
    · exact fun i _ ht _ hne => absurd (he.only_root i ht) hne
  case dir =>
    refine ⟨?_, ?_, ?_, ?_, ?_, ?_, ?_, ?_⟩
    · exact fun i ht hne => absurd (he.only_root i ht) hne
    · exact fun k hk => absurd hk (he.none_live k)
    · exact fun k hk => absurd hk (he.none_live k)
    · exact fun k _ hk => absurd hk (he.none_live k)
    · exact fun k _ hk => absurd hk (he.none_live k)
    · exact fun i ht hne => absurd (he.only_root i ht) hne
    · exact fun k hk => absurd hk (he.none_live k)
    · exact fun k _ hk => absurd hk (he.none_live k)

/-- **A `tfs_init` that succeeds leaves an empty root directory.** -/
theorem TfsStart.emptyRoot (h : TfsStart params m s) : EmptyRoot s ∧ TableSizes params s := by
  obtain ⟨⟨r, s₁⟩, hinit, h⟩ := bind_eq_ok.mp h
  dsimp only at h
  by_cases hr : r ≠ 0
  · rw [if_pos hr] at h
    exact absurd (ok_pair_inj h).1 (by decide)
  obtain rfl : r = 0 := not_not.mp hr
  have hc := stateInit_ok hinit
  rw [if_neg hr] at h
  obtain ⟨⟨root, s₂⟩, hroot, h⟩ := bind_eq_ok.mp h
  dsimp only at h
  by_cases hz : root ≠ rootDirInum
  · rw [if_pos hz] at h
    exact absurd (ok_pair_inj h).1 (by decide)
  obtain rfl : root = 0 := not_not.mp hz
  rw [if_neg hz] at h
  obtain ⟨-, rfl⟩ := ok_pair_inj h
  exact hc.create_root hroot

/-! ## The tables have their full size -/

/-- Parameters under which every index the calls compute is an `int`. -/
structure TfsParams.InRange (params : TfsParams) : Prop where
  blockSize_pos : 1 ≤ params.blockSize
  maxInodeCount_le : params.maxInodeCount ≤ 2147483647
  maxBlockCount_le : params.maxBlockCount ≤ 2147483647
  maxOpenFilesCount_le : params.maxOpenFilesCount ≤ 2147483647
  data_lt : params.maxBlockCount * params.blockSize < 18446744073709551616

/-- The tables have the parameters' sizes. -/
structure Sized (params : TfsParams) (s : Tfs) : Prop where
  params_eq : s.fsParams = params
  inodeTable : params.maxInodeCount ≤ s.inodeTable.size
  openFileTable : params.maxOpenFilesCount ≤ s.openFileTable.size
  fsData : params.maxBlockCount * params.blockSize ≤ s.fsData.size

theorem Sized.frame (hs : Sized params s) (hf : Frame s t) : Sized params t where
  params_eq := hf.fsParams.trans hs.params_eq
  inodeTable := by
    rw [hf.inodeTable_size]
    exact hs.inodeTable
  openFileTable := by
    rw [hf.openFileTable_size]
    exact hs.openFileTable
  fsData := by
    rw [hf.fsData_size]
    exact hs.fsData

/-- A `tfs_init` within range gets tables of the sizes it asked for. -/
theorem TfsStart.sized (hp : params.InRange) (h : TfsStart params m s) : Sized params s := by
  obtain ⟨-, hsizes⟩ := h.emptyRoot
  have hinodes := hp.maxInodeCount_le
  have hfiles := hp.maxOpenFilesCount_le
  have hdata := hp.data_lt
  constructor
  case params_eq => exact hsizes.fsParams
  case inodeTable =>
    rw [hsizes.inodeTable]
    simp only [sizeofInode]
    omega
  case openFileTable =>
    rw [hsizes.openFileTable]
    simp only [sizeofOpenFileEntry]
    omega
  case fsData => rw [hsizes.fsData, Nat.mod_eq_of_lt hdata]

/-- A call leaves the sizes of the tables. -/
theorem Sized.updates (hs : Sized params s) (hinv : Inv s)
    (hu : Relation.ReflTransGen Update s t) : Sized params t := by
  induction hu with
  | refl => exact hs
  | tail hst hu ih => exact ih.frame ((hinv.updates hst).update_frame hu)

/-! ## Runs -/

theorem tfsMachine_step_eq_some {c : TfsCall} :
    tfsMachine.step s c = some t ↔ ∃ res, tfsCall s c = .ok (res, t) := by
  simp only [tfsMachine]
  cases hc : tfsCall s c with
  | error e => simp
  | ok p =>
      obtain ⟨res, u⟩ := p
      simp

/-- **The invariant of every run.** -/
theorem reachable_inv (h : tfsMachine.Reachable s) : Inv s := by
  refine h.invariant ?_ ?_
  · rintro s ⟨params, m, hs⟩
    exact hs.emptyRoot.1.inv
  · intro s c t hinv _ hstep
    obtain ⟨res, hc⟩ := tfsMachine_step_eq_some.mp hstep
    exact hinv.of_call hc

theorem tfsCalls_reachable {cs : List TfsCall} {rs : List TfsResult} (hs : tfsMachine.Reachable s)
    (h : tfsCalls s cs = .ok (rs, t)) : tfsMachine.Reachable t := by
  induction cs generalizing s rs with
  | nil =>
      obtain ⟨-, rfl⟩ := ok_pair_inj h
      exact hs
  | cons c cs ih =>
      obtain ⟨⟨r, s₁⟩, hc, h⟩ := bind_eq_ok.mp h
      obtain ⟨⟨rs', s₂⟩, hcs, h⟩ := bind_eq_ok.mp h
      obtain ⟨-, rfl⟩ := ok_pair_inj h
      exact ih (hs.step trivial (tfsMachine_step_eq_some.mpr ⟨r, hc⟩)) hcs

/-- A run that evaluates is a run of the machine. -/
theorem tfsRun_ok {cs : List TfsCall} {rs : List TfsResult}
    (h : (tfsRun params m cs).map Prod.fst = .ok (0, rs)) :
    ∃ s t, TfsStart params m s ∧ tfsCalls s cs = .ok (rs, t) := by
  obtain ⟨t, hrun⟩ := map_fst_eq_ok h
  obtain ⟨⟨r, s⟩, hinit, hrun⟩ := bind_eq_ok.mp hrun
  dsimp only at hrun
  by_cases hr : r ≠ 0
  · rw [if_pos hr] at hrun
    exact absurd (congrArg Prod.fst (ok_pair_inj hrun).1) hr
  · obtain rfl : r = 0 := not_not.mp hr
    rw [if_neg hr] at hrun
    obtain ⟨⟨rs', s₂⟩, hcs, hrun⟩ := bind_eq_ok.mp hrun
    obtain ⟨heq, rfl⟩ := ok_pair_inj hrun
    obtain rfl : rs' = rs := congrArg Prod.snd heq
    exact ⟨s, s₂, hinit, hcs⟩

/-- The state after `tfs_init` and the calls of a list that all meet `guard`. -/
def tfsRunBy (guard : Tfs → TfsCall → Prop) [∀ s c, Decidable (guard s c)] (params : TfsParams)
    (m : Mallocs) (cs : List TfsCall) : Option Tfs :=
  match tfsInit (some params) m tfsUninit with
  | .ok (0, s) => tfsMachine.runBy guard s cs
  | _ => none

theorem tfsRunBy_reachable {guard : Tfs → TfsCall → Prop} [∀ s c, Decidable (guard s c)]
    {cs : List TfsCall} (h : tfsRunBy guard params m cs = some s) :
    tfsMachine.ReachableBy guard s := by
  unfold tfsRunBy at h
  split at h
  · rename_i s₀ hinit
    have hstart : tfsMachine.start s₀ := ⟨params, m, hinit⟩
    exact (Machine.ReachableBy.start hstart).runBy h
  · cases h

end MBroker
