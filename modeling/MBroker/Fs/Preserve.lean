import MBroker.Lib.Counting
import MBroker.Fs.Updates

/-!
# The TFS invariant is kept

What each group of the invariant depends on, then one lemma for each
update, and `Inv.of_call` for the calls, which are made of updates.

`Inv.handles` covers the updates of the open file table alone; the
others leave that table as it is. A new file's entry is below
`intIndices`: the entries before it are live, so each of them refers to
an inode of its own, and inode numbers are `int`s.
-/

namespace MBroker

open Tfs

variable {s t : Tfs} {i j k h b off n : Nat} {name : List UInt8}

/-! ## What the groups of the invariant depend on -/

/-- What is newly taken has to be within bounds. -/
theorem Bounds.mono (hb : Bounds s) (hf : Frame s t)
    (htaken : ∀ i, t.Taken i → s.Taken i ∨ i < 2147483648 ∧ i < s.inodeTable.size)
    (hblock : ∀ b, t.BlockTaken b →
      s.BlockTaken b ∨ b < 2147483648 ∧ b * s.blockSize < s.fsData.size)
    (hopen : ∀ h, t.Open h → s.Open h ∧ (t.file h).ofInumber = (s.file h).ofInumber) :
    Bounds t where
  taken_lt := by
    intro i ht
    rw [hf.inodeTable_size]
    rcases htaken i ht with ht | hlt
    · exact hb.taken_lt i ht
    · exact hlt
  block_lt := by
    intro b ht hb0
    rw [blockSize, hf.fsParams, hf.fsData_size]
    rcases hblock b ht with ht | hlt
    · exact hb.block_lt b ht hb0
    · exact hlt
  open_lt := by
    intro h ho
    rw [hf.openFileTable_size]
    exact hb.open_lt h (hopen h ho).1
  open_inode := by
    intro h ho
    obtain ⟨ho, hfile⟩ := hopen h ho
    rw [hfile, inodeTableSize, hf.fsParams, hf.inodeTable_size]
    exact hb.open_inode h ho

/-- What is held was held before, if nothing is newly taken or referred to. -/
theorem Tfs.Held.mono (hj : t.Held j) (htaken : t.Taken j → s.Taken j)
    (hopen : ∀ h, t.Open h → s.Open h ∧ (t.file h).ofInumber = (s.file h).ofInumber) :
    s.Held j := by
  obtain ⟨hj0, ht | ⟨h, ho, hf⟩⟩ := hj
  · exact ⟨hj0, .inl (htaken ht)⟩
  · obtain ⟨ho, hfile⟩ := hopen h ho
    exact ⟨hj0, .inr ⟨h, ho, by rw [← hfile]; exact hf⟩⟩

theorem closeHandle_held (hj : (s.closeHandle h).Held j) : s.Held j :=
  hj.mono id fun _ ho => ⟨(closeHandle_open.mp ho).2, rfl⟩

theorem seekHandle_held (hj : (s.seekHandle h off).Held j) : s.Held j :=
  hj.mono id fun _ ho => ⟨ho, seekHandle_inumber⟩

theorem writeAt_held {buffer : Nat → UInt8} (hj : (s.writeAt h i b off n buffer).Held j) :
    s.Held j :=
  hj.mono id fun _ ho => ⟨ho, writeAt_inumber⟩

theorem remove_held (hj : (s.remove i k).Held j) : s.Held j :=
  hj.mono (fun ht => (remove_taken.mp ht).2) fun _ ho => ⟨ho, rfl⟩

/-- A new handle holds what was held. -/
theorem openHandle_held (hh : h < s.maxOpenFiles) (hi : s.Held i)
    (hj : (s.openHandle h i off).Held j) : s.Held j := by
  obtain ⟨hj0, ht | ⟨h', ho, hf⟩⟩ := hj
  · exact ⟨hj0, .inl ht⟩
  · by_cases heq : h' = h
    · rw [heq, openHandle_file_self] at hf
      obtain rfl : i = j := Int.ofNat_inj.mp hf
      exact hi
    · rw [openHandle_file_ne heq] at hf
      exact ⟨hj0, .inr ⟨h', ((openHandle_open hh).mp ho).resolve_left heq, hf⟩⟩

theorem Tfs.HasBlock.frame (hb : s.HasBlock i b) (hf : Frame s t)
    (hinode : t.inode i = s.inode i) : t.HasBlock i b where
  eq := by rw [hinode]; exact hb.eq
  pos := hb.pos
  int := hb.int
  valid := by rw [dataBlocks, hf.fsParams]; exact hb.valid
  addr_lt := by rw [blockSize, hf.fsParams, hf.fsData_size]; exact hb.addr_lt
  size_le := by rw [hinode, blockSize, hf.fsParams]; exact hb.size_le

/-- The owners of the blocks stay when no file is filled: what has contents
had them before, and keeps its block. -/
theorem Blocks.mono (hb : Blocks s) (hf : Frame s t)
    (hroot : ∀ j, t.Held j → (t.inode j).iDataBlock ≠ 0)
    (hinode : ∀ j, 0 < (t.inode j).iSize → t.inode j = s.inode j)
    (hheld : ∀ j, t.Held j → 0 < (t.inode j).iSize → s.Held j)
    (htaken : ∀ j, t.Taken j → 0 < (t.inode j).iSize → s.Taken j)
    (hkept : ∀ j b, t.Taken j → j ≠ 0 → 0 < (t.inode j).iSize →
      (s.inode j).iDataBlock = (b : Nat) → s.freeBlocks.get b = .taken →
      t.freeBlocks.get b = .taken) : Blocks t where
  not_root := hroot
  held := by
    intro j hj hsz
    have heq := hinode j hsz
    obtain ⟨b, hblock⟩ := hb.held j (hheld j hj hsz) (by rw [← heq]; exact hsz)
    exact ⟨b, hblock.frame hf heq⟩
  owner_taken := by
    intro j b ht hj0 hsz hjb
    have heq := hinode j hsz
    rw [heq] at hjb
    obtain ⟨hlt, hbt⟩ := hb.owner_taken j b (htaken j ht hsz) hj0 (by rw [← heq]; exact hsz) hjb
    refine ⟨?_, hkept j b ht hj0 hsz hjb hbt⟩
    rw [dataBlocks, hf.fsParams]
    exact hlt
  owner_inj := by
    intro j l htj htl hj0 hl0 hsj hsl
    have hj := hinode j hsj
    have hl := hinode l hsl
    have hinj := hb.owner_inj j l (htaken j htj hsj) (htaken l htl hsl) hj0 hl0
    rw [hj] at hsj ⊢
    rw [hl] at hsl ⊢
    exact hinj hsj hsl

/-- The directory is decided by its entries, by what is taken and by the
types of the inodes. -/
theorem Directory.congr (hd : Directory s) (hf : Frame s t)
    (htaken : ∀ i, t.Taken i ↔ s.Taken i)
    (htype : ∀ i, s.Taken i → (t.inode i).iNodeType = (s.inode i).iNodeType)
    (hnum : ∀ k, k < s.maxDirEntries → t.dInumber k = s.dInumber k)
    (hname : ∀ k, k < s.maxDirEntries → t.dName k = s.dName k) : Directory t := by
  have hlive : ∀ {k}, t.Live k ↔ s.Live k := by
    intro k
    unfold Live
    rw [maxDirEntries, blockSize, hf.fsParams]
    exact and_congr_right fun hk => by rw [hnum k hk]
  constructor
  case file_type =>
    intro i ht hi0
    have ht := (htaken i).mp ht
    rw [htype i ht]
    exact hd.file_type i ht hi0
  case live_inode =>
    intro k hl
    have hl := hlive.mp hl
    obtain ⟨i, hi, hi0, ht⟩ := hd.live_inode k hl
    exact ⟨i, (hnum k hl.1).trans hi, hi0, (htaken i).mpr ht⟩
  case live_name =>
    intro k hl
    have hl := hlive.mp hl
    rw [hname k hl.1]
    exact hd.live_name k hl
  case inumber_inj =>
    intro k k' hl hl'
    have hl := hlive.mp hl
    have hl' := hlive.mp hl'
    rw [hnum k hl.1, hnum k' hl'.1]
    exact hd.inumber_inj k k' hl hl'
  case name_inj =>
    intro k k' hl hl'
    have hl := hlive.mp hl
    have hl' := hlive.mp hl'
    rw [hname k hl.1, hname k' hl'.1]
    exact hd.name_inj k k' hl hl'
  case taken_live =>
    intro i ht hi0
    obtain ⟨k, hl, hi⟩ := hd.taken_live i ((htaken i).mp ht) hi0
    exact ⟨k, hlive.mpr hl, (hnum k hl.1).trans hi⟩
  case live_lt => exact fun k hl => hd.live_lt k (hlive.mp hl)
  case used =>
    intro k k' hl hlt hfree
    have hl := hlive.mp hl
    rw [hname k' (hlt.trans hl.1)]
    exact hd.used k k' hl hlt fun hl' => hfree (hlive.mpr hl')

/-! ## Updates of the open file table -/

theorem Inv.lt_of_held (hinv : Inv s) (hi : s.Held i) :
    i < s.inodeTableSize ∧ i < s.inodeTable.size := by
  obtain ⟨hne, ht | ⟨h, ho, hf⟩⟩ := hi
  · exact ⟨ht.1, (hinv.bounds.taken_lt i ht).2⟩
  · obtain ⟨j, hj, -, hlt⟩ := hinv.bounds.open_inode h ho
    rw [hj] at hf
    obtain rfl : j = i := Int.ofNat_inj.mp hf
    exact hlt

/-- The inode an open handle refers to is held. -/
theorem Inv.held_of_open (hinv : Inv s) (ho : s.Open h) :
    ∃ i : Nat, (s.file h).ofInumber = i ∧ s.Held i := by
  obtain ⟨i, hi, hne, -⟩ := hinv.bounds.open_inode h ho
  exact ⟨i, hi, hne, .inr ⟨h, ho, hi⟩⟩

theorem Inv.handles (hinv : Inv s) {entries : Region AllocationState}
    {files : Region OpenFileEntry} (hentries : entries.size = s.freeOpenFileEntries.size)
    (hfiles : files.size = s.openFileTable.size)
    (hopen : ∀ h, h < s.maxOpenFiles → entries.get h = .taken →
      h < files.size ∧ ∃ i : Nat, (files.get h).ofInumber = i ∧ s.Held i) :
    Inv { s with freeOpenFileEntries := entries, openFileTable := files } := by
  have hheld : ∀ i, Held { s with freeOpenFileEntries := entries, openFileTable := files } i →
      s.Held i := by
    rintro i ⟨hne, ht | ⟨h, ho, hf⟩⟩
    · exact ⟨hne, .inl ht⟩
    · obtain ⟨-, j, hj, hheld⟩ := hopen h ho.1 ho.2
      have hj' : (j : Int) = i := hj.symm.trans hf
      obtain rfl : j = i := Int.ofNat_inj.mp hj'
      exact hheld
  have hframe : Frame s { s with freeOpenFileEntries := entries, openFileTable := files } := by
    constructor <;> simp [hentries, hfiles]
  constructor
  case base => exact hinv.base.frame hframe
  case bounds =>
    refine ⟨hinv.bounds.taken_lt, hinv.bounds.block_lt, ?_, ?_⟩
    · exact fun h ho => (hopen h ho.1 ho.2).1
    · intro h ho
      obtain ⟨-, i, hi, hheld⟩ := hopen h ho.1 ho.2
      exact ⟨i, hi, hheld.1, hinv.lt_of_held hheld⟩
  case blocks =>
    apply hinv.blocks.mono hframe
    · exact fun i hi => hinv.blocks.not_root i (hheld i hi)
    · exact fun _ _ => rfl
    · exact fun i hi _ => hheld i hi
    · exact fun _ ht _ => ht
    · exact fun _ _ _ _ _ _ hb => hb
  case dir =>
    exact hinv.dir.congr hframe (fun _ => Iff.rfl) (fun _ _ => rfl) (fun _ _ => rfl)
      fun _ _ => rfl

theorem Inv.openHandle (hinv : Inv s) (hh : h < s.openFileTable.size) (hi : s.Held i) :
    Inv (s.openHandle h i off) := by
  refine hinv.handles rfl rfl fun h' hlt ht => ?_
  by_cases heq : h' = h
  · subst heq
    exact ⟨hh, i, by simp, hi⟩
  · rw [Region.set_get_ne _ _ heq] at ht
    obtain ⟨j, hj, hheld⟩ := hinv.held_of_open ⟨hlt, ht⟩
    exact ⟨hinv.bounds.open_lt h' ⟨hlt, ht⟩, j, by rw [Region.set_get_ne _ _ heq]; exact hj, hheld⟩

theorem Inv.closeHandle (hinv : Inv s) : Inv (s.closeHandle h) := by
  refine hinv.handles rfl rfl fun h' hlt ht => ?_
  rw [Region.set_get] at ht
  split at ht
  · cases ht
  · exact ⟨hinv.bounds.open_lt h' ⟨hlt, ht⟩, hinv.held_of_open ⟨hlt, ht⟩⟩

theorem Inv.seekHandle (hinv : Inv s) : Inv (s.seekHandle h off) := by
  refine hinv.handles rfl rfl fun h' hlt ht => ?_
  obtain ⟨j, hj, hheld⟩ := hinv.held_of_open ⟨hlt, ht⟩
  exact ⟨hinv.bounds.open_lt h' ⟨hlt, ht⟩, j, by rw [← hj]; exact seekHandle_inumber, hheld⟩

/-! ## Updates of the inode table and the block map -/

/-- An empty inode takes part in no ownership. -/
theorem Blocks.fresh (hb : Blocks s) (hf : Frame s t) (hblocks : t.freeBlocks = s.freeBlocks)
    (hself : t.inode i = ⟨.tFile, 0, -1⟩) (hother : ∀ j, j ≠ i → t.inode j = s.inode j)
    (hheld : ∀ j, j ≠ i → t.Held j → s.Held j) (htaken : ∀ j, j ≠ i → t.Taken j → s.Taken j) :
    Blocks t := by
  have hne : ∀ {j}, 0 < (t.inode j).iSize → j ≠ i := by
    intro j hsz hj
    rw [hj, hself] at hsz
    cases hsz
  apply hb.mono hf
  · intro j hj
    by_cases hji : j = i
    · rw [hji, hself]
      decide
    · rw [hother j hji]
      exact hb.not_root j (hheld j hji hj)
  · exact fun j hsz => hother j (hne hsz)
  · exact fun j hj hsz => hheld j (hne hsz) hj
  · exact fun j ht hsz => htaken j (hne hsz) ht
  · intro j b _ _ _ _ hbt
    rw [hblocks]
    exact hbt

theorem Inv.resetInode (hinv : Inv s) (hfree : s.freeinodeTs.get i = .free) :
    Inv (s.resetInode i) := by
  have hnt : ∀ {j}, s.Taken j → j ≠ i := by
    intro j ht hj
    rw [← hj, ht.2] at hfree
    cases hfree
  have hframe : Frame s (s.resetInode i) := frame_resetInode (hnt hinv.base.root_taken).symm
  have hother : ∀ j, j ≠ i → (s.resetInode i).inode j = s.inode j := fun _ hj =>
    Region.set_get_ne _ _ hj
  constructor
  case base => exact hinv.base.frame hframe
  case bounds =>
    exact hinv.bounds.mono hframe (fun _ ht => .inl ht) (fun _ hb => .inl hb)
      fun _ ho => ⟨ho, rfl⟩
  case blocks =>
    exact hinv.blocks.fresh hframe rfl (Region.set_get_self ..) hother (fun _ _ hj => hj)
      fun _ _ ht => ht
  case dir =>
    refine hinv.dir.congr hframe (fun _ => Iff.rfl) ?_ (fun _ _ => rfl) fun _ _ => rfl
    intro j ht
    rw [hother j (hnt ht)]

/-- A file that another inode's block is not shared with, in the sense of
`Blocks.owner_inj`. -/
theorem Inv.block_ne (hinv : Inv s) (hi : s.Taken i) (hj : s.Taken j) (hi0 : i ≠ 0) (hj0 : j ≠ 0)
    (hij : j ≠ i) (hsz : 0 < (s.inode j).iSize) (hb : (s.inode j).iDataBlock = (b : Nat)) :
    0 < (s.inode i).iSize → (s.inode i).iDataBlock ≠ b := fun hpos heq =>
  hij (hinv.blocks.owner_inj j i hj hi hj0 hi0 hsz hpos (by rw [hb, heq]))

/-- The blocks of other files survive the release of a block. -/
theorem Inv.releaseBlock_kept (hinv : Inv s) (hi : s.Taken i) (hi0 : i ≠ 0) (hj : s.Taken j)
    (hj0 : j ≠ 0) (hij : j ≠ i) (hsz : 0 < (s.inode j).iSize)
    (hb : (s.inode j).iDataBlock = (b : Nat)) (ht : s.freeBlocks.get b = .taken) :
    (s.releaseBlock i).get b = .taken := by
  rw [releaseBlock_get_of_ne (hinv.block_ne hi hj hi0 hj0 hij hsz hb)
    (hinv.blocks.held i ⟨hi0, .inl hi⟩)]
  exact ht

theorem Inv.truncate (hinv : Inv s) (hi : s.Taken i) (hne : i ≠ 0) : Inv (s.truncate i) := by
  have hframe : Frame s (s.truncate i) := frame_truncate hne (hinv.blocks.held i ⟨hne, .inl hi⟩)
  have hself : (s.truncate i).inode i = { s.inode i with iSize := 0 } := Region.set_get_self ..
  have hother : ∀ {j}, j ≠ i → (s.truncate i).inode j = s.inode j := fun hj =>
    Region.set_get_ne _ _ hj
  have hfilled : ∀ {j}, 0 < ((s.truncate i).inode j).iSize → j ≠ i := by
    intro j hsz hj
    rw [hj, hself] at hsz
    cases hsz
  constructor
  case base => exact hinv.base.frame hframe
  case bounds =>
    refine hinv.bounds.mono hframe (fun _ ht => .inl ht) ?_ fun _ ho => ⟨ho, rfl⟩
    exact fun b hb => .inl ⟨hb.1, releaseBlock_taken hb.2⟩
  case blocks =>
    apply hinv.blocks.mono hframe
    · intro j hj
      by_cases hji : j = i
      · rw [hji, hself]
        rw [hji] at hj
        exact hinv.blocks.not_root i hj
      · rw [hother hji]
        exact hinv.blocks.not_root j hj
    · exact fun j hsz => hother (hfilled hsz)
    · exact fun _ hj _ => hj
    · exact fun _ ht _ => ht
    · intro j b ht hj0 hsz hb hbt
      have hji := hfilled hsz
      rw [hother hji] at hsz
      exact hinv.releaseBlock_kept hi hne ht hj0 hji hsz hb hbt
  case dir =>
    refine hinv.dir.congr hframe (fun _ => Iff.rfl) ?_ (fun _ _ => rfl) fun _ _ => rfl
    intro j _
    by_cases hji : j = i
    · rw [hji, hself]
    · rw [hother hji]

/-! ## Creating and removing a file -/

theorem firstFreeInode_free (hf : s.firstFreeInode = some i) :
    i < s.inodeTableSize ∧ s.freeinodeTs.get i = .free := by
  obtain ⟨hi, hfree, -⟩ := find_range_eq_some.mp hf
  exact ⟨hi, by simpa using hfree⟩

theorem slotFor_eq_some (hk : s.slotFor name = some k) :
    name.length < maxFileName ∧ k < s.maxDirEntries ∧ ¬ s.Live k ∧ ∀ k' < k, s.Live k' := by
  rw [slotFor] at hk
  split at hk
  · rename_i hlen
    obtain ⟨hlt, hfree, hbefore⟩ := find_range_eq_some.mp hk
    refine ⟨hlen, hlt, fun hlive => hlive.2 (by simpa using hfree), fun k' hk' => ?_⟩
    exact ⟨by omega, by simpa using hbefore k' hk'⟩
  · cases hk

/-- The entry a new file gets is below `INT_MAX + 1`. -/
theorem Inv.slot_lt (hinv : Inv s) (hk : s.slotFor name = some k) : k < intIndices := by
  obtain ⟨-, -, -, hlive⟩ := slotFor_eq_some hk
  refine lt_of_inj_below (fun j => (s.dInumber j).toNat) (by decide) ?_ ?_
  · intro j hj
    obtain ⟨i, hi, hne, ht⟩ := hinv.dir.live_inode j (hlive j hj)
    have := (hinv.bounds.taken_lt i ht).1
    simp only [hi, Int.toNat_natCast, intIndices]
    omega
  · intro j hj j' hj' heq
    obtain ⟨i, hi, -⟩ := hinv.dir.live_inode j (hlive j hj)
    obtain ⟨i', hi', -⟩ := hinv.dir.live_inode j' (hlive j' hj')
    refine hinv.dir.inumber_inj j j' (hlive j hj) (hlive j' hj') ?_
    simp only [hi, hi', Int.toNat_natCast] at heq
    rw [hi, hi', heq]

theorem Directory.create (hd : Directory s) (hfree : s.firstFreeInode = some i)
    (hi : i < 2147483648) (hi0 : i ≠ 0) (hk : s.slotFor name = some k) (hkint : k < intIndices)
    (h0 : 0 ∉ name) (hnil : name ≠ []) (hnew : s.find name = none) :
    Directory (s.create i k name) := by
  obtain ⟨hiT, hfree⟩ := firstFreeInode_free hfree
  obtain ⟨hlen, hklt, hkfree, hbefore⟩ := slotFor_eq_some hk
  have hnames := find_eq_none.mp hnew
  have htaken : ∀ {j}, (s.create i k name).Taken j ↔ j = i ∨ s.Taken j := create_taken hiT
  have hlive : ∀ {k'}, (s.create i k name).Live k' ↔ k' = k ∨ s.Live k' := create_live hklt hi
  have hkn : ∀ {k'}, s.Live k' → k' ≠ k := by
    intro k' hl hkk
    rw [hkk] at hl
    exact hkfree hl
  have hnum : (s.create i k name).dInumber k = i := create_dInumber_self hi
  have hname : (s.create i k name).dName k = name := create_dName_self h0 hlen
  have hnumi : ∀ k', s.Live k' → s.dInumber k' ≠ i := by
    intro k' hl heq
    obtain ⟨j, hj, -, ht⟩ := hd.live_inode k' hl
    obtain rfl : j = i := Int.ofNat_inj.mp (hj.symm.trans heq)
    rw [ht.2] at hfree
    cases hfree
  constructor
  case file_type =>
    intro j ht hj0
    by_cases hji : j = i
    · rw [hji, create_inode_self]
    · rw [create_inode_ne hji]
      exact hd.file_type j ((htaken.mp ht).resolve_left hji) hj0
  case live_inode =>
    intro k' hl
    rcases hlive.mp hl with rfl | hl
    · exact ⟨i, hnum, hi0, htaken.mpr (.inl rfl)⟩
    · obtain ⟨j, hj, hj0, ht⟩ := hd.live_inode k' hl
      rw [create_dInumber_ne (hkn hl)]
      exact ⟨j, hj, hj0, htaken.mpr (.inr ht)⟩
  case live_name =>
    intro k' hl
    rcases hlive.mp hl with rfl | hl
    · rw [hname]
      exact ⟨hnil, hlen⟩
    · rw [create_dName_ne (hkn hl)]
      exact hd.live_name k' hl
  case inumber_inj =>
    intro k₁ k₂ h1 h2
    rcases hlive.mp h1 with rfl | l1
    · rcases hlive.mp h2 with rfl | l2
      · exact fun _ => rfl
      · rw [hnum, create_dInumber_ne (hkn l2)]
        exact fun heq => absurd heq.symm (hnumi k₂ l2)
    · rcases hlive.mp h2 with rfl | l2
      · rw [hnum, create_dInumber_ne (hkn l1)]
        exact fun heq => absurd heq (hnumi k₁ l1)
      · rw [create_dInumber_ne (hkn l1), create_dInumber_ne (hkn l2)]
        exact hd.inumber_inj k₁ k₂ l1 l2
  case name_inj =>
    intro k₁ k₂ h1 h2
    rcases hlive.mp h1 with rfl | l1
    · rcases hlive.mp h2 with rfl | l2
      · exact fun _ => rfl
      · rw [hname, create_dName_ne (hkn l2)]
        exact fun heq => absurd heq.symm (hnames k₂ l2)
    · rcases hlive.mp h2 with rfl | l2
      · rw [hname, create_dName_ne (hkn l1)]
        exact fun heq => absurd heq (hnames k₁ l1)
      · rw [create_dName_ne (hkn l1), create_dName_ne (hkn l2)]
        exact hd.name_inj k₁ k₂ l1 l2
  case taken_live =>
    intro j ht hj0
    rcases htaken.mp ht with rfl | ht
    · exact ⟨k, hlive.mpr (.inl rfl), hnum⟩
    · obtain ⟨k', hl, hj⟩ := hd.taken_live j ht hj0
      exact ⟨k', hlive.mpr (.inr hl), by rw [create_dInumber_ne (hkn hl)]; exact hj⟩
  case live_lt =>
    intro k' hl
    rcases hlive.mp hl with rfl | hl
    · exact hkint
    · exact hd.live_lt k' hl
  case used =>
    intro k₁ k₂ h1 hlt2 h2
    have h2' : k₂ ≠ k ∧ ¬ s.Live k₂ := by
      constructor
      · exact fun heq => h2 (hlive.mpr (.inl heq))
      · exact fun hl => h2 (hlive.mpr (.inr hl))
    rw [create_dName_ne h2'.1]
    rcases hlive.mp h1 with rfl | h1
    · exact absurd (hbefore k₂ hlt2) h2'.2
    · exact hd.used k₁ k₂ h1 hlt2 h2'.2

theorem Inv.create (hinv : Inv s) (hfree : s.firstFreeInode = some i) (hi : i < 2147483648)
    (hlt : i < s.inodeTable.size) (hk : s.slotFor name = some k) (h0 : 0 ∉ name)
    (hnil : name ≠ []) (hnew : s.find name = none) : Inv (s.create i k name) := by
  have hne := hinv.base.ne_root hfree
  have hframe : Frame s (s.create i k name) := frame_create hne k name
  have htaken : ∀ {j}, (s.create i k name).Taken j ↔ j = i ∨ s.Taken j :=
    create_taken (firstFreeInode_free hfree).1
  have hold : ∀ j, j ≠ i → (s.create i k name).Taken j → s.Taken j := fun _ hji ht =>
    (htaken.mp ht).resolve_left hji
  constructor
  case base => exact hinv.base.frame hframe
  case bounds =>
    refine hinv.bounds.mono hframe ?_ (fun _ hb => .inl hb) fun _ ho => ⟨ho, rfl⟩
    intro j ht
    rcases htaken.mp ht with rfl | ht
    · exact .inr ⟨hi, hlt⟩
    · exact .inl ht
  case blocks =>
    refine hinv.blocks.fresh hframe rfl create_inode_self (fun _ => create_inode_ne) ?_ hold
    exact fun j hji hj => ⟨hj.1, hj.2.imp (hold j hji) id⟩
  case dir => exact hinv.dir.create hfree hi hne hk (hinv.slot_lt hk) h0 hnil hnew

theorem Directory.remove (hd : Directory s) (hk : s.Live k) (hi : s.dInumber k = i) :
    Directory (s.remove i k) := by
  have htaken : ∀ {j}, (s.remove i k).Taken j ↔ j ≠ i ∧ s.Taken j := remove_taken
  have hlive : ∀ {k'}, (s.remove i k).Live k' ↔ k' ≠ k ∧ s.Live k' := remove_live
  constructor
  case file_type => exact fun j hj => hd.file_type j (htaken.mp hj).2
  case live_inode =>
    intro k' hlk
    obtain ⟨hk', hl⟩ := hlive.mp hlk
    obtain ⟨j, hj, hj0, htj⟩ := hd.live_inode k' hl
    rw [remove_dInumber_ne hk']
    refine ⟨j, hj, hj0, htaken.mpr ⟨fun heq => hk' ?_, htj⟩⟩
    exact hd.inumber_inj k' k hl hk (by rw [hj, hi, heq])
  case live_name =>
    intro k' hl
    obtain ⟨hk', hl⟩ := hlive.mp hl
    rw [remove_dName_ne hk']
    exact hd.live_name k' hl
  case inumber_inj =>
    intro k₁ k₂ h1 h2
    rw [remove_dInumber_ne (hlive.mp h1).1, remove_dInumber_ne (hlive.mp h2).1]
    exact hd.inumber_inj k₁ k₂ (hlive.mp h1).2 (hlive.mp h2).2
  case name_inj =>
    intro k₁ k₂ h1 h2
    rw [remove_dName_ne (hlive.mp h1).1, remove_dName_ne (hlive.mp h2).1]
    exact hd.name_inj k₁ k₂ (hlive.mp h1).2 (hlive.mp h2).2
  case taken_live =>
    intro j hj hj0
    obtain ⟨hji, hj⟩ := htaken.mp hj
    obtain ⟨k', hl, hnum⟩ := hd.taken_live j hj hj0
    have hk' : k' ≠ k := by
      intro heq
      rw [heq] at hnum
      exact hji (Int.ofNat_inj.mp (hnum.symm.trans hi))
    exact ⟨k', hlive.mpr ⟨hk', hl⟩, by rw [remove_dInumber_ne hk']; exact hnum⟩
  case live_lt => exact fun k' hl => hd.live_lt k' (hlive.mp hl).2
  case used =>
    intro k₁ k₂ h1 hlt h2
    by_cases hk2 : k₂ = k
    · rw [hk2]
      exact remove_dName_self
    · rw [remove_dName_ne hk2]
      exact hd.used k₁ k₂ (hlive.mp h1).2 hlt fun hl => h2 (hlive.mpr ⟨hk2, hl⟩)

theorem Inv.remove (hinv : Inv s) (hk : s.Live k) (hi : s.dInumber k = i) :
    Inv (s.remove i k) := by
  obtain ⟨i', hi', hne, ht⟩ := hinv.dir.live_inode k hk
  obtain rfl : i' = i := Int.ofNat_inj.mp (hi'.symm.trans hi)
  have hframe : Frame s (s.remove i' k) :=
    frame_remove hne k (hinv.blocks.held i' ⟨hne, .inl ht⟩)
  have htaken : ∀ {j}, (s.remove i' k).Taken j ↔ j ≠ i' ∧ s.Taken j := remove_taken
  have hheld : ∀ j, (s.remove i' k).Held j → s.Held j := fun _ => remove_held
  constructor
  case base => exact hinv.base.frame hframe
  case bounds =>
    refine hinv.bounds.mono hframe ?_ ?_ fun _ ho => ⟨ho, rfl⟩
    · exact fun _ ht => .inl (htaken.mp ht).2
    · exact fun _ hb => .inl ⟨hb.1, releaseBlock_taken hb.2⟩
  case blocks =>
    apply hinv.blocks.mono hframe
    · exact fun j hj => hinv.blocks.not_root j (hheld j hj)
    · exact fun _ _ => rfl
    · exact fun j hj _ => hheld j hj
    · exact fun _ ht _ => (htaken.mp ht).2
    · intro j b hj hj0 hsz hb hbt
      obtain ⟨hji, hj⟩ := htaken.mp hj
      exact hinv.releaseBlock_kept ht hne hj hj0 hji hsz hb hbt
  case dir => exact hinv.dir.remove hk hi

/-! ## Writes -/

/-- The block a write goes to is the block of the file, or a free one. -/
theorem Inv.block_of_write (hinv : Inv s) (hw : s.Writes h i b off n) :
    (s.inode i).iSize = 0 ∧ s.freeBlocks.get b = .free ∨
      0 < (s.inode i).iSize ∧ (s.inode i).iDataBlock = b := by
  have hb := hw.block
  rw [blockFor] at hb
  split at hb
  · rename_i hsz
    obtain ⟨-, hfree, -⟩ := find_range_eq_some.mp hb
    exact .inl ⟨hsz, by simpa using hfree⟩
  · obtain ⟨b', hbl⟩ := hinv.blocks.held i ⟨hw.ne_root, .inr ⟨h, hw.opened, by rw [hw.file_eq]⟩⟩
      (by omega)
    have := Option.some.inj hb
    rw [hbl.eq] at this
    exact .inr ⟨by omega, by rw [hbl.eq, ← this]; rfl⟩

/-- The block a write goes to is no other file's. -/
theorem Inv.block_of_write_ne (hinv : Inv s) (hw : s.Writes h i b off n) (hj : s.Taken j)
    (hj0 : j ≠ 0) (hji : j ≠ i) (hsz : 0 < (s.inode j).iSize) (hi : s.Taken i) :
    (s.inode j).iDataBlock ≠ (b : Int) := by
  intro hjb
  rcases hinv.block_of_write hw with ⟨-, hfree⟩ | ⟨hsz', hib⟩
  · have htaken := (hinv.blocks.owner_taken j b hj hj0 hsz hjb).2
    rw [hfree] at htaken
    cases htaken
  · exact hji (hinv.blocks.owner_inj j i hj hi hj0 hw.ne_root hsz hsz' (by rw [hjb, hib]))

theorem Inv.blocks_writeAt (hinv : Inv s) (hw : s.Writes h i b off n) (buffer : Nat → UInt8) :
    Blocks (s.writeAt h i b off n buffer) := by
  have hframe : Frame s (s.writeAt h i b off n buffer) := frame_writeAt h hw.ne_root b off n buffer
  have hself : (s.writeAt h i b off n buffer).inode i =
    { s.inode i with iDataBlock := b, iSize := max (s.inode i).iSize (off + n) } :=
    writeAt_inode_self
  have hother : ∀ {j}, j ≠ i → (s.writeAt h i b off n buffer).inode j = s.inode j :=
    writeAt_inode_ne
  have hheld : ∀ {j}, (s.writeAt h i b off n buffer).Held j → s.Held j := writeAt_held
  constructor
  case not_root =>
    intro j hj
    by_cases hji : j = i
    · rw [hji, hself]
      exact Int.natCast_ne_zero.mpr hw.block_ne
    · rw [hother hji]
      exact hinv.blocks.not_root j (hheld hj)
  case held =>
    intro j hj hsz
    by_cases hji : j = i
    · have haddr := hw.addr_le
      have hpos := hw.pos
      refine ⟨b, ⟨by rw [hji, hself], hw.block_ne, hw.int, hw.valid, ?_, ?_⟩⟩
      · show b * s.blockSize < s.fsData.size
        omega
      · rw [hji, hself]
        refine Nat.max_le.mpr ⟨?_, hw.le_block⟩
        by_cases hz : (s.inode i).iSize = 0
        · rw [hz]
          exact Nat.zero_le _
        · obtain ⟨b', hb'⟩ := hinv.blocks.held i (by rw [← hji]; exact hheld hj) (by omega)
          exact hb'.size_le
    · rw [hother hji] at hsz
      obtain ⟨b', hb'⟩ := hinv.blocks.held j (hheld hj) hsz
      exact ⟨b', hb'.frame hframe (hother hji)⟩
  case owner_taken =>
    intro j b' ht hj0 hsz hb'
    by_cases hji : j = i
    · rw [hji, hself] at hb'
      obtain rfl : b = b' := Int.ofNat_inj.mp hb'
      refine ⟨hw.valid, ?_⟩
      show (s.acquireBlock i b).get b = .taken
      rcases hinv.block_of_write hw with ⟨hz, -⟩ | ⟨hsz', hbi⟩
      · rw [acquireBlock, if_pos hz, Region.set_get_self]
      · rw [acquireBlock, if_neg (by omega)]
        exact (hinv.blocks.owner_taken i b (by rw [← hji]; exact ht) hw.ne_root hsz' hbi).2
    · rw [hother hji] at hsz hb'
      obtain ⟨hlt, htk⟩ := hinv.blocks.owner_taken j b' ht hj0 hsz hb'
      exact ⟨hlt, acquireBlock_get_of_taken htk⟩
  case owner_inj =>
    intro j l htj htl hj0 hl0 hsj hsl
    by_cases hji : j = i
    · by_cases hli : l = i
      · intro _
        rw [hji, hli]
      · rw [hother hli] at hsl ⊢
        rw [hji, hself]
        rw [hji] at htj
        exact fun heq => absurd heq.symm (hinv.block_of_write_ne hw htl hl0 hli hsl htj)
    · rw [hother hji] at hsj ⊢
      by_cases hli : l = i
      · rw [hli, hself]
        rw [hli] at htl
        exact fun heq => absurd heq (hinv.block_of_write_ne hw htj hj0 hji hsj htl)
      · rw [hother hli] at hsl ⊢
        exact hinv.blocks.owner_inj j l htj htl hj0 hl0 hsj hsl

theorem Inv.writeAt (hinv : Inv s) (hw : s.Writes h i b off n) (buffer : Nat → UInt8) :
    Inv (s.writeAt h i b off n buffer) := by
  have hframe : Frame s (s.writeAt h i b off n buffer) := frame_writeAt h hw.ne_root b off n buffer
  constructor
  case base => exact hinv.base.frame hframe
  case bounds =>
    have haddr := hw.addr_le
    have hpos := hw.pos
    refine hinv.bounds.mono hframe (fun _ ht => .inl ht) ?_ fun _ ho => ⟨ho, writeAt_inumber⟩
    intro b' hb'
    rcases acquireBlock_taken hb'.2 with rfl | htk
    · exact .inr ⟨hw.int, by omega⟩
    · exact .inl ⟨hb'.1, htk⟩
  case blocks => exact hinv.blocks_writeAt hw buffer
  case dir =>
    refine hinv.dir.congr hframe (fun _ => Iff.rfl) ?_ (fun k => writeAt_dInumber hw.block_ne)
      fun k => writeAt_dName hw.block_ne
    intro j _
    by_cases hji : j = i
    · rw [hji, writeAt_inode_self]
    · rw [writeAt_inode_ne hji]

/-! ## What a call does to the state -/

/-- The updates the calls are made of, each with what holds when it is made. -/
inductive Update (s : Tfs) : Tfs → Prop
  | resetInode {i : Nat} (hi : s.firstFreeInode = some i) : Update s (s.resetInode i)
  | create {i k : Nat} {name : List UInt8} (hi : s.firstFreeInode = some i)
      (hint : i < 2147483648) (hlt : i < s.inodeTable.size) (hk : s.slotFor name = some k)
      (h0 : 0 ∉ name) (hnil : name ≠ []) (hnew : s.find name = none) :
      Update s (s.create i k name)
  | truncate {i : Nat} (ht : s.Taken i) (hi : i ≠ 0) : Update s (s.truncate i)
  | openHandle {h i off : Nat} (hh : s.firstFreeHandle = some h)
      (hlt : h < s.openFileTable.size) (ht : s.Taken i) (hi : i ≠ 0) :
      Update s (s.openHandle h i off)
  | closeHandle {h : Nat} (ho : s.Open h) : Update s (s.closeHandle h)
  | seekHandle {h off : Nat} (ho : s.Open h) : Update s (s.seekHandle h off)
  | writeAt {h i b off n : Nat} (hw : s.Writes h i b off n) (buffer : Nat → UInt8) :
      Update s (s.writeAt h i b off n buffer)
  | remove {k i : Nat} (hk : s.Live k) (hi : s.dInumber k = i) : Update s (s.remove i k)

/-- The step lemma: each update keeps the invariant. -/
theorem Inv.update (hinv : Inv s) (hu : Update s t) : Inv t := by
  cases hu with
  | resetInode hi => exact hinv.resetInode (firstFreeInode_free hi).2
  | create hi hint hlt hk h0 hnil hnew => exact hinv.create hi hint hlt hk h0 hnil hnew
  | truncate ht hi => exact hinv.truncate ht hi
  | openHandle hh hlt ht hi => exact hinv.openHandle hlt ⟨hi, .inl ht⟩
  | closeHandle ho => exact hinv.closeHandle
  | seekHandle ho => exact hinv.seekHandle
  | writeAt hw buffer => exact hinv.writeAt hw buffer
  | remove hk hi => exact hinv.remove hk hi

theorem Inv.update_frame (hinv : Inv s) (hu : Update s t) : Frame s t := by
  cases hu with
  | resetInode hi => exact frame_resetInode (hinv.base.ne_root hi)
  | create hi => exact frame_create (hinv.base.ne_root hi) _ _
  | truncate ht hi => exact frame_truncate hi (hinv.blocks.held _ ⟨hi, .inl ht⟩)
  | openHandle => exact frame_openHandle _ _ _
  | closeHandle => exact frame_closeHandle _
  | seekHandle => exact frame_seekHandle _ _
  | writeAt hw buffer => exact frame_writeAt _ hw.ne_root _ _ _ _
  | @remove k i hk hi =>
      obtain ⟨j, hj, hne, ht⟩ := hinv.dir.live_inode k hk
      obtain rfl : j = i := Int.ofNat_inj.mp (hj.symm.trans hi)
      exact frame_remove hne k (hinv.blocks.held j ⟨hne, .inl ht⟩)

theorem Inv.updates (hinv : Inv s) (hu : Relation.ReflTransGen Update s t) : Inv t := by
  induction hu with
  | refl => exact hinv
  | tail _ hu ih => exact ih.update hu

/-- What a call of `tfs_open` that returns found and did. -/
inductive OpenResult (s : Tfs) (name : CString) (mode : Nat) : Int → Tfs → Prop
  | invalid (hv : ¬ validPathname name) : OpenResult s name mode (-1) s
  | existing {i h : Nat} (hv : validPathname name) (hf : s.find name.chars.tail = some i)
      (hh : s.firstFreeHandle = some h) (hlt : h < s.openFileTable.size) :
      OpenResult s name mode h ((s.truncated i mode).openHandle h i
        (if mode &&& tfsOAppend ≠ 0 then ((s.truncated i mode).inode i).iSize else 0))
  | existingFull {i : Nat} (hv : validPathname name) (hf : s.find name.chars.tail = some i)
      (hh : s.firstFreeHandle = none) : OpenResult s name mode (-1) (s.truncated i mode)
  | absent (hv : validPathname name) (hf : s.find name.chars.tail = none)
      (hc : mode &&& tfsOCreat = 0) : OpenResult s name mode (-1) s
  | noInode (hv : validPathname name) (hf : s.find name.chars.tail = none)
      (hc : mode &&& tfsOCreat ≠ 0) (hi : s.firstFreeInode = none) : OpenResult s name mode (-1) s
  | noEntry {i : Nat} (hv : validPathname name) (hf : s.find name.chars.tail = none)
      (hc : mode &&& tfsOCreat ≠ 0) (hi : s.firstFreeInode = some i)
      (hk : s.slotFor name.chars.tail = none) : OpenResult s name mode (-1) (s.resetInode i)
  | created {i k h : Nat} (hv : validPathname name) (hf : s.find name.chars.tail = none)
      (hc : mode &&& tfsOCreat ≠ 0) (hi : s.firstFreeInode = some i) (hint : i < 2147483648)
      (hlt : i < s.inodeTable.size) (hk : s.slotFor name.chars.tail = some k)
      (hh : s.firstFreeHandle = some h) (hsz : h < s.openFileTable.size) :
      OpenResult s name mode h ((s.create i k name.chars.tail).openHandle h i 0)
  | createdFull {i k : Nat} (hv : validPathname name) (hf : s.find name.chars.tail = none)
      (hc : mode &&& tfsOCreat ≠ 0) (hi : s.firstFreeInode = some i) (hint : i < 2147483648)
      (hlt : i < s.inodeTable.size) (hk : s.slotFor name.chars.tail = some k)
      (hh : s.firstFreeHandle = none) :
      OpenResult s name mode (-1) (s.create i k name.chars.tail)

theorem validPathname.tail_ne_nil {name : CString} (hv : validPathname name) :
    name.chars.tail ≠ [] := by
  intro hnil
  have hlen := congrArg List.length hnil
  rw [List.length_tail, List.length_nil] at hlen
  have := hv.1
  omega

theorem Base.addToOpenFileTable_cases {r : Int} (hb : Base s)
    (ha : addToOpenFileTable i off s = .ok (r, t)) :
    s.firstFreeHandle = none ∧ r = -1 ∧ t = s ∨
      ∃ h, s.firstFreeHandle = some h ∧ h < s.openFileTable.size ∧ r = h ∧
        t = s.openHandle h i off := by
  rw [hb.addToOpenFileTable_eq] at ha
  cases hh : s.firstFreeHandle with
  | none =>
      rw [hh] at ha
      obtain ⟨rfl, rfl⟩ := ok_pair_inj ha
      exact .inl ⟨rfl, rfl, rfl⟩
  | some h =>
      rw [hh] at ha
      dsimp only at ha
      by_cases hlt : h < s.openFileTable.size
      · rw [if_pos hlt] at ha
        obtain ⟨rfl, rfl⟩ := ok_pair_inj ha
        exact .inr ⟨h, rfl, hlt, rfl, rfl⟩
      · rw [if_neg hlt] at ha
        cases ha

theorem Tfs.truncated_cases (s : Tfs) (i mode : Nat) :
    s.truncated i mode = s ∨ s.truncated i mode = s.truncate i := by
  rw [truncated]
  split
  · exact .inr rfl
  · exact .inl rfl

theorem Inv.tfsOpen_ok {m : CString} {mode : Nat} {r : Int} (hinv : Inv s)
    (ho : tfsOpen m mode s = .ok (r, t)) : OpenResult s m mode r t := by
  rw [hinv.tfsOpen_eq] at ho
  by_cases hv : validPathname m
  · rw [if_neg (not_not_intro hv)] at ho
    cases hf : s.find m.chars.tail with
    | some i =>
        rw [hf] at ho
        have htr : (s.truncated i mode).firstFreeHandle = s.firstFreeHandle ∧
            (s.truncated i mode).openFileTable.size = s.openFileTable.size := by
          rcases s.truncated_cases i mode with heq | heq
          · rw [heq]
            exact ⟨rfl, rfl⟩
          · rw [heq]
            exact ⟨rfl, rfl⟩
        rcases (hinv.base.frame (hinv.frame_truncated hf mode)).addToOpenFileTable_cases ho with
          ⟨hh, rfl, rfl⟩ | ⟨h, hh, hlt, rfl, rfl⟩
        · exact .existingFull hv hf (by rw [← htr.1]; exact hh)
        · exact .existing hv hf (by rw [← htr.1]; exact hh) (by rw [← htr.2]; exact hlt)
    | none =>
        rw [hf] at ho
        dsimp only at ho
        by_cases hc : mode &&& tfsOCreat = 0
        · rw [if_pos hc] at ho
          obtain ⟨rfl, rfl⟩ := ok_pair_inj ho
          exact .absent hv hf hc
        · rw [if_neg hc] at ho
          cases hi : s.firstFreeInode with
          | none =>
              rw [hi] at ho
              obtain ⟨rfl, rfl⟩ := ok_pair_inj ho
              exact .noInode hv hf hc hi
          | some i =>
              rw [hi] at ho
              dsimp only at ho
              by_cases hlt : i < 2147483648 ∧ i < s.inodeTable.size
              · rw [if_pos hlt] at ho
                cases hk : s.slotFor m.chars.tail with
                | none =>
                    rw [hk] at ho
                    obtain ⟨rfl, rfl⟩ := ok_pair_inj ho
                    exact .noEntry hv hf hc hi hk
                | some k =>
                    rw [hk] at ho
                    have hb := hinv.base.frame
                      (frame_create (hinv.base.ne_root hi) k m.chars.tail)
                    rcases hb.addToOpenFileTable_cases ho with
                      ⟨hh, rfl, rfl⟩ | ⟨h, hh, hsz, rfl, rfl⟩
                    · exact .createdFull hv hf hc hi hlt.1 hlt.2 hk hh
                    · exact .created hv hf hc hi hlt.1 hlt.2 hk hh hsz
              · rw [if_neg hlt] at ho
                cases ho
  · rw [if_pos hv] at ho
    obtain ⟨rfl, rfl⟩ := ok_pair_inj ho
    exact .invalid hv

theorem truncated_taken {mode : Nat} : (s.truncated i mode).Taken j ↔ s.Taken j := by
  rcases s.truncated_cases i mode with heq | heq
  · rw [heq]
  · rw [heq]
    exact Iff.rfl

/-- The run lemma for `tfs_open`: it is a sequence of updates. -/
theorem Inv.open_updates {m : CString} {mode : Nat} {r : Int} (hinv : Inv s)
    (ho : OpenResult s m mode r t) : Relation.ReflTransGen Update s t := by
  have htrunc : ∀ {i : Nat}, s.find m.chars.tail = some i →
      Relation.ReflTransGen Update s (s.truncated i mode) := by
    intro i hf
    obtain ⟨hne, ht, -⟩ := hinv.of_find hf
    rcases s.truncated_cases i mode with heq | heq
    · rw [heq]
    · rw [heq]
      exact .single (.truncate ht hne)
  cases ho with
  | invalid => exact .refl
  | absent => exact .refl
  | noInode => exact .refl
  | existingFull _ hf => exact htrunc hf
  | @existing i h hv hf hh hlt =>
      obtain ⟨hne, ht, -⟩ := hinv.of_find hf
      refine (htrunc hf).tail (.openHandle ?_ ?_ (truncated_taken.mpr ht) hne)
      · rcases s.truncated_cases i mode with heq | heq
        · rw [heq]
          exact hh
        · rw [heq]
          exact hh
      · rcases s.truncated_cases i mode with heq | heq
        · rw [heq]
          exact hlt
        · rw [heq]
          exact hlt
  | noEntry _ _ _ hi => exact .single (.resetInode hi)
  | createdFull hv hf _ hi hint hlt hk =>
      exact .single (.create hi hint hlt hk m.zero_notMem_tail hv.tail_ne_nil hf)
  | created hv hf _ hi hint hlt hk hh hsz =>
      refine .tail (.single (.create hi hint hlt hk m.zero_notMem_tail hv.tail_ne_nil hf))
        (.openHandle hh hsz ?_ (hinv.base.ne_root hi))
      exact (create_taken (firstFreeInode_free hi).1).mpr (.inl rfl)

/-- **The step lemma of the calls**: a call that returns is a sequence of
updates. -/
theorem Inv.tfsCall_updates {c : TfsCall} {res : TfsResult} (hinv : Inv s)
    (hc : tfsCall s c = .ok (res, t)) : Relation.ReflTransGen Update s t := by
  cases c with
  | «open» m mode =>
      obtain ⟨ho, -⟩ := tfsCall_open.mp hc
      exact hinv.open_updates (hinv.tfsOpen_ok ho)
  | close fhandle =>
      obtain ⟨ho, -⟩ := tfsCall_close.mp hc
      rw [hinv.base.tfsClose_eq] at ho
      have ho := Except.ok.inj ho
      split at ho
      · rename_i hopen
        obtain ⟨-, rfl⟩ := Prod.mk.inj ho
        exact .single (.closeHandle hopen.2)
      · obtain ⟨-, rfl⟩ := Prod.mk.inj ho
        exact .refl
  | write fhandle buffer toWrite =>
      obtain ⟨ho, -⟩ := tfsCall_write.mp hc
      rcases hinv.tfsWrite_cases ho with rfl | ⟨h, i, b, off, rfl, hw, rfl⟩
      · exact .refl
      · exact .single (.writeAt hw buffer)
  | read fhandle len =>
      rcases hinv.tfsRead_cases hc with rfl | ⟨h, off, rfl, ho, -, rfl⟩
      · exact .refl
      · exact .single (.seekHandle ho)
  | unlink target =>
      obtain ⟨ho, -⟩ := tfsCall_unlink.mp hc
      rw [hinv.tfsUnlink_eq] at ho
      split at ho
      · obtain ⟨-, rfl⟩ := ok_pair_inj ho
        exact .refl
      · cases hk : s.findSlot target.chars.tail with
        | none =>
            rw [hk] at ho
            obtain ⟨-, rfl⟩ := ok_pair_inj ho
            exact .refl
        | some k =>
            rw [hk] at ho
            obtain ⟨-, rfl⟩ := ok_pair_inj ho
            obtain ⟨hlive, -⟩ := findSlot_eq_some hk
            obtain ⟨i, hi, -⟩ := hinv.dir.live_inode k hlive
            exact .single (.remove hlive (by rw [hi]; rfl))

theorem Inv.of_call {c : TfsCall} {res : TfsResult} (hinv : Inv s)
    (hc : tfsCall s c = .ok (res, t)) : Inv t :=
  hinv.updates (hinv.tfsCall_updates hc)

end MBroker
