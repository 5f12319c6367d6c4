import MBroker.Fs.Catalog
import MBroker.Fs.FlatStore
import MBroker.Fs.Leaks
import MBroker.Fs.Writes

/-!
# TécnicoFS refines the flat store

`Refines s f` relates the tables of `s` to the store `f`: the directory
maps each name to the file's bytes, the open handles agree, no handle is
past the end of its file, and no block is lost. Under it the limits of
the tables are counts of files: for inodes, entries and handles the
catalog says so already, and each TAKEN block but the root's belongs to
one name.

`Refines.call` is the simulation of one call and `refines_flatStore` that
of a run. The calls that unlink or truncate an open file are left out:
they leave handles past the end of a file, or on no file.
-/

namespace MBroker

open Tfs

variable {s t : Tfs} {f : FlatStore} {params : TfsParams} {h i j k b off n : Nat}
  {name name' : List UInt8} {buffer : Nat → UInt8}

/-! ## The relation -/

/-- The handles of `f` are the open handles of `s`; each refers to a file
that exists and is not past its end. -/
structure HandlesAgree (s : Tfs) (f : FlatStore) : Prop where
  closed : ∀ h, ¬ s.Open h → f.handles h = none
  opened : ∀ h, s.Open h → ∃ (name : List UInt8) (i off : Nat), f.handles h = some (name, off) ∧
    s.file h = ⟨i, off⟩ ∧ s.find name = some i ∧ off ≤ (s.inode i).iSize

/-- The tables of `s` represent the store `f`. -/
structure Refines (params : TfsParams) (s : Tfs) (f : FlatStore) : Prop where
  inv : Inv s
  sized : Sized params s
  files : ∀ name, f.files.lookup name = s.contents name
  handles : HandlesAgree s f
  noLeak : NoLeak s

theorem Refines.lookup_eq_some (hr : Refines params s f) {data : List UInt8} :
    f.files.lookup name = some data ↔ ∃ i, s.find name = some i ∧ s.fileBytes i = data := by
  rw [hr.files, contents, Option.map_eq_some_iff]

theorem Refines.lookup_of_find (hr : Refines params s f) (hf : s.find name = some i) :
    f.files.lookup name = some (s.fileBytes i) :=
  hr.lookup_eq_some.mpr ⟨i, hf, rfl⟩

theorem Refines.lookup_eq_none (hr : Refines params s f) :
    f.files.lookup name = none ↔ s.find name = none := by
  rw [hr.files, contents, Option.map_eq_none_iff]

theorem Refines.mem_keys (hr : Refines params s f) :
    name ∈ f.files.keys ↔ ∃ i, s.find name = some i := by
  rw [Finmap.mem_keys, Finmap.mem_iff]
  constructor
  · rintro ⟨data, hd⟩
    obtain ⟨i, hi, -⟩ := hr.lookup_eq_some.mp hd
    exact ⟨i, hi⟩
  · rintro ⟨i, hi⟩
    exact ⟨_, hr.lookup_of_find hi⟩

/-- What the store promises of a file: a name of 1 to 39 characters and
contents of at most a block. -/
theorem Refines.file_bounded (hr : Refines params s f) {data : List UInt8}
    (hd : f.files.lookup name = some data) :
    1 ≤ name.length ∧ name.length ≤ 39 ∧ data.length ≤ params.blockSize := by
  obtain ⟨i, hi, rfl⟩ := hr.lookup_eq_some.mp hd
  obtain ⟨k, hk, rfl, -⟩ := hr.inv.dir.find_eq_some.mp hi
  obtain ⟨hne, hlen⟩ := hr.inv.dir.live_name k hk
  obtain ⟨hi0, hti, -, hblock⟩ := hr.inv.of_find hi
  have hpos := List.length_pos_iff.mpr hne
  simp only [maxFileName] at hlen
  refine ⟨by omega, by omega, ?_⟩
  rw [fileBytes_length]
  by_cases hsz : 0 < (s.inode i).iSize
  · obtain ⟨b, hb⟩ := hblock hsz
    have hle := hb.size_le
    rwa [blockSize, hr.sized.params_eq] at hle
  · omega

/-- What the store promises of a handle: it is below the limit, and its
file exists. -/
theorem Refines.handle_bounded (hr : Refines params s f) {p : List UInt8 × Nat}
    (hp : f.handles h = some p) : h < params.maxOpenFilesCount ∧ p.1 ∈ f.files := by
  by_cases ho : s.Open h
  · obtain ⟨name, i, off, hh, -, hi, -⟩ := hr.handles.opened h ho
    rw [hh] at hp
    cases hp
    have hlt := ho.1
    rw [maxOpenFiles, hr.sized.params_eq] at hlt
    exact ⟨hlt, Finmap.mem_keys.mp (hr.mem_keys.mpr ⟨i, hi⟩)⟩
  · rw [hr.handles.closed h ho] at hp
    cases hp

theorem Refines.isOpen (hr : Refines params s f) (hh : f.handles h = some (name, off)) :
    f.IsOpen params name :=
  ⟨h, (hr.handle_bounded hh).1, by rw [hh]; rfl⟩

/-! ## The catalog -/

/-- The names in the directory are those of the store. -/
theorem Refines.names_eq (hr : Refines params s f) : s.catalog.names = f.files.keys := by
  ext name
  rw [mem_names hr.inv.dir, hr.mem_keys]

theorem Refines.mem_handles_iff (hr : Refines params s f) :
    h ∈ s.catalog.handles ↔ (f.handles h).isSome := by
  rw [mem_handles]
  by_cases ho : s.Open h
  · obtain ⟨name, i, off, hsome, -⟩ := hr.handles.opened h ho
    simp [ho, hsome]
  · simp [ho, hr.handles.closed h ho]

/-- The store has room for a file when the tables have. -/
theorem Refines.room_iff (hr : Refines params s f) :
    CreatPolicy.room params f name = true ↔
      s.firstFreeInode.isSome ∧ (s.slotFor name).isSome := by
  rw [← hr.inv.room_iff hr.sized, Catalog.Room, hr.names_eq, CreatPolicy.room, decide_eq_true_iff]
  exact Iff.rfl

/-- `tfs_open` and the store look for the same handle. -/
theorem Refines.freeHandle_eq (hr : Refines params s f) (hp : params.InRange) :
    s.firstFreeHandle = f.freeHandle params := by
  rw [← hr.sized.freeHandle_eq hp, Catalog.freeHandle, FlatStore.freeHandle]
  congr 1
  funext h
  have hmem := hr.mem_handles_iff (h := h)
  cases hh : f.handles h <;> simp [hmem, hh]

/-! ## The blocks -/

/-- Each TAKEN block but the root's belongs to one name with contents. -/
theorem Refines.card_blocks (hr : Refines params s f) :
    (indices s.dataBlocks s.BlockTaken).card = f.fullCount + 1 := by
  have hroot : 0 ∈ indices s.dataBlocks s.BlockTaken :=
    mem_indices.mpr ⟨hr.inv.base.root_block.1, hr.inv.base.root_block⟩
  have hfull : ∀ {name}, name ∈ f.files.keys.filter (fun n => f.files.lookup n ≠ some []) →
      ∃ i b : Nat, s.find name = some i ∧ s.Taken i ∧ i ≠ 0 ∧ 0 < (s.inode i).iSize ∧
        (s.inode i).iDataBlock = b ∧ b ≠ 0 := by
    intro name hn
    obtain ⟨hmem, hne⟩ := Finset.mem_filter.mp hn
    obtain ⟨i, hi⟩ := hr.mem_keys.mp hmem
    obtain ⟨hi0, ht, -, hblock⟩ := hr.inv.of_find hi
    have hsz : 0 < (s.inode i).iSize := by
      by_contra hz
      refine hne ?_
      rw [hr.lookup_of_find hi, fileBytes_of_empty (by omega)]
    obtain ⟨b, hb⟩ := hblock hsz
    exact ⟨i, b, hi, ht, hi0, hsz, hb.eq, hb.pos⟩
  rw [← Finset.card_erase_add_one hroot]
  congr 1
  symm
  refine Finset.card_bij
    (fun name _ => (s.inode ((s.find name).getD 0)).iDataBlock.toNat) ?_ ?_ ?_
  · intro name hn
    obtain ⟨i, b, hi, ht, hi0, hsz, hb, hb0⟩ := hfull hn
    have htaken := hr.inv.blocks.owner_taken i b ht hi0 hsz hb
    rw [hi, Option.getD_some, hb, Int.toNat_natCast]
    exact Finset.mem_erase.mpr ⟨hb0, mem_indices.mpr ⟨htaken.1, htaken⟩⟩
  · intro n₁ h1 n₂ h2 heq
    obtain ⟨i₁, b₁, hi1, ht1, h10, hsz1, hb1, -⟩ := hfull h1
    obtain ⟨i₂, b₂, hi2, ht2, h20, hsz2, hb2, -⟩ := hfull h2
    simp only [hi1, hi2, Option.getD_some, hb1, hb2, Int.toNat_natCast] at heq
    have hii := hr.inv.blocks.owner_inj i₁ i₂ ht1 ht2 h10 h20 hsz1 hsz2 (by rw [hb1, hb2, heq])
    rw [hii] at hi1
    exact hr.inv.dir.find_inj hi1 hi2
  · intro b hb
    obtain ⟨hb0, hb⟩ := Finset.mem_erase.mp hb
    obtain ⟨i, ht, hi0, hsz, hib⟩ := hr.noLeak b (mem_indices.mp hb).2 hb0
    obtain ⟨name, hn⟩ := hr.inv.dir.find_of_taken ht hi0
    refine ⟨name, Finset.mem_filter.mpr ⟨hr.mem_keys.mpr ⟨i, hn⟩, ?_⟩, ?_⟩
    · rw [hr.lookup_of_find hn]
      intro heq
      have hlen := congrArg List.length (Option.some.inj heq)
      rw [fileBytes_length, List.length_nil] at hlen
      omega
    · rw [hn, Option.getD_some, hib, Int.toNat_natCast]

theorem Refines.firstFreeBlock_isSome (hr : Refines params s f) :
    s.firstFreeBlock.isSome ↔ f.fullCount + 1 < params.maxBlockCount := by
  have hfind := find_isSome_iff (n := s.dataBlocks) (p := s.BlockTaken)
    fun b (hb : b < s.dataBlocks) =>
      show (s.freeBlocks.get b == .free) = true ↔ _ by
        cases hst : s.freeBlocks.get b <;> simp [BlockTaken, hb, hst]
  rw [firstFreeBlock, hfind, hr.card_blocks, dataBlocks, hr.sized.params_eq]

/-! ## Updates of both -/

/-- The handles still agree when only files change, as long as the open ones
stay and do not shrink. -/
theorem HandlesAgree.of_files {g : FlatStore} (ha : HandlesAgree s f)
    (hopen : ∀ h, t.Open h ↔ s.Open h) (hfile : ∀ h, t.file h = s.file h)
    (hhandles : g.handles = f.handles)
    (hfind : ∀ h name off i, f.handles h = some (name, off) → s.find name = some i →
      t.find name = some i ∧ (s.inode i).iSize ≤ (t.inode i).iSize) :
    HandlesAgree t g := by
  constructor
  · intro h ho
    rw [hhandles]
    exact ha.closed h fun hs => ho ((hopen h).mpr hs)
  · intro h ho
    obtain ⟨name, i, off, hh, hf, hi, hle⟩ := ha.opened h ((hopen h).mp ho)
    obtain ⟨hi', hsz⟩ := hfind h name off i hh hi
    exact ⟨name, i, off, by rw [hhandles]; exact hh, by rw [hfile]; exact hf, hi',
      Nat.le_trans hle hsz⟩

theorem Refines.resetInode (hr : Refines params s f) (hi : s.firstFreeInode = some i) :
    Refines params (s.resetInode i) f := by
  have hu := Update.resetInode hi
  have hne : ∀ {j}, s.Taken j → j ≠ i := by
    rintro j ht rfl
    have := (firstFreeInode_free hi).2
    rw [ht.2] at this
    cases this
  have hother : ∀ {j}, s.Taken j → (s.resetInode i).inode j = s.inode j := fun ht =>
    Region.set_get_ne _ _ (hne ht)
  have hbytes : ∀ {j}, s.Taken j → (s.resetInode i).fileBytes j = s.fileBytes j := by
    intro j ht
    rw [fileBytes, fileBytes, blockAddr, blockAddr, hother ht]
    rfl
  refine ⟨hr.inv.update hu, hr.sized.frame (hr.inv.update_frame hu), ?_, ?_, ?_⟩
  · intro name
    rw [hr.files, contents, contents]
    cases hf : s.find name with
    | none => rw [show (s.resetInode i).find name = none from hf]; rfl
    | some j =>
        obtain ⟨-, ht, -⟩ := hr.inv.of_find hf
        rw [show (s.resetInode i).find name = some j from hf, Option.map_some, Option.map_some,
          hbytes ht]
  · refine hr.handles.of_files (fun _ => Iff.rfl) (fun _ => rfl) rfl ?_
    intro h name off j _ hf
    obtain ⟨-, ht, -⟩ := hr.inv.of_find hf
    exact ⟨hf, by rw [hother ht]⟩
  · exact hr.noLeak.resetInode hi

theorem Refines.create (hr : Refines params s f) (hi : s.firstFreeInode = some i)
    (hint : i < 2147483648) (hlt : i < s.inodeTable.size) (hk : s.slotFor name = some k)
    (h0 : 0 ∉ name) (hnil : name ≠ []) (hnew : s.find name = none) :
    Refines params (s.create i k name) (f.put name []) := by
  have hu := Update.create hi hint hlt hk h0 hnil hnew
  have hinv := hr.inv.update hu
  have hfind : ∀ n, (s.create i k name).find n = if n = name then some i else s.find n :=
    fun _ => find_create hr.inv.dir hinv.dir hint hk h0
  have hne : ∀ {j}, s.Taken j → j ≠ i := by
    rintro j ht rfl
    have := (firstFreeInode_free hi).2
    rw [ht.2] at this
    cases this
  refine ⟨hinv, hr.sized.frame (hr.inv.update_frame hu), ?_, ?_, ?_⟩
  · intro n
    rw [FlatStore.put, contents, hfind n]
    by_cases hn : n = name
    · rw [if_pos hn, hn, Finmap.lookup_insert, Option.map_some,
        fileBytes_of_empty (by rw [create_inode_self])]
    · rw [if_neg hn, Finmap.lookup_insert_of_ne _ hn, hr.files, contents]
      cases hf : s.find n with
      | none => rfl
      | some j =>
          obtain ⟨hj0, ht, -⟩ := hr.inv.of_find hf
          rw [Option.map_some, Option.map_some,
            hr.inv.fileBytes_create ht hj0 (hne ht) (slotFor_eq_some hk).2.1]
  · refine hr.handles.of_files (fun _ => Iff.rfl) (fun _ => rfl) rfl ?_
    intro h n off j _ hf
    obtain ⟨-, ht, -⟩ := hr.inv.of_find hf
    have hn : n ≠ name := by
      rintro rfl
      rw [hnew] at hf
      cases hf
    exact ⟨by rw [hfind n, if_neg hn]; exact hf, by rw [create_inode_ne (hne ht)]⟩
  · exact hr.noLeak.create hi

theorem Refines.truncate (hr : Refines params s f) (hf : s.find name = some i)
    (hclosed : ¬ f.IsOpen params name) : Refines params (s.truncate i) (f.put name []) := by
  obtain ⟨hi0, hti, -, hblock⟩ := hr.inv.of_find hf
  have hu := Update.truncate hti hi0
  have hother : ∀ {j}, j ≠ i → (s.truncate i).inode j = s.inode j := fun hj =>
    Region.set_get_ne _ _ hj
  refine ⟨hr.inv.update hu, hr.sized.frame (hr.inv.update_frame hu), ?_, ?_, ?_⟩
  · intro n
    rw [FlatStore.put, contents, show (s.truncate i).find n = s.find n from rfl]
    by_cases hn : n = name
    · rw [hn, Finmap.lookup_insert, hf, Option.map_some, fileBytes_truncate_self]
    · rw [Finmap.lookup_insert_of_ne _ hn, hr.files, contents]
      cases hfn : s.find n with
      | none => rfl
      | some j =>
          have hji : j ≠ i := by
            rintro rfl
            exact hn (hr.inv.dir.find_inj hfn hf)
          rw [Option.map_some, Option.map_some, fileBytes_truncate_ne hji]
  · refine hr.handles.of_files (fun _ => Iff.rfl) (fun _ => rfl) rfl ?_
    intro h n off j hh hfn
    have hji : j ≠ i := by
      rintro rfl
      rw [hr.inv.dir.find_inj hfn hf] at hh
      exact hclosed (hr.isOpen hh)
    exact ⟨hfn, by rw [hother hji]⟩
  · exact hr.noLeak.truncate hblock

theorem Refines.remove (hr : Refines params s f) (hk : s.Live k) (hi : s.dInumber k = i)
    (hclosed : ¬ f.IsOpen params (s.dName k)) :
    Refines params (s.remove i k) { f with files := f.files.erase (s.dName k) } := by
  have hf := hr.inv.dir.find_of_live hk hi
  obtain ⟨hi0, hti, -, hblock⟩ := hr.inv.of_find hf
  have hu := Update.remove hk hi
  have hinv := hr.inv.update hu
  have hfind : ∀ n, (s.remove i k).find n = if n = s.dName k then none else s.find n :=
    fun _ => find_remove hr.inv.dir hinv.dir hk
  refine ⟨hinv, hr.sized.frame (hr.inv.update_frame hu), ?_, ?_, ?_⟩
  · intro n
    rw [contents, hfind n]
    by_cases hn : n = s.dName k
    · rw [if_pos hn, hn]
      exact Finmap.lookup_erase ..
    · rw [if_neg hn]
      refine (Finmap.lookup_erase_ne hn).trans ?_
      rw [hr.files, contents]
      cases hfn : s.find n with
      | none => rfl
      | some j =>
          obtain ⟨hj0, ht, -⟩ := hr.inv.of_find hfn
          rw [Option.map_some, Option.map_some, hr.inv.fileBytes_remove ht hj0 hk.1]
  · refine hr.handles.of_files (fun _ => Iff.rfl) (fun _ => rfl) rfl ?_
    intro h n off j hh hfn
    have hn : n ≠ s.dName k := by
      rintro rfl
      exact hclosed (hr.isOpen hh)
    exact ⟨by rw [hfind n, if_neg hn]; exact hfn, Nat.le_refl _⟩
  · exact hr.noLeak.remove hblock

/-- An update of one handle on both sides. -/
theorem Refines.of_handle {o : Option (List UInt8 × Nat)} (hr : Refines params s f)
    (hu : Update s t) (hinode : ∀ i, t.inode i = s.inode i) (hdata : t.fsData = s.fsData)
    (hblocks : t.freeBlocks = s.freeBlocks) (hinodes : t.freeinodeTs = s.freeinodeTs)
    (hopen : ∀ h', h' ≠ h → (t.Open h' ↔ s.Open h'))
    (hfile : ∀ h', h' ≠ h → t.file h' = s.file h')
    (hclosed : ¬ t.Open h → o = none)
    (hopened : t.Open h → ∃ (name : List UInt8) (i off : Nat), o = some (name, off) ∧
      t.file h = ⟨i, off⟩ ∧ s.find name = some i ∧ off ≤ (s.inode i).iSize) :
    Refines params t (f.setHandle h o) := by
  have hframe := hr.inv.update_frame hu
  have hfind : ∀ n, t.find n = s.find n := by
    intro n
    simp only [find, findSlot, dInumber, dName, maxDirEntries, blockSize, hdata, hframe.fsParams]
  have hbytes : ∀ i, t.fileBytes i = s.fileBytes i := by
    intro i
    rw [fileBytes, fileBytes, blockAddr, blockAddr, hinode, hdata, blockSize, hframe.fsParams]
  refine ⟨hr.inv.update hu, hr.sized.frame hframe, ?_, ⟨?_, ?_⟩, ?_⟩
  · intro n
    rw [contents, hfind n]
    refine (hr.files n).trans ?_
    rw [contents]
    cases s.find n with
    | none => rfl
    | some i => rw [Option.map_some, Option.map_some, hbytes i]
  · intro h' ho
    rw [FlatStore.setHandle]
    by_cases hh : h' = h
    · rw [hh] at ho ⊢
      exact (Function.update_self ..).trans (hclosed ho)
    · exact (Function.update_of_ne hh _ _).trans
        (hr.handles.closed h' fun hs => ho ((hopen h' hh).mpr hs))
  · intro h' ho
    by_cases hh : h' = h
    · rw [hh] at ho ⊢
      obtain ⟨name, i, off, he, hf, hi, hle⟩ := hopened ho
      exact ⟨name, i, off, (Function.update_self ..).trans he, hf, by rw [hfind]; exact hi,
        by rw [hinode]; exact hle⟩
    · obtain ⟨name, i, off, he, hf, hi, hle⟩ := hr.handles.opened h' ((hopen h' hh).mp ho)
      exact ⟨name, i, off, (Function.update_of_ne hh _ _).trans he,
        by rw [hfile h' hh]; exact hf, by rw [hfind]; exact hi, by rw [hinode]; exact hle⟩
  · refine hr.noLeak.mono ?_ ?_
    · intro b hb
      rw [BlockTaken, dataBlocks, hframe.fsParams, hblocks] at hb
      exact hb
    · intro i b ht _ _ _ _
      refine ⟨?_, hinode i⟩
      rw [Taken, inodeTableSize, hframe.fsParams, hinodes]
      exact ht

theorem Refines.openHandle (hr : Refines params s f) (hh : s.firstFreeHandle = some h)
    (hlt : h < s.openFileTable.size) (hf : s.find name = some i)
    (hoff : off ≤ (s.inode i).iSize) :
    Refines params (s.openHandle h i off) (f.setHandle h (some (name, off))) := by
  obtain ⟨hi0, ht, -⟩ := hr.inv.of_find hf
  have hmax : h < s.maxOpenFiles := by
    have := (find_range_eq_some.mp hh).1
    omega
  refine hr.of_handle (.openHandle hh hlt ht hi0) (fun _ => rfl) rfl rfl rfl ?_ ?_ ?_ ?_
  · intro h' hne
    rw [openHandle_open hmax]
    simp [hne]
  · exact fun h' hne => openHandle_file_ne hne
  · exact fun ho => absurd ((openHandle_open hmax).mpr (.inl rfl)) ho
  · exact fun _ => ⟨name, i, off, rfl, openHandle_file_self, hf, hoff⟩

theorem Refines.closeHandle (hr : Refines params s f) (ho : s.Open h) :
    Refines params (s.closeHandle h) (f.setHandle h none) := by
  refine hr.of_handle (.closeHandle ho) (fun _ => rfl) rfl rfl rfl ?_ (fun _ _ => rfl)
    (fun _ => rfl) ?_
  · intro h' hne
    rw [closeHandle_open]
    simp [hne]
  · exact fun ho => absurd rfl (closeHandle_open.mp ho).1

theorem Refines.seekHandle (hr : Refines params s f) (ho : s.Open h)
    {off' : Nat} (hf : s.file h = ⟨i, off'⟩) (hi : s.find name = some i)
    (hoff : off ≤ (s.inode i).iSize) :
    Refines params (s.seekHandle h off) (f.setHandle h (some (name, off))) := by
  refine hr.of_handle (.seekHandle ho) (fun _ => rfl) rfl rfl rfl (fun _ _ => Iff.rfl) ?_ ?_ ?_
  · exact fun h' hne => seekHandle_file_ne hne
  · exact fun hc => absurd ho hc
  · exact fun _ => ⟨name, i, off, rfl, by rw [seekHandle_file_self, hf], hi, hoff⟩

/-- A write lays its bytes over the file's. -/
theorem Inv.fileBytes_writeAt_self (hinv : Inv s) (hw : s.Writes h i b off n)
    (hoff : off ≤ (s.inode i).iSize) :
    (s.writeAt h i b off n buffer).fileBytes i
      = FlatStore.overlay (s.fileBytes i) off n buffer := by
  have hlen : off ≤ (s.fileBytes i).length := by rwa [fileBytes_length]
  have haddr : (s.writeAt h i b off n buffer).blockAddr i = b * s.blockSize := by
    rw [blockAddr, writeAt_inode_self, Int.toNat_natCast]
    rfl
  refine List.ext_getElem ?_ fun x h1 h2 => ?_
  · rw [FlatStore.overlay_length hlen, fileBytes_length, fileBytes_length, writeAt_inode_self]
  · rw [FlatStore.overlay_getElem hlen h2]
    rw [FlatStore.overlay_length hlen, fileBytes_length] at h2
    simp only [fileBytes, List.getElem_map, List.getElem_range, haddr]
    by_cases hx : off ≤ x ∧ x < off + n
    · rw [if_pos hx]
      refine (Region.blit_get_of_mem _ _ (by omega) (by omega)).trans ?_
      congr 1
      omega
    · rw [if_neg hx]
      refine (Region.blit_get_of_not_mem _ _ (by omega)).trans ?_
      have hsz : x < (s.inode i).iSize := by omega
      rcases hinv.block_of_write hw with ⟨hz, -⟩ | ⟨-, hb⟩
      · omega
      · have hget : ((List.range (s.inode i).iSize).map
            fun j => s.fsData.get (s.blockAddr i + j))[x]? = some (s.fsData.get (s.blockAddr i + x)) := by
          rw [List.getElem?_map, List.getElem?_range hsz]
          rfl
        rw [List.getD_eq_getElem?_getD, hget, Option.getD_some, blockAddr, hb, Int.toNat_natCast]

theorem Refines.writeAt (hr : Refines params s f) (hw : s.Writes h i b off n)
    (hf : s.find name = some i) (hoff : off ≤ (s.inode i).iSize) (buffer : Nat → UInt8) :
    Refines params (s.writeAt h i b off n buffer)
      ((f.put name (FlatStore.overlay (s.fileBytes i) off n buffer)).setHandle h
        (some (name, off + n))) := by
  obtain ⟨hi0, hti, -⟩ := hr.inv.of_find hf
  have hpos := hw.pos
  have hu := Update.writeAt hw buffer
  have hfind : ∀ n', (s.writeAt h i b off n buffer).find n' = s.find n' := fun _ =>
    writeAt_find hw.block_ne
  have hother : ∀ {j}, j ≠ i → (s.writeAt h i b off n buffer).inode j = s.inode j :=
    writeAt_inode_ne
  refine ⟨hr.inv.update hu, hr.sized.frame (hr.inv.update_frame hu), ?_, ⟨?_, ?_⟩, ?_⟩
  · intro n'
    rw [contents, hfind, FlatStore.setHandle, FlatStore.put]
    by_cases hn : n' = name
    · rw [hn, hf, Option.map_some, hr.inv.fileBytes_writeAt_self hw hoff]
      exact Finmap.lookup_insert _
    · refine (Finmap.lookup_insert_of_ne _ hn).trans ?_
      rw [hr.files, contents]
      cases hfn : s.find n' with
      | none => rfl
      | some j =>
          obtain ⟨hj0, htj, -⟩ := hr.inv.of_find hfn
          have hji : j ≠ i := by
            rintro rfl
            exact hn (hr.inv.dir.find_inj hfn hf)
          rw [Option.map_some, Option.map_some, hr.inv.fileBytes_writeAt_ne hw htj hj0 hji
            fun hsz hjb => absurd hjb (hr.inv.block_of_other hw hti htj hj0 hji hsz)]
  · intro h' ho
    have hne : h' ≠ h := by
      rintro rfl
      exact ho hw.opened
    exact (Function.update_of_ne hne _ _).trans (hr.handles.closed h' ho)
  · intro h' ho
    by_cases hh : h' = h
    · subst hh
      refine ⟨name, i, off + n, Function.update_self .., ?_, by rw [hfind]; exact hf, ?_⟩
      · simp [file, writeAt, hw.file_eq]
      · rw [writeAt_inode_self]
        exact Nat.le_max_right ..
    · obtain ⟨name', j, off', he, hfile, hj, hle⟩ := hr.handles.opened h' ho
      refine ⟨name', j, off', (Function.update_of_ne hh _ _).trans he, ?_,
        by rw [hfind]; exact hj, ?_⟩
      · rw [← hfile]
        exact Region.set_get_ne _ _ hh
      · by_cases hji : j = i
        · rw [hji, writeAt_inode_self]
          rw [hji] at hle
          exact Nat.le_trans hle (Nat.le_max_left ..)
        · rw [hother hji]
          exact hle
  · exact hr.noLeak.writeAt hr.inv hw fun _ => hti

/-! ## The calls -/

/-- Only the lookups of a store and its handles matter. -/
theorem Refines.put_self (hr : Refines params s f) (hf : s.find name = some i) :
    Refines params s (f.put name (s.fileBytes i)) := by
  refine ⟨hr.inv, hr.sized, fun n => ?_, ⟨hr.handles.closed, hr.handles.opened⟩, hr.noLeak⟩
  rw [FlatStore.put]
  by_cases hn : n = name
  · rw [hn]
    exact (Finmap.lookup_insert _).trans (by rw [contents, hf, Option.map_some])
  · exact (Finmap.lookup_insert_of_ne _ hn).trans (hr.files n)

theorem Refines.add_handle (hr : Refines params s f) (hp : params.InRange)
    (hf : s.find name = some i) (hoff : off ≤ (s.inode i).iSize) :
    ∃ t, addToOpenFileTable i off s = .ok ((f.addHandle params name off).1, t) ∧
      Refines params t (f.addHandle params name off).2 := by
  rw [hr.inv.base.addToOpenFileTable_eq, FlatStore.addHandle, ← hr.freeHandle_eq hp]
  cases hh : s.firstFreeHandle with
  | none => exact ⟨s, rfl, hr⟩
  | some h =>
      have hlt : h < s.openFileTable.size := by
        have hmax := (find_range_eq_some.mp hh).1
        have hsize := hr.sized.openFileTable
        rw [maxOpenFiles, hr.sized.params_eq] at hmax
        omega
      dsimp only
      rw [if_pos hlt]
      exact ⟨_, rfl, hr.openHandle hh hlt hf hoff⟩

/-- An open with `TFS_O_TRUNC` empties a file, any other leaves it. -/
theorem Refines.truncated {mode : Nat} (hr : Refines params s f) (hf : s.find name = some i)
    (hclosed : mode &&& tfsOTrunc ≠ 0 → ¬ f.IsOpen params name) :
    Refines params (s.truncated i mode)
        (f.put name (if mode &&& tfsOTrunc ≠ 0 then [] else s.fileBytes i)) ∧
      ((s.truncated i mode).inode i).iSize
        = (if mode &&& tfsOTrunc ≠ 0 then [] else s.fileBytes i).length := by
  rw [Tfs.truncated]
  by_cases hm : mode &&& tfsOTrunc ≠ 0
  · rw [if_pos hm, if_pos hm]
    exact ⟨hr.truncate hf (hclosed hm), by simp [Tfs.truncate, inode]⟩
  · rw [if_neg hm, if_neg hm, fileBytes_length]
    exact ⟨hr.put_self hf, rfl⟩

theorem Refines.open (hr : Refines params s f) (hp : params.InRange) {path : CString}
    {mode : Nat} (ha : f.Allowed params (.open path mode)) :
    ∃ t, tfsOpen path mode s = .ok ((f.open .room params path mode).1, t) ∧
      Refines params t (f.open .room params path mode).2 := by
  rw [hr.inv.tfsOpen_eq, FlatStore.open]
  by_cases hv : validPathname path
  · rw [if_neg (not_not_intro hv), if_neg (not_not_intro hv)]
    cases hf : s.find path.chars.tail with
    | some i =>
        rw [hr.lookup_of_find hf]
        dsimp only
        obtain ⟨htr, hsize⟩ := hr.truncated hf fun hm => ha ⟨hv, hm⟩
        rw [hsize]
        refine htr.add_handle hp ((truncated_find _).trans hf) ?_
        rw [hsize]
        split
        · exact Nat.le_refl _
        · exact Nat.zero_le _
    | none =>
        rw [hr.lookup_eq_none.mpr hf]
        dsimp only
        by_cases hc : mode &&& tfsOCreat = 0
        · rw [if_pos hc, if_neg (fun h => h.1 hc)]
          exact ⟨s, rfl, hr⟩
        · rw [if_neg hc]
          cases hi : s.firstFreeInode with
          | none =>
              rw [if_neg]
              · exact ⟨s, rfl, hr⟩
              · rintro ⟨-, hroom⟩
                have := (hr.room_iff.mp hroom).1
                rw [hi] at this
                cases this
          | some i =>
              have hlt : i < 2147483648 ∧ i < s.inodeTable.size := by
                have hin := (firstFreeInode_free hi).1
                have hsize := hr.sized.inodeTable
                have hmax := hp.maxInodeCount_le
                rw [inodeTableSize, hr.sized.params_eq] at hin
                omega
              dsimp only
              rw [if_pos hlt]
              cases hk : s.slotFor path.chars.tail with
              | none =>
                  rw [if_neg]
                  · exact ⟨_, rfl, hr.resetInode hi⟩
                  · rintro ⟨-, hroom⟩
                    have := (hr.room_iff.mp hroom).2
                    rw [hk] at this
                    cases this
              | some k =>
                  have hroom : CreatPolicy.room params f path.chars.tail = true :=
                    hr.room_iff.mpr ⟨by rw [hi]; rfl, by rw [hk]; rfl⟩
                  rw [if_pos ⟨hc, hroom⟩]
                  have hr' := hr.create hi hlt.1 hlt.2 hk path.zero_notMem_tail hv.tail_ne_nil hf
                  refine hr'.add_handle hp ?_ (Nat.zero_le _)
                  rw [find_create hr.inv.dir hr'.inv.dir hlt.1 hk path.zero_notMem_tail, if_pos rfl]
  · rw [if_pos hv, if_pos hv]
    exact ⟨s, rfl, hr⟩

/-- A handle number of the store and of the tables. -/
theorem Refines.handle_cases (hr : Refines params s f) (fhandle : Int) :
    (¬ (0 ≤ fhandle ∧ s.Open fhandle.toNat) ∧ f.handle fhandle = none) ∨
      ∃ (h : Nat) (name : List UInt8) (i off : Nat), fhandle = h ∧ s.Open h ∧
        f.handle fhandle = some (name, off) ∧ f.handles h = some (name, off) ∧
        s.file h = ⟨i, off⟩ ∧ s.find name = some i ∧ off ≤ (s.inode i).iSize := by
  by_cases hpos : 0 ≤ fhandle
  · obtain ⟨h, rfl⟩ : ∃ h : Nat, fhandle = h := ⟨fhandle.toNat, by omega⟩
    rw [FlatStore.handle, if_pos hpos, Int.toNat_natCast]
    by_cases ho : s.Open h
    · obtain ⟨name, i, off, hh, hf, hi, hle⟩ := hr.handles.opened h ho
      exact .inr ⟨h, name, i, off, rfl, ho, hh, hh, hf, hi, hle⟩
    · exact .inl ⟨fun hc => ho hc.2, hr.handles.closed h ho⟩
  · rw [FlatStore.handle, if_neg hpos]
    exact .inl ⟨fun hc => hpos hc.1, rfl⟩

theorem Refines.close (hr : Refines params s f) (fhandle : Int) :
    ∃ t, tfsClose fhandle s = .ok ((f.close fhandle).1, t) ∧
      Refines params t (f.close fhandle).2 := by
  rw [hr.inv.base.tfsClose_eq, FlatStore.close]
  rcases hr.handle_cases fhandle with ⟨ho, hh⟩ | ⟨h, name, i, off, rfl, ho, hh, -⟩
  · rw [if_neg ho, hh]
    exact ⟨s, rfl, hr⟩
  · rw [if_pos ⟨by omega, by simpa using ho⟩, hh]
    exact ⟨_, rfl, by simpa using hr.closeHandle ho⟩

theorem Refines.unlink (hr : Refines params s f) {target : CString}
    (ha : f.Allowed params (.unlink target)) :
    ∃ t, tfsUnlink target s = .ok ((f.unlink target).1, t) ∧
      Refines params t (f.unlink target).2 := by
  rw [hr.inv.tfsUnlink_eq, FlatStore.unlink]
  by_cases hv : validPathname target
  · rw [if_neg (not_not_intro hv)]
    cases hk : s.findSlot target.chars.tail with
    | none =>
        have hnot : target.chars.tail ∉ f.files := by
          rw [← Finmap.lookup_eq_none, hr.lookup_eq_none, find, hk, Option.map_none]
        rw [if_neg (fun hc => hnot hc.2)]
        exact ⟨s, rfl, hr⟩
    | some k =>
        obtain ⟨hlive, hname⟩ := findSlot_eq_some hk
        obtain ⟨i, hi, -⟩ := hr.inv.dir.live_inode k hlive
        have hmem : target.chars.tail ∈ f.files := by
          rw [← hname]
          exact Finmap.mem_keys.mp (hr.mem_keys.mpr ⟨i, hr.inv.dir.find_of_live hlive hi⟩)
        rw [if_pos ⟨hv, hmem⟩, ← hname]
        dsimp only
        rw [hi]
        refine ⟨_, rfl, hr.remove hlive hi ?_⟩
        rw [hname]
        exact ha hv
  · rw [if_pos hv, if_neg (fun hc => hv hc.1)]
    exact ⟨s, rfl, hr⟩

/-- An open handle's offset and its file's size are within the block. -/
theorem Refines.size_le (hr : Refines params s f) (hf : s.find name = some i) :
    (s.inode i).iSize ≤ params.blockSize := by
  have hlen := (hr.file_bounded (hr.lookup_of_find hf)).2.2
  rwa [fileBytes_length] at hlen

/-- The block a write through an agreed handle goes to lies in `fs_data`. -/
theorem Refines.block_fits (hr : Refines params s f) (hp : params.InRange)
    (hb : b < s.dataBlocks) : b < 2147483648 ∧
      b * s.blockSize + s.blockSize ≤ s.fsData.size := by
  have hmax := hp.maxBlockCount_le
  have hdata := hr.sized.fsData
  rw [dataBlocks, hr.sized.params_eq] at hb
  have hmul : (b + 1) * params.blockSize ≤ params.maxBlockCount * params.blockSize :=
    Nat.mul_le_mul_right _ hb
  rw [Nat.add_mul] at hmul
  rw [blockSize, hr.sized.params_eq]
  omega

theorem Refines.write (hr : Refines params s f) (hp : params.InRange) {fhandle : Int}
    {toWrite : Nat} (ha : f.Allowed params (.write fhandle buffer toWrite)) :
    ∃ t, tfsWrite fhandle buffer toWrite s = .ok ((f.write params fhandle buffer toWrite).1, t) ∧
      Refines params t (f.write params fhandle buffer toWrite).2 := by
  rcases hr.handle_cases fhandle with ⟨ho, hh⟩ | ⟨h, name, i, off, rfl, ho, hh, -, hfile, hi, hle⟩
  · rw [hr.inv.base.write_closed _ _ ho, FlatStore.write, hh]
    exact ⟨s, rfl, hr⟩
  · have hbs := hr.inv.base.blockSize_lt
    have hsize := hr.size_le hi
    have hblock : s.blockSize = params.blockSize := by rw [blockSize, hr.sized.params_eq]
    have hn : clampWrite toWrite off s.blockSize = min toWrite (params.blockSize - off) := by
      rw [clampWrite_eq (by omega) (by omega) (ha _ hh), hblock]
    obtain ⟨hi0, hti, hlt, hhas⟩ := hr.inv.of_find hi
    rw [hr.inv.tfsWrite_eq ho hfile, FlatStore.write, hh]
    dsimp only
    rw [hr.lookup_of_find hi, Option.getD_some, hn]
    generalize hnm : min toWrite (params.blockSize - off) = n
    by_cases hz : n = 0
    · rw [if_pos hz, if_pos hz]
      exact ⟨s, rfl, hr⟩
    · rw [if_neg hz, if_neg hz]
      have hempty : s.fileBytes i = [] ↔ (s.inode i).iSize = 0 := by
        rw [← List.length_eq_zero_iff, fileBytes_length]
      cases hb : s.blockFor i with
      | none =>
          have hnone : (s.inode i).iSize = 0 ∧ s.firstFreeBlock = none := by
            rw [blockFor] at hb
            split at hb
            · exact ⟨‹_›, hb⟩
            · cases hb
          have hfull : ¬ f.fullCount + 1 < params.maxBlockCount := by
            rw [← hr.firstFreeBlock_isSome, hnone.2]
            simp
          rw [if_pos ⟨hempty.mpr hnone.1, hfull⟩]
          exact ⟨s, rfl, hr⟩
      | some b =>
          obtain ⟨hb0, hbv⟩ := hr.inv.blockFor_ne ho hfile hi0 hb
          obtain ⟨hint, hfits⟩ := hr.block_fits hp hbv
          have hroom : ¬ (s.fileBytes i = [] ∧ ¬ f.fullCount + 1 < params.maxBlockCount) := by
            rintro ⟨hdata, hfull⟩
            rw [blockFor, if_pos (hempty.mp hdata)] at hb
            rw [← hr.firstFreeBlock_isSome, hb] at hfull
            exact hfull rfl
          have hend : off + n ≤ s.blockSize := by omega
          have hdata := hr.inv.base.fsData_size
          have hw : s.Writes h i b off n := ⟨ho, hfile, hi0, hlt, by omega, hend, hb, hb0, hint,
            hbv, by omega⟩
          rw [if_neg hroom]
          dsimp only
          rw [if_neg (not_not_intro hint), if_pos (by omega), toSSize_of_lt (by omega)]
          exact ⟨_, rfl, hr.writeAt hw hi hle buffer⟩

theorem Refines.read (hr : Refines params s f) (hp : params.InRange) (fhandle : Int) (len : Nat) :
    ∃ t, tfsRead fhandle len s = .ok ((f.read fhandle len).1, t) ∧
      Refines params t (f.read fhandle len).2 := by
  rcases hr.handle_cases fhandle with
    ⟨ho, hh⟩ | ⟨h, name, i, off, rfl, ho, hh, -, hfile, hi, hle⟩
  · rw [hr.inv.base.read_closed _ ho, FlatStore.read, hh]
    exact ⟨s, rfl, hr⟩
  · obtain ⟨-, -, -, hhas⟩ := hr.inv.of_find hi
    have hfits : 0 < (s.inode i).iSize →
        s.blockAddr i + (s.inode i).iSize ≤ s.fsData.size := by
      intro hsz
      obtain ⟨b, hb⟩ := hhas hsz
      have haddr : s.blockAddr i = b * s.blockSize := by
        rw [blockAddr, hb.eq, Int.toNat_natCast]
      have hend := (hr.block_fits hp hb.valid).2
      have hsize := hr.size_le hi
      rw [blockSize, hr.sized.params_eq] at haddr hend
      omega
    have hlen : (((s.fileBytes i).drop off).take len).length =
        min len ((s.inode i).iSize - off) := by
      rw [List.length_take, List.length_drop, fileBytes_length]
    rw [hr.inv.read_within ho hfile hle hfits, FlatStore.read, hh]
    dsimp only
    rw [hr.lookup_of_find hi, Option.getD_some, hlen, Int.toNat_natCast]
    exact ⟨_, rfl, hr.seekHandle ho hfile hi (by omega)⟩

/-! ## Runs -/

/-- **The simulation of one call**: an allowed call returns what the store
returns, and the relation still holds. -/
theorem Refines.call (hr : Refines params s f) (hp : params.InRange) {c : TfsCall}
    (ha : f.Allowed params c) :
    ∃ t, tfsCall s c = .ok ((f.call .room params c).1, t) ∧
      Refines params t (f.call .room params c).2 := by
  cases c with
  | «open» path mode =>
      obtain ⟨t, hc, hr'⟩ := hr.open hp ha
      exact ⟨t, bind_eq_ok.mpr ⟨_, hc, rfl⟩, hr'⟩
  | close fhandle =>
      obtain ⟨t, hc, hr'⟩ := hr.close fhandle
      exact ⟨t, bind_eq_ok.mpr ⟨_, hc, rfl⟩, hr'⟩
  | write fhandle buffer toWrite =>
      obtain ⟨t, hc, hr'⟩ := hr.write hp ha
      exact ⟨t, bind_eq_ok.mpr ⟨_, hc, rfl⟩, hr'⟩
  | read fhandle len => exact hr.read hp fhandle len
  | unlink target =>
      obtain ⟨t, hc, hr'⟩ := hr.unlink ha
      exact ⟨t, bind_eq_ok.mpr ⟨_, hc, rfl⟩, hr'⟩

theorem Refines.calls (hr : Refines params s f) (hp : params.InRange) {cs : List TfsCall}
    (ha : f.AllowedRun .room params cs) :
    ∃ t, tfsCalls s cs = .ok (f.results .room params cs, t) := by
  induction cs generalizing s f with
  | nil => exact ⟨s, rfl⟩
  | cons c cs ih =>
      obtain ⟨t, hc, hr'⟩ := hr.call hp ha.1
      obtain ⟨u, hcs⟩ := ih hr' ha.2
      exact ⟨u, bind_eq_ok.mpr ⟨_, hc, bind_eq_ok.mpr ⟨_, hcs, rfl⟩⟩⟩

theorem refines_empty {m : Mallocs} (hp : params.InRange) (h : TfsStart params m s) :
    Refines params s FlatStore.empty := by
  obtain ⟨he, -⟩ := h.emptyRoot
  have hfind : ∀ name, s.find name = none := fun _ =>
    find_eq_none.mpr fun k hk => absurd hk (he.none_live k)
  refine ⟨he.inv, h.sized hp, ?_, ⟨?_, ?_⟩, ?_⟩
  · intro name
    rw [contents, hfind name]
    exact Finmap.lookup_empty name
  · exact fun h _ => rfl
  · exact fun h ho => absurd ho (he.none_open h)
  · exact fun b hb hb0 => absurd (he.only_block b hb) hb0

/-- **TécnicoFS refines the flat store**: after a successful `tfs_init`
every allowed run of calls returns, and returns what the store returns. -/
theorem refines_flatStore {m : Mallocs} {cs : List TfsCall} (hp : params.InRange)
    (h : TfsStart params m s) (ha : FlatStore.empty.AllowedRun .room params cs) :
    ∃ t, tfsCalls s cs = .ok (FlatStore.empty.results .room params cs, t) :=
  (refines_empty hp h).calls hp ha

/-- A file is written in two goes and read back. -/
def appendRun : List TfsCall :=
  [.open pathA tfsOCreat, .write 0 (fun _ => 1) 60, .close 0, .open pathA tfsOAppend,
    .write 0 (fun _ => 2) 60, .close 0, .open pathA 0, .read 0 200, .unlink pathB]

theorem appendRun_returns :
    ∃ s t, TfsStart smallParams dirtyMallocs s ∧
      tfsCalls s appendRun = .ok ([(0, []), (60, []), (0, []), (0, []), (40, []), (0, []), (0, []),
        (100, List.replicate 60 1 ++ List.replicate 40 2), (-1, [])], t) := by
  have hrun : (tfsRun smallParams dirtyMallocs []).map Prod.fst = .ok (0, []) := by
    decide +kernel
  obtain ⟨s, -, hs, -⟩ := tfsRun_ok hrun
  have hp : smallParams.InRange := by
    constructor <;> decide
  have hallowed : FlatStore.empty.AllowedRun .room smallParams appendRun := by
    decide +kernel
  have hresults : FlatStore.empty.results .room smallParams appendRun =
      [(0, []), (60, []), (0, []), (0, []), (40, []), (0, []), (0, []),
        (100, List.replicate 60 1 ++ List.replicate 40 2), (-1, [])] := by
    decide +kernel
  obtain ⟨t, ht⟩ := refines_flatStore hp hs hallowed
  rw [hresults] at ht
  exact ⟨s, t, hs, ht⟩

/-- With one inode, which is the root's, a call that asks for a new file
fails all the same. -/
theorem creation_fails_with_creat :
    ∃ s t, TfsStart ⟨1, 2, 1, 100⟩ dirtyMallocs s ∧
      FlatStore.empty.AllowedRun .always ⟨1, 2, 1, 100⟩ [.open pathA tfsOCreat] ∧
      tfsCalls s [.open pathA tfsOCreat] = .ok ([(-1, [])], t) ∧
      FlatStore.empty.results .always ⟨1, 2, 1, 100⟩ [.open pathA tfsOCreat] = [(0, [])] := by
  have hrun : (tfsRun ⟨1, 2, 1, 100⟩ dirtyMallocs [.open pathA tfsOCreat]).map Prod.fst =
      .ok (0, [(-1, [])]) := by
    decide +kernel
  obtain ⟨s, t, hs, ht⟩ := tfsRun_ok hrun
  exact ⟨s, t, hs, by decide +kernel, ht, by decide +kernel⟩

end MBroker
