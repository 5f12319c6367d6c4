import MBroker.Fs.Init

/-!
# Names and bytes after each update

What the directory maps a name to, and the bytes of a file, after each of
the updates of `View`. A file's block is above the directory's, so an
update of an entry leaves every file's bytes; a write changes the bytes of
its own file alone.
-/

namespace MBroker

open Tfs

variable {s t : Tfs} {h i j k b off n : Nat} {name name' : List UInt8} {buffer : Nat → UInt8}

/-! ## Names -/

/-- Two directories that map the names alike. -/
theorem Directory.find_ext (hs : Directory s) (ht : Directory t)
    (h : ∀ j, t.Maps name j ↔ s.Maps name j) : t.find name = s.find name := by
  refine Option.ext fun j => ?_
  rw [ht.find_eq_some, hs.find_eq_some]
  exact h j

theorem Directory.find_of_live (hd : Directory s) (hk : s.Live k) (hi : s.dInumber k = i) :
    s.find (s.dName k) = some i :=
  hd.find_eq_some.mpr ⟨k, hk, rfl, hi⟩

/-- The name of a file. -/
theorem Directory.find_of_taken (hd : Directory s) (hi : s.Taken i) (hne : i ≠ 0) :
    ∃ name, s.find name = some i := by
  obtain ⟨k, hk, hnum⟩ := hd.taken_live i hi hne
  exact ⟨s.dName k, hd.find_of_live hk hnum⟩

/-- Different names have different files. -/
theorem Directory.find_inj (hd : Directory s) (h : s.find name = some i)
    (h' : s.find name' = some i) : name = name' := by
  obtain ⟨k, hk, rfl, hi⟩ := hd.find_eq_some.mp h
  obtain ⟨k', hk', rfl, hi'⟩ := hd.find_eq_some.mp h'
  rw [hd.inumber_inj k k' hk hk' (by rw [hi, hi'])]

theorem find_create (hs : Directory s) (ht : Directory (s.create i k name))
    (hi : i < 2147483648) (hk : s.slotFor name = some k) (h0 : 0 ∉ name) :
    (s.create i k name).find name' = if name' = name then some i else s.find name' := by
  obtain ⟨hlen, hklt, hkfree, -⟩ := slotFor_eq_some hk
  have hnum : (s.create i k name).dInumber k = i := create_dInumber_self hi
  have hname : (s.create i k name).dName k = name := create_dName_self h0 hlen
  have hlive : (s.create i k name).Live k := (create_live hklt hi).mpr (.inl rfl)
  by_cases hn : name' = name
  · rw [if_pos hn, hn]
    exact ht.find_eq_some.mpr ⟨k, hlive, hname, hnum⟩
  · rw [if_neg hn]
    refine hs.find_ext ht fun j => ?_
    constructor
    · rintro ⟨k', hl, hn', hj⟩
      have hk' : k' ≠ k := by
        rintro rfl
        exact hn (by rw [← hn', hname])
      rw [create_dName_ne hk'] at hn'
      rw [create_dInumber_ne hk'] at hj
      exact ⟨k', ((create_live hklt hi).mp hl).resolve_left hk', hn', hj⟩
    · rintro ⟨k', hl, hn', hj⟩
      have hk' : k' ≠ k := by
        rintro rfl
        exact hkfree hl
      exact ⟨k', (create_live hklt hi).mpr (.inr hl), by rw [create_dName_ne hk']; exact hn',
        by rw [create_dInumber_ne hk']; exact hj⟩

theorem find_remove (hs : Directory s) (ht : Directory (s.remove i k)) (hk : s.Live k) :
    (s.remove i k).find name = if name = s.dName k then none else s.find name := by
  by_cases hn : name = s.dName k
  · rw [if_pos hn, find_eq_none]
    intro k' hl
    obtain ⟨hk', hl⟩ := remove_live.mp hl
    rw [remove_dName_ne hk', hn]
    intro heq
    exact hk' (hs.name_inj k' k hl hk heq)
  · rw [if_neg hn]
    refine hs.find_ext ht fun j => ?_
    constructor
    · rintro ⟨k', hl, hn', hj⟩
      obtain ⟨hk', hl⟩ := remove_live.mp hl
      rw [remove_dName_ne hk'] at hn'
      rw [remove_dInumber_ne hk'] at hj
      exact ⟨k', hl, hn', hj⟩
    · rintro ⟨k', hl, hn', hj⟩
      have hk' : k' ≠ k := by
        rintro rfl
        exact hn hn'.symm
      exact ⟨k', remove_live.mpr ⟨hk', hl⟩, by rw [remove_dName_ne hk']; exact hn',
        by rw [remove_dInumber_ne hk']; exact hj⟩

/-! ## Bytes -/

theorem fileBytes_length : (s.fileBytes i).length = (s.inode i).iSize := by
  rw [fileBytes, List.length_map, List.length_range]

theorem fileBytes_of_empty (h : (s.inode i).iSize = 0) : s.fileBytes i = [] := by
  rw [fileBytes, h]
  rfl

/-- An update of the directory's block leaves the bytes of a file. -/
theorem Inv.fileBytes_of_entry (hinv : Inv s) (hj : s.Taken j) (hj0 : j ≠ 0)
    (hinode : t.inode j = s.inode j) (hparams : t.fsParams = s.fsParams)
    (hdata : ∀ x, s.blockSize ≤ x → t.fsData.get x = s.fsData.get x) :
    t.fileBytes j = s.fileBytes j := by
  have haddr : t.blockAddr j = s.blockAddr j := by
    rw [blockAddr, blockAddr, hinode, blockSize, hparams]
  rw [fileBytes, fileBytes, hinode, haddr]
  refine List.map_congr_left fun x hx => hdata _ ?_
  have hx := List.mem_range.mp hx
  obtain ⟨c, hc⟩ := hinv.blocks.held j ⟨hj0, .inl hj⟩ (by omega)
  have hpos := hc.pos
  have hmul : 1 * s.blockSize ≤ c * s.blockSize := Nat.mul_le_mul_right _ (by omega)
  rw [blockAddr, hc.eq, Int.toNat_natCast]
  omega

theorem Inv.fileBytes_create (hinv : Inv s) (hj : s.Taken j) (hj0 : j ≠ 0) (hji : j ≠ i)
    (hk : k < s.maxDirEntries) : (s.create i k name).fileBytes j = s.fileBytes j := by
  refine hinv.fileBytes_of_entry hj hj0 (create_inode_ne hji) rfl fun x hx => ?_
  have := entry_le_blockSize hk
  exact setEntry_get_of_ne (.inr (by omega))

theorem Inv.fileBytes_remove (hinv : Inv s) (hj : s.Taken j) (hj0 : j ≠ 0)
    (hk : k < s.maxDirEntries) : (s.remove i k).fileBytes j = s.fileBytes j := by
  refine hinv.fileBytes_of_entry hj hj0 rfl rfl fun x hx => ?_
  have := entry_le_blockSize hk
  exact clearEntry_get_of_ne (.inr (by omega))

theorem fileBytes_truncate_self : (s.truncate i).fileBytes i = [] :=
  fileBytes_of_empty (by simp [truncate, inode])

theorem fileBytes_truncate_ne (hji : j ≠ i) : (s.truncate i).fileBytes j = s.fileBytes j := by
  have hinode : (s.truncate i).inode j = s.inode j := Region.set_get_ne _ _ hji
  rw [fileBytes, fileBytes, blockAddr, blockAddr, hinode]
  rfl

/-- A write leaves the bytes of a file that is not its inode's, unless it
lands inside the file's own block. -/
theorem Inv.fileBytes_writeAt_ne (hinv : Inv s) (hw : s.Writes h i b off n) (hj : s.Taken j)
    (hj0 : j ≠ 0) (hji : j ≠ i)
    (hsep : 0 < (s.inode j).iSize → (s.inode j).iDataBlock = (b : Int) →
      (s.inode j).iSize ≤ off) :
    (s.writeAt h i b off n buffer).fileBytes j = s.fileBytes j := by
  have hinode : (s.writeAt h i b off n buffer).inode j = s.inode j := writeAt_inode_ne hji
  rw [fileBytes, fileBytes, hinode]
  refine List.map_congr_left fun x hx => ?_
  have hx : x < (s.inode j).iSize := List.mem_range.mp hx
  obtain ⟨c, hc⟩ := hinv.blocks.held j ⟨hj0, .inl hj⟩ (by omega)
  have haddr : (s.writeAt h i b off n buffer).blockAddr j = c * s.blockSize := by
    rw [blockAddr, hinode, hc.eq]
    rfl
  rw [haddr, blockAddr, hc.eq, Int.toNat_natCast]
  refine Region.blit_get_of_not_mem _ _ ?_
  have hsize := hc.size_le
  have hle := hw.le_block
  rcases Nat.lt_trichotomy c b with hlt | heq | hgt
  · have hmul : (c + 1) * s.blockSize ≤ b * s.blockSize := Nat.mul_le_mul_right _ hlt
    rw [Nat.add_mul] at hmul
    omega
  · have := hsep (by omega) (by rw [hc.eq, heq])
    rw [heq]
    omega
  · have hmul : (b + 1) * s.blockSize ≤ c * s.blockSize := Nat.mul_le_mul_right _ hgt
    rw [Nat.add_mul] at hmul
    omega

/-- The other files, when the file of the handle exists. -/
theorem Inv.block_of_other (hinv : Inv s) (hw : s.Writes h i b off n) (hi : s.Taken i)
    (hj : s.Taken j) (hj0 : j ≠ 0) (hji : j ≠ i) (hsz : 0 < (s.inode j).iSize) :
    (s.inode j).iDataBlock ≠ (b : Int) := by
  intro hjb
  rcases hinv.block_of_write hw with ⟨-, hfree⟩ | ⟨hszi, hib⟩
  · have := (hinv.blocks.owner_taken j b hj hj0 hsz hjb).2
    rw [hfree] at this
    cases this
  · exact hji (hinv.blocks.owner_inj j i hj hi hj0 hw.ne_root hsz hszi (by rw [hjb, hib]))

end MBroker
