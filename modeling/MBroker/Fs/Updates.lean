import MBroker.Fs.Calls

/-!
# What each update changes

The frame lemmas of the updates of `View`: what a reader of the tables
sees after `create`, `remove`, `truncate` and `writeAt`, in terms of what
it saw before. Under `Blocks` and `Directory` a write never reaches the
bytes of the directory, whose block is below every file's.
-/

namespace MBroker

open Tfs

variable {s : Tfs} {i j k k' h h' b b' off n : Nat} {name : List UInt8}

/-! ## Creation -/

theorem create_taken (hi : i < s.inodeTableSize) :
    (s.create i k name).Taken j ↔ j = i ∨ s.Taken j := by
  by_cases hj : j = i
  · subst hj
    simp [Taken, create, hi]
  · simp [Taken, create, hj]

theorem create_inode_self : (s.create i k name).inode i = ⟨.tFile, 0, -1⟩ :=
  Region.set_get_self ..

theorem create_inode_ne (hj : j ≠ i) : (s.create i k name).inode j = s.inode j :=
  Region.set_get_ne _ _ hj

theorem create_dInumber_self (hi : i < 2147483648) : (s.create i k name).dInumber k = i :=
  inumberAt_setEntry (by omega) (by omega)

theorem create_dInumber_ne (hk : k' ≠ k) : (s.create i k name).dInumber k' = s.dInumber k' :=
  inumberAt_setEntry_ne hk

theorem create_dName_self (h0 : 0 ∉ name) (hlen : name.length < maxFileName) :
    (s.create i k name).dName k = name :=
  nameAt_setEntry h0 hlen

theorem create_dName_ne (hk : k' ≠ k) : (s.create i k name).dName k' = s.dName k' :=
  nameAt_setEntry_ne hk

theorem create_live (hk : k < s.maxDirEntries) (hi : i < 2147483648) :
    (s.create i k name).Live k' ↔ k' = k ∨ s.Live k' := by
  by_cases hk' : k' = k
  · subst hk'
    have hne : (s.create i k' name).dInumber k' ≠ -1 := by
      rw [create_dInumber_self hi]
      omega
    exact ⟨fun _ => .inl rfl, fun _ => ⟨hk, hne⟩⟩
  · rw [Live, create_dInumber_ne hk']
    simp only [hk', false_or]
    rfl

/-! ## Removal -/

theorem remove_taken : (s.remove i k).Taken j ↔ j ≠ i ∧ s.Taken j := by
  by_cases hj : j = i
  · subst hj
    simp [Taken, remove]
  · simp [Taken, remove, hj]

theorem remove_dInumber_self : (s.remove i k).dInumber k = -1 := inumberAt_clearEntry

theorem remove_dInumber_ne (hk : k' ≠ k) : (s.remove i k).dInumber k' = s.dInumber k' :=
  inumberAt_clearEntry_ne hk

theorem remove_dName_self : (s.remove i k).dName k = [] := nameAt_clearEntry

theorem remove_dName_ne (hk : k' ≠ k) : (s.remove i k).dName k' = s.dName k' :=
  nameAt_clearEntry_ne hk

theorem remove_live : (s.remove i k).Live k' ↔ k' ≠ k ∧ s.Live k' := by
  by_cases hk : k' = k
  · subst hk
    rw [Live, remove_dInumber_self]
    simp
  · rw [Live, remove_dInumber_ne hk]
    simp only [hk, ne_eq, not_false_eq_true, true_and]
    rfl

/-! ## Blocks -/

theorem releaseBlock_get (hb : s.HasBlock i b) (hsz : 0 < (s.inode i).iSize) :
    (s.releaseBlock i).get b' = if b' = b then .free else s.freeBlocks.get b' := by
  rw [releaseBlock, if_pos hsz, hb.eq, Int.toNat_natCast, Region.set_get]

theorem releaseBlock_taken (h : (s.releaseBlock i).get b = .taken) :
    s.freeBlocks.get b = .taken := by
  rw [releaseBlock] at h
  split at h
  · rw [Region.set_get] at h
    split at h
    · cases h
    · exact h
  · exact h

/-- The block of another file is not released. -/
theorem releaseBlock_get_of_ne (h : 0 < (s.inode i).iSize → (s.inode i).iDataBlock ≠ b)
    (hblock : 0 < (s.inode i).iSize → ∃ b', s.HasBlock i b') :
    (s.releaseBlock i).get b = s.freeBlocks.get b := by
  by_cases hsz : 0 < (s.inode i).iSize
  · obtain ⟨b', hb'⟩ := hblock hsz
    have hne : b ≠ b' := fun heq => h hsz (by rw [hb'.eq, heq])
    rw [releaseBlock_get hb' hsz, if_neg hne]
  · rw [releaseBlock, if_neg hsz]

theorem acquireBlock_get_of_taken (h : s.freeBlocks.get b' = .taken) :
    (s.acquireBlock i b).get b' = .taken := by
  rw [acquireBlock]
  split
  · rw [Region.set_get]
    split
    · rfl
    · exact h
  · exact h

theorem acquireBlock_taken (h : (s.acquireBlock i b).get b' = .taken) :
    b' = b ∨ s.freeBlocks.get b' = .taken := by
  rw [acquireBlock] at h
  split at h
  · rw [Region.set_get] at h
    split at h
    · rename_i heq
      exact .inl heq
    · exact .inr h
  · exact .inr h

/-! ## Writes -/

variable {buffer : Nat → UInt8}

theorem writeAt_inode_self : (s.writeAt h i b off n buffer).inode i =
    { s.inode i with iDataBlock := b, iSize := max (s.inode i).iSize (off + n) } :=
  Region.set_get_self ..

theorem writeAt_inode_ne (hj : j ≠ i) :
    (s.writeAt h i b off n buffer).inode j = s.inode j :=
  Region.set_get_ne _ _ hj

/-- The bytes of an entry lie in the directory's block. -/
theorem entry_le_blockSize (hk : k < s.maxDirEntries) : (k + 1) * sizeofDirEntry ≤ s.blockSize := by
  rw [maxDirEntries] at hk
  exact Nat.le_trans (Nat.mul_le_mul_right _ hk) (Nat.div_mul_le_self _ _)

/-- A write leaves the bytes of the directory. -/
theorem writeAt_entry_get (hb : b ≠ 0) {x : Nat} (hk : k < s.maxDirEntries)
    (hx : x < (k + 1) * sizeofDirEntry) :
    (s.writeAt h i b off n buffer).fsData.get x = s.fsData.get x := by
  have hle := entry_le_blockSize hk
  have hbs : 1 * s.blockSize ≤ b * s.blockSize := Nat.mul_le_mul_right _ (by omega)
  exact Region.blit_get_of_not_mem _ _ (by omega)

theorem writeAt_dInumber (hb : b ≠ 0) (hk : k < s.maxDirEntries) :
    (s.writeAt h i b off n buffer).dInumber k = s.dInumber k :=
  inumberAt_congr fun _ _ hx => writeAt_entry_get hb hk hx

theorem writeAt_dName (hb : b ≠ 0) (hk : k < s.maxDirEntries) :
    (s.writeAt h i b off n buffer).dName k = s.dName k :=
  nameAt_congr fun _ _ hx => writeAt_entry_get hb hk hx

/-- A write changes no name's inode. -/
theorem writeAt_find (hb : b ≠ 0) : (s.writeAt h i b off n buffer).find name = s.find name := by
  have hslot : (s.writeAt h i b off n buffer).findSlot name = s.findSlot name := by
    refine find_range_extend (Nat.le_refl s.maxDirEntries) (fun k hk => ?_) (fun k hk hge => ?_)
    · have hk : k < s.maxDirEntries := hk
      show decide ((s.writeAt h i b off n buffer).dInumber k ≠ -1 ∧
        (s.writeAt h i b off n buffer).dName k = name) = _
      rw [writeAt_dInumber hb hk, writeAt_dName hb hk]
    · exact absurd hk (Nat.not_lt.mpr hge)
  rw [find, find, hslot]
  cases hk : s.findSlot name with
  | none => rw [Option.map_none, Option.map_none]
  | some k =>
      have hnum : (s.writeAt h i b off n buffer).dInumber k = s.dInumber k :=
        writeAt_dInumber hb (findSlot_eq_some hk).1.1
      rw [Option.map_some, Option.map_some, hnum]

theorem writeAt_inumber :
    ((s.writeAt h i b off n buffer).file h').ofInumber = (s.file h').ofInumber := by
  by_cases hh : h' = h
  · simp [file, writeAt, hh]
  · simp [file, writeAt, hh]

/-! ## Handles -/

theorem openHandle_open (hh : h < s.maxOpenFiles) :
    (s.openHandle h i off).Open h' ↔ h' = h ∨ s.Open h' := by
  by_cases heq : h' = h
  · subst heq
    simp [Open, openHandle, hh]
  · simp [Open, openHandle, heq]

theorem openHandle_file_self : (s.openHandle h i off).file h = ⟨i, off⟩ :=
  Region.set_get_self ..

theorem openHandle_file_ne (hh : h' ≠ h) : (s.openHandle h i off).file h' = s.file h' :=
  Region.set_get_ne _ _ hh

theorem closeHandle_open : (s.closeHandle h).Open h' ↔ h' ≠ h ∧ s.Open h' := by
  by_cases heq : h' = h
  · subst heq
    simp [Open, closeHandle]
  · simp [Open, closeHandle, heq]

theorem seekHandle_file_self : (s.seekHandle h off).file h = { s.file h with ofOffset := off } :=
  Region.set_get_self ..

theorem seekHandle_file_ne (hh : h' ≠ h) : (s.seekHandle h off).file h' = s.file h' :=
  Region.set_get_ne _ _ hh

theorem seekHandle_inumber : ((s.seekHandle h off).file h').ofInumber = (s.file h').ofInumber := by
  by_cases hh : h' = h
  · rw [hh, seekHandle_file_self]
  · rw [seekHandle_file_ne hh]

end MBroker
