import MBroker.Fs.Paths

/-!
# Sizes, offsets and the memory

The bytes of a file lie inside `fs_data`, also with parameters for which
`malloc` was asked for less than all the blocks: a file has grown by
writes, and each of them stayed inside. The offset of an open handle is a
`size_t`. It may be past the end of the file: another handle may have
truncated it.
-/

namespace MBroker

open Tfs

variable {s t : Tfs} {h i j k b off n len : Nat} {fhandle : Int}

structure Extents (s : Tfs) : Prop where
  fits : ∀ i, s.Held i → 0 < (s.inode i).iSize →
    s.blockAddr i + (s.inode i).iSize ≤ s.fsData.size
  offset_lt : ∀ h, s.Open h → (s.file h).ofOffset < 18446744073709551616

/-! ## Sizes -/

/-- A file that was held before and has not changed still lies inside. -/
theorem Frame.fits (hf : Frame s t) (hinode : t.inode i = s.inode i)
    (hfits : s.blockAddr i + (s.inode i).iSize ≤ s.fsData.size) :
    t.blockAddr i + (t.inode i).iSize ≤ t.fsData.size := by
  have haddr : t.blockAddr i = s.blockAddr i := by
    rw [blockAddr, blockAddr, hinode, blockSize, hf.fsParams]
  rw [haddr, hinode, hf.fsData_size]
  exact hfits

/-- A write stays inside the memory, and so does the file after it. -/
theorem Inv.fits_writeAt (hinv : Inv s) (hw : s.Writes h i b off n) (buffer : Nat → UInt8)
    (hfits : 0 < (s.inode i).iSize → s.blockAddr i + (s.inode i).iSize ≤ s.fsData.size) :
    (s.writeAt h i b off n buffer).blockAddr i + ((s.writeAt h i b off n buffer).inode i).iSize ≤
      (s.writeAt h i b off n buffer).fsData.size := by
  have haddr : (s.writeAt h i b off n buffer).blockAddr i = b * s.blockSize := by
    rw [blockAddr, writeAt_inode_self, Int.toNat_natCast]
    rfl
  have hsize : (s.writeAt h i b off n buffer).fsData.size = s.fsData.size := rfl
  have hle := hw.addr_le
  rw [haddr, hsize, writeAt_inode_self]
  dsimp only
  rcases hinv.block_of_write hw with ⟨hz, -⟩ | ⟨hpos, hb⟩
  · rw [hz]
    omega
  · have hfits := hfits hpos
    rw [blockAddr, hb, Int.toNat_natCast] at hfits
    omega

theorem Inv.fits_update (hinv : Inv s) (hu : Update s t)
    (hfits : ∀ i, s.Held i → 0 < (s.inode i).iSize →
      s.blockAddr i + (s.inode i).iSize ≤ s.fsData.size) (j : Nat) (hj : t.Held j)
    (hsz : 0 < (t.inode j).iSize) : t.blockAddr j + (t.inode j).iSize ≤ t.fsData.size := by
  have hframe := hinv.update_frame hu
  have hsame : s.Held j → t.inode j = s.inode j →
      t.blockAddr j + (t.inode j).iSize ≤ t.fsData.size := by
    intro hheld hinode
    exact hframe.fits hinode (hfits j hheld (by rw [← hinode]; exact hsz))
  -- only a write makes a file longer; what is created or truncated is empty
  cases hu with
  | @resetInode i hi =>
      have hne : j ≠ i := by
        rintro rfl
        rw [show (s.resetInode j).inode j = _ from Region.set_get_self ..] at hsz
        cases hsz
      exact hsame hj (Region.set_get_ne _ _ hne)
  | @create i k name hi =>
      have hne : j ≠ i := by
        rintro rfl
        rw [create_inode_self] at hsz
        cases hsz
      refine hsame ⟨hj.1, hj.2.imp (fun ht => ?_) id⟩ (create_inode_ne hne)
      exact ((create_taken (firstFreeInode_free hi).1).mp ht).resolve_left hne
  | @truncate i =>
      have hne : j ≠ i := by
        rintro rfl
        rw [show (s.truncate j).inode j = _ from Region.set_get_self ..] at hsz
        cases hsz
      exact hsame hj (Region.set_get_ne _ _ hne)
  | @openHandle h i off hh hlt ht hi =>
      have hmax : h < s.maxOpenFiles := by
        have := (find_range_eq_some.mp hh).1
        omega
      exact hsame (openHandle_held hmax ⟨hi, .inl ht⟩ hj) rfl
  | closeHandle => exact hsame (closeHandle_held hj) rfl
  | seekHandle => exact hsame (seekHandle_held hj) rfl
  | @writeAt h i b off n hw buffer =>
      have hheld : s.Held j := writeAt_held hj
      by_cases hji : j = i
      · subst hji
        exact hinv.fits_writeAt hw buffer (hfits j hheld)
      · exact hsame hheld (writeAt_inode_ne hji)
  | remove => exact hsame (remove_held hj) rfl

/-! ## Offsets -/

theorem Inv.iSize_lt (hinv : Inv s) (hi : s.Held i) :
    (s.inode i).iSize < 18446744073709551616 := by
  have hbs := hinv.base.blockSize_lt
  by_cases hz : (s.inode i).iSize = 0
  · omega
  · obtain ⟨b, hb⟩ := hinv.blocks.held i hi (by omega)
    have := hb.size_le
    omega

theorem Inv.offset_lt_of_call {c : TfsCall} {res : TfsResult} (hinv : Inv s)
    (hlt : ∀ h, s.Open h → (s.file h).ofOffset < 18446744073709551616)
    (hc : tfsCall s c = .ok (res, t)) (h : Nat) (ho : t.Open h) :
    (t.file h).ofOffset < 18446744073709551616 := by
  cases c with
  | «open» m mode =>
      obtain ⟨hopen, -⟩ := tfsCall_open.mp hc
      have hresult := hinv.tfsOpen_ok hopen
      have hinv' := hinv.of_call hc
      have hold : s.Open h → (t.file h).ofOffset < 18446744073709551616 := by
        intro hs
        rw [hresult.file_of_open hs]
        exact hlt h hs
      rcases hresult.handles with ⟨-, hopens⟩ | ⟨h', hr, -, hopens⟩
      · exact hold ((hopens h).mp ho)
      · rcases (hopens h).mp ho with rfl | hs
        · obtain ⟨i, hi, -, hoff⟩ := hresult.new_file hinv hr
          obtain ⟨hi0, hti⟩ := hinv'.of_resolve hi
          exact Nat.lt_of_le_of_lt hoff (hinv'.iSize_lt ⟨hi0, .inl hti⟩)
        · exact hold hs
  | close fhandle =>
      obtain ⟨hclose, -⟩ := tfsCall_close.mp hc
      rcases hinv.tfsClose_cases hclose with ⟨h', -, -, -, rfl⟩ | ⟨-, -, rfl⟩
      · exact hlt h (closeHandle_open.mp ho).2
      · exact hlt h ho
  | write fhandle buffer toWrite =>
      obtain ⟨hwrite, -⟩ := tfsCall_write.mp hc
      rcases hinv.tfsWrite_cases hwrite with rfl | ⟨h', i, b, off, -, hw, rfl⟩
      · exact hlt h ho
      · have hbs := hinv.base.blockSize_lt
        have hle := hw.le_block
        by_cases heq : h = h'
        · subst heq
          rw [show (s.writeAt h i b off _ buffer).file h = _ from Region.set_get_self ..]
          dsimp only
          omega
        · rw [show (s.writeAt h' i b off _ buffer).file h = _ from Region.set_get_ne _ _ heq]
          exact hlt h ho
  | read fhandle len =>
      rcases hinv.tfsRead_cases hc with rfl | ⟨h', off, -, -, hoff, rfl⟩
      · exact hlt h ho
      · by_cases heq : h = h'
        · subst heq
          rw [seekHandle_file_self]
          exact hoff
        · rw [seekHandle_file_ne heq]
          exact hlt h ho
  | unlink target =>
      obtain ⟨hunlink, -⟩ := tfsCall_unlink.mp hc
      rcases hinv.tfsUnlink_cases hunlink with ⟨-, -, rfl⟩ | ⟨_, _, _, _, _, _, _, _, rfl⟩
      · exact hlt h ho
      · exact hlt h ho

/-! ## Runs -/

theorem Extents.of_call {c : TfsCall} {res : TfsResult} (he : Extents s) (hinv : Inv s)
    (hc : tfsCall s c = .ok (res, t)) : Extents t := by
  constructor
  · have hgen : ∀ {u : Tfs}, Relation.ReflTransGen Update s u → ∀ i, u.Held i →
        0 < (u.inode i).iSize → u.blockAddr i + (u.inode i).iSize ≤ u.fsData.size := by
      intro u hu
      induction hu with
      | refl => exact he.fits
      | tail hst hu ih => exact (hinv.updates hst).fits_update hu ih
    exact hgen (hinv.tfsCall_updates hc)
  · exact hinv.offset_lt_of_call he.offset_lt hc

/-- **Sizes and offsets stay in range** in every run. -/
theorem reachable_extents (h : tfsMachine.Reachable s) : Extents s := by
  refine h.invariant' ?_ ?_
  · intro s hs
    obtain ⟨params, m, hstart⟩ := hs
    have he := hstart.emptyRoot.1
    constructor
    · rintro i ⟨hi0, ht | ⟨h, ho, -⟩⟩
      · exact absurd (he.only_root i ht) hi0
      · exact absurd ho (he.none_open h)
    · exact fun h ho => absurd ho (he.none_open h)
  · intro s c t hr he _ hstep
    obtain ⟨res, hc⟩ := tfsMachine_step_eq_some.mp hstep
    exact he.of_call (reachable_inv hr) hc

end MBroker
