import MBroker.Fs.Reads

/-!
# Writes and the end of the block

`tfs_write` clamps the length at the end of the block with two `size_t`
operations: `to_write + of_offset` is compared with the block size, and
`block_size - of_offset` is what is left. The sum wraps for the longest
lengths, the difference for an offset past the block, where a read past
the end of a truncated file may have moved it. Either way nothing is
clamped and the copy leaves the memory.
-/

namespace MBroker

open Tfs

variable {s t : Tfs} {h i b off n toWrite blockSize : Nat} {buffer : Nat → UInt8}

/-! ## What a write does -/

/-- A write that fails leaves the file and the offset. -/
structure WriteFails (s t : Tfs) (h : Nat) : Prop where
  inode_eq : t.inode (s.fileInode h) = s.inode (s.fileInode h)
  bytes_eq : t.fileBytes (s.fileInode h) = s.fileBytes (s.fileInode h)
  file_eq : t.file h = s.file h

/-- `n` bytes of `buffer` are at the offset of the file's block, which is
the one it had if it had one; nothing else in the memory has changed. -/
structure WriteCopies (s t : Tfs) (h n : Nat) (buffer : Nat → UInt8) : Prop where
  same_block : 0 < s.fileSize h → t.blockAddr (s.fileInode h) = s.blockAddr (s.fileInode h)
  copied : ∀ j < n, t.fsData.get (t.blockAddr (s.fileInode h) + s.offset h + j) = buffer j
  others : ∀ x, x < t.blockAddr (s.fileInode h) + s.offset h ∨
    t.blockAddr (s.fileInode h) + s.offset h + n ≤ x → t.fsData.get x = s.fsData.get x
  file_eq : t.file h = { s.file h with ofOffset := s.offset h + n }
  offset_le : t.offset h ≤ s.blockSize
  size_eq : t.fileSize h = if n = 0 then s.fileSize h else max (s.fileSize h) (t.offset h)

/-- `tfs_write` fails and changes nothing of the file, or copies what fits
in the block. -/
def WriteStays (s : Tfs) (h : Nat) (buffer : Nat → UInt8) (toWrite : Nat) : Prop :=
  (∃ t, tfsWrite h buffer toWrite s = .ok (-1, t) ∧ WriteFails s t h) ∨
    ∃ t, tfsWrite h buffer toWrite s = .ok ((min toWrite (s.blockSize - s.offset h) : Nat), t) ∧
      WriteCopies s t h (min toWrite (s.blockSize - s.offset h)) buffer

/-- The block that `n` bytes at the offset go to has an `int` for a number
and lies inside the memory. -/
def RoomFor (s : Tfs) (h n : Nat) : Prop :=
  ∀ b, s.blockFor (s.fileInode h) = some b → 0 < n →
    b < 2147483648 ∧ b * s.blockSize + s.offset h + n ≤ s.fsData.size

/-- The file is empty and no block is free; or the offset is in the block,
the sum does not wrap and there is room. -/
def WriteFits (s : Tfs) (h toWrite : Nat) : Prop :=
  s.blockFor (s.fileInode h) = none ∨
    s.offset h ≤ s.blockSize ∧ toWrite + s.offset h < 18446744073709551616 ∧
      RoomFor s h (min toWrite (s.blockSize - s.offset h))

/-! ## The clamp -/

theorem clampWrite_eq (hoff : off ≤ blockSize) (hbs : blockSize < 18446744073709551616)
    (hsum : toWrite + off < 18446744073709551616) :
    clampWrite toWrite off blockSize = min toWrite (blockSize - off) := by
  rw [clampWrite, sizeAdd, Nat.mod_eq_of_lt hsum, sizeSub_of_le hoff hbs]
  split
  · omega
  · omega

/-- A sum that wraps is below the block size: nothing is clamped. -/
theorem clampWrite_of_wrap (hoff : off ≤ blockSize) (hoff' : off < 18446744073709551616)
    (htw : toWrite < 18446744073709551616) (hsum : 18446744073709551616 ≤ toWrite + off) :
    clampWrite toWrite off blockSize = toWrite := by
  have hadd : sizeAdd toWrite off = toWrite + off - 18446744073709551616 := by
    rw [sizeAdd]
    omega
  rw [clampWrite, hadd, if_neg (by omega)]

/-- With nothing to write the offset is in the block, or at its end. -/
theorem clampWrite_eq_zero (hbs : blockSize < 18446744073709551616)
    (hoff : off < 18446744073709551616) (htw : toWrite < 18446744073709551616)
    (hz : clampWrite toWrite off blockSize = 0) :
    off ≤ blockSize ∧ toWrite + off < 18446744073709551616 ∧ min toWrite (blockSize - off) = 0 := by
  have hle : off ≤ blockSize := by
    by_contra hc
    rw [clampWrite] at hz
    split at hz
    · rw [sizeSub_of_lt (by omega) hoff] at hz
      omega
    · rename_i hsum
      rw [hz, sizeAdd, Nat.zero_add, Nat.mod_eq_of_lt hoff] at hsum
      omega
  have hsum : toWrite + off < 18446744073709551616 := by
    by_contra hc
    rw [clampWrite_of_wrap hle hoff htw (by omega)] at hz
    omega
  rw [clampWrite_eq hle hbs hsum] at hz
  exact ⟨hle, hsum, hz⟩

/-! ## A write that returns -/

theorem writeFails_self : WriteFails s s h := ⟨rfl, rfl, rfl⟩

/-- A write of nothing. -/
theorem writeCopies_zero (hoff : s.offset h ≤ s.blockSize) : WriteCopies s s h 0 buffer where
  same_block := fun _ => rfl
  copied := fun j hj => absurd hj (Nat.not_lt_zero j)
  others := fun _ _ => rfl
  file_eq := rfl
  offset_le := hoff
  size_eq := (if_pos rfl).symm

/-- The bytes of a `writeAt` are where the write puts them. -/
theorem Tfs.Writes.copies (hw : s.Writes h i b off n) :
    WriteCopies s (s.writeAt h i b off n buffer) h n buffer := by
  have hpos := hw.pos
  have hi : s.fileInode h = i := by
    rw [fileInode, hw.file_eq]
    rfl
  have hoff : s.offset h = off := by rw [offset, hw.file_eq]
  have hfile : (s.writeAt h i b off n buffer).file h = { s.file h with ofOffset := off + n } :=
    Region.set_get_self ..
  have hoff' : (s.writeAt h i b off n buffer).offset h = off + n := by rw [offset, hfile]
  have haddr : (s.writeAt h i b off n buffer).blockAddr i = b * s.blockSize := by
    rw [blockAddr, writeAt_inode_self, Int.toNat_natCast]
    rfl
  constructor
  case same_block =>
    intro hsz
    rw [hi, haddr, blockAddr]
    rw [fileSize, hi] at hsz
    have hb := hw.block
    rw [blockFor, if_neg (by omega)] at hb
    rw [Option.some.inj hb]
  case copied =>
    intro j hj
    rw [hi, hoff, haddr]
    refine (Region.blit_get_of_mem _ _ (by omega) (by omega)).trans ?_
    congr 1
    omega
  case others =>
    intro x hx
    rw [hi, hoff, haddr] at hx
    exact Region.blit_get_of_not_mem _ _ hx
  case file_eq => rw [hoff, hfile]
  case offset_le =>
    rw [hoff']
    exact hw.le_block
  case size_eq =>
    have hi' : (s.writeAt h i b off n buffer).fileInode h = i := by
      rw [fileInode, hfile, ← hi]
    rw [if_neg (by omega), hoff', fileSize, fileSize, hi', hi, writeAt_inode_self]

/-! ## The condition -/

theorem Inv.writeFits_of_stays (hinv : Inv s) (he : Extents s) (ho : s.Open h)
    (htw : toWrite < 18446744073709551616) (hstays : WriteStays s h buffer toWrite) :
    WriteFits s h toWrite := by
  obtain ⟨i, off, hf, hi0, -⟩ := hinv.bounds.file_eq ho
  have hlt := he.offset_lt h ho
  have hbs := hinv.base.blockSize_lt
  unfold WriteFits RoomFor
  simp only [offset, fileInode, hf, Int.toNat_natCast] at hlt ⊢
  cases hb : s.blockFor i with
  | none => exact .inl rfl
  | some b =>
      -- a block to write to: the write returns, and its result is the clamped length
      obtain ⟨r, t, hw⟩ : ∃ r t, tfsWrite h buffer toWrite s = .ok (r, t) := by
        rcases hstays with ⟨t, hw, -⟩ | ⟨t, hw, -⟩
        · exact ⟨_, t, hw⟩
        · exact ⟨_, t, hw⟩
      right
      by_cases hz : clampWrite toWrite off s.blockSize = 0
      · obtain ⟨hoff, hsum, hmin⟩ := clampWrite_eq_zero (by omega) hlt htw hz
        refine ⟨hoff, hsum, ?_⟩
        intro b' _ hpos
        omega
      · obtain ⟨hwrites, -⟩ := hinv.tfsWrite_writes ho hf hz hb hw
        have hle := hwrites.le_block
        have hoff : off ≤ s.blockSize := by omega
        have hsum : toWrite + off < 18446744073709551616 := by
          by_contra hc
          rw [clampWrite_of_wrap hoff hlt htw (by omega)] at hle
          omega
        have hint := hwrites.int
        have haddr := hwrites.addr_le
        rw [clampWrite_eq hoff (by omega) hsum] at haddr
        refine ⟨hoff, hsum, ?_⟩
        intro b' hb' _
        obtain rfl := Option.some.inj hb'
        exact ⟨hint, haddr⟩

theorem Inv.writeStays_of_fits (hinv : Inv s) (he : Extents s) (ho : s.Open h)
    (htw : toWrite < 18446744073709551616) (hfits : WriteFits s h toWrite) :
    WriteStays s h buffer toWrite := by
  obtain ⟨i, off, hf, hi0, -⟩ := hinv.bounds.file_eq ho
  have hlt := he.offset_lt h ho
  have hbs := hinv.base.blockSize_lt
  have hoffset : s.offset h = off := by rw [offset, hf]
  have heq := hinv.tfsWrite_eq ho hf buffer toWrite
  rw [hf] at hlt
  unfold WriteStays
  unfold WriteFits RoomFor at hfits
  rw [hoffset]
  simp only [offset, fileInode, hf, Int.toNat_natCast] at hfits
  by_cases hz : clampWrite toWrite off s.blockSize = 0
  · obtain ⟨hoff, -, hmin⟩ := clampWrite_eq_zero (by omega) hlt htw hz
    rw [if_pos hz] at heq
    rw [hmin]
    exact .inr ⟨s, heq, writeCopies_zero (by rw [hoffset]; exact hoff)⟩
  · rw [if_neg hz] at heq
    rcases hfits with hb | ⟨hoff, hsum, hroom⟩
    · rw [hb] at heq
      exact .inl ⟨s, heq, writeFails_self⟩
    · rw [clampWrite_eq hoff (by omega) hsum] at hz heq
      cases hb : s.blockFor i with
      | none =>
          rw [hb] at heq
          exact .inl ⟨s, heq, writeFails_self⟩
      | some b =>
          obtain ⟨hint, hfits⟩ := hroom b hb (by omega)
          have hdata := hinv.base.fsData_size
          rw [hb] at heq
          dsimp only at heq
          rw [if_neg (not_not_intro hint), if_pos hfits, toSSize_of_lt (by omega)] at heq
          have hclamp : clampWrite toWrite off s.blockSize = min toWrite (s.blockSize - off) :=
            clampWrite_eq hoff (by omega) hsum
          obtain ⟨hwrites, ht⟩ := hinv.tfsWrite_writes ho hf (by rw [hclamp]; exact hz) hb heq
          rw [hclamp] at hwrites
          exact .inr ⟨_, heq, hwrites.copies⟩

/-- With parameters whose tables fit in memory there is always room. -/
theorem Sized.roomFor {params : TfsParams} (hs : Sized params s) (hp : params.InRange)
    (hinv : Inv s) (ho : s.Open h) (hn : s.offset h + n ≤ s.blockSize) : RoomFor s h n := by
  obtain ⟨i, off, hf, hi0, -⟩ := hinv.bounds.file_eq ho
  have hi : s.fileInode h = i := by
    rw [fileInode, hf]
    rfl
  intro b hb _
  obtain ⟨-, hlt⟩ := hinv.blockFor_ne ho hf hi0 (by rw [← hi]; exact hb)
  have hcount := hp.maxBlockCount_le
  have hparams := hs.params_eq
  have hdata := hs.fsData
  have hmul : (b + 1) * s.blockSize ≤ params.maxBlockCount * params.blockSize := by
    rw [← hparams]
    exact Nat.mul_le_mul_right _ hlt
  rw [Nat.add_mul] at hmul
  rw [dataBlocks, hparams] at hlt
  exact ⟨by omega, by omega⟩

/-- **Writes stay inside the block** exactly when neither operation of the
clamp wraps and there is room, or there is no block to be had. -/
theorem reachable_writeStays_iff (hr : tfsMachine.Reachable s) (ho : s.Open h)
    (htw : toWrite < 18446744073709551616) (buffer : Nat → UInt8) :
    WriteStays s h buffer toWrite ↔ WriteFits s h toWrite :=
  ⟨(reachable_inv hr).writeFits_of_stays (reachable_extents hr) ho htw,
    (reachable_inv hr).writeStays_of_fits (reachable_extents hr) ho htw⟩

theorem sharedRun_room :
    (tfsRunBy (fun _ _ => True) smallParams dirtyMallocs sharedRun).map (fun s =>
      decide (s.Open 0 ∧ s.offset 0 = 60 ∧ s.fileSize 0 = 60 ∧ s.blockSize = 100 ∧
        s.blockFor (s.fileInode 0) = some 1 ∧ s.fsData.size = 300)) = some true := by
  decide +kernel

/-- Forty of fifty bytes fit after the sixty of `/a`. -/
theorem sharedRun_writeStays :
    ∃ s, tfsMachine.Reachable s ∧ s.offset 0 = 60 ∧ s.blockSize = 100 ∧
      WriteStays s 0 (fun _ => 2) 50 := by
  obtain ⟨s, hrun, hobs⟩ := Option.map_eq_some_iff.mp sharedRun_room
  obtain ⟨hopen, hoff, hsize, hbs, hblock, hdata⟩ := of_decide_eq_true hobs
  have hreach := tfsRunBy_reachable hrun
  have hroom : RoomFor s 0 (min 50 (s.blockSize - s.offset 0)) := by
    intro b hb _
    rw [hblock] at hb
    obtain rfl := Option.some.inj hb
    exact ⟨by omega, by omega⟩
  exact ⟨s, hreach, hoff, hbs, (reachable_writeStays_iff hreach hopen (by decide) _).mpr
    (.inr ⟨by omega, by omega, hroom⟩)⟩

/-- A handle of `/a`, which another open has truncated, has read 100 bytes
from its offset 60 on. -/
def pastBlockRun : List TfsCall :=
  [.open pathA tfsOCreat, .write 0 (fun _ => 1) 60, .open pathA tfsOTrunc, .read 0 100]

theorem pastBlockRun_result :
    (tfsRunBy (fun _ _ => True) smallParams dirtyMallocs pastBlockRun).map (fun s =>
      (decide (s.Open 0 ∧ s.resolve pathA = some (s.fileInode 0) ∧ s.blockSize = 100 ∧
        s.offset 0 = 160), (tfsWrite 0 (fun _ => 2) 1 s).map Prod.fst)) =
    some (true, .error .outOfBounds) := by
  decide +kernel

/-- The offset is past the block, and a write of one byte leaves the memory. -/
theorem pastBlockRun_not_writeStays :
    ∃ s, tfsMachine.Reachable s ∧ s.Open 0 ∧ s.resolve pathA = some (s.fileInode 0) ∧
      s.blockSize = 100 ∧ s.offset 0 = 160 ∧ ¬ WriteStays s 0 (fun _ => 2) 1 := by
  obtain ⟨s, hrun, hobs⟩ := Option.map_eq_some_iff.mp pastBlockRun_result
  obtain ⟨hstate, hwrite⟩ := Prod.mk.inj hobs
  obtain ⟨hopen, hres, hbs, hoff⟩ := of_decide_eq_true hstate
  refine ⟨s, tfsRunBy_reachable hrun, hopen, hres, hbs, hoff, ?_⟩
  rintro (⟨t, hw, -⟩ | ⟨t, hw, -⟩)
  · have hw : tfsWrite 0 (fun _ => 2) 1 s = _ := hw
    rw [hw] at hwrite
    cases hwrite
  · have hw : tfsWrite 0 (fun _ => 2) 1 s = _ := hw
    rw [hw] at hwrite
    cases hwrite

end MBroker
