import MBroker.Fs.Consistency
import MBroker.Fs.Extents

/-!
# Reads and the end of the file

`tfs_read` sets out to read `i_size - of_offset` bytes and tests nothing
before the subtraction. While the offset is not past the end of the file
a read returns the bytes that are left, `len` of them at most. Past the
end, after another handle has truncated the file, the difference wraps
and the read returns bytes that the file does not have.
-/

namespace MBroker

open Tfs

variable {s t : Tfs} {h i j b off n len : Nat}

/-! ## The handle's file -/

/-- `open_file_table[h].of_offset`. -/
abbrev Tfs.offset (s : Tfs) (h : Nat) : Nat := (s.file h).ofOffset

/-- The inode that handle `h` refers to. -/
abbrev Tfs.fileInode (s : Tfs) (h : Nat) : Nat := (s.file h).ofInumber.toNat

/-- The `i_size` of the inode that handle `h` refers to. -/
abbrev Tfs.fileSize (s : Tfs) (h : Nat) : Nat := (s.inode (s.fileInode h)).iSize

/-- `tfs_read` returns the bytes from the offset on, `len` of them at most,
and moves the offset past them; past the end of the file there are none. -/
def ReadStops (s : Tfs) (h len : Nat) : Prop :=
  tfsRead h len s = .ok
    (((min len (s.fileSize h - s.offset h) : Nat),
      ((s.fileBytes (s.fileInode h)).drop (s.offset h)).take len),
      s.seekHandle h (s.offset h + min len (s.fileSize h - s.offset h)))

/-- `i_size - of_offset` is the difference of the two numbers. -/
def NoWrap (s : Tfs) (h : Nat) : Prop :=
  (sizeSub (s.fileSize h) (s.offset h) : Int) = s.fileSize h - s.offset h

/-! ## The clamp -/

theorem sizeSub_of_le {size : Nat} (hoff : off ≤ size) (hsize : size < 18446744073709551616) :
    sizeSub size off = size - off := by
  rw [sizeSub, Nat.mod_eq_of_lt (show off < 18446744073709551616 by omega)]
  omega

/-- Past the end the subtraction wraps. -/
theorem sizeSub_of_lt {size : Nat} (hsize : size < off) (hoff : off < 18446744073709551616) :
    sizeSub size off = size + 18446744073709551616 - off := by
  rw [sizeSub, Nat.mod_eq_of_lt hoff]
  omega

theorem clampRead_eq {size : Nat} (hoff : off ≤ size) (hsize : size < 18446744073709551616) :
    clampRead len off size = min len (size - off) := by
  rw [clampRead, sizeSub_of_le hoff hsize]
  split
  · omega
  · omega

theorem clampRead_zero {size : Nat} : clampRead 0 off size = 0 := by
  rw [clampRead]
  split
  · rfl
  · omega

/-- A read past the end finds something to read. -/
theorem clampRead_ne_zero {size : Nat} (hsize : size < off) (hoff : off < 18446744073709551616)
    (hlen : len ≠ 0) : clampRead len off size ≠ 0 := by
  rw [clampRead, sizeSub_of_lt hsize hoff]
  split
  · exact hlen
  · omega

/-! ## Within the file -/

/-- The bytes a read copies out are the file's from the offset on. -/
theorem drop_take_fileBytes (n : Nat) (hn : off + n ≤ (s.inode i).iSize) :
    ((List.range n).map fun j => s.fsData.get (s.blockAddr i + off + j))
      = ((s.fileBytes i).drop off).take n := by
  refine List.ext_getElem ?_ fun x h1 h2 => ?_
  · rw [List.length_map, List.length_range, List.length_take, List.length_drop, fileBytes_length]
    omega
  · simp only [fileBytes, List.getElem_map, List.getElem_range, List.getElem_take,
      List.getElem_drop, Nat.add_assoc]

theorem take_min_fileBytes : ((s.fileBytes i).drop off).take (min len ((s.inode i).iSize - off)) =
    ((s.fileBytes i).drop off).take len := by
  rw [List.take_eq_take_iff, List.length_drop, fileBytes_length]
  omega

theorem seekHandle_self (hf : s.file h = ⟨i, off⟩) : s.seekHandle h off = s := by
  have hset : s.openFileTable.set h { s.file h with ofOffset := off } = s.openFileTable :=
    Region.set_of_get_eq (by rw [hf]; exact hf)
  rw [seekHandle, hset]

/-- **A read that starts within the file** returns what is left of it. -/
theorem Inv.read_within (hinv : Inv s) (ho : s.Open h) (hf : s.file h = ⟨i, off⟩)
    (hoff : off ≤ (s.inode i).iSize)
    (hfits : 0 < (s.inode i).iSize → s.blockAddr i + (s.inode i).iSize ≤ s.fsData.size)
    (len : Nat) : tfsRead h len s = .ok
      (((min len ((s.inode i).iSize - off) : Nat), ((s.fileBytes i).drop off).take len),
        s.seekHandle h (off + min len ((s.inode i).iSize - off))) := by
  obtain ⟨j, hj, hheld⟩ := hinv.held_of_open ho
  rw [hf] at hj
  obtain rfl : i = j := Int.ofNat_inj.mp hj
  rw [hinv.tfsRead_eq ho hf, clampRead_eq hoff (hinv.iSize_lt hheld), ← take_min_fileBytes]
  generalize hn : min len ((s.inode i).iSize - off) = n
  by_cases hz : n = 0
  · subst hz
    rw [if_pos rfl, List.take_zero, Nat.add_zero, seekHandle_self hf]
    rfl
  · -- something is left of the file, so it has a block and lies inside the memory
    obtain ⟨b, hb⟩ := hinv.blocks.held i hheld (by omega)
    have hvalid : s.validBlockNumber (s.inode i).iDataBlock := by
      have hlt := hb.valid
      rw [hb.eq]
      exact ⟨by omega, by omega⟩
    have hfits := hfits (by omega)
    have hdata := hinv.base.fsData_size
    have haddr : s.blockAddr i % 18446744073709551616 = s.blockAddr i :=
      Nat.mod_eq_of_lt (by omega)
    have hsum : sizeAdd off n = off + n := Nat.mod_eq_of_lt (by omega)
    rw [if_neg hz, if_neg (not_not_intro hvalid), haddr, if_pos (by omega), hsum,
      toSSize_of_lt (by omega), drop_take_fileBytes n (by omega)]

/-! ## Past the end -/

/-- A read that returns has returned as many bytes as it set out to read. -/
theorem Inv.read_length (hinv : Inv s) (ho : s.Open h) (hf : s.file h = ⟨i, off⟩) {r : Int}
    {bytes : List UInt8} (hr : tfsRead h len s = .ok ((r, bytes), t)) :
    bytes.length = clampRead len off (s.inode i).iSize := by
  rw [hinv.tfsRead_eq ho hf] at hr
  generalize clampRead len off (s.inode i).iSize = n at hr ⊢
  split at hr
  · rename_i hz
    obtain ⟨hres, -⟩ := ok_pair_inj hr
    obtain rfl := (Prod.mk.inj hres).2
    exact hz.symm
  · split at hr
    · cases hr
    · split at hr
      · obtain ⟨hres, -⟩ := ok_pair_inj hr
        obtain rfl := (Prod.mk.inj hres).2
        rw [List.length_map, List.length_range]
      · cases hr

/-- Past the end every read of something goes wrong. -/
theorem Inv.readStops_iff (hinv : Inv s) (he : Extents s) (ho : s.Open h) (len : Nat) :
    ReadStops s h len ↔ s.offset h ≤ s.fileSize h ∨ len = 0 := by
  obtain ⟨i, off, hf, hi0, -⟩ := hinv.bounds.file_eq ho
  have hheld : s.Held i := ⟨hi0, .inr ⟨h, ho, by rw [hf]⟩⟩
  have hlt := he.offset_lt h ho
  unfold ReadStops
  simp only [offset, fileSize, fileInode, hf, Int.toNat_natCast] at hlt ⊢
  constructor
  · intro hr
    have hlength := hinv.read_length ho hf hr
    by_contra hc
    obtain ⟨hoff, hlen⟩ := not_or.mp hc
    -- past the end `to_read` wraps, and the read returns bytes where there are none
    rw [List.length_take, List.length_drop, fileBytes_length] at hlength
    have := clampRead_ne_zero (Nat.lt_of_not_le hoff) hlt hlen
    omega
  · rintro (hoff | rfl)
    · exact hinv.read_within ho hf hoff (he.fits i hheld) len
    · rw [hinv.tfsRead_eq ho hf, clampRead_zero, if_pos rfl, List.take_zero, Nat.zero_min,
        Nat.add_zero, seekHandle_self hf]
      rfl

theorem Inv.noWrap_iff (hinv : Inv s) (ho : s.Open h) :
    NoWrap s h ↔ s.offset h ≤ s.fileSize h := by
  obtain ⟨i, off, hf, hi0, -⟩ := hinv.bounds.file_eq ho
  have hsize := hinv.iSize_lt (i := i) ⟨hi0, .inr ⟨h, ho, by rw [hf]⟩⟩
  unfold NoWrap
  simp only [offset, fileSize, fileInode, hf, Int.toNat_natCast]
  constructor
  · omega
  · intro hoff
    rw [sizeSub_of_le hoff hsize]
    omega

/-- **Reads stop at the end of the file** through exactly the handles whose
offset is not past it. -/
theorem reachable_readStops_iff (hr : tfsMachine.Reachable s) (ho : s.Open h) (len : Nat) :
    (ReadStops s h len ∧ NoWrap s h ↔ s.offset h ≤ s.fileSize h) ∧
      (ReadStops s h len ↔ s.offset h ≤ s.fileSize h ∨ len = 0) := by
  have hinv := reachable_inv hr
  have hstops := hinv.readStops_iff (reachable_extents hr) ho len
  have hwrap := hinv.noWrap_iff ho
  constructor
  · rw [hstops, hwrap]
    exact ⟨And.right, fun hoff => ⟨.inl hoff, hoff⟩⟩
  · exact hstops

/-- `/a` is written through one handle and opened with another. -/
def sharedRun : List TfsCall :=
  [.open pathA tfsOCreat, .write 0 (fun _ => 1) 60, .open pathA 0]

theorem sharedRun_result :
    (tfsRunBy (fun _ _ => True) smallParams dirtyMallocs sharedRun).map (fun s =>
      decide (s.Open 1 ∧ s.resolve pathA = some (s.fileInode 1) ∧
        s.offset 1 = 0 ∧ s.fileSize 1 = 60)) = some true := by
  decide +kernel

theorem sharedRun_readStops :
    ∃ s, tfsMachine.Reachable s ∧ s.resolve pathA = some (s.fileInode 1) ∧
      ReadStops s 1 100 ∧ NoWrap s 1 := by
  obtain ⟨s, hrun, hobs⟩ := Option.map_eq_some_iff.mp sharedRun_result
  obtain ⟨hopen, hres, hoff, hsize⟩ := of_decide_eq_true hobs
  have hreach := tfsRunBy_reachable hrun
  exact ⟨s, hreach, hres, (reachable_readStops_iff hreach hopen 100).1.mpr (by omega)⟩

/-- A handle of `/a` has read 20 of its 60 bytes when another open
truncates the file. -/
def truncatedRun : List TfsCall :=
  [.open pathA tfsOCreat, .write 0 (fun _ => 1) 60, .close 0, .open pathA 0, .read 0 20,
    .open pathA tfsOTrunc]

theorem truncatedRun_result :
    (tfsRunBy (fun _ _ => True) smallParams dirtyMallocs truncatedRun).map (fun s =>
      (decide (s.Open 0 ∧ s.resolve pathA = some (s.fileInode 0) ∧ s.fileSize 0 = 0),
        (tfsRead 0 10 s).map Prod.fst)) = some (true, .ok (10, List.replicate 10 1)) := by
  decide +kernel

/-- The file is empty, and a read of ten bytes returns ten. -/
theorem truncatedRun_not_readStops :
    ∃ s, tfsMachine.Reachable s ∧ s.Open 0 ∧ s.resolve pathA = some (s.fileInode 0) ∧
      s.fileSize 0 = 0 ∧ (tfsRead 0 10 s).map Prod.fst = .ok (10, List.replicate 10 1) ∧
      ¬ ReadStops s 0 10 := by
  obtain ⟨s, hrun, hobs⟩ := Option.map_eq_some_iff.mp truncatedRun_result
  obtain ⟨hstate, hread⟩ := Prod.mk.inj hobs
  obtain ⟨hopen, hres, hsize⟩ := of_decide_eq_true hstate
  refine ⟨s, tfsRunBy_reachable hrun, hopen, hres, hsize, hread, ?_⟩
  intro hstops
  have hstops : tfsRead 0 10 s = _ := hstops
  rw [hstops, hsize] at hread
  have hcount := congrArg Prod.fst (Except.ok.inj hread)
  simp at hcount

end MBroker
