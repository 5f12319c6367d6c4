import MBroker.Fs.Reads

/-!
# The assertions of TécnicoFS

A failed assertion ends the process. Most of those in fs/state.c and
fs/operations.c can never fail: `tfs_open`, `tfs_close` and `tfs_unlink`
give every helper a number that it accepts. `tfs_read` asserts that the
inode of its file has a data block, and does so before it knows that the
file has a byte to read: through the handle of an unlinked file whose
inode belongs to a new, empty file it fails. `tfs_write` stores the number
of a new block in an `int`.
-/

namespace MBroker

open Tfs

variable {s t : Tfs} {h i off len : Nat} {α β : Type}

/-! ## Results without a failed assertion -/

/-- No assertion has failed. -/
def NoPanic (x : Except Fault α) : Prop := ∀ msg, x ≠ .error (.panic msg)

theorem noPanic_ok (a : α) : NoPanic (.ok a) := by
  intro msg hc
  cases hc

theorem noPanic_outOfBounds : NoPanic (.error .outOfBounds : Except Fault α) := by
  intro msg hc
  cases hc

theorem not_noPanic (msg : String) : ¬ NoPanic (.error (.panic msg) : Except Fault α) :=
  fun hn => hn msg rfl

theorem noPanic_bind {x : Except Fault α} {f : α → Except Fault β} :
    NoPanic (x >>= f) ↔ NoPanic x ∧ ∀ a, x = .ok a → NoPanic (f a) := by
  cases x with
  | ok a =>
      rw [ok_bind]
      constructor
      · intro hf
        refine ⟨noPanic_ok a, ?_⟩
        intro b hb
        cases hb
        exact hf
      · exact fun hx => hx.2 a rfl
  | error e =>
      rw [error_bind]
      constructor
      · intro he
        refine ⟨fun msg hc => he msg ?_, fun a ha => by cases ha⟩
        cases hc
        rfl
      · intro hx msg hc
        refine hx.1 msg ?_
        cases hc
        rfl

/-- A call that only adds an empty string of bytes to its result. -/
theorem noPanic_result {x : Except Fault (Int × Tfs)} :
    NoPanic (do
      let (r, s) ← x
      return ((r, ([] : List UInt8)), s)) ↔ NoPanic x := by
  rw [noPanic_bind]
  exact and_iff_left fun a _ => noPanic_ok _

/-! ## One call -/

theorem Base.addToOpenFileTable_noPanic (hb : Base s) (i off : Nat) :
    NoPanic (addToOpenFileTable i off s) := by
  rw [hb.addToOpenFileTable_eq]
  cases s.firstFreeHandle with
  | none => exact noPanic_ok _
  | some h =>
      dsimp only
      split
      · exact noPanic_ok _
      · exact noPanic_outOfBounds

theorem Inv.tfsOpen_noPanic (hinv : Inv s) (name : CString) (mode : Nat) :
    NoPanic (tfsOpen name mode s) := by
  rw [hinv.tfsOpen_eq]
  split
  · exact noPanic_ok _
  · cases hf : s.find name.chars.tail with
    | some i =>
        have hbase := hinv.base.frame (hinv.frame_truncated hf mode)
        exact hbase.addToOpenFileTable_noPanic _ _
    | none =>
        dsimp only
        split
        · exact noPanic_ok _
        · cases hi : s.firstFreeInode with
          | none => exact noPanic_ok _
          | some i =>
              dsimp only
              split
              · cases hk : s.slotFor name.chars.tail with
                | none => exact noPanic_ok _
                | some k =>
                    have hframe : Frame s (s.create i k name.chars.tail) :=
                      frame_create (hinv.base.ne_root hi) k _
                    exact (hinv.base.frame hframe).addToOpenFileTable_noPanic _ _
              · exact noPanic_outOfBounds

theorem Inv.tfsUnlink_noPanic (hinv : Inv s) (target : CString) :
    NoPanic (tfsUnlink target s) := by
  rw [hinv.tfsUnlink_eq]
  split
  · exact noPanic_ok _
  · cases s.findSlot target.chars.tail with
    | none => exact noPanic_ok _
    | some k => exact noPanic_ok _

/-- A file with contents has a block. -/
theorem Inv.validBlockNumber (hinv : Inv s) (hi : s.Held i) (hsz : 0 < (s.inode i).iSize) :
    s.validBlockNumber (s.inode i).iDataBlock := by
  obtain ⟨b, hb⟩ := hinv.blocks.held i hi hsz
  have hlt := hb.valid
  rw [hb.eq]
  exact ⟨by omega, by omega⟩

/-- A read asks for a block when it finds something to read. -/
theorem Inv.tfsRead_noPanic_iff (hinv : Inv s) (he : Extents s) (ho : s.Open h) (len : Nat) :
    NoPanic (tfsRead h len s) ↔ s.offset h ≤ s.fileSize h ∨ len = 0 ∨
      s.validBlockNumber (s.inode (s.fileInode h)).iDataBlock := by
  obtain ⟨i, off, hf, hi0, -⟩ := hinv.bounds.file_eq ho
  have hheld : s.Held i := ⟨hi0, .inr ⟨h, ho, by rw [hf]⟩⟩
  have hlt := he.offset_lt h ho
  simp only [offset, fileSize, fileInode, hf, Int.toNat_natCast] at hlt ⊢
  rw [hinv.tfsRead_eq ho hf]
  by_cases hv : s.validBlockNumber (s.inode i).iDataBlock
  · refine iff_of_true ?_ (.inr (.inr hv))
    rw [if_neg (not_not_intro hv)]
    split
    · exact noPanic_ok _
    · split
      · exact noPanic_ok _
      · exact noPanic_outOfBounds
  · rw [if_pos hv]
    -- with contents the inode would have a block: there is nothing to find but past the end
    have hsz : (s.inode i).iSize = 0 := by
      by_contra hne
      exact hv (hinv.validBlockNumber hheld (by omega))
    split
    · rename_i hz
      refine iff_of_true (noPanic_ok _) ?_
      by_contra hc
      obtain ⟨hoff, hc⟩ := not_or.mp hc
      exact clampRead_ne_zero (by omega) hlt (fun hlen => hc (.inl hlen)) hz
    · rename_i hz
      refine iff_of_false (not_noPanic _) ?_
      rintro (hoff | rfl | hvalid)
      · refine hz ?_
        rw [clampRead_eq hoff (by omega)]
        omega
      · exact hz clampRead_zero
      · exact hv hvalid

/-- A write asks for a block that it has just been given, or that the file has. -/
theorem Inv.tfsWrite_noPanic_iff (hinv : Inv s) (ho : s.Open h) (buffer : Nat → UInt8)
    (toWrite : Nat) : NoPanic (tfsWrite h buffer toWrite s) ↔
      (clampWrite toWrite (s.offset h) s.blockSize ≠ 0 → s.fileSize h = 0 →
        ∀ b, s.firstFreeBlock = some b → b < 2147483648) := by
  obtain ⟨i, off, hf, hi0, -⟩ := hinv.bounds.file_eq ho
  have hheld : s.Held i := ⟨hi0, .inr ⟨h, ho, by rw [hf]⟩⟩
  simp only [offset, fileSize, fileInode, hf, Int.toNat_natCast]
  rw [hinv.tfsWrite_eq ho hf]
  by_cases hn : clampWrite toWrite off s.blockSize = 0
  · rw [if_pos hn]
    exact iff_of_true (noPanic_ok _) fun hc => absurd hn hc
  · rw [if_neg hn]
    cases hb : s.blockFor i with
    | none =>
        refine iff_of_true (noPanic_ok _) ?_
        intro _ hsz b hfree
        rw [blockFor, if_pos hsz, hfree] at hb
        cases hb
    | some b =>
        dsimp only
        by_cases hint : b < 2147483648
        · rw [if_neg (not_not_intro hint)]
          refine iff_of_true ?_ ?_
          · split
            · exact noPanic_ok _
            · exact noPanic_outOfBounds
          · intro _ hsz c hfree
            rw [blockFor, if_pos hsz, hfree] at hb
            obtain rfl := Option.some.inj hb
            exact hint
        · rw [if_pos hint]
          refine iff_of_false (not_noPanic _) ?_
          intro hm
          -- a file with contents keeps its block, and that one has an `int` for a number
          by_cases hsz : (s.inode i).iSize = 0
          · rw [blockFor, if_pos hsz] at hb
            exact hint (hm hn hsz b hb)
          · obtain ⟨c, hc⟩ := hinv.blocks.held i hheld (by omega)
            rw [blockFor, if_neg hsz, hc.eq] at hb
            obtain rfl : c = b := Option.some.inj hb
            exact hint hc.int

/-- The condition on a call, in the state before it. A read starts within
the file, is empty or finds the number of a block in the inode; a write
that takes a block gets one whose number is an `int`. -/
def AssertMeets (s : Tfs) : TfsCall → Prop
  | .read fhandle len => 0 ≤ fhandle ∧ s.Open fhandle.toNat →
      s.offset fhandle.toNat ≤ s.fileSize fhandle.toNat ∨ len = 0 ∨
        s.validBlockNumber (s.inode (s.fileInode fhandle.toNat)).iDataBlock
  | .write fhandle _ toWrite => 0 ≤ fhandle ∧ s.Open fhandle.toNat →
      clampWrite toWrite (s.offset fhandle.toNat) s.blockSize ≠ 0 →
      s.fileSize fhandle.toNat = 0 → ∀ b, s.firstFreeBlock = some b → b < 2147483648
  | _ => True

/-- **Exactly the calls that meet the condition fail no assertion.** -/
theorem Inv.noPanic_call_iff (hinv : Inv s) (he : Extents s) (c : TfsCall) :
    NoPanic (tfsCall s c) ↔ AssertMeets s c := by
  cases c with
  | «open» name mode => exact iff_of_true (noPanic_result.mpr (hinv.tfsOpen_noPanic _ _)) trivial
  | close fhandle =>
      refine iff_of_true (noPanic_result.mpr ?_) trivial
      rw [hinv.base.tfsClose_eq]
      exact noPanic_ok _
  | unlink target => exact iff_of_true (noPanic_result.mpr (hinv.tfsUnlink_noPanic _)) trivial
  | read fhandle len =>
      show NoPanic (tfsRead fhandle len s) ↔ _
      by_cases ho : 0 ≤ fhandle ∧ s.Open fhandle.toNat
      · obtain ⟨h, rfl⟩ := Int.eq_ofNat_of_zero_le ho.1
        have hopen : s.Open h := ho.2
        rw [hinv.tfsRead_noPanic_iff he hopen]
        exact ⟨fun hm _ => hm, fun hm => hm ho⟩
      · rw [hinv.base.read_closed _ ho]
        exact iff_of_true (noPanic_ok _) fun hc => absurd hc ho
  | write fhandle buffer toWrite =>
      refine noPanic_result.trans ?_
      by_cases ho : 0 ≤ fhandle ∧ s.Open fhandle.toNat
      · obtain ⟨h, rfl⟩ := Int.eq_ofNat_of_zero_le ho.1
        have hopen : s.Open h := ho.2
        rw [hinv.tfsWrite_noPanic_iff hopen]
        exact ⟨fun hm _ => hm, fun hm => hm ho⟩
      · rw [hinv.base.write_closed _ _ ho]
        exact iff_of_true (noPanic_ok _) fun hc => absurd hc ho

/-! ## Runs -/

/-- Each call of the list meets the condition in the state that the calls
before it leave. -/
def AssertMeetsAll (s : Tfs) : List TfsCall → Prop
  | [] => True
  | c :: cs => AssertMeets s c ∧ ∀ res t, tfsCall s c = .ok (res, t) → AssertMeetsAll t cs

/-- **No assertion fails** in exactly the runs whose calls all meet the
condition. -/
theorem reachable_noPanic_iff (hr : tfsMachine.Reachable s) (cs : List TfsCall) :
    NoPanic (tfsCalls s cs) ↔ AssertMeetsAll s cs := by
  -- on the calls still to come, each from the state that the ones before it leave
  induction cs generalizing s with
  | nil => exact iff_of_true (noPanic_ok _) trivial
  | cons c cs ih =>
      have hcall := (reachable_inv hr).noPanic_call_iff (reachable_extents hr) c
      have hrest : ∀ res t, tfsCall s c = .ok (res, t) →
          (NoPanic (tfsCalls t cs) ↔ AssertMeetsAll t cs) := by
        intro res t hc
        exact ih (hr.step trivial (tfsMachine_step_eq_some.mpr ⟨res, hc⟩))
      rw [tfsCalls, noPanic_bind, hcall]
      refine and_congr_right fun _ => ?_
      constructor
      · intro hall res t hc
        exact (hrest res t hc).mp (noPanic_bind.mp (hall (res, t) hc)).1
      · rintro hall ⟨res, t⟩ hc
        exact noPanic_bind.mpr ⟨(hrest res t hc).mpr (hall res t hc), fun a _ => noPanic_ok _⟩

/-- `/a` is written and unlinked while its handle stays open. -/
def unlinkedRun : List TfsCall :=
  [.open pathA tfsOCreat, .write 0 (fun _ => 1) 10, .unlink pathA]

theorem unlinkedRun_result :
    (tfsRunBy (fun _ _ => True) smallParams dirtyMallocs unlinkedRun).map (fun s =>
      decide (s.Open 0 ∧ ¬ s.Taken (s.fileInode 0) ∧ s.offset 0 = 10 ∧ s.fileSize 0 = 10)) =
    some true := by
  decide +kernel

theorem unlinkedRun_noPanic :
    ∃ s, tfsMachine.Reachable s ∧ s.Open 0 ∧ ¬ s.Taken (s.fileInode 0) ∧
      NoPanic (tfsCalls s [.read 0 10]) := by
  obtain ⟨s, hrun, hobs⟩ := Option.map_eq_some_iff.mp unlinkedRun_result
  obtain ⟨hopen, hfree, hoff, hsize⟩ := of_decide_eq_true hobs
  have hreach := tfsRunBy_reachable hrun
  have hmeets : AssertMeets s (.read 0 10) := fun _ => .inl (by rw [Int.toNat_zero]; omega)
  exact ⟨s, hreach, hopen, hfree,
    (reachable_noPanic_iff hreach [.read 0 10]).mpr ⟨hmeets, fun _ _ _ => trivial⟩⟩

/-- The inode of `/a`, gone with its handle still open, is that of `/b`. -/
def recreatedRun : List TfsCall := unlinkedRun ++ [.open pathB tfsOCreat]

theorem recreatedRun_result :
    (tfsRunBy (fun _ _ => True) smallParams dirtyMallocs recreatedRun).map (fun s =>
      (s.offset 0, (tfsCalls s [.read 0 1]).map Prod.fst)) =
    some (10, .error (.panic "data_block_get: invalid block number")) := by
  decide +kernel

/-- A read of one byte through the old handle ends the process. -/
theorem recreatedRun_panics :
    ∃ s, tfsMachine.Reachable s ∧ s.offset 0 = 10 ∧ ¬ NoPanic (tfsCalls s [.read 0 1]) := by
  obtain ⟨s, hrun, hobs⟩ := Option.map_eq_some_iff.mp recreatedRun_result
  obtain ⟨hoff, hread⟩ := Prod.mk.inj hobs
  refine ⟨s, tfsRunBy_reachable hrun, hoff, ?_⟩
  intro hn
  cases hcalls : tfsCalls s [.read 0 1] with
  | ok res =>
      rw [hcalls] at hread
      cases hread
  | error e =>
      rw [hcalls] at hread
      cases hread
      exact hn _ hcalls

end MBroker
