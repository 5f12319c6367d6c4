import MBroker.Fs.Isolation
import MBroker.Fs.Refinement

/-!
# Reads and the history of writes

A file's bytes are those that writes through its own handles have stored
since it was created or last truncated. `Stored` is proof-only state that
keeps them; the machine does not read it. Blocks are not cleared when they
change hands, so this needs writes that leave no gap and that stay out of
the blocks of other files.

A read returns bytes of its file's history as long as it starts within the
file. Past the end, after another open has truncated the file, it returns
what the block still holds.
-/

namespace MBroker

open Tfs

variable {s t : Tfs} {g : Identity} {h i j b off n len : Nat} {r : Int} {bytes : List UInt8}
  {name : List UInt8} {m : CString} {mode : Nat}

/-! ## The history -/

/-- Proof-only: the last byte stored at each offset of each inode's file. -/
abbrev Stored := Nat → Nat → Option UInt8

/-- Handle `h` refers to the file it was opened on, which exists. -/
def OnFile (p : Tfs × Identity) (h : Nat) : Prop :=
  p.1.Taken (p.1.fileInode h) ∧ p.2.born (p.1.fileInode h) = p.2.origin h

instance (p : Tfs × Identity) (h : Nat) : Decidable (OnFile p h) :=
  inferInstanceAs (Decidable (_ ∧ _))

theorem OnFile.taken (hon : OnFile (s, g) h) (hf : s.file h = ⟨i, off⟩) : s.Taken i := by
  have hi := hon.1
  simp only [fileInode, hf, Int.toNat_natCast] at hi
  exact hi

/-- The history after a call. A file that is created or truncated has none;
a write stores a byte at each offset that its handle moves over. -/
def Stored.update (p : Tfs × Identity) (c : TfsCall) (q : Tfs × Identity) (w : Stored) : Stored :=
  match c with
  | .open m mode => fun i =>
      if q.1.Taken i ∧ ¬ p.1.Taken i ∨ mode &&& tfsOTrunc ≠ 0 ∧ p.1.resolve m = some i then
        fun _ => none
      else w i
  | .write fhandle buffer _ => fun i x =>
      if (0 ≤ fhandle ∧ p.1.Open fhandle.toNat) ∧ OnFile p fhandle.toNat ∧
          i = p.1.fileInode fhandle.toNat ∧
          p.1.offset fhandle.toNat ≤ x ∧ x < q.1.offset fhandle.toNat then
        some (buffer (x - p.1.offset fhandle.toNat))
      else w i x
  | _ => w

/-- The runs with the identities and the history. -/
abbrev historyMachine : Machine ((Tfs × Identity) × Stored) TfsCall :=
  identityMachine.ghost (fun _ _ => none) Stored.update

/-- The bytes of every file are those stored in it. -/
def Recorded (s : Tfs) (w : Stored) : Prop :=
  ∀ i, s.Taken i → i ≠ 0 → ∀ x, (s.fileBytes i)[x]? = w i x

/-- No file in block `b` reaches past `off`. -/
def EndsBy (s : Tfs) (b off : Nat) : Prop :=
  ∀ j < s.inodeTableSize, s.Taken j → 0 < (s.inode j).iSize →
    (s.inode j).iDataBlock = (b : Int) → (s.inode j).iSize ≤ off

instance (s : Tfs) (b off : Nat) : Decidable (EndsBy s b off) :=
  inferInstanceAs (Decidable (∀ j < _, _))

/-- The condition on a call, in the state before it: a write that has bytes
to write and a block to write to goes to the file its handle was opened on
and leaves no gap in it or, when the inode is FREE, past the end of every
file in that block. -/
def StoreMeets (p : (Tfs × Identity) × Stored) : TfsCall → Prop
  | .write fhandle _ toWrite => 0 ≤ fhandle ∧ p.1.1.Open fhandle.toNat →
      clampWrite toWrite (p.1.1.offset fhandle.toNat) p.1.1.blockSize ≠ 0 →
      ∀ b ∈ p.1.1.blockFor (p.1.1.fileInode fhandle.toNat),
      (OnFile p.1 fhandle.toNat ∧ p.1.1.offset fhandle.toNat ≤ p.1.1.fileSize fhandle.toNat) ∨
        (¬ p.1.1.Taken (p.1.1.fileInode fhandle.toNat) ∧
          EndsBy p.1.1 b (p.1.1.offset fhandle.toNat))
  | _ => True

/-! ## The files after one call -/

theorem fileBytes_truncated (hv : validPathname m) (hf : s.find m.chars.tail = some i) :
    (s.truncated i mode).fileBytes j =
      if mode &&& tfsOTrunc ≠ 0 ∧ s.resolve m = some j then [] else s.fileBytes j := by
  have hres : s.resolve m = some i := resolve_eq_some.mpr ⟨hv, hf⟩
  rw [truncated, hres]
  by_cases htr : mode &&& tfsOTrunc ≠ 0
  · rw [if_pos htr]
    by_cases hij : i = j
    · rw [if_pos ⟨htr, congrArg some hij⟩, ← hij, fileBytes_truncate_self]
    · have hne : ¬ (mode &&& tfsOTrunc ≠ 0 ∧ some i = some j) :=
        fun hc => hij (Option.some.inj hc.2)
      rw [if_neg hne, fileBytes_truncate_ne (Ne.symm hij)]
  · rw [if_neg htr, if_neg fun hc => htr hc.1]

theorem resolve_of_find_none (hf : s.find m.chars.tail = none) : s.resolve m ≠ some j := by
  intro hres
  have hj := (resolve_eq_some.mp hres).2
  rw [hf] at hj
  cases hj

/-- What `tfs_open` creates or truncates is empty; the other files stay. -/
theorem OpenResult.fileBytes (ho : OpenResult s m mode r t) (hinv : Inv s) (hj : t.Taken j)
    (hj0 : j ≠ 0) : t.fileBytes j =
      if t.Taken j ∧ ¬ s.Taken j ∨ mode &&& tfsOTrunc ≠ 0 ∧ s.resolve m = some j then []
      else s.fileBytes j := by
  have hold : s.Taken j → (∀ i, s.resolve m ≠ some i) →
      ¬ (t.Taken j ∧ ¬ s.Taken j ∨ mode &&& tfsOTrunc ≠ 0 ∧ s.resolve m = some j) := by
    rintro hs hnone (⟨-, hns⟩ | ⟨-, hres⟩)
    · exact hns hs
    · exact hnone j hres
  have hcreate : ∀ {i k : Nat}, s.find m.chars.tail = none → s.firstFreeInode = some i →
      s.slotFor m.chars.tail = some k → j = i ∨ s.Taken j →
      (s.create i k m.chars.tail).fileBytes j =
        if t.Taken j ∧ ¬ s.Taken j ∨ mode &&& tfsOTrunc ≠ 0 ∧ s.resolve m = some j then []
        else s.fileBytes j := by
    intro i k hf hi hk hor
    have hk := (slotFor_eq_some hk).2.1
    by_cases hs : s.Taken j
    · rw [if_neg (hold hs fun _ => resolve_of_find_none hf)]
      exact hinv.fileBytes_create hs hj0 (firstFree_ne_taken hi hs) hk
    · rw [if_pos (.inl ⟨hj, hs⟩)]
      refine fileBytes_of_empty ?_
      rw [hor.resolve_right hs, create_inode_self]
  have htrunc : ∀ {i : Nat}, validPathname m → s.find m.chars.tail = some i → s.Taken j →
      (s.truncated i mode).fileBytes j =
        if t.Taken j ∧ ¬ s.Taken j ∨ mode &&& tfsOTrunc ≠ 0 ∧ s.resolve m = some j then []
        else s.fileBytes j := by
    intro i hv hf hs
    rw [fileBytes_truncated hv hf]
    congr 1
    refine propext ⟨.inr, ?_⟩
    rintro (⟨-, hns⟩ | htr)
    · exact absurd hs hns
    · exact htr
  cases ho with
  | invalid hv =>
      rw [if_neg (hold hj fun i hres => hv (resolve_eq_some.mp hres).1)]
  | absent _ hf => rw [if_neg (hold hj fun _ => resolve_of_find_none hf)]
  | noInode _ hf => rw [if_neg (hold hj fun _ => resolve_of_find_none hf)]
  | noEntry _ hf _ hi =>
      rw [if_neg (hold hj fun _ => resolve_of_find_none hf)]
      have hinode : (s.resetInode _).inode j = s.inode j :=
        Region.set_get_ne _ _ (firstFree_ne_taken hi hj)
      exact hinv.fileBytes_of_entry hj hj0 hinode rfl fun _ _ => rfl
  | existingFull hv hf => exact htrunc hv hf (truncated_taken.mp hj)
  | existing hv hf =>
      have hs : s.Taken j := truncated_taken.mp hj
      exact htrunc hv hf hs
  | @created i k _ _ hf _ hi _ _ hk =>
      have hj : (s.create i k m.chars.tail).Taken j := hj
      exact hcreate hf hi hk ((create_taken (firstFreeInode_free hi).1).mp hj)
  | createdFull _ hf _ hi _ _ hk =>
      exact hcreate hf hi hk ((create_taken (firstFreeInode_free hi).1).mp hj)

/-! ## One call -/

theorem Recorded.open {w : Stored} {g' : Identity} (hrec : Recorded s w) (hinv : Inv s)
    (ho : OpenResult s m mode r t) :
    Recorded t (Stored.update (s, g) (.open m mode) (t, g') w) := by
  intro j hj hj0 x
  rw [ho.fileBytes hinv hj hj0]
  show _ = (if t.Taken j ∧ ¬ s.Taken j ∨ mode &&& tfsOTrunc ≠ 0 ∧ s.resolve m = some j then
    fun _ => none else w j) x
  split
  · rfl
  · rename_i hkeep
    refine hrec j ?_ hj0 x
    by_contra hs
    exact hkeep (.inl ⟨hj, hs⟩)

/-- A write that meets the condition changes the history as it changes the files. -/
theorem Recorded.write {w : Stored} {g' : Identity} {fhandle : Int} {toWrite : Nat}
    {buffer : Nat → UInt8} (hrec : Recorded s w) (hinv : Inv s)
    (hm : StoreMeets ((s, g), w) (.write fhandle buffer toWrite))
    (hret : tfsWrite fhandle buffer toWrite s = .ok (r, t)) :
    Recorded t (Stored.update (s, g) (.write fhandle buffer toWrite) (t, g') w) := by
  intro j hj hj0 x
  show _ = if (0 ≤ fhandle ∧ s.Open fhandle.toNat) ∧ OnFile (s, g) fhandle.toNat ∧
      j = s.fileInode fhandle.toNat ∧ s.offset fhandle.toNat ≤ x ∧ x < t.offset fhandle.toNat then
    some (buffer (x - s.offset fhandle.toNat)) else w j x
  rcases hinv.tfsWrite_cases hret with rfl | ⟨h, i, b, off, rfl, hw, rfl⟩
  · rw [if_neg (by omega)]
    exact hrec j hj hj0 x
  · have hj : s.Taken j := hj
    have hclamp := hw.pos
    have hmeets := hm ⟨Int.natCast_nonneg h, hw.opened⟩
    have hfile := hw.file_eq
    have hoff : (s.writeAt h i b off (clampWrite toWrite off s.blockSize) buffer).offset h =
        off + clampWrite toWrite off s.blockSize :=
      congrArg OpenFileEntry.ofOffset (Region.set_get_self ..)
    simp only [Int.toNat_natCast, offset, fileInode, fileSize, hfile] at hmeets hoff ⊢
    rw [hoff]
    generalize clampWrite toWrite off s.blockSize = n at hw hclamp hmeets ⊢
    have hother : j ≠ i → (0 < (s.inode j).iSize → (s.inode j).iDataBlock = (b : Int) →
        (s.inode j).iSize ≤ off) → ((s.writeAt h i b off n buffer).fileBytes j)[x]? = w j x := by
      intro hji hsep
      rw [hinv.fileBytes_writeAt_ne hw hj hj0 hji hsep]
      exact hrec j hj hj0 x
    -- either the file takes the bytes, or its inode is free and no file reaches them
    rcases hmeets (by omega) b hw.block with ⟨hon, hle⟩ | ⟨hfree, hpast⟩
    · have hi : s.Taken i := hon.taken hfile
      by_cases hji : j = i
      · subst hji
        have hlen : off ≤ (s.fileBytes j).length := by rwa [fileBytes_length]
        rw [hinv.fileBytes_writeAt_self hw hle, FlatStore.overlay_get hlen, hrec j hj hj0 x]
        have hcond : ((0 ≤ (h : Int) ∧ s.Open h) ∧ OnFile (s, g) h ∧ j = j ∧ off ≤ x ∧
            x < off + n) ↔ (off ≤ x ∧ x < off + n) :=
          ⟨fun hc => hc.2.2.2, fun hc => ⟨⟨Int.natCast_nonneg h, hw.opened⟩, hon, rfl, hc⟩⟩
        rw [if_congr hcond rfl rfl]
      · rw [if_neg fun hc => hji hc.2.2.1]
        exact hother hji fun hsz hjb => absurd hjb (hinv.block_of_other hw hi hj hj0 hji hsz)
    · have hji : j ≠ i := by
        rintro rfl
        exact hfree hj
      rw [if_neg fun hc => hji hc.2.2.1]
      exact hother hji (hpast j hj.1 hj)

theorem Recorded.call {w : Stored} {g' : Identity} {c : TfsCall} {res : TfsResult}
    (hrec : Recorded s w) (hinv : Inv s) (hm : StoreMeets ((s, g), w) c)
    (hc : tfsCall s c = .ok (res, t)) : Recorded t (Stored.update (s, g) c (t, g') w) := by
  cases c with
  | «open» m mode =>
      obtain ⟨ho, -⟩ := tfsCall_open.mp hc
      exact hrec.open hinv (hinv.tfsOpen_ok ho)
  | close fhandle =>
      obtain ⟨ho, -⟩ := tfsCall_close.mp hc
      rcases hinv.tfsClose_cases ho with ⟨_, _, _, _, rfl⟩ | ⟨_, _, rfl⟩
      · exact hrec
      · exact hrec
  | write fhandle buffer toWrite =>
      obtain ⟨ho, -⟩ := tfsCall_write.mp hc
      exact hrec.write hinv hm ho
  | read fhandle len =>
      rcases hinv.tfsRead_cases hc with rfl | ⟨_, _, _, _, _, rfl⟩
      · exact hrec
      · exact hrec
  | unlink target =>
      obtain ⟨ho, -⟩ := tfsCall_unlink.mp hc
      rcases hinv.tfsUnlink_cases ho with ⟨_, _, rfl⟩ | ⟨k, i, _, hk, _, _, _, _, rfl⟩
      · exact hrec
      · intro j hj hj0 x
        have hj := (remove_taken.mp hj).2
        rw [hinv.fileBytes_remove hj hj0 hk.1]
        exact hrec j hj hj0 x

/-! ## Runs -/

/-- **Files hold what was stored in them**, in the runs whose writes all
meet the condition. -/
theorem guarded_recorded {p : (Tfs × Identity) × Stored}
    (h : historyMachine.ReachableBy StoreMeets p) : Recorded p.1.1 p.2 := by
  induction h with
  | start hstart =>
      obtain ⟨⟨⟨params, m, hs⟩, -⟩, -⟩ := hstart
      exact fun i hi hi0 => absurd (hs.emptyRoot.1.only_root i hi) hi0
  | @step p q c hr hm hstep ih =>
      obtain ⟨⟨s, g⟩, w⟩ := p
      obtain ⟨⟨t, g'⟩, w'⟩ := q
      obtain ⟨hstep, hw⟩ := Machine.ghost_step_eq_some.mp hstep
      obtain ⟨hstep, -⟩ := Machine.ghost_step_eq_some.mp hstep
      obtain ⟨res, hc⟩ := tfsMachine_step_eq_some.mp hstep
      have hinv := reachable_inv (Machine.ghost_fst (Machine.ghost_fst hr))
      rw [hw]
      exact ih.call hinv hm hc

/-- Every byte returned through handle `h` was the last to be stored at its
offset in the file that `h` was opened on, and that file exists. -/
def ReadsOwn (p : (Tfs × Identity) × Stored) (h : Nat) (bytes : List UInt8) : Prop :=
  ∀ j (hj : j < bytes.length), OnFile p.1 h ∧
    p.2 (p.1.1.fileInode h) (p.1.1.offset h + j) = some bytes[j]

/-- A read that starts past the end finds bytes that no write has stored. -/
theorem Recorded.readsOwn_iff {w : Stored} (hrec : Recorded s w) (hinv : Inv s) (he : Extents s)
    (ho : s.Open h) (hread : tfsRead h len s = .ok ((r, bytes), t)) :
    ReadsOwn ((s, g), w) h bytes ↔ len = 0 ∨ s.offset h = s.fileSize h ∨
      s.offset h < s.fileSize h ∧ OnFile (s, g) h := by
  obtain ⟨i, off, hf, hi0, -⟩ := hinv.bounds.file_eq ho
  have hheld : s.Held i := ⟨hi0, .inr ⟨h, ho, by rw [hf]⟩⟩
  have hlt := he.offset_lt h ho
  have hsize := hinv.iSize_lt hheld
  have hlength := hinv.read_length ho hf hread
  unfold ReadsOwn
  simp only [offset, fileSize, fileInode, hf, Int.toNat_natCast] at hlt ⊢
  constructor
  · intro hown
    -- a read that should find nothing, or not its own file, still returns a first byte
    by_contra hc
    obtain ⟨hlen, hc⟩ := not_or.mp hc
    obtain ⟨hne, hc⟩ := not_or.mp hc
    have hpos : 0 < bytes.length := by
      rw [hlength]
      refine Nat.pos_of_ne_zero ?_
      rcases Nat.lt_or_ge (s.inode i).iSize off with hpast | hle
      · exact clampRead_ne_zero hpast hlt hlen
      · rw [clampRead_eq hle hsize]
        omega
    obtain ⟨hon, hstored⟩ := hown 0 hpos
    have htaken : s.Taken i := hon.taken hf
    have hnone : (s.fileBytes i)[off + 0]? = none := by
      refine List.getElem?_eq_none ?_
      rw [fileBytes_length]
      have hnot : ¬ off < (s.inode i).iSize := fun hin => hc ⟨hin, hon⟩
      omega
    rw [← hrec i htaken hi0 (off + 0), hnone] at hstored
    cases hstored
  · rintro (hz | heq | ⟨hin, hon⟩) j hj
    · rw [hlength, hz, clampRead_zero] at hj
      omega
    · rw [hlength, clampRead_eq (by omega) hsize] at hj
      omega
    · refine ⟨hon, ?_⟩
      have htaken : s.Taken i := hon.taken hf
      have hwithin := hinv.read_within ho hf (Nat.le_of_lt hin) (he.fits i hheld) len
      obtain ⟨hres, -⟩ := ok_pair_inj (hwithin.symm.trans hread)
      obtain rfl := (Prod.mk.inj hres).2
      have hlong : off + j < (s.fileBytes i).length := by
        rw [List.length_take, List.length_drop] at hj
        omega
      rw [← hrec i htaken hi0 (off + j), List.getElem?_eq_getElem hlong, List.getElem_take,
        List.getElem_drop]

/-- **Reads return the file's own bytes**, in the runs whose writes all meet
the condition, exactly when they start within a file that exists or have
nothing to read. -/
theorem guarded_readsOwn_iff {p : (Tfs × Identity) × Stored}
    (hr : historyMachine.ReachableBy StoreMeets p) (ho : p.1.1.Open h)
    (hread : tfsRead h len p.1.1 = .ok ((r, bytes), t)) :
    ReadsOwn p h bytes ↔ len = 0 ∨ p.1.1.offset h = p.1.1.fileSize h ∨
      p.1.1.offset h < p.1.1.fileSize h ∧ OnFile p.1 h := by
  have hreach := Machine.ghost_fst (Machine.ghost_fst hr)
  exact (guarded_recorded hr).readsOwn_iff (reachable_inv hreach) (reachable_extents hreach) ho
    hread

instance (p : (Tfs × Identity) × Stored) : DecidablePred (StoreMeets p)
  | .write fhandle _ toWrite => inferInstanceAs (Decidable (
      0 ≤ fhandle ∧ p.1.1.Open fhandle.toNat →
      clampWrite toWrite (p.1.1.offset fhandle.toNat) p.1.1.blockSize ≠ 0 →
      ∀ b ∈ p.1.1.blockFor (p.1.1.fileInode fhandle.toNat),
      (OnFile p.1 fhandle.toNat ∧ p.1.1.offset fhandle.toNat ≤ p.1.1.fileSize fhandle.toNat) ∨
        (¬ p.1.1.Taken (p.1.1.fileInode fhandle.toNat) ∧
          EndsBy p.1.1 b (p.1.1.offset fhandle.toNat))))
  | .open _ _ | .close _ | .read _ _ | .unlink _ => .isTrue trivial

/-- The state after `tfs_init` and the calls of a list that all meet the
condition, with the identities and the history. -/
def historyRun (params : TfsParams) (m : Mallocs) (cs : List TfsCall) :
    Option ((Tfs × Identity) × Stored) :=
  match tfsInit (some params) m tfsUninit with
  | .ok (0, s) => historyMachine.runBy StoreMeets ((s, Identity.init), fun _ _ => none) cs
  | _ => none

theorem historyRun_reachableBy {params : TfsParams} {m : Mallocs} {cs : List TfsCall}
    {p : (Tfs × Identity) × Stored} (h : historyRun params m cs = some p) :
    historyMachine.ReachableBy StoreMeets p := by
  unfold historyRun at h
  split at h
  · rename_i s hinit
    have hstart : historyMachine.start ((s, Identity.init), fun _ _ => none) :=
      ⟨⟨⟨params, m, hinit⟩, rfl⟩, rfl⟩
    exact (Machine.ReachableBy.start hstart).runBy h
  · cases h

/-- `/a` is written and opened again; 20 bytes have been read. -/
def rereadRun : List TfsCall :=
  [.open pathA tfsOCreat, .write 0 UInt8.ofNat 60, .close 0, .open pathA 0, .read 0 20]

theorem rereadRun_result :
    (historyRun smallParams dirtyMallocs rereadRun).map (fun p =>
      (decide (p.1.1.Open 0 ∧ OnFile p.1 0 ∧ p.1.1.offset 0 = 20 ∧ p.1.1.fileSize 0 = 60),
        (tfsRead 0 3 p.1.1).map Prod.fst)) = some (true, .ok (3, [20, 21, 22])) := by
  decide +kernel

theorem rereadRun_readsOwn :
    ∃ p, historyRun smallParams dirtyMallocs rereadRun = some p ∧ ReadsOwn p 0 [20, 21, 22] := by
  obtain ⟨p, hrun, hobs⟩ := Option.map_eq_some_iff.mp rereadRun_result
  obtain ⟨hstate, hread⟩ := Prod.mk.inj hobs
  obtain ⟨hopen, hon, hoff, hsize⟩ := of_decide_eq_true hstate
  obtain ⟨t, hread⟩ := map_fst_eq_ok hread
  refine ⟨p, hrun, ?_⟩
  exact (guarded_readsOwn_iff (historyRun_reachableBy hrun) hopen hread).mpr
    (.inr (.inr ⟨by omega, hon⟩))

theorem truncatedRun_history :
    (historyRun smallParams dirtyMallocs truncatedRun).map (fun p =>
      (decide (p.1.1.Open 0 ∧ OnFile p.1 0 ∧
        p.2 (p.1.1.fileInode 0) (p.1.1.offset 0 + 0) = none),
        (tfsRead 0 10 p.1.1).map Prod.fst)) = some (true, .ok (10, List.replicate 10 1)) := by
  decide +kernel

/-- The file has been truncated, and a read returns what it held before. -/
theorem truncatedRun_not_readsOwn :
    ∃ p t, historyMachine.Reachable p ∧ p.1.1.Open 0 ∧ OnFile p.1 0 ∧
      tfsRead 0 10 p.1.1 = .ok ((10, List.replicate 10 1), t) ∧
      ¬ ReadsOwn p 0 (List.replicate 10 1) := by
  obtain ⟨p, hrun, hobs⟩ := Option.map_eq_some_iff.mp truncatedRun_history
  obtain ⟨hstate, hread⟩ := Prod.mk.inj hobs
  obtain ⟨hopen, hon, hnone⟩ := of_decide_eq_true hstate
  obtain ⟨t, hread⟩ := map_fst_eq_ok hread
  refine ⟨p, t, (historyRun_reachableBy hrun).reachable, hopen, hon, hread, ?_⟩
  intro hown
  obtain ⟨-, hstored⟩ := hown 0 (by decide)
  rw [hnone] at hstored
  cases hstored

end MBroker
