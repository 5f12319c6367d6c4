import MBroker.Fs.Consistency
import MBroker.Fs.Contents

/-!
# Writes and the other files

An open file entry stores an inode number, and an unlinked file's inode
is given to the next file created. `Identity` is proof-only state that
tells files apart where the inode number does not: each creation gets a
number of its own, and each handle remembers the number of the file it
was opened on.

A write leaves the other files alone as long as the file its handle was
opened on exists, and in the cases below where it does not. `tfs_write`
asserts that the inode of the open file has not been deleted, but the
pointer it tests is never `NULL`, and a run can write to a file the
handle was not opened on.
-/

namespace MBroker

open Tfs

variable {s t : Tfs} {h i j b off n : Nat} {name : List UInt8} {buffer : Nat → UInt8}

/-! ## Identities -/

/-- Proof-only: the number of each inode's file and of the file each handle
was opened on. -/
structure Identity where
  next : Nat
  born : Nat → Nat
  origin : Nat → Nat

/-- No file has been created yet. -/
def Identity.init : Identity := ⟨0, fun _ => 0, fun _ => 0⟩

/-- The identities after a call: an inode that has become TAKEN belongs to
a new file, a handle that has been opened refers to the file of its inode. -/
def Identity.update (s : Tfs) (_ : TfsCall) (t : Tfs) (g : Identity) : Identity :=
  let born i := if t.Taken i ∧ ¬ s.Taken i then g.next else g.born i
  { next := g.next + 1
    born := born
    origin := fun h => if t.Open h ∧ ¬ s.Open h then born (t.file h).ofInumber.toNat
      else g.origin h }

/-- The runs with the identities. -/
abbrev identityMachine : Machine (Tfs × Identity) TfsCall :=
  tfsMachine.ghost Identity.init Identity.update

/-- A call of `tfs_write` through handle `h` from `s` to `t` leaves every
file alone but the one `h` was opened on. -/
def IsolatedWrite (s : Tfs) (g : Identity) (h : Nat) (t : Tfs) : Prop :=
  ∀ name i, s.find name = some i → g.born i ≠ g.origin h → t.contents name = s.contents name

/-- The condition on a call, in the state before it: a write that has bytes
to write and a block to write to goes to the file its handle was opened on
or, when the inode is FREE, past the end of every file in that block. -/
def WriteMeets (p : Tfs × Identity) : TfsCall → Prop
  | .write fhandle _ toWrite => ∀ h i off b : Nat, fhandle = h → p.1.Open h →
      p.1.file h = ⟨i, off⟩ → clampWrite toWrite off p.1.blockSize ≠ 0 →
      p.1.blockFor i = some b →
      (p.1.Taken i ∧ p.2.born i = p.2.origin h) ∨
        (¬ p.1.Taken i ∧ ∀ j, p.1.Taken j → 0 < (p.1.inode j).iSize →
          (p.1.inode j).iDataBlock = b → (p.1.inode j).iSize ≤ off)
  | _ => True

/-! ## One write -/

/-- **A write that meets the condition** leaves the other files alone. -/
theorem Inv.write_isolated (hinv : Inv s) {g : Identity} {toWrite : Nat} {res : TfsResult}
    (hm : WriteMeets (s, g) (.write h buffer toWrite))
    (hc : tfsCall s (.write h buffer toWrite) = .ok (res, t)) : IsolatedWrite s g h t := by
  obtain ⟨hret, -⟩ := tfsCall_write.mp hc
  intro name j hf hborn
  rcases hinv.tfsWrite_cases hret with rfl | ⟨h', i, b, off, hh, hw, rfl⟩
  · rfl
  · obtain rfl : h = h' := Int.ofNat_inj.mp hh
    obtain ⟨hj0, hj, -⟩ := hinv.of_find hf
    rw [contents, contents, writeAt_find hw.block_ne, hf]
    refine congrArg some ?_
    have hpos := hw.pos
    rcases hm h i off b rfl hw.opened hw.file_eq (by simp only; omega) hw.block with
      ⟨hi, hsame⟩ | ⟨hi, hpast⟩
    · have hji : j ≠ i := by
        rintro rfl
        exact hborn hsame
      exact hinv.fileBytes_writeAt_ne hw hj hj0 hji fun hsz hjb =>
        absurd hjb (hinv.block_of_other hw hi hj hj0 hji hsz)
    · have hji : j ≠ i := by
        rintro rfl
        exact hi hj
      exact hinv.fileBytes_writeAt_ne hw hj hj0 hji (hpast j hj)

/-! ## Runs -/

/-- No two files have the same number, and no file has one still to come. -/
structure Identity.Fresh (s : Tfs) (g : Identity) : Prop where
  lt : ∀ i, s.Taken i → i ≠ 0 → g.born i < g.next
  inj : ∀ i j, s.Taken i → s.Taken j → i ≠ 0 → j ≠ 0 → g.born i = g.born j → i = j

theorem OpenResult.taken {m : CString} {mode : Nat} {r : Int} (ho : OpenResult s m mode r t) :
    ∃ i, ∀ j, t.Taken j → j = i ∨ s.Taken j := by
  cases ho with
  | invalid => exact ⟨0, fun j hj => .inr hj⟩
  | absent => exact ⟨0, fun j hj => .inr hj⟩
  | noInode => exact ⟨0, fun j hj => .inr hj⟩
  | noEntry => exact ⟨0, fun j hj => .inr hj⟩
  | existing => exact ⟨0, fun j hj => .inr (truncated_taken.mp hj)⟩
  | existingFull => exact ⟨0, fun j hj => .inr (truncated_taken.mp hj)⟩
  | @created i k h _ _ _ hi =>
      refine ⟨i, fun j hj => ?_⟩
      have hj : (s.create i k m.chars.tail).Taken j := hj
      exact (create_taken (firstFreeInode_free hi).1).mp hj
  | createdFull _ _ _ hi => exact ⟨_, fun j hj => (create_taken (firstFreeInode_free hi).1).mp hj⟩

/-- A call makes at most one inode TAKEN. -/
theorem Inv.call_taken {c : TfsCall} {res : TfsResult} (hinv : Inv s)
    (hc : tfsCall s c = .ok (res, t)) : ∃ i, ∀ j, t.Taken j → j = i ∨ s.Taken j := by
  cases c with
  | «open» m mode =>
      obtain ⟨ho, -⟩ := tfsCall_open.mp hc
      exact (hinv.tfsOpen_ok ho).taken
  | close fhandle =>
      obtain ⟨ho, -⟩ := tfsCall_close.mp hc
      rw [hinv.base.tfsClose_eq] at ho
      have ho := Except.ok.inj ho
      split at ho
      · obtain ⟨-, rfl⟩ := Prod.mk.inj ho
        exact ⟨0, fun j hj => .inr hj⟩
      · obtain ⟨-, rfl⟩ := Prod.mk.inj ho
        exact ⟨0, fun j hj => .inr hj⟩
  | write fhandle buffer toWrite =>
      obtain ⟨ho, -⟩ := tfsCall_write.mp hc
      rcases hinv.tfsWrite_cases ho with rfl | ⟨h, i, b, off, rfl, hw, rfl⟩
      · exact ⟨0, fun j hj => .inr hj⟩
      · exact ⟨0, fun j hj => .inr hj⟩
  | read fhandle len =>
      rcases hinv.tfsRead_cases hc with rfl | ⟨h, off, rfl, ho, -, rfl⟩
      · exact ⟨0, fun j hj => .inr hj⟩
      · exact ⟨0, fun j hj => .inr hj⟩
  | unlink target =>
      obtain ⟨ho, -⟩ := tfsCall_unlink.mp hc
      rw [hinv.tfsUnlink_eq] at ho
      split at ho
      · obtain ⟨-, rfl⟩ := ok_pair_inj ho
        exact ⟨0, fun j hj => .inr hj⟩
      · cases hk : s.findSlot target.chars.tail with
        | none =>
            rw [hk] at ho
            obtain ⟨-, rfl⟩ := ok_pair_inj ho
            exact ⟨0, fun j hj => .inr hj⟩
        | some k =>
            rw [hk] at ho
            obtain ⟨-, rfl⟩ := ok_pair_inj ho
            exact ⟨0, fun j hj => .inr (remove_taken.mp hj).2⟩

/-- The numbers stay fresh: each call gives one number to one file. -/
theorem Inv.fresh_update {c : TfsCall} {res : TfsResult} {g : Identity} (hinv : Inv s)
    (hf : g.Fresh s) (hc : tfsCall s c = .ok (res, t)) : (Identity.update s c t g).Fresh t := by
  obtain ⟨l, hl⟩ := hinv.call_taken hc
  have hborn : ∀ i, t.Taken i → i ≠ 0 →
      (s.Taken i ∧ (Identity.update s c t g).born i = g.born i) ∨
        (i = l ∧ (Identity.update s c t g).born i = g.next) := by
    intro i hi hi0
    by_cases hs : s.Taken i
    · exact .inl ⟨hs, if_neg fun hc => hc.2 hs⟩
    · exact .inr ⟨(hl i hi).resolve_right hs, if_pos ⟨hi, hs⟩⟩
  constructor
  · intro i hi hi0
    show _ < g.next + 1
    rcases hborn i hi hi0 with ⟨hs, heq⟩ | ⟨-, heq⟩
    · rw [heq]
      exact Nat.lt_succ_of_lt (hf.lt i hs hi0)
    · rw [heq]
      exact Nat.lt_succ_self _
  · intro i j hi hj hi0 hj0 heq
    rcases hborn i hi hi0 with ⟨hsi, hbi⟩ | ⟨hil, hbi⟩
    · rcases hborn j hj hj0 with ⟨hsj, hbj⟩ | ⟨-, hbj⟩
      · rw [hbi, hbj] at heq
        exact hf.inj i j hsi hsj hi0 hj0 heq
      · rw [hbi, hbj] at heq
        have := hf.lt i hsi hi0
        omega
    · rcases hborn j hj hj0 with ⟨hsj, hbj⟩ | ⟨hjl, -⟩
      · rw [hbi, hbj] at heq
        have := hf.lt j hsj hj0
        omega
      · rw [hil, hjl]

/-- At most one existing file is the one a handle was opened on. -/
theorem reachable_fresh {p : Tfs × Identity} (h : identityMachine.Reachable p) :
    p.2.Fresh p.1 := by
  refine Machine.ReachableBy.invariant' (P := fun p => p.2.Fresh p.1) ?_ ?_ h
  · rintro ⟨s, g⟩ ⟨⟨params, m, hs⟩, rfl⟩
    have honly := hs.emptyRoot.1.only_root
    exact ⟨fun i hi hi0 => absurd (honly i hi) hi0, fun i _ hi _ hi0 => absurd (honly i hi) hi0⟩
  · rintro ⟨s, g⟩ c ⟨t, g'⟩ hr hf - hstep
    obtain ⟨hstep, hg⟩ := Machine.ghost_step_eq_some.mp hstep
    obtain ⟨res, hc⟩ := tfsMachine_step_eq_some.mp hstep
    rw [hg]
    exact (reachable_inv (Machine.ghost_fst hr)).fresh_update hf hc

/-- **File isolation.** In every run, whatever the calls before it, a write that
meets the condition leaves every file alone but the one its handle was opened on;
through a handle whose file no longer exists it leaves every file alone. -/
theorem guarded_write_isolated {p p' : Tfs × Identity} {fhandle : Int} {toWrite : Nat}
    (hr : identityMachine.Reachable p)
    (hm : WriteMeets p (.write fhandle buffer toWrite))
    (hs : identityMachine.step p (.write fhandle buffer toWrite) = some p') :
    IsolatedWrite p.1 p.2 fhandle.toNat p'.1 ∧
      ((∀ i, p.1.Taken i → i ≠ 0 → p.2.born i ≠ p.2.origin fhandle.toNat) →
        ∀ name i, p.1.find name = some i → p'.1.contents name = p.1.contents name) := by
  obtain ⟨s, g⟩ := p
  obtain ⟨t, g'⟩ := p'
  have hinv := reachable_inv (Machine.ghost_fst hr)
  obtain ⟨hstep, -⟩ := Machine.ghost_step_eq_some.mp hs
  obtain ⟨res, hc⟩ := tfsMachine_step_eq_some.mp hstep
  have hiso : IsolatedWrite s g fhandle.toNat t := by
    by_cases hneg : 0 ≤ fhandle
    · obtain ⟨h, rfl⟩ : ∃ h : Nat, fhandle = h := ⟨fhandle.toNat, by omega⟩
      exact hinv.write_isolated hm hc
    · obtain ⟨hret, -⟩ := tfsCall_write.mp hc
      rw [hinv.base.write_closed _ _ fun ho => hneg ho.1] at hret
      obtain ⟨-, rfl⟩ := ok_pair_inj hret
      exact fun name i _ _ => rfl
  refine ⟨hiso, fun hgone name i hf => hiso name i hf ?_⟩
  obtain ⟨hi0, hi, -⟩ := hinv.of_find hf
  exact hgone i hi hi0

/-- A run of the calls of a list with the identities, when `tfs_init` succeeds. -/
def identityRun (params : TfsParams) (m : Mallocs) (cs : List TfsCall) :
    Option (Tfs × Identity) :=
  match tfsInit (some params) m tfsUninit with
  | .ok (0, s) => identityMachine.run (s, Identity.init) cs
  | _ => none

theorem identityRun_reachable {params : TfsParams} {m : Mallocs} {cs : List TfsCall}
    {p : Tfs × Identity} (h : identityRun params m cs = some p) : identityMachine.Reachable p := by
  rw [identityRun] at h
  split at h
  · rename_i s hinit
    have hstart : identityMachine.Reachable (s, Identity.init) := .start ⟨⟨params, m, hinit⟩, rfl⟩
    exact hstart.run (fun _ _ _ => trivial) h
  · cases h

/-- `/a` and `/b` are created, and the handle of `/a` is kept. -/
def keptRun : List TfsCall := [.open pathA tfsOCreat, .open pathB tfsOCreat]

theorem kept_write_results :
    ((identityRun smallParams dirtyMallocs keptRun).bind fun p =>
      (identityMachine.step p (.write 0 (fun _ => 2) 60)).map fun p' =>
        decide (p.1.file 0 = ⟨1, 0⟩ ∧ p.1.Taken 1 ∧ p.2.born 1 = p.2.origin 0 ∧
          p.1.find [98] = some 2 ∧ p.2.born 2 ≠ p.2.origin 0 ∧
          p'.1.contents [97] = some (List.replicate 60 2))) = some true := by
  decide +kernel

theorem kept_write_isolated :
    ∃ p p', identityMachine.step p (.write 0 (fun _ => 2) 60) = some p' ∧
      p.1.find [98] = some 2 ∧ p.2.born 2 ≠ p.2.origin 0 ∧
      p'.1.contents [97] = some (List.replicate 60 2) ∧ IsolatedWrite p.1 p.2 0 p'.1 := by
  obtain ⟨p, hp, h⟩ := Option.bind_eq_some_iff.mp kept_write_results
  obtain ⟨p', hp', h⟩ := Option.map_eq_some_iff.mp h
  obtain ⟨hfile, htaken, hborn, hfind, hne, hcontents⟩ := of_decide_eq_true h
  have hm : WriteMeets p (.write 0 (fun _ => 2) 60) := by
    intro h i off b hh _ hf _ _
    obtain rfl : h = 0 := Int.ofNat_inj.mp hh.symm
    rw [hfile] at hf
    obtain rfl : 1 = i := Int.ofNat_inj.mp (congrArg OpenFileEntry.ofInumber hf)
    exact .inl ⟨htaken, hborn⟩
  exact ⟨p, p', hp', hfind, hne, hcontents,
    (guarded_write_isolated (identityRun_reachable hp) hm hp').1⟩

/-- The write of `staleRun` through the handle of `/a`, which is gone, gives
`/b` 100 bytes. -/
theorem stale_write_results :
    ((identityRun smallParams dirtyMallocs staleRun.dropLast).bind fun p =>
      (identityMachine.step p (.write 0 (fun _ => 2) 60)).map fun p' =>
        decide (p.1.find [98] = some 1 ∧ p.2.born 1 ≠ p.2.origin 0 ∧
          p.1.contents [98] = some [] ∧ (p'.1.contents [98]).map List.length = some 100)) =
      some true := by
  decide +kernel

theorem stale_write_not_isolated :
    ∃ p p', identityMachine.Reachable p ∧
      identityMachine.step p (.write 0 (fun _ => 2) 60) = some p' ∧
      ¬ IsolatedWrite p.1 p.2 0 p'.1 := by
  obtain ⟨p, hp, h⟩ := Option.bind_eq_some_iff.mp stale_write_results
  obtain ⟨p', hp', h⟩ := Option.map_eq_some_iff.mp h
  obtain ⟨hf, hne, hbefore, hafter⟩ := of_decide_eq_true h
  refine ⟨p, p', identityRun_reachable hp, hp', fun hiso => ?_⟩
  rw [hiso [98] 1 hf hne, hbefore] at hafter
  cases hafter

end MBroker
