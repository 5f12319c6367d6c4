import MBroker.Broker.Runs
import MBroker.Fs.Opens

/-!
# Creating a box

`create_box` takes a box to exist when `tfs_open` opens it, and creates it
with `TFS_O_TRUNC` otherwise. `tfs_open` also fails when the open file
table is full, and it truncates a file before it looks for a free handle:
with a full table `create_box` empties the box that is already there and
reports that it could not be created.

`CreateResult` is everything that `create_box` can do, for the results
about handles and about replies too.
-/

namespace MBroker

open Tfs

variable {s t : Tfs} {box : BoxName} {m : CString} {h i : Nat} {r : Int} {reply : Reply}

/-! ## What `create_box` does -/

/-- The outcomes of `create_box`. -/
inductive CreateResult (s : Tfs) (box : BoxName) : Reply → Tfs → Prop
  | alreadyExists {i h : Nat} (hi : s.resolve box.name = some i)
      (hh : s.firstFreeHandle = some h) :
      CreateResult s box (boxReply errBoxAlreadyExists) ((s.openHandle h i 0).closeHandle h)
  | truncated {i : Nat} (hi : s.resolve box.name = some i) (hh : s.firstFreeHandle = none) :
      CreateResult s box (boxReply errBoxCreation) (s.truncate i)
  | created {r : Int} {t : Tfs} (hnew : s.resolve box.name = none) (hr : r ≠ -1)
      (ho : OpenResult s box.name (tfsOCreat ||| tfsOTrunc) r t) :
      CreateResult s box (boxReply "") t
  | failed {t : Tfs} (hnew : s.resolve box.name = none)
      (ho : OpenResult s box.name (tfsOCreat ||| tfsOTrunc) (-1) t) :
      CreateResult s box (boxReply errBoxCreation) t

/-- An open with mode 0 finds the file and a handle, or does nothing. -/
theorem OpenResult.plain (ho : OpenResult s m 0 r t) :
    (∃ i h : Nat, s.resolve m = some i ∧ s.firstFreeHandle = some h ∧ r = h ∧
      t = s.openHandle h i 0) ∨
    (s.resolve m = none ∨ s.firstFreeHandle = none) ∧ r = -1 ∧ t = s := by
  have habsent : s.find m.chars.tail = none → s.resolve m = none := by
    intro hf
    unfold resolve
    split
    · exact hf
    · rfl
  cases ho with
  | invalid hv => exact .inr ⟨.inl (if_neg hv), rfl, rfl⟩
  | existing hv hf hh => exact .inl ⟨_, _, resolve_eq_some.mpr ⟨hv, hf⟩, hh, rfl, rfl⟩
  | existingFull _ _ hh => exact .inr ⟨.inr hh, rfl, rfl⟩
  | absent _ hf => exact .inr ⟨.inl (habsent hf), rfl, rfl⟩
  | noInode _ _ hc => exact absurd rfl hc
  | noEntry _ _ hc => exact absurd rfl hc
  | created _ _ hc => exact absurd rfl hc
  | createdFull _ _ hc => exact absurd rfl hc

/-- The second half of `create_box`, where its first open has failed. -/
theorem Inv.createFile_cases (hinv : Inv s)
    (hnone : s.resolve box.name = none ∨ s.firstFreeHandle = none)
    (hc : (do
      let (fd, s) ← tfsOpen box.name (tfsOCreat ||| tfsOTrunc) s
      if fd = -1 then
        let (_, s) ← tfsClose fd s
        return (boxReply errBoxCreation, s)
      return (boxReply "", s)) = Except.ok (ε := Fault) (reply, t)) :
    CreateResult s box reply t := by
  obtain ⟨⟨fd, s₁⟩, hcreate, hc⟩ := bind_eq_ok.mp hc
  have ho := hinv.tfsOpen_ok hcreate
  have hinv₁ : Inv s₁ := hinv.of_call (tfsCall_open.mpr ⟨hcreate, rfl⟩)
  -- a box that exists gets here only when the table is full
  have hfull : ∀ {i : Nat}, s.resolve box.name = some i → fd = -1 ∧ s₁ = s.truncate i ∧
      s.firstFreeHandle = none := by
    intro i hi
    have hh : s.firstFreeHandle = none := by
      rcases hnone with hnone | hh
      · rw [hi] at hnone
        cases hnone
      · exact hh
    obtain ⟨hfd, hs₁⟩ := ho.truncates (by decide) hi hh
    exact ⟨hfd, hs₁, hh⟩
  dsimp only at hc
  by_cases hfd : fd = -1
  · subst hfd
    rw [if_pos rfl] at hc
    obtain ⟨⟨_, s₂⟩, hclose, hc⟩ := bind_eq_ok.mp hc
    obtain ⟨rfl, rfl⟩ := ok_pair_inj hc
    have hsame : s₂ = s₁ := by
      rcases hinv₁.tfsClose_cases hclose with ⟨h, hneg, -⟩ | ⟨-, -, heq⟩
      · omega
      · exact heq
    show CreateResult s box _ s₂
    rw [hsame]
    cases hi : s.resolve box.name with
    | none => exact .failed hi ho
    | some i =>
        obtain ⟨-, hs₁, hh⟩ := hfull hi
        rw [hs₁]
        exact .truncated hi hh
  · rw [if_neg hfd] at hc
    obtain ⟨rfl, rfl⟩ := ok_pair_inj hc
    cases hi : s.resolve box.name with
    | none => exact .created hi hfd ho
    | some i => exact absurd (hfull hi).1 hfd

theorem Inv.createBox_cases (hinv : Inv s) (hc : createBox box s = .ok (reply, t)) :
    CreateResult s box reply t := by
  obtain ⟨⟨fd, s₁⟩, hopen, hc⟩ := bind_eq_ok.mp hc
  have hinv₁ : Inv s₁ := hinv.of_call (tfsCall_open.mpr ⟨hopen, rfl⟩)
  dsimp only at hc
  rcases (hinv.tfsOpen_ok hopen).plain with ⟨i, h, hi, hh, hfd, hs₁⟩ | ⟨hnone, hfd, hs₁⟩
  · rw [if_pos (by omega)] at hc
    obtain ⟨⟨_, s₂⟩, hclose, hc⟩ := bind_eq_ok.mp hc
    obtain ⟨rfl, rfl⟩ := ok_pair_inj hc
    have hlt := (find_range_eq_some.mp hh).1
    have hopened : s₁.Open h := by
      rw [hs₁]
      exact (openHandle_open (by omega)).mpr (.inl rfl)
    rcases hinv₁.tfsClose_cases hclose with ⟨h', heq, -, -, hs₂⟩ | ⟨hclosed, -, -⟩
    · obtain rfl : h = h' := Int.ofNat_inj.mp (hfd.symm.trans heq)
      show CreateResult s box _ s₂
      rw [hs₂, hs₁]
      exact .alreadyExists hi hh
    · exact absurd hopened (hclosed h hfd)
  · rw [if_neg (by omega), hs₁] at hc
    exact hinv.createFile_cases hnone hc

/-! ## The broker's file system -/

/-- The runs of TFS calls after the broker's `tfs_init(NULL)`. -/
def brokerTfs : Machine Tfs TfsCall where
  start s := ∃ m, tfsInit none m tfsUninit = .ok (0, s)
  step := tfsMachine.step

theorem brokerTfs_sized (hr : brokerTfs.Reachable s) :
    tfsMachine.Reachable s ∧ Sized tfsDefaultParams s := by
  induction hr with
  | start hstart =>
      obtain ⟨m, hinit⟩ := hstart
      have hs : TfsStart tfsDefaultParams m _ := hinit
      have hstart : tfsMachine.start _ := ⟨tfsDefaultParams, m, hs⟩
      exact ⟨.start hstart, hs.sized tfsDefaultParams_inRange⟩
  | @step s t c _ _ hstep ih =>
      obtain ⟨hreach, hsized⟩ := ih
      obtain ⟨res, hc⟩ := tfsMachine_step_eq_some.mp hstep
      have hinv := reachable_inv hreach
      exact ⟨hreach.step trivial hstep, hsized.updates hinv (hinv.tfsCall_updates hc)⟩

/-- With tables of the full size `create_box` always answers. -/
theorem Inv.createBox_returns (hinv : Inv s) (hs : Sized tfsDefaultParams s) (box : BoxName) :
    ∃ reply t, createBox box s = .ok (reply, t) := by
  obtain ⟨fd, s₁, hopen⟩ := hinv.tfsOpen_returns hs tfsDefaultParams_inRange box.name 0
  have hcall : tfsCall s (.open box.name 0) = .ok ((fd, []), s₁) :=
    tfsCall_open.mpr ⟨hopen, rfl⟩
  have hinv₁ := hinv.of_call hcall
  have hs₁ := hs.updates hinv (hinv.tfsCall_updates hcall)
  obtain ⟨fd', s₂, hcreate⟩ :=
    hinv₁.tfsOpen_returns hs₁ tfsDefaultParams_inRange box.name (tfsOCreat ||| tfsOTrunc)
  have hinv₂ := hinv₁.of_call (tfsCall_open.mpr ⟨hcreate, rfl⟩)
  rw [createBox, hopen, ok_bind]
  dsimp only
  split
  · rw [hinv₁.base.tfsClose_eq, ok_bind]
    exact ⟨_, _, rfl⟩
  · rw [hcreate, ok_bind]
    dsimp only
    split
    · rw [hinv₂.base.tfsClose_eq, ok_bind]
      exact ⟨_, _, rfl⟩
    · exact ⟨_, _, rfl⟩

/-! ## A box that exists -/

/-- `create_box` answers that the box exists, and leaves its file alone. -/
def CreateKeeps (s : Tfs) (box : BoxName) (i : Nat) : Prop :=
  ∃ t, createBox box s = .ok (boxReply errBoxAlreadyExists, t) ∧ t.resolve box.name = some i ∧
    t.inode i = s.inode i ∧ t.fileBytes i = s.fileBytes i

/-- **Creating a box that exists** leaves it alone exactly when the open
file table has a free entry. -/
theorem reachable_createKeeps_iff (hr : brokerTfs.Reachable s)
    (hi : s.resolve box.name = some i) : CreateKeeps s box i ↔ s.firstFreeHandle.isSome := by
  obtain ⟨hreach, hs⟩ := brokerTfs_sized hr
  have hinv := reachable_inv hreach
  constructor
  · rintro ⟨t, hc, -⟩
    generalize hreply : boxReply errBoxAlreadyExists = reply at hc
    cases hinv.createBox_cases hc with
    | alreadyExists _ hh =>
        rw [hh]
        rfl
    | truncated => exact absurd hreply (by decide)
    | created => exact absurd hreply (by decide)
    | failed => exact absurd hreply (by decide)
  · intro hfree
    obtain ⟨reply, t, hc⟩ := hinv.createBox_returns hs box
    have hresult := hinv.createBox_cases hc
    cases hresult with
    | alreadyExists hi' hh => exact ⟨_, hc, hi, rfl, rfl⟩
    | truncated _ hh =>
        rw [hh] at hfree
        cases hfree
    | created hnew | failed hnew =>
        rw [hnew] at hi
        cases hi

/-- `/a` holds ten bytes; `n` handles are open on it. -/
def openedRun (n : Nat) : List TfsCall :=
  .open pathA tfsOCreat :: .write 0 (fun _ => 1) 10 :: List.replicate (n - 1) (.open pathA 0)

/-- The state after `tfs_init(NULL)` and the calls of a list. -/
def brokerTfsRun (cs : List TfsCall) : Option Tfs :=
  match tfsInit none dirtyMallocs tfsUninit with
  | .ok (0, s) => brokerTfs.run s cs
  | _ => none

theorem brokerTfsRun_reachable {cs : List TfsCall} (h : brokerTfsRun cs = some s) :
    brokerTfs.Reachable s := by
  unfold brokerTfsRun at h
  split at h
  · rename_i s₀ hinit
    have hstart : brokerTfs.start s₀ := ⟨dirtyMallocs, hinit⟩
    exact (Machine.ReachableBy.start hstart).run (fun _ _ _ => trivial) h
  · cases h

theorem openedRun_result :
    (brokerTfsRun (openedRun 15)).map (fun s =>
      decide (s.resolve boxA.name = some 1 ∧ (s.inode 1).iSize = 10 ∧
        s.firstFreeHandle.isSome)) = some true := by
  decide +kernel

/-- One entry is left. -/
theorem openedRun_createKeeps :
    ∃ s, brokerTfs.Reachable s ∧ (s.inode 1).iSize = 10 ∧ CreateKeeps s boxA 1 := by
  obtain ⟨s, hrun, hobs⟩ := Option.map_eq_some_iff.mp openedRun_result
  obtain ⟨hres, hsize, hfree⟩ := of_decide_eq_true hobs
  have hreach := brokerTfsRun_reachable hrun
  exact ⟨s, hreach, hsize, (reachable_createKeeps_iff hreach hres).mpr hfree⟩

theorem fullRun_result :
    (brokerTfsRun (openedRun 16)).map (fun s =>
      (decide (s.resolve boxA.name = some 1 ∧ (s.inode 1).iSize = 10),
        (createBox boxA s).map fun p => (p.1, (p.2.inode 1).iSize))) =
    some (true, .ok (boxReply errBoxCreation, 0)) := by
  decide +kernel

/-- No entry is left: the box loses its ten bytes. -/
theorem fullRun_not_createKeeps :
    ∃ s, brokerTfs.Reachable s ∧ s.resolve boxA.name = some 1 ∧ (s.inode 1).iSize = 10 ∧
      (createBox boxA s).map (fun p => (p.1, (p.2.inode 1).iSize)) =
        .ok (boxReply errBoxCreation, 0) ∧ ¬ CreateKeeps s boxA 1 := by
  obtain ⟨s, hrun, hobs⟩ := Option.map_eq_some_iff.mp fullRun_result
  obtain ⟨hstate, hcreate⟩ := Prod.mk.inj hobs
  obtain ⟨hres, hsize⟩ := of_decide_eq_true hstate
  refine ⟨s, brokerTfsRun_reachable hrun, hres, hsize, hcreate, ?_⟩
  rintro ⟨t, hkeeps, -⟩
  rw [hkeeps] at hcreate
  have hreply : boxReply errBoxAlreadyExists = boxReply errBoxCreation :=
    congrArg Prod.fst (Except.ok.inj hcreate)
  exact absurd hreply (by decide)

end MBroker
