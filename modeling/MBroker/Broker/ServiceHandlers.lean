import MBroker.Broker.Capacity
import MBroker.Broker.Service

/-!
# The handlers are the service

Each handler, run from start to end, answers what `BoxService` answers, and
leaves a file system that gives the service which comes after. Where the
service has no answer an assertion of the handler about the file system
fails.
-/

namespace MBroker

open Threads Tfs

variable {x y : Tfs} {m : CString} {mode : Nat} {r : Int} {box : BoxName} {reply : Reply}
  {request : Request} {s : BoxService}

theorem made_of_sameOpen (h : SameOpen x y) : y.service.made = x.service.made := by
  have hhandles : y.catalog.handles = x.catalog.handles := by
    ext n
    rw [mem_handles, mem_handles, h n]
  exact congrArg Finset.card hhandles

theorem finds_plain (hc : mode &&& tfsOCreat = 0) : s.Finds m mode ↔ s.Has m := by
  unfold BoxService.Finds BoxService.Has
  simp [hc]

theorem finds_creat (hc : mode &&& tfsOCreat ≠ 0) :
    s.Finds m mode ↔ s.Has m ∨ validPathname m ∧ s.boxes.card < maxBoxes := by
  unfold BoxService.Finds BoxService.Has
  by_cases hv : validPathname m
  · simp [hv, hc]
  · simp [hv]

/-- An open without `TFS_O_CREAT` changes no names. -/
theorem Ready.open_plain (hx : Ready x) (hlen : m.chars.tail.length < maxFileName)
    (hc : mode &&& tfsOCreat = 0) (ho : tfsOpen m mode x = .ok (r, y)) :
    (r ≠ -1 ↔ x.service.Has m ∧ x.service.made < maxMade) ∧
    y.service = ⟨x.service.boxes, x.service.made + if r = -1 then 0 else 1⟩ := by
  obtain ⟨hr, hservice⟩ := hx.open_service hlen ho
  rw [finds_plain hc] at hr
  refine ⟨hr, ?_⟩
  rw [hservice]
  congr 1
  split
  · rename_i hfinds
    exact Finset.insert_eq_of_mem ((finds_plain hc).mp hfinds).2
  · rfl

theorem BoxName.tail_lt (box : BoxName) : box.name.chars.tail.length < maxFileName := by
  have hfits := box.fits
  rw [List.length_tail]
  unfold boxNameSize at hfits
  unfold maxFileName
  omega

theorem BoxName.metaFilename_tail_lt (box : BoxName) :
    box.metaFilename.chars.tail.length < maxFileName := by
  have hfits := box.fits
  rw [List.length_tail, box.metaFilename_chars, List.length_append]
  unfold boxNameSize at hfits
  unfold maxFileName
  simp only [pubSuffix, List.length_cons, List.length_nil]
  omega

/-- The second half of `create_box`, where no handle was found for the box. -/
theorem Ready.createFile_service (hx : Ready x)
    (hnone : ¬ (x.service.Has box.name ∧ x.service.made < maxMade))
    (ho : tfsOpen box.name (tfsOCreat ||| tfsOTrunc) x = .ok (r, y)) :
    x.service.createBox box = (boxReply (if r = -1 then errBoxCreation else ""), y.service) := by
  obtain ⟨hr, hservice⟩ := hx.open_service box.tail_lt ho
  have hfinds := finds_creat (s := x.service) (m := box.name)
    (show (tfsOCreat ||| tfsOTrunc) &&& tfsOCreat ≠ 0 by decide)
  rw [hfinds] at hr
  rw [hservice]
  unfold BoxService.createBox
  by_cases hhas : x.service.Has box.name
  · -- the box is there and no handle is left
    have hfull : ¬ x.service.made < maxMade := fun hlt => hnone ⟨hhas, hlt⟩
    have hneg : r = -1 := by
      by_contra hne
      exact hfull (hr.mp hne).2
    rw [if_pos hhas, if_neg hfull, if_pos hneg, if_pos hneg, if_pos (hfinds.mpr (.inl hhas)),
      Finset.insert_eq_of_mem hhas.2]
    rfl
  · rw [if_neg hhas]
    by_cases hroom : validPathname box.name ∧ x.service.boxes.card < maxBoxes
    · rw [if_pos hroom, if_pos (hfinds.mpr (.inr hroom))]
      by_cases hlt : x.service.made < maxMade
      · have hne := hr.mpr ⟨.inr hroom, hlt⟩
        rw [if_pos hlt, if_neg hne, if_neg hne]
      · have hneg : r = -1 := by
          by_contra hne
          exact hlt (hr.mp hne).2
        rw [if_neg hlt, if_pos hneg, if_pos hneg]
        rfl
    · have hneg : r = -1 := by
        by_contra hne
        exact not_or.mpr ⟨hhas, hroom⟩ (hr.mp hne).1
      rw [if_neg hroom, if_pos hneg, if_pos hneg,
        if_neg fun h => not_or.mpr ⟨hhas, hroom⟩ (hfinds.mp h)]
      rfl

theorem Ready.createBox_service (hx : Ready x) (hc : createBox box x = .ok (reply, y)) :
    Ready y ∧ x.service.createBox box = (reply, y.service) := by
  obtain ⟨⟨fd, x₁⟩, hopen, hc⟩ := bind_eq_ok.mp hc
  have hx₁ := hx.of_call (tfsCall_open.mpr ⟨hopen, rfl⟩)
  obtain ⟨hfound, hservice⟩ := hx.open_plain box.tail_lt rfl hopen
  dsimp only at hc
  by_cases hfd : fd = -1
  · rw [if_neg (not_not_intro hfd)] at hc
    rw [if_pos hfd] at hservice
    have hnone : ¬ (x.service.Has box.name ∧ x.service.made < maxMade) := fun h =>
      hfound.mpr h hfd
    obtain ⟨⟨fd', x₂⟩, hcreate, hc⟩ := bind_eq_ok.mp hc
    have hx₂ := hx₁.of_call (tfsCall_open.mpr ⟨hcreate, rfl⟩)
    have hfile := hx₁.createFile_service (by rw [hservice]; exact hnone) hcreate
    rw [show x₁.service = x.service from hservice] at hfile
    dsimp only at hc
    by_cases hfd' : fd' = -1
    · rw [if_pos hfd'] at hc hfile
      obtain ⟨⟨c, x₃⟩, hclose, hc⟩ := bind_eq_ok.mp hc
      obtain ⟨rfl, rfl⟩ := ok_pair_inj hc
      obtain rfl : x₃ = x₂ := by
        rcases hx₂.inv.tfsClose_cases hclose with ⟨h, heq, -⟩ | ⟨-, -, rfl⟩
        · omega
        · rfl
      exact ⟨hx₂, hfile⟩
    · rw [if_neg hfd'] at hc hfile
      obtain ⟨rfl, rfl⟩ := ok_pair_inj hc
      exact ⟨hx₂, hfile⟩
  · rw [if_pos hfd] at hc
    obtain ⟨⟨c, x₂⟩, hclose, hc⟩ := bind_eq_ok.mp hc
    obtain ⟨rfl, rfl⟩ := ok_pair_inj hc
    obtain ⟨hhas, hlt⟩ := hfound.mp hfd
    have hsame := (hx.inv.tfsOpen_ok hopen).sameOpen_close hx₁.inv hclose
    refine ⟨hx₁.of_call (tfsCall_close.mpr ⟨hclose, rfl⟩), ?_⟩
    rw [BoxService.createBox, if_pos hhas, if_pos hlt]
    congr 1
    ext1
    · rw [hx₁.close_boxes hclose, hservice]
    · exact (made_of_sameOpen hsame).symm

theorem Ready.removeBox_service (hx : Ready x) (box : BoxName) :
    (∃ y, removeBox box x = .ok y ∧ Ready y ∧ x.service.removeBox box = some y.service) ∨
      (∃ msg, removeBox box x = .error (.panic msg)) ∧ x.service.removeBox box = none := by
  obtain ⟨r, y, hunlink⟩ := hx.inv.tfsUnlink_returns box.name
  obtain ⟨hr, hservice⟩ := hx.unlink_service hunlink
  unfold removeBox BoxService.removeBox
  rw [hunlink, ok_bind]
  dsimp only
  by_cases hzero : r = 0
  · rw [alwaysAssert_of_true hzero, if_pos (hr.mp hzero), ← hservice]
    exact .inl ⟨y, rfl, hx.of_call (tfsCall_unlink.mpr ⟨hunlink, rfl⟩), rfl⟩
  · rw [if_neg fun hhas => hzero (hr.mpr hhas)]
    refine .inr ⟨⟨"Failed to remove box", ?_⟩, rfl⟩
    rw [alwaysAssert, if_neg hzero]
    rfl

theorem Ready.open_returns (hx : Ready x) (m : CString) (mode : Nat) :
    ∃ r y, tfsOpen m mode x = .ok (r, y) ∧ Ready y := by
  obtain ⟨r, y, ho⟩ := hx.inv.tfsOpen_returns hx.sized tfsDefaultParams_inRange m mode
  exact ⟨r, y, ho, hx.of_call (tfsCall_open.mpr ⟨ho, rfl⟩)⟩

theorem Ready.close_returns (hx : Ready x) (fhandle : Int) :
    ∃ r y, tfsClose fhandle x = .ok (r, y) ∧ Ready y ∧ y.service.boxes = x.service.boxes := by
  obtain ⟨⟨r, y⟩, hclose⟩ : ∃ res, tfsClose fhandle x = .ok res :=
    ⟨_, hx.inv.base.tfsClose_eq fhandle⟩
  exact ⟨r, y, hclose, hx.of_call (tfsCall_close.mpr ⟨hclose, rfl⟩), hx.close_boxes hclose⟩

theorem Ready.unlink_returns (hx : Ready x) (m : CString) :
    ∃ r y, tfsUnlink m x = .ok (r, y) ∧ Ready y ∧ (r = 0 ↔ x.service.Has m) ∧
      y.service = x.service.remove m := by
  obtain ⟨r, y, hunlink⟩ := hx.inv.tfsUnlink_returns m
  obtain ⟨hr, hservice⟩ := hx.unlink_service hunlink
  exact ⟨r, y, hunlink, hx.of_call (tfsCall_unlink.mpr ⟨hunlink, rfl⟩), hr, hservice⟩

/-- A publisher that is turned away. -/
theorem Ready.rejected_service (hx : Ready x) {fd metaFd : Int} {x₁ x₂ : Tfs}
    (hbox : tfsOpen box.name tfsOAppend x = .ok (fd, x₁))
    (hmeta : tfsOpen box.metaFilename 0 x₁ = .ok (metaFd, x₂)) (hreject : fd = -1 ∨ metaFd ≠ -1) :
    ∃ y, registerPublisher box x = .ok y ∧ Ready y ∧ y.service = x.service.remove box.metaFilename
    := by
  have hx₁ := hx.of_call (tfsCall_open.mpr ⟨hbox, rfl⟩)
  have hx₂ := hx₁.of_call (tfsCall_open.mpr ⟨hmeta, rfl⟩)
  obtain ⟨-, hservice₁⟩ := hx.open_plain box.tail_lt rfl hbox
  obtain ⟨-, hservice₂⟩ := hx₁.open_plain box.metaFilename_tail_lt rfl hmeta
  obtain ⟨r₃, x₃, hclose, hx₃, hboxes₃⟩ := hx₂.close_returns fd
  obtain ⟨r₄, x₄, hcloseMeta, hx₄, hboxes₄⟩ := hx₃.close_returns metaFd
  obtain ⟨r, y, hunlink, hy, -, hservice⟩ := hx₄.unlink_returns box.metaFilename
  have hok : registerPublisher box x = .ok y := by
    rw [registerPublisher, hbox, ok_bind]
    dsimp only
    rw [hmeta, ok_bind]
    dsimp only
    rw [if_pos hreject, hclose, ok_bind]
    dsimp only
    rw [hcloseMeta, ok_bind]
    dsimp only
    rw [hunlink]
    rfl
  refine ⟨y, hok, hy, ?_⟩
  ext1
  · rw [hservice]
    apply remove_boxes_congr
    rw [hboxes₄, hboxes₃, hservice₂, hservice₁]
  · exact made_of_sameOpen (hx.inv.registerPublisher_sameOpen hok)

/-- A publisher that is not, up to the creation of its meta-file. -/
theorem Ready.accepted_service (hx : Ready x) {fd metaFd : Int} {x₁ x₂ x₃ : Tfs}
    (hbox : tfsOpen box.name tfsOAppend x = .ok (fd, x₁))
    (hmeta : tfsOpen box.metaFilename 0 x₁ = .ok (-1, x₂)) (hfd : fd ≠ -1)
    (hcreate : tfsOpen box.metaFilename tfsOCreat x₂ = .ok (metaFd, x₃)) (hmetaFd : metaFd ≠ -1)
    (hnew : ¬ x.service.Has box.metaFilename) :
    ∃ y, registerPublisher box x = .ok y ∧ Ready y ∧ y.service = x.service := by
  have hx₁ := hx.of_call (tfsCall_open.mpr ⟨hbox, rfl⟩)
  have hx₂ := hx₁.of_call (tfsCall_open.mpr ⟨hmeta, rfl⟩)
  have hx₃ := hx₂.of_call (tfsCall_open.mpr ⟨hcreate, rfl⟩)
  obtain ⟨-, hservice₁⟩ := hx.open_plain box.tail_lt rfl hbox
  obtain ⟨-, hservice₂⟩ := hx₁.open_plain box.metaFilename_tail_lt rfl hmeta
  obtain ⟨hmakes, hservice₃⟩ := hx₂.open_service box.metaFilename_tail_lt hcreate
  obtain ⟨h, rfl, hopen⟩ : ∃ h : Nat, metaFd = h ∧ x₃.Open h := by
    rcases (hx₂.inv.tfsOpen_ok hcreate).handles with ⟨hneg, -⟩ | ⟨h, heq, -, hopen⟩
    · exact absurd hneg hmetaFd
    · exact ⟨h, heq, (hopen h).mpr (.inl rfl)⟩
  obtain ⟨r₄, x₄, hcloseMeta, hx₄, hboxes₄⟩ := hx₃.close_returns h
  obtain ⟨r₅, x₅, hclose, hx₅, hboxes₅⟩ := hx₄.close_returns fd
  obtain ⟨r, y, hunlink, hy, hr, hservice⟩ := hx₅.unlink_returns box.metaFilename
  have hboxes : x₅.service.boxes = insert box.metaFilename.chars.tail x.service.boxes := by
    rw [hboxes₅, hboxes₄, hservice₃, if_pos (hmakes.mp hmetaFd).1, hservice₂, hservice₁]
  have hvalid : validPathname box.metaFilename := (hmakes.mp hmetaFd).1.1
  have hhas : x₅.service.Has box.metaFilename := by
    refine ⟨hvalid, ?_⟩
    rw [hboxes]
    exact Finset.mem_insert_self ..
  have hclosed : r₄ = 0 := by
    rcases hx₃.inv.tfsClose_cases hcloseMeta with ⟨_, _, _, hzero, _⟩ | ⟨hnone, _, _⟩
    · exact hzero
    · exact absurd hopen (hnone h rfl)
  have hok : registerPublisher box x = .ok y := by
    rw [registerPublisher, hbox, ok_bind]
    dsimp only
    rw [hmeta, ok_bind]
    dsimp only
    rw [if_neg (by simp [hfd]), hcreate, ok_bind]
    dsimp only
    rw [alwaysAssert_of_true hmetaFd, ok_bind, hcloseMeta, ok_bind]
    dsimp only
    rw [alwaysAssert_of_true hclosed, ok_bind, hclose, ok_bind]
    dsimp only
    rw [hunlink, ok_bind]
    dsimp only
    rw [alwaysAssert_of_true (hr.mpr hhas)]
    rfl
  refine ⟨y, hok, hy, ?_⟩
  ext1
  · rw [hservice, BoxService.remove, if_pos hhas, hboxes]
    exact Finset.erase_insert fun hmem => hnew ⟨hvalid, hmem⟩
  · exact made_of_sameOpen (hx.inv.registerPublisher_sameOpen hok)

theorem Ready.registerPublisher_service (hx : Ready x) (box : BoxName) :
    (∃ y, registerPublisher box x = .ok y ∧ Ready y ∧
      x.service.registerPublisher box = some y.service) ∨
      (∃ msg, registerPublisher box x = .error (.panic msg)) ∧
        x.service.registerPublisher box = none := by
  obtain ⟨fd, x₁, hbox, hx₁⟩ := hx.open_returns box.name tfsOAppend
  obtain ⟨metaFd, x₂, hmeta, hx₂⟩ := hx₁.open_returns box.metaFilename 0
  obtain ⟨hfound, hservice₁⟩ := hx.open_plain box.tail_lt rfl hbox
  obtain ⟨hfoundMeta, hservice₂⟩ := hx₁.open_plain box.metaFilename_tail_lt rfl hmeta
  unfold BoxService.registerPublisher
  by_cases hreject : fd = -1 ∨ metaFd ≠ -1
  · obtain ⟨y, hok, hy, hservice⟩ := hx.rejected_service hbox hmeta hreject
    refine .inl ⟨y, hok, hy, ?_⟩
    rw [hservice]
    apply if_neg
    rintro ⟨hhas, hlt, hnot⟩
    have hfd := hfound.mpr ⟨hhas, hlt⟩
    have hmetaFd := hfoundMeta.mp (hreject.resolve_left hfd)
    rw [hservice₁, if_neg hfd] at hmetaFd
    exact hnot hmetaFd
  · obtain ⟨hfd, hmetaFd⟩ := not_or.mp hreject
    obtain rfl : metaFd = -1 := not_not.mp hmetaFd
    obtain ⟨hhas, hlt⟩ := hfound.mp hfd
    rw [hservice₁, if_neg hfd] at hfoundMeta
    have hnot : ¬ (x.service.Has box.metaFilename ∧ x.service.made + 1 < maxMade) := fun h =>
      hfoundMeta.mpr h rfl
    rw [if_pos ⟨hhas, hlt, hnot⟩]
    obtain ⟨metaFd', x₃, hcreate, hx₃⟩ := hx₂.open_returns box.metaFilename tfsOCreat
    obtain ⟨hmakes, -⟩ := hx₂.open_service box.metaFilename_tail_lt hcreate
    have hsame : x₂.service = ⟨x.service.boxes, x.service.made + 1⟩ := by
      rw [hservice₂, hservice₁, if_neg hfd]
      rfl
    rw [hsame, finds_creat (by decide)] at hmakes
    have hvalid := box.metaFilename_valid hhas.1
    by_cases hmetaFd' : metaFd' = -1
    · -- the meta-file is not there, and there is no room or no handle for it
      refine .inr ⟨⟨"An error ocurred while creating meta-file for %s", ?_⟩, ?_⟩
      · rw [registerPublisher, hbox, ok_bind]
        dsimp only
        rw [hmeta, ok_bind]
        dsimp only
        rw [if_neg hreject, hcreate, ok_bind]
        dsimp only
        rw [alwaysAssert, if_neg (not_not_intro hmetaFd')]
        rfl
      · apply if_neg
        rintro ⟨hroom, hlt'⟩
        exact hmakes.mpr ⟨.inr ⟨hvalid, hroom⟩, hlt'⟩ hmetaFd'
    · obtain ⟨hfinds, hlt'⟩ := hmakes.mp hmetaFd'
      have hnew : ¬ x.service.Has box.metaFilename := fun h => hnot ⟨h, hlt'⟩
      obtain ⟨y, hok, hy, hservice⟩ :=
        hx.accepted_service hbox hmeta hfd hcreate hmetaFd' hnew
      refine .inl ⟨y, hok, hy, ?_⟩
      rw [hservice]
      exact if_pos ⟨(hfinds.resolve_left hnew).2, hlt'⟩

/-- **A handler is one step of the service**, from start to end. -/
theorem Ready.parseRequest_service (hx : Ready x) (request : Request) :
    (∃ reply y, parseRequest request x = .ok (reply, y) ∧ Ready y ∧
      x.service.handle request = some (reply, y.service)) ∨
      (∃ msg, parseRequest request x = .error (.panic msg)) ∧ x.service.handle request = none := by
  cases request with
  | registerSubscriber box => exact .inl ⟨none, x, rfl, hx, rfl⟩
  | listBoxes => exact .inl ⟨none, x, rfl, hx, rfl⟩
  | createBox box =>
      obtain ⟨reply, y, hc⟩ := hx.inv.createBox_returns hx.sized box
      obtain ⟨hy, hservice⟩ := hx.createBox_service hc
      refine .inl ⟨some reply, y, ?_, hy, ?_⟩
      · rw [parseRequest, hc]
        rfl
      · rw [BoxService.handle, hservice]
  | removeBox box =>
      rcases hx.removeBox_service box with ⟨y, hok, hy, hservice⟩ | ⟨⟨msg, herror⟩, hnone⟩
      · refine .inl ⟨none, y, ?_, hy, ?_⟩
        · rw [parseRequest, hok]
          rfl
        · rw [BoxService.handle, hservice]
          rfl
      · refine .inr ⟨⟨msg, ?_⟩, ?_⟩
        · rw [parseRequest, herror]
          rfl
        · rw [BoxService.handle, hnone]
          rfl
  | registerPublisher box =>
      rcases hx.registerPublisher_service box with ⟨y, hok, hy, hservice⟩ | ⟨⟨msg, herror⟩, hnone⟩
      · refine .inl ⟨none, y, ?_, hy, ?_⟩
        · rw [parseRequest, hok]
          rfl
        · rw [BoxService.handle, hservice]
          rfl
      · refine .inr ⟨⟨msg, ?_⟩, ?_⟩
        · rw [parseRequest, herror]
          rfl
        · rw [BoxService.handle, hnone]
          rfl

end MBroker
