import MBroker.Broker.Runs

/-!
# What a request does to the boxes of others

A box and the meta-files live in one directory. Each handler truncates or
unlinks one name at most: `create_box` and `remove_box` that of their own
box, `register_publisher` that of the meta-file. Clients choose the names
of boxes, so that one may be the meta-file of another box, and every
`register_publisher` for that other box ends with the file gone.
-/

namespace MBroker

open Threads Tfs

/-! ## The name that a handler may change -/

/-- The box that a request names. -/
def Request.box : Request → Option BoxName
  | .registerPublisher box | .registerSubscriber box | .createBox box | .removeBox box => some box
  | .listBoxes => none

/-- The only file that the handler may truncate or unlink. -/
def BrokerPoint.target : BrokerPoint → Option CString
  | .registerPublisher box _ => some box.metaFilename
  | .createBox box _ | .removeBox box _ => some box.name
  | .idle _ => none

section Handlers

variable {p q k : BrokerPoint} {x x' y s t : Tfs} {n : CString} {call : TfsCall} {r : Int}
  {bytes : List UInt8} {box : BoxName}

theorem LockMove.target (hmove : LockMove p k) (hbusy : brokerStep p ≠ .idle)
    (hn : p.target ≠ some n) : k.target ≠ some n := by
  cases hmove with
  | enter => exact absurd rfl hbusy
  | register | create | remove | registered => exact hn
  | rejected | created | removed => simp [BrokerPoint.target]

theorem TfsMove.target (hmove : TfsMove p call r k) (hn : p.target ≠ some n) :
    k.target ≠ some n := by
  cases hmove with
  | unlinkMeta => simp [BrokerPoint.target]
  | _ => exact hn

/-- A call of a handler keeps every file but its target. -/
theorem TfsMove.kept (hmove : TfsMove p call r k) (hinv : Inv x)
    (hcall : tfsCall x call = .ok ((r, bytes), x')) (hn : p.target ≠ some n) : Kept n x x' := by
  cases call with
  | «open» m mode =>
      have ho := hinv.tfsOpen_ok (tfsCall_open.mp hcall).1
      apply ho.kept hinv
      cases hmove with
      | createFile | createFailed => exact .inl fun heq => hn (congrArg some heq.symm)
      | _ => exact .inr (by decide)
  | close fhandle => exact hinv.kept_close (tfsCall_close.mp hcall).1
  | unlink m =>
      apply hinv.kept_unlink (tfsCall_unlink.mp hcall).1
      cases hmove with
      | _ => exact fun heq => hn (congrArg some heq.symm)
  | write | read => exact hmove.noData.elim

/-- **A handler keeps every file but its target.** -/
theorem Alone.kept (h : Alone p x q y) (hinv : Inv x) (hn : p.target ≠ some n) : Kept n x y := by
  induction h with
  | refl p x => exact Kept.refl n x
  | lock hstep _ ih =>
      exact ih hinv ((lockMove_of_lock hstep).target (by simp [hstep]) hn)
  | unlock hstep _ ih =>
      exact ih hinv ((lockMove_of_unlock hstep).target (by simp [hstep]) hn)
  | tfs hstep hcall hnext _ ih =>
      have hmove := tfsMove_of_tfs hstep hnext
      exact (hmove.kept hinv hcall hn).trans (ih (hinv.of_call hcall) (hmove.target hn))

/-- Accepted or rejected, a publisher leaves no meta-file behind. -/
theorem registerPublisher_unlinks (hinv : Inv s) (h : registerPublisher box s = .ok t) :
    t.resolve box.metaFilename = none := by
  have hgone : ∀ {u v : Tfs} {r : Int}, Inv u → tfsUnlink box.metaFilename u = .ok (r, v) →
      v.resolve box.metaFilename = none := by
    intro u v r hinv hu
    rw [hinv.resolve_unlink hu, if_pos rfl]
  cases registerPublisher_cases h with
  | rejected hbox hmeta _ hclose hcloseMeta hunlink =>
      have hinv := hinv.of_call (tfsCall_open.mpr ⟨hbox, rfl⟩)
      have hinv := hinv.of_call (tfsCall_open.mpr ⟨hmeta, rfl⟩)
      have hinv := hinv.of_call (tfsCall_close.mpr ⟨hclose, rfl⟩)
      have hinv := hinv.of_call (tfsCall_close.mpr ⟨hcloseMeta, rfl⟩)
      exact hgone hinv hunlink
  | accepted hbox hmeta _ hcreate _ hcloseMeta hclose hunlink =>
      have hinv := hinv.of_call (tfsCall_open.mpr ⟨hbox, rfl⟩)
      have hinv := hinv.of_call (tfsCall_open.mpr ⟨hmeta, rfl⟩)
      have hinv := hinv.of_call (tfsCall_open.mpr ⟨hcreate, rfl⟩)
      have hinv := hinv.of_call (tfsCall_close.mpr ⟨hcloseMeta, rfl⟩)
      have hinv := hinv.of_call (tfsCall_close.mpr ⟨hclose, rfl⟩)
      exact hgone hinv hunlink

end Handlers

/-! ## The boxes -/

section Runs

variable {T : Type*} {s : BrokerState T} {boxes : Finset CString} {request : Request}
  {reply : Option Reply} {t : Tfs}

/-- The names of the files that `create_box` has created and that are still
there, after a step from `s` to `s'`. -/
def boxesAfter (s : BrokerState T) (e : Event T BrokerPoint) (s' : BrokerState T)
    (boxes : Finset CString) : Finset CString :=
  let created := match s.pc e.thread with
    | .createBox box .createFile =>
        if (s.shared.resolve box.name).isSome then boxes else insert box.name boxes
    | _ => boxes
  created.filter fun n => (s'.shared.resolve n).isSome

/-- The broker with the names of its boxes. -/
def boxMachine (T : Type*) [Fintype T] [DecidableEq T] :
    Machine (BrokerState T × Finset CString) (Event T BrokerPoint) :=
  (brokerMachine T).ghost ∅ boxesAfter

/-- Every box that the request does not name stays where it is, with its
inode, its size and its bytes. -/
def KeepsOthers (boxes : Finset CString) (request : Request) (s t : Tfs) : Prop :=
  ∀ n ∈ boxes, (∀ box, request.box = some box → n ≠ box.name) →
    ∃ i, s.resolve n = some i ∧ t.resolve n = some i ∧
      (t.inode i).iSize = (s.inode i).iSize ∧ t.fileBytes i = s.fileBytes i

/-- The request is for a publisher of a box whose meta-file has the name of
a box. -/
def TakesBoxForMeta (boxes : Finset CString) (request : Request) : Prop :=
  ∃ box, request = .registerPublisher box ∧ box.metaFilename ∈ boxes

theorem target_of_start (hn : ¬ TakesBoxForMeta boxes request) {n : CString} (hmem : n ∈ boxes)
    (hother : ∀ box, request.box = some box → n ≠ box.name) :
    request.start.target ≠ some n := by
  intro htarget
  cases request with
  | registerPublisher box =>
      have heq : box.metaFilename = n := Option.some.inj htarget
      exact hn ⟨box, rfl, heq ▸ hmem⟩
  | createBox box | removeBox box => exact hother box rfl (Option.some.inj htarget).symm
  | registerSubscriber | listBoxes => cases htarget

variable [Fintype T] [DecidableEq T]

theorem resolve_of_mem_boxes (h : (boxMachine T).Reachable (s, boxes)) {n : CString}
    (hn : n ∈ boxes) : (s.shared.resolve n).isSome := by
  cases h with
  | start h0 =>
      obtain ⟨-, hempty⟩ := h0
      change boxes = ∅ at hempty
      rw [hempty] at hn
      cases hn
  | step _ _ hs =>
      obtain ⟨-, heq⟩ := Machine.ghost_step_eq_some.mp hs
      change boxes = _ at heq
      rw [heq] at hn
      exact (Finset.mem_filter.mp hn).2

omit [Fintype T] [DecidableEq T] in
/-- A publisher takes the box with the name of its meta-file away. -/
theorem not_keepsOthers {s : Tfs} {box : BoxName} (hinv : Inv s)
    (hrun : parseRequest (.registerPublisher box) s = .ok (reply, t))
    (hmem : box.metaFilename ∈ boxes) : ¬ KeepsOthers boxes (.registerPublisher box) s t := by
  intro hkeeps
  have hother : ∀ box', Request.box (.registerPublisher box) = some box' →
      box.metaFilename ≠ box'.name := by
    intro box' hbox
    cases hbox
    exact box.metaFilename_ne_name
  obtain ⟨i, -, hi, -⟩ := hkeeps _ hmem hother
  obtain ⟨t', hregister, heq⟩ := bind_eq_ok.mp hrun
  obtain ⟨-, rfl⟩ := ok_pair_inj heq
  rw [registerPublisher_unlinks hinv hregister] at hi
  cases hi

/-- **A request touches only its own box**, except that a publisher's may
take another box for its meta-file. -/
theorem reachable_keepsOthers_iff (h : (boxMachine T).Reachable (s, boxes))
    (hrun : parseRequest request s.shared = .ok (reply, t)) :
    KeepsOthers boxes request s.shared t ↔ ¬ TakesBoxForMeta boxes request := by
  have hinv : Inv s.shared := (broker_healthy (Machine.ghost_fst h)).inv
  constructor
  · rintro hkeeps ⟨box, rfl, hmem⟩
    exact not_keepsOthers hinv hrun hmem hkeeps
  · intro htakes n hmem hother
    have hkept := (parseRequest_alone hrun).kept hinv (target_of_start htakes hmem hother)
    obtain ⟨i, hi⟩ := Option.isSome_iff_exists.mp (resolve_of_mem_boxes h hmem)
    exact ⟨i, hi, hkept i hi⟩

end Runs

/-! ## Two runs -/

/-- The box `/a.pub`. -/
def boxAPub : BoxName := ⟨boxA.metaFilename, by decide⟩

/-- One worker creates the boxes of a list. -/
def creations (bs : List BoxName) : List (Event (Fin 1) BrokerPoint) :=
  bs.flatMap fun box => handle 0 (.createBox box) 4

/-- The state and the boxes after the creations. -/
def afterCreations (bs : List BoxName) : Option (BrokerState (Fin 1) × Finset CString) :=
  (brokerStart (Fin 1)).bind fun s => (boxMachine (Fin 1)).run (s, ∅) (creations bs)

theorem afterCreations_reachable {bs : List BoxName} {p : BrokerState (Fin 1) × Finset CString}
    (h : afterCreations bs = some p) : (boxMachine (Fin 1)).Reachable p := by
  obtain ⟨s, hstart, hrun⟩ := Option.bind_eq_some_iff.mp h
  have hs : (boxMachine (Fin 1)).start (s, ∅) := ⟨brokerStart_start hstart, rfl⟩
  exact (Machine.ReachableBy.start hs).run (fun _ _ _ => trivial) hrun

theorem publisherOfA_result : (afterCreations [boxA, boxB]).map (fun p =>
    (p.2, (parseRequest (.registerPublisher boxA) p.1.shared).map Prod.fst)) =
    some ({boxA.name, boxB.name}, .ok none) := by
  decide +kernel

theorem publisherOfA_keepsOthers : ∃ s t,
    (boxMachine (Fin 1)).Reachable (s, {boxA.name, boxB.name}) ∧
    parseRequest (.registerPublisher boxA) s.shared = .ok (none, t) ∧
    KeepsOthers {boxA.name, boxB.name} (.registerPublisher boxA) s.shared t := by
  obtain ⟨⟨s, boxes⟩, hrun, hobs⟩ := Option.map_eq_some_iff.mp publisherOfA_result
  obtain ⟨rfl, hreply⟩ := Prod.mk.inj hobs
  have hreach := afterCreations_reachable hrun
  obtain ⟨t, hparse⟩ := map_fst_eq_ok hreply
  refine ⟨s, t, hreach, hparse, (reachable_keepsOthers_iff hreach hparse).mpr ?_⟩
  rintro ⟨box, heq, hmem⟩
  cases heq
  revert hmem
  decide

theorem publisherOfA_unlinks_result : (afterCreations [boxAPub]).map (fun p =>
    (p.2, (parseRequest (.registerPublisher boxA) p.1.shared).map Prod.fst)) =
    some ({boxAPub.name}, .ok none) := by
  decide +kernel

/-- A publisher for `/a`, which does not exist, unlinks the box `/a.pub`. -/
theorem publisherOfA_unlinks : ∃ s t, (boxMachine (Fin 1)).Reachable (s, {boxAPub.name}) ∧
    parseRequest (.registerPublisher boxA) s.shared = .ok (none, t) ∧
    ¬ KeepsOthers {boxAPub.name} (.registerPublisher boxA) s.shared t := by
  obtain ⟨⟨s, boxes⟩, hrun, hobs⟩ := Option.map_eq_some_iff.mp publisherOfA_unlinks_result
  obtain ⟨rfl, hreply⟩ := Prod.mk.inj hobs
  have hreach := afterCreations_reachable hrun
  obtain ⟨t, hparse⟩ := map_fst_eq_ok hreply
  have hinv : Inv s.shared := (broker_healthy (Machine.ghost_fst hreach)).inv
  exact ⟨s, t, hreach, hparse, not_keepsOthers hinv hparse (Finset.mem_singleton_self _)⟩

end MBroker
