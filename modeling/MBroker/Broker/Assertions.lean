import MBroker.Broker.Publishers

/-!
# The assertions of the handlers

A failed assertion ends the broker. The handlers assert four results of
the file system: that the meta-file is created, closed and unlinked, and
that the box is unlinked. The close never fails. The unlink of a
meta-file needs what `Publishers` is about; the other two need that there
is room for the meta-file and that the box exists, and nothing checks it.
-/

namespace MBroker

open Threads Tfs

/-! ## What is asserted -/

/-- What the handler asserts of the result of its call. -/
def BrokerPoint.Asserts (p : BrokerPoint) (r : Int) : Prop :=
  match p with
  | .registerPublisher _ (.createMeta _) => r ≠ -1
  | .registerPublisher _ (.closeMeta _ _) | .registerPublisher _ .unlinkMeta
  | .removeBox _ .unlinkBox => r = 0
  | _ => True

theorem next_isOk {p : BrokerPoint} {call : TfsCall} {r : Int}
    {next : Int → Except Fault BrokerPoint} (hstep : brokerStep p = .tfs call next)
    (h : p.Asserts r) : ∃ k, next r = .ok k := by
  cases p with
  | idle => cases hstep
  | registerPublisher box p =>
      cases p with
      | lockOps | rejectUnlockOps | unlockOps => cases hstep
      | openMeta =>
          cases hstep
          dsimp only
          split
          · exact ⟨_, rfl⟩
          · exact ⟨_, rfl⟩
      | createMeta | closeMeta | unlinkMeta =>
          cases hstep
          exact assert_isOk h
      | _ =>
          cases hstep
          exact ⟨_, rfl⟩
  | createBox box p =>
      cases p with
      | lockOps | unlockOps => cases hstep
      | openBox | createFile =>
          cases hstep
          dsimp only
          split
          · exact ⟨_, rfl⟩
          · exact ⟨_, rfl⟩
      | _ =>
          cases hstep
          exact ⟨_, rfl⟩
  | removeBox box p =>
      cases p with
      | lockOps | unlockOps => cases hstep
      | unlinkBox =>
          cases hstep
          exact assert_isOk h

section Runs

variable {T : Type*} {s : BrokerState T} {t : T}

/-- The fault that the next step of worker `t` ends the broker with, if any. -/
def nextFault (s : BrokerState T) (t : T) : Option Fault :=
  match brokerStep (s.pc t) with
  | .tfs call next =>
      match tfsCall s.shared call with
      | .error e => some e
      | .ok ((r, _), _) =>
          match next r with
          | .error e => some e
          | .ok _ => none
  | _ => none

/-- There is room for the meta-file of a publisher, and a box that is to be
removed exists. -/
def RoomAt (s : BrokerState T) : BrokerPoint → Prop
  | .registerPublisher box (.createMeta _) =>
      s.shared.firstFreeHandle.isSome ∧ ((s.shared.resolve box.metaFilename).isSome ∨
        s.shared.firstFreeInode.isSome ∧ s.shared.firstFreeSlot.isSome)
  | .removeBox box .unlinkBox => (s.shared.resolve box.name).isSome
  | _ => True

/-- The condition on the step that the worker takes next. -/
def RequestMeets (s : BrokerState T) (e : Event T BrokerPoint) : Prop :=
  PublisherMeets s e ∧ RoomAt s (s.pc e.thread)

/-! ## No assertion fails -/

variable [Fintype T]

theorem Healthy.nextFault_eq_none (h : Healthy s)
    (hasserts : ∀ call next r x, brokerStep (s.pc t) = .tfs call next →
      tfsCall s.shared call = .ok ((r, []), x) → (s.pc t).Asserts r) : nextFault s t = none := by
  unfold nextFault
  cases hstep : brokerStep (s.pc t) with
  | tfs call next =>
      obtain ⟨r, x, hcall⟩ := h.call_returns hstep
      obtain ⟨k, hnext⟩ := next_isOk hstep (hasserts call next r x hstep hcall)
      dsimp only
      rw [hcall]
      dsimp only
      rw [hnext]
  | _ => rfl

/-- A handle that a worker has to close is open. -/
theorem Healthy.open_of_mem (h : Healthy s) {n : Nat} (hn : (n : Int) ∈ (s.pc t).handles) :
    s.shared.Open n := by
  apply h.handles.opened
  have hpos : 0 < (s.pc t).handles.count (n : Int) := List.count_pos_iff.mpr hn
  have hle : (s.pc t).handles.count (n : Int) ≤ handleUses s n :=
    Finset.single_le_sum (f := fun u => (s.pc u).handles.count (n : Int))
      (fun _ _ => Nat.zero_le _) (Finset.mem_univ t)
  omega

/-- With a meta-file that is there, and room for one that is not, no assertion
of the handlers fails. -/
theorem Healthy.nextFault_of_room (hs : Healthy s) (hmarked : Marked s)
    (hroom : RoomAt s (s.pc t)) : nextFault s t = none := by
  apply hs.nextFault_eq_none
  intro call next r x hstep hcall
  cases hpc : s.pc t with
  | registerPublisher box p =>
      rw [hpc] at hstep hroom
      cases p with
      | createMeta fd =>
          cases hstep
          have hsound := hs.sound t
          rw [hpc] at hsound
          have ho := hs.inv.tfsOpen_ok (tfsCall_open.mp hcall).1
          refine ho.ne_neg_one hroom.1 (hroom.2.imp id ?_)
          rintro ⟨hinode, hslot⟩
          refine ⟨BoxName.metaFilename_valid hsound, by decide, hinode, ?_⟩
          rw [box.slotFor_metaFilename]
          exact hslot
      | closeMeta fd metaFd =>
          cases hstep
          have hsound := hs.sound t
          rw [hpc] at hsound
          obtain ⟨n, rfl⟩ := Int.eq_ofNat_of_zero_le hsound
          have hopen : s.shared.Open n :=
            hs.open_of_mem (t := t) (by rw [hpc]; simp [BrokerPoint.handles, RegisterPoint.handles])
          rcases hs.inv.tfsClose_cases (tfsCall_close.mp hcall).1 with
            ⟨_, _, _, hr, _⟩ | ⟨hclosed, _⟩
          · exact hr
          · exact absurd hopen (hclosed n rfl)
      | unlinkMeta =>
          cases hstep
          apply (hs.inv.unlink_eq_zero_iff (tfsCall_unlink.mp hcall).1).mpr
          exact hmarked.present t box (by rw [hpc]; rfl)
      | _ => trivial
  | removeBox box p =>
      rw [hpc] at hstep hroom
      cases p with
      | unlinkBox =>
          cases hstep
          exact (hs.inv.unlink_eq_zero_iff (tfsCall_unlink.mp hcall).1).mpr hroom
      | _ => trivial
  | idle | createBox => trivial

variable [DecidableEq T]

/-- **No assertion fails** in the runs that leave the meta-files of
registered publishers alone, have room for new ones and remove what exists. -/
theorem reachable_nextFault (h : (brokerMachine T).ReachableBy RequestMeets s)
    (hmeets : RequestMeets s (.run t)) : nextFault s t = none := by
  have hmarked := reachable_marked (h.mono fun _ _ => And.left)
  exact (broker_healthy h).nextFault_of_room hmarked hmeets.2

end Runs

instance {T : Type*} (s : BrokerState T) : DecidablePred (RoomAt s)
  | .registerPublisher box (.createMeta _) => inferInstanceAs (Decidable
      (s.shared.firstFreeHandle.isSome ∧ ((s.shared.resolve box.metaFilename).isSome ∨
        s.shared.firstFreeInode.isSome ∧ s.shared.firstFreeSlot.isSome)))
  | .removeBox box .unlinkBox => inferInstanceAs (Decidable (s.shared.resolve box.name).isSome)
  | .idle _ | .createBox _ _ | .removeBox _ .lockOps | .removeBox _ .unlockOps
  | .registerPublisher _ .openBox | .registerPublisher _ (.lockOps _)
  | .registerPublisher _ (.openMeta _) | .registerPublisher _ .rejectUnlinkMeta
  | .registerPublisher _ (.rejectCloseBox _ _) | .registerPublisher _ (.rejectCloseMeta _)
  | .registerPublisher _ .rejectUnlockOps | .registerPublisher _ (.closeMeta _ _)
  | .registerPublisher _ (.unlockOps _) | .registerPublisher _ (.closeBox _)
  | .registerPublisher _ .unlinkMeta => .isTrue trivial

instance {T : Type*} [Fintype T] (s : BrokerState T) (e : Event T BrokerPoint) :
    Decidable (RequestMeets s e) :=
  inferInstanceAs (Decidable (PublisherMeets s e ∧ RoomAt s (s.pc e.thread)))

/-- A publisher of `/a` is about to unlink its meta-file. -/
def publisherRun : List (Event (Fin 2) BrokerPoint) :=
  handle 0 (.createBox boxA) 4 ++ handle 0 (.registerPublisher boxA) 7

theorem publisherRun_result :
    (brokerRunBy RequestMeets publisherRun).map (fun s =>
      (s.pc 0, decide (RequestMeets s (.run 0)))) =
    some (.registerPublisher boxA .unlinkMeta, true) := by
  decide +kernel

theorem publisherRun_nextFault : ∃ s, brokerRunBy RequestMeets publisherRun = some s ∧
    s.pc 0 = .registerPublisher boxA .unlinkMeta ∧ nextFault s 0 = none := by
  obtain ⟨s, hrun, hobs⟩ := Option.map_eq_some_iff.mp publisherRun_result
  obtain ⟨hpc, hmeets⟩ := Prod.mk.inj hobs
  exact ⟨s, hrun, hpc, reachable_nextFault (brokerRunBy_reachable hrun) (of_decide_eq_true hmeets)⟩

/-- `remove_box` of a box that does not exist. -/
def missingRun : List (Event (Fin 1) BrokerPoint) := handle 0 (.removeBox boxA) 1

/-- The meta-file of `/a` is unlinked for a publisher that was rejected, and
then by its own publisher. -/
def unmarkedRun : List (Event (Fin 2) BrokerPoint) :=
  handle 0 (.createBox boxA) 4 ++ handle 0 (.registerPublisher boxA) 7 ++
    handle 1 (.registerPublisher boxA) 7

theorem missingRun_result : (brokerRunBy (fun _ _ => True) missingRun).map (nextFault · 0) =
    some (some (.panic "Failed to remove box")) := by
  decide +kernel

theorem unmarkedRun_result : (brokerRunBy (fun _ _ => True) unmarkedRun).map (nextFault · 0) =
    some (some (.panic "Failed to delete meta-file while removing publisher")) := by
  decide +kernel

theorem requests_panic :
    (∃ s, (brokerMachine (Fin 1)).Reachable s ∧
      nextFault s 0 = some (.panic "Failed to remove box")) ∧
    ∃ s, (brokerMachine (Fin 2)).Reachable s ∧
      nextFault s 0 = some (.panic "Failed to delete meta-file while removing publisher") := by
  obtain ⟨s, hrun, hfault⟩ := Option.map_eq_some_iff.mp missingRun_result
  obtain ⟨s', hrun', hfault'⟩ := Option.map_eq_some_iff.mp unmarkedRun_result
  exact ⟨⟨s, brokerRunBy_reachable hrun, hfault⟩, ⟨s', brokerRunBy_reachable hrun', hfault'⟩⟩

end MBroker
