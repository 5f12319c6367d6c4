import MBroker.Broker.Runs

/-!
# Publishers and their meta-files

A meta-file is meant to say that its box has a publisher. Three things
break this: a request that is rejected unlinks the meta-file of the
publisher it was rejected for, a full open-file table makes an existing
meta-file look absent, and `remove_box` accepts the name of a meta-file.
In the runs without them a meta-file is there while its publisher is, and
a box has one publisher at most.
-/

namespace MBroker

open Threads Tfs

/-! ## What a publisher relies on -/

/-- The box of a registered publisher: it has released `tfs_ops` after it
created the meta-file, and has not unlinked the meta-file yet. -/
def BrokerPoint.registered : BrokerPoint → Option BoxName
  | .registerPublisher box (.closeBox _) | .registerPublisher box .unlinkMeta => some box
  | _ => none

/-- The box whose meta-file the worker has created. -/
def BrokerPoint.marked : BrokerPoint → Option BoxName
  | .registerPublisher box (.closeMeta _ _) | .registerPublisher box (.unlockOps _)
  | .registerPublisher box (.closeBox _) | .registerPublisher box .unlinkMeta => some box
  | _ => none

/-- The box that the worker has found to be without a publisher. -/
def BrokerPoint.claimed : BrokerPoint → Option BoxName
  | .registerPublisher box (.createMeta _) => some box
  | p => p.marked

/-- The path name that the worker is about to unlink. -/
def BrokerPoint.unlinks : BrokerPoint → Option CString
  | .registerPublisher box .rejectUnlinkMeta | .registerPublisher box .unlinkMeta =>
      some box.metaFilename
  | .removeBox box .unlinkBox => some box.name
  | _ => none

section Points

variable {p k : BrokerPoint} {x x' : Tfs} {box : BoxName} {path : CString}

theorem BrokerPoint.claimed_of_marked (h : p.marked = some box) : p.claimed = some box := by
  cases p with
  | registerPublisher box' p => cases p <;> first | exact h | cases h
  | _ => cases h

/-- Who is on the way to be registered, holds `tfs_ops`. -/
theorem BrokerPoint.registered_or_held (h : p.claimed = some box) :
    p.registered = some box ∨ .tfsOps ∈ p.held := by
  cases p with
  | registerPublisher box' p =>
      cases p with
      | closeBox | unlinkMeta => exact .inl h
      | createMeta | closeMeta | unlockOps => exact .inr (Finset.mem_singleton_self _)
      | _ => cases h
  | _ => cases h

theorem BrokerPoint.marked_of_registered (h : p.registered = some box) :
    p.marked = some box := by
  cases p with
  | registerPublisher box' p => cases p <;> first | exact h | cases h
  | _ => cases h

/-- A claim is made by opening the meta-file in vain. -/
theorem Move.claimed (hmove : Move p x k x') (hk : k.claimed = some box) :
    p.claimed = some box ∨ ∃ fd bytes, p = .registerPublisher box (.openMeta fd) ∧ fd ≠ -1 ∧
      tfsCall x (.open box.metaFilename 0) = .ok ((-1, bytes), x') := by
  cases hmove with
  | quiet hmove =>
      cases hmove with
      | enter hentry =>
          rcases brokerEntry_cases hentry with ⟨box', rfl⟩ | ⟨box', rfl⟩ | ⟨box', rfl⟩ | rfl <;>
            cases hk
      | registered => exact .inl hk
      | _ => cases hk
  | tfs hmove hcall =>
      cases hmove with
      | accept hfd =>
          cases hk
          exact .inr ⟨_, _, rfl, hfd, hcall⟩
      | createMeta | closeMeta | closeBox => exact .inl hk
      | _ => cases hk

/-- A mark is made by creating the meta-file. -/
theorem Move.marked (hmove : Move p x k x') (hinv : Inv x) (hk : k.marked = some box) :
    (x'.resolve box.metaFilename).isSome ∨ p.marked = some box ∧ p.unlinks = none := by
  cases hmove with
  | quiet hmove =>
      cases hmove with
      | enter hentry =>
          rcases brokerEntry_cases hentry with ⟨box', rfl⟩ | ⟨box', rfl⟩ | ⟨box', rfl⟩ | rfl <;>
            cases hk
      | registered => exact .inr ⟨hk, rfl⟩
      | _ => cases hk
  | tfs hmove hcall =>
      cases hmove with
      | createMeta hmeta =>
          cases hk
          have ho := hinv.tfsOpen_ok (tfsCall_open.mp hcall).1
          exact .inl (ho.resolve_isSome hinv hmeta)
      | closeMeta | closeBox => exact .inr ⟨hk, rfl⟩
      | _ => cases hk

/-- A path name goes on naming its file until it is unlinked. -/
theorem Move.resolve_mono {i : Nat} (hmove : Move p x k x') (hinv : Inv x)
    (hi : x.resolve path = some i) (hkeep : p.unlinks ≠ some path) :
    x'.resolve path = some i := by
  cases hmove with
  | quiet => exact hi
  | tfs hmove hcall =>
      rename_i call _ _
      cases call with
      | «open» m mode => exact (hinv.tfsOpen_ok (tfsCall_open.mp hcall).1).resolve_mono hinv hi
      | close fhandle =>
          rcases hinv.tfsClose_cases (tfsCall_close.mp hcall).1 with ⟨_, _, _, _, rfl⟩ | ⟨_, _, rfl⟩
          · exact hi
          · exact hi
      | unlink m =>
          have hm : p.unlinks = some m := by
            cases hmove <;> rfl
          have hne : path ≠ m := by
            intro heq
            rw [heq] at hkeep
            exact hkeep hm
          rw [hinv.resolve_unlink (tfsCall_unlink.mp hcall).1, if_neg hne]
          exact hi
      | write | read => exact hmove.noData.elim

/-- A file goes away only by being unlinked. -/
theorem Move.resolve_isSome (hmove : Move p x k x') (hinv : Inv x)
    (hpath : (x.resolve path).isSome) (hkeep : p.unlinks ≠ some path) :
    (x'.resolve path).isSome := by
  obtain ⟨i, hi⟩ := Option.isSome_iff_exists.mp hpath
  rw [hmove.resolve_mono hinv hi hkeep]
  rfl

end Points

/-! ## One publisher for each box -/

section Runs

variable {T : Type*} {s s' : BrokerState T} {t u : T} {e : Event T BrokerPoint} {box : BoxName}

def Registered (s : BrokerState T) (box : BoxName) : Prop :=
  ∃ u, (s.pc u).registered = some box

/-- The meta-file of a registered publisher is unlinked neither for a rejected
one nor as a box, and a test for it has a free handle to find it with. -/
def PublisherMeetsAt (s : BrokerState T) : BrokerPoint → Prop
  | .registerPublisher box (.openMeta fd) =>
      fd ≠ -1 → Registered s box → s.shared.firstFreeHandle.isSome
  | .registerPublisher box .rejectUnlinkMeta => ¬ Registered s box
  | .removeBox box .unlinkBox => ∀ u, ∀ box' ∈ (s.pc u).registered, box.name ≠ box'.metaFilename
  | _ => True

/-- The condition on the step that the worker takes next. -/
def PublisherMeets (s : BrokerState T) (e : Event T BrokerPoint) : Prop :=
  PublisherMeetsAt s (s.pc e.thread)

/-- Meta-files mean what they should. -/
structure Marked (s : BrokerState T) : Prop where
  present : ∀ t box, (s.pc t).marked = some box → (s.shared.resolve box.metaFilename).isSome
  unique : ∀ t u box, (s.pc t).claimed = some box → (s.pc u).claimed = some box → t = u

/-- No step unlinks the meta-file of another worker's box. -/
theorem Marked.not_unlinked (h : Marked s) (hown : Owned BrokerPoint.held s)
    (hmeets : PublisherMeets s e) (hu : u ≠ e.thread) (hbox : (s.pc u).marked = some box) :
    (s.pc e.thread).unlinks ≠ some box.metaFilename := by
  intro hunlinks
  have hclaimed := BrokerPoint.claimed_of_marked hbox
  have hregistered : .tfsOps ∈ (s.pc e.thread).held → (s.pc u).registered = some box := by
    intro hheld
    rcases BrokerPoint.registered_or_held hclaimed with hreg | hheld'
    · exact hreg
    · exact absurd (hown.eq hheld' hheld) hu
  unfold PublisherMeets at hmeets
  cases hp : s.pc e.thread with
  | registerPublisher box' p =>
      rw [hp] at hunlinks hmeets hregistered
      cases p with
      | rejectUnlinkMeta =>
          obtain rfl := BoxName.metaFilename_inj (Option.some.inj hunlinks)
          exact hmeets ⟨u, hregistered (Finset.mem_singleton_self _)⟩
      | unlinkMeta =>
          obtain rfl := BoxName.metaFilename_inj (Option.some.inj hunlinks)
          exact hu (h.unique _ _ _ hclaimed (by rw [hp]; rfl))
      | _ => cases hunlinks
  | removeBox box' p =>
      rw [hp] at hunlinks hmeets hregistered
      cases p with
      | unlinkBox =>
          have hreg := hregistered (Finset.mem_singleton_self _)
          exact hmeets u box hreg (Option.some.inj hunlinks)
      | _ => cases hunlinks
  | _ =>
      rw [hp] at hunlinks
      cases hunlinks

/-- A new claim is not made while there is another. -/
theorem Marked.claim_new (h : Marked s) (hinv : Inv s.shared) (hown : Owned BrokerPoint.held s)
    (hmeets : PublisherMeets s e) {k : BrokerPoint} {x : Tfs}
    (hmove : Move (s.pc e.thread) s.shared k x) (hu : u ≠ e.thread)
    (hk : k.claimed = some box) : (s.pc u).claimed ≠ some box := by
  intro hclaimed
  rcases hmove.claimed hk with hp | ⟨fd, bytes, hp, hfd, hcall⟩
  · exact hu (h.unique _ _ _ hclaimed hp)
  · unfold PublisherMeets at hmeets
    rw [hp] at hmeets
    rcases BrokerPoint.registered_or_held hclaimed with hreg | hheld
    · have hpresent := h.present u box (BrokerPoint.marked_of_registered hreg)
      have ho := hinv.tfsOpen_ok (tfsCall_open.mp hcall).1
      exact ho.ne_neg_one (hmeets hfd ⟨u, hreg⟩) (.inl hpresent) rfl
    · have hheld' : .tfsOps ∈ (s.pc e.thread).held := by
        rw [hp]
        exact Finset.mem_singleton_self _
      exact hu (hown.eq hheld hheld')

variable [Fintype T] [DecidableEq T]

theorem Marked.step (h : Marked s) (hinv : Inv s.shared) (hown : Owned BrokerPoint.held s)
    (hmeets : PublisherMeets s e) (hs : (brokerMachine T).step s e = some s') : Marked s' := by
  obtain ⟨k, x', hmove, hshared, hpc⟩ := move_of_step hs
  have hself : s'.pc e.thread = k := by
    rw [hpc]
    exact Function.update_self ..
  have hother : ∀ u, u ≠ e.thread → s'.pc u = s.pc u := by
    intro u hu
    rw [hpc]
    exact Function.update_of_ne hu ..
  rw [← hshared] at hmove
  constructor
  · intro t box hbox
    by_cases ht : t = e.thread
    · rw [ht, hself] at hbox
      rcases hmove.marked hinv hbox with hcreated | ⟨hp, hnone⟩
      · exact hcreated
      · refine hmove.resolve_isSome hinv (h.present _ _ hp) ?_
        rw [hnone]
        simp
    · rw [hother t ht] at hbox
      exact hmove.resolve_isSome hinv (h.present _ _ hbox) (h.not_unlinked hown hmeets ht hbox)
  · intro t u box ht hu
    by_cases hte : t = e.thread
    · by_cases hue : u = e.thread
      · rw [hte, hue]
      · rw [hte, hself] at ht
        rw [hother u hue] at hu
        exact absurd hu (h.claim_new hinv hown hmeets hmove hue ht)
    · rw [hother t hte] at ht
      by_cases hue : u = e.thread
      · rw [hue, hself] at hu
        exact absurd ht (h.claim_new hinv hown hmeets hmove hte hu)
      · rw [hother u hue] at hu
        exact h.unique t u box ht hu

/-- **Meta-files mean what they should in the guarded runs.** -/
theorem reachable_marked (h : (brokerMachine T).ReachableBy PublisherMeets s) : Marked s := by
  refine h.invariant' ?_ ?_
  · intro s hs
    have hnone : ∀ t, (s.pc t).claimed = none := by
      intro t
      rw [hs.2.2 t]
      rfl
    constructor
    · intro t box hbox
      have hclaimed := BrokerPoint.claimed_of_marked hbox
      rw [hnone t] at hclaimed
      cases hclaimed
    · intro t u box ht
      rw [hnone t] at ht
      cases ht
  · intro s e s' hr hmarked hmeets hstep
    exact hmarked.step (broker_healthy hr).inv (broker_owned hr) hmeets hstep

/-- No two workers are registered for the same box. -/
def OnePublisher (s : BrokerState T) : Prop :=
  ∀ t u box, (s.pc t).registered = some box → (s.pc u).registered = some box → t = u

/-- **One publisher for each box**, in the runs that leave the meta-files
of registered publishers alone. -/
theorem reachable_onePublisher (h : (brokerMachine T).ReachableBy PublisherMeets s) :
    OnePublisher s := by
  intro t u box ht hu
  have ht := BrokerPoint.claimed_of_marked (BrokerPoint.marked_of_registered ht)
  have hu := BrokerPoint.claimed_of_marked (BrokerPoint.marked_of_registered hu)
  exact (reachable_marked h).unique t u box ht hu

end Runs

section Decidable

variable {T : Type*} [Fintype T]

instance (s : BrokerState T) (box : BoxName) : Decidable (Registered s box) :=
  inferInstanceAs (Decidable (∃ u, (s.pc u).registered = some box))

instance (s : BrokerState T) : DecidablePred (PublisherMeetsAt s)
  | .registerPublisher box (.openMeta fd) => inferInstanceAs (Decidable
      (fd ≠ -1 → Registered s box → s.shared.firstFreeHandle.isSome))
  | .registerPublisher box .rejectUnlinkMeta => inferInstanceAs (Decidable (¬ Registered s box))
  | .removeBox box .unlinkBox => inferInstanceAs (Decidable
      (∀ u, ∀ box' ∈ (s.pc u).registered, box.name ≠ box'.metaFilename))
  | .idle _ | .createBox _ _ | .removeBox _ .lockOps | .removeBox _ .unlockOps
  | .registerPublisher _ .openBox | .registerPublisher _ (.lockOps _)
  | .registerPublisher _ (.rejectCloseBox _ _) | .registerPublisher _ (.rejectCloseMeta _)
  | .registerPublisher _ .rejectUnlockOps | .registerPublisher _ (.createMeta _)
  | .registerPublisher _ (.closeMeta _ _) | .registerPublisher _ (.unlockOps _)
  | .registerPublisher _ (.closeBox _) | .registerPublisher _ .unlinkMeta => .isTrue trivial

instance (s : BrokerState T) (e : Event T BrokerPoint) : Decidable (PublisherMeets s e) :=
  inferInstanceAs (Decidable (PublisherMeetsAt s (s.pc e.thread)))

end Decidable

/-- `/a` has a publisher when a second one is about to be rejected. -/
def rejectedRun : List (Event (Fin 2) BrokerPoint) :=
  handle 0 (.createBox boxA) 4 ++ handle 0 (.registerPublisher boxA) 6 ++
    handle 1 (.registerPublisher boxA) 3

theorem rejectedRun_result :
    (brokerRunBy PublisherMeets rejectedRun).map (fun s => (s.pc 0, s.pc 1)) =
    some (.registerPublisher boxA (.closeBox 1),
      .registerPublisher boxA (.rejectCloseBox 2 3)) := by
  decide +kernel

theorem rejectedRun_onePublisher : ∃ s, brokerRunBy PublisherMeets rejectedRun = some s ∧
    s.pc 0 = .registerPublisher boxA (.closeBox 1) ∧ OnePublisher s := by
  obtain ⟨s, hrun, hpc⟩ := Option.map_eq_some_iff.mp rejectedRun_result
  exact ⟨s, hrun, congrArg Prod.fst hpc, reachable_onePublisher (brokerRunBy_reachable hrun)⟩

/-- The second publisher is rejected with the meta-file unlinked, and a
third request of the same kind finds none. -/
def doubleRun : List (Event (Fin 2) BrokerPoint) :=
  handle 0 (.createBox boxA) 4 ++ handle 0 (.registerPublisher boxA) 6 ++
    handle 1 (.registerPublisher boxA) 7 ++ handle 1 (.registerPublisher boxA) 6

theorem doubleRun_result :
    (brokerRunBy (fun _ _ => True) doubleRun).map (fun s => (s.pc 0, s.pc 1)) =
    some (.registerPublisher boxA (.closeBox 1), .registerPublisher boxA (.closeBox 2)) := by
  decide +kernel

theorem two_publishers : ∃ s, (brokerMachine (Fin 2)).Reachable s ∧ ¬ OnePublisher s := by
  obtain ⟨s, hrun, hpc⟩ := Option.map_eq_some_iff.mp doubleRun_result
  refine ⟨s, brokerRunBy_reachable hrun, ?_⟩
  intro hone
  obtain ⟨h0, h1⟩ := Prod.mk.inj hpc
  have heq := hone 0 1 boxA (by rw [h0]; rfl) (by rw [h1]; rfl)
  cases heq

end MBroker
