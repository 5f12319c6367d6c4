import MBroker.Broker.Assertions

/-!
# A publisher's handle and its box

`register_publisher` opens the box before it takes `tfs_ops` and does not
look at the name again; `remove_box` unlinks the name whoever has the box
open, its publishers being left for later. The handle goes on referring to
the inode, which the next `create_box` may give to another box.

In the runs that unlink no box which a publisher has open, every handle
refers to its box, from the open to the close.
-/

namespace MBroker

open Threads Tfs

/-! ## Handles of a box -/

/-- `fd` is the handle of an open file entry for the file that `path` names. -/
def Denotes (x : Tfs) (fd : Int) (path : CString) : Prop :=
  ∃ h i : Nat, fd = h ∧ x.Open h ∧ (x.file h).ofInumber = i ∧ x.resolve path = some i

/-- The box that the worker has opened and may yet publish in, or does. -/
def BrokerPoint.publishes : BrokerPoint → Option BoxName
  | .registerPublisher box (.lockOps fd) | .registerPublisher box (.openMeta fd) =>
      if fd = -1 then none else some box
  | .registerPublisher box (.createMeta _) | .registerPublisher box (.closeMeta _ _)
  | .registerPublisher box (.unlockOps _) | .registerPublisher box (.closeBox _) => some box
  | _ => none

/-- The handle of the box that the worker has opened denotes it. -/
def BrokerPoint.Keeps (x : Tfs) : BrokerPoint → Prop
  | .registerPublisher box (.lockOps fd) | .registerPublisher box (.openMeta fd) =>
      fd ≠ -1 → Denotes x fd box.name
  | .registerPublisher box (.createMeta fd) | .registerPublisher box (.closeMeta fd _)
  | .registerPublisher box (.unlockOps fd) | .registerPublisher box (.closeBox fd) =>
      Denotes x fd box.name
  | _ => True

section Moves

variable {p q k : BrokerPoint} {x x' : Tfs} {fd : Int} {path : CString} {box : BoxName} {h : Nat}

/-- The entry of a handle changes only when it is opened. -/
theorem Move.file (hmove : Move p x k x') (hinv : Inv x) (hopen : x.Open h) :
    x'.file h = x.file h := by
  cases hmove with
  | quiet => rfl
  | tfs hmove hcall =>
      rename_i call _ _
      cases call with
      | «open» m mode => exact (hinv.tfsOpen_ok (tfsCall_open.mp hcall).1).file_of_open hopen
      | close fhandle =>
          rcases hinv.tfsClose_cases (tfsCall_close.mp hcall).1 with ⟨_, _, _, _, rfl⟩ | ⟨_, _, rfl⟩
          · rfl
          · rfl
      | unlink m =>
          rcases hinv.tfsUnlink_cases (tfsCall_unlink.mp hcall).1 with
            ⟨-, -, rfl⟩ | ⟨_, _, _, _, _, _, _, _, rfl⟩
          · rfl
          · rfl
      | write | read => exact hmove.noData.elim

/-- A handle that stays open denotes its box until the box is unlinked. -/
theorem Denotes.move (hd : Denotes x fd path) (hmove : Move p x k x') (hinv : Inv x)
    (hopen : ∀ h : Nat, fd = h → x'.Open h) (hkeep : p.unlinks ≠ some path) :
    Denotes x' fd path := by
  obtain ⟨h, i, hfd, ho, hf, hi⟩ := hd
  refine ⟨h, i, hfd, hopen h hfd, ?_, hmove.resolve_mono hinv hi hkeep⟩
  rw [hmove.file hinv ho]
  exact hf

/-- Nothing is named by a path that has been unlinked. -/
theorem Move.unlinked (hmove : Move p x k x') (hinv : Inv x) (hp : p.unlinks = some path) :
    x'.resolve path = none := by
  have hgone : ∀ {r : Int} {bytes : List UInt8} {m : CString},
      tfsCall x (.unlink m) = .ok ((r, bytes), x') → some m = some path →
      x'.resolve path = none := by
    intro r bytes m hcall hm
    rw [hinv.resolve_unlink (tfsCall_unlink.mp hcall).1, Option.some.inj hm, if_pos rfl]
  cases hmove with
  | quiet hmove => cases hmove <;> cases hp
  | tfs hmove hcall =>
      cases hmove with
      | rejectUnlinkMeta | unlinkMeta | unlinkBox => exact hgone hcall hp
      | _ => cases hp

/-- A publisher is registered by releasing `tfs_ops`. -/
theorem Move.registers
    (hmove : Move p x (.registerPublisher box (.closeBox fd)) x') :
    p = .registerPublisher box (.unlockOps fd) ∧ x' = x := by
  cases hmove with
  | quiet hmove =>
      cases hmove with
      | enter hentry => cases hentry
      | registered => exact ⟨rfl, rfl⟩
  | tfs hmove => cases hmove

theorem Move.unlockOps (hmove : Move (.registerPublisher box (.unlockOps fd)) x k x') :
    k = .registerPublisher box (.closeBox fd) ∧ x' = x := by
  cases hmove with
  | quiet hmove =>
      cases hmove
      exact ⟨rfl, rfl⟩
  | tfs hmove => cases hmove

/-- A worker opens its box, or goes on with the handle that it has. -/
theorem BrokerPoint.Keeps.self (hp : p.Keeps x) (hmove : Move p x k x') (hinv : Inv x)
    (hopen : ∀ h : Nat, (h : Int) ∈ k.handles → x'.Open h) : k.Keeps x' := by
  cases hmove with
  | quiet hmove =>
      cases hmove with
      | enter hentry =>
          rcases brokerEntry_cases hentry with ⟨box, rfl⟩ | ⟨box, rfl⟩ | ⟨box, rfl⟩ | rfl <;>
            trivial
      | register | registered => exact hp
      | _ => trivial
  | tfs hmove hcall =>
      -- between the open and the close no call of the worker itself unlinks anything
      have hgo : ∀ {fd : Int} {box : BoxName}, Denotes x fd box.name → p.unlinks = none →
          fd ∈ k.handles → Denotes x' fd box.name := by
        intro fd box hd hnone hmem
        refine hd.move (.tfs hmove hcall) hinv ?_ ?_
        · intro h hfd
          exact hopen h (hfd ▸ hmem)
        · rw [hnone]
          simp
      cases hmove with
      | openBox =>
          intro hfd
          have ho := hinv.tfsOpen_ok (tfsCall_open.mp hcall).1
          rcases ho.handles with ⟨hneg, -⟩ | ⟨h, hr, -, hopened⟩
          · exact absurd hneg hfd
          · obtain ⟨i, hi, hf, -⟩ := ho.new_file hinv hr
            exact ⟨h, i, hr, (hopened h).mpr (.inl rfl), hf, hi⟩
      | accept hfd => exact hgo (hp hfd) rfl (List.mem_singleton_self _)
      | createMeta => exact hgo hp rfl (List.mem_cons_self ..)
      | closeMeta => exact hgo hp rfl (List.mem_singleton_self _)
      | _ => trivial

/-- A worker whose box is not unlinked keeps it, whatever another one does. -/
theorem BrokerPoint.Keeps.other (hq : q.Keeps x) (hmove : Move p x k x') (hinv : Inv x)
    (hopen : ∀ h : Nat, (h : Int) ∈ q.handles → x'.Open h)
    (hkeep : ∀ box ∈ q.publishes, p.unlinks ≠ some box.name) : q.Keeps x' := by
  have hgo : ∀ {fd : Int} {box : BoxName}, Denotes x fd box.name → q.publishes = some box →
      fd ∈ q.handles → Denotes x' fd box.name := by
    intro fd box hd hbox hmem
    refine hd.move hmove hinv ?_ (hkeep box hbox)
    intro h hfd
    exact hopen h (hfd ▸ hmem)
  cases q with
  | registerPublisher box q =>
      cases q with
      | lockOps fd | openMeta fd =>
          intro hfd
          exact hgo (hq hfd) (if_neg hfd) (List.mem_singleton_self _)
      | createMeta | unlockOps | closeBox => exact hgo hq rfl (List.mem_singleton_self _)
      | closeMeta => exact hgo hq rfl (List.mem_cons_self ..)
      | _ => trivial
  | _ => trivial

end Moves

/-! ## Runs -/

section Runs

variable {T : Type*} {s s' : BrokerState T} {e : Event T BrokerPoint}

/-- The handle of every publisher that is registered denotes its box. -/
def HandlesDenote (s : BrokerState T) : Prop :=
  ∀ t box fd, s.pc t = .registerPublisher box (.closeBox fd) → Denotes s.shared fd box.name

/-- The condition on the step that the worker takes next: no box is unlinked
that a publisher has open. -/
def UnlinkMeets (s : BrokerState T) (e : Event T BrokerPoint) : Prop :=
  ∀ u, ∀ box ∈ (s.pc u).publishes, (s.pc e.thread).unlinks ≠ some box.name

/-- What the step has to meet if no more than registered publishers count:
none is registered for a name that the directory does not map to the inode
in its entry any more, and the box of none is unlinked. -/
def HandleMeets (s : BrokerState T) (e : Event T BrokerPoint) : Prop :=
  (∀ box fd, s.pc e.thread = .registerPublisher box (.unlockOps fd) →
    ∃ h i : Nat, fd = h ∧ s.shared.resolve box.name = some i ∧
      (s.shared.file h).ofInumber = i) ∧
  ∀ u box fd, s.pc u = .registerPublisher box (.closeBox fd) →
    (s.pc e.thread).unlinks ≠ some box.name

variable [Fintype T] [DecidableEq T]

theorem broker_keeps (h : (brokerMachine T).ReachableBy UnlinkMeets s) (t : T) :
    (s.pc t).Keeps s.shared := by
  induction h generalizing t with
  | start hstart =>
      rw [hstart.2.2 t]
      trivial
  | @step s s' e hr hmeets hstep ih =>
      have hinv := (broker_healthy hr).inv
      have hopen : ∀ h : Nat, (h : Int) ∈ (s'.pc t).handles → s'.shared.Open h :=
        fun _ => (broker_healthy (hr.step hmeets hstep)).open_of_mem
      obtain ⟨k, x', hmove, hshared, hpc⟩ := move_of_step hstep
      rw [← hshared] at hmove
      by_cases ht : t = e.thread
      · rw [ht, hpc, Function.update_self] at hopen ⊢
        exact (ih e.thread).self hmove hinv hopen
      · rw [hpc, Function.update_of_ne ht] at hopen ⊢
        exact (ih t).other hmove hinv hopen (hmeets t)

theorem handlesDenote_step_iff (hr : (brokerMachine T).Reachable s) (hd : HandlesDenote s)
    (hstep : (brokerMachine T).step s e = some s') : HandlesDenote s' ↔ HandleMeets s e := by
  have hinv := (broker_healthy hr).inv
  have hopen : ∀ {t : T} {h : Nat}, (h : Int) ∈ (s'.pc t).handles → s'.shared.Open h :=
    (broker_healthy (hr.step trivial hstep)).open_of_mem
  obtain ⟨k, x', hmove, hshared, hpc⟩ := move_of_step hstep
  rw [← hshared] at hmove
  constructor
  · intro hd'
    constructor
    · intro box fd hp
      rw [hp] at hmove
      obtain ⟨hk, hsame⟩ := hmove.unlockOps
      have hself : s'.pc e.thread = .registerPublisher box (.closeBox fd) := by
        rw [hpc, Function.update_self, hk]
      obtain ⟨h, i, hfd, -, hfile, hi⟩ := hd' e.thread box fd hself
      rw [hsame] at hfile hi
      exact ⟨h, i, hfd, hi, hfile⟩
    · intro u box fd hu hunlinks
      have hne : u ≠ e.thread := by
        rintro rfl
        rw [hu] at hunlinks
        cases hunlinks
      have hu' : s'.pc u = .registerPublisher box (.closeBox fd) := by
        rw [hpc, Function.update_of_ne hne]
        exact hu
      -- the publisher is still registered, for a name that is gone
      obtain ⟨h, i, -, -, -, hi⟩ := hd' u box fd hu'
      rw [hmove.unlinked hinv hunlinks] at hi
      cases hi
  · rintro ⟨hregister, hkeep⟩ t box fd ht
    by_cases hself : t = e.thread
    · rw [hself, hpc, Function.update_self] at ht
      rw [ht] at hmove
      obtain ⟨hp, hsame⟩ := hmove.registers
      obtain ⟨h, i, hfd, hi, hfile⟩ := hregister box fd hp
      have hmem : (h : Int) ∈ (s.pc e.thread).handles := by
        rw [hp, ← hfd]
        exact List.mem_singleton_self _
      rw [hsame]
      exact ⟨h, i, hfd, (broker_healthy hr).open_of_mem hmem, hfile, hi⟩
    · have hmem : fd ∈ (s'.pc t).handles := by
        rw [ht]
        exact List.mem_singleton_self _
      rw [hpc, Function.update_of_ne hself] at ht
      refine (hd t box fd ht).move hmove hinv ?_ (hkeep t box fd ht)
      intro h hfd
      exact hopen (hfd ▸ hmem)

/-- **A publisher's handle denotes its box** in the runs that unlink no box
which a publisher has open. A step from a state where it does leads to one
where it does exactly when `HandleMeets` holds before it. -/
theorem reachable_handlesDenote :
    (∀ s, (brokerMachine T).ReachableBy UnlinkMeets s → HandlesDenote s) ∧
    ∀ s s' e, (brokerMachine T).Reachable s → HandlesDenote s →
      (brokerMachine T).step s e = some s' → (HandlesDenote s' ↔ HandleMeets s e) := by
  constructor
  · intro s h t box fd ht
    have hkeeps := broker_keeps h t
    rw [ht] at hkeeps
    exact hkeeps
  · intro s s' e
    exact handlesDenote_step_iff

end Runs

instance {T : Type*} [Fintype T] (s : BrokerState T) (e : Event T BrokerPoint) :
    Decidable (UnlinkMeets s e) :=
  inferInstanceAs (Decidable
    (∀ u, ∀ box ∈ (s.pc u).publishes, (s.pc e.thread).unlinks ≠ some box.name))

/-- A publisher of `/a` is about to be registered. -/
def registeringRun : List (Event (Fin 2) BrokerPoint) :=
  handle 0 (.createBox boxA) 4 ++ handle 0 (.registerPublisher boxA) 5

theorem registeringRun_result :
    (brokerRunBy UnlinkMeets registeringRun).map (fun s =>
      (s.pc 0, decide (UnlinkMeets s (.run 0)),
        ((brokerMachine (Fin 2)).step s (.run 0)).map fun s' => s'.pc 0)) =
    some (.registerPublisher boxA (.unlockOps 1), true,
      some (.registerPublisher boxA (.closeBox 1))) := by
  decide +kernel

theorem registeringRun_handlesDenote :
    ∃ s s', brokerRunBy UnlinkMeets registeringRun = some s ∧
      (brokerMachine (Fin 2)).step s (.run 0) = some s' ∧
      s'.pc 0 = .registerPublisher boxA (.closeBox 1) ∧ HandlesDenote s' ∧
      HandleMeets s (.run 0) := by
  obtain ⟨s, hrun, hobs⟩ := Option.map_eq_some_iff.mp registeringRun_result
  obtain ⟨-, hobs⟩ := Prod.mk.inj hobs
  obtain ⟨hmeets, hobs⟩ := Prod.mk.inj hobs
  obtain ⟨s', hstep, hpc⟩ := Option.map_eq_some_iff.mp hobs
  obtain ⟨hguarded, hexact⟩ := reachable_handlesDenote (T := Fin 2)
  have hr := brokerRunBy_reachable hrun
  have hd := hguarded s hr
  have hd' := hguarded s' (hr.step (of_decide_eq_true hmeets) hstep)
  exact ⟨s, s', hrun, hstep, hpc, hd', (hexact s s' _ hr.reachable hd hstep).mp hd'⟩

/-- `/a` is removed while it has a publisher, and `/b` created. -/
def reusedRun : List (Event (Fin 2) BrokerPoint) :=
  handle 0 (.createBox boxA) 4 ++ handle 0 (.registerPublisher boxA) 6 ++
    handle 1 (.removeBox boxA) 3 ++ handle 1 (.createBox boxB) 4

theorem reusedRun_result :
    (brokerRunBy (fun _ _ => True) reusedRun).map (fun s =>
      (s.pc 0, s.shared.resolve boxA.name, s.shared.resolve boxB.name,
        decide (s.shared.Open 1), (s.shared.file 1).ofInumber)) =
    some (.registerPublisher boxA (.closeBox 1), none, some 1, true, 1) := by
  decide +kernel

/-- The publisher of `/a` has the file of `/b` open. -/
theorem reusedRun_not_handlesDenote :
    ∃ s, (brokerMachine (Fin 2)).Reachable s ∧
      s.pc 0 = .registerPublisher boxA (.closeBox 1) ∧ s.shared.resolve boxA.name = none ∧
      Denotes s.shared 1 boxB.name ∧ ¬ HandlesDenote s := by
  obtain ⟨s, hrun, hobs⟩ := Option.map_eq_some_iff.mp reusedRun_result
  obtain ⟨hpc, hobs⟩ := Prod.mk.inj hobs
  obtain ⟨hA, hobs⟩ := Prod.mk.inj hobs
  obtain ⟨hB, hobs⟩ := Prod.mk.inj hobs
  obtain ⟨hopen, hfile⟩ := Prod.mk.inj hobs
  have hdenotes : Denotes s.shared 1 boxB.name := ⟨1, 1, rfl, of_decide_eq_true hopen, hfile, hB⟩
  refine ⟨s, brokerRunBy_reachable hrun, hpc, hA, hdenotes, ?_⟩
  intro hd
  obtain ⟨h, i, -, -, -, hi⟩ := hd 0 boxA 1 hpc
  rw [hA] at hi
  cases hi

end MBroker
