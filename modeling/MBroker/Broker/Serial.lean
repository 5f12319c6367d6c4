import MBroker.Broker.Termination
import MBroker.Lib.Atomic

/-!
# The handlers one after the other

`create_box` and `remove_box` hold `tfs_ops` from their first TFS call to
their last, so workers that run nothing else behave as one worker that
handles a request from start to end before it takes the next. The requests
are ordered by their unlocks. `register_publisher` makes TFS calls without
the lock and is not among them.
-/

namespace MBroker

open Threads

/-! ## The sequential broker -/

/-- A request with the reply that its client is sent, handled in one step. -/
def serialBroker : Machine Tfs (Request × Option Reply) where
  start s := ∃ m, tfsInit none m tfsUninit = .ok (0, s)
  step s c :=
    match parseRequest c.1 s with
    | .ok (reply, s') => if reply = c.2 then some s' else none
    | .error _ => none

theorem serialBroker_step {s s' : Tfs} {request : Request} {reply : Option Reply} :
    serialBroker.step s (request, reply) = some s' ↔ parseRequest request s = .ok (reply, s') := by
  simp only [serialBroker]
  cases parseRequest request s with
  | error e => simp
  | ok res =>
      obtain ⟨reply', t⟩ := res
      by_cases hreply : reply' = reply
      · simp [hreply]
      · simp [hreply]

/-! ## Sections of the handlers -/

/-- A handler serves its request where it releases `tfs_ops`. -/
def brokerView : View BrokerPoint Request (Option Reply) where
  request
    | .createBox box _ => some (.createBox box)
    | .removeBox box _ => some (.removeBox box)
    | _ => none
  answer
    | .idle (some reply) => some (some reply)
    | _ => none
  serves
    | .createBox box (.unlockOps reply) => some (.createBox box, some reply)
    | .removeBox box .unlockOps => some (.removeBox box, none)
    | _ => none

def NoPublisher : BrokerPoint → Prop
  | .registerPublisher _ _ => False
  | _ => True

/-- The section that found `x` has come to `p` and made `y`. -/
def InSection (x : Tfs) (p : BrokerPoint) (y : Tfs) : Prop :=
  match p with
  | .createBox _ .openBox | .removeBox _ .unlinkBox => y = x
  | .createBox box (.closeBox fd) => fd ≠ -1 ∧ tfsOpen box.name 0 x = .ok (fd, y)
  | .createBox box .createFile => tfsOpen box.name 0 x = .ok (-1, y)
  | .createBox box (.closeFailed fd) => fd = -1 ∧ ∃ z, tfsOpen box.name 0 x = .ok (-1, z) ∧
      tfsOpen box.name (tfsOCreat ||| tfsOTrunc) z = .ok (-1, y)
  | .createBox box (.unlockOps reply) => createBox box x = .ok (reply, y)
  | .removeBox box .unlockOps => removeBox box x = .ok y
  | _ => False

theorem InSection.tfs {x y z : Tfs} {p k : BrokerPoint} {call : TfsCall} {r : Int}
    {bytes : List UInt8} (h : InSection x p y) (hmove : TfsMove p call r k)
    (hcall : tfsCall y call = .ok ((r, bytes), z)) : InSection x k z := by
  cases hmove with
  | boxExists hfd =>
      obtain rfl := h
      exact ⟨hfd, (tfsCall_open.mp hcall).1⟩
  | boxAbsent =>
      obtain rfl := h
      exact (tfsCall_open.mp hcall).1
  | closeExisting =>
      obtain ⟨hfd, hopen⟩ := h
      show createBox _ x = _
      simp only [createBox, hopen, ok_bind, if_pos hfd, (tfsCall_close.mp hcall).1]
      rfl
  | createFile hfd =>
      have hopen : tfsOpen _ 0 x = .ok (-1, y) := h
      show createBox _ x = _
      simp only [createBox, hopen, ok_bind, (tfsCall_open.mp hcall).1, if_neg hfd]
      rfl
  | createFailed => exact ⟨rfl, y, h, (tfsCall_open.mp hcall).1⟩
  | closeFailed =>
      obtain ⟨rfl, w, hopen, hcreate⟩ := h
      show createBox _ x = _
      simp only [createBox, hopen, ok_bind, hcreate, (tfsCall_close.mp hcall).1]
      rfl
  | unlinkBox =>
      obtain rfl := h
      show removeBox _ y = _
      simp only [removeBox, (tfsCall_unlink.mp hcall).1, ok_bind]
      rfl
  | _ => exact h.elim

theorem InSection.serves {x y : Tfs} {p : BrokerPoint} {c : Request × Option Reply}
    (h : InSection x p y) (hc : brokerView.serves p = some c) : serialBroker.step x c = some y := by
  cases p with
  | idle | registerPublisher => cases hc
  | createBox box p =>
      cases p <;> cases hc
      have hcreate : createBox box x = .ok (_, y) := h
      apply serialBroker_step.mpr
      rw [parseRequest, hcreate]
      rfl
  | removeBox box p =>
      cases p <;> cases hc
      have hremove : removeBox box x = .ok y := h
      apply serialBroker_step.mpr
      rw [parseRequest, hremove]
      rfl

theorem brokerView_releases {p : BrokerPoint} (h : NoPublisher p) :
    (brokerView.serves p).isSome ↔ (brokerProgram.act p).releases = some .tfsOps := by
  cases p with
  | registerPublisher => exact h.elim
  | idle => simp [brokerView, brokerProgram, brokerStep, BrokerStep.act, Act.releases]
  | createBox box p =>
      cases p <;>
        simp [brokerView, brokerProgram, brokerStep, createBoxStep, BrokerStep.act, Act.releases]
  | removeBox box p =>
      cases p <;>
        simp [brokerView, brokerProgram, brokerStep, removeBoxStep, BrokerStep.act, Act.releases]

/-- A move of a handler other than its last. -/
theorem Move.waits {x x' : Tfs} {p k : BrokerPoint} (hmove : Move p x k x')
    (hidle : ∀ reply, p ≠ .idle reply) (hallowed : NoPublisher p)
    (hserves : brokerView.serves p = none) :
    brokerView.request k = brokerView.request p ∧ brokerView.answer k = none := by
  cases hmove with
  | quiet hmove =>
      cases hmove with
      | @enter reply => exact absurd rfl (hidle reply)
      | create | remove => exact ⟨rfl, rfl⟩
      | register | rejected | registered => exact hallowed.elim
      | created | removed => cases hserves
  | tfs hmove =>
      cases hmove with
      | boxExists | boxAbsent | closeExisting | createFile | createFailed | closeFailed
      | unlinkBox => exact ⟨rfl, rfl⟩
      | _ => exact hallowed.elim

theorem Move.noPublisher {x x' : Tfs} {p k : BrokerPoint} (hmove : Move p x k x')
    (hidle : ∀ reply, p ≠ .idle reply) (hallowed : NoPublisher p) : NoPublisher k := by
  cases hmove with
  | quiet hmove =>
      cases hmove with
      | @enter reply => exact absurd rfl (hidle reply)
      | register | rejected | registered => exact hallowed.elim
      | create | remove | created | removed => trivial
  | tfs hmove => cases hmove <;> trivial

/-- The last move of a handler. -/
theorem Move.answers {x x' : Tfs} {p k : BrokerPoint} {c : Request × Option Reply}
    (hmove : Move p x k x') (hserves : brokerView.serves p = some c) :
    brokerView.request p = some c.1 ∧ brokerView.request k = none ∧
      ∀ r, brokerView.answer k = some r → r = c.2 := by
  cases p with
  | idle | registerPublisher => cases hserves
  | createBox box p =>
      cases p <;> cases hserves
      cases hmove with
      | quiet hmove =>
          cases hmove
          refine ⟨rfl, rfl, ?_⟩
          intro r hr
          exact (Option.some.inj hr).symm
      | tfs hmove => cases hmove
  | removeBox box p =>
      cases p <;> cases hserves
      cases hmove with
      | quiet hmove =>
          cases hmove
          exact ⟨rfl, rfl, fun r hr => by cases hr⟩
      | tfs hmove => cases hmove

theorem idle_of_act {p : BrokerPoint} (h : brokerProgram.act p = .idle) :
    ∃ reply, p = .idle reply := by
  by_contra hno
  push Not at hno
  have hrunning := BrokerPoint.isRunning_iff.mpr hno
  rw [h] at hrunning
  cases hrunning

theorem brokerProgram_atomic :
    Atomic brokerProgram BrokerPoint.held serialBroker .tfsOps brokerView NoPublisher
      InSection where
  init := ⟨trivial, rfl, rfl⟩
  access := by
    intro p f hallowed hact
    cases p with
    | idle => cases hact
    | registerPublisher => exact hallowed.elim
    | createBox box p => cases p <;> cases hact <;> exact Finset.mem_singleton_self _
    | removeBox box p =>
        cases p <;> cases hact
        exact Finset.mem_singleton_self _
  enter := by
    intro p k x hallowed hact
    cases p with
    | idle => cases hact
    | registerPublisher => exact hallowed.elim
    | createBox box p =>
        cases p <;> cases hact
        rfl
    | removeBox box p =>
        cases p <;> cases hact
        rfl
  move := by
    intro p x y k z h hlocal hserves
    cases move_of_localStep hlocal with
    | quiet hmove =>
        cases hmove with
        | created | removed => cases hserves
        | _ => exact h.elim
    | tfs hmove hcall => exact h.tfs hmove hcall
  serve := fun _ _ _ _ h hc => h.serves hc
  releases := fun _ h => brokerView_releases h
  call := by
    intro p hact
    obtain ⟨reply, rfl⟩ := idle_of_act hact
    rfl
  called := by
    intro k hentry _
    rcases brokerEntry_cases hentry with ⟨box, rfl⟩ | ⟨box, rfl⟩ | ⟨box, rfl⟩ | rfl <;> rfl
  stays := by
    intro p x k y hallowed hlocal hbusy
    apply (move_of_localStep hlocal).noPublisher _ hallowed
    rintro reply rfl
    exact hbusy rfl
  waits := by
    intro p x k y hallowed hlocal hbusy hserves
    apply (move_of_localStep hlocal).waits _ hallowed hserves
    rintro reply rfl
    exact hbusy rfl
  answers := fun _ _ _ _ _ _ hlocal hserves => (move_of_localStep hlocal).answers hserves

/-! ## Runs -/

/-- The calls of the workers, and the order in which they are served. -/
abbrev loggedMachine (T : Type*) [Fintype T] [DecidableEq T] :=
  brokerProgram.logged T brokerView fun s => ∃ m, tfsInit none m tfsUninit = .ok (0, s)

/-- What a run without publishers has done: the same as the sequential broker
with the requests in the order in which they are served. Each worker's
requests are served once, in its order, and it has the reply that the
sequential broker gives. -/
abbrev Serialized {T : Type*} [DecidableEq T] :
    Tfs → BrokerState T → Log T Request (Option Reply) → Prop :=
  Linearized serialBroker .tfsOps brokerView InSection

/-- **`create_box` and `remove_box` are linearizable**, for any number of
workers and in every interleaving; what has been served stays served, in
this order. -/
theorem broker_linearizable {T : Type*} [Fintype T] [DecidableEq T]
    {q : BrokerState T × Log T Request (Option Reply)}
    (h : (loggedMachine T).ReachableBy (CallsAllowed NoPublisher) q) :
    (∃ x₀, serialBroker.start x₀ ∧ Serialized x₀ q.1 q.2) ∧
      ∀ es q', (loggedMachine T).run q es = some q' → q.2.served <+: q'.2.served := by
  obtain ⟨-, hlin⟩ := brokerProgram_atomic.linearized brokerProgram_lockDiscipline h
  exact ⟨hlin, fun es q' hrun => Program.served_grows hrun⟩

/-- One worker is to remove `/a` before another is to create it, but the second
is the first to take `tfs_ops`. -/
def overlapRun : List (Event Bool BrokerPoint) :=
  [.call true (.removeBox boxA .lockOps), .call false (.createBox boxA .lockOps), .run false,
    .run false, .run false, .run false, .run true, .run true, .run true]

theorem overlapRun_result :
    ((brokerStart Bool).bind fun s => (loggedMachine Bool).run (s, ⟨[], []⟩) overlapRun).map
      (fun q => (q.2.called.map Prod.fst, q.2.served.map fun c => (c.1, c.2.2))) =
      some ([true, false], [(false, some (boxReply "")), (true, none)]) := by
  decide +kernel

theorem loggedRun_reachable {T : Type*} [Fintype T] [DecidableEq T] {s₀ : BrokerState T}
    {es : List (Event T BrokerPoint)} {q : BrokerState T × Log T Request (Option Reply)}
    (hes : ∀ t p, .call t p ∈ es → NoPublisher p) (hstart : brokerStart T = some s₀)
    (hrun : (loggedMachine T).run (s₀, ⟨[], []⟩) es = some q) :
    (loggedMachine T).ReachableBy (CallsAllowed NoPublisher) q := by
  have hs₀ : (loggedMachine T).start (s₀, ⟨[], []⟩) := ⟨brokerStart_start hstart, rfl⟩
  refine (Machine.ReachableBy.start hs₀).run ?_ hrun
  intro e he q t p hcall
  subst hcall
  exact hes t p he

theorem overlapRun_reachable : ∃ q : BrokerState Bool × Log Bool Request (Option Reply),
    (loggedMachine Bool).ReachableBy (CallsAllowed NoPublisher) q ∧
    q.2.called.map Prod.fst = [true, false] ∧
    (q.2.served.map fun c => (c.1, c.2.2)) = [(false, some (boxReply "")), (true, none)] := by
  obtain ⟨q, hrun, hobs⟩ := Option.map_eq_some_iff.mp overlapRun_result
  obtain ⟨s₀, hstart, hrun⟩ := Option.bind_eq_some_iff.mp hrun
  obtain ⟨hcalled, hserved⟩ := Prod.mk.inj hobs
  refine ⟨q, loggedRun_reachable ?_ hstart hrun, hcalled, hserved⟩
  intro t p hmem
  simp only [overlapRun, List.mem_cons, Event.call.injEq, reduceCtorEq, List.not_mem_nil,
    or_false] at hmem
  rcases hmem with ⟨-, rfl⟩ | ⟨-, rfl⟩ <;> trivial

theorem overlapRun_linearizable : ∃ q : BrokerState Bool × Log Bool Request (Option Reply),
    q.2.called.map Prod.fst = [true, false] ∧
    (q.2.served.map fun c => (c.1, c.2.2)) = [(false, some (boxReply "")), (true, none)] ∧
    (∃ x₀, serialBroker.start x₀ ∧ Serialized x₀ q.1 q.2) ∧
      ∀ es q', (loggedMachine Bool).run q es = some q' → q.2.served <+: q'.2.served := by
  obtain ⟨q, hreach, hcalled, hserved⟩ := overlapRun_reachable
  exact ⟨q, hcalled, hserved, broker_linearizable hreach⟩

end MBroker
