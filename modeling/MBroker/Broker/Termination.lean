import MBroker.Broker.Assertions
import MBroker.Lib.External

/-!
# Every handler runs to its end

A handler has no loop, and the one mutex of the handlers is held by a
worker that is inside its own critical section. So the workers stop only
when all handlers have returned or when an assertion has failed.

The first step of a handler waits until the client has opened its end of
its pipe, and the end of `create_box` until the pipe has room for the
response. Both are up to the client: one that does neither leaves the worker
waiting, and a call on its pipe that fails ends the broker.
-/

namespace MBroker

open Threads

/-! ## What a worker has still to do -/

def RegisterPoint.steps : RegisterPoint → Nat
  | .unlinkMeta | .rejectUnlockOps => 1
  | .closeBox _ | .rejectUnlinkMeta => 2
  | .unlockOps _ | .rejectCloseMeta _ => 3
  | .closeMeta _ _ | .rejectCloseBox _ _ => 4
  | .createMeta _ => 5
  | .openMeta _ => 6
  | .lockOps _ => 7
  | .openBox => 8

def CreatePoint.steps : CreatePoint → Nat
  | .unlockOps _ => 1
  | .closeBox _ | .closeFailed _ => 2
  | .createFile => 3
  | .openBox => 4
  | .lockOps => 5

def RemovePoint.steps : RemovePoint → Nat
  | .unlockOps => 1
  | .unlinkBox => 2
  | .lockOps => 3

/-- The steps of the longest way to the end of the handler. -/
def BrokerPoint.steps : BrokerPoint → Nat
  | .idle _ => 0
  | .registerPublisher _ p => p.steps
  | .createBox _ p => p.steps
  | .removeBox _ p => p.steps

theorem BrokerPoint.steps_le (p : BrokerPoint) : p.steps ≤ 8 := by
  cases p with
  | idle => exact Nat.zero_le 8
  | registerPublisher box p => cases p <;> simp [BrokerPoint.steps, RegisterPoint.steps]
  | createBox box p => cases p <;> simp [BrokerPoint.steps, CreatePoint.steps]
  | removeBox box p => cases p <;> simp [BrokerPoint.steps, RemovePoint.steps]

theorem BrokerPoint.isRunning_iff {p : BrokerPoint} :
    (brokerProgram.act p).isRunning ↔ ∀ reply, p ≠ .idle reply := by
  cases p with
  | idle reply => exact iff_of_false Bool.false_ne_true fun h => h reply rfl
  | registerPublisher box p =>
      refine iff_of_true ?_ fun reply h => by cases h
      cases p <;> rfl
  | createBox box p =>
      refine iff_of_true ?_ fun reply h => by cases h
      cases p <;> rfl
  | removeBox box p =>
      refine iff_of_true ?_ fun reply h => by cases h
      cases p <;> rfl

/-- A move inside a handler is a step towards its end. -/
theorem Move.steps_lt {p k : BrokerPoint} {x x' : Tfs} (hmove : Move p x k x')
    (hrunning : ∀ reply, p ≠ .idle reply) : k.steps < p.steps := by
  cases hmove with
  | quiet hmove =>
      cases hmove with
      | @enter reply => exact absurd rfl (hrunning reply)
      | _ => simp [BrokerPoint.steps, RegisterPoint.steps, CreatePoint.steps, RemovePoint.steps]
  | tfs hmove =>
      cases hmove <;>
        simp [BrokerPoint.steps, RegisterPoint.steps, CreatePoint.steps, RemovePoint.steps]

theorem brokerProgram_potential {T : Type*} [Fintype T] :
    Potential brokerProgram (fun _ _ => True) (fun _ : T => BrokerPoint.steps) (fun _ => 0) 0 where
  move := by
    intro t p x k x' h _ hrunning _
    have hlt := (move_of_localStep h).steps_lt (BrokerPoint.isRunning_iff.mp hrunning)
    omega
  signal := fun _ _ c => c.elim
  woken := fun _ _ c => c.elim

/-! ## No worker waits for ever -/

theorem brokerProgram_lockOrder :
    LockOrder brokerProgram BrokerPoint.held fun _ => 0 where
  not_held := by
    intro p m k h
    cases hstep : brokerStep p with
    | lock next =>
        rw [held_of_brokerLock hstep]
        exact Finset.notMem_empty m
    | _ =>
        have hact : (brokerStep p).act = .lock m k := h
        rw [hstep] at hact
        cases hact
  rank_lt := by
    intro p m k q m' k' _ hq hmem _
    cases hstep : brokerStep q with
    | lock next =>
        rw [held_of_brokerLock hstep] at hmem
        cases hmem
    | _ =>
        have hact : (brokerStep q).act = .lock m' k' := hq
        rw [hstep] at hact
        cases hact

theorem BrokerPoint.isRunning_of_held {p : BrokerPoint} {m : BrokerMutex} (h : m ∈ p.held) :
    (brokerProgram.act p).isRunning := by
  apply BrokerPoint.isRunning_iff.mpr
  rintro reply rfl
  cases h

section Runs

variable {T : Type*} [Fintype T] [DecidableEq T] {s s' : BrokerState T} {t : T}

omit [Fintype T] [DecidableEq T] in
/-- An access that fails is a fault of the handler. -/
theorem nextFault_of_faultsAt (h : s.FaultsAt brokerProgram t) : nextFault s t ≠ none := by
  obtain ⟨f, hact, hnone⟩ := h
  have hact : (brokerStep (s.pc t)).act = .access f := hact
  unfold nextFault
  cases hstep : brokerStep (s.pc t) with
  | tfs call next =>
      rw [hstep] at hact
      cases hact
      dsimp only
      cases hcall : tfsCall s.shared call with
      | error e => exact Option.some_ne_none e
      | ok res =>
          obtain ⟨⟨r, bytes⟩, x⟩ := res
          dsimp only
          cases hnext : next r with
          | error e => exact Option.some_ne_none e
          | ok k =>
              simp only [hcall, ok_bind, hnext] at hnone
              cases hnone
  | _ =>
      rw [hstep] at hact
      cases hact

/-- What a request adds to the work of the workers. -/
def brokerCost (T : Type*) : Event T BrokerPoint → Nat
  | .call _ p => p.steps + 1
  | .run _ | .signal _ _ | .wake _ => 0

/-- The steps that the handlers have left. -/
def brokerWork (s : BrokerState T) : Nat :=
  s.potential (fun _ => BrokerPoint.steps) fun _ => 0

theorem brokerMachine_paid : (brokerMachine T).Paid (brokerCost T) brokerWork := by
  intro s e s' _ hstep
  change Threads.step brokerProgram s e = some s' at hstep
  cases e with
  | run t => exact brokerProgram_potential.own_lt (fun _ => trivial) hstep rfl
  | signal t woken => exact brokerProgram_potential.own_lt (fun _ => trivial) hstep rfl
  | wake t =>
      -- nobody sleeps
      simp only [Threads.step] at hstep
      split at hstep
      · rename_i c _ _
        exact c.elim
      · cases hstep
  | call t p =>
      have hpay := potential_call (fun _ : T => BrokerPoint.steps) (fun _ => 0) hstep
      show brokerWork s' < brokerWork s + (p.steps + 1)
      unfold brokerWork
      omega

/-- In a settled state of the workers every handler has returned, or the
next step of one of them is a failed assertion. -/
theorem idle_of_settled (h : (brokerMachine T).Reachable s)
    (hsettled : (brokerMachine T).Settled (fun e => e.isOwn) s)
    (hsafe : ∀ t, nextFault s t = none) (t : T) : ∃ reply, s.pc t = .idle reply := by
  have hnone := brokerProgram_lockOrder.settled (broker_owned h)
    (fun _ _ => BrokerPoint.isRunning_of_held) hsettled
    (fun u hu => nextFault_of_faultsAt hu (hsafe u)) t
  by_contra hno
  push Not at hno
  rw [BrokerPoint.isRunning_iff.mpr hno] at hnone
  cases hnone

/-- A step brings its own worker closer to the end, and no other one. -/
theorem steps_of_step {e : Event T BrokerPoint} (h : (brokerMachine T).step s e = some s') :
    (s'.pc e.thread).steps < (s.pc e.thread).steps + brokerCost T e ∧
      ∀ t, t ≠ e.thread → s'.pc t = s.pc t := by
  obtain ⟨k, x', hmove, -, hpc⟩ := move_of_step h
  refine ⟨?_, fun t ht => by rw [hpc, Function.update_of_ne ht]⟩
  change Threads.step brokerProgram s e = some s' at h
  cases e with
  | call t p =>
      rw [step_call h]
      show ((s.goto t p).pc t).steps < (s.pc t).steps + (p.steps + 1)
      rw [State.goto_pc_self]
      omega
  | run t =>
      have hrunning : ∀ reply, s.pc t ≠ .idle reply := by
        intro reply hidle
        have hact : brokerProgram.act (s.pc t) = .idle := by
          rw [hidle]
          rfl
        simp [Threads.step, hact] at h
      rw [hpc]
      show (Function.update s.pc t k t).steps < (s.pc t).steps + 0
      rw [Function.update_self, add_zero]
      exact hmove.steps_lt hrunning
  | signal t woken | wake t =>
      -- nobody signals and nobody sleeps
      simp only [Threads.step] at h
      split at h
      · rename_i c _ _
        exact c.elim
      · cases h

/-- The steps of worker `t` are paid for by its own calls. -/
theorem brokerRun_steps_le {es : List (Event T BrokerPoint)}
    (hrun : (brokerMachine T).run s es = some s') (t : T) :
    (es.filter fun e => e.thread = t).length + (s'.pc t).steps ≤
      (s.pc t).steps + ((es.filter fun e => e.thread = t).map (brokerCost T)).sum := by
  induction es generalizing s with
  | nil =>
      cases hrun
      exact (Nat.zero_add _).le
  | cons e es ih =>
      obtain ⟨s₁, hstep, hrun⟩ := Option.bind_eq_some_iff.mp hrun
      obtain ⟨hlt, hother⟩ := steps_of_step hstep
      have hrest := ih hrun
      by_cases ht : e.thread = t
      · subst ht
        rw [List.filter_cons_of_pos (by simp), List.length_cons, List.map_cons, List.sum_cons]
        omega
      · rw [List.filter_cons_of_neg (by simpa using ht), ← hother t (Ne.symm ht)]
        exact hrest

/-- **Every run of the workers is finite**: it takes no more steps than the
handlers that are called have, and each worker no more than its own, whatever
the others do. -/
theorem brokerRun_length_le (h : (brokerMachine T).start s) {es : List (Event T BrokerPoint)}
    (hrun : (brokerMachine T).run s es = some s') :
    es.length ≤ (es.map (brokerCost T)).sum ∧
      ∀ t, (es.filter fun e => e.thread = t).length ≤
        ((es.filter fun e => e.thread = t).map (brokerCost T)).sum := by
  have hidle : ∀ t, (s.pc t).steps = 0 := by
    intro t
    rw [h.2.2 t]
    rfl
  constructor
  · have hle := brokerMachine_paid.run_length_le (.start h) hrun
    have hzero : brokerWork s = 0 := by
      unfold brokerWork State.potential
      rw [Finset.sum_eq_zero fun t _ => hidle t]
      rfl
    omega
  · intro t
    have hle := brokerRun_steps_le hrun t
    rw [hidle t] at hle
    omega

/-- All handlers have returned and `tfs_ops` is free, or an assertion is about
to fail. -/
def Returned (s : BrokerState T) : Prop :=
  (∃ t, nextFault s t ≠ none) ∨ (∀ t, ∃ reply, s.pc t = .idle reply) ∧ s.owner .tfsOps = none

theorem returned_of_settled (h : (brokerMachine T).Reachable s)
    (hsettled : (brokerMachine T).Settled (fun e => e.isOwn) s) : Returned s := by
  by_cases hsafe : ∀ t, nextFault s t = none
  · have hidle := idle_of_settled h hsettled hsafe
    refine .inr ⟨hidle, ?_⟩
    cases howner : s.owner .tfsOps with
    | none => rfl
    | some t =>
        have hmem := (broker_owned h t .tfsOps).mp howner
        obtain ⟨reply, hpc⟩ := hidle t
        rw [hpc] at hmem
        cases hmem
  · push Not at hsafe
    exact .inl hsafe

/-- The workers' calls on the pipes of their clients. -/
def brokerCalls : Machine.External (BrokerState T) (Event T BrokerPoint) T where
  waits s t := (s.pc t).pipeFault.isSome
  mayFail s t := (s.pc t).pipeFault.isSome
  caller
    | .run t | .call t _ => some t
    | .signal _ _ | .wake _ => none

/-- The workers and the clients' pipes. -/
abbrev pipedBroker (T : Type*) [Fintype T] [DecidableEq T] :
    Machine (Machine.Exposed (BrokerState T) T) (Machine.ExposedInput (Event T BrokerPoint) T) :=
  (brokerMachine T).expose brokerCalls

/-- **Every handler returns**, whatever the other workers do, if the clients open
their pipes and take what is written: unless an assertion fails, one of a call on a
pipe included. -/
theorem pipedBroker_completes {p : Machine.Exposed (BrokerState T) T}
    (h : (pipedBroker T).Reachable p) :
    (pipedBroker T).Completes (Machine.ownExposed fun e => e.isOwn)
      (fun p => p.Ended brokerCalls ∨ Returned p.inner) p := by
  refine brokerMachine_paid.completes_expose ?_ (fun _ => returned_of_settled) h
  intro e he
  cases e with
  | run | signal => rfl
  | call | wake => cases he

end Runs

/-- The box `/a` is created, and the handler returns. -/
def createRun : List (Event Unit BrokerPoint) := handle () (.createBox boxA) 4

theorem createRun_result :
    ((brokerStart Unit).bind fun s => (brokerMachine Unit).run s createRun).map
      (fun s => s.pc ()) = some (.idle (some (boxReply ""))) := by
  decide +kernel

theorem createRun_length_le : ∃ s₀ s, brokerStart Unit = some s₀ ∧
    (brokerMachine Unit).run s₀ createRun = some s ∧
      createRun.length ≤ (createRun.map (brokerCost Unit)).sum ∧
      ∀ t, (createRun.filter fun e => e.thread = t).length ≤
        ((createRun.filter fun e => e.thread = t).map (brokerCost Unit)).sum := by
  obtain ⟨s, hrun, -⟩ := Option.map_eq_some_iff.mp createRun_result
  obtain ⟨s₀, hstart, hrun⟩ := Option.bind_eq_some_iff.mp hrun
  exact ⟨s₀, s, hstart, hrun, brokerRun_length_le (brokerStart_start hstart) hrun⟩

/-- The client opens its pipe when the handler has been called, and takes the
response. -/
def pipedRun : List (Machine.ExposedInput (Event Unit BrokerPoint) Unit) :=
  (createRun.take 1).map .inner ++ [.returns ()] ++ (createRun.drop 1).map .inner ++ [.returns ()]

theorem pipedRun_result :
    ((brokerStart Unit).bind fun s => (pipedBroker Unit).run ⟨s, ∅, none⟩ pipedRun).map
      (fun p => (p.inner.pc (), p.failed)) = some (.idle (some (boxReply "")), none) := by
  decide +kernel

theorem pipedRun_completes : ∃ p, (pipedBroker Unit).Reachable p ∧
    p.inner.pc () = .idle (some (boxReply "")) ∧ p.failed = none ∧
      (pipedBroker Unit).Completes (Machine.ownExposed fun e => e.isOwn)
        (fun p => p.Ended brokerCalls ∨ Returned p.inner) p := by
  obtain ⟨p, hrun, hobs⟩ := Option.map_eq_some_iff.mp pipedRun_result
  obtain ⟨s₀, hstart, hrun⟩ := Option.bind_eq_some_iff.mp hrun
  obtain ⟨hpc, hlive⟩ := Prod.mk.inj hobs
  have hstart : (pipedBroker Unit).Reachable ⟨s₀, ∅, none⟩ :=
    .start ⟨brokerStart_start hstart, rfl, rfl⟩
  have hreach := hstart.run (fun _ _ _ => trivial) hrun
  exact ⟨p, hreach, hpc, hlive, pipedBroker_completes hreach⟩

end MBroker
