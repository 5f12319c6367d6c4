import Mathlib.Algebra.GroupWithZero.Nat
import MBroker.Broker.Workers
import MBroker.Fs.Consistency

/-!
# Runs of the broker

A handler that runs from start to end is a run of the broker, if no other
worker is in a critical section; the two readings of `Requests` agree.
Concrete runs are lists of steps after `tfs_init(NULL)`, with the guard
checked on the way.
-/

namespace MBroker

open Threads

section Runs

variable {T : Type*} [Fintype T] [DecidableEq T] {s : BrokerState T} {t : T}
  {e : Event T BrokerPoint} {guard : BrokerState T → Event T BrokerPoint → Prop}

/-! ## A handler from start to end -/

/-- Worker `t` can go to `q`, with the file system at `y`. -/
def GoesTo (t : T) (s : BrokerState T) (q : BrokerPoint) (y : Tfs) : Prop :=
  ∃ es s', (brokerMachine T).run s es = some s' ∧ s'.shared = y ∧
    s'.pc = Function.update s.pc t q

/-- No other worker holds `tfs_ops`. -/
def OthersOutside (t : T) (s : BrokerState T) : Prop :=
  ∀ u, u ≠ t → .tfsOps ∉ (s.pc u).held

variable {p q k : BrokerPoint} {x y : Tfs} {s₁ : BrokerState T} {call : TfsCall} {r : Int}
  {next : Int → Except Fault BrokerPoint} {bytes : List UInt8}

theorem GoesTo.step (hs : (brokerMachine T).step s e = some s₁)
    (hpc : s₁.pc = Function.update s.pc t k) (h : GoesTo t s₁ q y) : GoesTo t s q y := by
  obtain ⟨es, s', hrun, hshared, hpc'⟩ := h
  refine ⟨e :: es, s', ?_, hshared, ?_⟩
  · rw [Machine.run_cons, hs]
    exact hrun
  · rw [hpc', hpc, Function.update_idem]

omit [Fintype T] in
theorem OthersOutside.step (h : OthersOutside t s) (hpc : s₁.pc = Function.update s.pc t k) :
    OthersOutside t s₁ := by
  intro u hu
  rw [hpc, Function.update_of_ne hu]
  exact h u hu

theorem step_of_lock (hstep : brokerStep (s.pc t) = .lock k) (hfree : s.owner .tfsOps = none) :
    (brokerMachine T).step s (.run t) = some ((s.setOwner .tfsOps (some t)).goto t k) := by
  have hact : brokerProgram.act (s.pc t) = .lock .tfsOps k := congrArg BrokerStep.act hstep
  simp [brokerMachine, Program.machine, step, hact, hfree]

theorem step_of_unlock (hstep : brokerStep (s.pc t) = .unlock k) :
    (brokerMachine T).step s (.run t) = some ((s.setOwner .tfsOps none).goto t k) := by
  have hact : brokerProgram.act (s.pc t) = .unlock .tfsOps k := congrArg BrokerStep.act hstep
  simp [brokerMachine, Program.machine, step, hact]

theorem step_of_tfs (hstep : brokerStep (s.pc t) = .tfs call next)
    (hcall : tfsCall s.shared call = .ok ((r, bytes), x)) (hnext : next r = .ok k) :
    (brokerMachine T).step s (.run t) =
      some ((State.mk x s.owner s.pc).goto t k) := by
  have hact := congrArg BrokerStep.act hstep
  have hact : brokerProgram.act (s.pc t) = (BrokerStep.tfs call next).act := hact
  simp [brokerMachine, Program.machine, step, hact, BrokerStep.act, hcall, hnext, Except.toOption]

theorem held_of_brokerLock (h : brokerStep p = .lock k) : p.held = ∅ := by
  cases p with
  | idle => cases h
  | registerPublisher box p =>
      cases p <;> cases h
      rfl
  | createBox box p =>
      cases p <;> cases h
      rfl
  | removeBox box p =>
      cases p <;> cases h
      rfl

theorem OthersOutside.free (h : OthersOutside t s) (hs : (brokerMachine T).Reachable s)
    (hstep : brokerStep (s.pc t) = .lock k) : s.owner .tfsOps = none := by
  cases howner : s.owner .tfsOps with
  | none => rfl
  | some u =>
      have hmem := (broker_owned hs u .tfsOps).mp howner
      by_cases hu : u = t
      · rw [hu, held_of_brokerLock hstep] at hmem
        cases hmem
      · exact absurd hmem (h u hu)

/-- While no other worker holds `tfs_ops`, the steps of one worker are a
run of the broker. -/
theorem Alone.goesTo (h : Alone p x q y) (hs : (brokerMachine T).Reachable s)
    (hx : s.shared = x) (hp : s.pc t = p) (hothers : OthersOutside t s) : GoesTo t s q y := by
  induction h generalizing s with
  | refl p x => exact ⟨[], s, rfl, hx, by rw [← hp, Function.update_eq_self]⟩
  | lock hstep _ ih =>
      rw [← hp] at hstep
      have hrun := step_of_lock hstep (hothers.free hs hstep)
      exact .step hrun rfl (ih (hs.step trivial hrun) hx (State.goto_pc_self ..) (hothers.step rfl))
  | unlock hstep _ ih =>
      rw [← hp] at hstep
      have hrun := step_of_unlock hstep
      exact .step hrun rfl (ih (hs.step trivial hrun) hx (State.goto_pc_self ..) (hothers.step rfl))
  | tfs hstep hcall hnext _ ih =>
      rw [← hp] at hstep
      rw [← hx] at hcall
      have hrun := step_of_tfs hstep hcall hnext
      exact .step hrun rfl
        (ih (hs.step trivial hrun) rfl (State.goto_pc_self ..) (hothers.step rfl))

/-- **A handler that runs from start to end is a run of the broker.** -/
theorem parseRequest_goesTo {request : Request} {reply reply' : Option Reply}
    (h : parseRequest request s.shared = .ok (reply, y)) (hs : (brokerMachine T).Reachable s)
    (hidle : s.pc t = .idle reply') (hothers : OthersOutside t s) :
    GoesTo t s (.idle reply) y := by
  have hact : brokerProgram.act (s.pc t) = .idle := by
    rw [hidle]
    rfl
  have hentry : brokerProgram.entry request.start := by
    cases request <;> rfl
  have hcall : (brokerMachine T).step s (.call t request.start) =
      some (s.goto t request.start) := by
    simp [brokerMachine, Program.machine, step, hact, hentry]
  have halone := parseRequest_alone h
  exact .step hcall rfl
    (halone.goesTo (hs.step trivial hcall) rfl (s.goto_pc_self ..) (hothers.step rfl))

/-! ## Runs from the start -/

/-- The workers after `tfs_init(NULL)`. -/
def brokerStart (T : Type*) : Option (BrokerState T) :=
  match tfsInit none dirtyMallocs tfsUninit with
  | .ok (0, s) => some ⟨s, fun _ => none, fun _ => .idle none⟩
  | _ => none

theorem brokerStart_start (h : brokerStart T = some s) : (brokerMachine T).start s := by
  unfold brokerStart at h
  split at h
  · rename_i hinit
    cases h
    exact ⟨⟨dirtyMallocs, hinit⟩, fun _ => rfl, fun _ => rfl⟩
  · cases h

variable [∀ s e, Decidable (guard s e)] {es : List (Event T BrokerPoint)}

/-- The state after a list of steps that all meet `guard`. -/
def brokerRunBy (guard : BrokerState T → Event T BrokerPoint → Prop)
    [∀ s e, Decidable (guard s e)] (es : List (Event T BrokerPoint)) : Option (BrokerState T) :=
  (brokerStart T).bind fun s => (brokerMachine T).runBy guard s es

theorem brokerRunBy_reachable (h : brokerRunBy guard es = some s) :
    (brokerMachine T).ReachableBy guard s := by
  obtain ⟨s₀, hstart, hrun⟩ := Option.bind_eq_some_iff.mp h
  exact (Machine.ReachableBy.start (brokerStart_start hstart)).runBy hrun

/-- Worker `t` takes the first steps of a handler. -/
def handle (t : T) (request : Request) (steps : Nat) : List (Event T BrokerPoint) :=
  .call t request.start :: List.replicate steps (.run t)

end Runs

-- One proof each for the numerals of the workers in the runs of all modules.
instance neZero_one : NeZero 1 := ⟨Nat.succ_ne_zero 0⟩

instance neZero_two : NeZero 2 := ⟨Nat.succ_ne_zero 1⟩

/-- The box `/a`. -/
def boxA : BoxName := ⟨pathA, by decide⟩

def boxB : BoxName := ⟨pathB, by decide⟩

end MBroker
