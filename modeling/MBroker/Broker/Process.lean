import Mathlib.Data.Fintype.Option
import MBroker.Broker.Termination
import MBroker.Protocol.RegisterPipe
import MBroker.Queue.Calls
import MBroker.Queue.Termination

/-!
# The whole broker (mbroker/mbroker.c)

The clients, the main thread, the queue and the workers as one machine.
The main thread reads a request from the register pipe and enqueues it; a
worker dequeues it, runs its handler and frees it, for ever. Each of them
takes its steps in the machine it is modelled by elsewhere (`RegisterPipe`,
`Pcq`, `Requests`), and the steps between them are here.

`sigint_called` is tested between two requests only. A worker never
returns, so the first `pthread_join` waits for good; what `main` does
after it, and before its loop, is left out, and so are the log lines.
`pcq_create` is given as many slots as there are workers.

`mbrokerMachine` has no step for a call that fails, and its workers do not
wait for the pipes of their clients. `pipedMbroker` has both: a client opens
its end of a pipe and takes a response or does not, an `open` or a `write`
fails, and `SIGINT` makes a `read` of the register pipe return -1, since
`signal` need not have it restarted. Each such failure ends the broker with a
panic. A broker that is killed, as `signal` lets a second `SIGINT` do, is in
neither: its run stops where it is.
-/

namespace MBroker

open Threads

/-! ## The model -/

/-- `queue_obj_t`: `opcode` and `protocol`. -/
abbrev QueueObj := UInt8 × List UInt8

/-- Where the handler of an object starts (`parse_request`). The handlers
that do nothing do not look at their struct, and of a code that is no
request's there is only a warning. -/
def parseRequestStart (obj : QueueObj) : Except Fault BrokerPoint :=
  match Code.ofByte obj.1 with
  | some .registerPublisher => return (Request.registerPublisher (← requestBox obj.2)).start
  | some .createBoxRequest => return (Request.createBox (← requestBox obj.2)).start
  | some .removeBoxRequest => return (Request.removeBox (← requestBox obj.2)).start
  | _ => return .idle none

/-- The main thread is about to test `sigint_called`, in the body of its
loop, in `pcq_enqueue`, or waits for the workers to return. -/
inductive MainPoint
  | check
  | listen
  | enqueue
  | join
deriving DecidableEq, Repr

/-- The points of `listen_for_requests`: before `pcq_dequeue`, in it, and
between it and `free`. -/
inductive WorkerPoint
  | loop
  | dequeue
  | handle (obj : QueueObj)
deriving DecidableEq

/-- The clients `ι` and a broker with the workers `W`. In the queue the main
thread is `none`. -/
structure Mbroker (ι W : Type) where
  pipe : RegisterPipe ι
  main : MainPoint
  sigintCalled : Bool
  queue : State (Option W) PcqMutex (PcqPoint QueueObj) (PcQueue QueueObj)
  worker : W → WorkerPoint
  handlers : BrokerState W
  /-- the messages that have been sent, in the order of the writes -/
  written : Written ι
  /-- the objects that have been freed, in this order -/
  handled : List QueueObj

/-- A step of the clients, of the main thread or of a worker; a step that
a thread takes in the queue; a step of a handler. `eof` is a `read` of the
opcode that returns 0. -/
inductive MbrokerEvent (ι W : Type)
  | send (i : ι)
  | sigint
  | main
  | eof
  | queue (e : Event (Option W) (PcqPoint QueueObj))
  | worker (w : W)
  | handler (w : W)

section Model

variable {ι W : Type} [Fintype W] [DecidableEq W]

/-- The main thread, outside `pcq_enqueue`. A `read` that returns -1 is in
`pipedMbroker`. -/
def mainStep (s : Mbroker ι W) : Option (Mbroker ι W) :=
  match s.main with
  | .check => some { s with main := if s.sigintCalled then .join else .listen }
  | .listen =>
    match s.pipe.loop with
    | .readOpcode => (loopStep s.pipe).toOption.join.map fun pipe => { s with pipe }
    | .parse _ => do
      let pipe ← (loopStep s.pipe).toOption.join
      -- the object that the loop has just made
      let obj ← pipe.queue.getLast?
      let queue ← step pcqProgram s.queue (.call none (.enqueue obj .lockSize))
      return { s with pipe, queue, main := .enqueue }
  | .enqueue =>
    match s.queue.pc none with
    | .enqueued => some { s with main := .check }
    | _ => none
  | .join => none

/-- A worker, outside `pcq_dequeue` and its handler. -/
def workerStep (s : Mbroker ι W) (w : W) : Option (Mbroker ι W) :=
  match s.worker w with
  | .loop => do
    let queue ← step pcqProgram s.queue (.call (some w) (.dequeue .lockSize))
    return { s with queue, worker := Function.update s.worker w .dequeue }
  | .dequeue =>
    match s.queue.pc (some w) with
    | .dequeued (some obj) => do
      let p ← (parseRequestStart obj).toOption
      let handlers ← step brokerProgram s.handlers (.call w p)
      return { s with handlers, worker := Function.update s.worker w (.handle obj) }
    -- `NULL` has no `opcode`
    | _ => none
  | .handle obj =>
    match s.handlers.pc w with
    | .idle _ => some { s with
        worker := Function.update s.worker w .loop
        handled := s.handled ++ [obj] }
    | _ => none

/-- The whole broker, when no call on a pipe waits or fails. -/
def mbrokerStep [DecidableEq ι] (s : Mbroker ι W) : MbrokerEvent ι W → Option (Mbroker ι W)
  | .send i => (sendStep s.pipe i).toOption.join.map fun pipe =>
      { s with pipe, written := Written.update s.pipe (.send i) pipe s.written }
  | .sigint => some { s with sigintCalled := true }
  | .main => mainStep s
  | .eof =>
    match s.main, s.pipe.loop, s.pipe.pipe with
    | .listen, .readOpcode, [] => some { s with main := .check }
    | _, _, _ => none
  | .queue (.call _ _) => none
  | .queue e => (step pcqProgram s.queue e).map fun queue => { s with queue }
  | .worker w => workerStep s w
  | .handler w => (step brokerProgram s.handlers (.run w)).map fun handlers => { s with handlers }

/-- The runs in which client `i` sends the messages `sent i`. -/
def mbrokerMachine [DecidableEq ι] (W : Type) [Fintype W] [DecidableEq W]
    (sent : ι → List Message) : Machine (Mbroker ι W) (MbrokerEvent ι W) where
  start s := s.pipe = ⟨[], sent, .readOpcode, []⟩ ∧ s.main = .check ∧ s.sigintCalled = false ∧
    s.queue = pcqStart (Option W) (Fintype.card W) ∧ (∀ w, s.worker w = .loop) ∧
    (brokerMachine W).start s.handlers ∧ s.written = [] ∧ s.handled = [] ∧
    Fintype.card W < 18446744073709551616
  step := mbrokerStep

/-- The broker whose threads have been started. -/
def mbrokerStart (W : Type) [Fintype W] (sent : ι → List Message) : Option (Mbroker ι W) :=
  (brokerStart W).map fun handlers =>
    { pipe := ⟨[], sent, .readOpcode, []⟩
      main := .check
      sigintCalled := false
      queue := pcqStart (Option W) (Fintype.card W)
      worker := fun _ => .loop
      handlers
      written := []
      handled := [] }

theorem mbrokerStart_start [DecidableEq ι] {sent : ι → List Message} {s : Mbroker ι W}
    (hcard : Fintype.card W < 18446744073709551616) (h : mbrokerStart W sent = some s) :
    (mbrokerMachine W sent).start s := by
  obtain ⟨handlers, hhandlers, rfl⟩ := Option.map_eq_some_iff.mp h
  exact ⟨rfl, rfl, rfl, rfl, fun _ => rfl, brokerStart_start hhandlers, rfl, rfl, hcard⟩

end Model

/-! ## What a step can do -/

section Cases

variable {ι W : Type} [DecidableEq ι] [Fintype W] [DecidableEq W] {s s' : Mbroker ι W}
  {e : MbrokerEvent ι W}

/-- The steps of the whole, one constructor for each kind. -/
inductive Mbroker.Move (s : Mbroker ι W) : MbrokerEvent ι W → Mbroker ι W → Prop
  | send {i : ι} {pipe : RegisterPipe ι} (hstep : sendStep s.pipe i = .ok (some pipe)) :
      Move s (.send i)
        { s with pipe, written := Written.update s.pipe (.send i) pipe s.written }
  | sigint : Move s .sigint { s with sigintCalled := true }
  | check (hmain : s.main = .check) :
      Move s .main { s with main := if s.sigintCalled then .join else .listen }
  | readOpcode {pipe : RegisterPipe ι} (hmain : s.main = .listen)
      (hloop : s.pipe.loop = .readOpcode) (hstep : loopStep s.pipe = .ok (some pipe)) :
      Move s .main { s with pipe }
  | parse {pipe : RegisterPipe ι} {obj : QueueObj} {protCode : UInt8} (hmain : s.main = .listen)
      (hloop : s.pipe.loop = .parse protCode) (hstep : loopStep s.pipe = .ok (some pipe))
      (hobj : pipe.queue.getLast? = some obj)
      (hidle : pcqProgram.act (s.queue.pc none) = .idle) :
      Move s .main { s with
        pipe
        queue := s.queue.goto none (.enqueue obj .lockSize)
        main := .enqueue }
  | enqueued (hmain : s.main = .enqueue) (hpc : s.queue.pc none = .enqueued) :
      Move s .main { s with main := .check }
  | eof (hmain : s.main = .listen) (hloop : s.pipe.loop = .readOpcode) (hpipe : s.pipe.pipe = []) :
      Move s .eof { s with main := .check }
  | queue {e : Event (Option W) (PcqPoint QueueObj)}
      {queue : State (Option W) PcqMutex (PcqPoint QueueObj) (PcQueue QueueObj)}
      (hcall : ∀ t p, e ≠ .call t p) (hstep : step pcqProgram s.queue e = some queue) :
      Move s (.queue e) { s with queue }
  | dequeue {w : W} (hworker : s.worker w = .loop)
      (hidle : pcqProgram.act (s.queue.pc (some w)) = .idle) :
      Move s (.worker w) { s with
        queue := s.queue.goto (some w) (.dequeue .lockSize)
        worker := Function.update s.worker w .dequeue }
  | take {w : W} {obj : QueueObj} {p : BrokerPoint} (hworker : s.worker w = .dequeue)
      (hpc : s.queue.pc (some w) = .dequeued (some obj)) (hstart : parseRequestStart obj = .ok p)
      (hidle : brokerProgram.act (s.handlers.pc w) = .idle) :
      Move s (.worker w) { s with
        handlers := s.handlers.goto w p
        worker := Function.update s.worker w (.handle obj) }
  | free {w : W} {obj : QueueObj} {reply : Option Reply} (hworker : s.worker w = .handle obj)
      (hpc : s.handlers.pc w = .idle reply) :
      Move s (.worker w) { s with
        worker := Function.update s.worker w .loop
        handled := s.handled ++ [obj] }
  | handler {w : W} {handlers : BrokerState W}
      (hstep : step brokerProgram s.handlers (.run w) = some handlers) :
      Move s (.handler w) { s with handlers }

theorem mainStep_cases (h : mainStep s = some s') : s.Move .main s' := by
  unfold mainStep at h
  split at h
  · rename_i hmain
    cases h
    exact .check hmain
  · rename_i hmain
    split at h
    · rename_i hloop
      obtain ⟨pipe, hstep, rfl⟩ := Option.map_eq_some_iff.mp h
      exact .readOpcode hmain hloop (toOption_join_eq_some.mp hstep)
    · rename_i protCode hloop
      obtain ⟨pipe, hstep, h⟩ := Option.bind_eq_some_iff.mp h
      obtain ⟨obj, hobj, h⟩ := Option.bind_eq_some_iff.mp h
      obtain ⟨queue, hcall, h⟩ := Option.bind_eq_some_iff.mp h
      cases h
      obtain rfl := step_call hcall
      exact .parse hmain hloop (toOption_join_eq_some.mp hstep) hobj (idle_of_call hcall).1
  · rename_i hmain
    split at h
    · rename_i hpc
      cases h
      exact .enqueued hmain hpc
    · cases h
  · cases h

theorem workerStep_cases {w : W} (h : workerStep s w = some s') : s.Move (.worker w) s' := by
  unfold workerStep at h
  split at h
  · rename_i hworker
    obtain ⟨queue, hcall, h⟩ := Option.bind_eq_some_iff.mp h
    cases h
    obtain rfl := step_call hcall
    exact .dequeue hworker (idle_of_call hcall).1
  · rename_i hworker
    split at h
    · rename_i obj hpc
      obtain ⟨p, hstart, h⟩ := Option.bind_eq_some_iff.mp h
      obtain ⟨handlers, hcall, h⟩ := Option.bind_eq_some_iff.mp h
      cases h
      obtain rfl := step_call hcall
      exact .take hworker hpc (toOption_eq_some.mp hstart) (idle_of_call hcall).1
    · cases h
  · rename_i obj hworker
    split at h
    · rename_i reply hpc
      cases h
      exact .free hworker hpc
    · cases h

theorem mbrokerStep_cases (h : mbrokerStep s e = some s') : s.Move e s' := by
  cases e with
  | send i =>
      obtain ⟨pipe, hstep, rfl⟩ := Option.map_eq_some_iff.mp h
      exact .send (toOption_join_eq_some.mp hstep)
  | sigint =>
      cases h
      exact .sigint
  | main => exact mainStep_cases h
  | eof =>
      simp only [mbrokerStep] at h
      split at h
      · rename_i hmain hloop hpipe
        cases h
        exact .eof hmain hloop hpipe
      · cases h
  | queue e =>
      cases e with
      | call => cases h
      | run | signal | wake =>
          obtain ⟨queue, hstep, rfl⟩ := Option.map_eq_some_iff.mp h
          exact .queue (by simp) hstep
  | worker w => exact workerStep_cases h
  | handler w =>
      obtain ⟨handlers, hstep, rfl⟩ := Option.map_eq_some_iff.mp h
      exact .handler hstep

/-! ## Calls that wait or fail -/

/-- The panic of a thread whose call fails: `none` is the main thread, which
waits for an opcode, and a worker depends on the pipe of its client. -/
def Mbroker.pipeFault (s : Mbroker ι W) : Option W → Option Fault
  | none =>
    match s.main, s.pipe.loop, s.pipe.pipe with
    | .listen, .readOpcode, [] => some (.panic "failed to read named pipe: %s\n")
    | _, _, _ => none
  | some w =>
    match s.worker w with
    | .handle _ => (s.handlers.pc w).pipeFault
    | .loop | .dequeue => none

/-- The calls of the broker on its pipes. -/
def mbrokerCalls : Machine.External (Mbroker ι W) (MbrokerEvent ι W) (Option W) where
  waits s
    | none => false
    | some w => (s.pipeFault (some w)).isSome
  mayFail s t := (s.pipeFault t).isSome
  caller
    | .worker w | .handler w => some (some w)
    | _ => none

/-- The whole broker and the pipes of its clients. -/
abbrev pipedMbroker (W : Type) [Fintype W] [DecidableEq W] (sent : ι → List Message) :
    Machine (Machine.Exposed (Mbroker ι W) (Option W))
      (Machine.ExposedInput (MbrokerEvent ι W) (Option W)) :=
  (mbrokerMachine W sent).expose mbrokerCalls

/-- A worker or the main thread has ended the broker: the pipe of a client did
not open or did not take a response, or `SIGINT` came in a `read` of the empty
register pipe. -/
abbrev PipeFailed (p : Machine.Exposed (Mbroker ι W) (Option W)) : Prop :=
  p.Ended mbrokerCalls

/-! ## After `SIGINT` -/

/-- The requests that the main thread reads before it tests `sigint_called`. -/
def MainPoint.toRead : MainPoint → Nat
  | .listen => 1
  | .check | .enqueue | .join => 0

/-- The queue only grows, and after `SIGINT` by no more than the main thread has
begun to read. -/
theorem Mbroker.Move.interrupted (h : s.Move e s') (hsigint : s.sigintCalled = true) :
    s'.sigintCalled = true ∧ s.pipe.queue <+: s'.pipe.queue ∧
      s'.pipe.queue.length + s'.main.toRead ≤ s.pipe.queue.length + s.main.toRead := by
  cases h with
  | send hstep =>
      obtain ⟨m, ms, -, rfl⟩ := sendStep_cases hstep
      exact ⟨hsigint, List.prefix_rfl, le_rfl⟩
  | check hmain =>
      refine ⟨hsigint, List.prefix_rfl, ?_⟩
      show _ + (if s.sigintCalled then MainPoint.join else .listen).toRead ≤ _
      rw [if_pos hsigint]
      exact Nat.add_le_add_left (Nat.zero_le _) _
  | readOpcode hmain hloop hstep =>
      obtain ⟨_, _, -, -, rfl⟩ | ⟨_, _, _, hparse, -⟩ := loopStep_cases hstep
      · exact ⟨hsigint, List.prefix_rfl, le_rfl⟩
      · rw [hloop] at hparse
        cases hparse
  | parse hmain hloop hstep =>
      obtain ⟨_, _, hread, -⟩ | ⟨_, _, _, -, -, rfl⟩ := loopStep_cases hstep
      · rw [hloop] at hread
        cases hread
      · refine ⟨hsigint, List.prefix_append .., ?_⟩
        rw [hmain]
        simp [MainPoint.toRead]
  | enqueued hmain | eof hmain =>
      refine ⟨hsigint, List.prefix_rfl, ?_⟩
      exact Nat.add_le_add_left (Nat.zero_le _) _
  | sigint => exact ⟨rfl, List.prefix_rfl, le_rfl⟩
  | queue | dequeue | take | free | handler => exact ⟨hsigint, List.prefix_rfl, le_rfl⟩

omit [DecidableEq ι] [Fintype W] [DecidableEq W] in
/-- The main thread fails in front of the empty pipe only. -/
theorem Mbroker.reading_of_pipeFault (h : (s.pipeFault none).isSome) :
    s.main = .listen ∧ s.pipe.loop = .readOpcode ∧ s.pipe.pipe = [] := by
  unfold Mbroker.pipeFault at h
  dsimp only at h
  split at h
  · rename_i hmain hloop hpipe
    exact ⟨hmain, hloop, hpipe⟩
  · cases h

/-- **After `SIGINT` at most one more request is read**, and none unless the
main thread was in the body of its loop, and what has been read stays
enqueued. The main thread ends the broker, and what it has enqueued with it,
only if a signal comes while it waits for an opcode. -/
theorem mbroker_interrupted {sent : ι → List Message}
    {p p' : Machine.Exposed (Mbroker ι W) (Option W)}
    {as : List (Machine.ExposedInput (MbrokerEvent ι W) (Option W))}
    (hp : (pipedMbroker W sent).Reachable p) (hsigint : p.inner.sigintCalled = true)
    (hrun : (pipedMbroker W sent).run p as = some p') :
    (p.inner.pipe.queue <+: p'.inner.pipe.queue ∧
      p'.inner.pipe.queue.length + p'.inner.main.toRead ≤
        p.inner.pipe.queue.length + p.inner.main.toRead) ∧
    (p'.failed = some none →
      p'.inner.main = .listen ∧ p'.inner.pipe.loop = .readOpcode ∧ p'.inner.pipe.pipe = []) := by
  constructor
  · induction as generalizing p with
    | nil =>
        cases hrun
        exact ⟨List.prefix_rfl, le_rfl⟩
    | cons a as ih =>
        obtain ⟨p₁, hstep, hrun⟩ := Option.bind_eq_some_iff.mp hrun
        have hone : p₁.inner.sigintCalled = true ∧ p.inner.pipe.queue <+: p₁.inner.pipe.queue ∧
            p₁.inner.pipe.queue.length + p₁.inner.main.toRead ≤
              p.inner.pipe.queue.length + p.inner.main.toRead := by
          cases (Machine.expose_step_cases hstep).2 with
          | inner _ hinner => exact (mbrokerStep_cases hinner).interrupted hsigint
          | caller _ _ hinner => exact (mbrokerStep_cases hinner).interrupted hsigint
          | returns | fails => exact ⟨hsigint, List.prefix_rfl, le_rfl⟩
        obtain ⟨hsigint₁, hkept, hle⟩ := hone
        obtain ⟨hrest, hle'⟩ := ih (hp.step trivial hstep) hsigint₁ hrun
        exact ⟨hkept.trans hrest, hle'.trans hle⟩
  · intro hfailed
    have hp' := hp.run (fun _ _ _ => trivial) hrun
    obtain ⟨k, hk, hmay⟩ := Machine.ended_of_failed hp' (by rw [hfailed]; simp)
    rw [hfailed] at hk
    cases hk
    exact Mbroker.reading_of_pipeFault hmay

end Cases

/-- The struct of a request that creates the box `/a`; its client's pipe is `/c`. -/
def createProto : List UInt8 :=
  47 :: 99 :: List.replicate 254 0 ++ 47 :: 97 :: List.replicate 30 0

theorem createProto_request : Code.createBoxRequest.isRequest := rfl

theorem createProto_length : createProto.length = sizeofRequestProto := by
  decide +kernel

theorem createProto_sized : protoSize Code.createBoxRequest.byte = .ok createProto.length := by
  rw [createProto_length]
  rfl

/-- One client creates one box. -/
def oneRequest (_ : Unit) : List Message :=
  [⟨.createBoxRequest, createProto_request, createProto, createProto_sized⟩]

/-- `SIGINT` comes while the main thread reads a request. -/
def interruptedStart : List (Machine.ExposedInput (MbrokerEvent Unit Unit) (Option Unit)) :=
  [.inner (.send ()), .inner .main, .inner .sigint]

/-- The request is read, and then no other. -/
def interruptedRun : List (Machine.ExposedInput (MbrokerEvent Unit Unit) (Option Unit)) :=
  [.inner .main, .inner .main] ++ List.replicate 15 (.inner (.queue (.run none))) ++
    [.inner (.queue (.signal none ∅)), .inner .main, .inner .main]

theorem interruptedRun_result :
    (((mbrokerStart Unit oneRequest).bind fun s =>
      (pipedMbroker Unit oneRequest).run ⟨s, ∅, none⟩ interruptedStart).bind fun p =>
        ((pipedMbroker Unit oneRequest).run p interruptedRun).map fun p' =>
          (p.inner.sigintCalled, p.inner.main, p'.inner.main, p'.inner.pipe.queue.length,
            p'.failed.isNone)) =
      some (true, .listen, .join, 1, true) := by
  decide +kernel

theorem interruptedRun_interrupted :
    ∃ p p' : Machine.Exposed (Mbroker Unit Unit) (Option Unit),
      p.inner.main = .listen ∧ p'.inner.main = .join ∧ p'.inner.pipe.queue.length = 1 ∧
      p'.failed = none ∧ p.inner.pipe.queue <+: p'.inner.pipe.queue ∧
      p'.inner.pipe.queue.length + p'.inner.main.toRead ≤
        p.inner.pipe.queue.length + p.inner.main.toRead := by
  obtain ⟨p, hstart, hrun⟩ := Option.bind_eq_some_iff.mp interruptedRun_result
  obtain ⟨s, hs, hstart⟩ := Option.bind_eq_some_iff.mp hstart
  obtain ⟨p', hrun, hobs⟩ := Option.map_eq_some_iff.mp hrun
  obtain ⟨hsigint, hobs⟩ := Prod.mk.inj hobs
  obtain ⟨hmain, hobs⟩ := Prod.mk.inj hobs
  obtain ⟨hjoin, hobs⟩ := Prod.mk.inj hobs
  obtain ⟨hlen, hlive⟩ := Prod.mk.inj hobs
  have hinit : (pipedMbroker Unit oneRequest).Reachable ⟨s, ∅, none⟩ :=
    .start ⟨mbrokerStart_start (by decide) hs, rfl, rfl⟩
  have hreach := hinit.run (fun _ _ _ => trivial) hstart
  exact ⟨p, p', hmain, hjoin, hlen, Option.isNone_iff_eq_none.mp hlive,
    (mbroker_interrupted hreach hsigint hrun).1⟩

end MBroker
