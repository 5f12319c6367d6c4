import MBroker.Broker.Delivery

/-!
# Every request is handled

A run of the whole broker ends if the clients' messages are finite in
number and the environment interferes finitely often, by waking a sleeper,
by `read` returning 0 or by `SIGINT`. Each byte in the pipe pays for what
the broker may do with its message. When nothing is left to do, all
requests have been handled, unless the broker has died of one of them or a
call on a pipe has failed. That a client opens the pipe for which a worker
waits is part of what is to be done.
-/

namespace MBroker

open Threads

/-! ## The price of a request -/

section Work

variable {ι W : Type} [Fintype ι] [Fintype W] {sent : ι → List Message} {s s' : Mbroker ι W}
  {e : MbrokerEvent ι W}

/-- What a signal may wake. -/
def signalPrice (W : Type) [Fintype W] : Nat := 19 * Fintype.card (Option W)

/-- A request in the queue: the popper's signal, and its handler. -/
def elemPrice (W : Type) [Fintype W] : Nat := signalPrice W + 30

/-- A request that is read: the enqueuer's call as well. -/
def parsePrice (W : Type) [Fintype W] : Nat := signalPrice W + elemPrice W + 20

/-- A request that is sent, one price for each byte. -/
def messagePrice (W : Type) [Fintype W] (m : Message) : Nat :=
  (parsePrice W + 1) * (m.proto.length + 1) + 1

def MainPoint.work : MainPoint → Nat
  | .join => 0
  | .listen => 1
  | .check => 2
  | .enqueue => 3

def LoopPoint.work (W : Type) [Fintype W] : LoopPoint → Nat
  | .readOpcode => 0
  | .parse _ => parsePrice W

/-- The steps of a worker outside the queue. -/
def WorkerPoint.work (k : BrokerPoint) : WorkerPoint → Nat
  | .loop => 20
  | .dequeue => 0
  | .handle _ => k.steps + 21

/-- What a worker in the queue has still to do after it. -/
def WorkerPoint.use : WorkerPoint → Nat
  | .dequeue => 30
  | .loop | .handle _ => 0

/-- What thread `t` does with the element that it takes. -/
def Mbroker.use (s : Mbroker ι W) : Option W → Nat
  | none => 0
  | some w => (s.worker w).use

/-- The work of a thread in the queue. -/
def Mbroker.threadWork (s : Mbroker ι W) (t : Option W) : Nat :=
  (s.queue.pc t).weight (signalPrice W) (elemPrice W) (s.use t)

def Mbroker.workerWork (s : Mbroker ι W) (w : W) : Nat :=
  (s.worker w).work (s.handlers.pc w)

def Mbroker.queueWork (s : Mbroker ι W) : Nat :=
  s.queue.potential (fun t => PcqPoint.weight (signalPrice W) (elemPrice W) (s.use t))
    fun q => elemPrice W * q.pcqCurrentSize

/-- What the bytes in the pipe and the messages not yet sent are worth. -/
def RegisterPipe.work (W : Type) [Fintype W] (p : RegisterPipe ι) : Nat :=
  (parsePrice W + 1) * p.pipe.length + p.loop.work W +
    ∑ i, ((p.pending i).map (messagePrice W)).sum

def mbrokerWork (s : Mbroker ι W) : Nat :=
  s.pipe.work W + s.main.work + s.queueWork + ∑ w, s.workerWork w

/-- What the environment adds. -/
def mbrokerCost : MbrokerEvent ι W → Nat
  | .queue (.wake _) => 20
  | .eof => 2
  | .sigint => 1
  | _ => 0

/-- A step of the whole broker by itself. -/
def MbrokerEvent.isOwn (e : MbrokerEvent ι W) : Prop := mbrokerCost e = 0

omit [Fintype ι] in
theorem queueWork_eq (s : Mbroker ι W) : s.queueWork =
    ∑ t, s.threadWork t + elemPrice W * s.queue.shared.pcqCurrentSize := rfl

/-- A step of worker `w` alone. -/
theorem mbrokerWork_worker [DecidableEq W] {w : W} (hpipe : s'.pipe = s.pipe)
    (hmain : s'.main = s.main) (hshared : s'.queue.shared = s.queue.shared)
    (hqueue : ∀ t, t ≠ some w → s'.queue.pc t = s.queue.pc t)
    (hworker : ∀ u, u ≠ w → s'.worker u = s.worker u)
    (hhandlers : ∀ u, u ≠ w → s'.handlers.pc u = s.handlers.pc u)
    (h : s'.threadWork (some w) + s'.workerWork w < s.threadWork (some w) + s.workerWork w) :
    mbrokerWork s' < mbrokerWork s := by
  have hthread : ∀ t, t ≠ some w → s'.threadWork t = s.threadWork t := by
    intro t ht
    unfold Mbroker.threadWork
    rw [hqueue t ht]
    cases t with
    | none => rfl
    | some u =>
        show PcqPoint.weight _ _ (s'.worker u).use _ = PcqPoint.weight _ _ (s.worker u).use _
        rw [hworker u fun hu => ht (congrArg some hu)]
  have hwork : ∀ u, u ≠ w → s'.workerWork u = s.workerWork u := by
    intro u hu
    unfold Mbroker.workerWork
    rw [hworker u hu, hhandlers u hu]
  have hthreads := sum_add_of_eq_elsewhere hthread
  have hworkers := sum_add_of_eq_elsewhere hwork
  unfold mbrokerWork
  rw [queueWork_eq, queueWork_eq, hpipe, hmain, hshared]
  omega

omit [Fintype ι] in
/-- The queue's own steps are paid for. -/
theorem queue_potential (s : Mbroker ι W) :
    Potential (pcqProgram (α := QueueObj)) PcqPoint.asrt
      (fun t => PcqPoint.weight (signalPrice W) (elemPrice W) (s.use t))
      (fun q => elemPrice W * q.pcqCurrentSize) 19 := by
  apply pcqProgram_potential
  · exact (Nat.mul_comm _ _).le
  · intro t
    apply Nat.add_le_add_left
    cases t with
    | none => exact Nat.zero_le 30
    | some w =>
        show (s.worker w).use ≤ 30
        cases s.worker w <;> simp [WorkerPoint.use]

/-- A step of the main thread, of its own accord or in the queue. -/
theorem mbrokerWork_main {c : Nat} (hworker : s'.worker = s.worker)
    (hhandlers : s'.handlers = s.handlers)
    (h : s'.pipe.work W + s'.main.work + s'.queueWork <
      s.pipe.work W + s.main.work + s.queueWork + c) : mbrokerWork s' < mbrokerWork s + c := by
  have hworkers : ∑ w, s'.workerWork w = ∑ w, s.workerWork w := by
    unfold Mbroker.workerWork
    rw [hworker, hhandlers]
  unfold mbrokerWork
  omega

theorem MainAt.weight {m : MainPoint} {l : LoopPoint} {p : PcqPoint QueueObj} (h : MainAt m l p)
    (hm : m ≠ .enqueue) (price elemPrice : Nat) : p.weight price elemPrice 0 = 0 := by
  rcases h.idle hm with rfl | rfl <;> rfl

omit [Fintype ι] in
/-- The main thread calls `pcq_enqueue`. -/
theorem queueWork_enqueue [DecidableEq W] {obj : QueueObj} (hworker : s'.worker = s.worker)
    (hqueue : s'.queue = s.queue.goto none (.enqueue obj .lockSize))
    (hidle : pcqProgram.act (s.queue.pc none) = .idle)
    (hzero : (s.queue.pc none).weight (signalPrice W) (elemPrice W) 0 = 0) :
    s'.queueWork = s.queueWork + (17 + (elemPrice W + signalPrice W)) := by
  have hcall := potential_call
    (fun t => PcqPoint.weight (signalPrice W) (elemPrice W) (s.use t))
    (fun q => elemPrice W * q.pcqCurrentSize)
    (step_call_of_idle hidle (p := .enqueue obj .lockSize) rfl)
  rw [show s.use none = 0 from rfl, hzero] at hcall
  have huse : s'.use = s.use := by
    funext t
    cases t with
    | none => rfl
    | some w => exact congrArg WorkerPoint.use (congrFun hworker w)
  unfold Mbroker.queueWork
  rw [huse, hqueue]
  exact hcall

/-- A client sends its next message. -/
theorem pipeWork_send [DecidableEq ι] {p : RegisterPipe ι} {i : ι} {m : Message} {ms : List Message}
    (hi : p.pending i = m :: ms) :
    ({ p with
      pipe := p.pipe ++ m.code.byte :: m.proto
      pending := Function.update p.pending i ms } : RegisterPipe ι).work W + 1 = p.work W := by
  have hsum := sum_add_of_eq_elsewhere (t := i)
    (f := fun j => ((Function.update p.pending i ms j).map (messagePrice W)).sum)
    (g := fun j => ((p.pending j).map (messagePrice W)).sum)
    (fun j hj => by rw [Function.update_of_ne hj])
  rw [Function.update_self, hi, List.map_cons, List.sum_cons] at hsum
  unfold RegisterPipe.work
  dsimp only
  rw [List.length_append, List.length_cons, Nat.mul_add]
  unfold messagePrice at hsum ⊢
  omega

/-- The main thread reads an opcode. -/
theorem pipeWork_readOpcode {p : RegisterPipe ι} {protCode : UInt8} {pipe : List UInt8}
    (hloop : p.loop = .readOpcode) (hpipe : p.pipe = protCode :: pipe) :
    ({ p with pipe, loop := .parse protCode } : RegisterPipe ι).work W + 1 = p.work W := by
  unfold RegisterPipe.work
  rw [hloop, hpipe, List.length_cons, Nat.mul_add]
  simp only [LoopPoint.work]
  omega

/-- It reads the struct. -/
theorem pipeWork_parse {p : RegisterPipe ι} {protCode : UInt8} {protocol pipe : List UInt8}
    (hloop : p.loop = .parse protCode)
    (hparse : parseProtocol p.pipe protCode = .ok (protocol, pipe)) :
    ({ p with
      pipe
      loop := .readOpcode
      queue := p.queue ++ [(protCode, protocol)] } : RegisterPipe ι).work W + parsePrice W ≤
        p.work W := by
  have hle := Nat.mul_le_mul_left (parsePrice W + 1) (parseProtocol_length hparse)
  unfold RegisterPipe.work
  rw [hloop]
  simp only [LoopPoint.work]
  omega

variable [DecidableEq ι] [DecidableEq W]

theorem mbrokerMachine_paid : (mbrokerMachine W sent).Paid mbrokerCost mbrokerWork := by
  intro s e s' hs hstep
  have hconsistent := reachable_consistent hs
  cases mbrokerStep_cases hstep with
  | @send i pipe hsend =>
      obtain ⟨m, ms, hi, heq⟩ := sendStep_cases hsend
      have hwork := pipeWork_send (W := W) hi
      rw [← heq] at hwork
      refine mbrokerWork_main rfl rfl ?_
      show pipe.work W + s.main.work + s.queueWork < _
      omega
  | sigint => exact Nat.lt_succ_self _
  | check hmain =>
      refine mbrokerWork_main rfl rfl ?_
      apply Nat.add_lt_add_right
      apply Nat.add_lt_add_left
      rw [hmain]
      dsimp only
      split <;> decide
  | @readOpcode pipe hmain hloop hread =>
      obtain ⟨protCode, rest, -, hpipe, heq⟩ | ⟨_, _, _, hparse, -⟩ := loopStep_cases hread
      · have hwork := pipeWork_readOpcode (W := W) hloop hpipe
        rw [← heq] at hwork
        refine mbrokerWork_main rfl rfl ?_
        show pipe.work W + s.main.work + s.queueWork < _
        omega
      · rw [hloop] at hparse
        cases hparse
  | @parse pipe obj _ hmain hloop hread hobj hidle =>
      obtain ⟨_, _, hopcode, -⟩ | ⟨protCode, protocol, rest, hloop, hparse, heq⟩ :=
        loopStep_cases hread
      · rw [hloop] at hopcode
        cases hopcode
      · have hwork := pipeWork_parse (W := W) hloop hparse
        rw [← heq] at hwork
        have hzero := hconsistent.main_at.weight (by rw [hmain]; simp) (signalPrice W) (elemPrice W)
        unfold parsePrice at hwork
        have hqueue : Mbroker.queueWork { s with
            pipe
            queue := s.queue.goto none (.enqueue obj .lockSize)
            main := .enqueue } = _ := queueWork_enqueue (s := s) rfl rfl hidle hzero
        refine mbrokerWork_main rfl rfl ?_
        rw [hqueue, hmain, show MainPoint.listen.work = 1 from rfl]
        show pipe.work W + 3 + _ < _
        omega
  | enqueued hmain hpc =>
      refine mbrokerWork_main rfl rfl ?_
      show s.pipe.work W + 2 + s.queueWork < _
      rw [hmain, show MainPoint.enqueue.work = 3 from rfl]
      omega
  | eof hmain hloop hpipe =>
      refine mbrokerWork_main rfl rfl ?_
      show s.pipe.work W + 2 + s.queueWork < _ + 2
      rw [hmain, show MainPoint.listen.work = 1 from rfl]
      omega
  | @queue e queue hcall hqueue =>
      have hasrt := (reachable_guarded (reachable_queue hs)).at_point
      have hpotential := queue_potential s
      refine mbrokerWork_main rfl rfl ?_
      cases e with
      | call t p => exact absurd rfl (hcall t p)
      | run | signal =>
          have hlt : _ < s.queueWork := hpotential.own_lt hasrt hqueue rfl
          exact Nat.add_lt_add_left hlt _
      | wake =>
          have hle : _ ≤ s.queueWork + 19 := hpotential.wake_le hqueue
          exact Nat.add_lt_add_left (Nat.lt_succ_of_le hle) _
  | @dequeue w hworker hidle =>
      refine mbrokerWork_worker (w := w) rfl rfl rfl ?_ ?_ (fun _ _ => rfl) ?_
      · exact fun t ht => State.goto_pc_of_ne _ _ ht
      · exact fun u hu => Function.update_of_ne hu ..
      · simp [Mbroker.threadWork, Mbroker.workerWork, hworker, PcqPoint.weight, WorkerPoint.work,
          DequeuePoint.steps, DequeuePoint.counted]
  | @take w obj p hworker hpc hstart hidle =>
      have hsteps := p.steps_le
      refine mbrokerWork_worker (w := w) rfl rfl rfl (fun _ _ => rfl) ?_ ?_ ?_
      · exact fun u hu => Function.update_of_ne hu ..
      · exact fun u hu => State.goto_pc_of_ne _ _ hu
      · simp [Mbroker.threadWork, Mbroker.workerWork, Mbroker.use, hworker, hpc, PcqPoint.weight,
          WorkerPoint.work, WorkerPoint.use]
        omega
  | @free w obj reply hworker hpc =>
      have hw := hconsistent.worker_at w
      rw [hworker] at hw
      refine mbrokerWork_worker (w := w) rfl rfl rfl (fun _ _ => rfl) ?_ (fun _ _ => rfl) ?_
      · exact fun u hu => Function.update_of_ne hu ..
      · simp [Mbroker.threadWork, Mbroker.workerWork, Mbroker.use, hworker, hpc, hw.handle_cases,
          PcqPoint.weight, WorkerPoint.work, WorkerPoint.use, BrokerPoint.steps]
  | @handler w handlers hhandlers =>
      have hbroker : (brokerMachine W).step s.handlers (.run w) = some handlers := hhandlers
      obtain ⟨k, _, hmove, -, hpc⟩ := move_of_step hbroker
      have hrunning := isRunning_of_step hhandlers rfl
      obtain ⟨obj, hobj⟩ := (hconsistent.worker_at w).of_running hrunning
      have hlt := hmove.steps_lt (BrokerPoint.isRunning_iff.mp hrunning)
      refine mbrokerWork_worker (w := w) rfl rfl rfl (fun _ _ => rfl) (fun _ _ => rfl) ?_ ?_
      · intro u hu
        dsimp only
        rw [hpc]
        exact Function.update_of_ne hu ..
      · have hnew : handlers.pc w = k := by
          rw [hpc]
          exact Function.update_self ..
        unfold Mbroker.workerWork
        rw [hobj, hnew]
        exact Nat.add_lt_add_left (Nat.add_lt_add_right hlt 21) _

/-- **Every run of the broker is finite**: it takes no more steps than the
bytes of the messages pay for, a start of each worker, and what the
environment adds. -/
theorem mbrokerRun_length_le (h : (mbrokerMachine W sent).start s) {es : List (MbrokerEvent ι W)}
    (hrun : (mbrokerMachine W sent).run s es = some s') :
    es.length ≤ 2 + 20 * Fintype.card W + ∑ i, ((sent i).map (messagePrice W)).sum +
      (es.map mbrokerCost).sum := by
  have hle := mbrokerMachine_paid.run_length_le (.start h) hrun
  obtain ⟨hpipe, hmain, -, hqueue, hworker, -⟩ := h
  have hthread : ∀ t, s.threadWork t = 0 := by
    intro t
    unfold Mbroker.threadWork
    rw [hqueue]
    rfl
  have hwork : ∀ w, s.workerWork w = 20 := by
    intro w
    unfold Mbroker.workerWork
    rw [hworker w]
    rfl
  have hzero : s.queueWork = 0 := by
    rw [queueWork_eq, Finset.sum_eq_zero fun t _ => hthread t, hqueue]
    rfl
  have hstart : mbrokerWork s =
      ∑ i, ((sent i).map (messagePrice W)).sum + 2 + Fintype.card W * 20 := by
    unfold mbrokerWork
    rw [hzero, hpipe, hmain, Finset.sum_const_nat fun w _ => hwork w, Finset.card_univ]
    simp [RegisterPipe.work, LoopPoint.work, MainPoint.work]
  omega

end Work

/-! ## What is left when nothing can step -/

section Served

variable {ι W : Type} [DecidableEq ι] [Fintype W] [DecidableEq W] {sent : ι → List Message}
  {s s' : Mbroker ι W}

/-- Worker `w` is about to end the broker: the box name of its request has
no end, or an assertion of its handler fails. -/
def Mbroker.FaultsAt (s : Mbroker ι W) (w : W) : Prop :=
  (∃ obj fault, s.worker w = .dequeue ∧ s.queue.pc (some w) = .dequeued (some obj) ∧
    parseRequestStart obj = .error fault) ∨ nextFault s.handlers w ≠ none

/-- The workers wait for requests and the clients have sent all of theirs.
The main thread has read everything, unless it was interrupted, and each
request that it has read has been handled once. -/
structure Mbroker.Served (sent : ι → List Message) (s : Mbroker ι W) : Prop where
  waiting : ∀ w, s.worker w = .dequeue ∧ s.queue.pc (some w) = .dequeue .asleep
  sent_all : ∀ i, sentBy i s.written = sent i
  handled : s.handled.Perm s.pipe.queue
  complete : s.main ≠ .join →
    s.main = .listen ∧ s.pipe.pipe = [] ∧ s.handled.Perm (objects s.written)

theorem queue_settled (h : (mbrokerMachine W sent).Settled MbrokerEvent.isOwn s) :
    (pcqMachine (Option W) QueueObj).Settled (fun e => e.isOwn) s.queue := by
  intro e he
  cases e with
  | call | wake => cases he
  | run t => exact Option.map_eq_none_iff.mp (h (.queue (.run t)) rfl)
  | signal t woken => exact Option.map_eq_none_iff.mp (h (.queue (.signal t woken)) rfl)

theorem handlers_settled (h : (mbrokerMachine W sent).Settled MbrokerEvent.isOwn s) :
    (brokerMachine W).Settled (fun e => e.isOwn) s.handlers := by
  intro e he
  cases e with
  | call | wake => cases he
  | run w => exact Option.map_eq_none_iff.mp (h (.handler w) rfl)
  | signal w woken =>
      show step brokerProgram s.handlers (.signal w woken) = none
      simp only [step]
      split
      · rename_i c _ _
        exact c.elim
      · rfl

theorem sent_of_settled (h : (mbrokerMachine W sent).Settled MbrokerEvent.isOwn s) (i : ι) :
    s.pipe.pending i = [] := by
  cases hi : s.pipe.pending i with
  | nil => rfl
  | cons m ms =>
      have hnone : mbrokerStep s (.send i) = none := h (.send i) rfl
      rw [mbrokerStep, sendStep_cons hi] at hnone
      cases hnone

omit [DecidableEq ι] in
/-- A worker can always call `pcq_dequeue`. -/
theorem workerStep_loop {w : W} (h : s.Consistent) (hworker : s.worker w = .loop) :
    workerStep s w ≠ none := by
  have hw := h.worker_at w
  rw [hworker] at hw
  have hcall := step_call_of_idle hw.queue_idle (p := .dequeue .lockSize) rfl
  simp [workerStep, hworker, hcall]

omit [DecidableEq ι] in
/-- It can always start the handler of what it has dequeued. -/
theorem workerStep_dequeued {w : W} {obj : QueueObj} {p : BrokerPoint} {reply : Option Reply}
    (hworker : s.worker w = .dequeue) (hpc : s.queue.pc (some w) = .dequeued (some obj))
    (hstart : parseRequestStart obj = .ok p) (hidle : s.handlers.pc w = .idle reply) :
    workerStep s w ≠ none := by
  have hact : brokerProgram.act (s.handlers.pc w) = .idle := by
    rw [hidle]
    rfl
  have hcall := step_call_of_idle hact (entry_of_parseRequestStart hstart)
  simp [workerStep, hworker, hpc, hstart, Except.toOption, hcall]

omit [DecidableEq ι] in
/-- It can always free what it has handled. -/
theorem workerStep_handle {w : W} {obj : QueueObj} {reply : Option Reply}
    (hworker : s.worker w = .handle obj) (hidle : s.handlers.pc w = .idle reply) :
    workerStep s w ≠ none := by
  simp [workerStep, hworker, hidle]

/-- A worker that cannot step waits for a request. -/
theorem asleep_of_settled (h : (mbrokerMachine W sent).Reachable s)
    (hsettled : (mbrokerMachine W sent).Settled MbrokerEvent.isOwn s)
    (hshort : s.written.length < 18446744073709551616) (hsafe : ∀ w, ¬ s.FaultsAt w) (w : W) :
    s.worker w = .dequeue ∧ s.queue.pc (some w) = .dequeue .asleep := by
  have hnone : workerStep s w = none := hsettled (.worker w) rfl
  have hconsistent := reachable_consistent h
  have hw := hconsistent.worker_at w
  obtain ⟨reply, hidle⟩ := idle_of_settled (reachable_handlers h) (handlers_settled hsettled)
    (fun u => by_contra fun hu => hsafe u (.inr hu)) w
  cases hworker : s.worker w with
  | loop => exact absurd hnone (workerStep_loop hconsistent hworker)
  | handle obj => exact absurd hnone (workerStep_handle hworker hidle)
  | dequeue =>
      refine ⟨rfl, ?_⟩
      rw [hworker] at hw
      have hrunning := not_running_of_settled (reachable_queue h) (queue_settled hsettled) (some w)
      cases hpc : s.queue.pc (some w) with
      | dequeue p =>
          rw [hpc] at hrunning
          cases p <;> cases hrunning
          rfl
      | dequeued first =>
          obtain ⟨obj, rfl⟩ := some_of_dequeued h hshort hworker hpc
          cases hstart : parseRequestStart obj with
          | error fault => exact absurd (.inl ⟨obj, fault, hworker, hpc, hstart⟩) (hsafe w)
          | ok p => exact absurd hnone (workerStep_dequeued hworker hpc hstart hidle)
      | idle | enqueued | enqueue =>
          rw [hpc] at hw
          cases hw

/-- The main thread can always go on to the next request. -/
theorem mainStep_listen (h : (mbrokerMachine W sent).Reachable s) (hmain : s.main = .listen)
    (hnone : mainStep s = none) : s.pipe.loop = .readOpcode ∧ s.pipe.pipe = [] := by
  have hidle := (reachable_consistent h).main_at.idle (by rw [hmain]; simp)
  have hact : pcqProgram.act (s.queue.pc none) = .idle := by
    rcases hidle with hidle | hidle <;> rw [hidle] <;> rfl
  unfold mainStep at hnone
  rw [hmain] at hnone
  dsimp only at hnone
  cases hloop : s.pipe.loop with
  | readOpcode =>
      refine ⟨rfl, ?_⟩
      cases hpipe : s.pipe.pipe with
      | nil => rfl
      | cons protCode pipe =>
          rw [hloop, loopStep_cons hloop hpipe] at hnone
          cases hnone
  | parse protCode =>
      obtain ⟨protocol, pipe, hparse, -⟩ := (reachable_framed (reachable_wire h)).parse hloop
      rw [hloop, loopStep_parse hloop hparse] at hnone
      have hcall := step_call_of_idle hact (p := .enqueue (protCode, protocol) .lockSize) rfl
      simp [Except.toOption, hcall] at hnone

/-- With the workers asleep the queue is empty, so that nobody waits for a slot. -/
theorem main_of_settled [Nonempty W] (h : (mbrokerMachine W sent).Reachable s)
    (hsettled : (mbrokerMachine W sent).Settled MbrokerEvent.isOwn s)
    (hasleep : ∀ w, s.queue.pc (some w) = .dequeue .asleep) :
    s.main = .join ∨ s.main = .listen ∧ s.pipe.loop = .readOpcode ∧ s.pipe.pipe = [] := by
  have hnone : mainStep s = none := hsettled .main rfl
  have hconsistent := reachable_consistent h
  have hquiet := quiet_of_settled (reachable_queue h) (queue_settled hsettled)
  cases hmain : s.main with
  | join => exact .inl rfl
  | listen => exact .inr ⟨rfl, mainStep_listen h hmain hnone⟩
  | check =>
      rw [mainStep, hmain] at hnone
      cases hnone
  | enqueue =>
      obtain ⟨w⟩ := ‹Nonempty W›
      have hempty := hquiet.popper ⟨some w, hasleep w⟩
      have hmain_at := hconsistent.main_at
      rw [hmain] at hmain_at
      rcases hmain_at.enqueue_cases with hpc | ⟨obj, p, hpc⟩
      · rw [mainStep, hmain] at hnone
        dsimp only at hnone
        rw [hpc] at hnone
        cases hnone
      · rcases hquiet.outside_or_asleep none with hidle | hdequeue | ⟨elem, hfull⟩
        · rw [hpc] at hidle
          cases p <;> cases hidle
        · rw [hpc] at hdequeue
          cases hdequeue
        · have hsize := hquiet.pusher ⟨none, elem, hfull⟩
          rw [hempty, hconsistent.capacity] at hsize
          exact absurd hsize.symm Fintype.card_ne_zero

/-- Nothing is in the hands of a worker that waits. -/
theorem handled_perm_queue [Nonempty W] (h : (mbrokerMachine W sent).Reachable s)
    (hsettled : (mbrokerMachine W sent).Settled MbrokerEvent.isOwn s)
    (hshort : s.written.length < 18446744073709551616)
    (hwaiting : ∀ w, s.worker w = .dequeue ∧ s.queue.pc (some w) = .dequeue .asleep)
    (hmain : s.main ≠ .enqueue) : s.handled.Perm s.pipe.queue := by
  obtain ⟨w⟩ := ‹Nonempty W›
  have hconsistent := reachable_consistent h
  have hquiet := quiet_of_settled (reachable_queue h) (queue_settled hsettled)
  have hempty := hquiet.popper ⟨some w, (hwaiting w).2⟩
  have hlen := ((reachable_guarded (reachable_queue h)).free (hquiet.free _)).counts.length
  have hmade := hconsistent.made
  have hinserting : (s.queue.pc none).inserting = [] := by
    rcases hconsistent.main_at.idle hmain with hpc | hpc <;> rw [hpc] <;> rfl
  rw [hinserting, List.append_nil] at hmade
  have hremoved := removed_eq_take h hshort
  rw [List.take_of_length_le (by rw [hmade]; omega)] at hremoved
  have hholds : ∑ w, s.holds w = 0 := by
    apply Finset.sum_eq_zero
    intro w _
    obtain ⟨hworker, hpc⟩ := hwaiting w
    rw [Mbroker.holds_of_ne_loop (by rw [hworker]; simp), hpc]
    rfl
  have hcoe := hconsistent.removed
  rw [hholds, add_zero, hremoved, ← Multiset.map_coe] at hcoe
  exact Multiset.coe_eq_coe.mp (Multiset.map_injective (Option.some_injective _) hcoe.symm)

omit [Fintype W] [DecidableEq W] in
theorem written_length_eq [Fintype ι] (w : Written ι) :
    w.length = ∑ i, (sentBy i w).length := by
  induction w with
  | nil => exact (Finset.sum_eq_zero fun _ _ => rfl).symm
  | cons p w ih =>
      have hcons : ∀ i, (sentBy i (p :: w)).length =
          (if p.1 = i then 1 else 0) + (sentBy i w).length := by
        intro i
        unfold sentBy
        by_cases hi : p.1 = i
        · simp [hi, Nat.add_comm]
        · simp [hi]
      rw [Finset.sum_congr rfl fun i _ => hcons i, Finset.sum_add_distrib, Finset.sum_ite_eq, ← ih,
        List.length_cons, if_pos (Finset.mem_univ _), Nat.add_comm]

/-- The clients write no more than they have to send. -/
theorem written_length_le [Fintype ι] (h : (mbrokerMachine W sent).Reachable s) :
    s.written.length ≤ ∑ i, (sent i).length := by
  rw [written_length_eq]
  apply Finset.sum_le_sum
  intro i _
  rw [← (reachable_framed (reachable_wire h)).order i, List.length_append]
  exact Nat.le_add_right ..

/-- Nothing is left of a run in which no worker ends the broker. -/
theorem served_of_safe [Fintype ι] [Nonempty W] (h : (mbrokerMachine W sent).Reachable s)
    (hsettled : (mbrokerMachine W sent).Settled MbrokerEvent.isOwn s)
    (hshort : ∑ i, (sent i).length < 18446744073709551616) (hsafe : ∀ w, ¬ s.FaultsAt w) :
    s.Served sent := by
  have hwritten := written_length_le h
  have hwaiting := asleep_of_settled h hsettled (by omega) hsafe
  have hmain := main_of_settled h hsettled fun w => (hwaiting w).2
  have hframed := reachable_framed (reachable_wire h)
  have hnotEnqueue : s.main ≠ .enqueue := by
    rcases hmain with hmain | ⟨hmain, -⟩ <;> rw [hmain] <;> simp
  have hhandled := handled_perm_queue h hsettled (by omega) hwaiting hnotEnqueue
  refine ⟨hwaiting, ?_, hhandled, ?_⟩
  · intro i
    have horder := hframed.order i
    rw [show s.wire.1.pending i = [] from sent_of_settled hsettled i, List.append_nil] at horder
    exact horder
  · intro hjoin
    obtain ⟨hlisten, hloop, hpipe⟩ := hmain.resolve_left hjoin
    have hdrained : s.pipe.queue = objects s.written := hframed.drained hpipe hloop
    rw [hdrained] at hhandled
    exact ⟨hlisten, hpipe, hhandled⟩

/-- **The completion rule of the broker**: when the clients and the broker have
come to their end, `Q` holds of them, unless a call on a pipe has failed. -/
theorem pipedMbroker_completes_of_settled [Fintype ι] {Q : Mbroker ι W → Prop}
    {p : Machine.Exposed (Mbroker ι W) (Option W)} (h : (pipedMbroker W sent).Reachable p)
    (hQ : ∀ s, (mbrokerMachine W sent).Reachable s →
      (mbrokerMachine W sent).Settled MbrokerEvent.isOwn s → Q s) :
    (pipedMbroker W sent).Completes (Machine.ownExposed MbrokerEvent.isOwn)
      (fun p => PipeFailed p ∨ Q p.inner) p := by
  have hown : ∀ e : MbrokerEvent ι W, e.isOwn → mbrokerCost e = 0 := fun _ he => he
  exact mbrokerMachine_paid.completes_expose hown hQ h

end Served

/-- The request is handled, and the worker and the main thread wait again. -/
def serveRun : List (MbrokerEvent Unit Unit) :=
  deliverRun ++ List.replicate 4 (.handler ()) ++ [.worker (), .worker ()] ++
    List.replicate 3 (.queue (.run (some ()))) ++ [.main, .main]

theorem serveRun_result :
    ((mbrokerStart Unit oneRequest).bind fun s =>
      (mbrokerMachine Unit oneRequest).run s serveRun).map
        (fun s => (s.main, s.handled.map Prod.fst, s.queue.pc (some ()))) =
      some (.listen, [3], .dequeue .asleep) := by
  decide +kernel

theorem serveRun_length_le : ∃ s₀ s, mbrokerStart Unit oneRequest = some s₀ ∧
    (mbrokerMachine Unit oneRequest).run s₀ serveRun = some s ∧
      serveRun.length ≤ 2 + 20 * Fintype.card Unit +
        ∑ i, ((oneRequest i).map (messagePrice Unit)).sum + (serveRun.map mbrokerCost).sum := by
  obtain ⟨s, hrun, -⟩ := Option.map_eq_some_iff.mp serveRun_result
  obtain ⟨s₀, hstart, hrun⟩ := Option.bind_eq_some_iff.mp hrun
  exact ⟨s₀, s, hstart, hrun, mbrokerRun_length_le (mbrokerStart_start (by decide) hstart) hrun⟩

/-- `serveRun`, in which the client opens its pipe and takes the response. -/
def pipedServeRun : List (Machine.ExposedInput (MbrokerEvent Unit Unit) (Option Unit)) :=
  deliverRun.map .inner ++ [.returns (some ())] ++ List.replicate 4 (.inner (.handler ())) ++
    [.returns (some ()), .inner (.worker ()), .inner (.worker ())] ++
    List.replicate 3 (.inner (.queue (.run (some ())))) ++ [.inner .main, .inner .main]

theorem pipedServeRun_result :
    ((mbrokerStart Unit oneRequest).bind fun s =>
      (pipedMbroker Unit oneRequest).run ⟨s, ∅, none⟩ pipedServeRun).map
        (fun p => (p.inner.handled.map Prod.fst, p.failed.isNone)) = some ([3], true) := by
  decide +kernel

/-- The client and the broker come to their end, and no call has failed. -/
theorem pipedServeRun_reachable : ∃ s₀ p, mbrokerStart Unit oneRequest = some s₀ ∧
    (pipedMbroker Unit oneRequest).Reachable ⟨s₀, ∅, none⟩ ∧
    (pipedMbroker Unit oneRequest).run ⟨s₀, ∅, none⟩ pipedServeRun = some p ∧
    p.inner.handled.map Prod.fst = [3] ∧ p.failed = none := by
  obtain ⟨p, hrun, hobs⟩ := Option.map_eq_some_iff.mp pipedServeRun_result
  obtain ⟨s₀, hstart, hrun⟩ := Option.bind_eq_some_iff.mp hrun
  obtain ⟨hhandled, hlive⟩ := Prod.mk.inj hobs
  exact ⟨s₀, p, hstart, .start ⟨mbrokerStart_start (by decide) hstart, rfl, rfl⟩, hrun, hhandled,
    Option.isNone_iff_eq_none.mp hlive⟩

end MBroker
