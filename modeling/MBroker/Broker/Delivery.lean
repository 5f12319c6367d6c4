import MBroker.Broker.Process

/-!
# Every request is delivered once

What a run of the broker looks like to the register pipe, to the queue and
to the handlers is a run of each, so that all results about them hold. On
top of it: where each thread is in all three at once, and where each
request is. The objects that the main thread has made are enqueued in this
order, and each one that has been taken out of the queue is with one
worker or has been handled once.
-/

namespace MBroker

open Threads

variable {ι W : Type} [DecidableEq ι] [Fintype W] [DecidableEq W] {sent : ι → List Message}
  {s s' : Mbroker ι W} {e : MbrokerEvent ι W}

/-! ## The parts of a run -/

/-- The register pipe, with the order of the writes. -/
def Mbroker.wire (s : Mbroker ι W) : RegisterPipe ι × Written ι := (s.pipe, s.written)

theorem pipe_step_of_eq {p : RegisterPipe ι} {q : RegisterPipe ι} {e : PipeEvent ι}
    {w : Written ι} (h : pipeStep p e = .ok (some q)) :
    (writtenMachine sent).step (p, w) e = some (q, Written.update p e q w) := by
  apply Machine.ghost_step_eq_some.mpr
  refine ⟨?_, rfl⟩
  show (pipeStep p e).toOption.join = some q
  rw [h]
  rfl

theorem reachable_wire (h : (mbrokerMachine W sent).Reachable s) :
    (writtenMachine sent).Reachable s.wire := by
  refine h.component Mbroker.wire ?_ ?_
  · rintro s ⟨hpipe, -, -, -, -, -, hwritten, -⟩
    unfold Mbroker.wire
    rw [hpipe, hwritten]
    exact ⟨rfl, rfl⟩
  · intro s e s' _ hstep
    cases mbrokerStep_cases hstep with
    | @send i pipe hpipe => exact .inr ⟨.send i, pipe_step_of_eq hpipe⟩
    | readOpcode _ _ hpipe => exact .inr ⟨.loop, pipe_step_of_eq hpipe⟩
    | parse _ _ hpipe => exact .inr ⟨.loop, pipe_step_of_eq hpipe⟩
    | _ => exact .inl rfl

theorem reachable_queue (h : (mbrokerMachine W sent).Reachable s) :
    (pcqMachine (Option W) QueueObj).Reachable s.queue := by
  refine h.component Mbroker.queue ?_ ?_
  · rintro s ⟨-, -, -, hqueue, -, -, -, -, hcard⟩
    rw [hqueue]
    exact ⟨⟨_, hcard, rfl⟩, fun _ => rfl, fun _ => rfl⟩
  · intro s e s' _ hstep
    cases mbrokerStep_cases hstep with
    | parse _ _ _ _ hidle => exact .inr ⟨.call none _, step_call_of_idle hidle rfl⟩
    | dequeue _ hidle => exact .inr ⟨.call (some _) _, step_call_of_idle hidle rfl⟩
    | queue _ hqueue => exact .inr ⟨_, hqueue⟩
    | _ => exact .inl rfl

theorem entry_of_parseRequestStart {obj : QueueObj} {p : BrokerPoint}
    (h : parseRequestStart obj = .ok p) : brokerProgram.entry p := by
  unfold parseRequestStart at h
  split at h
  · obtain ⟨box, -, h⟩ := bind_eq_ok.mp h
    cases h
    rfl
  · obtain ⟨box, -, h⟩ := bind_eq_ok.mp h
    cases h
    rfl
  · obtain ⟨box, -, h⟩ := bind_eq_ok.mp h
    cases h
    rfl
  · cases h
    rfl

theorem reachable_handlers (h : (mbrokerMachine W sent).Reachable s) :
    (brokerMachine W).Reachable s.handlers := by
  refine h.component Mbroker.handlers ?_ ?_
  · rintro s ⟨-, -, -, -, -, hhandlers, -⟩
    exact hhandlers
  · intro s e s' _ hstep
    cases mbrokerStep_cases hstep with
    | take _ _ hstart hidle =>
        exact .inr ⟨.call _ _, step_call_of_idle hidle (entry_of_parseRequestStart hstart)⟩
    | handler hhandlers => exact .inr ⟨.run _, hhandlers⟩
    | _ => exact .inl rfl

/-! ## Where a thread is -/

/-- The main thread is at `m`, with the pipe at `l` and the queue at `p`. -/
inductive MainAt : MainPoint → LoopPoint → PcqPoint QueueObj → Prop
  | outside {m : MainPoint} {l : LoopPoint} {p : PcqPoint QueueObj} (hm : m ≠ .enqueue)
      (hl : m = .listen ∨ l = .readOpcode) (hp : p = .idle ∨ p = .enqueued) : MainAt m l p
  | enqueue {obj : QueueObj} {p : EnqueuePoint} : MainAt .enqueue .readOpcode (.enqueue obj p)
  | enqueued : MainAt .enqueue .readOpcode .enqueued

/-- A worker is at `p`, with the queue at `q` and the handlers at `k`. What it
handles is what it has dequeued. -/
inductive WorkerAt : WorkerPoint → PcqPoint QueueObj → BrokerPoint → Prop
  | loop {q : PcqPoint QueueObj} {reply : Option Reply}
      (hq : q = .idle ∨ ∃ first, q = .dequeued first) : WorkerAt .loop q (.idle reply)
  | dequeue {q : DequeuePoint QueueObj} {reply : Option Reply} :
      WorkerAt .dequeue (.dequeue q) (.idle reply)
  | dequeued {first : Option QueueObj} {reply : Option Reply} :
      WorkerAt .dequeue (.dequeued first) (.idle reply)
  | handle {obj : QueueObj} {k : BrokerPoint} : WorkerAt (.handle obj) (.dequeued (some obj)) k

theorem MainAt.sameCall {m : MainPoint} {l : LoopPoint} {p p' : PcqPoint QueueObj}
    (h : MainAt m l p) (hsame : SameCall p p') : MainAt m l p' := by
  cases h with
  | outside hm hl hp =>
      rcases hp with rfl | rfl
      · cases hsame
        exact .outside hm hl (.inl rfl)
      · cases hsame
        exact .outside hm hl (.inr rfl)
  | enqueue =>
      cases hsame with
      | outside => exact .enqueue
      | enqueue => exact .enqueue
      | enqueued => exact .enqueued
  | enqueued =>
      cases hsame
      exact .enqueued

theorem WorkerAt.sameCall {p : WorkerPoint} {q q' : PcqPoint QueueObj} {k : BrokerPoint}
    (h : WorkerAt p q k) (hsame : SameCall q q') : WorkerAt p q' k := by
  cases h with
  | loop hq =>
      rcases hq with rfl | ⟨first, rfl⟩
      · cases hsame
        exact .loop (.inl rfl)
      · cases hsame
        exact .loop (.inr ⟨first, rfl⟩)
  | dequeue =>
      cases hsame with
      | outside => exact .dequeue
      | dequeue => exact .dequeue
      | dequeued => exact .dequeued
  | dequeued =>
      cases hsame
      exact .dequeued
  | handle =>
      cases hsame
      exact .handle

theorem MainAt.idle {m : MainPoint} {l : LoopPoint} {p : PcqPoint QueueObj} (h : MainAt m l p)
    (hm : m ≠ .enqueue) : p = .idle ∨ p = .enqueued := by
  cases h with
  | outside _ _ hp => exact hp
  | enqueue | enqueued => exact absurd rfl hm

theorem MainAt.readOpcode {m : MainPoint} {l : LoopPoint} {p : PcqPoint QueueObj}
    (h : MainAt m l p) (hm : m ≠ .listen) : l = .readOpcode := by
  cases h with
  | outside _ hl => exact hl.resolve_left hm
  | enqueue | enqueued => rfl

/-- The main thread in `pcq_enqueue`, or back from it. -/
theorem MainAt.enqueue_cases {l : LoopPoint} {p : PcqPoint QueueObj} (h : MainAt .enqueue l p) :
    p = .enqueued ∨ ∃ obj q, p = .enqueue obj q := by
  cases h with
  | outside hm => exact absurd rfl hm
  | enqueue => exact .inr ⟨_, _, rfl⟩
  | enqueued => exact .inl rfl

theorem WorkerAt.queue_idle {q : PcqPoint QueueObj} {k : BrokerPoint} (h : WorkerAt .loop q k) :
    pcqProgram.act q = .idle := by
  cases h with
  | loop hq => rcases hq with rfl | ⟨first, rfl⟩ <;> rfl

theorem WorkerAt.loop_cases {q : PcqPoint QueueObj} {k : BrokerPoint} (h : WorkerAt .loop q k) :
    ∃ reply, k = .idle reply := by
  cases h
  exact ⟨_, rfl⟩

theorem WorkerAt.handle_cases {obj : QueueObj} {q : PcqPoint QueueObj} {k : BrokerPoint}
    (h : WorkerAt (.handle obj) q k) : q = .dequeued (some obj) := by
  cases h
  rfl

/-- A worker in a handler handles an object. -/
theorem WorkerAt.of_running {p : WorkerPoint} {q : PcqPoint QueueObj} {k : BrokerPoint}
    (h : WorkerAt p q k) (hk : (brokerProgram.act k).isRunning) :
    ∃ obj, p = .handle obj := by
  cases h with
  | handle => exact ⟨_, rfl⟩
  | loop | dequeue | dequeued => cases hk

/-- A worker in the queue is at its `pcq_dequeue`. -/
theorem WorkerAt.ne_loop {p : WorkerPoint} {q : PcqPoint QueueObj} {k : BrokerPoint}
    (h : WorkerAt p q k) (hq : pcqProgram.act q ≠ .idle) : p ≠ .loop := by
  cases h with
  | loop hidle =>
      rcases hidle with rfl | ⟨first, rfl⟩
      · exact absurd rfl hq
      · exact absurd rfl hq
  | dequeue | dequeued | handle => simp

/-- The main thread takes nothing out of the queue. -/
theorem MainAt.taken {m : MainPoint} {l : LoopPoint} {p : PcqPoint QueueObj}
    (h : MainAt m l p) : p.taken = 0 := by
  cases h with
  | outside _ _ hp => rcases hp with rfl | rfl <;> rfl
  | enqueue | enqueued => rfl

/-- Workers insert nothing. -/
theorem WorkerAt.inserting {p : WorkerPoint} {q : PcqPoint QueueObj} {k : BrokerPoint}
    (h : WorkerAt p q k) : q.inserting = [] := by
  cases h with
  | loop hq => rcases hq with rfl | ⟨first, rfl⟩ <;> rfl
  | dequeue | dequeued | handle => rfl

/-! ## Where a request is -/

/-- What worker `w` has taken out of the queue and not freed. -/
def Mbroker.holds (s : Mbroker ι W) (w : W) : Multiset (Option QueueObj) :=
  match s.worker w with
  | .loop => 0
  | .dequeue | .handle _ => (s.queue.pc (some w)).taken

/-- Where the threads are, and where the requests are. -/
structure Mbroker.Consistent (s : Mbroker ι W) : Prop where
  main_at : MainAt s.main s.pipe.loop (s.queue.pc none)
  worker_at : ∀ w, WorkerAt (s.worker w) (s.queue.pc (some w)) (s.handlers.pc w)
  interrupted : s.main = .join → s.sigintCalled = true
  capacity : s.queue.shared.pcqCapacity = Fintype.card W
  made : s.pipe.queue = s.queue.shared.inserted ++ (s.queue.pc none).inserting
  removed : (s.queue.shared.removed : Multiset (Option QueueObj)) =
    (s.handled : Multiset QueueObj).map some + ∑ w, s.holds w

omit [DecidableEq ι] [Fintype W] [DecidableEq W] in
theorem Mbroker.holds_of_loop {w : W} (h : s.worker w = .loop) : s.holds w = 0 := by
  rw [Mbroker.holds, h]

omit [DecidableEq ι] [Fintype W] [DecidableEq W] in
theorem Mbroker.holds_of_ne_loop {w : W} (h : s.worker w ≠ .loop) :
    s.holds w = (s.queue.pc (some w)).taken := by
  unfold Mbroker.holds
  cases hw : s.worker w with
  | loop => exact absurd hw h
  | dequeue | handle => rfl

omit [DecidableEq ι] [Fintype W] [DecidableEq W] in
theorem Mbroker.holds_congr {w : W} (hworker : s'.worker w = s.worker w)
    (htaken : (s'.queue.pc (some w)).taken = (s.queue.pc (some w)).taken) :
    s'.holds w = s.holds w := by
  unfold Mbroker.holds
  rw [hworker, htaken]

theorem Mbroker.Consistent.start (h : (mbrokerMachine W sent).start s) : s.Consistent := by
  obtain ⟨hpipe, hmain, hsigint, hqueue, hworker, ⟨-, -, hhandlers⟩, -, hhandled, -⟩ := h
  constructor
  case main_at =>
    rw [hmain, hpipe, hqueue]
    exact .outside (by simp) (.inr rfl) (.inl rfl)
  case worker_at =>
    intro w
    rw [hworker w, hqueue, hhandlers w]
    exact .loop (.inl rfl)
  case interrupted =>
    intro hjoin
    rw [hmain] at hjoin
    cases hjoin
  case capacity =>
    rw [hqueue]
    rfl
  case made =>
    rw [hpipe, hqueue]
    rfl
  case removed =>
    rw [hqueue, hhandled, Finset.sum_eq_zero fun w _ => s.holds_of_loop (hworker w)]
    rfl

omit [DecidableEq ι] in
/-- A step of a thread in the queue. -/
theorem Mbroker.Consistent.queueStep (h : s.Consistent) {t : Option W}
    {queue : State (Option W) PcqMutex (PcqPoint QueueObj) (PcQueue QueueObj)}
    (hs : StepHandsOver s.queue queue t) (hidle : pcqProgram.act (s.queue.pc t) ≠ .idle) :
    ({ s with queue } : Mbroker ι W).Consistent := by
  obtain ⟨hown, hothers⟩ := hs
  have hsame : ∀ u, SameCall (s.queue.pc u) (queue.pc u) := by
    intro u
    by_cases hu : u = t
    · rw [hu]
      exact hown.same
    · exact (hothers u hu).1
  have hmain := h.main_at.sameCall (hsame none)
  have hworker : ∀ w, WorkerAt (s.worker w) (queue.pc (some w)) (s.handlers.pc w) :=
    fun w => (h.worker_at w).sameCall (hsame (some w))
  have hholds : ∀ w, some w ≠ t → ({ s with queue } : Mbroker ι W).holds w = s.holds w :=
    fun w hw => Mbroker.holds_congr rfl (hothers (some w) hw).2.2
  constructor
  case main_at => exact hmain
  case worker_at => exact hworker
  case interrupted => exact h.interrupted
  case capacity => exact hown.capacity.trans h.capacity
  case made =>
    rw [h.made]
    cases t with
    | none => exact hown.insert.symm
    | some w =>
        have hinsert := hown.insert
        rw [(h.worker_at w).inserting, (hworker w).inserting, List.append_nil,
          List.append_nil] at hinsert
        show _ = queue.shared.inserted ++ (queue.pc none).inserting
        rw [hinsert, (hothers none (by simp)).2.1]
  case removed =>
    have hremove := hown.remove
    cases t with
    | none =>
        rw [h.main_at.taken, hmain.taken, add_zero, add_zero] at hremove
        show (queue.shared.removed : Multiset (Option QueueObj)) = _
        rw [hremove, h.removed]
        rw [Finset.sum_congr rfl fun w _ => hholds w (by simp)]
    | some w =>
        have hloop := (h.worker_at w).ne_loop hidle
        have hsum := sum_add_of_eq_elsewhere (t := w)
          (f := ({ s with queue } : Mbroker ι W).holds) (g := s.holds)
          (fun u hu => hholds u (by simp [hu]))
        rw [Mbroker.holds_of_ne_loop hloop, Mbroker.holds_of_ne_loop (s := { s with queue }) hloop]
          at hsum
        show (queue.shared.removed : Multiset (Option QueueObj)) = _
        apply add_right_cancel (b := (s.queue.pc (some w)).taken)
        rw [hremove, h.removed, add_assoc, ← hsum, add_assoc]

omit [DecidableEq ι] [Fintype W] in
/-- Where worker `w` is after its step, the others being where they were. -/
theorem workerAt_update {w : W} {p : WorkerPoint} {q q' : Option W → PcqPoint QueueObj}
    {k k' : W → BrokerPoint} (h : ∀ u, WorkerAt (s.worker u) (q (some u)) (k u))
    (hw : WorkerAt p (q' (some w)) (k' w)) (hq : ∀ u, u ≠ w → q' (some u) = q (some u))
    (hk : ∀ u, u ≠ w → k' u = k u) (u : W) :
    WorkerAt (Function.update s.worker w p u) (q' (some u)) (k' u) := by
  by_cases hu : u = w
  · rw [hu, Function.update_self]
    exact hw
  · rw [Function.update_of_ne hu, hq u hu, hk u hu]
    exact h u

theorem Mbroker.Consistent.mainStep (h : s.Consistent) (hmove : s.Move .main s') :
    s'.Consistent := by
  cases hmove with
  | check hmain =>
      have hidle := h.main_at.idle (by rw [hmain]; simp)
      constructor
      case main_at =>
        refine .outside ?_ (.inr (h.main_at.readOpcode (by rw [hmain]; simp))) hidle
        dsimp only
        split <;> simp
      case worker_at => exact h.worker_at
      case interrupted =>
        dsimp only
        split
        · rename_i hsigint
          exact fun _ => hsigint
        · rintro ⟨⟩
      case capacity => exact h.capacity
      case made => exact h.made
      case removed => exact h.removed
  | readOpcode hmain hloop hstep =>
      obtain ⟨_, _, -, -, rfl⟩ | ⟨_, _, _, hparse, -⟩ := loopStep_cases hstep
      · have hidle := h.main_at.idle (by rw [hmain]; simp)
        refine ⟨?_, h.worker_at, h.interrupted, h.capacity, h.made, h.removed⟩
        exact .outside (by simp [hmain]) (.inl hmain) hidle
      · rw [hloop] at hparse
        cases hparse
  | parse hmain hloop hstep hobj hidle =>
      obtain ⟨_, _, hread, -⟩ | ⟨protCode, protocol, pipe, -, -, rfl⟩ := loopStep_cases hstep
      · rw [hloop] at hread
        cases hread
      · rw [List.getLast?_concat] at hobj
        cases hobj
        constructor
        case main_at =>
          show MainAt .enqueue .readOpcode ((s.queue.goto none _).pc none)
          rw [State.goto_pc_self]
          exact .enqueue
        case worker_at =>
          intro w
          show WorkerAt (s.worker w) ((s.queue.goto none _).pc (some w)) (s.handlers.pc w)
          rw [State.goto_pc_of_ne _ _ (by simp)]
          exact h.worker_at w
        case interrupted => rintro ⟨⟩
        case capacity => exact h.capacity
        case made =>
          show s.pipe.queue ++ [_] =
            s.queue.shared.inserted ++ ((s.queue.goto none _).pc none).inserting
          rw [State.goto_pc_self, h.made, inserting_of_idle hidle, List.append_nil]
          rfl
        case removed =>
          show (s.queue.shared.removed : Multiset (Option QueueObj)) = _
          rw [h.removed, Finset.sum_congr rfl fun w _ => ?_]
          symm
          exact Mbroker.holds_congr rfl rfl
  | enqueued hmain hpc =>
      have hloop := h.main_at.readOpcode (by rw [hmain]; simp)
      exact ⟨.outside (by simp) (.inr hloop) (.inr hpc), h.worker_at, by simp, h.capacity, h.made,
        h.removed⟩

theorem Mbroker.Consistent.step (h : s.Consistent) (hmove : s.Move e s') : s'.Consistent := by
  cases hmove with
  | send hstep =>
      obtain ⟨m, ms, -, rfl⟩ := sendStep_cases hstep
      exact ⟨h.main_at, h.worker_at, h.interrupted, h.capacity, h.made, h.removed⟩
  | sigint => exact ⟨h.main_at, h.worker_at, fun _ => rfl, h.capacity, h.made, h.removed⟩
  | check hmain => exact h.mainStep (.check hmain)
  | readOpcode hmain hloop hstep => exact h.mainStep (.readOpcode hmain hloop hstep)
  | parse hmain hloop hstep hobj hidle => exact h.mainStep (.parse hmain hloop hstep hobj hidle)
  | enqueued hmain hpc => exact h.mainStep (.enqueued hmain hpc)
  | eof hmain hloop hpipe =>
      have hidle := h.main_at.idle (by rw [hmain]; simp)
      exact ⟨.outside (by simp) (.inr hloop) hidle, h.worker_at, by simp, h.capacity, h.made,
        h.removed⟩
  | queue hcall hstep =>
      exact h.queueStep (step_handsOver hstep hcall) (act_ne_idle_of_step hstep hcall)
  | @dequeue w hworker hidle =>
      have hw := h.worker_at w
      rw [hworker] at hw
      obtain ⟨reply, hreply⟩ := hw.loop_cases
      constructor
      case main_at =>
        show MainAt s.main s.pipe.loop ((s.queue.goto (some w) _).pc none)
        rw [State.goto_pc_of_ne _ _ (by simp)]
        exact h.main_at
      case worker_at =>
        apply workerAt_update h.worker_at
        · rw [State.goto_pc_self, hreply]
          exact .dequeue
        · exact fun u hu => State.goto_pc_of_ne _ _ (by simp [hu])
        · exact fun _ _ => rfl
      case interrupted => exact h.interrupted
      case capacity => exact h.capacity
      case made =>
        show _ = s.queue.shared.inserted ++ ((s.queue.goto (some w) _).pc none).inserting
        rw [State.goto_pc_of_ne _ _ (by simp)]
        exact h.made
      case removed =>
        show (s.queue.shared.removed : Multiset (Option QueueObj)) = _
        rw [h.removed, Finset.sum_congr rfl fun u _ => ?_]
        by_cases hu : u = w
        · rw [hu, Mbroker.holds_of_loop hworker]
          simp [Mbroker.holds, PcqPoint.taken]
        · symm
          apply Mbroker.holds_congr (Function.update_of_ne hu ..)
          dsimp only
          rw [State.goto_pc_of_ne _ _ (by simp [hu])]
  | @take w obj p hworker hpc hstart hidle =>
      constructor
      case main_at => exact h.main_at
      case worker_at =>
        apply workerAt_update h.worker_at
        · rw [hpc]
          exact .handle
        · exact fun _ _ => rfl
        · exact fun u hu => State.goto_pc_of_ne _ _ hu
      case interrupted => exact h.interrupted
      case capacity => exact h.capacity
      case made => exact h.made
      case removed =>
        show (s.queue.shared.removed : Multiset (Option QueueObj)) = _
        rw [h.removed, Finset.sum_congr rfl fun u _ => ?_]
        by_cases hu : u = w
        · rw [hu]
          simp [Mbroker.holds, hworker]
        · symm
          exact Mbroker.holds_congr (Function.update_of_ne hu ..) rfl
  | @free w obj reply hworker hpc =>
      have hw := h.worker_at w
      rw [hworker] at hw
      have hq := hw.handle_cases
      constructor
      case main_at => exact h.main_at
      case worker_at =>
        apply workerAt_update h.worker_at
        · rw [hpc, hq]
          exact .loop (.inr ⟨_, rfl⟩)
        · exact fun _ _ => rfl
        · exact fun _ _ => rfl
      case interrupted => exact h.interrupted
      case capacity => exact h.capacity
      case made => exact h.made
      case removed =>
        -- the object goes from the worker to the handled ones
        have hsum := sum_add_of_eq_elsewhere (t := w)
          (f := ({ s with
            worker := Function.update s.worker w .loop
            handled := s.handled ++ [obj] } : Mbroker ι W).holds) (g := s.holds)
          (fun u hu => Mbroker.holds_congr (Function.update_of_ne hu ..) rfl)
        have hbefore : s.holds w = {some obj} := by
          rw [Mbroker.holds_of_ne_loop (by rw [hworker]; simp), hq]
          rfl
        rw [hbefore, Mbroker.holds_of_loop (by simp), add_zero] at hsum
        show (s.queue.shared.removed : Multiset (Option QueueObj)) = _
        rw [h.removed, ← hsum, ← Multiset.coe_add, Multiset.map_add, add_assoc,
          add_comm (∑ _, _)]
        rfl
  | @handler w handlers hstep =>
      have hhandlers : (brokerMachine W).step s.handlers (.run w) = some handlers := hstep
      obtain ⟨k, _, -, -, hpc⟩ := move_of_step hhandlers
      obtain ⟨obj, hobj⟩ := (h.worker_at w).of_running (isRunning_of_step hstep rfl)
      refine ⟨h.main_at, ?_, h.interrupted, h.capacity, h.made, h.removed⟩
      intro u
      have hu := h.worker_at u
      show WorkerAt (s.worker u) (s.queue.pc (some u)) (handlers.pc u)
      by_cases huw : u = w
      · rw [huw, hobj] at hu ⊢
        rw [hu.handle_cases]
        exact .handle
      · rw [hpc]
        show WorkerAt _ _ (Function.update s.handlers.pc w k u)
        rw [Function.update_of_ne huw]
        exact hu

theorem reachable_consistent (h : (mbrokerMachine W sent).Reachable s) : s.Consistent := by
  refine h.invariant ?_ ?_
  · exact fun s hs => Mbroker.Consistent.start hs
  · exact fun s e s' hs _ hstep => hs.step (mbrokerStep_cases hstep)

/-! ## Delivery -/

/-- The requests that have been sent reach the queue in the order of the
writes, and from it the workers, each of them one; what the broker has read
and not handled is bounded, however fast the clients are. -/
structure Mbroker.Delivered (s : Mbroker ι W) : Prop where
  in_order : s.pipe.queue <+: objects s.written
  once : (s.handled : Multiset QueueObj).map some + ∑ w, s.holds w =
    ((s.pipe.queue.take s.queue.shared.removed.length : List QueueObj) : Multiset QueueObj).map some
  one_each : ∀ w, (s.holds w).card ≤ 1
  backlog : s.pipe.queue.length ≤ s.handled.length + (2 * Fintype.card W + 1)

theorem PcqPoint.taken_card_le {α : Type*} (p : PcqPoint α) : p.taken.card ≤ 1 := by
  cases p with
  | idle | enqueued | enqueue => exact Nat.zero_le 1
  | dequeued first => exact le_rfl
  | dequeue p => cases p <;> simp [PcqPoint.taken]

theorem PcqPoint.inserting_length_le {α : Type*} (p : PcqPoint α) : p.inserting.length ≤ 1 := by
  cases p with
  | idle | enqueued | dequeued | dequeue => exact Nat.zero_le 1
  | enqueue elem p => cases p <;> simp [PcqPoint.inserting]

omit [DecidableEq ι] [Fintype W] [DecidableEq W] in
theorem Mbroker.holds_card_le (s : Mbroker ι W) (w : W) : (s.holds w).card ≤ 1 := by
  by_cases hloop : s.worker w = .loop
  · rw [Mbroker.holds_of_loop hloop]
    exact Nat.zero_le 1
  · rw [Mbroker.holds_of_ne_loop hloop]
    exact PcqPoint.taken_card_le _

/-- Everything that is enqueued has been sent. -/
theorem queue_prefix_of_reachable (h : (mbrokerMachine W sent).Reachable s) :
    s.pipe.queue <+: objects s.written :=
  Framed.queue_prefix (reachable_framed (reachable_wire h))

/-- The queue counts no more than the messages that have been sent. -/
theorem inserted_length_le (h : (mbrokerMachine W sent).Reachable s) :
    s.queue.shared.inserted.length ≤ s.written.length := by
  have hle := (queue_prefix_of_reachable h).length_le
  rw [(reachable_consistent h).made, List.length_append, objects, List.length_map] at hle
  omega

/-- What has been removed is the beginning of what the main thread has made. -/
theorem removed_eq_take (h : (mbrokerMachine W sent).Reachable s)
    (hshort : s.written.length < 18446744073709551616) :
    s.queue.shared.removed = (s.pipe.queue.take s.queue.shared.removed.length).map some := by
  obtain ⟨_, _, _, hkeeps⟩ := reachable_keeps (reachable_queue h)
  have hinserted := inserted_length_le h
  have hlen := hkeeps.counts.length
  rw [(reachable_consistent h).made, List.take_append_of_le_length (by omega)]
  exact (hkeeps.contents (by omega)).removed_eq

/-- What a worker has dequeued has left the queue. -/
theorem mem_removed_of_dequeued (h : (mbrokerMachine W sent).Reachable s) {w : W}
    {first : Option QueueObj} (hworker : s.worker w = .dequeue)
    (hpc : s.queue.pc (some w) = .dequeued first) : first ∈ s.queue.shared.removed := by
  have hholds : first ∈ s.holds w := by
    rw [Mbroker.holds_of_ne_loop (by rw [hworker]; simp), hpc]
    exact Multiset.mem_singleton_self first
  apply Multiset.mem_coe.mp
  rw [(reachable_consistent h).removed]
  apply Multiset.mem_add.mpr
  exact .inr (Multiset.mem_sum.mpr ⟨w, Finset.mem_univ w, hholds⟩)

/-- A worker never dequeues `NULL`. -/
theorem some_of_dequeued (h : (mbrokerMachine W sent).Reachable s)
    (hshort : s.written.length < 18446744073709551616) {w : W} {first : Option QueueObj}
    (hworker : s.worker w = .dequeue) (hpc : s.queue.pc (some w) = .dequeued first) :
    ∃ obj, first = some obj := by
  have hmem := mem_removed_of_dequeued h hworker hpc
  rw [removed_eq_take h hshort] at hmem
  obtain ⟨obj, -, hobj⟩ := List.mem_map.mp hmem
  exact ⟨obj, hobj.symm⟩

theorem backlog_le (h : (mbrokerMachine W sent).Reachable s) :
    s.pipe.queue.length ≤ s.handled.length + (2 * Fintype.card W + 1) := by
  have hconsistent := reachable_consistent h
  obtain ⟨n, _, _, hkeeps⟩ := reachable_keeps (reachable_queue h)
  have hlen := hkeeps.counts.length
  have hle := hkeeps.counts.le
  rw [hconsistent.capacity] at hle
  have hinserting := PcqPoint.inserting_length_le (s.queue.pc none)
  have hremoved := congrArg Multiset.card hconsistent.removed
  rw [Multiset.coe_card, Multiset.card_add, Multiset.card_map, Multiset.coe_card,
    Multiset.card_sum] at hremoved
  have hholds : ∑ w, (s.holds w).card ≤ Fintype.card W := by
    calc ∑ w, (s.holds w).card ≤ ∑ _w : W, 1 := Finset.sum_le_sum fun w _ => s.holds_card_le w
      _ = Fintype.card W := by
          rw [Finset.sum_const_nat fun _ _ => rfl, Finset.card_univ, Nat.mul_one]
  rw [hconsistent.made, List.length_append]
  omega

/-- **Exactly-once delivery**, in every run of the whole broker: any clients,
any number of workers, any interleaving, with `SIGINT` or without. -/
theorem mbroker_delivered (h : (mbrokerMachine W sent).Reachable s)
    (hshort : s.written.length < 18446744073709551616) : s.Delivered where
  in_order := queue_prefix_of_reachable h
  once := by
    rw [← (reachable_consistent h).removed, Multiset.map_coe, ← removed_eq_take h hshort]
  one_each := s.holds_card_le
  backlog := backlog_le h

/-- The request is read and enqueued, and the only worker dequeues it. -/
def deliverRun : List (MbrokerEvent Unit Unit) :=
  [.send (), .main, .main, .main] ++ List.replicate 15 (.queue (.run none)) ++
    [.queue (.signal none ∅), .worker ()] ++ List.replicate 17 (.queue (.run (some ()))) ++
    [.queue (.signal (some ()) ∅), .worker ()]

theorem deliverRun_result :
    ((mbrokerStart Unit oneRequest).bind fun s =>
      (mbrokerMachine Unit oneRequest).run s deliverRun).map
        (fun s => (s.pipe.queue.map Prod.fst, s.handled.isEmpty, s.written.length)) =
      some ([3], true, 1) := by
  decide +kernel

theorem deliverRun_delivered : ∃ s, (mbrokerMachine Unit oneRequest).Reachable s ∧
    s.pipe.queue.map Prod.fst = [3] ∧ s.handled.isEmpty ∧ s.Delivered := by
  obtain ⟨s, hrun, hobs⟩ := Option.map_eq_some_iff.mp deliverRun_result
  obtain ⟨s₀, hstart, hrun⟩ := Option.bind_eq_some_iff.mp hrun
  have hreach := (Machine.ReachableBy.start (mbrokerStart_start (by decide) hstart)).run
    (fun _ _ _ => trivial) hrun
  obtain ⟨hqueue, hobs⟩ := Prod.mk.inj hobs
  obtain ⟨hhandled, hwritten⟩ := Prod.mk.inj hobs
  exact ⟨s, hreach, hqueue, hhandled, mbroker_delivered hreach (by omega)⟩

end MBroker
