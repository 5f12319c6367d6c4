import MBroker.Broker.Completion
import MBroker.Broker.ServiceCreations

/-!
# What the clients get

Clients that create and remove boxes, and send no `register_publisher`,
leave the file system that one worker would leave that handles their
requests one after the other, in some order: from the bytes in the pipe to
the directory, through any number of workers. All of it is said of the
broker with the pipes of its clients, which may fail and end it.
-/

namespace MBroker

open Threads

variable {ι W : Type} [DecidableEq ι] [Fintype W] [DecidableEq W] {sent : ι → List Message}
  {s s' : Mbroker ι W}

/-! ## Requests in the pipe and in the handlers -/

/-- The request of an object, if its handler has something to do. -/
def requestOf (obj : QueueObj) : Option Request :=
  (parseRequestStart obj).toOption.bind brokerView.request

/-- The clients create and remove boxes. -/
def NoPublishers (sent : ι → List Message) : Prop :=
  ∀ i, ∀ m ∈ sent i, m.code ≠ .registerPublisher

theorem noPublisher_of_start {obj : QueueObj} {p : BrokerPoint}
    (hcode : Code.ofByte obj.1 ≠ some .registerPublisher) (h : parseRequestStart obj = .ok p) :
    NoPublisher p := by
  unfold parseRequestStart at h
  split at h
  · rename_i hpublisher
    exact absurd hpublisher hcode
  · obtain ⟨box, -, h⟩ := bind_eq_ok.mp h
    cases h
    trivial
  · obtain ⟨box, -, h⟩ := bind_eq_ok.mp h
    cases h
    trivial
  · cases h
    trivial

/-- What has been enqueued was sent. -/
theorem sent_of_mem_queue (h : (mbrokerMachine W sent).Reachable s) {obj : QueueObj}
    (hobj : obj ∈ s.pipe.queue) : ∃ i, ∃ m ∈ sent i, obj = (m.code.byte, m.proto) := by
  have hmem := (queue_prefix_of_reachable h).subset hobj
  obtain ⟨⟨i, m⟩, hwritten, rfl⟩ := List.mem_map.mp hmem
  refine ⟨i, m, ?_, rfl⟩
  rw [← (reachable_framed (reachable_wire h)).order i]
  apply List.mem_append_left
  exact List.mem_map.mpr ⟨(i, m), List.mem_filter.mpr ⟨hwritten, by simp⟩, rfl⟩

/-- What a worker has dequeued was enqueued. -/
theorem mem_queue_of_dequeued (h : (mbrokerMachine W sent).Reachable s)
    (hshort : s.written.length < 18446744073709551616) {w : W} {obj : QueueObj}
    (hworker : s.worker w = .dequeue) (hpc : s.queue.pc (some w) = .dequeued (some obj)) :
    obj ∈ s.pipe.queue := by
  have hmem := mem_removed_of_dequeued h hworker hpc
  rw [removed_eq_take h hshort] at hmem
  obtain ⟨obj', hobj', heq⟩ := List.mem_map.mp hmem
  obtain rfl := Option.some.inj heq
  exact List.mem_of_mem_take hobj'

/-- What a worker has in its handler. -/
def WorkerPoint.inHand : WorkerPoint → Multiset QueueObj
  | .loop | .dequeue => 0
  | .handle obj => {obj}

/-- The objects whose handlers have started. -/
def Mbroker.started (s : Mbroker ι W) : Multiset QueueObj :=
  (s.handled : Multiset QueueObj) + ∑ w, (s.worker w).inHand

/-- The log is that of the handlers' run, and the calls in it are those of the
objects whose handlers have started. -/
structure Mbroker.Logged (s : Mbroker ι W) (g : Log W Request (Option Reply)) : Prop where
  reachable : (loggedMachine W).ReachableBy (CallsAllowed NoPublisher) (s.handlers, g)
  called : ((g.called.map Prod.snd : List Request) : Multiset Request) =
    s.started.filterMap requestOf

theorem sum_inHand_update (worker : W → WorkerPoint) (w : W) (p : WorkerPoint) :
    ∑ u, (Function.update worker w p u).inHand + (worker w).inHand =
      ∑ u, (worker u).inHand + p.inHand := by
  have hsum := sum_add_of_eq_elsewhere (t := w)
    (f := fun u => (Function.update worker w p u).inHand) (g := fun u => (worker u).inHand)
    (fun u hu => by rw [Function.update_of_ne hu])
  rw [Function.update_self] at hsum
  exact hsum

/-- A step leaves the handlers alone, is one of theirs, or starts one for what a
worker has dequeued. -/
theorem Mbroker.Move.handlers {e : MbrokerEvent ι W} (h : s.Move e s') :
    s'.handlers = s.handlers ∧ s'.started = s.started ∨
    (∃ w, step brokerProgram s.handlers (.run w) = some s'.handlers ∧ s'.started = s.started) ∨
    ∃ w obj p, s.worker w = .dequeue ∧ s.queue.pc (some w) = .dequeued (some obj) ∧
      parseRequestStart obj = .ok p ∧ brokerProgram.act (s.handlers.pc w) = .idle ∧
      s'.handlers = s.handlers.goto w p ∧ s'.started = s.started + {obj} := by
  cases h with
  | @dequeue w hworker hidle =>
      refine .inl ⟨rfl, ?_⟩
      have hsum := sum_inHand_update s.worker w .dequeue
      rw [hworker, show WorkerPoint.dequeue.inHand = 0 from rfl,
        show WorkerPoint.loop.inHand = 0 from rfl, add_zero, add_zero] at hsum
      show _ + ∑ u, (Function.update s.worker w _ u).inHand = _
      rw [hsum]
      rfl
  | @take w obj p hworker hpc hstart hidle =>
      refine .inr (.inr ⟨w, obj, p, hworker, hpc, hstart, hidle, rfl, ?_⟩)
      have hsum := sum_inHand_update s.worker w (.handle obj)
      rw [hworker, show WorkerPoint.dequeue.inHand = 0 from rfl, add_zero] at hsum
      show _ + ∑ u, (Function.update s.worker w _ u).inHand = _
      rw [hsum, ← add_assoc]
      rfl
  | @free w obj reply hworker hpc =>
      refine .inl ⟨rfl, ?_⟩
      have hsum := sum_inHand_update s.worker w .loop
      rw [hworker, show WorkerPoint.loop.inHand = 0 from rfl, add_zero] at hsum
      show ((s.handled ++ [obj] : List QueueObj) : Multiset QueueObj) +
        ∑ u, (Function.update s.worker w _ u).inHand = s.started
      unfold Mbroker.started
      rw [← hsum, ← Multiset.coe_add, add_assoc, add_comm (∑ u, _)]
      rfl
  | handler hhandlers => exact .inr (.inl ⟨_, hhandlers, rfl⟩)
  | _ => exact .inl ⟨rfl, rfl⟩

theorem started_of_start (h : (mbrokerMachine W sent).start s) : s.started = 0 := by
  obtain ⟨-, -, -, -, hworker, -, -, hhandled, -⟩ := h
  unfold Mbroker.started
  rw [hhandled, Finset.sum_eq_zero fun w _ => by rw [hworker w]; rfl]
  rfl

omit [DecidableEq ι] in
/-- A step that starts no handler. -/
theorem Mbroker.Logged.congr {g : Log W Request (Option Reply)} (h : s.Logged g)
    (hhandlers : s'.handlers = s.handlers) (hstarted : s'.started = s.started) : s'.Logged g := by
  constructor
  · rw [hhandlers]
    exact h.reachable
  · rw [hstarted]
    exact h.called

omit [DecidableEq ι] in
/-- The handler of what worker `w` has dequeued starts. -/
theorem Mbroker.Logged.take {g : Log W Request (Option Reply)} {w : W} {obj : QueueObj}
    {p : BrokerPoint} (h : s.Logged g) (hstart : parseRequestStart obj = .ok p)
    (hallowed : NoPublisher p) (hidle : brokerProgram.act (s.handlers.pc w) = .idle)
    (hhandlers : s'.handlers = s.handlers.goto w p) (hstarted : s'.started = s.started + {obj}) :
    ∃ g', s'.Logged g' := by
  have hstep : (loggedMachine W).step (s.handlers, g) (.call w p) =
      some (s'.handlers, Log.update brokerView s.handlers (.call w p) s'.handlers g) := by
    apply Machine.ghost_step_eq_some.mpr
    rw [hhandlers]
    exact ⟨step_call_of_idle hidle (entry_of_parseRequestStart hstart), rfl⟩
  refine ⟨_, h.reachable.step ?_ hstep, ?_⟩
  · intro t k hcall
    cases hcall
    exact hallowed
  · have hrequest : requestOf obj = brokerView.request p := by
      rw [requestOf, hstart]
      rfl
    have hcalled := h.called
    rw [hstarted, Multiset.filterMap_add, ← hcalled]
    show ((g.called ++ _).map Prod.snd : List Request) = (_ : Multiset Request)
    rw [List.map_append, ← Multiset.coe_add]
    congr 1
    rw [← Multiset.cons_zero, Multiset.filterMap_cons, hrequest]
    cases brokerView.request p with
    | none => rfl
    | some request => rfl

omit [DecidableEq ι] in
/-- A step of a handler. -/
theorem Mbroker.Logged.handler {g : Log W Request (Option Reply)} {w : W} (h : s.Logged g)
    (hstep : step brokerProgram s.handlers (.run w) = some s'.handlers)
    (hstarted : s'.started = s.started) : ∃ g', s'.Logged g' := by
  have hlogged : (loggedMachine W).step (s.handlers, g) (.run w) =
      some (s'.handlers, Log.update brokerView s.handlers (.run w) s'.handlers g) := by
    apply Machine.ghost_step_eq_some.mpr
    exact ⟨hstep, rfl⟩
  refine ⟨_, h.reachable.step ?_ hlogged, ?_⟩
  · intro t k hcall
    cases hcall
  · rw [hstarted]
    exact h.called

/-- **Every run of the broker has a log.** -/
theorem reachable_logged [Fintype ι] (h : (mbrokerMachine W sent).Reachable s)
    (hsent : NoPublishers sent) (hshort : ∑ i, (sent i).length < 18446744073709551616) :
    ∃ g, s.Logged g := by
  induction h with
  | @start s hstart =>
      have hnone := started_of_start hstart
      obtain ⟨-, -, -, -, -, hhandlers, -⟩ := hstart
      refine ⟨⟨[], []⟩, .start ⟨hhandlers, rfl⟩, ?_⟩
      rw [hnone]
      rfl
  | @step s s' e hs _ hstep ih =>
      obtain ⟨g, hg⟩ := ih
      have hwritten := written_length_le hs
      rcases (mbrokerStep_cases hstep).handlers with ⟨hhandlers, hstarted⟩ | ⟨w, hrun, hstarted⟩ |
        ⟨w, obj, p, hworker, hpc, hstart, hidle, hhandlers, hstarted⟩
      · exact ⟨g, hg.congr hhandlers hstarted⟩
      · exact hg.handler hrun hstarted
      · have hqueue := mem_queue_of_dequeued hs (by omega) hworker hpc
        obtain ⟨i, m, hm, rfl⟩ := sent_of_mem_queue hs hqueue
        refine hg.take hstart (noPublisher_of_start ?_ hstart) hidle hhandlers hstarted
        rw [Code.ofByte_byte]
        intro hcode
        exact hsent i m hm (Option.some.inj hcode)

/-! ## The outcome -/

/-- The file system is what the sequential broker makes of the requests that
were handled, in some order. -/
def Mbroker.Sequential (s : Mbroker ι W) : Prop :=
  ∃ x₀ order, serialBroker.start x₀ ∧ serialBroker.run x₀ order = some s.handlers.shared ∧
    (order.map Prod.fst).Perm (s.handled.filterMap requestOf)

theorem sequential_of_settled [Fintype ι] (h : (mbrokerMachine W sent).Reachable s)
    (hsent : NoPublishers sent) (hshort : ∑ i, (sent i).length < 18446744073709551616)
    (hsettled : (mbrokerMachine W sent).Settled MbrokerEvent.isOwn s)
    (hsafe : ∀ w, ¬ s.FaultsAt w) (hserved : s.Served sent) : s.Sequential := by
  obtain ⟨g, hg⟩ := reachable_logged h hsent hshort
  obtain ⟨-, x₀, hx₀, hlin⟩ := brokerProgram_atomic.linearized brokerProgram_lockDiscipline
    hg.reachable
  have hreturned := returned_of_settled (reachable_handlers h) (handlers_settled hsettled)
  obtain ⟨hidle, hfree⟩ := hreturned.resolve_left fun ⟨w, hw⟩ => hsafe w (.inr hw)
  obtain ⟨x, hrun, hshared, -⟩ := hlin.serial
  refine ⟨x₀, g.served.map Prod.snd, hx₀, ?_, ?_⟩
  · rw [hrun]
    exact congrArg some (hshared hfree).symm
  · have hnone : s.started = (s.handled : Multiset QueueObj) := by
      unfold Mbroker.started
      rw [Finset.sum_eq_zero fun w _ => by rw [(hserved.waiting w).1]; rfl, add_zero]
    have hcalled := hg.called
    rw [hnone, Multiset.filterMap_coe] at hcalled
    -- every call has been served
    have hperm : g.called.Perm (g.served.map fun c => (c.1, c.2.1)) := by
      apply perm_of_ofThread_eq
      intro t
      obtain ⟨reply, hreply⟩ := hidle t
      have heach := hlin.each t
      rw [hreply, show brokerView.request (.idle reply) = none from rfl, Option.toList_none,
        List.append_nil] at heach
      rw [heach, ofThread_map]
    have hmap := hperm.map Prod.snd
    rw [List.map_map] at hmap
    rw [List.map_map]
    exact hmap.symm.trans (Multiset.coe_eq_coe.mp hcalled)

/-- A request whose handler has no assertion, with a box name that ends. -/
def Message.Harmless (m : Message) : Prop :=
  m.code ≠ .registerPublisher ∧ m.code ≠ .removeBoxRequest ∧
    (m.code = .createBoxRequest → ∃ box, requestBox m.proto = .ok box)

/-- The points of `create_box`, and the idle ones. -/
def NoAssertion : BrokerPoint → Prop
  | .idle _ | .createBox _ _ => True
  | .registerPublisher _ _ | .removeBox _ _ => False

theorem Message.Harmless.start {m : Message} (h : m.Harmless) :
    ∃ p, parseRequestStart (m.code.byte, m.proto) = .ok p ∧ NoAssertion p := by
  obtain ⟨hpublisher, hremove, hcreate⟩ := h
  unfold parseRequestStart
  rw [Code.ofByte_byte]
  cases hcode : m.code with
  | registerPublisher => exact absurd hcode hpublisher
  | removeBoxRequest => exact absurd hcode hremove
  | createBoxRequest =>
      obtain ⟨box, hbox⟩ := hcreate hcode
      refine ⟨.createBox box .lockOps, ?_, trivial⟩
      dsimp only
      rw [hbox]
      rfl
  | _ => exact ⟨.idle none, rfl, trivial⟩

theorem Move.noAssertion {p k : BrokerPoint} {x x' : Tfs} (hmove : Move p x k x')
    (hidle : ∀ reply, p ≠ .idle reply) (h : NoAssertion p) : NoAssertion k := by
  cases hmove with
  | quiet hmove =>
      cases hmove with
      | @enter reply => exact absurd rfl (hidle reply)
      | create | created => trivial
      | register | remove | rejected | registered | removed => exact h.elim
  | tfs hmove => cases hmove <;> trivial

/-- Whatever the file system answers, `create_box` goes on. -/
theorem createBoxStep_next {box : BoxName} {p : CreatePoint} {call : TfsCall}
    {next : Int → Except Fault BrokerPoint} (h : createBoxStep box p = .tfs call next) (r : Int) :
    ∃ k, next r = .ok k := by
  cases p with
  | lockOps | unlockOps => cases h
  | closeBox | closeFailed =>
      cases h
      exact ⟨_, rfl⟩
  | openBox | createFile =>
      cases h
      dsimp only
      split
      · exact ⟨_, rfl⟩
      · exact ⟨_, rfl⟩

omit [DecidableEq W] in
/-- `create_box` does not fail. -/
theorem nextFault_of_noAssertion {handlers : BrokerState W} (hs : Healthy handlers) {w : W}
    (h : NoAssertion (handlers.pc w)) : nextFault handlers w = none := by
  unfold nextFault
  cases hstep : brokerStep (handlers.pc w) with
  | tfs call next =>
      obtain ⟨r, x, hcall⟩ := hs.call_returns hstep
      have hnext : ∃ k, next r = .ok k := by
        cases hpc : handlers.pc w with
        | idle =>
            rw [hpc] at hstep
            cases hstep
        | registerPublisher | removeBox =>
            rw [hpc] at h
            exact h.elim
        | createBox box p =>
            rw [hpc] at hstep
            exact createBoxStep_next hstep r
      obtain ⟨k, hk⟩ := hnext
      dsimp only
      rw [hcall]
      dsimp only
      rw [hk]
  | _ => rfl

theorem reachable_noAssertion [Fintype ι] (h : (mbrokerMachine W sent).Reachable s)
    (hsent : ∀ i, ∀ m ∈ sent i, m.Harmless)
    (hshort : ∑ i, (sent i).length < 18446744073709551616) (w : W) :
    NoAssertion (s.handlers.pc w) := by
  induction h generalizing w with
  | start hstart =>
      obtain ⟨-, -, -, -, -, ⟨-, -, hpc⟩, -⟩ := hstart
      rw [hpc w]
      trivial
  | @step s s' e hs _ hstep ih =>
      have hwritten := written_length_le hs
      rcases (mbrokerStep_cases hstep).handlers with ⟨hhandlers, -⟩ | ⟨u, hrun, -⟩ |
        ⟨u, obj, p, hworker, hpc, hstart, -, hhandlers, -⟩
      · rw [hhandlers]
        exact ih w
      · have hbroker : (brokerMachine W).step s.handlers (.run u) = some s'.handlers := hrun
        obtain ⟨k, _, hmove, -, hpc⟩ := move_of_step hbroker
        have hrunning := isRunning_of_step hrun rfl
        simp only [Event.thread] at hmove hpc hrunning
        rw [hpc]
        by_cases hw : w = u
        · subst hw
          rw [Function.update_self]
          exact hmove.noAssertion (BrokerPoint.isRunning_iff.mp hrunning) (ih w)
        · rw [Function.update_of_ne hw]
          exact ih w
      · have hqueue := mem_queue_of_dequeued hs (by omega) hworker hpc
        obtain ⟨i, m, hm, rfl⟩ := sent_of_mem_queue hs hqueue
        obtain ⟨k, hk, hnew⟩ := (hsent i m hm).start
        rw [hk] at hstart
        cases hstart
        rw [hhandlers]
        by_cases hw : w = u
        · subst hw
          rw [State.goto_pc_self]
          exact hnew
        · rw [State.goto_pc_of_ne _ _ hw]
          exact ih w

/-- No worker ends the broker. -/
theorem safe_of_harmless [Fintype ι] (h : (mbrokerMachine W sent).Reachable s)
    (hsent : ∀ i, ∀ m ∈ sent i, m.Harmless)
    (hshort : ∑ i, (sent i).length < 18446744073709551616) (w : W) : ¬ s.FaultsAt w := by
  have hwritten := written_length_le h
  rintro (⟨obj, fault, hworker, hpc, hstart⟩ | hfault)
  · obtain ⟨i, m, hm, rfl⟩ := sent_of_mem_queue h (mem_queue_of_dequeued h (by omega) hworker hpc)
    obtain ⟨p, hp, -⟩ := (hsent i m hm).start
    rw [hp] at hstart
    cases hstart
  · apply hfault
    exact nextFault_of_noAssertion (broker_healthy (reachable_handlers h))
      (reachable_noAssertion h hsent hshort w)

theorem createProto_result : (requestBox createProto).toBool = true := by
  decide +kernel

theorem createProto_box : ∃ box, requestBox createProto = .ok box := by
  have hok := createProto_result
  cases hbox : requestBox createProto with
  | ok box => exact ⟨box, rfl⟩
  | error fault =>
      rw [hbox] at hok
      cases hok

theorem oneRequest_harmless (i : Unit) : ∀ m ∈ oneRequest i, m.Harmless := by
  intro m hm
  obtain rfl := List.mem_singleton.mp hm
  exact ⟨by simp, by simp, fun _ => createProto_box⟩

/-- The name that an object of the queue asks for. -/
def nameOf (obj : QueueObj) : Option (List UInt8) := (requestOf obj).bind Request.adds

/-- The names that the clients ask for. -/
def requested [Fintype ι] (sent : ι → List Message) : Finset (List UInt8) :=
  Finset.univ.biUnion fun i => ((sent i).filterMap fun m => nameOf (m.code.byte, m.proto)).toFinset

omit [DecidableEq ι] in
theorem mem_requested [Fintype ι] {n : List UInt8} :
    n ∈ requested sent ↔ ∃ i, ∃ m ∈ sent i, nameOf (m.code.byte, m.proto) = some n := by
  unfold requested
  simp only [Finset.mem_biUnion, Finset.mem_univ, true_and, List.mem_toFinset, List.mem_filterMap]

/-- What has been written was sent, if all of it has been. -/
theorem mem_objects {w : Written ι} (h : ∀ i, sentBy i w = sent i) {obj : QueueObj} :
    obj ∈ objects w ↔ ∃ i, ∃ m ∈ sent i, obj = (m.code.byte, m.proto) := by
  constructor
  · intro hobj
    obtain ⟨⟨i, m⟩, hmem, rfl⟩ := List.mem_map.mp hobj
    refine ⟨i, m, ?_, rfl⟩
    rw [← h i]
    exact List.mem_map.mpr ⟨(i, m), List.mem_filter.mpr ⟨hmem, by simp⟩, rfl⟩
  · rintro ⟨i, m, hm, rfl⟩
    rw [← h i] at hm
    obtain ⟨⟨j, m'⟩, hmem, rfl⟩ := List.mem_map.mp hm
    exact List.mem_map.mpr ⟨(j, m'), (List.mem_filter.mp hmem).1, rfl⟩

theorem Message.Harmless.request {m : Message} (h : m.Harmless) {request : Request}
    (hrequest : requestOf (m.code.byte, m.proto) = some request) :
    ∃ box, request = .createBox box := by
  obtain ⟨p, hp, hassert⟩ := h.start
  rw [requestOf, hp] at hrequest
  have hview : brokerView.request p = some request := hrequest
  cases p with
  | idle => cases hview
  | createBox box =>
      cases hview
      exact ⟨box, rfl⟩
  | registerPublisher | removeBox => exact hassert.elim

omit [Fintype W] [DecidableEq W] in
/-- The sequential broker makes all the boxes that it is asked for. -/
theorem boxes_of_sequential [Fintype ι] (hsent : ∀ i, ∀ m ∈ sent i, m.Harmless)
    (hroom : (requested sent).card ≤ maxBoxes) (hall : ∀ i, sentBy i s.written = sent i)
    (hhandled : s.handled.Perm (objects s.written)) (h : s.Sequential) :
    s.handlers.shared.service.boxes = requested sent := by
  obtain ⟨x₀, order, hx₀, hrun, hperm⟩ := h
  obtain ⟨t, hservice, -, ht⟩ := serialBroker_followedBy.run (gives_empty hx₀) hrun
  have hobj : ∀ obj, obj ∈ s.handled ↔ ∃ i, ∃ m ∈ sent i, obj = (m.code.byte, m.proto) :=
    fun obj => hhandled.mem_iff.trans (mem_objects hall)
  have horder : ∀ request, request ∈ order.map Prod.fst ↔
      ∃ i, ∃ m ∈ sent i, requestOf (m.code.byte, m.proto) = some request := by
    intro request
    rw [hperm.mem_iff, List.mem_filterMap]
    constructor
    · rintro ⟨obj, hmem, hrequest⟩
      obtain ⟨i, m, hm, rfl⟩ := (hobj obj).mp hmem
      exact ⟨i, m, hm, hrequest⟩
    · rintro ⟨i, m, hm, hrequest⟩
      exact ⟨_, (hobj _).mpr ⟨i, m, hm, rfl⟩, hrequest⟩
  have hcreations : ∀ c ∈ order, (∃ box, c.1 = .createBox box) ∧ ∀ n ∈ c.1.adds,
      n ∈ requested sent := by
    intro c hc
    obtain ⟨i, m, hm, hrequest⟩ := (horder c.1).mp (List.mem_map_of_mem hc)
    refine ⟨(hsent i m hm).request hrequest, ?_⟩
    intro n hn
    apply mem_requested.mpr
    exact ⟨i, m, hm, by rw [nameOf, hrequest]; exact hn⟩
  have hboxes := creations_boxes hroom (Finset.empty_subset _) hcreations hservice
  rw [ht]
  ext n
  rw [hboxes, mem_requested]
  constructor
  · rintro (hmem | ⟨c, hc, hn⟩)
    · cases hmem
    · obtain ⟨i, m, hm, hrequest⟩ := (horder c.1).mp (List.mem_map_of_mem hc)
      exact ⟨i, m, hm, by rw [nameOf, hrequest]; exact hn⟩
  · rintro ⟨i, m, hm, hname⟩
    obtain ⟨request, hrequest, hn⟩ := Option.bind_eq_some_iff.mp hname
    obtain ⟨c, hc, rfl⟩ := List.mem_map.mp ((horder request).mpr ⟨i, m, hm, hrequest⟩)
    exact .inr ⟨c, hc, hn⟩

/-- **Every box that is asked for is there in the end, and no other**, if the
clients only create boxes, of no more names than the directory has entries,
nobody interrupts the broker, and no call on a pipe fails. -/
theorem mbroker_creates [Fintype ι] [Nonempty W]
    {p : Machine.Exposed (Mbroker ι W) (Option W)} (h : (pipedMbroker W sent).Reachable p)
    (hsent : ∀ i, ∀ m ∈ sent i, m.Harmless)
    (hshort : ∑ i, (sent i).length < 18446744073709551616)
    (hroom : (requested sent).card ≤ maxBoxes) :
    (pipedMbroker W sent).Completes (Machine.ownExposed MbrokerEvent.isOwn)
      (fun p => PipeFailed p ∨ p.inner.main = .join ∨
        p.inner.handlers.shared.service.boxes = requested sent) p := by
  refine pipedMbroker_completes_of_settled
    (Q := fun s => s.main = .join ∨ s.handlers.shared.service.boxes = requested sent) h ?_
  intro s hs hsettled
  have hsafe := safe_of_harmless hs hsent hshort
  have hpublishers : NoPublishers sent := fun i m hm => (hsent i m hm).1
  have hserved := served_of_safe hs hsettled hshort hsafe
  by_cases hmain : s.main = .join
  · exact .inl hmain
  · have hsequential := sequential_of_settled hs hpublishers hshort hsettled hsafe hserved
    obtain ⟨-, -, hhandled⟩ := hserved.complete hmain
    exact .inr (boxes_of_sequential hsent hroom hserved.sent_all hhandled hsequential)

theorem oneRequest_requested : requested oneRequest = {[97]} := by
  decide +kernel

theorem pipedServeRun_creates : ∃ s₀ p, mbrokerStart Unit oneRequest = some s₀ ∧
    (pipedMbroker Unit oneRequest).run ⟨s₀, ∅, none⟩ pipedServeRun = some p ∧
    p.inner.handled.map Prod.fst = [3] ∧ p.failed = none ∧ requested oneRequest = {[97]} ∧
      (pipedMbroker Unit oneRequest).Completes (Machine.ownExposed MbrokerEvent.isOwn)
        (fun p => PipeFailed p ∨ p.inner.main = .join ∨
          p.inner.handlers.shared.service.boxes = requested oneRequest) ⟨s₀, ∅, none⟩ := by
  obtain ⟨s₀, p, hstart, hreach, hrun, hhandled, hlive⟩ := pipedServeRun_reachable
  have hroom : (requested oneRequest).card ≤ maxBoxes := by
    rw [oneRequest_requested]
    decide
  exact ⟨s₀, p, hstart, hrun, hhandled, hlive, oneRequest_requested,
    mbroker_creates hreach oneRequest_harmless (by decide) hroom⟩

end MBroker
