import MBroker.Broker.OrderlyWorkers

/-!
# Orderly clients

When the requests of all clients together are orderly, no assertion about
the file system fails, whatever the order in which the workers take the
requests, publishers included, and in the end the boxes that were asked for
are there.
-/

namespace MBroker

open Threads Tfs

/-! ## Their requests -/

section Clients

variable {ι W : Type} [DecidableEq ι] [Fintype W] [DecidableEq W] {sent : ι → List Message}
  {s s' : Mbroker ι W}

/-- The request of an object of the queue, if its handler has something to do. -/
def askedBy (obj : QueueObj) : Multiset Request :=
  match parseRequestStart obj with
  | .ok p => p.serving
  | .error _ => 0

def requestsOf (objs : Multiset QueueObj) : Multiset Request := objs.bind askedBy

/-- The requests of all clients. -/
def allRequests [Fintype ι] (sent : ι → List Message) : Multiset Request :=
  requestsOf (∑ i, (((sent i).map fun m => (m.code.byte, m.proto) : List QueueObj) :
    Multiset QueueObj))

theorem requestsOf_mono {objs objs' : Multiset QueueObj} (h : objs ≤ objs') :
    requestsOf objs ≤ requestsOf objs' := by
  obtain ⟨rest, rfl⟩ := Multiset.le_iff_exists_add.mp h
  rw [requestsOf, requestsOf, Multiset.add_bind]
  exact Multiset.le_add_right ..

/-- What has been written, by clients. -/
theorem objects_eq_sum [Fintype ι] (w : Written ι) :
    (objects w : Multiset QueueObj) =
      ∑ i, (((sentBy i w).map fun m => (m.code.byte, m.proto) : List QueueObj) :
        Multiset QueueObj) := by
  induction w with
  | nil => exact (Finset.sum_eq_zero fun _ _ => rfl).symm
  | cons p w ih =>
      obtain ⟨j, m⟩ := p
      have hcons : ∀ i, (((sentBy i ((j, m) :: w)).map fun m => (m.code.byte, m.proto) :
          List QueueObj) : Multiset QueueObj) =
          (if j = i then {(m.code.byte, m.proto)} else 0) +
            (((sentBy i w).map fun m => (m.code.byte, m.proto) : List QueueObj) :
              Multiset QueueObj) := by
        intro i
        unfold sentBy
        by_cases hi : j = i
        · simp [hi]
        · simp [hi]
      rw [Finset.sum_congr rfl fun i _ => hcons i, Finset.sum_add_distrib, Finset.sum_ite_eq, ← ih,
        if_pos (Finset.mem_univ _)]
      rfl

theorem mem_askedBy {obj : QueueObj} {request : Request} (hadds : request.adds ≠ none) :
    request ∈ askedBy obj ↔ requestOf obj = some request := by
  unfold askedBy requestOf
  cases parseRequestStart obj with
  | error => simp [Except.toOption]
  | ok p =>
      cases p with
      | registerPublisher box =>
          refine iff_of_false (fun hmem => ?_) fun hrequest => ?_
          · rw [Multiset.mem_singleton.mp hmem] at hadds
            exact hadds rfl
          · cases hrequest
      | idle | createBox | removeBox =>
          simp [Except.toOption, BrokerPoint.serving, brokerView, eq_comm]

omit [DecidableEq ι] in
/-- The names of the requests are those that the clients ask for. -/
theorem namesOf_allRequests [Fintype ι] : namesOf (allRequests sent) = requested sent := by
  ext n
  rw [mem_namesOf, mem_requested]
  constructor
  · rintro ⟨request, hmem, hadds⟩
    obtain ⟨obj, hobj, hasked⟩ := Multiset.mem_bind.mp hmem
    obtain ⟨i, -, hobj⟩ := Multiset.mem_sum.mp hobj
    obtain ⟨m, hm, rfl⟩ := List.mem_map.mp (Multiset.mem_coe.mp hobj)
    refine ⟨i, m, hm, ?_⟩
    rw [nameOf, (mem_askedBy (by rw [hadds]; simp)).mp hasked]
    exact hadds
  · rintro ⟨i, m, hm, hname⟩
    obtain ⟨request, hrequest, hadds⟩ := Option.bind_eq_some_iff.mp hname
    refine ⟨request, Multiset.mem_bind.mpr ⟨(m.code.byte, m.proto), ?_, ?_⟩, hadds⟩
    · exact Multiset.mem_sum.mpr
        ⟨i, Finset.mem_univ i, Multiset.mem_coe.mpr (List.mem_map.mpr ⟨m, hm, rfl⟩)⟩
    · exact (mem_askedBy (by rw [hadds]; simp)).mpr hrequest

/-- The clients write nothing else than they have to send. -/
theorem requestsOf_written_le [Fintype ι] (h : (mbrokerMachine W sent).Reachable s) :
    requestsOf (objects s.written : Multiset QueueObj) ≤ allRequests sent := by
  apply requestsOf_mono
  rw [objects_eq_sum]
  apply Finset.sum_le_sum
  intro i _
  rw [← (reachable_framed (reachable_wire h)).order i, List.map_append, ← Multiset.coe_add]
  exact Multiset.le_add_right ..

/-- What has been handled, or is being handled, has been written. -/
theorem started_le (h : (mbrokerMachine W sent).Reachable s)
    (hshort : s.written.length < 18446744073709551616) :
    s.started ≤ (objects s.written : Multiset QueueObj) := by
  have hconsistent := reachable_consistent h
  have hhand : ∀ w, (s.worker w).inHand.map some ≤ s.holds w := by
    intro w
    cases hworker : s.worker w with
    | loop | dequeue => exact Multiset.zero_le _
    | handle obj =>
        have hw := hconsistent.worker_at w
        rw [hworker] at hw
        rw [Mbroker.holds_of_ne_loop (by rw [hworker]; simp), hw.handle_cases]
        exact le_rfl
  have hremoved := hconsistent.removed
  rw [removed_eq_take h hshort, ← Multiset.map_coe] at hremoved
  have hle : s.started.map some ≤
      ((s.pipe.queue.take s.queue.shared.removed.length : List QueueObj) :
        Multiset QueueObj).map some := by
    rw [hremoved, Mbroker.started, Multiset.map_add]
    apply add_le_add
    · exact le_rfl
    · rw [← Multiset.coe_mapAddMonoidHom, map_sum]
      exact Finset.sum_le_sum fun w _ => hhand w
  have htake := (Multiset.map_le_map_iff (Option.some_injective _)).mp hle
  refine htake.trans (Multiset.coe_le.mpr ?_)
  exact ((List.take_sublist ..).trans (queue_prefix_of_reachable h).sublist).subperm

/-- **The workers have room in every run of orderly clients.** -/
theorem reachable_within [Fintype ι] (h : (mbrokerMachine W sent).Reachable s)
    (ho : Orderly (allRequests sent))
    (hshort : ∑ i, (sent i).length < 18446744073709551616) :
    Within (requestsOf s.started) s.handlers ∧ Marked s.handlers := by
  induction h with
  | start hstart =>
      rw [started_of_start hstart]
      obtain ⟨-, -, -, -, -, hhandlers, -⟩ := hstart
      exact ⟨.start hhandlers, reachable_marked (.start hhandlers)⟩
  | @step s s' e hs _ hstep ih =>
      obtain ⟨hwithin, hmarked⟩ := ih
      have hwritten := written_length_le hs
      have hreach := reachable_handlers hs
      have hinv := (broker_healthy hreach).inv
      have hstarted := ho.mono ((requestsOf_mono (started_le hs (by omega))).trans
        (requestsOf_written_le hs))
      rcases (mbrokerStep_cases hstep).handlers with ⟨hhandlers, hsame⟩ | ⟨w, hrun, hsame⟩ |
        ⟨w, obj, p, -, -, hstart, hidle, hhandlers, hnew⟩
      · rw [hhandlers, hsame]
        exact ⟨hwithin, hmarked⟩
      · rw [hsame]
        have hrunning := BrokerPoint.isRunning_iff.mp (isRunning_of_step hrun rfl)
        have hmeets : PublisherMeets s.handlers (.run w) := hwithin.publisherMeets hstarted w
        exact ⟨hwithin.step hstarted (broker_healthy hreach) hrunning hrun,
          hmarked.step hinv (broker_owned hreach) hmeets hrun⟩
      · obtain ⟨reply, hreply⟩ := idle_of_act hidle
        have hentry := entry_of_parseRequestStart hstart
        have hcall : (brokerMachine W).step s.handlers (.call w p) = some s'.handlers := by
          rw [hhandlers]
          exact step_call_of_idle hidle hentry
        have hasked : requestsOf (s.started + {obj}) = p.serving + requestsOf s.started := by
          rw [requestsOf, Multiset.add_bind, Multiset.singleton_bind, askedBy, hstart, add_comm]
          rfl
        rw [hnew, hasked]
        refine ⟨?_, hmarked.step hinv (broker_owned hreach) ?_ hcall⟩
        · rw [hhandlers]
          exact hwithin.goto hreply hentry
        · show PublisherMeetsAt s.handlers (s.handlers.pc w)
          rw [hreply]
          trivial

/-- The requests are orderly, and their box names have an end. -/
structure OrderlyClients [Fintype ι] (sent : ι → List Message) : Prop where
  requests : Orderly (allRequests sent)
  terminated : ∀ i, ∀ m ∈ sent i, ∃ p, parseRequestStart (m.code.byte, m.proto) = .ok p

/-- No worker ends the broker. -/
theorem safe_of_orderly [Fintype ι] (h : (mbrokerMachine W sent).Reachable s)
    (hsent : OrderlyClients sent)
    (hshort : ∑ i, (sent i).length < 18446744073709551616) (w : W) : ¬ s.FaultsAt w := by
  have hwritten := written_length_le h
  rintro (⟨obj, fault, hworker, hpc, hstart⟩ | hfault)
  · obtain ⟨i, m, hm, rfl⟩ := sent_of_mem_queue h (mem_queue_of_dequeued h (by omega) hworker hpc)
    obtain ⟨p, hp⟩ := hsent.terminated i m hm
    rw [hp] at hstart
    cases hstart
  · have hhealthy := broker_healthy (reachable_handlers h)
    obtain ⟨hwithin, hmarked⟩ := reachable_within h hsent.requests hshort
    have ho := hsent.requests.mono ((requestsOf_mono (started_le h (by omega))).trans
      (requestsOf_written_le h))
    exact hfault (hhealthy.nextFault_of_room hmarked (hwithin.roomAt ho hhealthy w))

/-- When the requests are served, the boxes are the names that they ask for. -/
theorem boxes_of_orderly [Fintype ι] (h : (mbrokerMachine W sent).Reachable s)
    (hsent : OrderlyClients sent) (hshort : ∑ i, (sent i).length < 18446744073709551616)
    (hserved : s.Served sent) (hmain : s.main ≠ .join) :
    s.handlers.shared.service.boxes = requested sent := by
  obtain ⟨hwithin, -⟩ := reachable_within h hsent.requests hshort
  have hidle : ∀ w, ∃ reply, s.handlers.pc w = .idle reply := by
    intro w
    have hw := (reachable_consistent h).worker_at w
    rw [(hserved.waiting w).1] at hw
    exact hw.dequeue_cases
  have hall : requestsOf s.started = allRequests sent := by
    have hhand : ∑ w, (s.worker w).inHand = 0 :=
      Finset.sum_eq_zero fun w _ => by rw [(hserved.waiting w).1]; rfl
    rw [Mbroker.started, hhand, add_zero, Multiset.coe_eq_coe.mpr (hserved.complete hmain).2.2,
      objects_eq_sum, allRequests]
    simp only [hserved.sent_all]
  rw [hall] at hwithin
  rw [← namesOf_allRequests]
  ext n
  constructor
  · intro hn
    rcases hwithin.origins.names n hn with hname | ⟨w, box, hmarked, -⟩
    · exact hname
    · obtain ⟨reply, hpc⟩ := hidle w
      rw [hpc] at hmarked
      cases hmarked
  · intro hn
    rcases hwithin.added n hn with hthere | ⟨w, hw⟩
    · exact hthere
    · obtain ⟨reply, hpc⟩ := hidle w
      rw [hpc] at hw
      cases hw

end Clients

theorem createAndRegister_requests : allRequests createAndRegister =
    {.createBox boxA, .registerPublisher boxA} := by
  decide +kernel

theorem createAndRegister_orderly : OrderlyClients createAndRegister where
  requests := by
    rw [createAndRegister_requests]
    constructor
    · simp
    · intro box
      rw [Multiset.insert_eq_cons, Multiset.count_cons, Multiset.count_singleton]
      split <;> simp
    · decide +kernel
    · decide
    · decide +kernel
  terminated := by
    intro i m hm
    obtain ⟨box, hbox⟩ := createProto_box
    rcases List.mem_append.mp hm with hm | hm
    · obtain rfl := List.mem_singleton.mp hm
      exact ⟨.createBox box .lockOps, by rw [parseRequestStart, Code.ofByte_byte, hbox]; rfl⟩
    · obtain rfl := List.mem_singleton.mp hm
      exact ⟨.registerPublisher box .openBox, by
        rw [parseRequestStart, Code.ofByte_byte, hbox]; rfl⟩

/-- `markRun`, in which the clients open their pipes and the first takes its
response. -/
def pipedMarkRun : List (Machine.ExposedInput (MbrokerEvent Unit Unit) (Option Unit)) :=
  deliverRun.map .inner ++ [.returns (some ())] ++ List.replicate 4 (.inner (.handler ())) ++
    [.returns (some ()), .inner (.worker ()), .inner .main] ++ deliverRun.map .inner ++
    [.returns (some ())] ++ List.replicate 4 (.inner (.handler ()))

theorem pipedMarkRun_result :
    ((mbrokerStart Unit createAndRegister).bind fun s =>
      (pipedMbroker Unit createAndRegister).run ⟨s, ∅, none⟩ pipedMarkRun).map
        (fun p => (p.inner.handlers.shared.service.boxes, p.failed.isNone)) =
      some ({[97], [97, 46, 112, 117, 98]}, true) := by
  decide +kernel

end MBroker
