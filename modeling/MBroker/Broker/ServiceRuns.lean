import MBroker.Broker.Serial
import MBroker.Broker.ServiceHandlers

/-!
# The broker refines its service

The handlers one after the other are `BoxService`, reply for reply; with
`broker_linearizable` the workers are it too, as long as nobody registers a
publisher. The clients open their pipes and take what is written there: a
pipe that fails is in no answer of the service.
-/

namespace MBroker

open Threads Tfs

variable {x y : Tfs}

/-! ## The sequential broker is the service -/

/-- The file system `x` gives the service `s`. -/
def Gives (x : Tfs) (s : BoxService) : Prop := Ready x ∧ x.service = s

theorem serialBroker_followedBy : serialBroker.FollowedBy boxService Gives := by
  rintro x _ ⟨request, reply⟩ y ⟨hx, rfl⟩ hstep
  have hparse := serialBroker_step.mp hstep
  rcases hx.parseRequest_service request with ⟨reply', y', hok, hy, hservice⟩ | ⟨⟨msg, herror⟩, -⟩
  · rw [hok] at hparse
    obtain ⟨rfl, rfl⟩ := ok_pair_inj hparse
    exact ⟨y'.service, boxService_step.mpr hservice, hy, rfl⟩
  · rw [herror] at hparse
    cases hparse

theorem boxService_followedBy : boxService.FollowedBy serialBroker fun s x => Gives x s := by
  rintro _ x ⟨request, reply⟩ s' ⟨hx, rfl⟩ hstep
  have hhandle := boxService_step.mp hstep
  rcases hx.parseRequest_service request with ⟨reply', y', hok, hy, hservice⟩ | ⟨-, hnone⟩
  · rw [hservice] at hhandle
    obtain ⟨rfl, rfl⟩ := Prod.mk.inj (Option.some.inj hhandle)
    exact ⟨y', serialBroker_step.mpr hok, hy, rfl⟩
  · rw [hnone] at hhandle
    cases hhandle

theorem gives_empty (h : serialBroker.start x) : Gives x .empty := by
  obtain ⟨mallocs, hinit⟩ := h
  have hstart : TfsStart tfsDefaultParams mallocs x := hinit
  refine ⟨⟨hstart.emptyRoot.1.inv, hstart.sized tfsDefaultParams_inRange⟩, ?_⟩
  rw [Tfs.service, hstart.catalog]
  rfl

/-- **The handlers one after the other are the service**, for clients whose pipes
open and take the response: the same lists of requests and replies are possible,
publishers included, and the directory holds the service's boxes. -/
theorem serialBroker_service (h : serialBroker.start x) (cs : List (Request × Option Reply)) :
    ((serialBroker.run x cs).isSome ↔ (boxService.run .empty cs).isSome) ∧
      ∀ y, serialBroker.run x cs = some y → boxService.run .empty cs = some y.service := by
  have hgives := gives_empty h
  refine ⟨serialBroker_followedBy.run_isSome_iff boxService_followedBy hgives cs, ?_⟩
  intro y hrun
  obtain ⟨s, hservice, -, rfl⟩ := serialBroker_followedBy.run hgives hrun
  exact hservice

/-- `/a` is created, gets a publisher, and is removed. -/
def serialRun : List (Request × Option Reply) :=
  [(.createBox boxA, some (boxReply "")), (.registerPublisher boxA, none),
    (.createBox boxA, some (boxReply errBoxAlreadyExists)), (.removeBox boxA, none)]

theorem serialRun_result :
    ((brokerStart Unit).bind fun s => serialBroker.run s.shared serialRun).isSome = true := by
  decide +kernel

theorem serialRun_service : ∃ x, serialBroker.start x ∧ (serialBroker.run x serialRun).isSome ∧
    ((serialBroker.run x serialRun).isSome ↔ (boxService.run .empty serialRun).isSome) ∧
      ∀ y, serialBroker.run x serialRun = some y →
        boxService.run .empty serialRun = some y.service := by
  obtain ⟨y, hrun⟩ := Option.isSome_iff_exists.mp serialRun_result
  obtain ⟨s, hstart, hrun⟩ := Option.bind_eq_some_iff.mp hrun
  have hx : serialBroker.start s.shared := (brokerStart_start hstart).1
  exact ⟨s.shared, hx, by rw [hrun]; rfl, serialBroker_service hx serialRun⟩

/-! ## The workers are the service -/

section Workers

variable {T : Type*} [Fintype T] [DecidableEq T]
  {q : BrokerState T × Log T Request (Option Reply)}

omit [Fintype T] in
/-- What has been served is a run of the service. -/
theorem service_of_serialized {x₀ : Tfs} (hx₀ : serialBroker.start x₀)
    (hlin : Serialized x₀ q.1 q.2) :
    ∃ s, boxService.run .empty (q.2.served.map Prod.snd) = some s ∧
      (q.1.owner .tfsOps = none → q.1.shared.service = s) := by
  obtain ⟨x, hrun, hshared, -⟩ := hlin.serial
  obtain ⟨s, hservice, -, rfl⟩ := serialBroker_followedBy.run (gives_empty hx₀) hrun
  exact ⟨x.service, hservice, fun hfree => by rw [hshared hfree]⟩

/-- **Without publishers the workers are the service**: in every interleaving
the calls are answered as the service answers them, in one order that keeps
each worker's own, and between the calls its boxes are in the directory. -/
theorem broker_service (h : (loggedMachine T).ReachableBy (CallsAllowed NoPublisher) q) :
    (∃ s, boxService.run .empty (q.2.served.map Prod.snd) = some s ∧
      (q.1.owner .tfsOps = none → q.1.shared.service = s)) ∧
    (∀ t, ofThread t q.2.called = (ofThread t q.2.served).map Prod.fst ++
      (brokerView.request (q.1.pc t)).toList) ∧
    ∀ t reply, brokerView.answer (q.1.pc t) = some reply →
      ∃ request, (ofThread t q.2.served).getLast? = some (request, reply) := by
  obtain ⟨-, x₀, hx₀, hlin⟩ := brokerProgram_atomic.linearized brokerProgram_lockDiscipline h
  exact ⟨service_of_serialized hx₀ hlin, hlin.each, hlin.answered⟩

theorem overlapRun_service : ∃ q : BrokerState Bool × Log Bool Request (Option Reply),
    (q.2.served.map fun c => (c.1, c.2.2)) = [(false, some (boxReply "")), (true, none)] ∧
    (∃ s, boxService.run .empty (q.2.served.map Prod.snd) = some s ∧
      (q.1.owner .tfsOps = none → q.1.shared.service = s)) ∧
    (∀ t, ofThread t q.2.called = (ofThread t q.2.served).map Prod.fst ++
      (brokerView.request (q.1.pc t)).toList) ∧
    ∀ t reply, brokerView.answer (q.1.pc t) = some reply →
      ∃ request, (ofThread t q.2.served).getLast? = some (request, reply) := by
  obtain ⟨q, hreach, -, hserved⟩ := overlapRun_reachable
  exact ⟨q, hserved, broker_service hreach⟩

end Workers

end MBroker
