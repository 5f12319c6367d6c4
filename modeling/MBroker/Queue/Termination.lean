import MBroker.Lib.Liveness
import MBroker.Queue.Progress

/-!
# Every call runs to its end

A thread of the queue takes a bounded number of steps to its return or to
its next sleep, and a call signals once. An enqueuer brings the steps of
the popper that will take its element, a popper past its decrement those
of the pushers that its signal may wake. So a run is not longer than its
calls and its unasked wake-ups pay for, and in the state where it stops
everyone has returned, or sleeps for a good reason.
-/

namespace MBroker

open Threads

variable {α : Type*}

/-! ## What a thread has still to do -/

/-- The steps to the return, or to the sleep if that comes first; a sleeper
has none. -/
def EnqueuePoint.steps : EnqueuePoint → Nat
  | .asleep => 0
  | .waitPusher | .signalPopper => 1
  | .lateUnlockHead => 2
  | .unlockSize _ => 3
  | .storeSize _ _ => 4
  | .loadSize _ => 5
  | .unlockTail _ => 6
  | .storeTail _ _ => 7
  | .loadTail _ => 8
  | .storeElem _ _ => 9
  | .indexElem _ => 10
  | .unlockHead => 11
  | .compareTail _ => 12
  | .loadHead => 13
  | .lockHead => 14
  | .lockTail => 15
  | .checkFull _ => 16
  | .lockSize | .relockSize => 17

def DequeuePoint.steps : DequeuePoint α → Nat
  | .asleep => 0
  | .waitPopper | .signalPusher _ => 1
  | .lateUnlockTail _ => 2
  | .unlockSize _ _ => 3
  | .storeSize _ _ _ => 4
  | .loadSize _ _ => 5
  | .unlockHead _ _ => 6
  | .storeHead _ _ _ => 7
  | .reloadHead _ _ => 8
  | .clearSlot _ _ _ => 9
  | .indexSlot _ _ => 10
  | .loadElem _ _ => 11
  | .indexElem _ => 12
  | .unlockTail => 13
  | .compareTail _ => 14
  | .loadHead => 15
  | .lockTail => 16
  | .lockHead => 17
  | .checkEmpty _ => 18
  | .lockSize | .relockSize => 19

/-- The size counts the new element. -/
def EnqueuePoint.counted : EnqueuePoint → Bool
  | .unlockSize _ | .lateUnlockHead | .signalPopper => true
  | _ => false

/-- The size counts the removed element no longer. -/
def DequeuePoint.counted : DequeuePoint α → Bool
  | .unlockSize _ _ | .lateUnlockTail _ | .signalPusher _ => true
  | _ => false

/-- The weight of a point. A signal is worth `price`, an element in the
queue `elemPrice`, what the caller does with a removed one `use`. -/
def PcqPoint.weight (price elemPrice use : Nat) : PcqPoint α → Nat
  | .idle | .enqueued => 0
  | .dequeued _ => use
  | .enqueue _ p => p.steps + if p.counted then price else elemPrice + price
  | .dequeue p => p.steps + if p.counted then price + use else 0

section Weights

variable {price elemPrice use : Nat}

/-- A step of an enqueuer that is not its signal, with the element that it
adds. -/
theorem pcqEnqueue_weight (elem : α) (p : EnqueuePoint) {x x' : PcQueue α} {k : PcqPoint α}
    (h : pcqProgram.LocalStep (.enqueue elem p) x k x') (hp : p.asrt elem x)
    (hasleep : p ≠ .asleep) (hnosignal : p ≠ .signalPopper) :
    k.weight price elemPrice use + elemPrice * x'.pcqCurrentSize <
      (PcqPoint.enqueue elem p).weight price elemPrice use + elemPrice * x.pcqCurrentSize := by
  have hquiet : ∀ q : EnqueuePoint, q.steps < p.steps → q.counted = p.counted →
      (PcqPoint.enqueue elem q).weight price elemPrice use + elemPrice * x.pcqCurrentSize <
        (PcqPoint.enqueue elem p).weight price elemPrice use + elemPrice * x.pcqCurrentSize := by
    intro q hsteps hcounted
    simp only [PcqPoint.weight, hcounted]
    omega
  cases p with
  | asleep => exact absurd rfl hasleep
  | signalPopper => exact absurd rfl hnosignal
  | lockSize | waitPusher | relockSize | lockTail | lockHead | unlockHead | unlockTail
  | lateUnlockHead =>
      obtain ⟨rfl, rfl⟩ := h
      exact hquiet _ (by simp [EnqueuePoint.steps]) rfl
  | unlockSize must =>
      obtain ⟨rfl, rfl⟩ := h
      cases must
      · exact hquiet .signalPopper (by simp [EnqueuePoint.steps]) rfl
      · exact hquiet .lateUnlockHead (by simp [EnqueuePoint.steps]) rfl
  | checkFull | compareTail =>
      cases h
      dsimp only
      split
      · exact hquiet _ (by simp [EnqueuePoint.steps]) rfl
      · exact hquiet _ (by simp [EnqueuePoint.steps]) rfl
  | loadHead | loadTail | loadSize | storeTail =>
      cases h
      exact hquiet _ (by simp [EnqueuePoint.steps]) rfl
  | indexElem =>
      obtain ⟨_, _, h⟩ := Option.map_eq_some_iff.mp h
      cases h
      exact hquiet _ (by simp [EnqueuePoint.steps]) rfl
  | storeElem =>
      obtain ⟨_, hq, h⟩ := Option.map_eq_some_iff.mp h
      cases h
      cases PcQueue.storeSlot_eq_some hq
      exact hquiet _ (by simp [EnqueuePoint.steps]) rfl
  | storeSize must size =>
      obtain ⟨hp, rfl⟩ := hp
      cases h
      rw [hp.sizeAdd_eq]
      -- the element is in the queue now
      show 3 + price + elemPrice * (x.pcqCurrentSize + 1) <
        4 + (elemPrice + price) + elemPrice * x.pcqCurrentSize
      rw [Nat.mul_succ]
      omega

/-- A step of a popper, with the element that it takes out of the queue. -/
theorem pcqDequeue_weight (p : DequeuePoint α) {x x' : PcQueue α} {k : PcqPoint α}
    (h : pcqProgram.LocalStep (.dequeue p) x k x') (hmust : p.must = false) (hp : p.asrt x)
    (helem : price + use ≤ elemPrice) (hasleep : p ≠ .asleep)
    (hnosignal : ∀ first, p ≠ .signalPusher first) :
    k.weight price elemPrice use + elemPrice * x'.pcqCurrentSize <
      (PcqPoint.dequeue p).weight price elemPrice use + elemPrice * x.pcqCurrentSize := by
  have hquiet : ∀ q : DequeuePoint α, q.steps < p.steps → q.counted = p.counted →
      (PcqPoint.dequeue q).weight price elemPrice use + elemPrice * x.pcqCurrentSize <
        (PcqPoint.dequeue p).weight price elemPrice use + elemPrice * x.pcqCurrentSize := by
    intro q hsteps hcounted
    simp only [PcqPoint.weight, hcounted]
    omega
  cases p with
  | asleep => exact absurd rfl hasleep
  | signalPusher first => exact absurd rfl (hnosignal first)
  | lateUnlockTail => cases hmust
  | lockSize | waitPopper | relockSize | lockTail | lockHead | unlockTail | unlockHead =>
      obtain ⟨rfl, rfl⟩ := h
      exact hquiet _ (by simp [DequeuePoint.steps]) rfl
  | unlockSize must =>
      cases hmust
      obtain ⟨rfl, rfl⟩ := h
      exact hquiet (.signalPusher _) (by simp [DequeuePoint.steps]) rfl
  | checkEmpty | compareTail =>
      cases h
      dsimp only
      split
      · exact hquiet _ (by simp [DequeuePoint.steps]) rfl
      · exact hquiet _ (by simp [DequeuePoint.steps]) rfl
  | loadHead | reloadHead | loadSize | storeHead =>
      cases h
      exact hquiet _ (by simp [DequeuePoint.steps]) rfl
  | indexElem | loadElem | indexSlot =>
      obtain ⟨_, _, h⟩ := Option.map_eq_some_iff.mp h
      cases h
      exact hquiet _ (by simp [DequeuePoint.steps]) rfl
  | clearSlot =>
      obtain ⟨_, hq, h⟩ := Option.map_eq_some_iff.mp h
      cases h
      cases PcQueue.storeSlot_eq_some hq
      exact hquiet _ (by simp [DequeuePoint.steps]) rfl
  | storeSize must first size =>
      obtain ⟨hp, rfl⟩ := hp
      cases h
      rw [hp.sizeSub_eq]
      -- the element has left the queue, and its price is there for the signal
      obtain ⟨n, hn⟩ : ∃ n, x.pcqCurrentSize = n + 1 := Nat.exists_eq_add_one.mpr hp.2
      rw [hn]
      show 3 + (price + use) + elemPrice * n < 4 + 0 + elemPrice * (n + 1)
      rw [Nat.mul_succ]
      omega

/-- **The steps of the queue are paid for**, at any price of an element that
covers the signal of its popper and the popper's use of it. -/
theorem pcqProgram_potential {T : Type*} [Fintype T] {use : T → Nat}
    (hprice : Fintype.card T * 19 ≤ price) (helem : ∀ t, price + use t ≤ elemPrice) :
    Potential (pcqProgram (α := α)) PcqPoint.asrt (fun t => PcqPoint.weight price elemPrice (use t))
      (fun q => elemPrice * q.pcqCurrentSize) 19 where
  move := by
    intro t p x k x' h hp hrunning hnosignal
    cases p with
    | idle | enqueued | dequeued => cases hrunning
    | enqueue elem p =>
        apply pcqEnqueue_weight elem p h hp
        · rintro rfl
          cases hrunning
        · rintro rfl
          exact hnosignal _ _ rfl
    | dequeue p =>
        apply pcqDequeue_weight p h hp.1 hp.2 (helem t)
        · rintro rfl
          cases hrunning
        · rintro first rfl
          exact hnosignal _ _ rfl
  signal := by
    intro t p c k h
    cases p with
    | enqueue elem p =>
        cases p <;> cases h
        show 0 + Fintype.card T * 19 < 1 + price
        omega
    | dequeue p =>
        cases p <;> cases h
        show use t + Fintype.card T * 19 < 1 + (price + use t)
        omega
    | _ => cases h
  woken := by
    intro t p c k h
    cases p with
    | enqueue elem p =>
        cases p <;> cases h
        show 17 + (elemPrice + price) ≤ 0 + (elemPrice + price) + 19
        omega
    | dequeue p =>
        cases p <;> cases h
        exact Nat.le_refl 19
    | _ => cases h

end Weights

/-! ## Runs -/

section Runs

variable {T : Type*} [Fintype T] [DecidableEq T]
  {s s' : State T PcqMutex (PcqPoint α) (PcQueue α)}

/-- What a step adds to the work: a call its steps, an enqueuer's call the
popper's as well, and each the threads that its signal may wake. -/
def pcqCost (T : Type*) [Fintype T] : Event T (PcqPoint α) → Nat
  | .call _ (.enqueue _ _) => 18 + 38 * Fintype.card T
  | .call _ _ | .wake _ => 20
  | .run _ | .signal _ _ => 0

/-- The work that is left, in steps. -/
def pcqWork (s : State T PcqMutex (PcqPoint α) (PcQueue α)) : Nat :=
  s.potential (fun _ => PcqPoint.weight (19 * Fintype.card T) (19 * Fintype.card T) 0)
    fun q => 19 * Fintype.card T * q.pcqCurrentSize

omit [DecidableEq T] in
theorem pcqWork_potential :
    Potential (pcqProgram (α := α)) PcqPoint.asrt
      (fun _ : T => PcqPoint.weight (19 * Fintype.card T) (19 * Fintype.card T) 0)
      (fun q => 19 * Fintype.card T * q.pcqCurrentSize) 19 :=
  pcqProgram_potential (Nat.mul_comm _ _).le fun _ => Nat.le_refl _

theorem pcqMachine_paid : (pcqMachine T α).Paid (pcqCost T) pcqWork := by
  intro s e s' hs hstep
  change Threads.step pcqProgram s e = some s' at hstep
  cases e with
  | run | signal =>
      exact pcqWork_potential.own_lt (reachable_guarded hs).at_point hstep rfl
  | wake t =>
      have hle := pcqWork_potential.wake_le hstep
      show pcqWork s' < pcqWork s + 20
      exact Nat.lt_succ_of_le hle
  | call t p =>
      have hpay := potential_call
        (fun _ => PcqPoint.weight (19 * Fintype.card T) (19 * Fintype.card T) 0)
        (fun q => 19 * Fintype.card T * q.pcqCurrentSize) hstep
      obtain ⟨elem, rfl⟩ | rfl := entry_cases (idle_of_call hstep).2
      · show pcqWork s' < pcqWork s + (18 + 38 * Fintype.card T)
        have hweight : (PcqPoint.enqueue elem .lockSize).weight (19 * Fintype.card T)
            (19 * Fintype.card T) 0 = 17 + (19 * Fintype.card T + 19 * Fintype.card T) := rfl
        rw [hweight] at hpay
        unfold pcqWork
        omega
      · show pcqWork s' < pcqWork s + 20
        have hweight : (PcqPoint.dequeue (α := α) .lockSize).weight (19 * Fintype.card T)
            (19 * Fintype.card T) 0 = 19 := rfl
        rw [hweight] at hpay
        unfold pcqWork
        omega

/-- **Every run of the queue is finite**: a run from `pcq_create` takes no
more steps than its calls and its unasked wake-ups pay for. -/
theorem pcqRun_length_le (h : (pcqMachine T α).start s) {es : List (Event T (PcqPoint α))}
    (hrun : (pcqMachine T α).run s es = some s') : es.length ≤ (es.map (pcqCost T)).sum := by
  have hle := pcqMachine_paid.run_length_le (.start h) hrun
  have hzero : pcqWork s = 0 := by
    obtain ⟨⟨capacity, -, hshared⟩, -, hpc⟩ := h
    have hidle : ∀ t, (s.pc t).weight (19 * Fintype.card T) (19 * Fintype.card T) 0 = 0 := by
      intro t
      rw [hpc t]
      rfl
    unfold pcqWork State.potential
    rw [hshared, Finset.sum_eq_zero fun t _ => hidle t]
    rfl
  omega

/-- What is left when no thread can take a step by itself: who is in a call
sleeps, and could do nothing if it were woken. -/
structure Quiet (s : State T PcqMutex (PcqPoint α) (PcQueue α)) : Prop where
  outside_or_asleep : ∀ t, pcqProgram.act (s.pc t) = .idle ∨ s.pc t = .dequeue .asleep ∨
    ∃ elem, s.pc t = .enqueue elem .asleep
  free : ∀ m, s.owner m = none
  popper : (∃ t, s.pc t = .dequeue .asleep) → s.shared.pcqCurrentSize = 0
  pusher : (∃ t elem, s.pc t = .enqueue elem .asleep) →
    s.shared.pcqCurrentSize = s.shared.pcqCapacity

theorem PcqPoint.cases_of_not_running {p : PcqPoint α}
    (h : (pcqProgram.act p).isRunning = false) :
    pcqProgram.act p = .idle ∨ p = .dequeue .asleep ∨ ∃ elem, p = .enqueue elem .asleep := by
  cases p with
  | idle | enqueued | dequeued => exact .inl rfl
  | enqueue elem p =>
      cases p <;> cases h
      exact .inr (.inr ⟨elem, rfl⟩)
  | dequeue p =>
      cases p <;> cases h
      exact .inr (.inl rfl)

theorem PcqPoint.held_eq_empty {p : PcqPoint α} (h : (pcqProgram.act p).isRunning = false) :
    p.held = ∅ := by
  rcases PcqPoint.cases_of_not_running h with hidle | rfl | ⟨elem, rfl⟩
  · exact PcqPoint.held_of_idle hidle
  · rfl
  · rfl

theorem PcqPoint.isRunning_of_held {p : PcqPoint α} {m : PcqMutex} (h : m ∈ p.held) :
    (pcqProgram.act p).isRunning := by
  by_contra hno
  rw [PcqPoint.held_eq_empty (by simpa using hno)] at h
  cases h

/-- In a settled state of the queue nobody is running. -/
theorem not_running_of_settled (h : (pcqMachine T α).Reachable s)
    (hsettled : (pcqMachine T α).Settled (fun e => e.isOwn) s) (t : T) :
    (pcqProgram.act (s.pc t)).isRunning = false := by
  refine pcqProgram_lockOrder.settled (reachable_owned h)
    (fun _ _ => PcqPoint.isRunning_of_held) hsettled ?_ t
  rintro u ⟨f, hact, hnone⟩
  have hsome := reachable_access_isSome h hact
  rw [hnone] at hsome
  cases hsome

omit [DecidableEq T] in
/-- Nobody is at a point with the property. -/
theorem count_eq_zero_of_not_running {b : PcqPoint α → Bool}
    (hb : ∀ p, b p → (pcqProgram.act p).isRunning)
    (h : ∀ t, (pcqProgram.act (s.pc t)).isRunning = false) : s.count b = 0 := by
  apply Finset.card_eq_zero.mpr
  apply Finset.filter_eq_empty_iff.mpr
  intro t _ ht
  have hrunning := hb _ ht
  rw [h t] at hrunning
  cases hrunning

theorem quiet_of_settled (h : (pcqMachine T α).Reachable s)
    (hsettled : (pcqMachine T α).Settled (fun e => e.isOwn) s) : Quiet s := by
  have hnone := not_running_of_settled h hsettled
  have hwakeups := reachable_noLostWakeup h
  have hfree : ∀ m, s.owner m = none := by
    intro m
    cases howner : s.owner m with
    | none => rfl
    | some t =>
        have hmem := (reachable_owned h t m).mp howner
        rw [PcqPoint.held_eq_empty (hnone t)] at hmem
        cases hmem
  constructor
  case outside_or_asleep => exact fun t => PcqPoint.cases_of_not_running (hnone t)
  case free => exact hfree
  case popper =>
    rintro ⟨t, ht⟩
    apply hwakeups.popper_settled (hfree _)
    · apply count_eq_zero_of_not_running _ hnone
      intro p hp
      cases p with
      | enqueue elem p => cases p <;> first | rfl | cases hp
      | _ => cases hp
    · apply count_eq_zero_of_not_running _ hnone
      intro p hp
      cases p with
      | dequeue p => cases p <;> first | rfl | cases hp
      | _ => cases hp
    · exact ⟨t, by rw [ht]; rfl⟩
  case pusher =>
    rintro ⟨t, elem, ht⟩
    apply hwakeups.pusher_settled (hfree _)
    · apply count_eq_zero_of_not_running _ hnone
      intro p hp
      cases p with
      | dequeue p => cases p <;> first | rfl | cases hp
      | _ => cases hp
    · apply count_eq_zero_of_not_running _ hnone
      intro p hp
      cases p with
      | enqueue elem p => cases p <;> first | rfl | cases hp
      | _ => cases hp
    · exact ⟨t, by rw [ht]; rfl⟩

/-- **No call hangs**: the calls that have been made return, up to those of
sleeping poppers, with an empty queue, and of sleeping pushers, with a full
one. -/
theorem pcqMachine_completes (h : (pcqMachine T α).Reachable s) :
    (pcqMachine T α).Completes (fun e => e.isOwn) Quiet s := by
  apply pcqMachine_paid.completes _ (fun _ => quiet_of_settled) h
  intro e he
  cases e with
  | run | signal => rfl
  | call | wake => cases he

end Runs

/-- One thread fills a queue of one slot and goes to sleep in its next call. -/
def fillQueue : List (Event Unit (PcqPoint Nat)) :=
  .call () (.enqueue 7 .lockSize) :: List.replicate 15 (.run ()) ++
    [.signal () ∅, .call () (.enqueue 8 .lockSize), .run (), .run (), .run ()]

theorem fillQueue_result :
    ((pcqMachine Unit Nat).run (pcqStart Unit 1) fillQueue).map
      (fun s => (s.pc (), s.shared.inserted)) = some (.enqueue 8 .asleep, [7]) := by
  decide +kernel

theorem fillQueue_length_le : ∃ s, (pcqMachine Unit Nat).run (pcqStart Unit 1) fillQueue =
    some s ∧ fillQueue.length ≤ (fillQueue.map (pcqCost Unit)).sum := by
  obtain ⟨s, hrun, -⟩ := Option.map_eq_some_iff.mp fillQueue_result
  exact ⟨s, hrun, pcqRun_length_le ⟨⟨1, by decide, rfl⟩, fun _ => rfl, fun _ => rfl⟩ hrun⟩

theorem fillQueue_completes : ∃ s, (pcqMachine Unit Nat).run (pcqStart Unit 1) fillQueue =
    some s ∧ s.pc () = .enqueue 8 .asleep ∧
      (pcqMachine Unit Nat).Completes (fun e => e.isOwn) Quiet s := by
  obtain ⟨s, hrun, hobs⟩ := Option.map_eq_some_iff.mp fillQueue_result
  have hreach := (pcqStart_reachable Unit (by decide)).run (by simp) hrun
  exact ⟨s, hrun, congrArg Prod.fst hobs, pcqMachine_completes hreach⟩

end MBroker
