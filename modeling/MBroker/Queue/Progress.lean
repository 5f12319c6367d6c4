import MBroker.Queue.Fifo

/-!
# Nobody is stuck in the queue

No cycle of threads is blocked on the three mutexes, and no wake-up is
lost. A signal is sent after the size lock has been released and wakes
one thread, and a newcomer may take the element or the slot first. What
survives every interleaving is a count: while a popper sleeps, each
element is owed to a thread that will signal, that has been woken and has
not looked yet, or that has seen the element and is taking it.
-/

namespace MBroker

open Threads

variable {α T : Type*} [Fintype T] [DecidableEq T]
  {s : State T PcqMutex (PcqPoint α) (PcQueue α)}

/-! ## Deadlock -/

structure NoDeadlock (s : State T PcqMutex (PcqPoint α) (PcQueue α)) : Prop where
  no_wait_cycle : ∀ t, ¬ Relation.TransGen (WaitsFor pcqProgram s) t t
  owner_releases : ∀ t m, (pcqProgram.act (s.pc t)).releases = some m → s.owner m = some t
  sleeper_holds_none : ∀ t c k, pcqProgram.act (s.pc t) = .asleep c k → ∀ m, s.owner m ≠ some t
  returned_holds_none : ∀ t, pcqProgram.act (s.pc t) = .idle → ∀ m, s.owner m ≠ some t
  tail_not_kept : ∀ t p, s.pc t = .dequeue p → p.must = false

theorem PcqPoint.held_of_asleep {p k : PcqPoint α} {c : PcqCondvar}
    (h : pcqProgram.act p = .asleep c k) : p.held = ∅ := by
  cases p with
  | enqueue elem p =>
      cases p <;> cases h
      rfl
  | dequeue p =>
      cases p <;> cases h
      rfl
  | _ => cases h

theorem PcqPoint.held_of_idle {p : PcqPoint α} (h : pcqProgram.act p = .idle) : p.held = ∅ := by
  cases p with
  | enqueue elem p => cases p <;> cases h
  | dequeue p => cases p <;> cases h
  | _ => rfl

/-- **The three-lock protocol cannot deadlock.** -/
theorem reachable_noDeadlock (h : (pcqMachine T α).Reachable s) : NoDeadlock s := by
  have hown := reachable_owned h
  have hnone : ∀ t, (s.pc t).held = ∅ → ∀ m, s.owner m ≠ some t := by
    intro t hempty m howner
    have hmem := (hown t m).mp howner
    simp [hempty] at hmem
  constructor
  case no_wait_cycle => exact fun t => pcqProgram_lockOrder.no_cycle hown
  case owner_releases =>
    intro t m hrelease
    exact (hown t m).mpr (pcqProgram_lockDiscipline.release _ _ hrelease)
  case sleeper_holds_none => exact fun t c k hact => hnone t (PcqPoint.held_of_asleep hact)
  case returned_holds_none => exact fun t hact => hnone t (PcqPoint.held_of_idle hact)
  case tail_not_kept =>
    intro t p hp
    have hasrt := (reachable_guarded h).at_point t
    rw [hp] at hasrt
    exact hasrt.1

theorem handoverDone_noDeadlock :
    ∃ s, (pcqMachine (Fin 3) Nat).run (pcqStart (Fin 3) 1) handoverDone = some s ∧
      s.pc 0 = .dequeued (some 7) ∧ NoDeadlock s := by
  obtain ⟨s, hrun, hobs⟩ := Option.map_eq_some_iff.mp handoverDone_result
  have hreach := (pcqStart_reachable (Fin 3) (by decide)).run (by simp) hrun
  exact ⟨s, hrun, congrArg Prod.fst hobs, reachable_noDeadlock hreach⟩

/-! ## Wake-ups -/

namespace PcqPoint

/-- An enqueuer that has incremented the size and not yet signalled. -/
def popperSignalDue : PcqPoint α → Bool
  | .enqueue _ (.unlockSize _) | .enqueue _ .lateUnlockHead | .enqueue _ .signalPopper => true
  | _ => false

/-- A popper that has been woken and is not yet past its check. -/
def popperWoken : PcqPoint α → Bool
  | .dequeue .relockSize | .dequeue (.checkEmpty true) => true
  | _ => false

/-- A popper past its check that has not yet decremented the size. -/
def popperTaking : PcqPoint α → Bool
  | .dequeue p =>
      match p with
      | .lockHead | .lockTail | .loadHead | .compareTail _ | .unlockTail | .indexElem _
      | .loadElem _ _ | .indexSlot _ _ | .clearSlot _ _ _ | .reloadHead _ _ | .storeHead _ _ _
      | .unlockHead _ _ | .loadSize _ _ | .storeSize _ _ _ => true
      | _ => false
  | _ => false

/-- A dequeuer that has decremented the size and not yet signalled. -/
def pusherSignalDue : PcqPoint α → Bool
  | .dequeue (.unlockSize _ _) | .dequeue (.lateUnlockTail _) | .dequeue (.signalPusher _) => true
  | _ => false

/-- A pusher that has been woken and is not yet past its check. -/
def pusherWoken : PcqPoint α → Bool
  | .enqueue _ .relockSize | .enqueue _ (.checkFull true) => true
  | _ => false

/-- A pusher past its check that has not yet incremented the size. -/
def pusherAdding : PcqPoint α → Bool
  | .enqueue _ p =>
      match p with
      | .lockTail | .lockHead | .loadHead | .compareTail _ | .unlockHead | .indexElem _
      | .storeElem _ _ | .loadTail _ | .storeTail _ _ | .unlockTail _ | .loadSize _
      | .storeSize _ _ => true
      | _ => false
  | _ => false

/-- The wake-ups that a thread at the point owes to the poppers. -/
def owesPoppers (p : PcqPoint α) : Nat :=
  p.popperSignalDue.toNat + p.popperWoken.toNat + p.popperTaking.toNat

def owesPushers (p : PcqPoint α) : Nat :=
  p.pusherSignalDue.toNat + p.pusherWoken.toNat + p.pusherAdding.toNat

end PcqPoint

/-- The wake-ups owed never fall below what a step leaves unpaid. -/
theorem pcqEnqueue_popperDebt (elem : α) (p : EnqueuePoint) {x x' : PcQueue α} {k : PcqPoint α}
    (h : pcqProgram.LocalStep (.enqueue elem p) x k x') (hp : p.asrt elem x)
    (hnosignal : p ≠ .signalPopper) :
    ¬ (pcqProgram.act k).isAsleep .pcqPopperCondvar ∧
      x'.pcqCurrentSize + (PcqPoint.enqueue elem p).owesPoppers ≤
        x.pcqCurrentSize + k.owesPoppers := by
  cases p with
  | lockSize | waitPusher | asleep | relockSize | lockTail | lockHead | unlockHead | unlockTail
  | lateUnlockHead =>
      obtain ⟨rfl, rfl⟩ := h
      exact ⟨Bool.false_ne_true, le_rfl⟩
  | signalPopper => exact absurd rfl hnosignal
  | unlockSize must =>
      obtain ⟨rfl, rfl⟩ := h
      cases must <;> exact ⟨Bool.false_ne_true, le_rfl⟩
  | checkFull | compareTail =>
      cases h
      dsimp only
      split <;> exact ⟨Bool.false_ne_true, le_rfl⟩
  | loadHead | loadTail | loadSize | storeTail =>
      cases h
      exact ⟨Bool.false_ne_true, le_rfl⟩
  | indexElem =>
      obtain ⟨_, _, h⟩ := Option.map_eq_some_iff.mp h
      cases h
      exact ⟨Bool.false_ne_true, le_rfl⟩
  | storeElem =>
      obtain ⟨_, hq, h⟩ := Option.map_eq_some_iff.mp h
      cases h
      cases PcQueue.storeSlot_eq_some hq
      exact ⟨Bool.false_ne_true, le_rfl⟩
  | storeSize must size =>
      obtain ⟨hp, rfl⟩ := hp
      cases h
      rw [hp.sizeAdd_eq]
      exact ⟨Bool.false_ne_true, le_rfl⟩

theorem pcqDequeue_popperDebt (p : DequeuePoint α) {x x' : PcQueue α} {k : PcqPoint α}
    (h : pcqProgram.LocalStep (.dequeue p) x k x') (hmust : p.must = false) (hp : p.asrt x) :
    x'.pcqCurrentSize = 0 ∨ ¬ (pcqProgram.act k).isAsleep .pcqPopperCondvar ∧
      x'.pcqCurrentSize + (PcqPoint.dequeue p).owesPoppers ≤
        x.pcqCurrentSize + k.owesPoppers := by
  cases p with
  | waitPopper =>
      obtain ⟨rfl, rfl⟩ := h
      exact .inl hp.2
  | lockSize | relockSize | lockTail | lockHead | unlockTail | unlockHead | signalPusher =>
      obtain ⟨rfl, rfl⟩ := h
      exact .inr ⟨Bool.false_ne_true, le_rfl⟩
  | asleep =>
      obtain ⟨rfl, rfl⟩ := h
      exact .inr ⟨Bool.false_ne_true, Nat.le_succ _⟩
  | lateUnlockTail => cases hmust
  | unlockSize must =>
      cases hmust
      obtain ⟨rfl, rfl⟩ := h
      exact .inr ⟨Bool.false_ne_true, le_rfl⟩
  | checkEmpty again =>
      cases h
      dsimp only
      split
      · rename_i hempty
        exact .inl hempty
      · cases again with
        | false => exact .inr ⟨Bool.false_ne_true, Nat.le_succ _⟩
        | true => exact .inr ⟨Bool.false_ne_true, le_rfl⟩
  | compareTail =>
      cases h
      dsimp only
      split <;> exact .inr ⟨Bool.false_ne_true, le_rfl⟩
  | loadHead | reloadHead | loadSize | storeHead =>
      cases h
      exact .inr ⟨Bool.false_ne_true, le_rfl⟩
  | indexElem | loadElem | indexSlot =>
      obtain ⟨_, _, h⟩ := Option.map_eq_some_iff.mp h
      cases h
      exact .inr ⟨Bool.false_ne_true, le_rfl⟩
  | clearSlot =>
      obtain ⟨_, hq, h⟩ := Option.map_eq_some_iff.mp h
      cases h
      cases PcQueue.storeSlot_eq_some hq
      exact .inr ⟨Bool.false_ne_true, le_rfl⟩
  | storeSize must first size =>
      obtain ⟨hp, rfl⟩ := hp
      cases h
      rw [hp.sizeSub_eq]
      refine .inr ⟨Bool.false_ne_true, ?_⟩
      show x.pcqCurrentSize - 1 + 1 ≤ x.pcqCurrentSize + 0
      have hpos := hp.2
      omega

theorem pcqProgram_popperDebt : WakeupDebt (pcqProgram (α := α)) .pcqPopperCondvar PcqPoint.asrt
    PcQueue.pcqCurrentSize PcqPoint.owesPoppers where
  step := by
    intro p x k x' h hp hnosignal
    cases p with
    | idle | enqueued | dequeued =>
        obtain ⟨hentry, rfl⟩ := h
        obtain ⟨elem, rfl⟩ | rfl := entry_cases hentry
        · exact .inr ⟨Bool.false_ne_true, le_rfl⟩
        · exact .inr ⟨Bool.false_ne_true, le_rfl⟩
    | enqueue elem p =>
        have hne : p ≠ .signalPopper := by
          intro heq
          subst heq
          exact hnosignal _ rfl
        exact .inr (pcqEnqueue_popperDebt elem p h hp hne)
    | dequeue p => exact pcqDequeue_popperDebt p h hp.1 hp.2
  signal := by
    intro p k h
    cases p with
    | enqueue elem p =>
        cases p <;> cases h
        exact ⟨Bool.false_ne_true, le_rfl⟩
    | dequeue p => cases p <;> cases h
    | _ => cases h
  woken := by
    intro p k h
    cases p with
    | enqueue elem p => cases p <;> cases h
    | dequeue p =>
        cases p <;> cases h
        exact Nat.zero_lt_one
    | _ => cases h

/-- The same for the pushers, who wait for a free slot. -/
theorem pcqEnqueue_pusherDebt (elem : α) (p : EnqueuePoint) {x x' : PcQueue α} {k : PcqPoint α}
    (h : pcqProgram.LocalStep (.enqueue elem p) x k x') (hp : p.asrt elem x) :
    x'.pcqCapacity - x'.pcqCurrentSize = 0 ∨
      ¬ (pcqProgram.act k).isAsleep .pcqPusherCondvar ∧
        x'.pcqCapacity - x'.pcqCurrentSize + (PcqPoint.enqueue elem p).owesPushers ≤
          x.pcqCapacity - x.pcqCurrentSize + k.owesPushers := by
  cases p with
  | waitPusher =>
      obtain ⟨rfl, rfl⟩ := h
      have hfull := hp.2
      exact .inl (by omega)
  | lockSize | relockSize | lockTail | lockHead | unlockHead | unlockTail | lateUnlockHead
  | signalPopper =>
      obtain ⟨rfl, rfl⟩ := h
      exact .inr ⟨Bool.false_ne_true, le_rfl⟩
  | asleep =>
      obtain ⟨rfl, rfl⟩ := h
      exact .inr ⟨Bool.false_ne_true, Nat.le_succ _⟩
  | unlockSize must =>
      obtain ⟨rfl, rfl⟩ := h
      cases must <;> exact .inr ⟨Bool.false_ne_true, le_rfl⟩
  | checkFull again =>
      cases h
      dsimp only
      split
      · rename_i hfull
        exact .inl (by omega)
      · cases again with
        | false => exact .inr ⟨Bool.false_ne_true, Nat.le_succ _⟩
        | true => exact .inr ⟨Bool.false_ne_true, le_rfl⟩
  | compareTail =>
      cases h
      dsimp only
      split <;> exact .inr ⟨Bool.false_ne_true, le_rfl⟩
  | loadHead | loadTail | loadSize | storeTail =>
      cases h
      exact .inr ⟨Bool.false_ne_true, le_rfl⟩
  | indexElem =>
      obtain ⟨_, _, h⟩ := Option.map_eq_some_iff.mp h
      cases h
      exact .inr ⟨Bool.false_ne_true, le_rfl⟩
  | storeElem =>
      obtain ⟨_, hq, h⟩ := Option.map_eq_some_iff.mp h
      cases h
      cases PcQueue.storeSlot_eq_some hq
      exact .inr ⟨Bool.false_ne_true, le_rfl⟩
  | storeSize must size =>
      obtain ⟨hp, rfl⟩ := hp
      cases h
      rw [hp.sizeAdd_eq]
      refine .inr ⟨Bool.false_ne_true, ?_⟩
      show x.pcqCapacity - (x.pcqCurrentSize + 1) + 1 ≤ x.pcqCapacity - x.pcqCurrentSize + 0
      have hle := hp.counts.le
      omega

theorem pcqDequeue_pusherDebt (p : DequeuePoint α) {x x' : PcQueue α} {k : PcqPoint α}
    (h : pcqProgram.LocalStep (.dequeue p) x k x') (hmust : p.must = false) (hp : p.asrt x)
    (hnosignal : ∀ first, p ≠ .signalPusher first) :
    ¬ (pcqProgram.act k).isAsleep .pcqPusherCondvar ∧
      x'.pcqCapacity - x'.pcqCurrentSize + (PcqPoint.dequeue p).owesPushers ≤
        x.pcqCapacity - x.pcqCurrentSize + k.owesPushers := by
  cases p with
  | lockSize | waitPopper | asleep | relockSize | lockTail | lockHead | unlockTail | unlockHead =>
      obtain ⟨rfl, rfl⟩ := h
      exact ⟨Bool.false_ne_true, le_rfl⟩
  | lateUnlockTail => cases hmust
  | signalPusher first => exact absurd rfl (hnosignal first)
  | unlockSize must =>
      cases hmust
      obtain ⟨rfl, rfl⟩ := h
      exact ⟨Bool.false_ne_true, le_rfl⟩
  | checkEmpty | compareTail =>
      cases h
      dsimp only
      split <;> exact ⟨Bool.false_ne_true, le_rfl⟩
  | loadHead | reloadHead | loadSize | storeHead =>
      cases h
      exact ⟨Bool.false_ne_true, le_rfl⟩
  | indexElem | loadElem | indexSlot =>
      obtain ⟨_, _, h⟩ := Option.map_eq_some_iff.mp h
      cases h
      exact ⟨Bool.false_ne_true, le_rfl⟩
  | clearSlot =>
      obtain ⟨_, hq, h⟩ := Option.map_eq_some_iff.mp h
      cases h
      cases PcQueue.storeSlot_eq_some hq
      exact ⟨Bool.false_ne_true, le_rfl⟩
  | storeSize must first size =>
      obtain ⟨hp, rfl⟩ := hp
      cases h
      rw [hp.sizeSub_eq]
      refine ⟨Bool.false_ne_true, ?_⟩
      show x.pcqCapacity - (x.pcqCurrentSize - 1) + 0 ≤ x.pcqCapacity - x.pcqCurrentSize + 1
      omega

theorem pcqProgram_pusherDebt : WakeupDebt (pcqProgram (α := α)) .pcqPusherCondvar PcqPoint.asrt
    (fun q => q.pcqCapacity - q.pcqCurrentSize) PcqPoint.owesPushers where
  step := by
    intro p x k x' h hp hnosignal
    cases p with
    | idle | enqueued | dequeued =>
        obtain ⟨hentry, rfl⟩ := h
        obtain ⟨elem, rfl⟩ | rfl := entry_cases hentry
        · exact .inr ⟨Bool.false_ne_true, le_rfl⟩
        · exact .inr ⟨Bool.false_ne_true, le_rfl⟩
    | enqueue elem p => exact pcqEnqueue_pusherDebt elem p h hp
    | dequeue p =>
        have hne : ∀ first, p ≠ .signalPusher first := by
          intro first heq
          subst heq
          exact hnosignal _ rfl
        exact .inr (pcqDequeue_pusherDebt p h hp.1 hp.2 hne)
  signal := by
    intro p k h
    cases p with
    | enqueue elem p => cases p <;> cases h
    | dequeue p =>
        cases p <;> cases h
        exact ⟨Bool.false_ne_true, le_rfl⟩
    | _ => cases h
  woken := by
    intro p k h
    cases p with
    | enqueue elem p =>
        cases p <;> cases h
        exact Nat.zero_lt_one
    | dequeue p => cases p <;> cases h
    | _ => cases h

/-- A popper or pusher between its check and its change of the size. -/
def PcqPoint.pastCheck (p : PcqPoint α) : Bool :=
  p.popperTaking || p.pusherAdding

theorem PcqPoint.held_of_pastCheck {p : PcqPoint α} (h : p.pastCheck) :
    .pcqCurrentSizeLock ∈ p.held := by
  cases p with
  | enqueue elem p =>
      cases p <;>
        first | exact absurd h Bool.false_ne_true | simp [PcqPoint.held, EnqueuePoint.held]
  | dequeue p =>
      cases p <;>
        first | exact absurd h Bool.false_ne_true | simp [PcqPoint.held, DequeuePoint.held]
  | _ => cases h

/-- The wake-ups that are on their way cover what sleepers wait for. When
all signals have been sent, all woken threads have looked again and nobody
is past its check, no condition that a thread sleeps on holds. -/
structure NoLostWakeup (s : State T PcqMutex (PcqPoint α) (PcQueue α)) : Prop where
  popper : (∃ t, (pcqProgram.act (s.pc t)).isAsleep .pcqPopperCondvar) →
    s.shared.pcqCurrentSize ≤ s.count PcqPoint.popperSignalDue + s.count PcqPoint.popperWoken +
      s.count PcqPoint.popperTaking
  pusher : (∃ t, (pcqProgram.act (s.pc t)).isAsleep .pcqPusherCondvar) →
    s.shared.pcqCapacity - s.shared.pcqCurrentSize ≤ s.count PcqPoint.pusherSignalDue +
      s.count PcqPoint.pusherWoken + s.count PcqPoint.pusherAdding
  one_pastCheck : s.count PcqPoint.popperTaking + s.count PcqPoint.pusherAdding ≤ 1
  none_pastCheck : s.owner .pcqCurrentSizeLock = none →
    s.count PcqPoint.popperTaking + s.count PcqPoint.pusherAdding = 0
  popper_settled : s.owner .pcqCurrentSizeLock = none →
    s.count PcqPoint.popperSignalDue = 0 → s.count PcqPoint.popperWoken = 0 →
    (∃ t, (pcqProgram.act (s.pc t)).isAsleep .pcqPopperCondvar) → s.shared.pcqCurrentSize = 0
  pusher_settled : s.owner .pcqCurrentSizeLock = none →
    s.count PcqPoint.pusherSignalDue = 0 → s.count PcqPoint.pusherWoken = 0 →
    (∃ t, (pcqProgram.act (s.pc t)).isAsleep .pcqPusherCondvar) →
    s.shared.pcqCurrentSize = s.shared.pcqCapacity

omit [DecidableEq T] in
theorem tally_owesPoppers (s : State T PcqMutex (PcqPoint α) (PcQueue α)) :
    s.tally PcqPoint.owesPoppers = s.count PcqPoint.popperSignalDue +
      s.count PcqPoint.popperWoken + s.count PcqPoint.popperTaking := by
  simp only [State.count_eq_tally, ← State.tally_add]
  rfl

omit [DecidableEq T] in
theorem tally_owesPushers (s : State T PcqMutex (PcqPoint α) (PcQueue α)) :
    s.tally PcqPoint.owesPushers = s.count PcqPoint.pusherSignalDue +
      s.count PcqPoint.pusherWoken + s.count PcqPoint.pusherAdding := by
  simp only [State.count_eq_tally, ← State.tally_add]
  rfl

omit [DecidableEq T] in
theorem count_pastCheck (s : State T PcqMutex (PcqPoint α) (PcQueue α)) :
    s.count PcqPoint.popperTaking + s.count PcqPoint.pusherAdding = s.count PcqPoint.pastCheck := by
  simp only [State.count_eq_tally, ← State.tally_add]
  congr 1
  funext p
  cases p <;> simp [PcqPoint.pastCheck, PcqPoint.popperTaking, PcqPoint.pusherAdding]

theorem covered_popper (h : (pcqMachine T α).Reachable s) :
    Covered pcqProgram .pcqPopperCondvar PcQueue.pcqCurrentSize PcqPoint.owesPoppers s :=
  pcqProgram_popperDebt.covered pcqProgram_monitor pcqProgram_lockDiscipline
    PcQueue.inv_of_start Bool.false_ne_true h

theorem covered_pusher (h : (pcqMachine T α).Reachable s) :
    Covered pcqProgram .pcqPusherCondvar (fun q => q.pcqCapacity - q.pcqCurrentSize)
      PcqPoint.owesPushers s :=
  pcqProgram_pusherDebt.covered pcqProgram_monitor pcqProgram_lockDiscipline
    PcQueue.inv_of_start Bool.false_ne_true h

/-- **No wake-up is lost** in any run. -/
theorem reachable_noLostWakeup (h : (pcqMachine T α).Reachable s) : NoLostWakeup s := by
  have hown := reachable_owned h
  have hpopper := covered_popper h
  have hpusher := covered_pusher h
  have hnone : s.owner .pcqCurrentSizeLock = none →
      s.count PcqPoint.popperTaking + s.count PcqPoint.pusherAdding = 0 := by
    intro hfree
    rw [count_pastCheck]
    exact hown.count_eq_zero hfree fun _ => PcqPoint.held_of_pastCheck
  unfold Covered at hpopper hpusher
  rw [tally_owesPoppers] at hpopper
  rw [tally_owesPushers] at hpusher
  constructor
  case popper => exact hpopper
  case pusher => exact hpusher
  case one_pastCheck =>
    rw [count_pastCheck]
    exact hown.count_le_one fun _ => PcqPoint.held_of_pastCheck
  case none_pastCheck => exact hnone
  case popper_settled =>
    intro hfree hdue hwoken hsleep
    have hle := hpopper hsleep
    have hzero := hnone hfree
    omega
  case pusher_settled =>
    intro hfree hdue hwoken hsleep
    have hle := hpusher hsleep
    have hzero := hnone hfree
    have hsize := ((reachable_guarded h).free hfree).counts.le
    dsimp only at hle
    omega

theorem handover_result :
    ((pcqMachine (Fin 3) Nat).run (pcqStart (Fin 3) 1) handover).map
      (fun s => ((pcqProgram.act (s.pc 1)).isAsleep .pcqPopperCondvar, s.shared.pcqCurrentSize,
        s.count PcqPoint.popperSignalDue, s.count PcqPoint.popperWoken,
        s.count PcqPoint.popperTaking)) = some (true, 1, 0, 0, 1) := by
  decide +kernel

theorem handover_noLostWakeup :
    ∃ s, (pcqMachine (Fin 3) Nat).run (pcqStart (Fin 3) 1) handover = some s ∧
      s.shared.pcqCurrentSize = 1 ∧ s.count PcqPoint.popperTaking = 1 ∧ NoLostWakeup s := by
  obtain ⟨s, hrun, hobs⟩ := Option.map_eq_some_iff.mp handover_result
  simp only [Prod.mk.injEq] at hobs
  obtain ⟨-, hsize, -, -, htaking⟩ := hobs
  have hreach := (pcqStart_reachable (Fin 3) (by decide)).run (by simp) hrun
  exact ⟨s, hrun, hsize, htaking, reachable_noLostWakeup hreach⟩

/-- A popper that has been woken and is past its check is no longer
counted as woken: thread 1 sleeps while the element is thread 0's to take. -/
theorem handover_past_check :
    ¬ ∀ s, (pcqMachine (Fin 3) Nat).Reachable s →
      (∃ t, (pcqProgram.act (s.pc t)).isAsleep .pcqPopperCondvar) →
      s.shared.pcqCurrentSize ≤
        s.count PcqPoint.popperSignalDue + s.count PcqPoint.popperWoken := by
  intro hclaim
  obtain ⟨s, hrun, hobs⟩ := Option.map_eq_some_iff.mp handover_result
  simp only [Prod.mk.injEq] at hobs
  obtain ⟨hsleep, hsize, hdue, hwoken, -⟩ := hobs
  have hreach := (pcqStart_reachable (Fin 3) (by decide)).run (by simp) hrun
  have hle := hclaim s hreach ⟨1, hsleep⟩
  omega

end MBroker
