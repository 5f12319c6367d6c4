import MBroker.Queue.Pcq

/-!
# The three mutexes of the queue

Which mutexes a thread holds at each point, and the order that excludes a
deadlock. `pcq_enqueue` takes the tail before the head and `pcq_dequeue`
the head before the tail; what matters is that both take them under the
size lock. A thread that keeps the head or the tail after it released the
size lock takes no mutex before it releases that one too.
-/

namespace MBroker

open Threads

variable {α : Type*}

/-- `late` is the mutex kept past the comparison when `must` is set. -/
def keptLock (must : Bool) (late : PcqMutex) : Finset PcqMutex :=
  if must then {late} else ∅

def EnqueuePoint.held : EnqueuePoint → Finset PcqMutex
  | .lockSize | .asleep | .relockSize | .signalPopper => ∅
  | .checkFull _ | .waitPusher | .lockTail => {.pcqCurrentSizeLock}
  | .lockHead => {.pcqTailLock, .pcqCurrentSizeLock}
  | .loadHead | .compareTail _ | .unlockHead =>
      {.pcqHeadLock, .pcqTailLock, .pcqCurrentSizeLock}
  | .indexElem must | .storeElem must _ | .loadTail must | .storeTail must _ | .unlockTail must =>
      keptLock must .pcqHeadLock ∪ {.pcqTailLock, .pcqCurrentSizeLock}
  | .loadSize must | .storeSize must _ | .unlockSize must =>
      keptLock must .pcqHeadLock ∪ {.pcqCurrentSizeLock}
  | .lateUnlockHead => {.pcqHeadLock}

def DequeuePoint.held : DequeuePoint α → Finset PcqMutex
  | .lockSize | .asleep | .relockSize | .signalPusher _ => ∅
  | .checkEmpty _ | .waitPopper | .lockHead => {.pcqCurrentSizeLock}
  | .lockTail => {.pcqHeadLock, .pcqCurrentSizeLock}
  | .loadHead | .compareTail _ | .unlockTail =>
      {.pcqTailLock, .pcqHeadLock, .pcqCurrentSizeLock}
  | .indexElem must | .loadElem must _ | .indexSlot must _ | .clearSlot must _ _
  | .reloadHead must _ | .storeHead must _ _ | .unlockHead must _ =>
      keptLock must .pcqTailLock ∪ {.pcqHeadLock, .pcqCurrentSizeLock}
  | .loadSize must _ | .storeSize must _ _ | .unlockSize must _ =>
      keptLock must .pcqTailLock ∪ {.pcqCurrentSizeLock}
  | .lateUnlockTail _ => {.pcqTailLock}

/-- The mutexes that a thread at the point holds. -/
def PcqPoint.held : PcqPoint α → Finset PcqMutex
  | .idle | .enqueued | .dequeued _ => ∅
  | .enqueue _ p => p.held
  | .dequeue p => p.held

/-- Threads wait for a mutex either with no mutex at all, for the size
lock, or with the size lock. -/
def PcqPoint.rank (p : PcqPoint α) : Nat :=
  if .pcqCurrentSizeLock ∈ p.held then 0 else 1

theorem pcqEnqueue_held (elem : α) (p : EnqueuePoint) {x x' : PcQueue α} {k : PcqPoint α}
    (h : pcqProgram.LocalStep (.enqueue elem p) x k x') :
    k.held = (pcqEnqueue elem p).locksAfter p.held := by
  cases p with
  | lockSize | waitPusher | asleep | relockSize | lockTail | lockHead | unlockHead
  | lateUnlockHead | signalPopper =>
      obtain ⟨rfl, -⟩ := h
      rfl
  | checkFull | compareTail =>
      cases h
      dsimp only
      split <;> rfl
  | loadHead | loadTail | storeTail | loadSize | storeSize =>
      cases h
      rfl
  | indexElem | storeElem =>
      obtain ⟨_, _, h⟩ := Option.map_eq_some_iff.mp h
      cases h
      rfl
  | unlockTail must | unlockSize must =>
      obtain ⟨rfl, -⟩ := h
      cases must <;> rfl

theorem pcqDequeue_held (p : DequeuePoint α) {x x' : PcQueue α} {k : PcqPoint α}
    (h : pcqProgram.LocalStep (.dequeue p) x k x') :
    k.held = (pcqDequeue p).locksAfter p.held := by
  cases p with
  | lockSize | waitPopper | asleep | relockSize | lockHead | lockTail | unlockTail
  | lateUnlockTail | signalPusher =>
      obtain ⟨rfl, -⟩ := h
      rfl
  | checkEmpty | compareTail =>
      cases h
      dsimp only
      split <;> rfl
  | loadHead | reloadHead | storeHead | loadSize | storeSize =>
      cases h
      rfl
  | indexElem | loadElem | indexSlot | clearSlot =>
      obtain ⟨_, _, h⟩ := Option.map_eq_some_iff.mp h
      cases h
      rfl
  | unlockHead must | unlockSize must =>
      obtain ⟨rfl, -⟩ := h
      cases must <;> rfl

theorem pcqEnqueue_releases {elem : α} {p : EnqueuePoint} {m : PcqMutex}
    (h : (pcqEnqueue elem p).releases = some m) : m ∈ p.held := by
  cases p <;> cases h <;> simp [EnqueuePoint.held]

theorem pcqDequeue_releases {p : DequeuePoint α} {m : PcqMutex}
    (h : (pcqDequeue p).releases = some m) : m ∈ p.held := by
  cases p <;> cases h <;> simp [DequeuePoint.held]

theorem pcqProgram_lockDiscipline : LockDiscipline (pcqProgram (α := α)) PcqPoint.held where
  init := rfl
  step := by
    intro p x k x' h
    cases p with
    | idle | enqueued | dequeued =>
        obtain ⟨hentry, -⟩ := h
        obtain ⟨elem, rfl⟩ | rfl := entry_cases hentry
        · rfl
        · rfl
    | enqueue elem p => exact pcqEnqueue_held elem p h
    | dequeue p => exact pcqDequeue_held p h
  release := by
    intro p m h
    cases p with
    | enqueue elem p => exact pcqEnqueue_releases h
    | dequeue p => exact pcqDequeue_releases h
    | _ => cases h

/-- A thread about to take a mutex holds nothing and takes the size lock,
or takes another one under the size lock. -/
theorem held_of_lock {p k : PcqPoint α} {m : PcqMutex} (h : pcqProgram.act p = .lock m k) :
    m = .pcqCurrentSizeLock ∧ p.held = ∅ ∨ .pcqCurrentSizeLock ∈ p.held ∧ m ∉ p.held := by
  cases p with
  | enqueue elem p =>
      cases p <;> cases h <;> simp [PcqPoint.held, EnqueuePoint.held]
  | dequeue p =>
      cases p <;> cases h <;> simp [PcqPoint.held, DequeuePoint.held]
  | _ => cases h

theorem pcqProgram_lockOrder : LockOrder (pcqProgram (α := α)) PcqPoint.held PcqPoint.rank where
  not_held := by
    intro p m k h
    rcases held_of_lock h with ⟨-, hnone⟩ | ⟨-, hnot⟩
    · simp [hnone]
    · exact hnot
  rank_lt := by
    intro p m k q m' k' hp hq hmem hdisj
    have hsize : .pcqCurrentSizeLock ∈ q.held := by
      rcases held_of_lock hq with ⟨-, hnone⟩ | ⟨hsize, -⟩
      · simp [hnone] at hmem
      · exact hsize
    have hsize' : .pcqCurrentSizeLock ∉ p.held := fun h => Finset.disjoint_left.mp hdisj h hsize
    simp [PcqPoint.rank, hsize, hsize']

end MBroker
