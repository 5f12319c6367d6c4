import MBroker.Lib.CMemory
import MBroker.Lib.Threads

/-!
# The producer-consumer queue

`pcq_enqueue` and `pcq_dequeue` of `producer-consumer.c`, one program
point for every lock, unlock, wait, signal and access to a shared field.
A point carries the local variables that are live there, and the values
loaded so far of an expression that reads several fields. The left operand
of `==` is loaded first. `pcq_capacity` is written by `pcq_create` only
and is read together with the field it is compared with or divides.

`again` tells the test after a wait from the first one. `inserted` and
`removed` are the history of the queue; no step reads them. The two
mutexes that the code only creates and destroys, and the log lines, are
left out; a log line that computes an index stands just before the point
that computes the same index for the buffer.
-/

namespace MBroker

open Threads

/-- `pc_queue_t` without its mutexes and condition variables. -/
structure PcQueue (α : Type*) where
  pcqBuffer : Nat → Option α
  pcqCapacity : Nat
  pcqCurrentSize : Nat
  pcqHead : Nat
  pcqTail : Nat
  /-- the elements in order of the increments of `pcq_tail` -/
  inserted : List α
  /-- what `pcq_dequeue` read, in order of the increments of `pcq_head` -/
  removed : List (Option α)

inductive PcqMutex
  | pcqCurrentSizeLock
  | pcqHeadLock
  | pcqTailLock
deriving DecidableEq, Repr

inductive PcqCondvar
  | pcqPopperCondvar
  | pcqPusherCondvar
deriving DecidableEq, Repr

/-- The points of `pcq_enqueue`. `must` is `must_unlock_head`. -/
inductive EnqueuePoint
  | lockSize
  | checkFull (again : Bool)
  | waitPusher
  | asleep
  | relockSize
  | lockTail
  | lockHead
  | loadHead
  | compareTail (head : Nat)
  | unlockHead
  | indexElem (must : Bool)
  | storeElem (must : Bool) (index : Nat)
  | loadTail (must : Bool)
  | storeTail (must : Bool) (tail : Nat)
  | unlockTail (must : Bool)
  | loadSize (must : Bool)
  | storeSize (must : Bool) (size : Nat)
  | unlockSize (must : Bool)
  | lateUnlockHead
  | signalPopper
deriving DecidableEq, Repr

/-- The points of `pcq_dequeue`. `must` is `must_unlock_tail`. -/
inductive DequeuePoint (α : Type*)
  | lockSize
  | checkEmpty (again : Bool)
  | waitPopper
  | asleep
  | relockSize
  | lockHead
  | lockTail
  | loadHead
  | compareTail (head : Nat)
  | unlockTail
  | indexElem (must : Bool)
  | loadElem (must : Bool) (index : Nat)
  | indexSlot (must : Bool) (first : Option α)
  | clearSlot (must : Bool) (first : Option α) (index : Nat)
  | reloadHead (must : Bool) (first : Option α)
  | storeHead (must : Bool) (first : Option α) (head : Nat)
  | unlockHead (must : Bool) (first : Option α)
  | loadSize (must : Bool) (first : Option α)
  | storeSize (must : Bool) (first : Option α) (size : Nat)
  | unlockSize (must : Bool) (first : Option α)
  | lateUnlockTail (first : Option α)
  | signalPusher (first : Option α)
deriving DecidableEq, Repr

/-- A thread is outside the queue, before its first call or after the
return of one, or at a point of a call. -/
inductive PcqPoint (α : Type*)
  | idle
  | enqueued
  | dequeued (first : Option α)
  | enqueue (elem : α) (p : EnqueuePoint)
  | dequeue (p : DequeuePoint α)
deriving DecidableEq, Repr

variable {α : Type*}

namespace PcQueue

/-- `counter % queue->pcq_capacity`. -/
def index (q : PcQueue α) (counter : Nat) : Option Nat :=
  (modulo counter q.pcqCapacity).toOption

def loadSlot (q : PcQueue α) (i : Nat) : Option (Option α) :=
  if i < q.pcqCapacity then some (q.pcqBuffer i) else none

def storeSlot (q : PcQueue α) (i : Nat) (elem : Option α) : Option (PcQueue α) :=
  if i < q.pcqCapacity then some { q with pcqBuffer := Function.update q.pcqBuffer i elem }
  else none

/-- `queue->pcq_tail = tail`, by the thread that inserts `elem`. -/
def storeTail (q : PcQueue α) (tail : Nat) (elem : α) : PcQueue α :=
  { q with pcqTail := tail, inserted := q.inserted ++ [elem] }

/-- `queue->pcq_head = head`, by the thread that read `first`. -/
def storeHead (q : PcQueue α) (head : Nat) (first : Option α) : PcQueue α :=
  { q with pcqHead := head, removed := q.removed ++ [first] }

def storeSize (q : PcQueue α) (size : Nat) : PcQueue α :=
  { q with pcqCurrentSize := size }

end PcQueue

def pcqCreate (capacity : Nat) : PcQueue α where
  pcqBuffer _ := none
  pcqCapacity := capacity
  pcqCurrentSize := 0
  pcqHead := 0
  pcqTail := 0
  inserted := []
  removed := []

/-- The elements that `pcq_destroy` frees: the slots that are not `NULL`. -/
def pcqDestroy (q : PcQueue α) : List α :=
  (List.range q.pcqCapacity).filterMap q.pcqBuffer

/-- A step of a thread between two points of the queue. -/
abbrev PcqAct (α : Type*) := Act PcqMutex PcqCondvar (PcqPoint α) (PcQueue α)

/-- A load of shared fields: the queue stays as it is. -/
def pcqLoad (next : PcQueue α → PcqPoint α) : PcqAct α :=
  .access fun q => some (q, next q)

def pcqEnqueue (elem : α) : EnqueuePoint → PcqAct α
  | .lockSize => .lock .pcqCurrentSizeLock (.enqueue elem (.checkFull false))
  | .checkFull _ => pcqLoad fun q =>
      if q.pcqCurrentSize = q.pcqCapacity then .enqueue elem .waitPusher
      else .enqueue elem .lockTail
  | .waitPusher => .wait .pcqPusherCondvar .pcqCurrentSizeLock (.enqueue elem .asleep)
  | .asleep => .asleep .pcqPusherCondvar (.enqueue elem .relockSize)
  | .relockSize => .lock .pcqCurrentSizeLock (.enqueue elem (.checkFull true))
  | .lockTail => .lock .pcqTailLock (.enqueue elem .lockHead)
  | .lockHead => .lock .pcqHeadLock (.enqueue elem .loadHead)
  | .loadHead => pcqLoad fun q => .enqueue elem (.compareTail q.pcqHead)
  | .compareTail head => pcqLoad fun q =>
      if head = q.pcqTail then .enqueue elem (.indexElem true) else .enqueue elem .unlockHead
  | .unlockHead => .unlock .pcqHeadLock (.enqueue elem (.indexElem false))
  | .indexElem must => .access fun q =>
      (q.index q.pcqTail).map fun i => (q, .enqueue elem (.storeElem must i))
  | .storeElem must i => .access fun q =>
      (q.storeSlot i (some elem)).map fun q' => (q', .enqueue elem (.loadTail must))
  | .loadTail must => pcqLoad fun q => .enqueue elem (.storeTail must q.pcqTail)
  | .storeTail must tail => .access fun q =>
      some (q.storeTail (sizeAdd tail 1) elem, .enqueue elem (.unlockTail must))
  | .unlockTail must => .unlock .pcqTailLock (.enqueue elem (.loadSize must))
  | .loadSize must => pcqLoad fun q => .enqueue elem (.storeSize must q.pcqCurrentSize)
  | .storeSize must size => .access fun q =>
      some (q.storeSize (sizeAdd size 1), .enqueue elem (.unlockSize must))
  | .unlockSize must => .unlock .pcqCurrentSizeLock
      (if must then .enqueue elem .lateUnlockHead else .enqueue elem .signalPopper)
  | .lateUnlockHead => .unlock .pcqHeadLock (.enqueue elem .signalPopper)
  | .signalPopper => .signal .pcqPopperCondvar .enqueued

def pcqDequeue : DequeuePoint α → PcqAct α
  | .lockSize => .lock .pcqCurrentSizeLock (.dequeue (.checkEmpty false))
  | .checkEmpty _ => pcqLoad fun q =>
      if q.pcqCurrentSize = 0 then .dequeue .waitPopper else .dequeue .lockHead
  | .waitPopper => .wait .pcqPopperCondvar .pcqCurrentSizeLock (.dequeue .asleep)
  | .asleep => .asleep .pcqPopperCondvar (.dequeue .relockSize)
  | .relockSize => .lock .pcqCurrentSizeLock (.dequeue (.checkEmpty true))
  | .lockHead => .lock .pcqHeadLock (.dequeue .lockTail)
  | .lockTail => .lock .pcqTailLock (.dequeue .loadHead)
  | .loadHead => pcqLoad fun q => .dequeue (.compareTail q.pcqHead)
  | .compareTail head => pcqLoad fun q =>
      if head = q.pcqTail then .dequeue (.indexElem true) else .dequeue .unlockTail
  | .unlockTail => .unlock .pcqTailLock (.dequeue (.indexElem false))
  | .indexElem must => .access fun q =>
      (q.index q.pcqHead).map fun i => (q, .dequeue (.loadElem must i))
  | .loadElem must i => .access fun q =>
      (q.loadSlot i).map fun first => (q, .dequeue (.indexSlot must first))
  | .indexSlot must first => .access fun q =>
      (q.index q.pcqHead).map fun i => (q, .dequeue (.clearSlot must first i))
  | .clearSlot must first i => .access fun q =>
      (q.storeSlot i none).map fun q' => (q', .dequeue (.reloadHead must first))
  | .reloadHead must first => pcqLoad fun q => .dequeue (.storeHead must first q.pcqHead)
  | .storeHead must first head => .access fun q =>
      some (q.storeHead (sizeAdd head 1) first, .dequeue (.unlockHead must first))
  | .unlockHead must first => .unlock .pcqHeadLock (.dequeue (.loadSize must first))
  | .loadSize must first => pcqLoad fun q => .dequeue (.storeSize must first q.pcqCurrentSize)
  | .storeSize must first size => .access fun q =>
      some (q.storeSize (sizeSub size 1), .dequeue (.unlockSize must first))
  | .unlockSize must first => .unlock .pcqCurrentSizeLock
      (if must then .dequeue (.lateUnlockTail first) else .dequeue (.signalPusher first))
  | .lateUnlockTail first => .unlock .pcqTailLock (.dequeue (.signalPusher first))
  | .signalPusher first => .signal .pcqPusherCondvar (.dequeued first)

/-- The threads of a queue call `pcq_enqueue` and `pcq_dequeue` at will. -/
def pcqProgram : Program PcqMutex PcqCondvar (PcqPoint α) (PcQueue α) where
  init := .idle
  entry
    | .enqueue _ .lockSize | .dequeue .lockSize => true
    | _ => false
  act
    | .idle | .enqueued | .dequeued _ => .idle
    | .enqueue elem p => pcqEnqueue elem p
    | .dequeue p => pcqDequeue p

theorem entry_cases {p : PcqPoint α} (h : pcqProgram.entry p) :
    (∃ elem, p = .enqueue elem .lockSize) ∨ p = .dequeue .lockSize := by
  cases p with
  | enqueue elem p =>
      cases p <;> cases h
      exact .inl ⟨elem, rfl⟩
  | dequeue p =>
      cases p <;> cases h
      exact .inr rfl
  | _ => cases h

/-- The threads `T` on a queue made by `pcq_create`. -/
def pcqMachine (T α : Type*) [Fintype T] [DecidableEq T] :
    Machine (State T PcqMutex (PcqPoint α) (PcQueue α)) (Event T (PcqPoint α)) :=
  pcqProgram.machine T fun q => ∃ capacity < 18446744073709551616, q = pcqCreate capacity

end MBroker
