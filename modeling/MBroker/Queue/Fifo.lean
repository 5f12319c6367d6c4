import MBroker.Lib.Ring
import MBroker.Queue.Locks

/-!
# The queue is a bounded FIFO

The size lock is the monitor of the queue: while it is free `PcQueue.Inv`
holds, and `PcqPoint.asrt` says what holds at each point of its owner. The
counts hold in every run. The order and the slots hold as long as the
counters have not wrapped around, which takes 2^64 insertions: then a
counter taken modulo the capacity no longer names the slot that follows.
-/

namespace MBroker

open Threads

variable {α : Type*}

namespace PcQueue

/-- `n` elements have been inserted and not removed. -/
structure Counts (q : PcQueue α) (n : Nat) : Prop where
  capacity_lt : q.pcqCapacity < 18446744073709551616
  length : q.inserted.length = q.removed.length + n
  le : n ≤ q.pcqCapacity
  tail : q.pcqTail = q.inserted.length % 18446744073709551616
  head : q.pcqHead = q.removed.length % 18446744073709551616

/-- What has been removed is the beginning of what was inserted, and the
slots hold `xs` from position `r` on. -/
structure Contents (q : PcQueue α) (r : Nat) (xs : List α) : Prop where
  removed_eq : q.removed = (q.inserted.take q.removed.length).map some
  slots : RingSlots q.pcqCapacity r xs q.pcqBuffer

structure Keeps (q : PcQueue α) (n r : Nat) (xs : List α) : Prop where
  counts : q.Counts n
  contents : q.inserted.length < 18446744073709551616 → q.Contents r xs

/-- The queue between two calls. -/
def Inv (q : PcQueue α) : Prop :=
  q.Keeps q.pcqCurrentSize q.removed.length q.inserted

def Room (q : PcQueue α) : Prop := q.Inv ∧ q.pcqCurrentSize < q.pcqCapacity

/-- `elem` is in its slot and not yet counted. -/
def Stored (elem : α) (q : PcQueue α) : Prop :=
  q.Keeps q.pcqCurrentSize q.removed.length (q.inserted ++ [elem]) ∧
    q.pcqCurrentSize < q.pcqCapacity

/-- `pcq_tail` counts the new element, `pcq_current_size` does not. -/
def Grown (q : PcQueue α) : Prop :=
  q.Keeps (q.pcqCurrentSize + 1) q.removed.length q.inserted

def Nonempty (q : PcQueue α) : Prop := q.Inv ∧ 0 < q.pcqCurrentSize

/-- `first` is the oldest element in the queue. -/
def Front (first : Option α) (q : PcQueue α) : Prop :=
  q.inserted.length < 18446744073709551616 → first = q.inserted[q.removed.length]?

/-- The slot of the oldest element is empty and the element still counted. -/
def Cleared (first : Option α) (q : PcQueue α) : Prop :=
  q.Keeps q.pcqCurrentSize (q.removed.length + 1) q.inserted ∧ 0 < q.pcqCurrentSize ∧
    q.Front first

/-- `pcq_head` is past the removed element, `pcq_current_size` counts it. -/
def Shrunk (q : PcQueue α) : Prop :=
  q.Keeps (q.pcqCurrentSize - 1) q.removed.length q.inserted ∧ 0 < q.pcqCurrentSize

/-! ## The operations of a call -/

variable {q q' : PcQueue α} {elem : α} {first : Option α} {i n : Nat}

theorem inv_pcqCreate {capacity : Nat} (h : capacity < 18446744073709551616) :
    (pcqCreate capacity : PcQueue α).Inv where
  counts := ⟨h, rfl, Nat.zero_le _, rfl, rfl⟩
  contents := fun _ => ⟨rfl, RingSlots.empty capacity⟩

theorem inv_of_start (q : PcQueue α)
    (h : ∃ capacity < 18446744073709551616, q = pcqCreate capacity) : q.Inv := by
  obtain ⟨capacity, hlt, rfl⟩ := h
  exact inv_pcqCreate hlt

/-- The comparison of the counters tells an empty queue, also after they
have wrapped around. -/
theorem Counts.head_eq_tail_iff (h : q.Counts n) : q.pcqHead = q.pcqTail ↔ n = 0 := by
  obtain ⟨hcap, hlen, hle, htail, hhead⟩ := h
  omega

theorem index_eq_some (h : q.index n = some i) : 0 < q.pcqCapacity ∧ i = n % q.pcqCapacity := by
  unfold index modulo at h
  split at h
  · cases h
  · cases h
    exact ⟨by omega, rfl⟩

theorem index_isSome (h : 0 < q.pcqCapacity) (n : Nat) :
    q.index n = some (n % q.pcqCapacity) := by
  unfold index
  rw [modulo_of_pos h]
  rfl

theorem storeSlot_eq_some {v : Option α} (h : q.storeSlot i v = some q') :
    q' = { q with pcqBuffer := Function.update q.pcqBuffer i v } := by
  unfold storeSlot at h
  split at h
  · cases h
    rfl
  · cases h

theorem Counts.setBuffer (h : q.Counts n) (b : Nat → Option α) :
    ({ q with pcqBuffer := b } : PcQueue α).Counts n :=
  ⟨h.capacity_lt, h.length, h.le, h.tail, h.head⟩

/-- The size that agrees with the counters makes the queue whole again. -/
theorem Keeps.storeSize (h : q.Keeps n q.removed.length q.inserted) : (q.storeSize n).Inv where
  counts := ⟨h.counts.capacity_lt, h.counts.length, h.counts.le, h.counts.tail, h.counts.head⟩
  contents := fun hshort => ⟨(h.contents hshort).removed_eq, (h.contents hshort).slots⟩

theorem Room.storeSlot (h : q.Room) (hi : i = q.pcqTail % q.pcqCapacity)
    (hq : q.storeSlot i (some elem) = some q') : q'.Stored elem := by
  obtain ⟨⟨hcounts, hcontents⟩, hroom⟩ := h
  cases storeSlot_eq_some hq
  refine ⟨⟨hcounts.setBuffer _, ?_⟩, hroom⟩
  intro hshort
  obtain ⟨hremoved, hslots⟩ := hcontents hshort
  have htail : q.pcqTail = q.inserted.length := by
    rw [hcounts.tail]
    exact Nat.mod_eq_of_lt hshort
  have hlen := hcounts.length
  refine ⟨hremoved, ?_⟩
  show RingSlots q.pcqCapacity q.removed.length (q.inserted ++ [elem])
    (Function.update q.pcqBuffer i (some elem))
  rw [hi, htail]
  exact hslots.push (by omega) (by omega) elem

theorem Stored.storeTail (h : q.Stored elem) :
    (q.storeTail (sizeAdd q.pcqTail 1) elem).Grown := by
  obtain ⟨⟨hcounts, hcontents⟩, hroom⟩ := h
  obtain ⟨hcap, hlen, hle, htail, hhead⟩ := hcounts
  constructor
  · refine ⟨hcap, ?_, hroom, ?_, hhead⟩
    · simp only [PcQueue.storeTail, List.length_append, List.length_singleton]
      omega
    · simp only [PcQueue.storeTail, List.length_append, List.length_singleton, sizeAdd, htail]
      omega
  · intro hshort
    simp only [PcQueue.storeTail, List.length_append, List.length_singleton] at hshort
    obtain ⟨hremoved, hslots⟩ := hcontents (by omega)
    refine ⟨?_, hslots⟩
    show q.removed = ((q.inserted ++ [elem]).take q.removed.length).map some
    rw [List.take_append_of_le_length (by omega)]
    exact hremoved

theorem Grown.sizeAdd_eq (h : q.Grown) :
    sizeAdd q.pcqCurrentSize 1 = q.pcqCurrentSize + 1 := by
  have hle := h.counts.le
  have hcap := h.counts.capacity_lt
  exact Nat.mod_eq_of_lt (by omega)

theorem Grown.storeSize (h : q.Grown) : (q.storeSize (sizeAdd q.pcqCurrentSize 1)).Inv := by
  apply Keeps.storeSize
  rw [h.sizeAdd_eq]
  exact h

theorem Nonempty.capacity_pos (h : q.Nonempty) : 0 < q.pcqCapacity := by
  have hle := h.1.counts.le
  have hpos := h.2
  omega

theorem Nonempty.head_eq (h : q.Nonempty) (hshort : q.inserted.length < 18446744073709551616) :
    q.pcqHead = q.removed.length := by
  have hlen := h.1.counts.length
  rw [h.1.counts.head]
  exact Nat.mod_eq_of_lt (by omega)

theorem Nonempty.loadSlot (h : q.Nonempty) (hi : i = q.pcqHead % q.pcqCapacity)
    (hq : q.loadSlot i = some first) : q.Front first := by
  intro hshort
  unfold PcQueue.loadSlot at hq
  split at hq
  · cases hq
    rw [hi, h.head_eq hshort]
    exact (h.1.contents hshort).slots.front h.capacity_pos
  · cases hq

theorem Nonempty.storeSlot (h : q.Nonempty) (hfront : q.Front first)
    (hi : i = q.pcqHead % q.pcqCapacity) (hq : q.storeSlot i none = some q') :
    q'.Cleared first := by
  obtain ⟨⟨hcounts, hcontents⟩, hpos⟩ := h
  cases storeSlot_eq_some hq
  refine ⟨⟨hcounts.setBuffer _, ?_⟩, hpos, hfront⟩
  intro hshort
  obtain ⟨hremoved, hslots⟩ := hcontents hshort
  have hlen := hcounts.length
  have hle := hcounts.le
  refine ⟨hremoved, ?_⟩
  show RingSlots q.pcqCapacity (q.removed.length + 1) q.inserted
    (Function.update q.pcqBuffer i none)
  rw [hi, Nonempty.head_eq ⟨⟨hcounts, hcontents⟩, hpos⟩ hshort]
  exact hslots.pop (by omega) (by omega)

theorem Cleared.storeHead (h : q.Cleared first) :
    (q.storeHead (sizeAdd q.pcqHead 1) first).Shrunk := by
  obtain ⟨⟨hcounts, hcontents⟩, hpos, hfront⟩ := h
  obtain ⟨hcap, hlen, hle, htail, hhead⟩ := hcounts
  refine ⟨⟨⟨hcap, ?_, ?_, htail, ?_⟩, ?_⟩, hpos⟩
  · simp only [PcQueue.storeHead, List.length_append, List.length_singleton]
    omega
  · simp only [PcQueue.storeHead]
    omega
  · simp only [PcQueue.storeHead, List.length_append, List.length_singleton, sizeAdd, hhead]
    omega
  · intro hshort
    obtain ⟨hremoved, hslots⟩ := hcontents hshort
    have hlast : q.removed.length < q.inserted.length := by omega
    have hfirst := hfront hshort
    rw [List.getElem?_eq_getElem hlast] at hfirst
    constructor
    · simp only [PcQueue.storeHead, List.length_append, List.length_singleton]
      rw [List.take_succ_eq_append_getElem hlast, List.map_append, ← hremoved, hfirst]
      rfl
    · simp only [PcQueue.storeHead, List.length_append, List.length_singleton]
      exact hslots

theorem Shrunk.sizeSub_eq (h : q.Shrunk) :
    sizeSub q.pcqCurrentSize 1 = q.pcqCurrentSize - 1 := by
  have hle := h.1.counts.le
  have hcap := h.1.counts.capacity_lt
  have hpos := h.2
  unfold sizeSub
  omega

theorem Shrunk.storeSize (h : q.Shrunk) : (q.storeSize (sizeSub q.pcqCurrentSize 1)).Inv := by
  apply Keeps.storeSize
  rw [h.sizeSub_eq]
  exact h.1

end PcQueue

/-! ## The assertions of the points -/

/-- What holds when the thread that inserts `elem` is at the point. -/
def EnqueuePoint.asrt (elem : α) : EnqueuePoint → PcQueue α → Prop
  | .lockSize | .asleep | .relockSize | .lateUnlockHead | .signalPopper => fun _ => True
  | .checkFull _ => PcQueue.Inv
  | .waitPusher => fun q => q.Inv ∧ q.pcqCurrentSize = q.pcqCapacity
  | .lockTail | .lockHead | .loadHead | .compareTail _ | .unlockHead | .indexElem _ => PcQueue.Room
  | .storeElem _ i => fun q => q.Room ∧ i = q.pcqTail % q.pcqCapacity
  | .loadTail _ => PcQueue.Stored elem
  | .storeTail _ tail => fun q => q.Stored elem ∧ tail = q.pcqTail
  | .unlockTail _ | .loadSize _ => PcQueue.Grown
  | .storeSize _ size => fun q => q.Grown ∧ size = q.pcqCurrentSize
  | .unlockSize _ => PcQueue.Inv

/-- The value of `must_unlock_tail`. -/
def DequeuePoint.must : DequeuePoint α → Bool
  | .indexElem must | .loadElem must _ | .indexSlot must _ | .clearSlot must _ _
  | .reloadHead must _ | .storeHead must _ _ | .unlockHead must _ | .loadSize must _
  | .storeSize must _ _ | .unlockSize must _ => must
  | .lateUnlockTail _ => true
  | _ => false

def DequeuePoint.asrt : DequeuePoint α → PcQueue α → Prop
  | .lockSize | .asleep | .relockSize | .lateUnlockTail _ | .signalPusher _ => fun _ => True
  | .checkEmpty _ => PcQueue.Inv
  | .waitPopper => fun q => q.Inv ∧ q.pcqCurrentSize = 0
  | .lockHead | .lockTail | .loadHead | .unlockTail | .indexElem _ => PcQueue.Nonempty
  | .compareTail head => fun q => q.Nonempty ∧ head = q.pcqHead
  | .loadElem _ i => fun q => q.Nonempty ∧ i = q.pcqHead % q.pcqCapacity
  | .indexSlot _ first => fun q => q.Nonempty ∧ q.Front first
  | .clearSlot _ first i => fun q => q.Nonempty ∧ q.Front first ∧ i = q.pcqHead % q.pcqCapacity
  | .reloadHead _ first => PcQueue.Cleared first
  | .storeHead _ first head => fun q => q.Cleared first ∧ head = q.pcqHead
  | .unlockHead _ _ | .loadSize _ _ => PcQueue.Shrunk
  | .storeSize _ _ size => fun q => q.Shrunk ∧ size = q.pcqCurrentSize
  | .unlockSize _ _ => PcQueue.Inv

/-- What holds when a thread is at the point. A `pcq_dequeue` never finds
the counters equal, so `must_unlock_tail` stays false. -/
def PcqPoint.asrt : PcqPoint α → PcQueue α → Prop
  | .idle | .enqueued | .dequeued _ => fun _ => True
  | .enqueue elem p => p.asrt elem
  | .dequeue p => fun q => p.must = false ∧ p.asrt q

theorem pcqEnqueue_asrt (elem : α) (p : EnqueuePoint) {x x' : PcQueue α} {k : PcqPoint α}
    (h : pcqProgram.LocalStep (.enqueue elem p) x k x') (hp : p.asrt elem x)
    (hacquire : (pcqEnqueue elem p).takes = some .pcqCurrentSizeLock → x.Inv) : k.asrt x' := by
  cases p with
  | lockSize | relockSize =>
      obtain ⟨rfl, rfl⟩ := h
      exact hacquire rfl
  | waitPusher | asleep | lateUnlockHead | signalPopper =>
      obtain ⟨rfl, rfl⟩ := h
      trivial
  | lockTail | lockHead | unlockHead | unlockTail =>
      obtain ⟨rfl, rfl⟩ := h
      exact hp
  | checkFull =>
      cases h
      dsimp only
      split
      · rename_i hfull
        exact ⟨hp, hfull⟩
      · rename_i hfull
        have hle := hp.counts.le
        exact ⟨hp, by omega⟩
  | loadHead =>
      cases h
      exact hp
  | compareTail =>
      cases h
      dsimp only
      split
      · exact hp
      · exact hp
  | indexElem =>
      obtain ⟨i, hi, h⟩ := Option.map_eq_some_iff.mp h
      cases h
      exact ⟨hp, (PcQueue.index_eq_some hi).2⟩
  | storeElem must i =>
      obtain ⟨q', hq, h⟩ := Option.map_eq_some_iff.mp h
      cases h
      exact hp.1.storeSlot hp.2 hq
  | loadTail | loadSize =>
      cases h
      exact ⟨hp, rfl⟩
  | storeTail must tail =>
      obtain ⟨hp, rfl⟩ := hp
      cases h
      exact hp.storeTail
  | storeSize must size =>
      obtain ⟨hp, rfl⟩ := hp
      cases h
      exact hp.storeSize
  | unlockSize must =>
      obtain ⟨rfl, rfl⟩ := h
      cases must <;> trivial

theorem pcqDequeue_asrt (p : DequeuePoint α) {x x' : PcQueue α} {k : PcqPoint α}
    (h : pcqProgram.LocalStep (.dequeue p) x k x') (hmust : p.must = false) (hp : p.asrt x)
    (hacquire : (pcqDequeue p).takes = some .pcqCurrentSizeLock → x.Inv) : k.asrt x' := by
  cases p with
  | lockSize | relockSize =>
      obtain ⟨rfl, rfl⟩ := h
      exact ⟨rfl, hacquire rfl⟩
  | waitPopper | asleep =>
      obtain ⟨rfl, rfl⟩ := h
      exact ⟨rfl, trivial⟩
  | lockTail | lockHead | unlockTail | unlockHead =>
      obtain ⟨rfl, rfl⟩ := h
      exact ⟨hmust, hp⟩
  | lateUnlockTail => cases hmust
  | signalPusher =>
      obtain ⟨rfl, rfl⟩ := h
      trivial
  | checkEmpty =>
      cases h
      dsimp only
      split
      · rename_i hempty
        exact ⟨rfl, hp, hempty⟩
      · rename_i hempty
        exact ⟨rfl, hp, Nat.pos_of_ne_zero hempty⟩
  | loadHead =>
      cases h
      exact ⟨rfl, hp, rfl⟩
  | compareTail head =>
      obtain ⟨hp, rfl⟩ := hp
      cases h
      dsimp only
      split
      · rename_i heq
        have hzero := hp.1.counts.head_eq_tail_iff.mp heq
        have hpos := hp.2
        omega
      · exact ⟨rfl, hp⟩
  | indexElem =>
      obtain ⟨i, hi, h⟩ := Option.map_eq_some_iff.mp h
      cases h
      exact ⟨hmust, hp, (PcQueue.index_eq_some hi).2⟩
  | loadElem must i =>
      obtain ⟨first, hfirst, h⟩ := Option.map_eq_some_iff.mp h
      cases h
      exact ⟨hmust, hp.1, hp.1.loadSlot hp.2 hfirst⟩
  | indexSlot =>
      obtain ⟨i, hi, h⟩ := Option.map_eq_some_iff.mp h
      cases h
      exact ⟨hmust, hp.1, hp.2, (PcQueue.index_eq_some hi).2⟩
  | clearSlot must first i =>
      obtain ⟨q', hq, h⟩ := Option.map_eq_some_iff.mp h
      cases h
      exact ⟨hmust, hp.1.storeSlot hp.2.1 hp.2.2 hq⟩
  | reloadHead | loadSize =>
      cases h
      exact ⟨hmust, hp, rfl⟩
  | storeHead must first head =>
      obtain ⟨hp, rfl⟩ := hp
      cases h
      exact ⟨hmust, hp.storeHead⟩
  | storeSize must first size =>
      obtain ⟨hp, rfl⟩ := hp
      cases h
      exact ⟨hmust, hp.storeSize⟩
  | unlockSize must =>
      cases hmust
      obtain ⟨rfl, rfl⟩ := h
      exact ⟨rfl, trivial⟩

/-- Points without the size lock assert nothing about the queue. -/
theorem PcqPoint.asrt_stable {p : PcqPoint α} {x x' : PcQueue α}
    (h : .pcqCurrentSizeLock ∉ p.held) (hp : p.asrt x) : p.asrt x' := by
  cases p with
  | enqueue elem p =>
      cases p <;> first | exact hp | simp [PcqPoint.held, EnqueuePoint.held] at h
  | dequeue p =>
      cases p <;> first | exact hp | simp [PcqPoint.held, DequeuePoint.held] at h
  | _ => trivial

theorem PcqPoint.held_of_access {p : PcqPoint α}
    {f : PcQueue α → Option (PcQueue α × PcqPoint α)} (h : pcqProgram.act p = .access f) :
    .pcqCurrentSizeLock ∈ p.held := by
  cases p with
  | enqueue elem p => cases p <;> cases h <;> simp [PcqPoint.held, EnqueuePoint.held]
  | dequeue p => cases p <;> cases h <;> simp [PcqPoint.held, DequeuePoint.held]
  | _ => cases h

theorem PcqPoint.inv_of_releases {p : PcqPoint α} {x : PcQueue α}
    (h : (pcqProgram.act p).releases = some .pcqCurrentSizeLock) (hp : p.asrt x) : x.Inv := by
  cases p with
  | enqueue elem p =>
      cases p with
      | waitPusher => exact hp.1
      | unlockSize => exact hp
      | _ => cases h
  | dequeue p =>
      cases p with
      | waitPopper => exact hp.2.1
      | unlockSize => exact hp.2
      | _ => cases h
  | _ => cases h

theorem pcqProgram_monitor : Monitor (pcqProgram (α := α)) PcqPoint.held .pcqCurrentSizeLock
    PcQueue.Inv PcqPoint.asrt where
  init := fun _ => trivial
  stable := fun _ _ _ => PcqPoint.asrt_stable
  access := fun _ _ => PcqPoint.held_of_access
  step := by
    intro p x k x' h hp hacquire
    cases p with
    | idle | enqueued | dequeued =>
        obtain ⟨hentry, rfl⟩ := h
        obtain ⟨elem, rfl⟩ | rfl := entry_cases hentry
        · trivial
        · exact ⟨rfl, trivial⟩
    | enqueue elem p => exact pcqEnqueue_asrt elem p h hp hacquire
    | dequeue p => exact pcqDequeue_asrt p h hp.1 hp.2 hacquire
  release := fun _ _ => PcqPoint.inv_of_releases

/-! ## The queue in every run -/

section Runs

variable {T : Type*} [Fintype T] [DecidableEq T]
  {s : State T PcqMutex (PcqPoint α) (PcQueue α)}

theorem reachable_owned (h : (pcqMachine T α).Reachable s) : Owned PcqPoint.held s :=
  pcqProgram_lockDiscipline.owned h

theorem reachable_guarded (h : (pcqMachine T α).Reachable s) :
    Guarded .pcqCurrentSizeLock PcQueue.Inv PcqPoint.asrt s :=
  pcqProgram_monitor.guarded pcqProgram_lockDiscipline PcQueue.inv_of_start h

/-- Whoever is between two steps of the monitor, the queue keeps its counts
and the order of its elements. -/
theorem PcqPoint.keeps_of_held {p : PcqPoint α} {q : PcQueue α}
    (h : .pcqCurrentSizeLock ∈ p.held) (hp : p.asrt q) : ∃ n r xs, q.Keeps n r xs := by
  cases p with
  | enqueue elem p =>
      cases p with
      | checkFull | unlockTail | loadSize | unlockSize => exact ⟨_, _, _, hp⟩
      | waitPusher | lockTail | lockHead | loadHead | compareTail | unlockHead | indexElem
      | loadTail | storeSize => exact ⟨_, _, _, hp.1⟩
      | storeElem | storeTail => exact ⟨_, _, _, hp.1.1⟩
      | _ => simp [PcqPoint.held, EnqueuePoint.held] at h
  | dequeue p =>
      obtain ⟨-, hp⟩ := hp
      cases p with
      | checkEmpty | unlockSize => exact ⟨_, _, _, hp⟩
      | waitPopper | lockTail | lockHead | loadHead | unlockTail | indexElem | reloadHead
      | unlockHead | loadSize => exact ⟨_, _, _, hp.1⟩
      | compareTail | loadElem | indexSlot | clearSlot | storeHead | storeSize =>
          exact ⟨_, _, _, hp.1.1⟩
      | _ => simp [PcqPoint.held, DequeuePoint.held] at h
  | _ => simp [PcqPoint.held] at h

theorem reachable_keeps (h : (pcqMachine T α).Reachable s) : ∃ n r xs, s.shared.Keeps n r xs := by
  have hg := reachable_guarded h
  cases howner : s.owner .pcqCurrentSizeLock with
  | none => exact ⟨_, _, _, hg.free howner⟩
  | some t =>
      have hheld := (reachable_owned h t _).mp howner
      exact PcqPoint.keeps_of_held hheld (hg.at_point t)

/-- The thread is about to compute a counter modulo `pcq_capacity`. -/
def PcqPoint.computesIndex : PcqPoint α → Bool
  | .enqueue _ (.indexElem _) | .dequeue (.indexElem _) | .dequeue (.indexSlot _ _) => true
  | _ => false

theorem PcqPoint.capacity_pos {p : PcqPoint α} {q : PcQueue α} (h : p.computesIndex)
    (hp : p.asrt q) : 0 < q.pcqCapacity := by
  cases p with
  | enqueue elem p =>
      cases p with
      | indexElem => exact Nat.zero_lt_of_lt hp.2
      | _ => cases h
  | dequeue p =>
      cases p with
      | indexElem => exact hp.2.capacity_pos
      | indexSlot => exact hp.2.1.capacity_pos
      | _ => cases h
  | _ => cases h

/-- No access of the queue faults: indices are in bounds, and no counter
is taken modulo 0. -/
theorem reachable_access_isSome (h : (pcqMachine T α).Reachable s) {t : T}
    {f : PcQueue α → Option (PcQueue α × PcqPoint α)}
    (hact : pcqProgram.act (s.pc t) = .access f) : (f s.shared).isSome := by
  have hp := (reachable_guarded h).at_point t
  cases hpc : s.pc t with
  | enqueue elem p =>
      rw [hpc] at hact hp
      cases p with
      | indexElem must =>
          cases hact
          rw [Option.isSome_map, PcQueue.index_isSome (Nat.zero_lt_of_lt hp.2)]
          rfl
      | storeElem must i =>
          cases hact
          obtain ⟨hp, rfl⟩ := hp
          rw [Option.isSome_map, PcQueue.storeSlot,
            if_pos (Nat.mod_lt _ (Nat.zero_lt_of_lt hp.2))]
          rfl
      | _ => cases hact <;> rfl
  | dequeue p =>
      rw [hpc] at hact hp
      obtain ⟨-, hp⟩ := hp
      cases p with
      | indexElem must =>
          cases hact
          rw [Option.isSome_map, PcQueue.index_isSome hp.capacity_pos]
          rfl
      | loadElem must i =>
          cases hact
          obtain ⟨hp, rfl⟩ := hp
          rw [Option.isSome_map, PcQueue.loadSlot, if_pos (Nat.mod_lt _ hp.capacity_pos)]
          rfl
      | indexSlot must first =>
          cases hact
          rw [Option.isSome_map, PcQueue.index_isSome hp.1.capacity_pos]
          rfl
      | clearSlot must first i =>
          cases hact
          obtain ⟨hp, -, rfl⟩ := hp
          rw [Option.isSome_map, PcQueue.storeSlot, if_pos (Nat.mod_lt _ hp.capacity_pos)]
          rfl
      | _ => cases hact <;> rfl
  | _ =>
      rw [hpc] at hact
      cases hact

/-- The fields of a queue that nobody is changing, and what destroying it
would free. -/
structure PcQueue.Fifo (q : PcQueue α) : Prop where
  tail_eq : q.pcqTail = q.inserted.length
  head_eq : q.pcqHead = q.removed.length
  head_le : q.pcqHead ≤ q.pcqTail
  size_eq : q.pcqCurrentSize = q.pcqTail - q.pcqHead
  size_le : q.pcqCurrentSize ≤ q.pcqCapacity
  slot : ∀ k, q.pcqHead ≤ k → k < q.pcqTail → q.pcqBuffer (k % q.pcqCapacity) = q.inserted[k]?
  slot_null : ∀ i < q.pcqCapacity,
    (∀ k, q.pcqHead ≤ k → k < q.pcqTail → k % q.pcqCapacity ≠ i) → q.pcqBuffer i = none
  freed : (pcqDestroy q).Perm (q.inserted.drop q.removed.length)

theorem PcQueue.Inv.fifo {q : PcQueue α} (h : q.Inv)
    (hshort : q.inserted.length < 18446744073709551616) : q.Fifo := by
  obtain ⟨hcap, hlen, hle, htail, hhead⟩ := h.counts
  obtain ⟨-, hslots⟩ := h.contents hshort
  have htail : q.pcqTail = q.inserted.length := by omega
  have hhead : q.pcqHead = q.removed.length := by omega
  constructor
  case tail_eq => exact htail
  case head_eq => exact hhead
  case head_le => omega
  case size_eq => omega
  case size_le => exact hle
  case slot =>
    intro k hk hlt
    exact hslots k (by omega) (by omega)
  case slot_null =>
    intro i hi hfree
    rw [hhead, htail] at hfree
    exact hslots.slot_none hi hfree
  case freed => exact hslots.filterMap_perm (by omega)

/-- **The queue is a bounded FIFO**: in every run, as long as `pcq_tail`
has been advanced fewer than 2^64 times. -/
theorem reachable_fifo (h : (pcqMachine T α).Reachable s)
    (hshort : s.shared.inserted.length < 18446744073709551616) :
    s.shared.removed <+: s.shared.inserted.map some ∧
      (s.owner .pcqCurrentSizeLock = none → s.shared.Fifo) ∧
      ∀ t, (s.pc t).computesIndex → s.shared.pcqCapacity ≠ 0 := by
  have hg := reachable_guarded h
  refine ⟨?_, ?_, ?_⟩
  · obtain ⟨n, r, xs, hkeeps⟩ := reachable_keeps h
    rw [(hkeeps.contents hshort).removed_eq]
    exact (List.take_prefix _ _).map some
  · exact fun hfree => (hg.free hfree).fifo hshort
  · intro t hindex
    have hpos := PcqPoint.capacity_pos hindex (hg.at_point t)
    omega

end Runs

/-- All threads outside a queue made by `pcq_create`. -/
def pcqStart (T : Type*) (capacity : Nat) : State T PcqMutex (PcqPoint α) (PcQueue α) :=
  ⟨pcqCreate capacity, fun _ => none, fun _ => .idle⟩

/-- On a queue of one slot the threads 0 and 1 go to sleep in `pcq_dequeue`,
thread 2 enqueues an element and wakes thread 0, which finds the queue
nonempty. -/
def handover : List (Event (Fin 3) (PcqPoint Nat)) :=
  [.call 0 (.dequeue .lockSize), .run 0, .run 0, .run 0,
    .call 1 (.dequeue .lockSize), .run 1, .run 1, .run 1,
    .call 2 (.enqueue 7 .lockSize)] ++ List.replicate 15 (.run 2) ++
    [.signal 2 {0}, .run 0, .run 0]

/-- Thread 0 goes on to take the element, and to return. -/
def handoverDone : List (Event (Fin 3) (PcqPoint Nat)) :=
  handover ++ List.replicate 15 (.run 0) ++ [.signal 0 ∅]

theorem pcqStart_reachable (T : Type*) [Fintype T] [DecidableEq T] {capacity : Nat}
    (h : capacity < 18446744073709551616) :
    (pcqMachine T α).Reachable (pcqStart T capacity) :=
  .start ⟨⟨capacity, h, rfl⟩, fun _ => rfl, fun _ => rfl⟩

theorem handoverDone_result :
    ((pcqMachine (Fin 3) Nat).run (pcqStart (Fin 3) 1) handoverDone).map
      (fun s => (s.pc 0, s.shared.inserted, s.shared.removed)) =
      some (.dequeued (some 7), [7], [some 7]) := by
  decide +kernel

theorem handoverDone_fifo :
    ∃ s, (pcqMachine (Fin 3) Nat).run (pcqStart (Fin 3) 1) handoverDone = some s ∧
      s.shared.inserted = [7] ∧
      s.shared.removed <+: s.shared.inserted.map some ∧
      (s.owner .pcqCurrentSizeLock = none → s.shared.Fifo) ∧
      ∀ t, (s.pc t).computesIndex → s.shared.pcqCapacity ≠ 0 := by
  obtain ⟨s, hrun, hobs⟩ := Option.map_eq_some_iff.mp handoverDone_result
  have hinserted : s.shared.inserted = [7] := congrArg (fun r => r.2.1) hobs
  have hreach := (pcqStart_reachable (Fin 3) (by decide)).run (by simp) hrun
  exact ⟨s, hrun, hinserted, reachable_fifo hreach (by rw [hinserted]; decide)⟩

end MBroker
