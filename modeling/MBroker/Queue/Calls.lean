import Mathlib.Algebra.Order.Group.Multiset
import MBroker.Lib.Liveness
import MBroker.Queue.Fifo

/-!
# What a call hands over

Every element is in one place: with the enqueuer that has not inserted it,
in the queue, with the popper that has removed it, or with the caller that
it was returned to. Any number of threads enqueue and dequeue; each change
of `inserted` and `removed` is matched by one of the thread that makes it.
-/

namespace MBroker

open Threads

variable {α : Type*}

/-! ## Elements in the hands of a thread -/

namespace PcqPoint

/-- The argument of `pcq_enqueue` until `pcq_tail` has passed it. -/
def inserting : PcqPoint α → List α
  | .enqueue elem p =>
      match p with
      | .unlockTail _ | .loadSize _ | .storeSize _ _ | .unlockSize _ | .lateUnlockHead
      | .signalPopper => []
      | _ => [elem]
  | _ => []

/-- What `pcq_dequeue` has removed, until the thread's next call. -/
def taken : PcqPoint α → Multiset (Option α)
  | .dequeued first => {first}
  | .dequeue p =>
      match p with
      | .unlockHead _ first | .loadSize _ first | .storeSize _ first _ | .unlockSize _ first
      | .lateUnlockTail first | .signalPusher first => {first}
      | _ => 0
  | _ => 0

end PcqPoint

/-- The thread goes on with its call, or returns from it, or is outside. -/
inductive SameCall : PcqPoint α → PcqPoint α → Prop
  | outside {p : PcqPoint α} (h : pcqProgram.act p = .idle) : SameCall p p
  | enqueue {elem : α} {p p' : EnqueuePoint} : SameCall (.enqueue elem p) (.enqueue elem p')
  | enqueued {elem : α} {p : EnqueuePoint} : SameCall (.enqueue elem p) .enqueued
  | dequeue {p p' : DequeuePoint α} : SameCall (.dequeue p) (.dequeue p')
  | dequeued {p : DequeuePoint α} {first : Option α} : SameCall (.dequeue p) (.dequeued first)

theorem SameCall.refl (p : PcqPoint α) : SameCall p p := by
  cases p with
  | idle | enqueued | dequeued => exact .outside rfl
  | enqueue elem p => exact .enqueue
  | dequeue p => exact .dequeue

/-- A step from `p` to `k` that takes the queue from `x` to `x'` moves
elements between the thread and the queue only. -/
structure HandsOver (p k : PcqPoint α) (x x' : PcQueue α) : Prop where
  same : SameCall p k
  insert : x'.inserted ++ k.inserting = x.inserted ++ p.inserting
  remove : (x'.removed : Multiset (Option α)) + p.taken = x.removed + k.taken
  capacity : x'.pcqCapacity = x.pcqCapacity

section Local

variable {p k : PcqPoint α} {x x' : PcQueue α}

theorem HandsOver.of_eq (hsame : SameCall p k) (hinserted : x'.inserted = x.inserted)
    (hremoved : x'.removed = x.removed) (hcapacity : x'.pcqCapacity = x.pcqCapacity)
    (hinserting : k.inserting = p.inserting) (htaken : k.taken = p.taken) : HandsOver p k x x' :=
  ⟨hsame, by rw [hinserted, hinserting], by rw [hremoved, htaken], hcapacity⟩

theorem storeSize_inserted (q : PcQueue α) (size : Nat) :
    (q.storeSize size).inserted = q.inserted := rfl

theorem storeTail_capacity (q : PcQueue α) (tail : Nat) (elem : α) :
    (q.storeTail tail elem).pcqCapacity = q.pcqCapacity := rfl

theorem storeSize_removed (q : PcQueue α) (size : Nat) :
    (q.storeSize size).removed = q.removed := rfl

theorem storeSize_capacity (q : PcQueue α) (size : Nat) :
    (q.storeSize size).pcqCapacity = q.pcqCapacity := rfl

theorem pcqEnqueue_handsOver (elem : α) (p : EnqueuePoint)
    (h : pcqProgram.LocalStep (.enqueue elem p) x k x') :
    HandsOver (.enqueue elem p) k x x' := by
  cases p with
  | lockSize | waitPusher | asleep | relockSize | lockTail | lockHead | unlockHead | unlockTail
  | lateUnlockHead =>
      obtain ⟨rfl, rfl⟩ := h
      exact .of_eq .enqueue rfl rfl rfl rfl rfl
  | signalPopper =>
      obtain ⟨rfl, rfl⟩ := h
      exact .of_eq .enqueued rfl rfl rfl rfl rfl
  | unlockSize must =>
      obtain ⟨rfl, rfl⟩ := h
      cases must
      · exact .of_eq .enqueue rfl rfl rfl rfl rfl
      · exact .of_eq .enqueue rfl rfl rfl rfl rfl
  | checkFull | compareTail =>
      cases h
      dsimp only
      split
      · exact .of_eq .enqueue rfl rfl rfl rfl rfl
      · exact .of_eq .enqueue rfl rfl rfl rfl rfl
  | loadHead | loadTail | loadSize =>
      cases h
      exact .of_eq .enqueue rfl rfl rfl rfl rfl
  | storeSize must size =>
      cases h
      exact .of_eq .enqueue (storeSize_inserted ..) (storeSize_removed ..)
        (storeSize_capacity ..) rfl rfl
  | indexElem =>
      obtain ⟨_, _, h⟩ := Option.map_eq_some_iff.mp h
      cases h
      exact .of_eq .enqueue rfl rfl rfl rfl rfl
  | storeElem =>
      obtain ⟨_, hq, h⟩ := Option.map_eq_some_iff.mp h
      cases h
      cases PcQueue.storeSlot_eq_some hq
      exact .of_eq .enqueue rfl rfl rfl rfl rfl
  | storeTail must tail =>
      -- the element goes from the thread to the queue
      cases h
      constructor
      case same => exact .enqueue
      case insert =>
        show (x.inserted ++ [elem]) ++ [] = x.inserted ++ [elem]
        rw [List.append_nil]
      case remove =>
        show (x.removed : Multiset (Option α)) + 0 = x.removed + 0
        rfl
      case capacity => exact storeTail_capacity ..

theorem pcqDequeue_handsOver (p : DequeuePoint α)
    (h : pcqProgram.LocalStep (.dequeue p) x k x') : HandsOver (.dequeue p) k x x' := by
  cases p with
  | lockSize | waitPopper | asleep | relockSize | lockTail | lockHead | unlockTail | unlockHead
  | lateUnlockTail =>
      obtain ⟨rfl, rfl⟩ := h
      exact .of_eq .dequeue rfl rfl rfl rfl rfl
  | signalPusher =>
      obtain ⟨rfl, rfl⟩ := h
      exact .of_eq .dequeued rfl rfl rfl rfl rfl
  | unlockSize must =>
      obtain ⟨rfl, rfl⟩ := h
      cases must
      · exact .of_eq .dequeue rfl rfl rfl rfl rfl
      · exact .of_eq .dequeue rfl rfl rfl rfl rfl
  | checkEmpty | compareTail =>
      cases h
      dsimp only
      split
      · exact .of_eq .dequeue rfl rfl rfl rfl rfl
      · exact .of_eq .dequeue rfl rfl rfl rfl rfl
  | loadHead | reloadHead | loadSize =>
      cases h
      exact .of_eq .dequeue rfl rfl rfl rfl rfl
  | storeSize must first size =>
      cases h
      exact .of_eq .dequeue (storeSize_inserted ..) (storeSize_removed ..)
        (storeSize_capacity ..) rfl rfl
  | indexElem | loadElem | indexSlot =>
      obtain ⟨_, _, h⟩ := Option.map_eq_some_iff.mp h
      cases h
      exact .of_eq .dequeue rfl rfl rfl rfl rfl
  | clearSlot =>
      obtain ⟨_, hq, h⟩ := Option.map_eq_some_iff.mp h
      cases h
      cases PcQueue.storeSlot_eq_some hq
      exact .of_eq .dequeue rfl rfl rfl rfl rfl
  | storeHead must first head =>
      -- the element goes from the queue to the thread
      cases h
      constructor
      case same => exact .dequeue
      case insert => rfl
      case remove =>
        show ((x.removed ++ [first] : List (Option α)) : Multiset (Option α)) + 0 =
          x.removed + {first}
        rw [add_zero, ← Multiset.coe_add, Multiset.coe_singleton]
      case capacity => rfl

theorem handsOver_of_localStep (hrunning : pcqProgram.act p ≠ .idle)
    (h : pcqProgram.LocalStep p x k x') : HandsOver p k x x' := by
  cases p with
  | idle | enqueued | dequeued => exact absurd rfl hrunning
  | enqueue elem p => exact pcqEnqueue_handsOver elem p h
  | dequeue p => exact pcqDequeue_handsOver p h

end Local

/-! ## Steps -/

section Steps

variable {T : Type*} [Fintype T] [DecidableEq T]
  {s s' : State T PcqMutex (PcqPoint α) (PcQueue α)} {e : Event T (PcqPoint α)}

/-- One thread hands over, the others move inside their calls at most. -/
structure StepHandsOver (s s' : State T PcqMutex (PcqPoint α) (PcQueue α)) (t : T) : Prop where
  own : HandsOver (s.pc t) (s'.pc t) s.shared s'.shared
  others : ∀ u, u ≠ t → SameCall (s.pc u) (s'.pc u) ∧
    (s'.pc u).inserting = (s.pc u).inserting ∧ (s'.pc u).taken = (s.pc u).taken

/-- Waking up changes nothing of the kind. -/
theorem awake_sameCall {c : PcqCondvar} {p : PcqPoint α}
    (h : (pcqProgram.act p).isAsleep c) :
    SameCall p (pcqProgram.awake p) ∧ (pcqProgram.awake p).inserting = p.inserting ∧
      (pcqProgram.awake p).taken = p.taken := by
  cases p with
  | idle | enqueued | dequeued => cases h
  | enqueue elem p =>
      cases p <;> exact ⟨.enqueue, rfl, rfl⟩
  | dequeue p =>
      cases p <;> exact ⟨.dequeue, rfl, rfl⟩

theorem inserting_of_idle {p : PcqPoint α} (h : pcqProgram.act p = .idle) : p.inserting = [] := by
  cases p with
  | idle | enqueued | dequeued => rfl
  | enqueue elem p => cases p <;> cases h
  | dequeue p => cases p <;> cases h

theorem taken_of_entry {p : PcqPoint α} (h : pcqProgram.entry p) : p.taken = 0 := by
  obtain ⟨elem, rfl⟩ | rfl := entry_cases h
  · rfl
  · rfl

/-- The steps other than calls are taken inside a call. -/
theorem act_ne_idle_of_step (h : step pcqProgram s e = some s')
    (hcall : ∀ t p, e ≠ .call t p) : pcqProgram.act (s.pc e.thread) ≠ .idle := by
  intro hidle
  cases e with
  | call t p => exact hcall t p rfl
  | run t =>
      simp only [step, show pcqProgram.act (s.pc t) = .idle from hidle] at h
      cases h
  | signal t woken =>
      simp only [step, show pcqProgram.act (s.pc t) = .idle from hidle] at h
      cases h
  | wake t =>
      simp only [step, show pcqProgram.act (s.pc t) = .idle from hidle] at h
      cases h

theorem step_handsOver (h : step pcqProgram s e = some s') (hcall : ∀ t p, e ≠ .call t p) :
    StepHandsOver s s' e.thread := by
  have hidle := act_ne_idle_of_step h hcall
  cases step_cases h with
  | @own k x' hlocal =>
      constructor
      · show HandsOver _ (Function.update s.pc e.thread k e.thread) _ _
        rw [Function.update_self]
        exact handsOver_of_localStep hidle hlocal
      · intro u hu
        show SameCall _ (Function.update s.pc e.thread k u) ∧ _
        simp only [Function.update_of_ne hu]
        exact ⟨.refl _, trivial, trivial⟩
  | @signal c k woken hact hwoken =>
      constructor
      · rw [State.goto_pc_self]
        exact handsOver_of_localStep hidle (localStep_signal _ hact)
      · intro u hu
        have hpc : ((s.wakeAll pcqProgram woken).goto e.thread k).pc u =
            if u ∈ woken then pcqProgram.awake (s.pc u) else s.pc u := State.goto_pc_of_ne _ _ hu
        rw [hpc]
        split
        · rename_i hmem
          exact awake_sameCall (hwoken u hmem)
        · exact ⟨.refl _, rfl, rfl⟩

end Steps

/-! ## Runs -/

/-- What the calls were given and what they returned. A result is the
caller's until its thread calls again. -/
structure PcqHistory (α : Type*) where
  given : Multiset α
  results : Multiset (Option α)

section Runs

variable {T : Type*} [Fintype T] [DecidableEq T]
  {s s' : State T PcqMutex (PcqPoint α) (PcQueue α)} {g : PcqHistory α}

def PcqHistory.update (s : State T PcqMutex (PcqPoint α) (PcQueue α))
    (e : Event T (PcqPoint α)) (_ : State T PcqMutex (PcqPoint α) (PcQueue α))
    (g : PcqHistory α) : PcqHistory α :=
  match e with
  | .call t p => ⟨g.given + p.inserting, g.results + (s.pc t).taken⟩
  | _ => g

/-- The runs of the queue with the history of its calls. -/
abbrev callsMachine (T α : Type*) [Fintype T] [DecidableEq T] :
    Machine (State T PcqMutex (PcqPoint α) (PcQueue α) × PcqHistory α) (Event T (PcqPoint α)) :=
  (pcqMachine T α).ghost ⟨0, 0⟩ PcqHistory.update

/-- What was given has been inserted or is still with its enqueuer, what was
removed has been returned or is still with its popper. -/
structure Accounted (s : State T PcqMutex (PcqPoint α) (PcQueue α)) (g : PcqHistory α) :
    Prop where
  inserted : (s.shared.inserted : Multiset α) + ∑ t, ((s.pc t).inserting : Multiset α) = g.given
  removed : (s.shared.removed : Multiset (Option α)) = g.results + ∑ t, (s.pc t).taken

omit [DecidableEq T] in
theorem Accounted.start (h : (∃ capacity < 18446744073709551616,
    s.shared = pcqCreate capacity) ∧ (∀ m, s.owner m = none) ∧ ∀ t, s.pc t = .idle) :
    Accounted s ⟨0, 0⟩ := by
  obtain ⟨⟨capacity, -, hshared⟩, -, hpc⟩ := h
  constructor
  · rw [hshared, Finset.sum_eq_zero fun t _ => by rw [hpc t]; rfl]
    rfl
  · rw [hshared, Finset.sum_eq_zero fun t _ => by rw [hpc t]; rfl]
    rfl

/-- What one side gains the other loses. -/
theorem add_eq_of_transfer {M : Type*} [AddCancelCommMonoid M] {a a' b b' c c' : M}
    (ha : a' + c' = a + c) (hb : b' + c = b + c') : a' + b' = a + b := by
  apply add_right_cancel (b := c)
  calc a' + b' + c = a' + (b + c') := by rw [add_assoc, hb]
    _ = a' + c' + b := by rw [add_comm b, add_assoc]
    _ = a + b + c := by rw [ha, add_right_comm]

theorem Accounted.handsOver {t : T} (h : Accounted s g) (hs : StepHandsOver s s' t) :
    Accounted s' g := by
  obtain ⟨⟨-, hinsert, hremove, -⟩, hothers⟩ := hs
  have hinserting := sum_add_of_eq_elsewhere (t := t)
    (f := fun u => ((s'.pc u).inserting : Multiset α))
    (g := fun u => ((s.pc u).inserting : Multiset α))
    (fun u hu => by rw [(hothers u hu).2.1])
  have htaken := sum_add_of_eq_elsewhere (t := t) (f := fun u => (s'.pc u).taken)
    (g := fun u => (s.pc u).taken) (fun u hu => (hothers u hu).2.2)
  have hinsert := congrArg (fun l : List α => (l : Multiset α)) hinsert
  simp only [← Multiset.coe_add] at hinsert
  constructor
  · rw [← h.inserted]
    exact add_eq_of_transfer hinsert hinserting
  · apply add_right_cancel (b := (s.pc t).taken)
    rw [hremove, h.removed, add_assoc, ← htaken, add_assoc]

/-- A call takes its argument along, and leaves the result of the call before. -/
theorem Accounted.call {t : T} {p : PcqPoint α} (h : Accounted s g)
    (hs : step pcqProgram s (.call t p) = some s') :
    Accounted s' ⟨g.given + p.inserting, g.results + (s.pc t).taken⟩ := by
  obtain ⟨hact, hentry⟩ := idle_of_call hs
  obtain rfl := step_call hs
  have hinserting := sum_add_of_eq_elsewhere (t := t)
    (f := fun u => (((s.goto t p).pc u).inserting : Multiset α))
    (g := fun u => ((s.pc u).inserting : Multiset α))
    (fun u hu => by rw [s.goto_pc_of_ne p hu])
  have htaken := sum_add_of_eq_elsewhere (t := t) (f := fun u => ((s.goto t p).pc u).taken)
    (g := fun u => (s.pc u).taken) (fun u hu => by rw [s.goto_pc_of_ne p hu])
  simp only [State.goto_pc_self] at hinserting htaken
  rw [inserting_of_idle hact, Multiset.coe_nil, add_zero] at hinserting
  rw [taken_of_entry hentry, add_zero] at htaken
  constructor
  · show (s.shared.inserted : Multiset α) + _ = _
    rw [hinserting, ← add_assoc, h.inserted]
  · show (s.shared.removed : Multiset (Option α)) = _
    rw [h.removed, ← htaken, add_assoc, add_comm (s.pc t).taken]

/-- **Nothing is lost or duplicated**: in every run each element is where it
was taken to, in its call, in the queue, with its popper or returned. -/
theorem reachable_accounted {r : State T PcqMutex (PcqPoint α) (PcQueue α) × PcqHistory α}
    (hr : (callsMachine T α).Reachable r) : Accounted r.1 r.2 := by
  induction hr with
  | @start r h =>
      obtain ⟨hs, hg⟩ := h
      rw [hg]
      exact .start hs
  | @step r r' e _ _ hstep ih =>
      obtain ⟨hs, hg⟩ := Machine.ghost_step_eq_some.mp hstep
      change Threads.step pcqProgram r.1 e = some r'.1 at hs
      rw [hg]
      cases e with
      | call t p => exact ih.call hs
      | run | signal | wake => exact ih.handsOver (step_handsOver hs (by simp))

/-- **The queue conserves elements**, as long as `pcq_tail` has not wrapped
around: what was given is what came out, what poppers hold, what is in the
queue and what enqueuers hold. -/
theorem reachable_conserved {r : State T PcqMutex (PcqPoint α) (PcQueue α) × PcqHistory α}
    (hr : (callsMachine T α).Reachable r)
    (hshort : r.1.shared.inserted.length < 18446744073709551616) :
    r.2.given.map some = r.2.results + ∑ t, (r.1.pc t).taken +
      (((r.1.shared.inserted.drop r.1.shared.removed.length : List α) : Multiset α) +
        ∑ t, ((r.1.pc t).inserting : Multiset α)).map some := by
  obtain ⟨hinserted, hremoved⟩ := reachable_accounted hr
  obtain ⟨_, _, _, hkeeps⟩ := reachable_keeps (Machine.ghost_fst hr)
  have htake : (r.1.shared.removed : Multiset (Option α)) =
      ((r.1.shared.inserted.take r.1.shared.removed.length : List α) : Multiset α).map some := by
    rw [Multiset.map_coe, ← (hkeeps.contents hshort).removed_eq]
  rw [← hremoved, htake, ← Multiset.map_add, ← add_assoc, Multiset.coe_add,
    List.take_append_drop, hinserted]

end Runs

/-- In the run `handoverDone` the element is with thread 0. -/
theorem handoverDone_conserved : ∃ r, (callsMachine (Fin 3) Nat).Reachable r ∧
    r.1.pc 0 = .dequeued (some 7) ∧ r.2.given.map some =
      r.2.results + ∑ t, (r.1.pc t).taken +
        (((r.1.shared.inserted.drop r.1.shared.removed.length : List Nat) : Multiset Nat) +
          ∑ t, ((r.1.pc t).inserting : Multiset Nat)).map some := by
  obtain ⟨s, hrun, hobs⟩ := Option.map_eq_some_iff.mp handoverDone_result
  have hpc : s.pc 0 = .dequeued (some 7) := congrArg Prod.fst hobs
  have hinserted : s.shared.inserted = [7] := congrArg (fun r => r.2.1) hobs
  have hreach := (pcqStart_reachable (Fin 3) (by decide)).run (by simp) hrun
  obtain ⟨g, hg⟩ : ∃ g, (callsMachine (Fin 3) Nat).Reachable (s, g) :=
    Machine.Reachable.ghost hreach
  exact ⟨(s, g), hg, hpc, reachable_conserved hg (by rw [hinserted]; decide)⟩

end MBroker
