import MBroker.Broker.BoxHolder
import MBroker.Lib.Threads

/-!
# The lock of the registry (mbroker/box_metadata.c)

Every function of `BoxHolder` takes `holder->lock` first and runs to its
end with it, so what stands between the lock and the unlock, or the return,
is one access to the holder here.

Three of the five ways out go past the unlock: both returns of a find, and
the one of a remove that has found its box, if it did not abort when it
destroys the box (`BoxHolder`). A thread that leaves by one of them is
outside the registry and still owns the lock. While no call takes one of
them, a thread outside the registry owns nothing, and the lock is free when
all threads are.
-/

namespace MBroker

open Threads

inductive HolderMutex
  | lock
deriving DecidableEq

/-- Where a thread is: outside, about to take the lock, with the lock, or
about to release it. -/
inductive HolderPoint
  | idle
  | enter (c : BoxCall)
  | body (c : BoxCall)
  | leave
deriving DecidableEq

/-- Where a call goes behind its loop. -/
def LockExit.next : LockExit → HolderPoint
  | .unlocks => .leave
  | .keeps => .idle

/-- The threads that use a registry call its functions at will. -/
def holderProgram : Program HolderMutex Empty HolderPoint BoxHolder where
  init := .idle
  entry
    | .enter _ => true
    | _ => false
  act
    | .idle => .idle
    | .enter c => .lock .lock (.body c)
    | .body c => .access fun holder =>
        (boxCall holder c).toOption.map fun (exit, _, holder) => (holder, exit.next)
    | .leave => .unlock .lock .idle

abbrev HolderState (T : Type*) := State T HolderMutex HolderPoint BoxHolder

/-- The threads `T` on a registry made by `box_holder_create`. -/
def holderMachine (T : Type*) [Fintype T] [DecidableEq T] :
    Machine (HolderState T) (Event T HolderPoint) :=
  holderProgram.machine T fun holder =>
    ∃ maxBoxes callocs, boxHolderCreate maxBoxes callocs = (0, holder)

/-- A thread between its lock and its unlock holds the lock. -/
def HolderPoint.held : HolderPoint → Finset HolderMutex
  | .idle | .enter _ => ∅
  | .body _ | .leave => {.lock}

/-! ## What is asked of a step -/

/-- No box in the registry has the name. -/
def Absent (holder : BoxHolder) (name : CString) : Prop :=
  ∀ i < holder.currentSize, ∀ box ∈ holder.boxes.get i, box.name ≠ name

instance (holder : BoxHolder) (name : CString) : Decidable (Absent holder name) :=
  inferInstanceAs (Decidable
    (∀ i < holder.currentSize, ∀ box ∈ holder.boxes.get i, box.name ≠ name))

/-- No find takes the lock, and a remove that has it finds nothing. -/
def AvoidsAt (holder : BoxHolder) : HolderPoint → Prop
  | .enter (.findBox _) => False
  | .body (.remove name) => Absent holder name
  | _ => True

def Avoids {T : Type*} (s : HolderState T) (e : Event T HolderPoint) : Prop :=
  AvoidsAt s.shared (s.pc e.thread)

/-- The lock is not kept by a call that has returned. -/
structure LockReleased {T : Type*} [Fintype T] [DecidableEq T] (s : HolderState T) : Prop where
  /-- a thread outside the registry does not own the lock -/
  returned : ∀ t, s.pc t = .idle → s.owner .lock ≠ some t
  /-- a call with the lock that fits and finds nothing to remove returns, and the lock is free -/
  returns : ∀ t c, s.pc t = .body c → HasRoom s.shared c → AvoidsAt s.shared (.body c) →
    ∃ s', (holderMachine T).run s [.run t, .run t] = some s' ∧ s'.pc t = .idle ∧
      s'.owner .lock = none
  /-- with no call in progress the lock is free -/
  free : (∀ t, s.pc t = .idle) → s.owner .lock = none
  /-- with no call in progress every call can enter -/
  enters : (∀ t, s.pc t = .idle) → ∀ t c,
    ∃ s', (holderMachine T).run s [.call t (.enter c), .run t] = some s' ∧ s'.pc t = .body c

/-! ## One step -/

section Point

variable {holder : BoxHolder} {boxes : List BoxMetadata} {name : CString} {c : BoxCall}

theorem Holds.absent_iff (h : Holds holder boxes) :
    Absent holder name ↔ ∀ box ∈ boxes, box.name ≠ name := by
  constructor
  · intro habsent box hmem
    obtain ⟨i, hi, rfl⟩ := List.mem_iff_getElem.mp hmem
    exact habsent i (h.length ▸ hi) _ (h.get hi)
  · intro hno i hi box hget
    have hi : i < boxes.length := h.length ▸ hi
    rw [h.get hi, Option.mem_some] at hget
    rw [← hget]
    exact hno _ (List.getElem_mem hi)

/-- A remove unlocks when it has found nothing. -/
theorem Holds.exitOf_remove (h : Holds holder boxes) :
    exitOf boxes (.remove name) = if Absent holder name then .unlocks else .keeps := by
  have hfound : (∃ box ∈ boxes, box.name = name) ↔ ¬ Absent holder name := by
    rw [h.absent_iff]
    simp
  by_cases habsent : Absent holder name
  · rw [exitOf, if_neg fun hf => hfound.mp hf habsent, if_pos habsent]
  · rw [exitOf, if_pos (hfound.mpr habsent), if_neg habsent]

/-- A call that avoids the early returns ends with the unlock. -/
theorem Holds.exitOf_avoids (h : Holds holder boxes) (hbody : ∀ name, c ≠ .findBox name)
    (ha : AvoidsAt holder (.body c)) : exitOf boxes c = .unlocks := by
  cases c with
  | insert box => rfl
  | remove name => exact h.exitOf_remove.trans (if_pos ha)
  | findBox name => exact absurd rfl (hbody name)

/-- One step of a thread that avoids the early returns: it holds what its
point says, the registry is a list, and the thread is in no find. -/
theorem holderProgram_local {p k : HolderPoint} {holder' : BoxHolder} (h : Holds holder boxes)
    (ha : AvoidsAt holder p) (hbody : ∀ name, p ≠ .body (.findBox name))
    (hlocal : holderProgram.LocalStep p holder k holder') :
    k.held = (holderProgram.act p).locksAfter p.held ∧ (∃ boxes', Holds holder' boxes') ∧
      ∀ name, k ≠ .body (.findBox name) := by
  cases p with
  | idle =>
      obtain ⟨hentry, rfl⟩ := hlocal
      cases k with
      | enter c => exact ⟨rfl, ⟨boxes, h⟩, fun _ => HolderPoint.noConfusion⟩
      | _ => cases hentry
  | enter c =>
      obtain ⟨rfl, rfl⟩ := hlocal
      refine ⟨rfl, ⟨boxes, h⟩, ?_⟩
      rintro name hfind
      cases hfind
      exact ha
  | body c =>
      obtain ⟨⟨exit, box, holder₁⟩, hcall, heq⟩ := Option.map_eq_some_iff.mp hlocal
      have hcall := toOption_eq_some.mp hcall
      obtain ⟨rfl, rfl⟩ := Prod.mk.inj heq
      obtain ⟨holder₂, hcall', hholds, -⟩ := h.call (hasRoom_of_boxCall hcall)
      rw [hcall] at hcall'
      cases hcall'
      rw [h.exitOf_avoids (fun name heq => hbody name (heq ▸ rfl)) ha]
      exact ⟨rfl, ⟨_, hholds⟩, fun _ => HolderPoint.noConfusion⟩
  | leave =>
      obtain ⟨rfl, rfl⟩ := hlocal
      exact ⟨rfl, ⟨boxes, h⟩, fun _ => HolderPoint.noConfusion⟩

theorem holderProgram_releases {p : HolderPoint} {m : HolderMutex}
    (h : (holderProgram.act p).releases = some m) : m ∈ p.held := by
  cases p with
  | leave =>
      cases h
      exact Finset.mem_singleton_self _
  | _ => cases h

theorem holderProgram_not_signal (p k : HolderPoint) (e : Empty) :
    holderProgram.act p ≠ .signal e k :=
  e.elim

end Point

/-! ## Runs -/

section Runs

variable {T : Type*} [Fintype T] [DecidableEq T] {s s' : HolderState T} {t : T} {c : BoxCall}

/-- What the runs that avoid the early returns keep. -/
structure HolderInv (s : HolderState T) : Prop where
  owned : Owned HolderPoint.held s
  holds : ∃ boxes, Holds s.shared boxes
  noFind : ∀ t name, s.pc t ≠ .body (.findBox name)

omit [Fintype T] in
theorem HolderInv.step (h : HolderInv s) (ha : AvoidsAt s.shared (s.pc t))
    (hs : Step holderProgram s t s') : HolderInv s' := by
  cases hs with
  | own hlocal hfree _ =>
      obtain ⟨boxes, hholds⟩ := h.holds
      obtain ⟨hheld, hholds', hfind⟩ := holderProgram_local hholds ha (h.noFind t) hlocal
      refine ⟨h.owned.own_of_held hheld (fun m => holderProgram_releases) hfree, hholds', ?_⟩
      intro u name
      by_cases hu : u = t
      · rw [hu]
        show Function.update s.pc t _ t ≠ _
        rw [Function.update_self]
        exact hfind name
      · show Function.update s.pc t _ u ≠ _
        rw [Function.update_of_ne hu]
        exact h.noFind u name
  | signal hact _ _ => exact absurd hact (holderProgram_not_signal _ _ _)

theorem reachable_holderInv (h : (holderMachine T).ReachableBy Avoids s) : HolderInv s := by
  refine h.invariant ?_ ?_
  · rintro s ⟨⟨maxBoxes, callocs, hcreate⟩, howner, hpc⟩
    refine ⟨fun t m => ?_, ⟨[], (holds_create hcreate).1⟩, fun t name => ?_⟩
    · rw [howner m, hpc t]
      exact iff_of_false (by simp) (by simp [holderProgram, HolderPoint.held])
    · rw [hpc t]
      exact HolderPoint.noConfusion
  · intro s e s' hinv ha hstep
    exact hinv.step ha (step_cases hstep)

theorem step_enter (hpc : s.pc t = .enter c) (hfree : s.owner .lock = none) :
    (holderMachine T).step s (.run t) =
      some ((s.setOwner .lock (some t)).goto t (.body c)) := by
  show step holderProgram s (.run t) = _
  simp [step, holderProgram, hpc, hfree]

theorem step_body {exit : LockExit} {box : Option BoxMetadata} {holder : BoxHolder}
    (hpc : s.pc t = .body c) (hcall : boxCall s.shared c = .ok (exit, box, holder)) :
    (holderMachine T).step s (.run t) = some (({ s with shared := holder }).goto t exit.next) := by
  show step holderProgram s (.run t) = _
  simp [step, holderProgram, hpc, hcall, Except.toOption]

theorem step_leave (hpc : s.pc t = .leave) :
    (holderMachine T).step s (.run t) = some ((s.setOwner .lock none).goto t .idle) := by
  show step holderProgram s (.run t) = _
  simp [step, holderProgram, hpc]

/-- An early return: the thread is outside the registry with the lock. -/
theorem step_keeps {boxes : List BoxMetadata} (h : Owned HolderPoint.held s)
    (hholds : Holds s.shared boxes) (hpc : s.pc t = .body c) (hroom : HasRoom s.shared c)
    (hkeeps : exitOf boxes c = .keeps) : ∃ s', (holderMachine T).step s (.run t) = some s' ∧
      s'.pc t = .idle ∧ s'.owner .lock = some t := by
  obtain ⟨holder, hcall, -, -⟩ := hholds.call hroom
  rw [hkeeps] at hcall
  have howner : s.owner .lock = some t := by
    rw [h t .lock, hpc]
    exact Finset.mem_singleton_self _
  exact ⟨_, step_body hpc hcall, State.goto_pc_self .., howner⟩

/-- **The lock is never kept** by a call that has returned, in the runs
that find nothing. -/
theorem reachable_lockReleased (h : (holderMachine T).ReachableBy Avoids s) : LockReleased s := by
  have hinv := reachable_holderInv h
  have hreturned : ∀ t, s.pc t = .idle → s.owner .lock ≠ some t := by
    intro t hpc howner
    have hmem := (hinv.owned t .lock).mp howner
    rw [hpc] at hmem
    cases hmem
  have hfree : (∀ t, s.pc t = .idle) → s.owner .lock = none := by
    intro hidle
    cases howner : s.owner .lock with
    | none => rfl
    | some t => exact absurd howner (hreturned t (hidle t))
  constructor
  case returned => exact hreturned
  case returns =>
    intro t c hpc hroom ha
    obtain ⟨boxes, hholds⟩ := hinv.holds
    obtain ⟨holder, hcall, -, -⟩ := hholds.call hroom
    have hbody : ∀ name, c ≠ .findBox name := by
      rintro name rfl
      exact hinv.noFind t name hpc
    rw [hholds.exitOf_avoids hbody ha] at hcall
    let s₁ : HolderState T := State.goto { s with shared := holder } t .leave
    have hleave : s₁.pc t = .leave := State.goto_pc_self ..
    refine ⟨(s₁.setOwner .lock none).goto t .idle, ?_, State.goto_pc_self .., ?_⟩
    · rw [Machine.run_cons, step_body hpc hcall]
      show (holderMachine T).run s₁ [.run t] = _
      rw [Machine.run_cons, step_leave hleave]
      rfl
    · show Function.update s₁.owner .lock none .lock = none
      exact Function.update_self ..
  case free => exact hfree
  case enters =>
    intro hidle t c
    have hcall : (holderMachine T).step s (.call t (.enter c)) = some (s.goto t (.enter c)) := by
      show step holderProgram s (.call t (.enter c)) = _
      simp [step, holderProgram, hidle t]
    let s₁ : HolderState T := s.goto t (.enter c)
    have hpc : s₁.pc t = .enter c := State.goto_pc_self ..
    refine ⟨(s₁.setOwner .lock (some t)).goto t (.body c), ?_, State.goto_pc_self ..⟩
    rw [Machine.run_cons, hcall]
    show (holderMachine T).run s₁ [.run t] = _
    rw [Machine.run_cons, step_enter hpc (hfree hidle)]
    rfl

end Runs

section Decidable

variable {T : Type*}

instance (holder : BoxHolder) : DecidablePred (AvoidsAt holder)
  | .enter (.findBox _) => .isFalse id
  | .body (.remove name) => inferInstanceAs (Decidable (Absent holder name))
  | .idle | .leave | .enter (.insert _) | .enter (.remove _) | .body (.insert _)
  | .body (.findBox _) => .isTrue trivial

instance (s : HolderState T) (e : Event T HolderPoint) : Decidable (Avoids s e) :=
  inferInstanceAs (Decidable (AvoidsAt s.shared (s.pc e.thread)))

end Decidable

/-- All threads outside a registry for two boxes. -/
def holderStart (T : Type*) : HolderState T :=
  ⟨(boxHolderCreate 2 true).2, fun _ => none, fun _ => .idle⟩

theorem holderStart_reachable (T : Type*) [Fintype T] [DecidableEq T]
    {guard : HolderState T → Event T HolderPoint → Prop} :
    (holderMachine T).ReachableBy guard (holderStart T) :=
  .start ⟨⟨2, true, rfl⟩, fun _ => rfl, fun _ => rfl⟩

/-- One thread inserts `/a`, and another finds no `/b` to remove. -/
def missRun : List (Event (Fin 2) HolderPoint) :=
  [.call 0 (.enter (.insert metadataA)), .call 1 (.enter (.remove metadataB.name)), .run 0, .run 0,
    .run 0, .run 1, .run 1, .run 1]

theorem missRun_result :
    ((holderMachine (Fin 2)).runBy Avoids (holderStart (Fin 2)) missRun).map
      (fun s => (s.shared.currentSize, s.pc 0, s.pc 1)) = some (1, .idle, .idle) := by
  decide +kernel

theorem missRun_lockReleased :
    ∃ s, (holderMachine (Fin 2)).runBy Avoids (holderStart (Fin 2)) missRun = some s ∧
      s.shared.currentSize = 1 ∧ LockReleased s := by
  obtain ⟨s, hrun, hobs⟩ := Option.map_eq_some_iff.mp missRun_result
  exact ⟨s, hrun, congrArg Prod.fst hobs,
    reachable_lockReleased ((holderStart_reachable (Fin 2)).runBy hrun)⟩

/-- A find that returns `NULL`. -/
def findRun : List (Event (Fin 1) HolderPoint) :=
  [.call 0 (.enter (.findBox metadataA.name)), .run 0, .run 0]

theorem findRun_result :
    ((holderMachine (Fin 1)).run (holderStart (Fin 1)) findRun).map
      (fun s => (s.owner .lock, s.pc 0)) = some (some 0, .idle) := by
  decide +kernel

/-- The find has returned, and the lock is not free. -/
theorem findRun_not_lockReleased :
    ¬ ∀ s, (holderMachine (Fin 1)).Reachable s → (∀ t, s.pc t = .idle) → s.owner .lock = none := by
  intro hclaim
  obtain ⟨s, hrun, hobs⟩ := Option.map_eq_some_iff.mp findRun_result
  obtain ⟨howner, hpc⟩ := Prod.mk.inj hobs
  have hstart : (holderMachine (Fin 1)).Reachable (holderStart (Fin 1)) :=
    holderStart_reachable (Fin 1)
  have hreach := hstart.run (by simp) hrun
  have hidle : ∀ t, s.pc t = .idle := by
    intro t
    rw [Subsingleton.elim t 0]
    exact hpc
  rw [hclaim s hreach hidle] at howner
  cases howner

end MBroker
