import Mathlib.Algebra.BigOperators.Group.Finset.Piecewise
import Mathlib.Algebra.Order.BigOperators.Group.Finset
import Mathlib.Data.Fintype.Basic
import MBroker.Lib.Machine

/-!
# Threads, mutexes and condition variables

A program gives the atomic step at each of its points: take or release a
mutex, wait at, sleep at or signal a condition variable, access the
shared state. Any finite number of threads run it, in any order. A signal
wakes a nonempty set of the sleepers if there is one, and a sleeper may
wake up unasked. Releasing a mutex is open to every thread: that its owner
does it is a result, not a guard.

A rule about a program asks only for facts about single points:
* `LockDiscipline`: which mutexes a thread at a point holds;
* `Monitor`: what holds of the shared state while a mutex is free, and
  at each point of its owner;
* `LockOrder`: no cycle of threads blocked on each other's mutexes;
* `WakeupDebt`: nobody sleeps on a demand that no thread owes a wake-up for.
-/

namespace MBroker.Threads

open Finset

/-! ## Programs and their steps -/

/-- The step at a program point, with the point after it. `wait` releases
the mutex and leaves the thread `asleep`; `access` fails on a fault. -/
inductive Act (μ κ π σ : Type*)
  | idle
  | lock (m : μ) (next : π)
  | unlock (m : μ) (next : π)
  | access (f : σ → Option (σ × π))
  | wait (c : κ) (m : μ) (next : π)
  | asleep (c : κ) (next : π)
  | signal (c : κ) (next : π)

/-- A thread starts at `init`; from an `idle` point it may enter a call. -/
structure Program (μ κ π σ : Type*) where
  init : π
  entry : π → Bool
  act : π → Act μ κ π σ

structure State (T μ π σ : Type*) where
  shared : σ
  owner : μ → Option T
  pc : T → π

inductive Event (T π : Type*)
  | call (t : T) (p : π)
  | run (t : T)
  | signal (t : T) (woken : Finset T)
  | wake (t : T)

/-- The thread that takes the step. -/
def Event.thread {T π : Type*} : Event T π → T
  | .call t _ | .run t | .signal t _ | .wake t => t

variable {T μ κ π σ : Type*}

def Act.isAsleep [DecidableEq κ] (c : κ) : Act μ κ π σ → Bool
  | .asleep c' _ => c' = c
  | _ => false

theorem isAsleep_iff [DecidableEq κ] {c : κ} {a : Act μ κ π σ} :
    a.isAsleep c ↔ ∃ k, a = .asleep c k := by
  cases a with
  | asleep c' k' =>
      unfold Act.isAsleep
      simp
  | _ => simp [Act.isAsleep]

/-- The mutex that the step takes. -/
def Act.takes : Act μ κ π σ → Option μ
  | .lock m _ => some m
  | _ => none

/-- The mutex that the step releases. -/
def Act.releases : Act μ κ π σ → Option μ
  | .unlock m _ | .wait _ m _ => some m
  | _ => none

/-- Where a sleeper goes when it wakes up. -/
def Program.awake (P : Program μ κ π σ) (p : π) : π :=
  match P.act p with
  | .asleep _ k => k
  | _ => p

/-- The effect of a step on its own thread and on the shared state. -/
def Program.LocalStep (P : Program μ κ π σ) (p : π) (x : σ) (k : π) (x' : σ) : Prop :=
  match P.act p with
  | .idle => P.entry k ∧ x' = x
  | .access f => f x = some (x', k)
  | .lock _ k' | .unlock _ k' | .wait _ _ k' | .asleep _ k' | .signal _ k' => k = k' ∧ x' = x

section Local

variable {P : Program μ κ π σ}

/-- A step that is not an access leaves the shared state as it is. -/
theorem localStep_shared {p k : π} {x x' : σ} (hlocal : P.LocalStep p x k x')
    (h : ∀ f, P.act p ≠ .access f) : x' = x := by
  unfold Program.LocalStep at hlocal
  split at hlocal
  · exact hlocal.2
  · rename_i f hact
    exact absurd hact (h f)
  all_goals exact hlocal.2

/-- Waking up is the sleeper's own step. -/
theorem localStep_awake [DecidableEq κ] {c : κ} {p : π} (x : σ) (h : (P.act p).isAsleep c) :
    P.LocalStep p x (P.awake p) x := by
  obtain ⟨k, hact⟩ := isAsleep_iff.mp h
  simp [Program.LocalStep, Program.awake, hact]

theorem localStep_signal {c : κ} {p k : π} (x : σ) (h : P.act p = .signal c k) :
    P.LocalStep p x k x := by
  simp [Program.LocalStep, h]

end Local

def State.goto [DecidableEq T] (s : State T μ π σ) (t : T) (p : π) : State T μ π σ :=
  { s with pc := Function.update s.pc t p }

@[simp] theorem State.goto_pc_self [DecidableEq T] (s : State T μ π σ) (t : T) (p : π) :
    (s.goto t p).pc t = p := Function.update_self ..

theorem State.goto_pc_of_ne [DecidableEq T] (s : State T μ π σ) {t u : T} (p : π) (h : u ≠ t) :
    (s.goto t p).pc u = s.pc u := Function.update_of_ne h ..

def State.setOwner [DecidableEq μ] (s : State T μ π σ) (m : μ) (o : Option T) :
    State T μ π σ :=
  { s with owner := Function.update s.owner m o }

@[simp] theorem State.setOwner_shared [DecidableEq μ] (s : State T μ π σ) (m : μ)
    (o : Option T) : (s.setOwner m o).shared = s.shared := rfl

def State.wakeAll [DecidableEq T] (P : Program μ κ π σ) (s : State T μ π σ)
    (woken : Finset T) : State T μ π σ :=
  { s with pc := fun u => if u ∈ woken then P.awake (s.pc u) else s.pc u }

/-- One atomic step of one thread. -/
def step [Fintype T] [DecidableEq T] [DecidableEq μ] [DecidableEq κ] (P : Program μ κ π σ)
    (s : State T μ π σ) : Event T π → Option (State T μ π σ)
  | .call t p =>
      match P.act (s.pc t) with
      | .idle => if P.entry p then some (s.goto t p) else none
      | _ => none
  | .run t =>
      match P.act (s.pc t) with
      | .lock m k =>
          if s.owner m = none then some ((s.setOwner m (some t)).goto t k) else none
      | .unlock m k => some ((s.setOwner m none).goto t k)
      | .wait _ m k => some ((s.setOwner m none).goto t k)
      | .access f => (f s.shared).map fun r => ({ s with shared := r.1 }).goto t r.2
      | _ => none
  | .signal t woken =>
      match P.act (s.pc t) with
      | .signal c k =>
          if (∀ u ∈ woken, (P.act (s.pc u)).isAsleep c) ∧
              (woken = ∅ → ∀ u, ¬ (P.act (s.pc u)).isAsleep c) then
            some ((s.wakeAll P woken).goto t k)
          else none
      | _ => none
  | .wake t =>
      match P.act (s.pc t) with
      | .asleep _ k => some (s.goto t k)
      | _ => none

/-- All threads are at `init` and all mutexes are free. -/
def Program.machine [DecidableEq μ] [DecidableEq κ] (P : Program μ κ π σ) (T : Type*)
    [Fintype T] [DecidableEq T] (start : σ → Prop) : Machine (State T μ π σ) (Event T π) where
  start s := start s.shared ∧ (∀ m, s.owner m = none) ∧ ∀ t, s.pc t = P.init
  step := step P

/-! ## What a step can do -/

/-- The effect of a step of `t` on the owners. -/
def ownerAfter [DecidableEq μ] (a : Act μ κ π σ) (t : T) (owner : μ → Option T) : μ → Option T :=
  match a with
  | .lock m _ => Function.update owner m (some t)
  | .unlock m _ | .wait _ m _ => Function.update owner m none
  | _ => owner

/-- Either one thread takes its own step, or it signals and the woken
threads move as well. -/
inductive Step [DecidableEq T] [DecidableEq μ] [DecidableEq κ] (P : Program μ κ π σ)
    (s : State T μ π σ) (t : T) : State T μ π σ → Prop
  | own {k : π} {x' : σ} (hlocal : P.LocalStep (s.pc t) s.shared k x')
      (hfree : ∀ m, (P.act (s.pc t)).takes = some m → s.owner m = none)
      (hnosignal : ∀ c k', P.act (s.pc t) ≠ .signal c k') :
      Step P s t ⟨x', ownerAfter (P.act (s.pc t)) t s.owner, Function.update s.pc t k⟩
  | signal {c : κ} {k : π} {woken : Finset T} (hact : P.act (s.pc t) = .signal c k)
      (hwoken : ∀ u ∈ woken, (P.act (s.pc u)).isAsleep c)
      (hone : woken = ∅ → ∀ u, ¬ (P.act (s.pc u)).isAsleep c) :
      Step P s t ((s.wakeAll P woken).goto t k)

/-- Signalling threads do not sleep. -/
theorem pc_wakeAll_of_signal [DecidableEq T] [DecidableEq κ] {P : Program μ κ π σ}
    {s : State T μ π σ} {t : T} {c : κ} {woken : Finset T} {k : π} {c' : κ}
    (hact : P.act (s.pc t) = .signal c' k)
    (hwoken : ∀ u ∈ woken, (P.act (s.pc u)).isAsleep c) : (s.wakeAll P woken).pc t = s.pc t := by
  have ht : t ∉ woken := by
    intro ht
    obtain ⟨k', hsleep⟩ := isAsleep_iff.mp (hwoken t ht)
    rw [hact] at hsleep
    cases hsleep
  exact if_neg ht

section Cases

variable [DecidableEq T] [DecidableEq μ] [DecidableEq κ] {P : Program μ κ π σ}
  {s s' : State T μ π σ} {t : T}

/-- A step that is not a signal, with the effects that its action names. -/
theorem Step.of_act {k : π} {x' : σ} {a : Act μ κ π σ} (hact : P.act (s.pc t) = a)
    (hlocal : P.LocalStep (s.pc t) s.shared k x') (hfree : ∀ m, a.takes = some m → s.owner m = none)
    (hnosignal : ∀ c k', a ≠ .signal c k') :
    Step P s t ⟨x', ownerAfter a t s.owner, Function.update s.pc t k⟩ := by
  subst hact
  exact .own hlocal hfree hnosignal

theorem step_cases [Fintype T] {e : Event T π} (h : step P s e = some s') :
    Step P s e.thread s' := by
  cases e with
  | call t p =>
      simp only [step] at h
      split at h
      · rename_i hact
        split at h
        · rename_i hentry
          cases h
          exact Step.of_act hact (by simp [Program.LocalStep, hact, hentry]) (by simp [Act.takes])
            (by simp)
        · cases h
      · cases h
  | run t =>
      simp only [step] at h
      split at h
      · rename_i m k hact
        split at h
        · rename_i hfree
          cases h
          exact Step.of_act hact (by simp [Program.LocalStep, hact])
            (by simpa [Act.takes] using hfree) (by simp)
        · cases h
      · rename_i m k hact
        cases h
        exact Step.of_act hact (by simp [Program.LocalStep, hact]) (by simp [Act.takes]) (by simp)
      · rename_i c m k hact
        cases h
        exact Step.of_act hact (by simp [Program.LocalStep, hact]) (by simp [Act.takes]) (by simp)
      · rename_i f hact
        obtain ⟨⟨x', k⟩, hf, rfl⟩ := Option.map_eq_some_iff.mp h
        exact Step.of_act hact (by simp [Program.LocalStep, hact, hf]) (by simp [Act.takes])
          (by simp)
      · cases h
  | signal t woken =>
      simp only [step] at h
      split at h
      · rename_i c k hact
        split at h
        · rename_i hwoken
          cases h
          exact .signal hact hwoken.1 hwoken.2
        · cases h
      · cases h
  | wake t =>
      simp only [step] at h
      split at h
      · rename_i c k hact
        cases h
        exact Step.of_act hact (by simp [Program.LocalStep, hact]) (by simp [Act.takes]) (by simp)
      · cases h

variable [Fintype T]

/-- A call is made outside, at the entry of a function. -/
theorem idle_of_call {p : π} (h : step P s (.call t p) = some s') :
    P.act (s.pc t) = .idle ∧ P.entry p := by
  simp only [step] at h
  split at h
  · rename_i hact
    split at h
    · rename_i hentry
      exact ⟨hact, hentry⟩
    · cases h
  · cases h

theorem step_call_of_idle {p : π} (hidle : P.act (s.pc t) = .idle) (hentry : P.entry p) :
    step P s (.call t p) = some (s.goto t p) := by
  simp [step, hidle, hentry]

/-- A call changes the point of its thread. -/
theorem step_call {p : π} (h : step P s (.call t p) = some s') : s' = s.goto t p := by
  obtain ⟨hidle, hentry⟩ := idle_of_call h
  rw [step_call_of_idle hidle hentry] at h
  exact (Option.some.inj h).symm

end Cases

/-! ## Who holds which mutex -/

/-- The mutexes held after a step by a thread that held `ms`. -/
def Act.locksAfter [DecidableEq μ] (a : Act μ κ π σ) (ms : Finset μ) : Finset μ :=
  match a with
  | .lock m _ => insert m ms
  | .unlock m _ | .wait _ m _ => ms.erase m
  | _ => ms

/-- `held p` is what a thread at `p` holds; it releases only what it holds. -/
structure LockDiscipline [DecidableEq μ] (P : Program μ κ π σ) (held : π → Finset μ) :
    Prop where
  init : held P.init = ∅
  step : ∀ p x k x', P.LocalStep p x k x' → held k = (P.act p).locksAfter (held p)
  release : ∀ p m, (P.act p).releases = some m → m ∈ held p

/-- The owners are the threads whose points hold the mutex. -/
def Owned (held : π → Finset μ) (s : State T μ π σ) : Prop :=
  ∀ t m, s.owner m = some t ↔ m ∈ held (s.pc t)

section Locks

variable {P : Program μ κ π σ} {s s' : State T μ π σ} {t u : T} {c : κ} {held : π → Finset μ}

theorem Owned.eq (h : Owned held s) {m : μ} (ht : m ∈ held (s.pc t)) (hu : m ∈ held (s.pc u)) :
    t = u := by
  have ht := (h t m).mpr ht
  rw [(h u m).mpr hu] at ht
  exact (Option.some.inj ht).symm

variable [DecidableEq T] [DecidableEq μ]

/-- Only the thread's own locks change, by a step that is known to keep to
the discipline. -/
theorem Owned.own_of_held {k : π} {x' : σ} (h : Owned held s)
    (hheld : held k = (P.act (s.pc t)).locksAfter (held (s.pc t)))
    (hrelease : ∀ m, (P.act (s.pc t)).releases = some m → m ∈ held (s.pc t))
    (hfree : ∀ m, (P.act (s.pc t)).takes = some m → s.owner m = none) :
    Owned held (σ := σ) ⟨x', ownerAfter (P.act (s.pc t)) t s.owner, Function.update s.pc t k⟩ := by
  intro u m
  have hu := h u m
  have ht := h t m
  show ownerAfter (P.act (s.pc t)) t s.owner m = some u ↔ m ∈ held (Function.update s.pc t k u)
  have hpc : held (Function.update s.pc t k u) =
      if u = t then (P.act (s.pc t)).locksAfter (held (s.pc t)) else held (s.pc u) := by
    by_cases hut : u = t
    · rw [hut, Function.update_self, if_pos rfl, hheld]
    · rw [Function.update_of_ne hut, if_neg hut]
  rw [hpc]
  cases hact : P.act (s.pc t) with
  | lock m' k' =>
      have hnone : s.owner m' = none := hfree m' (by rw [hact]; rfl)
      by_cases hm : m = m'
      · subst hm
        by_cases hut : u = t
        · simp [ownerAfter, Act.locksAfter, hut]
        · rw [hnone] at hu
          have htu : ¬ t = u := fun heq => hut heq.symm
          simpa [ownerAfter, hut, htu] using hu
      · by_cases hut : u = t
        · subst hut
          simpa [ownerAfter, Act.locksAfter, hm] using hu
        · simpa [ownerAfter, hm, hut] using hu
  | unlock m' k' | wait c m' k' =>
      have hmem : m' ∈ held (s.pc t) := hrelease m' (by rw [hact]; rfl)
      by_cases hm : m = m'
      · subst hm
        by_cases hut : u = t
        · simp [ownerAfter, Act.locksAfter, hut]
        · have hnot : m ∉ held (s.pc u) := fun hmu => hut (h.eq hmu hmem)
          simpa [ownerAfter, hut] using hnot
      · by_cases hut : u = t
        · subst hut
          simpa [ownerAfter, Act.locksAfter, hm] using hu
        · simpa [ownerAfter, hm, hut] using hu
  | _ =>
      by_cases hut : u = t
      · subst hut
        simpa [ownerAfter, Act.locksAfter] using hu
      · simpa [ownerAfter, hut] using hu

theorem Owned.own {k : π} {x' : σ} (hd : LockDiscipline P held) (h : Owned held s)
    (hlocal : P.LocalStep (s.pc t) s.shared k x')
    (hfree : ∀ m, (P.act (s.pc t)).takes = some m → s.owner m = none) :
    Owned held (σ := σ) ⟨x', ownerAfter (P.act (s.pc t)) t s.owner, Function.update s.pc t k⟩ :=
  h.own_of_held (hd.step _ _ _ _ hlocal) (hd.release (s.pc t)) hfree

variable [DecidableEq κ]

/-- Sleepers wake up with the mutexes they slept with. -/
theorem Owned.wakeAll {woken : Finset T} (hd : LockDiscipline P held) (h : Owned held s)
    (hwoken : ∀ u ∈ woken, (P.act (s.pc u)).isAsleep c) : Owned held (s.wakeAll P woken) := by
  intro u m
  show s.owner m = some u ↔ m ∈ held (if u ∈ woken then P.awake (s.pc u) else s.pc u)
  rw [h u m]
  by_cases hu : u ∈ woken
  · obtain ⟨k, hact⟩ := isAsleep_iff.mp (hwoken u hu)
    have hheld := hd.step _ _ _ _ (localStep_awake s.shared (hwoken u hu))
    rw [hact] at hheld
    rw [if_pos hu, hheld]
    rfl
  · rw [if_neg hu]

theorem Owned.step (hd : LockDiscipline P held) (h : Owned held s) (hs : Step P s t s') :
    Owned held s' := by
  cases hs with
  | own hlocal hfree _ => exact h.own hd hlocal hfree
  | @signal c k woken hact hwoken _ =>
      have hpc := pc_wakeAll_of_signal hact hwoken
      have hact' : P.act ((s.wakeAll P woken).pc t) = .signal c k := by rw [hpc, hact]
      have hown := (h.wakeAll hd hwoken).own hd (localStep_signal _ hact')
        (by rw [hact']; simp [Act.takes])
      rw [hact'] at hown
      exact hown

/-- **The lock rule**: in every run a thread owns what its point holds. -/
theorem LockDiscipline.owned [Fintype T] {start : σ → Prop} (hd : LockDiscipline P held)
    (h : (P.machine T start).Reachable s) : Owned held s := by
  refine h.invariant ?_ ?_
  · intro s hs t m
    rw [hs.2.1 m, hs.2.2 t, hd.init]
    simp
  · intro s e s' hown _ hstep
    exact hown.step hd (step_cases hstep)

end Locks

/-! ## Monitors -/

/-- Every access to the shared state is made under the mutex `m₀`. While
it is free `inv` holds, and `asrt p` holds when its owner is at `p`. -/
structure Monitor (P : Program μ κ π σ) (held : π → Finset μ) (m₀ : μ) (inv : σ → Prop)
    (asrt : π → σ → Prop) : Prop where
  init : ∀ x, asrt P.init x
  stable : ∀ p x x', m₀ ∉ held p → asrt p x → asrt p x'
  access : ∀ p f, P.act p = .access f → m₀ ∈ held p
  step : ∀ p x k x', P.LocalStep p x k x' → asrt p x →
    ((P.act p).takes = some m₀ → inv x) → asrt k x'
  release : ∀ p x, (P.act p).releases = some m₀ → asrt p x → inv x

/-- What a monitor says of a state. -/
structure Guarded (m₀ : μ) (inv : σ → Prop) (asrt : π → σ → Prop)
    (s : State T μ π σ) : Prop where
  free : s.owner m₀ = none → inv s.shared
  at_point : ∀ t, asrt (s.pc t) s.shared

section Monitors

variable [DecidableEq T] {P : Program μ κ π σ} {s s' : State T μ π σ} {t : T}
  {c : κ} {held : π → Finset μ} {m₀ : μ} {inv : σ → Prop} {asrt : π → σ → Prop}

theorem Guarded.own [DecidableEq μ] {k : π} {x' : σ} (hm : Monitor P held m₀ inv asrt)
    (hown : Owned held s) (h : Guarded m₀ inv asrt s) (hlocal : P.LocalStep (s.pc t) s.shared k x')
    (hfree : ∀ m, (P.act (s.pc t)).takes = some m → s.owner m = none) :
    Guarded (σ := σ) m₀ inv asrt
      ⟨x', ownerAfter (P.act (s.pc t)) t s.owner, Function.update s.pc t k⟩ := by
  have hacquire : (P.act (s.pc t)).takes = some m₀ → inv s.shared := fun htakes =>
    h.free (hfree m₀ htakes)
  have hk := hm.step _ _ _ _ hlocal (h.at_point t) hacquire
  constructor
  · show ownerAfter (P.act (s.pc t)) t s.owner m₀ = none → inv x'
    cases hact : P.act (s.pc t) with
    | access f =>
        intro hnone
        have hmem := (hown t m₀).mpr (hm.access _ _ hact)
        rw [show ownerAfter (.access f) t s.owner = s.owner from rfl, hmem] at hnone
        cases hnone
    | lock m' k' =>
        intro hnone
        rw [localStep_shared hlocal (by simp [hact])]
        by_cases heq : m₀ = m'
        · exact hacquire (by rw [hact, heq]; rfl)
        · rw [ownerAfter, Function.update_of_ne heq] at hnone
          exact h.free hnone
    | unlock m' k' | wait c' m' k' =>
        intro hnone
        rw [localStep_shared hlocal (by simp [hact])]
        by_cases heq : m₀ = m'
        · exact hm.release _ _ (by rw [hact, heq]; rfl) (h.at_point t)
        · rw [ownerAfter, Function.update_of_ne heq] at hnone
          exact h.free hnone
    | _ =>
        intro hnone
        rw [localStep_shared hlocal (by simp [hact])]
        exact h.free hnone
  · intro u
    show asrt (Function.update s.pc t k u) x'
    by_cases hut : u = t
    · rw [hut, Function.update_self]
      exact hk
    · rw [Function.update_of_ne hut]
      cases hact : P.act (s.pc t) with
      | access f =>
          have hmem := hm.access _ _ hact
          have hnot : m₀ ∉ held (s.pc u) := fun hu => hut (hown.eq hu hmem)
          exact hm.stable _ _ _ hnot (h.at_point u)
      | _ =>
          rw [localStep_shared hlocal (by simp [hact])]
          exact h.at_point u

variable [DecidableEq κ]

theorem Guarded.wakeAll {woken : Finset T} (hm : Monitor P held m₀ inv asrt)
    (h : Guarded m₀ inv asrt s) (hwoken : ∀ u ∈ woken, (P.act (s.pc u)).isAsleep c) :
    Guarded m₀ inv asrt (s.wakeAll P woken) := by
  constructor
  · exact h.free
  · intro u
    show asrt (if u ∈ woken then P.awake (s.pc u) else s.pc u) s.shared
    by_cases hu : u ∈ woken
    · obtain ⟨k, hact⟩ := isAsleep_iff.mp (hwoken u hu)
      rw [if_pos hu]
      exact hm.step _ _ _ _ (localStep_awake s.shared (hwoken u hu)) (h.at_point u)
        (by rw [hact]; simp [Act.takes])
    · rw [if_neg hu]
      exact h.at_point u

variable [DecidableEq μ]

theorem Guarded.step (hd : LockDiscipline P held) (hm : Monitor P held m₀ inv asrt)
    (hown : Owned held s) (h : Guarded m₀ inv asrt s) (hs : Step P s t s') :
    Guarded m₀ inv asrt s' := by
  cases hs with
  | own hlocal hfree _ => exact h.own hm hown hlocal hfree
  | @signal c k woken hact hwoken _ =>
      have hpc := pc_wakeAll_of_signal hact hwoken
      have hact' : P.act ((s.wakeAll P woken).pc t) = .signal c k := by rw [hpc, hact]
      have hown' := (h.wakeAll hm hwoken).own hm (hown.wakeAll hd hwoken)
        (localStep_signal _ hact') (by rw [hact']; simp [Act.takes])
      rw [hact'] at hown'
      exact hown'

/-- **The monitor rule.** -/
theorem Monitor.guarded [Fintype T] {start : σ → Prop} (hm : Monitor P held m₀ inv asrt)
    (hd : LockDiscipline P held) (hstart : ∀ x, start x → inv x) (h : (P.machine T start).Reachable s) :
    Guarded m₀ inv asrt s := by
  refine h.invariant' ?_ ?_
  · intro s hs
    constructor
    · exact fun _ => hstart _ hs.1
    · intro t
      rw [hs.2.2 t]
      exact hm.init _
  · intro s e s' hr hg _ hstep
    exact hg.step hd hm (hd.owned hr) (step_cases hstep)

end Monitors

/-! ## Deadlock -/

/-- `t` is blocked on a mutex that `u` holds. -/
def WaitsFor (P : Program μ κ π σ) (s : State T μ π σ) (t u : T) : Prop :=
  ∃ m k, P.act (s.pc t) = .lock m k ∧ s.owner m = some u

/-- The rank falls from a thread that is about to take a mutex to the
holder of the mutex, if the holder is about to take one as well. Threads
that hold a common mutex cannot meet. -/
structure LockOrder (P : Program μ κ π σ) (held : π → Finset μ) (rank : π → Nat) : Prop where
  not_held : ∀ p m k, P.act p = .lock m k → m ∉ held p
  rank_lt : ∀ p m k q m' k', P.act p = .lock m k → P.act q = .lock m' k' → m ∈ held q →
    Disjoint (held p) (held q) → rank q < rank p

section Deadlock

variable {P : Program μ κ π σ} {s : State T μ π σ} {t u : T} {held : π → Finset μ}
  {rank : π → Nat}

theorem LockOrder.rank_lt_of_waitsFor (ho : LockOrder P held rank) (hown : Owned held s)
    {v : T} (htu : WaitsFor P s t u) (huv : WaitsFor P s u v) :
    rank (s.pc u) < rank (s.pc t) := by
  obtain ⟨m, k, hact, howner⟩ := htu
  obtain ⟨m', k', hact', -⟩ := huv
  have hmem := (hown u m).mp howner
  have hne : t ≠ u := by
    intro heq
    exact ho.not_held _ m k hact (by rw [heq]; exact hmem)
  have hdisj : Disjoint (held (s.pc t)) (held (s.pc u)) := by
    rw [Finset.disjoint_left]
    intro m₁ ht hu
    exact hne (hown.eq ht hu)
  exact ho.rank_lt _ m k _ m' k' hact hact' hmem hdisj

/-- **The deadlock rule**: no cycle of blocked threads. -/
theorem LockOrder.no_cycle (ho : LockOrder P held rank) (hown : Owned held s) :
    ¬ Relation.TransGen (WaitsFor P s) t t := by
  have hpath : ∀ {a b v : T}, Relation.TransGen (WaitsFor P s) a b → WaitsFor P s b v →
      rank (s.pc b) < rank (s.pc a) := by
    intro a b v hab
    induction hab generalizing v with
    | single h => exact fun hbv => ho.rank_lt_of_waitsFor hown h hbv
    | tail _ h ih => exact fun hbv => (ho.rank_lt_of_waitsFor hown h hbv).trans (ih h)
  intro hcycle
  obtain ⟨u, htu, -⟩ := Relation.TransGen.head'_iff.mp hcycle
  exact lt_irrefl _ (hpath hcycle htu)

end Deadlock

/-! ## Wake-ups -/

/-- The sum of a weight over the points of the threads. -/
def State.tally [Fintype T] (s : State T μ π σ) (w : π → Nat) : Nat :=
  ∑ t, w (s.pc t)

/-- The number of threads at points with a property. -/
def State.count [Fintype T] (s : State T μ π σ) (b : π → Bool) : Nat :=
  #{t | b (s.pc t)}

theorem State.count_eq_tally [Fintype T] (s : State T μ π σ) (b : π → Bool) :
    s.count b = s.tally fun p => (b p).toNat := by
  unfold State.count State.tally
  rw [Finset.card_filter]
  apply Finset.sum_congr rfl
  intro t _
  cases h : b (s.pc t) <;> simp [h]

/-- At most one thread is at a point that holds `m`. -/
theorem Owned.count_le_one [Fintype T] {s : State T μ π σ} {held : π → Finset μ} {m : μ}
    {b : π → Bool} (h : Owned held s) (hb : ∀ p, b p → m ∈ held p) : s.count b ≤ 1 := by
  apply Finset.card_le_one.mpr
  intro t ht u hu
  simp only [Finset.mem_filter, Finset.mem_univ, true_and] at ht hu
  exact h.eq (hb _ ht) (hb _ hu)

theorem Owned.count_eq_zero [Fintype T] {s : State T μ π σ} {held : π → Finset μ} {m : μ}
    {b : π → Bool} (h : Owned held s) (hfree : s.owner m = none)
    (hb : ∀ p, b p → m ∈ held p) : s.count b = 0 := by
  apply Finset.card_eq_zero.mpr
  apply Finset.filter_eq_empty_iff.mpr
  intro t _ ht
  have howner := (h t m).mpr (hb _ ht)
  rw [hfree] at howner
  cases howner

theorem State.tally_add [Fintype T] (s : State T μ π σ) (w w' : π → Nat) :
    s.tally (fun p => w p + w' p) = s.tally w + s.tally w' :=
  Finset.sum_add_distrib

/-- One thread moves. -/
theorem tally_update [Fintype T] [DecidableEq T] (w : π → Nat) (pc : T → π) (t : T) (k : π) :
    ∑ u, w (Function.update pc t k u) + w (pc t) = ∑ u, w (pc u) + w k := by
  have h := Finset.sum_erase_add Finset.univ (fun u => w (pc u)) (Finset.mem_univ t)
  have h' := Finset.sum_erase_add Finset.univ (fun u => w (Function.update pc t k u))
    (Finset.mem_univ t)
  have heq : ∑ u ∈ univ.erase t, w (Function.update pc t k u) = ∑ u ∈ univ.erase t, w (pc u) := by
    apply Finset.sum_congr rfl
    intro u hu
    rw [Function.update_of_ne (Finset.ne_of_mem_erase hu)]
  simp only [Function.update_self] at h'
  omega

/-- Sleepers at `c` wait for `demand` to be positive. A thread at `p` owes
`owes p` wake-ups: it will signal, look again or take its share. Threads go
to sleep when there is no demand, a step raises the demand by no more than
what its thread then owes, and a woken sleeper owes more than a sleeping one. -/
structure WakeupDebt [DecidableEq κ] (P : Program μ κ π σ) (c : κ) (asrt : π → σ → Prop)
    (demand : σ → Nat) (owes : π → Nat) : Prop where
  step : ∀ p x k x', P.LocalStep p x k x' → asrt p x → (∀ k', P.act p ≠ .signal c k') →
    demand x' = 0 ∨ ¬ (P.act k).isAsleep c ∧ demand x' + owes p ≤ demand x + owes k
  signal : ∀ p k, P.act p = .signal c k → ¬ (P.act k).isAsleep c ∧ owes p ≤ owes k + 1
  woken : ∀ p k, P.act p = .asleep c k → owes p < owes k

/-- The demand is covered whenever someone sleeps. -/
def Covered [Fintype T] [DecidableEq κ] (P : Program μ κ π σ) (c : κ) (demand : σ → Nat)
    (owes : π → Nat) (s : State T μ π σ) : Prop :=
  (∃ t, (P.act (s.pc t)).isAsleep c) → demand s.shared ≤ s.tally owes

section Wakeups

variable [Fintype T] [DecidableEq T] [DecidableEq κ] {P : Program μ κ π σ}
  {s s' : State T μ π σ} {t : T} {c : κ} {asrt : π → σ → Prop} {demand : σ → Nat}
  {owes : π → Nat}

theorem Covered.own {k : π} {x' : σ} {o : μ → Option T}
    (hw : WakeupDebt P c asrt demand owes) (h : Covered P c demand owes s)
    (hasrt : asrt (s.pc t) s.shared) (hlocal : P.LocalStep (s.pc t) s.shared k x')
    (hnosignal : ∀ k', P.act (s.pc t) ≠ .signal c k') :
    Covered P c demand owes ⟨x', o, Function.update s.pc t k⟩ := by
  rintro ⟨u, hu⟩
  show demand x' ≤ ∑ u, owes (Function.update s.pc t k u)
  rcases hw.step _ _ _ _ hlocal hasrt hnosignal with hzero | ⟨hawake, hpay⟩
  · omega
  · have hne : u ≠ t := by
      intro heq
      rw [heq] at hu
      simp only [Function.update_self] at hu
      exact hawake hu
    simp only [Function.update_of_ne hne] at hu
    have hcov : demand s.shared ≤ ∑ u, owes (s.pc u) := h ⟨u, hu⟩
    have hsum := tally_update owes s.pc t k
    omega

/-- Waking sleepers at another condition variable. -/
theorem Covered.wakeAll_other {c' : κ} {woken : Finset T}
    (hw : WakeupDebt P c asrt demand owes) (hasrt : ∀ u, asrt (s.pc u) s.shared)
    (h : Covered P c demand owes s) (hwoken : ∀ u ∈ woken, (P.act (s.pc u)).isAsleep c') :
    Covered P c demand owes (s.wakeAll P woken) := by
  rintro ⟨u, hu⟩
  show demand s.shared ≤ ∑ u, owes (if u ∈ woken then P.awake (s.pc u) else s.pc u)
  by_cases hzero : demand s.shared = 0
  · omega
  · have hmove : ∀ v ∈ woken, ¬ (P.act (P.awake (s.pc v))).isAsleep c ∧
        owes (s.pc v) ≤ owes (P.awake (s.pc v)) := by
      intro v hv
      obtain ⟨k, hact⟩ := isAsleep_iff.mp (hwoken v hv)
      have hstep := hw.step _ _ _ _ (localStep_awake s.shared (hwoken v hv)) (hasrt v)
        (by simp [hact])
      rcases hstep with hz | ⟨hnot, hle⟩
      · exact absurd hz hzero
      · exact ⟨hnot, by omega⟩
    have hu' : u ∉ woken := by
      intro hmem
      simp only [State.wakeAll, if_pos hmem] at hu
      exact (hmove u hmem).1 hu
    simp only [State.wakeAll, if_neg hu'] at hu
    refine (h ⟨u, hu⟩).trans (Finset.sum_le_sum ?_)
    intro v _
    split
    · rename_i hv
      exact (hmove v hv).2
    · exact le_rfl

/-- Waking at least one of the sleepers adds one to the wake-ups owed. -/
theorem tally_wakeAll_lt {woken : Finset T} (hw : WakeupDebt P c asrt demand owes)
    (hne : woken.Nonempty) (hwoken : ∀ u ∈ woken, (P.act (s.pc u)).isAsleep c) :
    s.tally owes < (s.wakeAll P woken).tally owes := by
  have hmore : ∀ v ∈ woken, owes (s.pc v) < owes (P.awake (s.pc v)) := by
    intro v hv
    obtain ⟨k, hact⟩ := isAsleep_iff.mp (hwoken v hv)
    have hlt := hw.woken _ _ hact
    simpa only [Program.awake, hact] using hlt
  show ∑ u, owes (s.pc u) < ∑ u, owes (if u ∈ woken then P.awake (s.pc u) else s.pc u)
  apply Finset.sum_lt_sum
  · intro v _
    split
    · rename_i hv
      exact (hmore v hv).le
    · exact le_rfl
  · obtain ⟨v, hv⟩ := hne
    exact ⟨v, Finset.mem_univ v, by rw [if_pos hv]; exact hmore v hv⟩

variable [DecidableEq μ]

theorem Covered.step (hw : WakeupDebt P c asrt demand owes)
    (hasrt : ∀ u, asrt (s.pc u) s.shared) (h : Covered P c demand owes s) (hs : Step P s t s') :
    Covered P c demand owes s' := by
  cases hs with
  | own hlocal _ hnosignal => exact h.own hw (hasrt _) hlocal (hnosignal c)
  | @signal c' k woken hact hwoken hone =>
      have hpc := pc_wakeAll_of_signal hact hwoken
      by_cases hc : c' = c
      · subst hc
        obtain ⟨hawake, hpay⟩ := hw.signal _ _ hact
        have hsum := tally_update owes (s.wakeAll P woken).pc t k
        rw [hpc] at hsum
        rintro ⟨u, hu⟩
        show demand s.shared ≤ ∑ u, owes (Function.update (s.wakeAll P woken).pc t k u)
        rcases woken.eq_empty_or_nonempty with hempty | hne
        · have hut : u ≠ t := by
            intro heq
            rw [heq] at hu
            simp only [State.goto, Function.update_self] at hu
            exact hawake hu
          subst hempty
          simp only [State.goto, Function.update_of_ne hut, State.wakeAll, Finset.notMem_empty,
            if_false] at hu
          exact absurd hu (hone rfl u)
        · obtain ⟨v, hv⟩ := hne
          have hcov : demand s.shared ≤ s.tally owes := h ⟨v, hwoken v hv⟩
          have hlt : s.tally owes < ∑ u, owes ((s.wakeAll P woken).pc u) :=
            tally_wakeAll_lt hw ⟨v, hv⟩ hwoken
          omega
      · refine (h.wakeAll_other hw hasrt hwoken).own hw (by rw [hpc]; exact hasrt t)
          (localStep_signal _ (by rw [hpc]; exact hact)) ?_
        intro k' hk'
        rw [hpc, hact] at hk'
        cases hk'
        exact hc rfl

/-- **The wake-up rule**: in every run of a monitor the demand is covered
whenever someone sleeps. -/
theorem WakeupDebt.covered {held : π → Finset μ} {m₀ : μ} {inv start : σ → Prop}
    (hw : WakeupDebt P c asrt demand owes)
    (hm : Monitor P held m₀ inv asrt) (hd : LockDiscipline P held)
    (hstart : ∀ x, start x → inv x) (hinit : ¬ (P.act P.init).isAsleep c)
    (h : (P.machine T start).Reachable s) : Covered P c demand owes s := by
  refine h.invariant' ?_ ?_
  · rintro s hs ⟨t, ht⟩
    rw [hs.2.2 t] at ht
    exact absurd ht hinit
  · intro s e s' hr hcov _ hstep
    exact hcov.step hw (hm.guarded hd hstart hr).at_point (step_cases hstep)

end Wakeups

end MBroker.Threads
