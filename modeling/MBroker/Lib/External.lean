import Mathlib.Data.Fintype.Card
import MBroker.Lib.Liveness

/-!
# Calls that somebody else answers

A machine may call what is not part of it: it opens a pipe and waits for the
other end, or it reads and is interrupted. `External` says which caller
stands before such a call, and whether it waits there. `expose` lets the
surroundings answer: a call that is waited for returns, and only then its
caller goes on; a call that fails ends the run.

What is true of all states of the machine is true of the exposed one
(`expose_inner`). `Paid.completes_expose` is the completion rule: left alone by
the surroundings, but with every call answered, the exposed machine comes
to the states in which the machine settles, unless a call has failed.
-/

namespace MBroker

namespace Machine

/-- The external calls of a machine, by their callers `κ`. -/
structure External (σ ι κ : Type*) where
  /-- the caller goes on only when its call has returned -/
  waits : σ → κ → Bool
  /-- the caller stands before a call that may fail -/
  mayFail : σ → κ → Bool
  /-- the caller whose step the input is -/
  caller : ι → Option κ

/-- The state of a machine, the callers whose call has returned, and the one
whose call has failed. -/
structure Exposed (σ κ : Type*) where
  inner : σ
  returned : Finset κ
  failed : Option κ

/-- An input of the machine, or the end of an external call. -/
inductive ExposedInput (ι κ : Type*)
  | inner (a : ι)
  | returns (k : κ)
  | fails (k : κ)

section Expose

variable {σ ι κ : Type*} [DecidableEq κ]

def External.step (X : External σ ι κ) (M : Machine σ ι) (p : Exposed σ κ) :
    ExposedInput ι κ → Option (Exposed σ κ)
  | .inner a =>
    match X.caller a with
    | none => (M.step p.inner a).map fun inner => { p with inner }
    | some k =>
      if X.waits p.inner k ∧ k ∉ p.returned then none
      else (M.step p.inner a).map fun inner => { p with inner, returned := p.returned.erase k }
  | .returns k =>
    if X.waits p.inner k ∧ k ∉ p.returned then some { p with returned := insert k p.returned }
    else none
  | .fails k =>
    if X.mayFail p.inner k ∧ k ∉ p.returned then some { p with failed := some k } else none

/-- The machine among its surroundings. Nothing happens after a call that failed. -/
def expose (M : Machine σ ι) (X : External σ ι κ) :
    Machine (Exposed σ κ) (ExposedInput ι κ) where
  start p := M.start p.inner ∧ p.returned = ∅ ∧ p.failed = none
  step p a := if p.failed.isSome then none else X.step M p a

variable {M : Machine σ ι} {X : External σ ι κ} {p p' : Exposed σ κ} {a : ExposedInput ι κ}

/-- What a step of the exposed machine can be. -/
inductive ExposedMove (M : Machine σ ι) (X : External σ ι κ) (p : Exposed σ κ) :
    ExposedInput ι κ → Exposed σ κ → Prop
  | inner {a : ι} {inner : σ} (hcaller : X.caller a = none)
      (hstep : M.step p.inner a = some inner) : ExposedMove M X p (.inner a) { p with inner }
  | caller {a : ι} {k : κ} {inner : σ} (hcaller : X.caller a = some k)
      (hreturned : X.waits p.inner k → k ∈ p.returned)
      (hstep : M.step p.inner a = some inner) :
      ExposedMove M X p (.inner a) { p with inner, returned := p.returned.erase k }
  | returns {k : κ} (hwaits : X.waits p.inner k) (hk : k ∉ p.returned) :
      ExposedMove M X p (.returns k) { p with returned := insert k p.returned }
  | fails {k : κ} (hfail : X.mayFail p.inner k) (hk : k ∉ p.returned) :
      ExposedMove M X p (.fails k) { p with failed := some k }

theorem expose_step_cases (h : (M.expose X).step p a = some p') :
    p.failed = none ∧ ExposedMove M X p a p' := by
  have hstep : (if p.failed.isSome then none else X.step M p a) = some p' := h
  split at hstep
  · cases hstep
  · rename_i hlive
    refine ⟨by simpa using hlive, ?_⟩
    cases a with
    | inner a =>
        simp only [External.step] at hstep
        split at hstep
        · rename_i hcaller
          obtain ⟨inner, hinner, rfl⟩ := Option.map_eq_some_iff.mp hstep
          exact .inner hcaller hinner
        · rename_i k hcaller
          split at hstep
          · cases hstep
          · rename_i hgo
            obtain ⟨inner, hinner, rfl⟩ := Option.map_eq_some_iff.mp hstep
            exact .caller hcaller (fun hwaits => not_not.mp fun hk => hgo ⟨hwaits, hk⟩) hinner
    | returns k =>
        simp only [External.step] at hstep
        split at hstep
        · rename_i hwaits
          cases hstep
          exact .returns hwaits.1 hwaits.2
        · cases hstep
    | fails k =>
        simp only [External.step] at hstep
        split at hstep
        · rename_i hfail
          cases hstep
          exact .fails hfail.1 hfail.2
        · cases hstep

/-- The surroundings do nothing that the machine could not be in. -/
theorem expose_inner (h : (M.expose X).Reachable p) : M.Reachable p.inner := by
  refine Reachable.component (N := M) Exposed.inner ?_ ?_ h
  · intro p hstart
    exact hstart.1
  · intro p a p' _ hstep
    cases (expose_step_cases hstep).2 with
    | inner _ hinner => exact .inr ⟨_, hinner⟩
    | caller _ _ hinner => exact .inr ⟨_, hinner⟩
    | returns | fails => exact .inl rfl

/-- The run has ended in a call that failed. -/
def Exposed.Ended (X : External σ ι κ) (p : Exposed σ κ) : Prop :=
  ∃ k, p.failed = some k ∧ X.mayFail p.inner k

theorem ended_of_failed (h : (M.expose X).Reachable p) (hfailed : p.failed ≠ none) :
    p.Ended X := by
  induction h with
  | start hstart => exact absurd hstart.2.2 hfailed
  | step _ _ hstep _ =>
      obtain ⟨hlive, hmove⟩ := expose_step_cases hstep
      cases hmove with
      | inner | caller | returns => exact absurd hlive hfailed
      | fails hfail => exact ⟨_, rfl, hfail⟩

/-! ## Completion -/

variable {own : ι → Prop} {cost : ι → Nat} {μ : σ → Nat}

/-- The machine takes its own steps, and what it waits for returns. -/
def ownExposed (own : ι → Prop) : ExposedInput ι κ → Prop
  | .inner a => own a
  | .returns _ => True
  | .fails _ => False

def exposedCost (cost : ι → Nat) : ExposedInput ι κ → Nat
  | .inner a => 2 * cost a
  | .returns _ => 0
  | .fails _ => 1

/-- The work of the machine, and the calls that have not returned. -/
def exposedWork [Fintype κ] (μ : σ → Nat) (p : Exposed σ κ) : Nat :=
  2 * μ p.inner + (Fintype.card κ - p.returned.card)

theorem Paid.expose [Fintype κ] (h : M.Paid cost μ) :
    (M.expose X).Paid (exposedCost cost) (exposedWork μ) := by
  intro p a p' hp hstep
  have hreach := expose_inner hp
  unfold exposedWork
  cases (expose_step_cases hstep).2 with
  | inner _ hinner =>
      have hlt := h _ _ _ hreach hinner
      simp only [exposedCost]
      omega
  | @caller a k inner _ _ hinner =>
      have hlt := h _ _ _ hreach hinner
      have hcard := Finset.pred_card_le_card_erase (s := p.returned) (a := k)
      simp only [exposedCost]
      omega
  | @returns k _ hk =>
      have hcard := Finset.card_insert_of_notMem hk
      have hle := Finset.card_le_univ (insert k p.returned)
      simp only [exposedCost]
      omega
  | fails =>
      simp only [exposedCost]
      omega

/-- Where the exposed machine settles, the machine does. -/
theorem settled_inner (hlive : p.failed = none)
    (h : (M.expose X).Settled (ownExposed own) p) : M.Settled own p.inner := by
  have hnone : ∀ a : ExposedInput ι κ, ownExposed own a → X.step M p a = none := by
    intro a ha
    have hstep : (if p.failed.isSome then none else X.step M p a) = none := h a ha
    rw [hlive] at hstep
    exact hstep
  intro a ha
  have hstep := hnone (.inner a) ha
  simp only [External.step] at hstep
  split at hstep
  · exact Option.map_eq_none_iff.mp hstep
  · rename_i k _
    split at hstep
    · -- the call would return
      rename_i hwaits
      have hreturns := hnone (.returns k) trivial
      simp only [External.step, if_pos hwaits] at hreturns
      cases hreturns
    · exact Option.map_eq_none_iff.mp hstep

/-- **The completion rule** for a machine whose calls return or fail. -/
theorem Paid.completes_expose [Fintype κ] {Q : σ → Prop} (h : M.Paid cost μ)
    (hown : ∀ a, own a → cost a = 0)
    (hQ : ∀ s, M.Reachable s → M.Settled own s → Q s) (hp : (M.expose X).Reachable p) :
    (M.expose X).Completes (ownExposed own) (fun p => p.Ended X ∨ Q p.inner) p := by
  refine h.expose.completes ?_ ?_ hp
  · intro a ha
    cases a with
    | inner a =>
        show 2 * cost a = 0
        rw [hown a ha]
    | returns => rfl
    | fails => exact ha.elim
  · intro p hp hsettled
    by_cases hlive : p.failed = none
    · exact .inr (hQ _ (expose_inner hp) (settled_inner hlive hsettled))
    · exact .inl (ended_of_failed hp hlive)

end Expose

end Machine

end MBroker
