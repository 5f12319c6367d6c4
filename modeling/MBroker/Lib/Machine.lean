import Mathlib.Logic.Relation
import Mathlib.Tactic.Common

/-!
# Machines, their runs and their invariants

A machine takes one input at a time; an input that is not enabled, or
that ends the run, has no next state. Safety is proved once and for all
by `ReachableBy.invariant`: the start establishes the invariant and
every guarded step keeps it. The guard lets a result speak about the
runs whose steps all meet a condition; `Reachable` is the trivial guard.

`ghost` adds a history variable. It changes no run: `ghost_fst` and
`Reachable.ghost` go in the two directions.
-/

namespace MBroker

/-- The states a machine may start in, and the state after an input. -/
structure Machine (σ ι : Type*) where
  start : σ → Prop
  step : σ → ι → Option σ

namespace Machine

variable {σ ι γ : Type*} {M : Machine σ ι} {guard : σ → ι → Prop}

/-- The states of the runs whose every step meets `guard`. -/
inductive ReachableBy (M : Machine σ ι) (guard : σ → ι → Prop) : σ → Prop
  | start {s : σ} (h : M.start s) : ReachableBy M guard s
  | step {s s' : σ} {a : ι} (h : ReachableBy M guard s) (hg : guard s a)
      (hs : M.step s a = some s') : ReachableBy M guard s'

/-- The states of all runs. -/
abbrev Reachable (M : Machine σ ι) : σ → Prop :=
  M.ReachableBy fun _ _ => True

/-- The state after a list of inputs, if each of them is enabled. -/
def run (M : Machine σ ι) (s : σ) : List ι → Option σ
  | [] => some s
  | a :: as => (M.step s a).bind fun s' => run M s' as

theorem run_cons (s : σ) (a : ι) (as : List ι) :
    M.run s (a :: as) = (M.step s a).bind fun s' => M.run s' as := rfl

/-- **The invariant rule**: what the start establishes and every guarded
step keeps holds in every state of the guarded runs. -/
theorem ReachableBy.invariant {P : σ → Prop} (hstart : ∀ s, M.start s → P s)
    (hstep : ∀ s a s', P s → guard s a → M.step s a = some s' → P s')
    {s : σ} (h : M.ReachableBy guard s) : P s := by
  induction h with
  | start h0 => exact hstart _ h0
  | step _ hg hs ih => exact hstep _ _ _ ih hg hs

/-- The invariant rule with the reachability of the state at hand: an
invariant proved earlier may be used in the step. -/
theorem ReachableBy.invariant' {P : σ → Prop} (hstart : ∀ s, M.start s → P s)
    (hstep : ∀ s a s', M.ReachableBy guard s → P s → guard s a →
      M.step s a = some s' → P s')
    {s : σ} (h : M.ReachableBy guard s) : P s := by
  induction h with
  | start h0 => exact hstart _ h0
  | step hr hg hs ih => exact hstep _ _ _ hr ih hg hs

theorem ReachableBy.mono {guard' : σ → ι → Prop}
    (hle : ∀ s a, guard s a → guard' s a) {s : σ}
    (h : M.ReachableBy guard s) : M.ReachableBy guard' s := by
  induction h with
  | start h0 => exact .start h0
  | step _ hg hs ih => exact .step ih (hle _ _ hg) hs

theorem ReachableBy.reachable {s : σ} (h : M.ReachableBy guard s) :
    M.Reachable s :=
  h.mono fun _ _ _ => trivial

/-- A run of inputs that meet the guard in every state. -/
theorem ReachableBy.run {s s' : σ} {as : List ι} (hg : ∀ a ∈ as, ∀ s, guard s a)
    (h : M.ReachableBy guard s) (hr : M.run s as = some s') : M.ReachableBy guard s' := by
  induction as generalizing s with
  | nil =>
      cases hr
      exact h
  | cons a as ih =>
      obtain ⟨s₁, hs, hr⟩ := Option.bind_eq_some_iff.mp hr
      exact ih (fun b hb => hg b (List.mem_cons_of_mem a hb))
        (h.step (hg a List.mem_cons_self s) hs) hr

/-- A run that checks the guard before every step. -/
def runBy (M : Machine σ ι) (guard : σ → ι → Prop) [∀ s a, Decidable (guard s a)] (s : σ) :
    List ι → Option σ
  | [] => some s
  | a :: as => if guard s a then (M.step s a).bind fun s' => runBy M guard s' as else none

theorem ReachableBy.runBy [∀ s a, Decidable (guard s a)] {s s' : σ} {as : List ι}
    (h : M.ReachableBy guard s) (hr : M.runBy guard s as = some s') :
    M.ReachableBy guard s' := by
  induction as generalizing s with
  | nil =>
      cases hr
      exact h
  | cons a as ih =>
      rw [Machine.runBy] at hr
      split at hr
      · rename_i hg
        obtain ⟨s₁, hs, hr⟩ := Option.bind_eq_some_iff.mp hr
        exact ih (h.step hg hs) hr
      · cases hr

/-! ## Components -/

/-- **The component rule**: what a run looks like to a component that every
step leaves alone or takes along is a run of the component. -/
theorem Reachable.component {τ κ : Type*} {N : Machine τ κ} (view : σ → τ)
    (hstart : ∀ s, M.start s → N.start (view s))
    (hstep : ∀ s a s', M.Reachable s → M.step s a = some s' →
      view s' = view s ∨ ∃ b, N.step (view s) b = some (view s'))
    {s : σ} (h : M.Reachable s) : N.Reachable (view s) := by
  induction h with
  | start h0 => exact .start (hstart _ h0)
  | @step s s' a hr _ hs ih =>
      rcases hstep s a s' hr hs with hsame | ⟨b, hb⟩
      · rw [hsame]
        exact ih
      · exact ih.step trivial hb

/-! ## Simulation -/

section Simulation

variable {τ : Type*} {N : Machine τ ι} {R : σ → τ → Prop}

/-- Related states stay related: `N` can take each step that `M` takes, on the
same input. -/
def FollowedBy (M : Machine σ ι) (N : Machine τ ι) (R : σ → τ → Prop) : Prop :=
  ∀ ⦃s t a s'⦄, R s t → M.step s a = some s' → ∃ t', N.step t a = some t' ∧ R s' t'

theorem FollowedBy.run {s s' : σ} {t : τ} {as : List ι} (h : M.FollowedBy N R) (hR : R s t)
    (hr : M.run s as = some s') : ∃ t', N.run t as = some t' ∧ R s' t' := by
  induction as generalizing s t with
  | nil =>
      cases hr
      exact ⟨t, rfl, hR⟩
  | cons a as ih =>
      obtain ⟨s₁, hs, hr⟩ := Option.bind_eq_some_iff.mp hr
      obtain ⟨t₁, ht, hR₁⟩ := h hR hs
      obtain ⟨t', hrun, hR'⟩ := ih hR₁ hr
      exact ⟨t', Option.bind_eq_some_iff.mpr ⟨t₁, ht, hrun⟩, hR'⟩

/-- Machines that follow each other have the same runs. -/
theorem FollowedBy.run_isSome_iff {s : σ} {t : τ} (h : M.FollowedBy N R)
    (h' : N.FollowedBy M fun t s => R s t) (hR : R s t) (as : List ι) :
    (M.run s as).isSome ↔ (N.run t as).isSome := by
  constructor
  · intro hs
    obtain ⟨s', hr⟩ := Option.isSome_iff_exists.mp hs
    obtain ⟨t', hr', -⟩ := h.run hR hr
    exact Option.isSome_iff_exists.mpr ⟨t', hr'⟩
  · intro ht
    obtain ⟨t', hr⟩ := Option.isSome_iff_exists.mp ht
    obtain ⟨s', hr', -⟩ := h'.run hR hr
    exact Option.isSome_iff_exists.mpr ⟨s', hr'⟩

end Simulation

/-! ## History variables -/

/-- The machine with a history variable: `g₀` at the start, `upd` after
each step from the state before, the input and the state after. -/
def ghost (M : Machine σ ι) (g₀ : γ) (upd : σ → ι → σ → γ → γ) :
    Machine (σ × γ) ι where
  start p := M.start p.1 ∧ p.2 = g₀
  step p a := (M.step p.1 a).map fun s' => (s', upd p.1 a s' p.2)

variable {g₀ : γ} {upd : σ → ι → σ → γ → γ}

theorem ghost_step_eq_some {p p' : σ × γ} {a : ι} :
    (M.ghost g₀ upd).step p a = some p' ↔
      M.step p.1 a = some p'.1 ∧ p'.2 = upd p.1 a p'.1 p.2 := by
  obtain ⟨s', g'⟩ := p'
  simp only [ghost, Option.map_eq_some_iff, Prod.mk.injEq]
  constructor
  · rintro ⟨x, hx, rfl, rfl⟩
    exact ⟨hx, rfl⟩
  · rintro ⟨hs, rfl⟩
    exact ⟨s', hs, rfl, rfl⟩

/-- Forgetting the history variable leaves a run of the machine. -/
theorem ghost_fst {guard : σ × γ → ι → Prop} {p : σ × γ}
    (h : (M.ghost g₀ upd).ReachableBy guard p) : M.Reachable p.1 := by
  induction h with
  | start h0 => exact .start h0.1
  | step _ _ hs ih => exact ih.step trivial (ghost_step_eq_some.mp hs).1

/-- Every run of the machine is a run with the history variable. -/
theorem Reachable.ghost {s : σ} (h : M.Reachable s) :
    ∃ g, (M.ghost g₀ upd).Reachable (s, g) := by
  induction h with
  | start h0 => exact ⟨g₀, .start ⟨h0, rfl⟩⟩
  | @step s s' a _ _ hs ih =>
      obtain ⟨g, hg⟩ := ih
      exact ⟨upd s a s' g, hg.step trivial (ghost_step_eq_some.mpr ⟨hs, rfl⟩)⟩

end Machine

end MBroker
