import Mathlib.Algebra.GroupWithZero.Nat
import MBroker.Lib.Threads

/-!
# Runs that end

A machine settles if a measure falls with each of its own steps; what the
environment adds has a price. In the state where it settles nothing of
its own is left to do.

For threads the measure is a sum of weights of their points. A sleeper
that is woken starts again, so the signal pays for it. The progress rule
says what a settled state of such a program looks like: every thread is
outside the program or asleep, or an access has faulted.
-/

namespace MBroker

namespace Machine

variable {σ ι : Type*} {M : Machine σ ι} {cost : ι → Nat} {μ : σ → Nat}

/-- No input of the kind is enabled. -/
def Settled (M : Machine σ ι) (own : ι → Prop) (s : σ) : Prop :=
  ∀ a, own a → M.step s a = none

/-- An input lowers the measure, or costs at least what it adds and one more. -/
def Paid (M : Machine σ ι) (cost : ι → Nat) (μ : σ → Nat) : Prop :=
  ∀ s a s', M.Reachable s → M.step s a = some s' → μ s' < μ s + cost a

/-- **The run-length rule.** -/
theorem Paid.run_length_le (h : M.Paid cost μ) {s s' : σ} {as : List ι} (hs : M.Reachable s)
    (hr : M.run s as = some s') : as.length + μ s' ≤ μ s + (as.map cost).sum := by
  induction as generalizing s with
  | nil =>
      cases hr
      simp
  | cons a as ih =>
      obtain ⟨s₁, hstep, hr⟩ := Option.bind_eq_some_iff.mp hr
      have hrest := ih (hs.step trivial hstep) hr
      have hlt := h s a s₁ hs hstep
      rw [List.length_cons, List.map_cons, List.sum_cons]
      omega

/-- From `s` on, a run that the machine cannot continue by itself has come to
`Q`, and by itself the machine comes there. -/
def Completes (M : Machine σ ι) (own : ι → Prop) (Q : σ → Prop) (s : σ) : Prop :=
  (∀ as s', M.run s as = some s' → M.Settled own s' → Q s') ∧
    ∃ as s', M.run s as = some s' ∧ (∀ a ∈ as, own a) ∧ M.Settled own s'

variable {own : ι → Prop} {Q : σ → Prop} {s : σ}

/-- Left alone, the machine settles. -/
theorem Paid.settles (h : M.Paid cost μ) (hown : ∀ a, own a → cost a = 0) (hs : M.Reachable s) :
    ∃ as s', M.run s as = some s' ∧ (∀ a ∈ as, own a) ∧ M.Settled own s' := by
  induction hm : μ s using Nat.strong_induction_on generalizing s with
  | _ m ih =>
      by_cases hsettled : M.Settled own s
      · exact ⟨[], s, rfl, by simp, hsettled⟩
      · unfold Settled at hsettled
        push Not at hsettled
        obtain ⟨a, ha, hstep⟩ := hsettled
        obtain ⟨s₁, hstep⟩ := Option.ne_none_iff_exists'.mp hstep
        have hlt := h s a s₁ hs hstep
        rw [hown a ha] at hlt
        obtain ⟨as, s', hr, has, hsettled⟩ :=
          ih (μ s₁) (by omega) (hs.step trivial hstep) rfl
        refine ⟨a :: as, s', ?_, ?_, hsettled⟩
        · rw [run_cons, hstep]
          exact hr
        · intro b hb
          rcases List.mem_cons.mp hb with rfl | hb
          · exact ha
          · exact has b hb

/-- **The completion rule**, from what a settled state looks like. -/
theorem Paid.completes (h : M.Paid cost μ) (hown : ∀ a, own a → cost a = 0)
    (hQ : ∀ s, M.Reachable s → M.Settled own s → Q s) (hs : M.Reachable s) :
    M.Completes own Q s := by
  constructor
  · intro as s' hr hsettled
    exact hQ s' (hs.run (fun _ _ _ => trivial) hr) hsettled
  · exact h.settles hown hs

end Machine

namespace Threads

open Finset

variable {T μ κ π σ : Type*}

/-! ## Progress -/

/-- The thread is neither outside the program nor asleep. -/
def Act.isRunning : Act μ κ π σ → Bool
  | .idle | .asleep _ _ => false
  | _ => true

/-- A step that a thread takes by itself, inside the program. -/
def Event.isOwn : Event T π → Bool
  | .run _ | .signal _ _ => true
  | .call _ _ | .wake _ => false

/-- The access that thread `t` is about to make fails. -/
def State.FaultsAt (P : Program μ κ π σ) (s : State T μ π σ) (t : T) : Prop :=
  ∃ f, P.act (s.pc t) = .access f ∧ f s.shared = none

section Progress

variable [Fintype T] [DecidableEq T] [DecidableEq μ] [DecidableEq κ] {P : Program μ κ π σ}
  {s s' : State T μ π σ} {t : T} {e : Event T π} {held : π → Finset μ} {rank : π → Nat}

theorem isRunning_of_step (h : step P s e = some s') (he : e.isOwn) :
    (P.act (s.pc e.thread)).isRunning := by
  cases e with
  | call | wake => cases he
  | run t =>
      show (P.act (s.pc t)).isRunning
      simp only [step] at h
      cases hact : P.act (s.pc t) with
      | idle | asleep | signal =>
          rw [hact] at h
          cases h
      | _ => rfl
  | signal t woken =>
      show (P.act (s.pc t)).isRunning
      simp only [step] at h
      cases hact : P.act (s.pc t) with
      | signal => rfl
      | _ =>
          rw [hact] at h
          cases h

/-- A running thread can step, or waits for a mutex, or its access fails. -/
theorem step_or_waits (h : (P.act (s.pc t)).isRunning) :
    (∃ e, e.isOwn ∧ step P s e ≠ none) ∨ (∃ u, WaitsFor P s t u) ∨ s.FaultsAt P t := by
  cases hact : P.act (s.pc t) with
  | idle | asleep =>
      rw [hact] at h
      cases h
  | lock m k =>
      cases howner : s.owner m with
      | none => exact .inl ⟨.run t, rfl, by simp [step, hact, howner]⟩
      | some u => exact .inr (.inl ⟨u, m, k, hact, howner⟩)
  | unlock | wait => exact .inl ⟨.run t, rfl, by simp [step, hact]⟩
  | access f =>
      cases hf : f s.shared with
      | none => exact .inr (.inr ⟨f, hact, hf⟩)
      | some r => exact .inl ⟨.run t, rfl, by simp [step, hact, hf]⟩
  | signal c k =>
      -- all the sleepers may be woken
      refine .inl ⟨.signal t {u | (P.act (s.pc u)).isAsleep c}, rfl, ?_⟩
      simp only [step, hact]
      rw [if_pos]
      · simp
      · constructor
        · simp
        · intro hnone u hu
          have hmem : u ∈ ({u | (P.act (s.pc u)).isAsleep c} : Finset T) := by simp [hu]
          rw [hnone] at hmem
          simp at hmem

/-- **The progress rule**: a mutex order excludes that all threads wait. -/
theorem LockOrder.progress (ho : LockOrder P held rank) (hown : Owned held s)
    (hrunning : ∀ p m, m ∈ held p → (P.act p).isRunning) (ht : (P.act (s.pc t)).isRunning) :
    (∃ e, e.isOwn ∧ step P s e ≠ none) ∨ ∃ u, s.FaultsAt P u := by
  -- the holder of a mutex is running, and of lower rank if it waits as well
  have hholder : ∀ n t u, WaitsFor P s t u → rank (s.pc t) = n →
      (∃ e, e.isOwn ∧ step P s e ≠ none) ∨ ∃ u, s.FaultsAt P u := by
    intro n
    induction n using Nat.strong_induction_on with
    | _ n ih =>
        intro t u hwaits hn
        have hu : (P.act (s.pc u)).isRunning := by
          obtain ⟨m, k, -, howner⟩ := hwaits
          exact hrunning _ m ((hown u m).mp howner)
        rcases step_or_waits hu with hstep | ⟨v, huv⟩ | hfault
        · exact .inl hstep
        · have hlt := ho.rank_lt_of_waitsFor hown hwaits huv
          exact ih _ (by omega) u v huv rfl
        · exact .inr ⟨u, hfault⟩
  rcases step_or_waits ht with hstep | ⟨u, hwaits⟩ | hfault
  · exact .inl hstep
  · exact hholder _ t u hwaits rfl
  · exact .inr ⟨t, hfault⟩

/-- In a settled state no thread is running, unless an access has faulted. -/
theorem LockOrder.settled (ho : LockOrder P held rank) (hown : Owned held s)
    (hrunning : ∀ p m, m ∈ held p → (P.act p).isRunning)
    (hsettled : ∀ e, e.isOwn → step P s e = none) (hsafe : ∀ u, ¬ s.FaultsAt P u) (t : T) :
    (P.act (s.pc t)).isRunning = false := by
  by_contra ht
  rcases ho.progress hown hrunning (by simpa using ht) with ⟨e, he, hstep⟩ | ⟨u, hu⟩
  · exact hstep (hsettled e he)
  · exact hsafe u hu

end Progress

/-! ## Potentials -/

/-- The sums of two functions that differ at one place only. -/
theorem sum_add_of_eq_elsewhere {M : Type*} [AddCommMonoid M] [Fintype T] [DecidableEq T]
    {f g : T → M} {t : T} (h : ∀ u, u ≠ t → f u = g u) :
    ∑ u, f u + g t = ∑ u, g u + f t := by
  have hf := Finset.add_sum_erase univ f (mem_univ t)
  have hg := Finset.add_sum_erase univ g (mem_univ t)
  have heq : ∑ u ∈ univ.erase t, f u = ∑ u ∈ univ.erase t, g u :=
    Finset.sum_congr rfl fun u hu => h u (Finset.ne_of_mem_erase hu)
  rw [← hf, ← hg, heq, add_right_comm, add_right_comm (g t), add_comm (f t)]

/-- `w t p` is what thread `t` at `p` has still to spend, `ψ` what the shared
state has. A sleeper that wakes up gets at most `c`. -/
structure Potential (P : Program μ κ π σ) (asrt : π → σ → Prop) (w : T → π → Nat) (ψ : σ → Nat)
    (c : Nat) [Fintype T] : Prop where
  move : ∀ t p x k x', P.LocalStep p x k x' → asrt p x → (P.act p).isRunning →
    (∀ c' k', P.act p ≠ .signal c' k') → w t k + ψ x' < w t p + ψ x
  signal : ∀ t p c' k, P.act p = .signal c' k → w t k + Fintype.card T * c < w t p
  woken : ∀ t p c' k, P.act p = .asleep c' k → w t k ≤ w t p + c

def State.potential [Fintype T] (s : State T μ π σ) (w : T → π → Nat) (ψ : σ → Nat) : Nat :=
  ∑ t, w t (s.pc t) + ψ s.shared

section Potentials

variable [Fintype T] [DecidableEq T] {P : Program μ κ π σ} {asrt : π → σ → Prop}
  {w : T → π → Nat} {ψ : σ → Nat} {c : Nat} {s s' : State T μ π σ} {t : T}

theorem potential_update (w : T → π → Nat) (pc : T → π) (t : T) (k : π) :
    ∑ u, w u (Function.update pc t k u) + w t (pc t) = ∑ u, w u (pc u) + w t k := by
  have hsum := sum_add_of_eq_elsewhere (t := t)
    (f := fun u => w u (Function.update pc t k u)) (g := fun u => w u (pc u))
    (fun u hu => by rw [Function.update_of_ne hu])
  simpa only [Function.update_self] using hsum

variable [DecidableEq κ]

/-- Every thread that is woken gets no more than `c`. -/
theorem Potential.wakeAll_le {c' : κ} {woken : Finset T} (hp : Potential P asrt w ψ c)
    (hwoken : ∀ u ∈ woken, (P.act (s.pc u)).isAsleep c') :
    ∑ u, w u ((s.wakeAll P woken).pc u) ≤ ∑ u, w u (s.pc u) + Fintype.card T * c := by
  have hone : ∀ u, w u ((s.wakeAll P woken).pc u) ≤ w u (s.pc u) + c := by
    intro u
    show w u (if u ∈ woken then P.awake (s.pc u) else s.pc u) ≤ _
    split
    · rename_i hu
      obtain ⟨k, hact⟩ := isAsleep_iff.mp (hwoken u hu)
      simpa only [Program.awake, hact] using hp.woken u _ _ _ hact
    · exact Nat.le_add_right ..
  calc ∑ u, w u ((s.wakeAll P woken).pc u) ≤ ∑ u, (w u (s.pc u) + c) :=
        Finset.sum_le_sum fun u _ => hone u
    _ = ∑ u, w u (s.pc u) + Fintype.card T * c := by
        rw [Finset.sum_add_distrib, Finset.sum_const_nat fun _ _ => rfl, Finset.card_univ]

variable [DecidableEq μ] {e : Event T π}

/-- **The potential rule**: a thread's own step lowers the potential. -/
theorem Potential.own_lt (hp : Potential P asrt w ψ c) (hasrt : ∀ u, asrt (s.pc u) s.shared)
    (h : step P s e = some s') (he : e.isOwn) : s'.potential w ψ < s.potential w ψ := by
  have hrunning := isRunning_of_step h he
  cases step_cases h with
  | @own k x' hlocal _ hnosignal =>
      have hlt := hp.move e.thread _ _ _ _ hlocal (hasrt _) hrunning hnosignal
      have hsum := potential_update w s.pc e.thread k
      show ∑ u, w u (Function.update s.pc e.thread k u) + ψ x' < ∑ u, w u (s.pc u) + ψ s.shared
      omega
  | @signal c' k woken hact hwoken _ =>
      have hlt := hp.signal e.thread _ _ _ hact
      have hwake := hp.wakeAll_le hwoken
      have hsum := potential_update w (s.wakeAll P woken).pc e.thread k
      rw [pc_wakeAll_of_signal hact hwoken] at hsum
      show ∑ u, w u (Function.update (s.wakeAll P woken).pc e.thread k u) + ψ s.shared <
        ∑ u, w u (s.pc u) + ψ s.shared
      omega

theorem Potential.wake_le (hp : Potential P asrt w ψ c) (h : step P s (.wake t) = some s') :
    s'.potential w ψ ≤ s.potential w ψ + c := by
  simp only [step] at h
  split at h
  · rename_i c' k hact
    cases h
    have hle := hp.woken t _ _ _ hact
    have hsum := potential_update w s.pc t k
    show ∑ u, w u (Function.update s.pc t k u) + ψ s.shared ≤ ∑ u, w u (s.pc u) + ψ s.shared + c
    omega
  · cases h

theorem potential_call {p : π} (w : T → π → Nat) (ψ : σ → Nat)
    (h : step P s (.call t p) = some s') :
    s'.potential w ψ + w t (s.pc t) = s.potential w ψ + w t p := by
  rw [step_call h]
  have hsum := potential_update w s.pc t p
  show ∑ u, w u (Function.update s.pc t p u) + ψ s.shared + w t (s.pc t) =
    ∑ u, w u (s.pc u) + ψ s.shared + w t p
  omega

end Potentials

end Threads

end MBroker
