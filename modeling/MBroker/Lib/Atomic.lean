import MBroker.Lib.Threads

/-!
# Critical sections are atomic

A program whose accesses are all made under one mutex behaves as if each
call were one step of a sequential machine. The step is taken where the
mutex is released: while a section is on its way, `inside x p y` knows the
state `x` that it found, the point `p` that it has come to and the state
`y` that it has made so far.

The log keeps the calls and, in the order of the releases, the calls that
have been served with their answers.
-/

namespace MBroker

theorem Machine.run_concat {σ ι : Type*} (M : Machine σ ι) (s : σ) (as : List ι) (a : ι) :
    M.run s (as ++ [a]) = (M.run s as).bind fun s' => M.step s' a := by
  induction as generalizing s with
  | nil =>
      show (M.step s a).bind some = M.step s a
      cases M.step s a <;> rfl
  | cons b as ih =>
      rw [List.cons_append, Machine.run_cons, Machine.run_cons, Option.bind_assoc]
      congr 1
      funext s'
      exact ih s'

namespace Threads

variable {T μ κ π σ C R γ : Type*}

/-! ## Calls and answers -/

structure Log (T C R : Type*) where
  called : List (T × C)
  served : List (T × C × R)

/-- What a client sees of a point: the call that is going on, the answer that
has been given, and what the step at the point serves. -/
structure View (π C R : Type*) where
  request : π → Option C
  answer : π → Option R
  serves : π → Option (C × R)

def Log.update (v : View π C R) (s : State T μ π σ) (e : Event T π) (_ : State T μ π σ)
    (g : Log T C R) : Log T C R :=
  match e with
  | .call t p => { g with called := g.called ++ (v.request p).toList.map fun c => (t, c) }
  | .run t => { g with served := g.served ++ (v.serves (s.pc t)).toList.map fun c => (t, c) }
  | .signal _ _ | .wake _ => g

theorem Log.update_none {v : View π C R} {s s' : State T μ π σ} {t : T} {g : Log T C R}
    (h : v.serves (s.pc t) = none) : Log.update v s (.run t) s' g = g := by
  simp [Log.update, h]

theorem Log.update_some {v : View π C R} {s s' : State T μ π σ} {t : T} {g : Log T C R}
    {c : C × R} (h : v.serves (s.pc t) = some c) :
    Log.update v s (.run t) s' g = { g with served := g.served ++ [(t, c)] } := by
  simp [Log.update, h]

section Log

variable [DecidableEq T] {t u : T} {l l' : List (T × γ)}

/-- What a list has of thread `t`. -/
def ofThread (t : T) (l : List (T × γ)) : List γ := (l.filter fun p => p.1 = t).map Prod.snd

theorem ofThread_append (t : T) (l l' : List (T × γ)) :
    ofThread t (l ++ l') = ofThread t l ++ ofThread t l' := by
  simp [ofThread]

theorem ofThread_self (t : T) (cs : List γ) : ofThread t (cs.map fun c => (t, c)) = cs := by
  induction cs with
  | nil => rfl
  | cons c cs ih =>
      simp only [ofThread, List.map_cons, List.filter_cons, decide_true, if_pos] at ih ⊢
      rw [ih]

theorem ofThread_of_ne (h : u ≠ t) (cs : List γ) : ofThread t (cs.map fun c => (u, c)) = [] := by
  simp [ofThread, h]

theorem ofThread_map {δ : Type*} (f : γ → δ) (t : T) (l : List (T × γ)) :
    ofThread t (l.map fun p => (p.1, f p.2)) = (ofThread t l).map f := by
  simp [ofThread, List.filter_map, Function.comp_def]

/-- Lists that have the same of each thread are permutations. -/
theorem perm_of_ofThread_eq (h : ∀ t, ofThread t l = ofThread t l') : l.Perm l' := by
  classical
  have hcount : ∀ (l : List (T × γ)) (t : T) (c : γ), l.count (t, c) = (ofThread t l).count c := by
    intro l t c
    induction l with
    | nil => rfl
    | cons p l ih =>
        obtain ⟨u, d⟩ := p
        rw [List.count_cons, ih]
        by_cases hu : u = t
        · simp [ofThread, hu, List.count_cons]
        · simp [ofThread, hu]
  apply List.perm_iff_count.mpr
  rintro ⟨t, c⟩
  rw [hcount, hcount, h]

end Log

/-! ## Sections -/

/-- The program keeps `m` while it accesses the shared state, and `A` takes a
section in one step. Only calls at an `allowed` point are made. -/
structure Atomic (P : Program μ κ π σ) (held : π → Finset μ) (A : Machine σ (C × R)) (m : μ)
    (v : View π C R) (allowed : π → Prop) (inside : σ → π → σ → Prop) : Prop where
  init : allowed P.init ∧ v.request P.init = none ∧ v.answer P.init = none
  access : ∀ p f, allowed p → P.act p = .access f → m ∈ held p
  enter : ∀ p k x, allowed p → P.act p = .lock m k → inside x k x
  move : ∀ p x y k z, inside x p y → P.LocalStep p y k z → v.serves p = none → inside x k z
  serve : ∀ p x y c, inside x p y → v.serves p = some c → A.step x c = some y
  releases : ∀ p, allowed p → ((v.serves p).isSome ↔ (P.act p).releases = some m)
  call : ∀ p, P.act p = .idle → v.request p = none
  called : ∀ k, P.entry k → allowed k → v.answer k = none
  stays : ∀ p x k y, allowed p → P.LocalStep p x k y → P.act p ≠ .idle → allowed k
  waits : ∀ p x k y, allowed p → P.LocalStep p x k y → P.act p ≠ .idle → v.serves p = none →
    v.request k = v.request p ∧ v.answer k = none
  answers : ∀ p x k y c, allowed p → P.LocalStep p x k y → v.serves p = some c →
    v.request p = some c.1 ∧ v.request k = none ∧ ∀ r, v.answer k = some r → r = c.2

/-- The sections have made `x` so far, up to the one that is on its way. -/
def Between (m : μ) (inside : σ → π → σ → Prop) (x : σ) (s : State T μ π σ) : Prop :=
  (s.owner m = none → s.shared = x) ∧ ∀ t, s.owner m = some t → inside x (s.pc t) s.shared

/-- The calls that have been served are a run of the sequential machine, and
the state is the one it has come to. Each thread's calls are served in its
order, one at a time. -/
structure Linearized [DecidableEq T] (A : Machine σ (C × R)) (m : μ) (v : View π C R)
    (inside : σ → π → σ → Prop) (x₀ : σ) (s : State T μ π σ) (g : Log T C R) : Prop where
  serial : ∃ x, A.run x₀ (g.served.map Prod.snd) = some x ∧ Between m inside x s
  each : ∀ t, ofThread t g.called =
    (ofThread t g.served).map Prod.fst ++ (v.request (s.pc t)).toList
  answered : ∀ t r, v.answer (s.pc t) = some r → ∃ c, (ofThread t g.served).getLast? = some (c, r)

section Rule

variable [DecidableEq T] [DecidableEq μ] {P : Program μ κ π σ} {held : π → Finset μ}
  {A : Machine σ (C × R)} {m : μ} {v : View π C R} {allowed : π → Prop}
  {inside : σ → π → σ → Prop} {s s' : State T μ π σ} {t : T} {x₀ x x' : σ} {k : π} {c : C × R}
  {g : Log T C R}

omit [DecidableEq T] in
theorem ownerAfter_of_ne (owner : μ → Option T) {a : Act μ κ π σ} (htakes : a.takes ≠ some m)
    (hreleases : a.releases ≠ some m) : ownerAfter a t owner m = owner m := by
  cases a with
  | lock m' k' =>
      have hne : m ≠ m' := fun h => htakes (congrArg some h.symm)
      exact Function.update_of_ne hne ..
  | unlock m' k' | wait c m' k' =>
      have hne : m ≠ m' := fun h => hreleases (congrArg some h.symm)
      exact Function.update_of_ne hne ..
  | _ => rfl

/-- A step that serves nothing. -/
theorem Atomic.between (ha : Atomic P held A m v allowed inside) (hown : Owned held s)
    (h : Between m inside x s) (hallowed : allowed (s.pc t))
    (hlocal : P.LocalStep (s.pc t) s.shared k x')
    (hfree : ∀ m, (P.act (s.pc t)).takes = some m → s.owner m = none)
    (hserves : v.serves (s.pc t) = none) :
    Between (T := T) m inside x
      ⟨x', ownerAfter (P.act (s.pc t)) t s.owner, Function.update s.pc t k⟩ := by
  obtain ⟨hnone, hsome⟩ := h
  have hreleases : (P.act (s.pc t)).releases ≠ some m := by
    intro hrel
    have hisSome := (ha.releases _ hallowed).mpr hrel
    rw [hserves] at hisSome
    cases hisSome
  -- only the owner has access to the shared state
  have hshared : s.owner m ≠ some t → x' = s.shared := by
    intro hne
    apply localStep_shared hlocal
    intro f hact
    exact hne ((hown t m).mpr (ha.access _ f hallowed hact))
  by_cases htakes : (P.act (s.pc t)).takes = some m
  · -- the section starts
    have hm := hfree m htakes
    have hx' := hshared (by rw [hm]; simp)
    cases hact : P.act (s.pc t) with
    | lock m' k' =>
        rw [hact] at htakes
        cases htakes
        have hk : k = k' := by
          unfold Program.LocalStep at hlocal
          rw [hact] at hlocal
          exact hlocal.1
        constructor
        · intro hfree
          simp [ownerAfter] at hfree
        · intro u hu
          have htu : t = u := by simpa [ownerAfter] using hu
          subst htu
          show inside x (Function.update s.pc t k t) x'
          rw [Function.update_self, hx', hnone hm, hk]
          exact ha.enter _ _ x hallowed hact
    | _ =>
        rw [hact] at htakes
        cases htakes
  · have howner := ownerAfter_of_ne (t := t) s.owner htakes hreleases
    constructor
    · intro hm
      have hm : s.owner m = none := howner.symm.trans hm
      rw [← hnone hm]
      exact hshared (by rw [hm]; simp)
    · intro u hu
      have hinside := hsome u (howner.symm.trans hu)
      show inside x (Function.update s.pc t k u) x'
      by_cases hut : u = t
      · rw [hut, Function.update_self]
        rw [hut] at hinside
        exact ha.move _ _ _ _ _ hinside hlocal hserves
      · have hm : s.owner m = some u := howner.symm.trans hu
        rw [Function.update_of_ne hut, hshared (by rw [hm]; simpa using hut)]
        exact hinside

/-- The step that ends a section. -/
theorem Atomic.between_serve (ha : Atomic P held A m v allowed inside)
    (hd : LockDiscipline P held) (hown : Owned held s) (h : Between m inside x s)
    (hallowed : allowed (s.pc t)) (hlocal : P.LocalStep (s.pc t) s.shared k x')
    (hserves : v.serves (s.pc t) = some c) :
    A.step x c = some x' ∧ Between (T := T) m inside x'
      ⟨x', ownerAfter (P.act (s.pc t)) t s.owner, Function.update s.pc t k⟩ := by
  have hreleases : (P.act (s.pc t)).releases = some m := by
    apply (ha.releases _ hallowed).mp
    rw [hserves]
    rfl
  have hm : s.owner m = some t := (hown t m).mpr (hd.release _ _ hreleases)
  have hstep := ha.serve _ x _ c (h.2 t hm) hserves
  have hx' : x' = s.shared := by
    apply localStep_shared hlocal
    intro f hact
    rw [hact] at hreleases
    cases hreleases
  refine ⟨by rw [hx']; exact hstep, fun _ => rfl, ?_⟩
  intro u hu
  cases hact : P.act (s.pc t) with
  | unlock m' k' | wait c' m' k' =>
      rw [hact] at hreleases hu
      cases hreleases
      simp [ownerAfter] at hu
  | _ =>
      rw [hact] at hreleases
      cases hreleases

/-! ## Runs -/

/-- Calls are made at allowed points only. -/
def CallsAllowed (allowed : π → Prop) (_ : State T μ π σ × Log T C R) (e : Event T π) : Prop :=
  ∀ t p, e = .call t p → allowed p

variable [Fintype T] [DecidableEq κ] {e : Event T π} {start : σ → Prop} {p : π}

omit [DecidableEq μ] [Fintype T] in
/-- The new point of a thread is allowed, and so are the old ones. -/
theorem allowed_update (h : ∀ u, allowed (s.pc u)) (hk : allowed k) (u : T) :
    allowed (Function.update s.pc t k u) := by
  by_cases hu : u = t
  · rw [hu, Function.update_self]
    exact hk
  · rw [Function.update_of_ne hu]
    exact h u

/-- A call is logged. -/
theorem Atomic.linearized_call (ha : Atomic P held A m v allowed inside) (hown : Owned held s)
    (hall : ∀ u, allowed (s.pc u)) (h : Linearized A m v inside x₀ s g)
    (hstep : step P s (.call t p) = some s') (hp : allowed p) :
    Linearized A m v inside x₀ s' (Log.update v s (.call t p) s' g) := by
  obtain ⟨hidle, hentry⟩ := idle_of_call hstep
  obtain rfl := step_call hstep
  have hserves : v.serves (s.pc t) = none := by
    cases hc : v.serves (s.pc t) with
    | none => rfl
    | some c =>
        have hreleases := (ha.releases _ (hall t)).mp (by rw [hc]; rfl)
        rw [hidle] at hreleases
        cases hreleases
  obtain ⟨x, hrun, hbetween⟩ := h.serial
  have hlocal : P.LocalStep (s.pc t) s.shared p s.shared := by
    unfold Program.LocalStep
    rw [hidle]
    exact ⟨hentry, rfl⟩
  have hafter := ha.between hown hbetween (hall t) hlocal (by rw [hidle]; simp [Act.takes]) hserves
  rw [hidle] at hafter
  refine ⟨⟨x, hrun, hafter⟩, ?_, ?_⟩
  · intro u
    have hu := h.each u
    show ofThread u (g.called ++ _) = _ ++ (v.request (Function.update s.pc t p u)).toList
    rw [ofThread_append, hu]
    by_cases hut : u = t
    · rw [hut, ofThread_self, Function.update_self, ha.call _ hidle]
      simp [Log.update]
    · rw [ofThread_of_ne (Ne.symm hut), Function.update_of_ne hut, List.append_nil]
      rfl
  · intro u r hr
    change v.answer (Function.update s.pc t p u) = some r at hr
    by_cases hut : u = t
    · rw [hut, Function.update_self, ha.called _ hentry hp] at hr
      cases hr
    · rw [Function.update_of_ne hut] at hr
      exact h.answered u r hr

omit [Fintype T] [DecidableEq κ] in
/-- A step inside a call that does not serve it. -/
theorem Atomic.linearized_wait (ha : Atomic P held A m v allowed inside) (hown : Owned held s)
    (hall : ∀ u, allowed (s.pc u)) (h : Linearized A m v inside x₀ s g)
    (hlocal : P.LocalStep (s.pc t) s.shared k x')
    (hfree : ∀ m, (P.act (s.pc t)).takes = some m → s.owner m = none)
    (hbusy : P.act (s.pc t) ≠ .idle) (hserves : v.serves (s.pc t) = none) :
    Linearized A m v inside x₀
      ⟨x', ownerAfter (P.act (s.pc t)) t s.owner, Function.update s.pc t k⟩ g := by
  obtain ⟨x, hrun, hbetween⟩ := h.serial
  obtain ⟨hrequest, hanswer⟩ := ha.waits _ _ _ _ (hall t) hlocal hbusy hserves
  refine ⟨⟨x, hrun, ha.between hown hbetween (hall t) hlocal hfree hserves⟩, ?_, ?_⟩
  · intro u
    rw [h.each u]
    show _ = _ ++ (v.request (Function.update s.pc t k u)).toList
    by_cases hut : u = t
    · rw [hut, Function.update_self, hrequest]
    · rw [Function.update_of_ne hut]
  · intro u r hr
    change v.answer (Function.update s.pc t k u) = some r at hr
    by_cases hut : u = t
    · rw [hut, Function.update_self, hanswer] at hr
      cases hr
    · rw [Function.update_of_ne hut] at hr
      exact h.answered u r hr

omit [Fintype T] [DecidableEq κ] in
/-- The step that serves a call. -/
theorem Atomic.linearized_serve (ha : Atomic P held A m v allowed inside)
    (hd : LockDiscipline P held) (hown : Owned held s) (hall : ∀ u, allowed (s.pc u))
    (h : Linearized A m v inside x₀ s g) (hlocal : P.LocalStep (s.pc t) s.shared k x')
    (hserves : v.serves (s.pc t) = some c) :
    Linearized A m v inside x₀
      ⟨x', ownerAfter (P.act (s.pc t)) t s.owner, Function.update s.pc t k⟩
      { g with served := g.served ++ [(t, c)] } := by
  obtain ⟨x, hrun, hbetween⟩ := h.serial
  obtain ⟨hrequest, hnone, hanswer⟩ := ha.answers _ _ _ _ c (hall t) hlocal hserves
  obtain ⟨hstep, hafter⟩ := ha.between_serve hd hown hbetween (hall t) hlocal hserves
  have hself : ofThread t [(t, c)] = [c] := ofThread_self t [c]
  have hother : ∀ u, u ≠ t → ofThread u [(t, c)] = [] :=
    fun u hu => ofThread_of_ne (Ne.symm hu) [c]
  constructor
  case serial =>
    refine ⟨x', ?_, hafter⟩
    rw [List.map_append]
    show A.run x₀ (g.served.map Prod.snd ++ [c]) = some x'
    rw [Machine.run_concat, hrun]
    exact hstep
  case each =>
    intro u
    rw [h.each u]
    show _ = (ofThread u (g.served ++ [(t, c)])).map Prod.fst ++
      (v.request (Function.update s.pc t k u)).toList
    rw [ofThread_append]
    by_cases hut : u = t
    · rw [hut, hself, Function.update_self, hrequest, hnone]
      simp
    · rw [hother u hut, Function.update_of_ne hut, List.append_nil]
  case answered =>
    intro u r hr
    change v.answer (Function.update s.pc t k u) = some r at hr
    show ∃ d, (ofThread u (g.served ++ [(t, c)])).getLast? = some (d, r)
    rw [ofThread_append]
    by_cases hut : u = t
    · rw [hut, Function.update_self] at hr
      rw [hut, hself, hanswer r hr]
      exact ⟨c.1, List.getLast?_concat⟩
    · rw [Function.update_of_ne hut] at hr
      rw [hother u hut, List.append_nil]
      exact h.answered u r hr

/-- A step of any thread. -/
theorem Atomic.linearized_step [IsEmpty κ] (ha : Atomic P held A m v allowed inside)
    (hd : LockDiscipline P held) (hown : Owned held s) (hall : ∀ u, allowed (s.pc u))
    (h : Linearized A m v inside x₀ s g) (hguard : ∀ t p, e = .call t p → allowed p)
    (hstep : step P s e = some s') :
    (∀ u, allowed (s'.pc u)) ∧ Linearized A m v inside x₀ s' (Log.update v s e s' g) := by
  cases e with
  | call t p =>
      have hp := hguard t p rfl
      have hlog := ha.linearized_call hown hall h hstep hp
      obtain rfl := step_call hstep
      exact ⟨allowed_update hall hp, hlog⟩
  | run t =>
      have hbusy : P.act (s.pc t) ≠ .idle := by
        intro hidle
        simp [step, hidle] at hstep
      cases step_cases hstep with
      | @own k x' hlocal hfree _ =>
          refine ⟨allowed_update hall (ha.stays _ _ _ _ (hall t) hlocal hbusy), ?_⟩
          cases hserves : v.serves (s.pc t) with
          | none =>
              rw [Log.update_none hserves]
              exact ha.linearized_wait hown hall h hlocal hfree hbusy hserves
          | some c =>
              rw [Log.update_some hserves]
              exact ha.linearized_serve hd hown hall h hlocal hserves
      | @signal c => exact isEmptyElim c
  | signal t woken =>
      simp only [step] at hstep
      split at hstep
      · rename_i c _ _
        exact isEmptyElim c
      · cases hstep
  | wake t =>
      simp only [step] at hstep
      split at hstep
      · rename_i c _ _
        exact isEmptyElim c
      · cases hstep

/-- The calls made and served so far, in the runs of the program. -/
abbrev Program.logged (P : Program μ κ π σ) (T : Type*) [Fintype T] [DecidableEq T]
    (v : View π C R) (start : σ → Prop) : Machine (State T μ π σ × Log T C R) (Event T π) :=
  (P.machine T start).ghost ⟨[], []⟩ (Log.update v)

omit [DecidableEq T] [DecidableEq μ] [DecidableEq κ] [Fintype T] in
theorem Log.served_update (v : View π C R) (s s' : State T μ π σ) (e : Event T π)
    (g : Log T C R) : g.served <+: (Log.update v s e s' g).served := by
  cases e with
  | run t => exact List.prefix_append ..
  | call | signal | wake => exact List.prefix_rfl

/-- What has been served stays: a call that is made later is served later. -/
theorem Program.served_grows {q q' : State T μ π σ × Log T C R} {es : List (Event T π)}
    (h : (P.logged T v start).run q es = some q') : q.2.served <+: q'.2.served := by
  induction es generalizing q with
  | nil =>
      cases h
      exact List.prefix_rfl
  | cons e es ih =>
      obtain ⟨q₁, hstep, hrun⟩ := Option.bind_eq_some_iff.mp h
      have hg := (Machine.ghost_step_eq_some.mp hstep).2
      have hone : q.2.served <+: q₁.2.served := by
        rw [hg]
        exact Log.served_update ..
      exact hone.trans (ih hrun)

/-- **The atomicity rule**: in every run the calls have been served one after
the other, as by the sequential machine. -/
theorem Atomic.linearized [IsEmpty κ] (ha : Atomic P held A m v allowed inside)
    (hd : LockDiscipline P held) {q : State T μ π σ × Log T C R}
    (h : (P.logged T v start).ReachableBy (CallsAllowed allowed) q) :
    (∀ t, allowed (q.1.pc t)) ∧ ∃ x₀, start x₀ ∧ Linearized A m v inside x₀ q.1 q.2 := by
  induction h with
  | start hstart =>
      obtain ⟨⟨hshared, howner, hpc⟩, hlog⟩ := hstart
      obtain ⟨hallowed, hrequest, hanswer⟩ := ha.init
      refine ⟨fun t => by rw [hpc t]; exact hallowed, _, hshared, ⟨_, ?_, fun _ => rfl, ?_⟩, ?_, ?_⟩
      · rw [hlog]
        rfl
      · intro t ht
        rw [howner] at ht
        cases ht
      · intro t
        rw [hlog, hpc t, hrequest]
        rfl
      · intro t r hr
        rw [hpc t, hanswer] at hr
        cases hr
  | @step q q' e hq hguard hstep ih =>
      obtain ⟨hall, x₀, hx₀, hlin⟩ := ih
      obtain ⟨hs, hg⟩ := Machine.ghost_step_eq_some.mp hstep
      have hown : Owned held q.1 := hd.owned (Machine.ghost_fst hq)
      obtain ⟨hall', hlin'⟩ := ha.linearized_step hd hown hall hlin hguard hs
      rw [hg]
      exact ⟨hall', x₀, hx₀, hlin'⟩

end Rule

end Threads

end MBroker
