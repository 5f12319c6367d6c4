import Mathlib.Data.List.Nodup
import MBroker.Broker.OpenFiles

/-!
# How many creations a broker can grant

`create_box` answers with success when its second `tfs_open` returns a
handle, and it keeps that handle. So the entries of the open file table that
are TAKEN are those that a worker has still to close and one for each creation
that was ever granted; once every entry belongs to a creation nothing can be
opened any more. A later `create_box` may still add its box to the directory,
since `tfs_open` makes the file before it looks for an entry, but its answer is
an error and nobody can open the box.
-/

namespace MBroker

open Threads Tfs

/-! ## The entries of the table -/

section Moves

variable {p k : BrokerPoint} {x x' : Tfs} {uses uses' : Nat → Nat} {box : BoxName}

/-- The box whose creation the step grants: the second open of `create_box` has
returned a handle, so that the client's answer will be success. -/
def grants : BrokerPoint → BrokerPoint → Option BoxName
  | .createBox box .createFile, .createBox _ (.unlockOps _) => some box
  | _, _ => none

/-- Every entry that is TAKEN has one use, the others none. -/
def Accounts (x : Tfs) (uses : Nat → Nat) : Prop :=
  ∀ n, uses n = if x.Open n then 1 else 0

theorem Accounts.handlesUsed (h : Accounts x uses) : HandlesUsed x uses where
  opened := by
    intro n hpos
    by_contra hclosed
    rw [h n, if_neg hclosed] at hpos
    cases hpos
  once := by
    intro n
    rw [h n]
    split <;> simp

theorem Accounts.of_used (h : HandlesUsed x uses) (hopen : ∀ n, x.Open n → 0 < uses n) :
    Accounts x uses := by
  intro n
  have honce := h.once n
  split
  · rename_i hn
    have hpos := hopen n hn
    omega
  · rename_i hn
    by_contra hne
    exact hn (h.opened n (by omega))

/-- A move that grants no creation. -/
theorem Accounts.move (h : Accounts x uses) (hmove : Move p x k x') (hinv : Inv x)
    (hgrants : grants p k = none)
    (huses : ∀ n : Nat, uses' n + p.handles.count (n : Int) =
      uses n + k.handles.count (n : Int)) : Accounts x' uses' := by
  apply Accounts.of_used (h.handlesUsed.move hinv hmove huses)
  apply hmove.uses_of_open hinv _ _ huses
  · intro n hn
    rw [h n, if_pos hn]
    exact Nat.one_pos
  · -- the second open of `create_box` has failed
    rintro box rfl hcan
    cases hmove with
    | quiet hmove => cases hmove
    | tfs hmove hcall =>
        cases hmove with
        | createFile => cases hgrants
        | createFailed =>
            have ho := hinv.tfsOpen_ok (tfsCall_open.mp hcall).1
            exact (ho.ne_neg_one_iff (by decide)).mpr hcan rfl

/-- The handle of a creation that is granted is nobody's. -/
theorem Accounts.granted (h : Accounts x uses) (hmove : Move p x k x') (hinv : Inv x)
    (hgrants : grants p k = some box) :
    k.handles = p.handles ∧ ∃ h, Accounts x' fun n => uses n + if n = h then 1 else 0 := by
  cases hmove with
  | quiet hmove => cases hmove <;> cases hgrants
  | tfs hmove hcall =>
      cases hmove with
      | createFile hfd =>
          have ho := hinv.tfsOpen_ok (tfsCall_open.mp hcall).1
          rcases ho.handles with ⟨hneg, -⟩ | ⟨h₀, hr, hclosed, hopen⟩
          · exact absurd hneg hfd
          · refine ⟨rfl, h₀, ?_⟩
            intro n
            show uses n + _ = _
            rw [h n]
            by_cases hn : n = h₀
            · rw [hn, if_neg hclosed, if_pos rfl, if_pos ((hopen h₀).mpr (.inl rfl))]
            · simp [hn, hopen n]
      | _ => cases hgrants

end Moves

/-! ## Runs -/

section Runs

variable {T : Type*} [Fintype T] [DecidableEq T] {s : BrokerState T} {granted : List BoxName}

def grantedAfter (s : BrokerState T) (e : Event T BrokerPoint) (s' : BrokerState T)
    (granted : List BoxName) : List BoxName :=
  granted ++ (grants (s.pc e.thread) (s'.pc e.thread)).toList

/-- The runs of the workers, with the boxes whose creation has been granted. -/
def grantingMachine (T : Type*) [Fintype T] [DecidableEq T] :
    Machine (BrokerState T × List BoxName) (Event T BrokerPoint) :=
  (brokerMachine T).ghost [] grantedAfter

/-- The entries that are TAKEN are those that the workers have still to close
and `leaked`, one for each creation. -/
def Leaks (s : BrokerState T) (granted : List BoxName) (leaked : List Nat) : Prop :=
  leaked.length = granted.length ∧ Accounts s.shared fun n => handleUses s n + leaked.count n

theorem Leaks.start (h : (brokerMachine T).start s) : Leaks s [] [] := by
  have hused := (Healthy.start h).handles
  refine ⟨rfl, Accounts.of_used ?_ ?_⟩
  · simpa using hused
  · obtain ⟨⟨m, hinit⟩, -, -⟩ := h
    have hs : TfsStart tfsDefaultParams m s.shared := hinit
    intro n hopen
    exact absurd hopen (hs.emptyRoot.1.none_open n)

omit [DecidableEq T] in
theorem handleUses_update [DecidableEq T] (s : BrokerState T) {s' : BrokerState T} {t : T}
    {k : BrokerPoint} (hpc : s'.pc = Function.update s.pc t k) (n : Nat) :
    handleUses s' n + (s.pc t).handles.count (n : Int) =
      handleUses s n + k.handles.count (n : Int) := by
  unfold handleUses State.tally
  rw [hpc]
  exact tally_update (fun p => p.handles.count (n : Int)) s.pc t k

theorem Leaks.step {s' : BrokerState T} {e : Event T BrokerPoint} {leaked : List Nat}
    (h : Leaks s granted leaked) (hs : Healthy s) (hstep : (brokerMachine T).step s e = some s') :
    ∃ leaked', Leaks s' (grantedAfter s e s' granted) leaked' := by
  obtain ⟨k, x', hmove, rfl, hpc⟩ := move_of_step hstep
  have huses := handleUses_update s hpc
  have hk : s'.pc e.thread = k := by
    rw [hpc]
    exact Function.update_self ..
  obtain ⟨hlen, haccounts⟩ := h
  unfold grantedAfter
  rw [hk]
  cases hgrants : grants (s.pc e.thread) k with
  | none =>
      refine ⟨leaked, by simpa using hlen, haccounts.move hmove hs.inv hgrants ?_⟩
      intro n
      have hn := huses n
      omega
  | some box =>
      obtain ⟨hhandles, h₀, hgranted⟩ := haccounts.granted hmove hs.inv hgrants
      refine ⟨leaked ++ [h₀], by simp [hlen], ?_⟩
      intro n
      have hn := huses n
      rw [hhandles] at hn
      rw [← hgranted n]
      show handleUses s' n + (leaked ++ [h₀]).count n =
        handleUses s n + leaked.count n + if n = h₀ then 1 else 0
      have hcount : [h₀].count n = if n = h₀ then 1 else 0 := by
        by_cases heq : n = h₀
        · simp [heq]
        · simp [heq, Ne.symm heq]
      rw [List.count_append, hcount]
      omega

theorem reachable_leaks {q : BrokerState T × List BoxName} (h : (grantingMachine T).Reachable q) :
    ∃ leaked, Leaks q.1 q.2 leaked := by
  induction h with
  | start hstart =>
      obtain ⟨hs, hgranted⟩ := hstart
      rw [hgranted]
      exact ⟨[], .start hs⟩
  | @step q q' e hq _ hstep ih =>
      obtain ⟨leaked, hleaks⟩ := ih
      obtain ⟨hs, hgranted⟩ := Machine.ghost_step_eq_some.mp hstep
      rw [hgranted]
      exact hleaks.step (broker_healthy (Machine.ghost_fst hq)) hs

/-! ## The capacity -/

/-- The entries of the open file table that are TAKEN. -/
def openEntries (x : Tfs) : Finset Nat := (Finset.range x.maxOpenFiles).filter x.Open

theorem mem_openEntries {x : Tfs} {n : Nat} : n ∈ openEntries x ↔ x.Open n := by
  unfold openEntries
  rw [Finset.mem_filter, Finset.mem_range]
  exact ⟨fun h => h.2, fun h => ⟨h.1, h⟩⟩

omit [DecidableEq T] in
/-- The table of a running broker. -/
theorem card_openEntries_le (h : Healthy s) :
    (openEntries s.shared).card ≤ tfsDefaultParams.maxOpenFilesCount := by
  calc (openEntries s.shared).card ≤ (Finset.range s.shared.maxOpenFiles).card :=
        Finset.card_filter_le ..
    _ = s.shared.maxOpenFiles := Finset.card_range _
    _ = tfsDefaultParams.maxOpenFilesCount :=
        congrArg TfsParams.maxOpenFilesCount h.sized.params_eq

omit [DecidableEq T] in
/-- The leaked entries are TAKEN, each of them for one creation. -/
theorem Leaks.card [DecidableEq T] {leaked : List Nat} (h : Leaks s granted leaked) :
    leaked.toFinset.card = granted.length ∧ leaked.toFinset ⊆ openEntries s.shared := by
  obtain ⟨hlen, haccounts⟩ := h
  have hused := haccounts.handlesUsed
  constructor
  · rw [← hlen]
    apply List.toFinset_card_of_nodup
    apply List.nodup_iff_count_le_one.mpr
    intro n
    have honce := hused.once n
    omega
  · intro n hn
    have hpos := List.count_pos_iff.mpr (List.mem_toFinset.mp hn)
    exact mem_openEntries.mpr (hused.opened n (by omega))

/-- With all entries leaked nothing can be opened. -/
theorem Leaks.open_fails {leaked : List Nat} (h : Leaks s granted leaked) (hs : Healthy s)
    (hfull : granted.length = tfsDefaultParams.maxOpenFilesCount) {m : CString} {mode : Nat} {r : Int}
    {x : Tfs} (hopen : tfsOpen m mode s.shared = .ok (r, x)) : r = -1 := by
  obtain ⟨hcard, hsub⟩ := h.card
  rcases (hs.inv.tfsOpen_ok hopen).handles with ⟨hr, -⟩ | ⟨n, -, hclosed, hafter⟩
  · exact hr
  · have hx := (hs.sized.updates hs.inv (hs.inv.tfsCall_updates (tfsCall_open.mpr ⟨hopen, rfl⟩)))
    have hlt : n < x.maxOpenFiles := ((hafter n).mpr (.inl rfl)).1
    have hmax : x.maxOpenFiles = s.shared.maxOpenFiles :=
      congrArg TfsParams.maxOpenFilesCount (hx.params_eq.trans hs.sized.params_eq.symm)
    have hparams : s.shared.maxOpenFiles = tfsDefaultParams.maxOpenFilesCount :=
      congrArg TfsParams.maxOpenFilesCount hs.sized.params_eq
    have hle := Finset.card_le_card hsub
    -- no entry is left
    have hall : openEntries s.shared = Finset.range s.shared.maxOpenFiles := by
      apply Finset.eq_of_subset_of_card_le (Finset.filter_subset ..)
      show (Finset.range s.shared.maxOpenFiles).card ≤ (openEntries s.shared).card
      rw [Finset.card_range, hparams]
      omega
    have hmem : n ∈ openEntries s.shared := by
      rw [hall, Finset.mem_range, ← hmax]
      exact hlt
    exact absurd (mem_openEntries.mp hmem) hclosed

omit [Fintype T] [DecidableEq T] in
theorem granted_length_le [Fintype T] [DecidableEq T] {q q' : BrokerState T × List BoxName}
    {es : List (Event T BrokerPoint)} (h : (grantingMachine T).run q es = some q') :
    q.2.length ≤ q'.2.length := by
  induction es generalizing q with
  | nil =>
      cases h
      exact le_rfl
  | cons e es ih =>
      obtain ⟨q₁, hstep, hrun⟩ := Option.bind_eq_some_iff.mp h
      have hgranted := (Machine.ghost_step_eq_some.mp hstep).2
      have hone : q.2.length ≤ q₁.2.length := by
        rw [hgranted, grantedAfter, List.length_append]
        exact Nat.le_add_right ..
      exact hone.trans (ih hrun)

/-- **A broker grants at most `max_open_files_count` creations in its life**, in
every run with any requests, removed boxes included. Between two requests
the entries that are TAKEN are as many as the creations that were granted, and
after the last one no `tfs_open` succeeds any more. -/
theorem broker_capacity {q : BrokerState T × List BoxName} (h : (grantingMachine T).Reachable q) :
    q.2.length ≤ tfsDefaultParams.maxOpenFilesCount ∧
    ((∀ t, ∃ reply, q.1.pc t = .idle reply) → (openEntries q.1.shared).card = q.2.length) ∧
    (q.2.length = tfsDefaultParams.maxOpenFilesCount → ∀ es q',
      (grantingMachine T).run q es = some q' →
        ∀ m mode r x, tfsOpen m mode q'.1.shared = .ok (r, x) → r = -1) := by
  have hbound : ∀ {q : BrokerState T × List BoxName}, (grantingMachine T).Reachable q →
      q.2.length ≤ tfsDefaultParams.maxOpenFilesCount := by
    intro q hq
    obtain ⟨leaked, hleaks⟩ := reachable_leaks hq
    obtain ⟨hcard, hsub⟩ := hleaks.card
    rw [← hcard]
    exact (Finset.card_le_card hsub).trans
      (card_openEntries_le (broker_healthy (Machine.ghost_fst hq)))
  refine ⟨hbound h, ?_, ?_⟩
  · intro hidle
    obtain ⟨leaked, hleaks⟩ := reachable_leaks h
    obtain ⟨hcard, hsub⟩ := hleaks.card
    rw [← hcard]
    congr 1
    refine Finset.Subset.antisymm ?_ hsub
    intro n hn
    have hcount : handleUses q.1 n + leaked.count n = _ := hleaks.2 n
    rw [if_pos (mem_openEntries.mp hn)] at hcount
    have hnone : handleUses q.1 n = 0 := by
      apply Finset.sum_eq_zero
      intro t _
      obtain ⟨reply, hpc⟩ := hidle t
      rw [hpc]
      rfl
    apply List.mem_toFinset.mpr
    apply List.count_pos_iff.mp
    omega
  · intro hfull es q' hrun m mode r x hopen
    have hq' := h.run (fun _ _ _ => trivial) hrun
    obtain ⟨leaked, hleaks⟩ := reachable_leaks hq'
    have hle := granted_length_le hrun
    have hmax := hbound hq'
    exact hleaks.open_fails (broker_healthy (Machine.ghost_fst hq')) (by omega) hopen

end Runs

/-- `/a` is created, removed and created again: two of the sixteen. -/
def remakeRun : List (Event Unit BrokerPoint) :=
  handle () (.createBox boxA) 4 ++ handle () (.removeBox boxA) 3 ++ handle () (.createBox boxA) 4

theorem remakeRun_result :
    ((brokerStart Unit).bind fun s => (grantingMachine Unit).run (s, []) remakeRun).map
      (fun q => (q.1.pc (), q.2.length)) = some (.idle (some (boxReply "")), 2) := by
  decide +kernel

theorem remakeRun_capacity : ∃ q, (grantingMachine Unit).Reachable q ∧
    q.1.pc () = .idle (some (boxReply "")) ∧ q.2.length = 2 ∧
    q.2.length ≤ tfsDefaultParams.maxOpenFilesCount ∧
    ((∀ t, ∃ reply, q.1.pc t = .idle reply) → (openEntries q.1.shared).card = q.2.length) ∧
    (q.2.length = tfsDefaultParams.maxOpenFilesCount → ∀ es q',
      (grantingMachine Unit).run q es = some q' →
        ∀ m mode r x, tfsOpen m mode q'.1.shared = .ok (r, x) → r = -1) := by
  obtain ⟨q, hrun, hobs⟩ := Option.map_eq_some_iff.mp remakeRun_result
  obtain ⟨s₀, hstart, hrun⟩ := Option.bind_eq_some_iff.mp hrun
  obtain ⟨hpc, hgranted⟩ := Prod.mk.inj hobs
  have hs₀ : (grantingMachine Unit).Reachable (s₀, []) := .start ⟨brokerStart_start hstart, rfl⟩
  have hreach := hs₀.run (fun _ _ _ => trivial) hrun
  exact ⟨q, hreach, hpc, hgranted, broker_capacity hreach⟩

end MBroker
