import MBroker.Broker.Creation

/-!
# The handlers and the open file table

`register_publisher` closes what it opens, on each of its paths. The
handle of a box that `create_box` has created is closed by nobody, and
its entry is TAKEN for good.

One handler by itself, from any state of the file system; then any number
of workers, where an entry that is TAKEN is one that a worker still has to
close.
-/

namespace MBroker

open Threads Tfs

variable {s t u : Tfs} {box : BoxName} {m : CString} {mode h n : Nat} {r fhandle : Int}
  {reply : Reply}

/-! ## Opens that succeed -/

/-- An open with `TFS_O_CREAT` finds or makes the file and has a handle for it. -/
def CanOpen (s : Tfs) (m : CString) : Prop :=
  s.firstFreeHandle.isSome ∧ ((s.resolve m).isSome ∨
    validPathname m ∧ s.firstFreeInode.isSome ∧ (s.slotFor m.chars.tail).isSome)

instance (s : Tfs) (m : CString) : Decidable (CanOpen s m) :=
  inferInstanceAs (Decidable (_ ∧ _))

theorem OpenResult.ne_neg_one_iff (ho : OpenResult s m mode r t) (hc : mode &&& tfsOCreat ≠ 0) :
    r ≠ -1 ↔ CanOpen s m := by
  constructor
  · intro hr
    cases ho with
    | invalid | absent | noInode | noEntry | existingFull | createdFull => exact absurd rfl hr
    | existing hv hf hh =>
        refine ⟨by rw [hh]; rfl, .inl ?_⟩
        rw [resolve_eq_some.mpr ⟨hv, hf⟩]
        rfl
    | created hv _ _ hi _ _ hk hh =>
        exact ⟨by rw [hh]; rfl, .inr ⟨hv, by rw [hi]; rfl, by rw [hk]; rfl⟩⟩
  · rintro ⟨hh, hor⟩
    refine ho.ne_neg_one hh ?_
    rcases hor with hres | ⟨hv, hi, hk⟩
    · exact .inl hres
    · exact .inr ⟨hv, hc, hi, hk⟩

theorem OpenResult.open_iff (ho : OpenResult s m mode r t) (n : Nat) :
    t.Open n ↔ r = n ∨ s.Open n := by
  rcases ho.handles with ⟨hr, hopen⟩ | ⟨h, hr, -, hopen⟩
  · rw [hopen n]
    exact ⟨.inr, fun hor => hor.resolve_left (by omega)⟩
  · rw [hopen n, hr]
    exact or_congr_left ⟨fun heq => by rw [heq], fun heq => (Int.ofNat_inj.mp heq).symm⟩

theorem OpenResult.fresh (ho : OpenResult s m mode r t) (hr : r = n) : ¬ s.Open n := by
  rcases ho.handles with ⟨hneg, -⟩ | ⟨h, heq, hclosed, -⟩
  · omega
  · obtain rfl : h = n := Int.ofNat_inj.mp (heq.symm.trans hr)
    exact hclosed

/-! ## One handler -/

/-- The same entries of the open file table are TAKEN. -/
def SameOpen (s t : Tfs) : Prop := ∀ n, t.Open n ↔ s.Open n

theorem SameOpen.symm (hst : SameOpen s t) : SameOpen t s := fun n => (hst n).symm

theorem SameOpen.trans (hst : SameOpen s t) (htu : SameOpen t u) : SameOpen s u :=
  fun n => (htu n).trans (hst n)

/-- Closing what was opened. -/
theorem OpenResult.sameOpen_close (ho : OpenResult s m mode r t) (hinv : Inv t) {r' : Int}
    (hc : tfsClose r t = .ok (r', u)) : SameOpen s u := by
  intro n
  rw [hinv.close_handles hc n, ho.open_iff n]
  constructor
  · rintro ⟨heq | hopen, hne⟩
    · exact absurd heq hne
    · exact hopen
  · intro hopen
    exact ⟨.inr hopen, fun heq => ho.fresh heq hopen⟩

/-- Closing in the other order: the last handle after the first. -/
theorem OpenResult.sameOpen_close₂ {m' : CString} {mode' : Nat} {r' c c' : Int} {v w : Tfs}
    (ho : OpenResult s m mode r t) (ho' : OpenResult t m' mode' r' u) (hinv : Inv u)
    (hinv' : Inv v) (hc : tfsClose r u = .ok (c, v)) (hc' : tfsClose r' v = .ok (c', w)) :
    SameOpen s w := by
  intro n
  rw [hinv'.close_handles hc' n, hinv.close_handles hc n, ho'.open_iff n, ho.open_iff n]
  constructor
  · rintro ⟨⟨heq' | heq | hopen, hne⟩, hne'⟩
    · exact absurd heq' hne'
    · exact absurd heq hne
    · exact hopen
  · intro hopen
    refine ⟨⟨.inr (.inr hopen), fun heq => ho.fresh heq hopen⟩, fun heq => ?_⟩
    exact ho'.fresh heq ((ho.open_iff n).mpr (.inr hopen))

theorem Inv.sameOpen_unlink (hinv : Inv s) (hu : tfsUnlink m s = .ok (r, t)) : SameOpen s t :=
  fun n => hinv.unlink_handles hu n

/-- `register_publisher` closes what it opens. -/
theorem Inv.registerPublisher_sameOpen (hinv : Inv s) (hreg : registerPublisher box s = .ok t) :
    SameOpen s t := by
  cases registerPublisher_cases hreg with
  | rejected hbox hmeta _ hclose hcloseMeta hunlink =>
      have hinv₁ := hinv.of_call (tfsCall_open.mpr ⟨hbox, rfl⟩)
      have hinv₂ := hinv₁.of_call (tfsCall_open.mpr ⟨hmeta, rfl⟩)
      have hinv₃ := hinv₂.of_call (tfsCall_close.mpr ⟨hclose, rfl⟩)
      have hinv₄ := hinv₃.of_call (tfsCall_close.mpr ⟨hcloseMeta, rfl⟩)
      have ho := hinv.tfsOpen_ok hbox
      have hsame := ho.sameOpen_close₂ (hinv₁.tfsOpen_ok hmeta) hinv₂ hinv₃ hclose hcloseMeta
      exact hsame.trans (hinv₄.sameOpen_unlink hunlink)
  | @accepted fd _ _ s₁ s₂ _ s₄ s₅ hbox hmeta _ hcreate _ hcloseMeta hclose hunlink =>
      have hinv₁ := hinv.of_call (tfsCall_open.mpr ⟨hbox, rfl⟩)
      have hinv₂ := hinv₁.of_call (tfsCall_open.mpr ⟨hmeta, rfl⟩)
      have hinv₃ := hinv₂.of_call (tfsCall_open.mpr ⟨hcreate, rfl⟩)
      have hinv₄ := hinv₃.of_call (tfsCall_close.mpr ⟨hcloseMeta, rfl⟩)
      have hinv₅ := hinv₄.of_call (tfsCall_close.mpr ⟨hclose, rfl⟩)
      have ho := hinv.tfsOpen_ok hbox
      -- the first open of the meta-file has failed and left the table alone
      have htest : SameOpen s₁ s₂ := by
        intro n
        rw [(hinv₁.tfsOpen_ok hmeta).open_iff n]
        exact ⟨fun hor => hor.resolve_left (by omega), .inr⟩
      have hmetaFile : SameOpen s₁ s₄ :=
        htest.trans ((hinv₂.tfsOpen_ok hcreate).sameOpen_close hinv₃ hcloseMeta)
      have hboxFile : SameOpen s s₅ := by
        intro n
        rw [hinv₄.close_handles hclose n, hmetaFile n, ho.open_iff n]
        constructor
        · rintro ⟨heq | hopen, hne⟩
          · exact absurd heq hne
          · exact hopen
        · intro hopen
          exact ⟨.inr hopen, fun heq => ho.fresh heq hopen⟩
      exact hboxFile.trans (hinv₅.sameOpen_unlink hunlink)

/-- The request makes a box, and there is a handle for it. -/
def CreatesBox (s : Tfs) : Request → Prop
  | .createBox box => s.resolve box.name = none ∧ CanOpen s box.name
  | _ => False

/-- `create_box` leaves a handle open exactly when it gets one for a new box. -/
theorem Inv.createBox_sameOpen_iff (hinv : Inv s) (hc : createBox box s = .ok (reply, t)) :
    SameOpen s t ↔ ¬ CreatesBox s (.createBox box) := by
  cases hinv.createBox_cases hc with
  | @alreadyExists i h hi hh =>
      have hlt := (find_range_eq_some.mp hh).1
      refine iff_of_true ?_ ?_
      · intro n
        rw [closeHandle_open, openHandle_open (by omega)]
        constructor
        · exact fun hand => hand.2.resolve_left hand.1
        · intro hopen
          refine ⟨?_, .inr hopen⟩
          rintro rfl
          have hfree := (find_range_eq_some.mp hh).2.1
          rw [hopen.2] at hfree
          cases hfree
      · rintro ⟨hnew, -⟩
        rw [hi] at hnew
        cases hnew
  | truncated hi =>
      refine iff_of_true (fun n => Iff.rfl) ?_
      rintro ⟨hnew, -⟩
      rw [hi] at hnew
      cases hnew
  | created hnew hr ho =>
      -- nothing closes the handle of the second open
      refine iff_of_false ?_ (not_not_intro ⟨hnew, (ho.ne_neg_one_iff (by decide)).mp hr⟩)
      intro hsame
      rcases ho.handles with ⟨hneg, -⟩ | ⟨h, -, hclosed, hopen⟩
      · exact hr hneg
      · exact hclosed ((hsame h).mp ((hopen h).mpr (.inl rfl)))
  | failed hnew ho =>
      refine iff_of_true ?_ ?_
      · intro n
        rw [ho.open_iff n]
        exact ⟨fun hor => hor.resolve_left (by omega), .inr⟩
      · rintro ⟨-, hcan⟩
        exact (ho.ne_neg_one_iff (by decide)).mpr hcan rfl

/-- **A handler that runs from start to end** leaves the open file table as
it was, unless it gets a handle for a new box. -/
theorem Inv.parseRequest_sameOpen_iff {request : Request} {reply : Option Reply} (hinv : Inv s)
    (h : parseRequest request s = .ok (reply, t)) : SameOpen s t ↔ ¬ CreatesBox s request := by
  cases request with
  | registerPublisher box =>
      obtain ⟨u, hreg, h⟩ := bind_eq_ok.mp h
      obtain ⟨-, rfl⟩ := ok_pair_inj h
      exact iff_of_true (hinv.registerPublisher_sameOpen hreg) id
  | createBox box =>
      obtain ⟨⟨reply', u⟩, hc, h⟩ := bind_eq_ok.mp h
      obtain ⟨-, rfl⟩ := ok_pair_inj h
      exact hinv.createBox_sameOpen_iff hc
  | removeBox box =>
      obtain ⟨u, hrem, h⟩ := bind_eq_ok.mp h
      obtain ⟨-, rfl⟩ := ok_pair_inj h
      obtain ⟨⟨_, v⟩, hunlink, hrem⟩ := bind_eq_ok.mp hrem
      obtain ⟨_, _, hrem⟩ := bind_eq_ok.mp hrem
      have hv : v = u := Except.ok.inj hrem
      subst hv
      exact iff_of_true (hinv.sameOpen_unlink hunlink) id
  | registerSubscriber | listBoxes =>
      obtain ⟨-, rfl⟩ := ok_pair_inj h
      exact iff_of_true (fun n => Iff.rfl) id

/-! ## Workers -/

section Moves

variable {p k : BrokerPoint} {x x' : Tfs} {uses uses' : Nat → Nat}

/-- A handle that is opened is one that the worker has to close, but for the
handle of a new box. -/
theorem TfsMove.handles_open (hmove : TfsMove p (.open m mode) r k)
    (hcreate : ∀ box, p = .createBox box .createFile → r = -1) (n : Nat) :
    p.handles.count (n : Int) + (if r = n then 1 else 0) ≤ k.handles.count (n : Int) := by
  cases hmove with
  | createFile hfd => exact absurd (hcreate _ rfl) hfd
  | accept | boxAbsent =>
      rw [if_neg (by omega)]
      exact Nat.le_refl _
  | _ =>
      simp only [BrokerPoint.handles, RegisterPoint.handles, CreatePoint.handles, List.count_cons,
        List.count_nil, beq_iff_eq]
      omega

/-- A move of a worker that opens no new box keeps every entry that is TAKEN in use. -/
theorem Move.uses_of_open (hmove : Move p x k x') (hinv : Inv x)
    (hcov : ∀ n, x.Open n → 0 < uses n)
    (hcreate : ∀ box, p = .createBox box .createFile → ¬ CanOpen x box.name)
    (huses : ∀ n : Nat, uses' n + p.handles.count (n : Int) =
      uses n + k.handles.count (n : Int)) (n : Nat) (hopen : x'.Open n) : 0 < uses' n := by
  have hn := huses n
  cases hmove with
  | quiet hmove =>
      rw [hmove.handles] at hn
      have hpos := hcov n hopen
      omega
  | tfs hmove hcall =>
      rename_i call _ _
      cases call with
      | «open» m mode =>
          have ho := hinv.tfsOpen_ok (tfsCall_open.mp hcall).1
          have hle := hmove.handles_open (fun box hp => ?_) n
          · rcases (ho.open_iff n).mp hopen with hr | hs
            · rw [if_pos hr] at hle
              by_cases hs : x.Open n
              · exact absurd hs (ho.fresh hr)
              · omega
            · have hpos := hcov n hs
              omega
          · by_contra hr
            subst hp
            cases hmove with
            | createFile => exact hcreate box rfl ((ho.ne_neg_one_iff (by decide)).mp hr)
            | createFailed => exact hr rfl
      | close fhandle =>
          have heq := hmove.close_handles n
          obtain ⟨hs, hne⟩ := (hinv.close_handles (tfsCall_close.mp hcall).1 n).mp hopen
          rw [if_neg hne] at heq
          have hpos := hcov n hs
          omega
      | unlink m =>
          rw [hmove.unlink_handles] at hn
          have hpos := hcov n ((hinv.unlink_handles (tfsCall_unlink.mp hcall).1 n).mp hopen)
          omega
      | write | read => exact hmove.noData.elim

end Moves

section Runs

variable {T : Type} [Fintype T] [DecidableEq T] {s : BrokerState T}

/-- The condition on the step that the worker takes next: an open of
`create_box` with `TFS_O_CREAT` fails. -/
def CreationMeets (s : BrokerState T) (e : Event T BrokerPoint) : Prop :=
  ∀ box, s.pc e.thread = .createBox box .createFile → ¬ CanOpen s.shared box.name

theorem broker_uses_of_open (hr : (brokerMachine T).ReachableBy CreationMeets s) (n : Nat)
    (hopen : s.shared.Open n) : 0 < handleUses s n := by
  induction hr generalizing n with
  | start hstart =>
      obtain ⟨⟨m, hinit⟩, -, -⟩ := hstart
      have hs : TfsStart tfsDefaultParams m _ := hinit
      exact absurd hopen (hs.emptyRoot.1.none_open n)
  | @step s s' e hr hm hstep ih =>
      obtain ⟨k, x', hmove, rfl, hpc⟩ := move_of_step hstep
      refine hmove.uses_of_open (broker_healthy hr).inv ih hm ?_ n hopen
      intro n
      unfold handleUses State.tally
      rw [hpc]
      exact tally_update (fun p => p.handles.count (n : Int)) s.pc e.thread k

end Runs

/-- The box that `create_box` is about to open with `TFS_O_CREAT`. -/
def BrokerPoint.creating : BrokerPoint → Option BoxName
  | .createBox box .createFile => some box
  | _ => none

theorem BrokerPoint.creating_eq_some {p : BrokerPoint} :
    p.creating = some box ↔ p = .createBox box .createFile := by
  constructor
  · intro h
    unfold BrokerPoint.creating at h
    split at h
    · cases h
      rfl
    · cases h
  · rintro rfl
    rfl

instance {T : Type} (s : BrokerState T) (e : Event T BrokerPoint) : Decidable (CreationMeets s e) :=
  decidable_of_iff (∀ box ∈ (s.pc e.thread).creating, ¬ CanOpen s.shared box.name)
    (forall_congr' fun _ => imp_congr_left BrokerPoint.creating_eq_some)

/-- **The broker's open file table.** A handler that runs from start to end
leaves the entries that are TAKEN as they were exactly when it gets no handle
for a new box, from every state of the file system. In every run of the workers
in which no creation succeeds, no entry is TAKEN whenever no handler is running. -/
theorem broker_openFiles {T : Type} [Fintype T] [DecidableEq T] :
    (∀ (s t : Tfs) (request : Request) (reply : Option Reply), tfsMachine.Reachable s →
      parseRequest request s = .ok (reply, t) → (SameOpen s t ↔ ¬ CreatesBox s request)) ∧
    ∀ b : BrokerState T, (brokerMachine T).ReachableBy CreationMeets b →
      (∀ w, ∃ reply, b.pc w = .idle reply) → ∀ n, ¬ b.shared.Open n := by
  constructor
  · intro s t request reply hr h
    exact (reachable_inv hr).parseRequest_sameOpen_iff h
  · intro b hb hidle n hopen
    have hpos := broker_uses_of_open hb n hopen
    have hnone : handleUses b n = 0 := by
      apply Finset.sum_eq_zero
      intro w _
      obtain ⟨reply, hpc⟩ := hidle w
      rw [hpc]
      rfl
    omega

theorem publisherRun_openFiles_result :
    (brokerTfsRun [.open pathA tfsOCreat, .close 0]).map (fun s =>
      decide ((s.resolve boxA.name).isSome ∧
        ((registerPublisher boxA s).map fun _ => ()) = .ok ())) =
    some true := by
  decide +kernel

/-- A publisher asks for a box that nobody has made. -/
def boxlessRun : List (Event (Fin 1) BrokerPoint) := handle 0 (.registerPublisher boxA) 7

theorem boxlessRun_result :
    (brokerRunBy CreationMeets boxlessRun).map (fun b => b.pc 0) = some (.idle none) := by
  decide +kernel

/-- A publisher of `/a` comes and goes. Another one is turned away. -/
theorem publisherRun_sameOpen :
    (∃ s t, tfsMachine.Reachable s ∧ (s.resolve boxA.name).isSome ∧
      parseRequest (.registerPublisher boxA) s = .ok (none, t) ∧ SameOpen s t) ∧
    ∃ b, brokerRunBy CreationMeets boxlessRun = some b ∧ ∀ n, ¬ b.shared.Open n := by
  obtain ⟨hhandler, hrun⟩ := broker_openFiles (T := Fin 1)
  constructor
  · obtain ⟨s, hrun, hobs⟩ := Option.map_eq_some_iff.mp publisherRun_openFiles_result
    obtain ⟨hres, hreg⟩ := of_decide_eq_true hobs
    have hreach := (brokerTfs_sized (brokerTfsRun_reachable hrun)).1
    cases hc : registerPublisher boxA s with
    | error e =>
        rw [hc] at hreg
        cases hreg
    | ok t =>
        have hparse : parseRequest (.registerPublisher boxA) s = .ok (none, t) := by
          rw [parseRequest, hc]
          rfl
        exact ⟨s, t, hreach, hres, hparse, (hhandler s t _ _ hreach hparse).mpr id⟩
  · obtain ⟨b, hb, hpc⟩ := Option.map_eq_some_iff.mp boxlessRun_result
    refine ⟨b, hb, hrun b (brokerRunBy_reachable hb) ?_⟩
    intro w
    exact ⟨none, by rw [Subsingleton.elim w 0, hpc]⟩

theorem createdRun_result :
    (brokerTfsRun []).map (fun s =>
      (decide (s.firstFreeHandle = some 0),
        (parseRequest (.createBox boxA) s).map fun p => (p.1, decide (p.2.Open 0)))) =
    some (true, .ok (some (boxReply ""), true)) := by
  decide +kernel

/-- A box is made, and its handle stays open. -/
theorem createdRun_not_sameOpen :
    ∃ s t, brokerTfs.Reachable s ∧ parseRequest (.createBox boxA) s = .ok (some (boxReply ""), t) ∧
      t.Open 0 ∧ ¬ SameOpen s t := by
  obtain ⟨s, hrun, hobs⟩ := Option.map_eq_some_iff.mp createdRun_result
  obtain ⟨hfree, hcreate⟩ := Prod.mk.inj hobs
  have hfree := of_decide_eq_true hfree
  cases hc : parseRequest (.createBox boxA) s with
  | error e =>
      rw [hc] at hcreate
      cases hcreate
  | ok p =>
      obtain ⟨reply, t⟩ := p
      rw [hc] at hcreate
      obtain ⟨hreply, hobs⟩ := Prod.mk.inj (Except.ok.inj hcreate)
      have hopen : t.Open 0 := of_decide_eq_true hobs
      have hreply : reply = some (boxReply "") := hreply
      subst hreply
      refine ⟨s, t, brokerTfsRun_reachable hrun, hc, hopen, ?_⟩
      intro hsame
      have hclosed := (find_range_eq_some.mp hfree).2.1
      rw [((hsame 0).mp hopen).2] at hclosed
      cases hclosed

end MBroker
