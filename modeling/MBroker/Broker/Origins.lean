import MBroker.Broker.Outcome
import MBroker.Broker.Publishers
import MBroker.Fs.Blank

/-!
# What is in the directory and in the boxes

The clients may send what they like, publishers included. A name that is
in the directory is still one that somebody has asked for with a
`create_box`, or it is the meta-file of a publisher that has yet to unlink
it. When the workers are done, no meta-file is left that is not a box. And
the boxes stay empty: no handler writes to them.
-/

namespace MBroker

open Threads Tfs

/-! ## The names that a step adds -/

section Moves

variable {p k : BrokerPoint} {x x' y : Tfs} {m : CString} {mode : Nat} {r fhandle : Int}
  {box : BoxName} {n : List UInt8}

theorem Ready.close_names (hx : Ready x) (hc : tfsClose fhandle x = .ok (r, y)) :
    n ∈ y.service.boxes ↔ n ∈ x.service.boxes := by
  rw [hx.close_boxes hc]

theorem Ready.open_names (hx : Ready x) (hlen : m.chars.tail.length < maxFileName)
    (ho : tfsOpen m mode x = .ok (r, y)) (hn : n ∈ y.service.boxes) :
    n ∈ x.service.boxes ∨ mode &&& tfsOCreat ≠ 0 ∧ validPathname m ∧ m.chars.tail = n := by
  rw [(hx.open_service hlen ho).2] at hn
  dsimp only at hn
  split at hn
  · rename_i hfinds
    rcases Finset.mem_insert.mp hn with rfl | hold
    · rcases hfinds.2 with hmem | hcreat
      · exact .inl hmem
      · exact .inr ⟨hcreat.1, hfinds.1, rfl⟩
    · exact .inl hold
  · exact .inl hn

theorem Ready.unlink_names (hx : Ready x) (hu : tfsUnlink m x = .ok (r, y))
    (hn : n ∈ y.service.boxes) : n ∈ x.service.boxes ∧ (r = 0 → m.chars.tail ≠ n) := by
  obtain ⟨hr, hservice⟩ := hx.unlink_service hu
  rw [hservice] at hn
  unfold BoxService.remove at hn
  dsimp only at hn
  split at hn
  · obtain ⟨hne, hmem⟩ := Finset.mem_erase.mp hn
    exact ⟨hmem, fun _ heq => hne heq.symm⟩
  · rename_i hhas
    exact ⟨hn, fun hzero => absurd (hr.mp hzero) hhas⟩

/-- A step adds the box that was asked for, or the meta-file that the worker has
to unlink from then on. -/
theorem Move.names (hmove : Move p x k x') (hx : Ready x) (hn : n ∈ x'.service.boxes) :
    n ∈ x.service.boxes ∨ (∃ request, brokerView.request p = some request ∧
      request.adds = some n) ∨ ∃ box, k.marked = some box ∧ box.metaFilename.chars.tail = n := by
  cases hmove with
  | quiet => exact .inl hn
  | tfs hmove hcall =>
      cases hmove with
      | @openBox box | @boxExists box | @boxAbsent box =>
          rcases hx.open_names box.tail_lt (tfsCall_open.mp hcall).1 hn with hold | hnew
          · exact .inl hold
          · exact absurd rfl hnew.1
      | @reject box | @accept box =>
          rcases hx.open_names box.metaFilename_tail_lt (tfsCall_open.mp hcall).1 hn with
            hold | hnew
          · exact .inl hold
          · exact absurd rfl hnew.1
      | @createMeta box =>
          rcases hx.open_names box.metaFilename_tail_lt (tfsCall_open.mp hcall).1 hn with
            hold | ⟨-, -, hname⟩
          · exact .inl hold
          · exact .inr (.inr ⟨box, rfl, hname⟩)
      | @createFile box | @createFailed box =>
          rcases hx.open_names box.tail_lt (tfsCall_open.mp hcall).1 hn with
            hold | ⟨-, hvalid, hname⟩
          · exact .inl hold
          · refine .inr (.inl ⟨.createBox box, rfl, ?_⟩)
            rw [Request.adds, if_pos hvalid, hname]
      | rejectCloseBox | rejectCloseMeta | closeMeta | closeBox | closeExisting | closeFailed =>
          exact .inl ((hx.close_names (tfsCall_close.mp hcall).1).mp hn)
      | rejectUnlinkMeta | unlinkMeta | unlinkBox =>
          exact .inl (hx.unlink_names (tfsCall_unlink.mp hcall).1 hn).1

/-- The worker goes on to unlink its meta-file until it has. -/
theorem Move.keeps_mark (hmove : Move p x k x') (hx : Ready x) (hp : p.marked = some box) :
    k.marked = some box ∨ box.metaFilename.chars.tail ∉ x'.service.boxes := by
  cases hmove with
  | quiet hmove =>
      cases hmove with
      | registered => exact .inl hp
      | _ => cases hp
  | tfs hmove hcall =>
      cases hmove with
      | closeMeta | closeBox => exact .inl hp
      | unlinkMeta =>
          cases hp
          exact .inr fun hn => (hx.unlink_names (tfsCall_unlink.mp hcall).1 hn).2 rfl rfl
      | _ => cases hp

/-- A handler keeps to its request. -/
theorem Move.request {request : Request} (hmove : Move p x k x')
    (hidle : ∀ reply, p ≠ .idle reply) (hk : brokerView.request k = some request) :
    brokerView.request p = some request := by
  cases hmove with
  | quiet hmove =>
      cases hmove with
      | @enter reply => exact absurd rfl (hidle reply)
      | create | remove => exact hk
      | _ => cases hk
  | tfs hmove =>
      cases hmove with
      | boxExists | boxAbsent | closeExisting | createFile | createFailed | closeFailed
      | unlinkBox => exact hk
      | _ => cases hk

theorem Move.blank (hmove : Move p x k x') (hinv : Inv x) (hb : Blank x) : Blank x' := by
  cases hmove with
  | quiet => exact hb
  | tfs hmove hcall =>
      refine hb.call hinv ?_ hcall
      have hdata := hmove.noData
      rename_i call _ _
      cases call with
      | write => exact hdata.elim
      | _ => trivial

end Moves

/-! ## The names of a state -/

section Handlers

variable {T : Type*} {asked : List UInt8 → Prop} {s : BrokerState T} {t : T}

/-- What a worker creates has been asked for, and so has what is in the
directory, up to the meta-files that the workers have to unlink. -/
structure Originates (asked : List UInt8 → Prop) (s : BrokerState T) : Prop where
  creating : ∀ t request, brokerView.request (s.pc t) = some request →
    ∀ n ∈ request.adds, asked n
  names : ∀ n ∈ s.shared.service.boxes,
    asked n ∨ ∃ t box, (s.pc t).marked = some box ∧ box.metaFilename.chars.tail = n

theorem Healthy.ready [Fintype T] (h : Healthy s) : Ready s.shared := ⟨h.inv, h.sized⟩

variable [DecidableEq T]

/-- An idle worker begins a request whose name has been asked for. -/
theorem Originates.goto {reply : Option Reply} {p : BrokerPoint} (h : Originates asked s)
    (hidle : s.pc t = .idle reply)
    (hnew : ∀ request, brokerView.request p = some request → ∀ n ∈ request.adds, asked n) :
    Originates asked (s.goto t p) := by
  constructor
  · intro u request hrequest
    by_cases hu : u = t
    · subst hu
      rw [State.goto_pc_self] at hrequest
      exact hnew request hrequest
    · rw [State.goto_pc_of_ne _ _ hu] at hrequest
      exact h.creating u request hrequest
  · intro n hn
    rcases h.names n hn with hasked | ⟨u, box, hmarked, hname⟩
    · exact .inl hasked
    · refine .inr ⟨u, box, ?_, hname⟩
      by_cases hu : u = t
      · rw [hu, hidle] at hmarked
        cases hmarked
      · rw [State.goto_pc_of_ne _ _ hu]
        exact hmarked

/-- A step of a handler adds nothing else. -/
theorem Originates.step [Fintype T] {s' : BrokerState T} (h : Originates asked s)
    (hs : Healthy s) (hidle : ∀ reply, s.pc t ≠ .idle reply)
    (hstep : (brokerMachine T).step s (.run t) = some s') : Originates asked s' := by
  obtain ⟨k, x', hmove, hshared, hpc⟩ := move_of_step hstep
  simp only [Event.thread] at hmove hpc
  have hself : s'.pc t = k := by
    rw [hpc]
    exact Function.update_self ..
  have hother : ∀ u, u ≠ t → s'.pc u = s.pc u := by
    intro u hu
    rw [hpc]
    exact Function.update_of_ne hu ..
  constructor
  · intro u request hrequest
    by_cases hu : u = t
    · rw [hu, hself] at hrequest
      exact h.creating t request (hmove.request hidle hrequest)
    · rw [hother u hu] at hrequest
      exact h.creating u request hrequest
  · intro n hn
    rw [hshared] at hn
    rcases hmove.names hs.ready hn with hold | ⟨request, hrequest, hadds⟩ | ⟨box, hk, hname⟩
    · rcases h.names n hold with hasked | ⟨u, box, hmarked, rfl⟩
      · exact .inl hasked
      · by_cases hu : u = t
        · rw [hu] at hmarked
          have hk := (hmove.keeps_mark hs.ready hmarked).resolve_right fun hgone => hgone hn
          exact .inr ⟨t, box, by rw [hself, hk], rfl⟩
        · exact .inr ⟨u, box, by rw [hother u hu, hmarked], rfl⟩
    · exact .inl (h.creating t request hrequest n hadds)
    · exact .inr ⟨t, box, by rw [hself, hk], hname⟩

/-- **No box has a byte in it**, in every run of the handlers. -/
theorem broker_blank [Fintype T] (h : (brokerMachine T).Reachable s) : Blank s.shared := by
  induction h with
  | start hstart =>
      obtain ⟨⟨mallocs, hinit⟩, -⟩ := hstart
      have htfs : TfsStart tfsDefaultParams mallocs _ := hinit
      exact htfs.emptyRoot.1.blank
  | step hs _ hstep ih =>
      obtain ⟨k, x', hmove, rfl, -⟩ := move_of_step hstep
      exact hmove.blank (broker_healthy hs).inv ih

end Handlers

/-! ## The broker -/

section Mbroker

variable {ι W : Type} [DecidableEq ι] [Fintype W] [DecidableEq W] [Fintype ι]
  {sent : ι → List Message} {s : Mbroker ι W}

omit [DecidableEq ι] [Fintype W] [DecidableEq W] [Fintype ι] in
/-- A worker that waits for a request is in no handler. -/
theorem WorkerAt.dequeue_cases {q : PcqPoint QueueObj} {k : BrokerPoint}
    (h : WorkerAt .dequeue q k) : ∃ reply, k = .idle reply := by
  cases h with
  | dequeue | dequeued => exact ⟨_, rfl⟩

theorem reachable_originates (h : (mbrokerMachine W sent).Reachable s)
    (hshort : ∑ i, (sent i).length < 18446744073709551616) :
    Originates (· ∈ requested sent) s.handlers := by
  induction h with
  | start hstart =>
      obtain ⟨-, -, -, -, -, ⟨hinit, -, hpc⟩, -⟩ := hstart
      constructor
      · intro w request hrequest
        rw [hpc w] at hrequest
        cases hrequest
      · intro n hn
        rw [(gives_empty hinit).2] at hn
        exact absurd hn (Finset.notMem_empty n)
  | @step s s' e hs _ hstep ih =>
      have hwritten := written_length_le hs
      rcases (mbrokerStep_cases hstep).handlers with ⟨hhandlers, -⟩ | ⟨w, hrun, -⟩ |
        ⟨w, obj, p, hworker, hpc, hstart, hidle, hhandlers, -⟩
      · rw [hhandlers]
        exact ih
      · have hrunning := isRunning_of_step hrun rfl
        exact ih.step (broker_healthy (reachable_handlers hs))
          (BrokerPoint.isRunning_iff.mp hrunning) hrun
      · obtain ⟨reply, hreply⟩ := idle_of_act hidle
        rw [hhandlers]
        refine ih.goto hreply fun request hrequest n hadds => mem_requested.mpr ?_
        have hqueue := mem_queue_of_dequeued hs (by omega) hworker hpc
        obtain ⟨i, m, hm, rfl⟩ := sent_of_mem_queue hs hqueue
        refine ⟨i, m, hm, ?_⟩
        rw [nameOf, requestOf, hstart]
        show (brokerView.request p).bind Request.adds = some n
        rw [hrequest]
        exact hadds

/-- **Every name in the directory has been asked for** by a client's
`create_box`, or is the meta-file of a publisher that has yet to unlink it;
once the requests are served there are no such publishers. -/
theorem mbroker_origins (h : (mbrokerMachine W sent).Reachable s)
    (hshort : ∑ i, (sent i).length < 18446744073709551616) :
    (∀ n ∈ s.handlers.shared.service.boxes, n ∈ requested sent ∨
      ∃ w box, (s.handlers.pc w).marked = some box ∧ box.metaFilename.chars.tail = n) ∧
    (s.Served sent → s.handlers.shared.service.boxes ⊆ requested sent) := by
  have hnames := (reachable_originates h hshort).names
  refine ⟨hnames, fun hserved n hn => ?_⟩
  rcases hnames n hn with hasked | ⟨w, box, hmarked, -⟩
  · exact hasked
  · have hw := (reachable_consistent h).worker_at w
    rw [(hserved.waiting w).1] at hw
    obtain ⟨reply, hidle⟩ := hw.dequeue_cases
    rw [hidle] at hmarked
    cases hmarked

omit [Fintype ι] in
/-- **No message is ever stored**: whatever the clients send, every file of the
broker is empty, no block but the directory's is in use, and a read through
any handle returns nothing. -/
theorem mbroker_stores_nothing (h : (mbrokerMachine W sent).Reachable s) :
    (∀ b, s.handlers.shared.BlockTaken b → b = 0) ∧
    (∀ name bytes, s.handlers.shared.contents name = some bytes → bytes = []) ∧
    ∀ fhandle len, ∃ r,
      tfsRead fhandle len s.handlers.shared = .ok ((r, []), s.handlers.shared) := by
  have hhandlers := reachable_handlers h
  have hinv := (broker_healthy hhandlers).inv
  have hblank := broker_blank hhandlers
  exact ⟨hblank.blocks, fun name bytes hbytes => hblank.contents hinv hbytes,
    fun fhandle len => ⟨_, hblank.read_eq hinv fhandle len⟩⟩

end Mbroker

theorem publisherProto_request : Code.registerPublisher.isRequest := rfl

theorem publisherProto_sized :
    protoSize Code.registerPublisher.byte = .ok createProto.length := by
  rw [createProto_length]
  rfl

/-- One client creates the box `/a` and registers a publisher for it. -/
def createAndRegister (_ : Unit) : List Message :=
  oneRequest () ++
    [⟨.registerPublisher, publisherProto_request, createProto, publisherProto_sized⟩]

/-- The box is there, and the publisher has just made its meta-file. -/
def markRun : List (MbrokerEvent Unit Unit) :=
  deliverRun ++ List.replicate 4 (.handler ()) ++ [.worker (), .main] ++ deliverRun ++
    List.replicate 4 (.handler ())

theorem markRun_result :
    ((mbrokerStart Unit createAndRegister).bind fun s =>
      (mbrokerMachine Unit createAndRegister).run s markRun).map
        (fun s => s.handlers.shared.service.boxes) =
      some {[97], [97, 46, 112, 117, 98]} := by
  decide +kernel

theorem markRun_reachable : ∃ s, (mbrokerMachine Unit createAndRegister).Reachable s ∧
    s.handlers.shared.service.boxes = {[97], [97, 46, 112, 117, 98]} := by
  obtain ⟨s, hrun, hboxes⟩ := Option.map_eq_some_iff.mp markRun_result
  obtain ⟨s₀, hstart, hrun⟩ := Option.bind_eq_some_iff.mp hrun
  have hreach := (Machine.ReachableBy.start (mbrokerStart_start (by decide) hstart)).run
    (fun _ _ _ => trivial) hrun
  exact ⟨s, hreach, hboxes⟩

theorem markRun_origins : ∃ s, (mbrokerMachine Unit createAndRegister).Reachable s ∧
    s.handlers.shared.service.boxes = {[97], [97, 46, 112, 117, 98]} ∧
    (∀ n ∈ s.handlers.shared.service.boxes, n ∈ requested createAndRegister ∨
      ∃ w box, (s.handlers.pc w).marked = some box ∧ box.metaFilename.chars.tail = n) ∧
    (s.Served createAndRegister →
      s.handlers.shared.service.boxes ⊆ requested createAndRegister) := by
  obtain ⟨s, hreach, hboxes⟩ := markRun_reachable
  exact ⟨s, hreach, hboxes, mbroker_origins hreach (by decide)⟩

theorem markRun_stores_nothing : ∃ s, (mbrokerMachine Unit createAndRegister).Reachable s ∧
    s.handlers.shared.service.boxes = {[97], [97, 46, 112, 117, 98]} ∧
    (∀ b, s.handlers.shared.BlockTaken b → b = 0) ∧
    (∀ name bytes, s.handlers.shared.contents name = some bytes → bytes = []) ∧
    ∀ fhandle len, ∃ r,
      tfsRead fhandle len s.handlers.shared = .ok ((r, []), s.handlers.shared) := by
  obtain ⟨s, hreach, hboxes⟩ := markRun_reachable
  exact ⟨s, hreach, hboxes, mbroker_stores_nothing hreach⟩

end MBroker
