import MBroker.Fs.Operations
import MBroker.Lib.Threads

/-!
# The request handlers (mbroker/requests.c)

Each handler twice: as one function from start to end, and as the program
that a worker runs, one point for each TFS call and for each lock and
unlock of `tfs_ops`. A TFS call holds `g_library_mutex` throughout, so it
is one step. `parseRequest_alone` joins the two readings.

The calls on the client's pipe are no steps here: `BrokerPoint.pipeFault` says
where they stand, and in `pipedBroker` and `pipedMbroker` they wait and fail. What
is read from the pipe is nothing: the loop of `register_publisher` is
`while (0)`. What is sent is the response of `create_box`. A failed assertion
is a `Fault.panic` with its format string. `register_subscriber` and
`list_boxes` touch no TFS state.
-/

namespace MBroker

open Threads

/-! ## Requests and responses -/

/-- `BOX_NAME_SIZE`. -/
def boxNameSize : Nat := 32

/-- `REMOVE_BOX_RESPONSE`, of the protocol codes. -/
def removeBoxResponse : Nat := 6

def errBoxAlreadyExists : String := "Box already exists."

def errBoxCreation : String := "An error ocurred while creating the box."

/-- The NUL-terminated `box_name` of a request. -/
structure BoxName where
  name : CString
  fits : name.chars.length < boxNameSize
deriving DecidableEq

/-- The characters of `.pub`. -/
def pubSuffix : List UInt8 := [46, 112, 117, 98]

/-- The name of the box's meta-file, as `snprintf` leaves it in a buffer of
`MAX_FILE_NAME` bytes. -/
def BoxName.metaFilename (box : BoxName) : CString where
  chars := (box.name.chars ++ pubSuffix).take (maxFileName - 1)
  noNul := by
    intro h
    have h := List.mem_of_mem_take h
    rw [List.mem_append] at h
    rcases h with h | h
    · exact box.name.noNul h
    · revert h
      decide

/-- `response_proto_t`. -/
structure BoxResponse where
  returnCode : Int
  errorMsg : String
deriving DecidableEq, Repr

/-- A message to the client: its opcode and its payload. -/
structure Reply where
  opcode : Nat
  response : BoxResponse
deriving DecidableEq, Repr

/-- The requests that the main loop gives to the workers. -/
inductive Request
  | registerPublisher (box : BoxName)
  | registerSubscriber (box : BoxName)
  | createBox (box : BoxName)
  | removeBox (box : BoxName)
  | listBoxes
deriving DecidableEq

/-! ## Handlers from start to end -/

def registerPublisher (box : BoxName) (s : Tfs) : Except Fault Tfs := do
  let (fd, s) ← tfsOpen box.name tfsOAppend s
  let (metaFd, s) ← tfsOpen box.metaFilename 0 s
  -- If we couldn't open the box for whatever reason, or the meta-file exists, exit.
  if fd = -1 ∨ metaFd ≠ -1 then
    let (_, s) ← tfsClose fd s
    let (_, s) ← tfsClose metaFd s
    let (_, s) ← tfsUnlink box.metaFilename s
    return s
  let (metaFd, s) ← tfsOpen box.metaFilename tfsOCreat s
  alwaysAssert (metaFd ≠ -1) "An error ocurred while creating meta-file for %s"
  let (r, s) ← tfsClose metaFd s
  alwaysAssert (r = 0) "An error ocurred closing meta-file for %s"
  let (_, s) ← tfsClose fd s
  let (r, s) ← tfsUnlink box.metaFilename s
  alwaysAssert (r = 0) "Failed to delete meta-file while removing publisher"
  return s

/-- The response is allocated zeroed; its `return_code` is always
`REMOVE_BOX_RESPONSE`, and so is the opcode it is sent with. -/
def boxReply (errorMsg : String) : Reply :=
  ⟨removeBoxResponse, ⟨removeBoxResponse, errorMsg⟩⟩

def createBox (box : BoxName) (s : Tfs) : Except Fault (Reply × Tfs) := do
  let (fd, s) ← tfsOpen box.name 0 s
  if fd ≠ -1 then
    let (_, s) ← tfsClose fd s
    return (boxReply errBoxAlreadyExists, s)
  -- Create the new file for the box
  let (fd, s) ← tfsOpen box.name (tfsOCreat ||| tfsOTrunc) s
  if fd = -1 then
    let (_, s) ← tfsClose fd s
    return (boxReply errBoxCreation, s)
  return (boxReply "", s)

def removeBox (box : BoxName) (s : Tfs) : Except Fault Tfs := do
  let (r, s) ← tfsUnlink box.name s
  alwaysAssert (r = 0) "Failed to remove box"
  return s

/-- What the client is sent, and the state after the handler. -/
def parseRequest : Request → Tfs → Except Fault (Option Reply × Tfs)
  | .registerPublisher box, s => do
    let s ← registerPublisher box s
    return (none, s)
  | .registerSubscriber _, s => return (none, s)
  | .createBox box, s => do
    let (reply, s) ← createBox box s
    return (some reply, s)
  | .removeBox box, s => do
    let s ← removeBox box s
    return (none, s)
  | .listBoxes, s => return (none, s)

/-! ## Handlers step by step -/

inductive BrokerMutex
  | tfsOps
deriving DecidableEq, Repr

/-- The points of `register_publisher`, with the handles that are live there. -/
inductive RegisterPoint
  | openBox
  | lockOps (fd : Int)
  | openMeta (fd : Int)
  | rejectCloseBox (fd metaFd : Int)
  | rejectCloseMeta (metaFd : Int)
  | rejectUnlinkMeta
  | rejectUnlockOps
  | createMeta (fd : Int)
  | closeMeta (fd metaFd : Int)
  | unlockOps (fd : Int)
  | closeBox (fd : Int)
  | unlinkMeta
deriving DecidableEq, Repr

inductive CreatePoint
  | lockOps
  | openBox
  | closeBox (fd : Int)
  | createFile
  | closeFailed (fd : Int)
  | unlockOps (reply : Reply)
deriving DecidableEq, Repr

inductive RemovePoint
  | lockOps
  | unlinkBox
  | unlockOps
deriving DecidableEq, Repr

/-- A worker has nothing to do, after a handler that sent `reply`, or is in
a handler. -/
inductive BrokerPoint
  | idle (reply : Option Reply)
  | registerPublisher (box : BoxName) (p : RegisterPoint)
  | createBox (box : BoxName) (p : CreatePoint)
  | removeBox (box : BoxName) (p : RemovePoint)
deriving DecidableEq

/-- The step at a point: take or release `tfs_ops`, or make a TFS call and
go on with what it returns. -/
inductive BrokerStep
  | idle
  | lock (next : BrokerPoint)
  | unlock (next : BrokerPoint)
  | tfs (call : TfsCall) (next : Int → Except Fault BrokerPoint)

/-- The `open` of the client's pipe before `tfs_open` is in `BrokerPoint.pipeFault`. -/
def registerPublisherStep (box : BoxName) : RegisterPoint → BrokerStep
  | .openBox => .tfs (.open box.name tfsOAppend) fun fd =>
      return .registerPublisher box (.lockOps fd)
  | .lockOps fd => .lock (.registerPublisher box (.openMeta fd))
  | .openMeta fd => .tfs (.open box.metaFilename 0) fun metaFd =>
      if fd = -1 ∨ metaFd ≠ -1 then return .registerPublisher box (.rejectCloseBox fd metaFd)
      else return .registerPublisher box (.createMeta fd)
  | .rejectCloseBox fd metaFd => .tfs (.close fd) fun _ =>
      return .registerPublisher box (.rejectCloseMeta metaFd)
  | .rejectCloseMeta metaFd => .tfs (.close metaFd) fun _ =>
      return .registerPublisher box .rejectUnlinkMeta
  | .rejectUnlinkMeta => .tfs (.unlink box.metaFilename) fun _ =>
      return .registerPublisher box .rejectUnlockOps
  | .rejectUnlockOps => .unlock (.idle none)
  | .createMeta fd => .tfs (.open box.metaFilename tfsOCreat) fun metaFd => do
      alwaysAssert (metaFd ≠ -1) "An error ocurred while creating meta-file for %s"
      return .registerPublisher box (.closeMeta fd metaFd)
  | .closeMeta fd metaFd => .tfs (.close metaFd) fun r => do
      alwaysAssert (r = 0) "An error ocurred closing meta-file for %s"
      return .registerPublisher box (.unlockOps fd)
  | .unlockOps fd => .unlock (.registerPublisher box (.closeBox fd))
  | .closeBox fd => .tfs (.close fd) fun _ => return .registerPublisher box .unlinkMeta
  | .unlinkMeta => .tfs (.unlink box.metaFilename) fun r => do
      alwaysAssert (r = 0) "Failed to delete meta-file while removing publisher"
      return .idle none

/-- `open_pipe` before the lock and the response behind the unlock are in
`BrokerPoint.pipeFault`. -/
def createBoxStep (box : BoxName) : CreatePoint → BrokerStep
  | .lockOps => .lock (.createBox box .openBox)
  | .openBox => .tfs (.open box.name 0) fun fd =>
      if fd ≠ -1 then return .createBox box (.closeBox fd)
      else return .createBox box .createFile
  | .closeBox fd => .tfs (.close fd) fun _ =>
      return .createBox box (.unlockOps (boxReply errBoxAlreadyExists))
  | .createFile => .tfs (.open box.name (tfsOCreat ||| tfsOTrunc)) fun fd =>
      if fd = -1 then return .createBox box (.closeFailed fd)
      else return .createBox box (.unlockOps (boxReply ""))
  | .closeFailed fd => .tfs (.close fd) fun _ =>
      return .createBox box (.unlockOps (boxReply errBoxCreation))
  | .unlockOps reply => .unlock (.idle (some reply))

def removeBoxStep (box : BoxName) : RemovePoint → BrokerStep
  | .lockOps => .lock (.removeBox box .unlinkBox)
  | .unlinkBox => .tfs (.unlink box.name) fun r => do
      alwaysAssert (r = 0) "Failed to remove box"
      return .removeBox box .unlockOps
  | .unlockOps => .unlock (.idle none)

def brokerStep : BrokerPoint → BrokerStep
  | .idle _ => .idle
  | .registerPublisher box p => registerPublisherStep box p
  | .createBox box p => createBoxStep box p
  | .removeBox box p => removeBoxStep box p

/-- The assertion of a call on the client's pipe at the point. The pipe is opened
before anything else, which waits for the client to open its end. The response is
written behind the release of `tfs_ops`, which waits for room in the pipe; when the
client has closed its end the process dies of `SIGPIPE`, assertion or not. -/
def BrokerPoint.pipeFault : BrokerPoint → Option Fault
  | .registerPublisher _ .openBox => some (.panic "Failed to open client named pipe")
  | .createBox _ .lockOps => some (.panic "Failed to open named pipe")
  | .idle (some _) => some (.panic "Failed to write proto")
  | _ => none

/-- Where the handler of a request starts; two of them have nothing to do. -/
def Request.start : Request → BrokerPoint
  | .registerPublisher box => .registerPublisher box .openBox
  | .createBox box => .createBox box .lockOps
  | .removeBox box => .removeBox box .lockOps
  | .registerSubscriber _ | .listBoxes => .idle none

def BrokerStep.act : BrokerStep → Act BrokerMutex Empty BrokerPoint Tfs
  | .idle => .idle
  | .lock next => .lock .tfsOps next
  | .unlock next => .unlock .tfsOps next
  | .tfs call next => .access fun s => Except.toOption do
      let ((r, _), s) ← tfsCall s call
      let k ← next r
      return (s, k)

def brokerProgram : Program BrokerMutex Empty BrokerPoint Tfs where
  init := .idle none
  entry
    | .registerPublisher _ .openBox | .createBox _ .lockOps | .removeBox _ .lockOps
    | .idle none => true
    | _ => false
  act p := (brokerStep p).act

/-- A state of the workers `T`. -/
abbrev BrokerState (T : Type*) := State T BrokerMutex BrokerPoint Tfs

/-- The workers `T` of a broker that has called `tfs_init(NULL)`. -/
def brokerMachine (T : Type*) [Fintype T] [DecidableEq T] :
    Machine (BrokerState T) (Event T BrokerPoint) :=
  brokerProgram.machine T fun s => ∃ m, tfsInit none m tfsUninit = .ok (0, s)

/-! ## One worker alone -/

/-- The steps of one worker from one point to another. -/
inductive Alone : BrokerPoint → Tfs → BrokerPoint → Tfs → Prop
  | refl (p : BrokerPoint) (s : Tfs) : Alone p s p s
  | lock {p k q : BrokerPoint} {s t : Tfs} (hstep : brokerStep p = .lock k)
      (hrest : Alone k s q t) : Alone p s q t
  | unlock {p k q : BrokerPoint} {s t : Tfs} (hstep : brokerStep p = .unlock k)
      (hrest : Alone k s q t) : Alone p s q t
  | tfs {p k q : BrokerPoint} {s s' t : Tfs} {call : TfsCall} {r : Int} {bytes : List UInt8}
      {next : Int → Except Fault BrokerPoint} (hstep : brokerStep p = .tfs call next)
      (hcall : tfsCall s call = .ok ((r, bytes), s')) (hnext : next r = .ok k)
      (hrest : Alone k s' q t) : Alone p s q t

section Alone

variable {s t : Tfs} {r fhandle : Int} {bytes : List UInt8} {name : CString} {mode : Nat}
  {box : BoxName}

/-- The calls of `register_publisher`, rejected and accepted. -/
inductive RegisterResult (box : BoxName) (s t : Tfs) : Prop
  | rejected {fd metaFd r₁ r₂ r₃ : Int} {s₁ s₂ s₃ s₄ : Tfs}
      (hbox : tfsOpen box.name tfsOAppend s = .ok (fd, s₁))
      (hmeta : tfsOpen box.metaFilename 0 s₁ = .ok (metaFd, s₂))
      (hreject : fd = -1 ∨ metaFd ≠ -1)
      (hclose : tfsClose fd s₂ = .ok (r₁, s₃))
      (hcloseMeta : tfsClose metaFd s₃ = .ok (r₂, s₄))
      (hunlink : tfsUnlink box.metaFilename s₄ = .ok (r₃, t)) : RegisterResult box s t
  | accepted {fd metaFd r : Int} {s₁ s₂ s₃ s₄ s₅ : Tfs}
      (hbox : tfsOpen box.name tfsOAppend s = .ok (fd, s₁))
      (hmeta : tfsOpen box.metaFilename 0 s₁ = .ok (-1, s₂)) (hfd : fd ≠ -1)
      (hcreate : tfsOpen box.metaFilename tfsOCreat s₂ = .ok (metaFd, s₃))
      (hmetaFd : metaFd ≠ -1)
      (hcloseMeta : tfsClose metaFd s₃ = .ok (0, s₄))
      (hclose : tfsClose fd s₄ = .ok (r, s₅))
      (hunlink : tfsUnlink box.metaFilename s₅ = .ok (0, t)) : RegisterResult box s t

theorem registerPublisher_cases (h : registerPublisher box s = .ok t) :
    RegisterResult box s t := by
  obtain ⟨⟨fd, s₁⟩, hbox, h⟩ := bind_eq_ok.mp h
  obtain ⟨⟨metaFd, s₂⟩, hmeta, h⟩ := bind_eq_ok.mp h
  dsimp only at h
  by_cases hreject : fd = -1 ∨ metaFd ≠ -1
  · rw [if_pos hreject] at h
    obtain ⟨⟨_, s₃⟩, hclose, h⟩ := bind_eq_ok.mp h
    obtain ⟨⟨_, s₄⟩, hcloseMeta, h⟩ := bind_eq_ok.mp h
    obtain ⟨⟨_, s₅⟩, hunlink, h⟩ := bind_eq_ok.mp h
    have ht : s₅ = t := Except.ok.inj h
    subst ht
    exact .rejected hbox hmeta hreject hclose hcloseMeta hunlink
  · rw [if_neg hreject] at h
    obtain ⟨hfd, hneg⟩ := not_or.mp hreject
    obtain rfl : metaFd = -1 := not_not.mp hneg
    obtain ⟨⟨metaFd', s₃⟩, hcreate, h⟩ := bind_eq_ok.mp h
    obtain ⟨_, hmetaFd, h⟩ := bind_eq_ok.mp h
    obtain ⟨⟨r, s₄⟩, hcloseMeta, h⟩ := bind_eq_ok.mp h
    obtain ⟨_, hr, h⟩ := bind_eq_ok.mp h
    obtain ⟨⟨_, s₅⟩, hclose, h⟩ := bind_eq_ok.mp h
    obtain ⟨⟨r', s₆⟩, hunlink, h⟩ := bind_eq_ok.mp h
    obtain ⟨_, hr', h⟩ := bind_eq_ok.mp h
    have ht : s₆ = t := Except.ok.inj h
    subst ht
    obtain rfl : r = 0 := alwaysAssert_eq_ok.mp hr
    obtain rfl : r' = 0 := alwaysAssert_eq_ok.mp hr'
    exact .accepted hbox hmeta hfd hcreate (alwaysAssert_eq_ok.mp hmetaFd) hcloseMeta hclose
      hunlink

theorem registerPublisher_alone (h : registerPublisher box s = .ok t) :
    Alone (.registerPublisher box .openBox) s (.idle none) t := by
  cases registerPublisher_cases h with
  | @rejected fd metaFd _ _ _ s₁ s₂ s₃ s₄ hbox hmeta hreject hclose hcloseMeta hunlink =>
      have h₅ : Alone (.registerPublisher box .rejectUnlockOps) t (.idle none) t :=
        .unlock rfl (.refl _ _)
      have h₄ : Alone (.registerPublisher box .rejectUnlinkMeta) s₄ (.idle none) t :=
        .tfs rfl (tfsCall_unlink.mpr ⟨hunlink, rfl⟩) rfl h₅
      have h₃ : Alone (.registerPublisher box (.rejectCloseMeta metaFd)) s₃ (.idle none) t :=
        .tfs rfl (tfsCall_close.mpr ⟨hcloseMeta, rfl⟩) rfl h₄
      have h₂ : Alone (.registerPublisher box (.rejectCloseBox fd metaFd)) s₂ (.idle none) t :=
        .tfs rfl (tfsCall_close.mpr ⟨hclose, rfl⟩) rfl h₃
      have h₁ : Alone (.registerPublisher box (.openMeta fd)) s₁ (.idle none) t :=
        .tfs rfl (tfsCall_open.mpr ⟨hmeta, rfl⟩) (if_pos hreject) h₂
      exact .tfs rfl (tfsCall_open.mpr ⟨hbox, rfl⟩) rfl (.lock rfl h₁)
  | @accepted fd metaFd _ s₁ s₂ s₃ s₄ s₅ hbox hmeta hfd hcreate hmetaFd hcloseMeta hclose hunlink =>
      have hpass : ∀ {c : Prop} [Decidable c] {msg : String} {k : BrokerPoint}, c →
          (do alwaysAssert c msg
              return k) = Except.ok (ε := Fault) k := by
        intro c _ msg k hc
        rw [alwaysAssert_of_true hc]
        rfl
      have h₅ : Alone (.registerPublisher box .unlinkMeta) s₅ (.idle none) t :=
        .tfs rfl (tfsCall_unlink.mpr ⟨hunlink, rfl⟩) (hpass rfl) (.refl _ _)
      have h₄ : Alone (.registerPublisher box (.closeBox fd)) s₄ (.idle none) t :=
        .tfs rfl (tfsCall_close.mpr ⟨hclose, rfl⟩) rfl h₅
      have h₃ : Alone (.registerPublisher box (.closeMeta fd metaFd)) s₃ (.idle none) t :=
        .tfs rfl (tfsCall_close.mpr ⟨hcloseMeta, rfl⟩) (hpass rfl) (.unlock rfl h₄)
      have h₂ : Alone (.registerPublisher box (.createMeta fd)) s₂ (.idle none) t :=
        .tfs rfl (tfsCall_open.mpr ⟨hcreate, rfl⟩) (hpass hmetaFd) h₃
      have haccept : ¬ (fd = -1 ∨ (-1 : Int) ≠ -1) := by
        rintro (hneg | hne)
        · exact hfd hneg
        · exact hne rfl
      have h₁ : Alone (.registerPublisher box (.openMeta fd)) s₁ (.idle none) t :=
        .tfs rfl (tfsCall_open.mpr ⟨hmeta, rfl⟩) (if_neg haccept) h₂
      exact .tfs rfl (tfsCall_open.mpr ⟨hbox, rfl⟩) rfl (.lock rfl h₁)

theorem createBox_alone {reply : Reply} (h : createBox box s = .ok (reply, t)) :
    Alone (.createBox box .lockOps) s (.idle (some reply)) t := by
  have hunlock : Alone (.createBox box (.unlockOps reply)) t (.idle (some reply)) t :=
    .unlock rfl (.refl _ _)
  obtain ⟨⟨fd, s₁⟩, hopen, h⟩ := bind_eq_ok.mp h
  dsimp only at h
  by_cases hexists : fd ≠ -1
  · rw [if_pos hexists] at h
    obtain ⟨⟨_, s₂⟩, hclose, h⟩ := bind_eq_ok.mp h
    obtain ⟨rfl, rfl⟩ := ok_pair_inj h
    have h₁ : Alone (.createBox box (.closeBox fd)) s₁ (.idle (some _)) s₂ :=
      .tfs rfl (tfsCall_close.mpr ⟨hclose, rfl⟩) rfl hunlock
    exact .lock rfl (.tfs rfl (tfsCall_open.mpr ⟨hopen, rfl⟩) (if_pos hexists) h₁)
  · rw [if_neg hexists] at h
    obtain ⟨⟨fd', s₂⟩, hcreate, h⟩ := bind_eq_ok.mp h
    dsimp only at h
    by_cases hfailed : fd' = -1
    · rw [if_pos hfailed] at h
      obtain ⟨⟨_, s₃⟩, hclose, h⟩ := bind_eq_ok.mp h
      obtain ⟨rfl, rfl⟩ := ok_pair_inj h
      have h₂ : Alone (.createBox box (.closeFailed fd')) s₂ (.idle (some _)) s₃ :=
        .tfs rfl (tfsCall_close.mpr ⟨hclose, rfl⟩) rfl hunlock
      have h₁ : Alone (.createBox box .createFile) s₁ (.idle (some _)) s₃ :=
        .tfs rfl (tfsCall_open.mpr ⟨hcreate, rfl⟩) (if_pos hfailed) h₂
      exact .lock rfl (.tfs rfl (tfsCall_open.mpr ⟨hopen, rfl⟩) (if_neg hexists) h₁)
    · rw [if_neg hfailed] at h
      obtain ⟨rfl, rfl⟩ := ok_pair_inj h
      have h₁ : Alone (.createBox box .createFile) s₁ (.idle (some _)) s₂ :=
        .tfs rfl (tfsCall_open.mpr ⟨hcreate, rfl⟩) (if_neg hfailed) hunlock
      exact .lock rfl (.tfs rfl (tfsCall_open.mpr ⟨hopen, rfl⟩) (if_neg hexists) h₁)

theorem removeBox_alone (h : removeBox box s = .ok t) :
    Alone (.removeBox box .lockOps) s (.idle none) t := by
  obtain ⟨⟨_, s₁⟩, hunlink, h⟩ := bind_eq_ok.mp h
  obtain ⟨_, hassert, h⟩ := bind_eq_ok.mp h
  have ht : s₁ = t := Except.ok.inj h
  subst ht
  have hunlock : Alone (.removeBox box .unlockOps) s₁ (.idle none) s₁ := .unlock rfl (.refl _ _)
  exact .lock rfl (.tfs rfl (tfsCall_unlink.mpr ⟨hunlink, rfl⟩) (by rw [hassert]; rfl) hunlock)

/-- A handler that returns does the steps of its program. -/
theorem parseRequest_alone {request : Request} {reply : Option Reply}
    (h : parseRequest request s = .ok (reply, t)) :
    Alone request.start s (.idle reply) t := by
  cases request with
  | registerPublisher box =>
      obtain ⟨s₁, hrun, h⟩ := bind_eq_ok.mp h
      obtain ⟨rfl, rfl⟩ := ok_pair_inj h
      exact registerPublisher_alone hrun
  | createBox box =>
      obtain ⟨⟨reply', s₁⟩, hrun, h⟩ := bind_eq_ok.mp h
      obtain ⟨rfl, rfl⟩ := ok_pair_inj h
      exact createBox_alone hrun
  | removeBox box =>
      obtain ⟨s₁, hrun, h⟩ := bind_eq_ok.mp h
      obtain ⟨rfl, rfl⟩ := ok_pair_inj h
      exact removeBox_alone hrun
  | registerSubscriber | listBoxes =>
      obtain ⟨rfl, rfl⟩ := ok_pair_inj h
      exact .refl _ _

end Alone

end MBroker
