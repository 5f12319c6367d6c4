import MBroker.Broker.Requests
import MBroker.Fs.Paths

/-!
# What a worker can do

The moves of a worker between two points of a handler, one constructor for
each outcome; every result about the broker is derived from them. What
holds in all runs is here: who owns `tfs_ops`, that every handle is used
in one place only and closed once, and that every TFS call returns.
-/

namespace MBroker

open Threads Tfs

/-! ## Names of meta-files -/

section Names

variable {box box' : BoxName}

/-- The suffix always fits. -/
theorem BoxName.metaFilename_chars (box : BoxName) :
    box.metaFilename.chars = box.name.chars ++ pubSuffix := by
  have hfits := box.fits
  unfold boxNameSize at hfits
  apply List.take_of_length_le
  simp only [List.length_append, pubSuffix, List.length_cons, List.length_nil, maxFileName]
  omega

theorem BoxName.metaFilename_inj (h : box.metaFilename = box'.metaFilename) : box = box' := by
  have hchars := congrArg CString.chars h
  rw [box.metaFilename_chars, box'.metaFilename_chars] at hchars
  have hname := List.append_cancel_right hchars
  obtain ⟨⟨chars, _⟩, _⟩ := box
  obtain ⟨⟨chars', _⟩, _⟩ := box'
  cases hname
  rfl

theorem BoxName.metaFilename_ne_name (box : BoxName) : box.metaFilename ≠ box.name := by
  intro h
  have hlen := congrArg (fun c => c.chars.length) h
  simp only [box.metaFilename_chars, List.length_append, pubSuffix, List.length_cons] at hlen
  omega

theorem BoxName.metaFilename_valid (h : validPathname box.name) :
    validPathname box.metaFilename := by
  unfold validPathname at h ⊢
  rw [box.metaFilename_chars, List.length_append]
  obtain ⟨hlen, hhead⟩ := h
  constructor
  · omega
  · cases hc : box.name.chars with
    | nil => simp [hc] at hlen
    | cons c cs => simpa [hc] using hhead

/-- A meta-file needs no more than a free entry. -/
theorem BoxName.slotFor_metaFilename (box : BoxName) (s : Tfs) :
    s.slotFor box.metaFilename.chars.tail = s.firstFreeSlot := by
  have hfits := box.fits
  unfold boxNameSize at hfits
  apply if_pos
  rw [List.length_tail, box.metaFilename_chars, List.length_append]
  simp only [pubSuffix, List.length_cons, List.length_nil, maxFileName]
  omega

end Names

/-! ## Moves -/

/-- The moves without a TFS call. -/
inductive LockMove : BrokerPoint → BrokerPoint → Prop
  | enter {reply : Option Reply} {k : BrokerPoint} (hentry : brokerProgram.entry k) :
      LockMove (.idle reply) k
  | register {box : BoxName} {fd : Int} :
      LockMove (.registerPublisher box (.lockOps fd)) (.registerPublisher box (.openMeta fd))
  | create {box : BoxName} : LockMove (.createBox box .lockOps) (.createBox box .openBox)
  | remove {box : BoxName} : LockMove (.removeBox box .lockOps) (.removeBox box .unlinkBox)
  | rejected {box : BoxName} : LockMove (.registerPublisher box .rejectUnlockOps) (.idle none)
  | registered {box : BoxName} {fd : Int} :
      LockMove (.registerPublisher box (.unlockOps fd)) (.registerPublisher box (.closeBox fd))
  | created {box : BoxName} {reply : Reply} :
      LockMove (.createBox box (.unlockOps reply)) (.idle (some reply))
  | removed {box : BoxName} : LockMove (.removeBox box .unlockOps) (.idle none)

/-- The moves by a TFS call, with what the call returned. -/
inductive TfsMove : BrokerPoint → TfsCall → Int → BrokerPoint → Prop
  | openBox {box : BoxName} {fd : Int} :
      TfsMove (.registerPublisher box .openBox) (.open box.name tfsOAppend) fd
        (.registerPublisher box (.lockOps fd))
  | reject {box : BoxName} {fd metaFd : Int} (h : fd = -1 ∨ metaFd ≠ -1) :
      TfsMove (.registerPublisher box (.openMeta fd)) (.open box.metaFilename 0) metaFd
        (.registerPublisher box (.rejectCloseBox fd metaFd))
  | accept {box : BoxName} {fd : Int} (h : fd ≠ -1) :
      TfsMove (.registerPublisher box (.openMeta fd)) (.open box.metaFilename 0) (-1)
        (.registerPublisher box (.createMeta fd))
  | rejectCloseBox {box : BoxName} {fd metaFd r : Int} :
      TfsMove (.registerPublisher box (.rejectCloseBox fd metaFd)) (.close fd) r
        (.registerPublisher box (.rejectCloseMeta metaFd))
  | rejectCloseMeta {box : BoxName} {metaFd r : Int} :
      TfsMove (.registerPublisher box (.rejectCloseMeta metaFd)) (.close metaFd) r
        (.registerPublisher box .rejectUnlinkMeta)
  | rejectUnlinkMeta {box : BoxName} {r : Int} :
      TfsMove (.registerPublisher box .rejectUnlinkMeta) (.unlink box.metaFilename) r
        (.registerPublisher box .rejectUnlockOps)
  | createMeta {box : BoxName} {fd metaFd : Int} (h : metaFd ≠ -1) :
      TfsMove (.registerPublisher box (.createMeta fd)) (.open box.metaFilename tfsOCreat) metaFd
        (.registerPublisher box (.closeMeta fd metaFd))
  | closeMeta {box : BoxName} {fd metaFd : Int} :
      TfsMove (.registerPublisher box (.closeMeta fd metaFd)) (.close metaFd) 0
        (.registerPublisher box (.unlockOps fd))
  | closeBox {box : BoxName} {fd r : Int} :
      TfsMove (.registerPublisher box (.closeBox fd)) (.close fd) r
        (.registerPublisher box .unlinkMeta)
  | unlinkMeta {box : BoxName} :
      TfsMove (.registerPublisher box .unlinkMeta) (.unlink box.metaFilename) 0 (.idle none)
  | boxExists {box : BoxName} {fd : Int} (h : fd ≠ -1) :
      TfsMove (.createBox box .openBox) (.open box.name 0) fd (.createBox box (.closeBox fd))
  | boxAbsent {box : BoxName} :
      TfsMove (.createBox box .openBox) (.open box.name 0) (-1) (.createBox box .createFile)
  | closeExisting {box : BoxName} {fd r : Int} :
      TfsMove (.createBox box (.closeBox fd)) (.close fd) r
        (.createBox box (.unlockOps (boxReply errBoxAlreadyExists)))
  | createFile {box : BoxName} {fd : Int} (h : fd ≠ -1) :
      TfsMove (.createBox box .createFile) (.open box.name (tfsOCreat ||| tfsOTrunc)) fd
        (.createBox box (.unlockOps (boxReply "")))
  | createFailed {box : BoxName} :
      TfsMove (.createBox box .createFile) (.open box.name (tfsOCreat ||| tfsOTrunc)) (-1)
        (.createBox box (.closeFailed (-1)))
  | closeFailed {box : BoxName} {fd r : Int} :
      TfsMove (.createBox box (.closeFailed fd)) (.close fd) r
        (.createBox box (.unlockOps (boxReply errBoxCreation)))
  | unlinkBox {box : BoxName} :
      TfsMove (.removeBox box .unlinkBox) (.unlink box.name) 0 (.removeBox box .unlockOps)

/-- The handlers neither read nor write. -/
def NoData : TfsCall → Prop
  | .open _ _ | .close _ | .unlink _ => True
  | .write _ _ _ | .read _ _ => False

/-- A move of a worker and of the file system with it. -/
inductive Move (p : BrokerPoint) (x : Tfs) : BrokerPoint → Tfs → Prop
  | quiet {k : BrokerPoint} (hmove : LockMove p k) : Move p x k x
  | tfs {k : BrokerPoint} {x' : Tfs} {call : TfsCall} {r : Int} {bytes : List UInt8}
      (hmove : TfsMove p call r k) (hcall : tfsCall x call = .ok ((r, bytes), x')) : Move p x k x'

section Moves

variable {p k : BrokerPoint} {x x' : Tfs} {call : TfsCall} {r : Int}
  {next : Int → Except Fault BrokerPoint}

theorem lockMove_of_lock (h : brokerStep p = .lock k) : LockMove p k := by
  cases p with
  | idle => cases h
  | registerPublisher box p =>
      cases p <;> cases h
      exact .register
  | createBox box p =>
      cases p <;> cases h
      exact .create
  | removeBox box p =>
      cases p <;> cases h
      exact .remove

theorem lockMove_of_unlock (h : brokerStep p = .unlock k) : LockMove p k := by
  cases p with
  | idle => cases h
  | registerPublisher box p =>
      cases p <;> cases h
      · exact .rejected
      · exact .registered
  | createBox box p =>
      cases p <;> cases h
      exact .created
  | removeBox box p =>
      cases p <;> cases h
      exact .removed

theorem noData_of_tfs (h : brokerStep p = .tfs call next) : NoData call := by
  cases p with
  | idle => cases h
  | registerPublisher box p => cases p <;> cases h <;> trivial
  | createBox box p => cases p <;> cases h <;> trivial
  | removeBox box p =>
      cases p <;> cases h
      trivial

theorem TfsMove.noData (hmove : TfsMove p call r k) : NoData call := by
  cases hmove <;> trivial

/-- A condition that passed. -/
theorem assert_eq_ok {α : Type} {c : Prop} [Decidable c] {msg : String} {a b : α}
    (h : (do alwaysAssert c msg
             return a) = Except.ok (ε := Fault) b) : c ∧ b = a := by
  obtain ⟨_, hassert, h⟩ := bind_eq_ok.mp h
  exact ⟨(alwaysAssert_eq_ok.mp hassert), (Except.ok.inj h).symm⟩

theorem assert_isOk {α : Type} {c : Prop} [Decidable c] {msg : String} {a : α} (h : c) :
    ∃ b, (do alwaysAssert c msg
             return a) = Except.ok (ε := Fault) b :=
  ⟨a, by rw [alwaysAssert_of_true h, ok_bind, pure_eq_ok]⟩

theorem tfsMove_of_register {box : BoxName} {p : RegisterPoint}
    (h : registerPublisherStep box p = .tfs call next) (hnext : next r = .ok k) :
    TfsMove (.registerPublisher box p) call r k := by
  cases p with
  | lockOps | rejectUnlockOps | unlockOps => cases h
  | openBox =>
      cases h
      cases hnext
      exact .openBox
  | openMeta fd =>
      cases h
      dsimp only at hnext
      split at hnext
      · rename_i hreject
        cases hnext
        exact .reject hreject
      · rename_i haccept
        obtain ⟨hfd, hmeta⟩ := not_or.mp haccept
        obtain rfl : r = -1 := not_not.mp hmeta
        cases hnext
        exact .accept hfd
  | rejectCloseBox =>
      cases h
      cases hnext
      exact .rejectCloseBox
  | rejectCloseMeta =>
      cases h
      cases hnext
      exact .rejectCloseMeta
  | rejectUnlinkMeta =>
      cases h
      cases hnext
      exact .rejectUnlinkMeta
  | createMeta =>
      cases h
      obtain ⟨hmeta, rfl⟩ := assert_eq_ok hnext
      exact .createMeta hmeta
  | closeMeta =>
      cases h
      obtain ⟨rfl, rfl⟩ := assert_eq_ok hnext
      exact .closeMeta
  | closeBox =>
      cases h
      cases hnext
      exact .closeBox
  | unlinkMeta =>
      cases h
      obtain ⟨rfl, rfl⟩ := assert_eq_ok hnext
      exact .unlinkMeta

theorem tfsMove_of_create {box : BoxName} {p : CreatePoint}
    (h : createBoxStep box p = .tfs call next) (hnext : next r = .ok k) :
    TfsMove (.createBox box p) call r k := by
  cases p with
  | lockOps | unlockOps => cases h
  | openBox =>
      cases h
      dsimp only at hnext
      split at hnext
      · rename_i hfd
        cases hnext
        exact .boxExists hfd
      · rename_i hfd
        obtain rfl : r = -1 := not_not.mp hfd
        cases hnext
        exact .boxAbsent
  | closeBox =>
      cases h
      cases hnext
      exact .closeExisting
  | createFile =>
      cases h
      dsimp only at hnext
      split at hnext
      · rename_i hfd
        subst hfd
        cases hnext
        exact .createFailed
      · rename_i hfd
        cases hnext
        exact .createFile hfd
  | closeFailed =>
      cases h
      cases hnext
      exact .closeFailed

theorem tfsMove_of_tfs (h : brokerStep p = .tfs call next) (hnext : next r = .ok k) :
    TfsMove p call r k := by
  cases p with
  | idle => cases h
  | registerPublisher box p => exact tfsMove_of_register h hnext
  | createBox box p => exact tfsMove_of_create h hnext
  | removeBox box p =>
      cases p with
      | lockOps | unlockOps => cases h
      | unlinkBox =>
          cases h
          obtain ⟨rfl, rfl⟩ := assert_eq_ok hnext
          exact .unlinkBox

/-- What a worker does by itself is a move. -/
theorem move_of_localStep (h : brokerProgram.LocalStep p x k x') : Move p x k x' := by
  unfold Program.LocalStep at h
  have hact : brokerProgram.act p = (brokerStep p).act := rfl
  rw [hact] at h
  cases hstep : brokerStep p with
  | idle =>
      rw [hstep] at h
      obtain ⟨hentry, rfl⟩ := h
      cases p with
      | idle reply => exact .quiet (.enter hentry)
      | registerPublisher box p => cases p <;> cases hstep
      | createBox box p => cases p <;> cases hstep
      | removeBox box p => cases p <;> cases hstep
  | lock k' =>
      rw [hstep] at h
      obtain ⟨rfl, rfl⟩ := h
      exact .quiet (lockMove_of_lock hstep)
  | unlock k' =>
      rw [hstep] at h
      obtain ⟨rfl, rfl⟩ := h
      exact .quiet (lockMove_of_unlock hstep)
  | tfs call next =>
      rw [hstep] at h
      dsimp only [BrokerStep.act] at h
      cases hcall : tfsCall x call with
      | error e =>
          rw [hcall] at h
          cases h
      | ok res =>
          obtain ⟨⟨r, bytes⟩, y⟩ := res
          rw [hcall] at h
          simp only [ok_bind] at h
          cases hnext : next r with
          | error e =>
              rw [hnext] at h
              cases h
          | ok k' =>
              rw [hnext] at h
              cases h
              exact .tfs (tfsMove_of_tfs hstep hnext) hcall

/-- The program points a worker may enter a handler at. -/
theorem brokerEntry_cases (h : brokerProgram.entry k) :
    (∃ box, k = .registerPublisher box .openBox) ∨ (∃ box, k = .createBox box .lockOps) ∨
      (∃ box, k = .removeBox box .lockOps) ∨ k = .idle none := by
  cases k with
  | idle reply =>
      cases reply with
      | none => exact .inr (.inr (.inr rfl))
      | some reply => cases h
  | registerPublisher box p =>
      cases p <;> cases h
      exact .inl ⟨box, rfl⟩
  | createBox box p =>
      cases p <;> cases h
      exact .inr (.inl ⟨box, rfl⟩)
  | removeBox box p =>
      cases p <;> cases h
      exact .inr (.inr (.inl ⟨box, rfl⟩))

end Moves

/-! ## Who holds `tfs_ops` -/

def RegisterPoint.held : RegisterPoint → Finset BrokerMutex
  | .openBox | .lockOps _ | .closeBox _ | .unlinkMeta => ∅
  | .openMeta _ | .rejectCloseBox _ _ | .rejectCloseMeta _ | .rejectUnlinkMeta | .rejectUnlockOps
  | .createMeta _ | .closeMeta _ _ | .unlockOps _ => {.tfsOps}

def CreatePoint.held : CreatePoint → Finset BrokerMutex
  | .lockOps => ∅
  | .openBox | .closeBox _ | .createFile | .closeFailed _ | .unlockOps _ => {.tfsOps}

def RemovePoint.held : RemovePoint → Finset BrokerMutex
  | .lockOps => ∅
  | .unlinkBox | .unlockOps => {.tfsOps}

/-- The mutexes that a worker at the point holds. -/
def BrokerPoint.held : BrokerPoint → Finset BrokerMutex
  | .idle _ => ∅
  | .registerPublisher _ p => p.held
  | .createBox _ p => p.held
  | .removeBox _ p => p.held

theorem brokerProgram_lockDiscipline : LockDiscipline brokerProgram BrokerPoint.held where
  init := rfl
  step := by
    intro p x k x' h
    cases move_of_localStep h with
    | quiet hmove =>
        cases hmove with
        | enter hentry =>
            rcases brokerEntry_cases hentry with ⟨box, rfl⟩ | ⟨box, rfl⟩ | ⟨box, rfl⟩ | rfl <;> rfl
        | register | create | remove | rejected | registered | created | removed => rfl
    | tfs hmove => cases hmove <;> rfl
  release := by
    intro p m h
    cases p with
    | idle => cases h
    | registerPublisher box p =>
        cases p <;> cases h <;> simp [BrokerPoint.held, RegisterPoint.held]
    | createBox box p =>
        cases p <;> cases h
        simp [BrokerPoint.held, CreatePoint.held]
    | removeBox box p =>
        cases p <;> cases h
        simp [BrokerPoint.held, RemovePoint.held]

/-! ## Handles -/

def RegisterPoint.handles : RegisterPoint → List Int
  | .openBox | .rejectUnlinkMeta | .rejectUnlockOps | .unlinkMeta => []
  | .lockOps fd | .openMeta fd | .createMeta fd | .unlockOps fd | .closeBox fd => [fd]
  | .rejectCloseBox fd metaFd | .closeMeta fd metaFd => [fd, metaFd]
  | .rejectCloseMeta metaFd => [metaFd]

/-- The handle of a new box is never closed: it is nobody's. -/
def CreatePoint.handles : CreatePoint → List Int
  | .closeBox fd | .closeFailed fd => [fd]
  | .lockOps | .openBox | .createFile | .unlockOps _ => []

/-- What a worker at the point has to close, failed opens included. -/
def BrokerPoint.handles : BrokerPoint → List Int
  | .registerPublisher _ p => p.handles
  | .createBox _ p => p.handles
  | .idle _ | .removeBox _ _ => []

section Handles

variable {p k : BrokerPoint} {x x' : Tfs} {m : CString} {mode : Nat} {r fhandle : Int}
  {uses uses' : Nat → Nat}

theorem LockMove.handles (hmove : LockMove p k) : k.handles = p.handles := by
  cases hmove with
  | enter hentry =>
      rcases brokerEntry_cases hentry with ⟨box, rfl⟩ | ⟨box, rfl⟩ | ⟨box, rfl⟩ | rfl <;> rfl
  | register | create | remove | rejected | registered | created | removed => rfl

theorem TfsMove.open_handles (hmove : TfsMove p (.open m mode) r k) (h : Nat) :
    k.handles.count (h : Int) ≤ p.handles.count (h : Int) + if r = h then 1 else 0 := by
  cases hmove <;>
    simp only [BrokerPoint.handles, RegisterPoint.handles, CreatePoint.handles, List.count_cons,
      List.count_nil, beq_iff_eq] <;>
    omega

theorem TfsMove.close_handles (hmove : TfsMove p (.close fhandle) r k) (h : Nat) :
    k.handles.count (h : Int) + (if fhandle = h then 1 else 0) = p.handles.count (h : Int) := by
  cases hmove with
  | closeMeta =>
      simp only [BrokerPoint.handles, RegisterPoint.handles, List.count_cons, List.count_nil,
        beq_iff_eq]
      omega
  | _ =>
      simp only [BrokerPoint.handles, RegisterPoint.handles, CreatePoint.handles, List.count_cons,
        List.count_nil, beq_iff_eq]

theorem TfsMove.unlink_handles (hmove : TfsMove p (.unlink m) r k) : k.handles = p.handles := by
  cases hmove <;> rfl

/-- What is used is open, and by one worker in one place. -/
structure HandlesUsed (x : Tfs) (uses : Nat → Nat) : Prop where
  opened : ∀ h, 0 < uses h → x.Open h
  once : ∀ h, uses h ≤ 1

/-- The new handle was closed, so nobody used it. -/
theorem HandlesUsed.open (hu : HandlesUsed x uses) (ho : OpenResult x m mode r x')
    (hle : ∀ h : Nat, uses' h ≤ uses h + if r = h then 1 else 0) : HandlesUsed x' uses' := by
  rcases ho.handles with ⟨rfl, hopen⟩ | ⟨h₀, rfl, hclosed, hopen⟩
  · have hle' : ∀ h, uses' h ≤ uses h := by
      intro h
      have hh := hle h
      rw [if_neg (by omega)] at hh
      exact hh
    constructor
    · intro h hpos
      exact (hopen h).mpr (hu.opened h (by have := hle' h; omega))
    · exact fun h => (hle' h).trans (hu.once h)
  · have hnone : uses h₀ = 0 := by
      by_contra hpos
      exact hclosed (hu.opened h₀ (by omega))
    have hcases : ∀ h, h = h₀ ∧ uses' h ≤ 1 ∨ h ≠ h₀ ∧ uses' h ≤ uses h := by
      intro h
      have hh := hle h
      by_cases heq : h = h₀
      · subst heq
        rw [if_pos rfl, hnone] at hh
        exact .inl ⟨rfl, hh⟩
      · rw [if_neg (by omega)] at hh
        exact .inr ⟨heq, hh⟩
    constructor
    · intro h hpos
      rw [hopen h]
      rcases hcases h with ⟨rfl, -⟩ | ⟨-, hh⟩
      · exact .inl rfl
      · exact .inr (hu.opened h (by omega))
    · intro h
      rcases hcases h with ⟨-, hh⟩ | ⟨-, hh⟩
      · exact hh
      · exact hh.trans (hu.once h)

theorem HandlesUsed.close (hu : HandlesUsed x uses) (hinv : Inv x)
    (hc : tfsClose fhandle x = .ok (r, x'))
    (heq : ∀ h : Nat, uses' h + (if fhandle = h then 1 else 0) = uses h) :
    HandlesUsed x' uses' := by
  constructor
  · intro h hpos
    have hh := heq h
    have honce := hu.once h
    rw [hinv.close_handles hc h]
    refine ⟨hu.opened h (by omega), ?_⟩
    intro hfd
    rw [if_pos hfd] at hh
    omega
  · intro h
    have hh := heq h
    have honce := hu.once h
    omega

theorem HandlesUsed.unlink (hu : HandlesUsed x uses) (hinv : Inv x)
    (hc : tfsUnlink m x = .ok (r, x')) : HandlesUsed x' uses := by
  constructor
  · intro h hpos
    exact (hinv.unlink_handles hc h).mpr (hu.opened h hpos)
  · exact hu.once

end Handles

/-! ## What holds in all runs -/

/-- What a worker at the point has learned from the calls before it. -/
def BrokerPoint.Sound : BrokerPoint → Prop
  | .registerPublisher box (.lockOps fd) | .registerPublisher box (.openMeta fd) =>
      fd ≠ -1 → validPathname box.name
  | .registerPublisher box (.createMeta _) => validPathname box.name
  | .registerPublisher _ (.closeMeta _ metaFd) => 0 ≤ metaFd
  | _ => True

theorem Move.updates {p k : BrokerPoint} {x x' : Tfs} (hmove : Move p x k x') (hinv : Inv x) :
    Relation.ReflTransGen Update x x' := by
  cases hmove with
  | quiet => exact .refl
  | tfs _ hcall => exact hinv.tfsCall_updates hcall

theorem Move.inv {p k : BrokerPoint} {x x' : Tfs} (hmove : Move p x k x') (hinv : Inv x) :
    Inv x' :=
  hinv.updates (hmove.updates hinv)

theorem Move.sound {p k : BrokerPoint} {x x' : Tfs} (hmove : Move p x k x') (hinv : Inv x)
    (hp : p.Sound) : k.Sound := by
  cases hmove with
  | quiet hmove =>
      cases hmove with
      | enter hentry =>
          rcases brokerEntry_cases hentry with ⟨box, rfl⟩ | ⟨box, rfl⟩ | ⟨box, rfl⟩ | rfl <;>
            trivial
      | register => exact hp
      | create | remove | rejected | registered | created | removed => trivial
  | tfs hmove hcall =>
      cases hmove with
      | openBox =>
          intro hfd
          exact (hinv.tfsOpen_ok (tfsCall_open.mp hcall).1).valid hfd
      | accept hfd => exact hp hfd
      | createMeta hmeta =>
          rcases (hinv.tfsOpen_ok (tfsCall_open.mp hcall).1).handles with ⟨hr, -⟩ | ⟨h, hr, -⟩
          · exact absurd hr hmeta
          · exact hr ▸ Int.natCast_nonneg h
      | _ => trivial

section Runs

variable {T : Type*} [Fintype T] [DecidableEq T] {s s' : BrokerState T} {t : T}
  {e : Event T BrokerPoint} {guard : BrokerState T → Event T BrokerPoint → Prop}

/-- The number of times the workers use a handle. -/
def handleUses (s : BrokerState T) (h : Nat) : Nat :=
  s.tally fun p => p.handles.count (h : Int)

structure Healthy (s : BrokerState T) : Prop where
  inv : Inv s.shared
  sized : Sized tfsDefaultParams s.shared
  handles : HandlesUsed s.shared (handleUses s)
  sound : ∀ t, (s.pc t).Sound

/-- A step of the machine is a move of its worker. -/
theorem move_of_step (h : (brokerMachine T).step s e = some s') :
    ∃ k x', Move (s.pc e.thread) s.shared k x' ∧ s'.shared = x' ∧
      s'.pc = Function.update s.pc e.thread k := by
  cases step_cases h with
  | own hlocal => exact ⟨_, _, move_of_localStep hlocal, rfl, rfl⟩
  | @signal c => exact c.elim

theorem tfsDefaultParams_inRange : tfsDefaultParams.InRange := by
  constructor <;> decide

theorem Healthy.start (h : (brokerMachine T).start s) : Healthy s := by
  obtain ⟨⟨m, hinit⟩, -, hpc⟩ := h
  have hstart : TfsStart tfsDefaultParams m s.shared := hinit
  refine ⟨hstart.emptyRoot.1.inv, hstart.sized tfsDefaultParams_inRange, ?_, ?_⟩
  · have hnone : ∀ h, handleUses s h = 0 := by
      intro h
      unfold handleUses State.tally
      apply Finset.sum_eq_zero
      intro t _
      rw [hpc t]
      rfl
    constructor
    · intro h hpos
      rw [hnone h] at hpos
      cases hpos
    · intro h
      rw [hnone h]
      exact Nat.zero_le 1
  · intro t
    rw [hpc t]
    trivial

/-- A move of a worker changes the uses of the handles as it changes the
handles. -/
theorem HandlesUsed.move {p k : BrokerPoint} {x x' : Tfs} {uses uses' : Nat → Nat}
    (hu : HandlesUsed x uses) (hinv : Inv x) (hmove : Move p x k x')
    (huses : ∀ n : Nat, uses' n + p.handles.count (n : Int) =
      uses n + k.handles.count (n : Int)) : HandlesUsed x' uses' := by
  have hsame : k.handles = p.handles → uses' = uses := by
    intro heq
    funext n
    have hn := huses n
    rw [heq] at hn
    omega
  cases hmove with
  | quiet hmove =>
      rw [hsame hmove.handles]
      exact hu
  | tfs hmove hcall =>
      rename_i call _ _
      cases call with
      | «open» m mode =>
          refine hu.open (hinv.tfsOpen_ok (tfsCall_open.mp hcall).1) ?_
          intro n
          have hle := hmove.open_handles n
          have hn := huses n
          omega
      | close fhandle =>
          refine hu.close hinv (tfsCall_close.mp hcall).1 ?_
          intro n
          have heq := hmove.close_handles n
          have hn := huses n
          omega
      | unlink m =>
          rw [hsame hmove.unlink_handles]
          exact hu.unlink hinv (tfsCall_unlink.mp hcall).1
      | write | read => exact hmove.noData.elim

theorem Healthy.step (h : Healthy s) (hs : (brokerMachine T).step s e = some s') :
    Healthy s' := by
  obtain ⟨k, x', hmove, rfl, hpc⟩ := move_of_step hs
  constructor
  case inv => exact hmove.inv h.inv
  case sized => exact h.sized.updates h.inv (hmove.updates h.inv)
  case handles =>
    apply h.handles.move h.inv hmove
    intro n
    unfold handleUses State.tally
    rw [hpc]
    exact tally_update (fun p => p.handles.count (n : Int)) s.pc e.thread k
  case sound =>
    intro u
    rw [hpc]
    by_cases hu : u = e.thread
    · rw [hu, Function.update_self]
      exact hmove.sound h.inv (h.sound _)
    · rw [Function.update_of_ne hu]
      exact h.sound u

/-- **The handlers use the file system as it is meant to be used.** -/
theorem broker_healthy (h : (brokerMachine T).ReachableBy guard s) : Healthy s := by
  refine h.invariant ?_ ?_
  · exact fun s hs => Healthy.start hs
  · exact fun s e s' hs _ hstep => hs.step hstep

omit [DecidableEq T] in
/-- **No call of a handler faults inside the file system.** -/
theorem Healthy.call_returns {p : BrokerPoint} {call : TfsCall}
    {next : Int → Except Fault BrokerPoint} (h : Healthy s)
    (hstep : brokerStep p = .tfs call next) : ∃ r x, tfsCall s.shared call = .ok ((r, []), x) := by
  have hdata := noData_of_tfs hstep
  cases call with
  | «open» m mode =>
      obtain ⟨r, x, hr⟩ := h.inv.tfsOpen_returns h.sized tfsDefaultParams_inRange m mode
      exact ⟨r, x, tfsCall_open.mpr ⟨hr, rfl⟩⟩
  | close fhandle => exact ⟨_, _, tfsCall_close.mpr ⟨h.inv.base.tfsClose_eq fhandle, rfl⟩⟩
  | unlink m =>
      obtain ⟨r, x, hr⟩ := h.inv.tfsUnlink_returns m
      exact ⟨r, x, tfsCall_unlink.mpr ⟨hr, rfl⟩⟩
  | write | read => exact hdata.elim

theorem broker_owned (h : (brokerMachine T).ReachableBy guard s) : Owned BrokerPoint.held s :=
  brokerProgram_lockDiscipline.owned h.reachable

end Runs

end MBroker
