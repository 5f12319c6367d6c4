import MBroker.Broker.Creation
import MBroker.Protocol.Protocols

/-!
# The manager's create (manager/manager.c)

`create_box` of the manager sends a request, waits for the response and
prints what came of it; `create_box` of the broker is in `Requests`. Here
the two are joined by the bytes they exchange.

The manager takes a `return_code` of 0 for success. The broker sets it to
`REMOVE_BOX_RESPONSE` before it does anything, and never again: to the
manager every request fails.
-/

namespace MBroker

open Tfs

/-! ## The broker's side -/

/-- What the handler of a dequeued message writes to the client's pipe. A
code with no handler is skipped. -/
def parseRequestObj (opcode : UInt8) (protocol : List UInt8) (s : Tfs) :
    Except Fault (List UInt8 × Tfs) :=
  match Code.ofByte opcode with
  | some .registerPublisher => do
    let box ← requestBox protocol
    let s ← registerPublisher box s
    return ([], s)
  | some .createBoxRequest => do
    let box ← requestBox protocol
    let (reply, s) ← createBox box s
    let bytes ← sendProtoString (UInt8.ofNat reply.opcode) (boxResponseProto reply.response)
    return (bytes, s)
  | some .removeBoxRequest => do
    let box ← requestBox protocol
    let s ← removeBox box s
    return ([], s)
  | _ => return ([], s)

/-! ## The manager's side -/

/-- What the manager's `create_box` returns and prints. -/
structure ManagerResult where
  returned : Int
  stdout : String
  stderr : List UInt8
deriving DecidableEq

/-- The manager's `create_box` after its request is sent, with the bytes in
its own pipe, which it then removes. -/
def managerCreateBox (rx : List UInt8) : Except Fault (ManagerResult × List UInt8) := do
  let (opcode, rx) := pipeRead rx 1
  alwaysAssert (opcode.length = 1) "Invalid read size"
  let (response, rx) ← parseProtocol rx (opcode.getD 0 0)
  -- If there was an error in the mbroker, print it
  if responseReturnCode response ≠ 0 then
    return (⟨-1, "", responseErrorMsg response⟩, rx)
  else
    return (⟨0, "OK\n", []⟩, rx)

/-- A create from the manager's call to its return: the result, what is left
in the manager's pipe, and the broker's state. -/
def createExchange (clientPipeName boxName : CString) (mem : Nat → UInt8) (s : Tfs) :
    Except Fault (ManagerResult × List UInt8 × Tfs) := do
  let request := structBytes sizeofRequestProto (requestProto clientPipeName boxName mem)
  let wx ← sendProtoString Code.createBoxRequest.byte request
  -- the turn of the main loop that finds the request, and the worker that dequeues it
  let (protCode, wx) := pipeRead wx 1
  let (protocol, _) ← parseProtocol wx (protCode.getD 0 0)
  let (rx, s) ← parseRequestObj (protCode.getD 0 0) protocol s
  let (result, rx) ← managerCreateBox rx
  return (result, rx, s)

section Exchange

variable {s t : Tfs} {path name : CString} {box : BoxName} {reply : Reply}
  {response : BoxResponse}

/-- A response whose message fits and whose code is an `int`. -/
structure BoxResponse.Fits (response : BoxResponse) : Prop where
  lo : -2147483648 ≤ response.returnCode
  hi : response.returnCode < 2147483648
  noNul : 0 ∉ textBytes response.errorMsg
  short : (textBytes response.errorMsg).length < msgSize

theorem responseReturnCode_proto (h : response.Fits) :
    responseReturnCode (boxResponseProto response) = response.returnCode := by
  rw [← intOfBytes_intByte h.lo h.hi]
  rfl

theorem responseErrorMsg_proto (h : response.Fits) :
    responseErrorMsg (boxResponseProto response) = textBytes response.errorMsg := by
  rw [responseErrorMsg, boxResponseProto,
    List.drop_left' (by rw [List.length_map, List.length_range])]
  exact arrayString_charArray _ h.noNul h.short

/-- What the manager makes of a response. -/
def managerResult (response : BoxResponse) : ManagerResult :=
  if response.returnCode ≠ 0 then ⟨-1, "", textBytes response.errorMsg⟩ else ⟨0, "OK\n", []⟩

/-- The manager reads the whole response, under either of the two opcodes
of its size. -/
theorem managerCreateBox_eq {opcode : UInt8} (hopcode : protoSize opcode = .ok sizeofResponseProto)
    (h : response.Fits) :
    managerCreateBox (opcode :: boxResponseProto response) = .ok (managerResult response, []) := by
  have hlen := boxResponseProto_length response
  have hparse : parseProtocol (boxResponseProto response) opcode =
      .ok (boxResponseProto response, []) := by
    have happend := parseProtocol_append (hopcode.trans (congrArg _ hlen.symm)) []
    rw [List.append_nil] at happend
    exact happend
  have hread : pipeRead (opcode :: boxResponseProto response) 1 =
      ([opcode], boxResponseProto response) := rfl
  rw [managerCreateBox, hread]
  dsimp only
  rw [alwaysAssert_of_true List.length_singleton, ok_bind, List.getD_cons_zero, hparse, ok_bind]
  dsimp only
  rw [responseReturnCode_proto h, responseErrorMsg_proto h, managerResult]
  split <;> rfl

/-- Every reply of `create_box` is one of three. -/
theorem CreateResult.reply_eq (h : CreateResult s box reply t) :
    reply = boxReply errBoxAlreadyExists ∨ reply = boxReply errBoxCreation ∨
      reply = boxReply "" := by
  cases h with
  | alreadyExists => exact .inl rfl
  | truncated | failed => exact .inr (.inl rfl)
  | created => exact .inr (.inr rfl)

theorem CreateResult.returnCode (h : CreateResult s box reply t) :
    reply.response.returnCode = removeBoxResponse := by
  rcases h.reply_eq with rfl | rfl | rfl <;> rfl

theorem CreateResult.opcode (h : CreateResult s box reply t) :
    reply.opcode = removeBoxResponse := by
  rcases h.reply_eq with rfl | rfl | rfl <;> rfl

theorem CreateResult.fits (h : CreateResult s box reply t) : reply.response.Fits := by
  have hfits : ∀ errorMsg : String, 0 ∉ textBytes errorMsg ∧
      (textBytes errorMsg).length < msgSize → (boxReply errorMsg).response.Fits := by
    intro errorMsg hmsg
    have hcode : (boxReply errorMsg).response.returnCode = 6 := rfl
    exact ⟨by omega, by omega, hmsg.1, hmsg.2⟩
  rcases h.reply_eq with rfl | rfl | rfl
  · exact hfits _ (by decide)
  · exact hfits _ (by decide)
  · exact hfits _ (by decide)

/-- The broker gets the request, and the manager gets the reply. -/
theorem createExchange_eq (hpath : path.chars.length < npipePathSize) (mem : Nat → UInt8)
    (hinv : Inv s) (hc : createBox box s = .ok (reply, t)) :
    createExchange path box.name mem s = .ok (managerResult reply.response, [], t) := by
  have hbox := requestBox_requestProto hpath box mem
  have hlen := structBytes_length sizeofRequestProto (requestProto path box.name mem)
  obtain ⟨request, hrequest⟩ : ∃ request,
    structBytes sizeofRequestProto (requestProto path box.name mem) = request := ⟨_, rfl⟩
  rw [hrequest] at hbox hlen
  have hresult := hinv.createBox_cases hc
  have hsize : protoSize Code.createBoxRequest.byte = .ok request.length := by
    rw [hlen]
    rfl
  have hparse : parseProtocol request Code.createBoxRequest.byte = .ok (request, []) := by
    have happend := parseProtocol_append hsize []
    rw [List.append_nil] at happend
    exact happend
  -- the opcode of the reply is that of a removal, whose struct has the same size
  have hserve : parseRequestObj Code.createBoxRequest.byte request s =
      .ok (6 :: boxResponseProto reply.response, t) := by
    have hsend : protoSize 6 = .ok (boxResponseProto reply.response).length := by
      rw [boxResponseProto_length]
      rfl
    show (do
      let box ← requestBox request
      let (reply, s) ← createBox box s
      let bytes ← sendProtoString (UInt8.ofNat reply.opcode) (boxResponseProto reply.response)
      return (bytes, s)) = _
    rw [hbox, ok_bind, hc, ok_bind]
    dsimp only
    rw [hresult.opcode, show UInt8.ofNat removeBoxResponse = 6 from rfl, sendProtoString_eq hsend]
    rfl
  rw [createExchange]
  dsimp only
  rw [hrequest, sendProtoString_eq hsize, ok_bind]
  have hread : pipeRead (Code.createBoxRequest.byte :: request) 1 =
      ([Code.createBoxRequest.byte], request) := rfl
  rw [hread]
  dsimp only
  rw [List.getD_cons_zero]
  rw [hparse, ok_bind]
  dsimp only
  rw [hserve, ok_bind]
  dsimp only
  rw [managerCreateBox_eq rfl hresult.fits]
  rfl

end Exchange

/-! ## The outcome -/

/-- A box that was not there is there. -/
def Created (s t : Tfs) (name : CString) : Prop :=
  s.resolve name = none ∧ (t.resolve name).isSome

instance (s t : Tfs) (name : CString) : Decidable (Created s t name) :=
  inferInstanceAs (Decidable (_ ∧ _))

/-- The broker sends one response, with a code that says whether it created
the box, and the manager prints and returns accordingly. -/
def CreateAgrees (path name : CString) (mem : Nat → UInt8) (s : Tfs) : Prop :=
  ∃ box reply t result, box.name = name ∧ createBox box s = .ok (reply, t) ∧
    createExchange path name mem s = .ok (result, [], t) ∧
    (reply.response.returnCode = 0 ↔ Created s t name) ∧
    (¬ Created s t name → reply.response.returnCode < 0) ∧
    (result.returned = 0 ∧ result.stdout = "OK\n" ↔ Created s t name)

variable {s : Tfs}

/-- **The manager and the broker** agree on no create: the manager returns
-1 and prints no `OK`, whatever the broker has done. -/
theorem reachable_not_createAgrees (hr : brokerTfs.Reachable s) (path name : CString)
    (mem : Nat → UInt8) :
    ¬ CreateAgrees path name mem s ∧
    (path.chars.length < npipePathSize → name.chars.length < boxNameSize →
      ∃ result t, createExchange path name mem s = .ok (result, [], t) ∧
        result.returned = -1 ∧ result.stdout = "") := by
  obtain ⟨hreach, hsized⟩ := brokerTfs_sized hr
  have hinv := reachable_inv hreach
  constructor
  · rintro ⟨box, reply, t, result, -, hc, -, hzero, hnegative, -⟩
    have hcode := (hinv.createBox_cases hc).returnCode
    unfold removeBoxResponse at hcode
    -- 6 is neither 0 nor negative
    by_cases hcreated : Created s t name
    · have := hzero.mpr hcreated
      omega
    · have := hnegative hcreated
      omega
  · intro hpath hname
    obtain ⟨reply, t, hc⟩ := hinv.createBox_returns hsized ⟨name, hname⟩
    have hcode := (hinv.createBox_cases hc).returnCode
    have hresult : managerResult reply.response = ⟨-1, "", textBytes reply.response.errorMsg⟩ := by
      refine if_pos ?_
      rw [hcode]
      decide
    have hexchange := createExchange_eq hpath mem hinv hc
    dsimp only at hexchange
    rw [hresult] at hexchange
    exact ⟨_, t, hexchange, rfl, rfl⟩

/-- The path `p`. -/
def pipeP : CString := ⟨[112], by decide⟩

/-- A create of the box `/a` in an empty file system: what the manager makes
of it, what is left in its pipe, and whether the box was created. -/
theorem createdExchange_result :
    (brokerTfsRun []).map (fun s =>
      (createExchange pipeP boxA.name (fun _ => 255) s).map fun p =>
        (p.1, p.2.1, decide (Created s p.2.2 boxA.name))) =
    some (.ok (⟨-1, "", []⟩, [], true)) := by
  decide +kernel

theorem createdExchange_fails :
    ∃ s, brokerTfs.Reachable s ∧ ¬ CreateAgrees pipeP boxA.name (fun _ => 255) s ∧
      ∃ result t, createExchange pipeP boxA.name (fun _ => 255) s = .ok (result, [], t) ∧
        result.returned = -1 ∧ result.stdout = "" := by
  obtain ⟨s, hrun, -⟩ := Option.map_eq_some_iff.mp createdExchange_result
  have hreach := brokerTfsRun_reachable hrun
  obtain ⟨hnot, hexchange⟩ := reachable_not_createAgrees hreach pipeP boxA.name fun _ => 255
  exact ⟨s, hreach, hnot, hexchange (by decide) boxA.fits⟩

/-- The box is created and the manager fails without a word. -/
theorem createdExchange_not_createAgrees :
    ∃ s, brokerTfs.Reachable s ∧
      (∃ result t, createExchange pipeP boxA.name (fun _ => 255) s = .ok (result, [], t) ∧
        Created s t boxA.name ∧ result = ⟨-1, "", []⟩) ∧
      ¬ CreateAgrees pipeP boxA.name (fun _ => 255) s := by
  obtain ⟨s, hrun, hobs⟩ := Option.map_eq_some_iff.mp createdExchange_result
  obtain ⟨⟨result, left, t⟩, hexchange, hresult⟩ := map_eq_ok.mp hobs
  obtain ⟨rfl, hleft⟩ := Prod.mk.inj hresult
  obtain ⟨rfl, hcreated⟩ := Prod.mk.inj hleft
  have hcreated := of_decide_eq_true hcreated
  refine ⟨s, brokerTfsRun_reachable hrun, ⟨_, t, hexchange, hcreated, rfl⟩, ?_⟩
  rintro ⟨_, _, t', result, _, _, hexchange', _, _, hmanager⟩
  rw [hexchange] at hexchange'
  obtain ⟨hresult, hleft⟩ := ok_pair_inj hexchange'
  obtain ⟨-, ht⟩ := Prod.mk.inj hleft
  rw [← ht] at hmanager
  have hreturned := (hmanager.mpr hcreated).1
  rw [← hresult] at hreturned
  revert hreturned
  decide

end MBroker
