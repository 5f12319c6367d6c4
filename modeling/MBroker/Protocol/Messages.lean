import MBroker.Protocol.Protocols

/-!
# The messages (protocol/protocols.c)

Five constructors fill the structs of the ten protocol codes. A struct that
is sent whole comes back as it was, for every code that `proto_size` knows;
it has no case for the two codes whose struct is a plain message.

All but one of the constructors get their struct from `malloc` and write
their strings with `strcpy`: what the memory held behind a string's NUL
goes down the pipe with the rest.
-/

namespace MBroker

/-! ## Constructors -/

/-- Creates a protocol for a response. -/
def responseProto (returnCode : Int32) (errorMessage : CString) (mem : Nat → UInt8) :
    Nat → UInt8 :=
  strcpy 4 errorMessage (storeBytes 0 ((List.range 4).map (intByte returnCode.toInt)) mem)

/-- Creates a protocol string to request a list of boxes, in a struct that
`calloc` has zeroed. -/
def listBoxesRequestProto (clientNamedPipePath : CString) : Nat → UInt8 :=
  strcpy 0 clientNamedPipePath fun _ => 0

/-- Creates a protocol string to respond to a list of boxes request. -/
def listBoxesResponseProto (last : UInt8) (boxName : CString)
    (boxSize nPublishers nSubscribers : UInt64) (mem : Nat → UInt8) : Nat → UInt8 :=
  let mem := storeBytes 0 [last] mem
  let mem := storeBytes (1 + boxNameSize) (leBytes 8 boxSize.toNat) mem
  let mem := storeBytes (1 + boxNameSize + 8) (leBytes 8 nPublishers.toNat) mem
  let mem := storeBytes (1 + boxNameSize + 8 + 8) (leBytes 8 nSubscribers.toNat) mem
  strcpy 1 boxName mem

/-- Creates a protocol string that the publisher and the subscriber use. -/
def messageProto (message : CString) (mem : Nat → UInt8) : Nat → UInt8 :=
  strcpy 0 message mem

/-- The packed structs; several codes share one. -/
inductive ProtoStruct
  | requestProto
  | responseProto
  | listBoxesRequestProto
  | listBoxesResponseProto
  | basicMsgProto
deriving DecidableEq

def ProtoStruct.size : ProtoStruct → Nat
  | requestProto => sizeofRequestProto
  | responseProto => sizeofResponseProto
  | listBoxesRequestProto => sizeofListBoxesRequestProto
  | listBoxesResponseProto => sizeofListBoxesResponseProto
  | basicMsgProto => msgSize

/-- The struct of a code: `register_pub_proto_t` and the like. -/
def Code.struct : Code → ProtoStruct
  | .registerPublisher | .registerSubscriber | .createBoxRequest | .removeBoxRequest =>
    .requestProto
  | .createBoxResponse | .removeBoxResponse => .responseProto
  | .listBoxesRequest => .listBoxesRequestProto
  | .listBoxesResponse => .listBoxesResponseProto
  | .publisherMessage | .subscriberMessage => .basicMsgProto

/-- The arguments of a constructor, which are the fields of its struct. -/
inductive ProtoFields
  | request (clientNamedPipePath boxName : CString)
  | response (returnCode : Int32) (errorMessage : CString)
  | listBoxesRequest (clientNamedPipePath : CString)
  | listBoxesResponse (last : UInt8) (boxName : CString)
      (boxSize nPublishers nSubscribers : UInt64)
  | message (message : CString)
deriving DecidableEq

namespace ProtoFields

def struct : ProtoFields → ProtoStruct
  | request .. => .requestProto
  | response .. => .responseProto
  | listBoxesRequest .. => .listBoxesRequestProto
  | listBoxesResponse .. => .listBoxesResponseProto
  | message .. => .basicMsgProto

/-- The struct that the constructor makes of its arguments, in memory that
held `mem`. -/
def construct (fields : ProtoFields) (mem : Nat → UInt8) : List UInt8 :=
  structBytes fields.struct.size <| match fields with
    | request path boxName => MBroker.requestProto path boxName mem
    | response returnCode errorMessage => MBroker.responseProto returnCode errorMessage mem
    | listBoxesRequest path => MBroker.listBoxesRequestProto path
    | listBoxesResponse last boxName boxSize nPublishers nSubscribers =>
      MBroker.listBoxesResponseProto last boxName boxSize nPublishers nSubscribers mem
    | message msg => messageProto msg mem

/-- Every string is shorter than its field. -/
def Fits : ProtoFields → Prop
  | request path boxName =>
    path.chars.length < npipePathSize ∧ boxName.chars.length < boxNameSize
  | response _ errorMessage => errorMessage.chars.length < msgSize
  | listBoxesRequest path => path.chars.length < npipePathSize
  | listBoxesResponse _ boxName .. => boxName.chars.length < boxNameSize
  | message msg => msg.chars.length < msgSize

instance : DecidablePred Fits
  | request .. => inferInstanceAs (Decidable (_ ∧ _))
  | response _ errorMessage => inferInstanceAs (Decidable (errorMessage.chars.length < msgSize))
  | listBoxesRequest path => inferInstanceAs (Decidable (path.chars.length < npipePathSize))
  | listBoxesResponse _ boxName .. =>
    inferInstanceAs (Decidable (boxName.chars.length < boxNameSize))
  | message msg => inferInstanceAs (Decidable (msg.chars.length < msgSize))

/-- Every string leaves room for its NUL only, or the struct was zeroed. -/
def Filled : ProtoFields → Prop
  | request path boxName =>
    path.chars.length + 1 = npipePathSize ∧ boxName.chars.length + 1 = boxNameSize
  | response _ errorMessage => errorMessage.chars.length + 1 = msgSize
  | listBoxesRequest _ => True
  | listBoxesResponse _ boxName .. => boxName.chars.length + 1 = boxNameSize
  | message msg => msg.chars.length + 1 = msgSize

end ProtoFields

/-! ## Receiving -/

/-- Reads an opcode from an open named pipe: the opcode, and what is left in
the pipe. -/
def recvOpcode (rx : List UInt8) : Except Fault (UInt8 × List UInt8) := do
  let (opcode, rx) := pipeRead rx 1
  alwaysAssert (opcode.length = 1) "Failed to read opcode"
  alwaysAssert (opcode.getD 0 0 ≠ 0) "Failed to convert opcode"
  return (opcode.getD 0 0, rx)

/-- The string that starts at offset `a` of a struct and ends inside it. -/
def stringAt (a : Nat) (proto : List UInt8) : Except Fault CString :=
  if 0 ∈ proto.drop a then return ⟨arrayString (proto.drop a), arrayString_noNul _⟩
  else .error .outOfBounds

/-- The `uint64_t` at offset `a` of a struct. -/
def u64At (a : Nat) (proto : List UInt8) : UInt64 :=
  UInt64.ofNat (leValue ((proto.drop a).take 8))

/-- The fields of a struct, as its receiver reads them. -/
def ProtoStruct.fields (struct : ProtoStruct) (proto : List UInt8) : Except Fault ProtoFields :=
  match struct with
  | .requestProto => return .request (← stringAt 0 proto) (← stringAt npipePathSize proto)
  | .responseProto =>
    return .response (Int32.ofInt (responseReturnCode proto)) (← stringAt 4 proto)
  | .listBoxesRequestProto => return .listBoxesRequest (← stringAt 0 proto)
  | .listBoxesResponseProto =>
    return .listBoxesResponse (proto.getD 0 0) (← stringAt 1 proto)
      (u64At (1 + boxNameSize) proto) (u64At (1 + boxNameSize + 8) proto)
      (u64At (1 + boxNameSize + 8 + 8) proto)
  | .basicMsgProto => return .message (← stringAt 0 proto)

/-- A message that is sent in front of `rest` is received as it was, and
`rest` is left. -/
def RoundTrips (code : Code) (fields : ProtoFields) (mem : Nat → UInt8) (rest : List UInt8) :
    Prop :=
  ∃ wx rx proto, sendProtoString code.byte (fields.construct mem) = .ok wx ∧
    recvOpcode (wx ++ rest) = .ok (code.byte, rx) ∧
    parseProtocol rx code.byte = .ok (proto, rest) ∧ code.struct.fields proto = .ok fields

/-- Whatever the memory held, the struct is the same. -/
def LeaksNothing (fields : ProtoFields) : Prop :=
  ∀ mem mem', fields.construct mem = fields.construct mem'

/-! ## The bytes of the structs -/

section Layout

variable {str : CString} {a n : Nat}

theorem construct_length (fields : ProtoFields) (mem : Nat → UInt8) :
    (fields.construct mem).length = fields.struct.size :=
  structBytes_length ..

theorem responseProto_eq (returnCode : Int32) (errorMessage : CString) (mem : Nat → UInt8) :
    structBytes sizeofResponseProto (responseProto returnCode errorMessage mem) =
      (List.range 4).map (intByte returnCode.toInt) ++
        charArray msgSize errorMessage.chars fun j => mem (4 + j) := by
  have hmem : (charArray msgSize errorMessage.chars fun j =>
      storeBytes 0 ((List.range 4).map (intByte returnCode.toInt)) mem (4 + j)) =
      charArray msgSize errorMessage.chars fun j => mem (4 + j) := by
    refine charArray_congr fun j _ => ?_
    rw [storeBytes, if_neg (by simp)]
  rw [sizeofResponseProto, structBytes_add, responseProto, fieldBytes_strcpy, hmem,
    ← fieldBytes_zero, fieldBytes_strcpy_of_disjoint (.inr (by omega)),
    fieldBytes_storeBytes (by simp)]

theorem listBoxesRequestProto_eq (path : CString) :
    structBytes sizeofListBoxesRequestProto (listBoxesRequestProto path) =
      charArray npipePathSize path.chars fun _ => 0 := by
  rw [← fieldBytes_zero, listBoxesRequestProto, fieldBytes_strcpy, sizeofListBoxesRequestProto]

theorem messageProto_eq (msg : CString) (mem : Nat → UInt8) :
    structBytes msgSize (messageProto msg mem) = charArray msgSize msg.chars mem := by
  rw [← fieldBytes_zero, messageProto, fieldBytes_strcpy]
  simp only [Nat.zero_add]

theorem listBoxesResponseProto_eq (last : UInt8) (hname : str.chars.length < boxNameSize)
    (boxSize nPublishers nSubscribers : UInt64) (mem : Nat → UInt8) :
    structBytes sizeofListBoxesResponseProto
        (listBoxesResponseProto last str boxSize nPublishers nSubscribers mem) =
      [last] ++ (charArray boxNameSize str.chars fun j => mem (1 + j)) ++
        leBytes 8 boxSize.toNat ++ leBytes 8 nPublishers.toNat ++ leBytes 8 nSubscribers.toNat := by
  unfold boxNameSize at hname
  unfold sizeofListBoxesResponseProto listBoxesResponseProto boxNameSize
  dsimp only
  -- the string ends before the counters, and the stores are side by side
  have hafter : ∀ {a n : Nat} (mem' : Nat → UInt8), 33 ≤ a →
      fieldBytes a n (strcpy 1 str mem') = fieldBytes a n mem' := by
    intro a n mem' ha
    exact fieldBytes_strcpy_of_disjoint (.inl (by omega))
  have hfield : ∀ mem' : Nat → UInt8, (∀ j < 32, mem' (1 + j) = mem (1 + j)) →
      fieldBytes 1 32 (strcpy 1 str mem') = charArray 32 str.chars fun j => mem (1 + j) := by
    intro mem' h
    rw [fieldBytes_strcpy]
    exact charArray_congr h
  rw [structBytes_add, structBytes_add, structBytes_add, structBytes_add, ← fieldBytes_zero,
    fieldBytes_strcpy_of_disjoint (.inr (by omega)), hfield, hafter _ (by omega),
    hafter _ (by omega), hafter _ (by omega)]
  · simp (disch := simp) only [fieldBytes_storeBytes, fieldBytes_storeBytes_of_disjoint]
  · intro j hj
    simp only [storeBytes, leBytes_length, List.length_singleton]
    rw [if_neg (by omega), if_neg (by omega), if_neg (by omega), if_neg (by omega)]

/-! ## Decoding -/

/-- A string that fits is read from its field. -/
theorem stringAt_charArray {front : List UInt8} (hfront : front.length = a)
    (hlen : str.chars.length < n) (mem : Nat → UInt8) (rest : List UInt8) :
    stringAt a (front ++ charArray n str.chars mem ++ rest) = .ok str := by
  obtain ⟨garbage, hgarbage⟩ := charArray_eq mem hlen
  have hdrop : (front ++ charArray n str.chars mem ++ rest).drop a =
      str.chars ++ 0 :: (garbage ++ rest) := by
    rw [List.append_assoc, List.drop_left' hfront, hgarbage, List.append_assoc, List.cons_append]
  have hstr := arrayString_append str.noNul (garbage ++ rest)
  unfold stringAt
  simp only [hdrop, hstr]
  rw [if_pos (by simp)]
  rfl

theorem u64At_leBytes (front : List UInt8) (hfront : front.length = a) (v : UInt64)
    (rest : List UInt8) :
    u64At a (front ++ leBytes 8 v.toNat ++ rest) = v := by
  have hv : v.toNat % 256 ^ 8 = v.toNat := Nat.mod_eq_of_lt v.toNat_lt
  rw [u64At, List.append_assoc, List.drop_left' hfront, List.take_left' (leBytes_length ..),
    leValue_leBytes, hv, UInt64.ofNat_toNat]

/-- The fields of a struct are what it was made of. -/
theorem fields_construct {fields : ProtoFields} (hf : fields.Fits) (mem : Nat → UInt8) :
    fields.struct.fields (fields.construct mem) = .ok fields := by
  cases fields with
  | request path name =>
      have hproto : ProtoFields.construct (.request path name) mem = _ :=
        requestProto_eq hf.1 name mem
      have hpath := stringAt_charArray List.length_nil hf.1 mem
        (charArray boxNameSize name.chars fun j => mem (npipePathSize + j))
      have hname := stringAt_charArray (charArray_length npipePathSize path.chars mem) hf.2
        (fun j => mem (npipePathSize + j)) []
      rw [List.nil_append] at hpath
      rw [List.append_nil] at hname
      rw [hproto]
      simp only [ProtoFields.struct, ProtoStruct.fields]
      rw [hpath, ok_bind, hname]
      rfl
  | response returnCode errorMessage =>
      have hproto : ProtoFields.construct (.response returnCode errorMessage) mem = _ :=
        responseProto_eq returnCode errorMessage mem
      obtain ⟨code, hcode⟩ : ∃ code, (List.range 4).map (intByte returnCode.toInt) = code :=
        ⟨_, rfl⟩
      have hlen : code.length = 4 := by rw [← hcode, List.length_map, List.length_range]
      have hmsg := stringAt_charArray hlen hf (fun j => mem (4 + j)) []
      have hret : ∀ rest, responseReturnCode (code ++ rest) = returnCode.toInt := by
        intro rest
        rw [← hcode]
        exact intOfBytes_intByte returnCode.le_toInt returnCode.toInt_lt
      rw [List.append_nil] at hmsg
      rw [hproto, hcode]
      simp only [ProtoFields.struct, ProtoStruct.fields]
      rw [hmsg, hret, ok_bind, Int32.ofInt_toInt]
      rfl
  | listBoxesRequest path =>
      have hproto : ProtoFields.construct (.listBoxesRequest path) mem = _ :=
        listBoxesRequestProto_eq path
      have hpath := stringAt_charArray List.length_nil hf (fun _ => 0) []
      rw [List.nil_append, List.append_nil] at hpath
      rw [hproto]
      simp only [ProtoFields.struct, ProtoStruct.fields]
      rw [hpath]
      rfl
  | listBoxesResponse last name boxSize nPublishers nSubscribers =>
      have hproto : ProtoFields.construct
          (.listBoxesResponse last name boxSize nPublishers nSubscribers) mem = _ :=
        listBoxesResponseProto_eq last hf boxSize nPublishers nSubscribers mem
      obtain ⟨array, harray⟩ : ∃ array,
        (charArray boxNameSize name.chars fun j => mem (1 + j)) = array := ⟨_, rfl⟩
      have hlen : array.length = boxNameSize := by rw [← harray, charArray_length]
      have hname := stringAt_charArray (List.length_singleton (a := last)) hf
        (fun j => mem (1 + j))
        (leBytes 8 boxSize.toNat ++ leBytes 8 nPublishers.toNat ++ leBytes 8 nSubscribers.toNat)
      have hlen₁ : ([last] ++ array).length = 1 + boxNameSize := by simp [hlen, Nat.add_comm]
      have hlen₂ : ([last] ++ array ++ leBytes 8 boxSize.toNat).length = 1 + boxNameSize + 8 := by
        rw [List.length_append, hlen₁, leBytes_length]
      have hlen₃ : ([last] ++ array ++ leBytes 8 boxSize.toNat ++
          leBytes 8 nPublishers.toNat).length = 1 + boxNameSize + 8 + 8 := by
        rw [List.length_append, hlen₂, leBytes_length]
      have hsize := u64At_leBytes _ hlen₁ boxSize
        (leBytes 8 nPublishers.toNat ++ leBytes 8 nSubscribers.toNat)
      have hpubs := u64At_leBytes _ hlen₂ nPublishers (leBytes 8 nSubscribers.toNat)
      have hsubs := u64At_leBytes _ hlen₃ nSubscribers []
      rw [harray] at hname
      simp only [← List.append_assoc, List.append_nil] at hname hsize hpubs hsubs
      rw [hproto, harray]
      simp only [ProtoFields.struct, ProtoStruct.fields]
      rw [hname, ok_bind, hsize, hpubs, hsubs]
      rfl
  | message msg =>
      have hproto : ProtoFields.construct (.message msg) mem = _ := messageProto_eq msg mem
      have hmsg := stringAt_charArray List.length_nil hf mem []
      rw [List.nil_append, List.append_nil] at hmsg
      rw [hproto]
      simp only [ProtoFields.struct, ProtoStruct.fields]
      rw [hmsg]
      rfl

end Layout

/-! ## Round trips -/

section RoundTrip

variable {code : Code} {fields : ProtoFields} {mem : Nat → UInt8} {rest : List UInt8}

/-- `proto_size` has a case for every struct but the plain message. -/
theorem protoSize_eq (h : code.struct ≠ .basicMsgProto) :
    protoSize code.byte = .ok code.struct.size := by
  cases code with
  | publisherMessage | subscriberMessage => exact absurd rfl h
  | _ => rfl

theorem recvOpcode_cons (code : Code) (rx : List UInt8) :
    recvOpcode (code.byte :: rx) = .ok (code.byte, rx) := by
  have hne : code.byte ≠ 0 := by
    cases code <;> decide
  have hread : pipeRead (code.byte :: rx) 1 = ([code.byte], rx) := rfl
  rw [recvOpcode, hread]
  dsimp only
  rw [alwaysAssert_of_true List.length_singleton, ok_bind, List.getD_cons_zero,
    alwaysAssert_of_true hne]
  rfl

theorem roundTrips_of_struct (hs : code.struct = fields.struct)
    (hm : code.struct ≠ .basicMsgProto) (hf : fields.Fits) : RoundTrips code fields mem rest := by
  have hlen := construct_length fields mem
  rw [← hs] at hlen
  have hsize : protoSize code.byte = .ok (fields.construct mem).length := by
    rw [protoSize_eq hm, hlen]
  refine ⟨_, _, _, sendProtoString_eq hsize, recvOpcode_cons code _,
    parseProtocol_append hsize rest, ?_⟩
  rw [hs]
  exact fields_construct hf mem

/-- **Decoding undoes encoding** for exactly the codes whose struct is not a
plain message. -/
theorem roundTrips_iff (hs : code.struct = fields.struct) (hf : fields.Fits)
    (mem : Nat → UInt8) (rest : List UInt8) :
    RoundTrips code fields mem rest ↔
      code ≠ .publisherMessage ∧ code ≠ .subscriberMessage := by
  constructor
  · rintro ⟨wx, -, -, hsend, -⟩
    obtain ⟨size, hsize, -⟩ := bind_eq_ok.mp hsend
    constructor
    · rintro rfl
      cases hsize
    · rintro rfl
      cases hsize
  · rintro ⟨hpub, hsub⟩
    refine roundTrips_of_struct hs ?_ hf
    cases code with
    | publisherMessage => exact absurd rfl hpub
    | subscriberMessage => exact absurd rfl hsub
    | _ => decide

end RoundTrip

/-- The answer to a list request, with one box, in front of another message. -/
theorem listBoxesResponse_roundTrips :
    RoundTrips .listBoxesResponse (.listBoxesResponse 1 ⟨[47, 97], by decide⟩ 1024 1 3)
      (fun _ => 255) [9] :=
  (roundTrips_iff rfl (by decide) (fun _ => 255) [9]).mpr (by decide)

/-- A publisher's message `a` is never sent. -/
theorem publisherMessage_not_roundTrips :
    sendProtoString Code.publisherMessage.byte
        ((ProtoFields.message ⟨[97], by decide⟩).construct fun _ => 0) =
      .error (.panic "invalid proto code\n") ∧
    ¬ RoundTrips .publisherMessage (.message ⟨[97], by decide⟩) (fun _ => 0) [] := by
  constructor
  · rfl
  · rintro ⟨_, _, _, hsend, -⟩
    cases hsend

/-! ## What the memory held -/

section Leaks

variable {str : CString} {n : Nat}

/-- The bytes behind a string's NUL are those of the memory. -/
theorem charArray_eq_iff {str : List UInt8} (hlen : str.length < n) :
    (∀ mem mem', charArray n str mem = charArray n str mem') ↔ str.length + 1 = n := by
  constructor
  · intro h
    by_contra hne
    have hbyte := congrArg (fun bytes => bytes[str.length + 1]?) (h (fun _ => 0) fun _ => 1)
    simp [charArray, show str.length + 1 < n by omega] at hbyte
  · rintro rfl mem mem'
    refine List.map_congr_left fun j hj => ?_
    have hlt := List.mem_range.mp hj
    by_cases hj : j < str.length
    · rw [if_pos hj, if_pos hj]
    · rw [if_neg hj, if_neg hj, if_pos (by omega), if_pos (by omega)]

theorem fieldArray_eq_iff (a : Nat) (hlen : str.chars.length < n) :
    (∀ mem mem' : Nat → UInt8, (charArray n str.chars fun j => mem (a + j)) =
      charArray n str.chars fun j => mem' (a + j)) ↔ str.chars.length + 1 = n := by
  rw [← charArray_eq_iff hlen]
  constructor
  · intro h mem mem'
    have h := h (fun x => mem (x - a)) fun x => mem' (x - a)
    simp only [Nat.add_sub_cancel_left] at h
    exact h
  · exact fun h _ _ => h _ _

/-- **A struct leaks nothing** exactly when every string fills its field, or
the struct was zeroed. -/
theorem leaksNothing_iff {fields : ProtoFields} (hf : fields.Fits) :
    LeaksNothing fields ↔ fields.Filled := by
  unfold LeaksNothing
  cases fields with
  | request path name =>
      have hproto : ∀ mem, ProtoFields.construct (.request path name) mem = _ :=
        fun mem => requestProto_eq hf.1 name mem
      simp only [hproto, ProtoFields.Filled]
      rw [← charArray_eq_iff hf.1, ← fieldArray_eq_iff npipePathSize hf.2]
      constructor
      · intro h
        have hlen : ∀ mem mem', (charArray npipePathSize path.chars mem).length =
            (charArray npipePathSize path.chars mem').length := by
          intro mem mem'
          rw [charArray_length, charArray_length]
        exact ⟨fun mem mem' => (List.append_inj (h mem mem') (hlen mem mem')).1,
          fun mem mem' => (List.append_inj (h mem mem') (hlen mem mem')).2⟩
      · rintro ⟨hpath, hname⟩ mem mem'
        rw [hpath mem mem', hname mem mem']
  | response returnCode errorMessage =>
      have hproto : ∀ mem, ProtoFields.construct (.response returnCode errorMessage) mem = _ :=
        responseProto_eq returnCode errorMessage
      simp only [hproto, ProtoFields.Filled, List.append_cancel_left_eq]
      exact fieldArray_eq_iff 4 hf
  | listBoxesRequest path => exact iff_of_true (fun _ _ => rfl) trivial
  | listBoxesResponse last name boxSize nPublishers nSubscribers =>
      have hproto : ∀ mem, ProtoFields.construct
          (.listBoxesResponse last name boxSize nPublishers nSubscribers) mem = _ :=
        listBoxesResponseProto_eq last hf boxSize nPublishers nSubscribers
      simp only [hproto, ProtoFields.Filled, List.append_cancel_left_eq,
        List.append_cancel_right_eq]
      exact fieldArray_eq_iff 1 hf
  | message msg =>
      have hproto : ∀ mem, ProtoFields.construct (.message msg) mem = _ := messageProto_eq msg
      simp only [hproto, ProtoFields.Filled]
      exact charArray_eq_iff hf

/-- A request for a list is zeroed first. -/
theorem listBoxesRequest_leaksNothing : LeaksNothing (.listBoxesRequest ⟨[112], by decide⟩) :=
  (leaksNothing_iff (by decide)).mpr trivial

/-- The third byte of a message `a` is what the memory held. -/
theorem message_not_leaksNothing :
    (∀ b, ((ProtoFields.message ⟨[97], by decide⟩).construct fun _ => b).getD 2 0 = b) ∧
      ¬ LeaksNothing (.message ⟨[97], by decide⟩) := by
  have hbyte : ∀ b, ((ProtoFields.message ⟨[97], by decide⟩).construct fun _ => b).getD 2 0 = b := by
    intro b
    have hproto : (ProtoFields.message ⟨[97], by decide⟩).construct (fun _ => b) =
        charArray msgSize [97] fun _ => b := messageProto_eq ⟨[97], by decide⟩ fun _ => b
    rw [hproto]
    simp [charArray, msgSize]
  refine ⟨hbyte, ?_⟩
  intro h
  have hleak : (0 : UInt8) = 1 := by
    rw [← hbyte 0, h (fun _ => 0) fun _ => 1, hbyte 1]
  cases hleak

end Leaks

end MBroker
