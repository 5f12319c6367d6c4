import MBroker.Broker.Requests
import MBroker.Lib.Framing
import Mathlib.Data.List.TakeWhile

/-!
# The wire protocol (protocol/protocols.c)

A message is an opcode byte and the bytes of a packed struct, whose size
the opcode determines. A pipe is the list of bytes that have been written
to it and not read; a pipe that is open stays open and does not fail.
-/

namespace MBroker

/-- `NPIPE_PATH_SIZE`. -/
def npipePathSize : Nat := 256

/-- `MSG_SIZE`. -/
def msgSize : Nat := 1024

/-- The protocol codes, which count from 1. -/
inductive Code
  | registerPublisher
  | registerSubscriber
  | createBoxRequest
  | createBoxResponse
  | removeBoxRequest
  | removeBoxResponse
  | listBoxesRequest
  | listBoxesResponse
  | publisherMessage
  | subscriberMessage
deriving DecidableEq, Repr

def Code.byte : Code → UInt8
  | .registerPublisher => 1
  | .registerSubscriber => 2
  | .createBoxRequest => 3
  | .createBoxResponse => 4
  | .removeBoxRequest => 5
  | .removeBoxResponse => 6
  | .listBoxesRequest => 7
  | .listBoxesResponse => 8
  | .publisherMessage => 9
  | .subscriberMessage => 10

def Code.ofByte : UInt8 → Option Code
  | 1 => some .registerPublisher
  | 2 => some .registerSubscriber
  | 3 => some .createBoxRequest
  | 4 => some .createBoxResponse
  | 5 => some .removeBoxRequest
  | 6 => some .removeBoxResponse
  | 7 => some .listBoxesRequest
  | 8 => some .listBoxesResponse
  | 9 => some .publisherMessage
  | 10 => some .subscriberMessage
  | _ => none

@[simp] theorem Code.ofByte_byte (c : Code) : Code.ofByte c.byte = some c := by
  cases c <;> rfl

/-! ## Packed structs -/

/-- `sizeof(request_proto_t)`: `client_named_pipe_path` and `box_name`. -/
def sizeofRequestProto : Nat := npipePathSize + boxNameSize

/-- `sizeof(response_proto_t)`: `return_code` and `error_msg`. -/
def sizeofResponseProto : Nat := 4 + msgSize

/-- `sizeof(list_boxes_request_proto_t)`: `client_named_pipe_path`. -/
def sizeofListBoxesRequestProto : Nat := npipePathSize

/-- `sizeof(list_boxes_response_proto_t)`: `last`, `box_name` and three `uint64_t`. -/
def sizeofListBoxesResponseProto : Nat := 1 + boxNameSize + 8 + 8 + 8

/-- Returns the right size of a protocol. -/
def protoSize (code : UInt8) : Except Fault Nat :=
  match Code.ofByte code with
  | some .registerPublisher | some .registerSubscriber | some .createBoxRequest
  | some .removeBoxRequest => return sizeofRequestProto
  | some .listBoxesRequest => return sizeofListBoxesRequestProto
  | some .removeBoxResponse | some .createBoxResponse => return sizeofResponseProto
  | some .listBoxesResponse => return sizeofListBoxesResponseProto
  | _ => .error (.panic "invalid proto code\n")

/-- The codes of the messages that the broker's main loop takes. -/
def Code.isRequest : Code → Bool
  | .registerPublisher | .registerSubscriber | .createBoxRequest | .removeBoxRequest
  | .listBoxesRequest => true
  | _ => false

/-! ## Pipes -/

/-- `read(fd, buf, n)`: the bytes that are there, `n` of them at most, and
what is left. -/
def pipeRead (pipe : List UInt8) (n : Nat) : List UInt8 × List UInt8 :=
  (pipe.take n, pipe.drop n)

/-- Send a protocol packed struct, given the memory it lies in: the bytes of
its one `write`. -/
def sendProtoString (opcode : UInt8) (proto : List UInt8) : Except Fault (List UInt8) := do
  let protoSz ← protoSize opcode
  if proto.length < protoSz then
    .error .outOfBounds
  else
    return opcode :: proto.take protoSz

/-- Reads the rest of a message with the right protocol size: the struct, and
what is left in the pipe. -/
def parseProtocol (rx : List UInt8) (opcode : UInt8) :
    Except Fault (List UInt8 × List UInt8) := do
  let protoSz ← protoSize opcode
  let (protocol, rx) := pipeRead rx protoSz
  alwaysAssert (protoSz = protocol.length) "Failed to read protocol"
  return (protocol, rx)

/-! ## Structs as bytes -/

/-- The `n` bytes of a struct in memory. -/
def structBytes (n : Nat) (mem : Nat → UInt8) : List UInt8 := (List.range n).map mem

/-- The `n` bytes of a struct's field at offset `a`. -/
def fieldBytes (a n : Nat) (mem : Nat → UInt8) : List UInt8 := structBytes n fun j => mem (a + j)

/-- `bytes` stored at `a`, in the memory from a struct on. -/
def storeBytes (a : Nat) (bytes : List UInt8) (mem : Nat → UInt8) : Nat → UInt8 := fun x =>
  if a ≤ x ∧ x < a + bytes.length then bytes.getD (x - a) 0 else mem x

/-- `strcpy(p + a, src)`. The end of a field or of the struct stops nothing:
what is behind takes the rest of the string. -/
def strcpy (a : Nat) (src : CString) (mem : Nat → UInt8) : Nat → UInt8 :=
  storeBytes a (src.chars ++ [0]) mem

/-- A `char` array of `n` bytes that a string has been copied to: behind the
string's NUL is what was there before. -/
def charArray (n : Nat) (str : List UInt8) (mem : Nat → UInt8) : List UInt8 :=
  (List.range n).map fun j =>
    if j < str.length then str.getD j 0 else if j = str.length then 0 else mem j

/-- The string in a `char` array. -/
def arrayString (array : List UInt8) : List UInt8 := array.takeWhile (· ≠ 0)

theorem arrayString_noNul (array : List UInt8) : 0 ∉ arrayString array := by
  intro h
  have hne := List.mem_takeWhile_imp h
  revert hne
  decide

/-- A NUL ends the string inside the array. -/
theorem arrayString_length_lt {array : List UInt8} (h : 0 ∈ array) :
    (arrayString array).length < array.length := by
  refine Nat.lt_of_le_of_ne (List.takeWhile_sublist _).length_le fun hlen => ?_
  have hall : arrayString array = array := (List.takeWhile_prefix _).eq_of_length hlen
  rw [← hall] at h
  exact arrayString_noNul array h

/-- Creates a protocol for a request: the memory from the struct on, which
held `mem`. -/
def requestProto (clientNamedPipePath boxName : CString) (mem : Nat → UInt8) : Nat → UInt8 :=
  strcpy 0 clientNamedPipePath (strcpy npipePathSize boxName mem)

/-- `request->box_name`, as a string: without a NUL it runs out of the struct. -/
def requestBox (request : List UInt8) : Except Fault BoxName :=
  if h : 0 ∈ (request.drop npipePathSize).take boxNameSize then
    return {
      name := ⟨arrayString ((request.drop npipePathSize).take boxNameSize), arrayString_noNul _⟩
      fits := Nat.lt_of_lt_of_le (arrayString_length_lt h) (List.length_take_le ..) }
  else
    .error .outOfBounds

/-- The bytes of an ASCII text. -/
def textBytes (text : String) : List UInt8 := text.toList.map fun c => UInt8.ofNat c.toNat

/-- A `response_proto_t` that was zeroed when it was allocated. -/
def boxResponseProto (response : BoxResponse) : List UInt8 :=
  (List.range 4).map (intByte response.returnCode) ++
    charArray msgSize (textBytes response.errorMsg) fun _ => 0

/-- `response->return_code`. -/
def responseReturnCode (response : List UInt8) : Int :=
  intOfBytes (response.getD 0 0) (response.getD 1 0) (response.getD 2 0) (response.getD 3 0)

/-- `response->error_msg`, as a string. -/
def responseErrorMsg (response : List UInt8) : List UInt8 := arrayString (response.drop 4)

variable {opcode : UInt8} {proto rx : List UInt8} {n : Nat}

/-- A struct of the right size is sent whole. -/
theorem sendProtoString_eq (h : protoSize opcode = .ok proto.length) :
    sendProtoString opcode proto = .ok (opcode :: proto) := by
  rw [sendProtoString, h, ok_bind, if_neg (Nat.lt_irrefl _), List.take_length]
  rfl

theorem parseProtocol_eq (h : protoSize opcode = .ok n) (hn : n ≤ rx.length) :
    parseProtocol rx opcode = .ok (rx.take n, rx.drop n) := by
  have hlen : n = (rx.take n).length := by
    rw [List.length_take]
    omega
  rw [parseProtocol, h, ok_bind]
  show (do alwaysAssert (n = (rx.take n).length) _
           return (rx.take n, rx.drop n)) = _
  rw [alwaysAssert_of_true hlen]
  rfl

/-- A struct that is there whole is read, and what follows it is left. -/
theorem parseProtocol_append (h : protoSize opcode = .ok proto.length) (rest : List UInt8) :
    parseProtocol (proto ++ rest) opcode = .ok (proto, rest) := by
  rw [parseProtocol_eq h (by simp), List.take_left' rfl, List.drop_left' rfl]

section Arrays

variable {str : List UInt8} {mem : Nat → UInt8}

theorem charArray_length (n : Nat) (str : List UInt8) (mem : Nat → UInt8) :
    (charArray n str mem).length = n := by
  rw [charArray, List.length_map, List.length_range]

theorem boxResponseProto_length (response : BoxResponse) :
    (boxResponseProto response).length = sizeofResponseProto := by
  rw [boxResponseProto, List.length_append, charArray_length, List.length_map, List.length_range]
  rfl

theorem charArray_congr {mem' : Nat → UInt8} (h : ∀ j < n, mem j = mem' j) :
    charArray n str mem = charArray n str mem' := by
  refine List.map_congr_left fun j hj => ?_
  rw [h j (List.mem_range.mp hj)]

/-- The string comes first, and a NUL after it. -/
theorem charArray_eq (mem : Nat → UInt8) (hlen : str.length < n) :
    ∃ rest, charArray n str mem = str ++ 0 :: rest := by
  refine ⟨(charArray n str mem).drop (str.length + 1), ?_⟩
  refine List.ext_getElem ?_ fun j h1 h2 => ?_
  · rw [List.length_append, List.length_cons, List.length_drop, charArray_length]
    omega
  · -- in the string, at its NUL and behind it
    rcases Nat.lt_trichotomy j str.length with hlt | heq | hgt
    · rw [List.getElem_append_left hlt]
      simp [charArray, hlt, List.getD_eq_getElem?_getD]
    · subst heq
      simp [charArray]
    · rw [List.getElem_append_right (by omega)]
      obtain ⟨d, rfl⟩ : ∃ d, j = str.length + 1 + d := ⟨j - (str.length + 1), by omega⟩
      simp [show str.length + 1 + d - str.length = d + 1 by omega]

/-- A string ends at the first NUL. -/
theorem arrayString_append (h0 : 0 ∉ str) (rest : List UInt8) :
    arrayString (str ++ 0 :: rest) = str := by
  rw [arrayString, List.takeWhile_append_of_pos]
  · simp
  · intro c hc
    have hne : c ≠ 0 := fun hz => h0 (hz ▸ hc)
    simpa using hne

/-- What `strcpy` has written is read back. -/
theorem arrayString_charArray (mem : Nat → UInt8) (h0 : 0 ∉ str) (hlen : str.length < n) :
    arrayString (charArray n str mem) = str := by
  obtain ⟨rest, heq⟩ := charArray_eq mem hlen
  rw [heq, arrayString_append h0]

/-! ### Fields -/

@[simp] theorem structBytes_length (n : Nat) (mem : Nat → UInt8) :
    (structBytes n mem).length = n := by
  rw [structBytes, List.length_map, List.length_range]

@[simp] theorem fieldBytes_length (a n : Nat) (mem : Nat → UInt8) :
    (fieldBytes a n mem).length = n :=
  structBytes_length ..

/-- A struct is its first fields and the one after them. -/
theorem structBytes_add (n k : Nat) (mem : Nat → UInt8) :
    structBytes (n + k) mem = structBytes n mem ++ fieldBytes n k mem := by
  rw [structBytes, List.range_add, List.map_append, List.map_map]
  rfl

theorem fieldBytes_zero (n : Nat) (mem : Nat → UInt8) : fieldBytes 0 n mem = structBytes n mem := by
  unfold fieldBytes
  simp only [Nat.zero_add]

theorem structBytes_congr {mem' : Nat → UInt8} (h : ∀ j < n, mem j = mem' j) :
    structBytes n mem = structBytes n mem' := by
  refine List.map_congr_left fun j hj => h j (List.mem_range.mp hj)

/-- A store beside a field leaves it. -/
theorem fieldBytes_storeBytes_of_disjoint {a b : Nat} {bytes : List UInt8}
    (h : b + bytes.length ≤ a ∨ a + n ≤ b) :
    fieldBytes a n (storeBytes b bytes mem) = fieldBytes a n mem := by
  refine structBytes_congr fun j hj => ?_
  rw [storeBytes, if_neg (by omega)]

/-- A store of a whole field. -/
theorem fieldBytes_storeBytes {a : Nat} {bytes : List UInt8} (h : bytes.length = n) :
    fieldBytes a n (storeBytes a bytes mem) = bytes := by
  refine List.ext_getElem (by simp [h]) fun j h1 h2 => ?_
  simp [fieldBytes, structBytes, storeBytes, h2, List.getD_eq_getElem?_getD]

theorem fieldBytes_strcpy (a n : Nat) (src : CString) (mem : Nat → UInt8) :
    fieldBytes a n (strcpy a src mem) = charArray n src.chars fun j => mem (a + j) := by
  refine List.map_congr_left fun j hj => ?_
  dsimp only [strcpy, storeBytes]
  -- in the string, at its NUL and behind it
  rcases Nat.lt_trichotomy j src.chars.length with hlt | heq | hgt
  · have hin : a ≤ a + j ∧ a + j < a + (src.chars ++ [0]).length := by
      rw [List.length_append, List.length_singleton]
      omega
    rw [if_pos hin, if_pos hlt, Nat.add_sub_cancel_left, List.getD_eq_getElem?_getD,
      List.getElem?_append_left hlt, List.getD_eq_getElem?_getD]
  · subst heq
    simp [List.getD_eq_getElem?_getD]
  · have hout : ¬ (a ≤ a + j ∧ a + j < a + (src.chars ++ [0]).length) := by
      rw [List.length_append, List.length_singleton]
      omega
    rw [if_neg hout, if_neg (by omega), if_neg (by omega)]

theorem fieldBytes_strcpy_of_disjoint {a b : Nat} {src : CString}
    (h : b + src.chars.length < a ∨ a + n ≤ b) :
    fieldBytes a n (strcpy b src mem) = fieldBytes a n mem := by
  refine fieldBytes_storeBytes_of_disjoint ?_
  rw [List.length_append, List.length_singleton]
  omega

/-- The struct of a request whose path fits. -/
theorem requestProto_eq {path : CString} (hpath : path.chars.length < npipePathSize)
    (name : CString) (mem : Nat → UInt8) :
    structBytes sizeofRequestProto (requestProto path name mem) =
      charArray npipePathSize path.chars mem ++
        charArray boxNameSize name.chars fun j => mem (npipePathSize + j) := by
  have hmem : charArray npipePathSize path.chars (strcpy npipePathSize name mem) =
      charArray npipePathSize path.chars mem := by
    refine charArray_congr fun j hj => ?_
    rw [strcpy, storeBytes, if_neg (by omega)]
  have hfirst := fieldBytes_strcpy 0 npipePathSize path (strcpy npipePathSize name mem)
  simp only [Nat.zero_add] at hfirst
  rw [sizeofRequestProto, structBytes_add, ← fieldBytes_zero, requestProto, hfirst, hmem,
    fieldBytes_strcpy_of_disjoint (.inl (by omega)), fieldBytes_strcpy]

/-- What a request is made of is read from it. -/
theorem requestBox_requestProto {path : CString} (hpath : path.chars.length < npipePathSize)
    (box : BoxName) (mem : Nat → UInt8) :
    requestBox (structBytes sizeofRequestProto (requestProto path box.name mem)) = .ok box := by
  let memName : Nat → UInt8 := fun j => mem (npipePathSize + j)
  have hname := charArray_length boxNameSize box.name.chars memName
  have hlen := charArray_length npipePathSize path.chars mem
  obtain ⟨rest, hrest⟩ := charArray_eq memName box.fits
  have hstr := arrayString_charArray memName box.name.noNul box.fits
  rw [requestProto_eq hpath]
  show requestBox (charArray npipePathSize path.chars mem ++
    charArray boxNameSize box.name.chars memName) = _
  rw [requestBox]
  simp only [List.drop_left' hlen, List.take_of_length_le (Nat.le_of_eq hname), hstr]
  rw [dif_pos (by rw [hrest]; simp)]
  rfl

end Arrays

theorem parseProtocol_length {protocol pipe : List UInt8}
    (h : parseProtocol rx opcode = .ok (protocol, pipe)) : pipe.length ≤ rx.length := by
  obtain ⟨n, -, h⟩ := bind_eq_ok.mp h
  obtain ⟨_, _, h⟩ := bind_eq_ok.mp h
  obtain ⟨-, rfl⟩ := ok_pair_inj h
  show (rx.drop n).length ≤ rx.length
  rw [List.length_drop]
  exact Nat.sub_le ..

end MBroker
