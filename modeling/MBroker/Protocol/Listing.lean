import MBroker.Fs.Operations
import MBroker.Lib.Sorting
import MBroker.Protocol.Messages

/-!
# The manager's listing (manager/manager.c)

`list_boxes` keeps the responses it receives in an array of pointers, then
sorts and prints them. The array is allocated, and sorted, as if it held
the structs themselves: `qsort` moves 57 bytes at a time, which is seven
pointers and a byte of the next, and `cmp_response` takes the bytes of
pointers for a `box_name`.

With one response there is nothing to move. With more, the last element
that `qsort` sees lies behind the pointers, in the zeros of `calloc`: to
the comparison it is a box with an empty name.
-/

namespace MBroker

open Tfs

/-! ## Receiving -/

/-- `sizeof(list_boxes_response_proto_t *)`. -/
def sizeofPointer : Nat := 8

/-- The bytes that `calloc` gets for `responses`. -/
def responsesSize : Nat := tfsDefaultParams.maxInodeCount * sizeofListBoxesResponseProto

/-- One turn of the loop that reads all messages, up to the assignment: the
struct, and what is left in the pipe. The `int` that the opcode is read into
was zero, so a byte never makes it `EOF`. -/
def readResponse (rx : List UInt8) : Except Fault (List UInt8 × List UInt8) := do
  let (tOpcode, rx) := pipeRead rx 1
  let opcode := tOpcode.getD 0 0
  alwaysAssert (opcode = Code.listBoxesResponse.byte) "Received invalid opcode"
  alwaysAssert (tOpcode.length = 1) "Failed to read op code"
  parseProtocol rx opcode

/-- Reads all messages, with room for so many pointers: the structs, in the
order in which they came. -/
def readResponses : Nat → List UInt8 → Except Fault (List (List UInt8))
  | 0, rx => do
    let _ ← readResponse rx
    .error .outOfBounds
  | room + 1, rx => do
    let (response, rx) ← readResponse rx
    if response.getD 0 0 ≠ 0 then
      return [response]
    else
      let responses ← readResponses room rx
      return response :: responses

/-- The bytes of `responses` when `n` structs have been read: the addresses
that `malloc` gave them, and the zeros of `calloc`. -/
def responsesBytes (addr : Nat → Nat) (n : Nat) : List UInt8 :=
  (List.range n).flatMap (fun i => leBytes sizeofPointer (addr i)) ++
    List.replicate (responsesSize - sizeofPointer * n) 0

/-! ## Sorting -/

/-- The string at `box_name`, in the bytes that are taken for a struct. -/
def boxNameOf (response : List UInt8) : List UInt8 := arrayString (response.drop 1)

/-- An address has zeros at its end, so what is taken for a name ends in its
element. -/
def cmpResponse (p1 p2 : List UInt8) : Int := strcmp (boxNameOf p1) (boxNameOf p2)

/-- `qsort(responses, curr_index, sizeof(list_boxes_response_proto_t), cmp_response)`. -/
def sortResponses (qsort : Qsort) (currIndex : Nat) (responses : List UInt8) :
    Except Fault (List UInt8) :=
  let size := currIndex * sizeofListBoxesResponseProto
  if responses.length < size then
    .error .outOfBounds
  else
    return qsort currIndex sizeofListBoxesResponseProto cmpResponse (responses.take size) ++
      responses.drop size

/-! ## Printing -/

/-- `"%s %zu %zu %zu\n"`. -/
def responseLine (boxName : List UInt8) (boxSize nPublishers nSubscribers : UInt64) :
    List UInt8 :=
  boxName ++ textBytes (" " ++ toString boxSize.toNat ++ " " ++ toString nPublishers.toNat ++
    " " ++ toString nSubscribers.toNat ++ "\n")

/-- What is printed of a struct. -/
def printResponse (response : List UInt8) : Except Fault (List UInt8) := do
  let boxName ← stringAt 1 response
  return responseLine boxName.chars (u64At (1 + boxNameSize) response)
    (u64At (1 + boxNameSize + 8) response) (u64At (1 + boxNameSize + 8 + 8) response)

/-- The struct that a pointer points to, if it is the address of one. -/
def derefResponse (addr : Nat → Nat) (received : List (List UInt8)) (p : Nat) :
    Except Fault (List UInt8) :=
  match (List.range received.length).find? fun i => addr i = p with
  | some i => return received.getD i []
  | none => .error .outOfBounds

/-- Prints all boxes: as many as there are pointers to be read. -/
def printResponses (addr : Nat → Nat) (received : List (List UInt8)) :
    List UInt8 → Nat → Except Fault (List UInt8)
  | _, 0 => return []
  | responses, n + 1 => do
    let res ← derefResponse addr received (leValue (responses.take sizeofPointer))
    let line ← printResponse res
    let lines ← printResponses addr received (responses.drop sizeofPointer) n
    return line ++ lines

/-- What the manager's `list_boxes` returns and prints. -/
structure ListResult where
  returned : Int
  stdout : List UInt8
deriving DecidableEq

/-- The manager's `list_boxes` after its request is sent, with the bytes in
its own pipe, which it then removes. `addr i` is where `malloc` puts the
struct of message `i`. -/
def listBoxes (qsort : Qsort) (addr : Nat → Nat) (rx : List UInt8) :
    Except Fault ListResult := do
  let received ← readResponses (responsesSize / sizeofPointer) rx
  let currIndex := received.length
  -- Sorts all things
  let responses ← sortResponses qsort currIndex (responsesBytes addr currIndex)
  -- Prints all boxes
  let lines ← printResponses addr received responses currIndex
  return ⟨0, lines ++ textBytes "OK\n"⟩

/-! ## What is received, and what should be printed -/

/-- A `LIST_BOXES_RESPONSE`: any struct whose name ends in its field. -/
structure ListMessage where
  payload : List UInt8
  sized : payload.length = sizeofListBoxesResponseProto
  named : 0 ∈ (payload.drop 1).take boxNameSize

namespace ListMessage

def last (message : ListMessage) : UInt8 := message.payload.getD 0 0

def boxName (message : ListMessage) : List UInt8 := boxNameOf message.payload

/-- The line of a box: its name and its counters. -/
def line (message : ListMessage) : List UInt8 :=
  responseLine message.boxName (u64At (1 + boxNameSize) message.payload)
    (u64At (1 + boxNameSize + 8) message.payload)
    (u64At (1 + boxNameSize + 8 + 8) message.payload)

end ListMessage

/-- The messages, as they come down the pipe. -/
def wire (messages : List ListMessage) : List UInt8 :=
  messages.flatMap fun message => Code.listBoxesResponse.byte :: message.payload

/-- The final message is the one that says it is the last. -/
def OnlyFinalLast (messages : List ListMessage) : Prop :=
  ∃ init final, messages = init ++ [final] ∧ final.last ≠ 0 ∧ ∀ message ∈ init, message.last = 0

/-- Where `malloc` can put the structs of `n` messages. -/
structure Placed (addr : Nat → Nat) (n : Nat) : Prop where
  notNull : ∀ i < n, addr i ≠ 0
  userSpace : ∀ i < n, addr i < 140737488355328
  aligned : ∀ i < n, addr i % 16 = 0
  apart : ∀ i < n, ∀ j < n, i < j →
    addr i + sizeofListBoxesResponseProto ≤ addr j ∨
      addr j + sizeofListBoxesResponseProto ≤ addr i

/-- Wherever the structs are, the listing is one line for each message, in
the order of the names. -/
def ListsSorted (qsort : Qsort) (messages : List ListMessage) : Prop :=
  ∀ addr, Placed addr messages.length → ∃ sorted : List ListMessage, sorted.Perm messages ∧
    sorted.Pairwise (fun r1 r2 => strcmp r1.boxName r2.boxName ≤ 0) ∧
    listBoxes qsort addr (wire messages) =
      .ok ⟨0, sorted.flatMap ListMessage.line ++ textBytes "OK\n"⟩

/-! ## What is received -/

section Received

variable {message : ListMessage} {messages : List ListMessage}

/-- A name that ends in its field ends in the struct. -/
theorem ListMessage.named_drop (message : ListMessage) : 0 ∈ message.payload.drop 1 :=
  List.mem_of_mem_take message.named

theorem readResponse_eq (message : ListMessage) (rest : List UInt8) :
    readResponse (Code.listBoxesResponse.byte :: message.payload ++ rest) =
      .ok (message.payload, rest) := by
  have hsize : protoSize Code.listBoxesResponse.byte = .ok message.payload.length := by
    rw [message.sized]
    rfl
  exact parseProtocol_append hsize rest

/-- The loop stops behind the final message. -/
theorem readResponses_wire (h : OnlyFinalLast messages) {room : Nat}
    (hroom : messages.length ≤ room) :
    readResponses room (wire messages) = .ok (messages.map ListMessage.payload) := by
  obtain ⟨init, final, rfl, hfinal, hinit⟩ := h
  induction init generalizing room with
  | nil =>
      obtain ⟨room, rfl⟩ : ∃ r, room = r + 1 := ⟨room - 1, by simp at hroom; omega⟩
      show (readResponse (Code.listBoxesResponse.byte :: final.payload ++ []) >>= _) = _
      rw [readResponse_eq, ok_bind]
      exact if_pos hfinal
  | cons message init ih =>
      obtain ⟨room, rfl⟩ : ∃ r, room = r + 1 := ⟨room - 1, by simp at hroom; omega⟩
      have hrest : readResponses room (wire (init ++ [final])) = _ :=
        ih (by simpa using hroom) fun m hm => hinit m (List.mem_cons_of_mem message hm)
      have hlast : ¬ message.payload.getD 0 0 ≠ 0 :=
        not_not.mpr (hinit message List.mem_cons_self)
      show (readResponse (Code.listBoxesResponse.byte :: message.payload ++
        wire (init ++ [final])) >>= _) = _
      rw [readResponse_eq, ok_bind]
      dsimp only
      rw [if_neg hlast, hrest]
      rfl

/-- What is printed of a struct that was received is the line of its box. -/
theorem printResponse_payload (message : ListMessage) :
    printResponse message.payload = .ok message.line := by
  rw [printResponse, stringAt, if_pos message.named_drop]
  rfl

end Received

/-! ## The array -/

section Arrays

variable {addr : Nat → Nat} {n : Nat} {e : List UInt8}

theorem addresses_length (addr : Nat → Nat) (n : Nat) :
    ((List.range n).flatMap fun i => leBytes sizeofPointer (addr i)).length = sizeofPointer * n := by
  simp [List.length_flatMap, Nat.mul_comm]

theorem responsesBytes_length (addr : Nat → Nat) (h : sizeofPointer * n ≤ responsesSize) :
    (responsesBytes addr n).length = responsesSize := by
  rw [responsesBytes, List.length_append, addresses_length, List.length_replicate]
  omega

/-- Behind the addresses the array is zero. -/
theorem responsesBytes_drop (addr : Nat → Nat) {k : Nat} (h : sizeofPointer * n ≤ k) :
    (responsesBytes addr n).drop k = List.replicate (responsesSize - k) 0 := by
  have hlen := addresses_length addr n
  rw [responsesBytes, List.drop_append, List.drop_eq_nil_of_le (by omega), List.nil_append, hlen,
    List.drop_replicate]
  congr 1
  omega

theorem boxNameOf_replicate (k : Nat) : boxNameOf (List.replicate k 0) = [] := by
  simp [boxNameOf, arrayString]

/-- An element that the comparison takes for an empty name starts with no
address that has a second byte. -/
theorem leValue_of_boxNameOf_nil (hlen : e.length = sizeofListBoxesResponseProto)
    (h : boxNameOf e = []) (rest : List UInt8) :
    leValue ((e ++ rest).take sizeofPointer) / 256 % 256 = 0 := by
  match e, hlen with
  | b0 :: b1 :: bs, _ =>
      have hb1 : b1 = 0 := by
        by_contra hne
        simp [boxNameOf, arrayString, hne] at h
      subst hb1
      have hb0 := b0.toNat_lt
      simp only [sizeofPointer, List.cons_append, List.take_succ_cons, leValue,
        UInt8.toNat_zero]
      omega

/-- A pointer with no second byte is none of theirs. -/
theorem derefResponse_of_ne {received : List (List UInt8)} {p : Nat}
    (h : ∀ i < received.length, addr i ≠ p) :
    derefResponse addr received p = .error .outOfBounds := by
  have hnone : (List.range received.length).find? (fun i => decide (addr i = p)) = none := by
    rw [find_range_eq_none]
    intro i hi
    simpa using h i hi
  rw [derefResponse, hnone]

end Arrays

/-! ## The listing -/

section Listing

variable {qsort : Qsort} {addr : Nat → Nat} {messages : List ListMessage}

theorem cmpResponse_consistent : Consistent cmpResponse :=
  strcmp_consistent boxNameOf

/-- The part of the array that `qsort` gets. -/
def sortedPart (addr : Nat → Nat) (n : Nat) : List UInt8 :=
  (responsesBytes addr n).take (n * sizeofListBoxesResponseProto)

theorem sizes_le {n : Nat} (h : n ≤ tfsDefaultParams.maxInodeCount) :
    n * sizeofListBoxesResponseProto ≤ responsesSize ∧ sizeofPointer * n ≤ responsesSize := by
  have hmax : tfsDefaultParams.maxInodeCount = 64 := rfl
  unfold responsesSize sizeofPointer sizeofListBoxesResponseProto boxNameSize
  omega

theorem sortedPart_length (addr : Nat → Nat) {n : Nat} (h : n ≤ tfsDefaultParams.maxInodeCount) :
    (sortedPart addr n).length = n * sizeofListBoxesResponseProto := by
  obtain ⟨hsort, hptr⟩ := sizes_le h
  rw [sortedPart, List.length_take, responsesBytes_length addr hptr]
  omega

/-- Every message is received, and what is printed is what the pointers in
the array point to when `qsort` has moved its elements. -/
theorem listBoxes_eq (qsort : Qsort) (addr : Nat → Nat) {n : Nat} (hn : messages.length = n)
    (hlen : n ≤ tfsDefaultParams.maxInodeCount) (hend : OnlyFinalLast messages) :
    listBoxes qsort addr (wire messages) = (do
      let lines ← printResponses addr (messages.map ListMessage.payload)
        (qsort n sizeofListBoxesResponseProto cmpResponse (sortedPart addr n) ++
          (responsesBytes addr n).drop (n * sizeofListBoxesResponseProto)) n
      return ⟨0, lines ++ textBytes "OK\n"⟩) := by
  obtain ⟨hsort, hptr⟩ := sizes_le hlen
  have hroom : n ≤ responsesSize / sizeofPointer :=
    (Nat.le_div_iff_mul_le (by decide)).mpr (by rw [Nat.mul_comm]; exact hptr)
  have hbytes := responsesBytes_length addr hptr
  rw [listBoxes, readResponses_wire hend (hn ▸ hroom), ok_bind]
  dsimp only
  rw [List.length_map, hn, sortResponses, if_neg (by omega)]
  rfl

/-- The only response there is stays where it was. -/
theorem listsSorted_one (hq : Sorts qsort) (message : ListMessage) (hlast : message.last ≠ 0) :
    ListsSorted qsort [message] := by
  intro addr haddr
  have hmax : 1 ≤ tfsDefaultParams.maxInodeCount := by decide
  have hbase := sortedPart_length addr hmax
  obtain ⟨sorted, hperm, -, hsorted⟩ :=
    hq 1 sizeofListBoxesResponseProto cmpResponse _ hbase cmpResponse_consistent
  rw [elements_one (hbase.trans (Nat.one_mul _))] at hperm
  obtain rfl := List.perm_singleton.mp hperm
  have haddr0 : addr 0 % 256 ^ 8 = addr 0 :=
    Nat.mod_eq_of_lt ((haddr.userSpace 0 Nat.one_pos).trans (by decide))
  have hpointer : leValue ((responsesBytes addr 1).take sizeofPointer) = addr 0 := by
    rw [responsesBytes, List.range_one, List.flatMap_singleton, List.take_left' (leBytes_length ..),
      leValue_leBytes]
    exact haddr0
  have hderef : derefResponse addr [message.payload] (addr 0) = .ok message.payload := by
    simp [derefResponse]
  refine ⟨[message], .refl _, List.pairwise_singleton .., ?_⟩
  have hend : OnlyFinalLast [message] := ⟨[], message, rfl, hlast, by simp⟩
  rw [listBoxes_eq qsort addr List.length_singleton hmax hend, hsorted, List.flatten_singleton,
    sortedPart, List.take_append_drop, List.map_singleton, printResponses, hpointer, hderef,
    ok_bind, printResponse_payload, ok_bind, printResponses]
  simp

/-- Behind two pointers or more there is an element of zeros. -/
theorem zeros_mem_elements (addr : Nat → Nat) {n : Nat} (h2 : 2 ≤ n) (hn : n ≤ tfsDefaultParams.maxInodeCount) :
    List.replicate sizeofListBoxesResponseProto 0 ∈
      elements n sizeofListBoxesResponseProto (sortedPart addr n) := by
  have hbehind : sizeofPointer * n ≤ sizeofListBoxesResponseProto * (n - 1) := by
    unfold sizeofPointer sizeofListBoxesResponseProto boxNameSize
    omega
  have hroom : n * sizeofListBoxesResponseProto - sizeofListBoxesResponseProto * (n - 1) =
      sizeofListBoxesResponseProto := by
    unfold sizeofListBoxesResponseProto boxNameSize
    omega
  have hsize : sizeofListBoxesResponseProto ≤
      responsesSize - sizeofListBoxesResponseProto * (n - 1) := by
    have hsort := (sizes_le hn).1
    omega
  refine List.mem_map.mpr ⟨n - 1, List.mem_range.mpr (by omega), ?_⟩
  rw [sortedPart, List.drop_take, hroom, responsesBytes_drop addr hbehind, List.take_take,
    Nat.min_self, List.take_replicate, Nat.min_eq_left hsize]

/-- With addresses that all have a second byte, the element of zeros or
another that starts with no such address comes first. -/
theorem listBoxes_fails (hq : Sorts qsort) (h2 : 2 ≤ messages.length)
    (hlen : messages.length ≤ tfsDefaultParams.maxInodeCount) (hend : OnlyFinalLast messages)
    (haddr : ∀ i < messages.length, addr i / 256 % 256 ≠ 0) :
    listBoxes qsort addr (wire messages) = .error .outOfBounds := by
  obtain ⟨sorted, hperm, hpairwise, hsorted⟩ :=
    hq messages.length sizeofListBoxesResponseProto cmpResponse _ (sortedPart_length addr hlen)
      cmpResponse_consistent
  have hzeros := hperm.mem_iff.mpr (zeros_mem_elements addr h2 hlen)
  rw [listBoxes_eq qsort addr rfl hlen hend, hsorted]
  cases sorted with
  | nil => cases hzeros
  | cons e es =>
      have hfirst : boxNameOf e = [] := by
        have hle : cmpResponse e (List.replicate sizeofListBoxesResponseProto 0) ≤ 0 := by
          rcases List.mem_cons.mp hzeros with heq | hmem
          · rw [heq]
            exact cmpResponse_consistent.refl e
          · exact (List.pairwise_cons.mp hpairwise).1 _ hmem
        rw [cmpResponse, boxNameOf_replicate] at hle
        exact strcmp_nil_le.mp hle
      have helen : e.length = sizeofListBoxesResponseProto := by
        obtain ⟨i, hi, rfl⟩ := List.mem_map.mp (hperm.mem_iff.mp List.mem_cons_self)
        have hi := List.mem_range.mp hi
        rw [List.length_take, List.length_drop, sortedPart_length addr hlen]
        unfold sizeofListBoxesResponseProto boxNameSize
        omega
      obtain ⟨n, hn⟩ : ∃ n, messages.length = n + 1 := ⟨messages.length - 1, by omega⟩
      have hderef : ∀ rest, derefResponse addr (messages.map ListMessage.payload)
          (leValue ((e ++ rest).take sizeofPointer)) = .error .outOfBounds := by
        intro rest
        refine derefResponse_of_ne fun i hi heq => ?_
        have hsecond := leValue_of_boxNameOf_nil helen hfirst rest
        rw [← heq] at hsecond
        exact haddr i (by simpa using hi) hsecond
      rw [List.flatten_cons, List.append_assoc, hn, printResponses, hderef]
      rfl

/-- Structs that are far apart, at addresses with a second byte. -/
def spreadAddr (i : Nat) : Nat := 65536 * (i + 1) + 256

theorem spreadAddr_placed {n : Nat} (h : n ≤ tfsDefaultParams.maxInodeCount) :
    Placed spreadAddr n := by
  have hmax : tfsDefaultParams.maxInodeCount = 64 := rfl
  constructor
  all_goals
    unfold spreadAddr
  · intro i _
    omega
  · intro i hi
    omega
  · intro i _
    omega
  · intro i _ j _ hij
    unfold sizeofListBoxesResponseProto boxNameSize
    omega

theorem not_listsSorted (hq : Sorts qsort) (h2 : 2 ≤ messages.length)
    (hlen : messages.length ≤ tfsDefaultParams.maxInodeCount) (hend : OnlyFinalLast messages) :
    ¬ ListsSorted qsort messages := by
  intro h
  obtain ⟨_, -, -, hlist⟩ := h spreadAddr (spreadAddr_placed hlen)
  rw [listBoxes_fails hq h2 hlen hend fun i _ => by unfold spreadAddr; omega] at hlist
  cases hlist

/-- **The listing is a sorted copy** of what was received, wherever the
structs are, only if there is one of them. -/
theorem listsSorted_iff (hq : Sorts qsort)
    (hlen : messages.length ≤ tfsDefaultParams.maxInodeCount) (hend : OnlyFinalLast messages) :
    ListsSorted qsort messages ↔ messages.length = 1 := by
  obtain ⟨init, final, rfl, hfinal, hinit⟩ := id hend
  constructor
  · intro h
    by_contra hne
    rw [List.length_append, List.length_singleton] at hne
    exact not_listsSorted hq (by simp; omega) hlen hend h
  · intro h
    obtain rfl : init = [] := by simpa using h
    exact listsSorted_one hq final hfinal

/-- An empty box with the name `/` and a letter. -/
def boxMessage (last letter : UInt8) : ListMessage where
  payload := last :: 47 :: letter :: List.replicate 54 0
  sized := by simp [sizeofListBoxesResponseProto, boxNameSize]
  named := by simp [boxNameSize]

/-- The box `/a` alone. -/
theorem oneBox_listsSorted : ListsSorted insertionQsort [boxMessage 1 97] :=
  (listsSorted_iff insertionQsort_sorts (by decide)
    ⟨[], boxMessage 1 97, rfl, by decide, by simp⟩).mpr rfl

/-- The boxes `/a` and `/b`, in this order. -/
theorem twoBoxes_not_listsSorted :
    ¬ ListsSorted insertionQsort [boxMessage 0 97, boxMessage 1 98] := by
  have hend : OnlyFinalLast [boxMessage 0 97, boxMessage 1 98] := by
    refine ⟨[boxMessage 0 97], boxMessage 1 98, rfl, by decide, fun m hm => ?_⟩
    rw [List.mem_singleton.mp hm]
    rfl
  exact not_listsSorted insertionQsort_sorts (by decide) (by decide) hend

end Listing

end MBroker
