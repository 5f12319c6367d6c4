import MBroker.Protocol.Messages

/-!
# The clients' requests (publisher/pub.c, subscriber/sub.c, manager/manager.c)

`request_proto` copies the name of the box and then the path of the pipe
into adjacent fields, with no regard for their sizes: a path of 256
characters or more runs over the name, and a longer name runs out of the
struct. The publisher and the subscriber compare both strings with their
arguments before they send the struct; the manager does not.
-/

namespace MBroker

/-! ## Strings in a struct -/

/-- `strcmp(str, p + a) == 0`, in the memory from `p` on. -/
def strcmpEq (mem : Nat → UInt8) (a : Nat) : List UInt8 → Bool
  | [] => mem a == 0
  | c :: cs => mem a == c && strcmpEq mem (a + 1) cs

/-! ## Clients -/

/-- What a client writes to the register pipe when it has checked that the
struct holds its arguments. -/
def checkedRequest (code : Code) (pipeName boxName : CString) (mem : Nat → UInt8) :
    Except Fault (List UInt8) := do
  let request := requestProto pipeName boxName mem
  alwaysAssert (strcmpEq request 0 pipeName.chars) "error while reading name"
  alwaysAssert (strcmpEq request npipePathSize boxName.chars) "error while reading box_name"
  sendProtoString code.byte (structBytes sizeofRequestProto request)

/-- What a client writes that checks nothing. -/
def uncheckedRequest (code : Code) (pipeName boxName : CString) (mem : Nat → UInt8) :
    Except Fault (List UInt8) :=
  sendProtoString code.byte (structBytes sizeofRequestProto (requestProto pipeName boxName mem))

/-- `main` of publisher/pub.c. -/
def pubMain := checkedRequest .registerPublisher

/-- `main` of subscriber/sub.c. -/
def subMain := checkedRequest .registerSubscriber

/-- The request of the manager's `create_box`. -/
def createBoxRequest := uncheckedRequest .createBoxRequest

/-- The request of the manager's `remove_box`. -/
def removeBoxRequest := uncheckedRequest .removeBoxRequest

/-- The clients that send a path and a name. -/
inductive Client
  | pub
  | sub
  | managerCreate
  | managerRemove

namespace Client

def code : Client → Code
  | pub => .registerPublisher
  | sub => .registerSubscriber
  | managerCreate => .createBoxRequest
  | managerRemove => .removeBoxRequest

/-- What the client writes to the register pipe. -/
def request : Client → CString → CString → (Nat → UInt8) → Except Fault (List UInt8)
  | pub => pubMain
  | sub => subMain
  | managerCreate => MBroker.createBoxRequest
  | managerRemove => MBroker.removeBoxRequest

/-- The clients that compare what they send with their arguments. -/
def Checks : Client → Prop
  | pub | sub => True
  | managerCreate | managerRemove => False

end Client

/-- Whatever follows in the pipe, the broker reads the code and a struct in
which both strings end and are the ones given. -/
def BrokerSees (client : Client) (path name : CString) (mem : Nat → UInt8) : Prop :=
  ∀ wx, client.request path name mem = .ok wx → ∀ rest, ∃ rx proto,
    pipeRead (wx ++ rest) 1 = ([client.code.byte], rx) ∧
    parseProtocol rx client.code.byte = .ok (proto, rest) ∧ proto.length = sizeofRequestProto ∧
    stringAt 0 proto = .ok path ∧ stringAt npipePathSize proto = .ok name

/-- The name is not run over, or by itself. -/
def NameSurvives (path name : CString) : Prop :=
  path.chars.length < npipePathSize ∨ name.chars = path.chars.drop npipePathSize

section Strings

variable {str : CString} {mem : Nat → UInt8} {a n : Nat}

/-- A string in memory is its bytes and a NUL. -/
theorem strcmpEq_iff {str : List UInt8} :
    strcmpEq mem a str = true ↔ fieldBytes a (str.length + 1) mem = str ++ [0] := by
  induction str generalizing a with
  | nil => simp [strcmpEq, fieldBytes, structBytes]
  | cons c cs ih =>
      have hfield : fieldBytes a (cs.length + 1 + 1) mem =
          mem a :: fieldBytes (a + 1) (cs.length + 1) mem := by
        unfold fieldBytes structBytes
        rw [List.range_succ_eq_map, List.map_cons, List.map_map]
        refine congrArg _ (List.map_congr_left fun j _ => ?_)
        simp only [Function.comp_apply, Nat.succ_eq_add_one, Nat.add_assoc, Nat.add_comm 1 j]
      rw [strcmpEq, Bool.and_eq_true, ih, List.length_cons, hfield, List.cons_append,
        List.cons.injEq, beq_iff_eq]

/-- What was copied is there. -/
theorem strcmpEq_strcpy (a : Nat) (str : CString) (mem : Nat → UInt8) :
    strcmpEq (strcpy a str mem) a str.chars = true := by
  rw [strcmpEq_iff]
  exact fieldBytes_storeBytes (by simp)

/-- There is one string at an address. -/
theorem strcmpEq_unique {s t : List UInt8} (hs0 : 0 ∉ s) (ht0 : 0 ∉ t)
    (hs : strcmpEq mem a s = true) (ht : strcmpEq mem a t = true) : s = t := by
  induction s generalizing a t with
  | nil =>
      cases t with
      | nil => rfl
      | cons c cs =>
          rw [strcmpEq, beq_iff_eq] at hs
          rw [strcmpEq, Bool.and_eq_true, beq_iff_eq, hs] at ht
          exact absurd (ht.1 ▸ List.mem_cons_self) ht0
  | cons c cs ih =>
      rw [strcmpEq, Bool.and_eq_true, beq_iff_eq] at hs
      cases t with
      | nil =>
          rw [strcmpEq, beq_iff_eq, hs.1] at ht
          exact absurd (ht ▸ List.mem_cons_self) hs0
      | cons d ds =>
          rw [strcmpEq, Bool.and_eq_true, beq_iff_eq, hs.1] at ht
          have hrest := ih (fun h => hs0 (List.mem_cons_of_mem c h))
            (fun h => ht0 (List.mem_cons_of_mem d h)) hs.2 ht.2
          rw [ht.1, hrest]

/-- An array with a NUL is its string, the NUL and the rest. -/
theorem arrayString_split {array : List UInt8} (h : 0 ∈ array) :
    ∃ rest, array = arrayString array ++ 0 :: rest := by
  induction array with
  | nil => cases h
  | cons b bs ih =>
      by_cases hb : b = 0
      · subst hb
        exact ⟨bs, by simp [arrayString]⟩
      · obtain ⟨rest, hrest⟩ := ih ((List.mem_cons.mp h).resolve_left (Ne.symm hb))
        refine ⟨rest, ?_⟩
        rw [arrayString, List.takeWhile_cons_of_pos (by simpa using hb), List.cons_append]
        exact congrArg _ hrest

theorem stringAt_eq_ok {proto : List UInt8} :
    stringAt a proto = .ok str ↔ ∃ rest, proto.drop a = str.chars ++ 0 :: rest := by
  unfold stringAt
  constructor
  · intro h
    split at h
    · rename_i hmem
      have hstr : arrayString (proto.drop a) = str.chars :=
        congrArg CString.chars (Except.ok.inj h)
      obtain ⟨rest, hrest⟩ := arrayString_split hmem
      rw [hstr] at hrest
      exact ⟨rest, hrest⟩
    · cases h
  · rintro ⟨rest, hdrop⟩
    have hstr := arrayString_append str.noNul rest
    simp only [hdrop, hstr]
    rw [if_pos (by simp)]
    rfl

/-- The string at offset `a` of a struct, if it ends inside. -/
theorem stringAt_structBytes (str : CString) (mem : Nat → UInt8) (ha : a ≤ n) :
    stringAt a (structBytes n mem) = .ok str ↔
      a + str.chars.length < n ∧ strcmpEq mem a str.chars = true := by
  obtain ⟨k, rfl⟩ : ∃ k, n = a + k := ⟨n - a, by omega⟩
  have hdrop : (structBytes (a + k) mem).drop a = fieldBytes a k mem := by
    rw [structBytes_add, List.drop_left' (structBytes_length ..)]
  rw [stringAt_eq_ok, hdrop, strcmpEq_iff]
  constructor
  · rintro ⟨rest, hrest⟩
    have hlen := congrArg List.length hrest
    rw [fieldBytes_length, List.length_append, List.length_cons] at hlen
    obtain rfl : k = str.chars.length + 1 + rest.length := by omega
    have hsplit : fieldBytes a (str.chars.length + 1 + rest.length) mem = _ := structBytes_add ..
    rw [hsplit, ← List.singleton_append, ← List.append_assoc] at hrest
    exact ⟨by omega, (List.append_inj hrest (by simp)).1⟩
  · rintro ⟨hlt, hstr⟩
    obtain ⟨r, rfl⟩ : ∃ r, k = str.chars.length + 1 + r := ⟨k - (str.chars.length + 1), by omega⟩
    have hsplit : fieldBytes a (str.chars.length + 1 + r) mem =
        fieldBytes a (str.chars.length + 1) mem ++ _ := structBytes_add ..
    rw [hsplit, hstr, List.append_assoc]
    exact ⟨_, rfl⟩

end Strings

/-! ## What is in the struct -/

section Requests

variable {path name : CString} {mem : Nat → UInt8} {client : Client} {rest : List UInt8}

/-- A copy beside a string leaves it. -/
theorem strcmpEq_of_disjoint {a b : Nat} {src : CString} {str : List UInt8}
    (h : b + src.chars.length < a) : strcmpEq (strcpy b src mem) a str = strcmpEq mem a str := by
  rw [Bool.eq_iff_iff, strcmpEq_iff, strcmpEq_iff, fieldBytes_strcpy_of_disjoint (.inl h)]

/-- The tail of a string that was copied. -/
theorem strcmpEq_drop (a : Nat) (mem : Nat → UInt8) {k : Nat} (hk : k ≤ path.chars.length) :
    strcmpEq (strcpy a path mem) (a + k) (path.chars.drop k) = true := by
  have hall := strcmpEq_iff.mp (strcmpEq_strcpy a path mem)
  rw [strcmpEq_iff, List.length_drop]
  obtain ⟨d, hd⟩ : ∃ d, path.chars.length + 1 = k + (d + 1) := ⟨path.chars.length - k, by omega⟩
  have hsplit : fieldBytes a (k + (d + 1)) (strcpy a path mem) = _ := structBytes_add ..
  rw [hd, hsplit] at hall
  have hdrop := congrArg (List.drop k) hall
  rw [List.drop_left' (structBytes_length ..), List.drop_append_of_le_length hk] at hdrop
  rw [show path.chars.length - k + 1 = d + 1 by omega, ← hdrop]
  unfold fieldBytes
  simp only [Nat.add_assoc]

theorem path_survives (path name : CString) (mem : Nat → UInt8) :
    strcmpEq (requestProto path name mem) 0 path.chars = true :=
  strcmpEq_strcpy ..

/-- The broker finds the name where the path has not run over it, or where
the end of the path happens to be the name. -/
theorem name_survives_iff :
    strcmpEq (requestProto path name mem) npipePathSize name.chars = true ↔
      NameSurvives path name := by
  unfold NameSurvives
  by_cases hlen : path.chars.length < npipePathSize
  · refine iff_of_true ?_ (.inl hlen)
    rw [requestProto, strcmpEq_of_disjoint (by omega)]
    exact strcmpEq_strcpy ..
  · -- the end of the path is the string at that place
    have hdrop : strcmpEq (requestProto path name mem) npipePathSize
        (path.chars.drop npipePathSize) = true := by
      have htail := strcmpEq_drop 0 (strcpy npipePathSize name mem) (Nat.le_of_not_lt hlen)
      rw [Nat.zero_add] at htail
      exact htail
    constructor
    · intro hname
      exact .inr (strcmpEq_unique name.noNul (fun h => path.noNul (List.mem_of_mem_drop h))
        hname hdrop)
    · rintro (hlt | heq)
      · exact absurd hlt hlen
      · rw [heq]
        exact hdrop

theorem protoSize_request (client : Client) (path name : CString) (mem : Nat → UInt8) :
    protoSize client.code.byte =
      .ok (structBytes sizeofRequestProto (requestProto path name mem)).length := by
  rw [structBytes_length]
  cases client <;> rfl

theorem sendProtoString_request (client : Client) (path name : CString) (mem : Nat → UInt8) :
    sendProtoString client.code.byte (structBytes sizeofRequestProto (requestProto path name mem)) =
      .ok (client.code.byte :: structBytes sizeofRequestProto (requestProto path name mem)) :=
  sendProtoString_eq (protoSize_request client path name mem)

/-- A client that checks sends only if the name is there. -/
theorem request_eq_ok {wx : List UInt8} : client.request path name mem = .ok wx ↔
    (client.Checks → NameSurvives path name) ∧
      wx = client.code.byte :: structBytes sizeofRequestProto (requestProto path name mem) := by
  have hchecked : ∀ code : Code, code = client.code →
      (checkedRequest code path name mem = .ok wx ↔ NameSurvives path name ∧
        wx = client.code.byte :: structBytes sizeofRequestProto (requestProto path name mem)) := by
    rintro code rfl
    rw [checkedRequest, alwaysAssert_of_true (path_survives path name mem), ok_bind, bind_eq_ok,
      sendProtoString_request, Unique.exists_iff]
    show alwaysAssert _ _ = .ok () ∧ _ ↔ _
    rw [alwaysAssert_eq_ok, name_survives_iff, Except.ok.injEq, eq_comm (a := wx)]
  have hunchecked : ∀ code : Code, code = client.code →
      (uncheckedRequest code path name mem = .ok wx ↔
        wx = client.code.byte :: structBytes sizeofRequestProto (requestProto path name mem)) := by
    rintro code rfl
    rw [uncheckedRequest, sendProtoString_request, Except.ok.injEq, eq_comm]
  cases client with
  | pub => exact (hchecked _ rfl).trans (and_congr_left' (by simp [Client.Checks]))
  | sub => exact (hchecked _ rfl).trans (and_congr_left' (by simp [Client.Checks]))
  | managerCreate => exact (hunchecked _ rfl).trans (by simp [Client.Checks])
  | managerRemove => exact (hunchecked _ rfl).trans (by simp [Client.Checks])

/-- The broker reads the struct that was sent, and the strings in it. -/
theorem broker_reads_iff (client : Client) (path name : CString) (mem : Nat → UInt8)
    (rest : List UInt8) :
    (∃ rx proto,
      pipeRead (client.code.byte :: structBytes sizeofRequestProto (requestProto path name mem) ++
        rest) 1 = ([client.code.byte], rx) ∧
      parseProtocol rx client.code.byte = .ok (proto, rest) ∧
      proto.length = sizeofRequestProto ∧
      stringAt 0 proto = .ok path ∧ stringAt npipePathSize proto = .ok name) ↔
    NameSurvives path name ∧ name.chars.length < boxNameSize := by
  have hlen := structBytes_length sizeofRequestProto (requestProto path name mem)
  have hsize : sizeofRequestProto = npipePathSize + boxNameSize := rfl
  have hparse := parseProtocol_append (protoSize_request client path name mem) rest
  have hpath := stringAt_structBytes path (requestProto path name mem)
    (Nat.zero_le sizeofRequestProto)
  have hname := stringAt_structBytes name (requestProto path name mem)
    (show npipePathSize ≤ sizeofRequestProto by decide)
  rw [name_survives_iff] at hname
  constructor
  · rintro ⟨rx, proto, hread, hproto, -, -, hstr⟩
    obtain rfl : structBytes sizeofRequestProto (requestProto path name mem) ++ rest = rx :=
      congrArg Prod.snd hread
    rw [hparse] at hproto
    obtain rfl := congrArg Prod.fst (Except.ok.inj hproto)
    obtain ⟨hend, hsurvives⟩ := hname.mp hstr
    exact ⟨hsurvives, by omega⟩
  · rintro ⟨hsurvives, hfits⟩
    -- a path that runs over the name ends where the name does
    have hlong : path.chars.length < npipePathSize + boxNameSize := by
      rcases hsurvives with hlt | heq
      · omega
      · rw [heq, List.length_drop] at hfits
        omega
    refine ⟨_, _, rfl, hparse, hlen, hpath.mpr ⟨?_, path_survives path name mem⟩,
      hname.mpr ⟨?_, hsurvives⟩⟩
    · omega
    · omega

/-- **What a client asks is what the broker sees** exactly when the name is
not run over and ends inside its field, or the client's check stops it. -/
theorem brokerSees_iff (client : Client) (path name : CString) (mem : Nat → UInt8) :
    BrokerSees client path name mem ↔
      (client.Checks ∧ ¬ NameSurvives path name) ∨
        (NameSurvives path name ∧ name.chars.length < boxNameSize) := by
  have hreads : BrokerSees client path name mem ↔ ((client.Checks → NameSurvives path name) →
      NameSurvives path name ∧ name.chars.length < boxNameSize) := by
    unfold BrokerSees
    constructor
    · intro h hsends
      exact (broker_reads_iff client path name mem []).mp
        (h _ (request_eq_ok.mpr ⟨hsends, rfl⟩) [])
    · intro h wx hwx rest
      obtain ⟨hsends, rfl⟩ := request_eq_ok.mp hwx
      exact (broker_reads_iff client path name mem rest).mpr (h hsends)
  rw [hreads]
  by_cases hchecks : client.Checks <;> by_cases hsurvives : NameSurvives path name <;>
    simp [hchecks, hsurvives]

theorem replicate_noNul (n : Nat) : (0 : UInt8) ∉ List.replicate n 112 := by
  simp

/-- A path of 256 characters. -/
def longPath : CString := ⟨List.replicate npipePathSize 112, replicate_noNul _⟩

/-- The manager asks for the box `/a`, and the NUL of its path ends the name
before it begins. -/
theorem longPath_not_brokerSees :
    ¬ BrokerSees .managerCreate longPath ⟨[47, 97], by decide⟩ fun _ => 0 := by
  intro h
  have hreads := h _ (request_eq_ok.mpr ⟨False.elim, rfl⟩) []
  rw [broker_reads_iff] at hreads
  rcases hreads.1 with hlt | heq
  · simp [longPath] at hlt
  · simp [longPath] at heq

end Requests

end MBroker
