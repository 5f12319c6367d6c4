import MBroker.Protocol.Protocols
import MBroker.Lib.Machine

/-!
# The register pipe (mbroker/mbroker.c)

Clients write requests to one pipe; the broker's main loop reads an opcode,
lets `parse_protocol` read the struct and enqueues both. A message is
shorter than `PIPE_BUF`, so its `write` is atomic, and the loop may take
any number of steps between two writes. A `read` of the opcode that finds
nothing waits, or returns 0 and is repeated.

`queue` is everything that has been enqueued, in that order; `Queue` is
about what becomes of it.
-/

namespace MBroker

open Framing

/-! ## The model -/

/-- A request message: its code and the bytes of its struct. -/
structure Message where
  code : Code
  request : code.isRequest
  proto : List UInt8
  sized : protoSize code.byte = .ok proto.length

/-- What the main loop reads next: an opcode, or the struct of the message
whose opcode it has read. -/
inductive LoopPoint
  | readOpcode
  | parse (protCode : UInt8)

/-- The pipe, what each client has still to send, and the main loop. -/
structure RegisterPipe (ι : Type) where
  pipe : List UInt8
  pending : ι → List Message
  loop : LoopPoint
  queue : List (UInt8 × List UInt8)

/-- The next message of client `i` is sent, or the main loop takes a step. -/
inductive PipeEvent (ι : Type)
  | send (i : ι)
  | loop

section Model

variable {ι : Type} [DecidableEq ι]

/-- A client with nothing to send does nothing. -/
def sendStep (s : RegisterPipe ι) (i : ι) : Except Fault (Option (RegisterPipe ι)) :=
  match s.pending i with
  | [] => return none
  | m :: rest => do
    let bytes ← sendProtoString m.code.byte m.proto
    return some { s with
      pipe := s.pipe ++ bytes
      pending := Function.update s.pending i rest }

def loopStep (s : RegisterPipe ι) : Except Fault (Option (RegisterPipe ι)) :=
  match s.loop with
  | .readOpcode =>
    match pipeRead s.pipe 1 with
    | (protCode :: _, pipe) => return some { s with pipe, loop := .parse protCode }
    | ([], _) => return none
  | .parse protCode => do
    let (protocol, pipe) ← parseProtocol s.pipe protCode
    return some { s with
      pipe
      loop := .readOpcode
      queue := s.queue ++ [(protCode, protocol)] }

def pipeStep (s : RegisterPipe ι) : PipeEvent ι → Except Fault (Option (RegisterPipe ι))
  | .send i => sendStep s i
  | .loop => loopStep s

/-- The runs in which client `i` sends the messages `sent i`. -/
def pipeMachine (sent : ι → List Message) : Machine (RegisterPipe ι) (PipeEvent ι) where
  start s := s = ⟨[], sent, .readOpcode, []⟩
  step s e := (pipeStep s e).toOption.join

/-- Proof-only: the messages sent so far and their clients, in the order of
the writes. -/
abbrev Written (ι : Type) := List (ι × Message)

def Written.update (s : RegisterPipe ι) (e : PipeEvent ι) (_ : RegisterPipe ι) (w : Written ι) :
    Written ι :=
  match e with
  | .send i => w ++ (s.pending i).head?.toList.map fun m => (i, m)
  | .loop => w

/-- The runs with the order of the writes. -/
abbrev writtenMachine (sent : ι → List Message) :
    Machine (RegisterPipe ι × Written ι) (PipeEvent ι) :=
  (pipeMachine sent).ghost [] Written.update

end Model

section Steps

variable {ι : Type} {s : RegisterPipe ι} {i : ι}

theorem sendStep_nil [DecidableEq ι] (hi : s.pending i = []) : sendStep s i = .ok none := by
  rw [sendStep, hi]
  rfl

theorem sendStep_cons [DecidableEq ι] {m : Message} {ms : List Message}
    (hi : s.pending i = m :: ms) :
    sendStep s i = .ok (some { s with
      pipe := s.pipe ++ m.code.byte :: m.proto
      pending := Function.update s.pending i ms }) := by
  rw [sendStep, hi]
  dsimp only
  rw [sendProtoString_eq m.sized]
  rfl

theorem loopStep_nil (hloop : s.loop = .readOpcode) (hpipe : s.pipe = []) :
    loopStep s = .ok none := by
  rw [loopStep, hloop, hpipe]
  rfl

theorem loopStep_cons {protCode : UInt8} {pipe : List UInt8} (hloop : s.loop = .readOpcode)
    (hpipe : s.pipe = protCode :: pipe) :
    loopStep s = .ok (some { s with pipe, loop := .parse protCode }) := by
  rw [loopStep, hloop, hpipe]
  rfl

theorem loopStep_parse {protCode : UInt8} {protocol pipe : List UInt8}
    (hloop : s.loop = .parse protCode)
    (hparse : parseProtocol s.pipe protCode = .ok (protocol, pipe)) :
    loopStep s = .ok (some { s with
      pipe
      loop := .readOpcode
      queue := s.queue ++ [(protCode, protocol)] }) := by
  rw [loopStep, hloop]
  dsimp only
  rw [hparse]
  rfl

/-- A client that writes sends its next message. -/
theorem sendStep_cases [DecidableEq ι] {s' : RegisterPipe ι}
    (h : sendStep s i = .ok (some s')) : ∃ m ms, s.pending i = m :: ms ∧
      s' = { s with
        pipe := s.pipe ++ m.code.byte :: m.proto
        pending := Function.update s.pending i ms } := by
  cases hi : s.pending i with
  | nil =>
      rw [sendStep_nil hi] at h
      cases h
  | cons m ms =>
      rw [sendStep_cons hi] at h
      cases h
      exact ⟨m, ms, rfl, rfl⟩

/-- The main loop reads an opcode, or the struct that the opcode announced. -/
theorem loopStep_cases {s' : RegisterPipe ι} (h : loopStep s = .ok (some s')) :
    (∃ protCode pipe, s.loop = .readOpcode ∧ s.pipe = protCode :: pipe ∧
      s' = { s with pipe, loop := .parse protCode }) ∨
    ∃ protCode protocol pipe, s.loop = .parse protCode ∧
      parseProtocol s.pipe protCode = .ok (protocol, pipe) ∧
      s' = { s with
        pipe
        loop := .readOpcode
        queue := s.queue ++ [(protCode, protocol)] } := by
  cases hloop : s.loop with
  | readOpcode =>
      cases hpipe : s.pipe with
      | nil =>
          rw [loopStep_nil hloop hpipe] at h
          cases h
      | cons protCode pipe =>
          rw [loopStep_cons hloop hpipe] at h
          cases h
          exact .inl ⟨protCode, pipe, rfl, rfl, rfl⟩
  | parse protCode =>
      cases hparse : parseProtocol s.pipe protCode with
      | error fault =>
          rw [loopStep, hloop] at h
          dsimp only at h
          rw [hparse] at h
          cases h
      | ok res =>
          obtain ⟨protocol, pipe⟩ := res
          rw [loopStep_parse hloop hparse] at h
          cases h
          exact .inr ⟨protCode, protocol, pipe, rfl, hparse, rfl⟩

end Steps

/-- What the main loop should enqueue for the messages. -/
def objects {ι : Type} (w : Written ι) : List (UInt8 × List UInt8) :=
  w.map fun p => (p.2.code.byte, p.2.proto)

/-- The messages of client `i`. -/
def sentBy {ι : Type} [DecidableEq ι] (i : ι) (w : Written ι) : List Message :=
  (w.filter fun p => p.1 = i).map Prod.snd

/-! ## The loop stays in step -/

/-- The size of a struct; no code that is not a protocol's is ever read. -/
def packetSize (code : UInt8) : Nat := (protoSize code).toOption.getD 0

def Message.packet (m : Message) : Packet packetSize where
  tag := m.code.byte
  payload := m.proto
  sized := by
    rw [packetSize, m.sized]
    rfl

def LoopPoint.phase : LoopPoint → Phase UInt8
  | .readOpcode => .tag
  | .parse protCode => .payload protCode

section Framed

variable {ι : Type} [DecidableEq ι] {s s' : RegisterPipe ι} {w : Written ι} {i : ι}
  {sent : ι → List Message}

/-- The messages that have been read are enqueued, the others are in the pipe. -/
structure Framed (sent : ι → List Message) (s : RegisterPipe ι) (w : Written ι) : Prop where
  stream : ∃ seen rest, w = seen ++ rest ∧ s.queue = objects seen ∧
    Aligned (rest.map fun p => p.2.packet) s.loop.phase s.pipe
  order : ∀ i, sentBy i w ++ s.pending i = sent i

theorem Framed.start : Framed sent ⟨[], sent, .readOpcode, []⟩ [] where
  stream := ⟨[], [], rfl, rfl, .tag []⟩
  order _ := rfl

/-- A client sends its next message. -/
theorem Framed.send {m : Message} {ms : List Message} (h : Framed sent s w)
    (hi : s.pending i = m :: ms) :
    Framed sent { s with
      pipe := s.pipe ++ m.code.byte :: m.proto
      pending := Function.update s.pending i ms } (w ++ [(i, m)]) := by
  obtain ⟨seen, rest, hw, hqueue, haligned⟩ := h.stream
  constructor
  -- the write is atomic: its packet goes behind all that the loop has still to see
  · refine ⟨seen, rest ++ [(i, m)], by rw [hw, List.append_assoc], hqueue, ?_⟩
    rw [List.map_append]
    exact haligned.write m.packet
  · intro j
    have hj := h.order j
    unfold sentBy at hj ⊢
    by_cases hij : i = j
    · subst hij
      rw [hi] at hj
      simp [← hj]
    · rw [← hj]
      simp [hij, Function.update_of_ne (Ne.symm hij)]

/-- The main loop reads an opcode. -/
theorem Framed.readOpcode {protCode : UInt8} {pipe : List UInt8} (h : Framed sent s w)
    (hloop : s.loop = .readOpcode) (hpipe : s.pipe = protCode :: pipe) :
    Framed sent { s with pipe, loop := .parse protCode } w := by
  obtain ⟨seen, rest, hw, hqueue, haligned⟩ := h.stream
  rw [hloop, hpipe] at haligned
  exact ⟨⟨seen, rest, hw, hqueue, haligned.readTag⟩, h.order⟩

/-- The struct that was announced is all there. -/
theorem Framed.parse {protCode : UInt8} (h : Framed sent s w) (hloop : s.loop = .parse protCode) :
    ∃ protocol pipe, parseProtocol s.pipe protCode = .ok (protocol, pipe) ∧
      Framed sent { s with
        pipe
        loop := .readOpcode
        queue := s.queue ++ [(protCode, protocol)] } w := by
  obtain ⟨seen, rest, hw, hqueue, haligned⟩ := h.stream
  rw [hloop] at haligned
  have hsize := haligned.size_le
  obtain ⟨f, fs, hrest, htag, htake, hrestAligned⟩ := haligned.readPayload
  cases rest with
  | nil => cases hrest
  | cons p rest =>
      obtain ⟨hf, hfs⟩ := List.cons.inj hrest
      have hcode : p.2.code.byte = protCode := by
        rw [← htag, ← hf]
        rfl
      have hproto : s.pipe.take (packetSize protCode) = p.2.proto := by
        rw [htake, ← hf]
        rfl
      have hprotoSize : protoSize protCode = .ok (packetSize protCode) := by
        rw [packetSize, ← hcode, p.2.sized]
        rfl
      refine ⟨_, _, parseProtocol_eq hprotoSize hsize, ⟨seen ++ [p], rest, ?_, ?_, ?_⟩, h.order⟩
      · rw [hw, List.append_assoc]
        rfl
      · rw [hproto, ← hcode, hqueue]
        simp [objects]
      · rw [hfs]
        exact hrestAligned

/-- A step keeps the loop in step, and does not fail. -/
theorem Framed.step (h : Framed sent s w) (e : PipeEvent ι) :
    ∃ o, pipeStep s e = .ok o ∧ ∀ s' ∈ o, Framed sent s' (Written.update s e s' w) := by
  cases e with
  | send i =>
      cases hi : s.pending i with
      | nil => exact ⟨none, sendStep_nil hi, fun s' hs' => by cases hs'⟩
      | cons m ms =>
          refine ⟨_, sendStep_cons hi, ?_⟩
          intro s' hs'
          obtain rfl := Option.some.inj hs'
          rw [Written.update, hi]
          exact h.send hi
  | loop =>
      cases hloop : s.loop with
      | readOpcode =>
          cases hpipe : s.pipe with
          | nil => exact ⟨none, loopStep_nil hloop hpipe, fun s' hs' => by cases hs'⟩
          | cons protCode pipe =>
              refine ⟨_, loopStep_cons hloop hpipe, ?_⟩
              intro s' hs'
              obtain rfl := Option.some.inj hs'
              exact h.readOpcode hloop hpipe
      | parse protCode =>
          obtain ⟨protocol, pipe, hparse, hframed⟩ := h.parse hloop
          refine ⟨_, loopStep_parse hloop hparse, ?_⟩
          intro s' hs'
          obtain rfl := Option.some.inj hs'
          exact hframed

theorem reachable_framed {p : RegisterPipe ι × Written ι}
    (hr : (writtenMachine sent).Reachable p) : Framed sent p.1 p.2 := by
  induction hr with
  | start hstart =>
      obtain ⟨hs, hw⟩ := hstart
      rw [hs, hw]
      exact .start
  | @step p q e _ _ hstep ih =>
      obtain ⟨hs, hw⟩ := Machine.ghost_step_eq_some.mp hstep
      obtain ⟨o, ho, hframed⟩ := ih.step e
      have hjoin : (pipeStep p.1 e).toOption.join = some q.1 := hs
      rw [ho] at hjoin
      rw [hw]
      exact hframed q.1 hjoin

/-! ## The loop empties the pipe -/

/-- A step of the main loop that is taken. -/
theorem pipeMachine_loop {s' : RegisterPipe ι} (h : loopStep s = .ok (some s')) :
    (pipeMachine sent).step s .loop = some s' := by
  show (loopStep s).toOption.join = some s'
  rw [h]
  rfl

/-- Everything that has been written is enqueued when the pipe is empty. -/
theorem Framed.drained (h : Framed sent s w) (hpipe : s.pipe = []) (hloop : s.loop = .readOpcode) :
    s.queue = objects w := by
  obtain ⟨seen, rest, hw, hqueue, haligned⟩ := h.stream
  rw [hpipe, hloop] at haligned
  have hrest := List.map_eq_nil_iff.mp haligned.drained
  rw [hqueue, hw, hrest, List.append_nil]

/-- The main loop by itself comes to an empty pipe, with everything that has
been written enqueued. -/
def Drains (sent : ι → List Message) (s : RegisterPipe ι) (w : Written ι) : Prop :=
  ∃ n s', (pipeMachine sent).run s (List.replicate n .loop) = some s' ∧ s'.pipe = [] ∧
    s'.loop = .readOpcode ∧ s'.pending = s.pending ∧ s'.queue = objects w

theorem Drains.step {s' : RegisterPipe ι} (h : Drains sent s' w)
    (hloop : loopStep s = .ok (some s')) (hpending : s'.pending = s.pending) :
    Drains sent s w := by
  obtain ⟨n, u, hrun, hpipe, hpoint, hsame, hqueue⟩ := h
  refine ⟨n + 1, u, ?_, hpipe, hpoint, hsame.trans hpending, hqueue⟩
  rw [List.replicate_succ, Machine.run_cons, pipeMachine_loop hloop]
  exact hrun

/-- Each step of the main loop makes this smaller. -/
def RegisterPipe.toRead (s : RegisterPipe ι) : Nat :=
  match s.loop with
  | .readOpcode => 2 * s.pipe.length
  | .parse _ => 2 * s.pipe.length + 1

theorem Framed.drains (h : Framed sent s w) : Drains sent s w := by
  -- the loop never waits on a pipe that is not empty, and what is left to read gets less
  induction hmeasure : s.toRead using Nat.strong_induction_on generalizing s with
  | _ measure ih =>
      unfold RegisterPipe.toRead at hmeasure
      cases hloop : s.loop with
      | readOpcode =>
          rw [hloop] at hmeasure
          dsimp only at hmeasure
          cases hpipe : s.pipe with
          | nil => exact ⟨0, s, rfl, hpipe, hloop, rfl, h.drained hpipe hloop⟩
          | cons protCode pipe =>
              rw [hpipe, List.length_cons] at hmeasure
              refine Drains.step (ih _ ?_ (h.readOpcode hloop hpipe) rfl)
                (loopStep_cons hloop hpipe) rfl
              show 2 * pipe.length + 1 < measure
              omega
      | parse protCode =>
          rw [hloop] at hmeasure
          dsimp only at hmeasure
          obtain ⟨protocol, pipe, hparse, hframed⟩ := h.parse hloop
          have hle := parseProtocol_length hparse
          refine Drains.step (ih _ ?_ hframed rfl) (loopStep_parse hloop hparse) rfl
          show 2 * pipe.length < measure
          omega

/-! ## Runs -/

/-- What is written is enqueued in the same order: what has been read is a
prefix of it. -/
theorem Framed.queue_prefix (h : Framed sent s w) : s.queue <+: objects w := by
  obtain ⟨seen, rest, hw, hqueue, -⟩ := h.stream
  refine ⟨objects rest, ?_⟩
  rw [hqueue, hw]
  exact (List.map_append ..).symm

/-- **Framing on the register pipe.** In every interleaving of any number of
clients and the main loop no step fails; what has been enqueued are the
messages written so far, in their order, up to those still in the pipe; the
writes of each client are in its own order; and the main loop by itself
enqueues the rest and leaves no byte. -/
theorem registerPipe_framing {p : RegisterPipe ι × Written ι}
    (hr : (writtenMachine sent).Reachable p) :
    (∀ e fault, pipeStep p.1 e ≠ .error fault) ∧
      p.1.queue <+: objects p.2 ∧
      (∀ i, sentBy i p.2 ++ p.1.pending i = sent i) ∧
      (p.1.pipe = [] → p.1.loop = .readOpcode → p.1.queue = objects p.2) ∧
      Drains sent p.1 p.2 := by
  have hframed := reachable_framed hr
  refine ⟨?_, hframed.queue_prefix, hframed.order, hframed.drained, hframed.drains⟩
  intro e fault hfault
  obtain ⟨o, ho, -⟩ := hframed.step e
  rw [hfault] at ho
  cases ho

end Framed

/-- A message of `n` equal bytes. -/
def plainMessage (code : Code) (request : code.isRequest) (n : Nat)
    (sized : protoSize code.byte = .ok n) (b : UInt8) : Message where
  code := code
  request := request
  proto := List.replicate n b
  sized := by rw [List.length_replicate, sized]

/-- Client `true` lists the boxes and removes one, client `false` creates one. -/
def twoClients (i : Bool) : List Message :=
  if i then
    [plainMessage .listBoxesRequest rfl 256 rfl 1, plainMessage .removeBoxRequest rfl 288 rfl 2]
  else [plainMessage .createBoxRequest rfl 288 rfl 3]

/-- The main loop is between an opcode and its struct when a client writes. -/
def interleavedRun : List (PipeEvent Bool) :=
  [.send true, .loop, .send false, .loop, .loop, .send true, .loop]

theorem interleavedRun_result :
    (((writtenMachine twoClients).run (⟨[], twoClients, .readOpcode, []⟩, []) interleavedRun).map
      fun p => (p.1.pipe.length, p.1.queue.map Prod.fst, p.2.map Prod.fst)) =
    some (289, [7, 3], [true, false, true]) := by
  decide +kernel

theorem interleavedRun_framing :
    ∃ p, (writtenMachine twoClients).Reachable p ∧ p.1.pipe.length = 289 ∧
      p.2.map Prod.fst = [true, false, true] ∧ p.1.queue <+: objects p.2 ∧
      Drains twoClients p.1 p.2 := by
  obtain ⟨p, hrun, hobs⟩ := Option.map_eq_some_iff.mp interleavedRun_result
  obtain ⟨hlen, hobs⟩ := Prod.mk.inj hobs
  obtain ⟨-, horder⟩ := Prod.mk.inj hobs
  have hstart : (writtenMachine twoClients).start (⟨[], twoClients, .readOpcode, []⟩, []) :=
    ⟨rfl, rfl⟩
  have hreach : (writtenMachine twoClients).Reachable p :=
    (Machine.ReachableBy.start hstart).run (fun _ _ _ => trivial) hrun
  obtain ⟨-, hprefix, -, -, hdrains⟩ := registerPipe_framing hreach
  exact ⟨p, hreach, hlen, horder, hprefix, hdrains⟩

end MBroker
