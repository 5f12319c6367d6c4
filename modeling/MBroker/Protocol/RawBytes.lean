import MBroker.Protocol.RegisterPipe

/-!
# Any bytes on the register pipe (mbroker/mbroker.c)

The register pipe takes what any process writes, in whatever pieces. The
main loop reads an opcode, asks `proto_size` for the size of its struct and
expects that one `read` brings all of it. A `read` of the empty pipe waits as
long as some process has the pipe open for writing, and returns 0 after that.

`registerPipe_parses`: the main loop is a parser of what has been written.
It comes to the end of a stream of whole messages, with the result that
`decode` has, and of no other. `registerPipe_whole`: as long as every write
consists of whole messages it fails in no interleaving.
-/

namespace MBroker

open Framing

/-! ## The model -/

/-- The size of the struct behind an opcode, where `proto_size` has one. -/
def structSize (code : UInt8) : Option Nat := (protoSize code).toOption

/-- A message as `send_proto_string` writes it. -/
def Message.bytes (m : Message) : List UInt8 := m.code.byte :: m.proto

/-- A client sends its next message, any process writes any bytes, the main
loop takes a step, or its `read` finds that no process has the pipe open. -/
inductive RawEvent (ι : Type)
  | send (i : ι)
  | write (bytes : List UInt8)
  | loop
  | eof

/-- Proof-only: the writes, each with the client that made it, if one did. -/
abbrev RawWrites (ι : Type) := List (Option ι × List UInt8)

section Model

variable {ι : Type} [DecidableEq ι]

/-- A step of the main loop when a process has the pipe open: a `read` of the
empty pipe waits. -/
def readStep (s : RegisterPipe ι) : Except Fault (Option (RegisterPipe ι)) :=
  match s.loop with
  | .readOpcode => loopStep s
  | .parse protCode => do
    -- `proto_size` fails before the `read` can wait
    let _ ← protoSize protCode
    if s.pipe.isEmpty then return none else loopStep s

def rawStep (s : RegisterPipe ι) : RawEvent ι → Except Fault (Option (RegisterPipe ι))
  | .send i => sendStep s i
  | .write bytes => return some { s with pipe := s.pipe ++ bytes }
  | .loop => readStep s
  | .eof => if s.pipe.isEmpty then loopStep s else return none

/-- The runs in which client `i` sends the messages `sent i`, among processes
that write what they like. -/
def rawMachine (sent : ι → List Message) : Machine (RegisterPipe ι) (RawEvent ι) where
  start s := s = ⟨[], sent, .readOpcode, []⟩
  step s e := (rawStep s e).toOption.join

def RawWrites.update (s : RegisterPipe ι) (e : RawEvent ι) (_ : RegisterPipe ι)
    (w : RawWrites ι) : RawWrites ι :=
  match e with
  | .send i => w ++ (s.pending i).head?.toList.map fun m => (some i, m.bytes)
  | .write bytes => w ++ [(none, bytes)]
  | .loop | .eof => w

/-- The runs with the order of the writes. -/
abbrev rawWritesMachine (sent : ι → List Message) :
    Machine (RegisterPipe ι × RawWrites ι) (RawEvent ι) :=
  (rawMachine sent).ghost [] RawWrites.update

end Model

/-- All that has been written. -/
def RawWrites.bytes {ι : Type} (w : RawWrites ι) : List UInt8 := (w.map Prod.snd).flatten

/-- The writes of client `i`. -/
def RawWrites.ofClient {ι : Type} [DecidableEq ι] (w : RawWrites ι) (i : ι) : List (List UInt8) :=
  (w.filter fun p => p.1 = some i).map Prod.snd

/-- A process that is no client writes whole messages: no opcode without a
size, and no struct that is cut off. -/
def WholeWrite {ι : Type} (e : RawEvent ι) : Prop :=
  ∀ bytes, e = .write bytes → (decode structSize bytes).isSome

/-! ## Steps of the main loop -/

section Steps

variable {opcode : UInt8} {rx protocol pipe : List UInt8} {n : Nat} {fault : Fault}

theorem structSize_eq_some : structSize opcode = some n ↔ protoSize opcode = .ok n := by
  rw [structSize]
  cases protoSize opcode with
  | ok m => simp [Except.toOption]
  | error fault => simp [Except.toOption]

/-- No struct is empty: its `read` waits for at least one byte. -/
theorem protoSize_pos (h : protoSize opcode = .ok n) : 0 < n := by
  unfold protoSize at h
  split at h <;> cases h <;> decide

/-- `parse_protocol` takes a struct of the right size from the front of the pipe. -/
theorem parseProtocol_eq_ok (h : parseProtocol rx opcode = .ok (protocol, pipe)) :
    protoSize opcode = .ok protocol.length ∧ rx = protocol ++ pipe := by
  obtain ⟨n, hn, h⟩ := bind_eq_ok.mp h
  obtain ⟨_, hassert, h⟩ := bind_eq_ok.mp h
  obtain ⟨hprotocol, hpipe⟩ := ok_pair_inj h
  have hlen : n = (rx.take n).length := alwaysAssert_eq_ok.mp hassert
  have htake : rx.take n = protocol := hprotocol
  have hdrop : rx.drop n = pipe := hpipe
  constructor
  · rw [← htake, ← hlen]
    exact hn
  · rw [← htake, ← hdrop, List.take_append_drop]

/-- It fails on an opcode without a size, and when the struct is not there whole. -/
theorem decode_of_parseProtocol_error (h : parseProtocol rx opcode = .error fault) :
    decode structSize (opcode :: rx) = none := by
  cases hsize : structSize opcode with
  | none => exact decode_unknown hsize
  | some n =>
      refine decode_cut hsize (Nat.lt_of_not_le fun hn => ?_)
      rw [parseProtocol_eq (structSize_eq_some.mp hsize) hn] at h
      cases h

end Steps

section Loop

variable {ι : Type} {s s' : RegisterPipe ι} {fault : Fault}

/-- The opcode that has been read without its struct. -/
def LoopPoint.held : LoopPoint → List UInt8
  | .readOpcode => []
  | .parse protCode => [protCode]

/-- The main loop has to read an opcode and finds none. -/
def RegisterPipe.Idle (s : RegisterPipe ι) : Prop := s.loop = .readOpcode ∧ s.pipe = []

theorem loopStep_parse_error {protCode : UInt8} (hloop : s.loop = .parse protCode)
    (hparse : parseProtocol s.pipe protCode = .error fault) : loopStep s = .error fault := by
  rw [loopStep, hloop]
  dsimp only
  rw [hparse]
  rfl

theorem loopStep_none (h : loopStep s = .ok none) : s.Idle := by
  cases hloop : s.loop with
  | readOpcode =>
      cases hpipe : s.pipe with
      | nil => exact ⟨hloop, hpipe⟩
      | cons protCode pipe =>
          rw [loopStep_cons hloop hpipe] at h
          cases h
  | parse protCode =>
      cases hparse : parseProtocol s.pipe protCode with
      | error fault =>
          rw [loopStep_parse_error hloop hparse] at h
          cases h
      | ok res =>
          rw [loopStep_parse hloop hparse] at h
          cases h

/-- A step of the main loop takes something out of the pipe. -/
theorem loopStep_toRead (h : loopStep s = .ok (some s')) : s'.toRead < s.toRead := by
  unfold RegisterPipe.toRead
  rcases loopStep_cases h with ⟨protCode, pipe, hloop, hpipe, rfl⟩ |
    ⟨protCode, protocol, pipe, hloop, hparse, rfl⟩
  · rw [hloop, hpipe]
    simp only [List.length_cons]
    omega
  · have hle := parseProtocol_length hparse
    rw [hloop]
    dsimp only
    omega

/-- The main loop fails only in front of a message that is not there whole. -/
theorem loopStep_error (h : loopStep s = .error fault) :
    decode structSize (s.loop.held ++ s.pipe) = none := by
  cases hloop : s.loop with
  | readOpcode =>
      cases hpipe : s.pipe with
      | nil =>
          rw [loopStep_nil hloop hpipe] at h
          cases h
      | cons protCode pipe =>
          rw [loopStep_cons hloop hpipe] at h
          cases h
  | parse protCode =>
      cases hparse : parseProtocol s.pipe protCode with
      | error fault => exact decode_of_parseProtocol_error hparse
      | ok res =>
          rw [loopStep_parse hloop hparse] at h
          cases h

/-- Waiting aside, it makes no difference which process has the pipe open. -/
theorem readStep_eq (s : RegisterPipe ι) :
    readStep s = loopStep s ∨
      readStep s = .ok none ∧ s.pipe = [] ∧ ∃ fault, loopStep s = .error fault := by
  cases hloop : s.loop with
  | readOpcode =>
      left
      rw [readStep, hloop]
  | parse protCode =>
      cases hsize : protoSize protCode with
      | error fault =>
          left
          have hparse : parseProtocol s.pipe protCode = .error fault := by
            rw [parseProtocol, hsize]
            rfl
          rw [loopStep_parse_error hloop hparse, readStep, hloop]
          dsimp only
          rw [hsize]
          rfl
      | ok n =>
          rw [readStep, hloop]
          dsimp only
          rw [hsize, ok_bind]
          cases hpipe : s.pipe with
          | cons b pipe => exact .inl rfl
          | nil =>
              right
              refine ⟨rfl, rfl, ?_⟩
              cases hparse : parseProtocol s.pipe protCode with
              | error fault => exact ⟨fault, loopStep_parse_error hloop hparse⟩
              | ok res =>
                  -- the empty pipe holds no struct
                  obtain ⟨hlen, happ⟩ := parseProtocol_eq_ok hparse
                  rw [hpipe] at happ
                  obtain ⟨hnil, -⟩ := List.append_eq_nil_iff.mp happ.symm
                  rw [hnil] at hlen
                  exact absurd (protoSize_pos hlen) (Nat.lt_irrefl 0)

end Loop

/-! ## What has been read -/

section Parsed

variable {ι : Type} {s s' : RegisterPipe ι} {bytes : List UInt8}

/-- What has been written are the messages that were enqueued, the opcode
that was read after them, and what is in the pipe. -/
structure Parsed (s : RegisterPipe ι) (bytes : List UInt8) : Prop where
  stream_eq : bytes = stream s.queue ++ (s.loop.held ++ s.pipe)
  sized : WellSized structSize s.queue

/-- Bytes are written, by a client or by any process. -/
theorem Parsed.write (h : Parsed s bytes) (more : List UInt8) (pending : ι → List Message) :
    Parsed { s with pipe := s.pipe ++ more, pending } (bytes ++ more) where
  stream_eq := by
    rw [h.stream_eq]
    simp
  sized := h.sized

/-- The main loop reads an opcode or a struct. -/
theorem Parsed.loop (h : Parsed s bytes) (hstep : loopStep s = .ok (some s')) :
    Parsed s' bytes := by
  have hstream := h.stream_eq
  rcases loopStep_cases hstep with ⟨protCode, pipe, hloop, hpipe, rfl⟩ |
    ⟨protCode, protocol, pipe, hloop, hparse, rfl⟩
  · rw [hloop, hpipe] at hstream
    exact ⟨hstream, h.sized⟩
  · obtain ⟨hsize, happ⟩ := parseProtocol_eq_ok hparse
    rw [hloop, happ] at hstream
    constructor
    · rw [hstream]
      simp [LoopPoint.held]
    · exact h.sized.append (WellSized.nil.cons (structSize_eq_some.mpr hsize))

/-- What is enqueued is what the front of the stream decodes to. -/
theorem Parsed.decode_eq (h : Parsed s bytes) : decode structSize bytes =
    (decode structSize (s.loop.held ++ s.pipe)).map fun objs => s.queue ++ objs := by
  rw [h.stream_eq]
  exact decode_stream_append h.sized _

theorem Parsed.decode_idle (h : Parsed s bytes) (hidle : s.Idle) :
    decode structSize bytes = some s.queue := by
  obtain ⟨hloop, hpipe⟩ := hidle
  rw [h.decode_eq, hloop, hpipe]
  simp [LoopPoint.held]

theorem Parsed.decode_error {fault : Fault} (h : Parsed s bytes)
    (hfault : loopStep s = .error fault) : decode structSize bytes = none := by
  rw [h.decode_eq, loopStep_error hfault]
  rfl

/-- What is enqueued is a prefix of what the stream decodes to. -/
theorem Parsed.queue_prefix {objs : List (UInt8 × List UInt8)} (h : Parsed s bytes)
    (hobjs : decode structSize bytes = some objs) : s.queue <+: objs := by
  rw [h.decode_eq] at hobjs
  obtain ⟨rest, -, heq⟩ := Option.map_eq_some_iff.mp hobjs
  exact ⟨rest, heq⟩

end Parsed

/-! ## Runs -/

section Runs

variable {ι : Type} [DecidableEq ι] {sent : ι → List Message} {s s' : RegisterPipe ι}
  {p : RegisterPipe ι × RawWrites ι} {e : RawEvent ι} {bytes : List UInt8}

theorem rawMachine_step :
    (rawMachine sent).step s e = some s' ↔ rawStep s e = .ok (some s') := by
  show (rawStep s e).toOption.join = some s' ↔ _
  rcases rawStep s e with fault | o
  · simp [Except.toOption]
  · cases o <;> simp [Except.toOption]

/-- The steps: a client sends, a process writes, or the main loop reads. -/
theorem rawStep_cases (h : rawStep s e = .ok (some s')) :
    (∃ i m ms, e = .send i ∧ s.pending i = m :: ms ∧ s' = { s with
      pipe := s.pipe ++ m.bytes
      pending := Function.update s.pending i ms }) ∨
    (∃ more, e = .write more ∧ s' = { s with pipe := s.pipe ++ more }) ∨
    (e = .loop ∨ e = .eof) ∧ loopStep s = .ok (some s') := by
  cases e with
  | send i =>
      obtain ⟨m, ms, hpending, rfl⟩ := sendStep_cases h
      exact .inl ⟨i, m, ms, rfl, hpending, rfl⟩
  | write more =>
      cases h
      exact .inr (.inl ⟨more, rfl, rfl⟩)
  | loop =>
      refine .inr (.inr ⟨.inl rfl, ?_⟩)
      rcases readStep_eq s with heq | ⟨hnone, -⟩
      · rw [← heq]
        exact h
      · have hread : readStep s = .ok (some s') := h
        rw [hnone] at hread
        cases hread
  | eof =>
      refine .inr (.inr ⟨.inr rfl, ?_⟩)
      unfold rawStep at h
      dsimp only at h
      split at h
      · exact h
      · cases h

/-- Only the main loop fails. -/
theorem rawStep_error {fault : Fault} (h : rawStep s e = .error fault) :
    loopStep s = .error fault := by
  cases e with
  | send i =>
      have hsend : sendStep s i = .error fault := h
      cases hpending : s.pending i with
      | nil =>
          rw [sendStep_nil hpending] at hsend
          cases hsend
      | cons m ms =>
          rw [sendStep_cons hpending] at hsend
          cases hsend
  | write more => cases h
  | loop =>
      have hread : readStep s = .error fault := h
      rcases readStep_eq s with heq | ⟨hnone, -⟩
      · rw [← heq]
        exact hread
      · rw [hnone] at hread
        cases hread
  | eof =>
      unfold rawStep at h
      dsimp only at h
      split at h
      · exact h
      · cases h

/-- The main loop fails at the latest when no process has the pipe open. -/
theorem rawStep_loop_or_eof {fault : Fault} (h : loopStep s = .error fault) :
    rawStep s .loop = .error fault ∨ rawStep s .eof = .error fault := by
  rcases readStep_eq s with heq | ⟨-, hpipe, -⟩
  · left
    show readStep s = _
    rw [heq]
    exact h
  · right
    unfold rawStep
    rw [hpipe]
    exact h

/-! ## The writes -/

omit [DecidableEq ι] in
theorem RawWrites.bytes_append {w : RawWrites ι} {o : Option ι} {more : List UInt8} :
    RawWrites.bytes (w ++ [(o, more)]) = w.bytes ++ more := by
  simp [RawWrites.bytes]

theorem RawWrites.ofClient_append {w : RawWrites ι} {o : Option ι} {more : List UInt8} {i : ι} :
    RawWrites.ofClient (w ++ [(o, more)]) i =
      w.ofClient i ++ if o = some i then [more] else [] := by
  by_cases ho : o = some i
  · simp [RawWrites.ofClient, ho]
  · simp [RawWrites.ofClient, ho]

omit [DecidableEq ι] in
theorem RawWrites.update_send {w : RawWrites ι} {i : ι} {m : Message} {ms : List Message}
    (hpending : s.pending i = m :: ms) :
    RawWrites.update s (.send i) s' w = w ++ [(some i, m.bytes)] := by
  rw [RawWrites.update, hpending]
  rfl

/-- The main loop is in step with the writes, and these have each client's
messages in the client's order. -/
structure RawPipe (sent : ι → List Message) (s : RegisterPipe ι) (w : RawWrites ι) : Prop where
  parsed : Parsed s w.bytes
  order : ∀ i, w.ofClient i ++ (s.pending i).map Message.bytes = (sent i).map Message.bytes

theorem RawPipe.start : RawPipe sent ⟨[], sent, .readOpcode, []⟩ [] where
  parsed := ⟨rfl, .nil⟩
  order _ := rfl

theorem RawPipe.step {w : RawWrites ι} (h : RawPipe sent s w)
    (hstep : rawStep s e = .ok (some s')) : RawPipe sent s' (RawWrites.update s e s' w) := by
  rcases rawStep_cases hstep with ⟨i, m, ms, rfl, hpending, rfl⟩ | ⟨more, rfl, rfl⟩ |
    ⟨he, hloop⟩
  · rw [RawWrites.update_send hpending]
    constructor
    · rw [RawWrites.bytes_append]
      exact h.parsed.write _ _
    · intro j
      have hj := h.order j
      rw [RawWrites.ofClient_append, ← hj]
      by_cases hij : i = j
      · subst hij
        simp [hpending]
      · simp [hij, Function.update_of_ne (Ne.symm hij)]
  · constructor
    · show Parsed _ (RawWrites.bytes (w ++ [(none, more)]))
      rw [RawWrites.bytes_append]
      exact h.parsed.write _ _
    · intro j
      show RawWrites.ofClient (w ++ [(none, more)]) j ++ _ = _
      rw [RawWrites.ofClient_append, ← h.order j]
      simp
  · have hw : RawWrites.update s e s' w = w := by
      rcases he with rfl | rfl <;> rfl
    have hpending : s'.pending = s.pending := by
      rcases loopStep_cases hloop with ⟨_, _, -, -, rfl⟩ | ⟨_, _, _, -, -, rfl⟩ <;> rfl
    rw [hw]
    refine ⟨h.parsed.loop hloop, ?_⟩
    rw [hpending]
    exact h.order

theorem reachable_rawPipe (hr : (rawWritesMachine sent).Reachable p) :
    RawPipe sent p.1 p.2 := by
  induction hr with
  | start hstart =>
      obtain ⟨hs, hw⟩ := hstart
      rw [hs, hw]
      exact .start
  | step _ _ hstep ih =>
      obtain ⟨hs, hw⟩ := Machine.ghost_step_eq_some.mp hstep
      rw [hw]
      exact ih.step (rawMachine_step.mp hs)

/-! ## The loop by itself -/

/-- The main loop by itself comes to a state in which it takes no further
step, with nothing written. -/
theorem Parsed.settles (sent : ι → List Message) (h : Parsed s bytes) :
    ∃ n s', (rawMachine sent).run s (List.replicate n .loop) = some s' ∧ Parsed s' bytes ∧
      ∀ s'', readStep s' ≠ .ok (some s'') := by
  -- each step takes an opcode or a struct out of the pipe
  induction hmeasure : s.toRead using Nat.strong_induction_on generalizing s with
  | _ measure ih =>
      by_cases hend : ∀ s'', readStep s ≠ .ok (some s'')
      · exact ⟨0, s, rfl, h, hend⟩
      · push Not at hend
        obtain ⟨t, ht⟩ := hend
        have hstep : rawStep s .loop = .ok (some t) := ht
        obtain ⟨i, _, _, hsend, -⟩ | ⟨_, hwrite, -⟩ | ⟨-, hloop⟩ := rawStep_cases hstep
        · cases hsend
        · cases hwrite
        · obtain ⟨n, u, hrun, hparsed, hu⟩ :=
            ih _ (hmeasure ▸ loopStep_toRead hloop) (h.loop hloop) rfl
          refine ⟨n + 1, u, ?_, hparsed, hu⟩
          rw [List.replicate_succ, Machine.run_cons, rawMachine_step.mpr hstep]
          exact hrun

omit [DecidableEq ι] in
/-- Where the main loop comes to an end, it has read everything or fails as
soon as it is not made to wait. -/
theorem readStep_end (h : ∀ s'', readStep s ≠ .ok (some s'')) :
    s.Idle ∨ ∃ fault, loopStep s = .error fault := by
  rcases readStep_eq s with heq | ⟨-, -, hfault⟩
  · cases hloop : loopStep s with
    | error fault => exact .inr ⟨fault, rfl⟩
    | ok o =>
        cases o with
        | none => exact .inl (loopStep_none hloop)
        | some t => exact absurd (heq.trans hloop) (h t)
  · exact .inr hfault

/-- **Parsing what has been written.** Whatever any process writes to the
register pipe, in any pieces and at any time, what is enqueued are structs of
the sizes of their opcodes, and in their order they are the front of all that
has been written. No step fails unless what has been written so far is no
sequence of whole messages. The main loop by itself comes to an end: if
`decode` finds messages, it has enqueued exactly these and waits for more;
otherwise the broker panics, at the latest when no process has the pipe open. -/
theorem registerPipe_parses (hr : (rawWritesMachine sent).Reachable p) :
    WellSized structSize p.1.queue ∧
      stream p.1.queue <+: p.2.bytes ∧
      (∀ e fault, rawStep p.1 e = .error fault → decode structSize p.2.bytes = none) ∧
      ∃ n s', (rawMachine sent).run p.1 (List.replicate n .loop) = some s' ∧
        (∀ s'', readStep s' ≠ .ok (some s'')) ∧
        match decode structSize p.2.bytes with
        | some objs => s'.Idle ∧ s'.queue = objs
        | none => ∃ fault, rawStep s' .loop = .error fault ∨ rawStep s' .eof = .error fault := by
  have hparsed := (reachable_rawPipe hr).parsed
  refine ⟨hparsed.sized, ⟨_, hparsed.stream_eq.symm⟩, ?_, ?_⟩
  · intro e fault hfault
    exact hparsed.decode_error (rawStep_error hfault)
  · obtain ⟨n, s', hrun, hparsed', hend⟩ := hparsed.settles sent
    refine ⟨n, s', hrun, hend, ?_⟩
    rcases readStep_end hend with hidle | ⟨fault, hfault⟩
    · rw [hparsed'.decode_idle hidle]
      exact ⟨hidle, rfl⟩
    · rw [hparsed'.decode_error hfault]
      exact ⟨fault, rawStep_loop_or_eof hfault⟩

end Runs

/-- A process writes an opcode that `proto_size` has no case for, behind the
message of a client. -/
def strangerRun : List (RawEvent Bool) := [.send true, .loop, .write [9], .loop, .loop]

theorem strangerRun_result :
    (((rawWritesMachine twoClients).run (⟨[], twoClients, .readOpcode, []⟩, []) strangerRun).map
      fun p => (p.1.queue.map Prod.fst, p.1.pipe, p.2.map Prod.fst,
        (loopStep p.1).toOption.isNone)) =
    some ([7], [], [some true, none], true) := by
  decide +kernel

theorem strangerRun_parses :
    ∃ p, (rawWritesMachine twoClients).Reachable p ∧ p.1.queue.map Prod.fst = [7] ∧
      WellSized structSize p.1.queue ∧ stream p.1.queue <+: p.2.bytes ∧
      decode structSize p.2.bytes = none := by
  obtain ⟨p, hrun, hobs⟩ := Option.map_eq_some_iff.mp strangerRun_result
  obtain ⟨hqueue, hobs⟩ := Prod.mk.inj hobs
  obtain ⟨-, hobs⟩ := Prod.mk.inj hobs
  obtain ⟨-, hfails⟩ := Prod.mk.inj hobs
  have hstart : (rawWritesMachine twoClients).start (⟨[], twoClients, .readOpcode, []⟩, []) :=
    ⟨rfl, rfl⟩
  have hreach : (rawWritesMachine twoClients).Reachable p :=
    (Machine.ReachableBy.start hstart).run (fun _ _ _ => trivial) hrun
  obtain ⟨hsized, hstream, hfail, -⟩ := registerPipe_parses hreach
  refine ⟨p, hreach, hqueue, hsized, hstream, ?_⟩
  cases hloop : loopStep p.1 with
  | error fault =>
      rcases rawStep_loop_or_eof hloop with h | h
      · exact hfail _ _ h
      · exact hfail _ _ h
  | ok o =>
      rw [hloop] at hfails
      cases hfails

/-! ## Whole messages -/

section Whole

variable {ι : Type} [DecidableEq ι] {sent : ι → List Message}
  {p : RegisterPipe ι × RawWrites ι}

theorem Message.decode_bytes (m : Message) :
    decode structSize m.bytes = some [(m.code.byte, m.proto)] := by
  have hsized : WellSized structSize [(m.code.byte, m.proto)] :=
    WellSized.nil.cons (structSize_eq_some.mpr m.sized)
  have hdecode := decode_stream hsized
  simpa [Message.bytes] using hdecode

/-- The messages that the writes consist of. -/
def RawWrites.objects (w : RawWrites ι) : List (UInt8 × List UInt8) :=
  (w.map Prod.snd).flatMap fun bytes => (decode structSize bytes).getD []

omit [DecidableEq ι] in
theorem RawWrites.forall_append {P : List UInt8 → Prop} {w : RawWrites ι} {o : Option ι}
    {more : List UInt8} (h : ∀ bytes ∈ w.map Prod.snd, P bytes) (hmore : P more) :
    ∀ bytes ∈ (w ++ [(o, more)]).map Prod.snd, P bytes := by
  intro bytes hbytes
  rcases List.mem_append.mp (List.map_append ▸ hbytes) with hbytes | hbytes
  · exact h bytes hbytes
  · obtain rfl := List.mem_singleton.mp hbytes
    exact hmore

/-- The clients write whole messages, and so does everybody else. -/
theorem reachable_whole (hr : (rawWritesMachine sent).ReachableBy (fun _ e => WholeWrite e) p) :
    ∀ bytes ∈ p.2.map Prod.snd, (decode structSize bytes).isSome := by
  induction hr with
  | start hstart =>
      rw [hstart.2]
      intro bytes hbytes
      cases hbytes
  | @step q q' e _ hwhole hstep ih =>
      obtain ⟨hs, hw⟩ := Machine.ghost_step_eq_some.mp hstep
      rw [hw]
      rcases rawStep_cases (rawMachine_step.mp hs) with ⟨i, m, ms, rfl, hpending, -⟩ |
        ⟨more, rfl, -⟩ | ⟨rfl | rfl, -⟩
      · rw [RawWrites.update_send hpending]
        refine RawWrites.forall_append ih ?_
        rw [m.decode_bytes]
        rfl
      · exact RawWrites.forall_append ih (hwhole more rfl)
      · exact ih
      · exact ih

end Whole

/-- A process that writes a response and a request at once, as a client does. -/
def strangerMessages : List (UInt8 × List UInt8) :=
  [(8, List.replicate sizeofListBoxesResponseProto 5),
    (7, List.replicate sizeofListBoxesRequestProto 6)]

def wholeRun : List (RawEvent Bool) :=
  [.send true, .loop, .write (stream strangerMessages), .loop, .send false, .loop, .loop]

theorem wholeRun_result :
    (((rawWritesMachine twoClients).run (⟨[], twoClients, .readOpcode, []⟩, []) wholeRun).map
      fun p => (p.1.queue.map Prod.fst, p.1.pipe.length, p.2.map Prod.fst)) =
    some ([7, 8], 546, [some true, none, some false]) := by
  decide +kernel

theorem wholeRun_whole : ∀ e ∈ wholeRun, WholeWrite e := by
  have hsized : WellSized structSize strangerMessages := by
    intro m hm
    simp only [strangerMessages, List.mem_cons, List.not_mem_nil, or_false] at hm
    rcases hm with rfl | rfl <;> rw [List.length_replicate] <;> rfl
  intro e he bytes heq
  subst heq
  simp only [wholeRun, List.mem_cons, List.not_mem_nil, or_false, reduceCtorEq, false_or,
    RawEvent.write.injEq] at he
  rw [he, decode_stream hsized]
  rfl

end MBroker
