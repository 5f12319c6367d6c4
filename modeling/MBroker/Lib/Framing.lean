import Mathlib.Data.List.Basic
import Mathlib.Tactic.Common

/-!
# Packets in a stream

A packet is a tag and a payload whose length the tag determines. Packets are
written to a stream whole, and read back in two steps: the tag, and then
as much payload as the tag says. Nothing in the stream marks where a packet
starts. `Aligned` is what keeps a reader in step: what is left in the
stream are the packets it has still to see, less the tag it has just read.
-/

namespace MBroker

/-- A tag and a payload of the length that `size` gives for the tag. -/
structure Packet {α : Type*} (size : α → Nat) where
  tag : α
  payload : List α
  sized : payload.length = size tag

namespace Framing

variable {α : Type*} {size : α → Nat} {f : Packet size} {fs gs : List (Packet size)}
  {bytes : List α} {t : α}

/-- A packet as it is written. -/
def encode (f : Packet size) : List α := f.tag :: f.payload

/-- Packets written one after the other. -/
def encodeAll : List (Packet size) → List α
  | [] => []
  | f :: fs => encode f ++ encodeAll fs

@[simp] theorem encodeAll_nil : encodeAll ([] : List (Packet size)) = [] := rfl

@[simp] theorem encodeAll_cons : encodeAll (f :: fs) = f.tag :: (f.payload ++ encodeAll fs) := rfl

@[simp] theorem encodeAll_append : encodeAll (fs ++ gs) = encodeAll fs ++ encodeAll gs := by
  induction fs with
  | nil => rfl
  | cons f fs ih => simp [ih]

theorem encodeAll_eq_nil (h : encodeAll fs = []) : fs = [] := by
  cases fs with
  | nil => rfl
  | cons f fs => cases h

/-- The payload is what comes first, and the packets after it are what is left. -/
theorem take_payload (rest : List α) : (f.payload ++ rest).take (size f.tag) = f.payload := by
  rw [← f.sized]
  simp

theorem drop_payload (rest : List α) : (f.payload ++ rest).drop (size f.tag) = rest := by
  rw [← f.sized]
  simp

/-- What a reader reads next. -/
inductive Phase (α : Type*)
  | tag
  | payload (t : α)

/-- The stream holds the packets that the reader has still to see. -/
inductive Aligned : List (Packet size) → Phase α → List α → Prop
  | tag (fs : List (Packet size)) : Aligned fs .tag (encodeAll fs)
  | payload (f : Packet size) (fs : List (Packet size)) :
      Aligned (f :: fs) (.payload f.tag) (f.payload ++ encodeAll fs)

namespace Aligned

variable {phase : Phase α}

/-- A packet written at the end of the stream is seen last. -/
theorem write (h : Aligned fs phase bytes) (f : Packet size) :
    Aligned (fs ++ [f]) phase (bytes ++ encode f) := by
  cases h with
  | tag fs =>
      have heq : encodeAll fs ++ encode f = encodeAll (fs ++ [f]) := by simp [encode]
      rw [heq]
      exact .tag _
  | payload g gs =>
      have heq : g.payload ++ encodeAll gs ++ encode f = g.payload ++ encodeAll (gs ++ [f]) := by
        simp [encode]
      rw [heq]
      exact .payload g (gs ++ [f])

/-- The next byte is the tag of the next packet. -/
theorem readTag (h : Aligned fs .tag (t :: bytes)) : Aligned fs (.payload t) bytes := by
  generalize hstream : t :: bytes = stream at h
  cases h with
  | tag fs =>
      cases fs with
      | nil => cases hstream
      | cons f fs =>
          cases hstream
          exact .payload f fs

/-- The next bytes are the payload of the packet whose tag has been read. -/
theorem readPayload (h : Aligned fs (.payload t) bytes) :
    ∃ f gs, fs = f :: gs ∧ f.tag = t ∧ bytes.take (size t) = f.payload ∧
      Aligned gs .tag (bytes.drop (size t)) := by
  cases h with
  | payload f gs =>
      refine ⟨f, gs, rfl, rfl, take_payload _, ?_⟩
      rw [drop_payload]
      exact .tag gs

/-- A payload that has been announced is there to be read. -/
theorem size_le (h : Aligned fs (.payload t) bytes) : size t ≤ bytes.length := by
  cases h with
  | payload f gs =>
      rw [List.length_append, f.sized]
      exact Nat.le_add_right _ _

/-- Nothing is left of the stream when every packet has been seen. -/
theorem drained (h : Aligned fs .tag []) : fs = [] := by
  generalize hstream : ([] : List α) = stream at h
  cases h with
  | tag fs => exact encodeAll_eq_nil hstream.symm

end Aligned

/-! ## Any stream

Bytes that nobody has promised anything about: a tag may have no size, and a
payload may be cut off. `decode` finds the packets, and accepts nothing but
packets.
-/

section Decode

variable {size : α → Option Nat} {ps qs : List (α × List α)} {n : Nat}

/-- Tags and payloads written one after the other. -/
def stream (ps : List (α × List α)) : List α := ps.flatMap fun p => p.1 :: p.2

@[simp] theorem stream_nil : stream ([] : List (α × List α)) = [] := rfl

@[simp] theorem stream_cons (p : α × List α) : stream (p :: ps) = p.1 :: (p.2 ++ stream ps) := rfl

@[simp] theorem stream_append : stream (ps ++ qs) = stream ps ++ stream qs :=
  List.flatMap_append ..

/-- Every payload has the length that its tag determines. -/
def WellSized (size : α → Option Nat) (ps : List (α × List α)) : Prop :=
  ∀ p ∈ ps, size p.1 = some p.2.length

theorem WellSized.nil : WellSized size [] := by
  intro p hp
  cases hp

theorem WellSized.cons {payload : List α} (h : WellSized size ps)
    (ht : size t = some payload.length) : WellSized size ((t, payload) :: ps) := by
  intro p hp
  rcases List.mem_cons.mp hp with rfl | hp
  · exact ht
  · exact h p hp

theorem WellSized.append (h : WellSized size ps) (h' : WellSized size qs) :
    WellSized size (ps ++ qs) := by
  intro p hp
  rcases List.mem_append.mp hp with hp | hp
  · exact h p hp
  · exact h' p hp

/-- The tags and payloads that a stream is made of. -/
def decode (size : α → Option Nat) (bytes : List α) : Option (List (α × List α)) :=
  match bytes with
  | [] => some []
  | t :: bytes =>
    match size t with
    | none => none
    | some n =>
      if n ≤ bytes.length then
        (decode size (bytes.drop n)).map fun ps => (t, bytes.take n) :: ps
      else
        none
termination_by bytes.length
decreasing_by
  rw [List.length_drop, List.length_cons]
  omega

@[simp] theorem decode_nil : decode size [] = some [] := by
  rw [decode]

/-- A tag that has no size is no packet's. -/
theorem decode_unknown (ht : size t = none) : decode size (t :: bytes) = none := by
  rw [decode, ht]

/-- A payload is not accepted before it is there whole. -/
theorem decode_cut (ht : size t = some n) (hn : bytes.length < n) :
    decode size (t :: bytes) = none := by
  rw [decode, ht]
  exact if_neg (Nat.not_le.mpr hn)

theorem decode_cons {payload rest : List α} (ht : size t = some payload.length) :
    decode size (t :: (payload ++ rest)) =
      (decode size rest).map fun ps => (t, payload) :: ps := by
  rw [decode, ht]
  show (if payload.length ≤ (payload ++ rest).length then _ else _) = _
  rw [if_pos (by simp), List.take_left' rfl, List.drop_left' rfl]

/-- Packets at the front are found, whatever follows them. -/
theorem decode_stream_append (h : WellSized size ps) (rest : List α) :
    decode size (stream ps ++ rest) = (decode size rest).map fun qs => ps ++ qs := by
  induction ps with
  | nil => simp
  | cons p ps ih =>
      rw [stream_cons, List.cons_append, List.append_assoc,
        decode_cons (h p List.mem_cons_self), ih fun q hq => h q (List.mem_cons_of_mem p hq),
        Option.map_map]
      rfl

theorem decode_stream (h : WellSized size ps) : decode size (stream ps) = some ps := by
  have heq := decode_stream_append h []
  rw [List.append_nil] at heq
  simp [heq]

/-- **The round trip**: a stream is accepted exactly if it is made of packets,
and what it decodes to are these. -/
theorem decode_eq_some_iff :
    decode size bytes = some ps ↔ WellSized size ps ∧ stream ps = bytes := by
  constructor
  · intro h
    induction bytes using decode.induct size generalizing ps with
    | case1 =>
        rw [decode_nil] at h
        cases h
        exact ⟨.nil, rfl⟩
    | case2 t bytes ht =>
        rw [decode_unknown ht] at h
        cases h
    | case3 t bytes n ht hn ih =>
        rw [decode, ht] at h
        dsimp only at h
        rw [if_pos hn] at h
        obtain ⟨qs, hqs, rfl⟩ := Option.map_eq_some_iff.mp h
        obtain ⟨hsized, hstream⟩ := ih hqs
        refine ⟨hsized.cons ?_, ?_⟩
        · rw [ht, List.length_take, Nat.min_eq_left hn]
        · rw [stream_cons, hstream, List.take_append_drop]
    | case4 t bytes n ht hn =>
        rw [decode_cut ht (Nat.not_le.mp hn)] at h
        cases h
  · rintro ⟨hsized, rfl⟩
    exact decode_stream hsized

/-- A stream that is accepted can be followed by any other. -/
theorem decode_append {more : List α} (h : decode size bytes = some ps) :
    decode size (bytes ++ more) = (decode size more).map fun qs => ps ++ qs := by
  obtain ⟨hsized, rfl⟩ := decode_eq_some_iff.mp h
  exact decode_stream_append hsized more

/-- Streams that are accepted one by one are accepted one after the other. -/
theorem decode_flatten {streams : List (List α)}
    (h : ∀ bytes ∈ streams, (decode size bytes).isSome) :
    decode size streams.flatten =
      some (streams.flatMap fun bytes => (decode size bytes).getD []) := by
  induction streams with
  | nil => simp
  | cons bytes streams ih =>
      obtain ⟨ps, hps⟩ := Option.isSome_iff_exists.mp (h bytes List.mem_cons_self)
      have htail := ih fun b hb => h b (List.mem_cons_of_mem bytes hb)
      rw [List.flatten_cons, decode_append hps, htail, List.flatMap_cons, hps]
      rfl

end Decode

end Framing

end MBroker
