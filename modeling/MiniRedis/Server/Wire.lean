import MiniRedis.Persistence.AOF

/-!
# Server — Wire

What a client receives.  The request loop of a connection and the goroutines that deliver messages
and replicated writes to it share one buffered writer on the socket; `write` encodes a value into
it, piece by piece, `writeRaw` puts a frame into it that was encoded before, and both flush it,
under the connection's lock.  The socket may refuse any part of any write, and a buffered writer
that was refused once writes nothing more.

* `Wire.writes_new`: what arrives is the frames of the calls that returned nil, and a torn one.
* `wire_frames`: **of well-formed values the client reads whole frames, in the order of the calls,
  and no other.**
-/

namespace MiniRedis.Server

open Protocol Buffered Persistence Frames Cmd

/-- A call of `write`, or of `writeRaw` with the frame of the value, and the room the socket has
during the call. -/
structure Send where
  value : Value
  raw : Bool
  room : Option Nat

/-- What is written into the buffer, one after the other. -/
def Send.pieces (c : Send) : List Bytes :=
  if c.raw then [encode c.value] else Persistence.pieces c.value

/-- The buffered writer of a connection, and what the client has received. -/
structure Wire where
  w : Writer UInt8
  received : Bytes

namespace Wire

/-- A new connection. -/
def new : Wire := ⟨.new, []⟩

/-- `write` and `writeRaw`: whether they return nil.  They return at once when the buffer cannot be
written to, and the flush would return the same error. -/
def write (c : Send) (s : Wire) : Wire × Bool :=
  let (w, sink) := sendAll bufSize c.pieces (s.w, ⟨[], c.room⟩)
  (⟨w, s.received ++ sink.taken⟩, !w.err)

/-- Calls of any goroutines in the order in which they get the lock, and whether each returned
nil. -/
def writes : List Send → Wire → Wire × List Bool
  | [], s => (s, [])
  | c :: cs, s =>
      let (s, ok) := s.write c
      let (s, oks) := writes cs s
      (s, ok :: oks)

/-- The pieces that go through the buffer make up the frame. -/
theorem flatten_pieces (c : Send) : c.pieces.flatten = encode c.value := by
  unfold Send.pieces
  split
  · rw [List.flatten_singleton]
  · exact Persistence.flatten_pieces c.value

theorem writes_cons (c : Send) (cs : List Send) (s : Wire) :
    s.writes (c :: cs) =
      (((s.write c).1.writes cs).1, (s.write c).2 :: ((s.write c).1.writes cs).2) := rfl

/-- **One call**: the whole frame arrives, or a part of it and the writer keeps the error. -/
theorem write_cases (c : Send) (received : Bytes) :
    (⟨.new, received⟩ : Wire).write c = (⟨.new, received ++ encode c.value⟩, true) ∨
      ∃ w p, (⟨.new, received⟩ : Wire).write c = (⟨w, received ++ p⟩, false) ∧ w.err = true ∧
        Torn p (encode c.value) := by
  have hcases := sendAll_cases bufSize c.room c.pieces
  rw [flatten_pieces] at hcases
  rcases hcases with ⟨hnew, htaken, -⟩ | ⟨herr, r, -, hlt, htaken⟩
  · left
    simp only [write, hnew, htaken]
    rfl
  · refine .inr ⟨_, (encode c.value).take r, ?_, herr, List.take_prefix r _, fun heq => ?_⟩
    · simp only [write, htaken, herr, Bool.not_true]
    · have hlen := congrArg List.length heq
      rw [List.length_take] at hlen
      omega

/-- After an error nothing is written. -/
theorem writes_of_err {s : Wire} (he : s.w.err = true) (cs : List Send) :
    s.writes cs = (s, List.replicate cs.length false) := by
  induction cs with
  | nil => rfl
  | cons c cs ih =>
      have hwrite : s.write c = (s, false) := by
        simp only [write, sendAll_err bufSize c.pieces he, List.append_nil, he, Bool.not_true]
      rw [writes_cons, hwrite, ih, List.length_cons, List.replicate_succ]

/-- **What arrives**: the frames of the calls up to the first that fails, and a part of that one's;
from there on all calls fail. -/
theorem writes_new {cs : List Send} (hwf : ∀ c ∈ cs, c.value.WellFormed) (received : Bytes) :
    ∃ sent rest p, cs = sent ++ rest ∧ codec.Tail p ∧
      ((⟨.new, received⟩ : Wire).writes cs).1.received =
        received ++ ((sent.map Send.value).flatMap encode ++ p) ∧
      ((⟨.new, received⟩ : Wire).writes cs).2 =
        List.replicate sent.length true ++ List.replicate rest.length false := by
  induction cs generalizing received with
  | nil => exact ⟨[], [], [], rfl, .inl rfl, (List.append_nil _).symm, rfl⟩
  | cons c cs ih =>
      obtain ⟨hc, hcs⟩ := List.forall_mem_cons.1 hwf
      rcases write_cases c received with hwrite | ⟨w, p, hwrite, herr, htorn⟩
      · obtain ⟨sent, rest, p, rfl, hp, hreceived, hoks⟩ := ih hcs (received ++ encode c.value)
        refine ⟨c :: sent, rest, p, rfl, hp, ?_, ?_⟩
        · rw [writes_cons, hwrite, hreceived, List.map_cons, List.flatMap_cons, List.append_assoc,
            List.append_assoc]
        · rw [writes_cons, hwrite, hoks, List.length_cons, List.replicate_succ, List.cons_append]
      · refine ⟨[], c :: cs, p, rfl, .inr ⟨c.value, hc, htorn⟩, ?_, ?_⟩
        · rw [writes_cons, hwrite, writes_of_err herr]
          rfl
        · rw [writes_cons, hwrite, writes_of_err herr]
          rfl

end Wire

/-- **Frames do not tear into each other.**  Whatever well-formed values the goroutines of a
connection `write`, or `writeRaw` the frames of, in whatever order they get its lock, and whatever
the socket refuses of any of them: the calls return nil up to some one and fail from then on; and
the client, decoding what it has received, reads exactly the values of the calls that returned nil,
in their order, and then finds the end of the stream, or of a frame that was cut short. -/
theorem wire_frames {cs : List Send} (hwf : ∀ c ∈ cs, c.value.WellFormed) :
    ∃ sent rest p, cs = sent ++ rest ∧
      (Wire.new.writes cs).2 =
        List.replicate sent.length true ++ List.replicate rest.length false ∧
      readN decode sent.length (Wire.new.writes cs).1.received =
        .ok (sent.map Send.value, p) ∧
      ∃ e, decode p = .error e ∧ e.isEOF = true := by
  obtain ⟨sent, rest, p, rfl, hp, hreceived, hoks⟩ := Wire.writes_new hwf []
  have hsent : ∀ v ∈ sent.map Send.value, v.WellFormed := by
    intro v hv
    obtain ⟨c, hc, rfl⟩ := List.mem_map.1 hv
    exact hwf c (List.mem_append_left _ hc)
  refine ⟨sent, rest, p, rfl, hoks, ?_, codec.tail_error hp⟩
  rw [show (Wire.new.writes (sent ++ rest)).1.received = _ from hreceived, List.nil_append]
  have hread := codec.readN_flatMap p (sent.map Send.value) hsent
  rw [List.length_map] at hread
  exact hread

/-- A reply, a replicated write that the socket takes five bytes of, and another reply. -/
def cutSends : List Send :=
  [⟨okValue, false, none⟩, ⟨bulkCmd [txt "SET", txt "k", txt "v"], true, some 5⟩,
    ⟨okValue, false, none⟩]

/-- A socket that takes one reply and a part of the next. -/
theorem wire_frames_cut :
    (Wire.new.writes cutSends).2 = [true, false, false] ∧
      ∃ p, readN decode 1 (Wire.new.writes cutSends).1.received = .ok ([okValue], p) ∧
        ∃ e, decode p = .error e ∧ e.isEOF = true := by
  have hoks : (Wire.new.writes cutSends).2 = [true, false, false] := by decide +kernel
  have hok : okValue.WellFormed := by
    simp only [okValue, Value.WellFormed]
    decide
  have hwf : ∀ c ∈ cutSends, c.value.WellFormed :=
    List.forall_mem_cons.2 ⟨hok, List.forall_mem_cons.2
      ⟨bulkCmd_wellFormed (by decide) (by decide), List.forall_mem_singleton.2 hok⟩⟩
  obtain ⟨sent, rest, p, hcs, hreturns, hread, hend⟩ := wire_frames hwf
  refine ⟨hoks, p, ?_, hend⟩
  have hone : sent.length = 1 := by
    have hcount := congrArg (List.count true) (hoks.symm.trans hreturns)
    simpa [List.count_replicate] using hcount.symm
  obtain ⟨c, rfl⟩ := List.length_eq_one_iff.1 hone
  obtain ⟨rfl, -⟩ := List.cons.inj hcs
  exact hread

end MiniRedis.Server
