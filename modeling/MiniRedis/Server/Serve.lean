import MiniRedis.Protocol.RoundTrip
import MiniRedis.Server.Apply

/-!
# Server — Serve

Where a decoded request goes (`serve` of `internal/server/pubsub.go`), and the replies of a
connection that only sends commands.  Each reply is encoded and flushed before the next request
is read, so the bytes a client gets back are the encodings of the replies, one after the other.

* `pipeline_iff`: those bytes decode into exactly the replies **iff** no request names an unknown
  command with a line feed in its name: the error for an unknown command echoes the name into a
  line of the protocol.
-/

namespace MiniRedis.Server

open Protocol Store Cmd Strings Frames

/-- The branches of `serve`. -/
inductive Route where
  | refused | subscribe | unsubscribe | replicaof | replconf | quit | readonly | apply
deriving DecidableEq

instance : LawfulBEq Bytes := inferInstanceAs (LawfulBEq (List UInt8))

/-- The commands a connection in subscribe mode may run. -/
def allowedWhileSubscribed : List Bytes :=
  [txt "SUBSCRIBE", txt "UNSUBSCRIBE", txt "PING", txt "QUIT"]

/-- The branch `serve` takes, on a server with the given primary address (empty on a primary)
and a connection in subscribe mode or not. -/
def route (primaryAddr : Bytes) (subscribed : Bool) (request : Value) : Route :=
  let name := toUpper (commandName request)
  if subscribed = true ∧ name ∉ allowedWhileSubscribed then .refused
  else if name = txt "SUBSCRIBE" then .subscribe
  else if name = txt "UNSUBSCRIBE" then .unsubscribe
  else if name = txt "REPLICAOF" then .replicaof
  else if name = txt "REPLCONF" then .replconf
  else if name = txt "QUIT" then .quit
  else if primaryAddr ≠ [] ∧ isWrite name = true then .readonly
  else .apply

/-- The names `serve` handles on the connection itself. -/
def connectionLevel : List Bytes :=
  [txt "SUBSCRIBE", txt "UNSUBSCRIBE", txt "REPLICAOF", txt "REPLCONF", txt "QUIT"]

/-- A server: the address of its primary, whether it has a log, and whether a replica is
attached. -/
structure Config where
  primaryAddr : Bytes
  aof : Bool
  any : Bool

/-- The reply to a client that writes to a replica. -/
def readonlyReply : Value :=
  errorValue (txt "READONLY You can't write against a read only replica.")

/-- A request with what it meets: the store as other clients have left it, the clock and the
range orders. -/
structure Turn where
  db : DB
  now : Time
  order : RangeOrder
  request : Value

/-- The reply to a command on a connection outside subscribe mode; none is given here to the
names the connection itself answers. -/
def Turn.reply (cfg : Config) (t : Turn) : Option Value :=
  match route cfg.primaryAddr false t.request with
  | .readonly => some readonlyReply
  | .apply => some (applyRecord cfg.aof cfg.any t.now t.order t.request t.db).reply
  | _ => none

/-- The bytes written back for a sequence of commands. -/
def written (cfg : Config) (turns : List Turn) : Bytes :=
  turns.flatMap fun t => ((t.reply cfg).map encode).getD []

/-- The request makes the server echo a line feed: it names an unknown command, and the name has
one. -/
def EchoesLineFeed (request : Value) : Prop :=
  Unknown request ∧ (10 : UInt8) ∈ commandName request

instance (request : Value) : Decidable (EchoesLineFeed request) :=
  inferInstanceAs (Decidable (_ ∧ _))

/-- The reply does not depend on whether the request is recorded. -/
theorem applyRecord_reply (aof any : Bool) (now : Time) (order : RangeOrder) (request : Value)
    (db : DB) :
    (applyRecord aof any now order request db).reply = (db.dispatch now order request).2 := by
  simp only [applyRecord]
  split_ifs <;> rfl

/-- The error quotes the name, and stays on its line if the name does. -/
theorem unknownCommand_oneLine (name : Bytes) :
    (unknownCommand name).OneLine ↔ (10 : UInt8) ∉ name := by
  simp only [unknownCommand, errorValue, Value.OneLine, List.mem_append, not_or]
  exact ⟨fun h => h.1.2, fun h => ⟨⟨by decide, h⟩, by decide⟩⟩

/-- A dispatched reply is one line wherever a line is meant, unless an unknown name breaks it. -/
theorem dispatch_oneLine (now : Time) (order : RangeOrder) (request : Value) (db : DB) :
    (db.dispatch now order request).2.OneLine ↔ ¬ EchoesLineFeed request := by
  unfold EchoesLineFeed DB.dispatch Cmd.dispatch
  by_cases hu : Unknown request
  · rw [plan_unknown hu]
    simp only [Handler.run, unknownCommand_oneLine, mem_toUpper_lf, hu, true_and]
  · have hs := plan_sound hu
    simp only [hu, false_and, not_false_eq_true, iff_true]
    cases hp : plan request with
    | reply v => rw [hp] at hs; exact hs
    | call c render => rw [hp] at hs; exact hs.renders.oneLine _

/-- A name in the write table has no line feed. -/
theorem lf_notMem_of_isWrite {name : Bytes} (h : isWrite name = true) : (10 : UInt8) ∉ name := by
  have hall : ∀ w ∈ writeCommands, (10 : UInt8) ∉ w := by decide
  rw [← mem_toUpper_lf]
  exact hall _ (of_decide_eq_true h)

/-- A command outside the connection's own has one reply, and it is one line wherever a line is
meant unless an unknown name breaks it. -/
theorem exists_reply (cfg : Config) (t : Turn)
    (h : toUpper (commandName t.request) ∉ connectionLevel) :
    ∃ v, t.reply cfg = some v ∧ (v.OneLine ↔ ¬ EchoesLineFeed t.request) := by
  simp only [connectionLevel, List.mem_cons, List.not_mem_nil, or_false, not_or] at h
  obtain ⟨h₁, h₂, h₃, h₄, h₅⟩ := h
  unfold Turn.reply route
  simp only [Bool.false_eq_true, false_and, if_false, h₁, h₂, h₃, h₄, h₅]
  split_ifs with hw
  · refine ⟨readonlyReply, rfl, ?_⟩
    -- the read-only refusal is a fixed text, sent for names of the write table only
    have hlf : (10 : UInt8) ∉ commandName t.request := by
      rw [← mem_toUpper_lf]
      exact lf_notMem_of_isWrite hw.2
    simp only [EchoesLineFeed, hlf, and_false, not_false_eq_true, iff_true, readonlyReply,
      errorValue, Value.OneLine]
    decide
  · refine ⟨_, rfl, ?_⟩
    rw [applyRecord_reply]
    exact dispatch_oneLine t.now t.order t.request t.db

/-- The replies to a sequence of commands, and the bytes they are written as. -/
theorem exists_replies (cfg : Config) : ∀ turns : List Turn,
    (∀ t ∈ turns, toUpper (commandName t.request) ∉ connectionLevel) →
    ∃ replies : List Value, turns.map (Turn.reply cfg) = replies.map some ∧
      written cfg turns = replies.flatMap encode ∧
      ((∀ v ∈ replies, v.OneLine) ↔ ∀ t ∈ turns, ¬ EchoesLineFeed t.request)
  | [], _ => ⟨[], rfl, rfl, by simp⟩
  | t :: turns, h => by
      obtain ⟨v, hv, hline⟩ := exists_reply cfg t (h t List.mem_cons_self)
      obtain ⟨vs, hvs, hbytes, hlines⟩ :=
        exists_replies cfg turns fun t ht => h t (List.mem_cons_of_mem _ ht)
      refine ⟨v :: vs, by simp [hv, hvs], ?_, by simp [hline, hlines]⟩
      rw [written] at hbytes ⊢
      simp [hv, hbytes]

/-- **Pipelining.**  Whatever commands a connection sends, none of them one the connection itself
answers, and whatever store each of them meets: there is one reply for each request, and the
bytes written back decode into exactly the replies, in order, iff no request names an unknown
command with a line feed in its name.  The replies are ones the platform can allocate. -/
theorem pipeline_iff (cfg : Config) (turns : List Turn)
    (hnames : ∀ t ∈ turns, toUpper (commandName t.request) ∉ connectionLevel)
    (hfits : ∀ t ∈ turns, ∀ v, t.reply cfg = some v → v.Fits) :
    ∃ replies : List Value, turns.map (Turn.reply cfg) = replies.map some ∧
      (readAll decode (written cfg turns).length (written cfg turns) = some replies ↔
        ∀ t ∈ turns, ¬ EchoesLineFeed t.request) := by
  obtain ⟨replies, hmap, hbytes, hlines⟩ := exists_replies cfg turns hnames
  refine ⟨replies, hmap, ?_⟩
  have hfit : ∀ v ∈ replies, v.Fits := by
    intro v hv
    have hm : some v ∈ turns.map (Turn.reply cfg) := hmap ▸ List.mem_map_of_mem hv
    obtain ⟨t, ht, hr⟩ := List.mem_map.1 hm
    exact hfits t ht v hr
  have hgood : (∀ v ∈ replies, v.WellFormed) ↔ ∀ t ∈ turns, ¬ EchoesLineFeed t.request := by
    rw [← hlines]
    exact forall₂_congr fun v hv => by rw [Value.wellFormed_iff, and_iff_left (hfit v hv)]
  rw [← hgood, hbytes]
  exact ⟨readAll_wellFormed _ _, fun h => codec.readAll_flatMap _ _ (codec.length_le_flatMap h) h⟩

/-- A `PING` and an unknown command with an ordinary name. -/
def pingThenFoo : List Turn :=
  [⟨DB.new, 0, .sorted, bulkCmd [txt "ping"]⟩, ⟨DB.new, 0, .sorted, bulkCmd [txt "foo"]⟩]

/-- Two requests in one pipeline, of which the second is unknown. -/
theorem pipeline_iff_pingThenFoo :
    (∀ t ∈ pingThenFoo, toUpper (commandName t.request) ∉ connectionLevel) ∧
      ∃ replies : List Value,
        pingThenFoo.map (Turn.reply ⟨[], true, false⟩) = replies.map some ∧
        (readAll decode (written ⟨[], true, false⟩ pingThenFoo).length
            (written ⟨[], true, false⟩ pingThenFoo) = some replies ↔
          ∀ t ∈ pingThenFoo, ¬ EchoesLineFeed t.request) := by
  refine ⟨by decide, pipeline_iff ⟨[], true, false⟩ pingThenFoo (by decide) ?_⟩
  intro t ht v hv
  rcases List.mem_pair.1 ht with rfl | rfl <;> cases hv <;> trivial

/-- A command named `x\r\n+OK`, sent to an empty store. -/
def injection : Turn := ⟨DB.new, 0, .sorted, bulkCmd [txt "x\r\n+OK"]⟩

/-- Its one reply reaches the client as two frames, the second of them of the client's choice. -/
theorem pipeline_splits :
    Decoded injection.request ∧
      toUpper (commandName injection.request) ∉ connectionLevel ∧
      injection.reply ⟨[], false, false⟩ = some (unknownCommand (txt "X\r\n+OK")) ∧
      readAll decode (written ⟨[], false, false⟩ [injection]).length
          (written ⟨[], false, false⟩ [injection]) =
        some [.error (txt "ERR unknown command 'X"), .simpleString (txt "OK'")] := by
  refine ⟨decoded_iff.2 (bulkCmd_wellFormed (by decide) (by decide)), by decide, by decide, ?_⟩
  decide +kernel

end MiniRedis.Server
