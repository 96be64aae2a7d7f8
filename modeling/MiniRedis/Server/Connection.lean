import MiniRedis.Server.Serve

/-!
# Server — Connection

One connection: the request loop of `handle` (`internal/server/connection.go`) with `serve`,
`subscribe`, `unsubscribe` and the deferred teardown (`pubsub.go`, `replication.go`), and the
goroutine `deliver`, which shares the socket with the loop.  `write` is atomic, so what the socket
has been sent is a list of frames.  A write that fails leaves its error in the `bufio.Writer`, and
so does closing the socket: no frame goes out after that.

A connection is at a `Loop` between two actions that another goroutine can see or hinder.  The
actions here touch nothing but the connection (`Conn.Step`); those on the broker, the registry of
replicas and the store are steps of the server.
-/

namespace MiniRedis.Server

open Protocol Store Cmd Strings Maps

/-! ### Frames -/

/-- `subscribeReply`, and without a channel `subscribeReplyNull`. -/
def subscribeReply (kind : Bytes) (channel : Option Bytes) (count : Nat) : Value :=
  .array [bulkValue (some kind), bulkValue channel, integerValue (Int64.ofNat count)]

/-- `messageReply` -/
def messageReply (msg : Message) : Value :=
  .array [bulkValue (some (txt "message")), bulkValue (some msg.channel),
    bulkValue (some msg.payload)]

/-- A frame on a socket, by what it is. -/
inductive Frame where
  /-- A reply of the request loop. -/
  | reply (v : Value)
  /-- The `OK` to a `REPLICAOF`. -/
  | handshake
  | subscribed (channel : Bytes) (count : Nat)
  /-- Without a channel, the answer to an `UNSUBSCRIBE` with nothing to leave. -/
  | unsubscribed (channel : Option Bytes) (count : Nat)
  | message (msg : Message)
  /-- A frame of a replica's queue, with the number of the write it is of; a heartbeat has none. -/
  | feed (write : Option Nat) (frame : Bytes)

namespace Frame

/-- What goes over the wire. -/
def bytes : Frame → Bytes
  | reply v => encode v
  | handshake => encode okValue
  | subscribed channel count => encode (subscribeReply (txt "subscribe") (some channel) count)
  | unsubscribed channel count => encode (subscribeReply (txt "unsubscribe") channel count)
  | message msg => encode (messageReply msg)
  | feed _ frame => frame

/-- The count in an acknowledgement. -/
def count? : Frame → Option Nat
  | subscribed _ count | unsubscribed _ count => some count
  | _ => none

/-- The write a frame is of. -/
def write? : Frame → Option Nat
  | feed write _ => write
  | _ => none

/-- What an acknowledgement does to the set of channels the client is told of. -/
def tell (set : Finset Bytes) : Frame → Finset Bytes
  | subscribed channel _ => insert channel set
  | unsubscribed (some channel) _ => set.erase channel
  | _ => set

end Frame

/-- The channels a client is subscribed to by the acknowledgements it was sent. -/
def acked (out : List Frame) : Finset Bytes := out.foldl Frame.tell ∅

theorem acked_concat (out : List Frame) (f : Frame) : acked (out ++ [f]) = f.tell (acked out) := by
  rw [acked, List.foldl_append]
  rfl

/-! ### The connection -/

/-- Where the request loop is. -/
inductive Loop where
  /-- Not accepted yet. -/
  | absent
  /-- In `Decode`. -/
  | reading
  /-- About to write a reply and read on. -/
  | replying (reply : Value)
  /-- About to write a last reply. -/
  | parting (reply : Value)
  /-- At the head of the loop of `subscribe`. -/
  | subscribing (rest : List Bytes)
  /-- The channel has gone into the set; `Subscribe` is next. -/
  | registering (channel : Bytes) (rest : List Bytes)
  /-- The channel is in the set, and registered if it was `new`; the acknowledgement is next. -/
  | subscribed (new : Bool) (channel : Bytes) (rest : List Bytes)
  /-- At the head of the loop of `unsubscribe`. -/
  | unsubscribing (rest : List Bytes)
  /-- The channel has gone from the set; `Unsubscribe` is next. -/
  | unregistering (channel : Bytes) (rest : List Bytes)
  /-- The channel is not in the set, nor registered; the acknowledgement is next. -/
  | unsubscribed (channel : Bytes) (rest : List Bytes)
  /-- About to answer an `UNSUBSCRIBE` that had nothing to leave. -/
  | unsubscribedNone
  /-- In `replicaof`, before the `OK`. -/
  | greeting
  /-- In `replicaof`, after it. -/
  | adding
  /-- At the start of `applyRecord`. -/
  | applying (request : Value)
  /-- In `Publish`. -/
  | publishing (render : Nat → Value)
  /-- In `applyRecord`, before the dispatch. -/
  | dispatching
  /-- In `applyRecord`, after it. -/
  | recording (reply : Value)
  /-- Out of the loop, before `removeReplica`. -/
  | leaving
  /-- In `unsubscribeAll`, with the channels still to leave. -/
  | draining (rest : List Bytes)
  /-- Before `conn.Close`. -/
  | closing
  | closed

/-- The channel `cs.sub` carries messages through, if it was made. -/
inductive Mailbox where
  | unmade | made | closed
deriving DecidableEq

/-- The goroutine `deliver`. -/
inductive Deliverer where
  | unstarted
  | waiting
  /-- It has taken a message and is about to write it. -/
  | holding (msg : Message)
  | ended

/-- `connState`.  The subscriber of a connection is known by the connection's number; `replica` is
the number of its feed. -/
structure Conn where
  loop : Loop
  channels : Finset Bytes
  mailbox : Mailbox
  deliverer : Deliverer
  replica : Option Nat
  /-- The writer has an error. -/
  broken : Bool
  out : List Frame

namespace Conn

/-- A connection that has not been accepted. -/
def new : Conn := ⟨.absent, ∅, .unmade, .unstarted, none, false, []⟩

/-- `subscribed` -/
def subscribed (cs : Conn) : Bool := decide (0 < cs.channels.card)

/-- `subscribe`, up to its loop. -/
def subscribe (channels : List Bytes) (cs : Conn) : Conn :=
  if channels = [] then { cs with loop := .replying (wrongArgs "subscribe") }
  else if cs.mailbox = .unmade then
    { cs with mailbox := .made, deliverer := .waiting, loop := .subscribing channels }
  else { cs with loop := .subscribing channels }

/-- `unsubscribe`, up to its loop; `all` is the channel set as it was ranged over. -/
def unsubscribe (all channels : List Bytes) (cs : Conn) : Conn :=
  if (if channels = [] then all else channels) = [] then { cs with loop := .unsubscribedNone }
  else { cs with loop := .unsubscribing (if channels = [] then all else channels) }

/-- The reply to a command outside the restricted set in subscribe mode. -/
def refusal (request : Value) : Value :=
  errorValue (txt "ERR Can't execute '" ++ toLower (toUpper (commandName request)) ++
    txt "': only (UN)SUBSCRIBE / PING / QUIT are allowed in subscribe context")

/-- `serve`, up to the first action that another goroutine can see or hinder. -/
def serve (primaryAddr : Bytes) (all : List Bytes) (request : Value) (cs : Conn) : Conn :=
  match route primaryAddr cs.subscribed request with
  | .refused => { cs with loop := .replying (refusal request) }
  | .subscribe => cs.subscribe (request.items.tail.map Value.str)
  | .unsubscribe => cs.unsubscribe all (request.items.tail.map Value.str)
  | .replicaof => { cs with loop := .greeting }
  | .replconf => if cs.replica.isSome then cs else { cs with loop := .replying okValue }
  | .quit => { cs with loop := .parting okValue }
  | .readonly => { cs with loop := .replying readonlyReply }
  | .apply => { cs with loop := .applying request }

/-- The frame the loop is about to write, and where it goes on from there. -/
def pending (cs : Conn) : Option (Frame × Loop) :=
  match cs.loop with
  | .replying v => some (.reply v, .reading)
  | .parting v => some (.reply v, .leaving)
  | .subscribed _ channel rest =>
      some (.subscribed channel cs.channels.card, .subscribing rest)
  | .unsubscribed channel rest =>
      some (.unsubscribed (some channel) cs.channels.card, .unsubscribing rest)
  | .unsubscribedNone => some (.unsubscribed none 0, .reading)
  | .greeting => some (.handshake, .adding)
  | _ => none

/-- After `removeReplica`: `unsubscribeAll` returns at once without a mailbox. -/
def drain (all : List Bytes) (cs : Conn) : Conn :=
  { cs with loop := if cs.mailbox = .unmade then .closing else .draining all }

end Conn

/-- The actions of a connection on itself. -/
inductive Act where
  | accept
  | read (request : Value)
  | malformed (text : Bytes)
  | hangUp
  | write
  | writeFails
  | keep
  | enter
  | delete
  | done
  | push
  | pushFails
  | closeMailbox
  | close

/-- One action of a connection on itself, on a server with the given primary address. -/
inductive Conn.Step (primaryAddr : Bytes) : Conn → Act → Conn → Prop where
  | accept {cs} (h : cs.loop = .absent) :
      Step primaryAddr cs .accept { cs with loop := .reading }
  | read {cs all request} (h : cs.loop = .reading) (hall : ListsSet all cs.channels) :
      Step primaryAddr cs (.read request) (cs.serve primaryAddr all request)
  /-- What arrives is no frame; `text` is the decoder's error. -/
  | malformed {cs text} (h : cs.loop = .reading) :
      Step primaryAddr cs (.malformed text)
        { cs with loop := .parting (errorValue (txt "ERR " ++ text)) }
  /-- The client closes, between two frames or within one. -/
  | hangUp {cs} (h : cs.loop = .reading) :
      Step primaryAddr cs .hangUp { cs with loop := .leaving }
  | write {cs f next} (h : cs.pending = some (f, next)) (hb : cs.broken = false) :
      Step primaryAddr cs .write { cs with out := cs.out ++ [f], loop := next }
  | writeFails {cs f next} (h : cs.pending = some (f, next)) :
      Step primaryAddr cs .writeFails { cs with broken := true, loop := .leaving }
  /-- A channel to subscribe to is in the set already. -/
  | already {cs channel rest} (h : cs.loop = .subscribing (channel :: rest))
      (hc : channel ∈ cs.channels) :
      Step primaryAddr cs .keep { cs with loop := .subscribed false channel rest }
  /-- A channel to leave is not in the set. -/
  | missing {cs channel rest} (h : cs.loop = .unsubscribing (channel :: rest))
      (hc : channel ∉ cs.channels) :
      Step primaryAddr cs .keep { cs with loop := .unsubscribed channel rest }
  /-- `cs.channels[channel] = struct{}{}` -/
  | enter {cs channel rest} (h : cs.loop = .subscribing (channel :: rest))
      (hc : channel ∉ cs.channels) :
      Step primaryAddr cs .enter
        { cs with channels := insert channel cs.channels, loop := .registering channel rest }
  /-- `delete(cs.channels, channel)` -/
  | delete {cs channel rest} (h : cs.loop = .unsubscribing (channel :: rest))
      (hc : channel ∈ cs.channels) :
      Step primaryAddr cs .delete
        { cs with channels := cs.channels.erase channel, loop := .unregistering channel rest }
  | done {cs} (h : cs.loop = .subscribing [] ∨ cs.loop = .unsubscribing []) :
      Step primaryAddr cs .done { cs with loop := .reading }
  | push {cs msg} (h : cs.deliverer = .holding msg) (hb : cs.broken = false) :
      Step primaryAddr cs .push
        { cs with out := cs.out ++ [.message msg], deliverer := .waiting }
  | pushFails {cs msg} (h : cs.deliverer = .holding msg) :
      Step primaryAddr cs .pushFails { cs with broken := true, deliverer := .ended }
  /-- `cs.sub.Close()` -/
  | closeMailbox {cs} (h : cs.loop = .draining []) :
      Step primaryAddr cs .closeMailbox { cs with mailbox := .closed, loop := .closing }
  /-- `conn.Close()` -/
  | close {cs} (h : cs.loop = .closing) :
      Step primaryAddr cs .close { cs with broken := true, loop := .closed }

/-! ### What `serve` does -/

namespace Conn

/-- What becomes of a connection that serves a request. -/
inductive Served (primaryAddr : Bytes) (all : List Bytes) (request : Value) (cs : Conn) :
    Conn → Prop where
  /-- The acknowledgement of a replica is not answered. -/
  | stay (h : route primaryAddr cs.subscribed request = .replconf) (hr : cs.replica.isSome) :
      Served primaryAddr all request cs cs
  | reply (v) : Served primaryAddr all request cs { cs with loop := .replying v }
  | part (v) : Served primaryAddr all request cs { cs with loop := .parting v }
  | join (rest) (h : cs.mailbox ≠ .unmade) :
      Served primaryAddr all request cs { cs with loop := .subscribing rest }
  | joinFirst (rest) (h : cs.mailbox = .unmade) :
      Served primaryAddr all request cs
        { cs with mailbox := .made, deliverer := .waiting, loop := .subscribing rest }
  | unsubscribe (rest) : Served primaryAddr all request cs { cs with loop := .unsubscribing rest }
  | unsubscribeNone (h : all = []) :
      Served primaryAddr all request cs { cs with loop := .unsubscribedNone }
  | greet (h : route primaryAddr cs.subscribed request = .replicaof) :
      Served primaryAddr all request cs { cs with loop := .greeting }
  | apply (h : route primaryAddr cs.subscribed request = .apply) :
      Served primaryAddr all request cs { cs with loop := .applying request }

/-- `serve` leads to one of the few states a request can lead to. -/
theorem serve_served (primaryAddr : Bytes) (all : List Bytes) (request : Value) (cs : Conn) :
    Served primaryAddr all request cs (cs.serve primaryAddr all request) := by
  unfold serve
  split
  case h_2 =>
    unfold subscribe
    by_cases hnone : request.items.tail.map Value.str = []
    · rw [if_pos hnone]
      exact .reply _
    · rw [if_neg hnone]
      by_cases hm : cs.mailbox = .unmade
      · rw [if_pos hm]
        exact .joinFirst _ hm
      · rw [if_neg hm]
        exact .join _ hm
  case h_3 =>
    unfold unsubscribe
    by_cases hnone : request.items.tail.map Value.str = []
    · rw [if_pos hnone]
      by_cases hall : all = []
      · rw [if_pos hall]
        exact .unsubscribeNone hall
      · rw [if_neg hall]
        exact .unsubscribe _
    · rw [if_neg hnone, if_neg hnone]
      exact .unsubscribe _
  case h_4 h => exact .greet h
  case h_5 h =>
    by_cases hr : cs.replica.isSome = true
    · rw [if_pos hr]
      exact .stay h hr
    · rw [if_neg hr]
      exact .reply _
  case h_6 => exact .part _
  case h_8 h => exact .apply h
  all_goals exact .reply _

theorem subscribed_eq_false {cs : Conn} (hc : cs.channels = ∅) : cs.subscribed = false := by
  rw [subscribed, hc]
  rfl

/-- A connection outside subscribe mode reads a request for the store. -/
theorem read_apply {primaryAddr : Bytes} {cs : Conn} {request : Value} (h : cs.loop = .reading)
    (hc : cs.channels = ∅) (hroute : route primaryAddr false request = .apply) :
    Conn.Step primaryAddr cs (.read request) { cs with loop := .applying request } := by
  have hserve : cs.serve primaryAddr [] request = { cs with loop := .applying request } := by
    unfold serve
    rw [subscribed_eq_false hc, hroute]
  rw [← hserve]
  exact .read h ⟨List.nodup_nil, fun a => by simp [hc]⟩

end Conn

end MiniRedis.Server
