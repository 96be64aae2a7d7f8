import MiniRedis.Replication.Primary
import MiniRedis.Server.Connection

/-!
# Server — Hub

The server with its connections, as a machine: any number of connections with their goroutines,
the broker, the registry of replica feeds and the store, and on a server with a primary the
commands of the primary's stream.  A client inside `applyRecord` makes the steps of
`Replication.Step`.

The broker is guarded by a read-write lock.  `Publish` holds it for reading while it sends to one
mailbox after the other, so its sends are steps of their own, and `Subscribe` and `Unsubscribe`
wait until no `Publish` is under way.  A connection changes its own set of channels before it waits,
so the set and the broker's lists change in two steps.

For the statements the machine also numbers the writes by their place in the history of the
primary, and keeps which of them went into each feed; no step looks at these.
-/

namespace MiniRedis.Server

open Protocol Store Cmd Maps Replication

/-- A `Publish` that holds the read lock: the subscribers still to be sent to and the number of
mailboxes that took the message. -/
structure Publishing where
  msg : Message
  rest : List Subscriber
  delivered : Nat

/-- The message a request publishes, and the reply by the number of mailboxes. -/
def publishes (request : Value) : Option (Message × (Nat → Value)) :=
  match plan request with
  | .call (.publish channel payload) render => some (⟨channel, payload⟩, render)
  | _ => none

/-- The goroutine `deliverReplica`. -/
inductive Shipper where
  | unstarted
  /-- Before it looks up its queue in `cs.replica`. -/
  | starting
  | draining (id : Nat)
  /-- It has taken a frame and is about to write it. -/
  | holding (id : Nat) (write : Option Nat) (frame : Bytes)
  | ended

/-- A server with its connections: the primary's state, and the goroutines that serve the
connections and the feeds. -/
structure Hub where
  primary : Primary
  conns : Nat → Conn
  /-- By connection; the stream's own at `none`. -/
  publishing : Option Nat → Option Publishing
  /-- The connection that registered a feed. -/
  owner : Nat → Nat
  /-- The goroutine started with a feed. -/
  shippers : Nat → Shipper
  /-- What a closed feed still has in its queue. -/
  leftover : Nat → List Bytes
  /-- How often a feed has been closed. -/
  closes : Nat → Nat
  /-- What `Append` has been given. -/
  log : List Value
  /-- The number of the write a client has dispatched under the lock. -/
  ticket : Nat → Nat
  /-- The writes that went into a feed. -/
  queued : Nat → List (Option Nat)
  /-- How many frames have been taken from a feed. -/
  taken : Nat → Nat

namespace Hub

/-- A server that has just started, with the given store. -/
def start (db : DB) : Hub where
  primary := .start { db with pubsub := .new }
  conns _ := .new
  publishing _ := none
  owner _ := 0
  shippers _ := .unstarted
  leftover _ := []
  closes _ := 0
  log := []
  ticket _ := 0
  queued _ := []
  taken _ := 0

/-- The broker of the store. -/
def broker (s : Hub) : Broker := s.primary.db.pubsub

/-- A connection's state changes. -/
def setConn (c : Nat) (cs : Conn) (s : Hub) : Hub :=
  { s with conns := Function.update s.conns c cs }

/-- The broker's state changes. -/
def setBroker (b : Broker) (s : Hub) : Hub :=
  { s with primary := { s.primary with db := { s.primary.db with pubsub := b } } }

/-- A `Publish` begins, goes on or ends. -/
def setPublishing (t : Option Nat) (p : Option Publishing) (s : Hub) : Hub :=
  { s with publishing := Function.update s.publishing t p }

/-- The goroutine of a feed goes on. -/
def setShipper (id : Nat) (sh : Shipper) (s : Hub) : Hub :=
  { s with shippers := Function.update s.shippers id sh }

/-- No `Publish` holds the lock of the broker. -/
def Unread (s : Hub) : Prop := ∀ t, s.publishing t = none

/-- The feeds after a write, or a heartbeat, has gone into each that has room. -/
def enqueue (write : Option Nat) (s : Hub) (id : Nat) : List (Option Nat) :=
  match s.primary.replicas.reps id with
  | none => s.queued id
  | some rep => if rep.ch.full then s.queued id else s.queued id ++ [write]

/-- The write the next frame of a feed is of. -/
def nextWrite (s : Hub) (id : Nat) : Option Nat := (s.queued id)[s.taken id]?.join

/-- A frame is taken from a feed by the goroutine started with `sh`. -/
def takeFrame (sh id : Nat) (frame : Bytes) (s : Hub) : Hub :=
  { s with
    shippers := Function.update s.shippers sh (.holding id (s.nextWrite id) frame)
    taken := Function.update s.taken id (s.taken id + 1) }

/-- `removeReplica`: the feed is taken out of the registry and closed. -/
def removeReplica : Option Nat → Hub → Hub
  | none, s => s
  | some id, s =>
      { s with
        primary := { s.primary with replicas := s.primary.replicas.remove id }
        leftover := Function.update s.leftover id
          (((s.primary.replicas.reps id).map fun rep => rep.ch.items).getD [])
        closes := Function.update s.closes id (s.closes id + 1) }

/-- `removeReplica` is about the registry alone. -/
@[simp] theorem removeReplica_conns (o : Option Nat) (s : Hub) :
    (s.removeReplica o).conns = s.conns := by cases o <;> rfl

@[simp] theorem removeReplica_publishing (o : Option Nat) (s : Hub) :
    (s.removeReplica o).publishing = s.publishing := by cases o <;> rfl

@[simp] theorem removeReplica_db (o : Option Nat) (s : Hub) :
    (s.removeReplica o).primary.db = s.primary.db := by cases o <;> rfl

@[simp] theorem removeReplica_phase (o : Option Nat) (s : Hub) :
    (s.removeReplica o).primary.phase = s.primary.phase := by cases o <;> rfl

/-- The steps of the server. -/
inductive Label where
  | conn (c : Nat) (a : Act)
  | register (c : Nat)
  | unregister (c : Nat)
  | drain (c : Nat)
  | receive (c : Nat)
  | finish (c : Nat)
  | add (c : Nat)
  | leave (c : Nat)
  | startShipper (sh : Nat)
  | take (sh : Nat)
  | ship (sh : Nat)
  | shipFails (sh : Nat)
  | stop (sh : Nat)
  | check (c : Nat)
  | fast (c : Nat) (now : Time) (order : RangeOrder)
  | acquire (c : Nat)
  | dispatch (c : Nat) (now : Time) (order : RangeOrder)
  | propagate (c : Nat)
  | release (c : Nat)
  | publish (c : Nat)
  | send (t : Option Nat)
  | published (c : Nat)
  | heartbeat
  | pass (now : Time) (start : Fin shardCount) (order : RangeOrder)
  | stream (cmd : Value) (now : Time) (order : RangeOrder)
  | streamPublished

/-- One step of a server with the given primary address, with or without a log. -/
inductive Step (primaryAddr : Bytes) (aof : Bool) : Hub → Label → Hub → Prop where
  | conn {s c a cs} (h : Conn.Step primaryAddr (s.conns c) a cs) :
      Step primaryAddr aof s (.conn c a) (s.setConn c cs)
  | register {s c channel rest} (h : (s.conns c).loop = .registering channel rest)
      (hfree : s.Unread) :
      Step primaryAddr aof s (.register c)
        ((s.setBroker (s.broker.subscribe channel c)).setConn c
          { s.conns c with loop := .subscribed true channel rest })
  | unregister {s c channel rest} (h : (s.conns c).loop = .unregistering channel rest)
      (hfree : s.Unread) :
      Step primaryAddr aof s (.unregister c)
        ((s.setBroker (s.broker.unsubscribe channel c)).setConn c
          { s.conns c with loop := .unsubscribed channel rest })
  /-- `unsubscribeAll` leaves the set of channels as it is. -/
  | drain {s c channel rest} (h : (s.conns c).loop = .draining (channel :: rest))
      (hfree : s.Unread) :
      Step primaryAddr aof s (.drain c)
        ((s.setBroker (s.broker.unsubscribe channel c)).setConn c
          { s.conns c with loop := .draining rest })
  | receive {s c msg q} (h : (s.conns c).deliverer = .waiting)
      (hr : (s.broker.mailbox c).recv = some (msg, q)) :
      Step primaryAddr aof s (.receive c)
        ((s.setBroker (s.broker.setMailbox c q)).setConn c
          { s.conns c with deliverer := .holding msg })
  | finish {s c} (h : (s.conns c).deliverer = .waiting)
      (hm : (s.conns c).mailbox = .closed) (hq : (s.broker.mailbox c).items = []) :
      Step primaryAddr aof s (.finish c) (s.setConn c { s.conns c with deliverer := .ended })
  | add {s c p} (h : (s.conns c).loop = .adding) (hp : Replication.Step aof s.primary .add p) :
      Step primaryAddr aof s (.add c)
        { s with
          primary := p
          owner := Function.update s.owner s.primary.replicas.next c
          shippers := Function.update s.shippers s.primary.replicas.next .starting
          conns := Function.update s.conns c
            { s.conns c with replica := some s.primary.replicas.next, loop := .reading } }
  | leave {s c all} (h : (s.conns c).loop = .leaving)
      (hall : ListsSet all (s.conns c).channels) :
      Step primaryAddr aof s (.leave c)
        ((s.removeReplica (s.conns c).replica).setConn c ((s.conns c).drain all))
  | startShipper {s sh id} (h : s.shippers sh = .starting)
      (hr : (s.conns (s.owner sh)).replica = some id) :
      Step primaryAddr aof s (.startShipper sh) (s.setShipper sh (.draining id))
  | take {s sh id frame p} (h : s.shippers sh = .draining id)
      (hp : Replication.Step aof s.primary (.deliver id frame) p) :
      Step primaryAddr aof s (.take sh) { s.takeFrame sh id frame with primary := p }
  /-- A closed queue is drained all the same. -/
  | takeLeft {s sh id frame rest} (h : s.shippers sh = .draining id)
      (hrep : s.primary.replicas.reps id = none) (hl : s.leftover id = frame :: rest) :
      Step primaryAddr aof s (.take sh)
        { s.takeFrame sh id frame with leftover := Function.update s.leftover id rest }
  | ship {s sh id write frame} (h : s.shippers sh = .holding id write frame)
      (hb : (s.conns (s.owner sh)).broken = false) :
      Step primaryAddr aof s (.ship sh)
        ((s.setShipper sh (.draining id)).setConn (s.owner sh)
          { s.conns (s.owner sh) with
            out := (s.conns (s.owner sh)).out ++ [.feed write frame] })
  | shipFails {s sh id write frame} (h : s.shippers sh = .holding id write frame) :
      Step primaryAddr aof s (.shipFails sh)
        ((s.setShipper sh .ended).setConn (s.owner sh)
          { s.conns (s.owner sh) with broken := true })
  | stop {s sh id} (h : s.shippers sh = .draining id)
      (hrep : s.primary.replicas.reps id = none) (hl : s.leftover id = []) :
      Step primaryAddr aof s (.stop sh) (s.setShipper sh .ended)
  | check {s c request p} (h : (s.conns c).loop = .applying request)
      (hpub : publishes request = none)
      (hp : Replication.Step aof s.primary (.check c request) p) :
      Step primaryAddr aof s (.check c)
        (Hub.setConn c { s.conns c with loop := .dispatching } { s with primary := p })
  | fast {s c request now order p} (h : (s.conns c).loop = .dispatching)
      (hr : s.primary.phase c = .fast request)
      (hp : Replication.Step aof s.primary (.fast c now order) p) :
      Step primaryAddr aof s (.fast c now order)
        (Hub.setConn c
          { s.conns c with loop := .replying (s.primary.db.dispatch now order request).2 }
          { s with primary := p })
  | acquire {s c p} (hp : Replication.Step aof s.primary (.acquire c) p) :
      Step primaryAddr aof s (.acquire c) { s with primary := p }
  | dispatch {s c request now order p} (h : (s.conns c).loop = .dispatching)
      (hr : s.primary.phase c = .locked request)
      (hp : Replication.Step aof s.primary (.dispatch c now order) p) :
      Step primaryAddr aof s (.dispatch c now order)
        (Hub.setConn c
          { s.conns c with loop := .recording (s.primary.db.dispatch now order request).2 }
          { s with
            primary := p
            ticket := Function.update s.ticket c s.primary.history.length })
  /-- The append, if there is a log, and the propagation. -/
  | propagate {s c request p} (hr : s.primary.phase c = .applied request)
      (hp : Replication.Step aof s.primary (.propagate c) p) :
      Step primaryAddr aof s (.propagate c)
        { s with
          primary := p
          log := if aof then s.log ++ [request] else s.log
          queued := s.enqueue (some (s.ticket c)) }
  | release {s c reply p} (h : (s.conns c).loop = .recording reply)
      (hp : Replication.Step aof s.primary (.release c) p) :
      Step primaryAddr aof s (.release c)
        (Hub.setConn c { s.conns c with loop := .replying reply } { s with primary := p })
  | publish {s c request msg render} (h : (s.conns c).loop = .applying request)
      (hpub : publishes request = some (msg, render)) :
      Step primaryAddr aof s (.publish c)
        ((s.setPublishing (some c) (some ⟨msg, s.broker.listeners msg.channel, 0⟩)).setConn c
          { s.conns c with loop := .publishing render })
  | send {s t msg sub rest n} (h : s.publishing t = some ⟨msg, sub :: rest, n⟩) :
      Step primaryAddr aof s (.send t)
        ((s.setBroker (s.broker.offer msg sub).1).setPublishing t
          (some ⟨msg, rest, n + if (s.broker.offer msg sub).2 then 1 else 0⟩))
  | published {s c msg n render} (h : s.publishing (some c) = some ⟨msg, [], n⟩)
      (hl : (s.conns c).loop = .publishing render) :
      Step primaryAddr aof s (.published c)
        ((s.setPublishing (some c) none).setConn c
          { s.conns c with loop := .replying (render n) })
  | heartbeat {s p} (hp : Replication.Step aof s.primary .heartbeat p) :
      Step primaryAddr aof s .heartbeat { s with primary := p, queued := s.enqueue none }
  | pass {s now start order p}
      (hp : Replication.Step aof s.primary (.pass now start order) p) :
      Step primaryAddr aof s (.pass now start order) { s with primary := p }
  /-- A command of the primary's stream goes straight to `Dispatch`. -/
  | stream {s cmd now order} (haddr : primaryAddr ≠ []) (hidle : s.publishing none = none)
      (hpub : publishes cmd = none) :
      Step primaryAddr aof s (.stream cmd now order)
        { s with
          primary := { s.primary with db := (s.primary.db.dispatch now order cmd).1 } }
  | streamPublish {s cmd now order msg render} (haddr : primaryAddr ≠ [])
      (hidle : s.publishing none = none) (hpub : publishes cmd = some (msg, render)) :
      Step primaryAddr aof s (.stream cmd now order)
        (s.setPublishing none (some ⟨msg, s.broker.listeners msg.channel, 0⟩))
  | streamPublished {s msg n} (h : s.publishing none = some ⟨msg, [], n⟩) :
      Step primaryAddr aof s .streamPublished (s.setPublishing none none)

end Hub

/-! ### What a step does to a connection -/

/-- In `applyRecord`. -/
def Loop.Serving : Loop → Prop
  | .applying _ | .publishing _ | .dispatching | .recording _ => True
  | _ => False

/-- What a step may do to a connection, with the action if it is one on the connection itself. -/
inductive Conn.Move (primaryAddr : Bytes) : Conn → Option Act → Conn → Prop where
  | same (cs) : Move primaryAddr cs none cs
  | act {cs a cs'} (h : Conn.Step primaryAddr cs a cs') : Move primaryAddr cs (some a) cs'
  | register {cs channel rest} (h : cs.loop = .registering channel rest) :
      Move primaryAddr cs none { cs with loop := .subscribed true channel rest }
  | unregister {cs channel rest} (h : cs.loop = .unregistering channel rest) :
      Move primaryAddr cs none { cs with loop := .unsubscribed channel rest }
  | drain {cs channel rest} (h : cs.loop = .draining (channel :: rest)) :
      Move primaryAddr cs none { cs with loop := .draining rest }
  | receive {cs} (msg) (h : cs.deliverer = .waiting) :
      Move primaryAddr cs none { cs with deliverer := .holding msg }
  | finish {cs} (h : cs.deliverer = .waiting) :
      Move primaryAddr cs none { cs with deliverer := .ended }
  | add {cs} (id) (h : cs.loop = .adding) :
      Move primaryAddr cs none { cs with replica := some id, loop := .reading }
  | leave {cs all} (h : cs.loop = .leaving) (hall : ListsSet all cs.channels) :
      Move primaryAddr cs none (cs.drain all)
  | ship {cs} (write frame) (hb : cs.broken = false) :
      Move primaryAddr cs none { cs with out := cs.out ++ [.feed write frame] }
  | shipFails (cs) : Move primaryAddr cs none { cs with broken := true }
  | serving {cs} (loop) (h : cs.loop.Serving) (hl : loop.Serving ∨ ∃ v, loop = .replying v) :
      Move primaryAddr cs none { cs with loop }

/-- **What a move writes**: nothing, the frame the loop was at, the message `deliver` has taken, or
a frame of a replica's queue. -/
theorem Conn.Move.out {primaryAddr : Bytes} {cs cs' : Conn} {o : Option Act}
    (h : cs.Move primaryAddr o cs') :
    cs'.out = cs.out ∨ cs.broken = false ∧
      ((∃ f next, o = some .write ∧ cs.pending = some (f, next) ∧ cs'.loop = next ∧
          cs'.out = cs.out ++ [f]) ∨
        (∃ msg, o = some .push ∧ cs.deliverer = .holding msg ∧
          cs'.out = cs.out ++ [.message msg]) ∨
        ∃ write frame, cs'.out = cs.out ++ [.feed write frame]) := by
  cases h with
  | act h =>
      cases h with
      | @read all request h hall =>
          have hserved := cs.serve_served primaryAddr all request
          generalize cs.serve primaryAddr all request = cs' at hserved ⊢
          cases hserved <;> exact .inl rfl
      | write h hb => exact .inr ⟨hb, .inl ⟨_, _, rfl, h, rfl, rfl⟩⟩
      | push h hb => exact .inr ⟨hb, .inr (.inl ⟨_, rfl, h, rfl⟩)⟩
      | _ => exact .inl rfl
  | ship write frame hb => exact .inr ⟨hb, .inr (.inr ⟨write, frame, rfl⟩)⟩
  | _ => exact .inl rfl

namespace Hub

/-- The action of a connection on itself that a step is. -/
def Label.act? (c : Nat) : Label → Option Act
  | .conn c' a => if c = c' then some a else none
  | _ => none

/-- A step of a connection has one label. -/
theorem Label.act?_eq_some {c : Nat} {l : Label} {a : Act} (h : l.act? c = some a) :
    l = .conn c a := by
  cases l with
  | conn c' a' =>
      change (if c = c' then some a' else none) = some a at h
      split at h
      case isTrue hc => rw [hc, Option.some.inj h]
      case isFalse => cases h
  | _ => cases h

variable {primaryAddr : Bytes} {aof : Bool} {s s' : Hub} {l : Label}

/-- **A step of the server is one of the primary**, or changes nothing of it but the store. -/
theorem Step.primary (h : Step primaryAddr aof s l s') :
    (∃ db, s'.primary = { s.primary with db }) ∨
      ∃ l', Replication.Step aof s.primary l' s'.primary := by
  cases h with
  | add _ hp | take _ hp | check _ _ hp | fast _ _ hp | acquire hp | dispatch _ _ hp
  | propagate _ hp | release _ hp | heartbeat hp | pass hp => exact .inr ⟨_, hp⟩
  | @leave c all h hall =>
      generalize (s.conns c).replica = o
      cases o with
      | none => exact .inl ⟨_, rfl⟩
      | some id => exact .inr ⟨.remove id, .remove⟩
  | _ => exact .inl ⟨_, rfl⟩

/-- **A step moves one connection at most.** -/
theorem Step.moves (h : Step primaryAddr aof s l s') (c : Nat) :
    (s.conns c).Move primaryAddr (l.act? c) (s'.conns c) := by
  -- the connection `c'` moves, and the others stay
  have update : ∀ {c' : Nat} {cs : Conn}, (s.conns c').Move primaryAddr none cs →
      (s.conns c).Move primaryAddr none (Function.update s.conns c' cs c) :=
    fun hm => (Function.forall_update_iff s.conns fun c cs =>
      (s.conns c).Move primaryAddr none cs).2 ⟨hm, fun _ _ => .same _⟩ c
  have serving : ∀ {c' : Nat} {loop : Loop}, (s.conns c').loop.Serving →
      (loop.Serving ∨ ∃ v, loop = .replying v) →
      (s.conns c).Move primaryAddr none
        (Function.update s.conns c' { s.conns c' with loop } c) :=
    fun h hl => update (.serving _ h hl)
  cases h with
  | @conn c' a cs h =>
      change Conn.Move primaryAddr _ (if c = c' then some a else none)
        (Function.update s.conns c' cs c)
      rw [Function.update_apply]
      split
      case isTrue hc => rw [hc]; exact .act h
      case isFalse => exact .same _
  | register h _ => exact update (.register h)
  | unregister h _ => exact update (.unregister h)
  | drain h _ => exact update (.drain h)
  | receive h _ => exact update (.receive _ h)
  | finish h _ _ => exact update (.finish h)
  | add h _ => exact update (.add _ h)
  | @leave c' all h hall =>
      change Conn.Move primaryAddr _ none (Function.update
        (s.removeReplica (s.conns c').replica).conns c' ((s.conns c').drain all) c)
      rw [removeReplica_conns]
      exact update (.leave h hall)
  | ship h hb => exact update (.ship _ _ hb)
  | shipFails h => exact update (.shipFails _)
  | check h _ _ => exact serving (by rw [h]; trivial) (.inl trivial)
  | fast h _ _ => exact serving (by rw [h]; trivial) (.inr ⟨_, rfl⟩)
  | dispatch h _ _ => exact serving (by rw [h]; trivial) (.inl trivial)
  | release h _ => exact serving (by rw [h]; trivial) (.inr ⟨_, rfl⟩)
  | publish h _ => exact serving (by rw [h]; trivial) (.inl trivial)
  | published _ h => exact serving (by rw [h]; trivial) (.inr ⟨_, rfl⟩)
  | startShipper | take | takeLeft | stop | acquire | propagate | send | heartbeat | pass
  | stream | streamPublish | streamPublished => exact .same _

end Hub

end MiniRedis.Server
