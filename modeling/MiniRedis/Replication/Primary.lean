import MiniRedis.Server.Apply
import MiniRedis.Store.Expiry
import MiniRedis.Support.Machine
import MiniRedis.Support.Queue

/-!
# Replication — Primary

The registry of replica feeds (`internal/replication/primary.go`) and the server around it, as a
machine.  Clients run `applyRecord`: a client decides first whether the lock-free path will do,
and a client that takes the other path acquires `writeMu`, dispatches, propagates and releases.
Heartbeats, registrations and deliveries take place at any moment.

For the statements, the machine also keeps the successful writes in the order the store applied
them, and for each feed what it has been offered; no step looks at these.
-/

namespace MiniRedis.Replication

open Protocol Store Cmd Server Strings

/-! ### The registry -/

/-- The frames that wait in a replica's queue before the next is dropped. -/
def replicaQueueCap : Nat := 256

/-- `Replica`: the queue of frames for one connected replica. -/
structure Replica where
  ch : Queue replicaQueueCap Bytes

/-- `Replicas`: the feeds by their number; those from `next` on have not been given out. -/
structure Replicas where
  next : Nat
  reps : Nat → Option Replica
  unused : ∀ id, next ≤ id → reps id = none

namespace Replicas

/-- `NewReplicas` -/
def new : Replicas := ⟨0, fun _ => none, fun _ _ => rfl⟩

/-- `Add`, without the number it hands out, which is `next`. -/
def add (r : Replicas) : Replicas where
  next := r.next + 1
  reps := Function.update r.reps r.next (some ⟨.empty⟩)
  unused id h := by
    rw [Function.update_of_ne (by omega)]
    exact r.unused id (by omega)

/-- `Remove` -/
def remove (id : Nat) (r : Replicas) : Replicas where
  next := r.next
  reps := Function.update r.reps id none
  unused i h := by
    rw [Function.update_apply]
    split
    · rfl
    · exact r.unused i h

/-- `Any` -/
def any (r : Replicas) : Bool := (List.range r.next).any fun id => (r.reps id).isSome

/-- `Propagate`: one frame for every feed, left out where the queue is full. -/
def propagate (cmd : Value) (r : Replicas) : Replicas where
  next := r.next
  reps id := (r.reps id).map fun rep => ⟨(rep.ch.send (encode cmd)).1⟩
  unused id h := by rw [r.unused id h]; rfl

/-- One turn of `deliverReplica`: the queue without its first frame. -/
def deliver (id : Nat) (ch : Queue replicaQueueCap Bytes) (r : Replicas) : Replicas where
  next := r.next
  reps i := if i = id then (r.reps i).map fun _ => ⟨ch⟩ else r.reps i
  unused i h := by
    rw [r.unused i h]
    exact ite_self _

theorem any_of_some {r : Replicas} {id : Nat} {rep : Replica} (h : r.reps id = some rep) :
    r.any = true := by
  have hlt : id < r.next := by
    by_contra hn
    rw [r.unused id (by omega)] at h
    cases h
  exact List.any_eq_true.2 ⟨id, List.mem_range.2 hlt, by rw [h]; rfl⟩

theorem any_of_registered {r : Replicas} (h : ∃ id rep, r.reps id = some rep) : r.any = true := by
  obtain ⟨id, rep, h⟩ := h
  exact any_of_some h

end Replicas

/-- `pingCommand` -/
def pingCommand : Value := bulkCmd [txt "PING"]

/-- `isHeartbeat` -/
def isHeartbeat (v : Value) : Bool := v.isCommand && equalFold (commandName v) (txt "PING")

/-- The bytes that fold to the letter `l`, with `u` its upper case. -/
theorem mem_of_lowerByte {b u l : UInt8} (h : lowerByte b = l) (hl : l.toNat = u.toNat + 32) :
    b ∈ [u, l] := by
  unfold lowerByte at h
  split at h
  · have hb := congrArg UInt8.toNat h
    rw [UInt8.toNat_ofNat_of_lt' (show b.toNat + 32 < 256 by omega)] at hb
    rw [UInt8.toNat_inj.1 (show b.toNat = u.toNat by omega)]
    exact List.mem_cons_self
  · rw [h]
    exact List.mem_cons_of_mem _ List.mem_cons_self

/-- A name that folds to `PING` is no name of the write table. -/
theorem isHeartbeat_of_isWrite {v : Value} (h : isWrite (commandName v) = true) :
    isHeartbeat v = false := by
  have hnames : ∀ a ∈ [80, 112], ∀ b ∈ [73, 105], ∀ c ∈ [78, 110], ∀ d ∈ [71, 103],
      isWrite [a, b, c, d] = false := by decide +kernel
  rw [isHeartbeat, Bool.and_eq_false_iff, or_iff_not_imp_left]
  intro _
  by_contra hping
  have hfold : (commandName v).map lowerByte = (txt "PING").map lowerByte := by
    simpa [equalFold] using hping
  rw [show (txt "PING").map lowerByte = [112, 105, 110, 103] by decide] at hfold
  generalize commandName v = name at h hfold
  obtain ⟨a, _, rfl, ha, hfold⟩ := List.map_eq_cons_iff.1 hfold
  obtain ⟨b, _, rfl, hb, hfold⟩ := List.map_eq_cons_iff.1 hfold
  obtain ⟨c, _, rfl, hc, hfold⟩ := List.map_eq_cons_iff.1 hfold
  obtain ⟨d, _, rfl, hd, hfold⟩ := List.map_eq_cons_iff.1 hfold
  cases List.map_eq_nil_iff.1 hfold
  rw [hnames a (mem_of_lowerByte ha (by decide)) b (mem_of_lowerByte hb (by decide))
    c (mem_of_lowerByte hc (by decide)) d (mem_of_lowerByte hd (by decide))] at h
  cases h

/-! ### The machine -/

/-- Where a client is in `applyRecord`. -/
inductive Phase where
  | idle
  /-- The request takes the lock-free path. -/
  | fast (request : Value)
  /-- It does not, and waits for `writeMu`. -/
  | waiting (request : Value)
  | locked (request : Value)
  /-- It has been dispatched without an error and is still to be propagated. -/
  | applied (request : Value)
  /-- About to release `writeMu`. -/
  | done

namespace Phase

/-- The client holds `writeMu`. -/
def Holds : Phase → Prop
  | locked _ | applied _ | done => True
  | _ => False

/-- The request a client is at. -/
def request : Phase → Option Value
  | fast request | waiting request | locked request | applied request => some request
  | _ => none

/-- The request of a client on the locking path. -/
def pending : Phase → Option Value
  | waiting request | locked request | applied request => some request
  | _ => none

/-- The request of a client between its dispatch and its propagation. -/
def unpropagated : Phase → Option Value
  | applied request => some request
  | _ => none

end Phase

/-- A successful write, with the store it found and the one it left. -/
structure Write where
  request : Value
  before : DB
  after : DB

/-- What has become of a feed: how many writes had been applied when it was registered, the write
that was then between its dispatch and its propagation, the commands it has been offered, each
with whether there was room for it, and how many have left the queue. -/
structure Feed where
  since : Nat
  carried : Option Value
  offered : List (Value × Bool)
  delivered : Nat

/-- A primary: the store, the registry, the holder of `writeMu` and how far every request is, with
the writes done and what every feed was offered. -/
structure Primary where
  db : DB
  replicas : Replicas
  lock : Option Nat
  phase : Nat → Phase
  history : List Write
  feeds : Nat → Feed

namespace Primary

/-- A server that has just started, with the given store. -/
def start (db : DB) : Primary where
  db := db
  replicas := .new
  lock := none
  phase _ := .idle
  history := []
  feeds _ := ⟨0, none, [], 0⟩

/-- The write that has been dispatched and not yet propagated. -/
def inflight (s : Primary) : Option Value :=
  s.lock.bind fun c => (s.phase c).unpropagated

/-- The client's next phase. -/
def goto (s : Primary) (c : Nat) (p : Phase) : Primary :=
  { s with phase := Function.update s.phase c p }

/-- `Dispatch`, with a successful write noted. -/
def dispatch (now : Time) (order : RangeOrder) (request : Value) (s : Primary) : Primary :=
  let r := s.db.dispatch now order request
  { s with
    db := r.1
    history := if recorded request r.2 then s.history ++ [⟨request, s.db, r.1⟩] else s.history }

/-- `Propagate`, with what each feed is offered noted. -/
def offer (cmd : Value) (s : Primary) : Primary :=
  { s with
    replicas := s.replicas.propagate cmd
    feeds := fun id =>
      match s.replicas.reps id with
      | none => s.feeds id
      | some rep =>
          { s.feeds id with offered := (s.feeds id).offered ++ [(cmd, !rep.ch.full)] } }

end Primary

/-- The steps of the primary. -/
inductive Label where
  | check (c : Nat) (request : Value)
  | fast (c : Nat) (now : Time) (order : RangeOrder)
  | acquire (c : Nat)
  | dispatch (c : Nat) (now : Time) (order : RangeOrder)
  | propagate (c : Nat)
  | release (c : Nat)
  | heartbeat
  | add
  | remove (id : Nat)
  | deliver (id : Nat) (frame : Bytes)
  | pass (now : Time) (start : Fin shardCount) (order : RangeOrder)
  | connection (pubsub : Broker)

/-- The request a client submits with a step. -/
def Label.request? : Label → Option Value
  | .check _ request => some request
  | _ => none

/-- The condition of the lock-free path. -/
def fastPath (aof : Bool) (r : Replicas) (request : Value) : Bool :=
  !isWrite (commandName request) || (!aof && !r.any)

/-- One step of a primary with or without a log. -/
inductive Step (aof : Bool) : Primary → Label → Primary → Prop where
  | check {s c request} (h : s.phase c = .idle) :
      Step aof s (.check c request)
        (s.goto c (if fastPath aof s.replicas request then .fast request else .waiting request))
  | fast {s c request now order} (h : s.phase c = .fast request) :
      Step aof s (.fast c now order) ((s.dispatch now order request).goto c .idle)
  | acquire {s c request} (h : s.phase c = .waiting request) (hl : s.lock = none) :
      Step aof s (.acquire c) { s.goto c (.locked request) with lock := some c }
  | dispatch {s c request now order} (h : s.phase c = .locked request) :
      Step aof s (.dispatch c now order)
        ((s.dispatch now order request).goto c
          (if (s.db.dispatch now order request).2.isError then .done else .applied request))
  /-- The append before it concerns the log only. -/
  | propagate {s c request} (h : s.phase c = .applied request) :
      Step aof s (.propagate c) ((s.offer request).goto c .done)
  | release {s c} (h : s.phase c = .done) :
      Step aof s (.release c) { s.goto c .idle with lock := none }
  /-- `Heartbeat` propagates without `writeMu`. -/
  | heartbeat {s} : Step aof s .heartbeat (s.offer pingCommand)
  | add {s} :
      Step aof s .add
        { s with
          replicas := s.replicas.add
          feeds := Function.update s.feeds s.replicas.next
            ⟨s.history.length, s.inflight, [], 0⟩ }
  | remove {s id} : Step aof s (.remove id) { s with replicas := s.replicas.remove id }
  | deliver {s id rep frame ch} (h : s.replicas.reps id = some rep)
      (hr : rep.ch.recv = some (frame, ch)) :
      Step aof s (.deliver id frame)
        { s with
          replicas := s.replicas.deliver id ch
          feeds := Function.update s.feeds id
            { s.feeds id with delivered := (s.feeds id).delivered + 1 } }
  | pass {s now start order} :
      Step aof s (.pass now start order)
        { s with db := (s.db.activeExpiryPass now start order).1 }
  | connection {s pubsub} :
      Step aof s (.connection pubsub) { s with db := { s.db with pubsub } }

end MiniRedis.Replication
