import MiniRedis.Persistence.AOF
import MiniRedis.Replication.Primary
import MiniRedis.Server.Interleaving
import MiniRedis.Server.Serve
import MiniRedis.Store.Snapshot
import MiniRedis.Support.Locks

/-!
# Server — Programs

What the goroutines of a server do, lock by lock.  Every method of the store locks the shard of its
key, for reading or for writing, `Publish` the registry of the broker; `applyRecord` and
`rewriteAOF` hold `writeMu` around it all; the log has `a.mu`, the replicas have theirs, and each
connection has the `writeMu` under which frames are written to its socket.  Every loop receives what
its next turn is about with no lock held.

A program without its locks is what the methods do (`run_dispatchProgram`, `run_recordProgram`,
`run_applyRecordProgram`, `run_snapshotProgram`, `run_rewriteAOFProgram`, `run_passProgram`), so
what is modelled here is where the locks are.
-/

namespace MiniRedis.Server

open Protocol Store Cmd Replication Footprint Locks

/-- The mutexes of a server; a connection's `writeMu` is the lock of its outlet. -/
inductive Mutex where
  | writeMu
  | shard (i : Fin shardCount)
  | aof
  | broker
  | replicas
  | outlet (c : Nat)
deriving DecidableEq

/-- What the goroutines share under the locks: the store with its broker, the registry of replicas
and the log.  A connection's own state is not in it.  All of that but the field `replica` belongs to
the request loop; `replicaof` writes that field and `deliverReplica` reads it, under no lock. -/
structure Shared (Log : Type) where
  db : DB
  replicas : Replicas
  log : Log

/-- What the methods of the log do to it; `rewrite` answers whether it succeeded.  `append` is what
becomes of the log whether or not `Append` fails, for `applyRecord` goes on in either case. -/
structure LogMethods (Log : Type) where
  append : Value → Log → Log
  rewrite : List SnapshotEntry → Log → Log × Bool
  sync : Log → Log
  shouldRewrite : Log → Bool

variable {Log α β : Type}

/-- A program over the locks of the server, whose waits are writes to sockets. -/
abbrev Program (Log β : Type) := Prog Mutex Nat (Shared Log) β

namespace Shared

/-- A method of the store. -/
def onDB (f : DB → DB × α) (s : Shared Log) : Shared Log × α :=
  ({ s with db := (f s.db).1 }, (f s.db).2)

/-- A method of the registry of replicas. -/
def onReplicas (f : Replicas → Replicas × α) (s : Shared Log) : Shared Log × α :=
  ({ s with replicas := (f s.replicas).1 }, (f s.replicas).2)

/-- A method of the log. -/
def onLog (f : Log → Log × α) (s : Shared Log) : Shared Log × α :=
  ({ s with log := (f s.log).1 }, (f s.log).2)

/-- A thread of the store, on the store that is shared. -/
def zoomDB (p : Thread DB α) : Thread (Shared Log) α :=
  p.zoom Shared.db fun db s => { s with db }

/-- A thread over the store leaves the rest as it is. -/
theorem run_zoomDB (p : Thread DB α) (s : Shared Log) :
    (zoomDB p).run s = ({ s with db := (p.run s.db).1 }, (p.run s.db).2) :=
  Thread.run_zoom Shared.db (fun db s => { s with db }) (fun _ _ => rfl) (fun _ _ _ => rfl)
    (fun _ => rfl) p s

end Shared

open Shared Prog

/-! ### The methods of the store -/

/-- An access to the shard of a key. -/
def onKey (key : Bytes) (m : Mode) (f : DB → DB × α) : Program Log α :=
  guarded (.shard (shardIndex key)) m (onDB f)

/-- `Del` -/
def delProgram (now : Time) : List Bytes → Nat → Program Log Nat
  | [], n => .done n
  | key :: keys, n =>
      (onKey key .exclusive (DB.delOne now key)).bind fun m => delProgram now keys (n + m)

/-- `Exists` -/
def existsProgram (now : Time) : List Bytes → Nat → Program Log Nat
  | [], n => .done n
  | key :: keys, n =>
      (onKey key .shared fun db => (db, db.exists now [key])).bind fun m =>
        existsProgram now keys (n + m)

/-- `Get`: the read lock is let go of before the write lock is taken. -/
def getProgram (now : Time) (key : Bytes) : Program Log (Outcome (Option Bytes)) :=
  (onKey key .shared fun db => (db, db.getRead now key)).bind fun r =>
    if r.2 then onKey key .exclusive fun db => ((db.expireIfNeeded now key).1, r.1)
    else .done r.1

/-- The lock of a call of one section, and how it is taken. -/
def callLock (c : Call) : Mutex × Mode :=
  (match c.key? with
    | some key => .shard (shardIndex key)
    | none => .broker,
    if c.isWrite then .exclusive else .shared)

/-- A call of the store. -/
def callProgram (now : Time) (order : RangeOrder) : (c : Call) → Program Log c.Result
  | .del keys => delProgram now keys 0
  | .exists keys => existsProgram now keys 0
  | .get key => getProgram now key
  | c => guarded (callLock c).1 (callLock c).2 (onDB (DB.call now order c))

/-- `Dispatch` -/
def dispatchProgram (r : Dispatched) : Program Log Value :=
  match plan r.request with
  | .reply v => .done v
  | .call c render => (callProgram r.now r.order c).bind fun a => .done (render a)

/-! ### The background of the store -/

/-- The loop of `Snapshot` over the shards, the records so far first. -/
def snapshotProgram (now : Time) (order : RangeOrder) :
    List (Fin shardCount) → List SnapshotEntry → Program Log (List SnapshotEntry)
  | [], out => .done out
  | i :: is, out =>
      (guarded (.shard i) .shared (onDB fun db => (db,
        ((order.shard i (db.shards i)).filter fun p => !p.2.expired now).map fun p =>
          DB.snapshotEntry order p.1 p.2))).bind fun records =>
            snapshotProgram now order is (out ++ records)

/-- One shard of a pass of the reaper: what it has sampled and found expired so far. -/
def reapOne (now : Time) (order : RangeOrder) (i : Fin shardCount) (sampled expired : Nat)
    (db : DB) : DB × Nat × Nat :=
  let (sh, counts) := DB.reapShard now (order.shard i (db.shards i)) (db.shards i) sampled expired
  ({ db with shards := Function.update db.shards i sh }, counts)

/-- The loop of `activeExpiryPass` over the shards, while the budget lasts. -/
def reapProgram (now : Time) (order : RangeOrder) :
    List (Fin shardCount) → Nat → Nat → Program Log (Nat × Nat)
  | [], sampled, expired => .done (sampled, expired)
  | i :: is, sampled, expired =>
      if sampled < activeExpirySample then
        (guarded (.shard i) .exclusive (onDB (reapOne now order i sampled expired))).bind fun n =>
          reapProgram now order is n.1 n.2
      else .done (sampled, expired)

/-- `activeExpiryPass` -/
def passProgram (now : Time) (start : Fin shardCount) (order : RangeOrder) : Program Log Bool :=
  (reapProgram now order (DB.walkFrom start) 0 0).bind fun n =>
    .done (decide (0 < n.1 ∧ n.1 < 4 * n.2))

/-- The loop of `KeyCount`. -/
def keyCountProgram : List (Fin shardCount) → Nat → Program Log Nat
  | [], n => .done n
  | i :: is, n =>
      (guarded (.shard i) .shared (onDB fun db => (db, Maps.size (db.shards i)))).bind fun m =>
        keyCountProgram is (n + m)

/-! ### Writes, the log and the replicas -/

/-- `Propagate` -/
def propagateProgram (cmd : Value) : Program Log Unit :=
  guarded .replicas .shared (onReplicas fun r => (r.propagate cmd, ()))

variable (log : LogMethods Log)

/-- What `applyRecord` does under `writeMu`. -/
def recordProgram (aof : Bool) (r : Dispatched) : Program Log Value :=
  .lock .writeMu .exclusive <|
    (dispatchProgram r).bind fun reply =>
      if reply.isError then .unlock .writeMu (.done reply)
      else
        (if aof then guarded .aof .exclusive (onLog fun l => (log.append r.request l, ()))
          else .done ()).bind fun _ =>
            (propagateProgram r.request).bind fun _ => .unlock .writeMu (.done reply)

/-- `applyRecord` -/
def applyRecordProgram (aof : Bool) (r : Dispatched) : Program Log Value :=
  if !isWrite (commandName r.request) then dispatchProgram r
  else if aof then recordProgram log aof r
  else
    (guarded .replicas .shared (onReplicas fun reps => (reps, reps.any))).bind fun any =>
      if any then recordProgram log aof r else dispatchProgram r

/-- `Size`, which only the log lines use. -/
def sizeProgram : Program Log Unit := guarded .aof .exclusive (onLog fun l => (l, ()))

/-- `rewriteAOF` -/
def rewriteAOFProgram (now : Time) (order : RangeOrder) : Program Log Bool :=
  .lock .writeMu .exclusive <|
    sizeProgram.bind fun _ =>
      (snapshotProgram now order (List.finRange shardCount) []).bind fun records =>
        (guarded .aof .exclusive (onLog (log.rewrite records))).bind fun ok =>
          (if ok then sizeProgram else .done ()).bind fun _ => .unlock .writeMu (.done ok)

/-! ### Connections -/

/-- `write` and `writeRaw`: one frame, and whether the socket took it. -/
def writeProgram (c : Nat) : Program Log Bool :=
  .lock (.outlet c) .exclusive (.wait c fun ok => .unlock (.outlet c) (.done ok))

/-- What the request loop alone knows of its connection: the channels it is subscribed to, whether
it has a mailbox, and the number of its feed. -/
structure ConnState where
  channels : Finset Bytes
  sub : Bool
  replica : Option Nat

/-- A connection just accepted. -/
def ConnState.new : ConnState := ⟨∅, false, none⟩

/-- The loop of `subscribe`. -/
def subscribeProgram (c : Nat) : List Bytes → ConnState → Program Log (ConnState × Bool)
  | [], k => .done (k, true)
  | channel :: rest, k =>
      (if channel ∈ k.channels then .done ()
        else guarded .broker .exclusive (onDB fun db =>
          ({ db with pubsub := db.pubsub.subscribe channel c }, ()))).bind fun _ =>
        (writeProgram c).bind fun ok =>
          if ok then subscribeProgram c rest { k with channels := insert channel k.channels }
          else .done ({ k with channels := insert channel k.channels }, false)

/-- `Unsubscribe` of the broker. -/
def leaveProgram (c : Nat) (channel : Bytes) : Program Log Unit :=
  guarded .broker .exclusive (onDB fun db =>
    ({ db with pubsub := db.pubsub.unsubscribe channel c }, ()))

/-- The loop of `unsubscribe`. -/
def unsubscribeProgram (c : Nat) : List Bytes → ConnState → Program Log (ConnState × Bool)
  | [], k => .done (k, true)
  | channel :: rest, k =>
      (if channel ∈ k.channels then leaveProgram c channel else .done ()).bind fun _ =>
        (writeProgram c).bind fun ok =>
          if ok then unsubscribeProgram c rest { k with channels := k.channels.erase channel }
          else .done ({ k with channels := k.channels.erase channel }, false)

/-- `serve`: the session after it, and whether the loop goes on; `all` is the channel set as
`UNSUBSCRIBE` without arguments ranges over it. -/
def serveProgram (primaryAddr : Bytes) (aof : Bool) (c : Nat) (r : Dispatched) (all : List Bytes)
    (k : ConnState) : Program Log (ConnState × Bool) :=
  let answer := (writeProgram c).bind fun ok => .done (k, ok)
  let args := r.request.items.tail.map Value.str
  match route primaryAddr (decide (0 < k.channels.card)) r.request with
  | .refused | .readonly => answer
  | .subscribe => if args = [] then answer else subscribeProgram c args { k with sub := true }
  | .unsubscribe =>
      let targets := if args = [] then all else args
      if targets = [] then answer else unsubscribeProgram c targets k
  | .replicaof =>
      (writeProgram c).bind fun ok =>
        if ok then
          (guarded .replicas .exclusive (onReplicas fun reps => (reps.add, reps.next))).bind
            fun id => .done ({ k with replica := some id }, true)
        else .done (k, false)
  | .replconf => if k.replica.isSome then .done (k, true) else answer
  | .quit => (writeProgram c).bind fun _ => .done (k, false)
  | .apply => (applyRecordProgram log aof r).bind fun _ => answer

/-- The loop of `unsubscribeAll`. -/
def leaveAllProgram (c : Nat) : List Bytes → Program Log Unit
  | [] => .done ()
  | channel :: rest => (leaveProgram c channel).bind fun _ => leaveAllProgram c rest

/-- `removeReplica` -/
def removeReplicaProgram : Option Nat → Program Log Unit
  | none => .done ()
  | some id => guarded .replicas .exclusive (onReplicas fun reps => (reps.remove id, ()))

/-- What `handle` has deferred: `removeReplica` and `unsubscribeAll`. -/
def teardownProgram (c : Nat) (all : List Bytes) (k : ConnState) : Program Log Unit :=
  (removeReplicaProgram k.replica).bind fun _ => if k.sub then leaveAllProgram c all else .done ()

/-- `handle`: the requests it decodes, each with the channel set as it is ranged over; at last the
client hangs up or sends what does not decode (`garbage`).  It receives in `Decode`. -/
def handleProgram (primaryAddr : Bytes) (aof : Bool) (c : Nat) (garbage : Bool) (all : List Bytes) :
    List (Dispatched × List Bytes) → ConnState → Program Log Unit
  | [], k =>
      .recv ((if garbage then writeProgram c else .done true).bind fun _ => teardownProgram c all k)
  | (r, ranged) :: rest, k =>
      .recv ((serveProgram log primaryAddr aof c r ranged k).bind fun next =>
        if next.2 then handleProgram primaryAddr aof c garbage all rest next.1
        else teardownProgram c all next.1)

/-- `deliver` and `deliverReplica`: so many frames, unless a write fails, each received from the
mailbox or the feed; the last receive ends when that is closed, if it ever is. -/
def deliverProgram (c : Nat) : Nat → Program Log Unit
  | 0 => .recv (.done ())
  | n + 1 =>
      .recv ((writeProgram c).bind fun ok => if ok then deliverProgram c n else .done ())

/-! ### The goroutines -/

/-- A pass of the reaper, by its clock reading, first shard and range orders. -/
structure Pass where
  now : Time
  start : Fin shardCount
  order : RangeOrder

/-- A tick of `RunActiveExpiry`: passes, as long as they stay hot. -/
def expiryProgram : List Pass → Program Log Unit
  | [] => .done ()
  | p :: ps =>
      (passProgram p.now p.start p.order).bind fun hot => if hot then expiryProgram ps else .done ()

/-- A tick of `runAutoRewrite`. -/
def autoRewriteProgram (now : Time) (order : RangeOrder) : Program Log Unit :=
  (guarded .aof .exclusive (onLog fun l => (l, log.shouldRewrite l))).bind fun should =>
    if should then (rewriteAOFProgram log now order).bind fun _ => .done () else .done ()

/-- A tick of `syncEverySec`. -/
def syncProgram : Program Log Unit := guarded .aof .exclusive (onLog fun l => (log.sync l, ()))

/-- A tick of `runReplicaHeartbeat`: the `PING`, and the search for stale replicas. -/
def heartbeatProgram : Program Log Unit :=
  (propagateProgram pingCommand).bind fun _ =>
    guarded .replicas .shared (onReplicas fun reps => (reps, ()))

/-- A scrape of the metrics: `KeyCount` and `LagSeconds`. -/
def scrapeProgram : Program Log Unit :=
  (keyCountProgram (List.finRange shardCount) 0).bind fun _ =>
    guarded .replicas .shared (onReplicas fun reps => (reps, ()))

/-- What a goroutine of the server has to do: its loop takes any number of turns, and every turn
begins with a receive, of a request, a message, a frame or a tick. -/
inductive Role where
  | handler (c : Nat) (garbage : Bool) (all : List Bytes)
      (requests : List (Dispatched × List Bytes))
  | delivery (c : Nat) (frames : Nat)
  /-- `RunReplica`, which dispatches what its primary sends. -/
  | stream (commands : List Dispatched)
  | expiry (ticks : List (List Pass))
  | autoRewrite (ticks : List (Time × RangeOrder))
  | sync (ticks : Nat)
  | heartbeat (ticks : Nat)
  | scrape (times : Nat)

/-- One program for each item that is received, one after the other. -/
def eachProgram (f : α → Program Log β) : List α → Program Log Unit
  | [] => .recv (.done ())
  | a :: as => .recv ((f a).bind fun _ => eachProgram f as)

/-- The program of a goroutine, on a server with the given primary address, with a log or not. -/
def Role.program (primaryAddr : Bytes) (aof : Bool) : Role → Program Log Unit
  | .handler c garbage all requests =>
      handleProgram log primaryAddr aof c garbage all requests .new
  | .delivery c frames => deliverProgram c frames
  | .stream commands => eachProgram dispatchProgram commands
  | .expiry ticks => eachProgram expiryProgram ticks
  | .autoRewrite ticks => eachProgram (fun t => autoRewriteProgram log t.1 t.2) ticks
  | .sync ticks => eachProgram (fun _ => syncProgram log) (List.range ticks)
  | .heartbeat ticks => eachProgram (fun _ => heartbeatProgram) (List.range ticks)
  | .scrape times => eachProgram (fun _ => scrapeProgram) (List.range times)

/-- The connections a goroutine writes to. -/
def Role.outlets : Role → Set Nat
  | .handler c _ _ _ | .delivery c _ => {c}
  | _ => ∅

/-! ### The programs without their locks -/

theorem sections_onKey (key : Bytes) (m : Mode) (f : DB → DB × α) :
    (onKey key m f : Program Log α).sections = zoomDB (.once f) := rfl

/-- The sections of `DEL` are those of the store alone, one for each key. -/
theorem sections_delProgram (now : Time) : ∀ (keys : List Bytes) (n : Nat),
    (delProgram now keys n : Program Log Nat).sections = zoomDB (delThread now keys n)
  | [], _ => rfl
  | key :: keys, n => by
      rw [delProgram, sections_bind, sections_onKey]
      simp only [sections_delProgram now keys]
      rfl

theorem sections_existsProgram (now : Time) : ∀ (keys : List Bytes) (n : Nat),
    (existsProgram now keys n : Program Log Nat).sections = zoomDB (existsThread now keys n)
  | [], _ => rfl
  | key :: keys, n => by
      rw [existsProgram, sections_bind, sections_onKey]
      simp only [sections_existsProgram now keys]
      rfl

/-- The sections of `GET` are those of the store alone. -/
theorem sections_getProgram (now : Time) (key : Bytes) :
    (getProgram now key : Program Log _).sections = zoomDB (getThread now key) := by
  rw [getProgram, sections_bind, sections_onKey]
  simp only [zoomDB, Thread.once, getThread, Thread.zoom, Thread.bind]
  congr 1
  funext s
  split <;> rfl

/-- A call without its locks is its thread of sections. -/
theorem sections_callProgram (now : Time) (order : RangeOrder) (c : Call) :
    (callProgram now order c : Program Log c.Result).sections = zoomDB (c.thread now order) := by
  cases c with
  | del keys => exact sections_delProgram now keys 0
  | «exists» keys => exact sections_existsProgram now keys 0
  | get key => exact sections_getProgram now key
  | _ => rfl

/-- **A dispatch without its locks is `Dispatch`.** -/
theorem run_dispatchProgram (r : Dispatched) (s : Shared Log) :
    (dispatchProgram r : Program Log Value).sections.run s =
      ({ s with db := (s.db.dispatch r.now r.order r.request).1 },
        (s.db.dispatch r.now r.order r.request).2) := by
  have hsections : (dispatchProgram r : Program Log Value).sections = zoomDB r.thread := by
    rw [dispatchProgram, Dispatched.thread]
    cases plan r.request with
    | reply v => rfl
    | call c render =>
        simp only [sections_bind, sections_callProgram, zoomDB, Thread.zoom_bind]
        rfl
  rw [hsections, run_zoomDB, run_thread]

/-- What `applyRecord` hands to the log and to the replicas. -/
def Shared.record (a : Applied) (s : Shared Log) : Shared Log where
  db := a.db
  replicas := a.propagated.elim s.replicas fun cmd => s.replicas.propagate cmd
  log := a.appended.elim s.log fun cmd => log.append cmd s.log

/-- Undisturbed, the write path does what `applyRecord` does. -/
theorem run_recordProgram (aof : Bool) (r : Dispatched) (s : Shared Log) :
    (recordProgram log aof r).sections.run s =
      let d := s.db.dispatch r.now r.order r.request
      (if d.2.isError then { s with db := d.1 }
        else s.record log ⟨d.1, d.2, if aof then some r.request else none, some r.request⟩,
        d.2) := by
  rw [recordProgram, sections, sections_bind, Thread.run_bind, run_dispatchProgram]
  dsimp only
  split
  · rfl
  · cases aof <;> rfl

/-- **`applyRecord` without its locks** is what it is between two other goroutines' steps. -/
theorem run_applyRecordProgram (aof : Bool) (r : Dispatched) (s : Shared Log) :
    (applyRecordProgram log aof r).sections.run s =
      let a := applyRecord aof s.replicas.any r.now r.order r.request s.db
      (s.record log a, a.reply) := by
  have hrecord := run_recordProgram log aof r s
  have hdispatch := run_dispatchProgram r s
  unfold applyRecordProgram applyRecord
  cases hw : isWrite (commandName r.request) with
  | false =>
      simp only [Bool.not_false, if_true, Bool.true_or]
      exact hdispatch
  | true =>
      cases aof with
      | true =>
          simp only [Bool.not_true, Bool.false_eq_true, if_false, if_true, Bool.false_or,
            Bool.false_and]
          rw [hrecord]
          dsimp only
          split <;> rfl
      | false =>
          simp only [Bool.not_true, Bool.not_false, Bool.false_eq_true, if_false, Bool.false_or,
            Bool.true_and]
          rw [sections_bind, sections_guarded, Thread.run_bind]
          cases ha : s.replicas.any with
          | false =>
              simp only [Thread.once, Thread.run, onReplicas, ha, Bool.false_eq_true, if_false,
                Bool.not_false, if_true]
              exact hdispatch
          | true =>
              simp only [Thread.once, Thread.run, onReplicas, ha, if_true, Bool.not_true,
                Bool.false_eq_true, if_false]
              rw [hrecord]
              dsimp only
              split <;> rfl

/-- Undisturbed, the loop over the shards collects their records. -/
theorem run_snapshotLoop (now : Time) (order : RangeOrder) (s : Shared Log) :
    ∀ (is : List (Fin shardCount)) (out : List SnapshotEntry),
      (snapshotProgram now order is out).sections.run s =
        (s, out ++ is.flatMap fun i =>
          ((order.shard i (s.db.shards i)).filter fun p => !p.2.expired now).map fun p =>
            DB.snapshotEntry order p.1 p.2)
  | [], out => by simp [snapshotProgram, sections, Thread.run]
  | i :: is, out => by
      rw [snapshotProgram, sections_bind, sections_guarded, Thread.run_bind]
      simp only [Thread.once, Thread.run, onDB, run_snapshotLoop now order s is,
        List.flatMap_cons, List.append_assoc]

/-- **The loop of `Snapshot` without its locks is `Snapshot`.** -/
theorem run_snapshotProgram (now : Time) (order : RangeOrder) (s : Shared Log) :
    (snapshotProgram now order (List.finRange shardCount) []).sections.run s =
      (s, s.db.snapshot now order) := by
  rw [run_snapshotLoop, List.nil_append, DB.snapshot, DB.liveEntries, List.map_flatMap]

/-- **`rewriteAOF` without its locks** rewrites the log from a snapshot of the store. -/
theorem run_rewriteAOFProgram (now : Time) (order : RangeOrder) (s : Shared Log) :
    (rewriteAOFProgram log now order).sections.run s =
      ({ s with log := (log.rewrite (s.db.snapshot now order) s.log).1 },
        (log.rewrite (s.db.snapshot now order) s.log).2) := by
  -- reading the size changes nothing
  have size : ∀ (ok : Bool) (s : Shared Log),
      (if ok then sizeProgram else .done () : Program Log Unit).sections.run s = (s, ()) := by
    intro ok s
    cases ok <;> rfl
  have hsize : ∀ s : Shared Log, (sizeProgram : Program Log Unit).sections.run s = (s, ()) :=
    size true
  simp only [rewriteAOFProgram, sections, sections_bind, Thread.run_bind, size, hsize,
    run_snapshotProgram]
  rfl

/-- A tick of `runAutoRewrite` without its locks, when the log has grown. -/
theorem run_autoRewriteProgram (now : Time) (order : RangeOrder) (s : Shared Log)
    (h : log.shouldRewrite s.log = true) :
    (autoRewriteProgram log now order).sections.run s =
      ({ s with log := (log.rewrite (s.db.snapshot now order) s.log).1 }, ()) := by
  rw [autoRewriteProgram, sections_bind, sections_guarded, Thread.run_bind]
  simp only [Thread.once, Thread.run, onLog, h, if_true]
  rw [sections_bind, Thread.run_bind, run_rewriteAOFProgram]
  rfl

/-- Undisturbed, the loop over the shards is that of the pass. -/
theorem run_reapProgram (now : Time) (order : RangeOrder) :
    ∀ (is : List (Fin shardCount)) (sampled expired : Nat) (s : Shared Log),
      (reapProgram now order is sampled expired).sections.run s =
        ({ s with db := (DB.reapShards now order is s.db sampled expired).1 },
          (DB.reapShards now order is s.db sampled expired).2)
  | [], _, _, _ => rfl
  | i :: is, sampled, expired, s => by
      rw [reapProgram, DB.reapShards]
      split
      · rw [sections_bind, sections_guarded, Thread.run_bind]
        simp only [Thread.once, Thread.run, run_reapProgram now order is]
        rfl
      · rfl

/-- **A pass without its locks is `activeExpiryPass`.** -/
theorem run_passProgram (now : Time) (start : Fin shardCount) (order : RangeOrder)
    (s : Shared Log) :
    (passProgram now start order).sections.run s =
      ({ s with db := (s.db.activeExpiryPass now start order).1 },
        (s.db.activeExpiryPass now start order).2) := by
  rw [passProgram, sections_bind, Thread.run_bind, run_reapProgram]
  rfl

end MiniRedis.Server
