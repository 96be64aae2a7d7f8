import MiniRedis.Server.Programs

/-!
# Server — Locks

The locks of a server are taken in one order: `writeMu` first, then at most one of a shard, the log,
the broker and the registry of replicas; and a socket is written to under the lock of its connection
alone.  Hence, for any number of goroutines in whatever roles, on a server with or without a log:

* `locks_race_free`: **two goroutines that access the store, the broker, the registry of replicas or
  the log at the same time access different parts of them, or only read their maps.**
* `locks_progress`: **a client that does not read its replies holds up nobody but the goroutines of
  its own connection**; every other one has ended or waits, with no lock, for something to arrive.

These are about the data that the locks guard (`Shared`), and not about `connState.replica`, which a
second `REPLICAOF` overwrites while the first `deliverReplica` may be about to read it.
-/

namespace MiniRedis.Server

open Protocol Store Cmd Replication Footprint Locks Machine Shared

variable {Log α : Type}

/-! ### What the locks guard -/

/-- What a lock guards. -/
inductive Part (Log : Type) where
  | nothing
  | shard (sh : Shard)
  | broker (b : Broker)
  | replicas (r : Replicas)
  | log (l : Log)

/-- The part without the channels in it, which synchronise themselves: of the broker the map of the
subscribers, of the replicas which of them are registered. -/
inductive Plain (Log : Type) where
  | nothing
  | shard (sh : Shard)
  | broker (subs : Maps.Dict Bytes (List Subscriber))
  | replicas (next : Nat) (registered : Nat → Bool)
  | log (l : Log)

/-- What a lock guards. -/
def Shared.part (s : Shared Log) : Mutex → Part Log
  | .shard i => .shard (s.db.shards i)
  | .broker => .broker s.db.pubsub
  | .replicas => .replicas s.replicas
  | .aof => .log s.log
  | .writeMu | .outlet _ => .nothing

/-- A part without what is in its channels. -/
def Part.plain : Part Log → Plain Log
  | .nothing => .nothing
  | .shard sh => .shard sh
  | .broker b => .broker b.subs
  | .replicas r => .replicas r.next fun id => (r.reps id).isSome
  | .log l => .log l

/-- The order in which locks are taken: `writeMu`, one of the store's, the registry's or the log's,
and a connection's last. -/
def Mutex.rank : Mutex → Nat
  | .writeMu => 0
  | .outlet _ => 2
  | _ => 1

/-- The rules of the server. -/
def rules (Log : Type) : Rules Mutex Nat (Shared Log) (Part Log) (Plain Log) where
  rank := Mutex.rank
  top := 2
  rank_le l := by cases l <;> simp [Mutex.rank]
  outlet := .outlet
  view := Shared.part
  plain := Part.plain

/-! ### Accesses -/

/-- The method keeps to one shard. -/
structure InShard (i : Fin shardCount) (f : DB → DB × α) : Prop where
  frame : ∀ db j, j ≠ i → (f db).1.shards j = db.shards j
  pubsub : ∀ db, (f db).1.pubsub = db.pubsub
  answer : ∀ db db', db.shards i = db'.shards i → (f db).2 = (f db').2
  update : ∀ db db', db.shards i = db'.shards i → (f db).1.shards i = (f db').1.shards i

/-- A method under the lock of its key stays in the key's shard. -/
theorem InShard.locked (key : Bytes) (body : Shard → Shard × α) :
    InShard (shardIndex key) (DB.locked key body) where
  frame db j hj := by rw [DB.shards_locked, if_neg hj]
  pubsub _ := rfl
  answer db db' h := by
    change (body (db.shardFor key)).2 = (body (db'.shardFor key)).2
    rw [DB.shardFor, DB.shardFor, h]
  update db db' h := by
    rw [DB.shards_locked, DB.shards_locked, if_pos rfl, if_pos rfl, DB.shardFor, DB.shardFor, h]

/-- A read that depends on one shard alone stays in it. -/
theorem InShard.read {i : Fin shardCount} {g : DB → α}
    (h : ∀ db db', db.shards i = db'.shards i → g db = g db') :
    InShard i fun db => (db, g db) :=
  ⟨fun _ _ _ => rfl, fun _ => rfl, h, fun _ _ h => h⟩

/-- What a body is turned into afterwards does not matter. -/
theorem InShard.map {β : Type} {i : Fin shardCount} {f : DB → DB × α} (h : InShard i f)
    (g : α → β) : InShard i fun db => ((f db).1, g (f db).2) :=
  ⟨h.frame, h.pubsub, fun db db' hi => congrArg g (h.answer db db' hi), h.update⟩

/-- A method that keeps to a shard is an access to it, a shared one if it changes nothing. -/
theorem InShard.access {i : Fin shardCount} {m : Mode} {f : DB → DB × α} (h : InShard i f)
    (hm : m = .shared → ∀ db, (f db).1 = db) :
    Access (rules Log) (.shard i) m (fun s => (onDB f s).1) fun s => (onDB f s).2 where
  confined := by
    have hsame : ∀ s s' : Shared Log, Footprint.Agree Shared.part {Mutex.shard i} s s' →
        s.db.shards i = s'.db.shards i := fun s s' ha => Part.shard.inj (ha (.shard i) rfl)
    refine ⟨fun s k hk => ?_, fun s s' ha => h.answer _ _ (hsame s s' ha), fun s s' ha k hk => ?_⟩
    · cases k with
      | shard j =>
          have hj : j ≠ i := fun e => hk (by rw [e]; rfl)
          exact congrArg Part.shard (h.frame s.db j hj)
      | broker => exact congrArg Part.broker (h.pubsub s.db)
      | writeMu | aof | replicas | outlet => rfl
    · obtain rfl : k = .shard i := hk
      exact congrArg Part.shard (h.update _ _ (hsame s s' ha))
  shared hs s := by
    change Part.plain (.shard ((f s.db).1.shards i)) = Part.plain (.shard (s.db.shards i))
    rw [hm hs]

/-- A method of the broker. -/
theorem access_broker {m : Mode} {f : Broker → Broker × α}
    (hm : m = .shared → ∀ b, (f b).1.subs = b.subs) :
    Access (rules Log) .broker m
      (fun s => (onDB (fun db => ({ db with pubsub := (f db.pubsub).1 }, (f db.pubsub).2)) s).1)
      fun s => (onDB (fun db => ({ db with pubsub := (f db.pubsub).1 }, (f db.pubsub).2)) s).2 where
  confined := by
    refine Confined.part (fun s : Shared Log => s.db.pubsub)
      (fun b s => { s with db := { s.db with pubsub := b } }) .broker (fun _ _ => Part.broker.inj)
      (fun _ => rfl) (fun _ _ => rfl) (fun b s k hk => ?_) f
    cases k with
    | broker => exact absurd rfl hk
    | writeMu | shard | aof | replicas | outlet => rfl
  shared hs s := congrArg Plain.broker (hm hs s.db.pubsub)

/-- A method of the registry of replicas. -/
theorem access_replicas {m : Mode} {f : Replicas → Replicas × α}
    (hm : m = .shared → ∀ r, (f r).1.next = r.next ∧
      ∀ id, ((f r).1.reps id).isSome = (r.reps id).isSome) :
    Access (rules Log) .replicas m (fun s => (onReplicas f s).1) fun s => (onReplicas f s).2 where
  confined := by
    refine Confined.part Shared.replicas (fun r s => { s with replicas := r }) .replicas
      (fun _ _ => Part.replicas.inj) (fun _ => rfl) (fun _ _ => rfl)
      (fun r s k hk => ?_) f
    cases k with
    | replicas => exact absurd rfl hk
    | writeMu | shard | aof | broker | outlet => rfl
  shared hs s := by
    obtain ⟨hnext, hreps⟩ := hm hs s.replicas
    exact congrArg₂ Plain.replicas hnext (funext hreps)

/-- A method of the log. -/
theorem access_log {f : Log → Log × α} :
    Access (rules Log) .aof .exclusive (fun s => (onLog f s).1) fun s => (onLog f s).2 where
  confined := by
    refine Confined.part Shared.log (fun l s => { s with log := l }) .log
      (fun _ _ => Part.log.inj) (fun _ => rfl) (fun _ _ => rfl)
      (fun l s k hk => ?_) f
    cases k with
    | aof => exact absurd rfl hk
    | writeMu | shard | replicas | broker | outlet => rfl
  shared := nofun

/-! ### The programs obey the rules -/

/-- At most `writeMu` is held. -/
def Low (base : List (Mutex × Mode)) : Prop := ∀ x ∈ base, x.1 = .writeMu

variable {S : Set Nat} {base : List (Mutex × Mode)}

/-- With no lock held every other may be taken. -/
theorem Low.nil : Low [] := nofun

/-- Behind `writeMu` every other lock may be taken. -/
theorem Low.writeMu (m : Mode) : Low [(.writeMu, m)] := fun _ hx => by
  rw [List.mem_singleton.1 hx]

/-- An access under a lock of the second rank. -/
theorem Low.guarded (hb : Low base) {l : Mutex} {m : Mode} {f : Shared Log → Shared Log × α}
    (hl : l.rank = 1) (hf : Access (rules Log) l m (fun s => (f s).1) fun s => (f s).2) :
    Obeys (rules Log) S base base (Prog.guarded l m f) := by
  refine .guarded (fun x hx => ?_) (fun c hc => ?_) hf
  · rw [hb x hx]
    change 0 < l.rank
    omega
  · rw [hc] at hl
    cases hl

/-- A method that changes one shard. -/
theorem Low.change (hb : Low base) {i : Fin shardCount} {f : DB → DB × α} (hf : InShard i f) :
    Obeys (rules Log) S base base (Prog.guarded (.shard i) .exclusive (onDB f)) :=
  hb.guarded rfl (hf.access nofun)

/-- A look at one shard. -/
theorem Low.look (hb : Low base) {i : Fin shardCount} {g : DB → α}
    (hg : ∀ db db' : DB, db.shards i = db'.shards i → g db = g db') :
    Obeys (rules Log) S base base
      (Prog.guarded (.shard i) .shared (onDB fun db => (db, g db))) :=
  hb.guarded rfl ((InShard.read hg).access fun _ _ => rfl)

/-- A look at the shard of a key. -/
theorem Low.read (hb : Low base) {key : Bytes} {g : DB → α}
    (hg : ∀ db db' : DB, db.shardFor key = db'.shardFor key → g db = g db') :
    Obeys (rules Log) S base base (onKey key .shared fun db => (db, g db)) := hb.look hg

/-- `DEL` takes the lock of one key at a time. -/
theorem Low.del (hb : Low base) (now : Time) : ∀ (keys : List Bytes) (n : Nat),
    Obeys (rules Log) S base base (delProgram now keys n)
  | [], n => .done n
  | key :: keys, n => Obeys.bind (hb.change (.locked key _)) fun m => hb.del now keys (n + m)

/-- `EXISTS` shares the lock of one key at a time. -/
theorem Low.exists (hb : Low base) (now : Time) : ∀ (keys : List Bytes) (n : Nat),
    Obeys (rules Log) S base base (existsProgram now keys n)
  | [], n => .done n
  | key :: keys, n => by
      refine (hb.read fun db db' h => ?_).bind fun m => hb.exists now keys (n + m)
      simp only [DB.exists, List.filter_cons, List.filter_nil, h]

/-- A `GET` lets go of the shared lock before it takes it alone. -/
theorem Low.get (hb : Low base) (now : Time) (key : Bytes) :
    Obeys (rules Log) S base base (getProgram now key) := by
  refine (hb.read fun db db' h => ?_).bind fun r => ?_
  · rw [DB.getRead, DB.getRead, h]
  · split
    · exact hb.change ((InShard.locked key _).map fun _ => r.1)
    · exact .done _

/-- A delivery leaves the registrations as they are. -/
theorem deliver_subs (msg : Message) : ∀ (subs : List Subscriber) (b : Broker),
    (b.deliver msg subs).1.subs = b.subs
  | [], _ => rfl
  | _ :: rest, _ => deliver_subs msg rest _

/-- **Every call keeps to the shard it has locked, or to the broker.** -/
theorem Low.call (hb : Low base) (now : Time) (order : RangeOrder) (c : Call) :
    Obeys (rules Log) S base base (callProgram now order c) := by
  -- a call of one section: a body run on its shard, or a look at it
  have body : ∀ {β : Type} (key : Bytes) (f : Shard → Shard × β),
      Obeys (rules Log) S base base
        (Prog.guarded (.shard (shardIndex key)) .exclusive (onDB (DB.locked key f))) :=
    fun key f => hb.change (.locked key f)
  have look : ∀ {β : Type} (key : Bytes) (g : Shard → β),
      Obeys (rules Log) S base base
        (Prog.guarded (.shard (shardIndex key)) .shared
          (onDB fun db => (db, g (db.shardFor key)))) :=
    fun key g => hb.read fun _ _ h => congrArg g h
  cases c with
  | del keys => exact hb.del now keys 0
  | «exists» keys => exact hb.exists now keys 0
  | get key => exact hb.get now key
  | set | lPush | rPush | lPop | rPop | hSet | hDel | sAdd | sRem | expire | persist =>
      exact body _ _
  | lLen | lRange | hGet | hGetAll | hKeys | hVals | hLen | sIsMember | sMembers | sCard =>
      exact look _ _
  | ttl key =>
      refine hb.read fun db db' h => ?_
      simp only [DB.ttl, h]
  | publish channel payload =>
      exact hb.guarded rfl
        (access_broker (f := Broker.publish channel payload) fun _ b => deliver_subs _ _ b)

/-- A dispatch takes its locks one after the other, whatever the request. -/
theorem Low.dispatch (hb : Low base) (r : Dispatched) :
    Obeys (rules Log) S base base (dispatchProgram r) := by
  unfold dispatchProgram
  cases plan r.request with
  | reply v => exact .done v
  | call c render => exact (hb.call r.now r.order c).bind fun a => .done (render a)

/-- `Snapshot` shares the locks of the shards one after the other. -/
theorem Low.snapshot (hb : Low base) (now : Time) (order : RangeOrder) :
    ∀ (is : List (Fin shardCount)) (out : List SnapshotEntry),
      Obeys (rules Log) S base base (snapshotProgram now order is out)
  | [], out => .done out
  | _ :: is, out => by
      refine (hb.look fun db db' h => ?_).bind fun records =>
        hb.snapshot now order is (out ++ records)
      rw [h]

/-- `KeyCount` shares the locks of the shards one after the other. -/
theorem Low.keyCount (hb : Low base) : ∀ (is : List (Fin shardCount)) (n : Nat),
    Obeys (rules Log) S base base (keyCountProgram is n)
  | [], n => .done n
  | _ :: is, n => (hb.look fun _ _ h => congrArg Maps.size h).bind fun m => hb.keyCount is (n + m)

/-- What a pass does to a shard stays in the shard. -/
theorem inShard_reapOne (now : Time) (order : RangeOrder) (i : Fin shardCount)
    (sampled expired : Nat) : InShard i (reapOne now order i sampled expired) where
  frame db j hj := Function.update_of_ne hj _ _
  pubsub _ := rfl
  answer db db' h := by simp only [reapOne, h]
  update db db' h := by simp only [reapOne, h, Function.update_self]

/-- A pass takes the locks of the shards one after the other. -/
theorem Low.reap (hb : Low base) (now : Time) (order : RangeOrder) :
    ∀ (is : List (Fin shardCount)) (sampled expired : Nat),
      Obeys (rules Log) S base base (reapProgram now order is sampled expired)
  | [], _, _ => .done _
  | i :: is, sampled, expired => by
      rw [reapProgram]
      split
      · exact (hb.change (inShard_reapOne now order i sampled expired)).bind fun n =>
          hb.reap now order is n.1 n.2
      · exact .done _

theorem Low.pass (hb : Low base) (now : Time) (start : Fin shardCount) (order : RangeOrder) :
    Obeys (rules Log) S base base (passProgram now start order) :=
  (hb.reap now order _ 0 0).bind fun _ => .done _

/-- A method that leaves the registry of replicas as it is, but for the queues. -/
theorem Low.replicas (hb : Low base) {f : Replicas → Replicas × α}
    (hf : ∀ r, (f r).1.next = r.next ∧ ∀ id, ((f r).1.reps id).isSome = (r.reps id).isSome) :
    Obeys (rules Log) S base base (Prog.guarded .replicas .shared (onReplicas f)) :=
  hb.guarded rfl (access_replicas fun _ => hf)

/-- `Propagate` takes the lock of the registry alone. -/
theorem Low.propagate (hb : Low base) (cmd : Value) :
    Obeys (rules Log) S base base (propagateProgram cmd) :=
  hb.replicas fun _ => ⟨rfl, fun _ => Option.isSome_map⟩

/-- The methods of the log take its own lock alone. -/
theorem Low.log (hb : Low base) (f : Log → Log × α) :
    Obeys (rules Log) S base base (Prog.guarded .aof .exclusive (onLog f)) :=
  hb.guarded rfl access_log

variable (log : LogMethods Log)

/-- A program under `writeMu`. -/
theorem obeys_writeMu {p : Program Log α} (h : Obeys (rules Log) S [] [(.writeMu, .exclusive)] p) :
    Obeys (rules Log) S [] [] (.lock .writeMu .exclusive p) :=
  .lock nofun nofun h

/-- The write path takes `writeMu` first and lets go of it last. -/
theorem obeys_record (aof : Bool) (r : Dispatched) :
    Obeys (rules Log) S [] [] (recordProgram log aof r) := by
  have hlow := Low.writeMu .exclusive
  refine obeys_writeMu ((hlow.dispatch r).bind fun reply => ?_)
  split
  · exact .unlock (.done reply)
  · refine Obeys.seq ?_ fun _ => (hlow.propagate r.request).bind fun _ => .unlock (.done reply)
    split
    · exact hlow.log _
    · exact .done ()

/-- A request takes the write path or dispatches with no lock held. -/
theorem obeys_applyRecord (aof : Bool) (r : Dispatched) :
    Obeys (rules Log) S [] [] (applyRecordProgram log aof r) := by
  unfold applyRecordProgram
  split
  · exact Low.nil.dispatch r
  · split
    · exact obeys_record log aof r
    · refine (Low.nil.replicas fun _ => ⟨rfl, fun _ => rfl⟩).bind fun any => ?_
      split
      · exact obeys_record log aof r
      · exact Low.nil.dispatch r

/-- `rewriteAOF` holds `writeMu` over the snapshot and the rewrite. -/
theorem obeys_rewriteAOF (now : Time) (order : RangeOrder) :
    Obeys (rules Log) S [] [] (rewriteAOFProgram log now order) := by
  have hlow := Low.writeMu .exclusive
  refine obeys_writeMu ((hlow.log _).bind fun _ => (hlow.snapshot now order _ _).bind fun records =>
    (hlow.log _).bind fun ok => Obeys.seq ?_ fun _ => .unlock (.done ok))
  split
  · exact hlow.log _
  · exact .done ()

/-! ### Connections -/

/-- A frame is written with no other lock than that of the connection. -/
theorem obeys_write {c : Nat} (hc : c ∈ S) :
    Obeys (rules Log) S [] [] (writeProgram c : Program Log Bool) := by
  refine .lock nofun (fun d hd => ⟨rfl, ?_⟩) (.wait hc fun ok => .unlock (.done ok))
  cases hd
  exact hc

/-- A change of the registrations is made under the broker's lock, held alone. -/
theorem obeys_broker (f : Broker → Broker) :
    Obeys (rules Log) S [] [] (Prog.guarded .broker .exclusive (onDB fun db =>
      ({ db with pubsub := f db.pubsub }, ())) : Program Log Unit) :=
  Low.nil.guarded rfl (access_broker (f := fun b => (f b, ())) nofun)

/-- A change of the registry is made under its lock, held alone. -/
theorem obeys_replicas (f : Replicas → Replicas × α) :
    Obeys (rules Log) S [] [] (Prog.guarded .replicas .exclusive (onReplicas f) : Program Log α) :=
  Low.nil.guarded rfl (access_replicas nofun)

theorem obeys_leave (c : Nat) (channel : Bytes) :
    Obeys (rules Log) S [] [] (leaveProgram c channel : Program Log Unit) :=
  obeys_broker fun b => b.unsubscribe channel c

/-- `SUBSCRIBE` writes each acknowledgement with the broker's lock given back. -/
theorem obeys_subscribe {c : Nat} (hc : c ∈ S) : ∀ (channels : List Bytes) (k : ConnState),
    Obeys (rules Log) S [] [] (subscribeProgram c channels k : Program Log _)
  | [], _ => .done _
  | channel :: rest, k => by
      rw [subscribeProgram]
      refine Obeys.seq ?_ fun _ => (obeys_write hc).bind fun ok => ?_
      · split
        · exact .done ()
        · exact obeys_broker fun b => b.subscribe channel c
      · split
        · exact obeys_subscribe hc rest _
        · exact .done _

/-- `UNSUBSCRIBE` likewise. -/
theorem obeys_unsubscribe {c : Nat} (hc : c ∈ S) : ∀ (channels : List Bytes) (k : ConnState),
    Obeys (rules Log) S [] [] (unsubscribeProgram c channels k : Program Log _)
  | [], _ => .done _
  | channel :: rest, k => by
      rw [unsubscribeProgram]
      refine Obeys.seq ?_ fun _ => (obeys_write hc).bind fun ok => ?_
      · split
        · exact obeys_leave c channel
        · exact .done ()
      · split
        · exact obeys_unsubscribe hc rest _
        · exact .done _

/-- Serving a request takes the locks in order, whatever the request. -/
theorem obeys_serve (primaryAddr : Bytes) (aof : Bool) {c : Nat} (hc : c ∈ S) (r : Dispatched)
    (all : List Bytes) (k : ConnState) :
    Obeys (rules Log) S [] [] (serveProgram log primaryAddr aof c r all k) := by
  have answer : Obeys (rules Log) S [] [] ((writeProgram c : Program Log Bool).bind fun ok =>
      .done (k, ok)) := (obeys_write hc).bind fun _ => .done _
  unfold serveProgram
  dsimp only
  cases route primaryAddr (decide (0 < k.channels.card)) r.request with
  | refused | readonly => exact answer
  | subscribe =>
      dsimp only
      split
      · exact answer
      · exact obeys_subscribe hc _ _
  | unsubscribe =>
      -- the list of targets is itself chosen by a conditional
      generalize (if r.request.items.tail.map Value.str = [] then all
        else r.request.items.tail.map Value.str) = targets
      dsimp only
      split
      · exact answer
      · exact obeys_unsubscribe hc _ _
  | replicaof =>
      refine (obeys_write hc).bind fun ok => ?_
      split
      · exact (obeys_replicas _).bind fun _ => .done _
      · exact .done _
  | replconf =>
      dsimp only
      split
      · exact .done _
      · exact answer
  | quit => exact (obeys_write hc).bind fun _ => .done _
  | apply => exact (obeys_applyRecord log aof r).bind fun _ => answer

theorem obeys_leaveAll (c : Nat) : ∀ channels : List Bytes,
    Obeys (rules Log) S [] [] (leaveAllProgram c channels : Program Log Unit)
  | [] => .done ()
  | channel :: rest => (obeys_leave c channel).bind fun _ => obeys_leaveAll c rest

/-- The deferred calls of `handle` take the locks in order. -/
theorem obeys_teardown (c : Nat) (all : List Bytes) (k : ConnState) :
    Obeys (rules Log) S [] [] (teardownProgram c all k : Program Log Unit) := by
  refine Obeys.seq ?_ fun _ => ?_
  · cases k.replica with
    | none => exact .done ()
    | some id => exact obeys_replicas _
  · split
    · exact obeys_leaveAll c all
    · exact .done ()

/-- A connection's handler takes the locks in order, to its end. -/
theorem obeys_handle (primaryAddr : Bytes) (aof : Bool) {c : Nat} (hc : c ∈ S) (garbage : Bool)
    (all : List Bytes) : ∀ (requests : List (Dispatched × List Bytes)) (k : ConnState),
    Obeys (rules Log) S [] [] (handleProgram log primaryAddr aof c garbage all requests k)
  | [], k => by
      rw [handleProgram]
      refine .recv (Obeys.seq ?_ fun _ => obeys_teardown c all k)
      split
      · exact obeys_write hc
      · exact .done true
  | (r, ranged) :: rest, k => by
      rw [handleProgram]
      refine .recv ((obeys_serve log primaryAddr aof hc r ranged k).bind fun next => ?_)
      split
      · exact obeys_handle primaryAddr aof hc garbage all rest _
      · exact obeys_teardown c all _

/-- A delivery receives with no lock, and takes the connection's alone. -/
theorem obeys_deliver {c : Nat} (hc : c ∈ S) : ∀ n : Nat,
    Obeys (rules Log) S [] [] (deliverProgram c n : Program Log Unit)
  | 0 => .recv (.done ())
  | n + 1 => by
      rw [deliverProgram]
      refine .recv ((obeys_write hc).bind fun ok => ?_)
      split
      · exact obeys_deliver hc n
      · exact .done ()

/-- A loop obeys the order if its body does, and receives between two turns. -/
theorem obeys_each {β γ : Type} {f : γ → Program Log β}
    (hf : ∀ a, Obeys (rules Log) S [] [] (f a)) :
    ∀ as : List γ, Obeys (rules Log) S [] [] (eachProgram f as)
  | [] => .recv (.done ())
  | a :: as => .recv ((hf a).bind fun _ => obeys_each hf as)

/-- The reaper takes the locks in order, pass by pass. -/
theorem obeys_expiry : ∀ ps : List Pass,
    Obeys (rules Log) S [] [] (expiryProgram ps : Program Log Unit)
  | [] => .done ()
  | p :: ps => by
      rw [expiryProgram]
      refine (Low.nil.pass p.now p.start p.order).bind fun hot => ?_
      split
      · exact obeys_expiry ps
      · exact .done ()

/-- **The program of every goroutine obeys the rules**, and waits for its own client alone. -/
theorem Role.obeys (primaryAddr : Bytes) (aof : Bool) (role : Role) :
    Obeys (rules Log) role.outlets [] [] (role.program log primaryAddr aof) := by
  have quiet : Obeys (rules Log) role.outlets [] []
      (Prog.guarded .replicas .shared (onReplicas fun reps => (reps, ())) : Program Log Unit) :=
    Low.nil.replicas fun _ => ⟨rfl, fun _ => rfl⟩
  cases role with
  | handler c garbage all requests =>
      exact obeys_handle log primaryAddr aof (Set.mem_singleton c) garbage all _ _
  | delivery c frames => exact obeys_deliver (Set.mem_singleton c) frames
  | stream commands => exact obeys_each Low.nil.dispatch commands
  | expiry ticks => exact obeys_each obeys_expiry ticks
  | autoRewrite ticks =>
      refine obeys_each (fun t => (Low.nil.log _).bind fun should => ?_) ticks
      split
      · exact (obeys_rewriteAOF log t.1 t.2).bind fun _ => .done ()
      · exact .done ()
  | sync ticks => exact obeys_each (fun _ => Low.nil.log _) _
  | heartbeat ticks =>
      exact obeys_each (fun _ => (Low.nil.propagate pingCommand).bind fun _ => quiet) _
  | scrape times =>
      exact obeys_each (fun _ => (Low.nil.keyCount _ _).bind fun _ => quiet) _

/-! ### The results -/

/-- A server with goroutines in the given roles, none of which has begun. -/
def launch {T : Type} (primaryAddr : Bytes) (aof : Bool) (roles : T → Role) (shared : Shared Log) :
    Locks.Pool T Mutex Nat (Shared Log) Unit :=
  ⟨shared, fun t => .start ((roles t).program log primaryAddr aof)⟩

section

variable {T : Type} [DecidableEq T] {primaryAddr : Bytes} {aof : Bool} {roles : T → Role}
  {shared : Shared Log} {ts : List T} {s : Locks.Pool T Mutex Nat (Shared Log) Unit} {log}

/-- Every state of a server is one in which the locks are taken in order. -/
theorem sound_launch (hrun : Run Locks.Pool.Step (launch log primaryAddr aof roles shared) ts s) :
    s.Sound (rules Log) fun t => (roles t).outlets :=
  hrun.preserves (G := fun _ => True) (fun _ _ _ _ hstep hs => hs.step hstep) (fun _ _ => trivial)
    (.start fun t => (roles t).obeys log primaryAddr aof)

/-- A log that keeps the requests. -/
def plainLog : LogMethods (List Value) where
  append request l := l ++ [request]
  rewrite _ l := (l, true)
  sync l := l
  shouldRewrite _ := false

/-- An empty store, no replicas and an empty log. -/
def emptyShared : Shared (List Value) := ⟨DB.new, .new, []⟩

/-- **A client that does not read holds up its own connection alone.**  Let the goroutines, whose
loops take any number of turns, have come to a state in which nothing can move but for writes to
sockets that do not take them and receives for which nothing has arrived.  Then every goroutine has
ended; or it is at a receive and holds no lock; or it serves one of these connections: it is in the
write, with no other lock than that of the connection, or waits for that lock with none. -/
theorem locks_progress
    (hrun : Run Locks.Pool.Step (launch log primaryAddr aof roles shared) ts s) (stuck : Set Nat)
    (hstill : s.Still stuck) (t : T) :
    (s.of t).AtRest (rules Log) ((roles t).outlets ∩ stuck) :=
  (sound_launch hrun).progress hstill t

/-- A client that sends a `PING` and does not read the reply, and the `deliverReplica` of a feed
that nobody closes. -/
def deafClient : Bool → Role := fun b =>
  if b then .handler 1 false [] [(⟨0, .sorted, bulkCmd [txt "PING"]⟩, [])] else .delivery 2 0

/-- The client's handler is stuck in the write, the delivery waits for its feed. -/
theorem locks_progress_deafClient :
    ∃ s, Run Locks.Pool.Step (launch plainLog [] true deafClient emptyShared) [true, true, true]
        s ∧
      s.Still {1} ∧ ∀ t, (s.of t).AtRest (rules (List Value)) ((deafClient t).outlets ∩ {1}) := by
  have hrun : Run Locks.Pool.Step (launch plainLog [] true deafClient emptyShared)
      [true, true, true] _ :=
    .cons (.recv rfl) (.cons (.ask rfl fun u => by cases u <;> exact ⟨nofun, nofun⟩)
      (.cons (.own rfl fun u => by cases u <;> exact nofun) (.nil _)))
  refine ⟨_, hrun, ?still, locks_progress hrun {1} ?still⟩
  -- the delivery is at its receive, and the handler in its write
  intro t s' hstep
  cases t with
  | true => exact .inl ⟨1, _, rfl, rfl⟩
  | false => exact .inr ⟨_, rfl⟩

end

end MiniRedis.Server
