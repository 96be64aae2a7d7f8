import MiniRedis.Reference.Timeless
import MiniRedis.Server.Locks
import MiniRedis.Support.Contracts

/-!
# Server — WriteLock

What `writeMu` is for.  While a goroutine of a primary holds it, the others go on reading, and their
reads and the passes of the reaper may evict entries; but nobody else changes anything that lives,
and nobody touches what is in the log.  So the owner may change the store and the log in as many
steps as it takes, and copy the store shard after shard.

* `calm_record`, `calm_rewrite`: what a recorded write and a rewrite of the log have to restore
  before they let go, with evictions going on between their steps.
* `Role.calm`: **every goroutine of a primary keeps the contract of `writeMu`**, if these two do.
* `writeMu_inv`: and so the invariant holds whenever `writeMu` is free.

A replica dispatches what its primary sends without `writeMu`, and so nothing here is about
replicas.
-/

namespace MiniRedis.Server

open Protocol Store Cmd Reference Persistence Replication Machine Locks Shared Strings

variable {Log α β : Type}

/-! ### Evictions -/

/-- Clock readings, such that of any two there is the later one. -/
structure Readings where
  times : Set Time
  nonempty : times.Nonempty
  max_mem : ∀ a ∈ times, ∀ b ∈ times, max a b ∈ times

/-- Any readings. -/
def Readings.all : Readings := ⟨Set.univ, ⟨0, trivial⟩, fun _ _ _ _ => trivial⟩

/-- The readings up to `t`. -/
def Readings.upTo (t : Time) : Readings where
  times := Set.Iic t
  nonempty := ⟨t, Set.mem_Iic.2 le_rfl⟩
  max_mem _ ha _ hb := Set.mem_Iic.2 (max_le (Set.mem_Iic.1 ha) (Set.mem_Iic.1 hb))

/-- What has expired stays expired. -/
theorem reaped_mono {now now' : Time} {sh sh' : Shard} (h : DB.Reaped now sh sh')
    (hle : now ≤ now') : DB.Reaped now' sh sh' := by
  refine ⟨h.kept, fun key e he hx => h.lost key e he ?_⟩
  by_contra hn
  rw [Entry.expired_mono hle (by simpa using hn)] at hx
  cases hx

/-- In every shard some entries may be gone, that had expired at one of the readings. -/
def Evicted (U : Readings) (shards shards' : Fin shardCount → Shard) : Prop :=
  ∀ i, ∃ now ∈ U.times, DB.Reaped now (shards i) (shards' i)

namespace Evicted

variable {U : Readings} {a b c : Fin shardCount → Shard} {db db' : DB}

theorem refl (U : Readings) (a : Fin shardCount → Shard) : Evicted U a a := fun i =>
  ⟨_, U.nonempty.some_mem, .refl _ (a i)⟩

theorem trans (h : Evicted U a b) (h' : Evicted U b c) : Evicted U a c := by
  intro i
  obtain ⟨now, hnow, hr⟩ := h i
  obtain ⟨now', hnow', hr'⟩ := h' i
  exact ⟨max now now', U.max_mem _ hnow _ hnow',
    (reaped_mono hr (le_max_left _ _)).trans (reaped_mono hr' (le_max_right _ _))⟩

/-- What holds of every entry holds of those that are left. -/
theorem holds {P : Entry → Prop} (h : Evicted U db.shards db'.shards) (hdb : db.Holds P) :
    db'.Holds P := by
  have kept : ∀ i key e, (db'.shards i).lookup key = some e → (db.shards i).lookup key = some e :=
    fun i key e he => (h i).choose_spec.2.kept key e he
  exact ⟨fun i key e he => hdb.routed i key e (kept i key e he),
    fun i key e he => hdb.entries i key e (kept i key e he)⟩

/-- From the last reading on, nothing has changed. -/
theorem keyspace {t u : Time} (h : Evicted (.upTo t) db.shards db'.shards) (hu : t ≤ u) :
    db'.keyspace u = db.keyspace u := by
  funext key
  obtain ⟨now, hnow, hr⟩ := h (shardIndex key)
  exact hr.peek ((Set.mem_Iic.1 hnow).trans hu) key

/-- Where nothing expires, nothing has changed. -/
theorem keyspace_timeless (h : Evicted U db.shards db'.shards) (hdb : db.Timeless) (t : Time) :
    db'.keyspace t = db.keyspace t := by
  funext key
  obtain ⟨now, -, hr⟩ := h (shardIndex key)
  have hdb' : db'.Timeless := h.holds hdb
  rw [hdb'.keyspace_eq t now, hdb.keyspace_eq t now]
  exact hr.peek le_rfl key

end Evicted

/-! ### The contract of `writeMu` -/

/-- What `writeMu` guards: a relation between the store and the log that evictions do not
disturb. -/
structure WriteLock (Log : Type) where
  readings : Readings
  inv : DB → Log → Prop
  stable : ∀ {db db' : DB} {l : Log}, Evicted readings db.shards db'.shards → inv db l → inv db' l

/-- Without the lock, evictions are all that is done to the store, and nothing is done to the
log. -/
def WriteLock.contract (w : WriteLock Log) : Contract Mutex (Shared Log) where
  lock := .writeMu
  inv s := w.inv s.db s.log
  quiet s s' := Evicted w.readings s.db.shards s'.db.shards ∧ s'.log = s.log
  refl s := ⟨.refl _ _, rfl⟩
  trans h h' := ⟨h.1.trans h'.1, h'.2.trans h.2⟩
  stable h hs := by
    rw [h.2]
    exact w.stable h.1 hs

section Calm

variable (w : WriteLock Log)

/-! ### What is done without it -/

/-- A look at one shard. -/
theorem calm_look {i : Fin shardCount} {m : Mode} (g : DB → α) :
    Calm w.contract (Prog.guarded (.shard i) m (onDB fun db => (db, g db)) : Program Log α) :=
  .guarded nofun fun _ => ⟨.refl _ _, rfl⟩

/-- A method of the broker. -/
theorem calm_broker {m : Mode} {f : DB → DB × α} (hf : ∀ db, (f db).1.shards = db.shards) :
    Calm w.contract (Prog.guarded .broker m (onDB f) : Program Log α) := by
  refine .guarded nofun fun s => ⟨?_, rfl⟩
  change Evicted _ _ (f s.db).1.shards
  rw [hf]
  exact .refl _ _

/-- A method of the store that evicts. -/
theorem calm_evict {i : Fin shardCount} {m : Mode} {now : Time} (hnow : now ∈ w.readings.times)
    {f : DB → DB × α} (hf : ∀ db j, DB.Reaped now (db.shards j) ((f db).1.shards j)) :
    Calm w.contract (Prog.guarded (.shard i) m (onDB f) : Program Log α) :=
  .guarded nofun fun s => ⟨fun j => ⟨now, hnow, hf s.db j⟩, rfl⟩

/-- The registry is not under `writeMu`. -/
theorem calm_replicas {m : Mode} (f : Replicas → Replicas × α) :
    Calm w.contract (Prog.guarded .replicas m (onReplicas f) : Program Log α) :=
  .guarded nofun fun _ => ⟨.refl _ _, rfl⟩

/-- A method of the log that leaves it alone. -/
theorem calm_log {f : Log → Log × α} (hf : ∀ l, (f l).1 = l) :
    Calm w.contract (Prog.guarded .aof .exclusive (onLog f) : Program Log α) :=
  .guarded nofun fun s => ⟨.refl _ _, hf s.log⟩

theorem calm_exists (now : Time) : ∀ (keys : List Bytes) (n : Nat),
    Calm w.contract (existsProgram now keys n : Program Log Nat)
  | [], n => .done n
  | _ :: keys, n => (calm_look w _).bind fun m => calm_exists now keys (n + m)

/-- `GET` evicts its key at most. -/
theorem calm_get {now : Time} (hnow : now ∈ w.readings.times) (key : Bytes) :
    Calm w.contract (getProgram now key : Program Log _) := by
  refine (calm_look w _).bind fun r => ?_
  split
  · exact calm_evict w hnow fun db j => DB.expireIfNeeded_reaped now key db j
  · exact .done _

/-- A call that does not write evicts at most. -/
theorem calm_call {now : Time} (hnow : now ∈ w.readings.times) (order : RangeOrder) (c : Call)
    (hc : c.isWrite = false) :
    Calm w.contract (callProgram now order c : Program Log c.Result) := by
  cases c with
  | get key => exact calm_get w hnow key
  | «exists» keys => exact calm_exists w now keys 0
  | lLen | lRange | hGet | hGetAll | hKeys | hVals | hLen | sIsMember | sMembers | sCard | ttl =>
      exact calm_look w _
  | publish => exact calm_broker w fun _ => rfl
  | del | set | lPush | rPush | lPop | rPop | hSet | hDel | sAdd | sRem | expire | persist =>
      cases hc

/-- A request that is no write. -/
theorem calm_dispatch (r : Dispatched) (hnow : r.now ∈ w.readings.times)
    (hr : isWrite (commandName r.request) = false) :
    Calm w.contract (dispatchProgram r : Program Log Value) := by
  unfold dispatchProgram
  cases hp : plan r.request with
  | reply v => exact .done v
  | call c render =>
      have hc : c.isWrite = false := by
        by_contra hn
        exact of_decide_eq_false hr ((plan_call hp).write (by simpa using hn))
      exact (calm_call w hnow r.order c hc).bind fun a => .done (render a)

/-- A pass evicts only. -/
theorem calm_reap {now : Time} (hnow : now ∈ w.readings.times) (order : RangeOrder) :
    ∀ (is : List (Fin shardCount)) (sampled expired : Nat),
      Calm w.contract (reapProgram now order is sampled expired : Program Log _)
  | [], _, _ => .done _
  | i :: is, sampled, expired => by
      rw [reapProgram]
      split
      case isFalse => exact .done _
      case isTrue hlt =>
        refine (calm_evict w hnow fun db j => ?_).bind fun n => calm_reap hnow order is n.1 n.2
        -- one turn of the loop over the shards
        have hturn := @DB.reapShards_reaped now order [i] db sampled expired j
        rwa [DB.reapShards, if_pos hlt] at hturn

/-- The reaper evicts only. -/
theorem calm_expiry : ∀ ps : List Pass, (∀ p ∈ ps, p.now ∈ w.readings.times) →
    Calm w.contract (expiryProgram ps : Program Log Unit)
  | [], _ => .done ()
  | p :: ps, h => by
      have hpass : Calm w.contract (passProgram p.now p.start p.order : Program Log Bool) :=
        (calm_reap w (h p List.mem_cons_self) p.order _ 0 0).bind fun _ => .done _
      refine hpass.bind fun hot => ?_
      split
      · exact calm_expiry ps fun q hq => h q (List.mem_cons_of_mem _ hq)
      · exact .done ()

theorem calm_keyCount : ∀ (is : List (Fin shardCount)) (n : Nat),
    Calm w.contract (keyCountProgram is n : Program Log Nat)
  | [], n => .done n
  | _ :: is, n => (calm_look w _).bind fun m => calm_keyCount is (n + m)

/-! ### Connections -/

theorem calm_write (c : Nat) : Calm w.contract (writeProgram c : Program Log Bool) :=
  fun _ => .lock nofun (.wait fun _ => .unlock nofun (.done fun _ _ => rfl))

theorem calm_leave (c : Nat) (channel : Bytes) :
    Calm w.contract (leaveProgram c channel : Program Log Unit) :=
  calm_broker w fun _ => rfl

theorem calm_subscribe (c : Nat) : ∀ (channels : List Bytes) (k : ConnState),
    Calm w.contract (subscribeProgram c channels k : Program Log _)
  | [], _ => .done _
  | channel :: rest, k => by
      rw [subscribeProgram]
      refine Calm.bind ?_ fun _ => (calm_write w c).bind fun ok => ?_
      · split
        · exact .done ()
        · exact calm_broker w fun _ => rfl
      · split
        · exact calm_subscribe c rest _
        · exact .done _

theorem calm_unsubscribe (c : Nat) : ∀ (channels : List Bytes) (k : ConnState),
    Calm w.contract (unsubscribeProgram c channels k : Program Log _)
  | [], _ => .done _
  | channel :: rest, k => by
      rw [unsubscribeProgram]
      refine Calm.bind ?_ fun _ => (calm_write w c).bind fun ok => ?_
      · split
        · exact calm_leave w c channel
        · exact .done ()
      · split
        · exact calm_unsubscribe c rest _
        · exact .done _

theorem calm_leaveAll (c : Nat) : ∀ channels : List Bytes,
    Calm w.contract (leaveAllProgram c channels : Program Log Unit)
  | [] => .done ()
  | channel :: rest => (calm_leave w c channel).bind fun _ => calm_leaveAll c rest

theorem calm_teardown (c : Nat) (all : List Bytes) (k : ConnState) :
    Calm w.contract (teardownProgram c all k : Program Log Unit) := by
  refine Calm.bind ?_ fun _ => ?_
  · cases k.replica with
    | none => exact .done ()
    | some id => exact calm_replicas w _
  · split
    · exact calm_leaveAll w c all
    · exact .done ()

theorem calm_deliver (c : Nat) : ∀ n : Nat,
    Calm w.contract (deliverProgram c n : Program Log Unit)
  | 0 => .recv (.done ())
  | n + 1 => by
      rw [deliverProgram]
      refine .recv ((calm_write w c).bind fun ok => ?_)
      split
      · exact calm_deliver c n
      · exact .done ()

end Calm

/-! ### What is done under it -/

/-- A property of the store that evictions do not disturb. -/
def Lasting (U : Readings) (J : DB → Prop) : Prop :=
  ∀ db db' : DB, Evicted U db.shards db'.shards → J db → J db'

/-- The lock is still owned, the log is as it was, and the answer and the store are as `K` says. -/
structure Leaves (l : Log) (K : α → DB → Prop) (owned : Bool) (x : α) (s : Shared Log) : Prop where
  owned : owned = true
  log : s.log = l
  left : K x s.db

section Owned

variable {w : WriteLock Log} {log : LogMethods Log}

/-- A method of the store under the lock of a shard. -/
theorem meets_section {i : Fin shardCount} {m : Mode} {f : DB → DB × α} {J : DB → Prop}
    {K : α → DB → Prop} (hJ : Lasting w.readings J) (hK : ∀ x, Lasting w.readings (K x))
    (hf : ∀ db, J db → K (f db).2 (f db).1) {s : Shared Log} (hs : J s.db) :
    Meets w.contract (Leaves s.log K) true s
      (Prog.guarded (.shard i) m (onDB f) : Program Log α) :=
  .guarded nofun fun _ h₁ _ h₂ =>
    ⟨rfl, h₂.2.trans h₁.2, hK _ _ _ h₂.1 (hf _ (hJ _ _ h₁.1 hs))⟩

/-- The loop of `Del`, with evictions between its turns: `J` is about the keys still to come. -/
theorem meets_del {now : Time} {J : List Bytes → DB → Prop}
    (hJ : ∀ keys, Lasting w.readings (J keys))
    (hturn : ∀ key keys db, J (key :: keys) db → J keys (db.delOne now key).1) :
    ∀ (keys : List Bytes) (n : Nat) (s : Shared Log), J keys s.db →
      Meets w.contract (Leaves s.log fun _ => J []) true s (delProgram now keys n)
  | [], _, _, hs => .pure fun _ h => ⟨rfl, h.2, hJ [] _ _ h.1 hs⟩
  | key :: keys, n, s, hs => by
      refine (meets_section (hJ (key :: keys)) (fun _ => hJ keys) (hturn key keys) hs).bind ?_
      rintro _ m s' ⟨rfl, hlog, hleft⟩
      rw [← hlog]
      exact meets_del hJ hturn keys (n + m) s' hleft

/-- The records of one shard. -/
def shardRecords (now : Time) (order : RangeOrder) (i : Fin shardCount) (sh : Shard) :
    List SnapshotEntry :=
  ((order.shard i sh).filter fun p => !p.2.expired now).map fun p =>
    DB.snapshotEntry order p.1 p.2

/-- The snapshot is made of the records of the shards. -/
theorem snapshot_eq_flatMap (now : Time) (order : RangeOrder) (db : DB) :
    db.snapshot now order =
      (List.finRange shardCount).flatMap fun i => shardRecords now order i (db.shards i) := by
  rw [DB.snapshot, DB.liveEntries, List.map_flatMap]
  rfl

/-- The loop of `Snapshot`, with evictions between its turns: what it copies are the shards of one
image, between the store as it was and the store as it is. -/
theorem meets_snapshot (now : Time) (order : RangeOrder) :
    ∀ (is : List (Fin shardCount)), is.Nodup → ∀ (out : List SnapshotEntry) (s : Shared Log),
      Meets w.contract (Leaves s.log fun records db => ∃ image,
        Evicted w.readings s.db.shards image ∧ Evicted w.readings image db.shards ∧
          records = out ++ is.flatMap fun i => shardRecords now order i (image i)) true s
        (snapshotProgram now order is out)
  | [], _, out, s => .pure fun _ h => ⟨rfl, h.2, s.db.shards, .refl _ _, h.1, by simp⟩
  | i :: is, hn, out, s => by
      obtain ⟨hi, his⟩ := List.nodup_cons.1 hn
      have hcopy : Meets w.contract (Leaves s.log fun records db => ∃ mid,
          Evicted w.readings s.db.shards mid ∧ Evicted w.readings mid db.shards ∧
            records = shardRecords now order i (mid i)) true s
          (Prog.guarded (.shard i) .shared (onDB fun db =>
            (db, shardRecords now order i (db.shards i))) : Program Log _) :=
        .guarded nofun fun s₁ h₁ s₂ h₂ =>
          ⟨rfl, h₂.2.trans h₁.2, s₁.db.shards, h₁.1, h₂.1, rfl⟩
      refine hcopy.bind ?_
      rintro _ _ s₂ ⟨rfl, hlog, mid, hbefore, hafter, rfl⟩
      refine (meets_snapshot now order is his _ s₂).imp ?_
      rintro _ _ s₃ ⟨rfl, hlog₃, image, himage, hlast, rfl⟩
      -- the shard just copied, and the others as they are copied later
      refine ⟨rfl, hlog₃.trans hlog, Function.update image i (mid i), fun j => ?_, fun j => ?_, ?_⟩
      · by_cases hj : j = i
        · subst hj
          rw [Function.update_self]
          exact hbefore j
        · rw [Function.update_of_ne hj]
          exact ((hbefore.trans hafter).trans himage) j
      · by_cases hj : j = i
        · subst hj
          rw [Function.update_self]
          exact ((hafter.trans himage).trans hlast) j
        · rw [Function.update_of_ne hj]
          exact hlast j
      · have hrest : ∀ j ∈ is, shardRecords now order j (Function.update image i (mid i) j) =
            shardRecords now order j (image j) := fun j hj => by
          rw [Function.update_of_ne (ne_of_mem_of_not_mem hj hi)]
        rw [List.flatMap_cons, Function.update_self, List.append_assoc, List.flatMap_congr hrest]

/-- What the write table names writes. -/
theorem handler_isWrite (command : Command) (hname : command.name ∈ writeCommands)
    {args : List Value} {c : Call} {render : c.Result → Value}
    (h : command.handler args = .call c render) : c.isWrite = true := by
  cases command with
  | ping | echo | get | «exists» | lRange | lLen | hGet | hGetAll | hKeys | hVals | hLen | sIsMember
  | sMembers | sCard | ttl | pTTL | publish => exact absurd hname (by decide)
  | set | del | lPush | rPush | lPop | rPop | hDel | sAdd | sRem | persist =>
      simp only [Command.handler, Cmd.set, Cmd.del, Cmd.lPush, Cmd.rPush, Cmd.lPop, Cmd.rPop,
        Cmd.hDel, Cmd.sAdd, Cmd.sRem, Cmd.persist] at h
      split at h <;> cases h
      rfl
  | hSet =>
      simp only [Command.handler, Cmd.hSet] at h
      split at h
      · cases h
      · split at h <;> cases h
        rfl
  | expire | pExpire =>
      simp only [Command.handler, Cmd.expire, Cmd.pExpire, Cmd.expireIn] at h
      split at h
      · split at h <;> cases h
        rfl
      · cases h

/-- The requests that take the write path are those whose call writes. -/
theorem isWrite_of_plan {request : Value} {c : Call} {render : c.Result → Value}
    (hw : isWrite (commandName request) = true) (h : plan request = .call c render) :
    c.isWrite = true := by
  have hname : toUpper (commandName request) ∈ writeCommands := of_decide_eq_true hw
  unfold plan at h
  cases hi : request.items with
  | nil =>
      rw [hi] at h
      cases h
  | cons head args =>
      simp only [commandName, hi, List.head?_cons, Option.map_some, Option.getD_some] at h hname
      cases hl : lookup (toUpper head.str) with
      | none =>
          rw [hl] at h
          cases h
      | some command =>
          rw [hl] at h
          rw [← lookup_eq_some hl] at hname
          exact handler_isWrite command hname h

/-- `Dispatch` of a write, with evictions going on: it is what it is on some store with the property
`J`, but for `Del`, which comes key by key. -/
theorem meets_dispatch {r : Dispatched} (hw : isWrite (commandName r.request) = true)
    {J : DB → Prop} {K : Value → DB → Prop} (hJ : Lasting w.readings J)
    (hK : ∀ v, Lasting w.readings (K v))
    (hone : ∀ db, J db → K (db.dispatch r.now r.order r.request).2
      (db.dispatch r.now r.order r.request).1)
    (hdel : ∀ keys render, plan r.request = .call (.del keys) render →
      ∃ D : List Bytes → DB → Prop, (∀ keys, Lasting w.readings (D keys)) ∧
        (∀ key keys db, D (key :: keys) db → D keys (db.delOne r.now key).1) ∧
        (∀ db, J db → D keys db) ∧ ∀ n db, D [] db → K (render n) db)
    {s : Shared Log} (hs : J s.db) :
    Meets w.contract (Leaves s.log K) true s (dispatchProgram r) := by
  unfold dispatchProgram
  have hrun : ∀ db : DB, db.dispatch r.now r.order r.request =
      (plan r.request).run (DB.call r.now r.order) db := fun _ => rfl
  cases hp : plan r.request with
  | reply v =>
      have hv : ∀ db, J db → K v db := fun db hdb => by
        simpa only [hrun, hp, Handler.run] using hone db hdb
      exact .pure fun s' h => ⟨rfl, h.2, hv _ (hJ _ _ h.1 hs)⟩
  | call c render =>
      have hc := isWrite_of_plan hw hp
      have hcall : ∀ db, J db →
          K (render (db.call r.now r.order c).2) (db.call r.now r.order c).1 := fun db hdb => by
        simpa only [hrun, hp, Handler.run] using hone db hdb
      -- the answer is rendered outside the store
      have rendered : ∀ owned (x : c.Result) (s' : Shared Log),
          Leaves s.log (fun x => K (render x)) owned x s' →
            Meets w.contract (Leaves s.log K) owned s' (.done (render x) : Program Log Value) := by
        rintro _ x s' ⟨rfl, hlog, hleft⟩
        exact .pure fun s'' h => ⟨rfl, h.2.trans hlog, hK _ _ _ h.1 hleft⟩
      have one : ∀ i m, Meets w.contract (Leaves s.log fun x => K (render x)) true s
          (Prog.guarded (.shard i) m (onDB (DB.call r.now r.order c)) : Program Log _) :=
        fun i m => meets_section hJ (fun x => hK (render x)) hcall hs
      cases c with
      | del keys =>
          obtain ⟨D, hD, hturn, hstart, hend⟩ := hdel keys render hp
          refine ((meets_del hD hturn keys 0 s (hstart _ hs)).imp ?_).bind rendered
          rintro _ n s' ⟨rfl, hlog, hleft⟩
          exact ⟨rfl, hlog, hend n _ hleft⟩
      | set | lPush | rPush | lPop | rPop | hSet | hDel | sAdd | sRem | expire | persist =>
          exact (one _ _).bind rendered
      | get | «exists» | lLen | lRange | hGet | hGetAll | hKeys | hVals | hLen | sIsMember
      | sMembers | sCard | ttl | publish => cases hc

/-- **A recorded write restores the invariant** if its dispatch does, with the command appended or,
after an error, without. -/
theorem calm_record {r : Dispatched}
    (h : ∀ s : Shared Log, w.inv s.db s.log → Meets w.contract (Leaves s.log fun v db =>
      w.inv db (if v.isError then s.log else log.append r.request s.log)) true s
        (dispatchProgram r)) : Calm w.contract (recordProgram log true r) := by
  refine .critical fun s hs => (h s hs).bind ?_
  rintro _ v s' ⟨rfl, hlog, hleft⟩
  have leave : ∀ s' : Shared Log, w.inv s'.db s'.log →
      Meets w.contract (fun owned _ _ => owned = false) true s'
        (.unlock .writeMu (.done v) : Program Log Value) :=
    fun s' hs' => .leave hs' fun _ => .done fun _ _ => rfl
  split
  case isTrue he =>
    rw [he, if_pos rfl, ← hlog] at hleft
    exact leave s' hleft
  case isFalse he =>
    rw [if_neg he, ← hlog] at hleft
    -- the command is appended, and then handed to the replicas
    have happend : Meets w.contract (fun owned _ s => owned = true ∧ w.inv s.db s.log) true s'
        (Prog.guarded .aof .exclusive (onLog fun l => (log.append r.request l, ())) :
          Program Log Unit) := by
      refine .guarded nofun fun s₁ h₁ s₂ h₂ => ⟨rfl, w.contract.stable h₂ ?_⟩
      change w.inv s₁.db (log.append r.request s₁.log)
      rw [h₁.2]
      exact w.stable h₁.1 hleft
    refine happend.bind ?_
    rintro _ _ s₁ ⟨rfl, hs₁⟩
    have hpropagate : Meets w.contract (fun owned _ s => owned = true ∧ w.inv s.db s.log) true s₁
        (propagateProgram r.request : Program Log Unit) := by
      refine .guarded nofun fun s₂ h₂ s₃ h₃ => ⟨rfl, w.contract.stable h₃ ?_⟩
      change w.inv s₂.db s₂.log
      exact w.contract.stable h₂ hs₁
    refine hpropagate.bind ?_
    rintro _ _ s₂ ⟨rfl, hs₂⟩
    exact leave s₂ hs₂

/-- **A rewrite of the log restores the invariant** if the snapshot of an image between the store
as it was and the store as it is does. -/
theorem calm_rewrite {now : Time} {order : RangeOrder}
    (h : ∀ (db image db' : DB) (l : Log), w.inv db l →
      Evicted w.readings db.shards image.shards → Evicted w.readings image.shards db'.shards →
        w.inv db' (log.rewrite (image.snapshot now order) l).1) :
    Calm w.contract (rewriteAOFProgram log now order) := by
  -- reading the size changes nothing
  have size : ∀ s : Shared Log, w.inv s.db s.log →
      Meets w.contract (fun owned _ s => owned = true ∧ w.inv s.db s.log) true s
        (sizeProgram : Program Log Unit) := fun s hs =>
    .guarded nofun fun _ h₁ _ h₂ => ⟨rfl, w.contract.stable h₂ (w.contract.stable h₁ hs)⟩
  refine .critical fun s hs => (size s hs).bind ?_
  rintro _ _ s₁ ⟨rfl, hs₁⟩
  refine (meets_snapshot now order _ (List.nodup_finRange _) [] s₁).bind ?_
  rintro _ _ s₂ ⟨rfl, hlog, image, hbefore, hafter, rfl⟩
  have hrewrite : ∀ records, records = (⟨image, s.db.pubsub⟩ : DB).snapshot now order →
      Meets w.contract (fun owned _ s => owned = true ∧ w.inv s.db s.log) true s₂
        (Prog.guarded .aof .exclusive (onLog (log.rewrite records)) : Program Log Bool) := by
    rintro _ rfl
    refine .guarded nofun fun s₃ h₃ s₄ h₄ => ⟨rfl, w.contract.stable h₄ ?_⟩
    change w.inv s₃.db (log.rewrite _ s₃.log).1
    rw [h₃.2, hlog]
    exact h s₁.db ⟨image, s.db.pubsub⟩ s₃.db s₁.log hs₁ hbefore (hafter.trans h₃.1)
  refine (hrewrite _ (by rw [snapshot_eq_flatMap, List.nil_append])).bind ?_
  rintro _ ok s₃ ⟨rfl, hs₃⟩
  have hlast : Meets w.contract (fun owned _ s => owned = true ∧ w.inv s.db s.log) true s₃
      (if ok then sizeProgram else .done () : Program Log Unit) := by
    split
    · exact size s₃ hs₃
    · exact .pure fun _ h₄ => ⟨rfl, w.contract.stable h₄ hs₃⟩
  refine hlast.bind ?_
  rintro _ _ s₄ ⟨rfl, hs₄⟩
  exact .leave hs₄ fun _ => .done fun _ _ => rfl

end Owned

/-! ### The goroutines of a primary -/

section Roles

variable {w : WriteLock Log} {log : LogMethods Log} {P : Value → Prop}

/-- What is left to show for the two programs that take `writeMu`; `sync` flushes what is in the log
and changes nothing of it. -/
structure Restores (w : WriteLock Log) (log : LogMethods Log) (P : Value → Prop) : Prop where
  sync : ∀ l, log.sync l = l
  record : ∀ r : Dispatched, r.now ∈ w.readings.times → P r.request →
    isWrite (commandName r.request) = true → Calm w.contract (recordProgram log true r)
  rewrite : ∀ now ∈ w.readings.times, ∀ order, Calm w.contract (rewriteAOFProgram log now order)

/-- A request keeps the contract of `writeMu` on either path. -/
theorem calm_applyRecord (h : Restores w log P) (r : Dispatched) (hnow : r.now ∈ w.readings.times)
    (hP : P r.request) : Calm w.contract (applyRecordProgram log true r) := by
  unfold applyRecordProgram
  cases hw : isWrite (commandName r.request) with
  | false => exact calm_dispatch w r hnow hw
  | true => exact h.record r hnow hP hw

/-- Serving a request keeps the contract of `writeMu`. -/
theorem calm_serve (h : Restores w log P) (primaryAddr : Bytes) (c : Nat) (r : Dispatched)
    (hnow : r.now ∈ w.readings.times) (hP : P r.request) (all : List Bytes) (k : ConnState) :
    Calm w.contract (serveProgram log primaryAddr true c r all k) := by
  have answer : Calm w.contract ((writeProgram c : Program Log Bool).bind fun ok =>
      .done (k, ok)) := (calm_write w c).bind fun _ => .done _
  unfold serveProgram
  dsimp only
  cases route primaryAddr (decide (0 < k.channels.card)) r.request with
  | refused | readonly => exact answer
  | subscribe =>
      dsimp only
      split
      · exact answer
      · exact calm_subscribe w c _ _
  | unsubscribe =>
      generalize (if r.request.items.tail.map Value.str = [] then all
        else r.request.items.tail.map Value.str) = targets
      dsimp only
      split
      · exact answer
      · exact calm_unsubscribe w c _ _
  | replicaof =>
      refine (calm_write w c).bind fun ok => ?_
      split
      · exact (calm_replicas w _).bind fun _ => .done _
      · exact .done _
  | replconf =>
      dsimp only
      split
      · exact .done _
      · exact answer
  | quit => exact (calm_write w c).bind fun _ => .done _
  | apply => exact (calm_applyRecord h r hnow hP).bind fun _ => answer

/-- A connection's handler keeps the contract of `writeMu`. -/
theorem calm_handle (h : Restores w log P) (primaryAddr : Bytes) (c : Nat) (garbage : Bool)
    (all : List Bytes) : ∀ (requests : List (Dispatched × List Bytes)) (k : ConnState),
    (∀ r ∈ requests, r.1.now ∈ w.readings.times ∧ P r.1.request) →
      Calm w.contract (handleProgram log primaryAddr true c garbage all requests k)
  | [], k, _ => by
      rw [handleProgram]
      refine .recv (Calm.bind ?_ fun _ => calm_teardown w c all k)
      split
      · exact calm_write w c
      · exact .done true
  | (r, ranged) :: rest, k, hr => by
      obtain ⟨hnow, hP⟩ := hr _ List.mem_cons_self
      rw [handleProgram]
      refine .recv ((calm_serve h primaryAddr c r hnow hP ranged k).bind fun next => ?_)
      split
      · exact calm_handle h primaryAddr c garbage all rest _
          fun r hr' => hr r (List.mem_cons_of_mem _ hr')
      · exact calm_teardown w c all _

theorem calm_each {γ : Type} {f : γ → Program Log β} : ∀ as : List γ,
    (∀ a ∈ as, Calm w.contract (f a)) → Calm w.contract (eachProgram f as)
  | [], _ => .recv (.done ())
  | a :: as, hf => .recv ((hf a List.mem_cons_self).bind fun _ =>
      calm_each as fun b hb => hf b (List.mem_cons_of_mem _ hb))

/-- The goroutine reads the clock at the given readings, serves requests with the property, and does
not follow another primary. -/
def Role.Within (U : Readings) (P : Value → Prop) : Role → Prop
  | .handler _ _ _ requests => ∀ r ∈ requests, r.1.now ∈ U.times ∧ P r.1.request
  | .stream commands => commands = []
  | .expiry ticks => ∀ ps ∈ ticks, ∀ p ∈ ps, p.now ∈ U.times
  | .autoRewrite ticks => ∀ t ∈ ticks, t.1 ∈ U.times
  | .delivery _ _ | .sync _ | .heartbeat _ | .scrape _ => True

/-- **Every goroutine of a primary keeps the contract of `writeMu`.** -/
theorem Role.calm (h : Restores w log P) (primaryAddr : Bytes) {role : Role}
    (hrole : role.Within w.readings P) : Calm w.contract (role.program log primaryAddr true) := by
  cases role with
  | handler c garbage all requests => exact calm_handle h primaryAddr c garbage all _ _ hrole
  | delivery c frames => exact calm_deliver w c frames
  | stream commands =>
      obtain rfl : commands = [] := hrole
      exact .recv (.done ())
  | expiry ticks => exact calm_each _ fun ps hps => calm_expiry w ps (hrole ps hps)
  | autoRewrite ticks =>
      refine calm_each _ fun t ht => (calm_log w fun _ => rfl).bind fun should => ?_
      split
      · exact (h.rewrite t.1 (hrole t ht) t.2).bind fun _ => .done ()
      · exact .done ()
  | sync ticks => exact calm_each _ fun _ _ => calm_log w h.sync
  | heartbeat ticks =>
      exact calm_each _ fun _ _ => (calm_replicas w _).bind fun _ => calm_replicas w _
  | scrape times =>
      exact calm_each _ fun _ _ => (calm_keyCount w _ _).bind fun _ => calm_replicas w _

/-- Whenever `writeMu` is free, its invariant holds. -/
theorem writeMu_inv {T : Type} [DecidableEq T] (h : Restores w log P) {primaryAddr : Bytes}
    {roles : T → Role} (hroles : ∀ t, (roles t).Within w.readings P) {shared : Shared Log}
    (hshared : w.inv shared.db shared.log) {ts : List T}
    {s : Locks.Pool T Mutex Nat (Shared Log) Unit}
    (hrun : Run Locks.Pool.Step (launch log primaryAddr true roles shared) ts s)
    (hfree : ∀ t, ¬ (s.of t).Owns .writeMu) : w.inv s.state.db s.state.log :=
  Locks.Pool.Keeps.run (c := w.contract) (fun t => Role.calm h primaryAddr (hroles t)) hshared hrun
    hfree

end Roles

end MiniRedis.Server
