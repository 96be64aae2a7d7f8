import MiniRedis.Server.Load
import MiniRedis.Server.WriteLock

/-!
# Server — Matching

The log and the store, with all goroutines of a primary at work, lock by lock.

* `log_matches_store`: **whenever `writeMu` is free, the commands of the log rebuild the keyspace**,
  as long as the log's file operations succeed.
* `rewrite_matches_store`: **whenever `writeMu` is free, the records a rewrite was given are the
  snapshot of a store with the keyspace of this one, from the last clock reading on, until the next
  call of `Append`.**
-/

namespace MiniRedis.Server

open Protocol Store Cmd Reference Persistence Replication Machine Locks Shared Strings

variable {T : Type} [DecidableEq T] {primaryAddr : Bytes} {roles : T → Role} {ts : List T}

/-! ### The commands of the log -/

/-- The log as the commands a replay would find in it, as long as its file operations succeed: an
`Append` adds its command; a rewrite puts the commands of its records in their place, written at
readings of its own, or fails before its rename and leaves them as they were. -/
def commandLog (clock : List SnapshotEntry → Bytes → Time) (ok : List SnapshotEntry → Bool)
    (should : List Value → Bool) : LogMethods (List Value) where
  append request l := l ++ [request]
  rewrite records l :=
    if ok records then (snapshotCommands (clock records) records, true) else (l, false)
  sync l := l
  shouldRewrite := should

/-- `writeMu` guards that the log rebuilds the store. -/
def rebuildLock : WriteLock (List Value) where
  readings := .all
  inv db l := db.Timeless ∧ ∀ t, db.keyspace t = rebuild l fun _ => none
  stable h hdb := ⟨h.holds hdb.1, fun t => (h.keyspace_timeless hdb.1 t).trans (hdb.2 t)⟩

/-- A `DEL` of one key sets no deadline. -/
theorem delOne_timeless {db : DB} (h : db.Timeless) (now : Time) (key : Bytes) :
    (db.delOne now key).1.Timeless :=
  DB.Holds.keyed_iff.2 ((DB.Holds.keyed_iff.1 h).locked delOne_acts fun c _ => Cell.del_all c)

/-- A `DEL` of one key empties that key alone. -/
theorem keyspace_delOne {db : DB} (h : db.Timeless) (now : Time) (key : Bytes) (t : Time) :
    (db.delOne now key).1.keyspace t =
      Function.update (db.keyspace t) key (Cell.del (db.keyspace t key)).1 := by
  rw [(delOne_timeless h now key).keyspace_eq t now, h.keyspace_eq t now]
  have hone : (db.abs now).onKey key Cell.del =
      ((db.delOne now key).1.abs now, (db.delOne now key).2) := DB.abs_locked delOne_acts db
  exact (congrArg (fun p => p.1.keys) hone).symm

/-- A deletion never fails. -/
theorem del_isError {request : Value} {keys : List Bytes} {render : Nat → Value}
    (h : plan request = .call (.del keys) render) (n : Nat) : (render n).isError = false := by
  by_contra hn
  cases (plan_call h).renders.error n (by simpa using hn)

/-- A command that sets no deadline is dispatched, and appended unless it is refused. -/
theorem meets_rebuild {r : Dispatched} (hw : isWrite (commandName r.request) = true)
    (hr : ¬ SetsDeadline r.request) {s : Shared (List Value)} (hs : rebuildLock.inv s.db s.log) :
    Meets rebuildLock.contract (Leaves s.log fun v db =>
      rebuildLock.inv db (if v.isError then s.log else s.log ++ [r.request])) true s
        (dispatchProgram r) := by
  have happend : rebuild (s.log ++ [r.request]) (fun _ => none) =
      effect 0 r.request (rebuild s.log fun _ => none) := rebuild_append _ _ _
  have lasting : ∀ l, Lasting Readings.all fun db => rebuildLock.inv db l :=
    fun _ _ _ h => rebuildLock.stable h
  refine meets_dispatch hw (lasting s.log) (fun _ => lasting _) ?_ ?_ hs
  · rintro db ⟨htimeless, hks⟩
    refine ⟨htimeless.dispatch hr, fun t => ?_⟩
    split
    case isTrue he => exact (htimeless.keyspace_unrecorded hr (.inr he) t).trans (hks t)
    case isFalse => rw [htimeless.keyspace_dispatch hr t, hks t, happend]
  · intro keys render hp
    -- what is still to be deleted, deleted from what is there, is what the command makes of it all
    refine ⟨fun keys db => db.Timeless ∧ ∀ t, Keyspace.applyAll
      (keys.map fun key => (key, fun c => (Cell.del c).1)) (db.keyspace t) =
        rebuild (s.log ++ [r.request]) fun _ => none, ?_, ?_, ?_, ?_⟩
    · rintro keys db db' hev ⟨htimeless, hks⟩
      exact ⟨hev.holds htimeless, fun t => by rw [hev.keyspace_timeless htimeless t, hks t]⟩
    · rintro key keys db ⟨htimeless, hks⟩
      refine ⟨delOne_timeless htimeless r.now key, fun t => ?_⟩
      rw [keyspace_delOne htimeless r.now key t]
      exact hks t
    · rintro db ⟨htimeless, hks⟩
      refine ⟨htimeless, fun t => ?_⟩
      rw [hks t, happend, effect, hp]
      rfl
    · rintro n db ⟨htimeless, hks⟩
      rw [del_isError hp n]
      exact ⟨htimeless, hks⟩

/-- The write path and the rewrite restore the invariant before they give `writeMu` back. -/
theorem rebuildLock_restores (clock : List SnapshotEntry → Bytes → Time)
    (ok : List SnapshotEntry → Bool) (should : List Value → Bool) :
    Restores rebuildLock (commandLog clock ok should) fun request => ¬ SetsDeadline request where
  sync _ := rfl
  record _ _ hr hw := calm_record fun _ hs => meets_rebuild hw hr hs
  rewrite now _ order := by
    refine calm_rewrite fun db image db' l hdb hbefore hafter => ?_
    have himage : image.Timeless := hbefore.holds hdb.1
    have hinv : rebuildLock.inv db' l :=
      rebuildLock.stable hafter (rebuildLock.stable hbefore hdb)
    cases hok : ok (image.snapshot now order) with
    | false =>
        simp only [commandLog, hok, Bool.false_eq_true, if_false]
        exact hinv
    | true =>
        simp only [commandLog, hok, if_true]
        refine ⟨hinv.1, fun t => ?_⟩
        rw [rebuild_snapshot himage t]
        exact hafter.keyspace_timeless himage t

/-- **The log matches the store.**  On a primary with a log whose file operations succeed, but for
those of a rewrite up to its rename, with any number of goroutines, each serving clients,
delivering, expiring, rewriting the log, flushing it, sending heartbeats or counting keys, and
clients that set no deadlines: at every instant when nobody holds `writeMu`, replaying the commands
of the log from nothing gives the keyspace the store has at any reading.  So a deletion of many
keys, which others see half done, is in the log as a whole, and no write comes between the snapshot
of a rewrite and the new log. -/
theorem log_matches_store {clock : List SnapshotEntry → Bytes → Time}
    {ok : List SnapshotEntry → Bool} {should : List Value → Bool} {shared : Shared (List Value)}
    {s : Locks.Pool T Mutex Nat (Shared (List Value)) Unit}
    (hroles : ∀ t, (roles t).Within .all fun request => ¬ SetsDeadline request)
    (htimeless : shared.db.Timeless)
    (hstart : ∀ t, shared.db.keyspace t = rebuild shared.log fun _ => none)
    (hrun : Run Locks.Pool.Step (launch (commandLog clock ok should) primaryAddr true roles shared)
      ts s) (hfree : ∀ t, ¬ (s.of t).Owns .writeMu) (t : Time) :
    s.state.db.keyspace t = rebuild s.state.log fun _ => none :=
  (writeMu_inv (rebuildLock_restores clock ok should) hroles ⟨htimeless, hstart⟩ hrun hfree).2 t

/-- A client that sets a key, beside the reaper. -/
def oneWriter : Bool → Role := fun b =>
  if b then .handler 1 false [] [(⟨0, .sorted, bulkCmd [txt "SET", txt "k", txt "v"]⟩, [])]
  else .expiry [[⟨5, shardIndex (txt "k"), .sorted⟩]]

/-- A `SET` that has been through the write path. -/
theorem log_matches_store_oneWriter :
    ∃ s, Run Locks.Pool.Step (launch (commandLog (fun _ _ => 0) (fun _ => true) fun _ => false) []
        true oneWriter emptyShared) (List.replicate 15 true) s ∧
      s.state.log = [bulkCmd [txt "SET", txt "k", txt "v"]] ∧
      ∀ t, s.state.db.keyspace t = rebuild s.state.log fun _ => none := by
  have hrun : Run Locks.Pool.Step
      (launch (commandLog (fun _ _ => 0) (fun _ => true) fun _ => false) [] true oneWriter
        emptyShared) (List.replicate 15 true) _ :=
    .cons (.recv rfl) <|
    .cons (.ask rfl fun u => by cases u <;> exact ⟨nofun, nofun⟩) <|
    .cons (.own rfl fun u => by cases u <;> exact nofun) <|
    .cons (.ask rfl fun u => by cases u <;> exact ⟨nofun, nofun⟩) <|
    .cons (.own rfl fun u => by cases u <;> exact nofun) <|
    .cons (.act rfl) <| .cons (.unlock rfl) <|
    .cons (.ask rfl fun u => by cases u <;> exact ⟨nofun, nofun⟩) <|
    .cons (.own rfl fun u => by cases u <;> exact nofun) <|
    .cons (.act rfl) <| .cons (.unlock rfl) <|
    .cons (.share rfl fun u => by cases u <;> exact ⟨nofun, nofun⟩) <|
    .cons (.act rfl) <| .cons (.unlock rfl) <| .cons (.unlock rfl) <| .nil _
  refine ⟨_, hrun, rfl, log_matches_store ?_ (.new _) (fun _ => rfl) hrun ?_⟩
  · intro t
    cases t with
    | true =>
        intro r hr
        rw [List.mem_singleton.1 hr]
        exact ⟨trivial, by decide⟩
    | false => exact fun _ _ _ _ => trivial
  · intro t
    cases t <;> exact nofun

/-! ### The records of a rewrite -/

/-- The log as the records it was last rewritten from, if `Append` has not been called since. -/
def recordsLog (ok : List SnapshotEntry → Bool) (should : Option (List SnapshotEntry) → Bool) :
    LogMethods (Option (List SnapshotEntry)) where
  append _ _ := none
  rewrite records l := if ok records then (some records, true) else (l, false)
  sync l := l
  shouldRewrite := should

/-- The records are the snapshot of some store that commands up to `t` can have left, and that has
the keyspace of `db` from `t` on. -/
def Portrays (t : Time) (records : List SnapshotEntry) (db : DB) : Prop :=
  ∃ (image : DB) (now : Time) (order : RangeOrder), image.Valid t ∧ now ≤ t ∧
    records = image.snapshot now order ∧ ∀ u, t ≤ u → image.keyspace u = db.keyspace u

theorem Portrays.mono {t : Time} {records : List SnapshotEntry} {db db' : DB}
    (h : Portrays t records db) (hks : ∀ u, t ≤ u → db'.keyspace u = db.keyspace u) :
    Portrays t records db' := by
  obtain ⟨image, now, order, hvalid, hnow, hrecords, himage⟩ := h
  exact ⟨image, now, order, hvalid, hnow, hrecords, fun u hu => (himage u hu).trans (hks u hu).symm⟩

/-- `writeMu` guards that the records of the last rewrite portray the store. -/
def recordsLock (t : Time) : WriteLock (Option (List SnapshotEntry)) where
  readings := .upTo t
  inv db l := db.Valid t ∧ ∀ records, l = some records → Portrays t records db
  stable h hdb := ⟨h.holds hdb.1, fun records hl =>
    (hdb.2 records hl).mono fun _ hu => h.keyspace hu⟩

/-- A write under `writeMu` leaves the store valid. -/
theorem meets_records {t : Time} {r : Dispatched} (hnow : r.now ≤ t)
    (hw : isWrite (commandName r.request) = true) {s : Shared (Option (List SnapshotEntry))}
    (hs : (recordsLock t).inv s.db s.log) :
    Meets (recordsLock t).contract (Leaves s.log fun v db =>
      (recordsLock t).inv db (if v.isError then s.log else none)) true s (dispatchProgram r) := by
  have lasting : ∀ l, Lasting (.upTo t) fun db => (recordsLock t).inv db l :=
    fun _ _ _ h => (recordsLock t).stable h
  refine meets_dispatch hw (lasting s.log) (fun _ => lasting _) ?_ ?_ hs
  · rintro db ⟨hvalid, hlog⟩
    refine ⟨hvalid.dispatch r.request hnow, fun records hl => ?_⟩
    split at hl
    case isTrue he =>
      -- a write that is refused changes nothing
      refine (hlog records hl).mono fun u hu => funext fun key => ?_
      rw [DB.keyspace_later (hnow.trans hu), DB.keyspace_later (hnow.trans hu),
        DB.dispatch_unrecorded (.inr he)]
    case isFalse => cases hl
  · intro keys render hp
    refine ⟨fun _ db => db.Valid t, fun _ _ _ hev => hev.holds, fun key keys db hdb => ?_,
      fun db hdb => hdb.1, fun n db hdb => ?_⟩
    · exact DB.Holds.keyed_iff.2 ((DB.Holds.keyed_iff.1 hdb).locked delOne_acts
        fun c _ => Cell.del_all c)
    · rw [del_isError hp n]
      exact ⟨hdb, nofun⟩

/-- The write path forgets the records, and the rewrite takes new ones. -/
theorem recordsLock_restores (t : Time) (ok : List SnapshotEntry → Bool)
    (should : Option (List SnapshotEntry) → Bool) :
    Restores (recordsLock t) (recordsLog ok should) fun _ => True where
  sync _ := rfl
  record _ hnow _ hw := calm_record fun _ hs => meets_records (Set.mem_Iic.1 hnow) hw hs
  rewrite now hnow order := by
    refine calm_rewrite fun db image db' l hdb hbefore hafter => ?_
    have himage : image.Valid t := hbefore.holds hdb.1
    have hinv : (recordsLock t).inv db' l :=
      (recordsLock t).stable hafter ((recordsLock t).stable hbefore hdb)
    cases hok : ok (image.snapshot now order) with
    | false =>
        simp only [recordsLog, hok, Bool.false_eq_true, if_false]
        exact hinv
    | true =>
        simp only [recordsLog, hok, if_true]
        refine ⟨hinv.1, fun records hl => ?_⟩
        cases hl
        exact ⟨image, now, order, himage, Set.mem_Iic.1 hnow, rfl,
          fun u hu => (hafter.keyspace hu).symm⟩

/-- **A rewrite takes a consistent picture.**  On a primary with a log whose goroutines read the
clock up to `t`, deadlines or not: at every instant when nobody holds `writeMu`, and unless `Append`
has been called since, the records of the last rewrite are the snapshot of some store with the
keyspace of this one from `t` on, though they were copied shard after shard with reads and reaper
passes evicting in between. -/
theorem rewrite_matches_store {t : Time} {ok : List SnapshotEntry → Bool}
    {should : Option (List SnapshotEntry) → Bool} {db : DB} {replicas : Replicas}
    {s : Locks.Pool T Mutex Nat (Shared (Option (List SnapshotEntry))) Unit}
    (hroles : ∀ g, (roles g).Within (.upTo t) fun _ => True) (hvalid : db.Valid t)
    (hrun : Run Locks.Pool.Step
      (launch (recordsLog ok should) primaryAddr true roles ⟨db, replicas, none⟩) ts s)
    (hfree : ∀ g, ¬ (s.of g).Owns .writeMu) {records : List SnapshotEntry}
    (hlog : s.state.log = some records) : Portrays t records s.state.db :=
  have hstart : (recordsLock t).inv db none := ⟨hvalid, nofun⟩
  (writeMu_inv (recordsLock_restores t ok should) hroles hstart hrun hfree).2 records hlog

/-- One key that lives until 20. -/
def mortalKey : DB :=
  ((DB.new.dispatch 0 .sorted (bulkCmd [txt "SET", txt "k", txt "v"])).1.dispatch 0 .sorted
    (bulkCmd [txt "PEXPIRE", txt "k", txt "20"])).1

/-- A rewrite of a store whose one key has a deadline. -/
theorem rewrite_matches_store_mortalKey :
    ∃ ts s, Run Locks.Pool.Step (launch (recordsLog (fun _ => true) fun _ => true) [] true
        (fun _ : Unit => .autoRewrite [(3, .sorted)]) ⟨mortalKey, .new, none⟩) ts s ∧
      s.state.log = some (mortalKey.snapshot 3 .sorted) ∧
      Portrays 9 (mortalKey.snapshot 3 .sorted) s.state.db := by
  have hvalid : mortalKey.Valid 9 :=
    .dispatch _ (by decide) (.dispatch _ (by decide) (.new _))
  have hobeys := Role.obeys (recordsLog (fun _ => true) fun _ => true) [] true
    (.autoRewrite [(3, .sorted)])
  -- the goroutine has the server to itself
  obtain ⟨ts, s, hrun, hstate, hof⟩ := Locks.Pool.Alone.runs (t := ())
    (s := launch (recordsLog (fun _ => true) fun _ => true) [] true
      (fun _ : Unit => .autoRewrite [(3, .sorted)]) ⟨mortalKey, .new, none⟩)
    hobeys (fun u hu => absurd rfl hu) rfl
  have hlog : s.state.log = some (mortalKey.snapshot 3 .sorted) := by
    rw [hstate]
    rw [launch, Role.program, eachProgram, Prog.sections, Prog.sections_bind,
      Footprint.Thread.run_bind, run_autoRewriteProgram _ _ _ _ rfl]
    rfl
  refine ⟨ts, s, hrun, hlog, rewrite_matches_store ?_ hvalid hrun ?_ hlog⟩
  · intro _ t ht
    rw [List.mem_singleton.1 ht]
    exact Set.mem_Iic.2 (by decide)
  · intro t
    rw [hof]
    exact List.not_mem_nil

end MiniRedis.Server
