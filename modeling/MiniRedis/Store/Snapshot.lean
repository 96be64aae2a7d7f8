import MiniRedis.Reference.Invariant

/-!
# Store — Snapshot

The point-in-time dump the compactor works from (`internal/db/snapshot.go`): one record for each
live key, shard after shard, the orders within a shard, a hash and a set being the runtime's.

* `mem_liveEntries`, `nodup_liveEntries`: the entries a snapshot ranges over are the logical
  keyspace, each key once, provided every key is in its shard.
-/

namespace MiniRedis.Store

open Maps Reference

/-- The value of a record, under its `SnapshotKind`. -/
inductive SnapshotValue where
  | str (value : Bytes)
  | list (items : List Bytes)
  | hash (fields values : List Bytes)
  | set (members : List Bytes)
deriving DecidableEq

/-- `SnapshotEntry` -/
structure SnapshotEntry where
  key : Bytes
  value : SnapshotValue
  expireAt : Option Time
deriving DecidableEq

namespace DB

/-- The record of one key. -/
def snapshotEntry (order : RangeOrder) (key : Bytes) (e : Entry) : SnapshotEntry where
  key := key
  value :=
    match e.payload with
    | .str value => .str value
    | .list items => .list items
    | .hash m => .hash ((order.hash key m).map Prod.fst) ((order.hash key m).map Prod.snd)
    | .set s => .set (order.set key s)
  expireAt := e.expireAt

/-- The entries the loops of `Snapshot` do not skip, in the order they meet them. -/
def liveEntries (now : Time) (order : RangeOrder) (db : DB) : List (Bytes × Entry) :=
  (List.finRange shardCount).flatMap fun i =>
    (order.shard i (db.shards i)).filter fun p => !p.2.expired now

/-- `Snapshot` -/
def snapshot (now : Time) (order : RangeOrder) (db : DB) : List SnapshotEntry :=
  (db.liveEntries now order).map fun p => snapshotEntry order p.1 p.2

variable {P : Entry → Prop} {now : Time} {order : RangeOrder} {db : DB}

theorem mem_liveEntries (h : db.Holds P) (key : Bytes) (e : Entry) :
    (key, e) ∈ db.liveEntries now order ↔ db.keyspace now key = some e := by
  simp only [liveEntries, List.mem_flatMap, List.mem_finRange, true_and, List.mem_filter,
    Bool.not_eq_true', keyspace, Shard.peek_eq_some, (order.shard_lists _ _).mem_iff]
  constructor
  · rintro ⟨i, hl, hx⟩
    rw [← h.routed i key e hl] at hl
    exact ⟨hl, hx⟩
  · exact fun ⟨hl, hx⟩ => ⟨shardIndex key, hl, hx⟩

theorem nodup_liveEntries (h : db.Holds P) :
    ((db.liveEntries now order).map Prod.fst).Nodup := by
  rw [liveEntries, List.map_flatMap, List.nodup_flatMap]
  refine ⟨fun i _ => ?_, (List.nodup_finRange _).imp fun {i j} hij => ?_⟩
  · exact (order.shard_lists i _).nodup.sublist (List.filter_sublist.map _)
  · -- a key of two shards would be routed to both
    intro key hi hj
    obtain ⟨p, hp, rfl⟩ := List.mem_map.1 hi
    obtain ⟨q, hq, hpq⟩ := List.mem_map.1 hj
    have hp' := ((order.shard_lists i _).mem_iff p.1 p.2).1 (List.mem_filter.1 hp).1
    have hq' := ((order.shard_lists j _).mem_iff q.1 q.2).1 (List.mem_filter.1 hq).1
    rw [hpq] at hq'
    exact hij ((h.routed i p.1 p.2 hp').symm.trans (h.routed j p.1 q.2 hq'))

end DB

end MiniRedis.Store
