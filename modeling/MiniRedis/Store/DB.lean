import MiniRedis.Store.Broker
import MiniRedis.Store.Shard

/-!
# Store — DB

The keyed methods of the store (`internal/db/db.go` and `internal/db/expiry.go`), each resolving
its key's shard and running under that shard's lock.  A method is a function of the store and of
the clock readings it takes; where the source reads the clock twice for a key, so does the model
(`t₁`, `t₂`).  `Del` and `Exists` read it once for each of their keys; `del` and `exists` take one
reading for all of them.

Go fixes no order for ranging over a map.  The methods that return what they ranged over take it
from a `RangeOrder`, which answers for every map the program can range over with some list of
its entries.
-/

namespace MiniRedis.Store

open Maps

/-- The orders the runtime chooses when ranging over the maps of one store: a shard's, the hash
or the set of a key. -/
structure RangeOrder where
  shard : Fin shardCount → Shard → List (Bytes × Entry)
  hash : Bytes → Dict Bytes Bytes → List (Bytes × Bytes)
  set : Bytes → Finset Bytes → List Bytes
  shard_lists : ∀ i sh, Lists (shard i sh) sh
  hash_lists : ∀ key m, Lists (hash key m) m
  set_lists : ∀ key s, ListsSet (set key s) s

/-- Every map ranged over in the order of its keys. -/
def RangeOrder.sorted : RangeOrder where
  shard _ sh := Maps.sorted (· ≤ ·) sh
  hash _ m := Maps.sorted (· ≤ ·) m
  set _ s := s.sort (· ≤ ·)
  shard_lists _ sh := lists_sorted _ sh
  hash_lists _ m := lists_sorted _ m
  set_lists _ s := listsSet_sort _ s

/-- The store: the sharded keyspace and the message bus. -/
structure DB where
  shards : Fin shardCount → Shard
  pubsub : Broker

/-- A method's outcome: what it answers, or the store's error. -/
abbrev Outcome (α : Type) := Except StoreError α

/-- The result of saturating subtraction of times, as `time.Until` reports it. -/
def untilAt (deadline now : Time) : Duration :=
  Int64.ofInt (max (-2 ^ 63) (min (deadline - now) (2 ^ 63 - 1)))

theorem toInt_untilAt (deadline now : Time) :
    (untilAt deadline now).toInt = max (-2 ^ 63) (min (deadline - now) (2 ^ 63 - 1)) :=
  Int64.toInt_ofInt_of_le (le_max_left _ _) (by omega)

namespace DB

variable {α : Type}

/-- `New` -/
def new : DB := ⟨fun _ => ∅, Broker.new⟩

/-- The shard that holds the key. -/
def shardFor (db : DB) (key : Bytes) : Shard := db.shards (shardIndex key)

/-- Run `body` on the shard of `key`, under its lock. -/
def locked (key : Bytes) (body : Shard → Shard × α) (db : DB) : DB × α :=
  let (sh, a) := body (db.shardFor key)
  ({ db with shards := Function.update db.shards (shardIndex key) sh }, a)

theorem shards_locked (key : Bytes) (body : Shard → Shard × α) (db : DB) (i : Fin shardCount) :
    (db.locked key body).1.shards i =
      if i = shardIndex key then (body (db.shardFor key)).1 else db.shards i := by
  simp [locked, Function.update_apply]

/-! ### Strings and keys -/

/-- `expireIfNeeded`: the write-locked re-check behind a read that met an expired entry. -/
def expireIfNeeded (now : Time) (key : Bytes) : DB → DB × Bool :=
  locked key fun sh =>
    match sh.lookup key with
    | none => (sh, false)
    | some e => if e.expired now then (sh.erase key, true) else (sh, false)

/-- `Get`.  The value is read under the read lock at one clock reading; an entry that is due is
dropped under the write lock at another. -/
def get (t₁ t₂ : Time) (key : Bytes) (db : DB) : DB × Outcome (Option Bytes) :=
  match (db.shardFor key).lookup key with
  | none => (db, .ok none)
  | some e =>
      if e.expired t₁ then ((expireIfNeeded t₂ key db).1, .ok none)
      else
        match kindString.unwrap e.payload with
        | none => (db, .error .wrongType)
        | some value => (db, .ok (some value))

/-- `Set`, which drops the deadline with the old value. -/
def set (key value : Bytes) (db : DB) : DB × Unit :=
  locked key (fun sh => (sh.insert key ⟨.str value, none⟩, ())) db

/-- One turn of the loop of `Del`. -/
def delOne (now : Time) (key : Bytes) : DB → DB × Nat :=
  locked key fun sh =>
    match Shard.liveEntry now key sh with
    | (sh, some _) => (sh.erase key, 1)
    | (sh, none) => (sh, 0)

/-- `Del`, key by key: each shard is locked for its own key only. -/
def del (now : Time) : List Bytes → DB → DB × Nat
  | [], db => (db, 0)
  | key :: keys, db =>
      let (db, n) := delOne now key db
      let (db, m) := del now keys db
      (db, n + m)

/-- `Exists`, which counts a key as often as it is named and drops nothing. -/
def «exists» (now : Time) (keys : List Bytes) (db : DB) : Nat :=
  (keys.filter fun key => (Shard.peek now key (db.shardFor key)).isSome).length

/-! ### Lists -/

/-- `LPush`.  Each value goes to the front, so the last of them ends up first. -/
def lPush (now : Time) (key : Bytes) (values : List Bytes) : DB → DB × Outcome Nat :=
  locked key <| Shard.fill now key kindList fun l =>
    let l' := values.reverse ++ l
    (l', l'.length)

/-- `RPush` -/
def rPush (now : Time) (key : Bytes) (values : List Bytes) : DB → DB × Outcome Nat :=
  locked key <| Shard.fill now key kindList fun l =>
    let l' := l ++ values
    (l', l'.length)

/-- `LPop`.  The key goes with the last element. -/
def lPop (now : Time) (key : Bytes) : DB → DB × Outcome (Option Bytes) :=
  locked key <| Shard.take now key kindList none fun
    | [] => none
    | v :: l => some (l, some v)

/-- `RPop`.  The key goes with the last element. -/
def rPop (now : Time) (key : Bytes) : DB → DB × Outcome (Option Bytes) :=
  locked key <| Shard.take now key kindList none fun l =>
    l.getLast?.map fun v => (l.dropLast, some v)

/-- `LLen` -/
def lLen (now : Time) (key : Bytes) (db : DB) : Outcome Nat :=
  Shard.read now key kindList 0 List.length (db.shardFor key)

/-- `normalizeRange`: the inclusive bounds of a range over `n` elements, or none. -/
def normalizeRange (start stop n : Int64) : Option (Int64 × Int64) :=
  let start := if start < 0 then start + n else start
  let stop := if stop < 0 then stop + n else stop
  let start := if start < 0 then 0 else start
  let stop := if stop ≥ n then n - 1 else stop
  if n = 0 ∨ start > stop ∨ start ≥ n then none else some (start, stop)

/-- `LRange`, from `start` to `stop`, both included. -/
def lRange (now : Time) (key : Bytes) (start stop : Int64) (db : DB) : Outcome (List Bytes) :=
  Shard.read now key kindList []
    (fun l =>
      match normalizeRange start stop (Int64.ofNat l.length) with
      | none => []
      | some (lo, hi) =>
          (l.drop lo.toNatClampNeg).take (hi.toNatClampNeg + 1 - lo.toNatClampNeg))
    (db.shardFor key)

/-! ### Hashes -/

/-- `HSet`, which returns the number of fields that are new. -/
def hSet (now : Time) (key : Bytes) (fields values : List Bytes) : DB → DB × Outcome Nat :=
  locked key <| Shard.fill now key kindHash fun m => putAll m (fields.zip values)

/-- `HGet` -/
def hGet (now : Time) (key field : Bytes) (db : DB) : Outcome (Option Bytes) :=
  Shard.read now key kindHash none (fun m => m.lookup field) (db.shardFor key)

/-- `HDel`, which returns the number of fields that were there.  The key goes with the last field.
-/
def hDel (now : Time) (key : Bytes) (fields : List Bytes) : DB → DB × Outcome Nat :=
  locked key <| Shard.take now key kindHash 0 fun m => some (dropAll m fields)

/-- `HGetAll`: the fields and their values, side by side. -/
def hGetAll (now : Time) (order : RangeOrder) (key : Bytes) (db : DB) :
    Outcome (List Bytes × List Bytes) :=
  Shard.read now key kindHash ([], []) (fun m => (order.hash key m).unzip) (db.shardFor key)

/-- `HKeys` -/
def hKeys (now : Time) (order : RangeOrder) (key : Bytes) (db : DB) : Outcome (List Bytes) :=
  Shard.read now key kindHash [] (fun m => (order.hash key m).map Prod.fst) (db.shardFor key)

/-- `HVals` -/
def hVals (now : Time) (order : RangeOrder) (key : Bytes) (db : DB) : Outcome (List Bytes) :=
  Shard.read now key kindHash [] (fun m => (order.hash key m).map Prod.snd) (db.shardFor key)

/-- `HLen` -/
def hLen (now : Time) (key : Bytes) (db : DB) : Outcome Nat :=
  Shard.read now key kindHash 0 size (db.shardFor key)

/-! ### Sets -/

/-- `SAdd`, which returns the number of members that are new. -/
def sAdd (now : Time) (key : Bytes) (members : List Bytes) : DB → DB × Outcome Nat :=
  locked key <| Shard.fill now key kindSet fun s => addAll s members

/-- `SRem`, which returns the number of members that were there.  The key goes with the last member.
-/
def sRem (now : Time) (key : Bytes) (members : List Bytes) : DB → DB × Outcome Nat :=
  locked key <| Shard.take now key kindSet 0 fun s => some (remAll s members)

/-- `SIsMember` -/
def sIsMember (now : Time) (key member : Bytes) (db : DB) : Outcome Bool :=
  Shard.read now key kindSet false (fun s => decide (member ∈ s)) (db.shardFor key)

/-- `SMembers` -/
def sMembers (now : Time) (order : RangeOrder) (key : Bytes) (db : DB) : Outcome (List Bytes) :=
  Shard.read now key kindSet [] (fun s => order.set key s) (db.shardFor key)

/-- `SCard` -/
def sCard (now : Time) (key : Bytes) (db : DB) : Outcome Nat :=
  Shard.read now key kindSet 0 Finset.card (db.shardFor key)

/-! ### Deadlines -/

/-- `Expire`: a duration that is not positive deletes the key. -/
def expire (t₁ t₂ : Time) (key : Bytes) (d : Duration) : DB → DB × Bool :=
  locked key fun sh =>
    match Shard.liveEntry t₁ key sh with
    | (sh, none) => (sh, false)
    | (sh, some e) =>
        if d ≤ 0 then (sh.erase key, true)
        else (sh.insert key { e with expireAt := some (t₂ + d.toInt) }, true)

/-- `Persist`, which reports whether there was a deadline to clear. -/
def persist (now : Time) (key : Bytes) : DB → DB × Bool :=
  locked key fun sh =>
    match Shard.liveEntry now key sh with
    | (sh, none) => (sh, false)
    | (sh, some e) =>
        match e.expireAt with
        | none => (sh, false)
        | some _ => (sh.insert key { e with expireAt := none }, true)

/-- `TTL`: the remaining time, whether the key exists, whether it has a deadline. -/
def ttl (t₁ t₂ : Time) (key : Bytes) (db : DB) : Duration × Bool × Bool :=
  match Shard.peek t₁ key (db.shardFor key) with
  | none => (0, false, false)
  | some e =>
      match e.expireAt with
      | none => (0, true, false)
      | some deadline => (untilAt deadline t₂, true, true)

end DB

end MiniRedis.Store
