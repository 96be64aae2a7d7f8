import MiniRedis.Reference.Transparency

/-!
# Store — Raw

The store over entries as the source lays them out (`internal/db/entry.go`): a `kind` tag beside
four fields, of which a method reads and writes in place the one that goes with its own kind.
Nothing in the type relates the tag to the fields, or forbids an empty collection.
-/

namespace MiniRedis.Store

open Maps

namespace Raw

/-- `kind` -/
inductive Tag where
  | string | list | hash | set
deriving DecidableEq

/-- `Entry`: `none` is a nil slice or a nil map, and the zero time.  Of a list the source asks
nothing that tells a nil slice from an empty one. -/
structure Entry where
  kind : Tag
  str : Option Bytes
  list : List Bytes
  hash : Option (Dict Bytes Bytes)
  set : Option (Finset Bytes)
  expireAt : Option Time
deriving DecidableEq

/-- `&Entry{kind: kind}` -/
def Entry.zero (kind : Tag) : Entry := ⟨kind, none, [], none, none, none⟩

/-- Whether the deadline, if any, has come. -/
def Entry.expired (e : Entry) (t : Time) : Bool :=
  match e.expireAt with
  | none => false
  | some d => !(t < d)

/-- A collection kind with its field: the entry that is created on demand, and how the field is
read and written in place.  A map that was never made is left nil. -/
structure Field (β : Type) where
  tag : Tag
  created : Entry
  read : Entry → β
  write : β → Entry → Entry
  empty : β

/-- The `list` field. -/
def fieldList : Field (List Bytes) where
  tag := .list
  created := .zero .list
  read := Entry.list
  write l e := { e with list := l }
  empty := []

/-- The `hash` field, made with the entry. -/
def fieldHash : Field (Dict Bytes Bytes) where
  tag := .hash
  created := { Entry.zero .hash with hash := some ∅ }
  read e := e.hash.getD ∅
  write m e := { e with hash := e.hash.map fun _ => m }
  empty := ∅

/-- The `set` field, made with the entry. -/
def fieldSet : Field (Finset Bytes) where
  tag := .set
  created := { Entry.zero .set with set := some ∅ }
  read e := e.set.getD ∅
  write s e := { e with set := e.set.map fun _ => s }
  empty := ∅

/-- The map of one shard. -/
abbrev Shard := Dict Bytes Entry

namespace Shard

variable {α β : Type} (now : Time) (key : Bytes)

/-- The entry of the key if it is there and not due; nothing is dropped. -/
def peek (sh : Shard) : Option Entry :=
  match sh.lookup key with
  | none => none
  | some e => if e.expired now then none else some e

/-- `liveEntry`: the same, dropping an entry that is due. -/
def liveEntry (sh : Shard) : Shard × Option Entry :=
  match sh.lookup key with
  | none => (sh, none)
  | some e => if e.expired now then (sh.erase key, none) else (sh, some e)

/-- `listEntry`, `hashEntry` and `setEntry`. -/
def typedEntry (F : Field β) (create : Bool) (sh : Shard) :
    Shard × Except StoreError (Option Entry) :=
  match liveEntry now key sh with
  | (sh, none) => if create then (sh.insert key F.created, .ok (some F.created)) else (sh, .ok none)
  | (sh, some e) => if e.kind = F.tag then (sh, .ok (some e)) else (sh, .error .wrongType)

/-- A method that creates its key on demand and changes the collection. -/
def fill (F : Field β) (f : β → β × α) (sh : Shard) : Shard × Except StoreError α :=
  match typedEntry now key F true sh with
  | (sh, .error err) => (sh, .error err)
  | (sh, .ok found) =>
      let e := found.getD F.created
      (sh.insert key (F.write (f (F.read e)).1 e), .ok (f (F.read e)).2)

/-- A method that removes from a collection, and the key with its last element. -/
def take [DecidableEq β] (F : Field β) (absent : α) (f : β → Option (β × α)) (sh : Shard) :
    Shard × Except StoreError α :=
  match typedEntry now key F false sh with
  | (sh, .error err) => (sh, .error err)
  | (sh, .ok none) => (sh, .ok absent)
  | (sh, .ok (some e)) =>
      match f (F.read e) with
      | none => (sh, .ok absent)
      | some (b, a) =>
          if b = F.empty then (sh.erase key, .ok a) else (sh.insert key (F.write b e), .ok a)

/-- A method that only reads a collection. -/
def read (F : Field β) (absent : α) (f : β → α) (sh : Shard) : Except StoreError α :=
  match peek now key sh with
  | none => .ok absent
  | some e => if e.kind = F.tag then .ok (f (F.read e)) else .error .wrongType

end Shard

/-- The store over such entries. -/
structure DB where
  shards : Fin shardCount → Shard
  pubsub : Broker

namespace DB

variable {α : Type}

/-- `New` -/
def new : DB := ⟨fun _ => ∅, Broker.new⟩

/-- The shard that holds the key. -/
def shardFor (db : DB) (key : Bytes) : Shard := db.shards (shardIndex key)

/-- A method's body under the lock of its key's shard. -/
def locked (key : Bytes) (body : Shard → Shard × α) (db : DB) : DB × α :=
  let r := body (db.shardFor key)
  ({ db with shards := Function.update db.shards (shardIndex key) r.1 }, r.2)

/-- `expireIfNeeded` -/
def expireIfNeeded (now : Time) (key : Bytes) : DB → DB × Bool :=
  locked key fun sh =>
    match sh.lookup key with
    | none => (sh, false)
    | some e => if e.expired now then (sh.erase key, true) else (sh, false)

/-- `Get`: the value is the field `str` of an entry tagged as a string; a nil slice is empty. -/
def get (t₁ t₂ : Time) (key : Bytes) (db : DB) : DB × Outcome (Option Bytes) :=
  match (db.shardFor key).lookup key with
  | none => (db, .ok none)
  | some e =>
      if e.expired t₁ then ((expireIfNeeded t₂ key db).1, .ok none)
      else if e.kind = .string then (db, .ok (some (e.str.getD [])))
      else (db, .error .wrongType)

/-- `Set`, with the tag and the field of a string. -/
def set (key value : Bytes) : DB → DB × Unit :=
  locked key fun sh => (sh.insert key { Entry.zero .string with str := some value }, ())

/-- One key of a `Del`. -/
def delOne (now : Time) (key : Bytes) : DB → DB × Nat :=
  locked key fun sh =>
    match Shard.liveEntry now key sh with
    | (sh, some _) => (sh.erase key, 1)
    | (sh, none) => (sh, 0)

/-- `Del` -/
def del (now : Time) : List Bytes → DB → DB × Nat
  | [], db => (db, 0)
  | key :: keys, db =>
      let (db, n) := delOne now key db
      let (db, m) := del now keys db
      (db, n + m)

/-- `Expire`.  A duration that is not positive deletes the key. -/
def expire (t₁ t₂ : Time) (key : Bytes) (d : Duration) : DB → DB × Bool :=
  locked key fun sh =>
    match Shard.liveEntry t₁ key sh with
    | (sh, none) => (sh, false)
    | (sh, some e) =>
        if d ≤ 0 then (sh.erase key, true)
        else (sh.insert key { e with expireAt := some (t₂ + d.toInt) }, true)

/-- `Persist` -/
def persist (now : Time) (key : Bytes) : DB → DB × Bool :=
  locked key fun sh =>
    match Shard.liveEntry now key sh with
    | (sh, none) => (sh, false)
    | (sh, some e) =>
        match e.expireAt with
        | none => (sh, false)
        | some _ => (sh.insert key { e with expireAt := none }, true)

/-- `TTL` -/
def ttl (t₁ t₂ : Time) (key : Bytes) (db : DB) : Duration × Bool × Bool :=
  match Shard.peek t₁ key (db.shardFor key) with
  | none => (0, false, false)
  | some e =>
      match e.expireAt with
      | none => (0, true, false)
      | some deadline => (untilAt deadline t₂, true, true)

/-- The calls, over the layout. -/
def call (now : Time) (order : RangeOrder) : (c : Call) → DB → DB × c.Result
  | .get key, db => db.get now now key
  | .set key value, db => db.set key value
  | .del keys, db => db.del now keys
  | .exists keys, db =>
      (db, (keys.filter fun key => (Shard.peek now key (db.shardFor key)).isSome).length)
  | .lPush key values, db =>
      db.locked key <| Shard.fill now key fieldList fun l =>
        let l' := values.reverse ++ l
        (l', l'.length)
  | .rPush key values, db =>
      db.locked key <| Shard.fill now key fieldList fun l =>
        let l' := l ++ values
        (l', l'.length)
  | .lPop key, db =>
      db.locked key <| Shard.take now key fieldList none fun
        | [] => none
        | v :: l => some (l, some v)
  | .rPop key, db =>
      db.locked key <| Shard.take now key fieldList none fun l =>
        l.getLast?.map fun v => (l.dropLast, some v)
  | .lLen key, db => (db, Shard.read now key fieldList 0 List.length (db.shardFor key))
  | .lRange key start stop, db =>
      (db, Shard.read now key fieldList []
        (fun l =>
          match Store.DB.normalizeRange start stop (Int64.ofNat l.length) with
          | none => []
          | some (lo, hi) =>
              (l.drop lo.toNatClampNeg).take (hi.toNatClampNeg + 1 - lo.toNatClampNeg))
        (db.shardFor key))
  | .hSet key fields values, db =>
      db.locked key <| Shard.fill now key fieldHash fun m => putAll m (fields.zip values)
  | .hGet key field, db =>
      (db, Shard.read now key fieldHash none (fun m => m.lookup field) (db.shardFor key))
  | .hDel key fields, db =>
      db.locked key <| Shard.take now key fieldHash 0 fun m => some (dropAll m fields)
  | .hGetAll key, db =>
      (db, Shard.read now key fieldHash ([], []) (fun m => (order.hash key m).unzip)
        (db.shardFor key))
  | .hKeys key, db =>
      (db, Shard.read now key fieldHash [] (fun m => (order.hash key m).map Prod.fst)
        (db.shardFor key))
  | .hVals key, db =>
      (db, Shard.read now key fieldHash [] (fun m => (order.hash key m).map Prod.snd)
        (db.shardFor key))
  | .hLen key, db => (db, Shard.read now key fieldHash 0 size (db.shardFor key))
  | .sAdd key members, db =>
      db.locked key <| Shard.fill now key fieldSet fun s => addAll s members
  | .sRem key members, db =>
      db.locked key <| Shard.take now key fieldSet 0 fun s => some (remAll s members)
  | .sIsMember key member, db =>
      (db, Shard.read now key fieldSet false (fun s => decide (member ∈ s)) (db.shardFor key))
  | .sMembers key, db =>
      (db, Shard.read now key fieldSet [] (fun s => order.set key s) (db.shardFor key))
  | .sCard key, db => (db, Shard.read now key fieldSet 0 Finset.card (db.shardFor key))
  | .expire key d, db => db.expire now now key d
  | .persist key, db => db.persist now key
  | .ttl key, db => (db, db.ttl now now key)
  | .publish channel payload, db =>
      let (b, n) := db.pubsub.publish channel payload
      ({ db with pubsub := b }, n)

/-- The order in which a pass of the reaper ranges over each shard's map. -/
structure Walk where
  shard : Fin shardCount → Shard → List (Bytes × Entry)
  lists : ∀ i sh, Lists (shard i sh) sh

/-- A pass over the entries of one shard, until the sample is full. -/
def reapShard (now : Time) : List (Bytes × Entry) → Shard → Nat → Nat → Shard × Nat × Nat
  | [], sh, sampled, expired => (sh, sampled, expired)
  | (key, e) :: rest, sh, sampled, expired =>
      match e.expireAt with
      | none => reapShard now rest sh sampled expired
      | some _ =>
          let (sh, expired) := if e.expired now then (sh.erase key, expired + 1) else (sh, expired)
          if activeExpirySample ≤ sampled + 1 then (sh, sampled + 1, expired)
          else reapShard now rest sh (sampled + 1) expired

/-- A pass over shards, until the sample is full. -/
def reapShards (now : Time) (walk : Walk) :
    List (Fin shardCount) → DB → Nat → Nat → DB × Nat × Nat
  | [], db, sampled, expired => (db, sampled, expired)
  | i :: is, db, sampled, expired =>
      if sampled < activeExpirySample then
        let (sh, sampled, expired) :=
          reapShard now (walk.shard i (db.shards i)) (db.shards i) sampled expired
        reapShards now walk is { db with shards := Function.update db.shards i sh } sampled expired
      else (db, sampled, expired)

/-- `activeExpiryPass`, from a random shard on; it reports whether more than a quarter of the sample
was due. -/
def activeExpiryPass (now : Time) (start : Fin shardCount) (walk : Walk) (db : DB) : DB × Bool :=
  let (db, sampled, expired) := reapShards now walk (Store.DB.walkFrom start) db 0 0
  (db, decide (0 < sampled ∧ sampled < 4 * expired))

/-- `Dispatch` over this store. -/
def dispatch (now : Time) (order : RangeOrder) (request : Protocol.Value) (db : DB) :
    DB × Protocol.Value :=
  Cmd.dispatch (DB.call now order) request db

end DB

end Raw

end MiniRedis.Store
