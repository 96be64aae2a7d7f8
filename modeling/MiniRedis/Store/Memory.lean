import MiniRedis.Store.Call
import MiniRedis.Support.Slices

/-!
# Store — Memory

The store over memory as Go lays it out.  A value is a slice into an array of bytes, and a list is
a slice into an array of such slices; keys, fields and members are strings, which do not change.
Arguments are slices of the caller's.  A method copies what it stores (`cloneBytes`), but what it
returns looks into the arrays of the store.

A list is appended to in place while its array has room, and popped by making the slice smaller, so
an array is written again at places it was read from before.
-/

namespace MiniRedis.Store.Memory

open Maps Slices

/-- Who allocates an array: a caller, or the store for what it keeps or for what it returns. -/
inductive Site where
  | caller | store | reply
deriving DecidableEq

/-- A slice, with the site of the array it looks into. -/
abbrev Ref := Slice Site

instance : Inhabited Ref := ⟨.nil .store⟩

/-- The arrays of bytes, and the arrays of byte slices. -/
structure Heap where
  bytes : Mem Site UInt8
  tables : Mem Site Ref

namespace Heap

/-- What a byte slice shows. -/
def text (b : Ref) (h : Heap) : Bytes := h.bytes.read b

/-- What a slice of byte slices shows. -/
def texts (l : Ref) (h : Heap) : List Bytes := (h.tables.read l).map fun b => h.text b

/-- `[]byte(s)` -/
def newBytes (site : Site) (s : Bytes) (h : Heap) : Heap × Ref :=
  ({ h with bytes := (h.bytes.alloc site s s.length).1 }, (h.bytes.alloc site s s.length).2)

/-- `cloneBytes`: an array of the store's own with the same bytes. -/
def cloneBytes (b : Ref) (h : Heap) : Heap × Ref := h.newBytes .store (h.text b)

/-- `make([][]byte, 0, n)` -/
def make (site : Site) (n : Nat) (h : Heap) : Heap × Ref :=
  ({ h with tables := (h.tables.alloc site [] n).1 }, (h.tables.alloc site [] n).2)

/-- `append(l, items...)` -/
def append (grow : Mem.Growth) (site : Site) (l : Ref) (items : List Ref) (h : Heap) :
    Heap × Ref :=
  ({ h with tables := (h.tables.append grow site l items).1 },
    (h.tables.append grow site l items).2)

/-- A loop that appends an item for each element. -/
def appendEach {β : Type} (grow : Mem.Growth) (site : Site) (item : β → Heap → Heap × Ref) :
    List β → Ref → Heap → Heap × Ref
  | [], l, h => (h, l)
  | x :: xs, l, h =>
      let i := item x h
      let r := i.1.append grow site l [i.2]
      appendEach grow site item xs r.2 r.1

/-- The loop of `HSet`. -/
def putClones : Dict Bytes Ref → List (Ref × Ref) → Heap → Heap × Dict Bytes Ref × Nat
  | m, [], h => (h, m, 0)
  | m, (f, v) :: l, h =>
      let name := h.text f
      let c := h.cloneBytes v
      let r := putClones (m.insert name c.2) l c.1
      (r.1, r.2.1, (if name ∈ m then 0 else 1) + r.2.2)

/-- The loop of `HGetAll`. -/
def appendBoth (grow : Mem.Growth) :
    List (Bytes × Ref) → Ref → Ref → Heap → Heap × Ref × Ref
  | [], fields, values, h => (h, fields, values)
  | (f, v) :: l, fields, values, h =>
      let c := h.newBytes .reply f
      let fs := c.1.append grow .reply fields [c.2]
      let vs := fs.1.append grow .reply values [v]
      appendBoth grow l fs.2 vs.2 vs.1

/-- A slice with an item for each of the elements, made for `n` of them. -/
def collect {β : Type} (grow : Mem.Growth) (item : β → Heap → Heap × Ref) (l : List β) (n : Nat)
    (h : Heap) : Heap × Ref :=
  let p := h.make .reply n
  p.1.appendEach grow .reply item l p.2

/-- The body of `LPush`, on a list. -/
def lPush (grow : Mem.Growth) (values l : Ref) (h : Heap) : Heap × Ref × Nat :=
  let p := h.make .store values.len
  let q := p.1.appendEach grow .store cloneBytes (h.tables.read values).reverse p.2
  let r := q.1.append grow .store q.2 (q.1.tables.read l)
  (r.1, r.2, r.2.len)

/-- The body of `RPush`. -/
def rPush (grow : Mem.Growth) (values l : Ref) (h : Heap) : Heap × Ref × Nat :=
  let r := h.appendEach grow .store cloneBytes (h.tables.read values) l
  (r.1, r.2, r.2.len)

/-- The body of `LPop`. -/
def lPop (h : Heap) (l : Ref) : Option (Ref × Option Ref) :=
  if l.len = 0 then none else some (l.tail, some (h.tables.get l 0))

/-- The body of `RPop`. -/
def rPop (h : Heap) (l : Ref) : Option (Ref × Option Ref) :=
  if l.len = 0 then none else some (l.dropLast, some (h.tables.get l (l.len - 1)))

/-- The body of `LRange`. -/
def lRange (grow : Mem.Growth) (start stop : Int64) (l : Ref) (h : Heap) : Heap × Ref :=
  match Store.DB.normalizeRange start stop (Int64.ofNat l.len) with
  | none => (h, .nil .reply)
  | some (lo, hi) =>
      let n := hi.toNatClampNeg + 1 - lo.toNatClampNeg
      h.collect grow (fun i h => (h, h.tables.get l i)) (List.range' lo.toNatClampNeg n) n

/-- The body of `HSet`, on a hash. -/
def hSet (fields values : Ref) (m : Dict Bytes Ref) (h : Heap) : Heap × Dict Bytes Ref × Nat :=
  h.putClones m ((h.tables.read fields).zip (h.tables.read values))

/-- The body of `HGetAll`, once the order of the fields is chosen. -/
def hGetAll (grow : Mem.Growth) (l : List (Bytes × Ref)) (n : Nat) (h : Heap) :
    Heap × Ref × Ref :=
  let fields := h.make .reply n
  let values := fields.1.make .reply n
  values.1.appendBoth grow l fields.2 values.2

end Heap

/-! ### Entries -/

/-- What an entry holds: slices where the source has them, and strings for fields and members. -/
inductive Payload where
  | str (value : Ref)
  | list (items : Ref)
  | hash (fields : Dict Bytes Ref)
  | set (members : Finset Bytes)

/-- `Entry` -/
structure Entry where
  payload : Payload
  expireAt : Option Time

/-- Whether the deadline, if any, has come. -/
def Entry.expired (e : Entry) (t : Time) : Bool :=
  match e.expireAt with
  | none => false
  | some d => !(t < d)

/-- A kind with its field of the entry; `isEmpty` is `len(...) == 0`. -/
structure Kind (β : Type) where
  wrap : β → Payload
  unwrap : Payload → Option β
  empty : β
  isEmpty : β → Bool
  unwrap_iff : ∀ p b, unwrap p = some b ↔ p = wrap b

/-- Lists: a slice of byte slices. -/
def kindList : Kind Ref where
  wrap := .list
  unwrap | .list l => some l | _ => none
  empty := .nil .store
  isEmpty l := l.len == 0
  unwrap_iff p b := by cases p <;> simp

/-- Hashes: a map from fields to byte slices. -/
def kindHash : Kind (Dict Bytes Ref) where
  wrap := .hash
  unwrap | .hash m => some m | _ => none
  empty := ∅
  isEmpty m := size m == 0
  unwrap_iff p b := by cases p <;> simp

/-- Sets: a map whose keys are the members. -/
def kindSet : Kind (Finset Bytes) where
  wrap := .set
  unwrap | .set s => some s | _ => none
  empty := ∅
  isEmpty s := s.card == 0
  unwrap_iff p b := by cases p <;> simp

/-! ### Shards -/

/-- The map of one shard. -/
abbrev Shard := Dict Bytes Entry

namespace Shard

variable {α β : Type} (now : Time) (key : Bytes)

/-- The entry of the key if it is there and not due; nothing is dropped. -/
def peek (sh : Shard) : Option Entry :=
  match sh.lookup key with
  | none => none
  | some e => if e.expired now then none else some e

/-- `liveEntry`: the same, dropping an entry that is due. -/
def liveEntry (sh : Shard) : Shard × Option Entry :=
  match sh.lookup key with
  | none => (sh, none)
  | some e => if e.expired now then (sh.erase key, none) else (sh, some e)

/-- `listEntry`, `hashEntry` and `setEntry`. -/
def typedEntry (K : Kind β) (create : Bool) (sh : Shard) :
    Shard × Except StoreError (Option (β × Option Time)) :=
  match liveEntry now key sh with
  | (sh, none) =>
      if create then (sh.insert key ⟨K.wrap K.empty, none⟩, .ok (some (K.empty, none)))
      else (sh, .ok none)
  | (sh, some e) =>
      match K.unwrap e.payload with
      | none => (sh, .error .wrongType)
      | some b => (sh, .ok (some (b, e.expireAt)))

/-- A method that creates the key on demand and then fills it. -/
def fill (K : Kind β) (f : β → Heap → Heap × β × α) (h : Heap) (sh : Shard) :
    Heap × Shard × Except StoreError α :=
  match typedEntry now key K true sh with
  | (sh, .error err) => (h, sh, .error err)
  | (sh, .ok found) =>
      let e := found.getD (K.empty, none)
      let r := f e.1 h
      (r.1, sh.insert key ⟨K.wrap r.2.1, e.2⟩, .ok r.2.2)

/-- A method that takes from an existing key, and deletes a key it has emptied. -/
def take (K : Kind β) (absent : α) (f : β → Option (β × α)) (sh : Shard) :
    Shard × Except StoreError α :=
  match typedEntry now key K false sh with
  | (sh, .error err) => (sh, .error err)
  | (sh, .ok none) => (sh, .ok absent)
  | (sh, .ok (some (b, deadline))) =>
      match f b with
      | none => (sh, .ok absent)
      | some (b', a) =>
          if K.isEmpty b' then (sh.erase key, .ok a)
          else (sh.insert key ⟨K.wrap b', deadline⟩, .ok a)

/-- A method that leaves the shard as it is. -/
def read (K : Kind β) (absent : α) (f : β → Heap → Heap × α) (h : Heap) (sh : Shard) :
    Heap × Except StoreError α :=
  match peek now key sh with
  | none => (h, .ok absent)
  | some e =>
      match K.unwrap e.payload with
      | none => (h, .error .wrongType)
      | some b => ((f b h).1, .ok (f b h).2)

/-- The body of `expireIfNeeded`. -/
def expireIfNeeded (sh : Shard) : Shard × Bool :=
  match sh.lookup key with
  | none => (sh, false)
  | some e => if e.expired now then (sh.erase key, true) else (sh, false)

/-- One turn of the loop of `Del`. -/
def delOne (sh : Shard) : Shard × Nat :=
  match liveEntry now key sh with
  | (sh, some _) => (sh.erase key, 1)
  | (sh, none) => (sh, 0)

/-- The body of `Expire`. -/
def expire (d : Duration) (sh : Shard) : Shard × Bool :=
  match liveEntry now key sh with
  | (sh, none) => (sh, false)
  | (sh, some e) =>
      if d ≤ 0 then (sh.erase key, true)
      else (sh.insert key { e with expireAt := some (now + d.toInt) }, true)

/-- The body of `Persist`. -/
def persist (sh : Shard) : Shard × Bool :=
  match liveEntry now key sh with
  | (sh, none) => (sh, false)
  | (sh, some e) =>
      match e.expireAt with
      | none => (sh, false)
      | some _ => (sh.insert key { e with expireAt := none }, true)

end Shard

/-! ### The store -/

/-- The orders the runtime chooses for the maps that are returned. -/
structure Order where
  hash : Bytes → Dict Bytes Ref → List (Bytes × Ref)
  set : Bytes → Finset Bytes → List Bytes
  hash_lists : ∀ key m, Lists (hash key m) m
  set_lists : ∀ key s, ListsSet (set key s) s

/-- The keyspace, and the memory that it shares with its callers. -/
structure DB where
  heap : Heap
  shards : Fin shardCount → Shard

namespace DB

variable {α : Type}

/-- The shard that holds the key. -/
def shardFor (db : DB) (key : Bytes) : Shard := db.shards (shardIndex key)

/-- A method's body under the lock of its key's shard, with the memory it writes to. -/
def locked (key : Bytes) (body : Heap → Shard → Heap × Shard × α) (db : DB) : DB × α :=
  let r := body db.heap (db.shardFor key)
  (⟨r.1, Function.update db.shards (shardIndex key) r.2.1⟩, r.2.2)

/-- Run `body` on the shard of `key`, under its read lock. -/
def shared (key : Bytes) (body : Heap → Shard → Heap × α) (db : DB) : DB × α :=
  let r := body db.heap (db.shardFor key)
  ({ db with heap := r.1 }, r.2)

variable (grow : Mem.Growth) (now : Time) (order : Order) (key : Bytes)

/-- `expireIfNeeded` -/
def expireIfNeeded : DB → DB × Bool :=
  locked key fun h sh => (h, Shard.expireIfNeeded now key sh)

/-- `Get`, which hands out the stored slice. -/
def get (db : DB) : DB × Outcome (Option Ref) :=
  match (db.shardFor key).lookup key with
  | none => (db, .ok none)
  | some e =>
      if e.expired now then ((expireIfNeeded now key db).1, .ok none)
      else
        match e.payload with
        | .str value => (db, .ok (some value))
        | _ => (db, .error .wrongType)

/-- `Set`, which stores a copy. -/
def set (value : Ref) : DB → DB × Unit :=
  locked key fun h sh =>
    let stored := h.cloneBytes value
    (stored.1, sh.insert key ⟨.str stored.2, none⟩, ())

/-- One key of a `Del`. -/
def delOne : DB → DB × Nat := locked key fun h sh => (h, Shard.delOne now key sh)

/-- `Del` -/
def del (now : Time) : List Bytes → DB → DB × Nat
  | [], db => (db, 0)
  | key :: keys, db =>
      let r := delOne now key db
      let s := del now keys r.1
      (s.1, r.2 + s.2)

/-- `Exists` -/
def «exists» (now : Time) (keys : List Bytes) (db : DB) : Nat :=
  (keys.filter fun key => (Shard.peek now key (db.shardFor key)).isSome).length

/-- `LPush` -/
def lPush (values : Ref) : DB → DB × Outcome Nat :=
  locked key <| Shard.fill now key kindList (Heap.lPush grow values)

/-- `RPush` -/
def rPush (values : Ref) : DB → DB × Outcome Nat :=
  locked key <| Shard.fill now key kindList (Heap.rPush grow values)

/-- `LPop`, which hands out the slice it takes from the list. -/
def lPop : DB → DB × Outcome (Option Ref) :=
  locked key fun h sh => (h, Shard.take now key kindList none h.lPop sh)

/-- `RPop`, which hands out the slice it takes from the list. -/
def rPop : DB → DB × Outcome (Option Ref) :=
  locked key fun h sh => (h, Shard.take now key kindList none h.rPop sh)

/-- `LLen` -/
def lLen : DB → DB × Outcome Nat :=
  shared key <| Shard.read now key kindList 0 fun l h => (h, l.len)

/-- `LRange`: a new array of slices, of which each looks into a stored value. -/
def lRange (start stop : Int64) : DB → DB × Outcome Ref :=
  shared key <| Shard.read now key kindList (.nil .reply) (Heap.lRange grow start stop)

/-- `HSet` -/
def hSet (fields values : Ref) : DB → DB × Outcome Nat :=
  locked key <| Shard.fill now key kindHash (Heap.hSet fields values)

/-- `HGet`, which hands out the stored slice. -/
def hGet (field : Bytes) : DB → DB × Outcome (Option Ref) :=
  shared key <| Shard.read now key kindHash none fun m h => (h, m.lookup field)

/-- `HDel` -/
def hDel (fields : List Bytes) : DB → DB × Outcome Nat :=
  locked key fun h sh => (h, Shard.take now key kindHash 0 (fun m => some (dropAll m fields)) sh)

/-- `HGetAll`: copies of the fields, and the stored values. -/
def hGetAll : DB → DB × Outcome (Ref × Ref) :=
  shared key <| Shard.read now key kindHash (.nil .reply, .nil .reply) fun m h =>
    h.hGetAll grow (order.hash key m) (size m)

/-- `HKeys`: copies of the fields. -/
def hKeys : DB → DB × Outcome Ref :=
  shared key <| Shard.read now key kindHash (.nil .reply) fun m h =>
    h.collect grow (fun e h => h.newBytes .reply e.1) (order.hash key m) (size m)

/-- `HVals`: the stored values. -/
def hVals : DB → DB × Outcome Ref :=
  shared key <| Shard.read now key kindHash (.nil .reply) fun m h =>
    h.collect grow (fun e h => (h, e.2)) (order.hash key m) (size m)

/-- `HLen` -/
def hLen : DB → DB × Outcome Nat :=
  shared key <| Shard.read now key kindHash 0 fun m h => (h, size m)

/-- `SAdd` -/
def sAdd (members : Ref) : DB → DB × Outcome Nat :=
  locked key <| Shard.fill now key kindSet fun s h => (h, addAll s (h.texts members))

/-- `SRem` -/
def sRem (members : Ref) : DB → DB × Outcome Nat :=
  locked key fun h sh =>
    (h, Shard.take now key kindSet 0 (fun s => some (remAll s (h.texts members))) sh)

/-- `SIsMember` -/
def sIsMember (member : Ref) : DB → DB × Outcome Bool :=
  shared key <| Shard.read now key kindSet false fun s h => (h, decide (h.text member ∈ s))

/-- `SMembers`: copies of the members. -/
def sMembers : DB → DB × Outcome Ref :=
  shared key <| Shard.read now key kindSet (.nil .reply) fun s h =>
    h.collect grow (fun m h => h.newBytes .reply m) (order.set key s) s.card

/-- `SCard` -/
def sCard : DB → DB × Outcome Nat :=
  shared key <| Shard.read now key kindSet 0 fun s h => (h, s.card)

/-- `Expire` -/
def expire (d : Duration) : DB → DB × Bool :=
  locked key fun h sh => (h, Shard.expire now key d sh)

/-- `Persist` -/
def persist : DB → DB × Bool := locked key fun h sh => (h, Shard.persist now key sh)

/-- `TTL` -/
def ttl (db : DB) : Duration × Bool × Bool :=
  match Shard.peek now key (db.shardFor key) with
  | none => (0, false, false)
  | some e =>
      match e.expireAt with
      | none => (0, true, false)
      | some deadline => (untilAt deadline now, true, true)

end DB

/-! ### Calls -/

/-- A call of a method, with its arguments as the caller has them in memory. -/
inductive Invocation where
  | get (key : Bytes)
  | set (key : Bytes) (value : Ref)
  | del (keys : List Bytes)
  | exists (keys : List Bytes)
  | lPush (key : Bytes) (values : Ref)
  | rPush (key : Bytes) (values : Ref)
  | lPop (key : Bytes)
  | rPop (key : Bytes)
  | lLen (key : Bytes)
  | lRange (key : Bytes) (start stop : Int64)
  | hSet (key : Bytes) (fields values : Ref)
  | hGet (key field : Bytes)
  | hDel (key : Bytes) (fields : List Bytes)
  | hGetAll (key : Bytes)
  | hKeys (key : Bytes)
  | hVals (key : Bytes)
  | hLen (key : Bytes)
  | sAdd (key : Bytes) (members : Ref)
  | sRem (key : Bytes) (members : Ref)
  | sIsMember (key : Bytes) (member : Ref)
  | sMembers (key : Bytes)
  | sCard (key : Bytes)
  | expire (key : Bytes) (d : Duration)
  | persist (key : Bytes)
  | ttl (key : Bytes)

/-- The call, with its arguments read. -/
def Invocation.call (h : Heap) : Invocation → Call
  | .get key => .get key
  | .set key value => .set key (h.text value)
  | .del keys => .del keys
  | .exists keys => .exists keys
  | .lPush key values => .lPush key (h.texts values)
  | .rPush key values => .rPush key (h.texts values)
  | .lPop key => .lPop key
  | .rPop key => .rPop key
  | .lLen key => .lLen key
  | .lRange key start stop => .lRange key start stop
  | .hSet key fields values => .hSet key (h.texts fields) (h.texts values)
  | .hGet key field => .hGet key field
  | .hDel key fields => .hDel key fields
  | .hGetAll key => .hGetAll key
  | .hKeys key => .hKeys key
  | .hVals key => .hVals key
  | .hLen key => .hLen key
  | .sAdd key members => .sAdd key (h.texts members)
  | .sRem key members => .sRem key (h.texts members)
  | .sIsMember key member => .sIsMember key (h.text member)
  | .sMembers key => .sMembers key
  | .sCard key => .sCard key
  | .expire key d => .expire key d
  | .persist key => .persist key
  | .ttl key => .ttl key

/-- What a method returns: slices, where the call's result has their contents. -/
abbrev Returned : Call → Type
  | .get _ | .lPop _ | .rPop _ | .hGet _ _ => Outcome (Option Ref)
  | .lRange _ _ _ | .hKeys _ | .hVals _ | .sMembers _ => Outcome Ref
  | .hGetAll _ => Outcome (Ref × Ref)
  | .set _ _ => Unit
  | .del _ | .exists _ | .publish _ _ => Nat
  | .lPush _ _ | .rPush _ _ | .lLen _ | .hSet _ _ _ | .hDel _ _ | .hLen _ | .sAdd _ _
  | .sRem _ _ | .sCard _ => Outcome Nat
  | .sIsMember _ _ => Outcome Bool
  | .expire _ _ | .persist _ => Bool
  | .ttl _ => Duration × Bool × Bool

/-- A method by its invocation. -/
def DB.invoke (grow : Mem.Growth) (now : Time) (order : Order) :
    (c : Invocation) → (db : DB) → DB × Returned (c.call db.heap)
  | .get key, db => db.get now key
  | .set key value, db => db.set key value
  | .del keys, db => db.del now keys
  | .exists keys, db => (db, db.exists now keys)
  | .lPush key values, db => db.lPush grow now key values
  | .rPush key values, db => db.rPush grow now key values
  | .lPop key, db => db.lPop now key
  | .rPop key, db => db.rPop now key
  | .lLen key, db => db.lLen now key
  | .lRange key start stop, db => db.lRange grow now key start stop
  | .hSet key fields values, db => db.hSet now key fields values
  | .hGet key field, db => db.hGet now key field
  | .hDel key fields, db => db.hDel now key fields
  | .hGetAll key, db => db.hGetAll grow now order key
  | .hKeys key, db => db.hKeys grow now order key
  | .hVals key, db => db.hVals grow now order key
  | .hLen key, db => db.hLen now key
  | .sAdd key members, db => db.sAdd now key members
  | .sRem key members, db => db.sRem now key members
  | .sIsMember key member, db => db.sIsMember now key member
  | .sMembers key, db => db.sMembers grow now order key
  | .sCard key, db => db.sCard now key
  | .expire key d, db => db.expire now key d
  | .persist key, db => db.persist now key
  | .ttl key, db => (db, db.ttl now key)

/-- What is returned, as it is read in the memory. -/
def Heap.result (h : Heap) : (c : Call) → Returned c → c.Result
  | .get _, r | .lPop _, r | .rPop _, r | .hGet _ _, r => r.map (Option.map fun b => h.text b)
  | .lRange _ _ _, r | .hKeys _, r | .hVals _, r | .sMembers _, r => r.map fun l => h.texts l
  | .hGetAll _, r => r.map fun p => (h.texts p.1, h.texts p.2)
  | .set _ _, r => r
  | .del _, r | .exists _, r | .publish _ _, r => r
  | .lPush _ _, r | .rPush _ _, r | .lLen _, r | .hSet _ _ _, r | .hDel _ _, r | .hLen _, r
  | .sAdd _ _, r | .sRem _ _, r | .sCard _, r => r
  | .sIsMember _ _, r => r
  | .expire _ _, r | .persist _, r => r
  | .ttl _, r => r

end MiniRedis.Store.Memory
