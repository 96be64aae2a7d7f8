import MiniRedis.Reference.Cell

/-!
# Reference — Store

The reference store: one flat map from keys to cells, in which an entry is gone at the instant
its deadline is reached.  Its calls test no deadline; `purge` is what the passage of time does.

* `abs_call`: **every call of the sharded store is the same call of the reference store** on the
  live entries, with the same answer.
* `abs_later`: letting time pass is purging.
* `call_read`, `call_failed`: a call that only reads, or that comes back with the store's error,
  leaves the keyspace as it was.
-/

namespace MiniRedis

/-- The logical keyspace: what every key maps to, expired entries left out. -/
abbrev Keyspace := Bytes → Reference.Cell

namespace Reference

open Store

/-- The reference store. -/
@[ext] structure RefStore where
  keys : Keyspace
  pubsub : Broker

namespace RefStore

variable {α : Type}

/-- Apply a cell function at one key. -/
def onKey (key : Bytes) (f : Cell → Cell × α) (s : RefStore) : RefStore × α :=
  ({ s with keys := Function.update s.keys key (f (s.keys key)).1 }, (f (s.keys key)).2)

/-- `Del`, key by key. -/
def del : List Bytes → RefStore → RefStore × Nat
  | [], s => (s, 0)
  | key :: keys, s =>
      let (s, n) := s.onKey key Cell.del
      let (s, m) := del keys s
      (s, n + m)

/-- The calls, on cells. -/
def call (now : Time) (order : RangeOrder) : (c : Call) → RefStore → RefStore × c.Result
  | .get key, s => (s, Cell.read kindString none some (s.keys key))
  | .set key value, s => s.onKey key (Cell.set value)
  | .del keys, s => s.del keys
  | .exists keys, s => (s, (keys.filter fun key => (s.keys key).isSome).length)
  | .lPush key values, s =>
      s.onKey key <| Cell.fill kindList fun l => (values.reverse ++ l, (values.reverse ++ l).length)
  | .rPush key values, s =>
      s.onKey key <| Cell.fill kindList fun l => (l ++ values, (l ++ values).length)
  | .lPop key, s =>
      s.onKey key <| Cell.take kindList none fun
        | [] => none
        | v :: l => some (l, some v)
  | .rPop key, s =>
      s.onKey key <| Cell.take kindList none fun l =>
        l.getLast?.map fun v => (l.dropLast, some v)
  | .lLen key, s => (s, Cell.read kindList 0 List.length (s.keys key))
  | .lRange key start stop, s =>
      (s, Cell.read kindList []
        (fun l =>
          match DB.normalizeRange start stop (Int64.ofNat l.length) with
          | none => []
          | some (lo, hi) =>
              (l.drop lo.toNatClampNeg).take (hi.toNatClampNeg + 1 - lo.toNatClampNeg))
        (s.keys key))
  | .hSet key fields values, s =>
      s.onKey key <| Cell.fill kindHash fun m => Maps.putAll m (fields.zip values)
  | .hGet key field, s => (s, Cell.read kindHash none (fun m => m.lookup field) (s.keys key))
  | .hDel key fields, s =>
      s.onKey key <| Cell.take kindHash 0 fun m => some (Maps.dropAll m fields)
  | .hGetAll key, s =>
      (s, Cell.read kindHash ([], []) (fun m => (order.hash key m).unzip) (s.keys key))
  | .hKeys key, s =>
      (s, Cell.read kindHash [] (fun m => (order.hash key m).map Prod.fst) (s.keys key))
  | .hVals key, s =>
      (s, Cell.read kindHash [] (fun m => (order.hash key m).map Prod.snd) (s.keys key))
  | .hLen key, s => (s, Cell.read kindHash 0 Maps.size (s.keys key))
  | .sAdd key members, s => s.onKey key <| Cell.fill kindSet fun t => Maps.addAll t members
  | .sRem key members, s =>
      s.onKey key <| Cell.take kindSet 0 fun t => some (Maps.remAll t members)
  | .sIsMember key member, s =>
      (s, Cell.read kindSet false (fun t => decide (member ∈ t)) (s.keys key))
  | .sMembers key, s => (s, Cell.read kindSet [] (fun t => order.set key t) (s.keys key))
  | .sCard key, s => (s, Cell.read kindSet 0 Finset.card (s.keys key))
  | .expire key d, s => s.onKey key (Cell.expire now d)
  | .persist key, s => s.onKey key Cell.persist
  | .ttl key, s => (s, Cell.ttl now (s.keys key))
  | .publish channel payload, s =>
      let (b, n) := s.pubsub.publish channel payload
      ({ s with pubsub := b }, n)

/-- Time reaches `now`: every entry whose deadline has come is gone. -/
def purge (now : Time) (s : RefStore) : RefStore :=
  { s with keys := fun key => (s.keys key).filter fun e => !e.expired now }

end RefStore

end Reference

/-! ### The sharded store, seen without its expired entries -/

namespace Store.DB

open Reference

/-- The logical keyspace of a store at a clock reading. -/
def keyspace (now : Time) (db : DB) : Keyspace := fun key => Shard.peek now key (db.shardFor key)

/-- A store as a reference store. -/
def abs (now : Time) (db : DB) : RefStore := ⟨db.keyspace now, db.pubsub⟩

variable {α : Type} {now : Time} {key : Bytes}

/-- Writing one shard changes what the other keys of that shard see only through the body. -/
theorem shardFor_locked (body : Shard → Shard × α) (db : DB) (k : Bytes) :
    (db.locked key body).1.shardFor k =
      if shardIndex k = shardIndex key then (body (db.shardFor key)).1 else db.shardFor k :=
  shards_locked key body db (shardIndex k)

/-- A method on the keyspace is the method on the cell of its key. -/
theorem keyspace_locked {body : Shard → Shard × α} {cell : Cell → Cell × α}
    (h : Acts now key body cell) (db : DB) :
    (db.locked key body).1.keyspace now =
      Function.update (db.keyspace now) key (cell (db.keyspace now key)).1 := by
  funext k
  unfold keyspace
  rw [shardFor_locked]
  by_cases hk : k = key
  · subst hk
    simp [h.peek]
  · rw [Function.update_of_ne hk]
    split
    case isTrue hi =>
      rw [Shard.peek_congr (h.frame (db.shardFor key) k hk)]
      simp only [shardFor, hi]
    case isFalse => rfl

/-- The same on the whole store, with what it returns. -/
theorem abs_locked {body : Shard → Shard × α} {cell : Cell → Cell × α}
    (h : Acts now key body cell) (db : DB) :
    (db.abs now).onKey key cell = ((db.locked key body).1.abs now, (db.locked key body).2) :=
  Prod.ext (RefStore.ext (keyspace_locked h db).symm rfl) (h.answer _).symm

/-- Deleting an entry that has expired is invisible. -/
theorem peek_erase_expired {sh : Shard} {e : Entry} (h : sh.lookup key = some e)
    (he : e.expired now = true) (k : Bytes) :
    Shard.peek now k (sh.erase key) = Shard.peek now k sh := by
  by_cases hk : k = key
  · subst hk
    simp [Shard.peek, h, he]
  · exact Shard.peek_congr (Finmap.lookup_erase_ne hk)

/-- An eviction does not show. -/
theorem keyspace_locked_of_peek {body : Shard → Shard × α}
    (h : ∀ sh k, Shard.peek now k (body sh).1 = Shard.peek now k sh) (db : DB) :
    (db.locked key body).1.keyspace now = db.keyspace now := by
  funext k
  unfold keyspace
  rw [shardFor_locked]
  split
  case isTrue hi => rw [h]; simp only [shardFor, hi]
  case isFalse => rfl

/-- The eviction behind a read is invisible from its clock reading on. -/
theorem keyspace_expireIfNeeded {t : Time} (h : t ≤ now) (db : DB) :
    (db.expireIfNeeded t key).1.keyspace now = db.keyspace now := by
  refine keyspace_locked_of_peek (fun sh k => ?_) db
  cases hl : sh.lookup key with
  | none => rfl
  | some e =>
      by_cases he : e.expired t
      · simp only [he, if_true]
        exact peek_erase_expired hl (Entry.expired_mono h he) k
      · simp [he]

theorem abs_get (db : DB) :
    (db.abs now, Cell.read kindString none some (db.keyspace now key)) =
      ((db.get now now key).1.abs now, (db.get now now key).2) := by
  unfold get keyspace Shard.peek
  cases hl : (db.shardFor key).lookup key with
  | none => rfl
  | some e =>
      by_cases he : e.expired now
      · simp only [he, if_true]
        exact Prod.ext (RefStore.ext (keyspace_expireIfNeeded le_rfl db).symm rfl) rfl
      · simp only [he, if_false, Bool.false_eq_true, Cell.read]
        cases kindString.unwrap e.payload <;> rfl

theorem abs_del (keys : List Bytes) (db : DB) :
    (db.abs now).del keys = ((db.del now keys).1.abs now, (db.del now keys).2) := by
  induction keys generalizing db with
  | nil => rfl
  | cons key keys ih =>
      have hone : (db.abs now).onKey key Cell.del =
          ((delOne now key db).1.abs now, (delOne now key db).2) := abs_locked delOne_acts db
      simp only [RefStore.del, hone, ih]
      rfl

/-- **Every call of the sharded store is the same call of the reference store on the live
entries.** -/
theorem abs_call (now : Time) (order : RangeOrder) (c : Call) (db : DB) :
    (db.abs now).call now order c =
      ((db.call now order c).1.abs now, (db.call now order c).2) := by
  cases c with
  | get key => exact abs_get db
  | set key value => exact abs_locked (set_acts value) db
  | del keys => exact abs_del keys db
  | lPush | rPush | hSet | sAdd => exact abs_locked (fill_acts _ _) db
  | lPop | rPop | hDel | sRem => exact abs_locked (take_acts _ _ _) db
  | lLen | lRange | hGet | hGetAll | hKeys | hVals | hLen | sIsMember | sMembers | sCard =>
      exact Prod.ext rfl (read_eq _ _ _ _).symm
  | expire key d => exact abs_locked (expire_acts d) db
  | persist key => exact abs_locked persist_acts db
  | «exists» | ttl | publish => rfl

/-- Letting time pass is purging. -/
theorem keyspace_later {t u : Time} (h : t ≤ u) (db : DB) (key : Bytes) :
    db.keyspace u key = (db.keyspace t key).filter fun e => !e.expired u :=
  Shard.peek_later h _

/-- Time passes on the keyspace alone. -/
theorem abs_later {t u : Time} (h : t ≤ u) (db : DB) : db.abs u = (db.abs t).purge u :=
  RefStore.ext (funext (keyspace_later h db)) rfl

end Store.DB

/-! ### What a call leaves alone -/

namespace Reference.RefStore

open Store

variable {now : Time} {order : RangeOrder}

/-- A call that is not a write leaves the keyspace as it was. -/
theorem call_read (c : Call) (h : c.isWrite = false) (s : RefStore) :
    (s.call now order c).1.keys = s.keys := by
  cases c <;> first | rfl | cases h

theorem onKey_of_same {α : Type} {key : Bytes} {f : Cell → Cell × α} {s : RefStore}
    (h : (f (s.keys key)).1 = s.keys key) : (s.onKey key f).1.keys = s.keys := by
  simp [onKey, h]

/-- A call that comes back with the store's error leaves the keyspace as it was. -/
theorem call_failed (c : Call) (s : RefStore) (h : c.failed (s.call now order c).2 = true) :
    (s.call now order c).1.keys = s.keys := by
  cases c with
  | lPush | rPush | hSet | sAdd => exact onKey_of_same (Cell.fill_failed _ _ _ h)
  | lPop | rPop | hDel | sRem => exact onKey_of_same (Cell.take_failed _ _ _ _ h)
  | set | del | expire | persist => cases h
  | get | «exists» | lLen | lRange | hGet | hGetAll | hKeys | hVals | hLen | sIsMember
  | sMembers | sCard | ttl | publish => rfl

end Reference.RefStore

end MiniRedis
