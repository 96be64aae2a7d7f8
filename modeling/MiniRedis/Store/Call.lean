import MiniRedis.Store.DB

/-!
# Store — Call

The store as one interface: a `Call` names a method with its arguments, `Call.Result` is what
the method returns, and `DB.call` runs it at one clock reading.  Every command handler makes at
most one call, so what the calls do to a store is all the commands can do.

`Call.isWrite` are the calls that may change the keyspace; `Call.failed` says that a call came
back with the store's error.
-/

namespace MiniRedis.Store

/-- Two outcomes of one kind whose answers are related. -/
def Outcome.Rel {α : Type} (R : α → α → Prop) : Outcome α → Outcome α → Prop
  | .ok a, .ok b => R a b
  | .error e, .error e' => e = e'
  | _, _ => False

/-- A call of a store method, with its arguments. -/
inductive Call where
  | get (key : Bytes)
  | set (key value : Bytes)
  | del (keys : List Bytes)
  | exists (keys : List Bytes)
  | lPush (key : Bytes) (values : List Bytes)
  | rPush (key : Bytes) (values : List Bytes)
  | lPop (key : Bytes)
  | rPop (key : Bytes)
  | lLen (key : Bytes)
  | lRange (key : Bytes) (start stop : Int64)
  | hSet (key : Bytes) (fields values : List Bytes)
  | hGet (key field : Bytes)
  | hDel (key : Bytes) (fields : List Bytes)
  | hGetAll (key : Bytes)
  | hKeys (key : Bytes)
  | hVals (key : Bytes)
  | hLen (key : Bytes)
  | sAdd (key : Bytes) (members : List Bytes)
  | sRem (key : Bytes) (members : List Bytes)
  | sIsMember (key member : Bytes)
  | sMembers (key : Bytes)
  | sCard (key : Bytes)
  | expire (key : Bytes) (d : Duration)
  | persist (key : Bytes)
  | ttl (key : Bytes)
  | publish (channel payload : Bytes)
deriving DecidableEq

namespace Call

/-- What a call returns. -/
abbrev Result : Call → Type
  | .get _ | .lPop _ | .rPop _ | .hGet _ _ => Outcome (Option Bytes)
  | .set _ _ => Unit
  | .del _ | .exists _ | .publish _ _ => Nat
  | .lPush _ _ | .rPush _ _ | .lLen _ | .hSet _ _ _ | .hDel _ _ | .hLen _ | .sAdd _ _
  | .sRem _ _ | .sCard _ => Outcome Nat
  | .lRange _ _ _ | .hKeys _ | .hVals _ | .sMembers _ => Outcome (List Bytes)
  | .hGetAll _ => Outcome (List Bytes × List Bytes)
  | .sIsMember _ _ => Outcome Bool
  | .expire _ _ | .persist _ => Bool
  | .ttl _ => Duration × Bool × Bool

/-- The calls that may change the keyspace. -/
def isWrite : Call → Bool
  | .set _ _ | .del _ | .lPush _ _ | .rPush _ _ | .lPop _ | .rPop _ | .hSet _ _ _ | .hDel _ _
  | .sAdd _ _ | .sRem _ _ | .expire _ _ | .persist _ => true
  | _ => false

/-- The call that sets deadlines. -/
def isExpire : Call → Bool
  | .expire _ _ => true
  | _ => false

/-- A call that fills a collection brings at least one element. -/
def Filled : Call → Prop
  | .lPush _ values | .rPush _ values => values ≠ []
  | .hSet _ fields values => fields.zip values ≠ []
  | .sAdd _ members => members ≠ []
  | _ => True

/-- The call returned the store's error. -/
def failed : (c : Call) → c.Result → Bool
  | .get _, r | .lPop _, r | .rPop _, r | .hGet _ _, r => !r.isOk
  | .lPush _ _, r | .rPush _ _, r | .lLen _, r | .hSet _ _ _, r | .hDel _ _, r | .hLen _, r
  | .sAdd _ _, r | .sRem _ _, r | .sCard _, r => !r.isOk
  | .lRange _ _ _, r | .hKeys _, r | .hVals _, r | .sMembers _, r => !r.isOk
  | .hGetAll _, r => !r.isOk
  | .sIsMember _ _, r => !r.isOk
  | _, _ => false

/-- Two results of a call that differ at most in the order a map was ranged over. -/
def SameResult : (c : Call) → c.Result → c.Result → Prop
  | .hKeys _, r, r' | .hVals _, r, r' | .sMembers _, r, r' => Outcome.Rel List.Perm r r'
  | .hGetAll _, r, r' => Outcome.Rel (fun p q => (p.1.zip p.2).Perm (q.1.zip q.2)) r r'
  | _, r, r' => r = r'

end Call

/-- Run a call at one clock reading. -/
def DB.call (now : Time) (order : RangeOrder) : (c : Call) → DB → DB × c.Result
  | .get key, db => db.get now now key
  | .set key value, db => db.set key value
  | .del keys, db => db.del now keys
  | .exists keys, db => (db, db.exists now keys)
  | .lPush key values, db => db.lPush now key values
  | .rPush key values, db => db.rPush now key values
  | .lPop key, db => db.lPop now key
  | .rPop key, db => db.rPop now key
  | .lLen key, db => (db, db.lLen now key)
  | .lRange key start stop, db => (db, db.lRange now key start stop)
  | .hSet key fields values, db => db.hSet now key fields values
  | .hGet key field, db => (db, db.hGet now key field)
  | .hDel key fields, db => db.hDel now key fields
  | .hGetAll key, db => (db, db.hGetAll now order key)
  | .hKeys key, db => (db, db.hKeys now order key)
  | .hVals key, db => (db, db.hVals now order key)
  | .hLen key, db => (db, db.hLen now key)
  | .sAdd key members, db => db.sAdd now key members
  | .sRem key members, db => db.sRem now key members
  | .sIsMember key member, db => (db, db.sIsMember now key member)
  | .sMembers key, db => (db, db.sMembers now order key)
  | .sCard key, db => (db, db.sCard now key)
  | .expire key d, db => db.expire now now key d
  | .persist key, db => db.persist now key
  | .ttl key, db => (db, db.ttl now now key)
  | .publish channel payload, db =>
      let (b, n) := db.pubsub.publish channel payload
      ({ db with pubsub := b }, n)

end MiniRedis.Store
