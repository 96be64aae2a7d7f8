import MiniRedis.Reference.Transparency

/-!
# Reference — Updates

A call changes the store at the keys it is given, one cell at a time: `Call.updates` lists the
changes.  What a request does to the logical keyspace is the composition of its updates
(`effect`), whatever the range orders are; and a property of entries that the updates keep holds
of every entry of the store, expired ones included (`Keyed.call`).
-/

namespace MiniRedis

open Protocol Store Cmd Reference

/-- The changes a call makes, in order: a key and what becomes of its cell. -/
def Store.Call.updates (now : Time) : Call → List (Bytes × (Cell → Cell))
  | .set key value => [(key, fun c => (Cell.set value c).1)]
  | .del keys => keys.map fun key => (key, fun c => (Cell.del c).1)
  | .lPush key values =>
      [(key, fun c => (Cell.fill kindList (fun l =>
        (values.reverse ++ l, (values.reverse ++ l).length)) c).1)]
  | .rPush key values =>
      [(key, fun c => (Cell.fill kindList (fun l => (l ++ values, (l ++ values).length)) c).1)]
  | .lPop key =>
      [(key, fun c => (Cell.take kindList (none : Option Bytes) (fun
        | [] => none
        | v :: l => some (l, some v)) c).1)]
  | .rPop key =>
      [(key, fun c => (Cell.take kindList none (fun l =>
        l.getLast?.map fun v => (l.dropLast, some v)) c).1)]
  | .hSet key fields values =>
      [(key, fun c => (Cell.fill kindHash (fun m => Maps.putAll m (fields.zip values)) c).1)]
  | .hDel key fields =>
      [(key, fun c => (Cell.take kindHash 0 (fun m => some (Maps.dropAll m fields)) c).1)]
  | .sAdd key members =>
      [(key, fun c => (Cell.fill kindSet (fun s => Maps.addAll s members) c).1)]
  | .sRem key members =>
      [(key, fun c => (Cell.take kindSet 0 (fun s => some (Maps.remAll s members)) c).1)]
  | .expire key d => [(key, fun c => (Cell.expire now d c).1)]
  | .persist key => [(key, fun c => (Cell.persist c).1)]
  | _ => []

/-- Make changes to a keyspace, in order. -/
def Keyspace.applyAll (us : List (Bytes × (Cell → Cell))) (ks : Keyspace) : Keyspace :=
  us.foldl (fun ks u => Function.update ks u.1 (u.2 (ks u.1))) ks

/-- What a request does to the logical keyspace at a clock reading. -/
def effect (now : Time) (request : Value) (ks : Keyspace) : Keyspace :=
  match plan request with
  | .reply _ => ks
  | .call c _ => Keyspace.applyAll (c.updates now) ks

/-! ### The effect on the keyspace -/

namespace Reference.RefStore

/-- `DEL` is a change of each of its keys. -/
theorem del_keys : ∀ (keys : List Bytes) (s : RefStore), (s.del keys).1.keys =
    Keyspace.applyAll (keys.map fun key => (key, fun c => (Cell.del c).1)) s.keys
  | [], _ => rfl
  | _ :: keys, _ => del_keys keys _

/-- A call changes the keyspace by its updates. -/
theorem call_keys (now : Time) (order : RangeOrder) (c : Call) (s : RefStore) :
    (s.call now order c).1.keys = Keyspace.applyAll (c.updates now) s.keys := by
  cases c with
  | del keys => exact del_keys keys s
  | _ => rfl

/-- What a request does to the keyspace is its list of changes. -/
theorem keys_dispatch (now : Time) (order : RangeOrder) (request : Value) (s : RefStore) :
    (s.dispatch now order request).1.keys = effect now request s.keys := by
  unfold effect RefStore.dispatch Cmd.dispatch
  cases plan request with
  | reply v => rfl
  | call c render => exact call_keys now order c s

end Reference.RefStore

/-- **A request changes the keyspace of a store by its effect**, whatever the range orders. -/
theorem Store.DB.keyspace_dispatch (now : Time) (order : RangeOrder) (request : Value) (db : DB) :
    (db.dispatch now order request).1.keyspace now = effect now request (db.keyspace now) := by
  have ha := RefStore.keys_dispatch now order request (db.abs now)
  rw [DB.abs_dispatch] at ha
  exact ha

/-- Only the setting of deadlines reads the clock. -/
theorem Store.Call.updates_clock {c : Call} (h : c.isExpire = false) (now now' : Time) :
    c.updates now = c.updates now' := by
  cases c with
  | expire => cases h
  | _ => rfl

/-! ### Properties of every entry -/

/-- Every entry of the store has the property and is in the shard its key is routed to. -/
structure Store.DB.Holds (P : Entry → Prop) (db : DB) : Prop where
  routed : ∀ i key e, (db.shards i).lookup key = some e → shardIndex key = i
  entries : ∀ i key e, (db.shards i).lookup key = some e → P e

/-- Every entry of the store has the property that goes with its key, and is in the shard the key
is routed to. -/
structure Store.DB.Keyed (Q : Bytes → Entry → Prop) (db : DB) : Prop where
  routed : ∀ i key e, (db.shards i).lookup key = some e → shardIndex key = i
  entries : ∀ i key e, (db.shards i).lookup key = some e → Q key e

namespace Store.DB.Keyed

variable {α : Type} {Q R : Bytes → Entry → Prop} {now : Time} {key : Bytes} {db db' : DB}

theorem new (Q : Bytes → Entry → Prop) : DB.new.Keyed Q :=
  ⟨fun _ _ _ h => by simp [DB.new] at h, fun _ _ _ h => by simp [DB.new] at h⟩

theorem imp (h : db.Keyed Q) (hQR : ∀ key e, Q key e → R key e) : db.Keyed R :=
  ⟨h.routed, fun i key e he => hQR key e (h.entries i key e he)⟩

/-- The reaper keeps what holds of every entry. -/
theorem reaped (hv : db.Keyed Q) (h : ∀ i, DB.Reaped now (db.shards i) (db'.shards i)) :
    db'.Keyed Q :=
  ⟨fun i key e he => hv.routed i key e ((h i).kept key e he),
    fun i key e he => hv.entries i key e ((h i).kept key e he)⟩

/-- A body that acts as a cell function keeps the property if the cell function does. -/
theorem locked {body : Shard → Shard × α} {cell : Cell → Cell × α} (hv : db.Keyed Q)
    (h : Acts now key body cell) (hkeep : ∀ c : Cell, c.All (Q key) → (cell c).1.All (Q key)) :
    (db.locked key body).1.Keyed Q := by
  have found : ∀ i k e, ((db.locked key body).1.shards i).lookup k = some e →
      shardIndex k = i ∧ Q k e := by
    intro i k e he
    rw [shards_locked] at he
    split at he
    case isFalse => exact ⟨hv.routed i k e he, hv.entries i k e he⟩
    case isTrue hi =>
      subst hi
      by_cases hk : k = key
      · subst hk
        rw [h.update] at he
        refine ⟨rfl, hkeep _ (fun e' he' => ?_) e he⟩
        exact hv.entries _ k e' (Shard.peek_eq_some.1 he').1
      · rw [h.frame _ k hk] at he
        exact ⟨hv.routed _ k e he, hv.entries _ k e he⟩
  exact ⟨fun i k e he => (found i k e he).1, fun i k e he => (found i k e he).2⟩

theorem del : ∀ (keys : List Bytes) {db : DB}, db.Keyed Q → (db.del now keys).1.Keyed Q
  | [], _, hv => hv
  | _ :: keys, _, hv => del keys (hv.locked delOne_acts fun c _ => Cell.del_all c)

/-- **A property of entries that a call's updates keep survives the call.** -/
theorem call {order : RangeOrder} {c : Call} (hv : db.Keyed Q)
    (hkeep : ∀ u ∈ c.updates now, ∀ x : Cell, x.All (Q u.1) → (u.2 x).All (Q u.1)) :
    (db.call now order c).1.Keyed Q := by
  have one : ∀ {key : Bytes} {f : Cell → Cell}, c.updates now = [(key, f)] →
      ∀ x : Cell, x.All (Q key) → (f x).All (Q key) :=
    fun h => hkeep _ (h ▸ List.mem_singleton_self _)
  cases c with
  | get key => exact hv.reaped (DB.get_reaped now now key db)
  | set key value => exact hv.locked (@set_acts now key value) (one rfl)
  | del keys => exact hv.del keys
  | lPush | rPush | hSet | sAdd => exact hv.locked (fill_acts _ _) (one rfl)
  | lPop | rPop | hDel | sRem => exact hv.locked (take_acts _ _ _) (one rfl)
  | expire key d => exact hv.locked (expire_acts d) (one rfl)
  | persist key => exact hv.locked persist_acts (one rfl)
  | publish channel payload => exact ⟨hv.routed, hv.entries⟩
  | «exists» | lLen | lRange | hGet | hGetAll | hKeys | hVals | hLen | sIsMember | sMembers
  | sCard | ttl => exact hv

end Store.DB.Keyed

namespace Store.DB.Holds

variable {P Q : Entry → Prop} {now : Time} {db db' : DB}

/-- A property of entries is one of keys and entries. -/
theorem keyed_iff : db.Holds P ↔ db.Keyed fun _ => P :=
  ⟨fun h => ⟨h.routed, h.entries⟩, fun h => ⟨h.routed, h.entries⟩⟩

theorem new (P : Entry → Prop) : DB.new.Holds P := keyed_iff.2 (.new _)

theorem imp (h : db.Holds P) (hPQ : ∀ e, P e → Q e) : db.Holds Q :=
  keyed_iff.2 ((keyed_iff.1 h).imp fun _ => hPQ)

theorem reaped (hv : db.Holds P) (h : ∀ i, DB.Reaped now (db.shards i) (db'.shards i)) :
    db'.Holds P :=
  keyed_iff.2 ((keyed_iff.1 hv).reaped h)

/-- A call keeps what its changes keep. -/
theorem call {order : RangeOrder} {c : Call} (hv : db.Holds P)
    (hkeep : ∀ u ∈ c.updates now, ∀ x : Cell, x.All P → (u.2 x).All P) :
    (db.call now order c).1.Holds P :=
  keyed_iff.2 ((keyed_iff.1 hv).call hkeep)

end Store.DB.Holds

end MiniRedis
