import MiniRedis.Store.Snapshot

/-!
# Store — Flat

The store without its sharding: the same methods over one map.  `Flattens` says that the one map
holds what the shards hold, and that no shard holds a key that is routed to another.  A method
looks at and changes one key of the map it is given (`Local`), so it does the same to the one map
as to the key's shard.

* `Flattens.call`: a call keeps the stores in step and answers alike.
* `Flattens.keyCount`, `Flattens.snapshot`: so do the operations that walk all shards.
* `sharding_invisible`: **no run of requests can tell the two stores apart.**
-/

namespace MiniRedis

open Protocol Store Cmd Reference Maps

/-- `KeyCount`: the loop over the shards. -/
def Store.DB.keyCount (db : DB) : Nat :=
  ((List.finRange shardCount).map fun i => size (db.shards i)).sum

namespace Store

/-- A store with one map. -/
structure Flat where
  data : Shard
  pubsub : Broker

namespace Flat

variable {α : Type}

/-- The empty store. -/
def new : Flat := ⟨∅, Broker.new⟩

/-- Run `body` on the map. -/
def locked (body : Shard → Shard × α) (s : Flat) : Flat × α :=
  ({ s with data := (body s.data).1 }, (body s.data).2)

/-- `expireIfNeeded` -/
def expireIfNeeded (now : Time) (key : Bytes) : Flat → Flat × Bool :=
  locked fun sh =>
    match sh.lookup key with
    | none => (sh, false)
    | some e => if e.expired now then (sh.erase key, true) else (sh, false)

/-- `Get` -/
def get (t₁ t₂ : Time) (key : Bytes) (s : Flat) : Flat × Outcome (Option Bytes) :=
  match s.data.lookup key with
  | none => (s, .ok none)
  | some e =>
      if e.expired t₁ then ((expireIfNeeded t₂ key s).1, .ok none)
      else
        match kindString.unwrap e.payload with
        | none => (s, .error .wrongType)
        | some value => (s, .ok (some value))

/-- One key of a `Del`. -/
def delOne (now : Time) (key : Bytes) : Flat → Flat × Nat :=
  locked fun sh =>
    match Shard.liveEntry now key sh with
    | (sh, some _) => (sh.erase key, 1)
    | (sh, none) => (sh, 0)

/-- `Del` -/
def del (now : Time) : List Bytes → Flat → Flat × Nat
  | [], s => (s, 0)
  | key :: keys, s =>
      let (s, n) := delOne now key s
      let (s, m) := del now keys s
      (s, n + m)

/-- `Expire` -/
def expire (t₁ t₂ : Time) (key : Bytes) (d : Duration) : Flat → Flat × Bool :=
  locked fun sh =>
    match Shard.liveEntry t₁ key sh with
    | (sh, none) => (sh, false)
    | (sh, some e) =>
        if d ≤ 0 then (sh.erase key, true)
        else (sh.insert key { e with expireAt := some (t₂ + d.toInt) }, true)

/-- `Persist` -/
def persist (now : Time) (key : Bytes) : Flat → Flat × Bool :=
  locked fun sh =>
    match Shard.liveEntry now key sh with
    | (sh, none) => (sh, false)
    | (sh, some e) =>
        match e.expireAt with
        | none => (sh, false)
        | some _ => (sh.insert key { e with expireAt := none }, true)

/-- `TTL` -/
def ttl (t₁ t₂ : Time) (key : Bytes) (s : Flat) : Duration × Bool × Bool :=
  match Shard.peek t₁ key s.data with
  | none => (0, false, false)
  | some e =>
      match e.expireAt with
      | none => (0, true, false)
      | some deadline => (untilAt deadline t₂, true, true)

/-- The calls, on the one map. -/
def call (now : Time) (order : RangeOrder) : (c : Call) → Flat → Flat × c.Result
  | .get key, s => s.get now now key
  | .set key value, s => s.locked fun sh => (sh.insert key ⟨.str value, none⟩, ())
  | .del keys, s => s.del now keys
  | .exists keys, s => (s, (keys.filter fun key => (Shard.peek now key s.data).isSome).length)
  | .lPush key values, s =>
      s.locked <| Shard.fill now key kindList fun l =>
        let l' := values.reverse ++ l
        (l', l'.length)
  | .rPush key values, s =>
      s.locked <| Shard.fill now key kindList fun l =>
        let l' := l ++ values
        (l', l'.length)
  | .lPop key, s =>
      s.locked <| Shard.take now key kindList none fun
        | [] => none
        | v :: l => some (l, some v)
  | .rPop key, s =>
      s.locked <| Shard.take now key kindList none fun l =>
        l.getLast?.map fun v => (l.dropLast, some v)
  | .lLen key, s => (s, Shard.read now key kindList 0 List.length s.data)
  | .lRange key start stop, s =>
      (s, Shard.read now key kindList []
        (fun l =>
          match DB.normalizeRange start stop (Int64.ofNat l.length) with
          | none => []
          | some (lo, hi) =>
              (l.drop lo.toNatClampNeg).take (hi.toNatClampNeg + 1 - lo.toNatClampNeg))
        s.data)
  | .hSet key fields values, s =>
      s.locked <| Shard.fill now key kindHash fun m => putAll m (fields.zip values)
  | .hGet key field, s => (s, Shard.read now key kindHash none (fun m => m.lookup field) s.data)
  | .hDel key fields, s =>
      s.locked <| Shard.take now key kindHash 0 fun m => some (dropAll m fields)
  | .hGetAll key, s =>
      (s, Shard.read now key kindHash ([], []) (fun m => (order.hash key m).unzip) s.data)
  | .hKeys key, s =>
      (s, Shard.read now key kindHash [] (fun m => (order.hash key m).map Prod.fst) s.data)
  | .hVals key, s =>
      (s, Shard.read now key kindHash [] (fun m => (order.hash key m).map Prod.snd) s.data)
  | .hLen key, s => (s, Shard.read now key kindHash 0 size s.data)
  | .sAdd key members, s => s.locked <| Shard.fill now key kindSet fun t => addAll t members
  | .sRem key members, s =>
      s.locked <| Shard.take now key kindSet 0 fun t => some (remAll t members)
  | .sIsMember key member, s =>
      (s, Shard.read now key kindSet false (fun t => decide (member ∈ t)) s.data)
  | .sMembers key, s => (s, Shard.read now key kindSet [] (fun t => order.set key t) s.data)
  | .sCard key, s => (s, Shard.read now key kindSet 0 Finset.card s.data)
  | .expire key d, s => s.expire now now key d
  | .persist key, s => s.persist now key
  | .ttl key, s => (s, s.ttl now now key)
  | .publish channel payload, s =>
      let (b, n) := s.pubsub.publish channel payload
      ({ s with pubsub := b }, n)

/-- `Snapshot`, with one loop. -/
def snapshot (now : Time) (order : RangeOrder) (s : Flat) : List SnapshotEntry :=
  ((order.shard ⟨0, by decide⟩ s.data).filter fun p => !p.2.expired now).map fun p =>
    DB.snapshotEntry order p.1 p.2

/-- `Dispatch` over this store. -/
def dispatch (now : Time) (order : RangeOrder) (request : Value) (s : Flat) : Flat × Value :=
  Cmd.dispatch (Flat.call now order) request s

/-- A run of requests, each with its reply. -/
def run : List Dispatched → Flat → Flat × List (Value × Value)
  | [], s => (s, [])
  | r :: rest, s =>
      let (s', reply) := s.dispatch r.now r.order r.request
      let (s', replies) := run rest s'
      (s', (r.request, reply) :: replies)

end Flat

/-! ### Bodies that keep to one key -/

/-- What `body` answers and leaves at `key` depends on what is there, and it leaves the other keys
alone. -/
structure Local {α : Type} (key : Bytes) (body : Shard → Shard × α) : Prop where
  answer : ∀ sh sh' : Shard, sh.lookup key = sh'.lookup key → (body sh).2 = (body sh').2
  update : ∀ sh sh' : Shard, sh.lookup key = sh'.lookup key →
    (body sh).1.lookup key = (body sh').1.lookup key
  frame : ∀ (sh : Shard) (k : Bytes), k ≠ key → (body sh).1.lookup k = sh.lookup k

section Local

variable {α β : Type} {now : Time} {key : Bytes} {body : Shard → Shard × α}

/-- A method that acts on a cell is about that key. -/
theorem Local.of_acts {cell : Cell → Cell × α} (h : Acts now key body cell) : Local key body := by
  refine ⟨fun sh sh' hl => ?_, fun sh sh' hl => ?_, h.frame⟩
  · rw [h.answer, h.answer, Shard.peek_congr hl]
  · rw [h.update, h.update, Shard.peek_congr hl]

theorem local_expireIfNeeded (now : Time) (key : Bytes) :
    Local key fun sh : Shard =>
      match sh.lookup key with
      | none => (sh, false)
      | some e => if e.expired now then (sh.erase key, true) else (sh, false) := by
  refine ⟨fun sh sh' hl => ?_, fun sh sh' hl => ?_, fun sh k hk => ?_⟩
  · rw [hl]
    cases sh'.lookup key with
    | none => rfl
    | some e =>
        dsimp only
        split <;> rfl
  · rw [← hl]
    cases he : sh.lookup key with
    | none => exact hl
    | some e =>
        dsimp only
        split
        · rw [Finmap.lookup_erase, Finmap.lookup_erase]
        · exact hl
  · cases sh.lookup key with
    | none => rfl
    | some e =>
        dsimp only
        split
        · exact Finmap.lookup_erase_ne hk
        · rfl

theorem read_congr {sh sh' : Shard} (hl : sh.lookup key = sh'.lookup key) (K : Kind β)
    (absent : α) (f : β → α) :
    Shard.read now key K absent f sh = Shard.read now key K absent f sh' := by
  unfold Shard.read
  rw [Shard.peek_congr hl]

end Local

/-! ### The simulation -/

/-- The one map holds what the shards hold, each key of which is in the shard it is routed to. -/
structure Flattens (db : DB) (s : Flat) : Prop where
  entries : ∀ key, (db.shardFor key).lookup key = s.data.lookup key
  routed : ∀ i key e, (db.shards i).lookup key = some e → shardIndex key = i
  pubsub : db.pubsub = s.pubsub

/-- Two steps, of the sharded and of the flat store, that leave them in step and answer alike. -/
def InStep {α : Type} (p : DB × α) (q : Flat × α) : Prop := Flattens p.1 q.1 ∧ p.2 = q.2

namespace Flattens

variable {α : Type} {db : DB} {s : Flat} {now : Time} {order : RangeOrder}

theorem new : Flattens DB.new Flat.new :=
  ⟨fun _ => rfl, fun _ _ _ h => absurd h (by simp [DB.new]), rfl⟩

/-- A method about one key does the same in its shard and in the one map. -/
theorem locked (h : Flattens db s) {key : Bytes} {body : Shard → Shard × α} (hb : Local key body) :
    InStep (db.locked key body) (s.locked body) := by
  refine ⟨⟨fun k => ?_, fun i k e hk => ?_, h.pubsub⟩, hb.answer _ _ (h.entries key)⟩
  · rw [DB.shardFor, DB.shards_locked]
    by_cases hkey : k = key
    · subst hkey
      rw [if_pos rfl]
      exact hb.update _ _ (h.entries k)
    · change _ = (body s.data).1.lookup k
      rw [hb.frame _ k hkey, ← h.entries k]
      split
      case isTrue hi => rw [hb.frame _ k hkey, DB.shardFor, DB.shardFor, hi]
      case isFalse => rfl
  · rw [DB.shards_locked] at hk
    split at hk
    case isFalse => exact h.routed i k e hk
    case isTrue hi =>
      by_cases hkey : k = key
      · rw [hkey, hi]
      · rw [hb.frame _ k hkey] at hk
        rw [h.routed _ k e hk, hi]

theorem peek (h : Flattens db s) (now : Time) (key : Bytes) :
    Shard.peek now key (db.shardFor key) = Shard.peek now key s.data :=
  Shard.peek_congr (h.entries key)

theorem get (h : Flattens db s) (key : Bytes) :
    InStep (db.get now now key) (s.get now now key) := by
  unfold DB.get Flat.get
  rw [h.entries key]
  cases s.data.lookup key with
  | none => exact ⟨h, rfl⟩
  | some e =>
      by_cases he : e.expired now
      · simp only [he, if_true]
        exact ⟨(h.locked (local_expireIfNeeded now key)).1, rfl⟩
      · simp only [he, if_false, Bool.false_eq_true]
        cases kindString.unwrap e.payload <;> exact ⟨h, rfl⟩

/-- `DEL` goes key by key, a repeated key meeting the store its first turn left. -/
theorem del (h : Flattens db s) (keys : List Bytes) :
    InStep (db.del now keys) (s.del now keys) := by
  induction keys generalizing db s with
  | nil => exact ⟨h, rfl⟩
  | cons key keys ih =>
      obtain ⟨hone, hn⟩ := h.locked (Local.of_acts (@delOne_acts now key))
      obtain ⟨hrest, hm⟩ := ih hone
      exact ⟨hrest, congrArg₂ (· + ·) hn hm⟩

theorem «exists» (h : Flattens db s) (keys : List Bytes) :
    db.exists now keys =
      (keys.filter fun key => (Shard.peek now key s.data).isSome).length := by
  unfold DB.exists
  simp only [h.peek]

theorem ttl (h : Flattens db s) (key : Bytes) : db.ttl now now key = s.ttl now now key := by
  unfold DB.ttl
  rw [h.peek]
  rfl

theorem publish (h : Flattens db s) (channel payload : Bytes) :
    InStep (db.call now order (.publish channel payload))
      (s.call now order (.publish channel payload)) := by
  refine ⟨⟨h.entries, h.routed, ?_⟩, ?_⟩
  · change (db.pubsub.publish channel payload).1 = (s.pubsub.publish channel payload).1
    rw [h.pubsub]
  · change (db.pubsub.publish channel payload).2 = (s.pubsub.publish channel payload).2
    rw [h.pubsub]

/-- **A call does the same to both stores.** -/
theorem call (h : Flattens db s) (now : Time) (order : RangeOrder) (c : Call) :
    InStep (db.call now order c) (s.call now order c) := by
  cases c with
  | get key => exact h.get key
  | set key value => exact h.locked (.of_acts (@set_acts now key value))
  | del keys => exact h.del keys
  | «exists» keys => exact ⟨h, h.exists keys⟩
  | lPush | rPush | hSet | sAdd => exact h.locked (.of_acts (fill_acts _ _))
  | lPop | rPop | hDel | sRem => exact h.locked (.of_acts (take_acts _ _ _))
  | lLen key | lRange key | hGet key | hGetAll key | hKeys key | hVals key | hLen key
  | sIsMember key | sMembers key | sCard key => exact ⟨h, read_congr (h.entries key) _ _ _⟩
  | expire key d => exact h.locked (.of_acts (expire_acts d))
  | persist key => exact h.locked (.of_acts persist_acts)
  | ttl key => exact ⟨h, h.ttl key⟩
  | publish channel payload => exact h.publish channel payload

/-- **A request does the same in both.** -/
theorem dispatch (h : Flattens db s) (now : Time) (order : RangeOrder) (request : Value) :
    InStep (db.dispatch now order request) (s.dispatch now order request) := by
  unfold DB.dispatch Flat.dispatch Cmd.dispatch
  cases plan request with
  | reply v => exact ⟨h, rfl⟩
  | call c render =>
      obtain ⟨hs, hr⟩ := h.call now order c
      exact ⟨hs, congrArg render hr⟩

/-- The stores stay in step along a run. -/
theorem run (h : Flattens db s) (reqs : List Dispatched) :
    InStep (db.run (reqs.map Event.request)) (s.run reqs) := by
  induction reqs generalizing db s with
  | nil => exact ⟨h, rfl⟩
  | cons r rest ih =>
      obtain ⟨hone, hreply⟩ := h.dispatch r.now r.order r.request
      obtain ⟨hrest, hreplies⟩ := ih hone
      exact ⟨hrest, congrArg₂ (fun reply rest => (r.request, reply) :: rest) hreply hreplies⟩

/-! ### The operations on all shards -/

/-- The one map has the keys of all shards. -/
theorem keys_eq (h : Flattens db s) :
    s.data.keys = Finset.univ.biUnion fun i => (db.shards i).keys := by
  ext key
  simp only [Finset.mem_biUnion, Finset.mem_univ, true_and, Finmap.mem_keys, Finmap.mem_iff]
  constructor
  · rintro ⟨e, he⟩
    exact ⟨shardIndex key, e, (h.entries key).trans he⟩
  · rintro ⟨i, e, he⟩
    refine ⟨e, ?_⟩
    rw [← h.entries key, DB.shardFor, h.routed i key e he]
    exact he

/-- No key is in two shards, so counting shard by shard counts each key once. -/
theorem keyCount (h : Flattens db s) : db.keyCount = size s.data := by
  have hdisj : ∀ i j, i ≠ j → Disjoint (db.shards i).keys (db.shards j).keys := by
    intro i j hij
    refine Finset.disjoint_left.2 fun key hi hj => hij ?_
    obtain ⟨e, he⟩ := Finmap.mem_iff.1 (Finmap.mem_keys.1 hi)
    obtain ⟨e', he'⟩ := Finmap.mem_iff.1 (Finmap.mem_keys.1 hj)
    rw [← h.routed i key e he, ← h.routed j key e' he']
  calc db.keyCount
      = ∑ i, (db.shards i).keys.card := (Fin.sum_univ_def _).symm
    _ = (Finset.univ.biUnion fun i => (db.shards i).keys).card :=
        (Finset.card_biUnion fun i _ j _ => hdisj i j).symm
    _ = size s.data := by rw [← h.keys_eq, size]

/-- Both snapshots render the same live entries, each once. -/
theorem liveEntries (h : Flattens db s) (now : Time) (order : RangeOrder) :
    (db.liveEntries now order).Perm
      ((order.shard ⟨0, by decide⟩ s.data).filter fun p => !p.2.expired now) := by
  have hholds : db.Holds fun _ => True := ⟨h.routed, fun _ _ _ _ => trivial⟩
  have hlists := order.shard_lists ⟨0, by decide⟩ s.data
  refine (List.perm_ext_iff_of_nodup (DB.nodup_liveEntries hholds).of_map
    (hlists.nodup.of_map.filter _)).2 ?_
  rintro ⟨key, e⟩
  rw [DB.mem_liveEntries hholds, DB.keyspace, h.peek, Shard.peek_eq_some, List.mem_filter,
    hlists.mem_iff, Bool.not_eq_true']

/-- The snapshots have the same records, in some order. -/
theorem snapshot (h : Flattens db s) (now : Time) (order : RangeOrder) :
    (db.snapshot now order).Perm (s.snapshot now order) :=
  (h.liveEntries now order).map _

/-- The keys of a snapshot are the live keys, each once. -/
theorem snapshot_keys (h : Flattens db s) (now : Time) (order : RangeOrder) :
    ((db.snapshot now order).map SnapshotEntry.key).Nodup ∧
      ∀ key, key ∈ (db.snapshot now order).map SnapshotEntry.key ↔
        ∃ e, s.data.lookup key = some e ∧ e.expired now = false := by
  have hholds : db.Holds fun _ => True := ⟨h.routed, fun _ _ _ _ => trivial⟩
  have hkeys : (db.snapshot now order).map SnapshotEntry.key =
      (db.liveEntries now order).map Prod.fst := by
    rw [DB.snapshot, List.map_map]
    rfl
  rw [hkeys]
  refine ⟨DB.nodup_liveEntries hholds, fun key => ?_⟩
  simp only [List.mem_map, Prod.exists, exists_and_right, exists_eq_right,
    DB.mem_liveEntries hholds, DB.keyspace, h.peek, Shard.peek_eq_some]

end Flattens

end Store

/-- **Sharding is invisible.**  After any requests at any clock readings, the sharded store has
answered as the store with one map has; every key it holds is in the shard `shardIndex` gives; its
key count is the size of the one map; and its snapshot, whenever taken, is a permutation of the
one map's, with each live key exactly once. -/
theorem sharding_invisible (reqs : List Dispatched) :
    let (db, replies) := DB.new.run (reqs.map Event.request)
    let (s, replies') := Flat.new.run reqs
    replies = replies' ∧
      (∀ i key e, (db.shards i).lookup key = some e → shardIndex key = i) ∧
      db.keyCount = size s.data ∧
      ∀ now order, (db.snapshot now order).Perm (s.snapshot now order) ∧
        ((db.snapshot now order).map SnapshotEntry.key).Nodup ∧
        ∀ key, key ∈ (db.snapshot now order).map SnapshotEntry.key ↔
          ∃ e, s.data.lookup key = some e ∧ e.expired now = false := by
  obtain ⟨h, hreplies⟩ := Flattens.new.run reqs
  exact ⟨hreplies, h.routed, h.keyCount,
    fun now order => ⟨h.snapshot now order, h.snapshot_keys now order⟩⟩

end MiniRedis
