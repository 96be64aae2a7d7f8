import MiniRedis.Store.Raw

/-!
# Store — Layout

How the store's model is laid out as tagged entries, and that the methods over the layout do to
the layout of a store what the methods of the model do to the store.

* `Entry.layout_exact`: a laid-out entry has a payload for exactly its kind.
* `DB.layout_call`, `DB.layout_dispatch`, `DB.layout_activeExpiryPass`: **the simulation**, an
  equation for each way a store changes.
-/

namespace MiniRedis.Store

open Maps

namespace Entry

/-- The tag and the one field of an entry. -/
def layout (e : Entry) : Raw.Entry :=
  match e.payload with
  | .str value => { Raw.Entry.zero .string with str := some value, expireAt := e.expireAt }
  | .list items => { Raw.Entry.zero .list with list := items, expireAt := e.expireAt }
  | .hash fields => { Raw.Entry.zero .hash with hash := some fields, expireAt := e.expireAt }
  | .set members => { Raw.Entry.zero .set with set := some members, expireAt := e.expireAt }

@[simp] theorem layout_expireAt (e : Entry) : e.layout.expireAt = e.expireAt := by
  rcases e with ⟨_ | _ | _ | _, d⟩ <;> rfl

@[simp] theorem layout_expired (e : Entry) (t : Time) : e.layout.expired t = e.expired t := by
  unfold Raw.Entry.expired
  rw [layout_expireAt]
  rfl

theorem layout_deadline (e : Entry) (d : Option Time) :
    { e.layout with expireAt := d } = Entry.layout { e with expireAt := d } := by
  rcases e with ⟨_ | _ | _ | _, _⟩ <;> rfl

end Entry

/-- The entry has a payload for exactly its kind, and no empty collection for it. -/
structure Raw.Entry.Sound (e : Raw.Entry) : Prop where
  str : e.str.isSome ↔ e.kind = .string
  list : e.list ≠ [] ↔ e.kind = .list
  hash : e.hash.isSome ↔ e.kind = .hash
  set : e.set.isSome ↔ e.kind = .set
  fields : ∀ m, e.hash = some m → m ≠ ∅
  members : ∀ s, e.set = some s → s ≠ ∅

/-- The entry read back from its tag and that tag's field. -/
def Raw.Entry.entry (e : Raw.Entry) : Store.Entry where
  payload :=
    match e.kind with
    | .string => .str (e.str.getD [])
    | .list => .list e.list
    | .hash => .hash (e.hash.getD ∅)
    | .set => .set (e.set.getD ∅)
  expireAt := e.expireAt

/-- Nothing is lost by laying an entry out. -/
@[simp] theorem Entry.entry_layout (e : Entry) : e.layout.entry = e := by
  rcases e with ⟨_ | _ | _ | _, _⟩ <;> rfl

/-! ### Fields and kinds -/

/-- The field is where values of the kind are laid out. -/
structure Raw.Field.Lays {β : Type} (F : Raw.Field β) (K : Kind β) : Prop where
  tag : ∀ b d, (Entry.layout ⟨K.wrap b, d⟩).kind = F.tag
  other : ∀ e : Store.Entry, K.unwrap e.payload = none → e.layout.kind ≠ F.tag
  created : F.created = Entry.layout ⟨K.wrap K.empty, none⟩
  read : ∀ b d, F.read (Entry.layout ⟨K.wrap b, d⟩) = b
  write : ∀ b b' d, F.write b' (Entry.layout ⟨K.wrap b, d⟩) = Entry.layout ⟨K.wrap b', d⟩
  empty : F.empty = K.empty

/-- The `list` field goes with lists, -/
theorem Raw.fieldList_lays : fieldList.Lays kindList := by
  refine ⟨fun _ _ => rfl, fun e he => ?_, rfl, fun _ _ => rfl, fun _ _ _ => rfl, rfl⟩
  rcases e with ⟨_ | _ | _ | _, _⟩ <;> simp [kindList, Entry.layout, Entry.zero, fieldList] at he ⊢

/-- the `hash` field with hashes, -/
theorem Raw.fieldHash_lays : fieldHash.Lays kindHash := by
  refine ⟨fun _ _ => rfl, fun e he => ?_, rfl, fun _ _ => rfl, fun _ _ _ => rfl, rfl⟩
  rcases e with ⟨_ | _ | _ | _, _⟩ <;> simp [kindHash, Entry.layout, Entry.zero, fieldHash] at he ⊢

/-- and the `set` field with sets. -/
theorem Raw.fieldSet_lays : fieldSet.Lays kindSet := by
  refine ⟨fun _ _ => rfl, fun e he => ?_, rfl, fun _ _ => rfl, fun _ _ _ => rfl, rfl⟩
  rcases e with ⟨_ | _ | _ | _, _⟩ <;> simp [kindSet, Entry.layout, Entry.zero, fieldSet] at he ⊢

/-! ### Shards -/

namespace Shard

variable {α β : Type} {now : Time} {key : Bytes} {F : Raw.Field β} {K : Kind β}

/-- A shard's map, laid out. -/
def layout (sh : Shard) : Raw.Shard := mapValues Entry.layout sh

@[simp] theorem lookup_layout (sh : Shard) (k : Bytes) :
    sh.layout.lookup k = (sh.lookup k).map Entry.layout := lookup_mapValues _ sh k

@[simp] theorem layout_insert (sh : Shard) (k : Bytes) (e : Entry) :
    Shard.layout (sh.insert k e) = sh.layout.insert k e.layout := mapValues_insert _ sh k e

@[simp] theorem layout_erase (sh : Shard) (k : Bytes) :
    Shard.layout (sh.erase k) = sh.layout.erase k := mapValues_erase _ sh k

/-- A look at a key finds the entry laid out. -/
theorem peek_layout (sh : Shard) :
    Raw.Shard.peek now key sh.layout = (Shard.peek now key sh).map Entry.layout := by
  unfold Raw.Shard.peek Shard.peek
  rw [lookup_layout]
  cases sh.lookup key with
  | none => rfl
  | some e => by_cases he : e.expired now <;> simp [he]

/-- `liveEntry` finds the entry laid out, and drops what is due. -/
theorem liveEntry_layout (sh : Shard) :
    Raw.Shard.liveEntry now key sh.layout =
      ((liveEntry now key sh).1.layout, (liveEntry now key sh).2.map Entry.layout) := by
  unfold Raw.Shard.liveEntry liveEntry
  rw [lookup_layout]
  cases sh.lookup key with
  | none => rfl
  | some e => by_cases he : e.expired now <;> simp [he]

/-- A typed lookup finds the layout of what the model's lookup finds. -/
theorem typedEntry_layout (h : F.Lays K) (create : Bool) (sh : Shard) :
    Raw.Shard.typedEntry now key F create sh.layout =
      ((typedEntry now key K create sh).1.layout,
        (typedEntry now key K create sh).2.map (Option.map fun p =>
          Entry.layout ⟨K.wrap p.1, p.2⟩)) := by
  unfold Raw.Shard.typedEntry typedEntry
  rw [liveEntry_layout]
  rcases liveEntry now key sh with ⟨sh', _ | e⟩
  · cases create <;> simp [h.created, Except.map]
  · cases hu : K.unwrap e.payload with
    | none => simp [hu, h.other e hu, Except.map]
    | some b =>
        obtain ⟨p, d⟩ := e
        cases (K.unwrap_iff _ _).1 hu
        simp [hu, h.tag b d, Except.map]

/-- A method that fills its key writes the field of its kind, -/
theorem fill_layout (h : F.Lays K) (f : β → β × α) (sh : Shard) :
    Raw.Shard.fill now key F f sh.layout =
      ((fill now key K f sh).1.layout, (fill now key K f sh).2) := by
  unfold Raw.Shard.fill fill
  rw [typedEntry_layout h]
  rcases typedEntry now key K true sh with ⟨sh', err | found⟩
  · rfl
  · rcases found with _ | ⟨b, d⟩
    · simp [Except.map, h.created, h.read, h.write]
    · simp [Except.map, h.read, h.write]

/-- one that takes from its key likewise, -/
theorem take_layout [DecidableEq β] (h : F.Lays K) (absent : α) (f : β → Option (β × α))
    (sh : Shard) :
    Raw.Shard.take now key F absent f sh.layout =
      ((take now key K absent f sh).1.layout, (take now key K absent f sh).2) := by
  unfold Raw.Shard.take take
  rw [typedEntry_layout h]
  rcases typedEntry now key K false sh with ⟨sh', err | _ | ⟨b, d⟩⟩
  · rfl
  · rfl
  · simp only [Except.map, Option.map_some, h.read, h.empty]
    rcases f b with _ | ⟨b', a⟩
    · rfl
    · by_cases hb : b' = K.empty <;> simp [hb, h.write]

/-- and one that reads finds the same there. -/
theorem read_layout (h : F.Lays K) (absent : α) (f : β → α) (sh : Shard) :
    Raw.Shard.read now key F absent f sh.layout = read now key K absent f sh := by
  unfold Raw.Shard.read read
  rw [peek_layout]
  cases peek now key sh with
  | none => rfl
  | some e =>
      cases hu : K.unwrap e.payload with
      | none => simp [hu, h.other e hu]
      | some b =>
          obtain ⟨p, d⟩ := e
          cases (K.unwrap_iff _ _).1 hu
          simp [hu, h.tag b d, h.read]

end Shard

/-! ### The store -/

namespace DB

variable {α : Type} {now : Time} {order : RangeOrder} {key : Bytes}

/-- A store, laid out. -/
def layout (db : DB) : Raw.DB := ⟨fun i => (db.shards i).layout, db.pubsub⟩

theorem layout_new : DB.new.layout = Raw.DB.new := by
  have hempty : Shard.layout ∅ = ∅ := Finmap.ext_lookup fun k => by simp
  unfold DB.new layout Raw.DB.new
  simp only [hempty]

theorem layout_update (db : DB) (i : Fin shardCount) (sh : Shard) :
    Raw.DB.mk (Function.update db.layout.shards i sh.layout) db.layout.pubsub =
      DB.layout { db with shards := Function.update db.shards i sh } := by
  refine congrArg (Raw.DB.mk · _) (funext fun j => ?_)
  simp only [layout, Function.update_apply]
  split <;> rfl

/-- A body that does to layouts what another does to shards. -/
theorem layout_locked {rbody : Raw.Shard → Raw.Shard × α} {body : Shard → Shard × α}
    (h : ∀ sh : Shard, rbody sh.layout = ((body sh).1.layout, (body sh).2)) (db : DB) :
    db.layout.locked key rbody = ((db.locked key body).1.layout, (db.locked key body).2) := by
  have hb := h (db.shardFor key)
  unfold Raw.DB.locked locked
  change rbody (db.layout.shardFor key) = _ at hb
  rw [hb]
  exact congrArg (·, _) (layout_update db _ _)

theorem layout_expireIfNeeded (now : Time) (key : Bytes) (db : DB) :
    db.layout.expireIfNeeded now key =
      ((db.expireIfNeeded now key).1.layout, (db.expireIfNeeded now key).2) := by
  refine layout_locked (fun sh => ?_) db
  rw [Shard.lookup_layout]
  cases sh.lookup key with
  | none => rfl
  | some e => by_cases he : e.expired now <;> simp [he]

theorem layout_get (t₁ t₂ : Time) (key : Bytes) (db : DB) :
    db.layout.get t₁ t₂ key = ((db.get t₁ t₂ key).1.layout, (db.get t₁ t₂ key).2) := by
  have hl : (db.layout.shardFor key).lookup key =
      ((db.shardFor key).lookup key).map Entry.layout := Shard.lookup_layout _ key
  unfold Raw.DB.get get
  rw [hl]
  rcases (db.shardFor key).lookup key with _ | ⟨p, d⟩
  · rfl
  · by_cases he : Entry.expired ⟨p, d⟩ t₁
    · simp [he, layout_expireIfNeeded]
    · simp only [Option.map_some, Entry.layout_expired, he, if_false, Bool.false_eq_true]
      rcases p with _ | _ | _ | _ <;> rfl

theorem layout_set (key value : Bytes) (db : DB) :
    db.layout.set key value = ((db.set key value).1.layout, (db.set key value).2) := by
  refine layout_locked (fun sh => ?_) db
  rw [Shard.layout_insert]
  rfl

theorem layout_del (now : Time) (keys : List Bytes) (db : DB) :
    db.layout.del now keys = ((db.del now keys).1.layout, (db.del now keys).2) := by
  induction keys generalizing db with
  | nil => rfl
  | cons key keys ih =>
      have hone : db.layout.delOne now key =
          ((db.delOne now key).1.layout, (db.delOne now key).2) := by
        refine layout_locked (fun sh => ?_) db
        rw [Shard.liveEntry_layout]
        rcases Shard.liveEntry now key sh with ⟨sh', _ | e⟩ <;> simp
      simp only [Raw.DB.del, del, hone, ih]

theorem layout_expire (t₁ t₂ : Time) (key : Bytes) (d : Duration) (db : DB) :
    db.layout.expire t₁ t₂ key d =
      ((db.expire t₁ t₂ key d).1.layout, (db.expire t₁ t₂ key d).2) := by
  refine layout_locked (fun sh => ?_) db
  rw [Shard.liveEntry_layout]
  rcases Shard.liveEntry t₁ key sh with ⟨sh', _ | e⟩
  · rfl
  · by_cases hd : d ≤ 0 <;> simp [hd, Entry.layout_deadline]

theorem layout_persist (now : Time) (key : Bytes) (db : DB) :
    db.layout.persist now key = ((db.persist now key).1.layout, (db.persist now key).2) := by
  refine layout_locked (fun sh => ?_) db
  rw [Shard.liveEntry_layout]
  rcases Shard.liveEntry now key sh with ⟨sh', _ | e⟩
  · rfl
  · cases hd : e.expireAt <;> simp [hd, Entry.layout_deadline]

theorem layout_ttl (t₁ t₂ : Time) (key : Bytes) (db : DB) :
    db.layout.ttl t₁ t₂ key = db.ttl t₁ t₂ key := by
  have hp : Raw.Shard.peek t₁ key (db.layout.shardFor key) =
      (Shard.peek t₁ key (db.shardFor key)).map Entry.layout := Shard.peek_layout _
  unfold Raw.DB.ttl ttl
  rw [hp]
  cases Shard.peek t₁ key (db.shardFor key) with
  | none => rfl
  | some e => cases hd : e.expireAt <;> simp [hd]

theorem layout_exists (now : Time) (keys : List Bytes) (db : DB) :
    (keys.filter fun key => (Raw.Shard.peek now key (db.layout.shardFor key)).isSome).length =
      db.exists now keys := by
  have hp : ∀ key, Raw.Shard.peek now key (db.layout.shardFor key) =
      (Shard.peek now key (db.shardFor key)).map Entry.layout := fun key => Shard.peek_layout _
  simp only [hp, Option.isSome_map, DB.exists]

/-- **The calls do to layouts what they do to stores.** -/
theorem layout_call (now : Time) (order : RangeOrder) (c : Call) (db : DB) :
    db.layout.call now order c = ((db.call now order c).1.layout, (db.call now order c).2) := by
  cases c with
  | get key => exact layout_get now now key db
  | set key value => exact layout_set key value db
  | del keys => exact layout_del now keys db
  | «exists» keys => exact congrArg (db.layout, ·) (layout_exists now keys db)
  | lPush | rPush => exact layout_locked (Shard.fill_layout Raw.fieldList_lays _) db
  | hSet => exact layout_locked (Shard.fill_layout Raw.fieldHash_lays _) db
  | sAdd => exact layout_locked (Shard.fill_layout Raw.fieldSet_lays _) db
  | lPop | rPop => exact layout_locked (Shard.take_layout Raw.fieldList_lays _ _) db
  | hDel => exact layout_locked (Shard.take_layout Raw.fieldHash_lays _ _) db
  | sRem => exact layout_locked (Shard.take_layout Raw.fieldSet_lays _ _) db
  | lLen | lRange =>
      exact congrArg (db.layout, ·) (Shard.read_layout Raw.fieldList_lays _ _ _)
  | hGet | hGetAll | hKeys | hVals | hLen =>
      exact congrArg (db.layout, ·) (Shard.read_layout Raw.fieldHash_lays _ _ _)
  | sIsMember | sMembers | sCard =>
      exact congrArg (db.layout, ·) (Shard.read_layout Raw.fieldSet_lays _ _ _)
  | expire key d => exact layout_expire now now key d db
  | persist key => exact layout_persist now key db
  | ttl key => exact congrArg (db.layout, ·) (layout_ttl now now key db)
  | publish channel payload => rfl

theorem layout_dispatch (now : Time) (order : RangeOrder) (request : Protocol.Value) (db : DB) :
    db.layout.dispatch now order request =
      ((db.dispatch now order request).1.layout, (db.dispatch now order request).2) :=
  Cmd.dispatch_map DB.layout (layout_call now order) request db

end DB

/-! ### The reaper -/

/-- A pair that a loop over a laid-out map meets. -/
def layoutPair (p : Bytes × Entry) : Bytes × Raw.Entry := (p.1, p.2.layout)

namespace Raw.DB.Walk

variable (walk : Raw.DB.Walk) (i : Fin shardCount) (sh : Store.Shard)

/-- The entries a walk over the layout of a map meets, read back. -/
def entries : List (Bytes × Store.Entry) :=
  (walk.shard i sh.layout).map fun p => (p.1, p.2.entry)

theorem mem_shard (key : Bytes) (e : Raw.Entry) :
    (key, e) ∈ walk.shard i sh.layout ↔ ∃ e', sh.lookup key = some e' ∧ e'.layout = e := by
  rw [(walk.lists i sh.layout).mem_iff, Shard.lookup_layout, Option.map_eq_some_iff]

/-- What was laid out and met is laid out as it was met. -/
theorem map_entries : (walk.entries i sh).map layoutPair = walk.shard i sh.layout := by
  rw [entries, List.map_map]
  conv_rhs => rw [← List.map_id (walk.shard i sh.layout)]
  refine List.map_congr_left fun p hp => ?_
  obtain ⟨e, -, he⟩ := (walk.mem_shard i sh p.1 p.2).1 hp
  rw [Function.comp_apply, layoutPair, ← he, Entry.entry_layout, he]
  rfl

theorem lists_entries : Lists (walk.entries i sh) sh := by
  refine ⟨?_, fun key e => ?_⟩
  · rw [entries, List.map_map]
    exact (walk.lists i sh.layout).nodup
  · simp only [entries, List.mem_map, Prod.mk.injEq, Prod.exists, mem_shard]
    constructor
    · rintro ⟨_, _, ⟨e', he', rfl⟩, rfl, rfl⟩
      rwa [Entry.entry_layout]
    · exact fun he => ⟨key, e.layout, ⟨e, he, rfl⟩, rfl, e.entry_layout⟩

/-- A range order of the model that meets the shards' entries as the walk does. -/
def order : RangeOrder :=
  { RangeOrder.sorted with shard := walk.entries, shard_lists := walk.lists_entries }

end Raw.DB.Walk

namespace DB

theorem layout_reapShard (now : Time) (l : List (Bytes × Entry)) (sh : Shard) (s x : Nat) :
    Raw.DB.reapShard now (l.map layoutPair) sh.layout s x =
      ((reapShard now l sh s x).1.layout, (reapShard now l sh s x).2) := by
  induction l generalizing sh s x with
  | nil => rfl
  | cons p rest ih =>
      obtain ⟨key, e⟩ := p
      simp only [List.map_cons, layoutPair, Raw.DB.reapShard, reapShard, Entry.layout_expireAt,
        Entry.layout_expired]
      cases e.expireAt with
      | none => exact ih sh s x
      | some d =>
          -- the entry is sampled, and deleted if it is due; then the budget is looked at
          by_cases he : e.expired now
          · simp only [he, if_true, ← Shard.layout_erase]
            split
            · rfl
            · exact ih _ _ _
          · simp only [he, if_false, Bool.false_eq_true]
            split
            · rfl
            · exact ih _ _ _

theorem layout_reapShards (now : Time) (walk : Raw.DB.Walk) (is : List (Fin shardCount)) (db : DB)
    (s x : Nat) :
    Raw.DB.reapShards now walk is db.layout s x =
      ((reapShards now walk.order is db s x).1.layout,
        (reapShards now walk.order is db s x).2) := by
  induction is generalizing db s x with
  | nil => rfl
  | cons i is ih =>
      have hone := layout_reapShard now (walk.entries i (db.shards i)) (db.shards i) s x
      rw [walk.map_entries] at hone
      simp only [Raw.DB.reapShards, reapShards]
      split
      · change Raw.DB.reapShard now (walk.shard i (db.layout.shards i)) (db.layout.shards i) s x = _
          at hone
        rw [hone, layout_update]
        exact ih _ _ _
      · rfl

/-- **A pass of the reaper does to the layout what it does to the store.** -/
theorem layout_activeExpiryPass (now : Time) (start : Fin shardCount) (walk : Raw.DB.Walk)
    (db : DB) :
    db.layout.activeExpiryPass now start walk =
      ((db.activeExpiryPass now start walk.order).1.layout,
        (db.activeExpiryPass now start walk.order).2) := by
  unfold Raw.DB.activeExpiryPass activeExpiryPass
  rw [layout_reapShards]

end DB

end MiniRedis.Store
