import MiniRedis.Store.Entry

/-!
# Store — Shard

One of the independent maps the keyspace is split across (`internal/db/shard.go`), the lookups
every keyed method goes through, and the three shapes a method body has under its shard's lock:
reading through `peek`, filling a created entry, and taking from an existing one.  A method
passes its kind and its own loop; the source's `listEntry`, `hashEntry` and `setEntry` are
`typedEntry` at `kindList`, `kindHash` and `kindSet`.

Expired entries stay in the map until a lookup of the write side meets them, so `peek` and
`liveEntry` differ in the map they leave and agree on what they answer (`liveEntry_snd`).
-/

namespace MiniRedis.Store

open Maps

/-- A shard's map. -/
abbrev Shard := Dict Bytes Entry

/-- The shards of the keyspace. -/
def shardCount : Nat := 32

/-- FNV-1a over 32 bits, as `hash/fnv` computes it. -/
def fnv32a (key : Bytes) : UInt32 :=
  key.foldl (fun h c => (h ^^^ c.toUInt32) * 16777619) 2166136261

/-- The shard a key is routed to. -/
def shardIndex (key : Bytes) : Fin shardCount :=
  ⟨(fnv32a key).toNat % shardCount, Nat.mod_lt _ (by decide)⟩

namespace Shard

variable {α β : Type} (now : Time) (key : Bytes)

/-- The entry of `key` unless it has expired; nothing is removed. -/
def peek (sh : Shard) : Option Entry :=
  match sh.lookup key with
  | none => none
  | some e => if e.expired now then none else some e

/-- The entry of `key`, an expired one being deleted first. -/
def liveEntry (sh : Shard) : Shard × Option Entry :=
  match sh.lookup key with
  | none => (sh, none)
  | some e => if e.expired now then (sh.erase key, none) else (sh, some e)

/-- The live entry of `key` as one of kind `K`: its field and the deadline it carries.  An
absent key is created empty on demand; an entry of another kind is an error. -/
def typedEntry (K : Kind β) (create : Bool) (sh : Shard) :
    Shard × Except StoreError (Option (β × Option Time)) :=
  match liveEntry now key sh with
  | (sh, none) =>
      if create then (sh.insert key ⟨K.wrap K.empty, none⟩, .ok (some (K.empty, none)))
      else (sh, .ok none)
  | (sh, some e) =>
      match K.unwrap e.payload with
      | none => (sh, .error .wrongType)
      | some b => (sh, .ok (some (b, e.expireAt)))

/-- A method that creates the key on demand and then fills it by `f`. -/
def fill (K : Kind β) (f : β → β × α) (sh : Shard) : Shard × Except StoreError α :=
  match typedEntry now key K true sh with
  | (sh, .error err) => (sh, .error err)
  | (sh, .ok found) =>
      let (b, deadline) := found.getD (K.empty, none)
      (sh.insert key ⟨K.wrap (f b).1, deadline⟩, .ok (f b).2)

/-- A method that takes from an existing key by `f` and deletes a key it has emptied.  Where
`f` has nothing to take (a pop from an empty list) the method returns at once. -/
def take [DecidableEq β] (K : Kind β) (absent : α) (f : β → Option (β × α)) (sh : Shard) :
    Shard × Except StoreError α :=
  match typedEntry now key K false sh with
  | (sh, .error err) => (sh, .error err)
  | (sh, .ok none) => (sh, .ok absent)
  | (sh, .ok (some (b, deadline))) =>
      match f b with
      | none => (sh, .ok absent)
      | some (b', a) =>
          if b' = K.empty then (sh.erase key, .ok a)
          else (sh.insert key ⟨K.wrap b', deadline⟩, .ok a)

/-- A method that only reads, under the shared lock. -/
def read (K : Kind β) (absent : α) (f : β → α) (sh : Shard) : Except StoreError α :=
  match peek now key sh with
  | none => .ok absent
  | some e =>
      match K.unwrap e.payload with
      | none => .error .wrongType
      | some b => .ok (f b)

/-! ### What the lookups find -/

variable {now key}

theorem peek_eq_some {sh : Shard} {e : Entry} :
    peek now key sh = some e ↔ sh.lookup key = some e ∧ e.expired now = false := by
  unfold peek
  cases sh.lookup key with
  | none => simp
  | some e' =>
      by_cases he : e'.expired now
      · simp only [he, if_true, reduceCtorEq, false_iff, not_and, Option.some.injEq]
        rintro rfl
        simp [he]
      · simp only [he, if_false, Option.some.injEq, Bool.false_eq_true]
        exact ⟨fun h => ⟨h, by rw [← h]; simpa using he⟩, And.left⟩

theorem peek_congr {sh sh' : Shard} (h : sh.lookup key = sh'.lookup key) :
    peek now key sh = peek now key sh' := by
  unfold peek
  rw [h]

/-- A live entry at a later time was live before. -/
theorem peek_later {t u : Time} (h : t ≤ u) (sh : Shard) :
    peek u key sh = (peek t key sh).filter fun e => !e.expired u := by
  unfold peek
  cases sh.lookup key with
  | none => rfl
  | some e =>
      by_cases ht : e.expired t
      · simp [ht, Entry.expired_mono h ht]
      · by_cases hu : e.expired u <;> simp [ht, hu, Option.filter_some]

@[simp] theorem liveEntry_snd (sh : Shard) : (liveEntry now key sh).2 = peek now key sh := by
  unfold liveEntry peek
  cases sh.lookup key with
  | none => rfl
  | some e => by_cases he : e.expired now <;> simp [he]

/-- `liveEntry` leaves at `key` what it answered, and nothing else changed. -/
theorem liveEntry_lookup (sh : Shard) (k : Bytes) :
    (liveEntry now key sh).1.lookup k =
      if k = key then peek now key sh else sh.lookup k := by
  unfold liveEntry peek
  cases h : sh.lookup key with
  | none =>
      by_cases hk : k = key
      · subst hk; simp [h]
      · simp [hk]
  | some e =>
      by_cases he : e.expired now
      · simp [he, lookup_erase_ite]
      · by_cases hk : k = key
        · subst hk; simp [he, h]
        · simp [he, hk]

end Shard

end MiniRedis.Store
