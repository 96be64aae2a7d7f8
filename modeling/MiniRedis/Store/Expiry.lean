import MiniRedis.Store.DB

/-!
# Store — Expiry

The sampling reaper (`activeExpiryPass` of `internal/db/expiry.go`): from a random shard on it
inspects keys that carry a deadline, up to a budget shared by all shards, and deletes the
expired ones.  The clock is read once, at the start of the pass.

What an eviction may do to a shard is `Reaped`: every entry that is left was there before, and
every entry that is persistent or not yet due is left.
-/

namespace MiniRedis.Store

open Maps

/-- The keys with a deadline that one pass looks at. -/
def activeExpirySample : Nat := 20

namespace DB

/-- The loop over one shard's entries: the map, the keys sampled and the keys expired so far. -/
def reapShard (now : Time) : List (Bytes × Entry) → Shard → Nat → Nat → Shard × Nat × Nat
  | [], sh, sampled, expired => (sh, sampled, expired)
  | (key, e) :: rest, sh, sampled, expired =>
      match e.expireAt with
      | none => reapShard now rest sh sampled expired
      | some _ =>
          let (sh, expired) := if e.expired now then (sh.erase key, expired + 1) else (sh, expired)
          if activeExpirySample ≤ sampled + 1 then (sh, sampled + 1, expired)
          else reapShard now rest sh (sampled + 1) expired

/-- The loop over the shards, while the budget lasts. -/
def reapShards (now : Time) (order : RangeOrder) :
    List (Fin shardCount) → DB → Nat → Nat → DB × Nat × Nat
  | [], db, sampled, expired => (db, sampled, expired)
  | i :: is, db, sampled, expired =>
      if sampled < activeExpirySample then
        let (sh, sampled, expired) :=
          reapShard now (order.shard i (db.shards i)) (db.shards i) sampled expired
        reapShards now order is { db with shards := Function.update db.shards i sh } sampled expired
      else (db, sampled, expired)

/-- The shards in the order a pass visits them. -/
def walkFrom (start : Fin shardCount) : List (Fin shardCount) :=
  (List.range shardCount).map fun i => ⟨(start.val + i) % shardCount, Nat.mod_lt _ (by decide)⟩

/-- One pass: whether more than a quarter of the sample had expired. -/
def activeExpiryPass (now : Time) (start : Fin shardCount) (order : RangeOrder) (db : DB) :
    DB × Bool :=
  let (db, sampled, expired) := reapShards now order (walkFrom start) db 0 0
  (db, decide (0 < sampled ∧ sampled < 4 * expired))

/-! ### Evictions spare the living -/

/-- A map with some expired entries taken out: what remains was there, and what is missing had
expired. -/
structure Reaped (now : Time) (sh sh' : Shard) : Prop where
  kept : ∀ key e, sh'.lookup key = some e → sh.lookup key = some e
  lost : ∀ key e, sh.lookup key = some e → e.expired now = false → sh'.lookup key = some e

theorem Reaped.refl (now : Time) (sh : Shard) : Reaped now sh sh :=
  ⟨fun _ _ h => h, fun _ _ h _ => h⟩

theorem Reaped.trans {now : Time} {sh sh' sh'' : Shard} (h : Reaped now sh sh')
    (h' : Reaped now sh' sh'') : Reaped now sh sh'' :=
  ⟨fun key e he => h.kept key e (h'.kept key e he),
    fun key e he hx => h'.lost key e (h.lost key e he hx) hx⟩

theorem Reaped.erase {now : Time} {sh : Shard} {key : Bytes}
    (h : ∀ e, sh.lookup key = some e → e.expired now = true) : Reaped now sh (sh.erase key) where
  kept k e he := by
    rw [lookup_erase_ite] at he
    split at he
    · cases he
    · exact he
  lost k e he hx := by
    rw [lookup_erase_ite]
    split
    case isTrue hk => subst hk; rw [h e he] at hx; cases hx
    case isFalse => exact he

/-- A reaped map answers lookups of live entries as before. -/
theorem Reaped.peek {now u : Time} {sh sh' : Shard} (h : Reaped now sh sh') (hu : now ≤ u)
    (key : Bytes) : Shard.peek u key sh' = Shard.peek u key sh := by
  refine Option.ext fun e => ?_
  rw [Shard.peek_eq_some, Shard.peek_eq_some]
  refine and_congr_left fun hx => ⟨h.kept key e, fun he => h.lost key e he ?_⟩
  by_contra hn
  rw [Entry.expired_mono hu (by simpa using hn)] at hx
  cases hx

theorem liveEntry_reaped (now : Time) (key : Bytes) (sh : Shard) :
    Reaped now sh (Shard.liveEntry now key sh).1 := by
  unfold Shard.liveEntry
  cases h : sh.lookup key with
  | none => exact .refl now sh
  | some e =>
      by_cases he : e.expired now
      · simp only [he, if_true]
        exact .erase fun e' he' => by rw [h] at he'; cases he'; exact he
      · simp only [he, if_false, Bool.false_eq_true]
        exact .refl now sh

/-- The eviction behind a read deletes what its own reading finds expired. -/
theorem expireIfNeeded_reaped (now : Time) (key : Bytes) (db : DB) (i : Fin shardCount) :
    Reaped now (db.shards i) ((db.expireIfNeeded now key).1.shards i) := by
  rw [expireIfNeeded, shards_locked]
  split
  case isFalse => exact .refl now _
  case isTrue hi =>
    subst hi
    change Reaped now (db.shardFor key) _
    cases hl : (db.shardFor key).lookup key with
    | none => exact .refl now _
    | some e =>
        by_cases he : e.expired now
        · simp only [he, if_true]
          exact .erase fun e' he' => by rw [hl] at he'; cases he'; exact he
        · simp only [he, if_false, Bool.false_eq_true]
          exact .refl now _

theorem get_reaped (t₁ t₂ : Time) (key : Bytes) (db : DB) (i : Fin shardCount) :
    Reaped t₂ (db.shards i) ((db.get t₁ t₂ key).1.shards i) := by
  unfold get
  cases (db.shardFor key).lookup key with
  | none => exact .refl t₂ _
  | some e =>
      by_cases he : e.expired t₁
      · simp only [he, if_true]
        exact expireIfNeeded_reaped t₂ key db i
      · simp only [he, if_false, Bool.false_eq_true]
        cases kindString.unwrap e.payload <;> exact .refl t₂ _

/-- One shard's loop deletes expired entries only, provided it ranges over entries that the map
had: `l` is a list of entries of the map the loop started from. -/
theorem reapShard_reaped {now : Time} : ∀ (l : List (Bytes × Entry)) (sh : Shard) (s x : Nat),
    (∀ p ∈ l, ∀ e, sh.lookup p.1 = some e → e = p.2) →
      Reaped now sh (reapShard now l sh s x).1
  | [], sh, _, _, _ => .refl now sh
  | (key, e) :: rest, sh, s, x, h => by
      have hrest : ∀ p ∈ rest, ∀ e, sh.lookup p.1 = some e → e = p.2 :=
        fun p hp => h p (List.mem_cons_of_mem _ hp)
      rw [reapShard]
      cases e.expireAt with
      | none => exact reapShard_reaped rest sh s x hrest
      | some d =>
          by_cases he : e.expired now
          · have hdel : Reaped now sh (sh.erase key) := by
              refine .erase fun e' he' => ?_
              rw [h _ List.mem_cons_self e' he']
              exact he
            simp only [he, if_true]
            split
            · exact hdel
            · exact hdel.trans (reapShard_reaped rest _ _ _ fun p hp e' he' =>
                hrest p hp e' (hdel.kept _ _ he'))
          · simp only [he, if_false, Bool.false_eq_true]
            split
            · exact .refl now sh
            · exact reapShard_reaped rest sh _ _ hrest

/-- A pass drops entries that are due only. -/
theorem reapShards_reaped {now : Time} {order : RangeOrder} :
    ∀ (is : List (Fin shardCount)) (db : DB) (s x : Nat) (i : Fin shardCount),
      Reaped now (db.shards i) ((reapShards now order is db s x).1.shards i)
  | [], db, _, _, i => .refl now (db.shards i)
  | j :: is, db, s, x, i => by
      rw [reapShards]
      split
      · have hone : Reaped now (db.shards j)
            (reapShard now (order.shard j (db.shards j)) (db.shards j) s x).1 := by
          refine reapShard_reaped _ _ _ _ fun p hp e he => ?_
          rw [((order.shard_lists j (db.shards j)).mem_iff p.1 p.2).1 hp] at he
          exact (Option.some.inj he).symm
        refine .trans ?_ (reapShards_reaped is _ _ _ i)
        by_cases hi : i = j
        · subst hi; simpa using hone
        · simp only [Function.update_of_ne hi]; exact .refl now _
      · exact .refl now _

theorem reapShards_pubsub {now : Time} {order : RangeOrder} :
    ∀ (is : List (Fin shardCount)) (db : DB) (s x : Nat),
      (reapShards now order is db s x).1.pubsub = db.pubsub
  | [], _, _, _ => rfl
  | j :: is, db, s, x => by
      rw [reapShards]
      split
      · exact reapShards_pubsub is _ _ _
      · rfl

/-- **A pass of the reaper drops entries that are due only.** -/
theorem activeExpiryPass_reaped (now : Time) (start : Fin shardCount) (order : RangeOrder)
    (db : DB) (i : Fin shardCount) :
    Reaped now (db.shards i) ((db.activeExpiryPass now start order).1.shards i) := by
  rw [activeExpiryPass]
  exact reapShards_reaped (walkFrom start) db 0 0 i

theorem activeExpiryPass_pubsub (now : Time) (start : Fin shardCount) (order : RangeOrder)
    (db : DB) : (db.activeExpiryPass now start order).1.pubsub = db.pubsub := by
  rw [activeExpiryPass]
  exact reapShards_pubsub (walkFrom start) db 0 0

end DB

end MiniRedis.Store
