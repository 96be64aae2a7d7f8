import Mathlib.Data.Fintype.Card
import Mathlib.Data.Nat.ModEq
import MiniRedis.Store.Expiry

/-!
# Store — Draining

What one pass of the reaper inspects and deletes, and why the loop that repeats hot passes ends.

The loops of `activeExpiryPass` only count the keys they sample.  `traceShard` and `traceShards`
are the same loops with the list of places in the counter's stead; forgetting the places gives the
source's loops back (`reapShards_eq`).  A place is a shard and a key, so that nothing is assumed
about routing.

* `traceShards_spec`: the places inspected are the first twenty of those that carry a deadline,
  in the order of the walk; a place is emptied just when it is inspected and due.
* `drain_stops`: a hot pass takes out a deadline, so the passes run out.
-/

namespace MiniRedis.Store

open Maps

/-- Where an entry stands: the shard and the key. -/
abbrev Place := Fin shardCount × Bytes

/-- The entry carries a deadline. -/
def Entry.hasTTL (e : Entry) : Bool := e.expireAt.isSome

namespace DB

/-! ### The loops, with what they inspect -/

/-- `reapShard` on shard `i`, with the places sampled so far. -/
def traceShard (now : Time) (i : Fin shardCount) :
    List (Bytes × Entry) → Shard → List Place → Nat → Shard × List Place × Nat
  | [], sh, seen, expired => (sh, seen, expired)
  | (key, e) :: rest, sh, seen, expired =>
      match e.expireAt with
      | none => traceShard now i rest sh seen expired
      | some _ =>
          let (sh, expired) := if e.expired now then (sh.erase key, expired + 1) else (sh, expired)
          if activeExpirySample ≤ seen.length + 1 then (sh, seen ++ [(i, key)], expired)
          else traceShard now i rest sh (seen ++ [(i, key)]) expired

/-- The database with another map in one shard. -/
def setShard (db : DB) (i : Fin shardCount) (sh : Shard) : DB :=
  { db with shards := Function.update db.shards i sh }

/-- `reapShards`, with the places sampled so far. -/
def traceShards (now : Time) (order : RangeOrder) :
    List (Fin shardCount) → DB → List Place → Nat → DB × List Place × Nat
  | [], db, seen, expired => (db, seen, expired)
  | i :: is, db, seen, expired =>
      if seen.length < activeExpirySample then
        let (sh, seen, expired) :=
          traceShard now i (order.shard i (db.shards i)) (db.shards i) seen expired
        traceShards now order is (db.setShard i sh) seen expired
      else (db, seen, expired)

/-- The places that a pass inspects, in this order. -/
def inspected (now : Time) (start : Fin shardCount) (order : RangeOrder) (db : DB) : List Place :=
  (traceShards now order (walkFrom start) db [] 0).2.1

/-- The pass over a shard, with the places it looked at put down. -/
theorem reapShard_eq (now : Time) (i : Fin shardCount) :
    ∀ (l : List (Bytes × Entry)) (sh : Shard) (seen : List Place) (x : Nat),
      reapShard now l sh seen.length x =
        ((traceShard now i l sh seen x).1, (traceShard now i l sh seen x).2.1.length,
          (traceShard now i l sh seen x).2.2)
  | [], _, _, _ => rfl
  | (key, e) :: rest, sh, seen, x => by
      have hlen : seen.length + 1 = (seen ++ [(i, key)]).length := by simp
      rw [reapShard, traceShard]
      cases e.expireAt with
      | none => exact reapShard_eq now i rest sh seen x
      | some d =>
          dsimp only
          split
          · rw [hlen]
          · rw [hlen]
            exact reapShard_eq now i rest _ _ _

/-- **Forgetting the places gives the source's loop.** -/
theorem reapShards_eq (now : Time) (order : RangeOrder) :
    ∀ (is : List (Fin shardCount)) (db : DB) (seen : List Place) (x : Nat),
      reapShards now order is db seen.length x =
        ((traceShards now order is db seen x).1, (traceShards now order is db seen x).2.1.length,
          (traceShards now order is db seen x).2.2)
  | [], _, _, _ => rfl
  | i :: is, db, seen, x => by
      rw [reapShards, traceShards]
      split
      · rw [reapShard_eq now i]
        exact reapShards_eq now order is _ _ _
      · rfl

/-- The whole pass, with the places it looked at put down. -/
theorem activeExpiryPass_eq (now : Time) (start : Fin shardCount) (order : RangeOrder) (db : DB) :
    db.activeExpiryPass now start order =
      ((traceShards now order (walkFrom start) db [] 0).1,
        decide (0 < (db.inspected now start order).length ∧ (db.inspected now start order).length <
          4 * (traceShards now order (walkFrom start) db [] 0).2.2)) := by
  rw [activeExpiryPass, ← List.length_nil (α := Place), reapShards_eq]
  rfl

/-! ### What the loops inspect -/

/-- The entries of the shards `is` that carry a deadline, in the order of the walk. -/
def candidates (order : RangeOrder) (db : DB) (is : List (Fin shardCount)) :
    List (Place × Entry) :=
  is.flatMap fun i =>
    ((order.shard i (db.shards i)).filter (·.2.hasTTL)).map fun p => ((i, p.1), p.2)

/-- The entry at a place. -/
def entryAt (db : DB) (p : Place) : Option Entry := (db.shards p.1).lookup p.2

/-- The places of the expired ones among some entries. -/
def dues (now : Time) (took : List (Place × Entry)) : List Place :=
  (took.filter (·.2.expired now)).map Prod.fst

/-- `db'` is `db` with the places of the expired ones among `took` emptied. -/
def Cleared (now : Time) (took : List (Place × Entry)) (db db' : DB) : Prop :=
  ∀ p, db'.entryAt p = if p ∈ dues now took then none else db.entryAt p

theorem Cleared.trans {now : Time} {l l' : List (Place × Entry)} {db db' db'' : DB}
    (h : Cleared now l db db') (h' : Cleared now l' db' db'') : Cleared now (l ++ l') db db'' := by
  intro p
  have hdues : dues now (l ++ l') = dues now l ++ dues now l' := by simp [dues]
  rw [h' p, h p, hdues]
  by_cases hp : p ∈ dues now l' <;> simp [hp]

/-- One shard's loop takes the next entries with a deadline, as many as the budget leaves. -/
theorem traceShard_spec (now : Time) (i : Fin shardCount) :
    ∀ (l : List (Bytes × Entry)) (sh : Shard) (seen : List Place) (x : Nat),
      seen.length < activeExpirySample →
      let took := (l.filter (·.2.hasTTL)).take (activeExpirySample - seen.length)
      traceShard now i l sh seen x =
        ((dropAll sh ((took.filter (·.2.expired now)).map Prod.fst)).1,
          seen ++ took.map (fun p => (i, p.1)), x + took.countP (·.2.expired now))
  | [], sh, seen, x, _ => by simp [traceShard, dropAll]
  | (key, e) :: rest, sh, seen, x, h => by
      cases hx : e.expireAt with
      | none =>
          have hskip : e.hasTTL = false := by rw [Entry.hasTTL, hx]; rfl
          simp only [traceShard, hx, List.filter_cons, hskip, Bool.false_eq_true, if_false]
          exact traceShard_spec now i rest sh seen x h
      | some d =>
          have htake : e.hasTTL = true := by rw [Entry.hasTTL, hx]; rfl
          -- The entry is the first one taken, and leaves one place less in the budget.
          have hbudget : activeExpirySample - seen.length =
              activeExpirySample - (seen ++ [(i, key)]).length + 1 := by
            rw [List.length_append, List.length_singleton]
            omega
          simp only [traceShard, hx, List.filter_cons, htake, if_true, hbudget,
            List.take_succ_cons, List.map_cons, List.countP_cons]
          split
          case isTrue hfull =>
            have hnone : activeExpirySample - (seen ++ [(i, key)]).length = 0 := by
              rw [List.length_append, List.length_singleton]
              omega
            rw [hnone]
            by_cases he : e.expired now <;> simp [he, dropAll]
          case isFalse hroom =>
            have hlt : (seen ++ [(i, key)]).length < activeExpirySample := by
              rw [List.length_append, List.length_singleton]
              omega
            rw [traceShard_spec now i rest _ _ _ hlt]
            by_cases he : e.expired now
            · simp [he, dropAll, Nat.add_assoc, Nat.add_comm 1]
            · simp [he]

/-- Erasing the expired ones among some entries of one shard. -/
theorem cleared_update (now : Time) (j : Fin shardCount) (one : List (Bytes × Entry)) (db : DB) :
    Cleared now (one.map fun p => ((j, p.1), p.2)) db
      (db.setShard j (dropAll (db.shards j) ((one.filter (·.2.expired now)).map Prod.fst)).1) := by
  rintro ⟨i, key⟩
  by_cases hi : i = j
  · subst hi
    have hmem : (i, key) ∈ dues now (one.map fun p => ((i, p.1), p.2)) ↔
        key ∈ (one.filter (·.2.expired now)).map Prod.fst := by
      simp [dues]
    simp only [entryAt, setShard, Function.update_self, lookup_dropAll]
    by_cases hkey : key ∈ (one.filter (·.2.expired now)).map Prod.fst
    · rw [if_pos hkey, if_pos (hmem.2 hkey)]
    · rw [if_neg hkey, if_neg (hmem.not.2 hkey)]
  · have hmem : (i, key) ∉ dues now (one.map fun p => ((j, p.1), p.2)) := by
      simp [dues, Ne.symm hi]
    simp only [entryAt, setShard, Function.update_of_ne hi, if_neg hmem]

theorem candidates_cons (order : RangeOrder) (db : DB) (j : Fin shardCount)
    (is : List (Fin shardCount)) :
    candidates order db (j :: is) =
      ((order.shard j (db.shards j)).filter (·.2.hasTTL)).map (fun p => ((j, p.1), p.2)) ++
        candidates order db is :=
  List.flatMap_cons

theorem candidates_setShard {order : RangeOrder} {db : DB} {j : Fin shardCount} {sh : Shard}
    {is : List (Fin shardCount)} (h : j ∉ is) :
    candidates order (db.setShard j sh) is = candidates order db is := by
  refine List.flatMap_congr fun i hi => ?_
  have hne : i ≠ j := fun he => h (he ▸ hi)
  simp only [setShard, Function.update_of_ne hne]

/-- **What the walk inspects and deletes.**  The loop over the shards takes the next entries with a
deadline, as many as the budget leaves, and empties the places of the expired ones. -/
theorem traceShards_spec (now : Time) (order : RangeOrder) :
    ∀ (is : List (Fin shardCount)) (db : DB) (seen : List Place) (x : Nat), is.Nodup →
      let took := (candidates order db is).take (activeExpirySample - seen.length)
      let r := traceShards now order is db seen x
      r.2.1 = seen ++ took.map Prod.fst ∧ r.2.2 = x + (dues now took).length ∧
        Cleared now took db r.1
  | [], db, seen, x, _ => by simp [traceShards, candidates, dues, Cleared]
  | j :: is, db, seen, x, hn => by
      obtain ⟨hj, hn⟩ := List.nodup_cons.1 hn
      by_cases hroom : seen.length < activeExpirySample
      case neg =>
        have hnone : activeExpirySample - seen.length = 0 := by omega
        simp [traceShards, hroom, hnone, dues, Cleared]
      case pos =>
        rw [traceShards, if_pos hroom, traceShard_spec now j _ _ _ _ hroom, candidates_cons,
          List.take_append, List.length_map, ← List.map_take]
        dsimp only
        generalize hown : (order.shard j (db.shards j)).filter (·.2.hasTTL) = own
        generalize hone : own.take (activeExpirySample - seen.length) = one
        -- What this shard leaves of the budget is what the other shards share.
        have hleft : activeExpirySample - (seen ++ one.map fun p => (j, p.1)).length =
            activeExpirySample - seen.length - own.length := by
          rw [← hone, List.length_append, List.length_map, List.length_take]
          omega
        obtain ⟨hseen, hcount, hclear⟩ := traceShards_spec now order is
          (db.setShard j (dropAll (db.shards j) ((one.filter (·.2.expired now)).map Prod.fst)).1)
          (seen ++ one.map fun p => (j, p.1)) (x + one.countP (·.2.expired now)) hn
        rw [candidates_setShard hj, hleft] at hseen hcount hclear
        refine ⟨hseen.trans ?_, hcount.trans ?_, (cleared_update now j one db).trans hclear⟩
        · simp
        · simp [dues, List.countP_eq_length_filter, List.filter_map, Function.comp_def,
            Nat.add_assoc]

/-! ### The walk covers every shard once -/

/-- A pass comes to no shard twice, -/
theorem nodup_walkFrom (start : Fin shardCount) : (walkFrom start).Nodup := by
  refine List.Nodup.map_on (fun i hi j hj h => ?_) List.nodup_range
  have hmod : start.val + i ≡ start.val + j [MOD shardCount] := Fin.ext_iff.1 h
  exact (hmod.add_left_cancel' _).eq_of_lt_of_lt (List.mem_range.1 hi) (List.mem_range.1 hj)

/-- and would come to every shard. -/
theorem mem_walkFrom (start i : Fin shardCount) : i ∈ walkFrom start := by
  have hall : (walkFrom start).toFinset = Finset.univ := by
    refine Finset.eq_univ_of_card _ ?_
    rw [List.toFinset_card_of_nodup (nodup_walkFrom start), walkFrom, List.length_map,
      List.length_range, Fintype.card_fin]
  rw [← List.mem_toFinset, hall]
  exact Finset.mem_univ i

/-- The places whose entry carries a deadline. -/
def ttlPlaces (db : DB) : Finset Place :=
  Finset.univ.biUnion fun i =>
    ((db.shards i).keys.filter fun key => (db.entryAt (i, key)).any Entry.hasTTL).image (Prod.mk i)

theorem mem_ttlPlaces {db : DB} {p : Place} :
    p ∈ db.ttlPlaces ↔ ∃ e, db.entryAt p = some e ∧ e.hasTTL = true := by
  obtain ⟨i, key⟩ := p
  simp only [ttlPlaces, Finset.mem_biUnion, Finset.mem_univ, true_and, Finset.mem_image,
    Finset.mem_filter, Finmap.mem_keys, Option.any_eq_true, Prod.mk.injEq]
  constructor
  · rintro ⟨i', key', ⟨-, he⟩, rfl, rfl⟩
    exact he
  · rintro ⟨e, he, ht⟩
    exact ⟨i, key, ⟨Finmap.mem_of_lookup_eq_some he, e, he, ht⟩, rfl, rfl⟩

/-- The candidates are the entries with a deadline. -/
theorem mem_candidates {order : RangeOrder} {db : DB} {is : List (Fin shardCount)} {p : Place}
    {e : Entry} : (p, e) ∈ candidates order db is ↔
      p.1 ∈ is ∧ db.entryAt p = some e ∧ e.hasTTL = true := by
  obtain ⟨i, key⟩ := p
  simp only [candidates, List.mem_flatMap, List.mem_map, List.mem_filter, Prod.exists,
    (order.shard_lists _ _).mem_iff, Prod.mk.injEq, entryAt]
  constructor
  · rintro ⟨i', hi, key', e', ⟨he, ht⟩, ⟨rfl, rfl⟩, rfl⟩
    exact ⟨hi, he, ht⟩
  · rintro ⟨hi, he, ht⟩
    exact ⟨i, hi, key, e, ⟨he, ht⟩, ⟨rfl, rfl⟩, rfl⟩

theorem nodup_candidates (order : RangeOrder) (db : DB) :
    ∀ is : List (Fin shardCount), is.Nodup → ((candidates order db is).map Prod.fst).Nodup
  | [], _ => List.nodup_nil
  | j :: is, hn => by
      obtain ⟨hj, hn⟩ := List.nodup_cons.1 hn
      rw [candidates_cons, List.map_append, List.map_map]
      refine List.Nodup.append ?_ (nodup_candidates order db is hn) ?_
      · have hkeys : (((order.shard j (db.shards j)).filter (·.2.hasTTL)).map Prod.fst).Nodup :=
          (order.shard_lists j (db.shards j)).nodup.sublist (List.filter_sublist.map _)
        simpa [List.map_map, Function.comp_def] using
          hkeys.map (Prod.mk_right_injective j)
      · intro p hown hrest
        obtain ⟨⟨q, e⟩, hq, rfl⟩ := List.mem_map.1 hrest
        obtain ⟨r, -, hr⟩ := List.mem_map.1 hown
        have hqj : q.1 = j := (congrArg Prod.fst hr).symm
        exact hj (hqj ▸ (mem_candidates.1 hq).1)

/-- There are as many candidates as keys with a deadline. -/
theorem length_candidates (order : RangeOrder) (db : DB) (start : Fin shardCount) :
    (candidates order db (walkFrom start)).length = db.ttlPlaces.card := by
  have hset : ((candidates order db (walkFrom start)).map Prod.fst).toFinset = db.ttlPlaces := by
    ext p
    simp only [List.mem_toFinset, List.mem_map, Prod.exists, mem_candidates, mem_ttlPlaces,
      exists_and_right, exists_eq_right, mem_walkFrom, true_and]
  rw [← hset, List.toFinset_card_of_nodup (nodup_candidates order db _ (nodup_walkFrom start)),
    List.length_map]

/-! ### One pass -/

section Pass

variable (now : Time) (start : Fin shardCount) (order : RangeOrder) (db : DB)

/-- The entry at `p` is there and has expired. -/
def due (p : Place) : Bool := (db.entryAt p).any (·.expired now)

/-- A pass looks at the first candidates, as many as the sample has room for. -/
theorem inspected_eq : db.inspected now start order =
    ((candidates order db (walkFrom start)).take activeExpirySample).map Prod.fst :=
  (traceShards_spec now order (walkFrom start) db [] 0 (nodup_walkFrom start)).1

/-- It looks at no place twice. -/
theorem nodup_inspected : (db.inspected now start order).Nodup := by
  rw [inspected_eq]
  exact (nodup_candidates order db _ (nodup_walkFrom start)).sublist
    ((List.take_sublist _ _).map _)

/-- It looks at all keys with a deadline, or at a full sample. -/
theorem length_inspected :
    (db.inspected now start order).length = min activeExpirySample db.ttlPlaces.card := by
  rw [inspected_eq, List.length_map, List.length_take, length_candidates]

theorem mem_ttlPlaces_of_inspected {p : Place} (h : p ∈ db.inspected now start order) :
    p ∈ db.ttlPlaces := by
  rw [inspected_eq] at h
  obtain ⟨⟨q, e⟩, hq, rfl⟩ := List.mem_map.1 h
  exact mem_ttlPlaces.2 ⟨e, (mem_candidates.1 (List.mem_of_mem_take hq)).2⟩

/-- What it drops are the places it looked at that are due. -/
theorem dues_eq :
    dues now ((candidates order db (walkFrom start)).take activeExpirySample) =
      (db.inspected now start order).filter (db.due now) := by
  rw [inspected_eq, List.filter_map, dues]
  refine congrArg _ (List.filter_congr fun q hq => ?_)
  rw [Function.comp_apply, due, (mem_candidates.1 (List.mem_of_mem_take hq)).2.1, Option.any_some]

/-- **A pass empties the places it inspects that are due, and no other.** -/
theorem entryAt_activeExpiryPass (p : Place) :
    (db.activeExpiryPass now start order).1.entryAt p =
      if p ∈ db.inspected now start order ∧ db.due now p = true then none else db.entryAt p := by
  have hclear := (traceShards_spec now order (walkFrom start) db [] 0 (nodup_walkFrom start)).2.2 p
  rw [List.length_nil, Nat.sub_zero, dues_eq] at hclear
  rw [activeExpiryPass_eq]
  refine hclear.trans (if_congr List.mem_filter rfl rfl)

/-- It asks for another pass when more than a quarter of them was due. -/
theorem activeExpiryPass_hot : (db.activeExpiryPass now start order).2 = true ↔
    (db.inspected now start order).length <
      4 * ((db.inspected now start order).filter (db.due now)).length := by
  have hcount := (traceShards_spec now order (walkFrom start) db [] 0 (nodup_walkFrom start)).2.1
  rw [List.length_nil, Nat.sub_zero, dues_eq, Nat.zero_add] at hcount
  have hle := List.length_filter_le (db.due now) (db.inspected now start order)
  rw [activeExpiryPass_eq, decide_eq_true_iff, hcount]
  exact ⟨And.right, fun h => ⟨by omega, h⟩⟩

/-- While the deadlines fit in one sample, a pass leaves nothing expired. -/
theorem activeExpiryPass_clean (h : db.ttlPlaces.card ≤ activeExpirySample) {p : Place} {e : Entry}
    (he : (db.activeExpiryPass now start order).1.entryAt p = some e) : e.expired now = false := by
  have hall : ∀ q ∈ db.ttlPlaces, q ∈ db.inspected now start order := by
    have hsub : (db.inspected now start order).toFinset ⊆ db.ttlPlaces := fun q hq =>
      mem_ttlPlaces_of_inspected now start order db (List.mem_toFinset.1 hq)
    have hcard : db.ttlPlaces.card ≤ (db.inspected now start order).toFinset.card := by
      rw [List.toFinset_card_of_nodup (nodup_inspected now start order db), length_inspected]
      exact le_min h le_rfl
    intro q hq
    rw [← Finset.eq_of_subset_of_card_le hsub hcard] at hq
    exact List.mem_toFinset.1 hq
  rw [entryAt_activeExpiryPass] at he
  split at he
  · cases he
  case isFalse hp =>
    by_contra hx
    rw [Bool.not_eq_false] at hx
    have hdue : db.due now p = true := by rw [due, he]; exact hx
    obtain ⟨d, hd, -⟩ := Entry.expired_iff.1 hx
    have hp' : p ∈ db.ttlPlaces := mem_ttlPlaces.2 ⟨e, he, by rw [Entry.hasTTL, hd]; rfl⟩
    exact hp ⟨hall p hp', hdue⟩

/-- A hot pass takes a deadline out. -/
theorem card_ttlPlaces_of_hot (h : (db.activeExpiryPass now start order).2 = true) :
    (db.activeExpiryPass now start order).1.ttlPlaces.card < db.ttlPlaces.card := by
  obtain ⟨p, hp⟩ : ∃ p, p ∈ (db.inspected now start order).filter (db.due now) := by
    rw [activeExpiryPass_hot] at h
    exact List.exists_mem_of_length_pos (by omega)
  refine Finset.card_lt_card ⟨fun q hq => ?_, fun hsub => ?_⟩
  · obtain ⟨e, he, ht⟩ := mem_ttlPlaces.1 hq
    rw [entryAt_activeExpiryPass] at he
    split at he
    · cases he
    · exact mem_ttlPlaces.2 ⟨e, he, ht⟩
  · have hin := mem_ttlPlaces_of_inspected now start order db (List.mem_filter.1 hp).1
    obtain ⟨e, he, -⟩ := mem_ttlPlaces.1 (hsub hin)
    rw [entryAt_activeExpiryPass, if_pos (List.mem_filter.1 hp)] at he
    cases he

end Pass

/-! ### The loop of `RunActiveExpiry` -/

/-- What the runtime hands to one pass: the reading, the first shard, and the orders of the maps. -/
structure Tick where
  now : Time
  start : Fin shardCount
  order : RangeOrder

/-- `for db.activeExpiryPass() {}`, with what the runtime hands to each pass: the database and the
number of passes once one was not hot, `none` if that did not come about. -/
def drain : List Tick → DB → Option (DB × Nat)
  | [], _ => none
  | t :: ts, db =>
      match db.activeExpiryPass t.now t.start t.order with
      | (db, true) => (drain ts db).map fun r => (r.1, r.2 + 1)
      | (db, false) => some (db, 1)

/-- **The loop stops.** -/
theorem drain_stops : ∀ (ts : List Tick) (db : DB), db.ttlPlaces.card < ts.length →
    ∃ db' n, drain ts db = some (db', n) ∧ n ≤ db.ttlPlaces.card + 1
  | t :: ts, db, h => by
      have hshrink := card_ttlPlaces_of_hot t.now t.start t.order db
      rw [drain]
      rcases hpass : db.activeExpiryPass t.now t.start t.order with ⟨db₁, _ | _⟩
      · exact ⟨db₁, 1, rfl, Nat.le_add_left 1 _⟩
      · rw [hpass] at hshrink
        have hlt : db₁.ttlPlaces.card < db.ttlPlaces.card := hshrink rfl
        rw [List.length_cons] at h
        obtain ⟨db', n, hn, hle⟩ := drain_stops ts db₁ (by omega)
        refine ⟨db', n + 1, ?_, by omega⟩
        change (drain ts db₁).map (fun r => (r.1, r.2 + 1)) = _
        rw [hn, Option.map_some]

/-! ### The result -/

/-- **The drain loop is exact and stops.**  One pass, from any shard and in any order of the maps:
it inspects distinct places that carry a deadline, twenty or all of them; in a store whose keys are
in their own shards that is as many keys; it empties those that are due and no other; it is hot when
more than a quarter of them were; and it leaves nothing expired where all deadlines fit in a sample.
Repeated while it is hot, with whatever the runtime hands to the passes, it runs at most once more
than there are deadlines. -/
theorem expiry_drains (db : DB) :
    (∀ (now : Time) (start : Fin shardCount) (order : RangeOrder),
      let seen := db.inspected now start order
      let pass := db.activeExpiryPass now start order
      (seen.Nodup ∧ (∀ p ∈ seen, p ∈ db.ttlPlaces) ∧
        seen.length = min activeExpirySample db.ttlPlaces.card) ∧
      ((∀ p e, db.entryAt p = some e → shardIndex p.2 = p.1) →
        (seen.map Prod.snd).Nodup ∧ (db.ttlPlaces.image Prod.snd).card = db.ttlPlaces.card) ∧
      (∀ p, pass.1.entryAt p =
        if p ∈ seen ∧ db.due now p = true then none else db.entryAt p) ∧
      pass.1.pubsub = db.pubsub ∧
      (pass.2 = true ↔ seen.length < 4 * (seen.filter (db.due now)).length) ∧
      (db.ttlPlaces.card ≤ activeExpirySample →
        ∀ p e, pass.1.entryAt p = some e → e.expired now = false)) ∧
    ∀ ts : List Tick, db.ttlPlaces.card + 1 ≤ ts.length →
      ∃ db' n, drain ts db = some (db', n) ∧ n ≤ db.ttlPlaces.card + 1 := by
  refine ⟨fun now start order => ⟨⟨nodup_inspected now start order db,
    fun p => mem_ttlPlaces_of_inspected now start order db, length_inspected now start order db⟩,
    fun hrouted => ?_, entryAt_activeExpiryPass now start order db,
    activeExpiryPass_pubsub now start order db, activeExpiryPass_hot now start order db,
    fun h p e => activeExpiryPass_clean now start order db h⟩, fun ts h => drain_stops ts db h⟩
  have hinj : Set.InjOn Prod.snd {p | p ∈ db.ttlPlaces} := by
    intro p hp q hq h
    obtain ⟨e, he, -⟩ := mem_ttlPlaces.1 hp
    obtain ⟨e', he', -⟩ := mem_ttlPlaces.1 hq
    refine Prod.ext ?_ h
    rw [← hrouted p e he, ← hrouted q e' he', h]
  refine ⟨List.Nodup.map_on (fun p hp q hq => hinj ?_ ?_) (nodup_inspected now start order db),
    Finset.card_image_of_injOn hinj⟩
  · exact mem_ttlPlaces_of_inspected now start order db hp
  · exact mem_ttlPlaces_of_inspected now start order db hq

/-- A key that is due at four, and one that is not before nine. -/
def oneDue : DB :=
  (DB.new.setShard (shardIndex [107]) (Finmap.singleton [107] ⟨.str [118], some 4⟩)).setShard
    (shardIndex [113]) (Finmap.singleton [113] ⟨.str [118], some 9⟩)

/-- What the passes of `oneDue` get: the first shard is that of the key that is due. -/
def oneDueTick (now : Time) : Tick := ⟨now, shardIndex [107], .sorted⟩

/-- At five a pass inspects both keys, and half of them are due; so that one is taken out and the
loop goes on to another pass. -/
theorem expiry_drains_oneDue :
    (oneDue.activeExpiryPass 5 (shardIndex [107]) .sorted).2 = true ∧
    (oneDue.activeExpiryPass 5 (shardIndex [107]) .sorted).1.entryAt (shardIndex [107], [107]) =
      none ∧
    ∃ db' n, drain [oneDueTick 5, oneDueTick 6, oneDueTick 7] oneDue = some (db', n) ∧ n ≤ 3 := by
  obtain ⟨hpass, hdrain⟩ := expiry_drains oneDue
  have hcard : oneDue.ttlPlaces.card = 2 := by decide +kernel
  have hseen : oneDue.inspected 5 (shardIndex [107]) .sorted =
      [(shardIndex [107], [107]), (shardIndex [113], [113])] := by decide +kernel
  obtain ⟨-, -, hentry, -, hhot, -⟩ := hpass 5 (shardIndex [107]) .sorted
  refine ⟨hhot.2 ?_, (hentry _).trans (if_pos ?_), ?_⟩
  · rw [hseen]
    decide +kernel
  · rw [hseen]
    decide +kernel
  · rw [hcard] at hdrain
    exact hdrain _ le_rfl

end DB

end MiniRedis.Store
