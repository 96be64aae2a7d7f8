import MiniRedis.Persistence.Rewrite

/-!
# Persistence — Compaction

Dispatching a compacted log into an empty store.  A record's commands are followed on the
reference store, where the only thing that can be in the way is the key itself; the records of a
snapshot have distinct keys, so they do not meet.

* `encodeRecord_restores`: on a store without the key, a record's commands leave the key with its
  value and its remaining time counted from the replay.
* `compaction_preserves`: **replaying a compacted log rebuilds the keyspace it was taken from.**
-/

namespace MiniRedis.Persistence

open Protocol Store Cmd Reference Maps

/-- The entry a compacted log rebuilds at replay time `r`, `u` being the reading `encodeExpire`
took: the same value, persistent if it was, and otherwise with the time it had left. -/
def restored (r u : Time) (e : Entry) : Entry :=
  { e with expireAt := e.expireAt.map fun deadline => r + remaining deadline u }

/-- Put an entry at a key. -/
def putEntry (s : RefStore) (key : Bytes) (e : Entry) : RefStore :=
  { s with keys := Function.update s.keys key (some e) }

/-- The commands take `s` to `s'` without an error reply. -/
def Builds (r : Time) (order : RangeOrder) (cmds : List Value) (s s' : RefStore) : Prop :=
  (dispatchAll (RefStore.call r order) cmds s).1 = s' ∧
    ∀ v ∈ (dispatchAll (RefStore.call r order) cmds s).2, v.isError = false

namespace Builds

variable {r : Time} {order : RangeOrder}

theorem nil (s : RefStore) : Builds r order [] s s := ⟨rfl, nofun⟩

/-- Commands that build one after the other. -/
theorem append {as bs : List Value} {s s' s'' : RefStore} (h : Builds r order as s s')
    (h' : Builds r order bs s' s'') : Builds r order (as ++ bs) s s'' := by
  obtain ⟨rfl, hv⟩ := h
  obtain ⟨rfl, hv'⟩ := h'
  rw [Builds, dispatchAll_append]
  refine ⟨rfl, fun v hm => ?_⟩
  rcases List.mem_append.1 hm with hm | hm
  · exact hv v hm
  · exact hv' v hm

/-- A command whose plan is a call that does not fail. -/
theorem call {cmd : Value} {c : Call} {render : c.Result → Value} {s s' : RefStore}
    (hp : plan cmd = .call c render) (hs : (s.call r order c).1 = s')
    (hv : (render (s.call r order c).2).isError = false) : Builds r order [cmd] s s' := by
  rw [Builds]
  simp only [dispatchAll, dispatch, hp, Handler.run, List.mem_singleton, forall_eq]
  exact ⟨hs, hv⟩

end Builds

variable {r u t : Time} {order order' : RangeOrder} {key : Bytes} {s : RefStore}

/-- Filling an absent key with a value of a kind. -/
theorem onKey_fill {β : Type} {K : Kind β} {f : β → β × Nat} {b : β} (hs : s.keys key = none)
    (hf : (f K.empty).1 = b) :
    (s.onKey key (Cell.fill K f)).1 = putEntry s key ⟨K.wrap b, none⟩ ∧
      (orErr countReply (s.onKey key (Cell.fill K f)).2).isError = false := by
  simp only [RefStore.onKey, hs, Cell.fill, hf]
  exact ⟨rfl, rfl⟩

/-- The expiry command gives a persistent key the time its record has left. -/
theorem encodeExpire_restores {e : Entry} (he : e.Valid t) (hu : t ≤ u) {rec : SnapshotEntry}
    (hkey : rec.key = key) (hexp : rec.expireAt = e.expireAt) :
    Builds r order (encodeExpire u rec) (putEntry s key { e with expireAt := none })
      (putEntry s key (restored r u e)) := by
  obtain ⟨p, deadline⟩ := e
  subst hkey
  rw [encodeExpire, hexp]
  cases deadline with
  | none => exact .nil _
  | some deadline =>
      have hle : deadline - u ≤ maxDuration := by
        have hd : deadline ≤ t + maxDuration := he.deadline deadline rfl
        exact sub_le_iff_le_add.2 (hd.trans (by rw [add_comm]; exact add_le_add_right hu _))
      have hpos : 0 < remaining deadline u := lt_of_lt_of_le (by decide) (le_max_left _ _)
      have hd := toInt_expire deadline u hle
      refine .call (plan_pExpire rec.key _) ?_ (boolReply_isError _)
      simp only [RefStore.call, RefStore.onKey, putEntry, Function.update_self, Cell.expire]
      rw [if_neg, hd, Function.update_idem]
      · rfl
      · rw [Int64.le_iff_toInt_le, hd]
        exact not_le.2 hpos

/-- **A record's commands rebuild its key.** -/
theorem encodeRecord_restores {e : Entry} (he : e.Valid t) (hu : t ≤ u) (hs : s.keys key = none) :
    Builds r order (encodeRecord u (DB.snapshotEntry order' key e)) s
      (putEntry s key (restored r u e)) := by
  have hexpire : Builds r order (encodeExpire u (DB.snapshotEntry order' key e)) _ _ :=
    encodeExpire_restores (s := s) he hu rfl rfl
  obtain ⟨p, deadline⟩ := e
  have hne := he.nonempty
  cases p with
  | str value => exact (Builds.call (plan_set key value) rfl rfl).append hexpire
  | list items =>
      obtain ⟨v, vs, rfl⟩ := List.exists_cons_of_ne_nil hne
      obtain ⟨h₁, h₂⟩ := onKey_fill (K := kindList) (b := v :: vs)
        (f := fun l => (l ++ v :: vs, (l ++ v :: vs).length)) hs rfl
      exact (Builds.call (plan_rPush key v vs) h₁ h₂).append hexpire
  | hash m =>
      have hl := order'.hash_lists key m
      -- a hash without pairs would not be written at all: a stored one has some
      have hps : order'.hash key m ≠ [] := by
        intro h0
        rw [h0] at hl
        exact hne hl.putAll.symm
      have hzip : ((order'.hash key m).map Prod.fst).zip ((order'.hash key m).map Prod.snd) =
          order'.hash key m := (List.zip_of_prod rfl rfl).symm
      obtain ⟨h₁, h₂⟩ := onKey_fill (K := kindHash) (b := m)
        (f := fun m => putAll m (((order'.hash key _).map Prod.fst).zip
          ((order'.hash key _).map Prod.snd))) hs (by rw [hzip]; exact hl.putAll)
      simp only [encodeRecord, DB.snapshotEntry, hzip]
      rw [if_neg]
      · exact (Builds.call (plan_hSet key hps) h₁ h₂).append hexpire
      · rw [← List.length_eq_zero_iff, length_interleave]
        have := List.length_pos_iff.2 hps
        omega
  | set members =>
      have hl := order'.set_lists key members
      have hms : order'.set key members ≠ [] := by
        intro h0
        rw [h0] at hl
        exact hne hl.addAll.symm
      obtain ⟨v, vs, hv⟩ := List.exists_cons_of_ne_nil hms
      rw [hv] at hl
      obtain ⟨h₁, h₂⟩ := onKey_fill (K := kindSet) (f := fun t => addAll t (v :: vs))
        (b := members) hs hl.addAll
      simp only [DB.snapshotEntry, hv] at hexpire ⊢
      exact (Builds.call (plan_sAdd key v vs) h₁ h₂).append hexpire

/-! ### The whole snapshot -/

section Snapshot

variable (r : Time) (clock : Bytes → Time)

/-- Put the restored entries of a list, one after the other. -/
def putAllEntries (l : List (Bytes × Entry)) (s : RefStore) : RefStore :=
  l.foldl (fun s p => putEntry s p.1 (restored r (clock p.1) p.2)) s

/-- A key without a record stays as it is. -/
theorem putAllEntries_of_notMem : ∀ (l : List (Bytes × Entry)) (s : RefStore) (key : Bytes),
    key ∉ l.map Prod.fst → (putAllEntries r clock l s).keys key = s.keys key
  | [], _, _, _ => rfl
  | p :: l, s, key, h => by
      obtain ⟨hp, hl⟩ := List.ne_and_not_mem_of_not_mem_cons h
      exact (putAllEntries_of_notMem l _ key hl).trans (Function.update_of_ne hp _ _)

/-- A key with a record gets what it says. -/
theorem putAllEntries_of_mem : ∀ (l : List (Bytes × Entry)) (s : RefStore) (key : Bytes)
    (e : Entry), (l.map Prod.fst).Nodup → (key, e) ∈ l →
      (putAllEntries r clock l s).keys key = some (restored r (clock key) e)
  | p :: l, s, key, e, hn, h => by
      obtain ⟨hp, hl⟩ := List.nodup_cons.1 hn
      rcases List.mem_cons.1 h with rfl | h
      · exact (putAllEntries_of_notMem r clock l _ _ hp).trans (Function.update_self _ _ _)
      · exact putAllEntries_of_mem l _ key e hl h

theorem putAllEntries_pubsub : ∀ (l : List (Bytes × Entry)) (s : RefStore),
    (putAllEntries r clock l s).pubsub = s.pubsub
  | [], _ => rfl
  | _ :: l, _ => putAllEntries_pubsub l _

variable {r clock}

/-- The commands of records with distinct keys, on a store that has none of them. -/
theorem records_restore : ∀ (l : List (Bytes × Entry)) (s : RefStore), (l.map Prod.fst).Nodup →
    (∀ p ∈ l, s.keys p.1 = none) → (∀ p ∈ l, p.2.Valid t) → (∀ key, t ≤ clock key) →
      Builds r order (snapshotCommands clock (l.map fun p => DB.snapshotEntry order' p.1 p.2)) s
        (putAllEntries r clock l s)
  | [], s, _, _, _, _ => .nil s
  | p :: l, s, hn, hs, hv, hc => by
      obtain ⟨hp, hl⟩ := List.nodup_cons.1 hn
      refine (encodeRecord_restores (hv p List.mem_cons_self) (hc p.1)
        (hs p List.mem_cons_self)).append (records_restore l _ hl (fun q hq => ?_)
          (fun q hq => hv q (List.mem_cons_of_mem _ hq)) hc)
      have hne : q.1 ≠ p.1 := fun h => hp (h ▸ List.mem_map_of_mem hq)
      exact (Function.update_of_ne hne _ _).trans (hs q (List.mem_cons_of_mem _ hq))

/-- What a compacted log builds from nothing. -/
theorem snapshot_restores {db : DB} (hv : db.Valid t) (hc : ∀ key, t ≤ clock key) :
    Builds r order (snapshotCommands clock (db.snapshot t order')) RefStore.new
      ⟨fun key => (db.keyspace t key).map (restored r (clock key)), Broker.new⟩ := by
  have hb : Builds r order (snapshotCommands clock (db.snapshot t order')) RefStore.new
      (putAllEntries r clock (db.liveEntries t order') RefStore.new) :=
    records_restore _ _ (DB.nodup_liveEntries hv) (fun _ _ => rfl)
      (fun p hp => hv.entries _ p.1 p.2
        (Shard.peek_eq_some.1 ((DB.mem_liveEntries hv p.1 p.2).1 hp)).1) hc
  convert hb using 1
  refine RefStore.ext (funext fun key => ?_) (putAllEntries_pubsub r clock _ RefStore.new).symm
  change (db.keyspace t key).map _ = _
  cases hk : db.keyspace t key with
  | some e =>
      exact (putAllEntries_of_mem r clock _ _ key e (DB.nodup_liveEntries hv)
        ((DB.mem_liveEntries hv key e).2 hk)).symm
  | none =>
      refine (putAllEntries_of_notMem r clock _ RefStore.new key fun hm => ?_).symm
      obtain ⟨p, hp, rfl⟩ := List.mem_map.1 hm
      rw [(DB.mem_liveEntries hv p.1 p.2).1 hp] at hk
      cases hk

end Snapshot

/-- **Compaction preserves meaning.**  Take a store that requests and reaper passes at readings
up to `t` have left, a snapshot of it at `t` and any readings from `t` on for the remaining
times.  Replaying the bytes `writeSnapshot` wrote into an empty store at `r` decodes and applies
every command, none is answered with an error, and the keyspace is that of the snapshot: the same
keys, kinds and values, persistent keys persistent, the others with their remaining whole
milliseconds, and at least one, from `r` on.  The arrays are ones the compactor could allocate. -/
theorem compaction_preserves (events : List Event) (t r : Time) (order order' : RangeOrder)
    (clock : Bytes → Time) (hevents : ∀ e ∈ events, e.now ≤ t) (hclock : ∀ key, t ≤ clock key)
    (hfits : ∀ c ∈ snapshotCommands clock ((DB.new.run events).1.snapshot t order), c.Fits) :
    let db := (DB.new.run events).1
    let cmds := snapshotCommands clock (db.snapshot t order)
    let rebuilt := dispatchAll (DB.call r order') cmds DB.new
    replay (fun db c => ((db.dispatch r order' c).1, none))
        (some (writeSnapshot clock (db.snapshot t order))) DB.new =
        (rebuilt.1, cmds.length, none) ∧
      (∀ reply ∈ rebuilt.2, reply.isError = false) ∧
      rebuilt.1.keyspace r = fun key => (db.keyspace t key).map (restored r (clock key)) := by
  intro db cmds rebuilt
  have hv : db.Valid t := DB.Valid.run hevents (.new _)
  have hb : Builds r order' cmds RefStore.new _ := snapshot_restores hv hclock
  have hnew : DB.new.abs r = RefStore.new := rfl
  have hmap : dispatchAll (RefStore.call r order') cmds RefStore.new =
      (rebuilt.1.abs r, rebuilt.2) :=
    hnew ▸ dispatchAll_map (DB.abs r) (DB.abs_call r order') cmds DB.new
  rw [Builds, hmap] at hb
  refine ⟨?_, hb.2, congrArg RefStore.keys hb.1⟩
  have hwf : ∀ c ∈ cmds, c.WellFormed := fun c hc =>
    c.wellFormed_iff.2 ⟨snapshotCommands_oneLine hc, hfits c hc⟩
  have hr := replay_frames (fun db c => (DB.dispatch r order' c db).1) DB.new hwf (.inl rfl)
  rw [List.append_nil] at hr
  rw [show rebuilt.1 = _ from dispatchAll_fst cmds DB.new]
  exact hr

/-- An empty string under the empty key, and a list with five milliseconds to live. -/
def shortLived : List Event :=
  [.request ⟨0, .sorted, bulkCmd [txt "SET", [], []]⟩,
    .request ⟨0, .sorted, bulkCmd [txt "RPUSH", txt "l", txt "a", txt "b"]⟩,
    .request ⟨0, .sorted, bulkCmd [txt "PEXPIRE", txt "l", txt "5"]⟩]

/-- The commands of a rewrite while a deadline is a moment away. -/
theorem shortLived_commands :
    snapshotCommands (fun _ => 4200000) ((DB.new.run shortLived).1.snapshot 1000000 .sorted) =
      [bulkCmd [txt "SET", [], []], bulkCmd [txt "RPUSH", txt "l", txt "a", txt "b"],
        bulkCmd [txt "PEXPIRE", txt "l", txt "1"]] := by
  decide +kernel

/-- The compactor reaches the list with less than a millisecond left: it lives one millisecond
from the replay on. -/
theorem compaction_preserves_shortLived :
    (dispatchAll (DB.call 7 .sorted)
        (snapshotCommands (fun _ => 4200000)
          ((DB.new.run shortLived).1.snapshot 1000000 .sorted)) DB.new).1.keyspace 7 =
      fun key => ((DB.new.run shortLived).1.keyspace 1000000 key).map (restored 7 4200000) := by
  refine (compaction_preserves shortLived 1000000 7 .sorted .sorted (fun _ => 4200000)
    (by decide) (fun _ => by decide) ?_).2.2
  rw [shortLived_commands]
  intro c hc
  simp only [List.mem_cons, List.not_mem_nil, or_false] at hc
  rcases hc with rfl | rfl | rfl <;> exact bulkCmd_fits (by decide) (by decide)

end MiniRedis.Persistence
