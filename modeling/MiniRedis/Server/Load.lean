import MiniRedis.Persistence.Compaction
import MiniRedis.Reference.Timeless

/-!
# Server — Load

`loadAOF` of `internal/server/server.go`: replay the log through the dispatcher, each command at
its own clock reading.  A command that is answered with an error is skipped, which is what
dispatching it comes to.

* `loadAOF_log`: a log of whole frames that set no deadline, with a torn frame behind them or
  not, is loaded without an error and rebuilds the keyspace its commands make of nothing, at
  whatever readings it is loaded.
* `snapshot_log`: a snapshot of a timeless store is such a log, and rebuilds its keyspace.
-/

namespace MiniRedis.Server

open Protocol Store Cmd Reference Persistence Strings

/-- The function `loadAOF` hands to `Replay`; the number is that of the command. -/
def redo (clock : Nat → Time) (order : Nat → RangeOrder) (s : DB × Nat) (c : Value) : DB × Nat :=
  ((s.1.dispatch (clock s.2) (order s.2) c).1, s.2 + 1)

/-- `loadAOF`, up to opening the file for appending: the store and the error, if there is one. -/
def loadAOF (clock : Nat → Time) (order : Nat → RangeOrder) (file : Option Bytes) (db : DB) :
    DB × Option DecodeError :=
  let (s, _, err) := replay (fun s c => (redo clock order s c, none)) file (db, 0)
  (s.1, err)

variable {clock : Nat → Time} {order : Nat → RangeOrder}

/-- A file of whole frames, and what is left of another, is loaded by redoing the frames. -/
theorem loadAOF_frames (db : DB) {cmds : List Value} (h : ∀ c ∈ cmds, c.WellFormed) {p : Bytes}
    (hp : codec.Tail p) :
    loadAOF clock order (some (cmds.flatMap encode ++ p)) db =
      ((cmds.foldl (redo clock order) (db, 0)).1, none) := by
  rw [loadAOF, replay_frames (redo clock order) (db, 0) h hp]

/-- Redoing commands that set no deadline rebuilds the keyspace. -/
theorem foldl_redo_timeless : ∀ (cmds : List Value) (s : DB × Nat),
    (∀ c ∈ cmds, ¬ SetsDeadline c) → s.1.Timeless →
      ∀ t, (cmds.foldl (redo clock order) s).1.keyspace t = rebuild cmds (s.1.keyspace t)
  | [], _, _, _, _ => rfl
  | c :: cmds, s, h, hs, t => by
      have hc := h c List.mem_cons_self
      have ih := foldl_redo_timeless cmds (redo clock order s c)
        (fun c hc => h c (List.mem_cons_of_mem _ hc)) (hs.dispatch hc) t
      rw [List.foldl_cons, ih]
      exact congrArg (rebuild cmds) (hs.keyspace_dispatch hc t)

/-- The commands of a log that rebuilds the keyspace `ks` from nothing, whenever it is loaded. -/
structure Rebuilds (cmds : List Value) (ks : Keyspace) : Prop where
  wellFormed : ∀ c ∈ cmds, c.WellFormed
  timeless : ∀ c ∈ cmds, ¬ SetsDeadline c
  rebuild_eq : rebuild cmds (fun _ => none) = ks

theorem Rebuilds.nil : Rebuilds [] fun _ => none := ⟨nofun, nofun, rfl⟩

theorem Rebuilds.concat {cmds : List Value} {ks : Keyspace} (h : Rebuilds cmds ks) {c : Value}
    (hwf : c.WellFormed) (hc : ¬ SetsDeadline c) : Rebuilds (cmds ++ [c]) (effect 0 c ks) := by
  refine ⟨?_, ?_, ?_⟩
  · simpa [or_imp, forall_and] using ⟨h.wellFormed, hwf⟩
  · simpa [or_imp, forall_and] using ⟨h.timeless, hc⟩
  · rw [rebuild_append, h.rebuild_eq]
    rfl

/-- **Loading such a log**, with a torn frame behind it or not. -/
theorem loadAOF_log {cmds : List Value} {ks : Keyspace} (h : Rebuilds cmds ks) {p : Bytes}
    (hp : codec.Tail p) :
    ∃ db, loadAOF clock order (some (cmds.flatMap encode ++ p)) DB.new = (db, none) ∧
      ∀ t, db.keyspace t = ks :=
  ⟨_, loadAOF_frames DB.new h.wellFormed hp, fun t =>
    (foldl_redo_timeless cmds (DB.new, 0) h.timeless (.new _) t).trans h.rebuild_eq⟩

/-! ### Snapshots of timeless stores -/

/-- A persistent key has no `PEXPIRE` behind it. -/
theorem encodeExpire_persistent (u : Time) {r : SnapshotEntry} (h : r.expireAt = none) :
    encodeExpire u r = [] := by
  rw [encodeExpire, h]

/-- The command of a persistent key sets no deadline, -/
theorem encodeRecord_timeless {u : Time} {r : SnapshotEntry} (hr : r.expireAt = none) {c : Value}
    (h : c ∈ encodeRecord u r) : ¬ SetsDeadline c := by
  have hnames : ∀ name ∈ [txt "SET", txt "RPUSH", txt "HSET", txt "SADD"],
      ¬ (toUpper name = txt "EXPIRE" ∨ toUpper name = txt "PEXPIRE") := by decide
  rcases encodeRecord_cases u r with he | ⟨name, hname, args, he⟩
  · rw [he] at h
    cases h
  · rw [he, encodeExpire_persistent u hr] at h
    rw [List.mem_singleton.1 h]
    exact hnames name hname

/-- and does not depend on when it is written. -/
theorem encodeRecord_clock (u u' : Time) {r : SnapshotEntry} (hr : r.expireAt = none) :
    encodeRecord u r = encodeRecord u' r := by
  unfold encodeRecord
  rw [encodeExpire_persistent u hr, encodeExpire_persistent u' hr]

section Snapshot

variable {db : DB} {now : Time} {order : RangeOrder} {clock : Bytes → Time}

theorem snapshot_persistent (hdb : db.Timeless) {r : SnapshotEntry}
    (hr : r ∈ db.snapshot now order) : r.expireAt = none := by
  obtain ⟨p, hp, rfl⟩ := List.mem_map.1 hr
  have hv : db.Valid now := hdb.imp fun e he => he.valid now
  have hlive := (DB.mem_liveEntries hv p.1 p.2).1 hp
  exact (hdb.entries _ p.1 p.2 (Shard.peek_eq_some.1 hlive).1).persistent

/-- A store without deadlines is rewritten without deadlines, -/
theorem snapshotCommands_timeless (hdb : db.Timeless) {c : Value}
    (h : c ∈ snapshotCommands clock (db.snapshot now order)) : ¬ SetsDeadline c := by
  obtain ⟨r, hr, hc⟩ := List.mem_flatMap.1 h
  exact encodeRecord_timeless (snapshot_persistent hdb hr) hc

/-- whenever it is rewritten. -/
theorem snapshotCommands_clock (hdb : db.Timeless) (u : Time) :
    snapshotCommands clock (db.snapshot now order) =
      snapshotCommands (fun _ => u) (db.snapshot now order) := by
  unfold snapshotCommands
  rw [List.flatMap_def, List.flatMap_def, List.map_congr_left fun r hr =>
    encodeRecord_clock (clock r.key) u (snapshot_persistent hdb hr)]

theorem restored_timeless {r u : Time} {e : Entry} (h : e.Timeless) : restored r u e = e := by
  obtain ⟨p, d⟩ := e
  have hd : d = none := h.persistent
  rw [restored, hd]
  rfl

/-- Commands that set no deadline do the same whenever they are run. -/
theorem dispatchAll_keys (r : Time) (order : RangeOrder) : ∀ (cmds : List Value) (s : RefStore),
    (∀ c ∈ cmds, ¬ SetsDeadline c) →
      (dispatchAll (RefStore.call r order) cmds s).1.keys = rebuild cmds s.keys
  | [], _, _ => rfl
  | c :: cmds, s, h => by
      have ih := dispatchAll_keys r order cmds (s.dispatch r order c).1
        fun c hc => h c (List.mem_cons_of_mem _ hc)
      refine ih.trans (congrArg (rebuild cmds) ?_)
      rw [RefStore.keys_dispatch, effect_clock (h c List.mem_cons_self) r 0]

/-- **The commands of a snapshot of a timeless store rebuild its keyspace.** -/
theorem rebuild_snapshot (hdb : db.Timeless) (t : Time) :
    rebuild (snapshotCommands clock (db.snapshot now order)) (fun _ => none) = db.keyspace t := by
  have hv : db.Valid now := hdb.imp fun e he => he.valid now
  rw [snapshotCommands_clock hdb now, hdb.keyspace_eq t now]
  have hb : Builds 0 order (snapshotCommands (fun _ => now) (db.snapshot now order))
      RefStore.new _ :=
    snapshot_restores hv fun _ => le_rfl
  have hkeys := dispatchAll_keys 0 order (snapshotCommands (fun _ => now) (db.snapshot now order))
    RefStore.new fun c hc => snapshotCommands_timeless hdb hc
  refine hkeys.symm.trans ((congrArg RefStore.keys hb.1).trans (funext fun key => ?_))
  change (db.keyspace now key).map (restored 0 now) = _
  cases hk : db.keyspace now key with
  | none => rfl
  | some e =>
      exact congrArg some (restored_timeless
        (hdb.entries _ key e (Shard.peek_eq_some.1 hk).1))

end Snapshot

end MiniRedis.Server
