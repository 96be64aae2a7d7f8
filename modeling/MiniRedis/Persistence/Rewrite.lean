import MiniRedis.Persistence.Replay
import MiniRedis.Store.Snapshot

/-!
# Persistence — Rewrite

What the compactor writes (`writeSnapshot`, `encodeRecord` and `encodeExpire` of
`internal/persistence/rewrite.go`): for each record of a snapshot the one command that recreates
its value, and a `PEXPIRE` with the milliseconds it has left.

* `plan_set`, `plan_rPush`, `plan_sAdd`, `plan_hSet`, `plan_pExpire`: what the dispatcher makes of
  the commands it writes.
* `toInt_expire`: the milliseconds survive being written in decimal and multiplied back.
-/

namespace MiniRedis.Persistence

open Protocol Store Cmd Reference Maps

/-- `encodeExpire`, at its own clock reading: the remaining milliseconds, and at least one. -/
def encodeExpire (u : Time) (r : SnapshotEntry) : List Value :=
  match r.expireAt with
  | none => []
  | some deadline =>
      let ms := untilAt deadline u / millisecond
      let ms := if ms < 1 then 1 else ms
      [bulkCmd [txt "PEXPIRE", r.key, formatInt ms]]

/-- `encodeRecord`: the commands it encodes.  An empty collection is skipped. -/
def encodeRecord (u : Time) (r : SnapshotEntry) : List Value :=
  match r.value with
  | .str value => bulkCmd [txt "SET", r.key, value] :: encodeExpire u r
  | .list [] => []
  | .list items => bulkCmd (txt "RPUSH" :: r.key :: items) :: encodeExpire u r
  | .hash fields values =>
      let args := (fields.zip values).flatMap fun p => [p.1, p.2]
      if args = [] then [] else bulkCmd (txt "HSET" :: r.key :: args) :: encodeExpire u r
  | .set [] => []
  | .set members => bulkCmd (txt "SADD" :: r.key :: members) :: encodeExpire u r

/-- The commands of a compacted log; `clock` is the reading `encodeExpire` takes for a key. -/
def snapshotCommands (clock : Bytes → Time) (records : List SnapshotEntry) : List Value :=
  records.flatMap fun r => encodeRecord (clock r.key) r

/-- `writeSnapshot`: the bytes it writes. -/
def writeSnapshot (clock : Bytes → Time) (records : List SnapshotEntry) : Bytes :=
  (snapshotCommands clock records).flatMap encode

/-! ### The plans of the compactor's commands -/

/-- The arguments of a rewritten command read back. -/
theorem map_str_bulk (args : List Bytes) :
    (args.map fun a => Value.bulkString (some a)).map Value.str = args := by
  rw [List.map_map]
  exact List.map_id args

/-- The record of a string is a `SET`. -/
theorem plan_set (key value : Bytes) :
    plan (bulkCmd [txt "SET", key, value]) = .call (.set key value) fun _ => okValue := rfl

/-- That of a list is an `RPUSH` of its elements. -/
theorem plan_rPush (key v : Bytes) (vs : List Bytes) :
    plan (bulkCmd (txt "RPUSH" :: key :: v :: vs)) =
      .call (.rPush key (v :: vs)) (orErr countReply) := by
  change Handler.call
    (.rPush key (((v :: vs).map fun a => Value.bulkString (some a)).map Value.str))
    (orErr countReply) = _
  rw [map_str_bulk]

/-- That of a set is an `SADD` of its members. -/
theorem plan_sAdd (key v : Bytes) (vs : List Bytes) :
    plan (bulkCmd (txt "SADD" :: key :: v :: vs)) =
      .call (.sAdd key (v :: vs)) (orErr countReply) := by
  change Handler.call (.sAdd key (((v :: vs).map fun a => Value.bulkString (some a)).map Value.str))
    (orErr countReply) = _
  rw [map_str_bulk]

/-- The fields and values of an `HSET` read back in pairs. -/
theorem pairUp_interleave (ps : List (Bytes × Bytes)) :
    pairUp ((ps.flatMap fun p => [p.1, p.2]).map fun a => .bulkString (some a)) = ps := by
  induction ps with
  | nil => rfl
  | cons p ps ih =>
      simp only [List.flatMap_cons, List.cons_append, List.nil_append, List.map_cons, pairUp, ih]
      rfl

theorem length_interleave (ps : List (Bytes × Bytes)) :
    (ps.flatMap fun p => [p.1, p.2]).length = 2 * ps.length := by
  induction ps with
  | nil => rfl
  | cons p ps ih => simp [List.flatMap_cons, ih]; omega

/-- That of a hash is an `HSET` of its fields. -/
theorem plan_hSet (key : Bytes) {ps : List (Bytes × Bytes)} (h : ps ≠ []) :
    plan (bulkCmd (txt "HSET" :: key :: ps.flatMap fun p => [p.1, p.2])) =
      .call (.hSet key (ps.map Prod.fst) (ps.map Prod.snd)) (orErr countReply) := by
  have hpos := List.length_pos_iff.2 h
  change Cmd.hSet ((key :: ps.flatMap fun p => [p.1, p.2]).map fun a => .bulkString (some a)) = _
  rw [Cmd.hSet.eq_def, if_neg]
  · change Handler.call (.hSet key ((pairUp _).map Prod.fst) ((pairUp _).map Prod.snd))
      (orErr countReply) = _
    rw [pairUp_interleave]
  · simp only [List.map_cons, List.length_cons, List.length_map, length_interleave]
    omega

/-- The deadline is a `PEXPIRE` in milliseconds. -/
theorem plan_pExpire (key : Bytes) (ms : Int64) :
    plan (bulkCmd [txt "PEXPIRE", key, formatInt ms]) =
      .call (.expire key (ms * millisecond)) boolReply := by
  change pExpire [.bulkString (some key), .bulkString (some (formatInt ms))] = _
  simp only [pExpire, expireIn, Value.str, Value.bulk, Option.getD_some, parseInt_formatInt]

/-! ### Every command is an array of bulk strings -/

theorem encodeExpire_oneLine {u : Time} {r : SnapshotEntry} {c : Value}
    (h : c ∈ encodeExpire u r) : c.OneLine := by
  unfold encodeExpire at h
  split at h
  · cases h
  · rw [List.mem_singleton.1 h]
    exact bulkCmd_oneLine _

/-- A record is skipped, or written as one command and its expiry. -/
theorem encodeRecord_cases (u : Time) (r : SnapshotEntry) :
    encodeRecord u r = [] ∨
      ∃ name ∈ [txt "SET", txt "RPUSH", txt "HSET", txt "SADD"], ∃ args,
        encodeRecord u r = bulkCmd (name :: args) :: encodeExpire u r := by
  unfold encodeRecord
  split
  · exact .inr ⟨txt "SET", by decide, _, rfl⟩
  · exact .inl rfl
  · exact .inr ⟨txt "RPUSH", by decide, _, rfl⟩
  · dsimp only
    split
    · exact .inl rfl
    · exact .inr ⟨txt "HSET", by decide, _, rfl⟩
  · exact .inl rfl
  · exact .inr ⟨txt "SADD", by decide, _, rfl⟩

/-- A rewritten command has no simple string with a line break in it. -/
theorem snapshotCommands_oneLine {clock : Bytes → Time} {records : List SnapshotEntry} {c : Value}
    (h : c ∈ snapshotCommands clock records) : c.OneLine := by
  obtain ⟨r, -, hr⟩ := List.mem_flatMap.1 h
  rcases encodeRecord_cases (clock r.key) r with he | ⟨name, -, args, he⟩
  · rw [he] at hr
    cases hr
  · rw [he] at hr
    rcases List.mem_cons.1 hr with rfl | hr
    · exact bulkCmd_oneLine _
    · exact encodeExpire_oneLine hr

/-! ### The remaining milliseconds -/

/-- The time left to a deadline in whole milliseconds, and at least one, in nanoseconds. -/
def remaining (deadline u : Int) : Int := max 1000000 ((deadline - u) / 1000000 * 1000000)

/-- A time that has passed is rounded to no time. -/
theorem tdiv_nonpos_of_neg {x : Int} (h : x < 0) : x.tdiv 1000000 ≤ 0 := by
  rw [Int.tdiv_eq_ediv, show Int.sign 1000000 = 1 from rfl]
  split <;> omega

/-- The milliseconds `encodeExpire` writes. -/
theorem toInt_ms (deadline u : Int) (h : deadline - u ≤ maxDuration) :
    (if untilAt deadline u / millisecond < 1 then 1 else untilAt deadline u / millisecond).toInt =
      max 1 ((deadline - u) / 1000000) := by
  unfold maxDuration at h
  have hq : (untilAt deadline u / millisecond).toInt =
      (max (-2 ^ 63) (deadline - u)).tdiv 1000000 := by
    have hmin : min (deadline - u) (2 ^ 63 - 1) = deadline - u := min_eq_left h
    rw [Int64.toInt_div_of_ne_right _ _ (by decide), toInt_untilAt, toInt_millisecond, hmin]
  have hsplit : ∀ q : Int64, (if q < 1 then 1 else q).toInt = max 1 q.toInt := by
    intro q
    simp only [Int64.lt_iff_toInt_lt, Int64.toInt_one]
    split
    · rw [Int64.toInt_one]; omega
    · omega
  rw [hsplit, hq]
  rcases lt_or_ge (deadline - u) 0 with hneg | hpos
  · -- a deadline that has passed since the snapshot: one millisecond
    have := tdiv_nonpos_of_neg (show max (-2 ^ 63) (deadline - u) < 0 by omega)
    omega
  · rw [max_eq_right (show -2 ^ 63 ≤ deadline - u by omega), Int.tdiv_eq_ediv_of_nonneg hpos]

/-- What `encodeExpire` writes and `PEXPIRE` multiplies back, without overflow. -/
theorem toInt_expire (deadline u : Int) (h : deadline - u ≤ maxDuration) :
    ((if untilAt deadline u / millisecond < 1 then 1 else untilAt deadline u / millisecond) *
      millisecond).toInt = remaining deadline u := by
  unfold maxDuration at h
  rw [Int64.toInt_mul, toInt_ms deadline u h, toInt_millisecond, Int.bmod_eq_of_le]
  · unfold remaining
    omega
  · omega
  · omega

end MiniRedis.Persistence
