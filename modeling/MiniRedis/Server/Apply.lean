import MiniRedis.Reference.Dispatch

/-!
# Server — Apply

`applyRecord` of `internal/server/server.go`: dispatch a request and hand it to the log and to
the replicas if it is a write that succeeded.  The append and the propagation are returned as
the requests they are called with; what they do is modelled where the log and the replicas are.

* `only_recorded_mutate`: **a logical change is made only by a request that is recorded.**
-/

namespace MiniRedis.Server

open Protocol Store Cmd

/-- What `applyRecord` did: the store and the reply, and the request it appended to the log or
propagated to the replicas, if it did. -/
structure Applied where
  db : DB
  reply : Value
  appended : Option Value
  propagated : Option Value

/-- `applyRecord`, on a server with or without a log (`aof`), `any` being what `replicas.Any()`
answers. -/
def applyRecord (aof any : Bool) (now : Time) (order : RangeOrder) (request : Value) (db : DB) :
    Applied :=
  let (db', reply) := db.dispatch now order request
  if !isWrite (commandName request) || (!aof && !any) then ⟨db', reply, none, none⟩
  else if reply.isError then ⟨db', reply, none, none⟩
  else ⟨db', reply, if aof then some request else none, some request⟩

/-- A request that a server with a log or a replica records. -/
def recorded (request reply : Value) : Bool := isWrite (commandName request) && !reply.isError

/-- The store is that after the dispatch, recorded or not. -/
theorem applyRecord_db (aof any : Bool) (now : Time) (order : RangeOrder) (request : Value)
    (db : DB) :
    (applyRecord aof any now order request db).db = (db.dispatch now order request).1 := by
  simp only [applyRecord]
  split_ifs <;> rfl

/-- What is appended and what is propagated is the request itself. -/
theorem applyRecord_handed {aof any : Bool} {now : Time} {order : RangeOrder}
    {request cmd : Value} {db : DB}
    (h : (applyRecord aof any now order request db).appended = some cmd ∨
      (applyRecord aof any now order request db).propagated = some cmd) : cmd = request := by
  simp only [applyRecord] at h
  split_ifs at h
  · simp at h
  · simp at h
  · simpa [eq_comm] using h
  · simpa [eq_comm] using h

/-- A write that succeeds is appended and propagated. -/
theorem applyRecord_recorded {aof any : Bool} {now : Time} {order : RangeOrder} {request : Value}
    {db : DB} (h : recorded request (db.dispatch now order request).2 = true)
    (hon : aof = true ∨ any = true) :
    (applyRecord aof any now order request db).appended = (if aof then some request else none) ∧
      (applyRecord aof any now order request db).propagated = some request := by
  simp only [recorded, Bool.and_eq_true, Bool.not_eq_true'] at h
  have hslow : (!isWrite (commandName request) || (!aof && !any)) = false := by
    rcases hon with rfl | rfl <;> simp [h.1]
  unfold applyRecord
  simp [hslow, h.2]

/-- **Only recorded requests change the keyspace.**  A request that is not in the write table,
and one that is answered with an error, leaves every unexpired key with its kind, value and
deadline; so whatever changes the keyspace is appended to the log, if there is one, and
propagated, if there is a log or a replica. -/
theorem only_recorded_mutate (db : DB) (now : Time) (order : RangeOrder) (request : Value) :
    (isWrite (commandName request) = false ∨ (db.dispatch now order request).2.isError = true →
        (db.dispatch now order request).1.keyspace now = db.keyspace now) ∧
      ∀ aof any : Bool,
        (applyRecord aof any now order request db).db.keyspace now ≠ db.keyspace now →
          (aof = true → (applyRecord aof any now order request db).appended = some request) ∧
            (aof = true ∨ any = true →
              (applyRecord aof any now order request db).propagated = some request) := by
  refine ⟨DB.dispatch_unrecorded, fun aof any hne => ?_⟩
  rw [applyRecord_db] at hne
  have hrec : recorded request (db.dispatch now order request).2 = true := by
    by_contra hn
    refine hne (DB.dispatch_unrecorded ?_)
    simpa [recorded, Decidable.imp_iff_not_or] using hn
  refine ⟨fun ha => ?_, fun hon => (applyRecord_recorded hrec hon).2⟩
  rw [(applyRecord_recorded hrec (.inl ha)).1, if_pos ha]

end MiniRedis.Server
