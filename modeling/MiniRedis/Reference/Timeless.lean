import MiniRedis.Reference.Invariant

/-!
# Reference — Timeless

Stores that no `EXPIRE` or `PEXPIRE` has reached.  Such a store looks the same at every clock
reading, stays such under every other request and every reaper pass, and a request does the same
to it whenever it is dispatched; so a list of requests has one outcome (`rebuild`), at whatever
readings it is run and however often.
-/

namespace MiniRedis

open Protocol Store Cmd Reference Strings

/-- The request is an `EXPIRE` or a `PEXPIRE`, in any case and of any shape. -/
def Cmd.SetsDeadline (request : Value) : Prop :=
  toUpper (commandName request) = txt "EXPIRE" ∨ toUpper (commandName request) = txt "PEXPIRE"

instance (request : Value) : Decidable (SetsDeadline request) :=
  inferInstanceAs (Decidable (_ ∨ _))

/-- What sets a deadline is recorded. -/
theorem Cmd.isWrite_of_setsDeadline {request : Value} (h : SetsDeadline request) :
    isWrite (commandName request) = true := by
  unfold isWrite
  rcases h with h | h <;> rw [h] <;> decide

theorem Cmd.isExpire_of_not_setsDeadline {request : Value} (h : ¬ SetsDeadline request) {c : Call}
    {render : c.Result → Value} (hp : plan request = .call c render) : c.isExpire = false := by
  by_contra hc
  exact h ((plan_call hp).expire (by simpa using hc))

/-- A request that sets no deadline has the same effect at every reading. -/
theorem effect_clock {request : Value} (h : ¬ SetsDeadline request) (now now' : Time) :
    effect now request = effect now' request := by
  funext ks
  unfold effect
  cases hp : plan request with
  | reply v => rfl
  | call c render =>
      simp only [Call.updates_clock (isExpire_of_not_setsDeadline h hp) now now']

/-- What a list of requests makes of a keyspace, if none of them reads the clock. -/
def rebuild (log : List Value) (ks : Keyspace) : Keyspace :=
  log.foldl (fun ks request => effect 0 request ks) ks

/-- Two logs one after the other. -/
theorem rebuild_append (as bs : List Value) (ks : Keyspace) :
    rebuild (as ++ bs) ks = rebuild bs (rebuild as ks) := List.foldl_append

namespace Store.DB.Timeless

variable {now : Time} {order : RangeOrder} {db db' : DB}

/-- Without deadlines the keyspace does not depend on the time. -/
theorem keyspace_eq (h : db.Timeless) (t u : Time) : db.keyspace t = db.keyspace u := by
  funext key
  refine Option.ext fun e => ?_
  simp only [DB.keyspace, Shard.peek_eq_some]
  refine and_congr_right fun he => ?_
  simp [Entry.expired, (h.entries _ key e he).persistent]

/-- A request that sets no deadline leaves a store without deadlines. -/
theorem dispatch (h : db.Timeless) {request : Value} (hr : ¬ SetsDeadline request) :
    (db.dispatch now order request).1.Timeless := by
  unfold DB.dispatch Cmd.dispatch
  cases hp : plan request with
  | reply v => exact h
  | call c render =>
      refine Holds.call h fun u hu =>
        timeless_aboutDeadline.updates (plan_call hp).filled hu ?_
      rintro d rfl
      cases isExpire_of_not_setsDeadline hr hp

/-- **A request does the same to a timeless store whenever it is dispatched.** -/
theorem keyspace_dispatch (h : db.Timeless) {request : Value} (hr : ¬ SetsDeadline request)
    (t : Time) :
    (db.dispatch now order request).1.keyspace t = effect 0 request (db.keyspace t) := by
  rw [(h.dispatch hr).keyspace_eq t now, h.keyspace_eq t now, DB.keyspace_dispatch,
    effect_clock hr now 0]

/-- A request that is not recorded leaves a timeless store as it was, at every reading. -/
theorem keyspace_unrecorded (h : db.Timeless) {request : Value} (hr : ¬ SetsDeadline request)
    (hu : isWrite (commandName request) = false ∨
      (db.dispatch now order request).2.isError = true) (t : Time) :
    (db.dispatch now order request).1.keyspace t = db.keyspace t := by
  rw [(h.dispatch hr).keyspace_eq t now, h.keyspace_eq t now, DB.dispatch_unrecorded hu]

/-- The reaper finds nothing. -/
theorem keyspace_reaped (h : db.Timeless)
    (hr : ∀ i, DB.Reaped now (db.shards i) (db'.shards i)) (t : Time) :
    db'.keyspace t = db.keyspace t := by
  rw [keyspace_eq (h.reaped hr) t now, h.keyspace_eq t now]
  exact funext fun key => (hr (shardIndex key)).peek le_rfl key

end Store.DB.Timeless

end MiniRedis
