import MiniRedis.Command.Dispatch
import MiniRedis.Reference.Store

/-!
# Reference — Dispatch

`Dispatch` over the sharded store and over the reference store.

* `abs_dispatch`: dispatching on the sharded store is dispatching on its live entries.
* `dispatch_unrecorded`: a request outside the write table, or one that is answered with an
  error, leaves the logical keyspace as it was.
* `dispatch_order`: the orders in which maps are ranged over reach the replies of the commands
  that list an unordered collection, and nothing else.
-/

namespace MiniRedis

open Protocol Store Cmd

/-- `Dispatch` on the sharded store, at one clock reading. -/
def Store.DB.dispatch (now : Time) (order : RangeOrder) (request : Value) (db : DB) : DB × Value :=
  Cmd.dispatch (DB.call now order) request db

/-- Two replies to a request that differ at most in the order of an unordered collection. -/
def Cmd.SameUpToOrder (request v w : Value) : Prop :=
  match plan request with
  | .reply _ => v = w
  | .call c _ => SameReply c v w

namespace Reference.RefStore

/-- `Dispatch` over the reference store. -/
def dispatch (now : Time) (order : RangeOrder) (request : Value) (s : RefStore) :
    RefStore × Value :=
  Cmd.dispatch (RefStore.call now order) request s

variable {now : Time} {order : RangeOrder}

/-- The keyspace survives a request that is not a write, and one that is answered with an
error. -/
theorem dispatch_unrecorded {request : Value} {s : RefStore}
    (h : isWrite (commandName request) = false ∨ (s.dispatch now order request).2.isError = true) :
    (s.dispatch now order request).1.keys = s.keys := by
  unfold dispatch Cmd.dispatch at *
  cases hp : plan request with
  | reply v => rfl
  | call c render =>
      have ha := plan_call hp
      rw [hp] at h
      rcases h with h | h
      · refine call_read c ?_ s
        by_contra hc
        exact of_decide_eq_false h (ha.write (by simpa using hc))
      · exact call_failed c s (ha.renders.error _ h)

theorem outcomeRel_read {α β : Type} {R : α → α → Prop} (hrefl : ∀ a, R a a) (K : Kind β)
    (absent : α) {f g : β → α} (h : ∀ b, R (f b) (g b)) (c : Cell) :
    Outcome.Rel R (Cell.read K absent f c) (Cell.read K absent g c) := by
  cases c with
  | none => exact hrefl absent
  | some e =>
      simp only [Cell.read]
      cases K.unwrap e.payload with
      | none => rfl
      | some b => exact h b

/-- The range orders reach only the results that list a map. -/
theorem call_order (now : Time) (order order' : RangeOrder) (c : Call) (s : RefStore) :
    (s.call now order c).1 = (s.call now order' c).1 ∧
      c.SameResult (s.call now order c).2 (s.call now order' c).2 := by
  cases c with
  | hGetAll key =>
      refine ⟨rfl, outcomeRel_read (fun _ => .refl _) _ _ (fun m => ?_) _⟩
      simp only [List.zip_unzip]
      exact (order.hash_lists key m).perm (order'.hash_lists key m)
  | hKeys key =>
      exact ⟨rfl, outcomeRel_read (fun _ => .refl _) _ _
        (fun m => ((order.hash_lists key m).perm (order'.hash_lists key m)).map _) _⟩
  | hVals key =>
      exact ⟨rfl, outcomeRel_read (fun _ => .refl _) _ _
        (fun m => ((order.hash_lists key m).perm (order'.hash_lists key m)).map _) _⟩
  | sMembers key =>
      exact ⟨rfl, outcomeRel_read (fun _ => .refl _) _ _
        (fun t => (order.set_lists key t).perm (order'.set_lists key t)) _⟩
  | _ => exact ⟨rfl, rfl⟩

/-- The order of ranging shows in the order of a reply only. -/
theorem dispatch_order (now : Time) (order order' : RangeOrder) (request : Value) (s : RefStore) :
    (s.dispatch now order request).1 = (s.dispatch now order' request).1 ∧
      SameUpToOrder request (s.dispatch now order request).2
        (s.dispatch now order' request).2 := by
  unfold dispatch Cmd.dispatch SameUpToOrder
  cases hp : plan request with
  | reply v => exact ⟨rfl, rfl⟩
  | call c render =>
      obtain ⟨hs, hr⟩ := call_order now order order' c s
      exact ⟨hs, (plan_call hp).renders.same _ _ hr⟩

end Reference.RefStore

namespace Store.DB

open Reference

variable {now : Time} {order : RangeOrder}

/-- **Dispatching on the sharded store is dispatching on its live entries.** -/
theorem abs_dispatch (now : Time) (order : RangeOrder) (request : Value) (db : DB) :
    (db.abs now).dispatch now order request =
      ((db.dispatch now order request).1.abs now, (db.dispatch now order request).2) :=
  dispatch_map (DB.abs now) (abs_call now order) request db

section Plan

variable (now : Time) (order : RangeOrder) {request : Value} {c : Call} {render : c.Result → Value}
  {key : Bytes} {cell : Cell → Cell × c.Result}

/-- What a request whose handler makes a call does to the live entries, and its reply. -/
theorem abs_of_plan (hplan : plan request = .call c render) (db : DB) :
    (db.dispatch now order request).1.abs now = ((db.abs now).call now order c).1 ∧
      (db.dispatch now order request).2 = render ((db.abs now).call now order c).2 := by
  have habs := abs_dispatch now order request db
  rw [RefStore.dispatch, Cmd.dispatch, hplan, Handler.run] at habs
  obtain ⟨hstore, hreply⟩ := Prod.ext_iff.1 habs
  exact ⟨hstore.symm, hreply.symm⟩

/-- The same when the call is a function on the cell of one key. -/
theorem dispatch_onKey (hplan : plan request = .call c render)
    (hcall : ∀ s : RefStore, s.call now order c = s.onKey key cell) (db : DB) :
    (db.dispatch now order request).1.keyspace now =
        Function.update (db.keyspace now) key (cell (db.keyspace now key)).1 ∧
      (db.dispatch now order request).2 = render (cell (db.keyspace now key)).2 := by
  obtain ⟨hstore, hreply⟩ := abs_of_plan now order hplan db
  rw [hcall] at hstore hreply
  exact ⟨congrArg RefStore.keys hstore, hreply⟩

end Plan

/-- A request that is not recorded changes nothing that can be seen. -/
theorem dispatch_unrecorded {request : Value} {db : DB}
    (h : isWrite (commandName request) = false ∨
      (db.dispatch now order request).2.isError = true) :
    (db.dispatch now order request).1.keyspace now = db.keyspace now := by
  have ha := abs_dispatch now order request db
  have hr : ((db.abs now).dispatch now order request).1.keys = (db.abs now).keys :=
    RefStore.dispatch_unrecorded (by rw [ha]; exact h)
  rw [ha] at hr
  exact hr

end Store.DB

end MiniRedis
