import MiniRedis.Reference.Dispatch
import MiniRedis.Store.Expiry

/-!
# Reference — Transparency of expiry

Expired entries linger in the sharded store and are met by three lookups and a sampling reaper.
Runs of requests, with reaper passes anywhere between them, are compared with runs of the
reference store, where an entry is gone at the instant its deadline is reached.  The two runs
agree on every reply up to the order of unordered collections, and no eviction touches a key
that is persistent or not yet due (`expiry_transparent`).

The relation carried along a run is that the live entries of the sharded store are those of the
reference store (`Mirrors`): one step lemma for a request, one for a pass.
-/

namespace MiniRedis

open Protocol Store Cmd

/-- A request as it is dispatched: the clock reading it takes, and the orders in which the
runtime ranges over the maps it meets. -/
structure Dispatched where
  now : Time
  order : RangeOrder
  request : Value

/-- A step of a run: a dispatched request, or a pass of the reaper. -/
inductive Event where
  | request (r : Dispatched)
  | pass (now : Time) (start : Fin shardCount) (order : RangeOrder)

namespace Event

/-- The clock reading of an event. -/
def now : Event → Time
  | .request r => r.now
  | .pass now _ _ => now

/-- The request that an event dispatches. -/
def request? : Event → Option Dispatched
  | .request r => some r
  | .pass _ _ _ => none

end Event

/-- A run of the sharded store: the store it ends in and the requests with their replies. -/
def Store.DB.run : List Event → DB → DB × List (Value × Value)
  | [], db => (db, [])
  | .request r :: events, db =>
      let (db', reply) := db.dispatch r.now r.order r.request
      let (db', rest) := db'.run events
      (db', (r.request, reply) :: rest)
  | .pass now start order :: events, db => (db.activeExpiryPass now start order).1.run events

namespace Reference.RefStore

/-- The empty store. -/
def new : RefStore := ⟨fun _ => none, Broker.new⟩

/-- A run of the reference store: time reaches each request's reading before it is served. -/
def run : List Dispatched → RefStore → RefStore × List (Value × Value)
  | [], s => (s, [])
  | r :: rest, s =>
      let (s', reply) := (s.purge r.now).dispatch r.now r.order r.request
      let (s', replies) := run rest s'
      (s', (r.request, reply) :: replies)

theorem purge_purge {t u : Time} (h : t ≤ u) (s : RefStore) : (s.purge t).purge u = s.purge u := by
  refine RefStore.ext (funext fun key => ?_) rfl
  simp only [purge, Option.filter_filter]
  congr 1
  funext e
  by_cases hu : e.expired u
  · simp [hu]
  · have ht : e.expired t = false := by
      by_contra hn
      exact hu (Entry.expired_mono h (by simpa using hn))
    simp [hu, ht]

end Reference.RefStore

open Reference

/-- The live entries of the sharded store, from `t` on, are those of the reference store. -/
def Mirrors (t : Time) (db : DB) (s : RefStore) : Prop := db.abs t = s.purge t

namespace Mirrors

variable {t u : Time} {db : DB} {s : RefStore}

theorem new (t : Time) : Mirrors t DB.new RefStore.new := RefStore.ext (funext fun _ => rfl) rfl

theorem later (h : Mirrors t db s) (hu : t ≤ u) : Mirrors u db s := by
  rw [Mirrors, DB.abs_later hu, h, RefStore.purge_purge hu]

/-- A request keeps the stores in step and is answered alike. -/
theorem request (h : Mirrors t db s) (order order' : RangeOrder) (req : Value) :
    Mirrors t (db.dispatch t order req).1 ((s.purge t).dispatch t order' req).1 ∧
      SameUpToOrder req (db.dispatch t order req).2 ((s.purge t).dispatch t order' req).2 := by
  have ha := DB.abs_dispatch t order req db
  have ho := RefStore.dispatch_order t order order' req (db.abs t)
  rw [ha, h] at ho
  refine ⟨?_, ho.2⟩
  rw [Mirrors, ← ho.1]
  exact DB.abs_later le_rfl _

/-- A pass of the reaper is invisible. -/
theorem pass (h : Mirrors t db s) (start : Fin shardCount) (order : RangeOrder) :
    Mirrors t (db.activeExpiryPass t start order).1 s := by
  rw [Mirrors, ← show db.abs t = s.purge t from h]
  refine RefStore.ext (funext fun key => ?_) (DB.activeExpiryPass_pubsub t start order db)
  exact (DB.activeExpiryPass_reaped t start order db _).peek le_rfl key

end Mirrors

/-- Two exchanges of one request with replies alike up to order. -/
def SameExchange (p q : Value × Value) : Prop := p.1 = q.1 ∧ SameUpToOrder p.1 p.2 q.2

/-- Along a run with nondecreasing clock readings the two stores stay in step. -/
theorem Mirrors.run {events : List Event} {reqs : List Dispatched} {t : Time} {db : DB}
    {s : RefStore} (h : Mirrors t db s) (hclock : (t :: events.map Event.now).Pairwise (· ≤ ·))
    (hreqs : reqs.map (fun r => (r.now, r.request)) =
      (events.filterMap Event.request?).map fun r => (r.now, r.request)) :
    List.Forall₂ SameExchange (db.run events).2 (s.run reqs).2 := by
  induction events generalizing t db s reqs with
  | nil =>
      cases reqs with
      | nil => exact .nil
      | cons r rest => simp at hreqs
  | cons e events ih =>
      obtain ⟨hle, hrest⟩ := List.pairwise_cons.1 hclock
      have hu := h.later (hle e.now List.mem_cons_self)
      cases e with
      | pass now start order => exact ih (hu.pass start order) hrest hreqs
      | request r =>
          cases reqs with
          | nil => simp [Event.request?] at hreqs
          | cons r' rest =>
              simp only [List.map_cons, List.filterMap_cons, Event.request?, List.cons.injEq,
                Prod.mk.injEq] at hreqs
              obtain ⟨⟨hnow, hreq⟩, htail⟩ := hreqs
              have hstep := hu.request r.order r'.order r.request
              simp only [Event.now] at hstep
              rw [← hnow, ← hreq] at hstep
              rw [DB.run, RefStore.run, ← hnow, ← hreq]
              refine .cons ⟨rfl, hstep.2⟩ (ih ?_ hrest htail)
              simpa only [Event.now, ← hnow] using hstep.1

/-- Every entry of `db` that has not expired at `now` is in the same shard of `db'`. -/
def Spares (now : Time) (db db' : DB) : Prop :=
  ∀ i key e, (db.shards i).lookup key = some e → e.expired now = false →
    (db'.shards i).lookup key = some e

/-- **Expiry is transparent.**  A run with nondecreasing clock readings, reaper passes inserted
anywhere, is answered as the reference store answers it, up to the order of unordered
collections; and the eviction behind `Get`, that of `liveEntry` and a pass of the reaper remove
no entry that is persistent or not yet due. -/
theorem expiry_transparent (events : List Event) (reqs : List Dispatched)
    (hclock : (events.map Event.now).Pairwise (· ≤ ·))
    (hreqs : reqs.map (fun r => (r.now, r.request)) =
      (events.filterMap Event.request?).map fun r => (r.now, r.request)) :
    List.Forall₂ SameExchange (DB.new.run events).2 (RefStore.new.run reqs).2 ∧
      (∀ t₁ t₂ key db, Spares t₂ db (db.get t₁ t₂ key).1) ∧
      (∀ now key (sh : Shard) k e, sh.lookup k = some e → e.expired now = false →
        (Shard.liveEntry now key sh).1.lookup k = some e) ∧
      ∀ now start order db, Spares now db (db.activeExpiryPass now start order).1 := by
  refine ⟨?_, fun t₁ t₂ key db i => (DB.get_reaped t₁ t₂ key db i).lost,
    fun now key sh => (DB.liveEntry_reaped now key sh).lost,
    fun now start order db i => (DB.activeExpiryPass_reaped now start order db i).lost⟩
  cases events with
  | nil => exact (Mirrors.new 0).run (List.pairwise_singleton _ _) hreqs
  | cons e events =>
      refine (Mirrors.new e.now).run (List.pairwise_cons.2 ⟨fun u hu => ?_, hclock⟩) hreqs
      rcases List.mem_cons.1 hu with rfl | hu
      · exact le_rfl
      · exact (List.pairwise_cons.1 hclock).1 u hu

/-- A key with one millisecond to live, the reaper running just before it is due and a read at
the very instant. -/
def dueKey : List Event :=
  [.request ⟨0, .sorted, bulkCmd [txt "SET", txt "k", txt "v"]⟩,
    .request ⟨0, .sorted, bulkCmd [txt "PEXPIRE", txt "k", txt "1"]⟩,
    .pass 999999 ⟨7, by decide⟩ .sorted,
    .request ⟨1000000, .sorted, bulkCmd [txt "GET", txt "k"]⟩]

/-- A key that is due and that no pass has met. -/
theorem expiry_transparent_dueKey :
    (dueKey.map Event.now).Pairwise (· ≤ ·) ∧
      (DB.new.run dueKey).2.map Prod.snd = [okValue, integerValue 1, nullBulkValue] ∧
      List.Forall₂ SameExchange (DB.new.run dueKey).2
        (RefStore.new.run (dueKey.filterMap Event.request?)).2 :=
  ⟨by decide, by decide +kernel, (expiry_transparent dueKey _ (by decide) rfl).1⟩

end MiniRedis
