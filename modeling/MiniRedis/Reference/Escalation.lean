import MiniRedis.Reference.Transparency
import MiniRedis.Support.Machine

/-!
# Reference — the lock escalation of `GET`

`Get` looks the key up under the read lock.  When the entry has expired it lets go of the lock,
takes the write lock and deletes the entry if it is still there and still expired; in between other
clients may do anything to the key.  `Step` has the two critical sections as steps of their own, and
the other commands on one key as one step each.

* `get_eq`: the two sections are what the method does.
* `Escalation.Sequential`: the replies so far are those of the requests dispatched one after the
  other, and so is the keyspace; kept by every step.
* `escalation_harmless`: **the eviction changes nothing that can be seen, and a run is answered as
  its requests are answered one after the other.**
-/

namespace MiniRedis

open Protocol Store Cmd Reference Machine

namespace Store.DB

/-- The first section of `Get`, under the read lock: the answer, and whether the entry was found
expired. -/
def getRead (t₁ : Time) (key : Bytes) (db : DB) : Outcome (Option Bytes) × Bool :=
  match (db.shardFor key).lookup key with
  | none => (.ok none, false)
  | some e =>
      if e.expired t₁ then (.ok none, true)
      else
        match kindString.unwrap e.payload with
        | none => (.error .wrongType, false)
        | some value => (.ok (some value), false)

/-- `Get` is its first section and, if that found the entry expired, the write-locked re-check. -/
theorem get_eq (t₁ t₂ : Time) (key : Bytes) (db : DB) :
    db.get t₁ t₂ key =
      (if (db.getRead t₁ key).2 then (db.expireIfNeeded t₂ key).1 else db,
        (db.getRead t₁ key).1) := by
  unfold get getRead
  cases (db.shardFor key).lookup key with
  | none => rfl
  | some e =>
      by_cases he : e.expired t₁
      · simp only [he, if_true]
      · simp only [he, if_false, Bool.false_eq_true]
        cases kindString.unwrap e.payload <;> rfl

/-- The first section answers from the live entries. -/
theorem getRead_eq (now : Time) (key : Bytes) (db : DB) :
    (db.getRead now key).1 = Cell.read kindString none some (db.keyspace now key) := by
  have h : Cell.read kindString none some (db.keyspace now key) = (db.get now now key).2 :=
    congrArg Prod.snd (abs_get db)
  rw [h, get_eq]

/-- A run of two lists of events is the second list run from where the first one ends. -/
theorem run_append (es fs : List Event) (db : DB) :
    db.run (es ++ fs) =
      (((db.run es).1.run fs).1, (db.run es).2 ++ ((db.run es).1.run fs).2) := by
  induction es generalizing db with
  | nil => rfl
  | cons e es ih =>
      cases e with
      | request r => simp only [List.cons_append, run, ih]
      | pass now start order => simp only [List.cons_append, run, ih]

end Store.DB

/-- The key of a call on one key. -/
def Store.Call.key? : Call → Option Bytes
  | .get key | .set key _ | .del [key] | .exists [key] | .lPush key _ | .rPush key _ | .lPop key
  | .rPop key | .lLen key | .lRange key _ _ | .hSet key _ _ | .hGet key _ | .hDel key _
  | .hGetAll key | .hKeys key | .hVals key | .hLen key | .sAdd key _ | .sRem key _
  | .sIsMember key _ | .sMembers key | .sCard key | .expire key _ | .persist key | .ttl key =>
      some key
  | .del _ | .exists _ | .publish _ _ => none

namespace Escalation

variable {γ : Type}

/-- The request makes no call, or one on a single key other than `Get`: one critical section. -/
def Atomic (request : Value) : Prop :=
  match plan request with
  | .reply _ => True
  | .call (.get _) _ => False
  | .call c _ => c.key?.isSome = true

/-- The store under any number of clients: the latest clock reading, the key a client's `GET` has
found expired and has not re-checked yet, and the requests with their replies, in the order of the
steps. -/
structure State (γ : Type) where
  db : DB
  clock : Time
  owed : γ → Option Bytes
  replied : List (Dispatched × Value)

/-- No request has been made. -/
def State.start (db : DB) (clock : Time) : State γ := ⟨db, clock, fun _ => none, []⟩

/-- Clients dispatch requests; a `GET` that meets a due entry is two steps, the read and the
eviction. -/
inductive Label (γ : Type) where
  | request (c : γ) (r : Dispatched)
  | read (c : γ) (r : Dispatched)
  | evict (c : γ) (now : Time)

/-- One critical section; a client whose `GET` is between its two does nothing else. -/
inductive Step [DecidableEq γ] : State γ → Label γ → State γ → Prop where
  | request {s : State γ} {c : γ} {r : Dispatched} (hidle : s.owed c = none)
      (hclock : s.clock ≤ r.now) (hr : Atomic r.request) :
      Step s (.request c r)
        { s with
          db := (s.db.dispatch r.now r.order r.request).1
          clock := r.now
          replied := s.replied ++ [(r, (s.db.dispatch r.now r.order r.request).2)] }
  | read {s : State γ} {c : γ} {r : Dispatched} {key : Bytes}
      {render : Outcome (Option Bytes) → Value} (hidle : s.owed c = none)
      (hclock : s.clock ≤ r.now) (hr : plan r.request = .call (.get key) render) :
      Step s (.read c r)
        { s with
          clock := r.now
          owed := Function.update s.owed c
            (if (s.db.getRead r.now key).2 then some key else none)
          replied := s.replied ++ [(r, render (s.db.getRead r.now key).1)] }
  | evict {s : State γ} {c : γ} {now : Time} {key : Bytes} (howed : s.owed c = some key)
      (hclock : s.clock ≤ now) :
      Step s (.evict c now)
        { s with
          db := (s.db.expireIfNeeded now key).1
          clock := now
          owed := Function.update s.owed c none }

/-! ### Step and run -/

/-- The eviction is invisible from its reading on. -/
theorem Step.evict_invisible [DecidableEq γ] {s s' : State γ} {c : γ} {now u : Time}
    (h : Step s (.evict c now) s') (hu : now ≤ u) : s'.db.keyspace u = s.db.keyspace u := by
  cases h with
  | evict _ _ => exact DB.keyspace_expireIfNeeded hu s.db

/-- The requests answered so far, as events of a sequential run. -/
def State.events (s : State γ) : List Event := s.replied.map fun x => .request x.1

/-- From the store `db` on, the replies so far and the live entries are those of the requests
dispatched one after the other. -/
structure Sequential (db : DB) (s : State γ) : Prop where
  replies : (db.run s.events).2 = s.replied.map fun x => (x.1.request, x.2)
  live : s.db.abs s.clock = (db.run s.events).1.abs s.clock

theorem Sequential.start (db : DB) (clock : Time) :
    Sequential db (State.start db clock : State γ) := ⟨rfl, rfl⟩

/-- One more request, answered from the same live entries. -/
theorem Sequential.answered {db db' : DB} {s s' : State γ} {r : Dispatched} {reply : Value}
    (h : Sequential db s) (hclock : s.clock ≤ r.now)
    (hreply : (s.db.abs r.now).dispatch r.now r.order r.request = (db'.abs r.now, reply))
    (hdb : s'.db = db') (hnow : s'.clock = r.now) (hs' : s'.replied = s.replied ++ [(r, reply)]) :
    Sequential db s' := by
  have hlive : s.db.abs r.now = (db.run s.events).1.abs r.now := by
    rw [DB.abs_later hclock, DB.abs_later hclock, h.live]
  rw [hlive, DB.abs_dispatch] at hreply
  obtain ⟨habs, hval⟩ := Prod.ext_iff.1 hreply
  have hevents : s'.events = s.events ++ [.request r] := by
    simp [State.events, hs']
  refine ⟨?_, ?_⟩
  · rw [hevents, DB.run_append, h.replies, hs', List.map_append]
    exact congrArg (fun v => _ ++ [(r.request, v)]) hval
  · rw [hevents, DB.run_append, hdb, hnow]
    exact habs.symm

theorem Sequential.step [DecidableEq γ] {db : DB} {s s' : State γ} {l : Label γ}
    (h : Sequential db s) (hstep : Step s l s') : Sequential db s' := by
  cases hstep with
  | request _ hclock _ => exact h.answered hclock (DB.abs_dispatch _ _ _ _) rfl rfl rfl
  | @read _ r key render _ hclock hr =>
      refine h.answered hclock ?_ rfl rfl rfl
      simp only [RefStore.dispatch, Cmd.dispatch, hr, Handler.run, RefStore.call, DB.getRead_eq]
      rfl
  | @evict c now key _ hclock =>
      refine ⟨h.replies, ?_⟩
      change (s.db.expireIfNeeded now key).1.abs now = (db.run s.events).1.abs now
      have hevict : (s.db.expireIfNeeded now key).1.abs now = s.db.abs now :=
        RefStore.ext (DB.keyspace_expireIfNeeded le_rfl s.db) rfl
      rw [hevict, DB.abs_later hclock, DB.abs_later hclock, h.live]

/-! ### The result -/

/-- **The lock escalation of `GET` loses nothing.**  Whatever the interleaving, with nondecreasing
readings: an eviction leaves the keyspace as it was, at its own reading and from then on; and every
reply, that of a `GET` taken when it reads, is the one of the requests dispatched one after the
other, which leave the same keyspace. -/
theorem escalation_harmless [DecidableEq γ] {db : DB} {clock : Time} {s : State γ}
    {ls : List (Label γ)} (hrun : Run Step (State.start db clock) ls s) :
    (∀ c now s', Step s (.evict c now) s' →
      ∀ u, now ≤ u → s'.db.keyspace u = s.db.keyspace u) ∧
    (db.run s.events).2 = s.replied.map (fun x => (x.1.request, x.2)) ∧
    ∀ u, s.clock ≤ u → s.db.keyspace u = (db.run s.events).1.keyspace u := by
  have h : Sequential db s := hrun.preserves (G := fun _ => True)
    (fun _ _ _ _ hstep h => h.step hstep) (fun _ _ => trivial) (.start db clock)
  refine ⟨fun c now s' hstep u hu => hstep.evict_invisible hu, h.replies, fun u hu => ?_⟩
  have hlive : s.db.abs u = (db.run s.events).1.abs u := by
    rw [DB.abs_later hu, DB.abs_later hu, h.live]
  exact congrArg RefStore.keys hlive

/-- A key is given a millisecond; a `GET` finds it expired, and before the re-check another client
sets it again. -/
def setBetween : List (Label Bool) :=
  [.request true ⟨0, .sorted, bulkCmd [txt "SET", txt "k", txt "v"]⟩,
    .request true ⟨0, .sorted, bulkCmd [txt "PEXPIRE", txt "k", txt "1"]⟩,
    .read false ⟨1000000, .sorted, bulkCmd [txt "GET", txt "k"]⟩,
    .request true ⟨1000000, .sorted, bulkCmd [txt "SET", txt "k", txt "w"]⟩,
    .evict false 1000001]

/-- A `SET` between the read and the eviction. -/
theorem escalation_harmless_setBetween :
    ∃ s : State Bool, Run Step (State.start DB.new 0) setBetween s ∧
      s.replied.map Prod.snd = [okValue, integerValue 1, nullBulkValue, okValue] ∧
      (DB.new.run s.events).2 = s.replied.map (fun x => (x.1.request, x.2)) ∧
      s.db.keyspace 1000001 (txt "k") = some ⟨.str (txt "w"), none⟩ := by
  have hset : ∀ value, Atomic (bulkCmd [txt "SET", txt "k", txt value]) := fun _ => rfl
  have hexpire : Atomic (bulkCmd [txt "PEXPIRE", txt "k", txt "1"]) := rfl
  have hget : plan (bulkCmd [txt "GET", txt "k"]) = .call (.get (txt "k")) (orErr optionReply) :=
    rfl
  have hrun : ∃ s : State Bool, Run Step (State.start DB.new 0) setBetween s ∧
      s.replied.map Prod.snd = [okValue, integerValue 1, nullBulkValue, okValue] ∧
      s.db.keyspace 1000001 (txt "k") = some ⟨.str (txt "w"), none⟩ := by
    refine ⟨_, .cons (.request rfl le_rfl (hset "v")) <| .cons (.request rfl le_rfl hexpire) <|
      .cons (.read rfl (by decide) hget) <| .cons (.request rfl le_rfl (hset "w")) <|
      .cons (.evict (show _ = some (txt "k") from ?_) (by decide)) <| .nil _, ?_, ?_⟩
    · decide +kernel
    · decide +kernel
    · decide +kernel
  obtain ⟨s, hrun, hreplies, hkey⟩ := hrun
  exact ⟨s, hrun, hreplies, (escalation_harmless hrun).2.1, hkey⟩

end Escalation

end MiniRedis
