import MiniRedis.Reference.Timeless
import MiniRedis.Store.Raw

/-!
# Reference — the life of a key

A request seen from one key.  Of its changes only those of the key matter (`effectAt`), and a list
of requests does to the key what its sublist of requests that write the key does
(`rebuild_at`).

What becomes of one cell is one of six turns (`Turn`): it stays absent or goes, it is filled from
absent, it is overwritten, it gets another deadline, or it keeps its kind and its deadline.

* `Turn.of_updates`: **every call gives every key one of the six.**
* `key_keeps`: **a key keeps its kind and its deadline until it is set, named by an `EXPIRE` or
  `PERSIST`, or filled after it was gone**; with a deadline it is gone from that instant on.
-/

namespace MiniRedis

open Protocol Store Cmd Reference

/-! ### One key of a keyspace -/

/-- What a list of changes does to the cell of one key: those of the key, in order. -/
def Reference.Cell.applyAll (key : Bytes) (us : List (Bytes × (Cell → Cell))) (c : Cell) : Cell :=
  (us.filter fun u => u.1 = key).foldl (fun c u => u.2 c) c

/-- What a request does to the cell of one key. -/
def effectAt (now : Time) (key : Bytes) (request : Value) (c : Cell) : Cell :=
  match plan request with
  | .reply _ => c
  | .call d _ => Cell.applyAll key (d.updates now) c

/-- The keys whose cells a request may change. -/
def Cmd.written (request : Value) : List Bytes :=
  match plan request with
  | .reply _ => []
  | .call c _ => (c.updates 0).map Prod.fst

/-- The changes of a keyspace, seen from one key. -/
theorem Keyspace.applyAll_at (us : List (Bytes × (Cell → Cell))) (ks : Keyspace) (key : Bytes) :
    Keyspace.applyAll us ks key = Cell.applyAll key us (ks key) := by
  induction us generalizing ks with
  | nil => rfl
  | cons u us ih =>
      have hstep : Keyspace.applyAll (u :: us) ks =
          Keyspace.applyAll us (Function.update ks u.1 (u.2 (ks u.1))) := rfl
      rw [hstep, ih]
      by_cases hk : u.1 = key
      · subst hk
        simp [Cell.applyAll]
      · rw [Function.update_of_ne (Ne.symm hk)]
        simp [Cell.applyAll, hk]

/-- **A request does to each key what it does to the key's cell.** -/
theorem effect_at (now : Time) (request : Value) (ks : Keyspace) (key : Bytes) :
    effect now request ks key = effectAt now key request (ks key) := by
  unfold effect effectAt
  cases plan request with
  | reply v => rfl
  | call c render => exact Keyspace.applyAll_at _ _ _

/-- The keys of a call's updates do not depend on the clock. -/
theorem Store.Call.updates_keys (c : Call) (now : Time) :
    (c.updates now).map Prod.fst = (c.updates 0).map Prod.fst := by
  cases c <;> rfl

/-- A request leaves the keys it does not write. -/
theorem effectAt_of_notMem {now : Time} {key : Bytes} {request : Value}
    (h : key ∉ written request) (c : Cell) : effectAt now key request c = c := by
  unfold written at h
  unfold effectAt
  cases hp : plan request with
  | reply v => rfl
  | call d render =>
      simp only [hp, ← d.updates_keys now] at h
      have hnone : (d.updates now).filter (fun u => u.1 = key) = [] := by
        refine List.filter_eq_nil_iff.2 fun u hu hk => h ?_
        rw [← of_decide_eq_true hk]
        exact List.mem_map_of_mem hu
      simp only [Cell.applyAll, hnone, List.foldl_nil]

/-- **A list of requests does to a key what those of them that write it do.** -/
theorem rebuild_at (log : List Value) (ks : Keyspace) (key : Bytes) :
    rebuild log ks key =
      (log.filter fun r => (written r).contains key).foldl (fun c r => effectAt 0 key r c)
        (ks key) := by
  induction log generalizing ks with
  | nil => rfl
  | cons r log ih =>
      have hstep : rebuild (r :: log) ks = rebuild log (effect 0 r ks) := rfl
      rw [hstep, ih, effect_at]
      by_cases hk : key ∈ written r
      · simp [hk]
      · simp [hk, effectAt_of_notMem hk]

/-! ### The turns of a key -/

/-- The kind of a value, as the source tags it. -/
def Store.Payload.kind : Payload → Raw.Tag
  | .str _ => .string
  | .list _ => .list
  | .hash _ => .hash
  | .set _ => .set

/-- The second entry has the kind and the deadline of the first. -/
def Store.Entry.Kept (e e' : Entry) : Prop :=
  e'.payload.kind = e.payload.kind ∧ e'.expireAt = e.expireAt

namespace Store.Call

/-- The call overwrites the key, whatever it holds. -/
def Sets (key : Bytes) : Call → Prop
  | .set k _ => k = key
  | _ => False

/-- The call creates the key when it is absent. -/
def Fills (key : Bytes) : Call → Prop
  | .lPush k _ | .rPush k _ | .hSet k _ _ | .sAdd k _ => k = key
  | _ => False

/-- The call sets or clears the deadline of the key.  It counts also where there is nothing to
change: a `PERSIST` of a key without a deadline, an `EXPIRE` of an absent one. -/
def Retimes (key : Bytes) : Call → Prop
  | .expire k _ | .persist k => k = key
  | _ => False

end Store.Call

/-- The request makes a call with the property. -/
def Cmd.Makes (P : Call → Prop) (request : Value) : Prop :=
  ∃ c render, plan request = .call c render ∧ P c

/-- What a call may make of the cell of a key. -/
inductive Turn (key : Bytes) (c : Call) : Cell → Cell → Prop where
  | absent : Turn key c none none
  | gone (e : Entry) : Turn key c (some e) none
  | kept {e e' : Entry} (h : e.Kept e') : Turn key c (some e) (some e')
  | filled {e : Entry} (hc : c.Fills key) (hd : e.expireAt = none) : Turn key c none (some e)
  | overwritten {x : Cell} {e : Entry} (hc : c.Sets key) (hk : e.payload.kind = .string)
      (hd : e.expireAt = none) : Turn key c x (some e)
  | retimed {e e' : Entry} (hc : c.Retimes key) (hp : e'.payload = e.payload) :
      Turn key c (some e) (some e')

namespace Turn

variable {α β : Type} {key : Bytes} {c : Call}

theorem refl (x : Cell) : Turn key c x x := by
  cases x with
  | none => exact .absent
  | some e => exact .kept ⟨rfl, rfl⟩

theorem fill {K : Kind β} {f : β → β × α} (hK : ∀ b b', (K.wrap b).kind = (K.wrap b').kind)
    (hc : c.Fills key) (x : Cell) : Turn key c x (Cell.fill K f x).1 := by
  cases x with
  | none => exact .filled hc rfl
  | some e =>
      cases hu : K.unwrap e.payload with
      | none =>
          simp only [Cell.fill, hu]
          exact .refl _
      | some b =>
          simp only [Cell.fill, hu]
          exact .kept ⟨by rw [(K.unwrap_iff _ _).1 hu]; exact hK _ _, rfl⟩

theorem take [DecidableEq β] {K : Kind β} {absent : α} {f : β → Option (β × α)}
    (hK : ∀ b b', (K.wrap b).kind = (K.wrap b').kind) (x : Cell) :
    Turn key c x (Cell.take K absent f x).1 := by
  cases x with
  | none => exact .absent
  | some e =>
      cases hu : K.unwrap e.payload with
      | none =>
          simp only [Cell.take, hu]
          exact .refl _
      | some b =>
          cases hf : f b with
          | none =>
              simp only [Cell.take, hu, hf]
              exact .refl _
          | some r =>
              simp only [Cell.take, hu, hf]
              split
              · exact .gone e
              · exact .kept ⟨by rw [(K.unwrap_iff _ _).1 hu]; exact hK _ _, rfl⟩

theorem expire {now : Time} {d : Duration} (hc : c.Retimes key) (x : Cell) :
    Turn key c x (Cell.expire now d x).1 := by
  cases x with
  | none => exact .absent
  | some e =>
      simp only [Cell.expire]
      split
      · exact .gone e
      · exact .retimed hc rfl

theorem persist (hc : c.Retimes key) (x : Cell) : Turn key c x (Cell.persist x).1 := by
  cases x with
  | none => exact .absent
  | some e => exact .retimed hc rfl

/-- A call with one change turns every other key nowhere. -/
theorem single {k : Bytes} {f : Cell → Cell} {now : Time} (h : c.updates now = [(k, f)])
    (hf : k = key → ∀ x, Turn key c x (f x)) (x : Cell) :
    Turn key c x (Cell.applyAll key (c.updates now) x) := by
  rw [h]
  by_cases hk : k = key
  · have hone : Cell.applyAll key [(k, f)] x = f x := by simp [Cell.applyAll, hk]
    rw [hone]
    exact hf hk x
  · have hid : Cell.applyAll key [(k, f)] x = x := by simp [Cell.applyAll, hk]
    rw [hid]
    exact .refl x

/-- `DEL` removes the key or leaves it, however often the key is among its arguments. -/
theorem applyAll_del (key : Bytes) (keys : List Bytes) (x : Cell) :
    Cell.applyAll key (keys.map fun k => (k, fun c => (Cell.del c).1)) x = none ∨
      Cell.applyAll key (keys.map fun k => (k, fun c => (Cell.del c).1)) x = x := by
  induction keys generalizing x with
  | nil => exact .inr rfl
  | cons k keys ih =>
      by_cases hk : k = key
      · have hnone : (Cell.del x).1 = none := by cases x <;> rfl
        refine .inl ?_
        simp only [List.map_cons, Cell.applyAll, hk, decide_true, List.filter_cons_of_pos,
          List.foldl_cons, hnone]
        exact (ih none).elim id id
      · simpa [Cell.applyAll, hk] using ih x

/-- Every call gives every key one of the six turns. -/
theorem of_updates (key : Bytes) (c : Call) (now : Time) (x : Cell) :
    Turn key c x (Cell.applyAll key (c.updates now) x) := by
  cases c with
  | set k value =>
      refine single rfl (fun hk y => ?_) x
      refine .overwritten ?_ rfl rfl
      exact hk
  | del keys =>
      rcases applyAll_del key keys x with h | h
      · simp only [Call.updates, h]
        cases x with
        | none => exact .absent
        | some e => exact .gone e
      · simp only [Call.updates, h]
        exact .refl x
  | lPush | rPush | hSet | sAdd =>
      refine single rfl (fun hk y => ?_) x
      refine fill (fun _ _ => rfl) ?_ y
      exact hk
  | lPop | rPop | hDel | sRem => exact single rfl (fun _ => take (fun _ _ => rfl)) x
  | expire k d =>
      refine single rfl (fun hk y => ?_) x
      refine expire ?_ y
      exact hk
  | persist k =>
      refine single rfl (fun hk y => ?_) x
      refine persist ?_ y
      exact hk
  | get | «exists» | lLen | lRange | hGet | hGetAll | hKeys | hVals | hLen | sIsMember | sMembers
  | sCard | ttl | publish => exact .refl x

/-- An entry that is not overwritten, given another deadline or filled after it went keeps its
kind and its deadline, or goes. -/
theorem steady {e : Entry} {x y : Cell} (h : Turn key c x y) (hx : x.All e.Kept)
    (hset : ¬ c.Sets key) (htime : ¬ c.Retimes key) (hfill : c.Fills key → x ≠ none) :
    y.All e.Kept := by
  cases h with
  | absent | gone => exact Cell.all_none _
  | kept h =>
      obtain ⟨hk, hd⟩ := Cell.all_some.1 hx
      exact Cell.all_some.2 ⟨h.1.trans hk, h.2.trans hd⟩
  | filled hc => exact absurd rfl (hfill hc)
  | overwritten hc => exact absurd hc hset
  | retimed hc => exact absurd hc htime

end Turn

/-! ### Runs -/

/-- The request ends what was known of the key: it overwrites it, sets or clears its deadline, or
creates it where it is absent. -/
def Cmd.Restarts (key : Bytes) (absent : Prop) (request : Value) : Prop :=
  Makes (Call.Sets key) request ∨ Makes (Call.Retimes key) request ∨
    Makes (Call.Fills key) request ∧ absent

/-- A request that does not restart a key leaves it as it was known, or removes it. -/
theorem steady_effectAt {now : Time} {key : Bytes} {request : Value} {e : Entry} {x : Cell}
    (hx : x.All e.Kept) (h : ¬ Restarts key (x = none) request) :
    (effectAt now key request x).All e.Kept := by
  unfold effectAt
  cases hp : plan request with
  | reply v => exact hx
  | call c render =>
      refine (Turn.of_updates key c now x).steady hx ?_ ?_ ?_
      · exact fun hc => h (.inl ⟨c, render, hp, hc⟩)
      · exact fun hc => h (.inr (.inl ⟨c, render, hp, hc⟩))
      · exact fun hc hn => h (.inr (.inr ⟨⟨c, render, hp, hc⟩, hn⟩))

theorem Store.DB.steady_later {t u : Time} {db : DB} {key : Bytes} {e : Entry}
    (h : (db.keyspace t key).All e.Kept) (hu : t ≤ u) : (db.keyspace u key).All e.Kept := by
  intro e' he'
  rw [DB.keyspace_later hu] at he'
  exact h e' (Option.filter_eq_some_iff.1 he').1

/-- Along a run the key stays as it was known, or some request restarts it. -/
theorem Store.DB.steady_run {events : List Event} {t : Time} {db : DB} {key : Bytes} {e : Entry}
    (hclock : (t :: events.map Event.now).Pairwise (· ≤ ·))
    (h : (db.keyspace t key).All e.Kept) :
    (∀ u, (∀ v ∈ t :: events.map Event.now, v ≤ u) →
        ((db.run events).1.keyspace u key).All e.Kept) ∨
      ∃ before r after, events = before ++ .request r :: after ∧
        Restarts key ((db.run before).1.keyspace r.now key = none) r.request := by
  induction events generalizing t db with
  | nil => exact .inl fun u hu => DB.steady_later h (hu t List.mem_cons_self)
  | cons ev events ih =>
      obtain ⟨hle, hrest⟩ := List.pairwise_cons.1 hclock
      have hnow := DB.steady_later h (hle ev.now List.mem_cons_self)
      -- the rest of the run, from a store in which the key is still as it was known
      have hgo : ∀ db' : DB, (∀ es, db.run (ev :: es) = ((db'.run es).1, (db.run (ev :: es)).2)) →
          (db'.keyspace ev.now key).All e.Kept →
          (∀ u, (∀ v ∈ t :: (ev :: events).map Event.now, v ≤ u) →
              ((db.run (ev :: events)).1.keyspace u key).All e.Kept) ∨
            ∃ before r after, ev :: events = before ++ .request r :: after ∧
              Restarts key ((db.run before).1.keyspace r.now key = none) r.request := by
        intro db' hrun hkept
        rcases ih hrest hkept with hall | ⟨before, r, after, rfl, hr⟩
        · refine .inl fun u hu => ?_
          rw [hrun]
          exact hall u fun v hv => hu v (List.mem_cons_of_mem _ hv)
        · refine .inr ⟨ev :: before, r, after, rfl, ?_⟩
          rw [hrun]
          exact hr
      cases ev with
      | pass now start order =>
          refine hgo (db.activeExpiryPass now start order).1 (fun _ => rfl) ?_
          have hpeek := (DB.activeExpiryPass_reaped now start order db
            (shardIndex key)).peek le_rfl key
          exact (show (db.activeExpiryPass now start order).1.keyspace now key =
            db.keyspace now key from hpeek) ▸ hnow
      | request r =>
          by_cases hr : Restarts key (db.keyspace r.now key = none) r.request
          · exact .inr ⟨[], r, events, rfl, hr⟩
          · refine hgo (db.dispatch r.now r.order r.request).1 (fun _ => rfl) ?_
            have hkey : (db.dispatch r.now r.order r.request).1.keyspace r.now key =
                effectAt r.now key r.request (db.keyspace r.now key) := by
              rw [DB.keyspace_dispatch, effect_at]
            exact hkey ▸ steady_effectAt hnow hr

/-- **A key keeps its kind and its deadline** along every run with nondecreasing readings, reaper
passes included, until it goes: unless some request of the run overwrites it, is an `EXPIRE`,
`PEXPIRE` or `PERSIST` of it, or creates it anew when it is gone.  With a deadline it is gone from
that instant on. -/
theorem key_keeps {events : List Event} {t u : Time} {db : DB} {key : Bytes} {e : Entry}
    (hclock : (t :: events.map Event.now).Pairwise (· ≤ ·))
    (hu : ∀ v ∈ t :: events.map Event.now, v ≤ u) (he : db.keyspace t key = some e) :
    (db.run events).1.keyspace u key = none ∨
      (∃ e', (db.run events).1.keyspace u key = some e' ∧ e.Kept e' ∧
        ∀ d, e.expireAt = some d → u < d) ∨
      ∃ before r after, events = before ++ .request r :: after ∧
        Restarts key ((db.run before).1.keyspace r.now key = none) r.request := by
  have hstart : (db.keyspace t key).All e.Kept := he ▸ Cell.all_some.2 ⟨rfl, rfl⟩
  rcases DB.steady_run hclock hstart with hall | hr
  · cases hend : (db.run events).1.keyspace u key with
    | none => exact .inl rfl
    | some e' =>
        have hkept := hall u hu e' hend
        refine .inr (.inl ⟨e', rfl, hkept, fun d hd => ?_⟩)
        have hlive := (Shard.peek_eq_some.1 hend).2
        simpa [Entry.expired, hkept.2, hd] using hlive
  · exact .inr (.inr hr)

/-- A list with one millisecond to live. -/
def shortLived : DB :=
  (DB.new.run [.request ⟨0, .sorted, bulkCmd [txt "RPUSH", txt "k", txt "a"]⟩,
    .request ⟨0, .sorted, bulkCmd [txt "PEXPIRE", txt "k", txt "1"]⟩]).1

/-- The list is pushed to, met by the reaper and popped before it is due. -/
def shortLife : List Event :=
  [.request ⟨1, .sorted, bulkCmd [txt "RPUSH", txt "k", txt "b"]⟩, .pass 2 ⟨5, by decide⟩ .sorted,
    .request ⟨3, .sorted, bulkCmd [txt "LPOP", txt "k"]⟩]

/-- The list has kept its kind and its deadline. -/
theorem key_keeps_shortLife :
    shortLived.keyspace 0 (txt "k") = some ⟨.list [txt "a"], some 1000000⟩ ∧
      (shortLived.run shortLife).1.keyspace 4 (txt "k") = some ⟨.list [txt "b"], some 1000000⟩ ∧
      ((shortLived.run shortLife).1.keyspace 4 (txt "k") = none ∨
        (∃ e', (shortLived.run shortLife).1.keyspace 4 (txt "k") = some e' ∧
          Entry.Kept ⟨.list [txt "a"], some 1000000⟩ e' ∧
          ∀ d : Time, some 1000000 = some d → 4 < d) ∨
        ∃ before r after, shortLife = before ++ .request r :: after ∧
          Restarts (txt "k") ((shortLived.run before).1.keyspace r.now (txt "k") = none)
            r.request) :=
  have hstart : shortLived.keyspace 0 (txt "k") = some ⟨.list [txt "a"], some 1000000⟩ := by
    decide +kernel
  ⟨hstart, by decide +kernel,
    key_keeps (show (0 :: shortLife.map Event.now).Pairwise (· ≤ ·) by decide)
      (show ∀ v ∈ 0 :: shortLife.map Event.now, v ≤ 4 by decide) hstart⟩

end MiniRedis
