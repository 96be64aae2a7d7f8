import MiniRedis.Reference.Updates

/-!
# Reference — Invariant

What holds of every entry a store can come to hold, expired or not.

* `DB.Valid t`: the entry is in the shard its key is routed to, its collection is not empty, and
  its deadline is at most the longest duration after `t`.  It is kept by every request at a
  reading up to `t`, in whatever order the readings come (`Valid.run`).
* `DB.Timeless`: moreover no entry has a deadline.
-/

namespace MiniRedis

open Protocol Store Cmd Reference Strings

namespace Store

/-- A value that is no empty collection. -/
def Payload.Nonempty : Payload → Prop
  | .str _ => True
  | .list items => items ≠ []
  | .hash fields => fields ≠ ∅
  | .set members => members ≠ ∅

/-- The longest duration, in nanoseconds. -/
def maxDuration : Int := 2 ^ 63 - 1

/-- An entry that commands up to time `t` can have left. -/
structure Entry.Valid (t : Time) (e : Entry) : Prop where
  nonempty : e.payload.Nonempty
  deadline : ∀ d, e.expireAt = some d → d ≤ t + maxDuration

/-- An entry that commands which set no deadline can have left. -/
structure Entry.Timeless (e : Entry) : Prop where
  nonempty : e.payload.Nonempty
  persistent : e.expireAt = none

theorem Entry.Timeless.valid {e : Entry} (h : e.Timeless) (t : Time) : e.Valid t :=
  ⟨h.nonempty, fun d hd => by rw [h.persistent] at hd; cases hd⟩

/-- A store that commands up to time `t` can have left. -/
abbrev DB.Valid (t : Time) (db : DB) : Prop := db.Holds (Entry.Valid t)

/-- A store that commands which set no deadline can have left. -/
abbrev DB.Timeless (db : DB) : Prop := db.Holds Entry.Timeless

section Loops

open Maps

theorem putAll_ne_empty {l : List (Bytes × Bytes)} (h : l ≠ []) (m : Dict Bytes Bytes) :
    (putAll m l).1 ≠ ∅ := by
  obtain ⟨k, hk⟩ := List.exists_mem_of_ne_nil _ h
  intro he
  have hm : k.1 ∈ (putAll m l).1 := (mem_putAll l m k.1).2 (.inr (List.mem_map_of_mem hk))
  rw [he] at hm
  exact Finmap.notMem_empty hm

theorem addAll_ne_empty {l : List Bytes} (h : l ≠ []) (s : Finset Bytes) : (addAll s l).1 ≠ ∅ := by
  obtain ⟨a, ha⟩ := List.exists_mem_of_ne_nil _ h
  rw [addAll_eq_union, ← Finset.nonempty_iff_ne_empty]
  exact ⟨a, Finset.mem_union_right _ (List.mem_toFinset.2 ha)⟩

end Loops

theorem toInt_le_maxDuration (d : Duration) : d.toInt ≤ maxDuration := by
  have := d.toInt_lt
  unfold maxDuration
  omega

/-- The properties of an entry that speak of its value through non-emptiness only: what calls
keep is then a matter of the deadlines alone. -/
structure AboutDeadline (P : Entry → Prop) (D : Option Time → Prop) : Prop where
  iff : ∀ e, P e ↔ e.payload.Nonempty ∧ D e.expireAt
  persistent : D none

namespace AboutDeadline

variable {P : Entry → Prop} {D : Option Time → Prop} {α β : Type}

/-- A method that fills its key leaves a collection that is not empty. -/
theorem fill (hP : AboutDeadline P D) {K : Kind β} {f : β → β × α}
    (hf : ∀ b, (K.wrap (f b).1).Nonempty) (c : Cell) (h : c.All P) : (Cell.fill K f c).1.All P :=
  Cell.fill_all ((hP.iff _).2 ⟨hf K.empty, hP.persistent⟩)
    (fun b _ h => (hP.iff _).2 ⟨hf b, ((hP.iff _).1 h).2⟩) c h

/-- A method that takes from its key leaves one that is not empty, or no key. -/
theorem take [DecidableEq β] (hP : AboutDeadline P D) {K : Kind β} {absent : α}
    {f : β → Option (β × α)} (hK : ∀ b, b ≠ K.empty → (K.wrap b).Nonempty) (c : Cell)
    (h : c.All P) : (Cell.take K absent f c).1.All P :=
  Cell.take_all (fun _ _ b' _ _ hb h => (hP.iff _).2 ⟨hK b' hb, ((hP.iff _).1 h).2⟩) c h

/-- Every update keeps the property, if the deadlines it sets have it. -/
theorem updates (hP : AboutDeadline P D) {now : Time} {c : Call} (hc : c.Filled)
    {u : Bytes × (Cell → Cell)} (hu : u ∈ c.updates now)
    (hexp : ∀ d : Duration, c = .expire u.1 d → ¬ d ≤ 0 → D (some (now + d.toInt))) (x : Cell)
    (hx : x.All P) : (u.2 x).All P := by
  cases c with
  | del keys =>
      obtain ⟨key, -, rfl⟩ := List.mem_map.1 hu
      exact Cell.del_all x
  | set key value =>
      rw [List.mem_singleton.1 hu]
      exact Cell.all_some.2 ((hP.iff _).2 ⟨trivial, hP.persistent⟩)
  | lPush key values =>
      rw [List.mem_singleton.1 hu]
      refine hP.fill (fun l => ?_) x hx
      exact List.append_ne_nil_of_left_ne_nil (List.reverse_ne_nil_iff.2 hc) l
  | rPush key values =>
      rw [List.mem_singleton.1 hu]
      refine hP.fill (fun l => ?_) x hx
      exact List.append_ne_nil_of_right_ne_nil l hc
  | hSet key fields values =>
      rw [List.mem_singleton.1 hu]
      refine hP.fill (fun m => ?_) x hx
      exact putAll_ne_empty hc m
  | sAdd key members =>
      rw [List.mem_singleton.1 hu]
      refine hP.fill (fun s => ?_) x hx
      exact addAll_ne_empty hc s
  | lPop | rPop | hDel | sRem =>
      rw [List.mem_singleton.1 hu]
      refine hP.take (fun _ h => ?_) x hx
      exact h
  | expire key d =>
      obtain rfl := List.mem_singleton.1 hu
      exact Cell.expire_all
        (fun e he hd => (hP.iff _).2 ⟨((hP.iff e).1 he).1, hexp d rfl hd⟩) x hx
  | persist key =>
      rw [List.mem_singleton.1 hu]
      exact Cell.persist_all (fun e he => (hP.iff _).2 ⟨((hP.iff e).1 he).1, hP.persistent⟩) x hx
  | get | «exists» | lLen | lRange | hGet | hGetAll | hKeys | hVals | hLen | sIsMember | sMembers
  | sCard | ttl | publish => cases hu

end AboutDeadline

theorem valid_aboutDeadline (t : Time) :
    AboutDeadline (Entry.Valid t) fun o => ∀ d, o = some d → d ≤ t + maxDuration :=
  ⟨fun _ => ⟨fun h => ⟨h.nonempty, h.deadline⟩, fun h => ⟨h.1, h.2⟩⟩, nofun⟩

theorem timeless_aboutDeadline : AboutDeadline Entry.Timeless (· = none) :=
  ⟨fun _ => ⟨fun h => ⟨h.nonempty, h.persistent⟩, fun h => ⟨h.1, h.2⟩⟩, rfl⟩

namespace DB

variable {now t : Time} {order : RangeOrder} {db : DB}

/-- **Every request keeps a store valid.** -/
theorem Valid.dispatch (request : Value) (hnow : now ≤ t) (hv : db.Valid t) :
    (db.dispatch now order request).1.Valid t := by
  unfold DB.dispatch Cmd.dispatch
  cases hp : plan request with
  | reply v => exact hv
  | call c render =>
      refine Holds.call hv fun u hu =>
        (valid_aboutDeadline t).updates (plan_call hp).filled hu ?_
      rintro d - - d' ⟨⟩
      exact add_le_add hnow (toInt_le_maxDuration d)

/-- **The invariant holds along every run** whose clock readings are at most `t`, in whatever
order they come. -/
theorem Valid.run {events : List Event} (h : ∀ e ∈ events, e.now ≤ t) {db : DB}
    (hv : db.Valid t) : (db.run events).1.Valid t := by
  induction events generalizing db with
  | nil => exact hv
  | cons e events ih =>
      have hrest : ∀ e ∈ events, e.now ≤ t := fun e he => h e (List.mem_cons_of_mem _ he)
      have he := h e List.mem_cons_self
      cases e with
      | request r => exact ih hrest (Valid.dispatch r.request he hv)
      | pass now start order =>
          exact ih hrest (Holds.reaped hv (DB.activeExpiryPass_reaped now start order db))

end DB

end Store

end MiniRedis
