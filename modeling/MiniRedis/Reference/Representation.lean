import MiniRedis.Persistence.Replay
import MiniRedis.Reference.Invariant
import MiniRedis.Store.Layout

/-!
# Reference — Representation

The invariant of the store as the source lays it out.  Whatever is dispatched, replayed and reaped,
at whatever clock readings, an entry is in the shard its key is routed to and in no other, has a
payload for exactly its kind, is no empty collection, and carries a deadline only if a dispatched
command set it, later than the reading it was set at.

A step is followed on two levels: the laid-out store stays the layout of a store of the model, and
the store of the model keeps the property of entries that its updates keep (`Keyed.call`).
-/

namespace MiniRedis

open Protocol Store Cmd Reference Persistence

/-- The request asks to set the deadline of `key`, `d` from now. -/
def Cmd.Expires (request : Value) (key : Bytes) (d : Duration) : Prop :=
  ∃ render, plan request = .call (.expire key d) render

/-- The deadline was set by a dispatched command on the key, later than the clock reading. -/
def SetLater (dispatched : List (Time × Value)) (key : Bytes) (deadline : Time) : Prop :=
  ∃ now request d, (now, request) ∈ dispatched ∧ Expires request key d ∧
    deadline = now + d.toInt ∧ now < deadline

namespace Store.Raw

/-- The store, and every command dispatched on it so far with its clock reading. -/
structure Traced where
  db : Raw.DB
  dispatched : List (Time × Value)

/-- What can happen to a store. -/
inductive Happening where
  /-- a request of a client is dispatched -/
  | request (now : Time) (order : RangeOrder) (request : Value)
  /-- a command of the primary's stream is dispatched -/
  | streamed (now : Time) (order : RangeOrder) (command : Value)
  /-- a log is replayed, each command at its own reading -/
  | replayed (file : Option Bytes) (clock : Nat → Time) (order : Nat → RangeOrder)
  /-- the reaper makes a pass -/
  | pass (now : Time) (start : Fin shardCount) (walk : Raw.DB.Walk)

namespace Traced

/-- The empty store, with nothing dispatched. -/
def new : Traced := ⟨Raw.DB.new, []⟩

/-- A dispatched request is put down with its reading. -/
def dispatch (now : Time) (order : RangeOrder) (request : Value) (s : Traced) : Traced :=
  ⟨(s.db.dispatch now order request).1, s.dispatched ++ [(now, request)]⟩

/-- The function a replay hands each command to; the number is that of the command. -/
def redo (clock : Nat → Time) (order : Nat → RangeOrder) (s : Traced × Nat) (c : Value) :
    Traced × Nat :=
  (s.1.dispatch (clock s.2) (order s.2) c, s.2 + 1)

/-- One happening.  A replay dispatches the commands of the file. -/
def after (s : Traced) : Happening → Traced
  | .request now order request => s.dispatch now order request
  | .streamed now order command => s.dispatch now order command
  | .replayed file clock order =>
      (replay (fun s c => (redo clock order s c, none)) file (s, 0)).1.1
  | .pass now start walk => { s with db := (s.db.activeExpiryPass now start walk).1 }

/-- Happenings one after the other. -/
def run (s : Traced) (hs : List Happening) : Traced := hs.foldl after s

end Traced

end Store.Raw

/-! ### Steps and runs -/

/-- An entry that is not empty is laid out soundly. -/
theorem Store.Entry.layout_sound {e : Entry} (h : e.payload.Nonempty) : e.layout.Sound := by
  obtain ⟨p, d⟩ := e
  cases p with
  | str value => constructor <;> simp [layout, Raw.Entry.zero]
  | list items =>
      have hne : items ≠ [] := h
      constructor <;> simp [layout, Raw.Entry.zero, hne]
  | hash fields =>
      have hne : fields ≠ ∅ := h
      constructor <;> simp [layout, Raw.Entry.zero, hne]
  | set members =>
      have hne : members ≠ ∅ := h
      constructor <;> simp [layout, Raw.Entry.zero, hne]

/-- An entry that the commands dispatched so far can have left at `key`. -/
def Left (dispatched : List (Time × Value)) (key : Bytes) (e : Entry) : Prop :=
  e.payload.Nonempty ∧ ∀ d, e.expireAt = some d → SetLater dispatched key d

theorem left_aboutDeadline (dispatched : List (Time × Value)) (key : Bytes) :
    AboutDeadline (Left dispatched key) fun o => ∀ d, o = some d → SetLater dispatched key d :=
  ⟨fun _ => Iff.rfl, fun _ h => absurd h (by simp)⟩

theorem Left.mono {dispatched dispatched' : List (Time × Value)} (h : dispatched ⊆ dispatched')
    {key : Bytes} {e : Entry} (he : Left dispatched key e) : Left dispatched' key e := by
  refine ⟨he.1, fun d hd => ?_⟩
  obtain ⟨now, request, dur, hmem, hset⟩ := he.2 d hd
  exact ⟨now, request, dur, h hmem, hset⟩

/-- Every deadline is one that a dispatched request has set. -/
theorem Store.DB.Keyed.left_dispatch {dispatched : List (Time × Value)} {db : DB}
    (h : db.Keyed (Left dispatched)) (now : Time) (order : RangeOrder) (request : Value) :
    (db.dispatch now order request).1.Keyed (Left (dispatched ++ [(now, request)])) := by
  have h' : db.Keyed (Left (dispatched ++ [(now, request)])) :=
    h.imp fun _ _ => Left.mono (List.subset_append_left _ _)
  unfold DB.dispatch Cmd.dispatch
  cases hp : plan request with
  | reply v => exact h'
  | call c render =>
      refine h'.call fun u hu => (left_aboutDeadline _ u.1).updates (plan_call hp).filled hu ?_
      rintro d rfl hpos _ ⟨⟩
      have hd : (0 : Int) < d.toInt := by
        have := Int64.lt_iff_toInt_lt.1 (Int64.not_le.1 hpos)
        simpa using this
      exact ⟨now, request, d, by simp, ⟨render, hp⟩, rfl, lt_add_of_pos_right now hd⟩

/-- The laid-out store is the layout of one whose entries the commands so far can have left. -/
def Store.Raw.Traced.Sound (s : Traced) : Prop :=
  ∃ db : Store.DB, s.db = db.layout ∧ db.Keyed (Left s.dispatched)

namespace Store.Raw.Traced.Sound

variable {s : Traced}

theorem new : Traced.new.Sound := ⟨Store.DB.new, Store.DB.layout_new.symm, .new _⟩

/-- A request keeps the layout sound, -/
theorem dispatch (h : s.Sound) (now : Time) (order : RangeOrder) (request : Value) :
    (s.dispatch now order request).Sound := by
  obtain ⟨db, hdb, hk⟩ := h
  refine ⟨(db.dispatch now order request).1, ?_, hk.left_dispatch now order request⟩
  rw [Traced.dispatch, hdb, Store.DB.layout_dispatch]

/-- a pass of the reaper too, -/
theorem pass (h : s.Sound) (now : Time) (start : Fin shardCount) (walk : Raw.DB.Walk) :
    ({ s with db := (s.db.activeExpiryPass now start walk).1 } : Traced).Sound := by
  obtain ⟨db, hdb, hk⟩ := h
  refine ⟨(db.activeExpiryPass now start walk.order).1, ?_,
    hk.reaped (Store.DB.activeExpiryPass_reaped now start walk.order db)⟩
  rw [hdb, Store.DB.layout_activeExpiryPass]

/-- and so does every happening. -/
theorem after (h : s.Sound) (e : Happening) : (s.after e).Sound := by
  cases e with
  | request now order request => exact h.dispatch now order request
  | streamed now order command => exact h.dispatch now order command
  | replayed file clock order =>
      refine replay_preserves (P := fun s : Traced × Nat => s.1.Sound) (fun s c hs => ?_) file h
      exact hs.dispatch _ _ c
  | pass now start walk => exact h.pass now start walk

theorem run (h : s.Sound) (hs : List Happening) : (s.run hs).Sound := by
  induction hs generalizing s with
  | nil => exact h
  | cons e hs ih => exact ih (h.after e)

end Store.Raw.Traced.Sound

/-- **The representation invariant.**  Whatever has happened to a store, every entry of it is in
the shard its key is routed to, has a payload for exactly its kind and no empty collection, and
its deadline, if it has one, was set by a dispatched command, later than the clock reading. -/
theorem representation (hs : List Raw.Happening) (i : Fin shardCount) (key : Bytes)
    (e : Raw.Entry) :
    let s := Raw.Traced.new.run hs
    (s.db.shards i).lookup key = some e →
      shardIndex key = i ∧ e.Sound ∧ ∀ d, e.expireAt = some d → SetLater s.dispatched key d := by
  intro s he
  obtain ⟨db, hdb, hk⟩ := Raw.Traced.Sound.new.run hs
  rw [show s.db = db.layout from hdb] at he
  obtain ⟨e', he', rfl⟩ := Option.map_eq_some_iff.1 ((Shard.lookup_layout _ key).symm.trans he)
  obtain ⟨hne, hset⟩ := hk.entries i key e' he'
  refine ⟨hk.routed i key e' he', Entry.layout_sound hne, fun d hd => ?_⟩
  rw [Entry.layout_expireAt] at hd
  exact hset d hd

/-- A list with a second to live. -/
def volatileList : List Raw.Happening :=
  [.request 0 .sorted (bulkCmd [txt "RPUSH", txt "k", txt "v"]),
    .streamed 5 .sorted (bulkCmd [txt "EXPIRE", txt "k", txt "1"])]

/-- A list with a deadline. -/
theorem representation_volatileList :
    let s := Raw.Traced.new.run volatileList
    let e := { Raw.Entry.zero .list with list := [txt "v"], expireAt := some 1000000005 }
    (s.db.shards (shardIndex (txt "k"))).lookup (txt "k") = some e ∧ e.Sound ∧
      SetLater s.dispatched (txt "k") 1000000005 := by
  have he : ((Raw.Traced.new.run volatileList).db.shards (shardIndex (txt "k"))).lookup (txt "k") =
      some { Raw.Entry.zero .list with list := [txt "v"], expireAt := some 1000000005 } := by
    decide +kernel
  obtain ⟨-, hsound, hset⟩ := representation volatileList _ _ _ he
  exact ⟨he, hsound, hset _ rfl⟩

end MiniRedis
