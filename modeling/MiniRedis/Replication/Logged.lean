import MiniRedis.Reference.Timeless
import MiniRedis.Replication.Registration

/-!
# Replication — Logged

A primary with a log, on which every write takes `writeMu`.  There is no window for a registration
to fall into, the write in flight is the last one applied, and so the writes a feed is offered are
a contiguous piece of the history (`Logged.contiguous`).  If no request sets a deadline, the
keyspace before and after each write of the history is what the writes up to there make of the
initial one (`Traced`).

What a step does is said three times over, for the clients' requests, for the history and for a
feed (`requests_step`, `Changes.of_step`, `FeedStep.of_step`); the invariants follow from these.
-/

namespace MiniRedis.Replication

open Protocol Store Cmd Server

namespace Primary

variable {s s' : Primary} {l : Label} {aof : Bool}

/-- Every request a client is at has the property. -/
def Requests (Q : Value → Prop) (s : Primary) : Prop := ∀ c r, (s.phase c).request = some r → Q r

/-- A request goes from one phase to the next. -/
theorem Requests.goto {Q : Value → Prop} (h : s.Requests Q) {c : Nat} {p : Phase}
    (hp : ∀ r, p.request = some r → Q r) : (s.goto c p).Requests Q := by
  intro c' r h'
  change (Function.update s.phase c p c').request = some r at h'
  rw [Function.update_apply] at h'
  split at h'
  · exact hp r h'
  · exact h c' r h'

/-- A property of the requests submitted is one of the requests the clients are at. -/
theorem requests_step {Q : Value → Prop} (h : Step aof s l s')
    (hl : ∀ r, l.request? = some r → Q r) (hs : s.Requests Q) : s'.Requests Q := by
  have keep : ∀ {c : Nat} {p p' : Phase} {r : Value}, s.phase c = p → p.request = some r →
      p'.request = some r → (s.goto c p').Requests Q := by
    intro c p p' r hc hp hp'
    refine hs.goto fun r' hr' => ?_
    rw [hp'] at hr'
    cases hr'
    exact hs c r (by rw [hc, hp])
  cases h with
  | @check c request h =>
      refine hs.goto fun r hr => hl r ?_
      split at hr <;> exact hr
  | fast h => exact hs.goto nofun
  | acquire h hl => exact keep h rfl rfl
  | @dispatch c request now order h =>
      split
      · exact hs.goto nofun
      · exact keep h rfl rfl
  | propagate h => exact hs.goto nofun
  | release h => exact hs.goto nofun
  | heartbeat | add | remove | deliver | pass | connection => exact hs

/-- What a step does to the store, the history and the write in flight, if the lock-free path is
for reads. -/
inductive Changes (s s' : Primary) : Prop where
  /-- Nothing is written. -/
  | quiet (history : s'.history = s.history)
      (inflight : s'.inflight = s.inflight ∨ s'.inflight = none)
      (keyspace : s.db.Timeless → s.Requests (¬ SetsDeadline ·) →
        s'.db.Timeless ∧ ∀ t, s'.db.keyspace t = s.db.keyspace t)
  /-- The owner of the lock writes. -/
  | write (r : Value) (now : Time) (order : RangeOrder)
      (history : s'.history = s.history ++ [⟨r, s.db, s'.db⟩])
      (inflight : s'.inflight = some r)
      (request : ∃ c, (s.phase c).request = some r)
      (store : s'.db = (s.db.dispatch now order r).1)

/-- A dispatch that is not recorded. -/
theorem Changes.unrecorded {c : Nat} {r : Value} (hc : (s.phase c).request = some r)
    {now : Time} {order : RangeOrder}
    (hu : isWrite (commandName r) = false ∨ (s.db.dispatch now order r).2.isError = true)
    {p : Phase} (hin : ((s.dispatch now order r).goto c p).inflight = s.inflight ∨
      ((s.dispatch now order r).goto c p).inflight = none) :
    Changes s ((s.dispatch now order r).goto c p) := by
  refine .quiet ?_ hin fun ht hq => ⟨ht.dispatch (hq c r hc), fun t =>
    ht.keyspace_unrecorded (hq c r hc) hu t⟩
  have hrec : recorded r (s.db.dispatch now order r).2 = false := by
    rcases hu with h | h <;> simp [recorded, h]
  simp [goto, Primary.dispatch, hrec]

/-- A step that leaves the store alone. -/
theorem Changes.of_same (hh : s'.history = s.history)
    (hin : s'.inflight = s.inflight ∨ s'.inflight = none) (hdb : s'.db = s.db) : Changes s s' :=
  .quiet hh hin fun ht _ => by rw [hdb]; exact ⟨ht, fun _ => rfl⟩

/-- Every step is one of the two changes. -/
theorem Changes.of_step (h : Step aof s l s') (hs : s.Sound)
    (hr : ∀ c r, s.phase c = .fast r → isWrite (commandName r) = false) : Changes s s' := by
  cases h with
  | @check c request h =>
      refine .of_same rfl (.inl (inflight_goto (by rw [h]; rfl) ?_)) rfl
      split <;> rfl
  | @fast c request now order h =>
      refine .unrecorded (by rw [h]; rfl) (.inl (hr c request h)) (.inl ?_)
      exact inflight_goto (by change (s.phase c).unpropagated = _; rw [h]; rfl) rfl
  | @acquire c request h hl =>
      refine .of_same rfl (.inr ?_) rfl
      rw [inflight_of_lock (c := c) rfl]
      simp [goto, Phase.unpropagated]
  | @dispatch c request now order h =>
      have hlock : s.lock = some c := hs.clients.holds c (by rw [h]; trivial)
      have hw := hs.clients.pending c request (by rw [h]; rfl)
      have hin := inflight_goto_owner (s := s.dispatch now order request) hlock
      split
      case isTrue he => exact .unrecorded (by rw [h]; rfl) (.inr he) (.inr (hin _))
      case isFalse he =>
        refine .write request now order ?_ (hin _) ⟨c, by rw [h]; rfl⟩ rfl
        simp [goto, Primary.dispatch, recorded, hw, he]
  | @propagate c request h =>
      have hlock : s.lock = some c := hs.clients.holds c (by rw [h]; trivial)
      exact .of_same rfl (.inr (inflight_goto_owner (s := s.offer request) hlock _)) rfl
  | release h => exact .of_same rfl (.inr (inflight_of_free rfl)) rfl
  | heartbeat | add | remove | deliver => exact .of_same rfl (.inl rfl) rfl
  | @pass now start order =>
      refine .quiet rfl (.inl rfl) fun ht _ => ?_
      have hreap := DB.activeExpiryPass_reaped now start order s.db
      exact ⟨ht.reaped hreap, DB.Timeless.keyspace_reaped ht hreap⟩
  | connection => exact .quiet rfl (.inl rfl) fun ht _ => ⟨⟨ht.routed, ht.entries⟩, fun _ => rfl⟩

/-- What a step does to a feed that was registered before. -/
inductive FeedStep (s : Primary) (l : Label) (id : Nat) (f : Feed) : Feed → Prop where
  | same : FeedStep s l id f f
  | offered (cmd : Value) (room : Bool)
      (h : cmd = pingCommand ∨ ∃ c, (s.phase c).request = some cmd) :
      FeedStep s l id f { f with offered := f.offered ++ [(cmd, room)] }
  | delivered (frame : Bytes) (h : l = .deliver id frame) :
      FeedStep s l id f { f with delivered := f.delivered + 1 }

/-- Where a feed begins is settled when it is registered. -/
theorem FeedStep.fixed {id : Nat} {f f' : Feed} (h : FeedStep s l id f f') :
    f'.since = f.since ∧ f'.carried = f.carried := by
  cases h <;> exact ⟨rfl, rfl⟩

/-- What is offered to a feed is a heartbeat or a request on its way. -/
theorem FeedStep.of_offer {cmd : Value} {id : Nat} {rep : Replica}
    (h : cmd = pingCommand ∨ ∃ c, (s.phase c).request = some cmd)
    (hrep : (s.offer cmd).replicas.reps id = some rep) :
    ∃ rep₀, s.replicas.reps id = some rep₀ ∧
      FeedStep s l id (s.feeds id) ((s.offer cmd).feeds id) := by
  obtain ⟨rep₀, h₀, -⟩ := Option.map_eq_some_iff.1 hrep
  refine ⟨rep₀, h₀, ?_⟩
  simp only [Primary.offer, h₀]
  exact .offered cmd _ h

/-- A feed that is registered after a step is new, or was registered before. -/
theorem FeedStep.of_step (h : Step aof s l s') {id : Nat} {rep : Replica}
    (hrep : s'.replicas.reps id = some rep) :
    (l = .add ∧ id = s.replicas.next ∧ s'.feeds id = ⟨s.history.length, s.inflight, [], 0⟩) ∨
      ∃ rep₀, s.replicas.reps id = some rep₀ ∧ FeedStep s l id (s.feeds id) (s'.feeds id) := by
  cases h with
  | check | fast | acquire | dispatch | release | pass | connection => exact .inr ⟨rep, hrep, .same⟩
  | @propagate c request h =>
      exact .inr (FeedStep.of_offer (.inr ⟨c, by rw [h]; rfl⟩) hrep)
  | heartbeat => exact .inr (FeedStep.of_offer (.inl rfl) hrep)
  | add =>
      simp only [Replicas.add, Function.update_apply] at hrep ⊢
      split at hrep
      case isTrue hid => exact .inl ⟨trivial, hid, if_pos hid⟩
      case isFalse hid =>
        rw [if_neg hid]
        exact .inr ⟨rep, hrep, .same⟩
  | remove =>
      simp only [Replicas.remove, Function.update_apply] at hrep
      split at hrep
      · cases hrep
      · exact .inr ⟨rep, hrep, .same⟩
  | @deliver i rep₀ frame ch h hr =>
      simp only [Replicas.deliver, Function.update_apply] at hrep ⊢
      split at hrep
      case isTrue hid =>
        subst hid
        rw [if_pos rfl]
        exact .inr ⟨rep₀, h, .delivered frame rfl⟩
      case isFalse hid =>
        rw [if_neg hid]
        exact .inr ⟨rep, hrep, .same⟩

end Primary

/-! ### The invariant -/

/-- The number of the first write that is propagated to a feed: the one that was in flight when
the feed was registered, or else the next one. -/
def Feed.first (f : Feed) : Nat := f.since - f.carried.toList.length

/-- **The invariant** of a primary with a log, for a property of the requests submitted. -/
structure Primary.Logged (Q : Value → Prop) (s : Primary) : Prop where
  sound : s.Sound
  requests : s.Requests Q
  reads : ∀ c r, s.phase c = .fast r → isWrite (commandName r) = false
  last : s.inflight.toList <:+ s.history.map Write.request
  carried : ∀ id rep, s.replicas.reps id = some rep →
    (s.feeds id).carried.toList <:+ (s.history.take (s.feeds id).since).map Write.request
  offered : ∀ id rep, s.replicas.reps id = some rep → ∀ x ∈ (s.feeds id).offered,
    Q x.1 ∨ x.1 = pingCommand

namespace Primary.Logged

variable {Q : Value → Prop} {s s' : Primary} {l : Label}

theorem start (Q : Value → Prop) (db : DB) : (Primary.start db).Logged Q where
  sound := .start db
  requests := nofun
  reads := nofun
  last := List.suffix_refl _
  carried := nofun
  offered := nofun

theorem reads_step (h : Step true s l s')
    (hr : ∀ c r, s.phase c = .fast r → isWrite (commandName r) = false) :
    ∀ c r, s'.phase c = .fast r → isWrite (commandName r) = false := by
  have keep : ∀ {c : Nat} {p : Phase}, (∀ r, p = .fast r → isWrite (commandName r) = false) →
      ∀ c' r, Function.update s.phase c p c' = .fast r → isWrite (commandName r) = false := by
    intro c p hp c' r h'
    rw [Function.update_apply] at h'
    split at h'
    · exact hp r h'
    · exact hr c' r h'
  cases h with
  | @check c request h =>
      refine keep fun r hfast => ?_
      split at hfast
      case isTrue hf =>
        cases hfast
        simpa [fastPath] using hf
      case isFalse => cases hfast
  | fast | acquire | propagate | release =>
      refine keep fun r hfast => ?_
      cases hfast
  | dispatch =>
      refine keep fun r hfast => ?_
      split at hfast <;> cases hfast
  | heartbeat | add | remove | deliver | pass | connection => exact hr

/-- The history only grows, at its end. -/
theorem take_history (h : Changes s s') {n : Nat} (hn : n ≤ s.history.length) :
    s'.history.take n = s.history.take n := by
  cases h with
  | quiet hh => rw [hh]
  | write r now order hh => rw [hh, List.take_append_of_le_length hn]

theorem step (h : Step true s l s') (hl : ∀ r, l.request? = some r → Q r) (hs : s.Logged Q) :
    s'.Logged Q := by
  have hclear : Clear s l := by
    cases l with
    | add => exact hs.reads
    | _ => trivial
  have hch := Changes.of_step h hs.sound hs.reads
  refine ⟨hs.sound.step h hclear, requests_step h hl hs.requests, reads_step h hs.reads, ?_,
    fun id rep hrep => ?_, fun id rep hrep => ?_⟩
  · cases hch with
    | quiet hh hin =>
        rw [hh]
        rcases hin with hin | hin <;> rw [hin]
        · exact hs.last
        · exact List.nil_suffix
    | write r now order hh hin =>
        rw [hh, hin, List.map_append]
        exact List.suffix_append _ _
  -- a feed that was there before keeps what it carries; a new one carries the write in flight
  · rcases FeedStep.of_step h hrep with ⟨-, -, hf⟩ | ⟨rep₀, h₀, hf⟩
    · rw [hf, take_history hch le_rfl, List.take_length]
      exact hs.last
    · rw [hf.fixed.1, hf.fixed.2, take_history hch (hs.sound.feeds id rep₀ h₀).since_le]
      exact hs.carried id rep₀ h₀
  · rcases FeedStep.of_step h hrep with ⟨-, -, hf⟩ | ⟨rep₀, h₀, hf⟩
    · rw [hf]
      exact nofun
    · have hold := hs.offered id rep₀ h₀
      generalize s'.feeds id = f' at hf
      cases hf with
      | same | delivered => exact hold
      | offered cmd room hcmd =>
          intro x hx
          rcases List.mem_append.1 hx with hx | hx
          · exact hold x hx
          · rw [List.mem_singleton.1 hx]
            rcases hcmd with rfl | ⟨c, hc⟩
            · exact .inr rfl
            · exact .inl (hs.requests c cmd hc)

/-- **The writes a feed is offered are a contiguous piece of the history**, from the first one
propagated after its registration on, but for the one in flight. -/
theorem contiguous (hs : s.Logged Q) {id : Nat} {rep : Replica}
    (hrep : s.replicas.reps id = some rep) :
    (s.feeds id).writes ++ s.inflight.toList =
      (s.history.drop (s.feeds id).first).map Write.request := by
  have hf := hs.sound.feeds id rep hrep
  have hlen : ((s.history.take (s.feeds id).since).map Write.request).length =
      (s.feeds id).since := by
    rw [List.length_map, List.length_take, min_eq_left hf.since_le]
  have hc := List.suffix_iff_eq_drop.1 (hs.carried id rep hrep)
  rw [hlen, ← List.map_drop] at hc
  have hle : (s.feeds id).first ≤ (s.history.take (s.feeds id).since).length := by
    rw [List.length_map] at hlen
    rw [hlen]
    exact Nat.sub_le _ _
  conv_rhs => rw [← List.take_append_drop (s.feeds id).since s.history]
  rw [hf.writes, List.drop_append_of_le_length hle, List.map_append, Feed.first, ← hc]

end Primary.Logged

/-! ### The keyspaces along the history -/

/-- No deadline is set, and the keyspace before and after each write is what the writes up to
there make of `ks`. -/
structure Primary.Traced (ks : Keyspace) (s : Primary) : Prop where
  timeless : s.db.Timeless
  live : ∀ t, s.db.keyspace t = rebuild (s.history.map Write.request) ks
  before : ∀ k w, s.history[k]? = some w → ∀ t,
    w.before.keyspace t = rebuild ((s.history.take k).map Write.request) ks
  after : ∀ k w, s.history[k]? = some w → ∀ t,
    w.after.keyspace t = rebuild ((s.history.take (k + 1)).map Write.request) ks

namespace Primary.Traced

variable {ks : Keyspace} {s s' : Primary} {l : Label}

theorem start {db : DB} (h : db.Timeless) : (Primary.start db).Traced (db.keyspace 0) where
  timeless := h
  live t := h.keyspace_eq t 0
  before := nofun
  after := nofun

theorem step (h : Changes s s') (hq : s.Requests (¬ SetsDeadline ·)) (hs : s.Traced ks) :
    s'.Traced ks := by
  cases h with
  | quiet hh _ hdb =>
      obtain ⟨ht, hk⟩ := hdb hs.timeless hq
      exact ⟨ht, fun t => by rw [hk, hh]; exact hs.live t, hh ▸ hs.before, hh ▸ hs.after⟩
  | write r now order hh _ hr hdb =>
      obtain ⟨c, hc⟩ := hr
      have hnone := hq c r hc
      have ht : s'.db.Timeless := hdb ▸ hs.timeless.dispatch hnone
      have hlive : ∀ t, s'.db.keyspace t = rebuild (s'.history.map Write.request) ks := by
        intro t
        rw [hh, List.map_append, rebuild_append, ← hs.live t, hdb]
        exact hs.timeless.keyspace_dispatch hnone t
      -- the new write is the last of the history, the others are where they were
      refine ⟨ht, hlive, fun k w hw t => ?_, fun k w hw t => ?_⟩
      · rcases Machine.getElem?_concat_eq_some.1 (hh ▸ hw) with hw | ⟨rfl, rfl⟩
        · have hk := (List.getElem?_eq_some_iff.1 hw).1
          rw [hh, List.take_append_of_le_length hk.le]
          exact hs.before k w hw t
        · rw [hh, List.take_left]
          exact hs.live t
      · rcases Machine.getElem?_concat_eq_some.1 (hh ▸ hw) with hw | ⟨rfl, rfl⟩
        · have hk := (List.getElem?_eq_some_iff.1 hw).1
          rw [hh, List.take_append_of_le_length hk]
          exact hs.after k w hw t
        · rw [List.take_of_length_le (by rw [hh, List.length_append]; exact le_rfl)]
          exact hlive t

end Primary.Traced

end MiniRedis.Replication
