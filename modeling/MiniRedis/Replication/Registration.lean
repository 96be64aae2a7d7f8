import MiniRedis.Replication.Primary

/-!
# Replication — Registration

Which writes reach a feed.  `applyRecord` decides on the lock-free path before it dispatches; a
client that has decided and not dispatched yet when a replica is registered applies its write
without propagating it.

* `Primary.Sound`: what holds as long as no registration falls into such a window.
* `no_write_escapes`: **every write dispatched after a registration is offered to the feed, in
  the order the store applied the writes**, if no client was in the window.
* `write_escapes`: a run in which one was.
-/

namespace MiniRedis.Replication

open Protocol Store Cmd Server

/-! ### One feed -/

namespace Feed

/-- The writes a feed has been offered. -/
def writes (f : Feed) : List Value := (f.offered.map Prod.fst).filter fun c => !isHeartbeat c

/-- The commands there was room for. -/
def accepted (f : Feed) : List Value := (f.offered.filter Prod.snd).map Prod.fst

/-- A feed in step with the writes of the store: it has been offered the write that was between
its dispatch and its propagation when it was registered and every write since, but for the one
that is between the two now; and its queue holds what there was room for and is not delivered. -/
structure Sound (f : Feed) (rep : Replica) (history : List Write) (inflight : Option Value) :
    Prop where
  since_le : f.since ≤ history.length
  carried : f.carried.toList.Sublist ((history.take f.since).map Write.request)
  writes : f.writes ++ inflight.toList =
    f.carried.toList ++ (history.drop f.since).map Write.request
  delivered_le : f.delivered ≤ f.accepted.length
  queue : rep.ch.items = (f.accepted.drop f.delivered).map encode

namespace Sound

variable {f : Feed} {rep : Replica} {history : List Write} {inflight : Option Value}

theorem new (h : inflight.toList.Sublist (history.map Write.request)) :
    Sound ⟨history.length, inflight, [], 0⟩ ⟨.empty⟩ history inflight where
  since_le := le_rfl
  carried := by simpa using h
  writes := by simp [Feed.writes]
  delivered_le := Nat.zero_le _
  queue := rfl

/-- The store applies a write. -/
theorem apply (h : Sound f rep history none) (w : Write) :
    Sound f rep (history ++ [w]) (some w.request) where
  since_le := by
    rw [List.length_append]
    exact Nat.le_add_right_of_le h.since_le
  carried := by
    rw [List.take_append_of_le_length h.since_le]
    exact h.carried
  writes := by
    have hw := h.writes
    rw [Option.toList_none, List.append_nil] at hw
    rw [hw, List.drop_append_of_le_length h.since_le]
    simp
  delivered_le := h.delivered_le
  queue := h.queue

/-- What is offered is accepted if there is room. -/
theorem accepted_append (f : Feed) (cmd : Value) (room : Bool) :
    accepted { f with offered := f.offered ++ [(cmd, room)] } =
      f.accepted ++ if room then [cmd] else [] := by
  cases room <;> simp [accepted]

/-- The feed is offered a command, `inflight'` being in flight afterwards. -/
theorem offer (h : Sound f rep history inflight) {cmd : Value} {inflight' : Option Value}
    (hw : ([cmd].filter fun c => !isHeartbeat c) ++ inflight'.toList = inflight.toList) :
    Sound { f with offered := f.offered ++ [(cmd, !rep.ch.full)] }
      ⟨(rep.ch.send (encode cmd)).1⟩ history inflight' where
  since_le := h.since_le
  carried := h.carried
  writes := by
    rw [← h.writes, ← hw]
    simp [Feed.writes]
  delivered_le := by
    rw [accepted_append, List.length_append]
    exact Nat.le_add_right_of_le h.delivered_le
  queue := by
    rw [accepted_append, List.drop_append_of_le_length h.delivered_le, Queue.send_items, h.queue]
    cases rep.ch.full <;> simp

/-- The frame at the head of the queue is that of the next command to deliver. -/
theorem frame (h : Sound f rep history inflight) {frame : Bytes}
    {ch : Queue replicaQueueCap Bytes} (hr : rep.ch.recv = some (frame, ch)) :
    ∃ cmd, f.accepted.drop f.delivered = cmd :: f.accepted.drop (f.delivered + 1) ∧
      encode cmd = frame ∧ ch.items = (f.accepted.drop (f.delivered + 1)).map encode := by
  have hq := h.queue
  rw [Queue.recv_eq_some.1 hr, eq_comm, List.map_eq_cons_iff] at hq
  obtain ⟨cmd, rest, hdrop, hframe, hrest⟩ := hq
  have htail : f.accepted.drop (f.delivered + 1) = rest := by
    rw [← List.tail_drop, hdrop, List.tail_cons]
  exact ⟨cmd, by rw [htail, hdrop], hframe, by rw [htail, hrest]⟩

/-- A frame leaves the queue. -/
theorem deliver (h : Sound f rep history inflight) {frame : Bytes}
    {ch : Queue replicaQueueCap Bytes} (hr : rep.ch.recv = some (frame, ch)) :
    Sound { f with delivered := f.delivered + 1 } ⟨ch⟩ history inflight := by
  obtain ⟨cmd, hdrop, -, hitems⟩ := h.frame hr
  refine ⟨h.since_le, h.carried, h.writes, ?_, hitems⟩
  have hlen := congrArg List.length hdrop
  rw [List.length_drop, List.length_cons] at hlen
  change f.delivered + 1 ≤ f.accepted.length
  omega

/-- The offers keep the order of the store. -/
theorem writes_sublist (h : Sound f rep history inflight) :
    f.writes.Sublist (history.map Write.request) := by
  have hpre : f.writes.Sublist (f.carried.toList ++ (history.drop f.since).map Write.request) :=
    h.writes ▸ List.sublist_append_left _ _
  refine hpre.trans ?_
  conv_rhs => rw [← List.take_append_drop f.since history, List.map_append]
  exact h.carried.append (List.Sublist.refl _)

end Sound

end Feed

/-! ### The clients -/

/-- What the phases of the clients keep to: one that holds `writeMu` is its owner, only writes take
the locking path, and only reads the lock-free one while a replica is registered. -/
structure Orderly (phase : Nat → Phase) (lock : Option Nat) (registered : Prop) : Prop where
  holds : ∀ c, (phase c).Holds → lock = some c
  pending : ∀ c r, (phase c).pending = some r → isWrite (commandName r) = true
  noFast : registered → ∀ c r, phase c = .fast r → isWrite (commandName r) = false

theorem Orderly.mono {phase : Nat → Phase} {lock : Option Nat} {registered registered' : Prop}
    (h : Orderly phase lock registered) (hr : registered' → registered) :
    Orderly phase lock registered' := ⟨h.holds, h.pending, fun h' => h.noFast (hr h')⟩

/-- One client moves, and the lock with it. -/
theorem Orderly.update {phase : Nat → Phase} {lock lock' : Option Nat} {registered : Prop}
    (h : Orderly phase lock registered) {c : Nat} {p : Phase}
    (hlock : ∀ c', c' ≠ c → lock = some c' → lock' = some c') (hholds : p.Holds → lock' = some c)
    (hpending : ∀ r, p.pending = some r → isWrite (commandName r) = true)
    (hfast : registered → ∀ r, p = .fast r → isWrite (commandName r) = false) :
    Orderly (Function.update phase c p) lock' registered := by
  refine ⟨fun c' h' => ?_, fun c' r h' => ?_, fun hreg c' r h' => ?_⟩ <;>
    rw [Function.update_apply] at h' <;> split at h'
  case _ hc => rw [hc]; exact hholds h'
  case _ hc => exact hlock c' hc (h.holds c' h')
  case _ => exact hpending r h'
  case _ => exact h.pending c' r h'
  case _ => exact hfast hreg r h'
  case _ => exact h.noFast hreg c' r h'

/-- A step keeps the clients in order, as long as `Any` says so if a replica is `registered`. -/
theorem Orderly.step {s s' : Primary} {l : Label} {registered : Prop}
    (hs : Orderly s.phase s.lock registered) (aof : Bool) (h : Step aof s l s')
    (hany : registered → s.replicas.any = true) : Orderly s'.phase s'.lock registered := by
  cases h with
  | @check c r h =>
      refine hs.update (fun _ _ h => h) (fun h' => ?_) (fun r' h' => ?_) (fun hreg r' h' => ?_)
      · split at h' <;> exact h'.elim
      · split at h'
        case isTrue => cases h'
        case isFalse hf =>
          cases h'
          simp only [fastPath, Bool.or_eq_true, Bool.not_eq_true', not_or] at hf
          simpa using hf.1
      · split at h'
        case isTrue hf =>
          cases h'
          simpa [fastPath, hany hreg] using hf
        case isFalse => cases h'
  | fast h => exact hs.update (fun _ _ h => h) (fun h => h.elim) nofun (fun _ => nofun)
  | @acquire c r h hl =>
      refine hs.update (fun c' _ h' => ?_) (fun _ => rfl) (fun r' h' => ?_) (fun _ => nofun)
      · rw [hl] at h'
        cases h'
      · cases h'
        exact hs.pending c r (by rw [h]; rfl)
  | @dispatch c r now order h =>
      refine hs.update (fun _ _ h => h) (fun _ => hs.holds c (by rw [h]; trivial))
        (fun r' h' => ?_) (fun _ r' h' => ?_)
      · split at h' <;> cases h'
        exact hs.pending c r (by rw [h]; rfl)
      · split at h' <;> cases h'
  | @propagate c r h =>
      exact hs.update (fun _ _ h => h) (fun _ => hs.holds c (by rw [h]; trivial)) nofun
        (fun _ => nofun)
  | @release c h =>
      refine hs.update (fun c' hne h' => ?_) (fun h => h.elim) nofun (fun _ => nofun)
      rw [hs.holds c (by rw [h]; trivial)] at h'
      exact absurd (Option.some.inj h').symm hne
  | heartbeat | add | remove | deliver | pass | connection => exact hs

/-! ### The primary -/

/-- **The invariant** of a primary no registration of which fell into the window. -/
structure Primary.Sound (s : Primary) : Prop where
  clients : Orderly s.phase s.lock (∃ id rep, s.replicas.reps id = some rep)
  inflight : s.inflight.toList.Sublist (s.history.map Write.request)
  feeds : ∀ id rep, s.replicas.reps id = some rep →
    (s.feeds id).Sound rep s.history s.inflight

/-- A registration finds no client that has decided on the lock-free path for a write and has not
dispatched it yet. -/
def Clear (s : Primary) : Label → Prop
  | .add => ∀ c r, s.phase c = .fast r → isWrite (commandName r) = false
  | _ => True

namespace Primary

variable {s : Primary} {c : Nat} {r : Value}

/-- The write on its way is that of the holder of `writeMu`. -/
theorem inflight_of_lock (h : s.lock = some c) : s.inflight = (s.phase c).unpropagated := by
  rw [inflight, h]
  rfl

/-- Nothing is on its way while `writeMu` is free. -/
theorem inflight_of_free (h : s.lock = none) : s.inflight = none := by
  rw [inflight, h]
  rfl

theorem inflight_goto_owner (h : s.lock = some c) (p : Phase) :
    (s.goto c p).inflight = p.unpropagated := by
  rw [inflight_of_lock (s := s.goto c p) h]
  exact congrArg Phase.unpropagated (Function.update_self _ _ _)

theorem inflight_goto {p : Phase} (h : (s.phase c).unpropagated = none)
    (hp : p.unpropagated = none) : (s.goto c p).inflight = s.inflight := by
  refine Option.bind_congr fun c' _ => ?_
  change (Function.update s.phase c p c').unpropagated = _
  rw [Function.update_apply]
  split
  case isTrue hc => rw [hc, h, hp]
  case isFalse => rfl

namespace Sound

theorem start (db : DB) : (Primary.start db).Sound where
  clients := ⟨fun _ h => h.elim, nofun, fun ⟨_, _, h⟩ => by cases h⟩
  inflight := List.nil_sublist _
  feeds := nofun

/-- A client has decided. -/
theorem check (hs : s.Sound) (aof : Bool) (h : s.phase c = .idle) : (s.goto c
    (if fastPath aof s.replicas r then .fast r else .waiting r)).Sound := by
  have hin : (s.goto c (if fastPath aof s.replicas r then .fast r else .waiting r)).inflight =
      s.inflight := inflight_goto (by rw [h]; rfl) (by split <;> rfl)
  exact ⟨hs.clients.step aof (.check h) Replicas.any_of_registered, hin ▸ hs.inflight,
    fun id rep hrep => hin ▸ hs.feeds id rep hrep⟩

/-- A client dispatches on the lock-free path. -/
theorem fast (hs : s.Sound) (h : s.phase c = .fast r) (now : Time) (order : RangeOrder) :
    ((s.dispatch now order r).goto c .idle).Sound := by
  have hin : ((s.dispatch now order r).goto c .idle).inflight = s.inflight :=
    inflight_goto (by change (s.phase c).unpropagated = _; rw [h]; rfl) rfl
  refine ⟨hs.clients.step false (.fast h) Replicas.any_of_registered,
    hin ▸ hs.inflight.trans ?_, fun id rep hrep => hin ▸ ?_⟩
  · simp only [Primary.dispatch, goto]
    split
    · simp
    · exact List.Sublist.refl _
  · -- with a replica registered, only reads take this path
    have hread := hs.clients.noFast ⟨id, rep, hrep⟩ c r h
    simp only [Primary.dispatch, goto, recorded, hread, Bool.false_and, Bool.false_eq_true,
      if_false]
    exact hs.feeds id rep hrep

theorem acquire (hs : s.Sound) (h : s.phase c = .waiting r) (hl : s.lock = none) :
    Primary.Sound { s.goto c (.locked r) with lock := some c } := by
  have hin : Primary.inflight { s.goto c (.locked r) with lock := some c } = s.inflight := by
    rw [inflight_of_free hl, inflight_of_lock rfl]
    simp [goto, Phase.unpropagated]
  exact ⟨hs.clients.step false (.acquire h hl) Replicas.any_of_registered,
    hin ▸ hs.inflight, fun id rep hrep => hin ▸ hs.feeds id rep hrep⟩

/-- The owner of the lock dispatches. -/
theorem dispatch (hs : s.Sound) (h : s.phase c = .locked r) (now : Time) (order : RangeOrder) :
    ((s.dispatch now order r).goto c
      (if (s.db.dispatch now order r).2.isError then .done else .applied r)).Sound := by
  have hlock : s.lock = some c := hs.clients.holds c (by rw [h]; trivial)
  have hw := hs.clients.pending c r (by rw [h]; rfl)
  have hout : s.inflight = none := by rw [inflight_of_lock hlock, h]; rfl
  have hin : ((s.dispatch now order r).goto c
      (if (s.db.dispatch now order r).2.isError then .done else .applied r)).inflight =
      if (s.db.dispatch now order r).2.isError then none else some r := by
    rw [inflight_goto_owner (s := s.dispatch now order r) hlock]
    split <;> rfl
  refine ⟨hs.clients.step false (.dispatch h) Replicas.any_of_registered, ?_,
    fun id rep hrep => ?_⟩
  · rw [hin]
    split <;> simp [Primary.dispatch, goto, recorded, *]
  · have hf := hs.feeds id rep hrep
    rw [hout] at hf
    rw [hin]
    by_cases he : (s.db.dispatch now order r).2.isError = true
    · simpa [Primary.dispatch, goto, recorded, hw, he] using hf
    · simpa [Primary.dispatch, goto, recorded, hw, he] using
        hf.apply ⟨r, s.db, (s.db.dispatch now order r).1⟩

/-- What every feed is after a command has been offered to all. -/
theorem offer_feeds (hs : s.Sound) {cmd : Value} {inflight' : Option Value}
    (hw : ([cmd].filter fun c => !isHeartbeat c) ++ inflight'.toList = s.inflight.toList)
    (id : Nat) (rep : Replica) (hrep : (s.offer cmd).replicas.reps id = some rep) :
    ((s.offer cmd).feeds id).Sound rep s.history inflight' := by
  obtain ⟨rep₀, h₀, rfl⟩ := Option.map_eq_some_iff.1 hrep
  simp only [Primary.offer, h₀]
  exact (hs.feeds id rep₀ h₀).offer hw

/-- An offer registers nobody. -/
theorem registered_offer {cmd : Value} (h : ∃ id rep, (s.offer cmd).replicas.reps id = some rep) :
    ∃ id rep, s.replicas.reps id = some rep := by
  obtain ⟨id, rep, hrep⟩ := h
  obtain ⟨rep₀, h₀, -⟩ := Option.map_eq_some_iff.1 hrep
  exact ⟨id, rep₀, h₀⟩

/-- The owner of the lock propagates. -/
theorem propagate (hs : s.Sound) (h : s.phase c = .applied r) :
    ((s.offer r).goto c .done).Sound := by
  have hlock : s.lock = some c := hs.clients.holds c (by rw [h]; trivial)
  have hw := hs.clients.pending c r (by rw [h]; rfl)
  have hout : s.inflight = some r := by rw [inflight_of_lock hlock, h]; rfl
  have hin : ((s.offer r).goto c .done).inflight = none :=
    inflight_goto_owner (s := s.offer r) hlock .done
  have hclients := hs.clients.step false (.propagate h) Replicas.any_of_registered
  refine ⟨hclients.mono registered_offer, hin ▸ List.nil_sublist _,
    fun id rep hrep => hin ▸ hs.offer_feeds ?_ id rep hrep⟩
  rw [hout]
  simp [isHeartbeat_of_isWrite hw]

theorem release (hs : s.Sound) (h : s.phase c = .done) :
    Primary.Sound { s.goto c .idle with lock := none } := by
  have hlock : s.lock = some c := hs.clients.holds c (by rw [h]; trivial)
  have hout : s.inflight = none := by rw [inflight_of_lock hlock, h]; rfl
  refine ⟨hs.clients.step false (.release h) Replicas.any_of_registered,
    List.nil_sublist _, fun id rep hrep => ?_⟩
  have hf := hs.feeds id rep hrep
  rw [hout] at hf
  exact hf

theorem heartbeat (hs : s.Sound) : (s.offer pingCommand).Sound := by
  have hping : [pingCommand].filter (fun c => !isHeartbeat c) = [] := by decide
  exact ⟨hs.clients.mono registered_offer, hs.inflight, hs.offer_feeds (by rw [hping]; rfl)⟩

/-- A registration outside the window. -/
theorem add (hs : s.Sound) (hclear : ∀ c r, s.phase c = .fast r → isWrite (commandName r) = false) :
    Primary.Sound
      { s with
        replicas := s.replicas.add
        feeds := Function.update s.feeds s.replicas.next
          ⟨s.history.length, s.inflight, [], 0⟩ } := by
  refine ⟨⟨hs.clients.holds, hs.clients.pending, fun _ => hclear⟩, hs.inflight,
    fun id rep hrep => ?_⟩
  change (Function.update s.feeds s.replicas.next _ id).Sound rep s.history s.inflight
  change Function.update s.replicas.reps s.replicas.next _ id = some rep at hrep
  by_cases hid : id = s.replicas.next
  · subst hid
    rw [Function.update_self] at hrep ⊢
    cases hrep
    exact .new hs.inflight
  · rw [Function.update_of_ne hid] at hrep ⊢
    exact hs.feeds id rep hrep

theorem remove (hs : s.Sound) (id : Nat) :
    Primary.Sound { s with replicas := s.replicas.remove id } := by
  have hsub : ∀ i rep, (s.replicas.remove id).reps i = some rep → s.replicas.reps i = some rep := by
    intro i rep h
    simp only [Replicas.remove, Function.update_apply] at h
    split at h
    · cases h
    · exact h
  exact ⟨hs.clients.mono fun ⟨i, rep, h⟩ => ⟨i, rep, hsub i rep h⟩, hs.inflight,
    fun i rep h => hs.feeds i rep (hsub i rep h)⟩

theorem deliver (hs : s.Sound) {id : Nat} {rep : Replica} {frame : Bytes}
    {ch : Queue replicaQueueCap Bytes} (h : s.replicas.reps id = some rep)
    (hr : rep.ch.recv = some (frame, ch)) :
    Primary.Sound
      { s with
        replicas := s.replicas.deliver id ch
        feeds := Function.update s.feeds id
          { s.feeds id with delivered := (s.feeds id).delivered + 1 } } := by
  refine ⟨hs.clients.mono fun _ => ⟨id, rep, h⟩, hs.inflight, fun i rep' hrep => ?_⟩
  change (Function.update s.feeds id _ i).Sound rep' s.history s.inflight
  simp only [Replicas.deliver] at hrep
  by_cases hi : i = id
  · subst hi
    rw [if_pos rfl, h] at hrep
    cases hrep
    rw [Function.update_self]
    exact (hs.feeds i rep h).deliver hr
  · rw [if_neg hi] at hrep
    rw [Function.update_of_ne hi]
    exact hs.feeds i rep' hrep

/-- **One step keeps the invariant**, if a registration finds nobody in the window. -/
theorem step {aof : Bool} {l : Label} {s' : Primary} (h : Step aof s l s') (hclear : Clear s l)
    (hs : s.Sound) : s'.Sound := by
  cases h with
  | check h => exact hs.check aof h
  | @fast c r now order h => exact hs.fast h now order
  | acquire h hl => exact hs.acquire h hl
  | @dispatch c r now order h => exact hs.dispatch h now order
  | propagate h => exact hs.propagate h
  | release h => exact hs.release h
  | heartbeat => exact hs.heartbeat
  | add => exact hs.add hclear
  | @remove id => exact hs.remove id
  | deliver h hr => exact hs.deliver h hr
  | pass | connection => exact ⟨hs.clients, hs.inflight, hs.feeds⟩

end Sound

end Primary

open Machine

/-- **No write escapes a registered replica.**  On a primary without a log, in any run in which no
registration finds a client that has decided on the lock-free path for a write and not dispatched
it: at every instant a registered feed has been offered, in this order, the write that was between
its dispatch and its propagation when the feed was registered, if there was one, and every write
dispatched since, but for the one that is between the two now.  That is the order in which the
store applied them, and the queue holds those there was room for and that are not delivered. -/
theorem no_write_escapes (db : DB) (labels : List Label) (s : Primary)
    (hrun : Run (fun s l s' => Step false s l s' ∧ Clear s l) (Primary.start db) labels s)
    (id : Nat) (rep : Replica) (hrep : s.replicas.reps id = some rep) :
    let feed := s.feeds id
    feed.writes ++ s.inflight.toList =
        feed.carried.toList ++ (s.history.drop feed.since).map Write.request ∧
      feed.writes.Sublist (s.history.map Write.request) ∧
      rep.ch.items = (feed.accepted.drop feed.delivered).map encode := by
  have hs : s.Sound := hrun.preserves (G := fun _ => True)
    (fun _ _ _ _ h hs => hs.step h.1 h.2) (fun _ _ => trivial) (.start db)
  have hf := hs.feeds id rep hrep
  exact ⟨hf.writes, hf.writes_sublist, hf.queue⟩

/-- A write. -/
def setK : Value := bulkCmd [txt "SET", txt "k", txt "v"]

/-- A registration before the client decides. -/
theorem no_write_escapes_setK :
    ∃ s, Run (fun s l s' => Step false s l s' ∧ Clear s l) (Primary.start DB.new)
        [.add, .check 0 setK, .acquire 0, .dispatch 0 0 .sorted, .propagate 0, .release 0] s ∧
      (s.feeds 0).writes ++ s.inflight.toList =
        (s.feeds 0).carried.toList ++ (s.history.drop (s.feeds 0).since).map Write.request := by
  have hrun : Run (fun s l s' => Step false s l s' ∧ Clear s l) (Primary.start DB.new)
      [.add, .check 0 setK, .acquire 0, .dispatch 0 0 .sorted, .propagate 0, .release 0] _ :=
    .cons ⟨.add, nofun⟩ (.cons ⟨.check rfl, trivial⟩ (.cons ⟨.acquire rfl rfl, trivial⟩
      (.cons ⟨.dispatch rfl, trivial⟩ (.cons ⟨.propagate rfl, trivial⟩
        (.cons ⟨.release rfl, trivial⟩ (.nil _))))))
  exact ⟨_, hrun, (no_write_escapes DB.new _ _ hrun 0 _ rfl).1⟩

/-- A registration after the client has decided and before it dispatches: the write is applied
after the replica has been registered, nobody is left to propagate it, and it has not been offered
to the feed. -/
theorem write_escapes :
    ∃ s, Run (Step false) (Primary.start DB.new)
        [.check 0 setK, .add, .fast 0 0 .sorted] s ∧
      s.replicas.reps 0 = some ⟨.empty⟩ ∧ (s.feeds 0).since = 0 ∧ (s.feeds 0).offered = [] ∧
      s.history.map Write.request = [setK] ∧ s.lock = none ∧ ∀ c, s.phase c = .idle := by
  refine ⟨_, .cons (.check rfl) (.cons .add (.cons (.fast rfl) (.nil _))), rfl, rfl, rfl, rfl, rfl,
    fun c => ?_⟩
  change Function.update (Function.update (fun _ => Phase.idle) 0 _) 0 .idle c = .idle
  rw [Function.update_idem, Function.update_apply]
  exact ite_self _

end MiniRedis.Replication
