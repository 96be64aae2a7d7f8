import MiniRedis.Server.Writes

/-!
# Server — Provenance

Where the frames on the socket of a replica come from.  `Propagate` puts a frame into the queue of
each feed that has room; the goroutine of the feed takes it out again, also when the feed has been
closed, and writes it.

* `Sent`: `Propagate` has put the frame into the feed, and it is the frame of the write with its
  number, or of a heartbeat if it has none.
* `Hub.Sourced`: **every frame in a queue, in the hands of a goroutine or on a socket is so.**
-/

namespace MiniRedis.Server

open Protocol Store Cmd Maps Replication

variable {primaryAddr : Bytes} {aof : Bool}

/-! ### What `Propagate` has put into a feed -/

/-- The frame is that of the write with the number; that of a heartbeat, if there is none. -/
def FrameOf (history : List Write) : Option Nat → Bytes → Prop
  | some n, frame => ∃ w, history[n]? = some w ∧ encode w.request = frame
  | none, frame => encode pingCommand = frame

theorem FrameOf.mono {history history' : List Write} (h : history <+: history')
    {write : Option Nat} {frame : Bytes} (hf : FrameOf history write frame) :
    FrameOf history' write frame := by
  cases write with
  | none => exact hf
  | some n =>
      obtain ⟨w, hw, he⟩ := hf
      obtain ⟨more, rfl⟩ := h
      refine ⟨w, ?_, he⟩
      rw [List.getElem?_append_left (List.getElem?_eq_some_iff.1 hw).1, hw]

/-- The frame went into the feed. -/
structure Sent (p : Primary) (id : Nat) (write : Option Nat) (frame : Bytes) : Prop where
  made : id < p.replicas.next
  frameOf : FrameOf p.history write frame
  /-- There was room for it. -/
  offered : ∃ cmd, (cmd, true) ∈ (p.feeds id).offered ∧ encode cmd = frame

/-- A feed does not forget what it has been offered. -/
theorem offered_primary {p p' : Primary} {l : Replication.Label} (h : Replication.Step aof p l p')
    {id : Nat} (hid : id < p.replicas.next) {x : Value × Bool} (hx : x ∈ (p.feeds id).offered) :
    x ∈ (p'.feeds id).offered := by
  have offer : ∀ cmd, x ∈ ((p.offer cmd).feeds id).offered := by
    intro cmd
    simp only [Primary.offer]
    split
    · exact hx
    · exact List.mem_append_left _ hx
  cases h with
  | propagate | heartbeat => exact offer _
  | add =>
      change x ∈ (Function.update p.feeds p.replicas.next _ id).offered
      rw [Function.update_of_ne (Nat.ne_of_lt hid)]
      exact hx
  | @deliver i rep frame ch h hr =>
      change x ∈ (Function.update p.feeds i _ id).offered
      rw [Function.update_apply]
      split
      case isTrue hi => exact hi ▸ hx
      case isFalse => exact hx
  | _ => exact hx

/-- What is offered to a feed with room is sent to it. -/
theorem Sent.offer {p : Primary} {id : Nat} {rep : Replica} {write : Option Nat} {cmd : Value}
    (hrep : p.replicas.reps id = some rep) (hroom : rep.ch.full = false)
    (hw : FrameOf p.history write (encode cmd)) : Sent (p.offer cmd) id write (encode cmd) where
  made := by
    by_contra hid
    cases (p.replicas.unused id (Nat.not_lt.1 hid)).symm.trans hrep
  frameOf := hw
  offered := ⟨cmd, by simp [Primary.offer, hrep, hroom], rfl⟩

/-! ### The frames -/

/-- A connection on its own writes no frame of a feed. -/
theorem Conn.Step.feed_out {cs cs' : Conn} {a : Act} (h : Conn.Step primaryAddr cs a cs')
    {write : Option Nat} {frame : Bytes} (hf : .feed write frame ∈ cs'.out) :
    .feed write frame ∈ cs.out := by
  cases h with
  | @read all request h hall =>
      have hserved := cs.serve_served primaryAddr all request
      generalize cs.serve primaryAddr all request = cs' at hserved hf
      cases hserved <;> exact hf
  | write h hb =>
      rcases List.mem_append.1 hf with hf | hf
      · exact hf
      · rw [← List.mem_singleton.1 hf] at h
        unfold Conn.pending at h
        split at h <;> cases h
  | push h hb =>
      rcases List.mem_append.1 hf with hf | hf
      · exact hf
      · cases List.mem_singleton.1 hf
  | _ => exact hf

namespace Hub

variable {s s' : Hub} {l : Label}

/-- **What goes out of a feed**: the frame its goroutine holds. -/
theorem Step.feed_out (h : Step primaryAddr aof s l s') {c : Nat} {write : Option Nat}
    {frame : Bytes} (hf : .feed write frame ∈ (s'.conns c).out) :
    .feed write frame ∈ (s.conns c).out ∨
      ∃ sh id, s.owner sh = c ∧ s.shippers sh = .holding id write frame := by
  -- the connection `c'` moves, with no such frame
  have update : ∀ {c' : Nat} {cs : Conn},
      .feed write frame ∈ (Function.update s.conns c' cs c).out →
      (.feed write frame ∈ cs.out → .feed write frame ∈ (s.conns c').out) →
      .feed write frame ∈ (s.conns c).out :=
    fun h hcs => (Function.forall_update_iff s.conns fun c cs =>
      .feed write frame ∈ cs.out → .feed write frame ∈ (s.conns c).out).2
        ⟨hcs, fun _ _ h => h⟩ c h
  cases h with
  | conn h => exact .inl (update hf h.feed_out)
  | @ship sh id write' frame' h hb =>
      change Frame.feed write frame ∈ (Function.update s.conns (s.owner sh) _ c).out at hf
      rw [Function.update_apply] at hf
      split at hf
      case isTrue hc =>
        rcases List.mem_append.1 hf with hf | hf
        · rw [hc]
          exact .inl hf
        · cases List.mem_singleton.1 hf
          exact .inr ⟨sh, id, hc.symm, h⟩
      case isFalse => exact .inl hf
  | @leave c' all h hall =>
      simp only [setConn, removeReplica_conns] at hf
      exact .inl (update hf fun h => h)
  | register | unregister | drain | receive | finish | add | shipFails | check | fast | dispatch
  | release | publish | published => exact .inl (update hf fun h => h)
  | startShipper | take | takeLeft | stop | acquire | propagate | send | heartbeat | pass | stream
  | streamPublish | streamPublished => exact .inl hf

/-- The history only grows. -/
theorem Step.history (h : Step primaryAddr aof s l s') :
    s.primary.history <+: s'.primary.history := by
  rcases h.primary with ⟨db, hp⟩ | ⟨l', hp⟩
  · rw [hp]
  · exact history_primary hp

theorem Step.sent (h : Step primaryAddr aof s l s') {id : Nat} {write : Option Nat} {frame : Bytes}
    (hs : Sent s.primary id write frame) : Sent s'.primary id write frame := by
  refine ⟨h.made hs.made, hs.frameOf.mono h.history, ?_⟩
  obtain ⟨cmd, hmem, hcmd⟩ := hs.offered
  refine ⟨cmd, ?_, hcmd⟩
  rcases h.primary with ⟨db, hp⟩ | ⟨l', hp⟩
  · rw [hp]
    exact hmem
  · exact offered_primary hp hs.made hmem

/-- A feed stays with its connection. -/
theorem Step.owner (h : Step primaryAddr aof s l s') {id : Nat} (hid : s.Made id) :
    s'.owner id = s.owner id := by
  cases h with
  | add => exact Function.update_of_ne (Nat.ne_of_lt hid) _ _
  | leave => exact congrFun (removeReplica_owner _ s) id
  | _ => rfl

/-- The number of a write is given at its dispatch. -/
theorem Step.ticket (h : Step primaryAddr aof s l s') (hs : s.Ticketed) {c : Nat} {r : Value}
    (hr : s'.primary.phase c = .applied r) :
    s.primary.phase c = .applied r ∧ s'.ticket c = s.ticket c ∨
      FrameOf s'.primary.history (some (s'.ticket c)) (encode r) := by
  cases h with
  | @dispatch c' r' now order p h hr' hp =>
      cases hp with
      | @dispatch _ r₀ _ _ h₀ =>
          change Function.update s.primary.phase c' _ c = .applied r at hr
          change _ ∧ Function.update s.ticket c' s.primary.history.length c = s.ticket c ∨
            FrameOf (s.primary.dispatch now order r₀).history
              (some (Function.update s.ticket c' s.primary.history.length c)) (encode r)
          rw [Function.update_apply] at hr ⊢
          split at hr
          case isFalse hc => exact .inl ⟨hr, if_neg hc⟩
          case isTrue hc =>
            have hw := hs.clients.pending c' r₀ (by rw [h₀]; rfl)
            rw [if_pos hc]
            split at hr
            · cases hr
            · cases hr
              refine .inr ⟨⟨r, s.primary.db, (s.primary.db.dispatch now order r).1⟩, ?_, rfl⟩
              simp [Primary.dispatch, recorded, *]
  | add _ hp | take _ hp | check _ _ hp | fast _ _ hp | acquire hp | propagate _ hp | release _ hp
  | heartbeat hp | pass hp => exact .inl ⟨applied_primary hp (by simp) c r hr, rfl⟩
  | @leave c' all h hall =>
      revert hr
      generalize (s.conns c').replica = o
      cases o <;> exact fun hr => .inl ⟨hr, rfl⟩
  | _ => exact .inl ⟨hr, rfl⟩

/-- What is in the queue of a feed; of a closed feed, what it has left. -/
def contents (s : Hub) (id : Nat) : List Bytes :=
  match s.primary.replicas.reps id with
  | some rep => rep.ch.items
  | none => s.leftover id

theorem contents_of_some {id : Nat} {rep : Replica}
    (h : s.primary.replicas.reps id = some rep) : s.contents id = rep.ch.items := by
  rw [contents, h]

theorem contents_of_none {id : Nat} (h : s.primary.replicas.reps id = none) :
    s.contents id = s.leftover id := by
  rw [contents, h]

theorem contents_congr {id : Nat} (hrep : s'.primary.replicas.reps id = s.primary.replicas.reps id)
    (hleft : s'.leftover id = s.leftover id) : s'.contents id = s.contents id := by
  rw [contents, hrep, hleft, contents]

/-- **The frames come from `Propagate`**, with the numbers of their writes. -/
structure Sourced (s : Hub) : Prop where
  ticket : ∀ c r, s.primary.phase c = .applied r →
    FrameOf s.primary.history (some (s.ticket c)) (encode r)
  queue : ∀ id, Tracks (Sent s.primary id) (s.queued id) (s.taken id) (s.contents id)
  unmade : ∀ id, ¬ s.Made id → s.queued id = []
  hand : ∀ sh id write frame, s.shippers sh = .holding id write frame →
    Sent s.primary id write frame
  out : ∀ c write frame, .feed write frame ∈ (s.conns c).out →
    ∃ id, s.owner id = c ∧ Sent s.primary id write frame

namespace Sourced

theorem start (db : DB) : (Hub.start db).Sourced where
  ticket _ _ h := (by cases h)
  queue _ := ⟨le_rfl, .nil⟩
  unmade _ _ := rfl
  hand _ _ _ _ h := (by cases h)
  out _ _ _ h := absurd h List.not_mem_nil

/-- A command is offered to every feed. -/
theorem offer {id : Nat}
    (hq : Tracks (Sent s'.primary id) (s.queued id) (s.taken id) (s.contents id))
    {write : Option Nat} {cmd : Value} (hw : FrameOf s.primary.history write (encode cmd))
    (hreps : s'.primary.replicas = (s.primary.offer cmd).replicas)
    (hfeeds : s'.primary.feeds = (s.primary.offer cmd).feeds)
    (hhistory : s'.primary.history = s.primary.history) (hleft : s'.leftover = s.leftover) :
    Tracks (Sent s'.primary id) (s.enqueue write id) (s.taken id) (s'.contents id) := by
  unfold enqueue
  cases hrep : s.primary.replicas.reps id with
  | none =>
      have hrep' : s'.primary.replicas.reps id = none := by
        rw [hreps]
        simp [Primary.offer, Replicas.propagate, hrep]
      rw [contents_of_none hrep', hleft, ← contents_of_none hrep]
      exact hq
  | some rep =>
      have hrep' : s'.primary.replicas.reps id = some ⟨(rep.ch.send (encode cmd)).1⟩ := by
        rw [hreps]
        simp [Primary.offer, Replicas.propagate, hrep]
      rw [contents_of_some hrep', Queue.send_items, ← contents_of_some hrep]
      change Tracks _ (if rep.ch.full then s.queued id else s.queued id ++ [write]) _ _
      by_cases hroom : rep.ch.full = true
      · rw [if_pos hroom, if_pos hroom]
        exact hq
      · rw [if_neg hroom, if_neg hroom]
        have hsent := Sent.offer hrep (by simpa using hroom) hw
        refine hq.send ⟨?_, ?_, ?_⟩
        · rw [hreps]
          exact hsent.made
        · rw [hhistory]
          exact hsent.frameOf
        · rw [hfeeds]
          exact hsent.offered

end Sourced

/-- What a goroutine takes is at the head of the queue. -/
theorem Step.takes {sh : Nat} (h : Step primaryAddr aof s (.take sh) s') :
    ∃ i frame, s.contents i = frame :: s'.contents i ∧
      (∀ id, id ≠ i → s'.contents id = s.contents id) ∧ s'.queued = s.queued ∧
      s'.taken = Function.update s.taken i (s.taken i + 1) ∧
      s'.shippers = Function.update s.shippers sh (.holding i (s.nextWrite i) frame) := by
  cases h with
  | @take _ i frame p h hp =>
      cases hp with
      | @deliver _ rep _ ch hrep hr =>
          refine ⟨i, frame, ?_, fun id hid => ?_, rfl, rfl, rfl⟩
          · have hrep' : (if i = i then (s.primary.replicas.reps i).map fun _ => (⟨ch⟩ : Replica)
                else s.primary.replicas.reps i) = some ⟨ch⟩ := by rw [if_pos rfl, hrep]; rfl
            rw [contents_of_some hrep, Queue.recv_eq_some.1 hr, contents_of_some hrep']
          · exact contents_congr (if_neg hid) rfl
  | @takeLeft _ i frame rest h hrep hl =>
      refine ⟨i, frame, ?_, fun id hid => contents_congr rfl (Function.update_of_ne hid _ _), rfl,
        rfl, rfl⟩
      simp only [contents, takeFrame, hrep, hl, Function.update_self]

/-- A goroutine holds only what it took. -/
theorem Step.holding (h : Step primaryAddr aof s l s') {sh id : Nat} {write : Option Nat}
    {frame : Bytes} (hsh : s'.shippers sh = .holding id write frame) :
    s.shippers sh = .holding id write frame ∨ l = .take sh := by
  -- the goroutine `i` moves
  have update : ∀ {i : Nat} {x : Shipper},
      Function.update s.shippers i x sh = .holding id write frame →
      (x = .holding id write frame → l = .take i) →
      s.shippers sh = .holding id write frame ∨ l = .take sh := fun {i x} hsh hx => by
    by_cases hi : sh = i
    · subst hi
      exact .inr (hx (by rwa [Function.update_self] at hsh))
    · exact .inl (by rwa [Function.update_of_ne hi] at hsh)
  cases h with
  | take | takeLeft => exact update hsh fun _ => rfl
  | add | startShipper | ship | shipFails | stop => exact update hsh fun hx => (by cases hx)
  | @leave c all h hall =>
      revert hsh
      generalize (s.conns c).replica = o
      cases o <;> exact .inl
  | _ => exact .inl hsh

/-- A goroutine takes a frame, which is the next that was sent. -/
theorem Sourced.take (hs : s.Sourced) {sh : Nat} (h : Step primaryAddr aof s (.take sh) s') :
    (∀ id write frame, s'.shippers sh = .holding id write frame → Sent s'.primary id write frame) ∧
      ∀ id, Tracks (Sent s'.primary id) (s'.queued id) (s'.taken id) (s'.contents id) := by
  obtain ⟨i, frame, hhead, hrest, hqueued, htaken, hshippers⟩ := h.takes
  have hq := hs.queue i
  rw [hhead] at hq
  obtain ⟨hnext, w, hw, hsent⟩ := hq.recv
  refine ⟨fun id write frame hsh => ?_, fun id => ?_⟩
  · rw [hshippers, Function.update_self, nextWrite, hw] at hsh
    cases hsh
    exact h.sent hsent
  · rw [hqueued, htaken]
    by_cases hid : id = i
    · rw [hid, Function.update_self]
      exact hnext.mono fun _ _ => h.sent
    · rw [Function.update_of_ne hid, hrest id hid]
      exact (hs.queue id).mono fun _ _ => h.sent

/-- The queue of a feed outlives its removal. -/
theorem contents_leave (howned : s.Owned) {c : Nat} {cs : Conn}
    (h : (s.conns c).loop = .leaving) (id : Nat) :
    ((s.removeReplica (s.conns c).replica).setConn c cs).contents id = s.contents id := by
  cases hr : (s.conns c).replica with
  | none => rfl
  | some i =>
      by_cases hi : i = id
      · subst hi
        -- a connection that is about to leave has its feed registered
        have hsome : (s.primary.replicas.reps i).isSome := by
          obtain ⟨hmade, hc⟩ := (howned.owner c i).1 hr
          refine (howned.registered i).2 ⟨hmade, ?_⟩
          rw [hc, Conn.left, h]
        obtain ⟨rep, hrep⟩ := Option.isSome_iff_exists.1 hsome
        have hleft : ((s.removeReplica (some i)).setConn c cs).leftover i = rep.ch.items := by
          change Function.update s.leftover i _ i = _
          rw [Function.update_self, hrep]
          rfl
        rw [contents_of_some hrep, contents_of_none, hleft]
        change (s.removeReplica (some i)).primary.replicas.reps i = none
        rw [removeReplica_reps, if_pos rfl]
      · refine contents_congr ?_ (Function.update_of_ne (Ne.symm hi) _ _)
        change (s.removeReplica (some i)).primary.replicas.reps id = _
        rw [removeReplica_reps, if_neg fun h => hi (Option.some.inj h)]

/-- The write lands in no feed that was not handed out. -/
theorem enqueue_unmade {id : Nat} (hid : ¬ s.Made id) (write : Option Nat) :
    s.enqueue write id = s.queued id := by
  rw [enqueue, s.primary.replicas.unused id (Nat.not_lt.1 hid)]

namespace Sourced

/-- Nothing is in a new feed, as nothing was in it before. -/
theorem contents_add (hs : s.Sourced) {c : Nat} (h : Step primaryAddr aof s (.add c) s')
    (id : Nat) : s'.contents id = s.contents id := by
  cases h with
  | add h hp =>
      cases hp
      by_cases hid : id = s.primary.replicas.next
      · have hq := hs.queue id
        rw [hs.unmade id (hid ▸ Nat.lt_irrefl _)] at hq
        rw [hq.items_eq_nil, hid]
        change _ = (⟨.empty⟩ : Replica).ch.items
        exact contents_of_some (Function.update_self _ _ _)
      · exact contents_congr (Function.update_of_ne hid _ _) rfl

theorem step (hs : s.Sourced) (howned : s.Owned) (ht : s.Ticketed) (hship : s.Shipped)
    (h : Step primaryAddr aof s l s') : s'.Sourced := by
  refine ⟨fun c r hr => ?_, fun id => ?_, fun id hid => ?_, fun sh id write frame hsh => ?_,
    fun c write frame hf => ?_⟩
  · rcases h.ticket ht hr with ⟨hr, hticket⟩ | hframe
    · rw [hticket]
      exact (hs.ticket c r hr).mono h.history
    · exact hframe
  · have keep := (hs.queue id).mono fun _ _ => h.sent
    cases h with
    | propagate hr hp =>
        cases hp with
        | propagate h' => exact offer keep (hs.ticket _ _ h') rfl rfl rfl rfl
    | heartbeat hp =>
        cases hp
        exact offer keep (show FrameOf _ none _ from rfl) rfl rfl rfl rfl
    | @add c p h hp =>
        have hadd : Step primaryAddr aof s (.add c) _ := .add h hp
        rw [hs.contents_add hadd]
        exact keep
    | @leave c all h hall =>
        rw [contents_leave howned h]
        generalize (s.conns c).replica = o at keep ⊢
        cases o <;> exact keep
    | @take sh i frame p h hp =>
        have htake : Step primaryAddr aof s (.take sh) _ := .take h hp
        exact (hs.take htake).2 id
    | @takeLeft sh i frame rest h hrep hl =>
        have htake : Step primaryAddr aof s (.take sh) _ := .takeLeft h hrep hl
        exact (hs.take htake).2 id
    | check _ _ hp | fast _ _ hp | acquire hp | dispatch _ _ hp | release _ hp | pass hp =>
        cases hp
        exact keep
    | _ => exact keep
  · have hid' : ¬ s.Made id := fun hm => hid (h.made hm)
    have hnone := hs.unmade id hid'
    cases h with
    | propagate | heartbeat => exact (enqueue_unmade hid' _).trans hnone
    | @leave c all h hall =>
        generalize (s.conns c).replica = o
        cases o <;> exact hnone
    | _ => exact hnone
  · rcases h.holding hsh with hsh | rfl
    · exact h.sent (hs.hand sh id write frame hsh)
    · exact (hs.take h).1 id write frame hsh
  · rcases h.feed_out hf with hf | ⟨sh, id, hc, hsh⟩
    · obtain ⟨id, hc, hsent⟩ := hs.out c write frame hf
      exact ⟨id, (h.owner hsent.made).trans hc, h.sent hsent⟩
    · have hsent := hs.hand sh id write frame hsh
      obtain rfl := hship.feed sh id (by rw [hsh]; rfl)
      exact ⟨id, (h.owner hsent.made).trans hc, h.sent hsent⟩

end Sourced

end Hub

end MiniRedis.Server
