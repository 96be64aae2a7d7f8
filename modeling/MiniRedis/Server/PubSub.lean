import MiniRedis.Replication.Logged
import MiniRedis.Server.Acknowledged

/-!
# Server — PubSub

The broker against the connections.  `subscribe` and `unsubscribe` change a connection's set of
channels and then, when they get the broker's lock, its lists; `unsubscribeAll` takes the
connection out of the lists one by one and leaves its set as it is.

* `Hub.Registered`: the invariant, with the connection's side of it in `Conn.Sound`.
* `registry_agrees`: **in every state reached, a connection is in the list of a channel once if the
  channel is in its set, and not at all otherwise; a channel that is about to be registered or
  unregistered is still where it was, and during the teardown the set counts as what is still to be
  left.**  No list is empty, the counts in the acknowledgements are the sizes of the set, and no
  `Publish` is about to send into a closed mailbox.
* `set_outlives_registration`: the set itself, at the end of a teardown.
-/

namespace MiniRedis.Server

open Protocol Store Cmd Maps Machine Replication

/-! ### Only `Publish` touches the bus -/

theorem pubsub_del : ∀ (keys : List Bytes) (s : Reference.RefStore),
    (s.del keys).1.pubsub = s.pubsub
  | [], _ => rfl
  | _ :: keys, _ => pubsub_del keys _

/-- Only `Publish` touches the broker. -/
theorem pubsub_call {c : Call} (h : ∀ channel payload, c ≠ .publish channel payload) (now : Time)
    (order : RangeOrder) (s : Reference.RefStore) : (s.call now order c).1.pubsub = s.pubsub := by
  cases c with
  | del keys => exact pubsub_del keys s
  | publish channel payload => exact absurd rfl (h channel payload)
  | _ => rfl

/-- A request that publishes nothing leaves the broker alone. -/
theorem pubsub_dispatch {request : Value} (h : publishes request = none) (now : Time)
    (order : RangeOrder) (db : DB) : (db.dispatch now order request).1.pubsub = db.pubsub := by
  have habs := congrArg (fun r => r.1.pubsub) (DB.abs_dispatch now order request db)
  refine Eq.trans habs.symm ?_
  unfold publishes at h
  unfold Reference.RefStore.dispatch Cmd.dispatch
  cases hp : plan request with
  | reply v => rfl
  | call c render =>
      refine pubsub_call (fun channel payload hc => ?_) now order (db.abs now)
      subst hc
      rw [hp] at h
      cases h

/-- **A `Publish` that nothing disturbs** sends what `Broker.publish` sends in one go. -/
theorem Hub.publish_undisturbed {primaryAddr : Bytes} {aof : Bool} {t : Option Nat} {msg : Message}
    {rest : List Subscriber} {n : Nat} {s : Hub} (h : s.publishing t = some ⟨msg, rest, n⟩) :
    Run (Hub.Step primaryAddr aof) s (List.replicate rest.length (.send t))
      ((s.setBroker (s.broker.deliver msg rest).1).setPublishing t
        (some ⟨msg, [], n + (s.broker.deliver msg rest).2⟩)) := by
  induction rest generalizing s n with
  | nil =>
      have hsame : (s.setPublishing t (some ⟨msg, [], n⟩)) = s := by
        rw [setPublishing, ← h, Function.update_eq_self]
      change Run _ s [] (s.setPublishing t (some ⟨msg, [], n⟩))
      rw [hsame]
      exact .nil s
  | cons sub rest ih =>
      -- what the first send has written is written over
      have hover : ∀ (b b' : Broker) (o o' : Option Publishing),
          (((s.setBroker b).setPublishing t o).setBroker b').setPublishing t o' =
            (s.setBroker b').setPublishing t o' := by
        intro b b' o o'
        simp only [setPublishing, setBroker, Function.update_idem]
      refine .cons (.send h) ?_
      have hrest := ih (s := (s.setBroker (s.broker.offer msg sub).1).setPublishing t
        (some ⟨msg, rest, n + if (s.broker.offer msg sub).2 then 1 else 0⟩))
        (Function.update_self _ _ _)
      rw [hover, Nat.add_assoc] at hrest
      rw [Broker.deliver_cons]
      exact hrest

/-! ### The invariant -/

/-- The channels the broker has the connection on: its set, but for a channel that has gone into it
or out of it and waits for the broker's lock, and in the teardown what is still to be left. -/
def Conn.held (cs : Conn) : Finset Bytes :=
  match cs.loop with
  | .registering channel _ => cs.channels.erase channel
  | .unregistering channel _ => insert channel cs.channels
  | .draining rest => rest.toFinset
  | .closing | .closed => ∅
  | _ => cs.channels

/-- The broker is one channel behind the set while a channel waits to be registered. -/
theorem Conn.Sound.held_registering {cs : Conn} (hs : cs.Sound) {channel : Bytes}
    {rest : List Bytes} (h : cs.loop = .registering channel rest) :
    channel ∉ cs.held ∧ cs.channels = insert channel cs.held := by
  have hheld : cs.held = cs.channels.erase channel := by simp [Conn.held, h]
  rw [hheld, Finset.insert_erase (hs.mem_registering h)]
  exact ⟨Finset.notMem_erase _ _, rfl⟩

/-- It has one channel more than the set while a channel waits to be unregistered. -/
theorem Conn.Sound.held_unregistering {cs : Conn} (hs : cs.Sound) {channel : Bytes}
    {rest : List Bytes} (h : cs.loop = .unregistering channel rest) :
    cs.channels = cs.held.erase channel := by
  have hheld : cs.held = insert channel cs.channels := by simp [Conn.held, h]
  rw [hheld, Finset.erase_insert (hs.notMem_unregistering h)]

/-- No client is in `applyRecord` with a message to publish. -/
def Hub.Silent (p : Primary) : Prop := p.Requests fun r => publishes r = none

/-- **The registry and the connections agree.** -/
structure Hub.Registered (s : Hub) : Prop where
  conns : ∀ c, (s.conns c).Sound
  count : ∀ c channel, (s.broker.listeners channel).count c =
    if channel ∈ (s.conns c).held then 1 else 0
  trim : Registry.Trim s.broker.subs
  /-- Whom a `Publish` is still to send to is on the list of the channel. -/
  reading : ∀ t p, s.publishing t = some p →
    ∀ sub ∈ p.rest, sub ∈ s.broker.listeners p.msg.channel
  silent : Silent s.primary

namespace Hub.Registered

variable {primaryAddr : Bytes} {aof : Bool} {s s' : Hub} {l : Hub.Label}

/-- A connection that is sent to is registered on the channel. -/
theorem held_of_mem (hs : s.Registered) {c : Nat} {channel : Bytes}
    (h : c ∈ s.broker.listeners channel) : channel ∈ (s.conns c).held := by
  by_contra hn
  have hc := hs.count c channel
  rw [if_neg hn] at hc
  exact List.count_eq_zero.1 hc h

theorem start (db : DB) : (Hub.start db).Registered where
  conns _ := .new
  count _ _ := rfl
  trim _ _ h := by cases h
  reading _ _ h := by cases h
  silent _ _ h := by cases h

/-- Neither the lists nor what the connections hold has changed. -/
theorem of_same (hs : s.Registered) (hconns : ∀ c, (s'.conns c).Sound)
    (hheld : ∀ c, (s'.conns c).held = (s.conns c).held)
    (hsubs : s'.broker.subs = s.broker.subs)
    (hread : ∀ t p, s'.publishing t = some p →
      ∀ sub ∈ p.rest, sub ∈ s.broker.listeners p.msg.channel)
    (hsilent : Silent s'.primary) : s'.Registered := by
  have hlisteners : ∀ channel, s'.broker.listeners channel = s.broker.listeners channel :=
    fun channel => by rw [Broker.listeners, hsubs, Broker.listeners]
  refine ⟨hconns, fun c channel => ?_, hsubs ▸ hs.trim, fun t p hp sub hsub => ?_, hsilent⟩
  · rw [hlisteners, hheld]
    exact hs.count c channel
  · rw [hlisteners]
    exact hread t p hp sub hsub

/-- The channels that a move of a connection on its own leaves it with. -/
theorem held_act {cs cs' : Conn} {a : Act} (h : Conn.Step primaryAddr cs a cs') :
    cs'.held = cs.held := by
  cases h with
  | @read all request h hall =>
      have hserved := cs.serve_served primaryAddr all request
      generalize cs.serve primaryAddr all request = cs' at hserved ⊢
      cases hserved <;> simp [Conn.held, h]
  | @write f next h hb =>
      unfold Conn.pending at h
      split at h <;> cases h <;> simp [Conn.held, *]
  | writeFails h =>
      unfold Conn.pending at h
      split at h <;> cases h <;> simp [Conn.held, *]
  | enter h hc =>
      have hheld : cs.held = cs.channels := by simp [Conn.held, h]
      exact (Finset.erase_insert hc).trans hheld.symm
  | delete h hc =>
      have hheld : cs.held = cs.channels := by simp [Conn.held, h]
      exact (Finset.insert_erase hc).trans hheld.symm
  | done h => rcases h with h | h <;> simp [Conn.held, h]
  | push | pushFails => rfl
  | accept h | malformed h | hangUp h | already h | missing h | closeMailbox h | close h =>
      simp [Conn.held, h]

/-- After `removeReplica` the whole set is still to be left. -/
theorem held_drain {cs : Conn} {all : List Bytes} (h : cs.loop = .leaving)
    (hall : ListsSet all cs.channels) (hs : cs.Sound) : (cs.drain all).held = cs.held := by
  have hheld : cs.held = cs.channels := by simp [Conn.held, h]
  rw [hheld]
  by_cases hm : cs.mailbox = .unmade
  · rw [(hs.mailbox.unmade hm).1]
    simp [Conn.held, Conn.drain, hm]
  · have : (cs.drain all).held = all.toFinset := by simp [Conn.held, Conn.drain, hm]
    rw [this]
    ext channel
    rw [List.mem_toFinset, hall.mem_iff]

/-- A step of the primary leaves the broker alone. -/
theorem pubsub_primary {p p' : Primary} {l : Replication.Label}
    (h : Replication.Step aof p l p') (hl : ∀ b, l ≠ .connection b) (hs : Silent p) :
    p'.db.pubsub = p.db.pubsub := by
  cases h with
  | fast h | dispatch h => exact pubsub_dispatch (hs _ _ (by rw [h]; rfl)) _ _ _
  | pass => exact DB.activeExpiryPass_pubsub _ _ _ _
  | connection => exact absurd rfl (hl _)
  | _ => rfl

/-- A step of the primary. -/
theorem of_primary (hs : s.Registered) {l : Replication.Label}
    (hp : Replication.Step aof s.primary l s'.primary) (hl : ∀ b, l ≠ .connection b)
    (hr : ∀ r, l.request? = some r → publishes r = none)
    (hconns : ∀ c, (s'.conns c).Sound) (hheld : ∀ c, (s'.conns c).held = (s.conns c).held)
    (hpub : s'.publishing = s.publishing) : s'.Registered :=
  hs.of_same hconns hheld (congrArg Broker.subs (pubsub_primary hp hl hs.silent))
    (by rw [hpub]; exact hs.reading) (Primary.requests_step hp hr hs.silent)

/-- The broker's lists change for one connection and one channel. -/
theorem of_broker (hs : s.Registered) {b : Broker} {c : Nat} {cs : Conn} (hfree : s.Unread)
    (hconns : ∀ c', (((s.setBroker b).setConn c cs).conns c').Sound)
    (hcount : ∀ c' channel, (b.listeners channel).count c' =
      if c' = c then if channel ∈ cs.held then 1 else 0
      else (s.broker.listeners channel).count c')
    (htrim : Registry.Trim b.subs) : ((s.setBroker b).setConn c cs).Registered := by
  refine ⟨hconns, fun c' channel => (hcount c' channel).trans ?_, htrim, fun t p hp => ?_,
    hs.silent⟩
  · change _ = if channel ∈ (Function.update s.conns c cs c').held then 1 else 0
    rw [Function.update_apply]
    by_cases hc : c' = c
    · rw [if_pos hc, if_pos hc]
    · rw [if_neg hc, if_neg hc]
      exact hs.count c' channel
  · have hnone : s.publishing t = some p := hp
    rw [hfree t] at hnone
    cases hnone

/-- A registration counts for the subscriber and the channel alone. -/
theorem count_subscribe (hs : s.Registered) {c : Nat} {cs : Conn} {channel : Bytes}
    (hnew : channel ∉ (s.conns c).held) (hheld : cs.held = insert channel (s.conns c).held)
    (c' : Nat) (channel' : Bytes) :
    ((s.broker.subscribe channel c).listeners channel').count c' =
      if c' = c then if channel' ∈ cs.held then 1 else 0
      else (s.broker.listeners channel').count c' := by
  refine (Registry.count_enrol channel c s.broker.subs channel' c').trans ?_
  change (s.broker.listeners channel').count c' + _ = _
  by_cases hc : c' = c
  · subst hc
    rw [hs.count, hheld]
    by_cases hch : channel' = channel
    · subst hch
      simp [hnew]
    · simp [hch]
  · simp [hc]

/-- So does the end of one. -/
theorem count_unsubscribe (hs : s.Registered) {c : Nat} {cs : Conn} {channel : Bytes}
    (hheld : cs.held = (s.conns c).held.erase channel) (c' : Nat) (channel' : Bytes) :
    ((s.broker.unsubscribe channel c).listeners channel').count c' =
      if c' = c then if channel' ∈ cs.held then 1 else 0
      else (s.broker.listeners channel').count c' := by
  refine (Registry.count_withdraw channel c s.broker.subs channel' c').trans ?_
  change (s.broker.listeners channel').count c' - _ = _
  by_cases hc : c' = c
  · subst hc
    rw [hs.count, hheld]
    by_cases hch : channel' = channel
    · subst hch
      by_cases hmem : channel' ∈ (s.conns c').held <;> simp [hmem]
    · simp [hch]
  · simp [hc]

/-- **Every step keeps the agreement.** -/
theorem step (hs : s.Registered) (h : Hub.Step primaryAddr aof s l s') : s'.Registered := by
  have hconns : ∀ c, (s'.conns c).Sound := fun c => (h.moves c).sound (hs.conns c)
  -- one connection moves and holds what it held
  have update : ∀ {c : Nat} {cs : Conn}, cs.held = (s.conns c).held →
      ∀ c', (Function.update s.conns c cs c').held = (s.conns c').held := by
    intro c cs hcs c'
    rw [Function.update_apply]
    split
    case isTrue hc => rw [hc, hcs]
    case isFalse => rfl
  -- one `Publish` goes on
  have publishing : ∀ {t : Option Nat} {o : Option Publishing},
      (∀ p, o = some p → ∀ sub ∈ p.rest, sub ∈ s.broker.listeners p.msg.channel) →
      ∀ t' p, Function.update s.publishing t o t' = some p →
        ∀ sub ∈ p.rest, sub ∈ s.broker.listeners p.msg.channel := by
    intro t o ho t' p hp
    rcases update_eq_some.1 hp with ⟨-, hp⟩ | ⟨-, hp⟩
    · exact ho p hp
    · exact hs.reading t' p hp
  cases h with
  | conn h => exact hs.of_same hconns (update (held_act h)) rfl hs.reading hs.silent
  | @register c channel rest h hfree =>
      obtain ⟨hnew, hset⟩ := (hs.conns c).held_registering h
      exact hs.of_broker hfree hconns (hs.count_subscribe hnew hset) (hs.trim.enrol _ _)
  | @unregister c channel rest h hfree =>
      have hset := (hs.conns c).held_unregistering h
      exact hs.of_broker hfree hconns (hs.count_unsubscribe hset) (hs.trim.withdraw _ _)
  | @drain c channel rest h hfree =>
      refine hs.of_broker hfree hconns (hs.count_unsubscribe ?_) (hs.trim.withdraw _ _)
      obtain ⟨hnodup, -⟩ := (hs.conns c).mailbox.draining _ h
      have hheld : (s.conns c).held = (channel :: rest).toFinset := by simp [Conn.held, h]
      rw [hheld, List.toFinset_cons, Finset.erase_insert]
      · rfl
      · rw [List.mem_toFinset]
        exact (List.nodup_cons.1 hnodup).1
  | receive h hr | finish h hm hq => exact hs.of_same hconns (update rfl) rfl hs.reading hs.silent
  | add h hp | fast h _ hp | dispatch h _ hp | release h hp =>
      exact hs.of_primary hp (by simp) (by simp [Replication.Label.request?]) hconns
        (update (by simp [Conn.held, h])) rfl
  | @leave c all h hall =>
      refine hs.of_same hconns (fun c' => ?_) ?_ (fun t p hp => ?_) (fun c' r hr => ?_)
      · simp only [Hub.setConn, Hub.removeReplica_conns]
        exact update (held_drain h hall (hs.conns c)) c'
      · simp only [Hub.broker, Hub.setConn, Hub.removeReplica_db]
      · simp only [Hub.setConn, Hub.removeReplica_publishing] at hp
        exact hs.reading t p hp
      · simp only [Hub.setConn, Hub.removeReplica_phase] at hr
        exact hs.silent c' r hr
  | startShipper | takeLeft | stop =>
      exact hs.of_same hconns (fun _ => rfl) rfl hs.reading hs.silent
  | take _ hp | propagate _ hp | acquire hp | heartbeat hp | pass hp =>
      exact hs.of_primary hp (by simp) (by simp [Replication.Label.request?]) hconns
        (fun _ => rfl) rfl
  | ship h hb | shipFails h => exact hs.of_same hconns (update rfl) rfl hs.reading hs.silent
  | check h hpub hp =>
      refine hs.of_primary hp (by simp) (fun r hr => ?_) hconns
        (update (by simp [Conn.held, h])) rfl
      cases hr
      exact hpub
  | @publish c request msg render h hpub =>
      refine hs.of_same hconns (update (by simp [Conn.held, h])) rfl (publishing fun p hp => ?_)
        hs.silent
      cases hp
      exact fun _ hsub => hsub
  | @send t msg sub rest n h =>
      refine hs.of_same hconns (fun _ => rfl) rfl (publishing fun p hp => ?_) hs.silent
      cases hp
      exact fun sub' hsub => hs.reading t _ h sub' (List.mem_cons_of_mem _ hsub)
  | published h hl =>
      refine hs.of_same hconns (update (by simp [Conn.held, hl])) rfl
        (publishing fun p hp => ?_) hs.silent
      cases hp
  | stream haddr hidle hpub =>
      exact hs.of_same hconns (fun _ => rfl)
        (congrArg Broker.subs (pubsub_dispatch hpub _ _ _)) hs.reading hs.silent
  | streamPublish haddr hidle hpub =>
      refine hs.of_same hconns (fun _ => rfl) rfl (publishing fun p hp => ?_) hs.silent
      cases hp
      exact fun _ hsub => hsub
  | streamPublished h =>
      refine hs.of_same hconns (fun _ => rfl) rfl (publishing fun p hp => ?_) hs.silent
      cases hp

/-- Whom a `Publish` is to send to has not closed its mailbox. -/
theorem mailbox_open (hs : s.Registered) {t : Option Nat} {p : Publishing}
    (hp : s.publishing t = some p) {sub : Subscriber} (hsub : sub ∈ p.rest) :
    (s.conns sub).mailbox ≠ .closed := by
  intro hclosed
  have hheld := hs.held_of_mem (hs.reading t p hp sub hsub)
  rcases (hs.conns sub).mailbox.closed hclosed with hl | hl <;>
    simp [Conn.held, hl] at hheld

end Hub.Registered

/-! ### The results -/

/-- **The registry agrees with the connections.**  Whatever requests any number of connections
send, with failing writes, disconnects and messages published by others, in every state reached:
a connection's subscriber is on the list of a channel exactly once if the connection holds the
channel and not at all otherwise; no list is empty; every acknowledgement carries the size of the
set of channels; and no `Publish` is to send into a mailbox that has been closed.  What a connection
holds is its set of channels; without the channel it has put into the set and is about to register,
with the one it has taken out and is about to unregister; and in the teardown what is still to be
left. -/
theorem registry_agrees (primaryAddr : Bytes) (aof : Bool) (db : DB) (labels : List Hub.Label)
    (s : Hub) (hrun : Run (Hub.Step primaryAddr aof) (Hub.start db) labels s) :
    (∀ c channel, (s.broker.listeners channel).count c =
        if channel ∈ (s.conns c).held then 1 else 0) ∧
      (∀ channel l, s.broker.subs.lookup channel = some l → l ≠ []) ∧
      (∀ c, Along Counts (s.conns c).out ∧ (s.conns c).Told) ∧
      ∀ t p, s.publishing t = some p → ∀ sub ∈ p.rest, (s.conns sub).mailbox ≠ .closed := by
  have hs : s.Registered := hrun.preserves (G := fun _ => True) (fun _ _ _ _ h hs => hs.step h)
    (fun _ _ => trivial) (.start db)
  exact ⟨hs.count, hs.trim, fun c => ⟨(hs.conns c).counts, (hs.conns c).told⟩,
    fun t p hp sub hsub => hs.mailbox_open hp hsub⟩

/-- `SUBSCRIBE a` -/
def subscribeA : Value := bulkCmd [txt "SUBSCRIBE", txt "a"]

/-- `PUBLISH a m` -/
def publishA : Value := bulkCmd [txt "PUBLISH", txt "a", txt "m"]

/-- A connection that is about to register on `a`. -/
def joiningA : Conn :=
  { Conn.new with loop := .subscribing [txt "a"], mailbox := .made, deliverer := .waiting }

theorem read_subscribeA :
    Conn.Step [] { Conn.new with loop := .reading } (.read subscribeA) joiningA := by
  have hroute : route [] false subscribeA = .subscribe := by decide +kernel
  have hserve : Conn.serve [] [] subscribeA { Conn.new with loop := .reading } = joiningA := by
    unfold Conn.serve
    rw [show Conn.subscribed { Conn.new with loop := .reading } = false from rfl, hroute]
    rfl
  rw [← hserve]
  exact .read rfl ⟨List.nodup_nil, fun a => by simp [Conn.new]⟩

theorem read_publishA :
    Conn.Step [] { Conn.new with loop := .reading } (.read publishA)
      { Conn.new with loop := .applying publishA } :=
  Conn.read_apply rfl rfl (by decide +kernel)

theorem publishes_publishA : publishes publishA = some (⟨txt "a", txt "m"⟩, countReply) := rfl

/-- A connection subscribes to `a`, and another one starts to publish on it. -/
def joinAndPublish : List Hub.Label :=
  [.conn 0 .accept, .conn 0 (.read subscribeA), .conn 0 .enter, .register 0, .conn 1 .accept,
    .conn 1 (.read publishA), .publish 1]

/-- A subscriber, and a publication that is about to be sent to it. -/
theorem registry_agrees_publishing :
    ∃ s, Run (Hub.Step [] false) (Hub.start DB.new) joinAndPublish s ∧
      s.publishing (some 1) = some ⟨⟨txt "a", txt "m"⟩, [0], 0⟩ ∧
      (s.broker.listeners (txt "a")).count 0 = 1 ∧ (s.conns 0).mailbox ≠ .closed := by
  have hrun : Run (Hub.Step [] false) (Hub.start DB.new) joinAndPublish _ :=
    .cons (.conn (.accept rfl)) (.cons (.conn read_subscribeA)
      (.cons (.conn (.enter rfl (Finset.notMem_empty _))) (.cons (.register rfl fun _ => rfl)
        (.cons (.conn (.accept rfl)) (.cons (.conn read_publishA)
          (.cons (.publish rfl publishes_publishA) (.nil _)))))))
  obtain ⟨hcount, -, -, hopen⟩ := registry_agrees [] false DB.new joinAndPublish _ hrun
  refine ⟨_, hrun, rfl, ?_, hopen (some 1) _ rfl 0 (List.mem_singleton_self 0)⟩
  exact (hcount 0 (txt "a")).trans (if_pos (Finset.mem_insert_self _ _))

/-- A connection subscribes to `a` and hangs up; its teardown leaves `a`. -/
def joinAndLeave : List Hub.Label :=
  [.conn 0 .accept, .conn 0 (.read subscribeA), .conn 0 .enter, .register 0, .conn 0 .write,
    .conn 0 .done, .conn 0 .hangUp, .leave 0, .drain 0]

/-- At the end of a teardown the channel is in the connection's set, and the connection on no
list. -/
theorem set_outlives_registration :
    ∃ s, Run (Hub.Step [] false) (Hub.start DB.new) joinAndLeave s ∧ s.Unread ∧
      txt "a" ∈ (s.conns 0).channels ∧ (s.broker.listeners (txt "a")).count 0 = 0 := by
  have hall : ListsSet [txt "a"] (insert (txt "a") ∅) := ⟨List.nodup_singleton _, by simp⟩
  exact ⟨_, .cons (.conn (.accept rfl)) (.cons (.conn read_subscribeA)
    (.cons (.conn (.enter rfl (Finset.notMem_empty _))) (.cons (.register rfl fun _ => rfl)
      (.cons (.conn (.write rfl rfl)) (.cons (.conn (.done (.inl rfl)))
        (.cons (.conn (.hangUp rfl)) (.cons (.leave rfl hall) (.cons (.drain rfl fun _ => rfl)
          (.nil _))))))))), fun _ => rfl, Finset.mem_insert_self _ _, by decide +kernel⟩

end MiniRedis.Server
