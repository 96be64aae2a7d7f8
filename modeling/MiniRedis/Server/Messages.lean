import MiniRedis.Server.PubSub

/-!
# Server — Messages

When a client gets the messages of a channel.  `subscribe` registers a connection before it writes
the acknowledgement, and `unsubscribe` writes its own while messages may be left in the mailbox;
the goroutine `deliver` writes at any moment in between.

* `messages_inside`: **a message comes after the acknowledgement of a subscription to its channel
  and before that of leaving it**, if `deliver` does not overtake a registration that is still to be
  acknowledged, and leaving a channel is acknowledged only when no message of it is on its way.
* `messages_stray`: a run for each of the two in which a message does not.
-/

namespace MiniRedis.Server

open Protocol Store Cmd Maps Machine Replication

variable {primaryAddr : Bytes} {aof : Bool}

/-- A message is of a channel the client has been told it is subscribed to. -/
def Inside (pre : List Frame) (f : Frame) : Prop :=
  ∀ msg, f = .message msg → msg.channel ∈ acked pre

/-- The client knows of the channel, or is about to; not if its socket is broken. -/
def Conn.Knows (cs : Conn) (channel : Bytes) : Prop :=
  cs.broken = false → channel ∈ acked cs.out ∨ ∃ rest, cs.loop = .subscribed true channel rest

namespace Hub

/-- A message on its way to a connection: in its mailbox, or in the hands of `deliver`. -/
def Waits (s : Hub) (c : Nat) (msg : Message) : Prop :=
  msg ∈ (s.broker.mailbox c).items ∨ (s.conns c).deliverer = .holding msg

/-- `deliver` does not write a message of a channel that is registered and not yet acknowledged, and
leaving a channel is acknowledged when no message of it is on its way. -/
def Timely (s : Hub) : Label → Prop
  | .conn c .push => ∀ msg rest, (s.conns c).deliverer = .holding msg →
      (s.conns c).loop ≠ .subscribed true msg.channel rest
  | .conn c .write => ∀ msg rest, s.Waits c msg →
      (s.conns c).loop ≠ .unsubscribed msg.channel rest
  | _ => True

end Hub

/-! ### One connection -/

/-- What the broker has a connection on, its client knows of. -/
theorem Conn.Sound.knows {cs : Conn} (hs : cs.Sound) {channel : Bytes} (h : channel ∈ cs.held) :
    cs.Knows channel := by
  intro hb
  have ht : cs.loop.Tells cs.channels (acked cs.out) cs.broken := hs.told
  unfold Conn.held at h
  cases hloop : cs.loop with
  | subscribed new channel' rest =>
      rw [hloop] at ht h
      cases new with
      | true =>
          rcases Finset.mem_insert.1 (ht ▸ h : channel ∈ insert channel' _) with rfl | h
          · exact .inr ⟨rest, rfl⟩
          · exact .inl h
      | false => exact .inl (ht.2 ▸ h)
  | unsubscribed channel' rest =>
      rw [hloop] at ht h
      exact .inl (Finset.mem_of_mem_erase (ht ▸ h : channel ∈ Finset.erase _ channel'))
  | registering channel' rest =>
      rw [hloop] at ht h
      obtain ⟨hne, hmem⟩ := Finset.mem_erase.1 h
      exact .inl (Finset.mem_of_mem_insert_of_ne (ht ▸ hmem) hne)
  | unregistering channel' rest =>
      -- the channel is left in the set only, and its client has not been told
      rw [hloop] at ht h
      rcases Finset.mem_insert.1 h with rfl | h
      · exact .inl ht.1
      · exact .inl (Finset.mem_of_mem_erase (ht.2 ▸ h : channel ∈ Finset.erase _ channel'))
  | unsubscribedNone =>
      rw [hloop] at ht h
      exact .inl (ht.2 ▸ h)
  | draining rest =>
      rw [hloop] at ht h
      exact .inl (ht hb ▸ (hs.mailbox.draining rest hloop).2 channel (List.mem_toFinset.1 h))
  | leaving =>
      rw [hloop] at ht h
      exact .inl (ht hb ▸ h)
  | closing | closed =>
      rw [hloop] at h
      cases h
  | _ =>
      rw [hloop] at ht h
      exact .inl (ht ▸ h)

/-- No move mends a broken socket. -/
theorem Conn.Move.broken {cs cs' : Conn} {o : Option Act} (h : cs.Move primaryAddr o cs')
    (hb : cs'.broken = false) : cs.broken = false := by
  cases h with
  | act h =>
      cases h with
      | @read all request h hall =>
          have hserved := cs.serve_served primaryAddr all request
          generalize cs.serve primaryAddr all request = cs' at hserved hb
          cases hserved <;> exact hb
      | writeFails | pushFails | close => cases hb
      | _ => exact hb
  | shipFails => cases hb
  | _ => exact hb

/-- What a frame leaves the client with, if it is not the word that the channel is left. -/
theorem Frame.mem_tell {set : Finset Bytes} {channel : Bytes} {f : Frame} (h : channel ∈ set)
    (hf : ∀ n, f ≠ .unsubscribed (some channel) n) : channel ∈ f.tell set := by
  cases f with
  | subscribed channel' n => exact Finset.mem_insert_of_mem h
  | unsubscribed channel' n =>
      cases channel' with
      | none => exact h
      | some channel' => exact Finset.mem_erase.2 ⟨fun e => hf n (by rw [e]), h⟩
  | _ => exact h

/-- A move does not take a channel from what the client knows, unless it acknowledges that the
channel is left. -/
theorem Conn.Move.mem_acked {cs cs' : Conn} {o : Option Act} (h : cs.Move primaryAddr o cs')
    {channel : Bytes} (hk : channel ∈ acked cs.out)
    (hw : o = some .write → ∀ rest, cs.loop ≠ .unsubscribed channel rest) :
    channel ∈ acked cs'.out := by
  rcases h.out with hout | ⟨-, ⟨f, next, ho, hf, -, hout⟩ | ⟨msg, -, -, hout⟩ |
    ⟨w, frame, hout⟩⟩ <;> rw [hout]
  · exact hk
  · rw [acked_concat]
    refine Frame.mem_tell hk fun n hn => ?_
    subst hn
    unfold Conn.pending at hf
    split at hf <;> cases hf
    exact hw ho _ ‹_›
  · rw [acked_concat]
    exact hk
  · rw [acked_concat]
    exact hk

/-- A channel the client knows of is known until the acknowledgement of its end. -/
theorem Conn.Move.knows {cs cs' : Conn} {o : Option Act} (h : cs.Move primaryAddr o cs')
    {channel : Bytes} (hk : cs.Knows channel)
    (hw : o = some .write → ∀ rest, cs.loop ≠ .unsubscribed channel rest) :
    cs'.Knows channel := by
  intro hb'
  rcases hk (h.broken hb') with hmem | ⟨rest, hloop⟩
  · exact .inl (h.mem_acked hmem hw)
  · -- the loop is at the acknowledgement, and stays there or writes it
    cases h with
    | act h =>
        cases h with
        | write h hb =>
            unfold Conn.pending at h
            rw [hloop] at h
            cases h
            refine .inl ?_
            rw [acked_concat]
            exact Finset.mem_insert_self _ _
        | writeFails => cases hb'
        | push | pushFails => exact .inr ⟨rest, hloop⟩
        | done h => rcases h with h | h <;> rw [hloop] at h <;> cases h
        | accept h | read h | malformed h | hangUp h | already h | missing h | enter h | delete h
        | closeMailbox h | close h =>
            rw [hloop] at h
            cases h
    | same | receive | finish | ship | shipFails => exact .inr ⟨rest, hloop⟩
    | register h | unregister h | drain h | add _ h | leave h =>
        rw [hloop] at h
        cases h
    | serving loop h =>
        rw [hloop] at h
        exact h.elim

/-! ### The server -/

namespace Hub

variable {s s' : Hub} {l : Label}

/-- A step of a connection on itself puts no message into the hands of `deliver`. -/
theorem holding_act {cs cs' : Conn} {a : Act} {msg : Message}
    (h : Conn.Step primaryAddr cs a cs') (hm : cs'.deliverer = .holding msg) :
    cs.deliverer = .holding msg := by
  cases h with
  | @read all request h hall =>
      have hserved := cs.serve_served primaryAddr all request
      generalize cs.serve primaryAddr all request = cs' at hserved hm
      cases hserved with
      | joinFirst => cases hm
      | _ => exact hm
  | push | pushFails => cases hm
  | _ => exact hm

/-- **A message on its way was so before**, unless it has just been sent. -/
theorem Step.waits (h : Step primaryAddr aof s l s') (hs : s.Registered) {c : Nat} {msg : Message}
    (hw : s'.Waits c msg) :
    s.Waits c msg ∨ ∃ t rest n, l = .send t ∧ s.publishing t = some ⟨msg, c :: rest, n⟩ := by
  -- the mailboxes are the same and one connection moves, with nothing new in its hands
  have same : ∀ {s₁ : Hub}, s₁.Waits c msg → s₁.broker.mailbox = s.broker.mailbox →
      (∀ c, (s₁.conns c).deliverer = .holding msg → (s.conns c).deliverer = .holding msg) →
      s.Waits c msg := by
    rintro s₁ (hm | hd) hbox hcs
    · exact .inl (hbox ▸ hm)
    · exact .inr (hcs c hd)
  have update : ∀ {c' : Nat} {cs : Conn},
      (cs.deliverer = .holding msg → (s.conns c').deliverer = .holding msg) →
      ∀ c, (Function.update s.conns c' cs c).deliverer = .holding msg →
        (s.conns c).deliverer = .holding msg :=
    fun hcs => (Function.forall_update_iff s.conns fun c cs =>
      cs.deliverer = .holding msg → (s.conns c).deliverer = .holding msg).2
        ⟨hcs, fun _ _ h => h⟩
  have primary : ∀ {l : Replication.Label} {p : Primary},
      Replication.Step aof s.primary l p → (∀ b, l ≠ .connection b) →
      p.db.pubsub.mailbox = s.broker.mailbox :=
    fun hp hl => congrArg Broker.mailbox (Registered.pubsub_primary hp hl hs.silent)
  cases h with
  | conn h => exact .inl (same hw rfl (update (holding_act h)))
  | register | unregister | drain | ship | shipFails | publish | published =>
      exact .inl (same hw rfl (update id))
  | finish => exact .inl (same hw rfl (update fun h => by cases h))
  | startShipper | takeLeft | stop | streamPublish | streamPublished =>
      exact .inl (same hw rfl fun _ => id)
  | add _ hp | check _ _ hp | fast _ _ hp | dispatch _ _ hp | release _ hp =>
      exact .inl (same hw (primary hp (by simp)) (update id))
  | take _ hp | acquire hp | propagate _ hp | heartbeat hp | pass hp =>
      exact .inl (same hw (primary hp (by simp)) fun _ => id)
  | stream _ _ hpub =>
      exact .inl (same hw (congrArg Broker.mailbox (pubsub_dispatch hpub _ _ _)) fun _ => id)
  | @leave c' all h hall =>
      refine .inl (same hw ?_ ?_)
      · simp only [broker, setConn, removeReplica_db]
      · simp only [setConn, removeReplica_conns]
        exact update id
  | @receive c' msg' q h hr =>
      -- the message `deliver` has taken was at the head of the mailbox
      have hitems := Queue.recv_eq_some.1 hr
      have hbox : msg ∈ (Function.update s.broker.mailbox c' q c).items →
          msg ∈ (s.broker.mailbox c).items := by
        rw [Function.update_apply]
        split
        case isTrue hc =>
          rw [hc, hitems]
          exact List.mem_cons_of_mem _
        case isFalse => exact id
      rcases hw with hm | hd
      · exact .inl (.inl (hbox hm))
      · change (Function.update s.conns c' { s.conns c' with deliverer := .holding msg' }
          c).deliverer = _ at hd
        rw [Function.update_apply] at hd
        split at hd
        case isTrue hc =>
          cases hd
          rw [hc]
          exact .inl (.inl (hitems ▸ List.mem_cons_self))
        case isFalse => exact .inl (.inr hd)
  | @send t msg' sub rest n h =>
      rcases hw with hm | hd
      · change msg ∈ (Function.update s.broker.mailbox sub
          ((s.broker.mailbox sub).send msg').1 c).items at hm
        rw [Function.update_apply] at hm
        split at hm
        case isTrue hc =>
          subst hc
          rw [Queue.send_items] at hm
          split at hm
          · exact .inl (.inl hm)
          · rcases List.mem_append.1 hm with hm | hm
            · exact .inl (.inl hm)
            · rw [List.mem_singleton.1 hm]
              exact .inr ⟨t, rest, n, rfl, h⟩
        case isFalse => exact .inl (.inl hm)
      · exact .inl (.inr hd)

/-- **The invariant**: what is on its way to a client, the client knows of. -/
structure Settled (s : Hub) : Prop where
  registered : s.Registered
  waits : ∀ c msg, s.Waits c msg → (s.conns c).Knows msg.channel
  inside : ∀ c, Along Inside (s.conns c).out

namespace Settled

theorem start (db : DB) : (Hub.start db).Settled where
  registered := .start db
  waits c msg h := by
    rcases h with h | h
    · exact absurd h List.not_mem_nil
    · cases h
  inside _ := along_nil

theorem step (hs : s.Settled) (h : Step primaryAddr aof s l s') (hl : s.Timely l) :
    s'.Settled := by
  refine ⟨hs.registered.step h, fun c msg hw => ?_, fun c => ?_⟩
  · rcases h.waits hs.registered hw with hold | ⟨t, rest, n, rfl, hp⟩
    · refine (h.moves c).knows (hs.waits c msg hold) fun ho rest => ?_
      rw [Label.act?_eq_some ho] at hl
      exact hl msg rest hold
    · -- whom a message is sent to is registered on the channel
      have hmem := hs.registered.reading t _ hp c List.mem_cons_self
      have hknows := (hs.registered.conns c).knows (hs.registered.held_of_mem hmem)
      exact (h.moves c).knows hknows fun ho => by cases ho
  · rcases (h.moves c).out with hout | ⟨hb, ⟨f, next, -, hf, -, hout⟩ | ⟨msg, ho, hmsg, hout⟩ |
      ⟨w, frame, hout⟩⟩ <;> rw [hout]
    · exact hs.inside c
    · refine along_concat.2 ⟨hs.inside c, fun msg hmsg => ?_⟩
      subst hmsg
      unfold Conn.pending at hf
      split at hf <;> cases hf
    · refine along_concat.2 ⟨hs.inside c, fun msg' hmsg' => ?_⟩
      cases hmsg'
      rw [Label.act?_eq_some ho] at hl
      rcases hs.waits c msg (.inr hmsg) hb with hmem | ⟨rest, hloop⟩
      · exact hmem
      · exact absurd hloop (hl msg rest hmsg)
    · exact along_concat.2 ⟨hs.inside c, fun msg hmsg => by cases hmsg⟩

end Settled

end Hub

/-! ### The results -/

/-- **Messages stay inside the subscription.**  In every run in which `deliver` writes no message of
a channel that is registered and still to be acknowledged, and leaving a channel is acknowledged
only when no message of it is on its way, every message a client is sent comes after an
acknowledgement that it is subscribed to the channel, and before the next that it is not. -/
theorem messages_inside (primaryAddr : Bytes) (aof : Bool) (db : DB) (labels : List Hub.Label)
    (s : Hub)
    (hrun : Run (fun s l s' => Hub.Step primaryAddr aof s l s' ∧ s.Timely l) (Hub.start db)
      labels s) (c : Nat) : Along Inside (s.conns c).out := by
  have hs : s.Settled := hrun.preserves (G := fun _ => True)
    (fun _ _ _ _ h hs => hs.step h.1 h.2) (fun _ _ => trivial) (.start db)
  exact hs.inside c

/-- A client is told of its subscription to `a`, and then gets a message. -/
def inTime : List Hub.Label :=
  [.conn 0 .accept, .conn 0 (.read subscribeA), .conn 0 .enter, .register 0, .conn 0 .write,
    .conn 1 .accept, .conn 1 (.read publishA), .publish 1, .send (some 1), .receive 0,
    .conn 0 .push]

/-- A message between the two acknowledgements. -/
theorem messages_inside_inTime :
    ∃ s, Run (fun s l s' => Hub.Step [] false s l s' ∧ s.Timely l) (Hub.start DB.new) inTime s ∧
      (s.conns 0).out = [.subscribed (txt "a") 1, .message ⟨txt "a", txt "m"⟩] ∧
      Along Inside (s.conns 0).out := by
  have hrun : Run (fun s l s' => Hub.Step [] false s l s' ∧ s.Timely l) (Hub.start DB.new) inTime
      _ :=
    .cons ⟨.conn (.accept rfl), trivial⟩ (.cons ⟨.conn read_subscribeA, trivial⟩
      (.cons ⟨.conn (.enter rfl (Finset.notMem_empty _)), trivial⟩
        (.cons ⟨.register rfl fun _ => rfl, trivial⟩
          (.cons ⟨.conn (.write rfl rfl), fun _ _ _ h => by cases h⟩
            (.cons ⟨.conn (.accept rfl), trivial⟩ (.cons ⟨.conn read_publishA, trivial⟩
              (.cons ⟨.publish rfl publishes_publishA, trivial⟩ (.cons ⟨.send rfl, trivial⟩
                (.cons ⟨.receive rfl rfl, trivial⟩
                  (.cons ⟨.conn (.push rfl rfl), fun _ _ _ h => by cases h⟩ (.nil _)))))))))))
  exact ⟨_, hrun, rfl, messages_inside [] false DB.new inTime _ hrun 0⟩

/-- `UNSUBSCRIBE a` -/
def unsubscribeA : Value := bulkCmd [txt "UNSUBSCRIBE", txt "a"]

/-- A connection that has subscribed to `a`. -/
def subscribedA : Conn :=
  { joiningA with
    loop := .reading
    channels := insert (txt "a") ∅
    out := [.subscribed (txt "a") (insert (txt "a") ∅ : Finset Bytes).card] }

theorem read_unsubscribeA :
    Conn.Step [] subscribedA (.read unsubscribeA)
      { subscribedA with loop := .unsubscribing [txt "a"] } := by
  have hroute : route [] true unsubscribeA = .unsubscribe := by decide +kernel
  have hserve : Conn.serve [] [txt "a"] unsubscribeA subscribedA =
      { subscribedA with loop := .unsubscribing [txt "a"] } := by
    unfold Conn.serve
    rw [show subscribedA.subscribed = true from rfl, hroute]
    rfl
  rw [← hserve]
  exact .read rfl ⟨List.nodup_singleton _, by simp [subscribedA]⟩

/-- A message for `a` overtakes the acknowledgement. -/
def overtaking : List Hub.Label :=
  [.conn 0 .accept, .conn 0 (.read subscribeA), .conn 0 .enter, .register 0, .conn 1 .accept,
    .conn 1 (.read publishA), .publish 1, .send (some 1), .receive 0, .conn 0 .push]

/-- A message for `a` is left in the mailbox when `a` is. -/
def lagging : List Hub.Label :=
  [.conn 0 .accept, .conn 0 (.read subscribeA), .conn 0 .enter, .register 0, .conn 0 .write,
    .conn 0 .done, .conn 1 .accept, .conn 1 (.read publishA), .publish 1, .send (some 1),
    .published 1, .conn 0 (.read unsubscribeA), .conn 0 .delete, .unregister 0, .conn 0 .write,
    .conn 0 .done, .receive 0, .conn 0 .push]

/-- The `Publish` of such a run is over. -/
theorem published_a (t : Option Nat) : Function.update (Function.update (Function.update
    (fun _ => none) (some 1) (some (⟨⟨txt "a", txt "m"⟩, [0], 0⟩ : Publishing))) (some 1)
    (some ⟨⟨txt "a", txt "m"⟩, [], 1⟩)) (some 1) none t = none := by
  rw [Function.update_idem, Function.update_idem, Function.update_apply]
  exact ite_self _

/-- A client is sent a message before it is told of its subscription; and another, which has been
told that it has left its only channel, is sent one after that. -/
theorem messages_stray :
    (∃ s, Run (Hub.Step [] false) (Hub.start DB.new) overtaking s ∧
      (s.conns 0).out = [.message ⟨txt "a", txt "m"⟩]) ∧
    ∃ s, Run (Hub.Step [] false) (Hub.start DB.new) lagging s ∧
      (s.conns 0).channels = ∅ ∧ (s.conns 0).out = [.subscribed (txt "a") 1,
        .unsubscribed (some (txt "a")) 0, .message ⟨txt "a", txt "m"⟩] := by
  constructor
  · exact ⟨_, .cons (.conn (.accept rfl)) (.cons (.conn read_subscribeA)
      (.cons (.conn (.enter rfl (Finset.notMem_empty _))) (.cons (.register rfl fun _ => rfl)
        (.cons (.conn (.accept rfl)) (.cons (.conn read_publishA)
          (.cons (.publish rfl publishes_publishA) (.cons (.send rfl) (.cons (.receive rfl rfl)
            (.cons (.conn (.push rfl rfl)) (.nil _)))))))))), rfl⟩
  · exact ⟨_, .cons (.conn (.accept rfl)) (.cons (.conn read_subscribeA)
      (.cons (.conn (.enter rfl (Finset.notMem_empty _))) (.cons (.register rfl fun _ => rfl)
        (.cons (.conn (.write rfl rfl)) (.cons (.conn (.done (.inl rfl)))
          (.cons (.conn (.accept rfl)) (.cons (.conn read_publishA)
            (.cons (.publish rfl publishes_publishA) (.cons (.send rfl) (.cons (.published rfl rfl)
              (.cons (.conn read_unsubscribeA)
                (.cons (.conn (.delete rfl (Finset.mem_insert_self _ _)))
                  (.cons (.unregister rfl published_a) (.cons (.conn (.write rfl rfl))
                    (.cons (.conn (.done (.inr rfl))) (.cons (.receive rfl rfl)
                      (.cons (.conn (.push rfl rfl)) (.nil _)))))))))))))))))),
      rfl, rfl⟩

end MiniRedis.Server
