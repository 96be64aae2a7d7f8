import MiniRedis.Server.Feeds
import MiniRedis.Server.Messages

/-!
# Server — OneWay

The socket of a replica.  After the `OK` to a `REPLICAOF` the request loop goes on as before, next
to the goroutine that writes the frames of the feed: only `REPLCONF` looks whether the connection
has a feed.

* `one_way`: **after the `OK` nothing goes out but what `Propagate` has put into the feed**, if the
  connection sends nothing but `REPLCONF` from then on and no message was on its way to it.
* `stream_disturbed`: a replica that sends `PING`, and one that a message is on its way to.
-/

namespace MiniRedis.Server

open Protocol Store Cmd Maps Machine Replication

variable {primaryAddr : Bytes} {aof : Bool}

/-! ### After the handshake -/

/-- A replica gets nothing but frames of its feed. -/
def OnlyFeed (pre : List Frame) (f : Frame) : Prop :=
  .handshake ∈ pre → ∃ write frame, f = .feed write frame

/-- The action is no request of a replica but `REPLCONF`. -/
def Conn.Heeds (primaryAddr : Bytes) (cs : Conn) : Act → Prop
  | .read request => cs.replica.isSome → route primaryAddr cs.subscribed request = .replconf
  | .malformed _ => cs.replica = none
  | _ => True

/-- A connection that has been told `OK`. -/
def Conn.Feeding (cs : Conn) : Prop :=
  match cs.loop with
  | .adding => True
  | .reading | .leaving | .draining _ | .closing | .closed => cs.replica.isSome
  | _ => False

namespace Conn

/-- A connection that has become a feed replies to nothing. -/
theorem Feeding.pending {cs : Conn} (h : cs.Feeding) : cs.pending = none := by
  unfold Conn.pending
  split <;> simp_all [Feeding]

/-- **A connection that has been told `OK` stays as it is until it leaves.** -/
theorem Move.feeding {cs cs' : Conn} {o : Option Act} (h : cs.Move primaryAddr o cs')
    (hf : cs.Feeding) (ho : ∀ a, o = some a → cs.Heeds primaryAddr a) : cs'.Feeding := by
  cases h with
  | act h =>
      have ha := ho _ rfl
      cases h with
      | @read all request h hall =>
          have hr : cs.replica.isSome := by simpa [Feeding, h] using hf
          have hserve : cs.serve primaryAddr all request = cs := by
            unfold serve
            rw [ha hr]
            exact if_pos hr
          rw [hserve]
          exact hf
      | malformed h => simp [Feeding, h, show cs.replica = none from ha] at hf
      | write h | writeFails h => cases hf.pending.symm.trans h
      | push | pushFails => exact hf
      | hangUp h | closeMailbox h | close h => simpa [Feeding, h] using hf
      | accept h | already h | missing h | enter h | delete h => simp [Feeding, h] at hf
      | done h => rcases h with h | h <;> simp [Feeding, h] at hf
  | register h | unregister h => simp [Feeding, h] at hf
  | drain h => simpa [Feeding, h] using hf
  | same | receive | finish | ship | shipFails => exact hf
  | add id h => exact rfl
  | leave h hall =>
      have hr : cs.replica.isSome := by simpa [Feeding, h] using hf
      unfold Conn.drain
      split <;> exact hr
  | serving loop h =>
      unfold Feeding at hf
      split at hf <;> simp_all [Loop.Serving]

/-- The set of channels changes in `subscribe` and `unsubscribe` only. -/
theorem Move.channels {cs cs' : Conn} {o : Option Act} (h : cs.Move primaryAddr o cs') :
    cs'.channels = cs.channels ∨
      ∃ rest, cs.loop = .subscribing rest ∨ cs.loop = .unsubscribing rest := by
  cases h with
  | act h =>
      cases h with
      | @read all request h hall =>
          have hserved := cs.serve_served primaryAddr all request
          generalize cs.serve primaryAddr all request = cs' at hserved ⊢
          cases hserved <;> exact .inl rfl
      | enter h => exact .inr ⟨_, .inl h⟩
      | delete h => exact .inr ⟨_, .inr h⟩
      | _ => exact .inl rfl
  | _ => exact .inl rfl

/-- A connection gets into `replicaof` by a request. -/
theorem Move.greeting {cs cs' : Conn} {o : Option Act} (h : cs.Move primaryAddr o cs')
    (hg : cs'.loop = .greeting) : cs.loop = .greeting ∨ cs.loop = .reading ∧
      ∃ request, o = some (.read request) ∧
        route primaryAddr cs.subscribed request = .replicaof := by
  cases h with
  | act h =>
      cases h with
      | @read all request h hall =>
          have hserved := cs.serve_served primaryAddr all request
          generalize cs.serve primaryAddr all request = cs' at hserved hg
          cases hserved with
          | stay => exact .inl hg
          | greet hr => exact .inr ⟨h, request, rfl, hr⟩
          | _ => cases hg
      | write h =>
          unfold Conn.pending at h
          split at h <;> cases h <;> cases hg
      | push | pushFails => exact .inl hg
      | _ => cases hg
  | same | receive | finish | ship | shipFails => exact .inl hg
  | leave =>
      unfold Conn.drain at hg
      split at hg <;> cases hg
  | serving loop h hl =>
      rcases hl with hl | ⟨v, rfl⟩
      · subst hg
        exact hl.elim
      · cases hg
  | _ => cases hg

/-- `REPLICAOF` is not among the commands of subscribe mode. -/
theorem channels_of_replicaof {cs : Conn} {request : Value}
    (h : route primaryAddr cs.subscribed request = .replicaof) : cs.channels = ∅ := by
  have hnot : txt "REPLICAOF" ∉ allowedWhileSubscribed := by decide
  have hsub : cs.subscribed = false := by
    by_contra hsub
    rw [Bool.not_eq_false] at hsub
    unfold route at h
    by_cases hname : Strings.toUpper (commandName request) = txt "REPLICAOF"
    · rw [if_pos ⟨hsub, hname ▸ hnot⟩] at h
      cases h
    · simp only [hname, if_false] at h
      split_ifs at h
  simpa [subscribed] using hsub

/-- The `OK` is written in `replicaof`. -/
theorem Move.handshake {cs cs' : Conn} {o : Option Act} (h : cs.Move primaryAddr o cs')
    (hmem : .handshake ∈ cs'.out) :
    .handshake ∈ cs.out ∨ cs.loop = .greeting ∧ cs'.loop = .adding := by
  rcases h.out with hout | ⟨-, ⟨f, next, -, hf, hnext, hout⟩ | ⟨msg, -, -, hout⟩ |
    ⟨w, frame, hout⟩⟩ <;> rw [hout] at hmem
  · exact .inl hmem
  · rcases List.mem_append.1 hmem with hmem | hmem
    · exact .inl hmem
    · rw [← List.mem_singleton.1 hmem] at hf
      unfold Conn.pending at hf
      split at hf <;> cases hf
      exact .inr ⟨‹_›, hnext⟩
  · exact .inl (by simpa using hmem)
  · exact .inl (by simpa using hmem)

/-- The broker has a connection without channels on none, unless it is just leaving one. -/
theorem Sound.held_eq_empty {cs : Conn} (hs : cs.Sound) (hc : cs.channels = ∅)
    (hloop : ∀ channel rest, cs.loop ≠ .unregistering channel rest) : cs.held = ∅ := by
  unfold held
  split
  case h_1 => rw [hc, Finset.erase_empty]
  case h_2 channel rest h => exact absurd h (hloop channel rest)
  case h_3 rest h =>
    refine Finset.eq_empty_of_forall_notMem fun channel hmem => ?_
    have hin := (hs.mailbox.draining rest h).2 channel (List.mem_toFinset.1 hmem)
    exact Finset.notMem_empty channel (hc ▸ hin)
  case h_4 | h_5 => rfl
  case h_6 => exact hc

end Conn

namespace Hub

variable {s s' : Hub} {l : Label}

/-- A connection with a feed sends nothing but `REPLCONF`, and `REPLICAOF` comes from a connection
no message is on its way to. -/
def Mute (primaryAddr : Bytes) (s : Hub) : Label → Prop
  | .conn c a => (s.conns c).Heeds primaryAddr a ∧ ∀ request, a = .read request →
      route primaryAddr (s.conns c).subscribed request = .replicaof → ∀ msg, ¬ s.Waits c msg
  | _ => True

/-- A replica that only acknowledges registers once. -/
theorem Mute.fresh (h : s.Mute primaryAddr l) : s.Fresh primaryAddr l := by
  cases l with
  | conn c a =>
      cases a with
      | read request =>
          intro hr
          by_contra hsome
          have hconf := h.1 (Option.isSome_iff_ne_none.2 hsome)
          cases hr.symm.trans hconf
      | _ => trivial
  | _ => trivial

/-- **Nothing but its feed is on its way to a replica.** -/
structure Quiet (s : Hub) : Prop where
  clean : ∀ c, (s.conns c).loop = .greeting ∨ .handshake ∈ (s.conns c).out →
    (s.conns c).channels = ∅ ∧ ∀ msg, ¬ s.Waits c msg
  feeding : ∀ c, .handshake ∈ (s.conns c).out → (s.conns c).Feeding
  only : ∀ c, Along OnlyFeed (s.conns c).out

namespace Quiet

theorem start (db : DB) : (Hub.start db).Quiet where
  clean c h := by
    rcases h with h | h
    · cases h
    · exact absurd h List.not_mem_nil
  feeding _ h := absurd h List.not_mem_nil
  only _ := along_nil

/-- Nothing is sent to a connection that the broker has on no channel. -/
theorem waits_step (hreg : s.Registered) (h : Step primaryAddr aof s l s') {c : Nat}
    (hc : (s.conns c).held = ∅) (hw : ∀ msg, ¬ s.Waits c msg) (msg : Message) :
    ¬ s'.Waits c msg := by
  intro hw'
  rcases h.waits hreg hw' with hold | ⟨t, rest, n, -, hp⟩
  · exact hw msg hold
  · have hheld := hreg.held_of_mem (hreg.reading t _ hp c List.mem_cons_self)
    rw [hc] at hheld
    cases hheld

theorem step (hs : s.Quiet) (hreg : s.Registered) (h : Step primaryAddr aof s l s')
    (hl : s.Mute primaryAddr l) : s'.Quiet := by
  have hheeds : ∀ c a, l.act? c = some a → (s.conns c).Heeds primaryAddr a := by
    intro c a ha
    rw [Label.act?_eq_some ha] at hl
    exact hl.1
  refine ⟨fun c hc => ?_, fun c hc => ?_, fun c => ?_⟩
  · have hm := h.moves c
    -- the connection is in `replicaof` or past it, or about to enter it
    have hold : (s.conns c).loop = .greeting ∨ .handshake ∈ (s.conns c).out ∨
        (s.conns c).loop = .reading ∧ (s.conns c).channels = ∅ ∧ ∀ msg, ¬ s.Waits c msg := by
      rcases hc with hg | hmem
      · rcases hm.greeting hg with hg | ⟨hloop, request, ho, hr⟩
        · exact .inl hg
        · rw [Label.act?_eq_some ho] at hl
          exact .inr (.inr ⟨hloop, Conn.channels_of_replicaof hr, hl.2 request rfl hr⟩)
      · rcases hm.handshake hmem with hmem | ⟨hg, -⟩
        · exact .inr (.inl hmem)
        · exact .inl hg
    have hclean : (s.conns c).channels = ∅ ∧ ∀ msg, ¬ s.Waits c msg := by
      rcases hold with hg | hmem | ⟨-, hclean⟩
      · exact hs.clean c (.inl hg)
      · exact hs.clean c (.inr hmem)
      · exact hclean
    have hloop : ∀ channel rest, (s.conns c).loop ≠ .unregistering channel rest := by
      intro channel rest hun
      rcases hold with hg | hmem | ⟨hloop, -⟩
      · simp [hg] at hun
      · have hf := hs.feeding c hmem
        simp [Conn.Feeding, hun] at hf
      · simp [hloop] at hun
    refine ⟨?_, waits_step hreg h ((hreg.conns c).held_eq_empty hclean.1 hloop) hclean.2⟩
    rcases hm.channels with hsame | ⟨rest, hrest⟩
    · rw [hsame, hclean.1]
    · rcases hold with hg | hmem | ⟨hloop, -⟩
      · simp [hg] at hrest
      · have hf := hs.feeding c hmem
        rcases hrest with hrest | hrest <;> simp [Conn.Feeding, hrest] at hf
      · simp [hloop] at hrest
  · rcases (h.moves c).handshake hc with hc | ⟨-, hadding⟩
    · exact (h.moves c).feeding (hs.feeding c hc) (hheeds c)
    · unfold Conn.Feeding
      rw [hadding]
      trivial
  · rcases (h.moves c).out with hout | ⟨-, ⟨f, next, -, hf, -, hout⟩ | ⟨msg, -, hmsg, hout⟩ |
      ⟨w, frame, hout⟩⟩ <;> rw [hout]
    · exact hs.only c
    · refine along_concat.2 ⟨hs.only c, fun hpre => ?_⟩
      cases (hs.feeding c hpre).pending.symm.trans hf
    · refine along_concat.2 ⟨hs.only c, fun hpre => ?_⟩
      exact absurd (.inr hmsg) ((hs.clean c (.inr hpre)).2 msg)
    · exact along_concat.2 ⟨hs.only c, fun _ => ⟨w, frame, rfl⟩⟩

end Quiet

/-- What a run in which the replicas keep to `REPLCONF` preserves. -/
structure Piped (s : Hub) : Prop where
  registered : s.Registered
  fed : s.Fed
  quiet : s.Quiet

namespace Piped

theorem start (db : DB) : (Hub.start db).Piped := ⟨.start db, .start db, .start db⟩

theorem step (hs : s.Piped) (h : Step primaryAddr aof s l s') (hl : s.Mute primaryAddr l) :
    s'.Piped :=
  ⟨hs.registered.step h, hs.fed.step h hl.fresh, hs.quiet.step hs.registered h hl⟩

end Piped

end Hub

/-! ### The results -/

/-- **A replica connection is a one-way feed.**  In any run in which a connection with a feed sends
nothing but `REPLCONF`, and `REPLICAOF` comes from a connection no message is on its way to: every
frame that goes out on a connection after the `OK` to its `REPLICAOF` is one that `Propagate` has
put into a feed of this connection. -/
theorem one_way (primaryAddr : Bytes) (aof : Bool) (db : DB) (labels : List Hub.Label) (s : Hub)
    (hrun : Run (fun s l s' => Hub.Step primaryAddr aof s l s' ∧ s.Mute primaryAddr l)
      (Hub.start db) labels s) (c : Nat) :
    Along (fun pre f => .handshake ∈ pre → ∃ write frame id, f = .feed write frame ∧
      s.owner id = c ∧ Sent s.primary id write frame) (s.conns c).out := by
  have hs : s.Piped := hrun.preserves (G := fun _ => True) (fun _ _ _ _ h hs => hs.step h.1 h.2)
    (fun _ _ => trivial) (.start db)
  intro pre f post hout hpre
  obtain ⟨write, frame, rfl⟩ := hs.quiet.only c pre f post hout hpre
  obtain ⟨id, hc, hsent⟩ := hs.fed.sourced.out c write frame (by rw [hout]; simp)
  exact ⟨write, frame, id, rfl, hc, hsent⟩

/-- `replconfAck` -/
def replconfAck : Value := bulkCmd [txt "REPLCONF", txt "ACK", txt "0"]

theorem route_replconfAck {cs : Conn} (hc : cs.channels = ∅) :
    route [] cs.subscribed replconfAck = .replconf := by
  rw [Conn.subscribed_eq_false hc]
  decide +kernel

/-- An acknowledgement is read and not replied to. -/
theorem read_replconfAck {cs : Conn} (h : cs.loop = .reading) (hc : cs.channels = ∅)
    (hr : cs.replica.isSome) : Conn.Step [] cs (.read replconfAck) cs := by
  have hserve : cs.serve [] [] replconfAck = cs := by
    unfold Conn.serve
    rw [route_replconfAck hc]
    exact if_pos hr
  have hstep : Conn.Step [] cs (.read replconfAck) (cs.serve [] [] replconfAck) :=
    .read h ⟨List.nodup_nil, fun a => by simp [hc]⟩
  rwa [hserve] at hstep

theorem mute_replconfAck {s : Hub} {c : Nat} (hc : (s.conns c).channels = ∅) :
    s.Mute [] (.conn c (.read replconfAck)) := by
  refine ⟨fun _ => route_replconfAck hc, fun request h hr => ?_⟩
  cases h
  cases (route_replconfAck hc).symm.trans hr

/-- A replica gets a heartbeat and acknowledges it. -/
def heartbeatAndAck : List Hub.Label :=
  [.conn 0 .accept, .conn 0 (.read replicaofCommand), .conn 0 .write, .add 0, .startShipper 0,
    .heartbeat, .take 0, .ship 0, .conn 0 (.read replconfAck)]

/-- A replica that gets a heartbeat and acknowledges. -/
theorem one_way_heartbeatAndAck :
    ∃ s, Run (fun s l s' => Hub.Step [] false s l s' ∧ s.Mute [] l) (Hub.start DB.new)
        heartbeatAndAck s ∧
      (s.conns 0).out = [.handshake, .feed none (encode pingCommand)] ∧
      Along (fun pre f => .handshake ∈ pre → ∃ write frame id, f = .feed write frame ∧
        s.owner id = 0 ∧ Sent s.primary id write frame) (s.conns 0).out := by
  have hrun : Run (fun s l s' => Hub.Step [] false s l s' ∧ s.Mute [] l) (Hub.start DB.new)
      heartbeatAndAck _ :=
    .cons ⟨.conn (.accept rfl), trivial, fun _ h => by cases h⟩
      (.cons ⟨.conn (read_replicaof rfl rfl), fun h => (by cases h), fun _ _ _ msg hw => by
          rcases hw with hw | hw
          · exact absurd hw List.not_mem_nil
          · cases hw⟩
        (.cons ⟨.conn (.write rfl rfl), trivial, fun _ h => by cases h⟩
          (.cons ⟨.add rfl .add, trivial⟩ (.cons ⟨.startShipper rfl rfl, trivial⟩
            (.cons ⟨.heartbeat .heartbeat, trivial⟩
              (.cons ⟨.take rfl (.deliver rfl rfl), trivial⟩ (.cons ⟨.ship rfl rfl, trivial⟩
                (.cons ⟨.conn (read_replconfAck rfl rfl rfl), mute_replconfAck rfl⟩
                  (.nil _)))))))))
  exact ⟨_, hrun, rfl, one_way [] false DB.new heartbeatAndAck _ hrun 0⟩

theorem route_pingCommand : route [] false pingCommand = .apply := by decide +kernel

/-- A replica sends `PING`. -/
def pingOnFeed : List Hub.Label :=
  [.conn 0 .accept, .conn 0 (.read replicaofCommand), .conn 0 .write, .add 0,
    .conn 0 (.read pingCommand), .check 0, .fast 0 0 .sorted, .conn 0 .write]

/-- A message for `a` is left in the mailbox of a connection that becomes a replica. -/
def messageOnFeed : List Hub.Label :=
  [.conn 0 .accept, .conn 0 (.read subscribeA), .conn 0 .enter, .register 0, .conn 0 .write,
    .conn 0 .done, .conn 1 .accept, .conn 1 (.read publishA), .publish 1, .send (some 1),
    .published 1, .conn 0 (.read unsubscribeA), .conn 0 .delete, .unregister 0, .conn 0 .write,
    .conn 0 .done, .conn 0 (.read replicaofCommand), .conn 0 .write, .add 0, .receive 0,
    .conn 0 .push]

/-- **Replies and messages get into the stream.**  A replica that sends `PING` is answered after the
`OK`, and a message that was on its way when the connection became a replica goes out after it. -/
theorem stream_disturbed :
    (∃ s, Run (Hub.Step [] false) (Hub.start DB.new) pingOnFeed s ∧
      (s.conns 0).replica = some 0 ∧
      (s.conns 0).out = [.handshake, .reply (.simpleString (txt "PONG"))]) ∧
    ∃ s, Run (Hub.Step [] false) (Hub.start DB.new) messageOnFeed s ∧
      (s.conns 0).replica = some 0 ∧
      (s.conns 0).out = [.subscribed (txt "a") 1, .unsubscribed (some (txt "a")) 0, .handshake,
        .message ⟨txt "a", txt "m"⟩] := by
  constructor
  · exact ⟨_, .cons (.conn (.accept rfl)) (.cons (.conn (read_replicaof rfl rfl))
      (.cons (.conn (.write rfl rfl)) (.cons (.add rfl .add)
        (.cons (.conn (Conn.read_apply rfl rfl route_pingCommand))
          (.cons (.check rfl rfl (.check rfl)) (.cons (.fast rfl rfl (.fast rfl))
            (.cons (.conn (.write rfl rfl)) (.nil _)))))))), rfl, rfl⟩
  · exact ⟨_, .cons (.conn (.accept rfl)) (.cons (.conn read_subscribeA)
      (.cons (.conn (.enter rfl (Finset.notMem_empty _))) (.cons (.register rfl fun _ => rfl)
        (.cons (.conn (.write rfl rfl)) (.cons (.conn (.done (.inl rfl)))
          (.cons (.conn (.accept rfl)) (.cons (.conn read_publishA)
            (.cons (.publish rfl publishes_publishA) (.cons (.send rfl) (.cons (.published rfl rfl)
              (.cons (.conn read_unsubscribeA)
                (.cons (.conn (.delete rfl (Finset.mem_insert_self _ _)))
                  (.cons (.unregister rfl published_a) (.cons (.conn (.write rfl rfl))
                    (.cons (.conn (.done (.inr rfl))) (.cons (.conn (read_replicaof rfl rfl))
                      (.cons (.conn (.write rfl rfl)) (.cons (.add rfl .add)
                        (.cons (.receive rfl rfl)
                          (.cons (.conn (.push rfl rfl)) (.nil _))))))))))))))))))))),
      rfl, rfl⟩

end MiniRedis.Server
