import MiniRedis.Server.Provenance

/-!
# Server — Feeds

Which writes go into the feeds of a connection and out on its socket.

* `one_feed`: **a connection has one feed at most, gets every write once at most, and takes its feed
  with it when it leaves**, if `REPLICAOF` is served only on connections that have no feed yet.
* `feed_leaks`: a connection that sends `REPLICAOF` twice.
-/

namespace MiniRedis.Server

open Protocol Store Cmd Maps Machine Replication

variable {primaryAddr : Bytes} {aof : Bool}

namespace Hub

/-- The writes that went into the feeds of a connection. -/
def enqueued (s : Hub) (c : Nat) : List Nat :=
  ((List.range s.primary.replicas.next).filter (s.owner · = c)).flatMap fun id =>
    (s.queued id).reduceOption

/-- Two feeds of one connection are one. -/
theorem Owned.inj {s : Hub} (hs : s.Owned) {id id' : Nat} (hid : s.Made id) (hid' : s.Made id')
    (h : s.owner id = s.owner id') : id = id' := by
  have hr := (hs.owner (s.owner id) id).2 ⟨hid, rfl⟩
  have hr' := (hs.owner (s.owner id) id').2 ⟨hid', h.symm⟩
  exact Option.some.inj (hr.symm.trans hr')

/-- A write is put into the feeds of a connection once. -/
theorem nodup_enqueued {s : Hub} (hs : s.Owned) (ht : s.Ticketed) (c : Nat) :
    (s.enqueued c).Nodup := by
  refine List.nodup_flatMap.2 ⟨fun id _ => ht.nodup id, ?_⟩
  refine (List.nodup_range.filter _).imp_of_mem fun {id id'} hid hid' hne => ?_
  simp only [List.mem_filter, List.mem_range, decide_eq_true_eq] at hid hid'
  exact absurd (hs.inj hid.1 hid'.1 (hid.2.trans hid'.2.symm)) hne

/-- A write is sent to a connection once. -/
theorem nodup_written {s : Hub} (hs : s.Shipped) (ht : s.Ticketed) (c : Nat) :
    (s.conns c).written.Nodup := by
  cases hr : (s.conns c).replica with
  | none =>
      rw [hs.nothing c hr]
      exact List.nodup_nil
  | some i =>
      have htaken : ((s.queued i).take (s.taken i)).reduceOption.Sublist
          (s.queued i).reduceOption := (List.take_sublist _ _).filterMap id
      exact (ht.nodup i).sublist
        ((List.sublist_append_left _ _).trans ((hs.written c i hr).trans htaken))

/-- What a run in which `REPLICAOF` is not repeated preserves. -/
structure Fed (s : Hub) : Prop where
  owned : s.Owned
  ticketed : s.Ticketed
  shipped : s.Shipped
  sourced : s.Sourced

namespace Fed

theorem start (db : DB) : (Hub.start db).Fed := ⟨.start db, .start db, .start db, .start db⟩

theorem step {s s' : Hub} {l : Label} (hs : s.Fed) (h : Step primaryAddr aof s l s')
    (hl : s.Fresh primaryAddr l) : s'.Fed :=
  ⟨hs.owned.step h hl, hs.ticketed.step h, hs.shipped.step hs.owned h,
    hs.sourced.step hs.owned hs.ticketed hs.shipped h⟩

end Fed

end Hub

/-! ### The results -/

/-- **One feed per replica connection.**  In any run in which `REPLICAOF` is served only on
connections that have no feed yet, in every state reached: no two registered feeds are of one
connection; no write is in the feeds of a connection, or on its socket, twice; a frame on a socket
has the number of the write it was put into a feed of this connection for; a feed whose connection
has been torn down is not registered and has been closed once; and `Any` holds only while a
connection with a feed is open. -/
theorem one_feed (primaryAddr : Bytes) (aof : Bool) (db : DB) (labels : List Hub.Label) (s : Hub)
    (hrun : Run (fun s l s' => Hub.Step primaryAddr aof s l s' ∧ s.Fresh primaryAddr l)
      (Hub.start db) labels s) :
    (∀ id id', (s.primary.replicas.reps id).isSome → (s.primary.replicas.reps id').isSome →
        s.owner id = s.owner id' → id = id') ∧
      (∀ c, (s.enqueued c).Nodup ∧ (s.conns c).written.Nodup) ∧
      (∀ c write frame, .feed write frame ∈ (s.conns c).out →
        ∃ id, s.owner id = c ∧ Sent s.primary id write frame) ∧
      (∀ id, s.Made id → (s.conns (s.owner id)).left = true →
        s.primary.replicas.reps id = none ∧ s.closes id = 1) ∧
      (s.primary.replicas.any = true →
        ∃ c id, (s.conns c).replica = some id ∧ (s.conns c).left = false) := by
  have hs : s.Fed := hrun.preserves (G := fun _ => True) (fun _ _ _ _ h hs => hs.step h.1 h.2)
    (fun _ _ => trivial) (.start db)
  obtain ⟨howned, hticketed, hshipped, hsourced⟩ := hs
  refine ⟨fun id id' h h' => ?_, fun c => ?_, hsourced.out, fun id hid hleft => ⟨?_, ?_⟩,
    fun hany => ?_⟩
  · exact howned.inj ((howned.registered id).1 h).1 ((howned.registered id').1 h').1
  · exact ⟨Hub.nodup_enqueued howned hticketed c, Hub.nodup_written hshipped hticketed c⟩
  · rw [← Option.not_isSome_iff_eq_none, howned.registered, hleft]
    simp
  · rw [howned.closes id hid, if_pos hleft]
  · obtain ⟨id, -, hid⟩ := List.any_eq_true.1 hany
    obtain ⟨hmade, hleft⟩ := (howned.registered id).1 hid
    exact ⟨s.owner id, id, (howned.owner _ id).2 ⟨hmade, rfl⟩, hleft⟩

/-- `replicaofCommand` -/
def replicaofCommand : Value := bulkCmd [txt "REPLICAOF"]

theorem read_replicaof {cs : Conn} (h : cs.loop = .reading) (hc : cs.channels = ∅) :
    Conn.Step [] cs (.read replicaofCommand) { cs with loop := .greeting } := by
  have hroute : route [] false replicaofCommand = .replicaof := by decide +kernel
  have hserve : cs.serve [] [] replicaofCommand = { cs with loop := .greeting } := by
    unfold Conn.serve
    rw [Conn.subscribed_eq_false hc, hroute]
  rw [← hserve]
  exact .read h ⟨List.nodup_nil, fun a => by simp [hc]⟩

theorem route_setK : route [] false setK = .apply := by decide +kernel

theorem listsSet_nil : ListsSet [] (∅ : Finset Bytes) := ⟨List.nodup_nil, by simp⟩

/-- A connection becomes a replica, another one writes, and the first one leaves. -/
def replicateOnce : List Hub.Label :=
  [.conn 0 .accept, .conn 0 (.read replicaofCommand), .conn 0 .write, .add 0, .startShipper 0,
    .conn 1 .accept, .conn 1 (.read setK), .check 1, .acquire 1, .dispatch 1 0 .sorted,
    .propagate 1, .take 0, .ship 0, .conn 0 .hangUp, .leave 0]

/-- A replica that gets one write and hangs up. -/
theorem one_feed_replicateOnce :
    ∃ s, Run (fun s l s' => Hub.Step [] false s l s' ∧ s.Fresh [] l) (Hub.start DB.new)
        replicateOnce s ∧ (s.conns 0).written = [0] ∧ (s.conns 0).written.Nodup ∧
      s.primary.replicas.reps 0 = none ∧ s.closes 0 = 1 := by
  have hrun : Run (fun s l s' => Hub.Step [] false s l s' ∧ s.Fresh [] l) (Hub.start DB.new)
      replicateOnce _ :=
    .cons ⟨.conn (.accept rfl), trivial⟩ (.cons ⟨.conn (read_replicaof rfl rfl), fun _ => rfl⟩
      (.cons ⟨.conn (.write rfl rfl), trivial⟩ (.cons ⟨.add rfl .add, trivial⟩
        (.cons ⟨.startShipper rfl rfl, trivial⟩ (.cons ⟨.conn (.accept rfl), trivial⟩
          (.cons ⟨.conn (Conn.read_apply rfl rfl route_setK), fun _ => rfl⟩
            (.cons ⟨.check rfl rfl (.check rfl), trivial⟩
              (.cons ⟨.acquire (.acquire rfl rfl), trivial⟩
                (.cons ⟨.dispatch rfl rfl (.dispatch rfl), trivial⟩
                  (.cons ⟨.propagate rfl (.propagate rfl), trivial⟩
                    (.cons ⟨.take rfl (.deliver rfl rfl), trivial⟩
                      (.cons ⟨.ship rfl rfl, trivial⟩
                        (.cons ⟨.conn (.hangUp rfl), trivial⟩
                          (.cons ⟨.leave rfl listsSet_nil, trivial⟩
                            (.nil _)))))))))))))))
  obtain ⟨-, hnodup, -, hleft, -⟩ := one_feed [] false DB.new replicateOnce _ hrun
  exact ⟨_, hrun, rfl, (hnodup 0).2, hleft 0 Nat.zero_lt_one rfl⟩

/-- A connection becomes a replica twice, another one writes, and the first one leaves. -/
def replicateTwice : List Hub.Label :=
  [.conn 0 .accept, .conn 0 (.read replicaofCommand), .conn 0 .write, .add 0, .startShipper 0,
    .conn 0 (.read replicaofCommand), .conn 0 .write, .add 0, .startShipper 1,
    .conn 1 .accept, .conn 1 (.read setK), .check 1, .acquire 1, .dispatch 1 0 .sorted,
    .propagate 1, .take 0, .ship 0, .take 1, .ship 1, .conn 0 .hangUp, .leave 0, .conn 0 .close]

/-- **A feed leaks.**  After a second `REPLICAOF` every write goes into two feeds and out on the
socket twice; and when the connection is closed the first feed stays registered, unclosed. -/
theorem feed_leaks :
    ∃ s, Run (Hub.Step [] false) (Hub.start DB.new) replicateTwice s ∧
      s.enqueued 0 = [0, 0] ∧ (s.conns 0).written = [0, 0] ∧
      (s.conns 0).loop = .closed ∧ s.Made 0 ∧ s.owner 0 = 0 ∧
      (s.primary.replicas.reps 0).isSome ∧ s.closes 0 = 0 ∧ s.primary.replicas.any = true :=
  ⟨_, .cons (.conn (.accept rfl)) (.cons (.conn (read_replicaof rfl rfl))
    (.cons (.conn (.write rfl rfl)) (.cons (.add rfl .add) (.cons (.startShipper rfl rfl)
      (.cons (.conn (read_replicaof rfl rfl)) (.cons (.conn (.write rfl rfl))
        (.cons (.add rfl .add) (.cons (.startShipper rfl rfl) (.cons (.conn (.accept rfl))
          (.cons (.conn (Conn.read_apply rfl rfl route_setK)) (.cons (.check rfl rfl (.check rfl))
            (.cons (.acquire (.acquire rfl rfl)) (.cons (.dispatch rfl rfl (.dispatch rfl))
              (.cons (.propagate rfl (.propagate rfl)) (.cons (.take rfl (.deliver rfl rfl))
                (.cons (.ship rfl rfl) (.cons (.take rfl (.deliver rfl rfl))
                  (.cons (.ship rfl rfl) (.cons (.conn (.hangUp rfl))
                    (.cons (.leave rfl listsSet_nil) (.cons (.conn (.close rfl))
                      (.nil _)))))))))))))))))))))), rfl, rfl, rfl, Nat.zero_lt_two, rfl, rfl, rfl,
    rfl⟩

end MiniRedis.Server
