import MiniRedis.Reference.Lifecycle
import MiniRedis.Replication.Stream

/-!
# Replication — Reconnect

A replica over many sessions: `RunReplica` dials again, a second after the stream has dropped, and
keeps its store.  A session ends when its connection is cut at either end.  The primary may then
still write what is queued, for it closes the queue before the connection, and of all that has been
written a part may still arrive; the feed itself is removed at some later time.

After a cut the replica reads on as if nothing had happened, so what is known of the session is
known of it as it was at the cut, with everything queued delivered (`Follower.Sound`).

The primary has a log: without one a write may pass by a feed that is being registered.

* `reconnect_order`: **over all its sessions together the replica dispatches writes that the primary
  has put on the stream, each at most once and in the order in which the primary applied them.**
* `drift_confined`: **a replica drifts only on the keys of the writes it has missed**: if there are
  no deadlines at the start, none is set, and it has dispatched as many writes of a key as the
  primary has applied, the two agree on the key.
-/

namespace MiniRedis.Replication

open Protocol Store Cmd Machine

/-! ### What has been propagated -/

namespace Primary

variable {s s' : Primary}

/-- The requests of the history. -/
abbrev requests (s : Primary) : List Value := s.history.map Write.request

/-- The number of writes that are not in flight any more. -/
def settled (s : Primary) : Nat := s.history.length - s.inflight.toList.length

/-- What has been propagated has been applied. -/
theorem settled_le (s : Primary) : s.settled ≤ s.history.length := Nat.sub_le _ _

/-- The history grows at its end, and a write that is propagated stays so. -/
theorem Changes.grows (h : Changes s s') :
    s.requests <+: s'.requests ∧ s.settled ≤ s'.settled := by
  cases h with
  | quiet hh hin =>
      refine ⟨by rw [requests, requests, hh], ?_⟩
      rcases hin with hin | hin
      · simp only [settled, hh, hin, le_refl]
      · simp only [settled, hh, hin]
        exact Nat.sub_le _ _
  | write r now order hh hin =>
      refine ⟨by rw [requests, requests, hh, List.map_append]; exact List.prefix_append _ _, ?_⟩
      simp only [settled, hh, hin, Option.toList_some, List.length_append, List.length_singleton,
        Nat.add_sub_cancel]
      exact Nat.sub_le _ _

/-- What has not been propagated is the end of the history. -/
theorem Logged.take_settled {Q : Value → Prop} (hs : s.Logged Q) :
    s.requests.take s.settled ++ s.inflight.toList = s.requests := by
  have hlen : s.settled = s.requests.length - s.inflight.toList.length := by
    simp [settled]
  rw [hlen]
  exact List.suffix_iff_eq_append.1 hs.last

/-- A feed begins with a write that was not propagated before. -/
theorem Logged.first_le {Q : Value → Prop} (hs : s.Logged Q) {i : Nat} {rep : Replica}
    (hrep : s.replicas.reps i = some rep) : (s.feeds i).first ≤ s.settled := by
  have hlen := congrArg List.length (hs.contiguous hrep)
  have hsince : (s.feeds i).first ≤ s.history.length :=
    (Nat.sub_le _ _).trans (hs.sound.feeds i rep hrep).since_le
  simp only [List.length_append, List.length_map, List.length_drop] at hlen
  unfold settled
  omega

/-- **The writes a feed has been offered are those propagated from its first one on.** -/
theorem Logged.writes_eq {Q : Value → Prop} (hs : s.Logged Q) {i : Nat} {rep : Replica}
    (hrep : s.replicas.reps i = some rep) :
    (s.feeds i).writes = (s.requests.take s.settled).drop (s.feeds i).first := by
  have hle : (s.feeds i).first ≤ (s.requests.take s.settled).length := by
    rw [List.length_take, List.length_map, min_eq_left s.settled_le]
    exact hs.first_le hrep
  have hcat : (s.feeds i).writes ++ s.inflight.toList =
      (s.requests.take s.settled).drop (s.feeds i).first ++ s.inflight.toList := by
    rw [hs.contiguous hrep, List.map_drop, ← List.drop_append_of_le_length hle, hs.take_settled]
  exact List.append_cancel_right hcat

/-- A feed begins where it began. -/
theorem first_step {aof : Bool} {l : Label} (h : Step aof s l s') {i : Nat} {rep rep' : Replica}
    (hrep : s.replicas.reps i = some rep) (hrep' : s'.replicas.reps i = some rep') :
    (s'.feeds i).first = (s.feeds i).first := by
  rcases FeedStep.of_step h hrep' with ⟨-, hi, -⟩ | ⟨-, -, hf⟩
  · rw [hi, s.replicas.unused _ le_rfl] at hrep
    cases hrep
  · rw [Feed.first, Feed.first, hf.fixed.1, hf.fixed.2]

end Primary

/-! ### One session behind others -/

/-- A session of a replica that has dispatched `earlier` in those before it: all of these come
before the first write that is propagated to its feed. -/
structure System.Continues (Q : Value → Prop) (earlier : List Value) (s : System) : Prop where
  sound : s.Sound Q
  earlier : ∃ n ≤ s.primary.settled, earlier.Sublist (s.primary.requests.take n) ∧
    ∀ i, s.link.id = some i → n ≤ (s.primary.feeds i).first

namespace System

variable {Q : Value → Prop} {earlier : List Value} {s s' : System}

/-- What a session has dispatched is what it has been sent, but for the heartbeats. -/
theorem Sound.dispatched_sublist (hs : s.Sound Q) {i : Nat} (hid : s.link.id = some i) :
    s.link.dispatched.Sublist
      ((s.primary.requests.take s.primary.settled).drop (s.primary.feeds i).first) := by
  obtain ⟨rep, hrep⟩ := hs.registered i hid
  obtain ⟨consumed, coming, hsent, -, hdisp, -⟩ := hs.stream
  rw [← hs.logged.writes_eq hrep, hdisp]
  refine List.Sublist.trans ?_ (s.primary.feeds i).accepted_sublist
  rw [Sound.accepted_eq hid hsent, List.filter_append]
  exact List.sublist_append_left _ _

/-- Nothing is dispatched before the replica is registered. -/
theorem Sound.dispatched_nil (hs : s.Sound Q) (hid : s.link.id = none) :
    s.link.dispatched = [] := by
  obtain ⟨consumed, coming, hsent, -, hdisp, -⟩ := hs.stream
  rw [hid, sent, eq_comm, List.append_eq_nil_iff] at hsent
  rw [hdisp, hsent.1]
  rfl

namespace Continues

/-- **What all the sessions have dispatched are writes that have been propagated, in order.** -/
theorem sublist (hs : s.Continues Q earlier) :
    (earlier ++ s.link.dispatched).Sublist (s.primary.requests.take s.primary.settled) := by
  obtain ⟨n, hn, hsub, hfirst⟩ := hs.earlier
  cases hid : s.link.id with
  | none =>
      rw [hs.sound.dispatched_nil hid, List.append_nil]
      exact hsub.trans (List.take_prefix_take_left hn).sublist
  | some i =>
      obtain ⟨rep, hrep⟩ := hs.sound.registered i hid
      rw [← List.take_append_drop (s.primary.feeds i).first
        (s.primary.requests.take s.primary.settled), List.take_take,
        min_eq_left (hs.sound.logged.first_le hrep)]
      exact (hsub.trans (List.take_prefix_take_left (hfirst i hid)).sublist).append
        (hs.sound.dispatched_sublist hid)

/-- The bound stands while the primary goes on with the feed registered. -/
theorem earlier_step {p : Primary} {l : Label} (hs : s.Continues Q earlier)
    (h : Step true s.primary l p)
    (hreg : ∀ i, s.link.id = some i → ∃ rep, p.replicas.reps i = some rep) :
    ∃ n ≤ p.settled, earlier.Sublist (p.requests.take n) ∧
      ∀ i, s.link.id = some i → n ≤ (p.feeds i).first := by
  obtain ⟨n, hn, hsub, hfirst⟩ := hs.earlier
  have hlogged := hs.sound.logged
  obtain ⟨hgrow, hset⟩ := (Primary.Changes.of_step h hlogged.sound hlogged.reads).grows
  refine ⟨n, hn.trans hset, ?_, fun i hi => ?_⟩
  · obtain ⟨more, hmore⟩ := hgrow
    have hle : n ≤ s.primary.requests.length := by
      rw [List.length_map]
      exact hn.trans s.primary.settled_le
    rw [← hmore, List.take_append_of_le_length hle]
    exact hsub
  · obtain ⟨rep, hrep⟩ := hs.sound.registered i hi
    obtain ⟨rep', hrep'⟩ := hreg i hi
    rw [Primary.first_step h hrep hrep']
    exact hfirst i hi

/-- **One step of a session keeps it behind those before it.** -/
theorem step (hQ : ∀ r, Q r → Decoded r) {l : StreamLabel} (h : StreamStep s l s')
    (hl : ∀ r, l.request? = some r → Q r) (hs : s.Continues Q earlier) :
    s'.Continues Q earlier := by
  have hsound := hs.sound.step hQ h hl
  refine ⟨hsound, ?_⟩
  cases h with
  | primary h hid => exact hs.earlier_step h hsound.registered
  | deliver hid h => exact hs.earlier_step h hsound.registered
  | register hg hid h =>
      obtain ⟨n, hn, hsub, -⟩ := hs.earlier
      obtain ⟨-, hfeed⟩ := Primary.add_step h
      cases h
      refine ⟨n, hn, hsub, fun i hi => ?_⟩
      cases hi
      rw [hfeed]
      exact hn
  | greet | receive | handshake | stream | refused | broken | read | pass => exact hs.earlier

/-- A new session of the replica. -/
theorem redial {p : Primary} (hp : p.Logged Q) {n : Nat} (hn : n ≤ p.settled)
    (h : earlier.Sublist (p.requests.take n)) (db : DB) :
    System.Continues Q earlier ⟨p, ⟨false, none, [], [], false, true, db, []⟩⟩ where
  sound := ⟨hp, nofun, rfl, nofun, [], [], rfl, rfl, rfl, fun _ => rfl⟩
  earlier := ⟨n, hn, h, nofun⟩

end Continues

end System

/-! ### The sessions of a replica -/

/-- A primary and a replica that dials again.  After a cut the wire holds what will still
arrive. -/
structure Follower where
  system : System
  /-- The connection of the session is gone, or about to be. -/
  cut : Bool
  /-- What the replica has dispatched in the sessions before. -/
  earlier : List Value

/-- A primary and a replica with the given stores, before the first handshake. -/
def Follower.start (db replica : DB) : Follower := ⟨.start db replica, false, []⟩

/-- The frames in the queue of a session. -/
def System.queued (s : System) : List Bytes :=
  match s.link.id with
  | none => []
  | some i => ((s.primary.replicas.reps i).map fun rep => rep.ch.items).getD []

/-- The steps the replica takes by itself. -/
def StreamLabel.atReplica : StreamLabel → Bool
  | .receive _ | .handshake | .stream _ _ | .giveUp | .read _ | .pass _ _ _ => true
  | .primary _ | .greet | .register | .deliver _ => false

/-- A step of the session, the cut of its connection, a step of the primary alone, and a new dial.
-/
inductive FollowerLabel where
  | session (l : StreamLabel)
  | cut
  | primary (l : Label)
  | redial

/-- The request a client of the primary submits with a step. -/
def FollowerLabel.request? : FollowerLabel → Option Value
  | .session l => l.request?
  | .primary l => l.request?
  | _ => none

/-- The sessions of one replica, one after the other, while its primary goes on. -/
inductive FollowerStep : Follower → FollowerLabel → Follower → Prop where
  /-- The session goes on; after a cut, at the replica only. -/
  | session {f l s} (h : StreamStep f.system l s) (hc : f.cut = false ∨ l.atReplica = true) :
      FollowerStep f (.session l) { f with system := s }
  /-- The connection is cut: of what is on the wire and in the queue, some first bytes still
  arrive. -/
  | cut {f kept lost} (hc : f.cut = false)
      (h : f.system.link.wire ++ f.system.queued.flatten = kept ++ lost) :
      FollowerStep f .cut
        { f with
          system := { f.system with link := { f.system.link with wire := kept } }
          cut := true }
  /-- The primary goes on without the replica; the feed may still be there, or be removed. -/
  | primary {f l p} (hc : f.cut = true) (h : Step true f.system.primary l p) :
      FollowerStep f (.primary l) { f with system := { f.system with primary := p } }
  /-- The next turn of the loop in `RunReplica`. -/
  | redial {f} (hc : f.cut = true) :
      FollowerStep f .redial
        { system := ⟨f.system.primary, ⟨false, none, [], [], false, true, f.system.link.db, []⟩⟩
          cut := false
          earlier := f.earlier ++ f.system.link.dispatched }

/-- The session with bytes behind those that will arrive. -/
def Link.followedBy (k : Link) (lost : Bytes) : Link := { k with wire := k.wire ++ lost }

/-- What the replica does by itself it would do with more under way, too. -/
theorem StreamStep.followedBy {s s' : System} {l : StreamLabel} (h : StreamStep s l s')
    (hl : l.atReplica = true) (p : Primary) (lost : Bytes) :
    s'.primary = s.primary ∧
      StreamStep ⟨p, s.link.followedBy lost⟩ l ⟨p, s'.link.followedBy lost⟩ := by
  cases h with
  | primary | greet | register | deliver => cases hl
  | @receive chunk rest h =>
      have hw : (s.link.followedBy lost).wire = chunk ++ (rest ++ lost) := by
        rw [Link.followedBy, h, List.append_assoc]
      exact ⟨rfl, .receive hw⟩
  | handshake hup hs hd => exact ⟨rfl, .handshake hup hs hd⟩
  | stream hup hs hd => exact ⟨rfl, .stream hup hs hd⟩
  | refused hup hs hd hv => exact ⟨rfl, .refused hup hs hd hv⟩
  | broken hup hd he => exact ⟨rfl, .broken hup hd he⟩
  | read h => exact ⟨rfl, .read h⟩
  | pass => exact ⟨rfl, .pass⟩

/-- A session with its queue delivered. -/
theorem System.Continues.drain {Q : Value → Prop} (hQ : ∀ r, Q r → Decoded r)
    {earlier : List Value} {frames : List Bytes} {s : System} (hs : s.Continues Q earlier)
    (hq : s.queued = frames) :
    ∃ p : Primary, System.Continues Q earlier ⟨p, s.link.followedBy frames.flatten⟩ ∧
      p.requests = s.primary.requests ∧ p.settled = s.primary.settled := by
  induction frames generalizing s with
  | nil =>
      refine ⟨s.primary, ?_, rfl, rfl⟩
      simpa [Link.followedBy] using hs
  | cons frame frames ih =>
      cases hid : s.link.id with
      | none => simp [System.queued, hid] at hq
      | some i =>
          obtain ⟨rep, hrep⟩ := hs.sound.registered i hid
          simp only [System.queued, hid, hrep, Option.map_some, Option.getD_some] at hq
          have hroom : frames.length ≤ replicaQueueCap := by
            have hbound := rep.ch.bounded
            rw [hq] at hbound
            exact Nat.le_of_succ_le hbound
          obtain ⟨ch, hch⟩ : ∃ ch, rep.ch.recv = some (frame, ch) :=
            ⟨⟨frames, hroom⟩, Queue.recv_eq_some.2 hq⟩
          have hrest : ch.items = frames :=
            (List.cons.inj ((Queue.recv_eq_some.1 hch).symm.trans hq)).2
          have hnext := hs.step hQ (.deliver hid (.deliver hrep hch)) nofun
          obtain ⟨p, hp, hreq, hset⟩ := ih hnext (by
            simp only [System.queued, hid, Replicas.deliver, if_true, hrep, Option.map_some,
              Option.getD_some, hrest])
          refine ⟨p, ?_, hreq, hset⟩
          simpa [Link.followedBy] using hp

/-! ### The invariant -/

/-- **The invariant.**  The session is behind those before it, with the primary as it was at the
cut, or as it is, and with what was lost at the cut still under way. -/
structure Follower.Sound (Q : Value → Prop) (f : Follower) : Prop where
  logged : f.system.primary.Logged Q
  image : ∃ p lost, System.Continues Q f.earlier ⟨p, f.system.link.followedBy lost⟩ ∧
    p.requests <+: f.system.primary.requests ∧ p.settled ≤ f.system.primary.settled ∧
    (f.cut = false → p = f.system.primary ∧ lost = [])

namespace Follower.Sound

variable {Q : Value → Prop} {f f' : Follower}

theorem start (Q : Value → Prop) (db replica : DB) : (Follower.start db replica).Sound Q where
  logged := .start Q db
  image := ⟨.start db, [], .redial (.start Q db) (Nat.zero_le _) (List.nil_sublist _) replica,
    List.prefix_rfl, le_rfl, fun _ => ⟨rfl, rfl⟩⟩

/-- Before a cut the session is what it seems. -/
theorem continues (hs : f.Sound Q) (hc : f.cut = false) : f.system.Continues Q f.earlier := by
  obtain ⟨p, lost, h, -, -, hp⟩ := hs.image
  obtain ⟨rfl, rfl⟩ := hp hc
  simpa [Link.followedBy] using h

/-- A follower that is not cut off. -/
theorem of_continues {s : System} {earlier : List Value} (h : s.Continues Q earlier) (cut : Bool) :
    Follower.Sound Q ⟨s, cut, earlier⟩ where
  logged := h.sound.logged
  image := ⟨s.primary, [], by simpa [Link.followedBy] using h, List.prefix_rfl, le_rfl,
    fun _ => ⟨rfl, rfl⟩⟩

/-- **What the sessions have dispatched together.** -/
theorem sublist (hs : f.Sound Q) :
    ∃ n ≤ f.system.primary.settled,
      (f.earlier ++ f.system.link.dispatched).Sublist (f.system.primary.requests.take n) := by
  obtain ⟨p, lost, h, ⟨more, hmore⟩, hset, -⟩ := hs.image
  refine ⟨p.settled, hset, ?_⟩
  have hle : p.settled ≤ p.requests.length := by
    rw [List.length_map]
    exact p.settled_le
  rw [← hmore, List.take_append_of_le_length hle]
  exact h.sublist

/-- What is cut off is never dispatched. -/
theorem cut {kept lost : Bytes} (hQ : ∀ r, Q r → Decoded r) (hc : f.cut = false)
    (h : f.system.link.wire ++ f.system.queued.flatten = kept ++ lost) (hs : f.Sound Q) :
    Follower.Sound Q
      ⟨{ f.system with link := { f.system.link with wire := kept } }, true, f.earlier⟩ := by
  obtain ⟨p, hp, hreq, hset⟩ := (hs.continues hc).drain hQ rfl
  refine ⟨hs.logged, p, lost, ?_, hreq ▸ List.prefix_rfl, hset.le, nofun⟩
  simpa [Link.followedBy, h] using hp

theorem step (hQ : ∀ r, Q r → Decoded r) {l : FollowerLabel} (h : FollowerStep f l f')
    (hl : ∀ r, l.request? = some r → Q r) (hs : f.Sound Q) : f'.Sound Q := by
  cases h with
  | @session l s h hc =>
      cases hcut : f.cut with
      | false => exact .of_continues ((hs.continues hcut).step hQ h hl) _
      | true =>
          have hat : l.atReplica = true := by simpa [hcut] using hc
          obtain ⟨p, lost, hp, hreq, hset, -⟩ := hs.image
          obtain ⟨hprimary, hstep⟩ := h.followedBy hat p lost
          have hnext := hp.step hQ hstep hl
          exact ⟨hprimary ▸ hs.logged, p, lost, hnext, hprimary ▸ hreq, hprimary ▸ hset,
            nofun⟩
  | cut hc h => exact hs.cut hQ hc h
  | @primary l p' hc h =>
      obtain ⟨p, lost, hp, hreq, hset, -⟩ := hs.image
      obtain ⟨hgrow, hmore⟩ :=
        (Primary.Changes.of_step h hs.logged.sound hs.logged.reads).grows
      exact ⟨hs.logged.step h hl, p, lost, hp, hreq.trans hgrow, hset.trans hmore,
        fun hf => by rw [hc] at hf; cases hf⟩
  | redial hc =>
      obtain ⟨n, hn, hsub⟩ := hs.sublist
      exact .of_continues (.redial hs.logged hn hsub _) _

end Follower.Sound

/-! ### The stores -/

/-- What a session does to a store without deadlines, if no command it reads sets one: it dispatches
some commands more, and the keyspace is what they make of it. -/
theorem StreamStep.follows {s s' : System} {l : StreamLabel} (h : StreamStep s l s')
    (ht : s.link.db.Timeless)
    (hcmd : ∀ cmd rest, s.link.shaken = true → decode s.link.received = .ok (cmd, rest) →
      isHeartbeat cmd = false → ¬ SetsDeadline cmd) :
    s'.link.db.Timeless ∧ ∃ new, s'.link.dispatched = s.link.dispatched ++ new ∧
      ∀ t, s'.link.db.keyspace t = rebuild new (s.link.db.keyspace t) := by
  have hsame : ∀ t, s.link.db.keyspace t = rebuild [] (s.link.db.keyspace t) := fun _ => rfl
  have hnil : s.link.dispatched = s.link.dispatched ++ [] := (List.append_nil _).symm
  cases h with
  | primary | greet | register | deliver | receive | handshake | refused | broken =>
      exact ⟨ht, [], hnil, hsame⟩
  | @stream cmd rest now order _ h hd =>
      cases hb : isHeartbeat cmd with
      | true =>
          simp only [Link.apply, hb, if_true]
          exact ⟨ht, [], hnil, hsame⟩
      | false =>
          have hnone := hcmd cmd rest h hd hb
          simp only [Link.apply, hb, Bool.false_eq_true, if_false]
          exact ⟨ht.dispatch hnone, [cmd], rfl, ht.keyspace_dispatch hnone⟩
  | @read d h =>
      have hnone : ¬ SetsDeadline d.request := fun hd => by
        rw [isWrite_of_setsDeadline hd] at h
        cases h
      exact ⟨ht.dispatch hnone, [], hnil, ht.keyspace_unrecorded hnone (.inl h)⟩
  | @pass now start order =>
      have hr := DB.activeExpiryPass_reaped now start order s.link.db
      exact ⟨ht.reaped hr, [], hnil, DB.Timeless.keyspace_reaped ht hr⟩

/-- No deadline is set, and the replica's keyspace is what all its sessions make of the one it
started with. -/
structure Follower.Traced (db replica : DB) (f : Follower) : Prop where
  sound : f.Sound fun r => Decoded r ∧ ¬ SetsDeadline r
  primary : f.system.primary.Traced (db.keyspace 0)
  timeless : f.system.link.db.Timeless
  replica : ∀ t, f.system.link.db.keyspace t =
    rebuild (f.earlier ++ f.system.link.dispatched) (replica.keyspace t)

namespace Follower.Traced

variable {db replica : DB} {f f' : Follower}

theorem start (h : db.Timeless) (h' : replica.Timeless) :
    (Follower.start db replica).Traced db replica :=
  ⟨.start _ db replica, .start h, h', fun _ => rfl⟩

/-- The primary, whatever it does. -/
theorem primary_step {l : Label} {p : Primary} (h : Step true f.system.primary l p)
    (hs : f.Traced db replica) : p.Traced (db.keyspace 0) :=
  hs.primary.step (.of_step h hs.sound.logged.sound hs.sound.logged.reads)
    fun c r hr => (hs.sound.logged.requests c r hr).2

/-- A command that the replica reads sets no deadline. -/
theorem command (hs : f.Traced db replica) {cmd : Value} {rest : Bytes}
    (hsh : f.system.link.shaken = true)
    (hd : decode f.system.link.received = .ok (cmd, rest)) (hb : isHeartbeat cmd = false) :
    ¬ SetsDeadline cmd := by
  obtain ⟨p, lost, hp, -⟩ := hs.sound.image
  have hdec : ∀ r : Value, Decoded r ∧ ¬ SetsDeadline r → Decoded r := fun _ h => h.1
  have hmem := (System.Sound.stream_step (s := ⟨p, f.system.link.followedBy lost⟩) hdec hsh hd 0
    .sorted hp.sound).1
  rcases hp.sound.mem_sent hmem with h | rfl
  · exact h.2
  · exact absurd hb (by decide)

theorem step {l : FollowerLabel} (h : FollowerStep f l f')
    (hl : ∀ r, l.request? = some r → Decoded r ∧ ¬ SetsDeadline r) (hs : f.Traced db replica) :
    f'.Traced db replica := by
  have hsound := hs.sound.step (fun _ h => h.1) h hl
  cases h with
  | @session l s h hc =>
      obtain ⟨ht, new, hnew, hk⟩ := h.follows hs.timeless fun cmd rest => hs.command
      refine ⟨hsound, ?_, ht, fun t => ?_⟩
      · cases h with
        | primary h | register _ _ h | deliver _ h => exact hs.primary_step h
        | greet | receive | handshake | stream | refused | broken | read | pass =>
            exact hs.primary
      · rw [hk, hs.replica, hnew, ← rebuild_append, List.append_assoc]
  | cut => exact ⟨hsound, hs.primary, hs.timeless, hs.replica⟩
  | primary hc h => exact ⟨hsound, hs.primary_step h, hs.timeless, hs.replica⟩
  | redial hc =>
      refine ⟨hsound, hs.primary, hs.timeless, fun t => ?_⟩
      rw [List.append_nil]
      exact hs.replica t

end Follower.Traced

/-! ### The results -/

/-- A write to another key than that of `setK`. -/
def setOther : Value := bulkCmd [txt "SET", txt "other", txt "v"]

/-- **The order over all sessions.**  On a primary with a log, whatever decoded requests clients
submit, wherever the connection is cut and however often the replica dials again, what it has
dispatched in all its sessions together are writes that the primary has applied and propagated, in
the order in which the primary applied them and each at most once. -/
theorem reconnect_order (db replica : DB) (labels : List FollowerLabel) (f : Follower)
    (hdec : ∀ l ∈ labels, ∀ r, l.request? = some r → Decoded r)
    (hrun : Run FollowerStep (Follower.start db replica) labels f) :
    (f.earlier ++ f.system.link.dispatched).Sublist
      (f.system.primary.requests.take f.system.primary.settled) := by
  have hs : f.Sound Decoded := hrun.preserves (fun _ _ _ hl h hs => hs.step (fun _ h => h) h hl)
    hdec (.start Decoded db replica)
  obtain ⟨n, hn, hsub⟩ := hs.sublist
  exact hsub.trans (List.take_prefix_take_left hn).sublist

/-- A write that the replica gets, a cut, one that it misses, and one that it gets after it has
dialled again. -/
def missedWrite : List FollowerLabel :=
  [.session .greet, .session .register, .session (.primary (.check 0 setK)),
    .session (.primary (.acquire 0)), .session (.primary (.dispatch 0 0 .sorted)),
    .session (.primary (.propagate 0)), .session (.primary (.release 0)),
    .session (.deliver (encode setK)), .cut,
    .session (.receive (encode okValue ++ encode setK)), .session .handshake,
    .session (.stream 5 .sorted), .primary (.remove 0), .primary (.check 0 setOther),
    .primary (.acquire 0), .primary (.dispatch 0 6 .sorted), .primary (.propagate 0),
    .primary (.release 0), .redial, .session .greet, .session .register,
    .session (.primary (.check 0 setK)), .session (.primary (.acquire 0)),
    .session (.primary (.dispatch 0 7 .sorted)), .session (.primary (.propagate 0)),
    .session (.deliver (encode setK)), .session (.receive (encode okValue ++ encode setK)),
    .session .handshake, .session (.stream 8 .sorted)]

theorem run_missedWrite :
    ∃ f, Run FollowerStep (Follower.start DB.new DB.new) missedWrite f ∧
      f.earlier = [setK] ∧ f.system.link.dispatched = [setK] ∧
      f.system.primary.requests = [setK, setOther, setK] := by
  have hrun : Run FollowerStep (Follower.start DB.new DB.new) missedWrite _ :=
    .cons (.session (.greet rfl) (.inl rfl))
      (.cons (.session (.register rfl rfl .add) (.inl rfl))
      (.cons (.session (.primary (.check rfl) fun _ _ => ⟨nofun, nofun⟩) (.inl rfl))
      (.cons (.session (.primary (.acquire rfl rfl) fun _ _ => ⟨nofun, nofun⟩) (.inl rfl))
      (.cons (.session (.primary (.dispatch rfl) fun _ _ => ⟨nofun, nofun⟩) (.inl rfl))
      (.cons (.session (.primary (.propagate rfl) fun _ _ => ⟨nofun, nofun⟩) (.inl rfl))
      (.cons (.session (.primary (.release rfl) fun _ _ => ⟨nofun, nofun⟩) (.inl rfl))
      (.cons (.session (.deliver rfl (.deliver rfl rfl)) (.inl rfl))
      (.cons (@FollowerStep.cut _ (encode okValue ++ encode setK) [] rfl rfl)
      (.cons (.session (.receive rfl) (.inr rfl))
      (.cons (.session (.handshake rfl rfl rfl) (.inr rfl))
      (.cons (.session (.stream rfl rfl rfl) (.inr rfl))
      (.cons (.primary rfl .remove) (.cons (.primary rfl (.check rfl))
      (.cons (.primary rfl (.acquire rfl rfl)) (.cons (.primary rfl (.dispatch rfl))
      (.cons (.primary rfl (.propagate rfl)) (.cons (.primary rfl (.release rfl))
      (.cons (.redial rfl) (.cons (.session (.greet rfl) (.inl rfl))
      (.cons (.session (.register rfl rfl .add) (.inl rfl))
      (.cons (.session (.primary (.check rfl) fun _ _ => ⟨nofun, nofun⟩) (.inl rfl))
      (.cons (.session (.primary (.acquire rfl rfl) fun _ _ => ⟨nofun, nofun⟩) (.inl rfl))
      (.cons (.session (.primary (.dispatch rfl) fun _ _ => ⟨nofun, nofun⟩) (.inl rfl))
      (.cons (.session (.primary (.propagate rfl) fun _ _ => ⟨nofun, nofun⟩) (.inl rfl))
      (.cons (.session (.deliver rfl (.deliver rfl rfl)) (.inl rfl))
      (.cons (.session (.receive rfl) (.inl rfl))
      (.cons (.session (.handshake rfl rfl rfl) (.inl rfl))
      (.cons (.session (.stream rfl rfl rfl) (.inl rfl)) (.nil _)))))))))))))))))))))))))))))
  exact ⟨_, hrun, rfl, rfl, rfl⟩

theorem requests_missedWrite :
    ∀ l ∈ missedWrite, ∀ r, l.request? = some r → Decoded r ∧ ¬ SetsDeadline r := by
  intro l hl r hr
  have hmem : r ∈ missedWrite.filterMap FollowerLabel.request? :=
    List.mem_filterMap.2 ⟨l, hl, hr⟩
  have hlist : missedWrite.filterMap FollowerLabel.request? = [setK, setOther, setK] := rfl
  simp only [hlist, List.mem_cons, List.not_mem_nil, or_false] at hmem
  rcases hmem with rfl | rfl | rfl
  all_goals exact ⟨decoded_iff.2 (bulkCmd_wellFormed (by decide) (by decide)), by decide⟩

/-- The replica has dispatched two of three requests, in order. -/
theorem reconnect_order_missedWrite :
    ∃ f, Run FollowerStep (Follower.start DB.new DB.new) missedWrite f ∧
      f.earlier ++ f.system.link.dispatched = [setK, setK] ∧
      f.system.primary.requests = [setK, setOther, setK] ∧
      (f.earlier ++ f.system.link.dispatched).Sublist
        (f.system.primary.requests.take f.system.primary.settled) := by
  obtain ⟨f, hrun, he, hd, hreq⟩ := run_missedWrite
  exact ⟨f, hrun, by rw [he, hd]; rfl, hreq, reconnect_order DB.new DB.new missedWrite f
    (fun l hl r hr => (requests_missedWrite l hl r hr).1) hrun⟩

/-- **Drift is confined to the keys of missed writes.**  If moreover neither store has a deadline at
the start and no request sets one, then, at every instant, the replica and the primary agree on
every key on which they agreed at first and of which the replica has dispatched as many writes as
the primary has applied. -/
theorem drift_confined (db replica : DB) (labels : List FollowerLabel) (f : Follower)
    (hreq : ∀ l ∈ labels, ∀ r, l.request? = some r → Decoded r ∧ ¬ SetsDeadline r)
    (hrun : Run FollowerStep (Follower.start db replica) labels f) (hdb : db.Timeless)
    (hreplica : replica.Timeless) (key : Bytes)
    (hkey : replica.keyspace 0 key = db.keyspace 0 key)
    (hcount : (f.earlier ++ f.system.link.dispatched).countP (fun r => (written r).contains key) =
      f.system.primary.requests.countP fun r => (written r).contains key) (t : Time) :
    f.system.link.db.keyspace t key = f.system.primary.db.keyspace t key := by
  have ht : f.Traced db replica := hrun.preserves (fun _ _ _ hl h hs => hs.step h hl) hreq
    (.start hdb hreplica)
  obtain ⟨n, -, hsub⟩ := ht.sound.sublist
  have hwrites := (hsub.trans (List.take_sublist _ _)).filter fun r => (written r).contains key
  -- as many writes of the key in the same order are the same writes
  have heq := hwrites.eq_of_length (by
    rw [← List.countP_eq_length_filter, ← List.countP_eq_length_filter]
    exact hcount)
  rw [ht.replica t, ht.primary.live t, rebuild_at, rebuild_at, heq, hreplica.keyspace_eq t 0, hkey]

/-- The missed write is to another key. -/
theorem drift_confined_missedWrite :
    ∃ f, Run FollowerStep (Follower.start DB.new DB.new) missedWrite f ∧
      f.system.primary.requests = [setK, setOther, setK] ∧
      f.system.link.db.keyspace 9 (txt "k") = f.system.primary.db.keyspace 9 (txt "k") := by
  obtain ⟨f, hrun, he, hd, hreq⟩ := run_missedWrite
  refine ⟨f, hrun, hreq, ?_⟩
  refine drift_confined DB.new DB.new missedWrite f requests_missedWrite hrun (.new _) (.new _) _
    rfl ?_ 9
  rw [he, hd, hreq]
  decide

end MiniRedis.Replication
