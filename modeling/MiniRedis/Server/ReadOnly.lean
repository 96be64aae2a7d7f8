import MiniRedis.Reference.Drift
import MiniRedis.Reference.Transparency
import MiniRedis.Replication.Logged
import MiniRedis.Server.Hub

/-!
# Server — ReadOnly

A server with a primary.  Its clients may send anything; the commands of the primary's stream go
straight to `Dispatch`.  `serve` refuses the writes of clients by the name in upper case, and
`Dispatch` looks a command up by its name in upper case, so the two agree on what a write is.

* `Hub.ReadOnly`: the clients of such a server dispatch no write.
* `Hub.run_shows`: **its keyspace is a function of the stream**, whatever the clients do.
* `replica_undisturbed`: two runs with one stream have one keyspace.
-/

namespace MiniRedis

open Protocol Store Cmd Strings Reference

/-! ### The keyspace of a stream -/

namespace Keyspace

/-- Time reaches `t`: every entry whose deadline has come is gone. -/
def purge (t : Time) (ks : Keyspace) : Keyspace := fun key => (ks key).filter fun e => !e.expired t

/-- What is purged later need not be purged before. -/
theorem purge_purge {t u : Time} (h : t ≤ u) (ks : Keyspace) :
    (ks.purge t).purge u = ks.purge u :=
  congrArg RefStore.keys (RefStore.purge_purge h ⟨ks, Broker.new⟩)

/-- The keyspace after commands of a stream, each at its reading of the clock. -/
def follow (stream : List (Value × Time)) (ks : Keyspace) : Keyspace :=
  stream.foldl (fun ks c => effect c.2 c.1 (ks.purge c.2)) ks

end Keyspace

/-- The live entries of the store at `t` are those of the keyspace. -/
def Shows (t : Time) (ks : Keyspace) (db : DB) : Prop := db.keyspace t = ks.purge t

namespace Shows

variable {t u : Time} {ks : Keyspace} {db : DB} {request : Value}

/-- A store shows its entries. -/
theorem entries (t : Time) (db : DB) : Shows t (fun key => (db.shardFor key).lookup key) db := by
  funext key
  change Shard.peek t key (db.shardFor key) = ((db.shardFor key).lookup key).filter _
  unfold Shard.peek
  cases (db.shardFor key).lookup key with
  | none => rfl
  | some e => by_cases he : e.expired t <;> simp [he, Option.filter_some]

theorem later (h : Shows t ks db) (hu : t ≤ u) : Shows u ks db := by
  have hk : db.keyspace u = (db.keyspace t).purge u := funext (DB.keyspace_later hu db)
  rw [Shows, hk, h, Keyspace.purge_purge hu]

/-- A request that is no write. -/
theorem read (h : Shows t ks db) (hr : isWrite (commandName request) = false)
    (order : RangeOrder) : Shows t ks (db.dispatch t order request).1 :=
  (DB.dispatch_unrecorded (.inl hr)).trans h

/-- A pass of the reaper. -/
theorem pass (h : Shows t ks db) (start : Fin shardCount) (order : RangeOrder) :
    Shows t ks (db.activeExpiryPass t start order).1 := by
  refine Eq.trans (funext fun key => ?_) h
  exact (DB.activeExpiryPass_reaped t start order db _).peek le_rfl key

/-- A command of the stream. -/
theorem command (h : Shows t ks db) (cmd : Value) (order : RangeOrder) :
    Shows t (Keyspace.follow [(cmd, t)] ks) (db.dispatch t order cmd).1 := by
  have hk : (db.dispatch t order cmd).1.keyspace t = effect t cmd (ks.purge t) := by
    rw [DB.keyspace_dispatch, show db.keyspace t = ks.purge t from h]
  have hself : (db.dispatch t order cmd).1.keyspace t =
      ((db.dispatch t order cmd).1.keyspace t).purge t := funext (DB.keyspace_later le_rfl _)
  rw [Shows, hself, hk]
  rfl

end Shows

namespace Server

open Replication Machine

variable {primaryAddr : Bytes} {aof : Bool}

/-- The effect of a `PUBLISH` on the keyspace. -/
theorem effect_publish {cmd : Value} {p : Message × (Nat → Value)} (h : publishes cmd = some p)
    (now : Time) (ks : Keyspace) : effect now cmd ks = ks := by
  unfold publishes at h
  unfold effect
  split at h
  case h_1 hplan => rw [hplan]; rfl
  case h_2 => cases h

/-! ### The gate -/

/-- The names of the table are in upper case. -/
theorem isWrite_toUpper {name : Bytes} (h : isWrite name = true) :
    isWrite (toUpper name) = true := by
  have hupper : ∀ w ∈ writeCommands, toUpper w = w := by decide +kernel
  have hmem : toUpper name ∈ writeCommands := of_decide_eq_true h
  exact decide_eq_true (by rwa [hupper _ hmem])

/-- **No write gets past `serve`** on a server with a primary. -/
theorem read_of_apply (haddr : primaryAddr ≠ []) {subscribed : Bool} {request : Value}
    (h : route primaryAddr subscribed request = .apply) :
    isWrite (commandName request) = false := by
  by_contra hw
  have hup := isWrite_toUpper (Bool.of_not_eq_false hw)
  unfold route at h
  simp only [haddr, hup, ne_eq, not_false_eq_true, and_self, if_true] at h
  split_ifs at h

/-- A connection gets into `applyRecord` through `serve`. -/
theorem Conn.Step.applying {cs cs' : Conn} {a : Act} (h : Conn.Step primaryAddr cs a cs')
    {request : Value} (hr : cs'.loop = .applying request) :
    cs.loop = .applying request ∨ route primaryAddr cs.subscribed request = .apply := by
  cases h with
  | @read all request' h hall =>
      have hserved := cs.serve_served primaryAddr all request'
      generalize cs.serve primaryAddr all request' = cs' at hserved hr
      cases hserved with
      | stay => exact .inl hr
      | apply hroute =>
          cases hr
          exact .inr hroute
      | _ => cases hr
  | write h =>
      unfold Conn.pending at h
      split at h <;> cases h <;> cases hr
  | push | pushFails => exact .inl hr
  | _ => cases hr

namespace Hub

variable {s s' : Hub} {l : Label}

/-- A request that is applied was routed to be applied. -/
theorem Step.applying (h : Step primaryAddr aof s l s') {c : Nat} {request : Value}
    (hr : (s'.conns c).loop = .applying request) :
    (s.conns c).loop = .applying request ∨
      route primaryAddr (s.conns c).subscribed request = .apply := by
  -- the connection `c'` moves
  have update : ∀ {c' : Nat} {cs : Conn},
      (Function.update s.conns c' cs c).loop = .applying request →
      (cs.loop = .applying request → (s.conns c').loop = .applying request ∨
        route primaryAddr (s.conns c').subscribed request = .apply) →
      (s.conns c).loop = .applying request ∨
        route primaryAddr (s.conns c).subscribed request = .apply :=
    fun hr hcs => (Function.forall_update_iff s.conns fun c cs => cs.loop = .applying request →
      (s.conns c).loop = .applying request ∨
        route primaryAddr (s.conns c).subscribed request = .apply).2 ⟨hcs, fun _ _ => .inl⟩ c hr
  cases h with
  | conn h => exact update hr h.applying
  | leave =>
      simp only [setConn, removeReplica_conns] at hr
      refine update hr fun hr => ?_
      unfold Conn.drain at hr
      split at hr <;> cases hr
  | receive | finish | ship | shipFails => exact update hr .inl
  | register | unregister | drain | add | check | fast | dispatch | release | publish
  | published => exact update hr fun hr => by cases hr
  | startShipper | take | takeLeft | stop | acquire | propagate | send | heartbeat | pass | stream
  | streamPublish | streamPublished => exact .inl hr

end Hub

/-! ### The clients -/

/-- The clients of a primary are at no write, and nothing but heartbeats has been propagated. -/
structure Meek (p : Primary) : Prop where
  requests : p.Requests fun r => isWrite (commandName r) = false
  clients : Orderly p.phase p.lock False
  offered : ∀ id, ∀ x ∈ (p.feeds id).offered, x.1 = pingCommand

namespace Meek

variable {p p' : Primary} {c : Nat} {r : Value}

theorem start (db : DB) : Meek (.start db) where
  requests _ _ h := (by cases h)
  clients := ⟨fun _ h => h.elim, fun _ _ h => (by cases h), fun h => h.elim⟩
  offered _ _ h := absurd h List.not_mem_nil

/-- Nobody is on the locking path. -/
theorem no_pending (hp : Meek p) : (p.phase c).pending ≠ some r := by
  intro h
  have hr : (p.phase c).request = some r := by
    cases hc : p.phase c <;> rw [hc] at h <;> first | exact h | cases h
  cases (hp.requests c r hr).symm.trans (hp.clients.pending c r h)

theorem step {l : Replication.Label} (hp : Meek p) (h : Replication.Step aof p l p')
    (hl : ∀ r, l.request? = some r → isWrite (commandName r) = false) : Meek p' := by
  refine ⟨Primary.requests_step h hl hp.requests, hp.clients.step aof h False.elim,
    fun id x hx => ?_⟩
  cases h with
  | heartbeat =>
      simp only [Primary.offer] at hx
      split at hx
      · exact hp.offered id x hx
      · rcases List.mem_append.1 hx with hx | hx
        · exact hp.offered id x hx
        · rw [List.mem_singleton.1 hx]
  | @propagate c r h => exact absurd (by rw [h]; rfl) (hp.no_pending (c := c) (r := r))
  | add =>
      change x ∈ (Function.update p.feeds p.replicas.next _ id).offered at hx
      rw [Function.update_apply] at hx
      split at hx
      · exact absurd hx List.not_mem_nil
      · exact hp.offered id x hx
  | @deliver i rep frame ch h hr =>
      change x ∈ (Function.update p.feeds i _ id).offered at hx
      rw [Function.update_apply] at hx
      split at hx
      · exact hp.offered i x hx
      · exact hp.offered id x hx
  | _ => exact hp.offered id x hx

end Meek

namespace Hub

variable {s s' : Hub} {l : Label}

/-- **The clients dispatch no write**, and none is logged or propagated. -/
structure ReadOnly (s : Hub) : Prop where
  applying : ∀ c r, (s.conns c).loop = .applying r → isWrite (commandName r) = false
  primary : Meek s.primary
  log : s.log = []

namespace ReadOnly

theorem start (db : DB) : (Hub.start db).ReadOnly where
  applying _ _ h := (by cases h)
  primary := .start _
  log := rfl

theorem step (hs : s.ReadOnly) (haddr : primaryAddr ≠ []) (h : Step primaryAddr aof s l s') :
    s'.ReadOnly := by
  have happlying : ∀ c r, (s'.conns c).loop = .applying r → isWrite (commandName r) = false := by
    intro c r hr
    rcases h.applying hr with hr | hr
    · exact hs.applying c r hr
    · exact read_of_apply haddr hr
  have hsame : ∀ {p : Primary}, p.phase = s.primary.phase → p.lock = s.primary.lock →
      p.feeds = s.primary.feeds → Meek p := by
    intro p hphase hlock hfeeds
    refine ⟨?_, ?_, ?_⟩
    · unfold Primary.Requests
      rw [hphase]
      exact hs.primary.requests
    · rw [hphase, hlock]
      exact hs.primary.clients
    · rw [hfeeds]
      exact hs.primary.offered
  cases h with
  | check h _ hp =>
      refine ⟨happlying, hs.primary.step hp fun r hr => ?_, hs.log⟩
      cases hr
      exact hs.applying _ _ h
  | @propagate c r p hr hp =>
      exact absurd (by rw [hr]; rfl) (hs.primary.no_pending (c := c) (r := r))
  | add _ hp | take _ hp | fast _ _ hp | acquire hp | dispatch _ _ hp | release _ hp
  | heartbeat hp | pass hp =>
      exact ⟨happlying, hs.primary.step hp fun r hr => (by cases hr), hs.log⟩
  | @leave c all h hall =>
      refine ⟨happlying, ?_, ?_⟩ <;> simp only [setConn] <;> cases (s.conns c).replica
      · exact hs.primary
      · exact hsame rfl rfl rfl
      · exact hs.log
      · exact hs.log
  | conn | register | unregister | drain | receive | finish | startShipper | takeLeft | ship
  | shipFails | stop | publish | send | published | stream | streamPublish | streamPublished =>
      exact ⟨happlying, hsame rfl rfl rfl, hs.log⟩

theorem run (haddr : primaryAddr ≠ []) {db : DB} {labels : List Label}
    (hrun : Run (Step primaryAddr aof) (Hub.start db) labels s) : s.ReadOnly :=
  hrun.preserves (G := fun _ => True) (fun _ _ _ _ h hs => hs.step haddr h) (fun _ _ => trivial)
    (.start db)

end ReadOnly

/-! ### The keyspace along a run -/

/-- The reading of the clock a step takes. -/
def Label.now? : Label → Option Time
  | .fast _ now _ | .dispatch _ now _ | .pass now _ _ | .stream _ now _ => some now
  | _ => none

/-- The command of the stream a step dispatches, with its reading. -/
def Label.streamed? : Label → Option (Value × Time)
  | .stream cmd now _ => some (cmd, now)
  | _ => none

/-- **Only the stream changes the keyspace.** -/
theorem Step.shows (h : Step primaryAddr aof s l s') (hs : s.ReadOnly) {t : Time} {ks : Keyspace}
    (ht : ∀ u, l.now? = some u → u = t) (hshow : Shows t ks s.primary.db) :
    Shows t (ks.follow l.streamed?.toList) s'.primary.db := by
  cases h with
  | @fast c r now order p h hr hp =>
      cases ht now rfl
      have hread := hs.primary.requests c r (by rw [hr]; rfl)
      cases hp with
      | @fast _ r' _ _ h' =>
          cases hr.symm.trans h'
          exact hshow.read hread order
  | @dispatch c r now order p h hr hp =>
      exact absurd (by rw [hr]; rfl) (hs.primary.no_pending (c := c) (r := r))
  | @pass now start order p hp =>
      cases ht now rfl
      cases hp
      exact hshow.pass start order
  | @stream cmd now order haddr hidle hpub =>
      cases ht now rfl
      exact hshow.command cmd order
  | @streamPublish cmd now order msg render haddr hidle hpub =>
      cases ht now rfl
      have hk : ks.follow [(cmd, t)] = ks.purge t := effect_publish hpub t _
      change Shows t (ks.follow [(cmd, t)]) s.primary.db
      rw [hk, Shows, Keyspace.purge_purge le_rfl]
      exact hshow
  | add _ hp | take _ hp | check _ _ hp | acquire hp | propagate _ hp | release _ hp
  | heartbeat hp =>
      cases hp
      exact hshow
  | leave =>
      simp only [setConn, removeReplica_db]
      exact hshow
  | conn | register | unregister | drain | receive | finish | startShipper | takeLeft | ship
  | shipFails | stop | publish | send | published | streamPublished => exact hshow

/-- **The keyspace of a server with a primary is a function of the stream**, as long as the clock
does not go back. -/
theorem run_shows (haddr : primaryAddr ≠ []) {labels : List Label}
    (hrun : Run (Step primaryAddr aof) s labels s') (hs : s.ReadOnly) {t₀ t : Time} {ks : Keyspace}
    (hclock : (t₀ :: labels.filterMap Label.now?).Pairwise (· ≤ ·))
    (ht : ∀ u ∈ t₀ :: labels.filterMap Label.now?, u ≤ t) (hshow : Shows t₀ ks s.primary.db) :
    Shows t (ks.follow (labels.filterMap Label.streamed?)) s'.primary.db := by
  induction hrun generalizing t₀ ks with
  | nil s => exact hshow.later (ht t₀ List.mem_cons_self)
  | @cons s s₁ s' l labels h _ ih =>
      have hcons : ks.follow ((l :: labels).filterMap Label.streamed?) =
          (ks.follow l.streamed?.toList).follow (labels.filterMap Label.streamed?) := by
        rw [List.filterMap_cons]
        cases l.streamed? <;> rfl
      rw [hcons]
      cases hnow : l.now? with
      | none =>
          rw [List.filterMap_cons_none hnow] at hclock ht
          exact ih (hs.step haddr h) hclock ht (h.shows hs (fun u hu => by simp [hnow] at hu) hshow)
      | some now =>
          rw [List.filterMap_cons_some hnow] at hclock ht
          obtain ⟨hle, hclock⟩ := List.pairwise_cons.1 hclock
          have hshow' := hshow.later (hle now List.mem_cons_self)
          refine ih (hs.step haddr h) hclock (fun u hu => ht u (List.mem_cons_of_mem _ hu))
            (h.shows hs (fun u hu => ?_) hshow')
          exact (Option.some.inj (hnow.symm.trans hu)).symm

/-- The same from the start on, of which there is a reading before all others. -/
theorem start_shows (haddr : primaryAddr ≠ []) {db : DB} {labels : List Label}
    (hrun : Run (Step primaryAddr aof) (Hub.start db) labels s) {t : Time}
    (hclock : (labels.filterMap Label.now?).Pairwise (· ≤ ·))
    (ht : ∀ u ∈ labels.filterMap Label.now?, u ≤ t) :
    Shows t (Keyspace.follow (labels.filterMap Label.streamed?)
      fun key => (db.shardFor key).lookup key) s.primary.db := by
  obtain ⟨t₀, ht₀⟩ := exists_reading_before hclock
  have hfirst : ∀ u ∈ labels.filterMap Label.now?, min t₀ t ≤ u := fun u hu =>
    (min_le_left t₀ t).trans ((List.pairwise_cons.1 ht₀).1 u hu)
  refine run_shows haddr hrun (.start db) (List.pairwise_cons.2 ⟨hfirst, hclock⟩) (fun u hu => ?_)
    (.entries (min t₀ t) _)
  rcases List.mem_cons.1 hu with rfl | hu
  · exact min_le_right t₀ t
  · exact ht u hu

end Hub

/-! ### The results -/

/-- **A read-only replica is not disturbed by its clients.**  Take any two runs of a server with a
primary, from the same store and with the same commands of the stream at the same readings of the
clock, which does not go back, whatever the clients of each send.  Their keyspaces are the same at
every time from the last reading on, so after every command of the stream; and in neither run has
anything been logged, or anything but heartbeats propagated. -/
theorem replica_undisturbed (primaryAddr : Bytes) (haddr : primaryAddr ≠ []) (aof : Bool) (db : DB)
    (labels labels' : List Hub.Label) (s s' : Hub)
    (hrun : Run (Hub.Step primaryAddr aof) (Hub.start db) labels s)
    (hrun' : Run (Hub.Step primaryAddr aof) (Hub.start db) labels' s')
    (hclock : (labels.filterMap Hub.Label.now?).Pairwise (· ≤ ·))
    (hclock' : (labels'.filterMap Hub.Label.now?).Pairwise (· ≤ ·))
    (hstream : labels.filterMap Hub.Label.streamed? = labels'.filterMap Hub.Label.streamed?) :
    (∀ t, (∀ u ∈ labels.filterMap Hub.Label.now? ++ labels'.filterMap Hub.Label.now?, u ≤ t) →
        s.primary.db.keyspace t = s'.primary.db.keyspace t) ∧
      ∀ r ∈ [s, s'], r.log = [] ∧ ∀ id, ∀ x ∈ (r.primary.feeds id).offered, x.1 = pingCommand := by
  refine ⟨fun t ht => ?_, fun r hr => ?_⟩
  · have hshow := Hub.start_shows haddr hrun hclock fun u hu => ht u (List.mem_append_left _ hu)
    have hshow' := Hub.start_shows haddr hrun' hclock' fun u hu => ht u (List.mem_append_right _ hu)
    rw [← hstream] at hshow'
    exact hshow.trans hshow'.symm
  · have hs : r.ReadOnly := by
      simp only [List.mem_cons, List.not_mem_nil, or_false] at hr
      rcases hr with rfl | rfl
      · exact Hub.ReadOnly.run haddr hrun
      · exact Hub.ReadOnly.run haddr hrun'
    exact ⟨hs.log, hs.primary.offered⟩

/-- `set k w` -/
def setW : Value := bulkCmd [txt "set", txt "k", txt "w"]

/-- A client of a replica writes, in lower case. -/
theorem read_setW :
    Conn.Step (txt "primary:6379") { Conn.new with loop := .reading } (.read setW)
      { Conn.new with loop := .replying readonlyReply } := by
  have hroute : route (txt "primary:6379") false setW = .readonly := by decide +kernel
  have hserve : Conn.serve (txt "primary:6379") [] setW { Conn.new with loop := .reading } =
      { Conn.new with loop := .replying readonlyReply } := by
    unfold Conn.serve
    rw [Conn.subscribed_eq_false rfl, hroute]
  rw [← hserve]
  exact .read rfl ⟨List.nodup_nil, fun a => by simp [Conn.new]⟩

/-- The primary's write, and the same with a client that tries to write and an expiry pass. -/
theorem replica_undisturbed_setW :
    ∃ s s', Run (Hub.Step (txt "primary:6379") true) (Hub.start DB.new) [.stream setK 5 .sorted] s ∧
      Run (Hub.Step (txt "primary:6379") true) (Hub.start DB.new)
        [.conn 0 .accept, .conn 0 (.read setW), .conn 0 .write, .pass 3 ⟨0, by decide⟩ .sorted,
          .stream setK 5 .sorted] s' ∧
      (s.primary.db.keyspace 5 (txt "k")).isSome ∧
      s.primary.db.keyspace 5 = s'.primary.db.keyspace 5 ∧ s'.log = [] := by
  have haddr : txt "primary:6379" ≠ [] := by decide
  have hrun : Run (Hub.Step (txt "primary:6379") true) (Hub.start DB.new)
      [.stream setK 5 .sorted] _ := .cons (.stream haddr rfl rfl) (.nil _)
  have hrun' : Run (Hub.Step (txt "primary:6379") true) (Hub.start DB.new)
      [.conn 0 .accept, .conn 0 (.read setW), .conn 0 .write, .pass 3 ⟨0, by decide⟩ .sorted,
        .stream setK 5 .sorted] _ :=
    .cons (.conn (.accept rfl)) (.cons (.conn read_setW) (.cons (.conn (.write rfl rfl))
      (.cons (.pass .pass) (.cons (.stream haddr rfl rfl) (.nil _)))))
  obtain ⟨hsame, hquiet⟩ := replica_undisturbed (txt "primary:6379") haddr true DB.new _ _ _ _ hrun
    hrun' (by decide) (by decide) rfl
  exact ⟨_, _, hrun, hrun', by decide +kernel, hsame 5 (by decide),
    (hquiet _ (List.mem_cons_of_mem _ List.mem_cons_self)).1⟩

end Server

end MiniRedis
