import MiniRedis.Protocol.RoundTrip
import MiniRedis.Replication.Logged

/-!
# Replication — Stream

One session between a primary with a log and a replica: `replicaof` and `deliverReplica` on the
one side, `streamOnce` on the other, and the connection between them.  The replica decodes what
has arrived, acknowledges heartbeats and dispatches everything else.

* `System.Sound`: what the replica has dispatched, what has arrived, what is on the wire and what
  is in the queue are, in this order, the commands there was room for.
* `replication_order`: **the replica dispatches writes of the primary, in the order in which the
  primary applied them**, each once; a contiguous piece of them if the queue was never full, and
  then the stores agree.
-/

namespace MiniRedis.Replication

open Protocol Store Cmd Machine

/-- The connection and the replica at its other end. -/
structure Link where
  /-- `+OK` has been written. -/
  greeted : Bool
  /-- The number of the feed, once it is registered. -/
  id : Option Nat
  /-- Written and not yet received. -/
  wire : Bytes
  /-- Received and not yet decoded. -/
  received : Bytes
  /-- The replica has read the acknowledgement. -/
  shaken : Bool
  /-- The replica has not given up. -/
  up : Bool
  db : DB
  dispatched : List Value

/-- A primary and its link to one replica. -/
structure System where
  primary : Primary
  link : Link

/-- A primary and a replica with the given stores, before the handshake. -/
def System.start (db replica : DB) : System where
  primary := .start db
  link := ⟨false, none, [], [], false, true, replica, []⟩

/-- What `streamOnce` does with a command: a heartbeat is acknowledged, which the primary does not
answer, and anything else is dispatched. -/
def Link.apply (now : Time) (order : RangeOrder) (cmd : Value) (k : Link) : Link :=
  { k with
    db := if isHeartbeat cmd then k.db else (k.db.dispatch now order cmd).1
    dispatched := if isHeartbeat cmd then k.dispatched else k.dispatched ++ [cmd] }

/-- The steps of the two ends. -/
inductive StreamLabel where
  | primary (l : Label)
  | greet
  | register
  | deliver (frame : Bytes)
  | receive (chunk : Bytes)
  | handshake
  | stream (now : Time) (order : RangeOrder)
  | giveUp
  | read (d : Dispatched)
  | pass (now : Time) (start : Fin shardCount) (order : RangeOrder)

/-- The request a client of the primary submits with a step. -/
def StreamLabel.request? : StreamLabel → Option Value
  | .primary l => l.request?
  | _ => none

/-- One step of a session that is not cut. -/
inductive StreamStep : System → StreamLabel → System → Prop where
  /-- The primary goes on, with other connections and with its other feeds. -/
  | primary {s l p} (h : Step true s.primary l p)
      (hid : ∀ i, s.link.id = some i → l ≠ .remove i ∧ ∀ frame, l ≠ .deliver i frame) :
      StreamStep s (.primary l) { s with primary := p }
  | greet {s} (h : s.link.greeted = false) :
      StreamStep s .greet
        { s with
          link := { s.link with greeted := true, wire := s.link.wire ++ encode okValue } }
  | register {s p} (hg : s.link.greeted = true) (hid : s.link.id = none)
      (h : Step true s.primary .add p) :
      StreamStep s .register ⟨p, { s.link with id := some s.primary.replicas.next }⟩
  | deliver {s i frame p} (hid : s.link.id = some i)
      (h : Step true s.primary (.deliver i frame) p) :
      StreamStep s (.deliver frame) ⟨p, { s.link with wire := s.link.wire ++ frame }⟩
  | receive {s chunk rest} (h : s.link.wire = chunk ++ rest) :
      StreamStep s (.receive chunk)
        { s with
          link := { s.link with wire := rest, received := s.link.received ++ chunk } }
  | handshake {s text rest} (hup : s.link.up = true) (hs : s.link.shaken = false)
      (hd : decode s.link.received = .ok (.simpleString text, rest)) :
      StreamStep s .handshake { s with link := { s.link with shaken := true, received := rest } }
  | stream {s cmd rest now order} (hup : s.link.up = true) (hs : s.link.shaken = true)
      (hd : decode s.link.received = .ok (cmd, rest)) :
      StreamStep s (.stream now order)
        { s with link := { s.link.apply now order cmd with received := rest } }
  /-- The acknowledgement is not a simple string. -/
  | refused {s v rest} (hup : s.link.up = true) (hs : s.link.shaken = false)
      (hd : decode s.link.received = .ok (v, rest)) (hv : ∀ text, v ≠ .simpleString text) :
      StreamStep s .giveUp { s with link := { s.link with up := false } }
  /-- The stream does not decode; a frame that is not complete is waited for instead. -/
  | broken {s e} (hup : s.link.up = true) (hd : decode s.link.received = .error e)
      (he : e.isEOF = false) :
      StreamStep s .giveUp { s with link := { s.link with up := false } }
  /-- The replica's own clients only read. -/
  | read {s d} (h : isWrite (commandName d.request) = false) :
      StreamStep s (.read d)
        { s with link := { s.link with db := (s.link.db.dispatch d.now d.order d.request).1 } }
  | pass {s now start order} :
      StreamStep s (.pass now start order)
        { s with link := { s.link with db := (s.link.db.activeExpiryPass now start order).1 } }

/-! ### The feed of the session -/

/-- The commands whose frames have left the queue. -/
def Feed.sent (f : Feed) : List Value := f.accepted.take f.delivered

/-- The frame that is delivered is the next of those accepted. -/
theorem Feed.Sound.sent_deliver {f : Feed} {rep : Replica} {history : List Write}
    {inflight : Option Value} (h : f.Sound rep history inflight) {frame : Bytes}
    {ch : Queue replicaQueueCap Bytes} (hr : rep.ch.recv = some (frame, ch)) :
    ∃ cmd, Feed.sent { f with delivered := f.delivered + 1 } = f.sent ++ [cmd] ∧
      encode cmd = frame := by
  obtain ⟨cmd, hdrop, hframe, -⟩ := h.frame hr
  refine ⟨cmd, ?_, hframe⟩
  change f.accepted.take (f.delivered + 1) = f.accepted.take f.delivered ++ [cmd]
  rw [List.take_add_one, ← List.head?_drop, hdrop]
  rfl

namespace Primary

variable {s s' : Primary} {l : Label} {aof : Bool} {i : Nat}

/-- A feed stays registered until it is removed. -/
theorem registered_step (h : Step aof s l s') {rep : Replica} (hrep : s.replicas.reps i = some rep)
    (hl : l ≠ .remove i) : ∃ rep', s'.replicas.reps i = some rep' := by
  have hoffer : ∀ cmd, ∃ rep', (s.offer cmd).replicas.reps i = some rep' :=
    fun cmd => ⟨_, Option.map_eq_some_iff.2 ⟨rep, hrep, rfl⟩⟩
  cases h with
  | check | fast | acquire | dispatch | release | pass | connection => exact ⟨rep, hrep⟩
  | propagate => exact hoffer _
  | heartbeat => exact hoffer _
  | add =>
      have hne : i ≠ s.replicas.next := by
        rintro rfl
        rw [s.replicas.unused _ le_rfl] at hrep
        cases hrep
      exact ⟨rep, (Function.update_of_ne hne _ _).trans hrep⟩
  | @remove id =>
      have hne : i ≠ id := fun e => hl (by rw [e])
      exact ⟨rep, (Function.update_of_ne hne _ _).trans hrep⟩
  | @deliver id rep₀ frame ch h hr =>
      by_cases hi : i = id
      · exact ⟨⟨ch⟩, by simp only [Replicas.deliver, hi, if_true, h, Option.map_some]⟩
      · exact ⟨rep, by simp only [Replicas.deliver, hi, if_false, hrep]⟩

/-- Unless it is one of its own, a delivery changes nothing of what a feed has sent; nor does
anything else. -/
theorem sent_step (h : Step aof s l s') {rep rep' : Replica} (hrep : s.replicas.reps i = some rep)
    (hrep' : s'.replicas.reps i = some rep')
    (hs : (s.feeds i).delivered ≤ (s.feeds i).accepted.length)
    (hl : ∀ frame, l ≠ .deliver i frame) : (s'.feeds i).sent = (s.feeds i).sent := by
  rcases FeedStep.of_step h hrep' with ⟨-, hi, -⟩ | ⟨-, -, hf⟩
  · rw [hi, s.replicas.unused _ le_rfl] at hrep
    cases hrep
  · generalize s'.feeds i = f' at hf
    cases hf with
    | same => rfl
    | offered cmd room =>
        rw [Feed.sent, Feed.Sound.accepted_append, List.take_append_of_le_length hs]
        rfl
    | delivered frame h => exact absurd h (hl frame)

/-- A registration. -/
theorem add_step (h : Step aof s .add s') :
    s'.replicas.reps s.replicas.next = some ⟨.empty⟩ ∧
      s'.feeds s.replicas.next = ⟨s.history.length, s.inflight, [], 0⟩ := by
  cases h
  exact ⟨Function.update_self _ _ _, Function.update_self _ _ _⟩

/-- A delivery. -/
theorem deliver_step {frame : Bytes} (h : Step aof s (.deliver i frame) s') :
    ∃ rep ch, s.replicas.reps i = some rep ∧ rep.ch.recv = some (frame, ch) ∧
      s'.feeds i = { s.feeds i with delivered := (s.feeds i).delivered + 1 } := by
  cases h with
  | @deliver _ rep _ ch h hr => exact ⟨rep, ch, h, hr, Function.update_self _ _ _⟩

end Primary

/-! ### The invariant -/

namespace System

/-- The commands the primary has written to a session, given the number of its feed. -/
def sent (p : Primary) : Option Nat → List Value
  | none => []
  | some i => (p.feeds i).sent

/-- The acknowledgement, while it is under way. -/
def greeting (k : Link) : List Value := if k.greeted && !k.shaken then [okValue] else []

/-- **The invariant**, for a property of the requests submitted to the primary. -/
structure Sound (Q : Value → Prop) (s : System) : Prop where
  logged : s.primary.Logged Q
  registered : ∀ i, s.link.id = some i → ∃ rep, s.primary.replicas.reps i = some rep
  up : s.link.up = true
  greeted : s.link.shaken = true ∨ s.link.id.isSome → s.link.greeted = true
  /-- What the replica has decoded and what has not reached it is what has been sent. -/
  stream : ∃ consumed coming, sent s.primary s.link.id = consumed ++ coming ∧
    s.link.received ++ s.link.wire = (greeting s.link ++ coming).flatMap encode ∧
    s.link.dispatched = consumed.filter (fun c => !isHeartbeat c) ∧
    (s.link.shaken = false → consumed = [])

namespace Sound

variable {Q : Value → Prop} {s s' : System} {consumed coming : List Value}

theorem start (Q : Value → Prop) (db replica : DB) : (System.start db replica).Sound Q where
  logged := .start Q db
  registered := nofun
  up := rfl
  greeted := nofun
  stream := ⟨[], [], rfl, rfl, rfl, fun _ => rfl⟩

/-- What is sent are requests of the primary's clients and heartbeats. -/
theorem mem_sent (hs : s.Sound Q) {c : Value} (hc : c ∈ sent s.primary s.link.id) :
    Q c ∨ c = pingCommand := by
  cases hid : s.link.id with
  | none =>
      rw [hid] at hc
      cases hc
  | some i =>
      rw [hid] at hc
      obtain ⟨rep, hrep⟩ := hs.registered i hid
      obtain ⟨x, hx, rfl⟩ := List.mem_map.1 (List.mem_of_mem_take hc)
      exact hs.logged.offered i rep hrep x (List.mem_filter.1 hx).1

/-- What is on its way to the replica is made of well-formed values. -/
theorem wellFormed (hQ : ∀ r, Q r → Decoded r) (hs : s.Sound Q)
    (hsent : sent s.primary s.link.id = consumed ++ coming) :
    ∀ c ∈ greeting s.link ++ coming, c.WellFormed := by
  intro c hc
  rcases List.mem_append.1 hc with hc | hc
  · have hok : c = okValue := by
      unfold greeting at hc
      split at hc
      · exact List.mem_singleton.1 hc
      · cases hc
    subst hok
    simp only [okValue, Value.WellFormed]
    decide
  · rcases hs.mem_sent (hsent ▸ List.mem_append_right _ hc) with h | rfl
    · exact (hQ c h).wellFormed
    · exact bulkCmd_wellFormed (by decide) (by decide)

/-- What the replica reads next, if anything, is the next command under way. -/
theorem next (hQ : ∀ r, Q r → Decoded r) (hs : s.Sound Q)
    (hsent : sent s.primary s.link.id = consumed ++ coming)
    (hbytes : s.link.received ++ s.link.wire = (greeting s.link ++ coming).flatMap encode) :
    (∃ e, decode s.link.received = .error e ∧ e.isEOF = true) ∨
      ∃ a as b, greeting s.link ++ coming = a :: as ∧ decode s.link.received = .ok (a, b) ∧
        b ++ s.link.wire = as.flatMap encode :=
  codec.dec_front (hs.wellFormed hQ hsent) hbytes

/-- Before the handshake, that is the acknowledgement. -/
theorem first (hs : s.Sound Q) (h : s.link.shaken = false)
    (hsent : sent s.primary s.link.id = coming) {a : Value} {as : List Value}
    (hf : greeting s.link ++ coming = a :: as) :
    s.link.greeted = true ∧ a = okValue ∧ as = coming := by
  have hg : s.link.greeted = true := by
    by_contra hg
    -- nothing is sent before the acknowledgement
    have hid : s.link.id = none := by
      by_contra hid
      exact hg (hs.greeted (.inr (Option.isSome_iff_ne_none.2 hid)))
    have hnil : coming = [] := by rw [← hsent, hid]; rfl
    simp [greeting, hg, hnil] at hf
  simp only [greeting, hg, h, Bool.not_false, Bool.and_self, if_true, List.singleton_append,
    List.cons.injEq] at hf
  exact ⟨hg, hf.1.symm, hf.2.symm⟩

theorem primary {l : Label} {p : Primary} (h : Step true s.primary l p)
    (hid : ∀ i, s.link.id = some i → l ≠ .remove i ∧ ∀ frame, l ≠ .deliver i frame)
    (hl : ∀ r, l.request? = some r → Q r) (hs : s.Sound Q) :
    System.Sound Q { s with primary := p } := by
  have hreg : ∀ i, s.link.id = some i → ∃ rep, p.replicas.reps i = some rep := by
    intro i hi
    obtain ⟨rep, hrep⟩ := hs.registered i hi
    exact Primary.registered_step h hrep (hid i hi).1
  have hsent : sent p s.link.id = sent s.primary s.link.id := by
    cases hi : s.link.id with
    | none => rfl
    | some i =>
        obtain ⟨rep, hrep⟩ := hs.registered i hi
        obtain ⟨rep', hrep'⟩ := hreg i hi
        exact Primary.sent_step h hrep hrep' (hs.logged.sound.feeds i rep hrep).delivered_le
          (hid i hi).2
  exact ⟨hs.logged.step h hl, hreg, hs.up, hs.greeted, by rw [hsent]; exact hs.stream⟩

theorem greet (h : s.link.greeted = false) (hs : s.Sound Q) :
    System.Sound Q { s with
      link := { s.link with greeted := true, wire := s.link.wire ++ encode okValue } } := by
  obtain ⟨consumed, coming, hsent, hbytes, hdisp, hfirst⟩ := hs.stream
  have hsh : s.link.shaken = false := by
    by_contra hsh
    rw [hs.greeted (.inl (by simpa using hsh))] at h
    cases h
  have hid : s.link.id = none := by
    by_contra hid
    rw [hs.greeted (.inr (Option.isSome_iff_ne_none.2 hid))] at h
    cases h
  rw [hid, sent, eq_comm, List.append_eq_nil_iff] at hsent
  obtain ⟨rfl, rfl⟩ := hsent
  refine ⟨hs.logged, hs.registered, hs.up, fun _ => rfl, [], [], by rw [hid]; rfl, ?_, hdisp,
    fun _ => rfl⟩
  simp only [greeting, h, Bool.false_and, Bool.false_eq_true, if_false, List.append_nil,
    List.flatMap_nil] at hbytes
  simp [greeting, hsh, ← List.append_assoc, hbytes]

theorem register {p : Primary} (hg : s.link.greeted = true) (hid : s.link.id = none)
    (h : Step true s.primary .add p) (hs : s.Sound Q) :
    System.Sound Q ⟨p, { s.link with id := some s.primary.replicas.next }⟩ := by
  obtain ⟨consumed, coming, hsent, hbytes, hdisp, hfirst⟩ := hs.stream
  obtain ⟨hrep, hfeed⟩ := Primary.add_step h
  refine ⟨hs.logged.step h nofun, fun i hi => ?_, hs.up, fun _ => hg, consumed, coming, ?_, hbytes,
    hdisp, hfirst⟩
  · cases hi
    exact ⟨_, hrep⟩
  · change (p.feeds s.primary.replicas.next).sent = _
    rw [← hsent, hid, hfeed]
    rfl

theorem deliver {i : Nat} {frame : Bytes} {p : Primary} (hid : s.link.id = some i)
    (h : Step true s.primary (.deliver i frame) p) (hs : s.Sound Q) :
    System.Sound Q ⟨p, { s.link with wire := s.link.wire ++ frame }⟩ := by
  obtain ⟨consumed, coming, hsent, hbytes, hdisp, hfirst⟩ := hs.stream
  obtain ⟨rep, ch, hrep, hr, hfeed⟩ := Primary.deliver_step h
  obtain ⟨cmd, hcmd, rfl⟩ := (hs.logged.sound.feeds i rep hrep).sent_deliver hr
  refine ⟨hs.logged.step h nofun, fun j hj => ?_, hs.up, hs.greeted, consumed, coming ++ [cmd], ?_,
    ?_, hdisp, hfirst⟩
  · cases hid.symm.trans hj
    exact Primary.registered_step h hrep nofun
  · rw [hid, sent] at hsent
    rw [hid, sent, hfeed, hcmd, hsent, List.append_assoc]
  · rw [← List.append_assoc, hbytes, ← List.append_assoc (greeting _)]
    simp [greeting]

/-- The replica reads the acknowledgement. -/
theorem handshake (hQ : ∀ r, Q r → Decoded r) (h : s.link.shaken = false) {v : Value}
    {rest : Bytes} (hd : decode s.link.received = .ok (v, rest)) (hs : s.Sound Q) :
    v = okValue ∧
      System.Sound Q { s with link := { s.link with shaken := true, received := rest } } := by
  obtain ⟨consumed, coming, hsent, hbytes, hdisp, hfirst⟩ := hs.stream
  rcases hs.next hQ hsent hbytes with ⟨e, he, -⟩ | ⟨a, as, b, hf, ha, hb⟩
  · rw [hd] at he
    cases he
  · rw [hd] at ha
    cases ha
    rw [hfirst h] at hsent
    obtain ⟨hg, rfl, rfl⟩ := hs.first h hsent hf
    refine ⟨rfl, hs.logged, hs.registered, hs.up, fun _ => hg, consumed, as, ?_, ?_, hdisp, nofun⟩
    · rw [hfirst h]
      exact hsent
    · simpa [greeting] using hb

/-- The replica reads a command: it is one that has been sent. -/
theorem stream_step (hQ : ∀ r, Q r → Decoded r) (h : s.link.shaken = true) {cmd : Value}
    {rest : Bytes} (hd : decode s.link.received = .ok (cmd, rest)) (now : Time)
    (order : RangeOrder) (hs : s.Sound Q) :
    cmd ∈ sent s.primary s.link.id ∧
      System.Sound Q { s with link := { s.link.apply now order cmd with received := rest } } := by
  obtain ⟨consumed, coming, hsent, hbytes, hdisp, hfirst⟩ := hs.stream
  have hgr : greeting s.link = [] := by simp [greeting, h]
  rcases hs.next hQ hsent hbytes with ⟨e, he, -⟩ | ⟨a, as, b, hf, ha, hb⟩
  · rw [hd] at he
    cases he
  · rw [hd] at ha
    cases ha
    rw [hgr, List.nil_append] at hf
    subst hf
    refine ⟨by rw [hsent]; simp, hs.logged, hs.registered, hs.up, hs.greeted, consumed ++ [cmd], as,
      ?_, ?_, ?_, fun hn => ?_⟩
    · rw [List.append_assoc]
      exact hsent
    · change rest ++ s.link.wire = (greeting s.link ++ as).flatMap encode
      rw [hgr]
      exact hb
    · change (if isHeartbeat cmd then _ else _) = _
      rw [hdisp]
      cases hcmd : isHeartbeat cmd <;> simp [hcmd]
    · cases h.symm.trans hn

/-- **One step keeps the invariant**, if the request submitted with it has the property. -/
theorem step (hQ : ∀ r, Q r → Decoded r) {l : StreamLabel} (h : StreamStep s l s')
    (hl : ∀ r, l.request? = some r → Q r) (hs : s.Sound Q) : s'.Sound Q := by
  cases h with
  | primary h hid => exact hs.primary h hid hl
  | greet h => exact hs.greet h
  | register hg hid h => exact hs.register hg hid h
  | deliver hid h => exact hs.deliver hid h
  | @receive chunk rest h =>
      obtain ⟨consumed, coming, hsent, hbytes, hdisp, hfirst⟩ := hs.stream
      refine ⟨hs.logged, hs.registered, hs.up, hs.greeted, consumed, coming, hsent, ?_, hdisp,
        hfirst⟩
      rw [h, ← List.append_assoc] at hbytes
      exact hbytes
  | handshake _ h hd => exact (hs.handshake hQ h hd).2
  | @stream cmd rest now order _ h hd => exact (hs.stream_step hQ h hd now order).2
  | refused _ h hd hv =>
      -- the acknowledgement is the simple string it should be
      exact absurd (hs.handshake hQ h hd).1 (hv _)
  | @broken e _ hd he =>
      obtain ⟨consumed, coming, hsent, hbytes, -⟩ := hs.stream
      rcases hs.next hQ hsent hbytes with ⟨e', he', hq⟩ | ⟨a, as, b, -, ha, -⟩
      · rw [hd] at he'
        cases he'
        rw [hq] at he
        cases he
      · rw [hd] at ha
        cases ha
  | read | pass => exact ⟨hs.logged, hs.registered, hs.up, hs.greeted, hs.stream⟩

/-- What there was room for: what the replica has read, what is under way, what is queued. -/
theorem accepted_eq {i : Nat} (hid : s.link.id = some i)
    (hsent : sent s.primary s.link.id = consumed ++ coming) :
    (s.primary.feeds i).accepted = consumed ++
      (coming ++ (s.primary.feeds i).accepted.drop (s.primary.feeds i).delivered) := by
  rw [hid, sent, Feed.sent] at hsent
  rw [← List.append_assoc, ← hsent, List.take_append_drop]

/-- Nothing is under way when the connection and the queue are empty. -/
theorem idle (hQ : ∀ r, Q r → Decoded r) (hs : s.Sound Q)
    (hsent : sent s.primary s.link.id = consumed ++ coming)
    (hbytes : s.link.received ++ s.link.wire = (greeting s.link ++ coming).flatMap encode)
    (hr : s.link.received = []) (hw : s.link.wire = []) : coming = [] := by
  have hlen : (greeting s.link ++ coming).length ≤
      ((greeting s.link ++ coming).flatMap encode).length :=
    codec.length_le_flatMap (hs.wellFormed hQ hsent)
  rw [← hbytes, hr, hw] at hlen
  have hnil := List.length_eq_zero_iff.1 (Nat.le_zero.1 hlen)
  exact (List.append_eq_nil_iff.1 hnil).2

end Sound

/-! ### The stores -/

/-- No deadline is set, and the replica's keyspace is what the commands it has dispatched make of
the one it started with. -/
structure Traced (db replica : DB) (s : System) : Prop where
  sound : s.Sound fun r => Decoded r ∧ ¬ SetsDeadline r
  primary : s.primary.Traced (db.keyspace 0)
  timeless : s.link.db.Timeless
  replica : ∀ t, s.link.db.keyspace t = rebuild s.link.dispatched (replica.keyspace t)

namespace Traced

variable {db replica : DB} {s s' : System}

theorem start (h : db.Timeless) (h' : replica.Timeless) :
    (System.start db replica).Traced db replica :=
  ⟨.start _ db replica, .start h, h', fun _ => rfl⟩

theorem step {l : StreamLabel} (h : StreamStep s l s')
    (hl : ∀ r, l.request? = some r → Decoded r ∧ ¬ SetsDeadline r) (hs : s.Traced db replica) :
    s'.Traced db replica := by
  have hsound := hs.sound.step (fun _ h => h.1) h hl
  have hprimary : ∀ {l : Label} {p : Primary}, Step true s.primary l p →
      p.Traced (db.keyspace 0) := fun hp =>
    hs.primary.step (.of_step hp hs.sound.logged.sound hs.sound.logged.reads)
      fun c r hr => (hs.sound.logged.requests c r hr).2
  cases h with
  | primary h | register _ _ h | deliver _ h =>
      exact ⟨hsound, hprimary h, hs.timeless, hs.replica⟩
  | greet | receive | handshake | refused | broken =>
      exact ⟨hsound, hs.primary, hs.timeless, hs.replica⟩
  | @stream cmd rest now order _ h hd =>
      have hmem := (hs.sound.stream_step (fun _ h => h.1) h hd now order).1
      cases hb : isHeartbeat cmd with
      | true => exact ⟨hsound, hs.primary, by simpa [Link.apply, hb] using hs.timeless,
          by simpa [Link.apply, hb] using hs.replica⟩
      | false =>
          have hnone : ¬ SetsDeadline cmd := by
            rcases hs.sound.mem_sent hmem with h | rfl
            · exact h.2
            · exact absurd hb (by decide)
          refine ⟨hsound, hs.primary, ?_, fun t => ?_⟩
          · simpa [Link.apply, hb] using hs.timeless.dispatch hnone
          · simp only [Link.apply, hb, Bool.false_eq_true, if_false]
            rw [hs.timeless.keyspace_dispatch hnone, hs.replica, rebuild_append]
            rfl
  | @read d h =>
      have hnone : ¬ SetsDeadline d.request := fun hd => by
        rw [isWrite_of_setsDeadline hd] at h
        cases h
      refine ⟨hsound, hs.primary, hs.timeless.dispatch hnone, fun t => ?_⟩
      rw [← hs.replica t]
      exact hs.timeless.keyspace_unrecorded hnone (.inl h) t
  | @pass now start order =>
      have hr := DB.activeExpiryPass_reaped now start order s.link.db
      refine ⟨hsound, hs.primary, hs.timeless.reaped hr, fun t => ?_⟩
      rw [← hs.replica t]
      exact DB.Timeless.keyspace_reaped hs.timeless hr t

end Traced

end System

/-- The writes there was room for are among the writes offered, in order; all of them, if there
was always room. -/
theorem Feed.accepted_sublist (f : Feed) :
    (f.accepted.filter fun c => !isHeartbeat c).Sublist f.writes :=
  (List.filter_sublist.map _).filter _

/-- While there is room every write is accepted. -/
theorem Feed.accepted_of_room {f : Feed} (h : ∀ x ∈ f.offered, x.2 = true) :
    (f.accepted.filter fun c => !isHeartbeat c) = f.writes := by
  rw [Feed.accepted, List.filter_eq_self.2 h]
  rfl

/-- **The order of the replication stream.**  On a primary with a log, over one session, whatever
decoded requests clients submit and however the steps of the two sides interleave, at every
instant:

* the replica has dispatched writes of the primary, in the order in which the primary applied
  them and each at most once, from the first write on that was propagated after the registration;
* it has dispatched no heartbeat;
* every write there was room for has been dispatched or is under way;
* if there was room for every command, what it has dispatched is a contiguous piece of the
  primary's writes, and, if no request sets a deadline, a replica whose keyspace was that of the
  primary before the first of these has that of the primary after the last. -/
theorem replication_order (db replica : DB) (labels : List StreamLabel) (s : System)
    (hdec : ∀ l ∈ labels, ∀ r, l.request? = some r → Decoded r)
    (hrun : Run StreamStep (System.start db replica) labels s) :
    (s.link.id = none → s.link.dispatched = []) ∧
    ∀ i, s.link.id = some i →
      let feed := s.primary.feeds i
      let writes := s.primary.history.map Write.request
      feed.writes <+: writes.drop feed.first ∧
      s.link.dispatched.Sublist (writes.drop feed.first) ∧
      (∀ c ∈ s.link.dispatched, isHeartbeat c = false) ∧
      (∃ transit, feed.accepted.filter (fun c => !isHeartbeat c) = s.link.dispatched ++ transit ∧
        (s.link.received = [] → s.link.wire = [] →
          (∀ rep, s.primary.replicas.reps i = some rep → rep.ch.items = []) → transit = [])) ∧
      ((∀ x ∈ feed.offered, x.2 = true) →
        s.link.dispatched <+: writes.drop feed.first ∧
        ((∀ l ∈ labels, ∀ r, l.request? = some r → ¬ SetsDeadline r) →
          db.Timeless → replica.Timeless → ∀ t wi wj,
            s.primary.history[feed.first]? = some wi →
            replica.keyspace t = wi.before.keyspace t →
            s.link.dispatched ≠ [] →
            s.primary.history[feed.first + s.link.dispatched.length - 1]? = some wj →
            s.link.db.keyspace t = wj.after.keyspace t)) := by
  have hs : s.Sound Decoded := hrun.preserves (fun _ _ _ hl h hs => hs.step (fun _ h => h) h hl)
    hdec (.start Decoded db replica)
  obtain ⟨consumed, coming, hsent, hbytes, hdisp, -⟩ := hs.stream
  refine ⟨fun hid => ?_, fun i hid => ?_⟩
  · rw [hid, System.sent, eq_comm, List.append_eq_nil_iff] at hsent
    rw [hdisp, hsent.1]
    rfl
  obtain ⟨rep, hrep⟩ := hs.registered i hid
  intro feed writes
  have hacc := System.Sound.accepted_eq hid hsent
  have hwrites : feed.writes <+: writes.drop feed.first := by
    rw [← List.map_drop, ← hs.logged.contiguous hrep]
    exact List.prefix_append _ _
  -- what the queue accepted, without the heartbeats: dispatched, then under way or queued
  have hfilter : feed.accepted.filter (fun c => !isHeartbeat c) = s.link.dispatched ++
      (coming ++ feed.accepted.drop feed.delivered).filter (fun c => !isHeartbeat c) := by
    rw [hdisp, ← List.filter_append, ← hacc]
  have hsub : s.link.dispatched.Sublist (feed.accepted.filter fun c => !isHeartbeat c) :=
    hfilter ▸ List.sublist_append_left _ _
  refine ⟨hwrites, (hsub.trans feed.accepted_sublist).trans hwrites.sublist, fun c hc => ?_,
    ⟨_, hfilter, fun hr hw hq => ?_⟩, fun hroom => ?_⟩
  · rw [hdisp] at hc
    simpa using (List.mem_filter.1 hc).2
  · have hqueue := (hs.logged.sound.feeds i rep hrep).queue
    rw [hq rep hrep, eq_comm, List.map_eq_nil_iff] at hqueue
    rw [hs.idle (fun _ h => h) hsent hbytes hr hw, hqueue]
    rfl
  -- no offer found the queue full, so nothing is missing in between
  have hpiece : s.link.dispatched <+: writes.drop feed.first := by
    refine List.IsPrefix.trans ?_ hwrites
    rw [← Feed.accepted_of_room hroom, hfilter]
    exact List.prefix_append _ _
  refine ⟨hpiece, fun hnone hdb hreplica t wi wj hwi hbefore hne hwj => ?_⟩
  have ht : s.Traced db replica := hrun.preserves (fun _ _ _ hl h hs => hs.step h hl)
    (fun l hl r hr => ⟨hdec l hl r hr, hnone l hl r hr⟩) (.start hdb hreplica)
  have hpos := List.length_pos_iff.2 hne
  have hlast : feed.first + s.link.dispatched.length - 1 + 1 =
      feed.first + s.link.dispatched.length := by
    omega
  -- the writes up to the last one dispatched: those before the first, and those dispatched
  have hsegment : writes.take (feed.first + s.link.dispatched.length) =
      writes.take feed.first ++ s.link.dispatched := by
    rw [List.take_add, ← List.prefix_iff_eq_take.1 hpiece]
  rw [ht.replica t, hbefore, ht.primary.before _ wi hwi t, ht.primary.after _ wj hwj t,
    ← rebuild_append, List.map_take, List.map_take, ← hsegment, hlast]

/-- A session with one write and a heartbeat behind it. -/
def oneWrite : List StreamLabel :=
  [.greet, .register, .primary (.check 0 setK), .primary (.acquire 0),
    .primary (.dispatch 0 0 .sorted), .primary (.propagate 0), .primary .heartbeat,
    .deliver (encode setK), .receive (encode okValue ++ encode setK), .handshake,
    .stream 5 .sorted]

/-- One write that reaches the replica. -/
theorem replication_order_oneWrite :
    ∃ s, Run StreamStep (System.start DB.new DB.new) oneWrite s ∧ s.link.dispatched = [setK] ∧
      s.link.dispatched <+:
        (s.primary.history.map Write.request).drop (s.primary.feeds 0).first := by
  have hrun : Run StreamStep (System.start DB.new DB.new) oneWrite _ :=
    .cons (.greet rfl) (.cons (.register rfl rfl .add)
      (.cons (.primary (.check rfl) fun _ _ => ⟨nofun, nofun⟩)
      (.cons (.primary (.acquire rfl rfl) fun _ _ => ⟨nofun, nofun⟩)
      (.cons (.primary (.dispatch rfl) fun _ _ => ⟨nofun, nofun⟩)
      (.cons (.primary (.propagate rfl) fun _ _ => ⟨nofun, nofun⟩)
      (.cons (.primary .heartbeat fun _ _ => ⟨nofun, nofun⟩)
      (.cons (.deliver rfl (.deliver rfl rfl)) (.cons (.receive rfl)
      (.cons (.handshake rfl rfl rfl) (.cons (.stream rfl rfl rfl) (.nil _)))))))))))
  have hdec : ∀ l ∈ oneWrite, ∀ r, l.request? = some r → Decoded r := by
    intro l hl r hr
    simp only [oneWrite, List.mem_cons, List.not_mem_nil, or_false] at hl
    rcases hl with rfl | rfl | rfl | rfl | rfl | rfl | rfl | rfl | rfl | rfl | rfl <;> cases hr
    exact decoded_iff.2 (bulkCmd_wellFormed (by decide) (by decide))
  refine ⟨_, hrun, rfl, ?_⟩
  exact (((replication_order DB.new DB.new oneWrite _ hdec hrun).2 0 rfl).2.2.2.2 (by decide)).1

end MiniRedis.Replication
