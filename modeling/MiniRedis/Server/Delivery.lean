import MiniRedis.Server.PubSub

/-!
# Server — delivery of published messages

The broker under any interleaving of its methods: `Subscribe` and `Unsubscribe` hold the lock for
writing, any number of clients are inside `Publish` with the lock held for reading, each between two
of its sends, and mailboxes are received from.  A client is in one `Publish` at a time.

For the statements the machine numbers the calls of `Publish` and keeps what has become of each, and
for each subscriber the calls a copy of whose message has arrived; no step looks at these.

* `Bus.Books`, `Bus.Mail`: the invariants, one about the calls and one about the mailboxes.
* `publish_delivers`: **a call of `Publish` puts one copy into every mailbox of its channel that has
  room, and returns their number; a subscriber gets the messages of one client in order and once.**
* `Hub.run_bus`: every run of the server is, for its broker, one of this machine.
-/

namespace MiniRedis.Server

open Protocol Store Cmd Machine

/-- What has become of a call of `Publish`: who made it, those registered on the channel when it
took the lock, whom it has sent to and whether there was room, and what it returned. -/
structure Publication (τ : Type) where
  client : τ
  msg : Message
  registered : List Subscriber
  tried : List (Subscriber × Bool)
  returned : Option Nat

namespace Publication

variable {τ : Type}

/-- How many of the mailboxes had room. -/
def reached (c : Publication τ) : Nat := (c.tried.filter Prod.snd).length

/-- One more send. -/
def attempt (sub : Subscriber) (room : Bool) (c : Publication τ) : Publication τ :=
  { c with tried := c.tried ++ [(sub, room)] }

/-- The call has sent to all that were registered, and returned how many had room. -/
def Finished (c : Publication τ) : Prop :=
  c.tried.map Prod.fst = c.registered ∧ c.returned = some c.reached

end Publication

/-- The broker and those who use it. -/
structure Bus (τ : Type) where
  broker : Broker
  /-- A `Publish` under way, with the number of the call. -/
  publishing : τ → Option (Nat × Publishing)
  calls : List (Publication τ)
  /-- The calls a copy of whose message went into the mailbox, with their clients. -/
  arrived : Subscriber → List (τ × Nat)
  received : Subscriber → List Message

namespace Bus

variable {τ : Type}

/-- No subscriber, and nothing published. -/
def start : Bus τ := ⟨.new, fun _ => none, [], fun _ => [], fun _ => []⟩

/-- No `Publish` holds the lock. -/
def Unread (s : Bus τ) : Prop := ∀ t, s.publishing t = none

/-- The calls of the broker, a `Publish` send by send, and the receives of the subscribers. -/
inductive Label (τ : Type) where
  | subscribe (channel : Bytes) (sub : Subscriber)
  | unsubscribe (channel : Bytes) (sub : Subscriber)
  | publish (t : τ) (msg : Message)
  | send (t : τ)
  | published (t : τ)
  | receive (sub : Subscriber)

/-- The broker under its lock: a `Publish` holds it for reading from its first send to its last. -/
inductive Step [DecidableEq τ] : Bus τ → Label τ → Bus τ → Prop where
  /-- A subscriber is registered at most once. -/
  | subscribe {s channel sub} (hfree : s.Unread) (hnew : sub ∉ s.broker.listeners channel) :
      Step s (.subscribe channel sub) { s with broker := s.broker.subscribe channel sub }
  | unsubscribe {s channel sub} (hfree : s.Unread) :
      Step s (.unsubscribe channel sub) { s with broker := s.broker.unsubscribe channel sub }
  | publish {s t msg} (hidle : s.publishing t = none) :
      Step s (.publish t msg)
        { s with
          publishing := Function.update s.publishing t
            (some (s.calls.length, ⟨msg, s.broker.listeners msg.channel, 0⟩))
          calls := s.calls ++ [⟨t, msg, s.broker.listeners msg.channel, [], none⟩] }
  | send {s t k msg sub rest n} (h : s.publishing t = some (k, ⟨msg, sub :: rest, n⟩)) :
      Step s (.send t)
        { s with
          broker := (s.broker.offer msg sub).1
          publishing := Function.update s.publishing t
            (some (k, ⟨msg, rest, n + if (s.broker.offer msg sub).2 then 1 else 0⟩))
          calls := s.calls.modify k (.attempt sub (!(s.broker.mailbox sub).full))
          arrived := if (s.broker.mailbox sub).full then s.arrived
            else Function.update s.arrived sub (s.arrived sub ++ [(t, k)]) }
  | published {s t k msg n} (h : s.publishing t = some (k, ⟨msg, [], n⟩)) :
      Step s (.published t)
        { s with
          publishing := Function.update s.publishing t none
          calls := s.calls.modify k fun c => { c with returned := some n } }
  | receive {s sub msg q} (h : (s.broker.mailbox sub).recv = some (msg, q)) :
      Step s (.receive sub)
        { s with
          broker := s.broker.setMailbox sub q
          received := Function.update s.received sub (s.received sub ++ [msg]) }

/-! ### The calls -/

/-- A call under way is on record: those on the channel's list are still those that were registered,
and it has sent to all but the ones that are left. -/
structure UnderWay (listeners : List Subscriber) (t : τ) (p : Publishing) (c : Publication τ) :
    Prop where
  client : c.client = t
  msg : c.msg = p.msg
  returned : c.returned = none
  registered : c.registered = listeners
  tried : c.tried.map Prod.fst ++ p.rest = c.registered
  delivered : p.delivered = c.reached

/-- **The record of the calls.** -/
structure Books (s : Bus τ) : Prop where
  nodup : ∀ channel, (s.broker.listeners channel).Nodup
  registered : ∀ {k : Nat} {c : Publication τ}, s.calls[k]? = some c → c.registered.Nodup
  current : ∀ {t : τ} {k : Nat} {p : Publishing}, s.publishing t = some (k, p) →
    ∃ c, s.calls[k]? = some c ∧ UnderWay (s.broker.listeners p.msg.channel) t p c
  latest : ∀ {t : τ} {k : Nat} {p : Publishing}, s.publishing t = some (k, p) →
    ∀ {k' : Nat} {c : Publication τ}, s.calls[k']? = some c → c.client = t → k' ≤ k
  finished : ∀ {k : Nat} {c : Publication τ}, s.calls[k]? = some c →
    c.Finished ∨ ∃ p, s.publishing c.client = some (k, p)

/-- Nothing is under way, and the registrations change. -/
theorem Books.of_unread {s : Bus τ} (h : s.Books) (hfree : s.Unread) {b : Broker}
    (hnodup : ∀ channel, (b.listeners channel).Nodup) : ({ s with broker := b } : Bus τ).Books where
  nodup := hnodup
  registered := h.registered
  current hp := by
    rw [show _ = none from hfree _] at hp
    cases hp
  latest hp := by
    rw [show _ = none from hfree _] at hp
    cases hp
  finished := h.finished

/-- A subscriber who was not registered is registered once. -/
theorem nodup_subscribe {s : Bus τ} (h : s.Books) {channel : Bytes} {sub : Subscriber}
    (hnew : sub ∉ s.broker.listeners channel) (channel' : Bytes) :
    ((s.broker.subscribe channel sub).listeners channel').Nodup := by
  change (Registry.enrolled (Registry.enrol channel sub s.broker.subs) channel').Nodup
  rw [Registry.enrolled_enrol]
  split
  · exact List.nodup_append.2 ⟨h.nodup channel, List.nodup_singleton sub, fun a ha b hb => by
      rw [List.mem_singleton.1 hb]
      exact fun hab => hnew (hab ▸ ha)⟩
  · exact h.nodup channel'

/-- The others stay registered once. -/
theorem nodup_unsubscribe {s : Bus τ} (h : s.Books) (channel : Bytes) (sub : Subscriber)
    (channel' : Bytes) : ((s.broker.unsubscribe channel sub).listeners channel').Nodup := by
  change (Registry.enrolled (Registry.withdraw channel sub s.broker.subs) channel').Nodup
  rw [Registry.enrolled_withdraw]
  split
  · exact (Registry.swapOut_perm sub _).nodup_iff.2 ((h.nodup channel).erase sub)
  · exact h.nodup channel'

variable {s s' : Bus τ}

/-- The call on record under the number of one under way is that one. -/
theorem Books.underWay (h : s.Books) {t : τ} {k : Nat} {p : Publishing} {c : Publication τ}
    (hp : s.publishing t = some (k, p)) (hc : s.calls[k]? = some c) :
    UnderWay (s.broker.listeners p.msg.channel) t p c := by
  obtain ⟨c', hc', hway⟩ := h.current hp
  cases hc.symm.trans hc'
  exact hway

/-- A call under way belongs to the client that makes it. -/
theorem Books.number_ne (h : s.Books) {t t' : τ} {k k' : Nat} {p p' : Publishing}
    (hp : s.publishing t = some (k, p)) (hp' : s.publishing t' = some (k', p')) (hne : t' ≠ t) :
    k' ≠ k := by
  rintro rfl
  obtain ⟨c, hc, hway⟩ := h.current hp
  exact hne ((h.underWay hp' hc).client.symm.trans hway.client)

/-- A client is in one call at a time. -/
theorem Books.finished_of_ne (h : s.Books) {t : τ} {k k' : Nat} {p : Publishing}
    {c : Publication τ} (hp : s.publishing t = some (k, p)) (hc : s.calls[k']? = some c)
    (hne : k' ≠ k) : c.Finished ∨ c.client ≠ t ∧ ∃ p, s.publishing c.client = some (k', p) := by
  rcases h.finished hc with hfin | ⟨p', hp'⟩
  · exact .inl hfin
  · refine .inr ⟨?_, p', hp'⟩
    intro ht
    rw [ht, hp] at hp'
    cases hp'
    exact hne rfl

variable [DecidableEq τ]

/-- What a step of the client `t` makes of the call it is in: the call changes, and with it what is
under way. -/
theorem Books.of_modify (h : s.Books) {t : τ} {k : Nat} {p : Publishing}
    (hp : s.publishing t = some (k, p)) {f : Publication τ → Publication τ}
    {o : Option Publishing} (hsame : ∀ c, (f c).client = c.client ∧ (f c).registered = c.registered)
    (hcalls : s'.calls = s.calls.modify k f)
    (hpub : s'.publishing = Function.update s.publishing t (o.map (k, ·)))
    (hlist : ∀ channel, s'.broker.listeners channel = s.broker.listeners channel)
    (hway : ∀ c, s.calls[k]? = some c → UnderWay (s.broker.listeners p.msg.channel) t p c →
      (o = none → (f c).Finished) ∧
        ∀ p', o = some p' → UnderWay (s.broker.listeners p'.msg.channel) t p' (f c)) :
    s'.Books := by
  -- the calls and what is under way afterwards: those of the client, and the others as before
  have calls : ∀ {k' : Nat} {c : Publication τ}, s'.calls[k']? = some c ↔
      k' = k ∧ (∃ a, s.calls[k]? = some a ∧ f a = c) ∨ k' ≠ k ∧ s.calls[k']? = some c := by
    rw [hcalls]
    exact getElem?_modify_eq_some
  have under : ∀ {t' : τ} {k' : Nat} {p' : Publishing}, s'.publishing t' = some (k', p') →
      t' = t ∧ k' = k ∧ o = some p' ∨ t' ≠ t ∧ s.publishing t' = some (k', p') := by
    intro t' k' p' hp'
    rw [hpub] at hp'
    rcases update_eq_some.1 hp' with ⟨ht, ho⟩ | hother
    · obtain ⟨p'', ho, hkp⟩ := Option.map_eq_some_iff.1 ho
      cases hkp
      exact .inl ⟨ht, rfl, ho⟩
    · exact .inr hother
  refine ⟨fun channel => ?_, fun {k' c} hc => ?_, fun {t' k' p'} hp' => ?_,
    fun {t' k' p'} hp' {k'' c} hc hclient => ?_, fun {k' c} hc => ?_⟩
  · rw [hlist]
    exact h.nodup channel
  · rcases calls.1 hc with ⟨-, c', hc', rfl⟩ | ⟨-, hc⟩
    · rw [(hsame c').2]
      exact h.registered hc'
    · exact h.registered hc
  · rcases under hp' with ⟨rfl, rfl, ho⟩ | ⟨ht, hp'⟩
    · obtain ⟨c, hc, hw⟩ := h.current hp
      exact ⟨f c, calls.2 (.inl ⟨rfl, c, hc, rfl⟩), hlist _ ▸ (hway c hc hw).2 _ ho⟩
    · obtain ⟨c, hc, hw⟩ := h.current hp'
      exact ⟨c, calls.2 (.inr ⟨h.number_ne hp hp' ht, hc⟩), hlist _ ▸ hw⟩
  · have hold : ∃ c', s.calls[k'']? = some c' ∧ c'.client = t' := by
      rcases calls.1 hc with ⟨rfl, c', hc', rfl⟩ | ⟨-, hc⟩
      · exact ⟨c', hc', (hsame c').1 ▸ hclient⟩
      · exact ⟨c, hc, hclient⟩
    obtain ⟨c', hc', hclient'⟩ := hold
    rcases under hp' with ⟨rfl, rfl, -⟩ | ⟨-, hp'⟩
    · exact h.latest hp hc' hclient'
    · exact h.latest hp' hc' hclient'
  · rcases calls.1 hc with ⟨rfl, c', hc', rfl⟩ | ⟨hk, hc⟩
    · have hw := h.underWay hp hc'
      cases o with
      | none => exact .inl ((hway c' hc' hw).1 rfl)
      | some p' =>
          refine .inr ⟨p', ?_⟩
          rw [hpub, (hsame c').1, hw.client, Function.update_self]
          rfl
    · rcases h.finished_of_ne hp hc hk with hfin | ⟨hne, p', hp'⟩
      · exact .inl hfin
      · refine .inr ⟨p', ?_⟩
        rw [hpub, Function.update_of_ne hne]
        exact hp'

/-- A call begins with the subscribers of its channel. -/
theorem Books.publish (h : s.Books) {t : τ} (msg : Message) (hidle : s.publishing t = none) :
    ({ s with
        publishing := Function.update s.publishing t
          (some (s.calls.length, ⟨msg, s.broker.listeners msg.channel, 0⟩))
        calls := s.calls ++ [⟨t, msg, s.broker.listeners msg.channel, [], none⟩] } :
      Bus τ).Books := by
  refine ⟨h.nodup, ?_, ?_, ?_, ?_⟩
  · intro k c hc
    rcases getElem?_concat_eq_some.1 hc with hc | ⟨-, rfl⟩
    · exact h.registered hc
    · exact h.nodup msg.channel
  · intro t' k p hp
    rcases update_eq_some.1 hp with ⟨ht, hp⟩ | ⟨-, hp⟩
    · cases hp
      exact ⟨_, getElem?_concat_eq_some.2 (.inr ⟨rfl, rfl⟩), ht.symm, rfl, rfl, rfl, rfl, rfl⟩
    · obtain ⟨c, hc, hway⟩ := h.current hp
      exact ⟨c, getElem?_concat_eq_some.2 (.inl hc), hway⟩
  · intro t' k p hp k' c hc hclient
    rcases update_eq_some.1 hp with ⟨-, hp⟩ | ⟨ht, hp⟩
    · cases hp
      rcases getElem?_concat_eq_some.1 hc with hc | ⟨rfl, -⟩
      · exact (List.getElem?_eq_some_iff.1 hc).1.le
      · exact le_rfl
    · rcases getElem?_concat_eq_some.1 hc with hc | ⟨-, rfl⟩
      · exact h.latest hp hc hclient
      · exact absurd hclient.symm ht
  · intro k c hc
    rcases getElem?_concat_eq_some.1 hc with hc | ⟨rfl, rfl⟩
    · rcases h.finished hc with hfin | ⟨p, hp⟩
      · exact .inl hfin
      · refine .inr ⟨p, ?_⟩
        have hne : c.client ≠ t := fun ht => by
          rw [ht, hidle] at hp
          cases hp
        exact (Function.update_of_ne hne _ _).trans hp
    · exact .inr ⟨_, Function.update_self _ _ _⟩

omit [DecidableEq τ] in
theorem reached_attempt (c : Publication τ) (sub : Subscriber) (room : Bool) :
    (c.attempt sub room).reached = c.reached + if room then 1 else 0 := by
  cases room <;> simp [Publication.reached, Publication.attempt]

/-- A send finds room just when the mailbox is not full. -/
theorem offer_room (b : Broker) (msg : Message) (sub : Subscriber) :
    (b.offer msg sub).2 = !(b.mailbox sub).full := by
  unfold Broker.offer Queue.send Queue.full
  by_cases hroom : (b.mailbox sub).items.length < subMailboxCap
  · simp [hroom]
  · simp [hroom, Nat.not_lt.1 hroom]

/-- **Every step keeps the record.** -/
theorem Books.step (h : s.Books) {l : Label τ} (hstep : Step s l s') : s'.Books := by
  cases hstep with
  | subscribe hfree hnew => exact h.of_unread hfree (nodup_subscribe h hnew)
  | unsubscribe hfree => exact h.of_unread hfree (nodup_unsubscribe h _ _)
  | publish hidle => exact h.publish _ hidle
  | @send t k msg sub rest n hp =>
      refine h.of_modify hp (f := .attempt sub (!(s.broker.mailbox sub).full))
        (o := some ⟨msg, rest, _⟩) (fun _ => ⟨rfl, rfl⟩) rfl rfl (fun _ => rfl)
        fun c hc hway => ⟨nofun, fun p' hp' => ?_⟩
      cases hp'
      refine ⟨hway.client, hway.msg, hway.returned, hway.registered, ?_, ?_⟩
      · refine Eq.trans ?_ hway.tried
        simp [Publication.attempt]
      · rw [reached_attempt, offer_room, show n = _ from hway.delivered]
  | @published t k msg n hp =>
      refine h.of_modify hp (f := fun c => { c with returned := some n }) (o := none)
        (fun _ => ⟨rfl, rfl⟩) rfl rfl (fun _ => rfl)
        fun c hc hway => ⟨fun _ => ⟨?_, ?_⟩, nofun⟩
      · have htried := hway.tried
        rwa [List.append_nil] at htried
      · exact congrArg some hway.delivered
  | receive hr => exact ⟨h.nodup, h.registered, h.current, h.latest, h.finished⟩

omit [DecidableEq τ] in
/-- A call tries nobody twice. -/
theorem Books.nodup_tried (h : s.Books) {k : Nat} {c : Publication τ} (hc : s.calls[k]? = some c) :
    (c.tried.map Prod.fst).Nodup := by
  have hnodup := h.registered hc
  rcases h.finished hc with ⟨htried, -⟩ | ⟨p, hp⟩
  · rwa [htried]
  · rw [← (h.underWay hp hc).tried] at hnodup
    exact (List.nodup_append.1 hnodup).1

omit [DecidableEq τ] in
/-- A call sends to a subscriber at most once. -/
theorem Books.count_tried (h : s.Books) {k : Nat} {c : Publication τ} (hc : s.calls[k]? = some c)
    (sub : Subscriber) : c.tried.count (sub, true) = if (sub, true) ∈ c.tried then 1 else 0 := by
  split
  case isTrue hmem => exact List.count_eq_one_of_mem (h.nodup_tried hc).of_map hmem
  case isFalse hmem => exact List.count_eq_zero.2 hmem

/-! ### The mailboxes -/

/-- Of the calls of one client the earlier ones come first, and none comes twice. -/
def Before (a b : τ × Nat) : Prop := a.1 = b.1 → a.2 < b.2

/-- The call with this client and number is on record, with this message. -/
def Carries (calls : List (Publication τ)) (a : τ × Nat) (msg : Message) : Prop :=
  ∃ c, calls[a.2]? = some c ∧ c.client = a.1 ∧ c.msg = msg

/-- **What has arrived at each subscriber.**  It has a copy of the message of a call just when the
call found room in its mailbox, and what it has received and what is in the mailbox are the
messages of the calls that have arrived. -/
structure Mail (s : Bus τ) : Prop where
  copies : ∀ sub {k : Nat} {c : Publication τ}, s.calls[k]? = some c →
    (s.arrived sub).count (c.client, k) = c.tried.count (sub, true)
  order : ∀ sub, (s.arrived sub).Pairwise Before
  content : ∀ sub, List.Forall₂ (Carries s.calls) (s.arrived sub)
    (s.received sub ++ (s.broker.mailbox sub).items)

/-- Only calls on record have arrived. -/
theorem Mail.known (h : s.Mail) {sub : Subscriber} {a : τ × Nat} (ha : a ∈ s.arrived sub) :
    ∃ c, s.calls[a.2]? = some c ∧ c.client = a.1 := by
  obtain ⟨i, hi, rfl⟩ := List.getElem_of_mem ha
  obtain ⟨c, hc, hclient, -⟩ := (h.content sub).get hi
    (by rw [← (h.content sub).length_eq]; exact hi)
  exact ⟨c, hc, hclient⟩

omit [DecidableEq τ] in
theorem Carries.modify {calls : List (Publication τ)} {k : Nat} {f : Publication τ → Publication τ}
    (hf : ∀ c, (f c).client = c.client ∧ (f c).msg = c.msg) {a : τ × Nat} {msg : Message}
    (h : Carries calls a msg) : Carries (calls.modify k f) a msg := by
  obtain ⟨c, hc, hclient, hmsg⟩ := h
  by_cases hk : a.2 = k
  · refine ⟨f c, getElem?_modify_eq_some.2 (.inl ⟨hk, c, hk ▸ hc, rfl⟩), ?_, ?_⟩
    · exact (hf c).1.trans hclient
    · exact (hf c).2.trans hmsg
  · exact ⟨c, getElem?_modify_eq_some.2 (.inr ⟨hk, hc⟩), hclient, hmsg⟩

/-- A call that has sent nothing yet changes no mailbox. -/
theorem Mail.publish (h : s.Mail) {c₀ : Publication τ}
    (hcalls : s'.calls = s.calls ++ [c₀]) (hnew : c₀.tried = []) (harr : s'.arrived = s.arrived)
    (hrec : s'.received = s.received) (hbox : s'.broker = s.broker) : s'.Mail := by
  refine ⟨fun sub k c hc => ?_, fun sub => ?_, fun sub => ?_⟩
  · rw [hcalls] at hc
    rw [harr]
    rcases getElem?_concat_eq_some.1 hc with hc | ⟨rfl, rfl⟩
    · exact h.copies sub hc
    · rw [hnew, List.count_nil, List.count_eq_zero]
      intro hmem
      obtain ⟨c, hc, -⟩ := h.known hmem
      rw [List.getElem?_eq_none le_rfl] at hc
      cases hc
  · rw [harr]
    exact h.order sub
  · rw [harr, hrec, hbox, hcalls]
    refine (h.content sub).imp fun a msg ⟨c, hc, hclient, hmsg⟩ => ?_
    exact ⟨c, getElem?_concat_eq_some.2 (.inl hc), hclient, hmsg⟩

omit [DecidableEq τ] in
/-- A call has not yet sent to those that are left. -/
theorem UnderWay.untried {listeners : List Subscriber} {t : τ} {msg : Message} {sub : Subscriber}
    {rest : List Subscriber} {n : Nat} {c : Publication τ}
    (h : UnderWay listeners t ⟨msg, sub :: rest, n⟩ c) (hnodup : c.registered.Nodup)
    (room : Bool) : (sub, room) ∉ c.tried := by
  intro hmem
  rw [← h.tried] at hnodup
  have hsub : sub ∈ c.tried.map Prod.fst := List.mem_map_of_mem hmem
  exact (List.nodup_append.1 hnodup).2.2 sub hsub sub List.mem_cons_self rfl

/-- A copy arrives at one subscriber, behind what the client has sent before. -/
theorem Mail.arrive (h : s.Mail) (hbooks : s.Books) {t : τ} {k : Nat} {msg : Message}
    {sub : Subscriber} {rest : List Subscriber} {n : Nat}
    (hp : s.publishing t = some (k, ⟨msg, sub :: rest, n⟩)) :
    (s.arrived sub ++ [(t, k)]).Pairwise Before ∧ Carries s.calls (t, k) msg := by
  obtain ⟨c, hc, hway⟩ := hbooks.current hp
  refine ⟨?_, c, hc, hway.client, hway.msg⟩
  refine List.pairwise_append.2 ⟨h.order sub, List.pairwise_singleton _ _, fun a ha b hb => ?_⟩
  rw [List.mem_singleton.1 hb]
  intro hclient
  obtain ⟨c', hc', hclient'⟩ := h.known ha
  refine lt_of_le_of_ne (hbooks.latest hp hc' (hclient'.trans hclient)) fun hk => ?_
  -- a copy of this very call would be one it has already sent
  have hcopies := h.copies sub hc
  rw [hway.client, List.count_eq_zero.2 (hway.untried (hbooks.registered hc) true),
    List.count_eq_zero] at hcopies
  exact hcopies ((Prod.ext hclient hk : a = (t, k)) ▸ ha)

/-- The counts after a send. -/
theorem Mail.copies_send (h : s.Mail) {t : τ} {k : Nat} {sub : Subscriber} {full : Bool}
    (hown : ∀ c, s.calls[k]? = some c → c.client = t) (sub' : Subscriber) {k' : Nat}
    {c : Publication τ} (hc : (s.calls.modify k (.attempt sub (!full)))[k']? = some c) :
    ((if full then s.arrived else
        Function.update s.arrived sub (s.arrived sub ++ [(t, k)])) sub').count (c.client, k') =
      c.tried.count (sub', true) := by
  rcases getElem?_modify_eq_some.1 hc with ⟨rfl, c', hc', rfl⟩ | ⟨hk, hc⟩
  · have hold := h.copies sub' hc'
    cases full with
    | true => simpa [Publication.attempt, List.count_append] using hold
    | false =>
        by_cases hsub : sub' = sub
        · subst hsub
          simpa [Publication.attempt, List.count_append, hown c' hc'] using hold
        · simpa [Publication.attempt, List.count_append, Function.update_of_ne hsub,
            List.count_singleton, Ne.symm hsub] using hold
  · have hold := h.copies sub' hc
    cases full with
    | true => exact hold
    | false =>
        by_cases hsub : sub' = sub
        · subst hsub
          simpa [List.count_append, List.count_singleton, Ne.symm hk] using hold
        · simpa [Function.update_of_ne hsub] using hold

/-- A send puts the message behind those that have arrived. -/
theorem Mail.send (h : s.Mail) (hbooks : s.Books) {t : τ} {k : Nat} {msg : Message}
    {sub : Subscriber} {rest : List Subscriber} {n : Nat}
    (hp : s.publishing t = some (k, ⟨msg, sub :: rest, n⟩))
    (hcalls : s'.calls = s.calls.modify k (.attempt sub (!(s.broker.mailbox sub).full)))
    (harr : s'.arrived = if (s.broker.mailbox sub).full then s.arrived
      else Function.update s.arrived sub (s.arrived sub ++ [(t, k)]))
    (hrec : s'.received = s.received)
    (hbox : s'.broker.mailbox =
      Function.update s.broker.mailbox sub ((s.broker.mailbox sub).send msg).1) : s'.Mail := by
  obtain ⟨horder, hcarries⟩ := h.arrive hbooks hp
  have hown : ∀ c, s.calls[k]? = some c → c.client = t := fun c hc =>
    (hbooks.underWay hp hc).client
  have hkeep : ∀ a m, Carries s.calls a m → Carries s'.calls a m := fun a m hm => by
    rw [hcalls]
    refine hm.modify fun _ => ?_
    exact ⟨rfl, rfl⟩
  refine ⟨fun sub' k' c hc => ?_, fun sub' => ?_, fun sub' => ?_⟩
  · rw [harr]
    exact h.copies_send hown sub' (hcalls ▸ hc)
  · rw [harr]
    split
    · exact h.order sub'
    · exact (Function.forall_update_iff s.arrived fun _ l => l.Pairwise Before).2
        ⟨horder, fun sub' _ => h.order sub'⟩ sub'
  · rw [harr, hrec, hbox]
    by_cases hsub : sub' = sub
    · subst hsub
      rw [Function.update_self, Queue.send_items]
      split
      · exact (h.content sub').imp hkeep
      · rw [Function.update_self, ← List.append_assoc]
        exact List.rel_append ((h.content sub').imp hkeep) (.cons (hkeep _ _ hcarries) .nil)
    · rw [Function.update_of_ne hsub]
      split
      · exact (h.content sub').imp hkeep
      · rw [Function.update_of_ne hsub]
        exact (h.content sub').imp hkeep

/-- **Every step keeps the mail in order.** -/
theorem Mail.step (h : s.Mail) (hbooks : s.Books) {l : Label τ} (hstep : Step s l s') :
    s'.Mail := by
  cases hstep with
  | subscribe | unsubscribe => exact ⟨h.copies, h.order, h.content⟩
  | publish => exact h.publish rfl rfl rfl rfl rfl
  | send hp => exact h.send hbooks hp rfl rfl rfl rfl
  | published hp =>
      refine ⟨fun sub k c hc => ?_, h.order, fun sub => ?_⟩
      · rcases getElem?_modify_eq_some.1 hc with ⟨rfl, c', hc', rfl⟩ | ⟨-, hc⟩
        · have hold := h.copies sub hc'
          exact hold
        · exact h.copies sub hc
      · refine (h.content sub).imp fun a m hm => hm.modify fun _ => ?_
        exact ⟨rfl, rfl⟩
  | @receive sub msg q hr =>
      refine ⟨h.copies, h.order, fun sub' => ?_⟩
      have hcontent := h.content sub'
      change List.Forall₂ _ _ (Function.update s.received sub (s.received sub ++ [msg]) sub' ++
        (Function.update s.broker.mailbox sub q sub').items)
      by_cases hsub : sub' = sub
      · subst hsub
        rw [Queue.recv_eq_some.1 hr] at hcontent
        rwa [Function.update_self, Function.update_self, List.append_assoc]
      · rwa [Function.update_of_ne hsub, Function.update_of_ne hsub]

/-- A send puts the message into the mailbox of one subscriber if there is room, and into no
other. -/
theorem Step.send_room {t : τ} (hstep : Step s (.send t) s') :
    ∃ k msg sub rest n, s.publishing t = some (k, ⟨msg, sub :: rest, n⟩) ∧
      s'.calls = s.calls.modify k (.attempt sub (!(s.broker.mailbox sub).full)) ∧
      ∀ sub', (s'.broker.mailbox sub').items = if sub' = sub ∧ (s.broker.mailbox sub).full = false
        then (s.broker.mailbox sub').items ++ [msg] else (s.broker.mailbox sub').items := by
  cases hstep with
  | @send _ k msg sub rest n hp =>
      refine ⟨k, msg, sub, rest, n, hp, rfl, fun sub' => ?_⟩
      change (Function.update s.broker.mailbox sub ((s.broker.mailbox sub).send msg).1 sub').items
        = _
      by_cases hsub : sub' = sub
      · subst hsub
        rw [Function.update_self, Queue.send_items]
        cases (s.broker.mailbox sub').full <;> simp
      · rw [Function.update_of_ne hsub, if_neg fun h => hsub h.1]

/-- Both, which is what a run preserves. -/
def Sound (s : Bus τ) : Prop := s.Books ∧ s.Mail

theorem Sound.start : (Bus.start : Bus τ).Sound :=
  ⟨⟨fun _ => List.nodup_nil, nofun, nofun, nofun, nofun⟩, nofun, fun _ => .nil, fun _ => .nil⟩

theorem Sound.step (h : s.Sound) {l : Label τ} (hstep : Step s l s') : s'.Sound :=
  ⟨h.1.step hstep, h.2.step h.1 hstep⟩

end Bus

/-! ### The result -/

/-- **Delivery of published messages.**  Whatever the interleaving, for every call of `Publish` in
every state reached: those registered are there once; a subscriber has one copy of the message if
the call has found room in its mailbox, and none otherwise; while the call is under way, those
registered are the list of the channel, and those it has not tried yet are left; and when it has
returned it has tried all, and returned how many of them had room.  A send finds room where the
mailbox is not full, and then adds the message to that mailbox and to no other.  What a subscriber
has received, and then has in its mailbox, are the messages of the calls that have arrived, of which
those of one client are in the order of the calls and without repetition; and no mailbox has more
than 256. -/
theorem publish_delivers {τ : Type} [DecidableEq τ] {s : Bus τ} {ls : List (Bus.Label τ)}
    (hrun : Run Bus.Step Bus.start ls s) :
    (∀ k c, s.calls[k]? = some c →
      c.registered.Nodup ∧
      (∀ sub, (s.arrived sub).count (c.client, k) = if (sub, true) ∈ c.tried then 1 else 0) ∧
      (∀ n, c.returned = some n → c.tried.map Prod.fst = c.registered ∧
        n = (c.tried.filter Prod.snd).length) ∧
      (c.returned = none → ∃ p, s.publishing c.client = some (k, p) ∧
        c.registered = s.broker.listeners c.msg.channel ∧
        c.tried.map Prod.fst ++ p.rest = c.registered)) ∧
    (∀ t s', Bus.Step s (.send t) s' →
      ∃ k msg sub rest n, s.publishing t = some (k, ⟨msg, sub :: rest, n⟩) ∧
        s'.calls = s.calls.modify k (.attempt sub (!(s.broker.mailbox sub).full)) ∧
        ∀ sub', (s'.broker.mailbox sub').items =
          if sub' = sub ∧ (s.broker.mailbox sub).full = false
          then (s.broker.mailbox sub').items ++ [msg] else (s.broker.mailbox sub').items) ∧
    (∀ sub,
      List.Forall₂ (Bus.Carries s.calls) (s.arrived sub)
        (s.received sub ++ (s.broker.mailbox sub).items) ∧
      (s.arrived sub).Pairwise Bus.Before ∧ (s.broker.mailbox sub).items.length ≤ 256) := by
  obtain ⟨hbooks, hmail⟩ : s.Sound := hrun.preserves (G := fun _ => True)
    (fun _ _ _ _ hstep h => h.step hstep) (fun _ _ => trivial) .start
  refine ⟨fun k c hc => ⟨hbooks.registered hc, fun sub => ?_, fun n hn => ?_, fun hn => ?_⟩,
    fun t s' hstep => hstep.send_room,
    fun sub => ⟨hmail.content sub, hmail.order sub, (s.broker.mailbox sub).bounded⟩⟩
  · rw [hmail.copies sub hc]
    exact hbooks.count_tried hc sub
  · rcases hbooks.finished hc with ⟨htried, hreached⟩ | ⟨p, hp⟩
    · rw [hreached] at hn
      exact ⟨htried, (Option.some.inj hn).symm⟩
    · rw [(hbooks.underWay hp hc).returned] at hn
      cases hn
  · rcases hbooks.finished hc with ⟨-, hreached⟩ | ⟨p, hp⟩
    · rw [hreached] at hn
      cases hn
    · have hway := hbooks.underWay hp hc
      exact ⟨p, hp, hway.msg ▸ hway.registered, hway.tried⟩

/-- Two clients publish on `a` at once, and the later call sends first. -/
def crossing : List (Bus.Label Bool) :=
  [.subscribe (txt "a") 0, .publish true ⟨txt "a", txt "m"⟩, .publish false ⟨txt "a", txt "n"⟩,
    .send false, .send true, .published true, .receive 0]

/-- Two publications that cross on their way to one subscriber. -/
theorem publish_delivers_crossing :
    ∃ s, Run Bus.Step Bus.start crossing s ∧ s.received 0 = [⟨txt "a", txt "n"⟩] ∧
      (s.broker.mailbox 0).items = [⟨txt "a", txt "m"⟩] ∧
      s.calls.map Publication.returned = [some 1, none] ∧
      (s.arrived 0).count (true, 0) = 1 ∧ (s.arrived 1).count (true, 0) = 0 := by
  have hrun : Run Bus.Step Bus.start crossing _ :=
    .cons (.subscribe (fun _ => rfl) List.not_mem_nil) (.cons (.publish rfl) (.cons (.publish rfl)
      (.cons (.send rfl) (.cons (.send rfl) (.cons (.published rfl)
        (.cons (.receive rfl) (.nil _)))))))
  obtain ⟨hcalls, -, -⟩ := publish_delivers hrun
  obtain ⟨-, hcopies, -, -⟩ := hcalls 0 ⟨true, ⟨txt "a", txt "m"⟩, [0], [(0, true)], some 1⟩ rfl
  exact ⟨_, hrun, rfl, rfl, rfl, hcopies 0, hcopies 1⟩

/-! ### The server -/

/-- In `Publish`. -/
def Loop.InPublish : Loop → Prop
  | .publishing _ => True
  | _ => False

namespace Hub

variable {primaryAddr : Bytes} {aof : Bool} {s s' : Hub} {l : Label}

/-- A connection for which a `Publish` is under way waits for it to return. -/
def Serial (s : Hub) : Prop :=
  ∀ c, s.publishing (some c) ≠ none → (s.conns c).loop.InPublish

/-- A connection does nothing on its own while it is in `Publish`. -/
theorem inPublish_act {cs cs' : Conn} {a : Act} (h : Conn.Step primaryAddr cs a cs')
    (hl : cs.loop.InPublish) : cs'.loop.InPublish := by
  cases h with
  | push | pushFails => exact hl
  | write h | writeFails h =>
      unfold Conn.pending at h
      split at h <;> simp_all [Loop.InPublish]
  | done h => rcases h with h | h <;> simp [h, Loop.InPublish] at hl
  | accept h | read h | malformed h | hangUp h | already h | missing h | enter h | delete h
  | closeMailbox h | close h =>
      simp [h, Loop.InPublish] at hl

theorem Serial.step (hs : s.Serial) (h : Step primaryAddr aof s l s') : s'.Serial := by
  -- one connection moves, and stays in `Publish` if it is there
  have update : ∀ {c : Nat} {cs : Conn}, ((s.conns c).loop.InPublish → cs.loop.InPublish) →
      ∀ c', s.publishing (some c') ≠ none → (Function.update s.conns c cs c').loop.InPublish := by
    intro c cs hcs c' hp
    rw [Function.update_apply]
    split
    case isTrue hc =>
      subst hc
      exact hcs (hs _ hp)
    case isFalse => exact hs c' hp
  cases h with
  | conn h => exact update (inPublish_act h)
  | register h | unregister h | drain h | check h | fast h | dispatch h | release h | add h =>
      exact update (by simp [h, Loop.InPublish])
  | receive | finish | ship | shipFails => exact update id
  | @leave c all h hall =>
      intro c' hp
      simp only [setConn, removeReplica_conns, removeReplica_publishing] at hp ⊢
      exact update (by simp [h, Loop.InPublish]) c' hp
  | startShipper | take | takeLeft | stop | acquire | propagate | heartbeat | pass | stream =>
      exact hs
  | @publish c request msg render h hpub =>
      intro c' hp
      change (Function.update s.conns c _ c').loop.InPublish
      by_cases hc : c' = c
      · rw [hc, Function.update_self]
        trivial
      · rw [Function.update_of_ne hc]
        exact hs c' (by simpa [setConn, setPublishing, hc] using hp)
  | @send t msg sub rest n h =>
      intro c' hp
      refine hs c' fun hnone => ?_
      by_cases hc : some c' = t
      · rw [hc, h] at hnone
        cases hnone
      · exact hp ((Function.update_of_ne hc _ _).trans hnone)
  | @published c msg n render h hl =>
      intro c' hp
      by_cases hc : c' = c
      · subst hc
        exact absurd (Function.update_self _ _ _) hp
      · change (Function.update s.conns c _ c').loop.InPublish
        rw [Function.update_of_ne hc]
        exact hs c' (by simpa [setConn, setPublishing, hc] using hp)
  | streamPublish | streamPublished =>
      intro c' hp
      exact hs c' (by simpa [setPublishing] using hp)

/-- The bus has the server's broker, and the same calls are under way. -/
structure Drives (s : Hub) (b : Bus (Option Nat)) : Prop where
  broker : b.broker = s.broker
  publishing : ∀ t, (b.publishing t).map Prod.snd = s.publishing t

variable {b : Bus (Option Nat)}

theorem Drives.unread (hb : s.Drives b) (hfree : s.Unread) : b.Unread := by
  intro t
  have ht := hb.publishing t
  rwa [hfree t, Option.map_eq_none_iff] at ht

theorem Drives.idle (hb : s.Drives b) {t : Option Nat} (ht : s.publishing t = none) :
    b.publishing t = none := by
  rwa [← hb.publishing t, Option.map_eq_none_iff] at ht

theorem Drives.under (hb : s.Drives b) {t : Option Nat} {p : Publishing}
    (hp : s.publishing t = some p) : ∃ k, b.publishing t = some (k, p) := by
  rw [← hb.publishing t, Option.map_eq_some_iff] at hp
  obtain ⟨⟨k, p'⟩, hkp, rfl⟩ := hp
  exact ⟨k, hkp⟩

theorem Drives.update (hb : s.Drives b) (t : Option Nat) (o : Option (Nat × Publishing))
    (t' : Option Nat) : (Function.update b.publishing t o t').map Prod.snd =
      Function.update s.publishing t (o.map Prod.snd) t' := by
  rw [Function.update_apply, Function.update_apply]
  split
  · rfl
  · exact hb.publishing t'

/-- **What a step of the server does to the broker** is a step of the bus, or nothing. -/
theorem Step.bus (hs : s.Registered) (hserial : s.Serial) (h : Step primaryAddr aof s l s')
    (hb : s.Drives b) : ∃ ms b', Run Bus.Step b ms b' ∧ s'.Drives b' := by
  have same : s'.broker = s.broker → s'.publishing = s.publishing →
      ∃ ms b', Run Bus.Step b ms b' ∧ s'.Drives b' := fun hbroker hpub =>
    ⟨[], b, .nil b, hb.broker.trans hbroker.symm, fun t => hpub ▸ hb.publishing t⟩
  have step : ∀ (m : Bus.Label (Option Nat)) {b' : Bus (Option Nat)}, Bus.Step b m b' →
      s'.Drives b' → ∃ ms b', Run Bus.Step b ms b' ∧ s'.Drives b' := fun m _ hm hb' =>
    ⟨[m], _, .cons hm (.nil _), hb'⟩
  cases h with
  | conn | finish | startShipper | takeLeft | ship | shipFails | stop => exact same rfl rfl
  | leave =>
      refine same ?_ ?_
      · simp only [Hub.broker, setConn, removeReplica_db]
      · simp only [setConn, removeReplica_publishing]
  | add _ hp | take _ hp | check _ _ hp | fast _ _ hp | acquire hp | dispatch _ _ hp
  | propagate _ hp | release _ hp | heartbeat hp | pass hp =>
      exact same (Registered.pubsub_primary hp (by simp) hs.silent) rfl
  | stream _ _ hpub => exact same (pubsub_dispatch hpub _ _ _) rfl
  | @register c channel rest h hfree =>
      have hnew : c ∉ b.broker.listeners channel := by
        rw [hb.broker]
        intro hmem
        have hheld := hs.held_of_mem hmem
        rw [Conn.held, h] at hheld
        exact Finset.notMem_erase _ _ hheld
      exact step (.subscribe channel c) (.subscribe (hb.unread hfree) hnew)
        ⟨congrArg (Broker.subscribe channel c) hb.broker, hb.publishing⟩
  | @unregister c channel rest _ hfree | @drain c channel rest _ hfree =>
      exact step (.unsubscribe channel c) (.unsubscribe (hb.unread hfree))
        ⟨congrArg (Broker.unsubscribe channel c) hb.broker, hb.publishing⟩
  | @receive c msg q _ hr =>
      rw [← hb.broker] at hr
      exact step (.receive c) (.receive hr)
        ⟨congrArg (Broker.setMailbox c q) hb.broker, hb.publishing⟩
  | @publish c request msg render h =>
      have hidle : s.publishing (some c) = none := by
        by_contra hp
        have hin := hserial c hp
        rw [h] at hin
        exact hin
      refine step (.publish (some c) msg) (.publish (hb.idle hidle)) ⟨hb.broker, fun t => ?_⟩
      rw [hb.update, hb.broker]
      rfl
  | @streamPublish _ _ _ msg _ _ hidle =>
      refine step (.publish none msg) (.publish (hb.idle hidle)) ⟨hb.broker, fun t => ?_⟩
      rw [hb.update, hb.broker]
      rfl
  | @send t msg sub rest n hp =>
      obtain ⟨k, hk⟩ := hb.under hp
      refine step (.send t) (.send hk)
        ⟨congrArg (fun b => (b.offer msg sub).1) hb.broker, fun t' => ?_⟩
      rw [hb.update, hb.broker]
      rfl
  | published hp | streamPublished hp =>
      obtain ⟨k, hk⟩ := hb.under hp
      exact step (.published _) (.published hk) ⟨hb.broker, hb.update _ none⟩

/-- **Every run of the server is one of the bus**, so that what holds of every run of the bus holds
of the server's broker and the calls of its clients. -/
theorem run_bus (db : DB) {labels : List Label}
    (hrun : Run (Step primaryAddr aof) (Hub.start db) labels s) :
    ∃ ms b, Run Bus.Step Bus.start ms b ∧ s.Drives b := by
  obtain ⟨ms, b, hbus, -, -, hb⟩ := hrun.simulates (b := .start)
    (R := fun s b => s.Registered ∧ s.Serial ∧ s.Drives b)
    (fun s l s' b hstep ⟨hs, hserial, hb⟩ => by
      obtain ⟨ms, b', hbus, hb'⟩ := hstep.bus hs hserial hb
      exact ⟨ms, b', hbus, hs.step hstep, hserial.step hstep, hb'⟩)
    ⟨.start db, fun _ h => absurd rfl h, rfl, fun _ => rfl⟩
  exact ⟨ms, b, hbus, hb⟩

end Hub

end MiniRedis.Server
