import MiniRedis.Reference.Escalation
import MiniRedis.Server.Apply
import MiniRedis.Store.Flat
import MiniRedis.Support.Footprint

/-!
# Server — Interleaving

Requests on disjoint keys.  On a server without a log or a replica a write takes no lock but those
of the shards, one at a time: `DEL` and `EXISTS` let go of each before the next, and `GET` of the
read lock before it evicts.  A request is a thread of such sections (`Dispatched.thread`), a client
the thread of its requests (`session`); run without interruption it is `Dispatch` (`run_thread`).
Every section keeps to the keys of its request, so `Support/Footprint.lean` applies, with what is
stored under a key as the view.

* `within_thread`: the sections of a request are confined to its keys.
* `disjoint_commute`: **two requests on disjoint keys commute, and clients on disjoint keys end, in
  any interleaving of their sections, with the replies and the keys that each has alone.**
-/

namespace MiniRedis

open Protocol Store Cmd Reference Machine Footprint

/-! ### What a call keeps to -/

namespace Store

/-- What is stored under a key, expired or not. -/
def DB.stored (db : DB) (key : Bytes) : Option Entry := (db.shardFor key).lookup key

/-- The keys a call is given. -/
def Call.keys : Call → List Bytes
  | .del keys | .exists keys => keys
  | c => c.key?.toList

/-- The keyspace at a key is that of what is stored there. -/
theorem DB.keyspace_congr {db db' : DB} {key : Bytes} (h : db.stored key = db'.stored key)
    (u : Time) : db.keyspace u key = db'.keyspace u key :=
  Shard.peek_congr h

/-- A body that keeps to one key of its shard, run under the lock of that shard. -/
theorem confined_locked {α : Type} {key : Bytes} {body : Shard → Shard × α}
    (hb : Local key body) : Confined DB.stored {key} (DB.locked key body) where
  frame db k hk := by
    rw [DB.stored, DB.shardFor_locked]
    split
    case isTrue hi => rw [hb.frame _ k hk, DB.stored, DB.shardFor, DB.shardFor, hi]
    case isFalse => rfl
  answer db db' h := hb.answer _ _ (h key rfl)
  update db db' h k hk := by
    obtain rfl : k = key := hk
    rw [DB.stored, DB.stored, DB.shardFor_locked, DB.shardFor_locked, if_pos rfl, if_pos rfl]
    exact hb.update _ _ (h k rfl)

theorem confined_fill {α β : Type} {now : Time} {key : Bytes} (K : Kind β) (f : β → β × α) :
    Confined DB.stored {key} (DB.locked key (Shard.fill now key K f)) :=
  confined_locked (.of_acts (fill_acts K f))

theorem confined_take {α β : Type} [DecidableEq β] {now : Time} {key : Bytes} (K : Kind β)
    (absent : α) (f : β → Option (β × α)) :
    Confined DB.stored {key} (DB.locked key (Shard.take now key K absent f)) :=
  confined_locked (.of_acts (take_acts K absent f))

/-- A read of the entry of one key. -/
theorem confined_read {α β : Type} {now : Time} {key : Bytes} (K : Kind β) (absent : α)
    (f : β → α) :
    Confined DB.stored {key} fun db => (db, Shard.read now key K absent f (db.shardFor key)) :=
  .read fun _ _ h => read_congr (h key rfl) K absent f

/-- Whether the call is a `Publish`, which takes the broker's lock and no shard's. -/
def Call.isPublish : Call → Bool
  | .publish _ _ => true
  | _ => false

/-! ### Calls as threads of sections -/

variable (now : Time) (order : RangeOrder)

/-- The loop of `Del`, one section for each key. -/
def delThread : List Bytes → Nat → Thread DB Nat
  | [], n => .done n
  | key :: keys, n =>
      .step (fun db => (db.delOne now key).1) fun db => delThread keys (n + (db.delOne now key).2)

/-- The loop of `Exists`, one section for each key. -/
def existsThread : List Bytes → Nat → Thread DB Nat
  | [], n => .done n
  | key :: keys, n => .step id fun db => existsThread keys (n + db.exists now [key])

/-- `Get`: the read, and the eviction if the entry was found expired. -/
def getThread (key : Bytes) : Thread DB (Outcome (Option Bytes)) :=
  .step id fun db =>
    if (db.getRead now key).2 then
      .step (fun db => (db.expireIfNeeded now key).1) fun _ => .done (db.getRead now key).1
    else .done (db.getRead now key).1

/-- The sections of a call: one, but for the three above. -/
def Call.thread : (c : Call) → Thread DB c.Result
  | .del keys => delThread now keys 0
  | .exists keys => existsThread now keys 0
  | .get key => getThread now key
  | c => .once (DB.call now order c)

/-- Undisturbed, the sections of `DEL` are `Del`. -/
theorem run_delThread : ∀ (keys : List Bytes) (n : Nat) (db : DB),
    (delThread now keys n).run db = ((db.del now keys).1, n + (db.del now keys).2)
  | [], _, _ => rfl
  | key :: keys, n, db => by
      rw [delThread, Thread.run, run_delThread keys, Nat.add_assoc]
      rfl

theorem run_existsThread : ∀ (keys : List Bytes) (n : Nat) (db : DB),
    (existsThread now keys n).run db = (db, n + db.exists now keys)
  | [], _, _ => rfl
  | key :: keys, n, db => by
      have hcons : db.exists now (key :: keys) = db.exists now [key] + db.exists now keys := by
        simp only [DB.exists, List.filter_cons, List.filter_nil]
        split <;> simp [Nat.add_comm]
      rw [existsThread, Thread.run, run_existsThread keys, hcons, Nat.add_assoc]
      rfl

/-- The sections of a call, one after the other, are the call. -/
theorem Call.run_thread (c : Call) (db : DB) :
    (c.thread now order).run db = db.call now order c := by
  cases c with
  | del keys =>
      rw [Call.thread, run_delThread, Nat.zero_add]
      rfl
  | «exists» keys =>
      rw [Call.thread, run_existsThread, Nat.zero_add]
      rfl
  | get key =>
      change (getThread now key).run db = db.get now now key
      rw [DB.get_eq, getThread, Thread.run]
      split <;> rfl
  | _ => rfl

/-! ### The sections keep to the keys -/

variable {now order} {K : Set Bytes}

theorem getRead_congr {db db' : DB} {key : Bytes} (h : db.stored key = db'.stored key) :
    db.getRead now key = db'.getRead now key := by
  unfold DB.stored at h
  rw [DB.getRead, DB.getRead, h]

theorem exists_congr {db db' : DB} {key : Bytes} (h : db.stored key = db'.stored key) :
    db.exists now [key] = db'.exists now [key] := by
  have hpeek : Shard.peek now key (db.shardFor key) = Shard.peek now key (db'.shardFor key) :=
    Shard.peek_congr h
  simp only [DB.exists, List.filter_cons, List.filter_nil, hpeek]

theorem confined_ttl (key : Bytes) :
    Confined DB.stored {key} fun db => (db, db.ttl now now key) := by
  refine .read fun db db' ha => ?_
  have hpeek : Shard.peek now key (db.shardFor key) = Shard.peek now key (db'.shardFor key) :=
    Shard.peek_congr (ha key rfl)
  rw [DB.ttl, DB.ttl, hpeek]

theorem within_delThread : ∀ (keys : List Bytes) (n : Nat), (∀ k ∈ keys, k ∈ K) →
    Within DB.stored K (delThread now keys n)
  | [], n, _ => .done n
  | key :: keys, n, h => by
      obtain ⟨hkey, hkeys⟩ := List.forall_mem_cons.1 h
      have hone : Confined DB.stored K (DB.delOne now key) :=
        (confined_locked (.of_acts delOne_acts)).mono (Set.singleton_subset_iff.2 hkey)
      exact .step (hone.map fun m => delThread now keys (n + m)) fun db =>
        within_delThread keys _ hkeys

theorem within_existsThread : ∀ (keys : List Bytes) (n : Nat), (∀ k ∈ keys, k ∈ K) →
    Within DB.stored K (existsThread now keys n)
  | [], n, _ => .done n
  | key :: keys, n, h => by
      obtain ⟨hkey, hkeys⟩ := List.forall_mem_cons.1 h
      refine .step (.read fun db db' ha => ?_) fun db => within_existsThread keys _ hkeys
      rw [exists_congr (ha key hkey)]

theorem within_getThread (key : Bytes) : Within DB.stored {key} (getThread now key) := by
  refine .step (.read fun db db' ha => ?_) fun db => ?_
  · rw [getRead_congr (ha key rfl)]
  · split
    · exact .step ((confined_locked (local_expireIfNeeded now key)).map fun _ =>
        Thread.done (db.getRead now key).1) fun _ => .done _
    · exact .done _

/-- **Every section of a call is confined to its keys.** -/
theorem Call.within_thread {c : Call} (hc : c.isPublish = false) (hK : ∀ k ∈ c.keys, k ∈ K) :
    Within DB.stored K (c.thread now order) := by
  -- A call of one section on one key.
  have one : ∀ {α : Type} {key : Bytes} (f : DB → DB × α), (∀ k ∈ [key], k ∈ K) →
      Confined DB.stored {key} f → Within DB.stored K (.once f) :=
    fun f hkey hf => .once (hf.mono (Set.singleton_subset_iff.2 (List.forall_mem_singleton.1 hkey)))
  cases c with
  | publish => cases hc
  | del keys => exact within_delThread keys 0 hK
  | «exists» keys => exact within_existsThread keys 0 hK
  | get key =>
      have hkey : key ∈ K := hK key (List.mem_singleton_self key)
      exact (within_getThread key).mono (Set.singleton_subset_iff.2 hkey)
  | set key value =>
      exact one (DB.set key value) hK (confined_locked (.of_acts (@set_acts now key value)))
  | lPush key values => exact one (DB.lPush now key values) hK (confined_fill _ _)
  | rPush key values => exact one (DB.rPush now key values) hK (confined_fill _ _)
  | hSet key fields values => exact one (DB.hSet now key fields values) hK (confined_fill _ _)
  | sAdd key members => exact one (DB.sAdd now key members) hK (confined_fill _ _)
  | lPop key => exact one (DB.lPop now key) hK (confined_take _ _ _)
  | rPop key => exact one (DB.rPop now key) hK (confined_take _ _ _)
  | hDel key fields => exact one (DB.hDel now key fields) hK (confined_take _ _ _)
  | sRem key members => exact one (DB.sRem now key members) hK (confined_take _ _ _)
  | lLen | lRange | hGet | hGetAll | hKeys | hVals | hLen | sIsMember | sMembers | sCard =>
      exact one _ hK (confined_read _ _ _)
  | expire key d =>
      exact one (DB.expire now now key d) hK (confined_locked (.of_acts (expire_acts d)))
  | persist key => exact one (DB.persist now key) hK (confined_locked (.of_acts persist_acts))
  | ttl key => exact one _ hK (confined_ttl key)

end Store

/-! ### Requests and clients -/

/-- The keys of a request, none when its handler makes no call. -/
def Cmd.keysOf (request : Value) : List Bytes :=
  match plan request with
  | .reply _ => []
  | .call c _ => c.keys

/-- The request publishes a message. -/
def Cmd.publishing (request : Value) : Bool :=
  match plan request with
  | .reply _ => false
  | .call c _ => c.isPublish

/-- The sections of a request. -/
def Dispatched.thread (r : Dispatched) : Thread DB Value :=
  match plan r.request with
  | .reply v => .done v
  | .call c render => (c.thread r.now r.order).bind fun a => .done (render a)

/-- A client: the sections of its requests, one request after the other, and their replies. -/
def session : List Dispatched → Thread DB (List Value)
  | [] => .done []
  | r :: rs => r.thread.bind fun v => (session rs).bind fun vs => .done (v :: vs)

/-- The sections of a request, one after the other, are `Dispatch`. -/
theorem run_thread (r : Dispatched) (db : DB) :
    r.thread.run db = db.dispatch r.now r.order r.request := by
  rw [Dispatched.thread, DB.dispatch, Cmd.dispatch]
  cases plan r.request with
  | reply v => rfl
  | call c render =>
      dsimp only
      rw [Thread.run_bind, Call.run_thread]
      rfl

/-- Undisturbed, a session is a run of its requests. -/
theorem run_session : ∀ (rs : List Dispatched) (db : DB), (session rs).run db =
    ((db.run (rs.map .request)).1, (db.run (rs.map .request)).2.map Prod.snd)
  | [], _ => rfl
  | r :: rs, db => by
      rw [session, Thread.run_bind, Thread.run_bind, run_thread, run_session rs]
      rfl

/-- A request that does not publish is about its keys. -/
theorem within_thread {r : Dispatched} {K : Set Bytes} (hpub : publishing r.request = false)
    (hK : ∀ k ∈ keysOf r.request, k ∈ K) : Within DB.stored K r.thread := by
  unfold publishing at hpub
  unfold keysOf at hK
  unfold Dispatched.thread
  cases hp : plan r.request with
  | reply v => exact .done v
  | call c render =>
      rw [hp] at hpub hK
      exact (Call.within_thread hpub hK).bind fun a => .done (render a)

/-- **A request is confined to its keys.** -/
theorem confined_dispatch {request : Value} (h : publishing request = false) (now : Time)
    (order : RangeOrder) :
    Confined DB.stored {k | k ∈ keysOf request} (DB.dispatch now order request) := by
  have hrun : (Dispatched.thread ⟨now, order, request⟩).run = DB.dispatch now order request :=
    funext (run_thread ⟨now, order, request⟩)
  have hwithin : Within DB.stored {k | k ∈ keysOf request}
      (Dispatched.thread ⟨now, order, request⟩) := within_thread h fun _ hk => hk
  exact hrun ▸ hwithin.confined

/-- The request keeps to the keys of `K`, and publishes nothing. -/
def Keeps (K : Set Bytes) (request : Value) : Prop :=
  publishing request = false ∧ ∀ k ∈ keysOf request, k ∈ K

/-- A session is about the keys of its requests. -/
theorem within_session {K : Set Bytes} : ∀ {rs : List Dispatched},
    (∀ r ∈ rs, Keeps K r.request) → Within DB.stored K (session rs)
  | [], _ => .done []
  | r :: rs, h => by
      obtain ⟨⟨hpub, hkeys⟩, hrest⟩ := List.forall_mem_cons.1 h
      exact (within_thread hpub hkeys).bind fun v =>
        (within_session hrest).bind fun vs => .done (v :: vs)

/-! ### The orders of ranges -/

/-- The order in which maps are ranged over shows in the order of a reply only. -/
theorem Store.DB.dispatch_order (now : Time) (order order' : RangeOrder) (request : Value)
    (db : DB) :
    (db.dispatch now order request).1 = (db.dispatch now order' request).1 ∧
      SameUpToOrder request (db.dispatch now order request).2
        (db.dispatch now order' request).2 := by
  refine ⟨?_, ?_⟩
  · unfold DB.dispatch Cmd.dispatch
    cases plan request with
    | reply v => rfl
    | call c render => cases c <;> rfl
  · have h := (RefStore.dispatch_order now order order' request (db.abs now)).2
    rwa [DB.abs_dispatch, DB.abs_dispatch] at h

/-- The same request at the same reading; the orders of ranges may differ. -/
def SameAsked (r r' : Dispatched) : Prop := r.now = r'.now ∧ r.request = r'.request

/-- The same along a run. -/
theorem run_order {rs rs' : List Dispatched} (h : List.Forall₂ SameAsked rs rs') (db : DB) :
    (db.run (rs.map .request)).1 = (db.run (rs'.map .request)).1 ∧
      List.Forall₂ SameExchange (db.run (rs.map .request)).2 (db.run (rs'.map .request)).2 := by
  induction h generalizing db with
  | nil => exact ⟨rfl, .nil⟩
  | @cons r r' rs rs' hr _ ih =>
      obtain ⟨now, order, request⟩ := r
      obtain ⟨now', order', request'⟩ := r'
      obtain ⟨rfl, rfl⟩ : now = now' ∧ request = request' := hr
      obtain ⟨hdb, hreply⟩ := DB.dispatch_order now order order' request db
      simp only [List.map_cons, DB.run]
      rw [← hdb]
      obtain ⟨hend, hreplies⟩ := ih (db.dispatch now order request).1
      exact ⟨hend, .cons ⟨rfl, hreply⟩ hreplies⟩

theorem keeps_of_sameAsked {K : Set Bytes} {rs rs' : List Dispatched}
    (h : List.Forall₂ SameAsked rs rs') (hkeeps : ∀ r ∈ rs, Keeps K r.request) :
    ∀ r ∈ rs', Keeps K r.request := by
  induction h with
  | nil => exact hkeeps
  | cons hr _ ih =>
      obtain ⟨hhead, htail⟩ := List.forall_mem_cons.1 hkeeps
      exact List.forall_mem_cons.2 ⟨hr.2 ▸ hhead, ih htail⟩

/-- A run of requests is its requests with their replies. -/
theorem zip_run : ∀ (rs : List Dispatched) (db : DB),
    (rs.map (·.request)).zip ((db.run (rs.map .request)).2.map Prod.snd) =
      (db.run (rs.map .request)).2
  | [], _ => rfl
  | r :: rs, db => congrArg (_ :: ·) (zip_run rs (db.dispatch r.now r.order r.request).1)

/-! ### The result -/

/-- Requests with no key in common commute. -/
theorem dispatch_commute {a b : Value} (ha : publishing a = false) (hb : publishing b = false)
    (hdisj : List.Disjoint (keysOf a) (keysOf b)) (t₁ t₂ : Time)
    (o₁ o₂ o₁' o₂' : RangeOrder) (db : DB) :
    let first := db.dispatch t₁ o₁ a
    let second := first.1.dispatch t₂ o₂ b
    let first' := db.dispatch t₂ o₂' b
    let second' := first'.1.dispatch t₁ o₁' a
    SameUpToOrder a first.2 second'.2 ∧ SameUpToOrder b second.2 first'.2 ∧
      ∀ u, second.1.keyspace u = second'.1.keyspace u := by
  intro first second first' second'
  have hsets : ∀ k ∈ {k | k ∈ keysOf a}, k ∉ {k | k ∈ keysOf b} := fun k hk hk' => hdisj hk hk'
  obtain ⟨-, hb₂, hview⟩ :=
    (confined_dispatch ha t₁ o₁).commute (confined_dispatch hb t₂ o₂) hsets db
  obtain ⟨ha₁, -, -⟩ :=
    (confined_dispatch ha t₁ o₁').commute (confined_dispatch hb t₂ o₂') hsets db
  obtain ⟨-, hsame₁⟩ := DB.dispatch_order t₁ o₁ o₁' a db
  obtain ⟨hdb, hsame₂⟩ := DB.dispatch_order t₂ o₂ o₂' b db
  obtain ⟨hdb', -⟩ := DB.dispatch_order t₁ o₁ o₁' a (db.dispatch t₂ o₂ b).1
  refine ⟨ha₁.symm ▸ hsame₁, hb₂.symm ▸ hsame₂, fun u => funext fun key => ?_⟩
  refine DB.keyspace_congr ((hview key).trans ?_) u
  rw [hdb', hdb]

/-- The clients of a pool, each with its own keys, have ended: what they have been answered and what
they have left is what each has alone. -/
theorem clients_alone {γ : Type} [DecidableEq γ] {K : γ → Set Bytes} {db : DB}
    {rs : γ → List Dispatched} {cs : List γ} {s : Pool DB γ (List Value)} {vs : γ → List Value}
    (hdisj : Pairwise fun c d => ∀ k ∈ K c, k ∉ K d)
    (hkeeps : ∀ c, ∀ r ∈ rs c, Keeps (K c) r.request)
    (hrun : Run Pool.Step ⟨db, fun c => session (rs c)⟩ cs s)
    (hdone : ∀ c, s.thread c = .done (vs c)) :
    (∀ c, vs c = (db.run ((rs c).map .request)).2.map Prod.snd) ∧
      (∀ c, ∀ key ∈ K c, s.state.stored key = (db.run ((rs c).map .request)).1.stored key) ∧
      ∀ key, (∀ c, key ∉ K c) → s.state.stored key = db.stored key := by
  obtain ⟨halone, hframe⟩ := Pool.solo hdisj (fun c => within_session (hkeeps c)) hrun
  have hsolo : ∀ c, vs c = (db.run ((rs c).map .request)).2.map Prod.snd ∧
      Agree DB.stored (K c) s.state (db.run ((rs c).map .request)).1 := by
    intro c
    have h := halone c (vs c) (hdone c)
    rwa [run_session] at h
  exact ⟨fun c => (hsolo c).1, fun c => (hsolo c).2, hframe⟩

open Server in
/-- **Requests on disjoint keys commute.**  Two requests that publish nothing and have no key in
common, dispatched in either order, are answered alike up to the order of unordered collections and
leave the same keyspace.  On a server without a log or a replica a request is its sections and
nothing is recorded; and clients on disjoint sets of keys, in any two interleavings of their
sections and with any orders of ranges, end with the replies that each of them has alone, alike up
to order, and with the same keyspace.  Any interleaving of finitely many clients can be brought to
its end. -/
theorem disjoint_commute :
    (∀ {a b : Value}, publishing a = false → publishing b = false →
      List.Disjoint (keysOf a) (keysOf b) → ∀ (t₁ t₂ : Time) (o₁ o₂ o₁' o₂' : RangeOrder) (db : DB),
      let first := db.dispatch t₁ o₁ a
      let second := first.1.dispatch t₂ o₂ b
      let first' := db.dispatch t₂ o₂' b
      let second' := first'.1.dispatch t₁ o₁' a
      SameUpToOrder a first.2 second'.2 ∧ SameUpToOrder b second.2 first'.2 ∧
        ∀ u, second.1.keyspace u = second'.1.keyspace u) ∧
    (∀ (r : Dispatched) (db : DB),
      applyRecord false false r.now r.order r.request db =
        ⟨(r.thread.run db).1, (r.thread.run db).2, none, none⟩) ∧
    (∀ {γ : Type} [DecidableEq γ] {K : γ → Set Bytes} {db : DB} {rs rs' : γ → List Dispatched}
      {cs cs' : List γ} {s s' : Pool DB γ (List Value)} {vs vs' : γ → List Value},
      (Pairwise fun c d => ∀ k ∈ K c, k ∉ K d) → (∀ c, ∀ r ∈ rs c, Keeps (K c) r.request) →
      (∀ c, List.Forall₂ SameAsked (rs c) (rs' c)) →
      Run Pool.Step ⟨db, fun c => session (rs c)⟩ cs s → (∀ c, s.thread c = .done (vs c)) →
      Run Pool.Step ⟨db, fun c => session (rs' c)⟩ cs' s' → (∀ c, s'.thread c = .done (vs' c)) →
      (∀ c, vs c = (db.run ((rs c).map .request)).2.map Prod.snd) ∧
      (∀ c, List.Forall₂ SameExchange (((rs c).map (·.request)).zip (vs c))
        (((rs' c).map (·.request)).zip (vs' c))) ∧
      ∀ u, s.state.keyspace u = s'.state.keyspace u) ∧
    ∀ {γ : Type} [DecidableEq γ] [Fintype γ] {db : DB} {rs : γ → List Dispatched} {cs : List γ}
      {s : Pool DB γ (List Value)}, Run Pool.Step ⟨db, fun c => session (rs c)⟩ cs s →
      ∃ (cs' : List γ) (s' : Pool DB γ (List Value)) (vs : γ → List Value),
        Run Pool.Step ⟨db, fun c => session (rs c)⟩ (cs ++ cs') s' ∧
          ∀ c, s'.thread c = .done (vs c) := by
  refine ⟨fun ha hb hdisj => dispatch_commute ha hb hdisj, fun r db => ?_, ?_, ?_⟩
  · rw [run_thread]
    simp [applyRecord]
  · intro γ _ K db rs rs' cs cs' s s' vs vs' hdisj hkeeps hsame hrun hdone hrun' hdone'
    have hkeeps' : ∀ c, ∀ r ∈ rs' c, Keeps (K c) r.request :=
      fun c => keeps_of_sameAsked (hsame c) (hkeeps c)
    obtain ⟨hvs, hown, hframe⟩ := clients_alone hdisj hkeeps hrun hdone
    obtain ⟨hvs', hown', hframe'⟩ := clients_alone hdisj hkeeps' hrun' hdone'
    refine ⟨hvs, fun c => ?_, fun u => funext fun key => DB.keyspace_congr ?_ u⟩
    · rw [hvs c, hvs' c, zip_run, zip_run]
      exact (run_order (hsame c) db).2
    · by_cases hkey : ∃ c, key ∈ K c
      · obtain ⟨c, hc⟩ := hkey
        rw [hown c key hc, hown' c key hc, (run_order (hsame c) db).1]
      · have hnone : ∀ c, key ∉ K c := fun c hc => hkey ⟨c, hc⟩
        rw [hframe key hnone, hframe' key hnone]
  · intro γ _ _ db rs cs s hrun
    obtain ⟨cs', s', vs, hrest, hdone⟩ := Pool.finishes s
    exact ⟨cs', s', vs, hrun.append hrest, hdone⟩

/-- One client deletes two keys, the other sets a third and reads it. -/
def delAndSet : Bool → List Dispatched
  | true => [⟨0, .sorted, bulkCmd [txt "DEL", txt "a", txt "b"]⟩]
  | false => [⟨0, .sorted, bulkCmd [txt "SET", txt "c", txt "v"]⟩,
      ⟨0, .sorted, bulkCmd [txt "GET", txt "c"]⟩]

/-- The keys of the two clients. -/
def delAndSetKeys : Bool → List Bytes
  | true => [txt "a", txt "b"]
  | false => [txt "c"]

/-- A `DEL` of two keys that is interleaved with a client of another key. -/
theorem disjoint_commute_delAndSet :
    ∃ (cs : List Bool) (s : Pool DB Bool (List Value)),
      Run Pool.Step ⟨DB.new, fun c => session (delAndSet c)⟩ cs s ∧
        s.thread true = .done [countReply 0] ∧
        s.thread false = .done [okValue, bulkValue (some (txt "v"))] := by
  obtain ⟨-, -, hclients, hfinish⟩ := disjoint_commute
  have hstart : Run Pool.Step (⟨DB.new, fun c => session (delAndSet c)⟩ : Pool DB Bool _) []
      ⟨DB.new, fun c => session (delAndSet c)⟩ := .nil _
  obtain ⟨cs, s, vs, hrun, hdone⟩ := hfinish hstart
  have hdisj : Pairwise fun c d =>
      ∀ k ∈ {k | k ∈ delAndSetKeys c}, k ∉ {k | k ∈ delAndSetKeys d} := by
    have hall : ∀ c d, c ≠ d → ∀ k ∈ delAndSetKeys c, k ∉ delAndSetKeys d := by decide +kernel
    exact fun c d hne => hall c d hne
  have hkeeps : ∀ c, ∀ r ∈ delAndSet c, Keeps {k | k ∈ delAndSetKeys c} r.request := by
    intro c r hr
    have hall : ∀ c, ∀ request ∈ (delAndSet c).map (·.request), publishing request = false ∧
        ∀ k ∈ keysOf request, k ∈ delAndSetKeys c := by decide +kernel
    exact hall c r.request (List.mem_map_of_mem hr)
  have hsame : ∀ c, List.Forall₂ SameAsked (delAndSet c) (delAndSet c) :=
    fun c => List.forall₂_same.2 fun _ _ => ⟨rfl, rfl⟩
  have hvs := (hclients hdisj hkeeps hsame hrun hdone hrun hdone).1
  refine ⟨_, s, hrun, ?_, ?_⟩
  · rw [hdone true, hvs true]
    exact congrArg _ (by decide +kernel)
  · rw [hdone false, hvs false]
    exact congrArg _ (by decide +kernel)

end MiniRedis
