import Mathlib.Data.List.ReduceOption
import MiniRedis.Replication.Registration
import MiniRedis.Server.Ownership

/-!
# Server — Writes

The numbers of the writes.  A write gets its number, its place in the history of the primary, when
it is dispatched; the number goes with the frame into the queues of the feeds and out on the
sockets.

* `Hub.Ticketed`: **a write goes into a feed once at most.**
* `Hub.Shipped`: **what goes out on a socket has been taken from the feed of the connection**, in
  this order.
-/

namespace MiniRedis.Server

open Protocol Store Cmd Maps Replication

variable {primaryAddr : Bytes} {aof : Bool}

/-! ### The writes of a feed -/

/-- The history grows at its end. -/
theorem history_primary {p p' : Primary} {l : Replication.Label} (h : Replication.Step aof p l p') :
    p.history <+: p'.history := by
  have dispatch : ∀ now order r, p.history <+: (p.dispatch now order r).history := by
    intro now order r
    simp only [Primary.dispatch]
    split
    · exact List.prefix_append _ _
    · exact List.prefix_rfl
  cases h with
  | fast | dispatch => exact dispatch _ _ _
  | _ => exact List.prefix_rfl

/-- A write goes from its dispatch to its propagation in one step each. -/
theorem applied_primary {p p' : Primary} {l : Replication.Label} (h : Replication.Step aof p l p')
    (hl : ∀ c now order, l ≠ .dispatch c now order) :
    ∀ c r, p'.phase c = .applied r → p.phase c = .applied r := by
  have goto : ∀ {c₀ c : Nat} {q : Phase} {r : Value}, (∀ r, q ≠ .applied r) →
      Function.update p.phase c₀ q c = .applied r → p.phase c = .applied r := by
    intro c₀ c q r hq h
    rw [Function.update_apply] at h
    split at h
    case isTrue => exact absurd h (hq r)
    case isFalse => exact h
  cases h with
  | check => exact fun c r => goto fun r => by split <;> simp
  | fast | acquire | propagate | release => exact fun c r => goto fun r => by simp
  | dispatch => exact absurd rfl (hl _ _ _)
  | heartbeat | add | remove | deliver | pass | connection => exact fun _ _ h => h

namespace Hub

/-- **Every write goes into a feed once at most**: the number of a write is given at its dispatch,
and only the write between its dispatch and its propagation is not in a feed yet. -/
structure Ticketed (s : Hub) : Prop where
  clients : Orderly s.primary.phase s.primary.lock False
  bound : ∀ id w, some w ∈ s.queued id → w < s.primary.history.length
  ticket : ∀ c r, s.primary.phase c = .applied r →
    s.ticket c < s.primary.history.length ∧ ∀ id, some (s.ticket c) ∉ s.queued id
  nodup : ∀ id, (s.queued id).reduceOption.Nodup

theorem enqueue_eq (s : Hub) (write : Option Nat) (id : Nat) :
    s.enqueue write id = s.queued id ∨ s.enqueue write id = s.queued id ++ [write] := by
  unfold enqueue
  split
  · exact .inl rfl
  · split
    · exact .inl rfl
    · exact .inr rfl

theorem mem_enqueue {s : Hub} {write : Option Nat} {id w : Nat}
    (h : some w ∈ s.enqueue write id) : some w ∈ s.queued id ∨ write = some w := by
  rcases s.enqueue_eq write id with he | he <;> rw [he] at h
  · exact .inl h
  · rcases List.mem_append.1 h with h | h
    · exact .inl h
    · exact .inr (List.mem_singleton.1 h).symm

/-- A feed that is offered a write it does not have still has none twice. -/
theorem nodup_enqueue {s : Hub} {write : Option Nat} {id : Nat}
    (h : (s.queued id).reduceOption.Nodup) (hnew : ∀ w, write = some w → some w ∉ s.queued id) :
    (s.enqueue write id).reduceOption.Nodup := by
  rcases s.enqueue_eq write id with he | he <;> rw [he]
  · exact h
  rw [List.reduceOption_append, List.reduceOption_singleton]
  cases write with
  | none =>
      rw [Option.toList_none, List.append_nil]
      exact h
  | some w =>
      refine List.nodup_append.2 ⟨h, List.nodup_singleton w, fun a ha b hb => ?_⟩
      rintro rfl
      rw [List.mem_singleton.1 hb, List.reduceOption_mem_iff] at ha
      exact hnew w rfl ha

namespace Ticketed

variable {s s' : Hub} {l : Label}

theorem start (db : DB) : (Hub.start db).Ticketed where
  clients := ⟨fun _ h => h.elim, fun _ _ h => (by cases h), fun h => h.elim⟩
  bound _ _ h := (by cases h)
  ticket _ _ h := (by cases h)
  nodup _ := List.nodup_nil

/-- No feed is offered anything, and no write gets its number. -/
theorem of_same (hs : s.Ticketed) (hclients : Orderly s'.primary.phase s'.primary.lock False)
    (hhistory : s.primary.history <+: s'.primary.history)
    (happlied : ∀ c r, s'.primary.phase c = .applied r → s.primary.phase c = .applied r)
    (hticket : s'.ticket = s.ticket) (hqueued : s'.queued = s.queued) : s'.Ticketed := by
  refine ⟨hclients, fun id w hw => ?_, fun c r h => ?_, fun id => ?_⟩
  · rw [hqueued] at hw
    exact (hs.bound id w hw).trans_le hhistory.length_le
  · rw [hqueued, hticket]
    obtain ⟨hlt, hnot⟩ := hs.ticket c r (happlied c r h)
    exact ⟨hlt.trans_le hhistory.length_le, hnot⟩
  · rw [hqueued]
    exact hs.nodup id

theorem of_primary (hs : s.Ticketed) {l : Replication.Label}
    (h : Replication.Step aof s.primary l s'.primary)
    (hl : ∀ c now order, l ≠ .dispatch c now order) (hticket : s'.ticket = s.ticket)
    (hqueued : s'.queued = s.queued) : s'.Ticketed :=
  hs.of_same (hs.clients.step aof h False.elim) (history_primary h) (applied_primary h hl) hticket
    hqueued

theorem step (hs : s.Ticketed) (h : Step primaryAddr aof s l s') : s'.Ticketed := by
  cases h with
  | @dispatch c r now order p h hr hp =>
      have hclients := hs.clients.step aof hp False.elim
      have hlen := (history_primary hp).length_le
      cases hp with
      | @dispatch _ r' _ _ h' =>
          refine ⟨hclients, fun id w hw => (hs.bound id w hw).trans_le hlen,
            fun c₀ r₀ h₀ => ?_, hs.nodup⟩
          change Function.update s.primary.phase c _ c₀ = .applied r₀ at h₀
          change Function.update s.ticket c s.primary.history.length c₀ <
              (s.primary.dispatch now order r').history.length ∧
            ∀ id, some (Function.update s.ticket c s.primary.history.length c₀) ∉ s.queued id
          rw [Function.update_apply] at h₀ ⊢
          split at h₀
          case isFalse hc =>
            rw [if_neg hc]
            obtain ⟨hlt, hnot⟩ := hs.ticket c₀ r₀ h₀
            exact ⟨hlt.trans_le hlen, hnot⟩
          case isTrue hc =>
            -- the write is noted, and its number is that of no write in a feed
            have hw := hs.clients.pending c r' (by rw [h']; rfl)
            rw [if_pos hc]
            refine ⟨?_, fun id hmem => Nat.lt_irrefl _ (hs.bound id _ hmem)⟩
            split at h₀
            · cases h₀
            · simp [Primary.dispatch, recorded, *]
  | @propagate c r p hr hp =>
      have hclients := hs.clients.step aof hp False.elim
      obtain ⟨hlt, hnot⟩ := hs.ticket c r hr
      cases hp with
      | @propagate _ r' h' =>
          refine ⟨hclients, fun id w hw => ?_, fun c₀ r₀ h₀ => ?_, fun id => ?_⟩
          · rcases mem_enqueue hw with hw | hw
            · exact hs.bound id w hw
            · cases hw
              exact hlt
          · -- nobody else has the lock
            have hlock := hs.clients.holds c (by rw [hr]; trivial)
            change Function.update s.primary.phase c _ c₀ = .applied r₀ at h₀
            rw [Function.update_apply] at h₀
            split at h₀
            case isTrue => cases h₀
            case isFalse hc =>
              have hlock' := hs.clients.holds c₀ (by rw [h₀]; trivial)
              exact absurd (Option.some.inj (hlock'.symm.trans hlock)) hc
          · refine nodup_enqueue (hs.nodup id) fun w hw => ?_
            cases hw
            exact hnot id
  | heartbeat hp =>
      have hclients := hs.clients.step aof hp False.elim
      cases hp
      have hmem : ∀ {id w}, some w ∈ s.enqueue none id → some w ∈ s.queued id := by
        intro id w h
        rcases mem_enqueue h with h | h
        · exact h
        · cases h
      refine ⟨hclients, fun id w hw => hs.bound id w (hmem hw), fun c r h => ?_, fun id => ?_⟩
      · obtain ⟨hlt, hnot⟩ := hs.ticket c r h
        exact ⟨hlt, fun id h => hnot id (hmem h)⟩
      · refine nodup_enqueue (hs.nodup id) fun w hw => ?_
        cases hw
  | add _ hp | take _ hp | check _ _ hp | fast _ _ hp | acquire hp | release _ hp | pass hp =>
      exact hs.of_primary hp (by simp) rfl rfl
  | @leave c all h hall =>
      generalize (s.conns c).replica = o
      cases o <;> exact hs.of_same hs.clients List.prefix_rfl (fun _ _ h => h) rfl rfl
  | conn | register | unregister | drain | receive | finish | startShipper | takeLeft | ship
  | shipFails | stop | publish | send | published | stream | streamPublish | streamPublished =>
      exact hs.of_same hs.clients List.prefix_rfl (fun _ _ h => h) rfl rfl

end Ticketed

end Hub

/-! ### The writes on a socket -/

namespace Shipper

/-- The feed the goroutine drains. -/
def feed? : Shipper → Option Nat
  | draining id | holding id _ _ => some id
  | _ => none

/-- The write it has a frame of in its hands. -/
def hand : Shipper → List Nat
  | holding _ write _ => write.toList
  | _ => []

end Shipper

/-- The writes of the frames taken, when one more is. -/
theorem reduceOption_take_succ (l : List (Option Nat)) (n : Nat) :
    (l.take (n + 1)).reduceOption = (l.take n).reduceOption ++ l[n]?.join.toList := by
  rw [List.take_add_one, List.reduceOption_append]
  congr 1
  rcases l[n]? with _ | _ | w <;> rfl

theorem reduceOption_take_append (l more : List (Option Nat)) (n : Nat) :
    (l.take n).reduceOption.Sublist ((l ++ more).take n).reduceOption := by
  rw [List.take_append, List.reduceOption_append]
  exact List.sublist_append_left _ _

namespace Hub

/-- **The writes on a socket are among those taken from the feed**, if each goroutine drains the
feed it was started with. -/
structure Shipped (s : Hub) : Prop where
  made : ∀ sh, s.shippers sh = .unstarted ∨ s.Made sh
  feed : ∀ sh id, (s.shippers sh).feed? = some id → id = sh
  written : ∀ c id, (s.conns c).replica = some id →
    ((s.conns c).written ++ (s.shippers id).hand).Sublist
      ((s.queued id).take (s.taken id)).reduceOption
  nothing : ∀ c, (s.conns c).replica = none → (s.conns c).written = []

namespace Shipped

variable {s s' : Hub} {l : Label}

theorem start (db : DB) : (Hub.start db).Shipped where
  made _ := .inl rfl
  feed _ _ h := (by cases h)
  written _ _ h := (by cases h)
  nothing _ _ := rfl

/-- No goroutine of a feed moves, and the feeds only grow. -/
theorem of_same (hs : s.Shipped)
    (hconns : ∀ c, (s'.conns c).written = (s.conns c).written ∧
      (s'.conns c).replica = (s.conns c).replica)
    (hmade : ∀ id, s.Made id → s'.Made id) (hshippers : s'.shippers = s.shippers)
    (hqueued : ∀ id, ∃ more, s'.queued id = s.queued id ++ more) (htaken : s'.taken = s.taken) :
    s'.Shipped := by
  refine ⟨fun sh => ?_, fun sh id h => ?_, fun c id h => ?_, fun c h => ?_⟩
  · rw [hshippers]
    exact (hs.made sh).imp_right (hmade sh)
  · rw [hshippers] at h
    exact hs.feed sh id h
  · rw [(hconns c).2] at h
    obtain ⟨more, hmore⟩ := hqueued id
    rw [(hconns c).1, hshippers, hmore, htaken]
    exact (hs.written c id h).trans (reduceOption_take_append _ _ _)
  · rw [(hconns c).2] at h
    rw [(hconns c).1]
    exact hs.nothing c h

/-- One goroutine of a feed moves, and with it what has been taken from the feed and what has gone
out on its connection. -/
theorem of_shipper (hs : s.Shipped) (howned : s.Owned) {sh : Nat} {x : Shipper}
    (hsh : s.Made sh) (hfeed : ∀ id, x.feed? = some id → id = sh)
    (hconns : ∀ c, (s'.conns c).replica = (s.conns c).replica ∧
      (c ≠ s.owner sh → (s'.conns c).written = (s.conns c).written))
    (hmade : ∀ id, s.Made id → s'.Made id)
    (hshippers : s'.shippers = Function.update s.shippers sh x) (hqueued : s'.queued = s.queued)
    (htaken : ∀ id, id ≠ sh → s'.taken id = s.taken id)
    (hwritten : ((s'.conns (s.owner sh)).written ++ x.hand).Sublist
      ((s.queued sh).take (s'.taken sh)).reduceOption) : s'.Shipped := by
  have hown : (s.conns (s.owner sh)).replica = some sh := (howned.owner _ sh).2 ⟨hsh, rfl⟩
  refine ⟨fun i => ?_, fun i id h => ?_, fun c id h => ?_, fun c h => ?_⟩
  · rw [hshippers, Function.update_apply]
    split
    case isTrue hi => rw [hi]; exact .inr (hmade sh hsh)
    case isFalse => exact (hs.made i).imp_right (hmade i)
  · rw [hshippers, Function.update_apply] at h
    split at h
    case isTrue hi => rw [hi]; exact hfeed id h
    case isFalse => exact hs.feed i id h
  · rw [(hconns c).1] at h
    rw [hshippers, hqueued]
    by_cases hid : id = sh
    · rw [hid, Function.update_self, ← ((howned.owner c id).1 h).2, hid]
      exact hwritten
    · have hc : c ≠ s.owner sh := by
        rintro rfl
        exact hid (Option.some.inj (h.symm.trans hown))
      rw [Function.update_of_ne hid, (hconns c).2 hc, htaken id hid]
      exact hs.written c id h
  · rw [(hconns c).1] at h
    have hc : c ≠ s.owner sh := by
      rintro rfl
      cases h.symm.trans hown
    rw [(hconns c).2 hc]
    exact hs.nothing c h

theorem made_of (hs : s.Shipped) {sh : Nat} {x : Shipper} (h : s.shippers sh = x)
    (hx : x ≠ .unstarted) : s.Made sh := by
  rcases hs.made sh with hsh | hsh
  · exact absurd (h.symm.trans hsh) hx
  · exact hsh

theorem own (hs : s.Shipped) (howned : s.Owned) {sh : Nat} (hsh : s.Made sh) :
    ((s.conns (s.owner sh)).written ++ (s.shippers sh).hand).Sublist
      ((s.queued sh).take (s.taken sh)).reduceOption :=
  hs.written _ sh ((howned.owner _ sh).2 ⟨hsh, rfl⟩)

/-- A frame is taken from the feed. -/
theorem takeFrame (hs : s.Shipped) (howned : s.Owned) {sh id : Nat} {frame : Bytes}
    (h : s.shippers sh = .draining id) (hconns : s'.conns = s.conns)
    (hmade : ∀ id, s.Made id → s'.Made id)
    (hshippers : s'.shippers = (s.takeFrame sh id frame).shippers) (hqueued : s'.queued = s.queued)
    (htaken : s'.taken = (s.takeFrame sh id frame).taken) : s'.Shipped := by
  have hsh := hs.made_of h (by simp)
  obtain rfl := hs.feed sh id (by rw [h]; rfl)
  refine hs.of_shipper howned hsh (x := .holding id _ frame) (fun i hi => by cases hi; rfl)
    (fun c => by rw [hconns]; exact ⟨rfl, fun _ => rfl⟩) hmade hshippers hqueued
    (fun i hi => by rw [htaken]; exact Function.update_of_ne hi _ _) ?_
  have hown := hs.own howned hsh
  rw [h, show (Shipper.draining id).hand = [] from rfl, List.append_nil] at hown
  rw [hconns, htaken, show (s.takeFrame id id frame).taken id = s.taken id + 1 from
    Function.update_self _ _ _, reduceOption_take_succ]
  exact hown.append (List.Sublist.refl _)

/-- A feed is registered with nothing in it. -/
theorem add (hs : s.Shipped) (howned : s.Owned) {c : Nat} {p : Primary}
    (h : (s.conns c).loop = .adding) (hp : Replication.Step aof s.primary .add p) :
    Shipped { s with
      primary := p
      owner := Function.update s.owner s.primary.replicas.next c
      shippers := Function.update s.shippers s.primary.replicas.next .starting
      conns := Function.update s.conns c
        { s.conns c with replica := some s.primary.replicas.next, loop := .reading } } := by
  have hnone := howned.greeting c (.inr h)
  cases hp
  refine ⟨fun sh => ?_, fun sh id hid => ?_, fun c' id hr => ?_, fun c' hr => ?_⟩
  · change Function.update s.shippers s.primary.replicas.next .starting sh = .unstarted ∨
      sh < s.primary.replicas.next + 1
    rw [Function.update_apply]
    split
    case isTrue hsh => exact .inr (by rw [hsh]; exact Nat.lt_succ_self _)
    case isFalse => exact (hs.made sh).imp_right Nat.lt_succ_of_lt
  · change (Function.update s.shippers s.primary.replicas.next .starting sh).feed? = some id at hid
    rw [Function.update_apply] at hid
    split at hid
    case isTrue => cases hid
    case isFalse => exact hs.feed sh id hid
  · change (Function.update s.conns c _ c').replica = some id at hr
    change ((Function.update s.conns c _ c').written ++
      (Function.update s.shippers s.primary.replicas.next .starting id).hand).Sublist _
    rw [Function.update_apply] at hr ⊢
    split at hr
    case isTrue hc =>
      cases hr
      rw [if_pos hc, Function.update_self]
      change ((s.conns c).written ++ []).Sublist _
      rw [hs.nothing c hnone]
      exact List.nil_sublist _
    case isFalse hc =>
      have hid : id ≠ s.primary.replicas.next := Nat.ne_of_lt ((howned.owner c' id).1 hr).1
      rw [if_neg hc, Function.update_of_ne hid]
      exact hs.written c' id hr
  · change (Function.update s.conns c _ c').replica = none at hr
    change (Function.update s.conns c _ c').written = []
    rw [Function.update_apply] at hr ⊢
    split at hr
    case isTrue => cases hr
    case isFalse hc => rw [if_neg hc]; exact hs.nothing c' hr

theorem step (hs : s.Shipped) (howned : s.Owned) (h : Step primaryAddr aof s l s') :
    s'.Shipped := by
  -- the connection `c` moves, and neither its feed nor what it got of it changes
  have update : ∀ {c : Nat} {cs : Conn},
      cs.written = (s.conns c).written ∧ cs.replica = (s.conns c).replica →
      ∀ c', (Function.update s.conns c cs c').written = (s.conns c').written ∧
        (Function.update s.conns c cs c').replica = (s.conns c').replica :=
    fun h => (Function.forall_update_iff s.conns fun c' cs =>
      cs.written = (s.conns c').written ∧ cs.replica = (s.conns c').replica).2
        ⟨h, fun _ _ => ⟨rfl, rfl⟩⟩
  have still : ∀ id, ∃ more, s.queued id = s.queued id ++ more := fun id =>
    ⟨[], (List.append_nil _).symm⟩
  have hmade : ∀ id, s.Made id → s'.Made id := fun _ => h.made
  cases h with
  | conn h =>
      obtain ⟨-, hreplica, hwritten, -⟩ := h.feed
      exact hs.of_same (update ⟨hwritten, hreplica⟩) hmade rfl still rfl
  | add h hp => exact hs.add howned h hp
  | @leave c all h hall =>
      generalize (s.conns c).replica = o at hmade ⊢
      cases o <;> exact hs.of_same (update ⟨rfl, rfl⟩) hmade rfl still rfl
  | @startShipper sh id h hr =>
      have hsh := hs.made_of h (by simp)
      have hown := hs.own howned hsh
      rw [h] at hown
      refine hs.of_shipper howned hsh (fun i hi => ?_) (fun _ => ⟨rfl, fun _ => rfl⟩)
        hmade rfl rfl (fun _ _ => rfl) hown
      cases hi
      exact Option.some.inj (hr.symm.trans ((howned.owner _ sh).2 ⟨hsh, rfl⟩))
  | take h _ | takeLeft h => exact hs.takeFrame howned h rfl hmade rfl rfl rfl
  | @ship sh id write frame h hb =>
      have hsh := hs.made_of h (by simp)
      have hown := hs.own howned hsh
      obtain rfl := hs.feed sh id (by rw [h]; rfl)
      refine hs.of_shipper howned hsh (x := .draining id) (fun i hi => by cases hi; rfl)
        (fun c => ?_) hmade rfl rfl (fun _ _ => rfl) ?_
      · change (Function.update s.conns (s.owner id) _ c).replica = _ ∧
          (_ → (Function.update s.conns (s.owner id) _ c).written = _)
        rw [Function.update_apply]
        split
        case isTrue hc => rw [hc]; exact ⟨rfl, fun h => absurd rfl h⟩
        case isFalse => exact ⟨rfl, fun _ => rfl⟩
      · change ((Function.update s.conns (s.owner id) _ (s.owner id)).written ++ []).Sublist _
        rw [Function.update_self, List.append_nil]
        change (((s.conns (s.owner id)).out ++ [Frame.feed write frame]).filterMap
          Frame.write?).Sublist _
        rw [Conn.written_concat _ rfl]
        rw [h] at hown
        exact hown
  | @shipFails sh id write frame h =>
      have hsh := hs.made_of h (by simp)
      have hconns := @update (s.owner sh) { s.conns (s.owner sh) with broken := true } ⟨rfl, rfl⟩
      refine hs.of_shipper howned hsh (fun i hi => by cases hi)
        (fun c => ⟨(hconns c).2, fun _ => (hconns c).1⟩) hmade rfl rfl (fun _ _ => rfl) ?_
      change ((Function.update s.conns (s.owner sh) _ (s.owner sh)).written ++ []).Sublist _
      rw [(hconns _).1]
      exact ((List.Sublist.refl _).append (List.nil_sublist _)).trans (hs.own howned hsh)
  | @stop sh id h hrep hl =>
      have hsh := hs.made_of h (by simp)
      have hown := hs.own howned hsh
      rw [h] at hown
      exact hs.of_shipper howned hsh (fun i hi => by cases hi) (fun _ => ⟨rfl, fun _ => rfl⟩)
        hmade rfl rfl (fun _ _ => rfl) hown
  | propagate | heartbeat =>
      refine hs.of_same (fun _ => ⟨rfl, rfl⟩) hmade rfl (fun id => ?_) rfl
      rcases s.enqueue_eq _ id with he | he
      · exact ⟨[], he.trans (List.append_nil _).symm⟩
      · exact ⟨_, he⟩
  | register | unregister | drain | receive | finish | check | fast | dispatch | release | publish
  | published =>
      exact hs.of_same (update ⟨rfl, rfl⟩) hmade rfl still rfl
  | acquire | send | pass | stream | streamPublish | streamPublished =>
      exact hs.of_same (fun _ => ⟨rfl, rfl⟩) hmade rfl still rfl

end Shipped

end Hub

end MiniRedis.Server
