import MiniRedis.Server.Hub

/-!
# Server — Ownership

Whose feed is whose.  A connection has one field for its feed, the registry a map of all feeds;
`replicaof` overwrites the field, and `removeReplica` takes out the feed that is in it.

* `Hub.Fresh`: the step is no `REPLICAOF` on a connection that has a feed.
* `Hub.Owned`: **the registry and the connections agree on the feeds**, which such steps keep.
-/

namespace MiniRedis.Server

open Protocol Store Cmd Maps Machine Replication

variable {primaryAddr : Bytes} {aof : Bool}

/-! ### Connections -/

namespace Conn

/-- `removeReplica` has been called. -/
def left (cs : Conn) : Bool :=
  match cs.loop with
  | .draining _ | .closing | .closed => true
  | _ => false

/-- In `replicaof`. -/
def Greeting (cs : Conn) : Prop := cs.loop = .greeting ∨ cs.loop = .adding

/-- The writes of which a frame has gone out. -/
def written (cs : Conn) : List Nat := cs.out.filterMap Frame.write?

theorem written_concat (cs : Conn) {f : Frame} {w : Option Nat} (h : f.write? = w) :
    (cs.out ++ [f]).filterMap Frame.write? = cs.written ++ w.toList := by
  rw [List.filterMap_append, written]
  cases w <;> simp [h]

/-- What a connection does on its own. -/
theorem Step.feed {cs cs' : Conn} {a : Act} (h : Conn.Step primaryAddr cs a cs') :
    cs'.left = cs.left ∧ cs'.replica = cs.replica ∧ cs'.written = cs.written ∧
      (cs'.Greeting → cs.Greeting ∨
        ∃ request, a = .read request ∧
          route primaryAddr cs.subscribed request = .replicaof) := by
  cases h with
  | @read all request h hall =>
      have hserved := cs.serve_served primaryAddr all request
      generalize cs.serve primaryAddr all request = cs' at hserved ⊢
      cases hserved with
      | stay => exact ⟨rfl, rfl, rfl, .inl⟩
      | greet hr => exact ⟨by simp [left, h], rfl, rfl, fun _ => .inr ⟨request, rfl, hr⟩⟩
      | _ => exact ⟨by simp [left, h], rfl, rfl, fun hg => by rcases hg with hg | hg <;> cases hg⟩
  | @write f next h hb =>
      have hw : f.write? = none := by
        unfold pending at h
        split at h <;> cases h <;> rfl
      refine ⟨?_, rfl, ?_, fun hg => ?_⟩
      · unfold pending at h
        split at h <;> cases h <;> simp [left, *]
      · exact (cs.written_concat hw).trans (List.append_nil _)
      · unfold pending at h
        split at h <;> cases h <;> rename_i hloop
        case h_6 => exact .inl (.inl hloop)
        all_goals rcases hg with hg | hg <;> cases hg
  | writeFails h =>
      refine ⟨?_, rfl, rfl, fun hg => by rcases hg with hg | hg <;> cases hg⟩
      unfold pending at h
      split at h <;> cases h <;> simp [left, *]
  | done h =>
      refine ⟨?_, rfl, rfl, fun hg => by rcases hg with hg | hg <;> cases hg⟩
      rcases h with h | h <;> simp [left, h]
  | push h hb =>
      exact ⟨rfl, rfl, (cs.written_concat rfl).trans (List.append_nil _), .inl⟩
  | pushFails => exact ⟨rfl, rfl, rfl, .inl⟩
  | accept h | malformed h | hangUp h | already h | missing h | enter h | delete h
  | closeMailbox h | close h =>
      exact ⟨by simp [left, h], rfl, rfl, fun hg => by rcases hg with hg | hg <;> cases hg⟩

end Conn

/-! ### Ownership -/

/-- The step neither registers a feed nor takes one out. -/
def Keeps : Replication.Label → Prop
  | .add | .remove _ => False
  | _ => True

/-- A step of a request leaves the registry as it is. -/
theorem replicas_primary {p p' : Primary} {l : Replication.Label} (h : Replication.Step aof p l p')
    (hl : Keeps l) : p'.replicas.next = p.replicas.next ∧
      ∀ id, (p'.replicas.reps id).isSome = (p.replicas.reps id).isSome := by
  cases h with
  | propagate | heartbeat => exact ⟨rfl, fun id => Option.isSome_map⟩
  | add | remove => exact hl.elim
  | @deliver id rep frame ch h hr =>
      refine ⟨rfl, fun i => ?_⟩
      change (if i = id then (p.replicas.reps i).map fun _ => ⟨ch⟩
        else p.replicas.reps i).isSome = _
      split
      · exact Option.isSome_map
      · rfl
  | _ => exact ⟨rfl, fun _ => rfl⟩

namespace Hub

/-- `REPLICAOF` comes from a connection that has no feed yet. -/
def Fresh (primaryAddr : Bytes) (s : Hub) : Label → Prop
  | .conn c (.read request) =>
      route primaryAddr (s.conns c).subscribed request = .replicaof → (s.conns c).replica = none
  | _ => True

@[simp] theorem removeReplica_next (o : Option Nat) (s : Hub) :
    (s.removeReplica o).primary.replicas.next = s.primary.replicas.next := by cases o <;> rfl

@[simp] theorem removeReplica_owner (o : Option Nat) (s : Hub) :
    (s.removeReplica o).owner = s.owner := by cases o <;> rfl

@[simp] theorem removeReplica_reps (o : Option Nat) (s : Hub) (id : Nat) :
    (s.removeReplica o).primary.replicas.reps id =
      if o = some id then none else s.primary.replicas.reps id := by
  cases o with
  | none => rfl
  | some i => simp [removeReplica, Replicas.remove, Function.update_apply, eq_comm]

@[simp] theorem removeReplica_closes (o : Option Nat) (s : Hub) (id : Nat) :
    (s.removeReplica o).closes id = if o = some id then s.closes id + 1 else s.closes id := by
  cases o with
  | none => rfl
  | some i =>
      by_cases hi : i = id
      · simp [removeReplica, hi]
      · simp [removeReplica, hi, Function.update_of_ne (Ne.symm hi)]

/-- The feed was handed out. -/
def Made (s : Hub) (id : Nat) : Prop := id < s.primary.replicas.next

/-- A feed that was handed out stays so. -/
theorem Step.made {s s' : Hub} {l : Label} (h : Step primaryAddr aof s l s') {id : Nat}
    (hid : s.Made id) : s'.Made id := by
  unfold Made
  rcases h.primary with ⟨db, hp⟩ | ⟨l', hp⟩
  · rw [hp]
    exact hid
  · generalize s'.primary = p at hp
    cases hp with
    | add => exact Nat.lt_succ_of_lt hid
    | _ => exact hid

/-- **The registry and the connections agree on the feeds.** -/
structure Owned (s : Hub) : Prop where
  owner : ∀ c id, (s.conns c).replica = some id ↔ s.Made id ∧ s.owner id = c
  greeting : ∀ c, (s.conns c).Greeting → (s.conns c).replica = none
  registered : ∀ id, (s.primary.replicas.reps id).isSome ↔
    s.Made id ∧ (s.conns (s.owner id)).left = false
  closes : ∀ id, s.Made id → s.closes id = if (s.conns (s.owner id)).left then 1 else 0
  unmade : ∀ id, ¬ s.Made id → s.closes id = 0

namespace Owned

variable {s s' : Hub} {l : Label}

theorem start (db : DB) : (Hub.start db).Owned where
  owner c id := ⟨fun h => (by cases h), fun h => absurd h.1 (Nat.not_lt_zero id)⟩
  greeting _ _ := rfl
  registered id := ⟨fun h => (by cases h), fun h => absurd h.1 (Nat.not_lt_zero id)⟩
  closes id h := absurd h (Nat.not_lt_zero id)
  unmade _ _ := rfl

/-- Nothing that has to do with feeds has changed. -/
theorem of_same (hs : s.Owned) (hleft : ∀ c, (s'.conns c).left = (s.conns c).left)
    (hreplica : ∀ c, (s'.conns c).replica = (s.conns c).replica)
    (hgreet : ∀ c, (s'.conns c).Greeting → (s.conns c).replica = none)
    (hreps : s'.primary.replicas.next = s.primary.replicas.next ∧
      ∀ id, (s'.primary.replicas.reps id).isSome = (s.primary.replicas.reps id).isSome)
    (howner : s'.owner = s.owner) (hcloses : s'.closes = s.closes) : s'.Owned := by
  have hmade : ∀ id, s'.Made id ↔ s.Made id := fun id => by rw [Made, hreps.1, Made]
  refine ⟨fun c id => ?_, fun c hg => ?_, fun id => ?_, fun id hid => ?_, fun id hid => ?_⟩
  · rw [hreplica, hmade, howner]
    exact hs.owner c id
  · rw [hreplica]
    exact hgreet c hg
  · rw [hreps.2, hmade, howner, hleft]
    exact hs.registered id
  · rw [hcloses, howner, hleft]
    exact hs.closes id ((hmade id).1 hid)
  · rw [hcloses]
    exact hs.unmade id fun h => hid ((hmade id).2 h)

/-- One connection moves, and its feed stays. -/
theorem of_conn (hs : s.Owned) {c : Nat} {cs : Conn}
    (hconns : s'.conns = Function.update s.conns c cs) (hleft : cs.left = (s.conns c).left)
    (hreplica : cs.replica = (s.conns c).replica)
    (hgreet : cs.Greeting → (s.conns c).replica = none)
    (hreps : s'.primary.replicas.next = s.primary.replicas.next ∧
      ∀ id, (s'.primary.replicas.reps id).isSome = (s.primary.replicas.reps id).isSome)
    (howner : s'.owner = s.owner) (hcloses : s'.closes = s.closes) : s'.Owned := by
  refine hs.of_same ?_ ?_ ?_ hreps howner hcloses <;> rw [hconns]
  · exact (Function.forall_update_iff s.conns fun c cs => cs.left = (s.conns c).left).2
      ⟨hleft, fun _ _ => rfl⟩
  · exact (Function.forall_update_iff s.conns fun c cs => cs.replica = (s.conns c).replica).2
      ⟨hreplica, fun _ _ => rfl⟩
  · exact (Function.forall_update_iff s.conns fun c cs =>
      cs.Greeting → (s.conns c).replica = none).2 ⟨hgreet, fun c' _ => hs.greeting c'⟩

/-- A connection without a feed gets one. -/
theorem add (hs : s.Owned) {c : Nat} {p : Primary} (h : (s.conns c).loop = .adding)
    (hp : Replication.Step aof s.primary .add p) :
    Owned { s with
      primary := p
      owner := Function.update s.owner s.primary.replicas.next c
      shippers := Function.update s.shippers s.primary.replicas.next .starting
      conns := Function.update s.conns c
        { s.conns c with replica := some s.primary.replicas.next, loop := .reading } } := by
  have hnone := hs.greeting c (.inr h)
  have hleft : ∀ c', (Function.update s.conns c { s.conns c with
      replica := some s.primary.replicas.next, loop := .reading } c').left =
      (s.conns c').left := by
    intro c'
    rw [Function.update_apply]
    split
    case isTrue hc => rw [hc, Conn.left, Conn.left, h]
    case isFalse => rfl
  have hlast : (s.conns c).left = false := by rw [Conn.left, h]
  cases hp
  -- the new feed apart, everything is as before
  have old : ∀ {id}, id < s.primary.replicas.next + 1 → id ≠ s.primary.replicas.next →
      s.Made id := fun h hne => Nat.lt_of_le_of_ne (Nat.le_of_lt_succ h) hne
  have notNew : ∀ {id}, s.Made id → id ≠ s.primary.replicas.next := fun h => Nat.ne_of_lt h
  refine ⟨fun c' id => ?_, fun c' hg => ?_, fun id => ?_, fun id hid => ?_, fun id hid => ?_⟩
  · change (Function.update s.conns c _ c').replica = some id ↔
      id < s.primary.replicas.next + 1 ∧ Function.update s.owner s.primary.replicas.next c id = c'
    rw [Function.update_apply, Function.update_apply]
    by_cases hc : c' = c
    · rw [if_pos hc, hc]
      refine ⟨fun hr => ?_, fun ⟨hid, ho⟩ => ?_⟩
      · cases hr
        exact ⟨Nat.lt_succ_self _, if_pos rfl⟩
      · by_cases hnew : id = s.primary.replicas.next
        · rw [hnew]
        · rw [if_neg hnew] at ho
          cases hnone.symm.trans ((hs.owner c id).2 ⟨old hid hnew, ho⟩)
    · rw [if_neg hc, hs.owner]
      refine ⟨fun ⟨hid, ho⟩ => ⟨Nat.lt_succ_of_lt hid, ?_⟩, fun ⟨hid, ho⟩ => ?_⟩
      · rw [if_neg (notNew hid), ho]
      · by_cases hnew : id = s.primary.replicas.next
        · rw [if_pos hnew] at ho
          exact absurd ho.symm hc
        · rw [if_neg hnew] at ho
          exact ⟨old hid hnew, ho⟩
  · change (Function.update s.conns c _ c').Greeting at hg
    change (Function.update s.conns c _ c').replica = none
    rw [Function.update_apply] at hg ⊢
    split at hg
    case isTrue => rcases hg with hg | hg <;> cases hg
    case isFalse hc => rw [if_neg hc]; exact hs.greeting c' hg
  · change (Function.update s.primary.replicas.reps s.primary.replicas.next _ id).isSome ↔
      id < s.primary.replicas.next + 1 ∧ (Function.update s.conns c _
        (Function.update s.owner s.primary.replicas.next c id)).left = false
    rw [hleft, Function.update_apply, Function.update_apply]
    by_cases hnew : id = s.primary.replicas.next
    · rw [if_pos hnew, if_pos hnew, hnew]
      exact ⟨fun _ => ⟨Nat.lt_succ_self _, hlast⟩, fun _ => rfl⟩
    · rw [if_neg hnew, if_neg hnew, hs.registered]
      exact ⟨fun h => ⟨Nat.lt_succ_of_lt h.1, h.2⟩, fun h => ⟨old h.1 hnew, h.2⟩⟩
  · change s.closes id = if (Function.update s.conns c _
      (Function.update s.owner s.primary.replicas.next c id)).left then 1 else 0
    rw [hleft, Function.update_apply]
    by_cases hnew : id = s.primary.replicas.next
    · rw [if_pos hnew, hlast]
      exact hs.unmade id fun h => notNew h hnew
    · rw [if_neg hnew]
      exact hs.closes id (old hid hnew)
  · exact hs.unmade id fun h => hid (Nat.lt_succ_of_lt h)

/-- A connection takes its feed with it. -/
theorem leave (hs : s.Owned) {c : Nat} {all : List Bytes} (h : (s.conns c).loop = .leaving) :
    ((s.removeReplica (s.conns c).replica).setConn c ((s.conns c).drain all)).Owned := by
  have hgone : ((s.conns c).drain all).left = true := by
    unfold Conn.drain Conn.left
    split <;> simp_all
  have hgreet : ¬ ((s.conns c).drain all).Greeting := by
    unfold Conn.drain Conn.Greeting
    split <;> simp
  have hstay : (s.conns c).left = false := by rw [Conn.left, h]
  -- the feeds of the others are left alone
  have hleft : ∀ {id}, s.Made id → (s.conns c).replica ≠ some id →
      (Function.update s.conns c ((s.conns c).drain all) (s.owner id)).left =
        (s.conns (s.owner id)).left := by
    intro id hid hne
    rw [Function.update_of_ne fun hc => hne ((hs.owner c id).2 ⟨hid, hc⟩)]
  have hown : ∀ {id}, (s.conns c).replica = some id →
      (Function.update s.conns c ((s.conns c).drain all) (s.owner id)).left = true := by
    intro id hid
    rw [((hs.owner c id).1 hid).2, Function.update_self]
    exact hgone
  refine ⟨fun c' id => ?_, fun c' hg => ?_, fun id => ?_, fun id hid => ?_, fun id hid => ?_⟩ <;>
    simp only [setConn, Made, removeReplica_conns, removeReplica_next, removeReplica_owner,
      removeReplica_reps, removeReplica_closes] at *
  · rw [Function.update_apply]
    split
    case isTrue hc => rw [hc]; exact hs.owner c id
    case isFalse => exact hs.owner c' id
  · rw [Function.update_apply] at hg ⊢
    split at hg
    case isTrue => exact absurd hg hgreet
    case isFalse hc => rw [if_neg hc]; exact hs.greeting c' hg
  · by_cases hr : (s.conns c).replica = some id
    · rw [if_pos hr, hown hr]
      simp
    · rw [if_neg hr, hs.registered]
      exact and_congr_right fun hid => by rw [hleft hid hr]
  · by_cases hr : (s.conns c).replica = some id
    · rw [if_pos hr, hown hr, hs.closes id hid, ((hs.owner c id).1 hr).2, hstay]
      rfl
    · rw [if_neg hr, hleft hid hr]
      exact hs.closes id hid
  · rw [if_neg fun hr => hid ((hs.owner c id).1 hr).1]
    exact hs.unmade id hid

/-- One connection goes on in `applyRecord`, or leaves it. -/
theorem of_serving (hs : s.Owned) {c : Nat} {loop : Loop}
    (hconns : s'.conns = Function.update s.conns c { s.conns c with loop })
    (h : (s.conns c).loop.Serving) (hloop : loop.Serving ∨ ∃ v, loop = .replying v)
    (hreps : s'.primary.replicas.next = s.primary.replicas.next ∧
      ∀ id, (s'.primary.replicas.reps id).isSome = (s.primary.replicas.reps id).isSome)
    (howner : s'.owner = s.owner) (hcloses : s'.closes = s.closes) : s'.Owned := by
  have hleft : ∀ cs : Conn, cs.loop.Serving → cs.left = false := by
    intro cs h
    unfold Conn.left
    split <;> simp_all [Loop.Serving]
  rcases hloop with hloop | ⟨v, rfl⟩
  · refine hs.of_conn hconns ((hleft _ hloop).trans (hleft _ h).symm) rfl (fun hg => ?_) hreps
      howner hcloses
    rcases hg with hg | hg <;> cases hg <;> exact hloop.elim
  · refine hs.of_conn hconns (hleft _ h).symm rfl (fun hg => ?_) hreps howner hcloses
    rcases hg with hg | hg <;> cases hg

theorem step (hs : s.Owned) (h : Step primaryAddr aof s l s') (hl : s.Fresh primaryAddr l) :
    s'.Owned := by
  cases h with
  | conn h =>
      obtain ⟨hleft, hreplica, -, hgreet⟩ := h.feed
      refine hs.of_conn rfl hleft hreplica (fun hg => ?_) ⟨rfl, fun _ => rfl⟩ rfl rfl
      rcases hgreet hg with hg | ⟨request, rfl, hr⟩
      · exact hs.greeting _ hg
      · exact hl hr
  | register h | unregister h | drain h =>
      refine hs.of_conn rfl ?_ rfl (fun hg => ?_) ⟨rfl, fun _ => rfl⟩ rfl rfl
      · rw [Conn.left, Conn.left, h]
      · rcases hg with hg | hg <;> cases hg
  | add h hp => exact hs.add h hp
  | leave h hall => exact hs.leave h
  | receive | finish | ship | shipFails =>
      exact hs.of_conn rfl rfl rfl (hs.greeting _) ⟨rfl, fun _ => rfl⟩ rfl rfl
  | check h _ hp | dispatch h _ hp =>
      exact hs.of_serving rfl (by rw [h]; trivial) (.inl trivial) (replicas_primary hp trivial)
        rfl rfl
  | fast h _ hp | release h hp =>
      exact hs.of_serving rfl (by rw [h]; trivial) (.inr ⟨_, rfl⟩) (replicas_primary hp trivial)
        rfl rfl
  | publish h _ =>
      exact hs.of_serving rfl (by rw [h]; trivial) (.inl trivial) ⟨rfl, fun _ => rfl⟩ rfl rfl
  | published _ h =>
      exact hs.of_serving rfl (by rw [h]; trivial) (.inr ⟨_, rfl⟩) ⟨rfl, fun _ => rfl⟩ rfl rfl
  | take _ hp | acquire hp | propagate _ hp | heartbeat hp | pass hp =>
      exact hs.of_same (fun _ => rfl) (fun _ => rfl) hs.greeting (replicas_primary hp trivial)
        rfl rfl
  | startShipper | takeLeft | stop | send | stream | streamPublish | streamPublished =>
      exact hs.of_same (fun _ => rfl) (fun _ => rfl) hs.greeting ⟨rfl, fun _ => rfl⟩ rfl rfl

end Owned

end Hub

end MiniRedis.Server
