import MiniRedis.Server.Hub
import MiniRedis.Support.Along

/-!
# Server — Acknowledged

What a connection knows of its own subscriptions: its set of channels against the acknowledgements
it has written (`Conn.Told`), the counts in them, and its mailbox.  All of it is kept by every
move of a connection, whatever the other connections and the broker do.

* `Conn.Sound`: the invariant.
* `Conn.Move.sound`: **every move keeps it.**
-/

namespace MiniRedis.Server

open Protocol Store Cmd Maps

variable {primaryAddr : Bytes} {cs cs' : Conn} {o : Option Act}

/-- The acknowledgement carries the size of the set of channels the client then knows of. -/
def Counts (pre : List Frame) (f : Frame) : Prop :=
  ∀ n, f.count? = some n → n = (acked (pre ++ [f])).card

/-- How a set of channels differs from the one the client was told of: by a channel whose
acknowledgement is next, and at will after a failed write. -/
def Loop.Tells (loop : Loop) (channels told : Finset Bytes) (broken : Bool) : Prop :=
  match loop with
  | .registering channel _ | .subscribed true channel _ => channels = insert channel told
  | .subscribed false channel _ => channel ∈ channels ∧ channels = told
  | .unregistering channel _ => channel ∈ told ∧ channels = told.erase channel
  | .unsubscribed channel _ => channels = told.erase channel
  | .unsubscribedNone => channels = ∅ ∧ channels = told
  | .leaving | .draining _ | .closing | .closed => broken = false → channels = told
  | _ => channels = told

/-- In the loop of `subscribe`. -/
def Loop.Joining : Loop → Prop
  | .subscribing _ | .registering _ _ | .subscribed _ _ _ => True
  | _ => False

/-- Between requests the client has been told the channel set. -/
theorem Loop.tells_serving {loop : Loop} (h : loop.Serving ∨ ∃ v, loop = .replying v)
    {channels told : Finset Bytes} {broken : Bool} :
    loop.Tells channels told broken ↔ channels = told := by
  rcases h with h | ⟨v, rfl⟩
  · cases loop with
    | applying | publishing | dispatching | recording => exact Iff.rfl
    | _ => exact h.elim
  · exact Iff.rfl

/-- Breaking the writer forgives. -/
theorem Loop.Tells.broken {loop : Loop} {channels told : Finset Bytes} {broken : Bool}
    (h : loop.Tells channels told broken) : loop.Tells channels told true := by
  cases loop with
  | leaving | draining | closing | closed => exact fun hb => by cases hb
  | subscribed new => cases new <;> exact h
  | _ => exact h

/-- What the mailbox and the set of channels are by the place of the loop. -/
structure Loop.Fits (loop : Loop) (mailbox : Mailbox) (channels : Finset Bytes) : Prop where
  unmade : mailbox = .unmade → channels = ∅ ∧ ¬ loop.Joining
  closed : mailbox = .closed → loop = .closing ∨ loop = .closed
  draining : ∀ rest, loop = .draining rest → rest.Nodup ∧ ∀ channel ∈ rest, channel ∈ channels

/-- The loop goes on to a place that asks for no more. -/
theorem Loop.Fits.goto {loop loop' : Loop} {mailbox : Mailbox} {channels : Finset Bytes}
    (h : loop.Fits mailbox channels) (hjoin : loop'.Joining → loop.Joining)
    (hopen : loop ≠ .closing ∧ loop ≠ .closed) (hdrain : ∀ rest, loop' ≠ .draining rest) :
    loop'.Fits mailbox channels where
  unmade hm := ⟨(h.unmade hm).1, fun hj => (h.unmade hm).2 (hjoin hj)⟩
  closed hm := by
    rcases h.closed hm with hc | hc
    · exact absurd hc hopen.1
    · exact absurd hc hopen.2
  draining rest hr := absurd hr (hdrain rest)

namespace Conn

/-- What the client has been told goes with where the request loop is. -/
def Told (cs : Conn) : Prop := cs.loop.Tells cs.channels (acked cs.out) cs.broken

/-- The invariant of a connection. -/
structure Sound (cs : Conn) : Prop where
  told : cs.Told
  counts : Along Counts cs.out
  mailbox : cs.loop.Fits cs.mailbox cs.channels

theorem Sound.new : Conn.new.Sound where
  told := rfl
  counts := along_nil
  mailbox := ⟨fun _ => ⟨rfl, id⟩, fun h => (by cases h), fun _ h => by cases h⟩

/-- A channel that is about to be registered is in the set. -/
theorem Sound.mem_registering (hs : cs.Sound) {channel : Bytes} {rest : List Bytes}
    (h : cs.loop = .registering channel rest) : channel ∈ cs.channels := by
  have ht : cs.loop.Tells cs.channels (acked cs.out) cs.broken := hs.told
  rw [h] at ht
  have hset : cs.channels = insert channel (acked cs.out) := ht
  rw [hset]
  exact Finset.mem_insert_self _ _

/-- A channel that is about to be unregistered is not. -/
theorem Sound.notMem_unregistering (hs : cs.Sound) {channel : Bytes} {rest : List Bytes}
    (h : cs.loop = .unregistering channel rest) : channel ∉ cs.channels := by
  have ht : cs.loop.Tells cs.channels (acked cs.out) cs.broken := hs.told
  rw [h] at ht
  have hset : cs.channels = (acked cs.out).erase channel := ht.2
  rw [hset]
  exact Finset.notMem_erase _ _

/-! ### The acknowledgements -/

/-- After `serve`. -/
theorem told_serve {all : List Bytes} {request : Value} (h : cs.loop = .reading)
    (hall : ListsSet all cs.channels) (ht : cs.Told) :
    (cs.serve primaryAddr all request).Told := by
  have hset : cs.channels = acked cs.out := by
    unfold Told at ht
    rwa [h] at ht
  have hserved := cs.serve_served primaryAddr all request
  generalize cs.serve primaryAddr all request = cs' at hserved ⊢
  cases hserved with
  | stay => exact ht
  | unsubscribeNone hnone =>
      refine ⟨Finset.eq_empty_of_forall_notMem fun a ha => ?_, hset⟩
      rw [hnone] at hall
      exact List.not_mem_nil ((hall.mem_iff a).2 ha)
  | _ => exact hset

/-- After the loop has written the frame it was at. -/
theorem told_write {f : Frame} {next : Loop} (h : cs.pending = some (f, next)) (ht : cs.Told) :
    next.Tells cs.channels (acked (cs.out ++ [f])) cs.broken ∧ Counts cs.out f := by
  rw [acked_concat]
  unfold Told at ht
  unfold pending at h
  unfold Counts
  rw [acked_concat]
  split at h <;> cases h <;> rename_i hloop <;> rw [hloop] at ht
  case h_1 => exact ⟨ht, fun n hn => by cases hn⟩
  case h_2 => exact ⟨fun _ => ht, fun n hn => by cases hn⟩
  case h_3 new channel rest =>
    have hset : cs.channels = insert channel (acked cs.out) := by
      cases new with
      | true => exact ht
      | false =>
          obtain ⟨hmem, hset⟩ : channel ∈ cs.channels ∧ cs.channels = acked cs.out := ht
          rw [← hset, Finset.insert_eq_of_mem hmem]
    refine ⟨hset, fun n hn => ?_⟩
    cases hn
    exact congrArg Finset.card hset
  case h_4 => exact ⟨ht, fun n hn => by cases hn; exact congrArg _ ht⟩
  case h_5 =>
    refine ⟨ht.2, fun n hn => ?_⟩
    cases hn
    exact (Finset.card_eq_zero.2 (ht.2.symm.trans ht.1)).symm
  case h_6 => exact ⟨ht, fun n hn => by cases hn⟩

/-- Every step keeps what the client has been told. -/
theorem Move.told (h : cs.Move primaryAddr o cs') (ht : cs.Told) : cs'.Told := by
  have ht' := ht
  unfold Told at ht'
  cases h with
  | same => exact ht
  | act h =>
      cases h with
      | accept h | malformed h | closeMailbox h => rw [h] at ht'; exact ht'
      | read h hall => exact told_serve h hall ht
      | hangUp h => rw [h] at ht'; exact fun _ => ht'
      | write h hb => exact (told_write h ht).1
      | writeFails | close => exact fun hb => by cases hb
      | already h hc =>
          rw [h] at ht'
          exact ⟨hc, ht'⟩
      | missing h hc =>
          rw [h] at ht'
          exact (Finset.erase_eq_of_notMem hc).symm.trans (congrArg (Finset.erase · _) ht')
      | enter h hc => rw [h] at ht'; exact congrArg (insert _) ht'
      | delete h hc =>
          rw [h] at ht'
          exact ⟨ht' ▸ hc, congrArg (Finset.erase · _) ht'⟩
      | done h => rcases h with h | h <;> rw [h] at ht' <;> exact ht'
      | push h hb =>
          unfold Told
          rw [acked_concat]
          exact ht
      | pushFails h => exact ht'.broken
  | register h | drain h | add _ h => rw [h] at ht'; exact ht'
  | unregister h => rw [h] at ht'; exact ht'.2
  | receive | finish => exact ht
  | leave h hall =>
      rw [h] at ht'
      unfold Conn.drain Told
      split <;> exact ht'
  | ship write frame hb =>
      unfold Told
      rw [acked_concat]
      exact ht
  | shipFails => exact ht'.broken
  | serving loop h hl =>
      exact (Loop.tells_serving hl).2 ((Loop.tells_serving (.inl h)).1 ht')

/-- Every acknowledgement carries the size of the set it tells of. -/
theorem Move.counts (h : cs.Move primaryAddr o cs') (hs : cs.Sound) : Along Counts cs'.out := by
  cases h with
  | act h =>
      cases h with
      | @read all request h hall =>
          have hserved := cs.serve_served primaryAddr all request
          generalize cs.serve primaryAddr all request = cs' at hserved ⊢
          cases hserved <;> exact hs.counts
      | write h hb => exact along_concat.2 ⟨hs.counts, (told_write h hs.told).2⟩
      | push h hb => exact along_concat.2 ⟨hs.counts, fun n hn => by cases hn⟩
      | _ => exact hs.counts
  | ship write frame hb => exact along_concat.2 ⟨hs.counts, fun n hn => by cases hn⟩
  | _ => exact hs.counts

/-! ### The mailbox -/

theorem fits_write {f : Frame} {next : Loop} (h : cs.pending = some (f, next))
    (hs : cs.loop.Fits cs.mailbox cs.channels) : next.Fits cs.mailbox cs.channels := by
  unfold pending at h
  split at h <;> cases h <;> rename_i hloop <;> rw [hloop] at hs <;>
    exact hs.goto (by simp [Loop.Joining]) (by simp) (by simp)

theorem fits_serve {all : List Bytes} {request : Value} (h : cs.loop = .reading)
    (hs : cs.loop.Fits cs.mailbox cs.channels) :
    (cs.serve primaryAddr all request).loop.Fits (cs.serve primaryAddr all request).mailbox
      (cs.serve primaryAddr all request).channels := by
  have hserved := cs.serve_served primaryAddr all request
  generalize cs.serve primaryAddr all request = cs' at hserved ⊢
  cases hserved with
  | stay => exact hs
  | join rest hm =>
      rw [h] at hs
      refine ⟨fun hn => absurd hn hm, fun hc => ?_, fun _ hd => by cases hd⟩
      rcases hs.closed hc with hc | hc <;> cases hc
  | joinFirst rest hm =>
      exact ⟨fun hn => (by cases hn), fun hc => (by cases hc), fun _ hd => by cases hd⟩
  | _ =>
      rw [h] at hs
      exact hs.goto id (by simp) (by simp)

/-- Every step keeps the mailbox and the set in line with the request loop. -/
theorem Move.fits (h : cs.Move primaryAddr o cs') (hs : cs.loop.Fits cs.mailbox cs.channels) :
    cs'.loop.Fits cs'.mailbox cs'.channels := by
  have hs' := hs
  cases h with
  | same => exact hs
  | act h =>
      cases h with
      | read h hall => exact fits_serve h hs
      | write h hb => exact (fits_write h hs :)
      | @writeFails f next h =>
          unfold pending at h
          split at h <;> cases h <;> rename_i hloop <;> rw [hloop] at hs' <;>
            exact hs'.goto False.elim (by simp) (by simp)
      | accept h | malformed h | hangUp h | missing h _ =>
          rw [h] at hs'
          exact hs'.goto id (by simp) (by simp)
      | already h _ =>
          rw [h] at hs'
          exact hs'.goto (fun _ => trivial) (by simp) (by simp)
      | enter h hc =>
          rw [h] at hs'
          refine ⟨fun hm => absurd trivial (hs'.unmade hm).2, fun hm => ?_, fun _ hd => by cases hd⟩
          rcases hs'.closed hm with hc | hc <;> cases hc
      | delete h hc =>
          rw [h] at hs'
          refine ⟨fun hm => ⟨?_, id⟩, fun hm => ?_, fun _ hd => by cases hd⟩
          · change cs.channels.erase _ = ∅
            rw [(hs'.unmade hm).1]
            rfl
          · rcases hs'.closed hm with hc | hc <;> cases hc
      | done h =>
          rcases h with h | h <;> rw [h] at hs' <;> exact hs'.goto False.elim (by simp) (by simp)
      | push | pushFails => exact hs
      | closeMailbox h =>
          exact ⟨fun hm => (by cases hm), fun _ => .inl rfl, fun _ hd => by cases hd⟩
      | close h =>
          rw [h] at hs'
          exact ⟨hs'.unmade, fun _ => .inr rfl, fun _ hd => by cases hd⟩
  | register h =>
      rw [h] at hs'
      exact hs'.goto (fun _ => trivial) (by simp) (by simp)
  | unregister h =>
      rw [h] at hs'
      exact hs'.goto id (by simp) (by simp)
  | drain h =>
      rw [h] at hs'
      refine ⟨hs'.unmade, fun hm => ?_, fun rest hd => ?_⟩
      · rcases hs'.closed hm with hc | hc <;> cases hc
      · cases hd
        obtain ⟨hnodup, hsub⟩ := hs'.draining _ rfl
        exact ⟨hnodup.of_cons, fun channel hch => hsub channel (List.mem_cons_of_mem _ hch)⟩
  | receive | finish | ship | shipFails => exact hs
  | add id h =>
      rw [h] at hs'
      exact hs'.goto False.elim (by simp) (by simp)
  | leave h hall =>
      rw [h] at hs'
      unfold Conn.drain
      split
      case isTrue hm =>
        exact ⟨fun _ => ⟨(hs'.unmade hm).1, id⟩, fun _ => .inl rfl, fun _ hd => by cases hd⟩
      case isFalse hm =>
        refine ⟨fun hn => absurd hn hm, fun hc => ?_, fun rest hd => ?_⟩
        · rcases hs'.closed hc with hc | hc <;> cases hc
        · cases hd
          exact ⟨hall.nodup, fun channel => (hall.mem_iff channel).1⟩
  | serving loop h hl =>
      have hopen : cs.loop ≠ .closing ∧ cs.loop ≠ .closed :=
        ⟨fun e => by rw [e] at h; exact h, fun e => by rw [e] at h; exact h⟩
      refine hs.goto (fun hj => ?_) hopen fun rest hd => ?_
      · rcases hl with hl | ⟨v, rfl⟩
        · cases loop <;> first | exact hl.elim | exact hj.elim
        · exact hj.elim
      · change loop = _ at hd
        subst hd
        rcases hl with hl | ⟨v, hl⟩
        · exact hl
        · cases hl

/-- **Every move keeps the invariant.** -/
theorem Move.sound (h : cs.Move primaryAddr o cs') (hs : cs.Sound) : cs'.Sound :=
  ⟨h.told hs.told, h.counts hs, h.fits hs.mailbox⟩

end Conn

end MiniRedis.Server
