import MiniRedis.Reference.Invariant

/-!
# Reference — Drift

Two keyspaces made by the same writes at different times.  A deadline is counted from the reading
at which the command that sets it is run, so one keyspace may have lost a key the other still
has; they are expected to agree on the persistent keys, and on the value of a key both still
have (`Cell.Drift`).

Most writes keep this up whatever the deadlines have done.  A command that creates a key on
demand, and one that makes a key persistent, keep it up when the key is there on both sides or on
neither (`Drift.effect`).
-/

namespace MiniRedis

open Protocol Store Cmd Reference

/-- Some reading is at or before all of a nondecreasing run. -/
theorem exists_reading_before {readings : List Time} (h : readings.Pairwise (· ≤ ·)) :
    ∃ t, (t :: readings).Pairwise (· ≤ ·) := by
  cases readings with
  | nil => exact ⟨0, List.pairwise_singleton _ _⟩
  | cons first rest =>
      refine ⟨first, List.pairwise_cons.2 ⟨fun v hv => ?_, h⟩⟩
      rcases List.mem_cons.1 hv with rfl | hv
      · exact le_rfl
      · exact (List.pairwise_cons.1 h).1 v hv

/-- Two cells that differ at most in a deadline, or in that one of them has met its own. -/
inductive Reference.Cell.Drift : Cell → Cell → Prop where
  | absent : Drift none none
  | persistent (p : Payload) : Drift (some ⟨p, none⟩) (some ⟨p, none⟩)
  | mortal (p : Payload) (d d' : Time) : Drift (some ⟨p, some d⟩) (some ⟨p, some d'⟩)
  | behind (p : Payload) (d : Time) : Drift (some ⟨p, some d⟩) none
  | ahead (p : Payload) (d : Time) : Drift none (some ⟨p, some d⟩)

namespace Reference.Cell.Drift

variable {α β : Type} {c c' : Cell}

/-- Drifting cells hold the same persistent entries. -/
theorem persistent_iff (h : Drift c c') {e : Entry} (he : e.expireAt = none) :
    c = some e ↔ c' = some e := by
  obtain ⟨p, d⟩ := e
  cases he
  cases h <;> simp

theorem filter_mortal (p : Payload) (d t : Time) :
    (some ⟨p, some d⟩ : Cell).filter (fun e => !e.expired t) = some ⟨p, some d⟩ ∨
      (some ⟨p, some d⟩ : Cell).filter (fun e => !e.expired t) = none := by
  rw [Option.filter_some]
  split
  · exact .inl rfl
  · exact .inr rfl

/-- Time passes on either side. -/
theorem later (h : Drift c c') (t u : Time) :
    Drift (c.filter fun e => !e.expired t) (c'.filter fun e => !e.expired u) := by
  cases h with
  | absent => exact .absent
  | persistent p => exact .persistent p
  | mortal p d d' =>
      rcases filter_mortal p d t with h | h <;> rcases filter_mortal p d' u with h' | h' <;>
        rw [h, h']
      exacts [.mortal p d d', .behind p d, .ahead p d', .absent]
  | behind p d =>
      rcases filter_mortal p d t with h | h <;> rw [h]
      exacts [.behind p d, .absent]
  | ahead p d =>
      rcases filter_mortal p d u with h | h <;> rw [h]
      exacts [.ahead p d, .absent]

/-- Filling both sides, if the key is there on both or on neither. -/
theorem fill (K : Kind β) (f : β → β × α) (h : Drift c c') (hlive : c.isSome = c'.isSome) :
    Drift (Cell.fill K f c).1 (Cell.fill K f c').1 := by
  cases h with
  | absent => exact .persistent _
  | persistent p =>
      simp only [Cell.fill]
      cases K.unwrap p <;> exact .persistent _
  | mortal p d d' =>
      simp only [Cell.fill]
      cases K.unwrap p <;> exact .mortal _ d d'
  | behind | ahead => cases hlive

/-- The same change of the payload on both sides, or its removal, with the deadline kept. -/
theorem payload (g : Payload → Option Payload) (h : Drift c c') :
    Drift (c.bind fun e => (g e.payload).map fun p => ⟨p, e.expireAt⟩)
      (c'.bind fun e => (g e.payload).map fun p => ⟨p, e.expireAt⟩) := by
  cases h with
  | absent => exact .absent
  | persistent p =>
      simp only [Option.bind_some]
      cases g p
      exacts [.absent, .persistent _]
  | mortal p d d' =>
      simp only [Option.bind_some]
      cases g p
      exacts [.absent, .mortal _ d d']
  | behind p d =>
      simp only [Option.bind_some, Option.bind_none]
      cases g p
      exacts [.absent, .behind _ d]
  | ahead p d =>
      simp only [Option.bind_some, Option.bind_none]
      cases g p
      exacts [.absent, .ahead _ d]

/-- What is left of a value does not depend on the deadline, which stays. -/
theorem take_payload [DecidableEq β] (K : Kind β) (absent : α) (f : β → Option (β × α)) :
    ∃ g : Payload → Option Payload, ∀ c : Cell,
      (Cell.take K absent f c).1 = c.bind fun e => (g e.payload).map fun p => ⟨p, e.expireAt⟩ := by
  refine ⟨fun p => match (K.unwrap p).bind f with
    | none => some p
    | some r => if r.1 = K.empty then none else some (K.wrap r.1), fun c => ?_⟩
  cases c with
  | none => rfl
  | some e =>
      simp only [Cell.take, Option.bind_some]
      cases K.unwrap e.payload with
      | none => rfl
      | some b =>
          simp only [Option.bind_some]
          cases f b with
          | none => rfl
          | some r =>
              simp only
              split <;> rfl

theorem take [DecidableEq β] (K : Kind β) (absent : α) (f : β → Option (β × α))
    (h : Drift c c') : Drift (Cell.take K absent f c).1 (Cell.take K absent f c').1 := by
  obtain ⟨g, hg⟩ := take_payload K absent f
  rw [hg, hg]
  exact h.payload g

/-- A deadline on both sides, each counted from its own reading. -/
theorem expire (now now' : Time) (d : Duration) (h : Drift c c') :
    Drift (Cell.expire now d c).1 (Cell.expire now' d c').1 := by
  by_cases hd : d ≤ 0
  · cases h <;> simp only [Cell.expire, hd, if_true] <;> exact .absent
  · simp only [Cell.expire, hd, if_false]
    cases h
    exacts [.absent, .mortal _ _ _, .mortal _ _ _, .behind _ _, .ahead _ _]

/-- Clearing the deadlines, if the key is there on both sides or on neither. -/
theorem persist (h : Drift c c') (hlive : c.isSome = c'.isSome) :
    Drift (Cell.persist c).1 (Cell.persist c').1 := by
  cases h with
  | absent => exact .absent
  | persistent p | mortal p => exact .persistent p
  | behind | ahead => cases hlive

theorem del (c c' : Cell) : Drift (Cell.del c).1 (Cell.del c').1 := by
  cases c <;> cases c' <;> exact .absent

end Reference.Cell.Drift

/-- The key a call may create or make persistent, given only what is there. -/
def Store.Call.revives : Call → Option Bytes
  | .lPush key _ | .rPush key _ | .hSet key _ _ | .sAdd key _ | .persist key => some key
  | _ => none

/-- The key a request may create or make persistent, given only what is there: that of a push, an
`HSET`, an `SADD` or a `PERSIST`. -/
def Cmd.revives (request : Value) : Option Bytes :=
  match plan request with
  | .reply _ => none
  | .call c _ => c.revives

/-- Two keyspaces whose cells drift. -/
def Keyspace.Drift (ks ks' : Keyspace) : Prop := ∀ key, Cell.Drift (ks key) (ks' key)

namespace Keyspace.Drift

variable {ks ks' : Keyspace}

theorem update (h : Drift ks ks') {key : Bytes} {c c' : Cell} (hc : Cell.Drift c c') :
    Drift (Function.update ks key c) (Function.update ks' key c') := by
  intro k
  by_cases hk : k = key
  · subst hk
    simpa using hc
  · simpa [hk] using h k

theorem dels : ∀ (keys : List Bytes) {ks ks' : Keyspace}, Drift ks ks' →
    Drift (applyAll (keys.map fun key => (key, fun c => (Cell.del c).1)) ks)
      (applyAll (keys.map fun key => (key, fun c => (Cell.del c).1)) ks')
  | [], _, _, h => h
  | _ :: keys, _, _, h => dels keys (h.update (Cell.Drift.del _ _))

/-- **A request keeps drifting keyspaces drifting**, if a key it may create or make persistent is
there on both sides or on neither. -/
theorem effect (h : Drift ks ks') {request : Value} (now now' : Time)
    (hlive : ∀ key, revives request = some key → (ks key).isSome = (ks' key).isSome) :
    Drift (MiniRedis.effect now request ks) (MiniRedis.effect now' request ks') := by
  unfold MiniRedis.effect
  unfold revives at hlive
  cases hp : plan request with
  | reply v => exact h
  | call c render =>
      rw [hp] at hlive
      cases c with
      | set key value => exact h.update (.persistent _)
      | del keys => exact dels keys h
      | lPush key | rPush key | hSet key | sAdd key =>
          exact h.update (.fill _ _ (h key) (hlive key rfl))
      | persist key => exact h.update (.persist (h key) (hlive key rfl))
      | lPop key | rPop key | hDel key | sRem key => exact h.update (.take _ _ _ (h key))
      | expire key d => exact h.update (.expire now now' d (h key))
      | get | «exists» | lLen | lRange | hGet | hGetAll | hKeys | hVals | hLen | sIsMember
      | sMembers | sCard | ttl | publish => exact h

end Keyspace.Drift

namespace Store.DB

/-- A persistent entry is seen at every reading. -/
theorem keyspace_persistent {db : DB} {key : Bytes} {e : Entry} (he : e.expireAt = none)
    (t u : Time) : db.keyspace t key = some e ↔ db.keyspace u key = some e := by
  simp only [keyspace, Shard.peek_eq_some, Entry.expired, he]

end Store.DB

end MiniRedis
