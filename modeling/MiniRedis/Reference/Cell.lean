import MiniRedis.Store.Call

/-!
# Reference — Cell

What a method does to its key, with the shards and the expired entries taken away.  A cell is
what a key maps to in a store that holds live entries only: nothing, or an entry.  A method body
of the sharded store *acts as* a function on cells (`Acts`) when, at a clock reading, it answers
and leaves what the cell function does on the live entry of its key, and leaves every other key
of the shard as it was.

* `read_eq`, `fill_acts`, `take_acts`: the three shapes of a body.
* `set_acts`, `delOne_acts`, `expire_acts`, `persist_acts`: the methods with a body of their own.
-/

namespace MiniRedis.Reference

open Maps Store

/-- What a key maps to: nothing, or a live entry. -/
abbrev Cell := Option Entry

namespace Cell

variable {α β : Type}

/-- A method that only reads a collection. -/
def read (K : Kind β) (absent : α) (f : β → α) : Cell → Outcome α
  | none => .ok absent
  | some e =>
      match K.unwrap e.payload with
      | none => .error .wrongType
      | some b => .ok (f b)

/-- Fill the key by `f`, from empty and persistent when it is absent. -/
def fill (K : Kind β) (f : β → β × α) : Cell → Cell × Outcome α
  | none => (some ⟨K.wrap (f K.empty).1, none⟩, .ok (f K.empty).2)
  | some e =>
      match K.unwrap e.payload with
      | none => (some e, .error .wrongType)
      | some b => (some { e with payload := K.wrap (f b).1 }, .ok (f b).2)

/-- Take from the key by `f`; an emptied key disappears. -/
def take [DecidableEq β] (K : Kind β) (absent : α) (f : β → Option (β × α)) :
    Cell → Cell × Outcome α
  | none => (none, .ok absent)
  | some e =>
      match K.unwrap e.payload with
      | none => (some e, .error .wrongType)
      | some b =>
          match f b with
          | none => (some e, .ok absent)
          | some (b', a) =>
              (if b' = K.empty then none else some { e with payload := K.wrap b' }, .ok a)

/-- `SET` forgets what was there. -/
def set (value : Bytes) : Cell → Cell × Unit := fun _ => (some ⟨.str value, none⟩, ())

/-- `DEL` of one key. -/
def del : Cell → Cell × Nat
  | none => (none, 0)
  | some _ => (none, 1)

/-- `EXPIRE`, which deletes the key when the duration is not positive. -/
def expire (now : Time) (d : Duration) : Cell → Cell × Bool
  | none => (none, false)
  | some e => (if d ≤ 0 then none else some { e with expireAt := some (now + d.toInt) }, true)

/-- `PERSIST` -/
def persist : Cell → Cell × Bool
  | none => (none, false)
  | some e => (some { e with expireAt := none }, e.expireAt.isSome)

/-- The time to live, whether the key is there, and whether it has a deadline. -/
def ttl (now : Time) : Cell → Duration × Bool × Bool
  | none => (0, false, false)
  | some e =>
      match e.expireAt with
      | none => (0, true, false)
      | some deadline => (untilAt deadline now, true, true)

/-- A type error leaves the cell as it was. -/
theorem fill_failed (K : Kind β) (f : β → β × α) (c : Cell)
    (h : (!(fill K f c).2.isOk) = true) : (fill K f c).1 = c := by
  cases c with
  | none => cases h
  | some e =>
      cases hu : K.unwrap e.payload with
      | none => simp [fill, hu]
      | some b => simp [fill, hu, Except.isOk, Except.toBool] at h

/-- A method that fails leaves the cell as it was. -/
theorem take_failed [DecidableEq β] (K : Kind β) (absent : α) (f : β → Option (β × α)) (c : Cell)
    (h : (!(take K absent f c).2.isOk) = true) : (take K absent f c).1 = c := by
  cases c with
  | none => cases h
  | some e =>
      cases hu : K.unwrap e.payload with
      | none => simp [take, hu]
      | some b => cases hf : f b <;> simp [take, hu, hf, Except.isOk, Except.toBool] at h

/-- The entry, if there is one, has the property. -/
def All (P : Entry → Prop) (c : Cell) : Prop := ∀ e, c = some e → P e

@[simp] theorem all_none (P : Entry → Prop) : All P none := nofun

@[simp] theorem all_some {P : Entry → Prop} {e : Entry} : All P (some e) ↔ P e := by
  simp [All]

/-- What filling keeps: a property of new entries and of entries filled. -/
theorem fill_all {P : Entry → Prop} {K : Kind β} {f : β → β × α}
    (hnew : P ⟨K.wrap (f K.empty).1, none⟩)
    (hold : ∀ b d, P ⟨K.wrap b, d⟩ → P ⟨K.wrap (f b).1, d⟩) (c : Cell) (h : c.All P) :
    (fill K f c).1.All P := by
  cases c with
  | none => simpa [fill] using hnew
  | some e =>
      cases hu : K.unwrap e.payload with
      | none => simpa [fill, hu] using h
      | some b =>
          obtain ⟨p, d⟩ := e
          cases (K.unwrap_iff _ _).1 hu
          simpa [fill, hu] using hold b d (all_some.1 h)

/-- What taking keeps: a property of entries taken from and not emptied. -/
theorem take_all [DecidableEq β] {P : Entry → Prop} {K : Kind β} {absent : α}
    {f : β → Option (β × α)}
    (hold : ∀ b d b' a, f b = some (b', a) → b' ≠ K.empty → P ⟨K.wrap b, d⟩ → P ⟨K.wrap b', d⟩)
    (c : Cell) (h : c.All P) : (take K absent f c).1.All P := by
  cases c with
  | none => exact all_none P
  | some e =>
      cases hu : K.unwrap e.payload with
      | none => simpa [take, hu] using h
      | some b =>
          cases hf : f b with
          | none => simpa [take, hu, hf] using h
          | some r =>
              obtain ⟨p, d⟩ := e
              cases (K.unwrap_iff _ _).1 hu
              by_cases hb : r.1 = K.empty
              · simp [take, hu, hf, hb]
              · simpa [take, hu, hf, hb] using hold b d r.1 r.2 hf hb (all_some.1 h)

theorem del_all {P : Entry → Prop} (c : Cell) : (del c).1.All P := by
  cases c <;> exact all_none P

theorem expire_all {P : Entry → Prop} {now : Time} {d : Duration}
    (h : ∀ e, P e → ¬ d ≤ 0 → P { e with expireAt := some (now + d.toInt) }) (c : Cell)
    (hc : c.All P) : (expire now d c).1.All P := by
  cases c with
  | none => exact all_none P
  | some e =>
      by_cases hd : d ≤ 0
      · simp [expire, hd]
      · simpa [expire, hd] using h e (all_some.1 hc) hd

theorem persist_all {P : Entry → Prop} (h : ∀ e, P e → P { e with expireAt := none }) (c : Cell)
    (hc : c.All P) : (persist c).1.All P := by
  cases c with
  | none => exact all_none P
  | some e => simpa [persist] using h e (all_some.1 hc)

end Cell

/-! ### Bodies that act as cell functions -/

variable {α β : Type} {now : Time} {key : Bytes}

/-- The entry has not expired at `now`. -/
def Live (now : Time) (e : Entry) : Prop := e.expired now = false

theorem peek_all_live (sh : Shard) : Cell.All (Live now) (Shard.peek now key sh) :=
  fun _ h => (Shard.peek_eq_some.1 h).2

/-- At `now`, `body` does to its shard what `cell` does to the live entry of `key`. -/
structure Acts (now : Time) (key : Bytes) (body : Shard → Shard × α)
    (cell : Cell → Cell × α) : Prop where
  answer : ∀ sh, (body sh).2 = (cell (Shard.peek now key sh)).2
  update : ∀ sh, (body sh).1.lookup key = (cell (Shard.peek now key sh)).1
  frame : ∀ sh k, k ≠ key → (body sh).1.lookup k = sh.lookup k
  live : ∀ c : Cell, c.All (Live now) → (cell c).1.All (Live now)

/-- What a lookup of live entries finds at the key afterwards. -/
theorem Acts.peek {body : Shard → Shard × α} {cell : Cell → Cell × α}
    (h : Acts now key body cell) (sh : Shard) :
    Shard.peek now key (body sh).1 = (cell (Shard.peek now key sh)).1 := by
  have hl := h.live (Shard.peek now key sh) (peek_all_live sh)
  rw [Shard.peek, h.update sh]
  cases hc : (cell (Shard.peek now key sh)).1 with
  | none => rfl
  | some e =>
      rw [hc, Cell.all_some] at hl
      simp [show e.expired now = false from hl]

/-- A body that starts from `liveEntry` acts as the cell function that what follows acts as. -/
theorem acts_of_liveEntry {body : Shard → Shard × α} {cell : Cell → Cell × α}
    (h : ∀ sh sh' : Shard, Shard.liveEntry now key sh = (sh', Shard.peek now key sh) →
      sh'.lookup key = Shard.peek now key sh →
      (body sh).2 = (cell (Shard.peek now key sh)).2 ∧
        (body sh).1.lookup key = (cell (Shard.peek now key sh)).1 ∧
        ∀ k, k ≠ key → (body sh).1.lookup k = sh'.lookup k)
    (live : ∀ c : Cell, c.All (Live now) → (cell c).1.All (Live now)) :
    Acts now key body cell := by
  have at_key : ∀ sh, (Shard.liveEntry now key sh).1.lookup key = Shard.peek now key sh :=
    fun sh => (Shard.liveEntry_lookup sh key).trans (if_pos rfl)
  have spec := fun sh => h sh _ (Prod.ext rfl (Shard.liveEntry_snd sh)) (at_key sh)
  refine ⟨fun sh => (spec sh).1, fun sh => (spec sh).2.1, fun sh k hk => ?_, live⟩
  rw [(spec sh).2.2 k hk, Shard.liveEntry_lookup, if_neg hk]

/-- A method that fills its key acts on the live cell. -/
theorem fill_acts (K : Kind β) (f : β → β × α) :
    Acts now key (Shard.fill now key K f) (Cell.fill K f) := by
  refine acts_of_liveEntry (fun sh sh' hl hp => ?_) (Cell.fill_all rfl fun _ _ h => h)
  simp only [Shard.fill, Shard.typedEntry, hl]
  cases hc : Shard.peek now key sh with
  | none => exact ⟨rfl, Finmap.lookup_insert _, fun k hk => by simp [hk]⟩
  | some e =>
      cases hu : K.unwrap e.payload with
      | none => simp [Cell.fill, hu, hp, hc]
      | some b =>
          simp only [Cell.fill, hu, Option.getD_some]
          exact ⟨trivial, Finmap.lookup_insert _, fun k hk => by simp [hk]⟩

theorem take_acts [DecidableEq β] (K : Kind β) (absent : α) (f : β → Option (β × α)) :
    Acts now key (Shard.take now key K absent f) (Cell.take K absent f) := by
  refine acts_of_liveEntry (fun sh sh' hl hp => ?_) (Cell.take_all fun _ _ _ _ _ _ h => h)
  simp only [Shard.take, Shard.typedEntry, hl]
  cases hc : Shard.peek now key sh with
  | none => simp [Cell.take, hp, hc]
  | some e =>
      cases hu : K.unwrap e.payload with
      | none => simp [Cell.take, hu, hp, hc]
      | some b =>
          cases hf : f b with
          | none => simp [Cell.take, hu, hf, hp, hc]
          | some r =>
              obtain ⟨b', a⟩ := r
              by_cases hb : b' = K.empty
              · simp only [Cell.take, hu, hf, hb, if_true]
                exact ⟨trivial, Finmap.lookup_erase _ _, fun k hk => by simp [hk]⟩
              · simp only [Cell.take, hu, hf, hb, if_false]
                exact ⟨trivial, Finmap.lookup_insert _, fun k hk => by simp [hk]⟩

/-- A method that reads its key reads the live cell. -/
theorem read_eq (K : Kind β) (absent : α) (f : β → α) (sh : Shard) :
    Shard.read now key K absent f sh = Cell.read K absent f (Shard.peek now key sh) := by
  unfold Shard.read Cell.read
  cases Shard.peek now key sh <;> rfl

/-! ### Methods with a body of their own -/

theorem set_acts (value : Bytes) :
    Acts now key (fun sh => (sh.insert key ⟨.str value, none⟩, ())) (Cell.set value) :=
  ⟨fun _ => rfl, fun _ => Finmap.lookup_insert _, fun sh k hk => by simp [hk],
    fun _ _ => Cell.all_some.2 rfl⟩

theorem delOne_acts :
    Acts now key
      (fun sh =>
        match Shard.liveEntry now key sh with
        | (sh, some _) => (sh.erase key, 1)
        | (sh, none) => (sh, 0))
      Cell.del := by
  refine acts_of_liveEntry (fun sh sh' hl hp => ?_) fun c _ => Cell.del_all c
  simp only [hl]
  cases hc : Shard.peek now key sh with
  | none => simp [Cell.del, hp, hc]
  | some e => exact ⟨rfl, Finmap.lookup_erase _ _, fun k hk => by simp [hk]⟩

/-- A positive duration puts the deadline after the reading it is added to. -/
theorem live_of_positive {e : Entry} {d : Duration} (h : ¬ d ≤ 0) :
    Live now { e with expireAt := some (now + d.toInt) } := by
  have hd : 0 < d.toInt := by
    rw [Int64.le_iff_toInt_le] at h
    simpa using h
  simp [Live, Entry.expired, hd]

theorem expire_acts (d : Duration) :
    Acts now key
      (fun sh =>
        match Shard.liveEntry now key sh with
        | (sh, none) => (sh, false)
        | (sh, some e) =>
            if d ≤ 0 then (sh.erase key, true)
            else (sh.insert key { e with expireAt := some (now + d.toInt) }, true))
      (Cell.expire now d) := by
  refine acts_of_liveEntry (fun sh sh' hl hp => ?_)
    (Cell.expire_all fun _ _ hd => live_of_positive hd)
  simp only [hl]
  cases hc : Shard.peek now key sh with
  | none => simp [Cell.expire, hp, hc]
  | some e =>
      by_cases hd : d ≤ 0
      · simp only [Cell.expire, hd, if_true]
        exact ⟨trivial, Finmap.lookup_erase _ _, fun k hk => by simp [hk]⟩
      · simp only [Cell.expire, hd, if_false]
        exact ⟨trivial, Finmap.lookup_insert _, fun k hk => by simp [hk]⟩

theorem persist_acts :
    Acts now key
      (fun sh =>
        match Shard.liveEntry now key sh with
        | (sh, none) => (sh, false)
        | (sh, some e) =>
            match e.expireAt with
            | none => (sh, false)
            | some _ => (sh.insert key { e with expireAt := none }, true))
      Cell.persist := by
  refine acts_of_liveEntry (fun sh sh' hl hp => ?_) (Cell.persist_all fun _ _ => rfl)
  simp only [hl]
  cases hc : Shard.peek now key sh with
  | none => simp [Cell.persist, hp, hc]
  | some e =>
      obtain ⟨p, d⟩ := e
      cases d with
      | none => simp [Cell.persist, hp, hc]
      | some d => exact ⟨rfl, Finmap.lookup_insert _, fun k hk => by simp [hk]⟩

end MiniRedis.Reference
