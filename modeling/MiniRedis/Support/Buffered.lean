import Mathlib.Data.List.Basic
import Mathlib.Tactic

/-!
# Support — Buffered

A buffered writer over a device that can run out of room.  A `Sink` takes data at its end as long
as it has room; what does not fit is refused, after the part that does fit.  A `Writer` collects
data in a buffer of a given capacity, hands the buffer on when it is full or flushed, writes
through what is larger than the buffer, and keeps an error: once a write was refused, nothing that
is written or flushed reaches the sink any more.

What a writer was given and what the sink has taken are tied by `Ledger`, step by step.

* `Ledger.write`, `Ledger.flush`: the steps keep it.
* `sendAll_ok`, `sendAll_refused`: pieces written and flushed are taken whole, or cut where the
  room ends, however they were cut into pieces.
-/

namespace MiniRedis.Buffered

variable {β : Type*}

/-- A device: what it has taken, and how much more it takes; `none` is no limit. -/
structure Sink (β : Type*) where
  taken : List β
  room : Option Nat

/-- The room that is left when `n` more are taken. -/
def roomAfter (n : Nat) (room : Option Nat) : Option Nat := room.map (· - n)

/-- `n` more fit. -/
def Fits (room : Option Nat) (n : Nat) : Prop := ∀ r, room = some r → n ≤ r

instance (room : Option Nat) (n : Nat) : Decidable (Fits room n) :=
  match room with
  | none => isTrue fun _ h => by cases h
  | some r => decidable_of_iff (n ≤ r) ⟨fun h _ hr => by cases hr; exact h, fun h => h r rfl⟩

/-- Offer `p`: the part that fits is taken, and its length is the answer. -/
def Sink.put (p : List β) (s : Sink β) : Sink β × Nat :=
  match s.room with
  | none => (⟨s.taken ++ p, none⟩, p.length)
  | some r => (⟨s.taken ++ p.take r, some (r - p.length)⟩, min r p.length)

/-- A buffer, and whether a write was refused. -/
structure Writer (β : Type*) where
  buf : List β
  err : Bool
deriving DecidableEq

/-- A writer with nothing in its buffer. -/
def Writer.new : Writer β := ⟨[], false⟩

variable (cap : Nat)

/-- Hand the buffer to the sink.  What is refused stays in the buffer. -/
def flush (c : Writer β × Sink β) : Writer β × Sink β :=
  let (w, s) := c
  if w.err then (w, s)
  else if w.buf = [] then (w, s)
  else
    let (s, n) := s.put w.buf
    if n < w.buf.length then (⟨w.buf.drop n, true⟩, s) else (⟨[], false⟩, s)

/-- Hand `p` to the sink directly; the buffer is empty. -/
def writeThrough (p : List β) (s : Sink β) : Writer β × Sink β :=
  let (s, n) := s.put p
  (⟨[], decide (n < p.length)⟩, s)

/-- Write `p`: into the buffer if it fits; otherwise the buffer is filled and flushed, and the
rest is buffered or, if it is larger than the buffer, written through. -/
def write (p : List β) (c : Writer β × Sink β) : Writer β × Sink β :=
  let (w, s) := c
  if w.err then (w, s)
  else if p.length ≤ cap - w.buf.length then (⟨w.buf ++ p, false⟩, s)
  else if w.buf = [] then writeThrough p s
  else
    let rest := p.drop (cap - w.buf.length)
    let (w, s) := flush (⟨w.buf ++ p.take (cap - w.buf.length), false⟩, s)
    if w.err then (w, s)
    else if rest.length ≤ cap then (⟨rest, false⟩, s)
    else writeThrough rest s

/-- Write pieces one after the other, and flush. -/
def sendAll (pieces : List (List β)) (c : Writer β × Sink β) : Writer β × Sink β :=
  flush (pieces.foldl (fun c p => write cap p c) c)

/-! ### The ledger -/

variable {cap} {room : Option Nat} {given p : List β} {w : Writer β} {s : Sink β}

/-- What the sink, with `room` at the start, has taken of what the writer was given: all but the
buffer, or, after a refusal, what there was room for. -/
structure Ledger (room : Option Nat) (given : List β) (c : Writer β × Sink β) : Prop where
  sound : c.1.err = false →
    c.2.taken ++ c.1.buf = given ∧ Fits room c.2.taken.length ∧
      c.2.room = roomAfter c.2.taken.length room
  refused : c.1.err = true → ∃ r, room = some r ∧ r < given.length ∧ c.2.taken = given.take r

theorem Ledger.of_sound {buf : List β} (hgiven : s.taken ++ buf = given)
    (hfit : Fits room s.taken.length) (hroom : s.room = roomAfter s.taken.length room) :
    Ledger room given (⟨buf, false⟩, s) :=
  ⟨fun _ => ⟨hgiven, hfit, hroom⟩, fun h => absurd h Bool.false_ne_true⟩

theorem Ledger.of_refused {buf : List β}
    (h : ∃ r, room = some r ∧ r < given.length ∧ s.taken = given.take r) :
    Ledger room given (⟨buf, true⟩, s) :=
  ⟨fun h => absurd h.symm Bool.false_ne_true, fun _ => h⟩

theorem Ledger.start (room : Option Nat) : Ledger room [] (Writer.new, (⟨[], room⟩ : Sink β)) := by
  refine .of_sound rfl (fun r _ => Nat.zero_le r) ?_
  cases room <;> rfl

/-- Data offered to a sink that has taken `given`: all of it is taken, and counted, or the sink
is full. -/
theorem put_cases (hfit : Fits room s.taken.length)
    (hroom : s.room = roomAfter s.taken.length room) (p : List β) :
    ((s.put p).2 = p.length ∧ (s.put p).1.taken = s.taken ++ p ∧
        Fits room (s.taken ++ p).length ∧
        (s.put p).1.room = roomAfter (s.taken ++ p).length room) ∨
      ((s.put p).2 < p.length ∧ ∃ r, room = some r ∧ r < (s.taken ++ p).length ∧
        (s.put p).1.taken = (s.taken ++ p).take r) := by
  cases room with
  | none =>
      have hs : s.room = none := hroom
      left
      simp [Sink.put, hs, Fits, roomAfter]
  | some r =>
      have hs : s.room = some (r - s.taken.length) := hroom
      have hle : s.taken.length ≤ r := hfit r rfl
      by_cases hp : p.length ≤ r - s.taken.length
      · left
        refine ⟨?_, ?_, ?_, ?_⟩
        · simp [Sink.put, hs, hp]
        · simp [Sink.put, hs, List.take_of_length_le hp]
        · rintro r' ⟨⟩
          rw [List.length_append]
          omega
        · simp [Sink.put, hs, roomAfter, Nat.sub_sub]
      · right
        refine ⟨?_, r, rfl, ?_, ?_⟩
        · simp only [Sink.put, hs]
          omega
        · rw [List.length_append]
          omega
        · simp [Sink.put, hs, List.take_append, List.take_of_length_le hle]

/-- Flushing keeps the ledger, and empties the buffer unless there was a refusal. -/
theorem Ledger.flush {c : Writer β × Sink β} (h : Ledger room given c) :
    Ledger room given (flush c) ∧ ((flush c).1.err = false → (flush c).1 = Writer.new) := by
  obtain ⟨⟨buf, _ | _⟩, s⟩ := c
  · obtain ⟨hgiven, hfit, hroom⟩ := h.sound rfl
    by_cases hb : buf = []
    · subst hb
      exact ⟨h, fun _ => rfl⟩
    · -- the buffer goes to the sink, and is all that was missing there
      dsimp only at hgiven hfit hroom
      subst hgiven
      rcases put_cases hfit hroom buf with ⟨hn, ht, hfit', hroom'⟩ | ⟨hn, hr⟩
      · have hf : Buffered.flush (⟨buf, false⟩, s) = (⟨[], false⟩, (s.put buf).1) := by
          simp [Buffered.flush, hb, hn]
        rw [hf]
        refine ⟨.of_sound (by simpa using ht) (by rwa [ht]) (by rw [hroom', ht]), fun _ => rfl⟩
      · have hf : Buffered.flush (⟨buf, false⟩, s) =
            (⟨buf.drop (s.put buf).2, true⟩, (s.put buf).1) := by
          simp [Buffered.flush, hb, hn]
        rw [hf]
        exact ⟨.of_refused hr, fun h => absurd h.symm Bool.false_ne_true⟩
  · exact ⟨h, fun h => absurd h.symm Bool.false_ne_true⟩

/-- After a refusal, whatever else is given does not matter. -/
theorem Ledger.append_of_err {c : Writer β × Sink β} (h : Ledger room given c)
    (he : c.1.err = true) (p : List β) : Ledger room (given ++ p) c := by
  obtain ⟨⟨buf, _ | _⟩, s⟩ := c
  · cases he
  · obtain ⟨r, hr, hlt, ht⟩ := h.refused rfl
    refine .of_refused ⟨r, hr, ?_, ?_⟩
    · rw [List.length_append]
      omega
    · rw [ht, List.take_append_of_le_length hlt.le]

/-- Writing through to a sink that has everything so far. -/
theorem Ledger.writeThrough (hgiven : s.taken = given) (hfit : Fits room s.taken.length)
    (hroom : s.room = roomAfter s.taken.length room) (p : List β) :
    Ledger room (given ++ p) (writeThrough p s) := by
  subst hgiven
  rcases put_cases hfit hroom p with ⟨hn, ht, hfit', hroom'⟩ | ⟨hn, hr⟩
  · have hw : Buffered.writeThrough p s = (⟨[], false⟩, (s.put p).1) := by
      simp [Buffered.writeThrough, hn]
    rw [hw]
    exact .of_sound (by simpa using ht) (by rwa [ht]) (by rw [hroom', ht])
  · have hw : Buffered.writeThrough p s = (⟨[], true⟩, (s.put p).1) := by
      simp [Buffered.writeThrough, hn]
    rw [hw]
    exact .of_refused hr

/-- Writing keeps the ledger. -/
theorem Ledger.write {c : Writer β × Sink β} (h : Ledger room given c) (p : List β) :
    Ledger room (given ++ p) (write cap p c) := by
  obtain ⟨⟨buf, _ | _⟩, s⟩ := c
  case true => exact h.append_of_err rfl p
  case false =>
    obtain ⟨hgiven, hfit, hroom⟩ := h.sound rfl
    have hfill : ∀ q, Ledger room (given ++ q) (⟨buf ++ q, false⟩, s) := fun q =>
      .of_sound (by rw [← List.append_assoc, hgiven]) hfit hroom
    unfold Buffered.write
    simp only [Bool.false_eq_true, if_false]
    split_ifs with hp hb hd hrest
    · exact hfill p
    · subst hb
      exact .writeThrough (by simpa using hgiven) hfit hroom p
    all_goals
      -- the buffer is filled up and flushed
      obtain ⟨hflush, hnew⟩ := (hfill (p.take (cap - buf.length))).flush
      rw [show given ++ p = given ++ p.take (cap - buf.length) ++ p.drop (cap - buf.length) by
        rw [List.append_assoc, List.take_append_drop]]
    · exact hflush.append_of_err hd _
    · have hw := hnew (by simpa using hd)
      obtain ⟨hgiven', hfit', hroom'⟩ := hflush.sound (by simpa using hd)
      rw [hw, Writer.new, List.append_nil] at hgiven'
      exact .of_sound (by rw [hgiven']) hfit' hroom'
    · have hw := hnew (by simpa using hd)
      obtain ⟨hgiven', hfit', hroom'⟩ := hflush.sound (by simpa using hd)
      rw [hw, Writer.new, List.append_nil] at hgiven'
      exact .writeThrough hgiven' hfit' hroom' _

theorem Ledger.writes {c : Writer β × Sink β} (h : Ledger room given c) (cap : Nat)
    (pieces : List (List β)) :
    Ledger room (given ++ pieces.flatten) (pieces.foldl (fun c p => Buffered.write cap p c) c) := by
  induction pieces generalizing given c with
  | nil => simpa using h
  | cons p pieces ih =>
      rw [List.flatten_cons, ← List.append_assoc]
      exact ih (h.write p)

/-! ### Pieces written and flushed -/

/-- A writer that starts anew takes all of the pieces, which then fit, or keeps an error. -/
theorem sendAll_cases (cap : Nat) (room : Option Nat) (pieces : List (List β)) :
    let c := sendAll cap pieces (Writer.new, ⟨[], room⟩)
    (c.1 = Writer.new ∧ c.2.taken = pieces.flatten ∧ Fits room pieces.flatten.length) ∨
      (c.1.err = true ∧ ∃ r, room = some r ∧ r < pieces.flatten.length ∧
        c.2.taken = pieces.flatten.take r) := by
  intro c
  obtain ⟨hledger, hnew⟩ : Ledger room ([] ++ pieces.flatten) c ∧ (c.1.err = false → c.1 = .new) :=
    ((Ledger.start room).writes cap pieces).flush
  rw [List.nil_append] at hledger
  rcases he : c.1.err with _ | _
  · have hw : c.1 = Writer.new := hnew he
    obtain ⟨hgiven, hfit, -⟩ := hledger.sound he
    have ht : c.2.taken = pieces.flatten := by
      rw [← hgiven, hw]
      exact (List.append_nil _).symm
    exact .inl ⟨hw, ht, ht ▸ hfit⟩
  · exact .inr ⟨rfl, hledger.refused he⟩

/-- **What fits is taken whole**, and the writer is as good as new. -/
theorem sendAll_ok (cap : Nat) (pieces : List (List β)) (h : Fits room pieces.flatten.length) :
    (sendAll cap pieces (Writer.new, ⟨[], room⟩)).1 = Writer.new ∧
      (sendAll cap pieces (Writer.new, ⟨[], room⟩)).2.taken = pieces.flatten := by
  rcases sendAll_cases cap room pieces with ⟨hw, ht, -⟩ | ⟨-, r, hr, hlt, -⟩
  · exact ⟨hw, ht⟩
  · exact absurd (h r hr) (Nat.not_le.2 hlt)

/-- **What does not fit is cut where the room ends**, and the writer keeps the error. -/
theorem sendAll_refused (cap : Nat) (pieces : List (List β))
    (h : ¬ Fits room pieces.flatten.length) :
    (sendAll cap pieces (Writer.new, ⟨[], room⟩)).1.err = true ∧
      ∃ r, r < pieces.flatten.length ∧
        (sendAll cap pieces (Writer.new, ⟨[], room⟩)).2.taken = pieces.flatten.take r := by
  rcases sendAll_cases cap room pieces with ⟨-, -, hfit⟩ | ⟨he, r, -, hlt, ht⟩
  · exact absurd hfit h
  · exact ⟨he, r, hlt, ht⟩

/-- A writer that was refused once sends nothing. -/
theorem sendAll_err (cap : Nat) (pieces : List (List β)) {w : Writer β} (he : w.err = true)
    (s : Sink β) :
    sendAll cap pieces (w, s) = (w, s) := by
  have hwrites : pieces.foldl (fun c p => write cap p c) (w, s) = (w, s) := by
    induction pieces with
    | nil => rfl
    | cons p pieces ih =>
        rw [List.foldl_cons]
        simpa [write, he] using ih
  rw [sendAll, hwrites]
  simp [flush, he]

end MiniRedis.Buffered
