import Mathlib.Data.List.Basic
import Mathlib.Tactic

/-!
# Support — Frames

Self-delimiting frames in a stream of symbols.  A *reader* takes a list of symbols and returns a
value with what follows it, or an error.  A `Codec` is an encoder and a reader that undoes it on
the good values, whatever follows, and that answers a *quiet* error on every torn frame: on every
strict prefix of the encoding of a good value.

Three loops read a stream: `readN` reads a given number of frames, `readAll` reads frames to the
end of the stream, and `scan` folds an action over the frames and stops at the first error, without
failing when the error is quiet.

A reader is *steady* when more input changes none of its answers but those that ask for it.

* `Steady.torn`: a steady reader asks for more on every strict prefix of what it reads to its end.
* `Codec.readAll_flatMap`: a concatenation of encodings is read back as the list it encodes.
* `Codec.dec_front`: whatever part of a stream of whole frames has arrived, the reader asks for
  more or reads the first frame.
* `Codec.take_flatMap`: a writer stopped anywhere leaves whole frames and a torn one.
* `Codec.scan_frames`: a scan of whole frames with a torn one behind them applies exactly the whole
  ones, in order, and does not fail.
-/

namespace MiniRedis.Frames

variable {α β ε σ : Type*}

/-! ### Torn frames -/

/-- `p` is a strict prefix of `w`. -/
def Torn (p w : List β) : Prop := p <+: w ∧ p ≠ w

/-! ### Readers -/

/-- A value and what follows it, or an error. -/
abbrev Reader (α β ε : Type*) := List β → Except ε (α × List β)

/-- What the reader leaves is shorter than what it was given. -/
def Shrinks (dec : Reader α β ε) : Prop :=
  ∀ b a b', dec b = .ok (a, b') → b'.length < b.length

theorem bind_eq_ok {γ : Type*} {x : Except ε α} {f : α → Except ε γ} {c : γ} :
    x.bind f = .ok c ↔ ∃ a, x = .ok a ∧ f a = .ok c := by
  cases x <;> simp [Except.bind]

theorem map_eq_ok {γ : Type*} {x : Except ε α} {f : α → γ} {c : γ} :
    x.map f = .ok c ↔ ∃ a, x = .ok a ∧ f a = c := by
  cases x <;> simp [Except.map]

/-- `n` frames, one after the other; the first error ends the loop. -/
def readN (dec : Reader α β ε) : Nat → Reader (List α) β ε
  | 0, b => .ok ([], b)
  | n + 1, b => (dec b).bind fun ⟨a, rest⟩ => (readN dec n rest).map fun r => (a :: r.1, r.2)

/-- Every frame up to the end of the stream; `none` when a frame does not read. -/
def readAll (dec : Reader α β ε) : Nat → List β → Option (List α)
  | _, [] => some []
  | 0, _ :: _ => none
  | f + 1, b => match dec b with
      | .ok (a, rest) => (readAll dec f rest).map (a :: ·)
      | .error _ => none

/-- The loop of a log's reader: `apply` on every frame, up to the first error.  The result is the
final state, the number of frames applied, and the error unless it is a quiet one. -/
def scan (dec : Reader α β ε) (quiet : ε → Bool) (apply : σ → α → σ × Option ε) :
    Nat → σ → List β → σ × Nat × Option ε
  | 0, s, _ => (s, 0, none)
  | f + 1, s, b => match dec b with
      | .error e => (s, 0, if quiet e then none else some e)
      | .ok (a, rest) => match apply s a with
          | (s, some e) => (s, 0, some e)
          | (s, none) =>
              let (s, n, e) := scan dec quiet apply f s rest
              (s, n + 1, e)

/-- A property of states that `apply` keeps is kept by the loop, whatever the stream. -/
theorem scan_preserves {dec : Reader α β ε} {quiet : ε → Bool} {apply : σ → α → σ × Option ε}
    {P : σ → Prop} (h : ∀ s a, P s → P (apply s a).1) (f : Nat) {s : σ} (hs : P s)
    (b : List β) : P (scan dec quiet apply f s b).1 := by
  induction f generalizing s b with
  | zero => exact hs
  | succ f ih =>
      rw [scan]
      rcases dec b with e | ⟨a, rest⟩
      · exact hs
      · have ha := h s a hs
        rcases hr : apply s a with ⟨s', _ | e⟩ <;> rw [hr] at ha <;> simp only [hr]
        · exact ih ha rest
        · exact ha

/-- The values whose whole frames are among the first `n` symbols of their concatenation. -/
def within (enc : α → List β) : List α → Nat → List α
  | [], _ => []
  | a :: as, n => if (enc a).length ≤ n then a :: within enc as (n - (enc a).length) else []

theorem mem_of_mem_within {enc : α → List β} :
    ∀ {as : List α} {n : Nat} {a : α}, a ∈ within enc as n → a ∈ as
  | b :: as, n, a, h => by
      unfold within at h
      split at h
      · rcases List.mem_cons.1 h with rfl | h
        · exact List.mem_cons_self
        · exact List.mem_cons_of_mem _ (mem_of_mem_within h)
      · cases h

/-- They are the first ones, as many as end at or before the `n`th symbol. -/
theorem within_eq_take {enc : α → List β} :
    ∀ (as : List α) (n : Nat), ∃ m ≤ as.length, within enc as n = as.take m ∧
      ∀ i ≤ as.length, i ≤ m ↔ ((as.take i).flatMap enc).length ≤ n
  | [], n => ⟨0, le_rfl, rfl, fun i hi => iff_of_true hi (by simp)⟩
  | a :: as, n => by
      unfold within
      split
      case isTrue hn =>
        obtain ⟨m, hm, hw, hends⟩ := within_eq_take as (n - (enc a).length)
        refine ⟨m + 1, Nat.succ_le_succ hm, by rw [hw, List.take_succ_cons], fun i hi => ?_⟩
        cases i with
        | zero => simp
        | succ i =>
            rw [Nat.add_le_add_iff_right, hends i (Nat.le_of_succ_le_succ hi),
              List.take_succ_cons, List.flatMap_cons, List.length_append]
            omega
      case isFalse hn =>
        refine ⟨0, Nat.zero_le _, rfl, fun i hi => ?_⟩
        cases i with
        | zero => simp
        | succ i =>
            rw [List.take_succ_cons, List.flatMap_cons, List.length_append]
            omega

theorem readN_cons {dec : Reader α β ε} {b b' : List β} {a : α} {n : Nat}
    (h : dec b = .ok (a, b')) :
    readN dec (n + 1) b = (readN dec n b').map fun r => (a :: r.1, r.2) := by
  simp only [readN, h, Except.bind]

theorem readN_error {dec : Reader α β ε} {b : List β} {e : ε} {n : Nat}
    (h : dec b = .error e) : readN dec (n + 1) b = .error e := by
  simp only [readN, h, Except.bind]

/-- As many values are returned as were asked for. -/
theorem readN_count {dec : Reader α β ε} :
    ∀ (n : Nat) {b b' : List β} {as : List α}, readN dec n b = .ok (as, b') → as.length = n
  | 0, b, b', as, h => by
      cases h
      rfl
  | n + 1, b, b', as, h => by
      obtain ⟨⟨a, c⟩, -, h⟩ := bind_eq_ok.mp h
      obtain ⟨⟨as', d⟩, hd', h⟩ := map_eq_ok.mp h
      cases h
      rw [List.length_cons, readN_count n hd']

theorem readN_length {dec : Reader α β ε} (hd : Shrinks dec) :
    ∀ (n : Nat) {b b' : List β} {as : List α}, readN dec n b = .ok (as, b') →
      b'.length ≤ b.length
  | 0, b, b', as, h => by
      cases h
      exact le_rfl
  | n + 1, b, b', as, h => by
      obtain ⟨⟨a, c⟩, hc, h⟩ := bind_eq_ok.mp h
      obtain ⟨⟨as', d⟩, hd', h⟩ := map_eq_ok.mp h
      cases h
      exact (readN_length hd n hd').trans (hd b a c hc).le

/-- Readers that agree on everything no longer than `b` read the same frames from `b`. -/
theorem readN_congr {d d' : Reader α β ε} (hd : Shrinks d) :
    ∀ (n : Nat) (b : List β), (∀ c, c.length ≤ b.length → d c = d' c) → readN d n b = readN d' n b
  | 0, _, _ => rfl
  | n + 1, b, h => by
      have hb := h b le_rfl
      cases e : d b with
      | error x => rw [readN_error e, readN_error (hb ▸ e)]
      | ok r =>
          obtain ⟨a, b'⟩ := r
          have hlt := hd b a b' e
          rw [readN_cons e, readN_cons (hb ▸ e),
            readN_congr hd n b' fun c hc => h c (by omega)]

/-! ### Steady readers -/

theorem bind_eq_error {γ : Type*} {x : Except ε α} {f : α → Except ε γ} {e : ε} :
    x.bind f = .error e ↔ x = .error e ∨ ∃ a, x = .ok a ∧ f a = .error e := by
  cases x <;> simp [Except.bind]

theorem map_eq_error {γ : Type*} {x : Except ε α} {f : α → γ} {e : ε} :
    x.map f = .error e ↔ x = .error e := by
  cases x <;> simp [Except.map]

/-- The loop ends in an error when one of the frames does, after those before it. -/
theorem readN_eq_error {dec : Reader α β ε} {e : ε} : ∀ {n : Nat} {b : List β},
    readN dec n b = .error e ↔ ∃ as q, as.length < n ∧ readN dec as.length b = .ok (as, q) ∧
      dec q = .error e
  | 0, b => ⟨fun h => (by cases h), fun ⟨_, _, h, _⟩ => absurd h (Nat.not_lt_zero _)⟩
  | n + 1, b => by
      cases hb : dec b with
      | error e' =>
          rw [readN_error hb]
          constructor
          · intro h
            cases h
            exact ⟨[], b, Nat.zero_lt_succ n, rfl, hb⟩
          · rintro ⟨as, q, -, has, hq⟩
            cases as with
            | nil =>
                cases has
                cases hb.symm.trans hq
                rfl
            | cons a as => cases (readN_error hb).symm.trans has
      | ok r =>
          obtain ⟨a, b'⟩ := r
          rw [readN_cons hb, map_eq_error, readN_eq_error]
          constructor
          · rintro ⟨as, q, hlen, has, hq⟩
            refine ⟨a :: as, q, Nat.succ_lt_succ hlen, ?_, hq⟩
            rw [List.length_cons, readN_cons hb, has]
            rfl
          · rintro ⟨as, q, hlen, has, hq⟩
            cases as with
            | nil =>
                cases has
                cases hb.symm.trans hq
            | cons a' as =>
                rw [List.length_cons, readN_cons hb] at has
                obtain ⟨⟨as', q'⟩, has', h⟩ := map_eq_ok.1 has
                cases h
                exact ⟨_, _, Nat.lt_of_succ_lt_succ hlen, has', hq⟩

/-- What the reader answers stays, whatever follows: a value, and an error that is final. -/
structure Steady (final : ε → Prop) (dec : Reader α β ε) : Prop where
  ok : ∀ {b : List β} {a : α} {r : List β}, dec b = .ok (a, r) →
    ∀ x, dec (b ++ x) = .ok (a, r ++ x)
  error : ∀ {b : List β} {e : ε}, dec b = .error e → final e → ∀ x, dec (b ++ x) = .error e

namespace Steady

variable {γ : Type*} {final : ε → Prop} {dec : Reader α β ε}

theorem bind (h : Steady final dec) {k : α × List β → Except ε (γ × List β)}
    (hk : ∀ a, Steady final fun r => k (a, r)) : Steady final fun b => (dec b).bind k where
  ok hb x := by
    obtain ⟨⟨a, r⟩, hr, hc⟩ := bind_eq_ok.1 hb
    exact bind_eq_ok.2 ⟨_, h.ok hr x, (hk a).ok hc x⟩
  error hb he x := by
    rcases bind_eq_error.1 hb with hr | ⟨⟨a, r⟩, hr, hc⟩
    · exact bind_eq_error.2 (.inl (h.error hr he x))
    · exact bind_eq_error.2 (.inr ⟨_, h.ok hr x, (hk a).error hc he x⟩)

theorem map (h : Steady final dec) (f : α → γ) :
    Steady final fun b => (dec b).map fun r => (f r.1, r.2) where
  ok hb x := by
    obtain ⟨⟨a, r⟩, hr, hc⟩ := map_eq_ok.1 hb
    cases hc
    exact map_eq_ok.2 ⟨_, h.ok hr x, rfl⟩
  error hb he x := map_eq_error.2 (h.error (map_eq_error.1 hb) he x)

theorem pure (c : γ) : Steady final fun b : List β => (.ok (c, b) : Except ε (γ × List β)) where
  ok hb x := by
    cases hb
    rfl
  error hb := by cases hb

theorem fail (e : ε) : Steady final fun _ : List β => (.error e : Except ε (γ × List β)) where
  ok hb := by cases hb
  error hb _ _ := hb

theorem readN (h : Steady final dec) : ∀ n : Nat, Steady final (readN dec n)
  | 0 => pure []
  | n + 1 => h.bind fun a => (readN h n).map (a :: ·)

/-- **A strict prefix of what is read to its end asks for more.** -/
theorem torn (h : Steady final dec) {p b : List β} {a : α} (hb : dec b = .ok (a, []))
    (hp : Torn p b) : ∃ e, dec p = .error e ∧ ¬ final e := by
  obtain ⟨⟨q, rfl⟩, hne⟩ := hp
  cases hdec : dec p with
  | error e =>
      refine ⟨e, rfl, fun he => ?_⟩
      cases (h.error hdec he q).symm.trans hb
  | ok r =>
      -- the prefix would leave what follows it unread
      have hq := (h.ok (r := r.2) hdec q).symm.trans hb
      simp only [Except.ok.injEq, Prod.mk.injEq, List.append_eq_nil_iff] at hq
      exact absurd (by rw [hq.2.2, List.append_nil]) hne

end Steady

/-! ### Codecs -/

/-- An encoder with a reader that undoes it on the good values, whatever follows, and that answers
a quiet error on a torn frame and at the end of the stream. -/
structure Codec (α β ε : Type*) where
  Good : α → Prop
  enc : α → List β
  dec : Reader α β ε
  quiet : ε → Bool
  dec_enc : ∀ {a : α} (rest : List β), Good a → dec (enc a ++ rest) = .ok (a, rest)
  dec_torn : ∀ {a : α} {p : List β}, Good a → Torn p (enc a) →
    ∃ e, dec p = .error e ∧ quiet e = true
  dec_nil : ∃ e, dec [] = .error e ∧ quiet e = true

namespace Codec

/-- What a writer stopped at an arbitrary symbol leaves behind its last whole frame: nothing, or a
torn frame. -/
def Tail (c : Codec α β ε) (p : List β) : Prop := p = [] ∨ ∃ a, c.Good a ∧ Torn p (c.enc a)

variable (c : Codec α β ε)

/-- No frame is empty, -/
theorem enc_ne_nil {a : α} (h : c.Good a) : c.enc a ≠ [] := by
  intro e
  obtain ⟨x, hx, -⟩ := c.dec_nil
  have := c.dec_enc [] h
  rw [e, List.append_nil, hx] at this
  cases this

/-- so there are no more frames than bytes. -/
theorem length_le_flatMap {as : List α} (h : ∀ a ∈ as, c.Good a) :
    as.length ≤ (as.flatMap c.enc).length := by
  induction as with
  | nil => simp
  | cons a as ih =>
      have hpos := List.length_pos_iff.mpr (c.enc_ne_nil (h a List.mem_cons_self))
      have := ih fun x hx => h x (List.mem_cons_of_mem _ hx)
      simp only [List.flatMap_cons, List.length_append, List.length_cons]
      omega

/-- What is left of a frame is read to a quiet error. -/
theorem tail_error {p : List β} (h : c.Tail p) : ∃ e, c.dec p = .error e ∧ c.quiet e = true := by
  rcases h with rfl | ⟨a, ha, hp⟩
  · exact c.dec_nil
  · exact c.dec_torn ha hp

/-- **Reading at the front of a stream of whole frames**, when only `b` of it has arrived: the
reader asks for more, or reads the first frame. -/
theorem dec_front {as : List α} (h : ∀ a ∈ as, c.Good a) {b rest : List β}
    (hb : b ++ rest = as.flatMap c.enc) :
    (∃ e, c.dec b = .error e ∧ c.quiet e = true) ∨
      ∃ a as' b', as = a :: as' ∧ c.dec b = .ok (a, b') ∧ b' ++ rest = as'.flatMap c.enc := by
  cases as with
  | nil =>
      rw [List.flatMap_nil, List.append_eq_nil_iff] at hb
      rw [hb.1]
      exact .inl c.dec_nil
  | cons a as' =>
      obtain ⟨ha, -⟩ := List.forall_mem_cons.1 h
      rw [List.flatMap_cons] at hb
      rcases List.append_eq_append_iff.1 hb with ⟨q, henc, hrest⟩ | ⟨q, rfl, htail⟩
      · by_cases hq : q = []
        · subst hq
          rw [List.append_nil] at henc
          refine .inr ⟨a, as', [], rfl, ?_, hrest⟩
          rw [← henc, ← List.append_nil (c.enc a)]
          exact c.dec_enc [] ha
        · exact .inl (c.dec_torn ha ⟨⟨q, henc.symm⟩, fun e => hq (by simpa [e] using henc)⟩)
      · exact .inr ⟨a, as', q, rfl, c.dec_enc q ha, htail.symm⟩

/-- A concatenation of encodings, read frame by frame, with anything behind it. -/
theorem readN_flatMap (rest : List β) :
    ∀ as : List α, (∀ a ∈ as, c.Good a) →
      readN c.dec as.length (as.flatMap c.enc ++ rest) = .ok (as, rest)
  | [], _ => rfl
  | a :: as, h => by
      have ih := readN_flatMap rest as fun x hx => h x (List.mem_cons_of_mem _ hx)
      rw [List.flatMap_cons, List.append_assoc, List.length_cons,
        readN_cons (c.dec_enc _ (h a List.mem_cons_self)), ih]
      rfl

/-- **A concatenation of encodings is read back.** -/
theorem readAll_flatMap :
    ∀ (as : List α) (f : Nat), as.length ≤ f → (∀ a ∈ as, c.Good a) →
      readAll c.dec f (as.flatMap c.enc) = some as
  | [], _, _, _ => by simp [readAll]
  | a :: as, 0, hf, _ => absurd hf (by simp)
  | a :: as, f + 1, hf, h => by
      have ha := h a List.mem_cons_self
      have ih := readAll_flatMap as f (by simpa using hf)
        fun x hx => h x (List.mem_cons_of_mem _ hx)
      have hd := c.dec_enc (as.flatMap c.enc) ha
      obtain ⟨x, xs, hx⟩ := List.exists_cons_of_ne_nil (c.enc_ne_nil ha)
      rw [List.flatMap_cons]
      rw [hx, List.cons_append] at hd ⊢
      simp only [readAll, hd, ih, Option.map_some]

/-- **A writer stopped at an arbitrary symbol** leaves whole frames and a torn one. -/
theorem take_flatMap : ∀ (as : List α) (n : Nat), (∀ a ∈ as, c.Good a) →
    ∃ p, c.Tail p ∧ (as.flatMap c.enc).take n = (within c.enc as n).flatMap c.enc ++ p
  | [], n, _ => ⟨[], .inl rfl, by simp [within]⟩
  | a :: as, n, h => by
      obtain ⟨ha, has⟩ := List.forall_mem_cons.1 h
      rw [List.flatMap_cons, List.take_append, within]
      split
      case isTrue hn =>
        obtain ⟨p, hp, heq⟩ := take_flatMap as (n - (c.enc a).length) has
        refine ⟨p, hp, ?_⟩
        rw [List.take_of_length_le hn, heq, List.flatMap_cons, List.append_assoc]
      case isFalse hn =>
        refine ⟨(c.enc a).take n, .inr ⟨a, ha, List.take_prefix _ _, fun e => ?_⟩, ?_⟩
        · exact hn (by simpa using congrArg List.length e)
        · have : n - (c.enc a).length = 0 := by omega
          simp [this]

theorem Tail.of_prefix {c : Codec α β ε} {p q : List β} (hp : c.Tail p) (hq : q <+: p) :
    c.Tail q := by
  rcases hp with rfl | ⟨a, ha, hpre, hne⟩
  · exact .inl (List.prefix_nil.1 hq)
  · refine .inr ⟨a, ha, hq.trans hpre, ?_⟩
    rintro rfl
    exact hne (hpre.eq_of_length_le hq.length_le)

/-- **A prefix of whole frames and a torn one** is the same again, of fewer frames. -/
theorem cut {as : List α} (h : ∀ a ∈ as, c.Good a) {p b : List β} (hp : c.Tail p)
    (hb : b <+: as.flatMap c.enc ++ p) :
    ∃ bs q, bs <+: as ∧ c.Tail q ∧ b = bs.flatMap c.enc ++ q := by
  obtain ⟨t, ht⟩ := hb
  rcases List.append_eq_append_iff.1 ht with ⟨rest, hrest, -⟩ | ⟨q, hq, hpq⟩
  · obtain ⟨m, -, hm, -⟩ : ∃ m ≤ as.length, within c.enc as b.length = as.take m ∧ _ :=
      within_eq_take as b.length
    obtain ⟨q, hq, htake⟩ := c.take_flatMap as b.length h
    rw [hrest, List.take_left, hm] at htake
    exact ⟨as.take m, q, List.take_prefix m as, hq, htake⟩
  · exact ⟨as, q, List.prefix_rfl, hp.of_prefix ⟨t, hpq.symm⟩, hq⟩

/-- **A scan of whole frames and a torn one** applies the whole ones, in order, and does not
fail. -/
theorem scan_frames (g : σ → α → σ) {p : List β} (hp : c.Tail p) :
    ∀ (as : List α) (s : σ) (f : Nat), as.length < f → (∀ a ∈ as, c.Good a) →
      scan c.dec c.quiet (fun s a => (g s a, none)) f s (as.flatMap c.enc ++ p) =
        (as.foldl g s, as.length, none)
  | _, _, 0, hf, _ => absurd hf (by simp)
  | [], s, f + 1, _, _ => by
      obtain ⟨e, he, hq⟩ := c.tail_error hp
      simp [scan, he, hq]
  | a :: as, s, f + 1, hf, h => by
      have ih := scan_frames g hp as (g s a) f (by simpa using hf)
        fun x hx => h x (List.mem_cons_of_mem _ hx)
      rw [List.flatMap_cons, List.append_assoc]
      simp only [scan, c.dec_enc _ (h a List.mem_cons_self), ih, List.foldl_cons,
        List.length_cons]

end Codec

end MiniRedis.Frames
