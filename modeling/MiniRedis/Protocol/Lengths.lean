import MiniRedis.Protocol.Grammar

/-!
# Protocol — the lengths a peer announces

`decodeBulk` and `decodeArray` allocate by a length that has just been read, before anything of what
it announces has arrived.  `make` panics on a length that is negative or past the address space, and
the panic of a connection's goroutine ends the process.  That a length `make` serves may still be
more than the heap has, and that `Decode` may run out of stack on deep nesting, is outside the
model.

* `Makes`: an allocation that `Decode` comes to, at any depth of nesting.
* `decode_returns_iff`: **`Decode` returns just when no such allocation is too large.**
* `decode_panics`: a bulk string and a nested array of the largest length.
-/

namespace MiniRedis.Protocol
open MiniRedis.Frames

/-- Reading at the front of the input comes to `make([]T, len)`, if every `make` of the elements
before it is served: `size` is the size of a `T`, and `n` is the length in exact arithmetic. -/
inductive Makes : Bytes → (size : Nat) → (len : Int64) → (n : Nat) → Prop where
  /-- The payload of a bulk string and its CRLF. -/
  | bulk {s r : Bytes} {n : Int64} (h : Numeral s n.toInt) (hn : 0 ≤ n.toInt) :
      Makes (36 :: (s ++ crlf ++ r)) 1 (n + 2) (n.toInt.toNat + 2)
  | array {s r : Bytes} {n : Int64} (h : Numeral s n.toInt) (hn : 0 ≤ n.toInt) :
      Makes (42 :: (s ++ crlf ++ r)) valueSize n n.toInt.toNat
  /-- For an element of an array, behind the frames of those before it. -/
  | item {s p q : Bytes} {n len : Int64} {vs : List Value} {size m : Nat}
      (h : Numeral s n.toInt) (hn : vs.length < n.toInt) (hvs : AreFrames p vs)
      (hfits : FitsItems vs) (hq : Makes q size len m) :
      Makes (42 :: (s ++ crlf ++ (p ++ q))) size len m

/-! ### Where a call panics -/

/-- A bulk string panics exactly where the header is too large. -/
theorem decodeBulk_panic_iff {r : Bytes} :
    decodeBulk r = .error .panic ↔ ∃ n r', readInt r = .ok (n, r') ∧ 0 ≤ n.toInt ∧
      maxAlloc < n.toInt.toNat + 2 := by
  constructor
  · intro h
    rcases decodeBulk_eq_error h with ⟨-, hne⟩ | ⟨-, hmax⟩
    · exact absurd rfl hne
    · exact hmax
  · rintro ⟨n, r', hn, hpos, hmax⟩
    have hmake : ¬ canMake 1 (n + 2) = true := fun h =>
      absurd ((canMake_add_two hpos).1 h) (Nat.not_le.2 hmax)
    simp only [decodeBulk, hn, Except.bind]
    rw [if_neg (Int.not_lt.2 hpos), if_neg hmake]

/-- An array panics exactly where its header is too large or an element panics. -/
theorem decodeArray_panic_iff {r : Bytes} :
    decodeArray decode r = .error .panic ↔ ∃ n r', readInt r = .ok (n, r') ∧ 0 ≤ n.toInt ∧
      (maxAlloc < n.toInt.toNat * valueSize ∨
        ∃ vs q, vs.length < n.toInt ∧ readN decode vs.length r' = .ok (vs, q) ∧
          decode q = .error .panic) := by
  constructor
  · intro h
    rcases decodeArray_eq_error h with ⟨-, hne⟩ | ⟨n, r', hn, hpos, hitems⟩
    · exact absurd rfl hne
    · refine ⟨n, r', hn, hpos, ?_⟩
      rcases hitems with ⟨-, hmax⟩ | ⟨e, he, hpanic⟩
      · exact .inl hmax
      · have hsame : e = .panic := by cases e <;> cases hpanic; rfl
        rw [hsame] at he
        obtain ⟨vs, q, hlen, hvs, hq⟩ := readN_eq_error.1 he
        exact .inr ⟨vs, q, by omega, hvs, hq⟩
  · rintro ⟨n, r', hn, hpos, h⟩
    simp only [decodeArray, hn, Except.bind]
    rw [if_neg (Int.not_lt.2 hpos)]
    by_cases hmake : canMake valueSize n = true
    · rw [if_pos hmake]
      rcases h with hmax | ⟨vs, q, hlen, hvs, hq⟩
      · exact absurd (canMake_iff.1 hmake).2 (Nat.not_le.2 hmax)
      · have hclamp : vs.length < n.toNatClampNeg := by
          rw [← Int64.toNat_toInt]
          omega
        rw [readN_eq_error.2 ⟨vs, q, hclamp, hvs, hq⟩]
        rfl
    · rw [if_neg hmake]

/-- Only a bulk string or an array can panic. -/
theorem decode_panic_cases {b : Bytes} (h : decode b = .error .panic) :
    (∃ r, b = 36 :: r ∧ decodeBulk r = .error .panic) ∨
      ∃ r, b = 42 :: r ∧ decodeArray decode r = .error .panic := by
  cases b with
  | nil => cases h
  | cons t r =>
      rw [decode_cons, decodeBody] at h
      split_ifs at h
      · exact absurd rfl (readLine_eq_error (map_eq_error.1 h)).2
      · exact absurd rfl (readLine_eq_error (map_eq_error.1 h)).2
      · exact absurd rfl (readInt_eq_error (map_eq_error.1 h)).2
      · rename_i ht
        exact .inl ⟨r, by rw [ht], h⟩
      · rename_i ht
        exact .inr ⟨r, by rw [ht], h⟩
      · cases h

/-- A panic is that of a `make` the reading comes to, -/
theorem makes_of_panic : ∀ {b : Bytes}, decode b = .error .panic →
    ∃ size len n, Makes b size len n ∧ maxAlloc < n * size := by
  intro b
  -- on the length of the input: an element starts behind the header of its array
  induction hm : b.length using Nat.strong_induction_on generalizing b with
  | _ m ih =>
      intro h
      rcases decode_panic_cases h with ⟨r, rfl, hr⟩ | ⟨r, rfl, hr⟩
      · obtain ⟨n, r', hn, hpos, hmax⟩ := decodeBulk_panic_iff.1 hr
        obtain ⟨s, hs, rfl⟩ := readInt_eq_ok.1 hn
        exact ⟨_, _, _, .bulk hs hpos, by rwa [Nat.mul_one]⟩
      · obtain ⟨n, r', hn, hpos, hitems⟩ := decodeArray_panic_iff.1 hr
        obtain ⟨s, hs, rfl⟩ := readInt_eq_ok.1 hn
        rcases hitems with hmax | ⟨vs, q, hlen, hvs, hq⟩
        · exact ⟨_, _, _, .array hs hpos, hmax⟩
        · obtain ⟨hfits, p, hp, rfl⟩ := ReadsFrames.readN decode_readsFrames _ hvs
          have hshort : q.length < m := by
            rw [← hm]
            simp only [List.length_cons, List.length_append]
            omega
          obtain ⟨size, len, k, hk, hmax⟩ := ih _ hshort rfl hq
          exact ⟨size, len, k, .item hs hlen hp hfits hk, hmax⟩

/-- and every `make` it comes to and that is not served is a panic. -/
theorem panic_of_makes {b : Bytes} {size n : Nat} {len : Int64} (h : Makes b size len n)
    (hmax : maxAlloc < n * size) : decode b = .error .panic := by
  induction h with
  | bulk hs hpos =>
      rw [decode_dollar]
      exact decodeBulk_panic_iff.2 ⟨_, _, readInt_eq_ok.2 ⟨_, hs, rfl⟩, hpos,
        by rwa [Nat.mul_one] at hmax⟩
  | array hs hpos =>
      rw [decode_star]
      exact decodeArray_panic_iff.2 ⟨_, _, readInt_eq_ok.2 ⟨_, hs, rfl⟩, hpos, .inl hmax⟩
  | item hs hlen hvs hfits _ ih =>
      rw [decode_star]
      exact decodeArray_panic_iff.2 ⟨_, _, readInt_eq_ok.2 ⟨_, hs, rfl⟩, by omega,
        .inr ⟨_, _, hlen, hvs.readN hfits _, ih hmax⟩⟩

/-- A length that is served is computed exactly. -/
theorem Makes.exact {b : Bytes} {size n : Nat} {len : Int64} (h : Makes b size len n)
    (hmax : n * size ≤ maxAlloc) : len.toInt = n := by
  induction h with
  | @bulk _ _ n _ hpos =>
      have hadd : (n + 2).toInt = (n.toInt + 2).bmod (2 ^ 64) := Int64.toInt_add n 2
      have hpow : maxAlloc = 281474976710656 := rfl
      rw [hadd, Int.bmod]
      split <;> omega
  | array hs hpos => exact (Int.toNat_of_nonneg hpos).symm
  | item hs hlen hvs hfits _ ih => exact ih hmax

/-! ### The result -/

/-- **`Decode` returns, with a value or an error, just when every length it comes to, at any depth,
is one that can be allocated; and the lengths that can be are computed without overflow.** -/
theorem decode_returns_iff (b : Bytes) :
    (((∃ v r, decode b = .ok (v, r)) ∨ ∃ e, e ≠ .panic ∧ decode b = .error e) ↔
      ∀ size len n, Makes b size len n → n * size ≤ maxAlloc) ∧
    ∀ size len n, Makes b size len n → n * size ≤ maxAlloc → len.toInt = n := by
  refine ⟨⟨?_, ?_⟩, fun _ _ _ => Makes.exact⟩
  · intro h size len n hn
    by_contra hmax
    have hp := panic_of_makes hn (Nat.not_le.1 hmax)
    rcases h with ⟨v, r, h⟩ | ⟨e, he, h⟩
    · cases h.symm.trans hp
    · exact he (Except.error.inj (h.symm.trans hp))
  · intro h
    cases hd : decode b with
    | ok p => exact .inl ⟨p.1, p.2, rfl⟩
    | error e =>
        refine .inr ⟨e, ?_, rfl⟩
        rintro rfl
        obtain ⟨size, len, n, hn, hmax⟩ := makes_of_panic hd
        exact Nat.not_le.2 hmax (h size len n hn)

/-- `$9223372036854775807` and an element `*9223372036854775807` of an array end in a panic; in
`decodeBulk` the length for `make` has wrapped to a negative one. -/
theorem decode_panics :
    decode (txt "$9223372036854775807\r\n") = .error .panic ∧
      decode (txt "*1\r\n*9223372036854775807\r\n") = .error .panic ∧
      ((9223372036854775807 : Int64) + 2).toInt < 0 := by
  decide

end MiniRedis.Protocol
