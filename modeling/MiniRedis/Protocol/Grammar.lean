import MiniRedis.Protocol.Decode

/-!
# Protocol — the grammar of frames

What a frame is, without the decoder (`IsFrame`): a type byte and a line; for a bulk string or an
array the line is a length, and that many bytes or frames follow it.  A length is any numeral of an
`int64`, with a sign or leading zeros, and any negative one is null.

* `isFrame_unique`: no frame is the beginning of another one, and a frame is one of one value.
* `decode_iff`: **`Decode` reads a value exactly where a frame of it stands**, if `make` serves the
  lengths in it.
-/

namespace MiniRedis.Protocol
open MiniRedis.Frames

mutual

/-- The bytes are a frame of the value. -/
inductive IsFrame : Bytes → Value → Prop where
  | simpleString {s : Bytes} (h : 10 ∉ s) : IsFrame (43 :: (s ++ crlf)) (.simpleString s)
  | error {s : Bytes} (h : 10 ∉ s) : IsFrame (45 :: (s ++ crlf)) (.error s)
  | integer {s : Bytes} {n : Int64} (h : Numeral s n.toInt) :
      IsFrame (58 :: (s ++ crlf)) (.integer n)
  | nullBulk {s : Bytes} {n : Int64} (h : Numeral s n.toInt) (hn : n.toInt < 0) :
      IsFrame (36 :: (s ++ crlf)) (.bulkString none)
  | bulkString {s : Bytes} {n : Int64} {b : Bytes} (h : Numeral s n.toInt)
      (hn : n.toInt = b.length) : IsFrame (36 :: (s ++ crlf ++ (b ++ crlf))) (.bulkString (some b))
  | nullArray {s : Bytes} {n : Int64} (h : Numeral s n.toInt) (hn : n.toInt < 0) :
      IsFrame (42 :: (s ++ crlf)) .nullArray
  | array {s p : Bytes} {n : Int64} {vs : List Value} (h : Numeral s n.toInt)
      (hn : n.toInt = vs.length) (hvs : AreFrames p vs) :
      IsFrame (42 :: (s ++ crlf ++ p)) (.array vs)

/-- The bytes are frames of the values, one after the other. -/
inductive AreFrames : Bytes → List Value → Prop where
  | nil : AreFrames [] []
  | cons {p q : Bytes} {v : Value} {vs : List Value} (h : IsFrame p v) (hvs : AreFrames q vs) :
      AreFrames (p ++ q) (v :: vs)

end

/-! ### The grammar is unambiguous -/

/-- A line ends at its first CRLF. -/
theorem line_inj {s s' r r' : Bytes} (hs : (10 : UInt8) ∉ s) (hs' : (10 : UInt8) ∉ s')
    (h : s ++ crlf ++ r = s' ++ crlf ++ r') : s = s' ∧ r = r' := by
  have hread := readLine_append hs r
  rw [h, readLine_append hs' r'] at hread
  cases hread
  exact ⟨rfl, rfl⟩

/-- Two lengths at one place are one, and so is what follows them. -/
theorem header_inj {s s' r r' : Bytes} {n n' : Int64} (hs : Numeral s n.toInt)
    (hs' : Numeral s' n'.toInt) (h : s ++ (crlf ++ r) = s' ++ (crlf ++ r')) :
    s = s' ∧ n = n' ∧ r = r' := by
  rw [← List.append_assoc, ← List.append_assoc] at h
  obtain ⟨rfl, hr⟩ := line_inj hs.line hs'.line h
  have hn := parseInt_iff.2 hs
  rw [parseInt_iff.2 hs'] at hn
  cases hn
  exact ⟨rfl, rfl, hr⟩

mutual

/-- **No frame is the beginning of another one, and a frame is one of one value.** -/
theorem isFrame_unique : ∀ {v v' : Value} {p p' r r' : Bytes}, IsFrame p v → IsFrame p' v' →
    p ++ r = p' ++ r' → p = p' ∧ v = v' ∧ r = r'
  | .simpleString s, v', _, p', r, r', .simpleString hs, h', e => by
      cases h' with
      | simpleString hs' =>
          obtain ⟨rfl, rfl⟩ := line_inj hs hs' (List.cons.inj e).2
          exact ⟨rfl, rfl, rfl⟩
      | _ => cases (List.cons.inj e).1
  | .error s, v', _, p', r, r', .error hs, h', e => by
      cases h' with
      | error hs' =>
          obtain ⟨rfl, rfl⟩ := line_inj hs hs' (List.cons.inj e).2
          exact ⟨rfl, rfl, rfl⟩
      | _ => cases (List.cons.inj e).1
  | .integer n, v', _, p', r, r', .integer hs, h', e => by
      cases h' with
      | integer hs' =>
          obtain ⟨rfl, rfl, hr⟩ := header_inj hs hs' (by simpa using e)
          exact ⟨rfl, rfl, hr⟩
      | _ => cases (List.cons.inj e).1
  | .bulkString none, v', _, p', r, r', .nullBulk hs hn, h', e => by
      cases h' with
      | nullBulk hs' hn' =>
          obtain ⟨rfl, rfl, hr⟩ := header_inj hs hs' (by simpa using e)
          exact ⟨rfl, rfl, hr⟩
      | bulkString hs' hn' =>
          obtain ⟨-, rfl, -⟩ := header_inj hs hs' (by simpa using e)
          omega
      | _ => cases (List.cons.inj e).1
  | .bulkString (some b), v', _, p', r, r', .bulkString hs hn, h', e => by
      cases h' with
      | nullBulk hs' hn' =>
          obtain ⟨-, rfl, -⟩ := header_inj hs hs' (by simpa using e)
          omega
      | bulkString hs' hn' =>
          obtain ⟨rfl, rfl, e'⟩ := header_inj hs hs' (by simpa using e)
          obtain ⟨rfl, hr⟩ := List.append_inj e' (by omega)
          exact ⟨rfl, rfl, List.append_cancel_left hr⟩
      | _ => cases (List.cons.inj e).1
  | .nullArray, v', _, p', r, r', .nullArray hs hn, h', e => by
      cases h' with
      | nullArray hs' hn' =>
          obtain ⟨rfl, rfl, hr⟩ := header_inj hs hs' (by simpa using e)
          exact ⟨rfl, rfl, hr⟩
      | array hs' hn' hvs' =>
          obtain ⟨-, rfl, -⟩ := header_inj hs hs' (by simpa using e)
          omega
      | _ => cases (List.cons.inj e).1
  | .array vs, v', _, p', r, r', .array hs hn hvs, h', e => by
      cases h' with
      | nullArray hs' hn' =>
          obtain ⟨-, rfl, -⟩ := header_inj hs hs' (by simpa using e)
          omega
      | array hs' hn' hvs' =>
          obtain ⟨rfl, rfl, e'⟩ := header_inj hs hs' (by simpa using e)
          obtain ⟨rfl, rfl, rfl⟩ := areFrames_unique hvs hvs' (by omega) e'
          exact ⟨rfl, rfl, rfl⟩
      | _ => cases (List.cons.inj e).1

/-- Frames one after the other can be told apart. -/
theorem areFrames_unique : ∀ {vs vs' : List Value} {p p' r r' : Bytes}, AreFrames p vs →
    AreFrames p' vs' → vs.length = vs'.length → p ++ r = p' ++ r' → p = p' ∧ vs = vs' ∧ r = r'
  | [], vs', _, p', r, r', .nil, h', hlen, e => by
      cases h' with
      | nil => exact ⟨rfl, rfl, e⟩
      | cons => cases hlen
  | v :: vs, vs', _, p', r, r', .cons h hvs, h', hlen, e => by
      cases h' with
      | nil => cases hlen
      | cons h' hvs' =>
          rw [List.append_assoc, List.append_assoc] at e
          obtain ⟨rfl, rfl, e⟩ := isFrame_unique h h' e
          obtain ⟨rfl, rfl, rfl⟩ := areFrames_unique hvs hvs' (Nat.succ.inj hlen) e
          exact ⟨rfl, rfl, rfl⟩

end

/-! ### `Decode` reads frames -/

mutual

/-- **A frame is read**, whatever follows it. -/
theorem IsFrame.decode : ∀ {v : Value} {p : Bytes}, IsFrame p v → v.Fits → ∀ rest : Bytes,
    decode (p ++ rest) = .ok (v, rest)
  | .simpleString s, _, .simpleString hs, _, rest => by
      rw [List.cons_append, decode_plus, readLine_append hs]
      rfl
  | .error s, _, .error hs, _, rest => by
      rw [List.cons_append, decode_minus, readLine_append hs]
      rfl
  | .integer n, _, .integer hs, _, rest => by
      rw [List.cons_append, decode_colon, readInt_eq_ok.2 ⟨_, hs, rfl⟩]
      rfl
  | .bulkString none, _, .nullBulk hs hn, _, rest => by
      rw [List.cons_append, decode_dollar]
      exact decodeBulk_eq_ok.2 ⟨_, _, readInt_eq_ok.2 ⟨_, hs, rfl⟩, .inl ⟨hn, rfl, rfl⟩⟩
  | .bulkString (some b), _, .bulkString hs hn, hfits, rest => by
      rw [List.cons_append, decode_dollar, List.append_assoc]
      exact decodeBulk_eq_ok.2 ⟨_, _, readInt_eq_ok.2 ⟨_, hs, rfl⟩,
        .inr ⟨b, hn, hfits, rfl, rfl⟩⟩
  | .nullArray, _, .nullArray hs hn, _, rest => by
      rw [List.cons_append, decode_star]
      exact decodeArray_eq_ok.2 ⟨_, _, readInt_eq_ok.2 ⟨_, hs, rfl⟩, .inl ⟨hn, rfl, rfl⟩⟩
  | .array vs, _, .array hs hn hvs, hfits, rest => by
      rw [List.cons_append, decode_star, List.append_assoc]
      exact decodeArray_eq_ok.2 ⟨_, _, readInt_eq_ok.2 ⟨_, hs, rfl⟩,
        .inr ⟨vs, hn, hfits.1, rfl, hvs.readN hfits.2 rest⟩⟩

/-- Frames one after the other are read. -/
theorem AreFrames.readN : ∀ {vs : List Value} {p : Bytes}, AreFrames p vs → FitsItems vs →
    ∀ rest : Bytes, readN decode vs.length (p ++ rest) = .ok (vs, rest)
  | [], _, .nil, _, rest => rfl
  | v :: vs, _, .cons h hvs, hfits, rest => by
      rw [List.append_assoc, List.length_cons, readN_cons (h.decode hfits.1 _),
        hvs.readN hfits.2 rest]
      rfl

end

/-- The reader succeeds only on a frame, of a value whose lengths `make` serves. -/
def ReadsFrames (dec : Reader Value UInt8 DecodeError) : Prop :=
  ∀ {b : Bytes} {v : Value} {rest : Bytes}, dec b = .ok (v, rest) →
    v.Fits ∧ ∃ p, IsFrame p v ∧ b = p ++ rest

/-- What such a reader takes off the input when it is repeated are frames one after the other. -/
theorem ReadsFrames.readN {dec : Reader Value UInt8 DecodeError} (hd : ReadsFrames dec) :
    ∀ (n : Nat) {b rest : Bytes} {vs : List Value}, readN dec n b = .ok (vs, rest) →
      FitsItems vs ∧ ∃ p, AreFrames p vs ∧ b = p ++ rest
  | 0, b, rest, vs, h => by
      cases h
      exact ⟨trivial, [], .nil, rfl⟩
  | n + 1, b, rest, vs, h => by
      obtain ⟨⟨v, c⟩, hv, h⟩ := bind_eq_ok.1 h
      obtain ⟨⟨ws, d⟩, hws, h⟩ := map_eq_ok.1 h
      cases h
      obtain ⟨hfit, p, hp, rfl⟩ := hd hv
      obtain ⟨hfits, q, hq, rfl⟩ := ReadsFrames.readN hd n hws
      exact ⟨⟨hfit, hfits⟩, p ++ q, .cons hp hq, (List.append_assoc _ _ _).symm⟩

/-- What is taken off the input is a frame, however deep the nesting. -/
theorem decodeFuel_readsFrames : ∀ f : Nat, ReadsFrames (decodeFuel f)
  | 0, b, v, rest, h => by simp [decodeFuel] at h
  | f + 1, [], v, rest, h => by simp [decodeFuel] at h
  | f + 1, t :: r, v, rest, h => by
      simp only [decodeFuel, decodeBody] at h
      split at h
      case isTrue ht =>
        obtain ⟨⟨s, r'⟩, hs, h⟩ := map_eq_ok.1 h
        cases h
        obtain ⟨hline, rfl⟩ := readLine_eq_ok.1 hs
        exact ⟨trivial, _, .simpleString hline, by rw [ht]; rfl⟩
      split at h
      case isTrue ht =>
        obtain ⟨⟨s, r'⟩, hs, h⟩ := map_eq_ok.1 h
        cases h
        obtain ⟨hline, rfl⟩ := readLine_eq_ok.1 hs
        exact ⟨trivial, _, .error hline, by rw [ht]; rfl⟩
      split at h
      case isTrue ht =>
        obtain ⟨⟨n, r'⟩, hn, h⟩ := map_eq_ok.1 h
        cases h
        obtain ⟨s, hs, rfl⟩ := readInt_eq_ok.1 hn
        exact ⟨trivial, _, .integer hs, by rw [ht]; rfl⟩
      split at h
      case isTrue ht =>
        obtain ⟨n, r', hn, hv⟩ := decodeBulk_eq_ok.1 h
        obtain ⟨s, hs, rfl⟩ := readInt_eq_ok.1 hn
        rcases hv with ⟨hneg, rfl, rfl⟩ | ⟨b, hlen, hmax, rfl, rfl⟩
        · exact ⟨trivial, _, .nullBulk hs hneg, by rw [ht]; rfl⟩
        · exact ⟨hmax, _, .bulkString hs hlen, by rw [ht]; simp⟩
      split at h
      case isTrue ht =>
        obtain ⟨n, r', hn, hv⟩ := decodeArray_eq_ok.1 h
        obtain ⟨s, hs, rfl⟩ := readInt_eq_ok.1 hn
        rcases hv with ⟨hneg, rfl, rfl⟩ | ⟨vs, hlen, hmax, rfl, hvs⟩
        · exact ⟨trivial, _, .nullArray hs hneg, by rw [ht]; rfl⟩
        · obtain ⟨hfits, p, hp, rfl⟩ := ReadsFrames.readN (decodeFuel_readsFrames f) _ hvs
          exact ⟨⟨hmax, hfits⟩, _, .array hs hlen hp, by rw [ht]; simp⟩
      case isFalse => cases h

/-- What `Decode` takes off the input is a frame of what it returns. -/
theorem decode_readsFrames : ReadsFrames decode := fun h => decodeFuel_readsFrames _ h

/-- **`Decode` reads a value exactly where a frame of it stands.** -/
theorem decode_iff {b rest : Bytes} {v : Value} :
    decode b = .ok (v, rest) ↔ v.Fits ∧ ∃ p, IsFrame p v ∧ b = p ++ rest := by
  refine ⟨fun h => decode_readsFrames h, ?_⟩
  rintro ⟨hfits, p, hp, rfl⟩
  exact hp.decode hfits rest

/-! ### The result -/

/-- **`Decode` accepts exactly its grammar.**  On any input, it returns a value and what follows it
just when the input starts with a frame of the value, and that value is one whose lengths `make`
serves; and no input starts with two frames. -/
theorem decode_exactly_frames (b : Bytes) :
    (∀ v r, decode b = .ok (v, r) ↔ v.Fits ∧ ∃ p, IsFrame p v ∧ b = p ++ r) ∧
      ∀ p v r p' v' r', IsFrame p v → b = p ++ r → IsFrame p' v' → b = p' ++ r' →
        p = p' ∧ v = v' ∧ r = r' :=
  ⟨fun _ _ => decode_iff, fun _ _ _ _ _ _ h e h' e' => isFrame_unique h h' (e.symm.trans e')⟩

/-- Lengths with a sign and a leading zero, a null by another number, and a byte behind the
frame. -/
theorem decode_exactly_frames_padded :
    let b := txt "*+02\r\n$-7\r\n:-0\r\n+"
    let v := Value.array [.bulkString none, .integer 0]
    decode b = .ok (v, txt "+") ∧
      ∃ p, IsFrame p v ∧ b = p ++ txt "+" ∧ p = txt "*+02\r\n$-7\r\n:-0\r\n" := by
  intro b v
  have hdecode : decode b = .ok (v, txt "+") := rfl
  obtain ⟨hframes, hunique⟩ := decode_exactly_frames b
  obtain ⟨-, p, hp, hb⟩ := (hframes v _).1 hdecode
  have hwhole : decode (txt "*+02\r\n$-7\r\n:-0\r\n") = .ok (v, []) := rfl
  obtain ⟨-, q, hq, hb'⟩ := ((decode_exactly_frames _).1 v _).1 hwhole
  rw [List.append_nil] at hb'
  exact ⟨hdecode, p, hp, hb, (hunique p v _ _ v _ hp hb (hb' ▸ hq) rfl).1⟩

end MiniRedis.Protocol
