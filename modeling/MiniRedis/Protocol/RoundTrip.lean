import MiniRedis.Protocol.Prefixes

/-!
# Protocol — the codec round trip

What `Encode` writes of a well-formed value is a frame of it (`isFrame_encode`), so `Decode` undoes
`Encode`, whatever bytes follow the frame, and answers `io.ErrUnexpectedEOF` on every non-empty
strict prefix of it.  With the end of the stream (`io.EOF`) these are the laws of a `Frames.Codec`:
`codec` is that instance, with the two EOF errors as its quiet ones.  Every value `Decode` returns
is well formed (`decode_wellFormed`).

* `decode_stream`: the round trip on a value with any bytes behind it, and on a stream of values.
* `decode_encode_torn`: a torn frame is an unexpected end of file, at every byte and every depth.
-/

namespace MiniRedis.Protocol
open MiniRedis.Frames

/-! ### An encoding is a frame -/

/-- The length of a payload or of an array as the decoder reads it. -/
theorem numeral_length {n : Nat} (h : n ≤ maxAlloc) :
    ∃ m : Int64, m.toInt = n ∧ Numeral (formatNat n) m.toInt := by
  have hmax : maxAlloc = 281474976710656 := rfl
  have hm : (Int64.ofInt n).toInt = n := Int64.toInt_ofInt_of_le (by omega) (by omega)
  refine ⟨Int64.ofInt n, hm, ?_⟩
  rw [hm]
  exact numeral_formatNat n

theorem numeral_null : Numeral (txt "-1") (-1 : Int64).toInt := parseInt_iff.1 (by decide)

mutual

/-- **What `Encode` writes of a well-formed value is a frame of it.** -/
theorem isFrame_encode : ∀ v : Value, v.WellFormed → IsFrame (encode v) v
  | .simpleString _, h => .simpleString h
  | .error _, h => .error h
  | .integer n, _ => .integer (numeral_formatInt n)
  | .bulkString none, _ => .nullBulk numeral_null (by decide)
  | .bulkString (some b), h => by
      obtain ⟨n, hn, hs⟩ := numeral_length (Nat.le_of_add_right_le h)
      exact .bulkString hs hn
  | .nullArray, _ => .nullArray numeral_null (by decide)
  | .array vs, h => by
      obtain ⟨n, hn, hs⟩ := numeral_length (le_trans (Nat.le_mul_of_pos_right _ (by decide)) h.1)
      exact .array hs hn (areFrames_encodeItems vs h.2)

/-- The elements of an array are encoded as frames of them. -/
theorem areFrames_encodeItems : ∀ vs : List Value, WellFormedItems vs →
    AreFrames (encodeItems vs) vs
  | [], _ => .nil
  | v :: vs, h => .cons (isFrame_encode v h.1) (areFrames_encodeItems vs h.2)

end

/-- **`Decode` undoes `Encode`**, whatever follows the frame. -/
theorem decode_encode (v : Value) (rest : Bytes) (h : v.WellFormed) :
    decode (encode v ++ rest) = .ok (v, rest) :=
  (isFrame_encode v h).decode ((Value.wellFormed_iff v).1 h).2 rest

/-- **A torn frame is an unexpected end of file.** -/
theorem decode_encode_torn (v : Value) (p : Bytes) (h : v.WellFormed) (hp : Torn p (encode v))
    (hne : p ≠ []) : decode p = .error .unexpectedEOF := by
  have hv := decode_encode v [] h
  rw [List.append_nil] at hv
  exact decode_torn hv hp hne

/-! ### The codec -/

/-- `Encode` and `Decode` as a codec of self-delimiting frames. -/
def codec : Codec Value UInt8 DecodeError where
  Good := Value.WellFormed
  enc := encode
  dec := decode
  quiet := DecodeError.isEOF
  dec_enc := fun rest h => decode_encode _ rest h
  dec_torn := fun {v p} h hp => by
    by_cases hne : p = []
    · subst hne
      exact ⟨.eof, decode_nil, rfl⟩
    · exact ⟨.unexpectedEOF, decode_encode_torn v p h hp hne, rfl⟩
  dec_nil := ⟨.eof, decode_nil, rfl⟩

/-! ### What `Decode` returns is well formed -/

mutual

/-- What has a frame has no line break in a simple string. -/
theorem IsFrame.oneLine : ∀ {v : Value} {p : Bytes}, IsFrame p v → v.OneLine
  | .simpleString _, _, .simpleString h => h
  | .error _, _, .error h => h
  | .integer _, _, _ | .bulkString _, _, _ | .nullArray, _, _ => trivial
  | .array _, _, .array _ _ hvs => hvs.oneLine

theorem AreFrames.oneLine : ∀ {vs : List Value} {p : Bytes}, AreFrames p vs → OneLineItems vs
  | [], _, _ => trivial
  | _ :: _, _, .cons h hvs => ⟨h.oneLine, hvs.oneLine⟩

end

/-- **Every value `Decode` returns is well formed.** -/
theorem decode_wellFormed {b rest : Bytes} {v : Value} (h : decode b = .ok (v, rest)) :
    v.WellFormed := by
  obtain ⟨hfits, p, hp, -⟩ := decode_iff.1 h
  exact (Value.wellFormed_iff v).2 ⟨hp.oneLine, hfits⟩

/-- A stream that reads to its end holds well-formed values. -/
theorem readAll_wellFormed : ∀ (f : Nat) (b : Bytes) {vs : List Value},
    readAll decode f b = some vs → ∀ v ∈ vs, v.WellFormed
  | _, [], _, h => by
      simp only [readAll] at h
      cases h
      exact fun _ hv => absurd hv List.not_mem_nil
  | 0, _ :: _, _, h => by simp [readAll] at h
  | f + 1, x :: b, vs, h => by
      simp only [readAll] at h
      split at h
      · rename_i a rest hd
        obtain ⟨ws, hws, rfl⟩ := Option.map_eq_some_iff.1 h
        intro v hv
        rcases List.mem_cons.1 hv with rfl | hv
        · exact decode_wellFormed hd
        · exact readAll_wellFormed f rest hws v hv
      · cases h

/-- A value that some bytes decode to: what a connection hands to `serve`. -/
def Decoded (v : Value) : Prop := ∃ b rest, decode b = .ok (v, rest)

/-- What was decoded is well formed, -/
theorem Decoded.wellFormed {v : Value} (h : Decoded v) : v.WellFormed := by
  obtain ⟨b, rest, hb⟩ := h
  exact decode_wellFormed hb

/-- and all that is well formed can have been decoded. -/
theorem decoded_iff {v : Value} : Decoded v ↔ v.WellFormed :=
  ⟨Decoded.wellFormed, fun h => ⟨encode v, [], by simpa using decode_encode v [] h⟩⟩

/-! ### The stream -/

/-- **The codec round trip on a stream.**  A well-formed value is decoded back from its encoding
with exactly the following bytes left unread; a concatenation of encodings is decoded back into the
list of values. -/
theorem decode_stream :
    (∀ (v : Value) (rest : Bytes), v.WellFormed → decode (encode v ++ rest) = .ok (v, rest)) ∧
    ∀ (vs : List Value) (rest : Bytes), (∀ v ∈ vs, v.WellFormed) →
      readN decode vs.length (vs.flatMap encode ++ rest) = .ok (vs, rest) ∧
      readAll decode (vs.flatMap encode).length (vs.flatMap encode) = some vs := by
  refine ⟨decode_encode, fun vs rest h => ⟨codec.readN_flatMap rest vs h, ?_⟩⟩
  exact codec.readAll_flatMap vs _ (codec.length_le_flatMap h) h

/-- A command whose payload looks like a frame, a null array inside it, and the least `int64`. -/
theorem decode_stream_nested :
    let v := Value.array [.bulkString (some (txt "$1\r\n")), .nullArray, .array [],
      .integer Int64.minValue, .bulkString none]
    decode (encode v ++ [42]) = .ok (v, [42]) ∧
      readAll decode ([v, v].flatMap encode).length ([v, v].flatMap encode) = some [v, v] := by
  have h : (Value.array [.bulkString (some (txt "$1\r\n")), .nullArray, .array [],
      .integer Int64.minValue, .bulkString none]).WellFormed := by
    refine ⟨by decide, ?_, trivial, ⟨by decide, trivial⟩, trivial, trivial, trivial⟩
    show (txt "$1\r\n").length + 2 ≤ maxAlloc
    decide
  exact ⟨decode_stream.1 _ _ h, (decode_stream.2 _ [] (by simpa using h)).2⟩

end MiniRedis.Protocol
