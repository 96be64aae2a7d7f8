import MiniRedis.Protocol.Grammar

/-!
# Protocol — what has arrived of a stream

`Decode` on a part of what will arrive.  Its answers stay when more arrives, except the two ends of
file: every reader of the decoder is a `Frames.Steady` one, with these as the errors that are not
final.

* `decode_steady`: the law for `Decode`, at every depth of nesting.
* `decode_eof_iff`: the clean end of file is the empty input.
* `decode_torn`: **a torn frame is an unexpected end of file**, at every byte of it.
-/

namespace MiniRedis.Protocol
open MiniRedis.Frames

/-- `errors.Is(err, io.EOF) || errors.Is(err, io.ErrUnexpectedEOF)`. -/
def DecodeError.isEOF : DecodeError → Bool
  | .eof | .unexpectedEOF => true
  | _ => false

/-- An error that more input does not change. -/
def DecodeError.Final (e : DecodeError) : Prop := e.isEOF = false

/-! ### Every reader is steady -/

/-- What is read of a line does not depend on what comes after it. -/
theorem readLine_steady : Steady DecodeError.Final readLine where
  ok h x := by
    obtain ⟨hs, rfl⟩ := readLine_eq_ok.1 h
    rw [List.append_assoc]
    exact readLine_append hs _
  error {b e} h he x := by
    unfold readLine at h ⊢
    split at h
    · cases h
      cases he
    · rename_i y ys hdrop
      -- the line feed is there, so the line is
      have htake : (b ++ x).takeWhile (fun c => decide (c ≠ 10)) =
          b.takeWhile fun c => decide (c ≠ 10) := by
        have hlen := congrArg List.length
          (List.takeWhile_append_dropWhile (p := fun c : UInt8 => decide (c ≠ 10)) (l := b))
        rw [hdrop, List.length_append, List.length_cons] at hlen
        rw [List.takeWhile_append, if_neg (by omega)]
      have hdrop' : (b ++ x).dropWhile (fun c => decide (c ≠ 10)) = y :: (ys ++ x) := by
        rw [List.dropWhile_append, hdrop]
        rfl
      rw [htake, hdrop']
      dsimp only at h ⊢
      split at h
      case isTrue => cases h
      case isFalse hlast => rw [if_neg hlast, h]

theorem readInt_steady : Steady DecodeError.Final readInt := by
  refine readLine_steady.bind fun line => ?_
  dsimp only
  cases parseInt line with
  | none => exact .fail _
  | some n => exact .pure n

/-- The payload of a bulk string and its CRLF. -/
theorem payload_steady (n : Nat) : Steady (α := Value) DecodeError.Final fun r : Bytes =>
    match r.drop n with
    | c :: d :: rest =>
        if c = 13 ∧ d = 10 then .ok (.bulkString (some (r.take n)), rest)
        else .error (.protocol .bulkEnd)
    | _ => .error .unexpectedEOF := by
  -- if the two bytes behind the payload are there, so is the payload
  have more : ∀ {b rest : Bytes} {c d : UInt8} (x : Bytes), b.drop n = c :: d :: rest →
      (b ++ x).drop n = c :: d :: (rest ++ x) ∧ (b ++ x).take n = b.take n := by
    intro b rest c d x h
    have hlen := congrArg List.length h
    simp only [List.length_drop, List.length_cons] at hlen
    rw [List.drop_append_of_le_length (by omega), List.take_append_of_le_length (by omega), h]
    exact ⟨rfl, rfl⟩
  refine ⟨fun {b v r} h x => ?_, fun {b e} h he x => ?_⟩
  · split at h
    · rename_i c d rest hdrop
      obtain ⟨hdrop', htake⟩ := more x hdrop
      rw [hdrop', htake]
      dsimp only
      split at h
      case isTrue hcd =>
        cases h
        rw [if_pos hcd]
      case isFalse => cases h
    · cases h
  · split at h
    · rename_i c d rest hdrop
      obtain ⟨hdrop', htake⟩ := more x hdrop
      rw [hdrop', htake]
      dsimp only
      split at h
      case isTrue => cases h
      case isFalse hcd => rw [if_neg hcd, h]
    · cases h
      cases he

/-- The same for a bulk string. -/
theorem decodeBulk_steady : Steady DecodeError.Final decodeBulk := by
  refine readInt_steady.bind fun n => ?_
  dsimp only
  split_ifs
  · exact .pure _
  · exact payload_steady _
  · exact .fail _

/-- The elements of an array, the end of file among them being an unexpected one. -/
theorem items_steady {dec : Reader Value UInt8 DecodeError} (hd : Steady DecodeError.Final dec)
    (n : Nat) : Steady (α := Value) DecodeError.Final fun r : Bytes =>
      match readN dec n r with
      | .error e => .error (unexpectEOF e)
      | .ok (vs, r) => .ok (.array vs, r) := by
  refine ⟨fun {b v r} h x => ?_, fun {b e} h he x => ?_⟩
  · split at h
    · cases h
    · rename_i vs r' hvs
      cases h
      rw [(hd.readN n).ok hvs x]
  · split at h
    · rename_i e' hvs
      cases h
      -- an end of file is not final, and any other error stays as it is
      cases e' with
      | eof | unexpectedEOF => cases he
      | protocol | panic => rw [(hd.readN n).error hvs rfl x]
    · cases h

/-- The same for an array whose elements are read that way, -/
theorem decodeArray_steady {dec : Reader Value UInt8 DecodeError}
    (hd : Steady DecodeError.Final dec) : Steady DecodeError.Final (decodeArray dec) := by
  refine readInt_steady.bind fun n => ?_
  dsimp only
  split_ifs
  · exact .pure _
  · exact items_steady hd _
  · exact .fail _

theorem decodeBody_steady {dec : Reader Value UInt8 DecodeError}
    (hd : Steady DecodeError.Final dec) (t : UInt8) :
    Steady DecodeError.Final (decodeBody dec t) := by
  unfold decodeBody
  split_ifs
  · exact readLine_steady.map _
  · exact readLine_steady.map _
  · exact readInt_steady.map _
  · exact decodeBulk_steady
  · exact decodeArray_steady hd
  · exact .fail _

/-- and for all of `Decode`. -/
theorem decodeFuel_steady : ∀ f : Nat, Steady DecodeError.Final (decodeFuel f)
  | 0 => ⟨fun h => (by cases h), fun h he => by
      cases h
      cases he⟩
  | f + 1 => by
      have hbody := decodeBody_steady (decodeFuel_steady f)
      refine ⟨fun {b v r} h x => ?_, fun {b e} h he x => ?_⟩
      · cases b with
        | nil => cases h
        | cons t b => exact (hbody t).ok h x
      · cases b with
        | nil =>
            cases h
            cases he
        | cons t b => exact (hbody t).error h he x

/-- **More input changes no answer of `Decode`** but an end of file. -/
theorem decode_steady : Steady DecodeError.Final decode := by
  -- a bound on the nesting that will do for both inputs
  have hfuel : ∀ b x : Bytes, decode b = decodeFuel (b ++ x).length b := fun b x =>
    decodeFuel_eq _ _ b le_rfl (by simp)
  refine ⟨fun {b v r} h x => ?_, fun {b e} h he x => ?_⟩
  · rw [hfuel b x] at h
    exact (decodeFuel_steady _).ok h x
  · rw [hfuel b x] at h
    exact (decodeFuel_steady _).error h he x

/-! ### The ends of file -/

/-- A bulk string that is cut short is not a clean end, -/
theorem decodeBulk_ne_eof (r : Bytes) : decodeBulk r ≠ .error .eof := by
  intro h
  rcases decodeBulk_eq_error h with ⟨hne, -⟩ | ⟨hpanic, -⟩
  · exact hne rfl
  · cases hpanic

/-- nor is an array. -/
theorem decodeArray_ne_eof (dec : Reader Value UInt8 DecodeError) (r : Bytes) :
    decodeArray dec r ≠ .error .eof := by
  intro h
  rcases decodeArray_eq_error h with ⟨hne, -⟩ | ⟨_, _, -, -, ⟨hpanic, -⟩ | ⟨e, -, he⟩⟩
  · exact hne rfl
  · cases hpanic
  · cases e <;> cases he

/-- **The clean end of file is the empty input.** -/
theorem decode_eof_iff {b : Bytes} : decode b = .error .eof ↔ b = [] := by
  refine ⟨fun h => ?_, fun h => h ▸ rfl⟩
  cases b with
  | nil => rfl
  | cons t r =>
      exfalso
      rw [decode_cons, decodeBody] at h
      split_ifs at h
      · exact (readLine_eq_error (map_eq_error.1 h)).1 rfl
      · exact (readLine_eq_error (map_eq_error.1 h)).1 rfl
      · exact (readInt_eq_error (map_eq_error.1 h)).1 rfl
      · exact decodeBulk_ne_eof r h
      · exact decodeArray_ne_eof decode r h
      · cases h

/-- **A torn frame is an unexpected end of file.** -/
theorem decode_torn {b p : Bytes} {v : Value} (hb : decode b = .ok (v, [])) (hp : Torn p b)
    (hne : p ≠ []) : decode p = .error .unexpectedEOF := by
  obtain ⟨e, he, hfinal⟩ := decode_steady.torn hb hp
  cases e with
  | eof => exact absurd (decode_eof_iff.1 he) hne
  | unexpectedEOF => exact he
  | protocol | panic => exact absurd rfl hfinal

/-- What is read is read without the bytes behind it. -/
theorem decode_alone {f r : Bytes} {v : Value} (h : decode (f ++ r) = .ok (v, r)) :
    decode f = .ok (v, []) := by
  obtain ⟨hfits, p, hp, e⟩ := decode_iff.1 h
  exact decode_iff.2 ⟨hfits, p, hp, by rw [List.append_nil, List.append_cancel_right e]⟩

/-! ### The result -/

/-- **`Decode` is monotone in its input.**  A value it returns and a protocol error stay, whatever
follows; the clean end of file is the empty input; and every non-empty strict prefix of a frame that
it accepts, alone or with anything behind it, is an unexpected end of file. -/
theorem decode_monotone :
    (∀ (b b' : Bytes) (v : Value) (r : Bytes), decode b = .ok (v, r) →
        decode (b ++ b') = .ok (v, r ++ b')) ∧
      (∀ (b b' : Bytes) (e : ProtocolError), decode b = .error (.protocol e) →
        decode (b ++ b') = .error (.protocol e)) ∧
      (∀ b : Bytes, decode b = .error .eof ↔ b = []) ∧
      ∀ (f r p : Bytes) (v : Value), decode (f ++ r) = .ok (v, r) → Torn p f → p ≠ [] →
        decode p = .error .unexpectedEOF :=
  ⟨fun _ b' _ _ h => decode_steady.ok h b', fun _ b' _ h => decode_steady.error h rfl b',
    fun _ => decode_eof_iff, fun _ _ _ _ h hp hne => decode_torn (decode_alone h) hp hne⟩

/-- A null array with bytes behind it, an unknown type byte, and a bulk string cut before its
CRLF. -/
theorem decode_monotone_examples :
    decode (txt "*-1\r\nx" ++ txt "y") = .ok (.nullArray, txt "x" ++ txt "y") ∧
      decode (txt "?" ++ txt "+OK\r\n") = .error (.protocol (.unknownType 63)) ∧
      decode (txt "$2\r\nab") = .error .unexpectedEOF := by
  obtain ⟨hok, herror, -, htorn⟩ := decode_monotone
  refine ⟨hok _ _ _ _ rfl, herror _ _ _ rfl,
    htorn (txt "$2\r\nab\r\n") (txt "!") _ (.bulkString (some (txt "ab"))) rfl ?_ (by decide)⟩
  exact ⟨⟨txt "\r\n", rfl⟩, by decide⟩

end MiniRedis.Protocol
