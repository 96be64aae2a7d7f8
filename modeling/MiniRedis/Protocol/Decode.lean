import Mathlib.Data.List.TakeWhile
import MiniRedis.Protocol.Value
import MiniRedis.Support.Frames

/-!
# Protocol — `Decode`

`internal/protocol/decoder.go` over the bytes still unread.  `bufio.Reader` blocks until a read is
complete, so what decides a call is only the bytes that follow and whether the stream then ends: a
call returns the value with the bytes behind it, or the error.

`make` panics on a length that is negative or past the address space.  The panic is one more way
for the call to end (`DecodeError.panic`): no error value is returned and the goroutine dies.

A frame is at least one byte, so `Decode` on `b` nests at most `b.length` deep: `decodeFuel` carries
that bound, `decode` starts it at `b.length`, and `decodeFuel_eq` says any larger bound gives the
same.  `decode_cons` is the equation without the bound.

For each reader one lemma says when it succeeds (`readLine_eq_ok`, `readInt_eq_ok`,
`decodeBulk_eq_ok`, `decodeArray_eq_ok`) and one what its errors are (`readLine_eq_error` and so
on); what follows needs no other.
-/

namespace MiniRedis.Protocol
open MiniRedis.Frames

/-- What is wrong with a frame: the `errors.New` and `fmt.Errorf` of the decoder, with the bytes
their messages quote. -/
inductive ProtocolError where
  | unknownType (typeByte : UInt8)
  | lineEnd
  | bulkEnd
  | invalidInteger (line : Bytes)
deriving DecidableEq, Repr

/-- How `Decode` fails: at a clean end of the input, inside a frame, on a malformed frame, or by a
panic of `make`. -/
inductive DecodeError where
  | eof
  | unexpectedEOF
  | protocol (e : ProtocolError)
  | panic
deriving DecidableEq, Repr

/-- `unexpectEOF`. -/
def unexpectEOF : DecodeError → DecodeError
  | .eof => .unexpectedEOF
  | e => e

/-- `make([]T, n)` succeeds, `size` being the size of a `T`. -/
def canMake (size : Nat) (n : Int64) : Bool :=
  0 ≤ n.toInt ∧ n.toNatClampNeg * size ≤ maxAlloc

/-- `readLine`: `ReadBytes('\n')`, then the CRLF stripped. -/
def readLine : Reader Bytes UInt8 DecodeError := fun r =>
  match r.dropWhile (· ≠ 10) with
  | [] => .error .unexpectedEOF
  | _ :: rest =>
      let line := r.takeWhile (· ≠ 10)
      if line.getLast? = some 13 then .ok (line.dropLast, rest) else .error (.protocol .lineEnd)

/-- `readInt`. -/
def readInt : Reader Int64 UInt8 DecodeError := fun r =>
  (readLine r).bind fun ⟨line, r⟩ => match parseInt line with
    | some n => .ok (n, r)
    | none => .error (.protocol (.invalidInteger line))

/-- `decodeBulk`.  `io.ReadFull` wants the payload and two more bytes; short of them it ends in an
EOF that `unexpectEOF` turns into `io.ErrUnexpectedEOF`. -/
def decodeBulk : Reader Value UInt8 DecodeError := fun r =>
  (readInt r).bind fun ⟨n, r⟩ =>
    if n.toInt < 0 then .ok (.bulkString none, r)
    else if canMake 1 (n + 2) then
      match r.drop n.toNatClampNeg with
      | c :: d :: rest =>
          if c = 13 ∧ d = 10 then .ok (.bulkString (some (r.take n.toNatClampNeg)), rest)
          else .error (.protocol .bulkEnd)
      | _ => .error .unexpectedEOF
    else .error .panic

/-- `decodeArray`, with the call of `Decode` on each element as a parameter. -/
def decodeArray (dec : Reader Value UInt8 DecodeError) : Reader Value UInt8 DecodeError := fun r =>
  (readInt r).bind fun ⟨n, r⟩ =>
    if n.toInt < 0 then .ok (.nullArray, r)
    else if canMake valueSize n then
      match readN dec n.toNatClampNeg r with
      | .error e => .error (unexpectEOF e)
      | .ok (vs, r) => .ok (.array vs, r)
    else .error .panic

/-- The body of `Decode` behind the type byte. -/
def decodeBody (dec : Reader Value UInt8 DecodeError) (typeByte : UInt8) :
    Reader Value UInt8 DecodeError := fun r =>
  if typeByte = 43 then (readLine r).map fun l => (.simpleString l.1, l.2)
  else if typeByte = 45 then (readLine r).map fun l => (.error l.1, l.2)
  else if typeByte = 58 then (readInt r).map fun l => (.integer l.1, l.2)
  else if typeByte = 36 then decodeBulk r
  else if typeByte = 42 then decodeArray dec r
  else .error (.protocol (.unknownType typeByte))

/-- `Decode`, nested at most so deep. -/
def decodeFuel : Nat → Reader Value UInt8 DecodeError
  | 0, _ => .error .eof
  | _ + 1, [] => .error .eof
  | f + 1, typeByte :: r => decodeBody (decodeFuel f) typeByte r

/-- `protocol.Decode`. -/
def decode (b : Bytes) : Except DecodeError (Value × Bytes) := decodeFuel b.length b

/-! ### Lines and lengths -/

/-- A line is read up to its CRLF, -/
theorem readLine_append {s : Bytes} (hs : (10 : UInt8) ∉ s) (rest : Bytes) :
    readLine (s ++ crlf ++ rest) = .ok (s, rest) := by
  have hp : ∀ b ∈ s ++ [13], decide (b ≠ (10 : UInt8)) = true := by
    intro b hb
    rcases List.mem_append.mp hb with hb | hb
    · exact decide_eq_true fun e => hs (e ▸ hb)
    · rw [List.mem_singleton.mp hb]; decide
  have hsplit : s ++ crlf ++ rest = (s ++ [13]) ++ 10 :: rest := by simp [crlf]
  unfold readLine
  rw [hsplit, List.dropWhile_append_of_pos hp, List.takeWhile_append_of_pos hp]
  simp

/-- and there is no other way to read one. -/
theorem readLine_eq_ok {r s rest : Bytes} :
    readLine r = .ok (s, rest) ↔ (10 : UInt8) ∉ s ∧ r = s ++ crlf ++ rest := by
  refine ⟨fun h => ?_, fun ⟨hs, hr⟩ => hr ▸ readLine_append hs rest⟩
  unfold readLine at h
  split at h
  · cases h
  · rename_i x xs hdrop
    dsimp only at h
    split at h
    case isFalse => cases h
    case isTrue hlast =>
      cases h
      obtain ⟨ys, hys⟩ := List.getLast?_eq_some_iff.1 hlast
      have hx : x = 10 := by
        have hhead := List.head?_dropWhile_not (fun b : UInt8 => decide (b ≠ 10)) r
        rw [hdrop] at hhead
        simpa using hhead
      have hr := List.takeWhile_append_dropWhile (p := fun b : UInt8 => decide (b ≠ 10)) (l := r)
      refine ⟨fun hm => ?_, ?_⟩
      · simpa using List.mem_takeWhile_imp (List.dropLast_subset _ hm)
      · rw [hys, List.dropLast_concat]
        rw [hys, hdrop, hx] at hr
        rw [← hr]
        simp [crlf]

/-- An integer is read exactly from a line that is a numeral of it. -/
theorem readInt_eq_ok {r rest : Bytes} {n : Int64} :
    readInt r = .ok (n, rest) ↔ ∃ s, Numeral s n.toInt ∧ r = s ++ crlf ++ rest := by
  constructor
  · intro h
    obtain ⟨⟨line, r'⟩, hl, h⟩ := bind_eq_ok.1 h
    dsimp only at h
    split at h
    · rename_i m hm
      cases h
      exact ⟨line, parseInt_iff.1 hm, (readLine_eq_ok.1 hl).2⟩
    · cases h
  · rintro ⟨s, hs, rfl⟩
    simp only [readInt, readLine_append hs.line, Except.bind, parseInt_iff.2 hs]

/-- What `make` serves: a length that is not negative, for no more than `maxAlloc` bytes. -/
theorem canMake_iff {size : Nat} {n : Int64} :
    canMake size n = true ↔ 0 ≤ n.toInt ∧ n.toInt.toNat * size ≤ maxAlloc := by
  simp [canMake, Int64.toNat_toInt]

/-- `make` serves a payload with its CRLF just when their length, added without overflow, is one it
serves. -/
theorem canMake_add_two {n : Int64} (hn : 0 ≤ n.toInt) :
    canMake 1 (n + 2) = true ↔ n.toInt.toNat + 2 ≤ maxAlloc := by
  have hlt := n.toInt_lt
  have hadd : (n + 2).toInt = (n.toInt + 2).bmod (2 ^ 64) := Int64.toInt_add n 2
  have hmax : maxAlloc = 281474976710656 := rfl
  rw [canMake_iff, hadd, Int.bmod, mul_one]
  split <;> omega

/-! ### Bulk strings and arrays -/

/-- The bulk strings that are read: null, or as many bytes as the header says. -/
theorem decodeBulk_eq_ok {r rest : Bytes} {v : Value} :
    decodeBulk r = .ok (v, rest) ↔ ∃ n r', readInt r = .ok (n, r') ∧
      (n.toInt < 0 ∧ v = .bulkString none ∧ r' = rest ∨
        ∃ b : Bytes, n.toInt = b.length ∧ b.length + 2 ≤ maxAlloc ∧ v = .bulkString (some b) ∧
          r' = b ++ crlf ++ rest) := by
  constructor
  · intro h
    obtain ⟨⟨n, r'⟩, hn, h⟩ := bind_eq_ok.1 h
    refine ⟨n, r', hn, ?_⟩
    dsimp only at h
    split at h
    case isTrue hneg =>
      cases h
      exact .inl ⟨hneg, rfl, rfl⟩
    case isFalse hpos =>
      split at h
      case isFalse => cases h
      case isTrue hmake =>
        split at h
        · rename_i c d rest' hdrop
          split at h
          case isFalse => cases h
          case isTrue hcd =>
            cases h
            -- the payload has its length, as something follows it
            have hlen : (r'.take n.toNatClampNeg).length = n.toNatClampNeg := by
              have := congrArg List.length hdrop
              simp only [List.length_drop, List.length_cons] at this
              rw [List.length_take]
              omega
            have hmax := (canMake_add_two (Int.not_lt.1 hpos)).1 hmake
            rw [Int64.toNat_toInt] at hmax
            refine .inr ⟨_, ?_, by omega, rfl, ?_⟩
            · rw [hlen, ← Int64.toNat_toInt]
              omega
            · conv_lhs => rw [← List.take_append_drop n.toNatClampNeg r', hdrop]
              rw [hcd.1, hcd.2]
              simp [crlf]
        · cases h
  · rintro ⟨n, r', hn, ⟨hneg, rfl, rfl⟩ | ⟨b, hlen, hmax, rfl, rfl⟩⟩
    · simp only [decodeBulk, hn, Except.bind, if_pos hneg]
    · have hclamp : n.toNatClampNeg = b.length := by
        rw [← Int64.toNat_toInt, hlen, Int.toNat_natCast]
      have hmake : canMake 1 (n + 2) = true := (canMake_add_two (by omega)).2 (by omega)
      simp only [decodeBulk, hn, Except.bind]
      rw [if_neg (by omega), if_pos hmake, hclamp]
      simp [crlf]

/-- The arrays that are read: null, or as many elements as the header says. -/
theorem decodeArray_eq_ok {dec : Reader Value UInt8 DecodeError} {r rest : Bytes} {v : Value} :
    decodeArray dec r = .ok (v, rest) ↔ ∃ n r', readInt r = .ok (n, r') ∧
      (n.toInt < 0 ∧ v = .nullArray ∧ r' = rest ∨
        ∃ vs : List Value, n.toInt = vs.length ∧ vs.length * valueSize ≤ maxAlloc ∧
          v = .array vs ∧ readN dec vs.length r' = .ok (vs, rest)) := by
  constructor
  · intro h
    obtain ⟨⟨n, r'⟩, hn, h⟩ := bind_eq_ok.1 h
    refine ⟨n, r', hn, ?_⟩
    dsimp only at h
    split at h
    case isTrue hneg =>
      cases h
      exact .inl ⟨hneg, rfl, rfl⟩
    case isFalse hpos =>
      split at h
      case isFalse => cases h
      case isTrue hmake =>
        split at h
        · cases h
        · rename_i vs r'' hvs
          cases h
          have hlen := readN_count _ hvs
          obtain ⟨-, hmax⟩ := canMake_iff.1 hmake
          rw [Int64.toNat_toInt, ← hlen] at hmax
          refine .inr ⟨vs, ?_, hmax, rfl, hlen.symm ▸ hvs⟩
          rw [hlen, ← Int64.toNat_toInt]
          omega
  · rintro ⟨n, r', hn, ⟨hneg, rfl, rfl⟩ | ⟨vs, hlen, hmax, rfl, hvs⟩⟩
    · simp only [decodeArray, hn, Except.bind, if_pos hneg]
    · have hclamp : n.toNatClampNeg = vs.length := by
        rw [← Int64.toNat_toInt, hlen, Int.toNat_natCast]
      have hmake : canMake valueSize n = true := canMake_iff.2 ⟨by omega, by
        rwa [Int64.toNat_toInt, hclamp]⟩
      simp only [decodeArray, hn, Except.bind]
      rw [if_neg (by omega), if_pos hmake, hclamp, hvs]

/-! ### How a call fails -/

/-- A line or a number that cannot be read is no clean end of file and no panic. -/
theorem readLine_eq_error {r : Bytes} {e : DecodeError} (h : readLine r = .error e) :
    e ≠ .eof ∧ e ≠ .panic := by
  unfold readLine at h
  split at h
  · cases h
    exact ⟨nofun, nofun⟩
  · dsimp only at h
    split at h <;> cases h
    exact ⟨nofun, nofun⟩

/-- A header fails inside the frame, and without a panic. -/
theorem readInt_eq_error {r : Bytes} {e : DecodeError} (h : readInt r = .error e) :
    e ≠ .eof ∧ e ≠ .panic := by
  rcases bind_eq_error.1 h with h | ⟨⟨line, r'⟩, -, h⟩
  · exact readLine_eq_error h
  · dsimp only at h
    split at h <;> cases h
    exact ⟨nofun, nofun⟩

/-- A bulk string fails inside the frame, by a panic only where `make` does not serve its length. -/
theorem decodeBulk_eq_error {r : Bytes} {e : DecodeError} (h : decodeBulk r = .error e) :
    (e ≠ .eof ∧ e ≠ .panic) ∨
      e = .panic ∧ ∃ n r', readInt r = .ok (n, r') ∧ 0 ≤ n.toInt ∧
        maxAlloc < n.toInt.toNat + 2 := by
  rcases bind_eq_error.1 h with h | ⟨⟨n, r'⟩, hn, h⟩
  · exact .inl (readInt_eq_error h)
  · dsimp only at h
    split at h
    case isTrue => cases h
    case isFalse hpos =>
      split at h
      case isTrue =>
        -- the payload is short, or not ended by a CRLF
        split at h
        · split at h <;> cases h
          exact .inl ⟨nofun, nofun⟩
        · cases h
          exact .inl ⟨nofun, nofun⟩
      case isFalse hmake =>
        cases h
        refine .inr ⟨rfl, n, r', hn, Int.not_lt.1 hpos, Nat.lt_of_not_le fun hle => ?_⟩
        exact hmake ((canMake_add_two (Int.not_lt.1 hpos)).2 hle)

/-- So does an array, or by the panic of an element. -/
theorem decodeArray_eq_error {dec : Reader Value UInt8 DecodeError} {r : Bytes} {e : DecodeError}
    (h : decodeArray dec r = .error e) :
    (e ≠ .eof ∧ e ≠ .panic) ∨ ∃ n r', readInt r = .ok (n, r') ∧ 0 ≤ n.toInt ∧
      (e = .panic ∧ maxAlloc < n.toInt.toNat * valueSize ∨
        ∃ e', readN dec n.toInt.toNat r' = .error e' ∧ e = unexpectEOF e') := by
  rcases bind_eq_error.1 h with h | ⟨⟨n, r'⟩, hn, h⟩
  · exact .inl (readInt_eq_error h)
  · dsimp only at h
    split at h
    case isTrue => cases h
    case isFalse hpos =>
      refine .inr ⟨n, r', hn, Int.not_lt.1 hpos, ?_⟩
      split at h
      case isTrue =>
        split at h
        · rename_i e' he
          cases h
          exact .inr ⟨e', by rwa [Int64.toNat_toInt], rfl⟩
        · cases h
      case isFalse hmake =>
        cases h
        refine .inl ⟨rfl, Nat.lt_of_not_le fun hle => ?_⟩
        exact hmake (canMake_iff.2 ⟨Int.not_lt.1 hpos, hle⟩)

/-! ### A call consumes what it reads -/

theorem readLine_shrinks : Shrinks readLine := by
  intro r line rest h
  obtain ⟨-, rfl⟩ := readLine_eq_ok.1 h
  have hcrlf : crlf.length = 2 := rfl
  simp only [List.length_append]
  omega

theorem readInt_shrinks : Shrinks readInt := by
  intro r n rest h
  obtain ⟨s, hs, rfl⟩ := readInt_eq_ok.1 h
  exact readLine_shrinks _ _ _ (readLine_append hs.line rest)

theorem decodeBulk_shrinks : Shrinks decodeBulk := by
  intro r v rest h
  obtain ⟨n, r', hn, hv⟩ := decodeBulk_eq_ok.1 h
  have hr := readInt_shrinks _ _ _ hn
  rcases hv with ⟨-, -, rfl⟩ | ⟨b, -, -, -, rfl⟩
  · exact hr
  · simp only [List.length_append] at hr
    omega

theorem decodeArray_shrinks {dec : Reader Value UInt8 DecodeError} (hd : Shrinks dec) :
    Shrinks (decodeArray dec) := by
  intro r v rest h
  obtain ⟨n, r', hn, hv⟩ := decodeArray_eq_ok.1 h
  have hr := readInt_shrinks _ _ _ hn
  rcases hv with ⟨-, -, rfl⟩ | ⟨vs, -, -, -, hvs⟩
  · exact hr
  · have hitems := readN_length hd _ hvs
    omega

/-- What a call leaves unread is shorter than what it was given. -/
theorem decodeFuel_shrinks : ∀ f : Nat, Shrinks (decodeFuel f)
  | 0, b, v, b', h => by simp [decodeFuel] at h
  | f + 1, [], v, b', h => by simp [decodeFuel] at h
  | f + 1, t :: r, v, b', h => by
      refine Nat.lt_succ_of_lt ?_
      simp only [decodeFuel, decodeBody] at h
      split at h
      · obtain ⟨⟨l, r'⟩, hl, h⟩ := map_eq_ok.mp h
        cases h
        exact readLine_shrinks _ _ _ hl
      split at h
      · obtain ⟨⟨l, r'⟩, hl, h⟩ := map_eq_ok.mp h
        cases h
        exact readLine_shrinks _ _ _ hl
      split at h
      · obtain ⟨⟨l, r'⟩, hl, h⟩ := map_eq_ok.mp h
        cases h
        exact readInt_shrinks _ _ _ hl
      split at h
      · exact decodeBulk_shrinks _ _ _ h
      split at h
      · exact decodeArray_shrinks (decodeFuel_shrinks f) _ _ _ h
      · cases h

/-! ### The bound on the nesting plays no part -/

/-- An array depends on what its elements are read from alone. -/
theorem decodeArray_congr {d d' : Reader Value UInt8 DecodeError} (hd : Shrinks d) {r : Bytes}
    (h : ∀ c : Bytes, c.length ≤ r.length → d c = d' c) : decodeArray d r = decodeArray d' r := by
  unfold decodeArray
  cases e : readInt r with
  | error x => rfl
  | ok l =>
      obtain ⟨n, r'⟩ := l
      have hr := readInt_shrinks _ _ _ e
      have hN : readN d n.toNatClampNeg r' = readN d' n.toNatClampNeg r' :=
        readN_congr hd _ _ fun c hc => h c (hc.trans hr.le)
      simp only [Except.bind, hN]

/-- A bound of the length of the input is as good as a larger one. -/
theorem decodeFuel_eq :
    ∀ (f f' : Nat) (b : Bytes), b.length ≤ f → b.length ≤ f' → decodeFuel f b = decodeFuel f' b
  | f, f', [], _, _ => by cases f <;> cases f' <;> rfl
  | f + 1, f' + 1, t :: r, h, h' => by
      simp only [List.length_cons, Nat.add_le_add_iff_right] at h h'
      have hA : decodeArray (decodeFuel f) r = decodeArray (decodeFuel f') r :=
        decodeArray_congr (decodeFuel_shrinks f) fun c hc =>
          decodeFuel_eq f f' c (hc.trans h) (hc.trans h')
      simp only [decodeFuel, decodeBody, hA]

@[simp] theorem decode_nil : decode [] = .error .eof := rfl

/-- **`Decode` on a type byte and what follows it.** -/
theorem decode_cons (t : UInt8) (r : Bytes) : decode (t :: r) = decodeBody decode t r := by
  have hA : decodeArray (decodeFuel r.length) r = decodeArray decode r :=
    decodeArray_congr (decodeFuel_shrinks _) fun c hc => decodeFuel_eq _ _ c hc le_rfl
  show decodeBody (decodeFuel r.length) t r = decodeBody decode t r
  simp only [decodeBody, hA]

theorem decode_plus (r : Bytes) :
    decode (43 :: r) = (readLine r).map fun l => (.simpleString l.1, l.2) := decode_cons 43 r

theorem decode_minus (r : Bytes) :
    decode (45 :: r) = (readLine r).map fun l => (.error l.1, l.2) := decode_cons 45 r

theorem decode_colon (r : Bytes) :
    decode (58 :: r) = (readInt r).map fun l => (.integer l.1, l.2) := decode_cons 58 r

theorem decode_dollar (r : Bytes) : decode (36 :: r) = decodeBulk r := decode_cons 36 r

theorem decode_star (r : Bytes) : decode (42 :: r) = decodeArray decode r := decode_cons 42 r

end MiniRedis.Protocol
