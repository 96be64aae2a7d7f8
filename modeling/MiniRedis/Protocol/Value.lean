import MiniRedis.Support.Decimal

/-!
# Protocol — values and their encoding

`Value` is the tagged union of `internal/protocol/value.go`, one constructor for each of the five
type bytes; a nil `Array` is `nullArray`, a nil `Bulk` is `bulkString none`.  `encode` is `Encode`
of `encoder.go` into a writer that accepts every byte.

A value is *well formed* (`Value.WellFormed`) when its simple strings and errors have no line feed
and its lengths are ones `make` can allocate on the decoding side.
-/

namespace MiniRedis.Protocol

/-- `protocol.Value`. -/
inductive Value where
  | simpleString (str : Bytes)
  | error (str : Bytes)
  | integer (int : Int64)
  | bulkString (bulk : Option Bytes)
  | nullArray
  | array (items : List Value)
deriving Repr, Inhabited

namespace Value

mutual

/-- Equality of values is decidable.  The recursion goes through arrays, where nothing is derived.
-/
def decEq : (v w : Value) → Decidable (v = w)
  | .simpleString s, w => match w with
      | .simpleString t => decidable_of_iff (s = t) (by simp)
      | .error _ | .integer _ | .bulkString _ | .nullArray | .array _ => isFalse nofun
  | .error s, w => match w with
      | .error t => decidable_of_iff (s = t) (by simp)
      | .simpleString _ | .integer _ | .bulkString _ | .nullArray | .array _ => isFalse nofun
  | .integer m, w => match w with
      | .integer n => decidable_of_iff (m = n) (by simp)
      | .simpleString _ | .error _ | .bulkString _ | .nullArray | .array _ => isFalse nofun
  | .bulkString a, w => match w with
      | .bulkString b => decidable_of_iff (a = b) (by simp)
      | .simpleString _ | .error _ | .integer _ | .nullArray | .array _ => isFalse nofun
  | .nullArray, w => match w with
      | .nullArray => isTrue rfl
      | .simpleString _ | .error _ | .integer _ | .bulkString _ | .array _ => isFalse nofun
  | .array vs, w => match w with
      | .array ws => match decEqList vs ws with
          | isTrue h => isTrue (h ▸ rfl)
          | isFalse h => isFalse fun e => h (Value.array.inj e)
      | .simpleString _ | .error _ | .integer _ | .bulkString _ | .nullArray => isFalse nofun

/-- The same for the elements of an array. -/
def decEqList : (vs ws : List Value) → Decidable (vs = ws)
  | [], [] => isTrue rfl
  | [], _ :: _ => isFalse nofun
  | _ :: _, [] => isFalse nofun
  | v :: vs, w :: ws => match decEq v w, decEqList vs ws with
      | isTrue h, isTrue h' => isTrue (h ▸ h' ▸ rfl)
      | isFalse h, _ => isFalse fun e => h (List.cons.inj e).1
      | _, isFalse h => isFalse fun e => h (List.cons.inj e).2

end

instance : DecidableEq Value := decEq

/-- `v.Bulk`: nil unless the value is a bulk string. -/
def bulk : Value → Option Bytes
  | .bulkString b => b
  | _ => none

/-- `string(v.Bulk)`. -/
def str (v : Value) : Bytes := v.bulk.getD []

/-- `v.Array`: empty unless the value is an array. -/
def items : Value → List Value
  | .array vs => vs
  | _ => []

/-- `v.Type == TypeArray && len(v.Array) > 0`. -/
def isCommand (v : Value) : Bool := !v.items.isEmpty

/-- `v.Type == TypeError`. -/
def isError : Value → Bool
  | .error _ => true
  | _ => false

end Value

/-! ### `Encode` -/

/-- The line end `\r\n`. -/
def crlf : Bytes := [13, 10]

mutual

/-- `protocol.Encode`: the bytes it writes. -/
def encode : Value → Bytes
  | .simpleString s => 43 :: (s ++ crlf)
  | .error s => 45 :: (s ++ crlf)
  | .integer n => 58 :: (formatInt n ++ crlf)
  | .bulkString none => 36 :: (txt "-1" ++ crlf)
  | .bulkString (some b) => 36 :: (formatNat b.length ++ crlf) ++ (b ++ crlf)
  | .nullArray => 42 :: (txt "-1" ++ crlf)
  | .array vs => 42 :: (formatNat vs.length ++ crlf) ++ encodeItems vs

/-- The elements of an array, one after the other. -/
def encodeItems : List Value → Bytes
  | [] => []
  | v :: vs => encode v ++ encodeItems vs

end

/-- A frame starts with its type byte. -/
theorem encode_ne_nil : ∀ v : Value, encode v ≠ []
  | .simpleString _ | .error _ | .integer _ | .bulkString none | .bulkString (some _) | .nullArray
  | .array _ => by simp [encode]

/-! ### Well-formed values -/

/-- The largest allocation the runtime serves on a 64-bit platform, in bytes. -/
def maxAlloc : Nat := 2 ^ 48

/-- `unsafe.Sizeof(protocol.Value{})`: a byte, a string, an `int64` and two slices, aligned. -/
def valueSize : Nat := 80

mutual

/-- The values `Encode` and `Decode` agree on: no line feed in a string that a line carries, and
lengths `make` accepts when the frame is decoded. -/
def Value.WellFormed : Value → Prop
  | .simpleString s => 10 ∉ s
  | .error s => 10 ∉ s
  | .integer _ => True
  | .bulkString none => True
  | .bulkString (some b) => b.length + 2 ≤ maxAlloc
  | .nullArray => True
  | .array vs => vs.length * valueSize ≤ maxAlloc ∧ WellFormedItems vs

/-- The same for the elements of an array. -/
def WellFormedItems : List Value → Prop
  | [] => True
  | v :: vs => v.WellFormed ∧ WellFormedItems vs

end

mutual

/-- The strings a line carries have no line feed. -/
def Value.OneLine : Value → Prop
  | .simpleString s => 10 ∉ s
  | .error s => 10 ∉ s
  | .array vs => OneLineItems vs
  | .integer _ | .bulkString _ | .nullArray => True

/-- The same for the elements of an array. -/
def OneLineItems : List Value → Prop
  | [] => True
  | v :: vs => v.OneLine ∧ OneLineItems vs

end

mutual

/-- The lengths are ones `make` accepts when the frame is decoded. -/
def Value.Fits : Value → Prop
  | .bulkString (some b) => b.length + 2 ≤ maxAlloc
  | .array vs => vs.length * valueSize ≤ maxAlloc ∧ FitsItems vs
  | .simpleString _ | .error _ | .integer _ | .bulkString none | .nullArray => True

/-- The same for the elements of an array. -/
def FitsItems : List Value → Prop
  | [] => True
  | v :: vs => v.Fits ∧ FitsItems vs

end

theorem oneLineItems_iff {vs : List Value} : OneLineItems vs ↔ ∀ v ∈ vs, v.OneLine := by
  induction vs with
  | nil => simp [OneLineItems]
  | cons v vs ih => simp [OneLineItems, ih]

theorem fitsItems_iff {vs : List Value} : FitsItems vs ↔ ∀ v ∈ vs, v.Fits := by
  induction vs with
  | nil => simp [FitsItems]
  | cons v vs ih => simp [FitsItems, ih]

mutual

/-- Well formed is: one line where a line is meant, and lengths that fit. -/
theorem Value.wellFormed_iff : ∀ v : Value, v.WellFormed ↔ v.OneLine ∧ v.Fits
  | .simpleString _ | .error _ => by simp [Value.WellFormed, Value.OneLine, Value.Fits]
  | .integer _ | .bulkString none | .nullArray => by
      simp [Value.WellFormed, Value.OneLine, Value.Fits]
  | .bulkString (some _) => by simp [Value.WellFormed, Value.OneLine, Value.Fits]
  | .array vs => by
      simp only [Value.WellFormed, Value.OneLine, Value.Fits, wellFormedItems_and vs]
      tauto

theorem wellFormedItems_and : ∀ vs : List Value,
    WellFormedItems vs ↔ OneLineItems vs ∧ FitsItems vs
  | [] => by simp [WellFormedItems, OneLineItems, FitsItems]
  | v :: vs => by
      simp only [WellFormedItems, OneLineItems, FitsItems, Value.wellFormed_iff v,
        wellFormedItems_and vs]
      tauto

end

end MiniRedis.Protocol
